import PkgManager.InstallMoves

namespace PkgManager.InstallStatus

open Interleaving Machine Installer InstallWorker InstallThreads InstallMoves

/-- The status tells one story, and a cancel stands until the next commit. -/
structure Coherent (g : Globals) : Prop where
  outcome : ¬(g.status.completed = true ∧ g.status.failed = true)
  installing : g.status.isInstalling = true → g.status.completed = false ∧ g.status.failed = false
  canceled : g.record.canceledSinceStart = true → g.status.isInstalling = false ∧
    g.status.completed = false ∧ g.status.failed = true ∧ g.status.statusStr = .canceled

def maySetError (g : Globals) : Bool := !g.status.completed && g.status.statusStr ≠ .canceled

/-- The sections that recheck nothing meet a status they may overwrite: an error
is not reported over a completed or canceled install, a completion not over a
failed one, and `status_str` is not rewritten after a cancel. -/
def keepsStatus (p : Pool Site Thread) (i : Nat) (e : Event) : Bool :=
  let g := p.shared.inst
  match p.threads[i]?, e with
  | some (.worker w), .work ev =>
    (!(reportsError g w ev || reportsAndClears w ev) || maySetError g) &&
      (!completes g w ev || !g.status.failed) &&
      (!displays w ev || g.status.statusStr ≠ .canceled)
  | some _, .call .expired => maySetError g
  | some _, .call ev => !callDisplays ev || g.status.statusStr ≠ .canceled
  | _, _ => true

/-- The invariant: after a cancel its flag is up as well. -/
structure StatusInv (g : Globals) : Prop extends Coherent g where
  flag : g.record.canceledSinceStart = true → g.cancelStream = true

variable {g g' : Globals}

theorem StatusInv.congr (h : StatusInv g) (hs : g'.status = g.status)
    (hc : g.cancelStream = true → g'.cancelStream = true)
    (hr : g'.record.canceledSinceStart = g.record.canceledSinceStart) : StatusInv g' := by
  refine ⟨⟨?_, ?_, ?_⟩, ?_⟩
  · rw [hs]
    exact h.outcome
  · rw [hs]
    exact h.installing
  · rw [hs, hr]
    exact h.canceled
  · rw [hr]
    exact fun hcan => hc (h.flag hcan)

theorem not_canceled (h : StatusInv g) (hs : g.status.statusStr ≠ .canceled) :
    g.record.canceledSinceStart = false :=
  Bool.eq_false_iff.mpr fun hc => hs (h.canceled hc).2.2.2

theorem StatusInv.display (h : StatusInv g) (hc : g.record.canceledSinceStart = false)
    (str : StatusStr) (direct waiting : Bool) : StatusInv (display str direct waiting g) := by
  refine ⟨⟨h.outcome, h.installing, ?_⟩, h.flag⟩
  intro hcan
  exact absurd (hc.symm.trans hcan) Bool.false_ne_true

theorem StatusInv.failWith (h : StatusInv g) (hm : maySetError g = true) (code : Int) :
    StatusInv (failWith code g) := by
  unfold maySetError at hm
  obtain ⟨hcomp, hstr⟩ := Bool.and_eq_true_iff.mp hm
  have hcompleted : g.status.completed = false := by simpa using hcomp
  have hcan := not_canceled h (of_decide_eq_true hstr)
  refine ⟨⟨?_, nofun, ?_⟩, h.flag⟩
  · rintro ⟨hc, _⟩
    exact absurd (hcompleted.symm.trans hc) Bool.false_ne_true
  · intro hc
    exact absurd (hcan.symm.trans hc) Bool.false_ne_true

theorem StatusInv.complete (h : StatusInv g) (hf : g.status.failed = false) :
    StatusInv (complete g) := by
  have hcan : g.record.canceledSinceStart = false := by
    apply Bool.eq_false_iff.mpr
    intro hc
    exact absurd (hf.symm.trans (h.canceled hc).2.2.1) Bool.false_ne_true
  unfold Installer.complete
  split
  · refine ⟨⟨?_, fun _ => ⟨rfl, hf⟩, ?_⟩, h.flag⟩
    · rintro ⟨hc, _⟩
      cases hc
    · intro hc
      exact absurd (hcan.symm.trans hc) Bool.false_ne_true
  · refine ⟨⟨?_, nofun, ?_⟩, h.flag⟩
    · rintro ⟨_, hfail⟩
      exact absurd (hf.symm.trans hfail) Bool.false_ne_true
    · intro hc
      exact absurd (hcan.symm.trans hc) Bool.false_ne_true

theorem statusInv_commit {record : Record} {pending : Path} {created : Bool}
    (h : Commit g g' record pending created) (hr : record.canceledSinceStart = false) :
    StatusInv g' := by
  have hcan : g'.record.canceledSinceStart = false := by rw [h.record, hr]
  have hno : g'.record.canceledSinceStart ≠ true := Bool.eq_false_iff.mp hcan
  refine ⟨⟨?_, ?_, fun hc => absurd hc hno⟩, fun hc => absurd hc hno⟩
  · rintro ⟨hc, _⟩
    exact absurd (h.completed.symm.trans hc) Bool.false_ne_true
  · intro hi
    refine ⟨h.completed, ?_⟩
    rw [h.failed, ← h.installing, hi]
    rfl

theorem StatusInv.cancel (h : StatusInv g) : StatusInv (installerCancel g).1 := by
  unfold installerCancel
  split
  · exact h
  · rename_i hi
    split
    · exact h
    · have hon : g.status.isInstalling = true := by simpa using hi
      obtain ⟨hc, _⟩ := h.installing hon
      refine ⟨⟨?_, nofun, fun _ => ⟨rfl, hc, rfl, rfl⟩⟩, fun _ => rfl⟩
      rintro ⟨hcomp, _⟩
      exact absurd (hc.symm.trans hcomp) Bool.false_ne_true

theorem StatusInv.detach (h : StatusInv g) :
    StatusInv (installerDetachDirectStorage g).1 := by
  unfold installerDetachDirectStorage
  split
  · exact h
  · rename_i hi
    have hon : g.status.isInstalling = true := by simpa using hi
    split
    · exact h
    · refine ⟨⟨nofun, nofun, ?_⟩, h.flag⟩
      intro hc
      exact absurd (hon.symm.trans (h.canceled hc).1) (by decide)

/-- The invariant survives every worker event that meets the condition. -/
theorem statusInv_move {w w' : Worker} {e : WorkerEvent} {new : List Worker}
    (hm : Move g w e g' w' new) (h : StatusInv g)
    (herr : (reportsError g w e || reportsAndClears w e) = true → maySetError g = true)
    (hcomp : completes g w e = true → g.status.failed = false)
    (hdisp : displays w e = true → g.status.statusStr ≠ .canceled) : StatusInv g' := by
  cases hm with
  | quiet => exact h
  | settle => exact h
  | detached => exact h
  | step => exact h
  | leave => exact h
  | display hd => exact h.display (not_canceled h (hdisp hd)) _ _ _
  | launch hlive =>
    refine h.display (Bool.eq_false_iff.mpr fun hc => ?_) _ _ _
    simp [requestCanceled, h.flag hc] at hlive
  | error he => exact h.failWith (herr (by rw [he, Bool.true_or])) _
  | completion hc => exact h.complete (hcomp hc)
  | fail he => exact (h.failWith (herr (by rw [he, Bool.or_true])) _).congr rfl id rfl
  | failOut he => exact (h.failWith (herr (by rw [he, Bool.or_true])) _).congr rfl id rfl
  | clear => exact h.congr rfl id rfl
  | capture =>
    obtain ⟨h1, h2, h3⟩ := captureNext_status g
    exact h.congr h1 (fun hc => h2.trans hc) (by rw [h3])
  | exit => exact h.congr rfl id rfl
  | check =>
    obtain ⟨h1, h2, h3⟩ := startCheck_status true g
    exact h.congr h1 (fun hc => h2.trans hc) (by rw [h3])
  | take =>
    obtain ⟨h1, h2, h3⟩ := takeThread_status (some w.id) g
    exact h.congr h1 (fun hc => h2.trans hc) (by rw [h3])
  | commit _ _ _ _ _ hc => exact statusInv_commit hc rfl
  | commitFailed _ _ _ _ _ _ hc => exact statusInv_commit hc rfl
  | nextFailed he => exact (h.failWith (herr (by rw [he, Bool.true_or])) _).congr rfl id rfl

theorem statusInv_call {t t' : Thread} {e : CallEvent} {new : List Thread}
    (hm : CallMove g t e g' t' new) (h : StatusInv g)
    (herr : e = .expired → maySetError g = true)
    (hdisp : callDisplays e = true → g.status.statusStr ≠ .canceled) : StatusInv g' := by
  cases hm with
  | quiet => exact h
  | display hd => exact h.display (not_canceled h (hdisp hd)) _ _ _
  | error he => exact h.failWith (herr he) _
  | check =>
    obtain ⟨h1, h2, h3⟩ := startCheck_status false g
    exact h.congr h1 (fun hc => h2.trans hc) (by rw [h3])
  | take =>
    obtain ⟨h1, h2, h3⟩ := takeThread_status none g
    exact h.congr h1 (fun hc => h2.trans hc) (by rw [h3])
  | commit _ _ _ _ hc => exact statusInv_commit hc rfl
  | commitFailed _ _ _ _ hc => exact statusInv_commit hc rfl
  | cancel => exact h.cancel
  | detach => exact h.detach
  | raise => exact h.congr rfl (fun _ => rfl) rfl
  | stop => exact h.congr rfl id rfl
  | clear => exact h.congr rfl id rfl
  | joined => exact h.congr rfl id rfl

theorem statusInv_step {p q : Pool Site Thread} {i : Nat} {e : Event} (h : StatusInv p.shared.inst)
    (hg : keepsStatus p i e = true) (hs : installs.step p i e = some q) :
    StatusInv q.shared.inst := by
  unfold keepsStatus at hg
  rcases installs_step hs with ⟨w, w', new, ev, ht, rfl, hm, _⟩ | ⟨t, t', new, ev, ht, hw, rfl, hm, _⟩
  · simp only [ht, Bool.and_eq_true_iff, Bool.or_eq_true_iff] at hg
    obtain ⟨⟨h1, h2⟩, h3⟩ := hg
    refine statusInv_move hm h (fun he => ?_) (fun hc => ?_) (fun hd => ?_)
    · rcases h1 with h1 | h1
      · rw [Bool.not_eq_true', he] at h1
        cases h1
      · exact h1
    · rcases h2 with h2 | h2
      · rw [hc] at h2
        cases h2
      · simpa using h2
    · rcases h3 with h3 | h3
      · rw [hd] at h3
        cases h3
      · exact of_decide_eq_true h3
  · refine statusInv_call hm h ?_ ?_
    · rintro rfl
      cases t with
      | worker w => cases hw
      | _ => simpa [ht] using hg
    · intro hd
      cases t with
      | worker w => cases hw
      | _ =>
        cases ev with
        | waitForPart => simpa [ht, callDisplays] using hg
        | found => simpa [ht, callDisplays] using hg
        | _ => cases hd

/-- In every run whose unchecked status sections meet a status they may overwrite,
the status is coherent. -/
theorem status_coherent (live : LiveSession.Live) (n : Nat) (p : Pool Site Thread)
    (h : Reach installs (fun p i e => keepsStatus p i e = true) (start live n) p) :
    Coherent p.shared.inst := by
  suffices StatusInv p.shared.inst from this.toCoherent
  refine h.invariant (fun p => StatusInv p.shared.inst) ?_ fun p i e q hp hg hs =>
    statusInv_step hp hg hs
  exact ⟨⟨nofun, nofun, nofun⟩, nofun⟩

/-- A cancel after which nothing else runs. -/
theorem status_coherent_canceled : ∃ p,
    Reach installs (fun p i e => keepsStatus p i e = true) (start (LiveSession.Live.init true) 2) p ∧
      p.shared.inst.record.canceledSinceStart = true ∧ Coherent p.shared.inst := by
  have hrun : (installs.exec (fun p i e => keepsStatus p i e = true)
      (startEvents streamedPath ++ [(1, .call .cancel)]) (start (LiveSession.Live.init true) 2)).map
      (fun p => p.shared.inst.record.canceledSinceStart) = some true := by rfl
  obtain ⟨p, hp, hc⟩ := Option.map_eq_some_iff.mp hrun
  exact ⟨p, .of_exec hp, hc, status_coherent _ _ p (.of_exec hp)⟩

/-- The completion of a package that was canceled meanwhile. -/
theorem status_coherent_fails :
    ¬∀ live n p, Reach installs (fun _ _ _ => True) (start live n) p → Coherent p.shared.inst := by
  intro hall
  have hrun : (installs.exec (fun _ _ _ => True)
      (startEvents streamedPath ++ verifiedEvents 2 ++ [(1, .call .cancel), (2, .work .go)])
      (start (LiveSession.Live.init true) 2)).map
      (fun p => (p.shared.inst.status.completed, p.shared.inst.status.failed)) =
        some (true, true) := by rfl
  obtain ⟨p, hp, hc⟩ := Option.map_eq_some_iff.mp hrun
  obtain ⟨h1, h2⟩ := Prod.mk.inj hc
  exact (hall _ _ p (.of_exec hp)).outcome ⟨h1, h2⟩

end PkgManager.InstallStatus
