import PkgManager.InstallMoves
import PkgManager.UploadMoves

namespace PkgManager.UploadEnds

open Interleaving Machine LiveSession LiveCalls Installer InstallWorker InstallMoves ControlMessages
  UploadServer UploadThreads UploadMoves

/-- `live:` and a session id. -/
def livePath (sid : Text) : Path := [108, 105, 118, 101, 58] ++ sid

/-- The upload a thread is ending: its owner cancels it, or its socket is gone. -/
def endingSid : Thread → Option Text
  | .rest (.cancel _ sid) => some sid
  | .rest (.ending sid _) => some sid
  | .conn ⟨_, .done, _, _, sid, _, _, _⟩ => some sid
  | .conn ⟨_, .ending _, _, _, sid, _, _, _⟩ => some sid
  | _ => none

def endPc : Thread → Option EndPc
  | .rest (.ending _ pc) => some pc
  | .conn ⟨_, .ending pc, _, _, _, _, _, _⟩ => some pc
  | _ => none

def releasing (t : Thread) : Bool :=
  match endPc t with
  | some (.release _ _) => true
  | _ => false

def cancelsInstall (t : Thread) : Bool :=
  match endPc t with
  | some .cancel => true
  | _ => false

def commits : Event → Bool
  | .install (.call (.commit _ _)) => true
  | .install (.work (.commit _ _)) => true
  | _ => false

/-- The end of an upload finds its own install running, or none it may cancel, and no
install commits before it has released the one it canceled. -/
def endsOwn (p : Pool World Thread) (i : Nat) (e : Event) : Bool :=
  let g := p.shared.site.inst
  match p.threads[i]? with
  | some t =>
    (!cancelsInstall t || !g.status.isInstalling || g.status.isDirectStorage ||
      some g.status.pkgPath = (endingSid t).map livePath) &&
      (!commits e || p.threads.all fun u => !releasing u)
  | none => true

/-- An install of another package is running. -/
def RunsOther (g : Globals) (sid : Text) : Prop :=
  g.status.isInstalling = true ∧ g.status.pkgPath ≠ livePath sid

/-- The state of the install and the session of its stream are as they were. -/
structure Undisturbed (s s' : Site) : Prop where
  status : s'.inst.status = s.inst.status
  cancel : s'.inst.cancelStream = s.inst.cancelStream
  pending : s'.inst.pendingPkgPath = s.inst.pendingPkgPath
  served : s'.served = s.served

/-- The install is canceled and none has committed since. -/
def Stopped (g : Globals) : Prop := g.status.isInstalling = false ∧ g.cancelStream = true

theorem Stopped.kept {g g' : Globals} (h : Stopped g)
    (hi : g'.status.isInstalling = g.status.isInstalling) (hc : g'.cancelStream = g.cancelStream) :
    Stopped g' := ⟨hi.trans h.1, hc.trans h.2⟩

/-- A worker brings no install back; a commit would lower the flag. -/
theorem Stopped.move {g g' : Globals} {w w' : Worker} {e : WorkerEvent} {new : List Worker}
    (h : Stopped g) (hm : Move g w e g' w' new) (hc : g'.cancelStream = g.cancelStream) :
    Stopped g' := by
  cases hm with
  | completion =>
    unfold complete
    have hnone : hasPending g = false := by simp [hasPending, h.2]
    rw [if_neg (by rw [hnone]; decide)]
    exact ⟨rfl, h.2⟩
  | capture => exact h.kept (by rw [(captureNext_status g).1]) hc
  | check => exact h.kept (by rw [(startCheck_status true g).1]) hc
  | take => exact h.kept (by rw [(takeThread_status (some w.id) g).1]) hc
  | commit _ _ _ _ _ hcommit =>
    rw [hcommit.cancel, h.2] at hc
    cases hc
  | commitFailed _ _ _ _ _ _ hcommit =>
    rw [hcommit.cancel, h.2] at hc
    cases hc
  | error => exact ⟨rfl, h.2⟩
  | fail => exact ⟨rfl, h.2⟩
  | failOut => exact ⟨rfl, h.2⟩
  | nextFailed => exact ⟨rfl, h.2⟩
  | _ => exact h

theorem Stopped.call {g g' : Globals} {t t' : InstallThreads.Thread}
    {e : InstallThreads.CallEvent} {new : List InstallThreads.Thread} (h : Stopped g)
    (hm : CallMove g t e g' t' new) (he : ∀ d created, e ≠ .commit d created) : Stopped g' := by
  cases hm with
  | error => exact ⟨rfl, h.2⟩
  | check => exact h.kept (by rw [(startCheck_status false g).1]) (startCheck_status false g).2.1
  | take => exact h.kept (by rw [(takeThread_status none g).1]) (takeThread_status none g).2.1
  | commit _ hcommit => exact absurd hcommit (he _ _)
  | commitFailed _ hcommit => exact absurd hcommit (he _ _)
  | cancel _ _ hz =>
    obtain ⟨_, _, hcancel, _, hidle⟩ := canceled_parts hz
    exact ⟨hidle, hcancel⟩
  | detach _ _ hz =>
    obtain ⟨_, _, _, hidle, hcancel⟩ := detached_parts hz
    exact ⟨hidle, hcancel.trans h.2⟩
  | raise => exact ⟨h.1, rfl⟩
  | _ => exact h

theorem stopped_install {s s' : Site} {t t' : InstallThreads.Thread} {e : InstallThreads.Event}
    {new : List InstallThreads.Thread} (h : InstallThreads.turn s t e = some (s', t', new))
    (he : commits (.install e) = false) (hs : Stopped s.inst) : Stopped s'.inst := by
  cases e with
  | call ce =>
    refine hs.call (call_move h) fun d created hc => ?_
    rw [hc] at he
    cases he
  | work we =>
    cases t with
    | worker w =>
      obtain ⟨⟨s₁, w', new'⟩, hturn, heq⟩ := Option.map_eq_some_iff.mp h
      cases heq
      have hstays := worker_stays hturn fun d created hc => by
        rw [hc] at he
        cases he
      exact hs.move (worker_move hturn) hstays.1.cancel
    | _ => cases h

/-! What the end of an upload does to the install. -/

theorem Undisturbed.refl (s : Site) : Undisturbed s s := ⟨rfl, rfl, rfl, rfl⟩

theorem undisturbed_of_eq {s s' : Site} (hi : s'.inst = s.inst) (hs : s'.served = s.served) :
    Undisturbed s s' := ⟨by rw [hi], by rw [hi], by rw [hi], hs⟩

theorem cancelSession_undisturbed (s : World) (e : SessionEnd) :
    Undisturbed s.site (cancelSession s e).1.site := by
  cases e <;> exact ⟨rfl, rfl, rfl, rfl⟩

/-- The end of an upload disturbs an install where it cancels it and where it
releases it. -/
theorem endUpload_cases (onlyActive : Bool) (s : World) (pc : EndPc) :
    Undisturbed s.site (endUpload onlyActive s pc).1.site ∨
      (pc = .cancel ∧ (installerCancel s.site.inst).2 = 0) ∨
      ∃ canceled t, pc = .release canceled t := by
  cases pc with
  | cancel =>
    by_cases hz : (installerCancel s.site.inst).2 = 0
    · exact .inr (.inl ⟨rfl, hz⟩)
    · exact .inl (undisturbed_of_eq (installerCancel_refused hz) rfl)
  | release canceled t => exact .inr (.inr ⟨canceled, t, rfl⟩)
  | probe => exact .inl (.refl _)
  | session e => exact .inl (cancelSession_undisturbed s e)

/-- A release is entered by a cancel that succeeded, and leaves the install alone. -/
theorem endUpload_release {onlyActive : Bool} {s : World} {pc : EndPc} {canceled : Path}
    {t : Teardown} (h : (endUpload onlyActive s pc).2 = some (.release canceled t)) :
    Stopped (endUpload onlyActive s pc).1.site.inst ∨
      ((∃ canceled t, pc = .release canceled t) ∧
        (endUpload onlyActive s pc).1.site.inst = s.site.inst) := by
  cases pc with
  | cancel =>
    left
    simp only [endUpload] at h
    by_cases hz : (installerCancel s.site.inst).2 = 0
    · obtain ⟨_, _, hcancel, _, hidle⟩ := canceled_parts hz
      exact ⟨hidle, hcancel⟩
    · rw [if_neg hz] at h
      split at h <;> cases h
  | release canceled t => exact .inr ⟨⟨canceled, t, rfl⟩, teardown_inst rfl⟩
  | probe =>
    simp only [endUpload] at h
    split at h <;> cases h
  | session e =>
    cases e <;> cases h

/-- A step that leaves the install and its stream alone and releases nothing. -/
structure Aside (s s' : World) (t' : Thread) : Prop where
  inst : s'.site.inst = s.site.inst
  served : s'.site.served = s.site.served
  idle : releasing t' = false

/-- A step of the end of an upload. -/
def Ends (s s' : World) (t t' : Thread) : Prop :=
  ∃ onlyActive pc, endPc t = some pc ∧ s'.site = (endUpload onlyActive s pc).1.site ∧
    endPc t' = (endUpload onlyActive s pc).2

theorem cancelSession_aside (s : World) (e : SessionEnd) :
    (cancelSession s e).1.site.inst = s.site.inst ∧
      (cancelSession s e).1.site.served = s.site.served := by
  cases e <;> exact ⟨rfl, rfl⟩

theorem createOwned_aside (s : World) (c : InitOwned) (resuming : Bool) (cfgSlots : Nat)
    (sid : Text) (allocOk : Bool) :
    Aside s (createOwned s c resuming cfgSlots sid allocOk).1
      (.rest (createOwned s c resuming cfgSlots sid allocOk).2) := by
  unfold createOwned
  simp only
  split <;> exact ⟨rfl, rfl, rfl⟩

theorem rest_ends {s s' : World} {pc pc' : RestPc} {e : RestEvent}
    (h : restTurn s pc e = some (s', pc')) :
    Aside s s' (.rest pc') ∨ Ends s s' (.rest pc) (.rest pc') := by
  have hrequest : ∀ {e}, request s e = some (s', pc') → Aside s s' (.rest pc') := by
    intro e hr
    cases e with
    | init c =>
      cases hr
      refine ⟨rfl, rfl, ?_⟩
      split <;> rfl
    | cancel owner sid =>
      cases hr
      exact ⟨rfl, rfl, rfl⟩
    | finish =>
      cases hr
      exact ⟨rfl, rfl, rfl⟩
    | _ => cases hr
  unfold restTurn at h
  split at h
  · exact .inl (hrequest h)
  · exact .inl (hrequest h)
  · left
    split at h <;> cases h
    refine ⟨rfl, rfl, ?_⟩
    split <;> rfl
  · cases h
    refine .inl ⟨rfl, rfl, ?_⟩
    split <;> rfl
  · rename_i c resuming cfgSlots sid allocOk
    left
    have haside := createOwned_aside s c resuming cfgSlots sid allocOk
    rw [Option.some.inj h] at haside
    exact haside
  · cases h
    refine .inl ⟨rfl, rfl, ?_⟩
    (repeat' split) <;> rfl
  · rename_i e
    left
    obtain ⟨hi, hs⟩ := cancelSession_aside s e
    cases hc : cancelSession s e with
    | mk s₁ next =>
      rw [hc] at h hi hs
      cases next <;> cases h <;> exact ⟨hi, hs, rfl⟩
  · left
    split at h
    · cases h
    · split at h <;> cases h <;> exact ⟨rfl, rfl, rfl⟩
  · rename_i sid pc
    refine .inr ⟨false, pc, rfl, ?_⟩
    cases hc : endUpload false s pc with
    | mk s₁ next =>
      rw [hc] at h
      cases next <;> cases h <;> exact ⟨rfl, rfl⟩
  · cases h

theorem handleTextMsg_aside (s : World) (c : Conn) (msg : Text) (hc : c.pc = .reading) :
    releasing (.conn (handleTextMsg s c msg)) = false := by
  have hreading : releasing (.conn c) = false := by
    obtain ⟨fd, pc, pending, authorized, asid, finish, replies, presented⟩ := c
    cases hc
    rfl
  unfold handleTextMsg
  split
  · rfl
  · split
    · split <;> rfl
    · split
      · exact hreading
      · rfl
    · rfl
    · rfl
    · split <;> rfl
    · split <;> rfl
    · split
      · obtain ⟨fd, pc, pending, authorized, asid, finish, replies, presented⟩ := c
        cases hc
        rfl
      · rfl
    · rfl

theorem connGo_ends {s s' : World} {c c' : Conn} (h : connGo s c = some (s', c')) :
    Aside s s' (.conn c') ∨ Ends s s' (.conn c) (.conn c') := by
  unfold connGo at h
  split at h
  · split at h <;> cases h
    refine .inl ⟨rfl, rfl, ?_⟩
    split <;> rfl
  · left
    split at h
    · cases h
    · split at h <;> cases h
      · refine ⟨rfl, rfl, ?_⟩
        split <;> rfl
      · exact ⟨rfl, rfl, rfl⟩
  · left
    split at h <;> cases h
    refine ⟨rfl, rfl, ?_⟩
    split <;> rfl
  · left
    split at h <;> cases h <;> exact ⟨rfl, rfl, rfl⟩
  · cases h
    exact .inl ⟨rfl, rfl, rfl⟩
  · cases h
    refine .inl ⟨rfl, rfl, ?_⟩
    split <;> rfl
  · rename_i e _
    left
    obtain ⟨hi, hs⟩ := cancelSession_aside s e
    cases hc : cancelSession s e with
    | mk s₁ next =>
      rw [hc] at h hi hs
      cases next <;> cases h <;> exact ⟨hi, hs, rfl⟩
  · cases h
    exact .inl ⟨rfl, rfl, rfl⟩
  · cases h
    refine .inl ⟨rfl, rfl, ?_⟩
    split <;> rfl
  · cases h
    refine .inl ⟨rfl, rfl, ?_⟩
    split <;> rfl
  · cases h
    exact .inl ⟨rfl, rfl, rfl⟩
  · left
    split at h <;> cases h
    · refine ⟨rfl, rfl, ?_⟩
      split <;> rfl
    · exact ⟨rfl, rfl, rfl⟩
  · rename_i pc hpc
    obtain ⟨fd, cpc, pending, authorized, asid, finish, replies, presented⟩ := c
    cases hpc
    refine .inr ⟨true, pc, rfl, ?_⟩
    cases hc : endUpload true s pc with
    | mk s₁ next =>
      rw [hc] at h
      cases next <;> cases h <;> exact ⟨rfl, rfl⟩
  · cases h

theorem conn_ends {s s' : World} {c c' : Conn} {e : ConnEvent}
    (h : connTurn s c e = some (s', c')) :
    Aside s s' (.conn c') ∨ Ends s s' (.conn c) (.conn c') := by
  cases e with
  | go => exact connGo_ends h
  | text msg =>
    simp only [connTurn] at h
    split at h <;> cases h
    rename_i hpc
    exact .inl ⟨rfl, rfl, handleTextMsg_aside _ c msg hpc⟩
  | binary data len =>
    simp only [connTurn] at h
    split at h <;> cases h
    refine .inl ⟨rfl, rfl, ?_⟩
    split <;> rfl
  | create cfgSlots sid allocOk =>
    simp only [connTurn] at h
    split at h <;> cases h
    refine .inl ⟨rfl, rfl, ?_⟩
    split <;> rfl
  | disconnect =>
    simp only [connTurn] at h
    split at h <;> cases h
    exact .inl ⟨rfl, rfl, rfl⟩

/-- A step of a thread: one that installs, one that leaves the install alone, or one
of the end of an upload. -/
theorem turn_ends {s s' : World} {t t' : Thread} {e : Event} {new : List Thread}
    (h : turn s t e = some (s', t', new)) :
    (∃ u u' c c' ie new', t = .install u c ∧ t' = .install u' c' ∧ e = .install ie ∧
        InstallThreads.turn s.site u ie = some (s'.site, u', new')) ∨
      Aside s s' t' ∨ Ends s s' t t' := by
  cases e with
  | install ie =>
    cases t with
    | install u c =>
      obtain ⟨⟨site, u', new'⟩, hturn, he⟩ := Option.map_eq_some_iff.mp h
      cases he
      exact .inl ⟨u, u', c, _, ie, new', rfl, rfl, rfl, hturn⟩
    | _ => cases h
  | rest e =>
    cases t with
    | rest pc =>
      obtain ⟨⟨s₁, pc'⟩, hturn, he⟩ := Option.map_eq_some_iff.mp h
      cases he
      exact .inr (rest_ends hturn)
    | _ => cases h
  | conn e =>
    cases t with
    | conn c =>
      obtain ⟨⟨s₁, c'⟩, hturn, he⟩ := Option.map_eq_some_iff.mp h
      cases he
      exact .inr (conn_ends hturn)
    | _ => cases h
  | accept =>
    cases t with
    | listener =>
      cases h
      exact .inr (.inl ⟨rfl, rfl, rfl⟩)
    | _ => cases h
  | reader e =>
    cases t with
    | reader t =>
      simp only [turn] at h
      split at h
      · obtain ⟨⟨lv, t₁⟩, hturn, he⟩ := Option.map_eq_some_iff.mp h
        cases he
        exact .inr (.inl ⟨rfl, rfl, rfl⟩)
      · cases h
    | _ => cases h

theorem new_idle {s s' : World} {t t' : Thread} {e : Event} {new : List Thread}
    (h : turn s t e = some (s', t', new)) : ∀ u ∈ new, releasing u = false := by
  cases e with
  | install ie =>
    cases t with
    | install u c =>
      obtain ⟨⟨site, u', new'⟩, hturn, he⟩ := Option.map_eq_some_iff.mp h
      cases he
      intro u hu
      obtain ⟨_, _, rfl⟩ := List.mem_map.mp hu
      rfl
    | _ => cases h
  | accept =>
    cases t with
    | listener =>
      cases h
      intro u hu
      obtain rfl := List.mem_singleton.mp hu
      rfl
    | _ => cases h
  | rest e =>
    cases t with
    | rest pc =>
      obtain ⟨_, _, he⟩ := Option.map_eq_some_iff.mp h
      cases he
      exact fun _ hu => absurd hu List.not_mem_nil
    | _ => cases h
  | conn e =>
    cases t with
    | conn c =>
      obtain ⟨_, _, he⟩ := Option.map_eq_some_iff.mp h
      cases he
      exact fun _ hu => absurd hu List.not_mem_nil
    | _ => cases h
  | reader e =>
    cases t with
    | reader t =>
      simp only [turn] at h
      split at h
      · obtain ⟨_, _, he⟩ := Option.map_eq_some_iff.mp h
        cases he
        exact fun _ hu => absurd hu List.not_mem_nil
      · cases h
    | _ => cases h

theorem stopped_endUpload (onlyActive : Bool) {s : World} (pc : EndPc)
    (h : Stopped s.site.inst) : Stopped (endUpload onlyActive s pc).1.site.inst := by
  cases pc with
  | cancel =>
    have hz : (installerCancel s.site.inst).2 ≠ 0 := by
      unfold installerCancel
      rw [if_pos (by rw [h.1]; rfl)]
      exact (by decide : (-1 : Int) ≠ 0)
    show Stopped (installerCancel s.site.inst).1
    rw [installerCancel_refused hz]
    exact h
  | release canceled t =>
    have hinst : (endUpload onlyActive s (.release canceled t)).1.site.inst = s.site.inst :=
      teardown_inst rfl
    rw [hinst]
    exact h
  | probe => exact h
  | session e =>
    have hinst : (endUpload onlyActive s (.session e)).1.site.inst = s.site.inst :=
      (cancelSession_aside s e).1
    rw [hinst]
    exact h

/-- While the end of an upload releases the install it canceled, none is running. -/
def ReleaseInv (p : Pool World Thread) : Prop :=
  ∀ t ∈ p.threads, releasing t = true → Stopped p.shared.site.inst

theorem releasing_iff {t : Thread} :
    releasing t = true ↔ ∃ canceled c, endPc t = some (.release canceled c) := by
  unfold releasing
  constructor
  · intro h
    split at h
    · exact ⟨_, _, by assumption⟩
    · cases h
  · rintro ⟨canceled, c, hpc⟩
    rw [hpc]

theorem releaseInv_step {p q : Pool World Thread} {i : Nat} {e : Event} (h : ReleaseInv p)
    (hg : endsOwn p i e = true) (hs : uploads.step p i e = some q) : ReleaseInv q := by
  obtain ⟨t, t', new, ht, hturn, hthreads⟩ := uploads_step hs
  have hnew : ∀ u ∈ new, releasing u = true → Stopped q.shared.site.inst := by
    intro u hu hr
    rw [new_idle hturn u hu] at hr
    cases hr
  unfold ReleaseInv
  rw [hthreads]
  rcases turn_ends hturn with ⟨u, u', c, c', ie, _, rfl, rfl, rfl, hinstall⟩ | haside | hends
  · refine forall_step ht nofun (fun v hv hr => ?_) hnew
    -- the install does not commit while another thread releases
    have hcommits : commits (.install ie) = false := by
      cases hc : commits (.install ie) with
      | false => rfl
      | true =>
        have hall : (p.threads.all fun u => !releasing u) = true := by
          simp only [endsOwn, ht, hc, Bool.and_eq_true] at hg
          simpa using hg.2
        have hv' := List.all_eq_true.mp hall v hv
        rw [hr] at hv'
        cases hv'
    exact stopped_install hinstall hcommits (h v hv hr)
  · refine forall_step ht (fun hr => ?_) (fun v hv hr => ?_) hnew
    · rw [haside.idle] at hr
      cases hr
    · rw [haside.inst]
      exact h v hv hr
  · obtain ⟨onlyActive, pc, hpc, hsite, hpc'⟩ := hends
    refine forall_step ht (fun hr => ?_) (fun v hv hr => ?_) hnew
    · obtain ⟨canceled, c, hrel⟩ := releasing_iff.mp hr
      rw [hsite]
      rcases endUpload_release (hpc'.symm.trans hrel) with hstop | ⟨⟨canceled', c', rfl⟩, hsame⟩
      · exact hstop
      · rw [hsame]
        exact h t (List.mem_of_getElem? ht) (releasing_iff.mpr ⟨canceled', c', hpc⟩)
    · rw [hsite]
      exact stopped_endUpload onlyActive pc (h v hv hr)

theorem releasing_start (seekFn : Bool) (installs requests readers : Nat) :
    ∀ t ∈ (start seekFn installs requests readers).threads, releasing t = false := by
  intro t ht
  simp only [start, List.mem_append, List.mem_replicate, List.mem_singleton] at ht
  rcases ht with ((⟨_, rfl⟩ | ⟨_, rfl⟩) | ⟨_, rfl⟩) | rfl <;> rfl

/-- In every run in which the end of an upload finds its own install, or none it may
cancel, and no install commits behind its back, it leaves the installs of other
packages alone. -/
theorem ends_own (seekFn : Bool) (installs requests readers : Nat) (p q : Pool World Thread)
    (h : Reach uploads (fun p i e => endsOwn p i e = true)
      (start seekFn installs requests readers) p)
    (i : Nat) (e : Event) (hg : endsOwn p i e = true) (hs : uploads.step p i e = some q)
    (t : Thread) (ht : p.threads[i]? = some t) (sid : Text) (hsid : endingSid t = some sid)
    (hr : RunsOther p.shared.site.inst sid) : Undisturbed p.shared.site q.shared.site := by
  have hinv : ReleaseInv p := by
    refine h.invariant ReleaseInv (fun t ht hrel => ?_)
      fun p i e q hp hg hs => releaseInv_step hp hg hs
    rw [releasing_start _ _ _ _ t ht] at hrel
    cases hrel
  obtain ⟨hrun, hpath⟩ := hr
  obtain ⟨u, u', new, hu, hturn, _⟩ := uploads_step hs
  obtain rfl := Option.some.inj (ht.symm.trans hu)
  rcases turn_ends hturn with ⟨v, v', c, c', ie, _, rfl, _⟩ | haside | hends
  · cases hsid
  · exact undisturbed_of_eq haside.inst haside.served
  · obtain ⟨onlyActive, pc, hpc, hsite, _⟩ := hends
    rw [hsite]
    rcases endUpload_cases onlyActive p.shared pc with hsame | ⟨rfl, hz⟩ | ⟨canceled, c, rfl⟩
    · exact hsame
    · have hstream : p.shared.site.inst.status.isDirectStorage = false := by
        cases hd : p.shared.site.inst.status.isDirectStorage with
        | false => rfl
        | true => simp [installerCancel, hrun, hd] at hz
      simp [endsOwn, ht, cancelsInstall, hpc, hrun, hstream, hsid, hpath] at hg
    · have hstop := hinv t (List.mem_of_getElem? ht) (releasing_iff.mpr ⟨canceled, c, hpc⟩)
      exact absurd (hstop.1.symm.trans hrun) Bool.false_ne_true

/-- An install of `path` by thread 0, an upload by thread 1, and its owner's cancel up
to the section that cancels the install. -/
def endEvents (path : Path) (d : Detail) : List (Nat × Event) :=
  [(0, .install (.call (.start path))), (0, .install (.call .go)), (0, .install (.call .go)),
    (0, .install (.call (.commit d true)))] ++
    openEvents 1 [97] [49] ++ [(1, .rest (.cancel someOwner [49])), (1, .rest .go)]

/-- `/mnt/usb0/a.pkg`. -/
def usbPath : Path := [47, 109, 110, 116, 47, 117, 115, 98, 48, 47, 97, 46, 112, 107, 103]

/-- What a run shows of thread 1 and the install. -/
def observed (p : Pool World Thread) : Option Text × Bool × Path :=
  (p.threads[1]?.bind endingSid, p.shared.site.inst.status.isInstalling,
    p.shared.site.inst.status.pkgPath)

/-- The upload ends while a package is installed from USB storage. -/
theorem ends_own_usb : ∃ p q t, Reach uploads (fun p i e => endsOwn p i e = true)
      (start true 1 1 0) p ∧ uploads.step p 1 (.rest .go) = some q ∧ p.threads[1]? = some t ∧
      endingSid t = some [49] ∧ RunsOther p.shared.site.inst [49] ∧
      Undisturbed p.shared.site q.shared.site := by
  have hrun : (uploads.exec (fun p i e => endsOwn p i e = true)
      (endEvents usbPath ⟨false, [], false⟩) (start true 1 1 0)).map (fun p =>
        (observed p, endsOwn p 1 (.rest .go), (uploads.step p 1 (.rest .go)).isSome)) =
      some ((some [49], true, usbPath), true, true) := by rfl
  obtain ⟨p, hp, hobs⟩ := Option.map_eq_some_iff.mp hrun
  obtain ⟨ho, hgs⟩ := Prod.mk.inj hobs
  obtain ⟨hg, hsome⟩ := Prod.mk.inj hgs
  obtain ⟨hsid, hi⟩ := Prod.mk.inj ho
  obtain ⟨hi, hpath⟩ := Prod.mk.inj hi
  obtain ⟨t, ht, hsid⟩ := Option.bind_eq_some_iff.mp hsid
  obtain ⟨q, hq⟩ := Option.isSome_iff_exists.mp hsome
  have hr : RunsOther p.shared.site.inst [49] := ⟨hi, by rw [hpath]; decide⟩
  exact ⟨p, q, t, .of_exec hp, hq, ht, hsid, hr,
    ends_own true 1 1 0 p q (.of_exec hp) 1 (.rest .go) hg hq t ht [49] hsid hr⟩

/-- The cancel of an upload cancels the install of another package. -/
theorem ends_own_fails :
    ¬∀ seekFn installs requests readers p q, Reach uploads (fun _ _ _ => True)
      (start seekFn installs requests readers) p → ∀ i e, uploads.step p i e = some q →
        ∀ t, p.threads[i]? = some t → ∀ sid, endingSid t = some sid →
          RunsOther p.shared.site.inst sid → Undisturbed p.shared.site q.shared.site := by
  intro hall
  have hrun : (uploads.exec (fun _ _ _ => True) (endEvents InstallThreads.streamedPath InstallThreads.streamedDetail)
      (start true 1 1 0)).map (fun p => (observed p,
        (uploads.step p 1 (.rest .go)).map fun q => q.shared.site.inst.status.isInstalling)) =
      some ((some [49], true, InstallThreads.streamedPath), some false) := by rfl
  obtain ⟨p, hp, hobs⟩ := Option.map_eq_some_iff.mp hrun
  obtain ⟨ho, hq⟩ := Prod.mk.inj hobs
  obtain ⟨hsid, hi⟩ := Prod.mk.inj ho
  obtain ⟨hi, hpath⟩ := Prod.mk.inj hi
  obtain ⟨t, ht, hsid⟩ := Option.bind_eq_some_iff.mp hsid
  obtain ⟨q, hq, hidle⟩ := Option.map_eq_some_iff.mp hq
  have hr : RunsOther p.shared.site.inst [49] := ⟨hi, by rw [hpath]; decide⟩
  have hsame := (hall true 1 1 0 p q (.of_exec hp) 1 (.rest .go) hq t ht [49] hsid hr).status
  rw [hsame, hi] at hidle
  cases hidle

end PkgManager.UploadEnds
