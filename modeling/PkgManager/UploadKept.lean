import PkgManager.UploadEnds

namespace PkgManager.UploadKept

open Interleaving Machine LiveSession LiveCalls Installer InstallWorker InstallMoves ControlMessages
  UploadServer UploadThreads UploadMoves UploadEnds

/-- The worker has its teardown in front of it. -/
def tears (w : Worker) : Bool :=
  match w.pc with
  | .noSession => false
  | .starting _ => false
  | .nextFailed _ => false
  | .exited => false
  | _ => true

/-- The package a worker installs; it reads the path when it enters. -/
def workerPath (g : Globals) (w : Worker) : Path :=
  match w.pc with
  | .entry => g.status.pkgPath
  | _ => w.pkgPath

/-- The install whose teardown a thread has in front of it. -/
def tearing (g : Globals) : Thread → Option Path
  | .install (.worker w) _ => if tears w then some (workerPath g w) else none
  | .install (.canceling _) canceled => some canceled
  | t =>
    match endPc t with
    | some (.release canceled _) => some canceled
    | _ => none

/-- The install a step works for or ends. -/
def endedInstall (g : Globals) (t : Thread) (e : Event) : Option Path :=
  match t, e with
  | .install (.worker w) _, _ => some (workerPath g w)
  | .install (.canceling _) canceled, _ => some canceled
  | .install _ _, .install (.call .cancel) => some g.status.pkgPath
  | .install _ _, .install (.call .detach) => some g.status.pkgPath
  | t, _ =>
    match endPc t with
    | some (.release canceled _) => some canceled
    | some .cancel => some g.status.pkgPath
    | _ => none

/-- The path of an install that commits. -/
def commitPath (g : Globals) (t : Thread) (e : Event) : Option Path :=
  match t, e with
  | .install (.starting c .checking) _, .install (.call (.commit _ _)) =>
    if g.status.isInstalling then none else some c.pkgPath
  | .install (.worker w) _, .install (.work (.commit _ _)) =>
    if g.detachDirectStorage then none else some w.next
  | _, _ => none

/-- The path of an install that is canceled. -/
def canceledPath (g : Globals) (t : Thread) (e : Event) : Option Path :=
  let path := if (installerCancel g).2 = 0 then some g.status.pkgPath else none
  match t, e with
  | .install _ _, .install (.call .cancel) => path
  | t, _ =>
    match endPc t with
    | some .cancel => path
    | _ => none

/-- No session is created while an install has its teardown in front of it, and while a
session is active no other install commits or is canceled. -/
def keepsApart (p : Pool World Thread) (i : Nat) (e : Event) : Bool :=
  let s := p.shared
  let g := s.site.inst
  let own := fun path => !s.live.active || path = livePath s.live.sessionId
  match p.threads[i]? with
  | some t =>
    (!creates s t e || p.threads.all fun u => (tearing g u).isNone) &&
      (commitPath g t e).all own && (canceledPath g t e).all own
  | none => true

theorem workerPath_entered (g : Globals) {w : Worker} (h : w.pc ≠ .entry) :
    workerPath g w = w.pkgPath := by
  unfold workerPath
  split
  · exact absurd (by assumption) h
  · rfl

/-- A worker takes its path up when it enters, and keeps it. -/
theorem worker_pkgPath {s s' : Site} {w w' : Worker} {e : WorkerEvent} {new : List Worker}
    (h : workerTurn s w e = some (s', w', new)) : w'.pkgPath = workerPath s.inst w := by
  by_cases hpc : w.pc = .entry
  · have hpath : workerPath s.inst w = s.inst.status.pkgPath := by
      unfold workerPath
      rw [hpc]
    rw [hpath]
    cases e with
    | enter prefixes connected =>
      simp only [workerTurn, hpc] at h
      cases h
      rfl
    | _ => simp [workerTurn, hpc] at h
  · rw [workerPath_entered s.inst hpc]
    cases e with
    | enter prefixes connected =>
      simp only [workerTurn] at h
      cases h
    | go =>
      simp only [workerTurn] at h
      cases hat : w.pc <;> simp only [hat] at h <;> (repeat' split at h) <;> cases h <;> rfl
    | _ =>
      simp only [workerTurn] at h
      (repeat' split at h) <;> cases h <;> rfl

theorem worker_entered {s s' : Site} {w w' : Worker} {e : WorkerEvent} {new : List Worker}
    (h : workerTurn s w e = some (s', w', new)) : w'.pc ≠ .entry := by
  cases e with
  | streamDone =>
    simp only [workerTurn] at h
    (repeat' split at h) <;> cases h
    · rename_i hpc _
      simp [hpc]
    · rename_i hpc _
      simp [hpc]
  | _ =>
    simp only [workerTurn] at h
    (repeat' split at h) <;> cases h <;> (intro hentry; cases hentry)

/-- Behind its teardown, or where there is nothing to tear down, a worker has none. -/
theorem worker_tears {s s' : Site} {w w' : Worker} {e : WorkerEvent} {new : List Worker}
    (h : workerTurn s w e = some (s', w', new)) (ht : tears w = false) : tears w' = false := by
  unfold tears at ht
  cases hpc : w.pc with
  | noSession =>
    cases e with
    | go =>
      simp only [workerTurn, hpc] at h
      cases h
      rfl
    | _ => simp [workerTurn, hpc] at h
  | starting pc =>
    cases e with
    | go =>
      simp only [workerTurn, hpc] at h
      cases pc with
      | check =>
        simp only at h
        split at h <;> cases h <;> rfl
      | join =>
        simp only at h
        split at h <;> cases h <;> rfl
      | _ => cases h
    | join =>
      simp only [workerTurn, hpc] at h
      (repeat' split at h) <;> cases h
      rfl
    | refused code =>
      simp only [workerTurn, hpc] at h
      (repeat' split at h) <;> cases h
      rfl
    | commit d created =>
      simp only [workerTurn, hpc] at h
      (repeat' split at h) <;> cases h <;> rfl
    | _ => simp [workerTurn, hpc] at h
  | nextFailed code =>
    cases e with
    | go =>
      simp only [workerTurn, hpc] at h
      cases h
      rfl
    | _ => simp [workerTurn, hpc] at h
  | exited =>
    cases e <;> simp [workerTurn, hpc] at h
  | _ =>
    rw [hpc] at ht
    cases ht

/-- The install a worker tears down is the one it had in front of it. -/
theorem worker_tearing {s s' : Site} {w w' : Worker} {e : WorkerEvent} {new : List Worker}
    {c c' path : Path} (h : workerTurn s w e = some (s', w', new)) (g' : Globals)
    (ht : tearing g' (.install (.worker w') c') = some path) :
    tearing s.inst (.install (.worker w) c) = some path := by
  simp only [tearing] at ht ⊢
  have hwas : tears w = true := by
    cases hw : tears w with
    | true => rfl
    | false =>
      rw [if_neg (by rw [worker_tears h hw]; decide)] at ht
      cases ht
  have hpath : workerPath g' w' = workerPath s.inst w :=
    (workerPath_entered g' (worker_entered h)).trans (worker_pkgPath h)
  split at ht
  · rw [if_pos hwas, ← hpath]
    exact ht
  · cases ht

/-! The steps of the threads that install. -/

/-- A commit: the install has a worker that has not entered yet, or none. -/
structure Commits (g' : Globals) (path : Path) (t' : Thread) (new : List InstallThreads.Thread) :
    Prop where
  path : g'.status.pkgPath = path
  torn : tearing g' t' = none
  new : ∀ u ∈ new, ∃ w, u = .worker w ∧ w.pc = .entry

/-- Any other step: what has its teardown in front of it had it already, or was
canceled by it. -/
structure Carries (g g' : Globals) (t t' : Thread) (e : Event) : Prop where
  path : g'.status.pkgPath = g.status.pkgPath
  torn : ∀ path, tearing g' t' = some path →
    tearing g t = some path ∨ canceledPath g t e = some path

theorem startCommit_path (queued : Option Nat) (path pending : Path) (d : Detail)
    (created : Bool) (g : Globals) (hd : queued.isSome = true → g.detachDirectStorage = false)
    (hi : queued = none → g.status.isInstalling = false) :
    (startCommit queued path pending d created g).1.status.pkgPath = path := by
  unfold startCommit
  have h1 : ¬(queued.isSome = true ∧ g.detachDirectStorage = true) := by
    rintro ⟨hq, hon⟩
    exact absurd ((hd hq).symm.trans hon) Bool.false_ne_true
  have h2 : ¬(g.status.isInstalling = true ∧ queued.isNone = true) := by
    rintro ⟨hon, hq⟩
    exact absurd ((hi (Option.isNone_iff_eq_none.mp hq)).symm.trans hon) Bool.false_ne_true
  rw [if_neg h1, if_neg h2]
  cases created <;> rfl

theorem liveCommit_path (path : Path) (created : Bool) (g : Globals)
    (hi : g.status.isInstalling = false) :
    (liveCommit path created g).1.status.pkgPath = path := by
  unfold liveCommit
  rw [if_neg (by rw [hi]; decide)]
  cases created <;> rfl

/-- The step of a worker that installs. -/
theorem worker_carries {s s' : Site} {w w' : Worker} {e : WorkerEvent} {new : List Worker}
    (c : Path) (h : workerTurn s w e = some (s', w', new)) :
    (Carries s.inst s'.inst (.install (.worker w) c) (.install (.worker w') c)
        (.install (.work e)) ∧ new = []) ∨
      ∃ path, commitPath s.inst (.install (.worker w) c) (.install (.work e)) = some path ∧
        Commits s'.inst path (.install (.worker w') c) (new.map .worker) := by
  by_cases he : ∃ d created, e = .commit d created
  · obtain ⟨d, created, rfl⟩ := he
    simp only [workerTurn] at h
    split at h
    · rename_i hpc
      cases hdetach : s.inst.detachDirectStorage with
      | true =>
        left
        have hkeep : startCommit (some w.nextBatch) w.next [] d created s.inst =
            (s.inst, handoffDiscarded) := by
          simp [startCommit, hdetach]
        rw [hkeep] at h
        cases h
        exact ⟨⟨rfl, fun _ htear => by cases htear⟩, rfl⟩
      | false =>
        refine .inr ⟨w.next, by simp [commitPath, hdetach], ?_⟩
        have hpath := startCommit_path (some w.nextBatch) w.next [] d created s.inst
          (fun _ => hdetach) fun hq => by cases hq
        split at h
        · rename_i hdiscard
          rw [(startCommit_queued w.nextBatch w.next d created hdetach).2] at hdiscard
          cases created <;> cases hdiscard
        · split at h <;> cases h
          · refine ⟨hpath, rfl, fun u hu => ?_⟩
            obtain rfl := List.mem_singleton.mp hu
            exact ⟨_, rfl, rfl⟩
          · exact ⟨hpath, rfl, fun _ hu => absurd hu List.not_mem_nil⟩
    · cases h
  · left
    obtain ⟨_, hpath, hnew⟩ := worker_stays h fun d created heq => he ⟨d, created, heq⟩
    exact ⟨⟨hpath, fun path htear => .inl (worker_tearing h _ htear)⟩, hnew⟩

theorem begin_canceling {s s' : Site} {e : InstallThreads.CallEvent} {pc : Teardown}
    {new : List InstallThreads.Thread} (h : InstallThreads.begin s e = some (s', .canceling pc, new)) :
    e = .cancel ∧ (installerCancel s.inst).2 = 0 := by
  cases e with
  | cancel =>
    refine ⟨rfl, ?_⟩
    have ht := congrArg (fun r => r.2.1) (Option.some.inj h)
    simp only [InstallThreads.beginCancel] at ht
    split at ht
    · assumption
    · cases ht
  | start path =>
    have ht := congrArg (fun r => r.2.1) (Option.some.inj h)
    simp only at ht
    split at ht <;> cases ht
  | startBatch base update =>
    have ht := congrArg (fun r => r.2.1) (Option.some.inj h)
    simp only at ht
    split at ht <;> cases ht
  | startLive uri =>
    have ht := congrArg (fun r => r.2.1) (Option.some.inj h)
    simp only at ht
    split at ht <;> cases ht
  | _ => cases h

/-- A thread that tears down what it canceled has just canceled it, or goes on. -/
theorem call_canceling {s s' : Site} {t : InstallThreads.Thread} {e : InstallThreads.CallEvent}
    {pc : Teardown} {new : List InstallThreads.Thread}
    (h : InstallThreads.callTurn s t e = some (s', .canceling pc, new)) :
    (e = .cancel ∧ (installerCancel s.inst).2 = 0) ∨ (e = .go ∧ ∃ pc', t = .canceling pc') := by
  cases t with
  | idle => exact .inl (begin_canceling h)
  | returned n => exact .inl (begin_canceling h)
  | starting c pc =>
    simp only [InstallThreads.callTurn, InstallThreads.startTurn] at h
    (repeat' split at h) <;> cases h
  | canceling pc =>
    cases e with
    | go => exact .inr ⟨rfl, pc, rfl⟩
    | _ => cases h
  | shutting pc =>
    simp only [InstallThreads.callTurn, InstallThreads.shutdownTurn] at h
    (repeat' split at h) <;> cases h
  | waitingForPart =>
    simp only [InstallThreads.callTurn, InstallThreads.waiterTurn] at h
    (repeat' split at h) <;> cases h
  | worker w => cases h

/-- The commit of a call. -/
theorem commitStart_carries {s : World} (call : InstallThreads.StartCall) (d : Detail)
    (created : Bool) (c : Path) :
    (Carries s.site.inst (InstallThreads.commitStart s.site call d created).1.inst
        (.install (.starting call .checking) c)
        (.install (InstallThreads.commitStart s.site call d created).2.1 c)
        (.install (.call (.commit d created))) ∧
        (InstallThreads.commitStart s.site call d created).2.2 = []) ∨
      ∃ path, commitPath s.site.inst (.install (.starting call .checking) c)
          (.install (.call (.commit d created))) = some path ∧
        Commits (InstallThreads.commitStart s.site call d created).1.inst path
          (.install (InstallThreads.commitStart s.site call d created).2.1 c)
          (InstallThreads.commitStart s.site call d created).2.2 := by
  unfold InstallThreads.commitStart
  simp only
  generalize hr : (if call.fromLive then liveCommit call.pkgPath created s.site.inst
    else startCommit none call.pkgPath call.pendingPath d created s.site.inst) = r
  cases hi : s.site.inst.status.isInstalling with
  | true =>
    left
    have hsame : r = (s.site.inst, -2) := by
      rw [← hr]
      split
      · simp [liveCommit, hi]
      · simp [startCommit, hi]
    rw [hsame]
    exact ⟨⟨rfl, fun _ htear => by cases htear⟩, rfl⟩
  | false =>
    refine .inr ⟨call.pkgPath, by simp [commitPath, hi], ?_, rfl, fun u hu => ?_⟩
    · rw [← hr]
      split
      · exact liveCommit_path _ _ _ hi
      · exact startCommit_path none _ _ _ _ _ (fun hq => by cases hq) fun _ => hi
    · split at hu
      · obtain rfl := List.mem_singleton.mp hu
        exact ⟨_, rfl, rfl⟩
      · cases hu

/-- The step of another thread of the installer. -/
theorem call_carries {s : World} {s' : Site} {t t' : InstallThreads.Thread}
    {e : InstallThreads.CallEvent} {new : List InstallThreads.Thread} (c : Path)
    (h : InstallThreads.callTurn s.site t e = some (s', t', new)) :
    (Carries s.site.inst s'.inst (.install t c) (.install t' (canceledBy s c (.call e)))
        (.install (.call e)) ∧ new = []) ∨
      ∃ path, commitPath s.site.inst (.install t c) (.install (.call e)) = some path ∧
        Commits s'.inst path (.install t' (canceledBy s c (.call e))) new := by
  have hm := call_move h
  by_cases hcommit : ∃ call d created, t = .starting call .checking ∧ e = .commit d created
  · obtain ⟨call, d, created, rfl, rfl⟩ := hcommit
    cases h
    exact commitStart_carries call d created c
  · left
    have hpath : s'.inst.status.pkgPath = s.site.inst.status.pkgPath := by
      rcases hm.path with hpath | hc
      · exact hpath
      · exact absurd hc hcommit
    have hnew : new = [] := by
      rcases hm.kept with ⟨_, hnew⟩ | ⟨call, d, created, ht, he, _⟩ | ⟨_, _, _, hnew⟩ | ⟨_, _, _, hnew⟩
      · exact hnew
      · exact absurd ⟨call, d, created, ht, he⟩ hcommit
      · exact hnew
      · exact hnew
    refine ⟨⟨hpath, fun path htear => ?_⟩, hnew⟩
    cases t' with
    | worker w => cases hm.not_worker
    | canceling pc =>
      rcases call_canceling h with ⟨rfl, hz⟩ | ⟨rfl, pc', rfl⟩
      · right
        simp only [canceledPath, if_pos hz]
        exact htear
      · exact .inl htear
    | _ => cases htear

theorem install_carries {s : World} {s' : Site} {t t' : InstallThreads.Thread}
    {e : InstallThreads.Event} {new : List InstallThreads.Thread} (c : Path)
    (h : InstallThreads.turn s.site t e = some (s', t', new)) :
    (Carries s.site.inst s'.inst (.install t c) (.install t' (canceledBy s c e)) (.install e) ∧
        new = []) ∨
      ∃ path, commitPath s.site.inst (.install t c) (.install e) = some path ∧
        Commits s'.inst path (.install t' (canceledBy s c e)) new := by
  cases e with
  | work e =>
    cases t with
    | worker w =>
      obtain ⟨⟨s₁, w', new'⟩, hturn, he⟩ := Option.map_eq_some_iff.mp h
      cases he
      rcases worker_carries c hturn with ⟨hk, rfl⟩ | hcommit
      · exact .inl ⟨hk, rfl⟩
      · exact .inr hcommit
    | _ => cases h
  | call e => exact call_carries c h

/-! The steps of all threads. -/

def isInstall : Thread → Bool
  | .install _ _ => true
  | _ => false

theorem tearing_of_endPc {t : Thread} (g : Globals) (h : isInstall t = false) :
    tearing g t = match endPc t with
      | some (.release canceled _) => some canceled
      | _ => none := by
  cases t with
  | install t c => cases h
  | _ => rfl

theorem canceledPath_of_endPc {g : Globals} {t : Thread} {e : Event} (h : isInstall t = false)
    (hpc : endPc t = some .cancel) (hz : (installerCancel g).2 = 0) :
    canceledPath g t e = some g.status.pkgPath := by
  cases t with
  | install t c => cases h
  | _ => simp only [canceledPath, hpc, if_pos hz]

theorem endUpload_path (onlyActive : Bool) (s : World) (pc : EndPc) :
    (endUpload onlyActive s pc).1.site.inst.status.pkgPath = s.site.inst.status.pkgPath := by
  cases pc with
  | cancel =>
    show (installerCancel s.site.inst).1.status.pkgPath = _
    unfold installerCancel
    split
    · rfl
    · split <;> rfl
  | release canceled t => exact congrArg (fun g => g.status.pkgPath) (teardown_inst rfl)
  | probe => rfl
  | session e => exact congrArg (fun g => g.status.pkgPath) (cancelSession_aside s e).1

/-- The end of an upload tears down what it canceled. -/
theorem endUpload_torn {onlyActive : Bool} {s : World} {pc : EndPc} {canceled : Path}
    {t : Teardown} (h : (endUpload onlyActive s pc).2 = some (.release canceled t)) :
    (pc = .cancel ∧ (installerCancel s.site.inst).2 = 0 ∧
      canceled = s.site.inst.status.pkgPath) ∨ ∃ t', pc = .release canceled t' := by
  cases pc with
  | cancel =>
    left
    simp only [endUpload] at h
    split at h
    · rename_i hz
      cases h
      exact ⟨rfl, hz, rfl⟩
    · split at h <;> cases h
  | release canceled' t' =>
    right
    obtain ⟨t₁, _, he⟩ := Option.map_eq_some_iff.mp h
    cases he
    exact ⟨t', rfl⟩
  | probe =>
    simp only [endUpload] at h
    split at h <;> cases h
  | session e =>
    cases e <;> cases h

theorem tearing_idle {t : Thread} (g : Globals) (h : isInstall t = false)
    (hr : releasing t = false) : tearing g t = none := by
  rw [tearing_of_endPc g h]
  split
  · rename_i canceled c hpc
    rw [releasing_iff.mpr ⟨canceled, c, hpc⟩] at hr
    cases hr
  · rfl

theorem turn_install {s s' : World} {t t' : Thread} {e : Event} {new : List Thread}
    (h : turn s t e = some (s', t', new)) :
    isInstall t' = isInstall t ∧ ∀ u ∈ new, isInstall u = isInstall t := by
  have hnone : ∀ b, ∀ u ∈ ([] : List Thread), isInstall u = b :=
    fun _ _ hu => absurd hu List.not_mem_nil
  cases e with
  | install e =>
    cases t with
    | install t c =>
      obtain ⟨_, _, he⟩ := Option.map_eq_some_iff.mp h
      cases he
      refine ⟨rfl, fun u hu => ?_⟩
      obtain ⟨_, _, rfl⟩ := List.mem_map.mp hu
      rfl
    | _ => cases h
  | rest e =>
    cases t with
    | rest pc =>
      obtain ⟨_, _, he⟩ := Option.map_eq_some_iff.mp h
      cases he
      exact ⟨rfl, hnone _⟩
    | _ => cases h
  | conn e =>
    cases t with
    | conn c =>
      obtain ⟨_, _, he⟩ := Option.map_eq_some_iff.mp h
      cases he
      exact ⟨rfl, hnone _⟩
    | _ => cases h
  | accept =>
    cases t with
    | listener =>
      cases h
      refine ⟨rfl, fun u hu => ?_⟩
      obtain rfl := List.mem_singleton.mp hu
      rfl
    | _ => cases h
  | reader e =>
    cases t with
    | reader t =>
      simp only [turn] at h
      split at h
      · obtain ⟨_, _, he⟩ := Option.map_eq_some_iff.mp h
        cases he
        exact ⟨rfl, hnone _⟩
      · cases h
    | _ => cases h

/-- A step of a thread that installs nothing. -/
theorem other_carries {s s' : World} {t t' : Thread} {e : Event} {new : List Thread}
    (h : turn s t e = some (s', t', new)) (hi : isInstall t = false) :
    Carries s.site.inst s'.site.inst t t' e := by
  have hi' := (turn_install h).1.trans hi
  rcases turn_ends h with ⟨u, u', c, c', ie, _, rfl, _⟩ | haside | hends
  · cases hi
  · refine ⟨by rw [haside.inst], fun path htear => ?_⟩
    rw [tearing_idle _ hi' haside.idle] at htear
    cases htear
  · obtain ⟨onlyActive, pc, hpc, hsite, hpc'⟩ := hends
    refine ⟨by rw [hsite]; exact endUpload_path onlyActive s pc, fun path htear => ?_⟩
    rw [tearing_of_endPc _ hi'] at htear
    split at htear
    · rename_i canceled c hrel
      obtain rfl := Option.some.inj htear
      rcases endUpload_torn (hpc'.symm.trans hrel) with ⟨rfl, hz, rfl⟩ | ⟨t', rfl⟩
      · exact .inr (canceledPath_of_endPc hi hpc hz)
      · left
        rw [tearing_of_endPc _ hi, hpc]
    · cases htear

def Entering (t : Thread) : Prop := ∃ w c, t = .install (.worker w) c ∧ w.pc = .entry

/-- What a step does to the installs that have their teardown in front of them. -/
theorem turn_carries {s s' : World} {t t' : Thread} {e : Event} {new : List Thread}
    (h : turn s t e = some (s', t', new)) :
    (Carries s.site.inst s'.site.inst t t' e ∧ ∀ u ∈ new, ∀ g, tearing g u = none) ∨
      ∃ path, commitPath s.site.inst t e = some path ∧ s'.site.inst.status.pkgPath = path ∧
        tearing s'.site.inst t' = none ∧ ∀ u ∈ new, Entering u := by
  cases hi : isInstall t with
  | true =>
    cases t with
    | install t c =>
      cases e with
      | install e =>
        obtain ⟨⟨site, u', new'⟩, hturn, he⟩ := Option.map_eq_some_iff.mp h
        cases he
        rcases install_carries c hturn with ⟨hk, rfl⟩ | ⟨path, hpath, hcommit⟩
        · exact .inl ⟨hk, fun _ hu => absurd hu List.not_mem_nil⟩
        · refine .inr ⟨path, hpath, hcommit.path, hcommit.torn, fun u hu => ?_⟩
          obtain ⟨v, hv, rfl⟩ := List.mem_map.mp hu
          obtain ⟨w, rfl, hw⟩ := hcommit.new v hv
          exact ⟨w, [], rfl, hw⟩
      | _ => cases h
    | _ => cases hi
  | false =>
    refine .inl ⟨other_carries h hi, fun u hu g => ?_⟩
    exact tearing_idle g (((turn_install h).2 u hu).trans hi) (new_idle h u hu)

/-- While a session is active, only its own install has its teardown in front of it. -/
def SessionInv (p : Pool World Thread) : Prop :=
  p.shared.live.active = true → ∀ t ∈ p.threads, ∀ path,
    tearing p.shared.site.inst t = some path → path = livePath p.shared.live.sessionId

/-- What another thread has in front of it changes with the path of the status only. -/
theorem tearing_other {g g' : Globals} {t : Thread} {path : Path}
    (h : tearing g' t = some path) : tearing g t = some path ∨
      (path = g'.status.pkgPath ∧ tearing g t = some g.status.pkgPath) := by
  cases t with
  | install t c =>
    cases t with
    | worker w =>
      simp only [tearing] at h ⊢
      split at h
      · rename_i ht
        rw [if_pos ht]
        by_cases hpc : w.pc = .entry
        · right
          simp only [workerPath, hpc] at h ⊢
          exact ⟨(Option.some.inj h).symm, trivial⟩
        · left
          rw [workerPath_entered g' hpc] at h
          rw [workerPath_entered g hpc]
          exact h
      · cases h
    | _ => exact .inl h
  | _ => exact .inl h

theorem creates_idle {s : World} {t : Thread} {e : Event} (h : creates s t e = true) :
    isInstall t = false ∧ ∀ g, canceledPath g t e = none := by
  unfold creates at h
  split at h
  · exact ⟨rfl, fun _ => rfl⟩
  · exact ⟨rfl, fun _ => rfl⟩
  · cases h

theorem commitPath_install {g : Globals} {t : Thread} {e : Event} (h : isInstall t = false) :
    commitPath g t e = none := by
  cases t with
  | install t c => cases h
  | _ => rfl

theorem sessionInv_step {p q : Pool World Thread} {i : Nat} {e : Event} (h : SessionInv p)
    (hg : keepsApart p i e = true) (hs : uploads.step p i e = some q) : SessionInv q := by
  intro hact
  obtain ⟨t, t', new, ht, hturn, hthreads⟩ := uploads_step hs
  have htp := List.mem_of_getElem? ht
  simp only [keepsApart, ht, Bool.and_eq_true, Bool.or_eq_true, Bool.not_eq_true'] at hg
  obtain ⟨⟨hcreate, hcommit⟩, hcancel⟩ := hg
  rw [hthreads]
  cases hc : creates p.shared t e with
  | true =>
    -- nothing has its teardown in front of it, before and after
    obtain ⟨hi, hnocancel⟩ := creates_idle hc
    have hnone : ∀ u ∈ p.threads, tearing p.shared.site.inst u = none := by
      rcases hcreate with hno | hall
      · exact absurd (hno.symm.trans hc) Bool.false_ne_true
      · intro u hu
        simpa using List.all_eq_true.mp hall u hu
    have hk := other_carries hturn hi
    refine forall_step ht (fun path htear => ?_) (fun u hu path htear => ?_) fun u hu path htear => ?_
    · rcases hk.torn path htear with hold | hold
      · rw [hnone t htp] at hold
        cases hold
      · rw [hnocancel] at hold
        cases hold
    · have hold := hnone u hu
      rcases tearing_other (g := p.shared.site.inst) htear with hwas | ⟨_, hwas⟩
      · rw [hold] at hwas
        cases hwas
      · rw [hold] at hwas
        cases hwas
    · rcases turn_carries hturn with ⟨_, hnew⟩ | ⟨path', hpath, _⟩
      · rw [hnew u hu] at htear
        cases htear
      · rw [commitPath_install hi] at hpath
        cases hpath
  | false =>
    have hsame := turn_same hturn hc
    have hwas := hsame.active hact
    have hinv := h hwas
    rw [hsame.sid hact]
    rcases turn_carries hturn with ⟨hk, hnew⟩ | ⟨path, hpath, hset, htorn, hnew⟩
    · refine forall_step ht (fun path htear => ?_) (fun u hu path htear => ?_)
        fun u hu path htear => ?_
      · rcases hk.torn path htear with hold | hold
        · exact hinv t htp path hold
        · simpa [hold, hwas] using hcancel
      · rcases tearing_other (g := p.shared.site.inst) htear with hold | ⟨hp, hold⟩
        · exact hinv u hu path hold
        · rw [hp, hk.path]
          exact hinv u hu _ hold
      · rw [hnew u hu] at htear
        cases htear
    · have hown : path = livePath p.shared.live.sessionId := by
        simpa [hpath, hwas] using hcommit
      refine forall_step ht (fun path' htear => ?_) (fun u hu path' htear => ?_)
        fun u hu path' htear => ?_
      · rw [htorn] at htear
        cases htear
      · rcases tearing_other (g := p.shared.site.inst) htear with hold | ⟨hp, _⟩
        · exact hinv u hu path' hold
        · rw [hp, hset]
          exact hown
      · obtain ⟨w, c, rfl, hpc⟩ := hnew u hu
        simp only [tearing, tears, workerPath, hpc] at htear
        rw [← Option.some.inj htear, hset]
        exact hown

theorem ending_turn {s s' : World} {t t' : Thread} {e : Event} {new : List Thread} {pc : EndPc}
    (h : turn s t e = some (s', t', new)) (hpc : endPc t = some pc) :
    ∃ onlyActive, s'.site = (endUpload onlyActive s pc).1.site := by
  unfold endPc at hpc
  split at hpc
  · rename_i sid pc'
    obtain rfl := Option.some.inj hpc
    cases e with
    | rest e =>
      obtain ⟨⟨s₁, pc₁⟩, hturn, he⟩ := Option.map_eq_some_iff.mp h
      cases he
      refine ⟨false, ?_⟩
      cases e with
      | go =>
        simp only [restTurn] at hturn
        cases hc : endUpload false s pc' with
        | mk s₂ next =>
          rw [hc] at hturn
          cases next <;> cases hturn <;> rfl
      | _ => cases hturn
    | _ => cases h
  · rename_i fd pc' pending authorized asid finish replies presented
    obtain rfl := Option.some.inj hpc
    cases e with
    | conn e =>
      obtain ⟨⟨s₁, c₁⟩, hturn, he⟩ := Option.map_eq_some_iff.mp h
      cases he
      refine ⟨true, ?_⟩
      cases e with
      | go =>
        simp only [connTurn, connGo] at hturn
        cases hc : endUpload true s pc' with
        | mk s₂ next =>
          rw [hc] at hturn
          cases next <;> cases hturn <;> rfl
      | _ => cases hturn
    | _ => cases h
  · cases hpc

theorem install_live {s s' : Site} {t t' : InstallThreads.Thread} {e : InstallThreads.Event}
    {new : List InstallThreads.Thread} {c path : Path}
    (h : InstallThreads.turn s t e = some (s', t', new))
    (hp : endedInstall s.inst (.install t c) (.install e) = some path) :
    s'.live = s.live ∨ tearing s.inst (.install t c) = some path := by
  cases e with
  | work e =>
    cases t with
    | worker w =>
      obtain ⟨⟨s₁, w', new'⟩, hturn, he⟩ := Option.map_eq_some_iff.mp h
      cases he
      rcases worker_live hturn with hl | ⟨t, _, hpc, _⟩
      · exact .inl hl
      · right
        have htears : tears w = true := by
          unfold tears
          rcases hpc with hpc | hpc <;> rw [hpc]
        simp only [tearing, if_pos htears]
        exact hp
    | _ => cases h
  | call e =>
    rcases call_live h with hl | ⟨rfl, _⟩ | ⟨pc, rfl, _⟩
    · exact .inl hl
    · cases e with
      | cancel => cases h
      | detach => cases h
      | _ => cases hp
    · exact .inr hp

/-- A step for an install leaves the session alone, or is a step of its teardown. -/
theorem ended_live {s s' : World} {t t' : Thread} {e : Event} {new : List Thread} {path : Path}
    (h : turn s t e = some (s', t', new)) (hp : endedInstall s.site.inst t e = some path) :
    s'.live = s.live ∨ tearing s.site.inst t = some path := by
  cases hi : isInstall t with
  | true =>
    cases t with
    | install t c =>
      cases e with
      | install e =>
        obtain ⟨⟨site, u', new'⟩, hturn, he⟩ := Option.map_eq_some_iff.mp h
        cases he
        exact install_live hturn hp
      | _ => cases h
    | _ => cases hi
  | false =>
    have hends : (match endPc t with
        | some (.release canceled _) => some canceled
        | some .cancel => some s.site.inst.status.pkgPath
        | _ => none) = some path := by
      cases t with
      | install t c => cases hi
      | _ => exact hp
    split at hends
    · rename_i canceled c hpc
      right
      rw [tearing_of_endPc _ hi, hpc]
      exact hends
    · rename_i hpc
      left
      obtain ⟨onlyActive, hsite⟩ := ending_turn h hpc
      show s'.site.live = s.site.live
      rw [hsite]
      rfl
    · cases hends

/-- In every run in which no session is created while an install has its teardown in
front of it, and no other install commits or is canceled while one is active, the end
of an install leaves the session of another upload as it is. -/
theorem ends_apart (seekFn : Bool) (installs requests readers : Nat) (p q : Pool World Thread)
    (h : Reach uploads (fun p i e => keepsApart p i e = true)
      (start seekFn installs requests readers) p)
    (i : Nat) (e : Event) (hs : uploads.step p i e = some q) (t : Thread)
    (ht : p.threads[i]? = some t) (path : Path)
    (hp : endedInstall p.shared.site.inst t e = some path) (hact : p.shared.live.active = true)
    (hne : path ≠ livePath p.shared.live.sessionId) : q.shared.live = p.shared.live := by
  have hinv : SessionInv p := by
    refine h.invariant SessionInv ?_ fun p i e q hp hg hs => sessionInv_step hp hg hs
    intro hactive
    cases hactive
  obtain ⟨u, u', new, hu, hturn, _⟩ := uploads_step hs
  obtain rfl := Option.some.inj (ht.symm.trans hu)
  rcases ended_live hturn hp with hlive | htear
  · exact hlive
  · exact absurd (hinv hact t (List.mem_of_getElem? ht) path htear) hne

/-- What a run shows of thread 3, a worker, and of the session. -/
def shown (p : Pool World Thread) (e : WorkerEvent) : Option (Option Path) × Bool × Text :=
  (p.threads[3]?.map fun t => endedInstall p.shared.site.inst t (.install (.work e)),
    p.shared.live.active, p.shared.live.sessionId)

/-- Thread 0 installs `/a.pkg`. -/
def installEvents : List (Nat × Event) :=
  (InstallThreads.startEvents InstallThreads.streamedPath).map fun e => (e.1, .install e.2)

/-- An install that got no stream ends beside an upload. -/
theorem ends_apart_failed : ∃ p q t, Reach uploads (fun p i e => keepsApart p i e = true)
      (start true 1 1 0) p ∧ uploads.step p 3 (.install (.work .go)) = some q ∧
      p.threads[3]? = some t ∧ p.shared.live.active = true ∧
      endedInstall p.shared.site.inst t (.install (.work .go)) = some InstallThreads.streamedPath ∧
      InstallThreads.streamedPath ≠ livePath p.shared.live.sessionId ∧
      q.shared.live = p.shared.live := by
  have hrun : (uploads.exec (fun p i e => keepsApart p i e = true)
      (installEvents ++ [(3, .install (.work (.enter [] true))),
        (3, .install (.work (.session false)))] ++ openEvents 1 [97] [49])
      (start true 1 1 0)).map (fun p =>
        (shown p .go, (uploads.step p 3 (.install (.work .go))).isSome)) =
      some ((some (some InstallThreads.streamedPath), true, [49]), true) := by rfl
  obtain ⟨p, hp, hobs⟩ := Option.map_eq_some_iff.mp hrun
  obtain ⟨hobs, hq⟩ := Prod.mk.inj hobs
  obtain ⟨hended, hobs⟩ := Prod.mk.inj hobs
  obtain ⟨hact, hsid⟩ := Prod.mk.inj hobs
  obtain ⟨t, ht, hended⟩ := Option.map_eq_some_iff.mp hended
  obtain ⟨q, hq⟩ := Option.isSome_iff_exists.mp hq
  have hne : InstallThreads.streamedPath ≠ livePath p.shared.live.sessionId := by
    rw [hsid]
    decide
  exact ⟨p, q, t, .of_exec hp, hq, ht, hact, hended, hne,
    ends_apart true 1 1 0 p q (.of_exec hp) 3 _ hq t ht _ hended hact hne⟩

/-- A completed install aborts the upload that was opened beside it. -/
theorem ends_apart_fails :
    ¬∀ seekFn installs requests readers p q, Reach uploads (fun _ _ _ => True)
      (start seekFn installs requests readers) p → ∀ i e, uploads.step p i e = some q →
        ∀ t, p.threads[i]? = some t → ∀ path,
          endedInstall p.shared.site.inst t e = some path → p.shared.live.active = true →
          path ≠ livePath p.shared.live.sessionId → q.shared.live = p.shared.live := by
  intro hall
  have hrun : (uploads.exec (fun _ _ _ => True)
      (installEvents ++ openEvents 1 [97] [49] ++
        ((InstallThreads.verifiedEvents 3).map fun e => (e.1, Event.install e.2)) ++
        List.replicate 2 (3, .install (.work .go)))
      (start true 1 1 0)).map (fun p => (shown p .go, p.shared.live.aborted,
        (uploads.step p 3 (.install (.work .go))).map fun q => q.shared.live.aborted)) =
      some ((some (some InstallThreads.streamedPath), true, [49]), false, some true) := by rfl
  obtain ⟨p, hp, hobs⟩ := Option.map_eq_some_iff.mp hrun
  obtain ⟨hobs, haborted⟩ := Prod.mk.inj hobs
  obtain ⟨hended, hobs⟩ := Prod.mk.inj hobs
  obtain ⟨hact, hsid⟩ := Prod.mk.inj hobs
  obtain ⟨hbefore, hq⟩ := Prod.mk.inj haborted
  obtain ⟨t, ht, hended⟩ := Option.map_eq_some_iff.mp hended
  obtain ⟨q, hq, hafter⟩ := Option.map_eq_some_iff.mp hq
  have hsame := hall true 1 1 0 p q (.of_exec hp) 3 _ hq t ht _ hended hact
    (by rw [hsid]; decide)
  rw [hsame, hbefore] at hafter
  cases hafter

end PkgManager.UploadKept
