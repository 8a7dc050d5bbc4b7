import PkgManager.InstallThreads

namespace PkgManager.InstallMoves

open Interleaving Installer InstallWorker InstallThreads

/-- Where a worker stands with respect to its hand-off block: on its way there,
in front of it, behind it, leaving without it, or gone. -/
inductive Stage where
  | running
  | settled
  | released
  | leaving
  | over
deriving DecidableEq

def WorkerPc.stage : WorkerPc → Stage
  | .handoff => .settled
  | .release _ => .released
  | .starting _ => .released
  | .nextFailed _ => .released
  | .leave _ => .leaving
  | .exited => .over
  | _ => .running

def stage (w : Worker) : Stage := WorkerPc.stage w.pc

/-- The worker has not passed its hand-off block. -/
def beforeHandoff (w : Worker) : Bool :=
  match stage w with
  | .running => true
  | .settled => true
  | .leaving => true
  | .released => false
  | .over => false

/-- The worker has captured an update and not yet started or dropped it. -/
def carrying (w : Worker) : Bool :=
  match w.pc with
  | .release _ => w.next ≠ []
  | .starting _ => true
  | _ => false

/-- The event is a section that sets `failed` and leaves the pending path. -/
def reportsError (g : Globals) (w : Worker) : WorkerEvent → Bool
  | .go =>
    match w.pc with
    | .lost _ => !requestCanceled g
    | .systemError _ => true
    | .pollFallbackFailed _ => true
    | .timedOut => true
    | .nextFailed _ => true
    | _ => false
  | _ => false

/-- The event is a section that sets `failed` and drops the pending path. -/
def reportsAndClears (w : Worker) : WorkerEvent → Bool
  | .badHeader _ => true
  | .go =>
    match w.pc with
    | .noSession => true
    | .startFailed _ => true
    | _ => false
  | _ => false

/-- The event is the verified completion. -/
def completes (g : Globals) (w : Worker) : WorkerEvent → Bool
  | .go =>
    match w.pc with
    | .complete => !g.detachDirectStorage
    | _ => false
  | _ => false

/-- The event is a section that writes `status_str` and tests neither the cancel
flag nor the flags of the status. -/
def displays (w : Worker) : WorkerEvent → Bool
  | .streamDone => true
  | .go =>
    match w.pc with
    | .fallback => true
    | .pollFallback => true
    | .polled => w.filesystem
    | _ => false
  | _ => false

/-- What a worker keeps while it runs. -/
structure SameRun (w w' : Worker) : Prop where
  batch : w'.batch = w.batch
  queued : w'.queued = w.queued
  afterCancel : w'.afterCancel = w.afterCancel
  afterDetach : w'.afterDetach = w.afterDetach
  next : w'.next = w.next
  nextBatch : w'.nextBatch = w.nextBatch

/-- A worker that runs has not come to an end, and one that is in front of its
hand-off block has nothing to hand over yet. -/
structure Running (w w' : Worker) : Prop extends SameRun w w' where
  verified : w'.verified = w.verified
  failed : w'.failed = w.failed

/-- What a commit leaves, with or without a worker. -/
structure Commit (g g' : Globals) (record : Record) (pending : Path) (created : Bool) : Prop where
  monitor : g'.monitorRunning = g.monitorRunning
  cancel : g'.cancelStream = false
  detach : g'.detachDirectStorage = false
  pendingPath : g'.pendingPkgPath = pending
  record : g'.record = record
  installing : g'.status.isInstalling = created
  completed : g'.status.completed = false
  failed : g'.status.failed = !created

/-- What one event of a worker does to the globals and to the worker. -/
inductive Move (g : Globals) (w : Worker) (e : WorkerEvent) :
    Globals → Worker → List Worker → Prop
  | quiet {w'} : stage w = .running → stage w' = .running → Running w w' → Move g w e g w' []
  | display {str direct waiting w'} : displays w e = true → stage w = .running →
      stage w' = .running → Running w w' → Move g w e (display str direct waiting g) w' []
  | launch {str direct waiting w'} : requestCanceled g = false → stage w = .running →
      stage w' = .running → Running w w' → Move g w e (Installer.display str direct waiting g) w' []
  | settle {w'} : keepGoing g = false → stage w = .running → stage w' = .settled →
      Running w w' → Move g w e g w' []
  | error {code w'} : reportsError g w e = true → stage w = .running → stage w' = .settled →
      SameRun w w' → w'.verified = w.verified → w'.failed = true →
      Move g w e (failWith code g) w' []
  | completion {w'} : completes g w e = true → g.detachDirectStorage = false →
      stage w = .running → stage w' = .settled → SameRun w w' → w'.failed = w.failed →
      w'.verified = true → Move g w e (complete g) w' []
  | fail {code w'} : reportsAndClears w e = true → stage w = .running → stage w' = .leaving →
      SameRun w w' → Move g w e (failAndClear code g) w' []
  | failOut {code w'} : reportsAndClears w e = true → stage w = .running → stage w' = .over →
      SameRun w w' →
      Move g w e { failAndClear code g with exited := w.id :: g.exited } w' []
  | clear {w'} : stage w = .running → stage w' = .leaving → Running w w' →
      Move g w e (clearPending g) w' []
  | detached {w'} : g.detachDirectStorage = true → stage w = .running → stage w' = .leaving →
      Running w w' → Move g w e g w' []
  | capture {w'} : stage w = .settled → stage w' = .released → (carrying w' = true → w'.next ≠ []) → w'.batch = w.batch →
      w'.queued = w.queued → w'.afterCancel = w.afterCancel → w'.afterDetach = w.afterDetach →
      w'.verified = w.verified → w'.failed = w.failed → w'.next = (captureNext g).2 →
      w'.nextBatch = g.record.pendingBatch → Move g w e (captureNext g).1 w' []
  | step {w'} : stage w = .released → stage w' = .released → Running w w' →
      (carrying w' = true → carrying w = true) → Move g w e g w' []
  | leave {w'} : stage w = .leaving → stage w' = .leaving → Running w w' → Move g w e g w' []
  | exit {w'} : stage w = .leaving ∨ stage w = .released → stage w' = .over → Running w w' →
      Move g w e { g with exited := w.id :: g.exited } w' []
  | check {w'} : stage w = .released → carrying w = true → stage w' = .released → Running w w' →
      Move g w e (startCheck true g).1 w' []
  | take {w'} : stage w = .released → carrying w = true → stage w' = .released → Running w w' →
      Move g w e (takeThread (some w.id) g).1 w' []
  | commit {g' w'} : stage w = .released → carrying w = true → stage w' = .over →
      Running w w' → g.detachDirectStorage = false →
      Commit g g' (g.record.queuedCommit w.nextBatch) [] true →
      Move g w e g' w' [newWorker g w.nextBatch true]
  | commitFailed {g' w'} : stage w = .released → carrying w = true →
      stage w' = .released → carrying w' = false → Running w w' → g.detachDirectStorage = false →
      Commit g g' (g.record.queuedCommit w.nextBatch) [] false → Move g w e g' w' []
  | nextFailed {code w'} : reportsError g w e = true → stage w = .released → stage w' = .over →
      Running w w' → Move g w e { failWith code g with exited := w.id :: g.exited } w' []

theorem Running.refl_at (w : Worker) (pc : WorkerPc) : Running w (w.at pc) :=
  ⟨⟨rfl, rfl, rfl, rfl, rfl, rfl⟩, rfl, rfl⟩

theorem exit_move {s : Site} {w : Worker} {e : WorkerEvent}
    (h : stage w = .leaving ∨ stage w = .released) :
    Move s.inst w e (exitWorker s w).1.inst (exitWorker s w).2 [] :=
  .exit h rfl (Running.refl_at w _)

theorem teardown_inst {filesystem : Bool} {s s' : Site} {t : Teardown} {next : Option Teardown}
    (h : teardown filesystem s t = (s', next)) : s'.inst = s.inst := by
  cases t with
  | abort =>
    obtain ⟨rfl, _⟩ := Prod.mk.inj h
    rfl
  | stop =>
    obtain ⟨rfl, _⟩ := Prod.mk.inj h
    split <;> rfl
  | destroy =>
    obtain ⟨rfl, _⟩ := Prod.mk.inj h
    rfl

theorem keepGoing_of_canceled {g : Globals} (h : requestCanceled g = true) : keepGoing g = false := by
  unfold requestCanceled at h
  unfold keepGoing
  cases hm : g.monitorRunning <;> cases hc : g.cancelStream <;> simp_all

theorem keepGoing_of_detached {g : Globals} (h : g.detachDirectStorage = true) :
    keepGoing g = false := by
  simp [keepGoing, h]

theorem launch_commit (g : Globals) (created : Bool) (hd : g.detachDirectStorage = false)
    (hc : g.cancelStream = false) (hi : g.status.isInstalling = true)
    (hcomp : g.status.completed = false) (hf : g.status.failed = false) :
    Commit g (launch created g).1 g.record g.pendingPkgPath created ∧
      (launch created g).2 = if created then 0 else -12 := by
  cases created with
  | true => exact ⟨⟨rfl, hc, hd, rfl, rfl, hi, hcomp, hf⟩, rfl⟩
  | false => exact ⟨⟨rfl, hc, hd, rfl, rfl, rfl, hcomp, rfl⟩, rfl⟩

/-- The commit of a queued update whose batch was not detached. -/
theorem startCommit_queued {g : Globals} (batch : Nat) (path : Path) (d : Detail) (created : Bool)
    (hd : g.detachDirectStorage = false) :
    Commit g (startCommit (some batch) path [] d created g).1 (g.record.queuedCommit batch) []
        created ∧
      (startCommit (some batch) path [] d created g).2 = if created then 0 else -12 := by
  unfold startCommit
  rw [if_neg (by simp [hd]), if_neg (by simp)]
  obtain ⟨⟨h1, h2, h3, h4, h5, h6, h7, h8⟩, hr⟩ :=
    launch_commit { g with
      detachDirectStorage := false
      batchUpdatePending := ([] : Path) ≠ []
      status := committed path d.isMultipart
        (isUsbOrDiscPath d.prefixes path && !d.isMultipart && !d.networkConnected)
      pendingPkgPath := []
      cancelStream := false
      record := g.record.queuedCommit batch } created rfl rfl rfl rfl rfl
  exact ⟨⟨h1, h2, h3, h4, h5, h6, h7, h8⟩, hr⟩

/-- The commit of an install a user asked for. -/
theorem startCommit_user {g : Globals} (path pending : Path) (d : Detail) (created : Bool)
    (hi : g.status.isInstalling = false) :
    Commit g (startCommit none path pending d created g).1
        (g.record.userCommit (pending ≠ [])) pending created ∧
      (startCommit none path pending d created g).2 = if created then 0 else -12 := by
  unfold startCommit
  rw [if_neg (by simp), if_neg (by simp [hi])]
  obtain ⟨⟨h1, h2, h3, h4, h5, h6, h7, h8⟩, hr⟩ :=
    launch_commit { g with
      detachDirectStorage := false
      batchUpdatePending := pending ≠ []
      status := committed path d.isMultipart
        (isUsbOrDiscPath d.prefixes path && !d.isMultipart && !d.networkConnected)
      pendingPkgPath := pending
      cancelStream := false
      record := g.record.userCommit (pending ≠ []) } created rfl rfl rfl rfl rfl
  exact ⟨⟨h1, h2, h3, h4, h5, h6, h7, h8⟩, hr⟩

theorem liveCommit_user {g : Globals} (path : Path) (created : Bool)
    (hi : g.status.isInstalling = false) :
    Commit g (liveCommit path created g).1 (g.record.userCommit false) g.pendingPkgPath created ∧
      (liveCommit path created g).2 = if created then 0 else -12 := by
  unfold liveCommit
  rw [if_neg (by simp [hi])]
  obtain ⟨⟨h1, h2, h3, h4, h5, h6, h7, h8⟩, hr⟩ :=
    launch_commit { g with
      detachDirectStorage := false
      batchUpdatePending := false
      status := committed path false false
      cancelStream := false
      record := g.record.userCommit false } created rfl rfl rfl rfl rfl
  exact ⟨⟨h1, h2, h3, h4, h5, h6, h7, h8⟩, hr⟩

theorem stage_at {w : Worker} {pc : WorkerPc} (h : w.pc = pc) : stage w = WorkerPc.stage pc :=
  congrArg WorkerPc.stage h

/-- The section a worker stands at. -/
theorem go_move {s s' : Site} {w w' : Worker} {new : List Worker}
    (h : workerTurn s w .go = some (s', w', new)) : Move s.inst w .go s'.inst w' new := by
  simp only [workerTurn] at h
  cases hpc : w.pc with
  | noSession =>
    simp only [hpc] at h
    cases h
    exact .failOut (by simp only [reportsAndClears, hpc]) (stage_at hpc) rfl ⟨rfl, rfl, rfl, rfl, rfl, rfl⟩
  | launch =>
    simp only [hpc] at h
    split at h
    · cases h
      exact .clear (stage_at hpc) rfl (Running.refl_at w _)
    · rename_i hlive
      cases h
      have hlaunch : ∃ str direct waiting, showLaunch w.filesystem s.inst =
          display str direct waiting s.inst := by
        unfold showLaunch
        split
        · exact ⟨_, _, _, rfl⟩
        · exact ⟨_, _, _, rfl⟩
      obtain ⟨str, direct, waiting, hshow⟩ := hlaunch
      unfold Site.update
      rw [hshow]
      exact .launch (Bool.eq_false_iff.mpr hlive) (stage_at hpc) rfl (Running.refl_at w _)
  | submitted ret =>
    simp only [hpc] at h
    split at h
    · rename_i hdetach
      cases h
      exact .detached hdetach (stage_at hpc) rfl (Running.refl_at w _)
    · cases h
      exact .quiet (stage_at hpc) rfl (Running.refl_at w _)
  | checkCancel ret =>
    simp only [hpc] at h
    cases h
    refine .quiet (stage_at hpc) ?_ (Running.refl_at w _)
    split <;> rfl
  | canceledStart =>
    simp only [hpc] at h
    cases h
    exact .clear (stage_at hpc) rfl (Running.refl_at w _)
  | started ret =>
    simp only [hpc] at h
    split at h
    · cases h
      exact .quiet (stage_at hpc) rfl ⟨⟨rfl, rfl, rfl, rfl, rfl, rfl⟩, rfl, rfl⟩
    · cases h
      refine .quiet (stage_at hpc) ?_ (Running.refl_at w _)
      split <;> rfl
  | startFailed ret =>
    simp only [hpc] at h
    cases h
    exact .fail (by simp only [reportsAndClears, hpc]) (stage_at hpc) rfl ⟨rfl, rfl, rfl, rfl, rfl, rfl⟩
  | fallback =>
    simp only [hpc] at h
    cases h
    exact .display (by simp only [displays, hpc]) (stage_at hpc) rfl (Running.refl_at w _)
  | fallbackSubmitted ret =>
    simp only [hpc] at h
    split at h
    · rename_i hdetach
      cases h
      exact .detached hdetach (stage_at hpc) rfl (Running.refl_at w _)
    · cases h
      refine .quiet (stage_at hpc) ?_ (Running.refl_at w _)
      split <;> rfl
  | monitor =>
    simp only [hpc] at h
    cases h
    cases hk : keepGoing s.inst with
    | true => exact .quiet (stage_at hpc) rfl (Running.refl_at w _)
    | false =>
      exact .settle hk (stage_at hpc) rfl (Running.refl_at w _)
  | lost code =>
    simp only [hpc] at h
    cases h
    cases hc : requestCanceled s.inst with
    | true =>
      have hsame : failUnlessCanceled code s.inst = s.inst := if_pos hc
      unfold Site.update
      rw [hsame]
      exact .settle (keepGoing_of_canceled hc) (stage_at hpc) rfl
        ⟨⟨rfl, rfl, rfl, rfl, rfl, rfl⟩, rfl, by simp⟩
    | false =>
      have hfail : failUnlessCanceled code s.inst = failWith code s.inst :=
        if_neg (Bool.eq_false_iff.mp hc)
      unfold Site.update
      rw [hfail]
      exact .error (by simp [reportsError, hpc, hc]) (stage_at hpc) rfl
        ⟨rfl, rfl, rfl, rfl, rfl, rfl⟩ rfl (by simp)
  | systemError code =>
    simp only [hpc] at h
    cases h
    exact .error (by simp only [reportsError, hpc]) (stage_at hpc) rfl
      ⟨rfl, rfl, rfl, rfl, rfl, rfl⟩ rfl rfl
  | pollFallback =>
    simp only [hpc] at h
    cases h
    exact .display (by simp only [displays, hpc]) (stage_at hpc) rfl (Running.refl_at w _)
  | pollFallbackFailed code =>
    simp only [hpc] at h
    cases h
    exact .error (by simp only [reportsError, hpc]) (stage_at hpc) rfl
      ⟨rfl, rfl, rfl, rfl, rfl, rfl⟩ rfl rfl
  | polled =>
    simp only [hpc] at h
    split at h
    · rename_i hfs
      cases h
      exact .display (by simp only [displays, hpc, hfs]) (stage_at hpc) rfl (Running.refl_at w _)
    · cases h
      exact .quiet (stage_at hpc) rfl (Running.refl_at w _)
  | complete =>
    simp only [hpc] at h
    split at h
    · rename_i hdetach
      cases h
      exact .settle (keepGoing_of_detached hdetach) (stage_at hpc) rfl (Running.refl_at w _)
    · rename_i hdetach
      have hd := Bool.eq_false_iff.mpr hdetach
      cases h
      exact .completion (by simp [completes, hpc, hd]) hd (stage_at hpc) rfl
        ⟨rfl, rfl, rfl, rfl, rfl, rfl⟩ rfl rfl
  | timedOut =>
    simp only [hpc] at h
    cases h
    exact .error (by simp only [reportsError, hpc]) (stage_at hpc) rfl
      ⟨rfl, rfl, rfl, rfl, rfl, rfl⟩ rfl rfl
  | handoff =>
    simp only [hpc] at h
    cases h
    exact .capture (stage_at hpc) rfl (by simp [carrying]) rfl rfl rfl rfl rfl rfl rfl rfl
  | release t =>
    simp only [hpc] at h
    cases htear : teardown w.filesystem s t with
    | mk s₁ next =>
      have hinst := teardown_inst htear
      rw [htear] at h
      cases next with
      | some t' =>
        cases h
        rw [hinst]
        exact .step (stage_at hpc) rfl (Running.refl_at w _) fun hc => by
          unfold carrying at hc ⊢
          rw [hpc]
          exact hc
      | none =>
        simp only at h
        split at h
        · cases h
          rw [← hinst]
          exact exit_move (.inr (stage_at hpc))
        · rename_i hnext
          cases h
          rw [hinst]
          exact .step (stage_at hpc) rfl (Running.refl_at w _) (by simp [carrying, hpc, hnext])
  | leave t =>
    simp only [hpc] at h
    cases htear : teardown w.filesystem s t with
    | mk s₁ next =>
      have hinst := teardown_inst htear
      rw [htear] at h
      cases next with
      | some t' =>
        cases h
        rw [hinst]
        exact .leave (stage_at hpc) rfl (Running.refl_at w _)
      | none =>
        cases h
        rw [← hinst]
        exact exit_move (.inl (stage_at hpc))
  | starting pc =>
    have hcarry : carrying w = true := by simp only [carrying, hpc]
    cases pc with
    | check =>
      simp only [hpc] at h
      cases hcheck : startCheck true s.inst with
      | mk g r =>
        rw [hcheck] at h
        have hg : g = (startCheck true s.inst).1 := (congrArg Prod.fst hcheck).symm
        cases r with
        | some r =>
          cases h
          exact exit_move (.inr (stage_at hpc))
        | none =>
          cases h
          rw [hg]
          exact .check (stage_at hpc) hcarry rfl (Running.refl_at w _)
    | join =>
      simp only [hpc] at h
      cases htake : takeThread (some w.id) s.inst with
      | mk g old =>
        rw [htake] at h
        have hg : g = (takeThread (some w.id) s.inst).1 := (congrArg Prod.fst htake).symm
        cases old with
        | some old =>
          cases h
          rw [hg]
          exact .take (stage_at hpc) hcarry rfl (Running.refl_at w _)
        | none =>
          cases h
          rw [hg]
          exact .take (stage_at hpc) hcarry rfl (Running.refl_at w _)
    | joining old => simp [hpc] at h
    | checking => simp [hpc] at h
  | nextFailed code =>
    simp only [hpc] at h
    cases h
    exact .nextFailed (by simp only [reportsError, hpc]) (stage_at hpc) rfl (Running.refl_at w _)
  | entry => simp [hpc] at h
  | prepare => simp [hpc] at h
  | submit => simp [hpc] at h
  | retry ret => simp [hpc] at h
  | fallbackSubmit => simp [hpc] at h
  | poll => simp [hpc] at h
  | pollFallbackSubmit => simp [hpc] at h
  | reported => simp [hpc] at h
  | extracting => simp [hpc] at h
  | delivered => simp [hpc] at h
  | exited => simp [hpc] at h

theorem worker_move {s s' : Site} {w w' : Worker} {new : List Worker} {e : WorkerEvent}
    (h : workerTurn s w e = some (s', w', new)) : Move s.inst w e s'.inst w' new := by
  cases e with
  | go => exact go_move h
  | enter prefixes connected =>
    cases hpc : w.pc <;> simp only [workerTurn, hpc] at h <;> cases h
    exact .quiet (stage_at hpc) rfl ⟨⟨rfl, rfl, rfl, rfl, rfl, rfl⟩, rfl, rfl⟩
  | badHeader code =>
    cases hpc : w.pc with
    | prepare =>
      simp only [workerTurn, hpc] at h
      split at h
      · cases h
        exact .failOut rfl (stage_at hpc) rfl ⟨rfl, rfl, rfl, rfl, rfl, rfl⟩
      · cases h
    | _ => simp [workerTurn, hpc] at h
  | session ok =>
    cases hpc : w.pc with
    | prepare =>
      simp only [workerTurn, hpc] at h
      split at h
      · cases h
        exact .quiet (stage_at hpc) rfl (Running.refl_at w _)
      · split at h
        · cases h
          exact .quiet (stage_at hpc) rfl (Running.refl_at w _)
        · cases h
          exact .quiet (stage_at hpc) rfl (Running.refl_at w _)
    | retry ret =>
      simp only [workerTurn, hpc] at h
      split at h
      · cases h
        exact .quiet (stage_at hpc) rfl (Running.refl_at w _)
      · split at h
        · cases h
          exact .quiet (stage_at hpc) rfl (Running.refl_at w _)
        · cases h
          exact .quiet (stage_at hpc) rfl (Running.refl_at w _)
    | _ => simp [workerTurn, hpc] at h
  | helper ret =>
    cases hpc : w.pc with
    | submit =>
      simp only [workerTurn, hpc] at h
      cases h
      exact .quiet (stage_at hpc) rfl (Running.refl_at w _)
    | fallbackSubmit =>
      simp only [workerTurn, hpc] at h
      cases h
      exact .quiet (stage_at hpc) rfl (Running.refl_at w _)
    | pollFallbackSubmit =>
      simp only [workerTurn, hpc] at h
      cases h
      refine .quiet (stage_at hpc) ?_ (Running.refl_at w _)
      split <;> rfl
    | _ => simp [workerTurn, hpc] at h
  | again ret =>
    cases hpc : w.pc with
    | submit =>
      simp only [workerTurn, hpc] at h
      split at h
      · cases h
        exact .quiet (stage_at hpc) rfl (Running.refl_at w _)
      · cases h
        exact .quiet (stage_at hpc) rfl (Running.refl_at w _)
    | _ => simp [workerTurn, hpc] at h
  | pollCanceled =>
    cases hpc : w.pc with
    | poll =>
      simp only [workerTurn, hpc] at h
      split at h
      · rename_i hc
        cases h
        exact .settle (keepGoing_of_canceled hc) (stage_at hpc) rfl (Running.refl_at w _)
      · cases h
    | _ => simp [workerTurn, hpc] at h
  | pollLost code =>
    cases hpc : w.pc <;> simp only [workerTurn, hpc] at h <;> cases h
    exact .quiet (stage_at hpc) rfl (Running.refl_at w _)
  | pollError code =>
    cases hpc : w.pc with
    | poll =>
      simp only [workerTurn, hpc] at h
      split at h
      · cases h
        exact .quiet (stage_at hpc) rfl ⟨⟨rfl, rfl, rfl, rfl, rfl, rfl⟩, rfl, rfl⟩
      · cases h
        exact .quiet (stage_at hpc) rfl (Running.refl_at w _)
    | _ => simp [workerTurn, hpc] at h
  | pollOk =>
    cases hpc : w.pc <;> simp only [workerTurn, hpc] at h <;> cases h
    exact .quiet (stage_at hpc) rfl (Running.refl_at w _)
  | streamDone =>
    cases hpc : w.pc with
    | reported =>
      simp only [workerTurn, hpc] at h
      split at h
      · cases h
      · cases h
        exact .display rfl (stage_at hpc) rfl ⟨⟨rfl, rfl, rfl, rfl, rfl, rfl⟩, rfl, rfl⟩
    | delivered =>
      simp only [workerTurn, hpc] at h
      split at h
      · cases h
      · cases h
        exact .display rfl (stage_at hpc) rfl ⟨⟨rfl, rfl, rfl, rfl, rfl, rfl⟩, rfl, rfl⟩
    | _ => simp [workerTurn, hpc] at h
  | verified =>
    cases hpc : w.pc with
    | reported =>
      simp only [workerTurn, hpc] at h
      split at h
      · cases h
        exact .quiet (stage_at hpc) rfl (Running.refl_at w _)
      · cases h
    | extracting =>
      simp only [workerTurn, hpc] at h
      cases h
      exact .quiet (stage_at hpc) rfl (Running.refl_at w _)
    | delivered =>
      simp only [workerTurn, hpc] at h
      split at h
      · cases h
        exact .quiet (stage_at hpc) rfl (Running.refl_at w _)
      · cases h
    | _ => simp [workerTurn, hpc] at h
  | timeout =>
    cases hpc : w.pc with
    | extracting =>
      simp only [workerTurn, hpc] at h
      cases h
      exact .quiet (stage_at hpc) rfl (Running.refl_at w _)
    | delivered =>
      simp only [workerTurn, hpc] at h
      split at h
      · cases h
        exact .quiet (stage_at hpc) rfl (Running.refl_at w _)
      · cases h
    | _ => simp [workerTurn, hpc] at h
  | quiet =>
    cases hpc : w.pc <;> simp only [workerTurn, hpc] at h <;> cases h <;>
      exact .quiet (stage_at hpc) rfl (Running.refl_at w _)
  | join =>
    cases hpc : w.pc with
    | starting pc =>
      cases pc with
      | joining old =>
        simp only [workerTurn, hpc] at h
        split at h
        · cases h
          exact .step (stage_at hpc) rfl (Running.refl_at w _) fun _ => by simp only [carrying, hpc]
        · cases h
      | _ => simp [workerTurn, hpc] at h
    | _ => simp [workerTurn, hpc] at h
  | refused code =>
    cases hpc : w.pc with
    | starting pc =>
      cases pc with
      | checking =>
        simp only [workerTurn, hpc] at h
        split at h
        · cases h
          exact .step (stage_at hpc) rfl (Running.refl_at w _) fun _ => by simp only [carrying, hpc]
        · cases h
      | _ => simp [workerTurn, hpc] at h
    | _ => simp [workerTurn, hpc] at h
  | commit d created =>
    cases hpc : w.pc with
    | starting pc =>
      have hcarry : carrying w = true := by simp only [carrying, hpc]
      cases pc with
      | checking =>
        simp only [workerTurn, hpc] at h
        split at h
        · cases h
          exact exit_move (.inr (stage_at hpc))
        · rename_i hkeep
          have hd : s.inst.detachDirectStorage = false := by
            by_contra hne
            exact hkeep (by simp [startCommit, hne])
          obtain ⟨⟨h1, h2, h3, h4, h5, h6, h7, h8⟩, hr⟩ :=
            startCommit_queued w.nextBatch w.next d created hd
          cases created with
          | true =>
            have hzero : (startCommit (some w.nextBatch) w.next [] d true s.inst).2 = 0 := hr
            rw [if_pos hzero] at h
            cases h
            exact .commit (stage_at hpc) hcarry rfl (Running.refl_at w _) hd
              ⟨h1, h2, h3, h4, h5, h6, h7, h8⟩
          | false =>
            rw [if_neg (by rw [hr]; decide)] at h
            cases h
            exact .commitFailed (stage_at hpc) hcarry rfl rfl (Running.refl_at w _) hd
              ⟨h1, h2, h3, h4, h5, h6, h7, h8⟩
      | _ => simp [workerTurn, hpc] at h
    | _ => simp [workerTurn, hpc] at h

/-! The other threads. -/

def callDisplays : CallEvent → Bool
  | .waitForPart => true
  | .found => true
  | _ => false

/-- A worker is between its creation and its hand-off block. -/
def waits : Thread → Bool
  | .worker w => beforeHandoff w
  | _ => false

def isWorker : Thread → Bool
  | .worker _ => true
  | _ => false

/-- What is said of workers, as a predicate of threads. -/
def OnWorker (P : Worker → Prop) : Thread → Prop
  | .worker w => P w
  | _ => True

theorem onWorker_of_call {P : Worker → Prop} {t : Thread} (h : isWorker t = false) :
    OnWorker P t := by
  cases t with
  | worker w => cases h
  | _ => trivial

theorem onWorkers_mono {P Q : Worker → Prop} {ts : List Thread} (h : ∀ t ∈ ts, OnWorker P t)
    (hw : ∀ w, P w → Q w) : ∀ t ∈ ts, OnWorker Q t := by
  intro t ht
  have h' := h t ht
  cases t with
  | worker w => exact hw w h'
  | _ => trivial

theorem onWorkers_replicate {P : Worker → Prop} (n : Nat) :
    ∀ t ∈ List.replicate n Thread.idle, OnWorker P t := by
  intro t ht
  rw [List.eq_of_mem_replicate ht]
  trivial

/-- The pending path after the commit of a call. -/
def pendingAfter (g : Globals) (c : StartCall) : Path :=
  if c.fromLive then g.pendingPkgPath else c.pendingPath

/-- What one event of another thread does to the globals. -/
inductive CallMove (g : Globals) (t : Thread) (e : CallEvent) :
    Globals → Thread → List Thread → Prop
  | quiet {t'} : isWorker t' = false → CallMove g t e g t' []
  | display {str direct waiting t'} : callDisplays e = true → isWorker t' = false →
      CallMove g t e (display str direct waiting g) t' []
  | error {t'} : e = .expired → isWorker t' = false → CallMove g t e (failWith (-22) g) t' []
  | check {t'} : isWorker t' = false → CallMove g t e (startCheck false g).1 t' []
  | take {t'} : isWorker t' = false → CallMove g t e (takeThread none g).1 t' []
  | commit {c d g' t'} : t = .starting c .checking → e = .commit d true → isWorker t' = false →
      g.status.isInstalling = false →
      Commit g g' (g.record.userCommit (!c.fromLive && c.pendingPath ≠ [])) (pendingAfter g c) true →
      CallMove g t e g' t' [.worker (newWorker g (g.record.batches + 1) false)]
  | commitFailed {c d g' t'} : t = .starting c .checking → e = .commit d false →
      isWorker t' = false → g.status.isInstalling = false →
      Commit g g' (g.record.userCommit (!c.fromLive && c.pendingPath ≠ [])) (pendingAfter g c) false →
      CallMove g t e g' t' []
  | cancel {t'} : e = .cancel → isWorker t' = false → (installerCancel g).2 = 0 →
      CallMove g t e (installerCancel g).1 t' []
  | detach {t'} : e = .detach → isWorker t' = false → (installerDetachDirectStorage g).2.1 = 0 →
      CallMove g t e (installerDetachDirectStorage g).1 t' []
  | raise {t'} : isWorker t' = false → CallMove g t e (raiseCancel g) t' []
  | stop {t'} : isWorker t' = false → CallMove g t e (stopMonitor g) t' []
  | clear {t'} : isWorker t' = false → CallMove g t e (clearPending g) t' []
  | joined {t'} : isWorker t' = false →
      CallMove g t e { g with streamThreadCreated := false } t' []

theorem installerCancel_refused {g : Globals} (hz : (installerCancel g).2 ≠ 0) :
    (installerCancel g).1 = g := by
  unfold installerCancel at hz ⊢
  split
  · rfl
  · rename_i h1
    rw [if_neg h1] at hz
    split
    · rfl
    · rename_i h2
      rw [if_neg h2] at hz
      exact absurd rfl hz

theorem begin_move {s s' : Site} {t t' : Thread} {new : List Thread} {e : CallEvent}
    (h : begin s e = some (s', t', new)) : CallMove s.inst t e s'.inst t' new := by
  cases e with
  | start path =>
    cases h
    refine .quiet ?_
    split <;> rfl
  | startBatch base update =>
    cases h
    refine .quiet ?_
    split <;> rfl
  | startLive uri =>
    cases h
    refine .quiet ?_
    split <;> rfl
  | cancel =>
    cases h
    unfold beginCancel
    simp only
    by_cases hc : (installerCancel s.inst).2 = 0
    · exact .cancel rfl (by simp [hc, isWorker]) hc
    · rw [installerCancel_refused hc]
      exact .quiet (by simp [hc, isWorker])
  | detach =>
    cases h
    by_cases hc : (installerDetachDirectStorage s.inst).2.1 = 0
    · exact .detach rfl rfl hc
    · have hsame : (installerDetachDirectStorage s.inst).1 = s.inst := by
        unfold installerDetachDirectStorage at hc ⊢
        split
        · rfl
        · rename_i h1
          rw [if_neg h1] at hc
          split
          · rfl
          · rename_i h2
            rw [if_neg h2] at hc
            exact absurd rfl hc
      show CallMove s.inst t _ (installerDetachDirectStorage s.inst).1 _ []
      rw [hsame]
      exact .quiet rfl
  | shutdown =>
    cases h
    exact .raise rfl
  | waitForPart =>
    cases h
    exact .display rfl rfl
  | _ => cases h

theorem commitStart_move {s : Site} {c : StartCall} {d : Detail} {created : Bool} :
    CallMove s.inst (.starting c .checking) (.commit d created) (commitStart s c d created).1.inst
      (commitStart s c d created).2.1 (commitStart s c d created).2.2 := by
  unfold commitStart
  simp only
  generalize hr : (if c.fromLive then liveCommit c.pkgPath created s.inst
    else startCommit none c.pkgPath c.pendingPath d created s.inst) = r
  by_cases hi : s.inst.status.isInstalling = true
  · have hsame : r = (s.inst, -2) := by
      rw [← hr]
      split
      · simp [liveCommit, hi]
      · simp [startCommit, hi]
    rw [hsame]
    exact .quiet rfl
  · have hidle := Bool.eq_false_iff.mpr hi
    have hcommit : Commit s.inst r.1 (s.inst.record.userCommit (!c.fromLive && c.pendingPath ≠ []))
        (pendingAfter s.inst c) created ∧ r.2 = if created then 0 else -12 := by
      rw [← hr]
      unfold pendingAfter
      cases hlive : c.fromLive with
      | true => exact liveCommit_user c.pkgPath created hidle
      | false =>
        have h := startCommit_user c.pkgPath c.pendingPath d created hidle
        simpa using h
    obtain ⟨hc, hvalue⟩ := hcommit
    have hbatch : r.1.record.batch = s.inst.record.batches + 1 := by
      rw [hc.record]
      rfl
    cases created with
    | true =>
      have hzero : r.2 = 0 := hvalue
      rw [if_pos hzero, hbatch]
      exact .commit rfl rfl rfl hidle hc
    | false =>
      have hfail : r.2 = -12 := hvalue
      rw [if_neg (by rw [hfail]; decide)]
      exact .commitFailed rfl rfl rfl hidle hc

theorem call_move {s s' : Site} {t t' : Thread} {new : List Thread} {e : CallEvent}
    (h : callTurn s t e = some (s', t', new)) : CallMove s.inst t e s'.inst t' new := by
  cases t with
  | idle => exact begin_move h
  | returned n => exact begin_move h
  | starting c pc =>
    simp only [callTurn] at h
    unfold startTurn at h
    split at h
    · split at h
      · cases h
        refine .quiet ?_
        split <;> rfl
      · cases hcheck : startCheck false s.inst with
        | mk g r =>
          have hg : g = (startCheck false s.inst).1 := (congrArg Prod.fst hcheck).symm
          rw [hcheck] at h
          cases r with
          | some r =>
            cases h
            rw [hg]
            exact .check rfl
          | none =>
            cases h
            rw [hg]
            exact .check rfl
    · cases htake : takeThread none s.inst with
      | mk g old =>
        have hg : g = (takeThread none s.inst).1 := (congrArg Prod.fst htake).symm
        rw [htake] at h
        cases old with
        | some old =>
          cases h
          rw [hg]
          exact .take rfl
        | none =>
          cases h
          rw [hg]
          exact .take rfl
    · split at h
      · cases h
        exact .quiet rfl
      · cases h
    · split at h
      · cases h
        exact .quiet rfl
      · cases h
    · cases h
      exact commitStart_move
    · cases h
  | canceling pc =>
    cases e with
    | go =>
      simp only [callTurn] at h
      cases htear : teardown false s pc with
      | mk s₁ next =>
        have hinst := teardown_inst htear
        rw [htear] at h
        cases next with
        | some pc' =>
          cases h
          rw [hinst]
          exact .quiet rfl
        | none =>
          cases h
          rw [hinst]
          exact .quiet rfl
    | _ => cases h
  | shutting pc =>
    cases e with
    | go =>
      simp only [callTurn] at h
      unfold shutdownTurn at h
      split at h
      · cases h
        exact .stop rfl
      · cases h
        exact .clear rfl
      · cases h
        exact .quiet rfl
      · cases h
        exact .quiet rfl
      · split at h
        · cases h
          exact .joined rfl
        · cases h
      · cases h
        exact .quiet rfl
    | _ => cases h
  | waitingForPart =>
    simp only [callTurn] at h
    unfold waiterTurn at h
    split at h
    · cases h
      exact .display rfl rfl
    · split at h
      · cases h
        exact .quiet rfl
      · cases h
    · cases h
      exact .error rfl rfl
    · cases h
  | worker w => cases h

/-- A step of the installer: a worker's event or another thread's. -/
theorem installs_step {p q : Pool Site Thread} {i : Nat} {e : Event}
    (h : installs.step p i e = some q) :
    (∃ w w' new ev, p.threads[i]? = some (.worker w) ∧ e = .work ev ∧
      Move p.shared.inst w ev q.shared.inst w' new ∧
      q.threads = p.threads.set i (.worker w') ++ new.map .worker) ∨
    (∃ t t' new ev, p.threads[i]? = some t ∧ isWorker t = false ∧ e = .call ev ∧
      CallMove p.shared.inst t ev q.shared.inst t' new ∧
      q.threads = p.threads.set i t' ++ new) := by
  obtain ⟨t, s', t', new, ht, hact, rfl⟩ := step_eq_some h
  cases e with
  | call ev =>
    refine .inr ⟨t, t', new, ev, ht, ?_, rfl, call_move hact, rfl⟩
    cases t with
    | worker w => cases hact
    | _ => rfl
  | work ev =>
    cases t with
    | worker w =>
      obtain ⟨⟨s₁, w', new'⟩, hturn, he⟩ := Option.map_eq_some_iff.mp hact
      cases he
      exact .inl ⟨w, w', new', ev, ht, rfl, worker_move hturn, rfl⟩
    | _ => cases hact

/-! What the steps leave alone. -/

/-- The flags and the history are as they were, and no path became pending. -/
structure Kept (g g' : Globals) : Prop where
  monitor : g'.monitorRunning = g.monitorRunning
  cancel : g'.cancelStream = g.cancelStream
  detach : g'.detachDirectStorage = g.detachDirectStorage
  pending : g'.pendingPkgPath = g.pendingPkgPath ∨ g'.pendingPkgPath = []
  record : g'.record = g.record

theorem startCheck_status (queued : Bool) (g : Globals) :
    (startCheck queued g).1.status = g.status ∧
      (startCheck queued g).1.cancelStream = g.cancelStream ∧
      (startCheck queued g).1.record = g.record := by
  unfold startCheck
  split
  · exact ⟨rfl, rfl, rfl⟩
  · simp only
    split <;> split <;> exact ⟨rfl, rfl, rfl⟩

theorem takeThread_status (self : Option Nat) (g : Globals) :
    (takeThread self g).1.status = g.status ∧
      (takeThread self g).1.cancelStream = g.cancelStream ∧
      (takeThread self g).1.record = g.record := by
  unfold takeThread
  split <;> exact ⟨rfl, rfl, rfl⟩

theorem captureNext_status (g : Globals) : (captureNext g).1.status = g.status ∧
    (captureNext g).1.cancelStream = g.cancelStream ∧ (captureNext g).1.record = g.record := by
  unfold captureNext
  split
  · exact ⟨rfl, rfl, rfl⟩
  · split <;> exact ⟨rfl, rfl, rfl⟩

theorem captureNext_pending (g : Globals) : (captureNext g).1.pendingPkgPath = [] := by
  unfold captureNext
  split
  · rfl
  · rename_i h1
    split
    · rfl
    · rename_i h2
      by_contra hne
      apply h1
      simp only [not_or] at h2
      obtain ⟨_, h3, h4, h5⟩ := h2
      refine ⟨hne, ?_, ?_, ?_⟩
      · simpa using h4
      · simpa using h3
      · simpa using h5

theorem captureNext_next (h : (captureNext g).2 ≠ []) : g.pendingPkgPath ≠ [] ∧
    g.monitorRunning = true ∧ g.cancelStream = false ∧ g.detachDirectStorage = false := by
  unfold captureNext at h
  split at h
  · rename_i hcap
    obtain ⟨h1, h2, h3, h4⟩ := hcap
    exact ⟨h1, h2, by simpa using h3, by simpa using h4⟩
  · split at h <;> exact absurd rfl h

theorem kept_startCheck (queued : Bool) (g : Globals) : Kept g (startCheck queued g).1 := by
  unfold startCheck
  split
  · exact ⟨rfl, rfl, rfl, .inl rfl, rfl⟩
  · simp only
    -- the pending path of a start that finds no install is stale
    cases hi : g.status.isInstalling with
    | true => split <;> exact ⟨rfl, rfl, rfl, .inl rfl, rfl⟩
    | false => split <;> exact ⟨rfl, rfl, rfl, .inr rfl, rfl⟩

theorem kept_takeThread (self : Option Nat) (g : Globals) : Kept g (takeThread self g).1 := by
  unfold takeThread
  split <;> exact ⟨rfl, rfl, rfl, .inl rfl, rfl⟩

theorem kept_captureNext (g : Globals) : Kept g (captureNext g).1 := by
  unfold captureNext
  split
  · exact ⟨rfl, rfl, rfl, .inr rfl, rfl⟩
  · split
    · exact ⟨rfl, rfl, rfl, .inr rfl, rfl⟩
    · exact ⟨rfl, rfl, rfl, .inl rfl, rfl⟩

theorem kept_complete (g : Globals) : Kept g (complete g) := by
  unfold complete
  split <;> exact ⟨rfl, rfl, rfl, .inl rfl, rfl⟩

/-- The hand-off commit of a worker that carries an update. -/
structure Handoff (g g' : Globals) (w w' : Worker) (new : List Worker) : Prop where
  carries : carrying w = true
  drops : carrying w' = false
  released : stage w = .released
  after : stage w' = .released ∨ stage w' = .over
  running : Running w w'
  attached : g.detachDirectStorage = false
  commit : ∃ created, Commit g g' (g.record.queuedCommit w.nextBatch) [] created ∧
    new = if created then [newWorker g w.nextBatch true] else []

theorem not_carrying_of_stage {w : Worker} (h : stage w ≠ .released) : carrying w = false := by
  unfold carrying
  cases hpc : w.pc with
  | release t => exact absurd (stage_at hpc) h
  | starting pc => exact absurd (stage_at hpc) h
  | _ => rfl

variable {g g' : Globals} {w w' : Worker} {new : List Worker}

theorem Move.kept {e : WorkerEvent} (hm : Move g w e g' w' new) :
    (Kept g g' ∧ new = []) ∨ Handoff g g' w w' new := by
  have hsame : Kept g g := ⟨rfl, rfl, rfl, .inl rfl, rfl⟩
  cases hm with
  | quiet => exact .inl ⟨hsame, rfl⟩
  | display => exact .inl ⟨⟨rfl, rfl, rfl, .inl rfl, rfl⟩, rfl⟩
  | launch => exact .inl ⟨⟨rfl, rfl, rfl, .inl rfl, rfl⟩, rfl⟩
  | settle => exact .inl ⟨hsame, rfl⟩
  | error => exact .inl ⟨⟨rfl, rfl, rfl, .inl rfl, rfl⟩, rfl⟩
  | completion => exact .inl ⟨kept_complete g, rfl⟩
  | fail => exact .inl ⟨⟨rfl, rfl, rfl, .inr rfl, rfl⟩, rfl⟩
  | failOut => exact .inl ⟨⟨rfl, rfl, rfl, .inr rfl, rfl⟩, rfl⟩
  | clear => exact .inl ⟨⟨rfl, rfl, rfl, .inr rfl, rfl⟩, rfl⟩
  | detached => exact .inl ⟨hsame, rfl⟩
  | capture => exact .inl ⟨kept_captureNext g, rfl⟩
  | step => exact .inl ⟨hsame, rfl⟩
  | leave => exact .inl ⟨hsame, rfl⟩
  | exit => exact .inl ⟨⟨rfl, rfl, rfl, .inl rfl, rfl⟩, rfl⟩
  | check => exact .inl ⟨kept_startCheck true g, rfl⟩
  | take => exact .inl ⟨kept_takeThread _ g, rfl⟩
  | commit h1 h2 h3 h4 h5 h6 =>
    refine .inr ⟨h2, not_carrying_of_stage ?_, h1, .inr h3, h4, h5, true, h6, rfl⟩
    rw [h3]
    decide
  | commitFailed h1 h2 h3 h4 h5 h6 h7 => exact .inr ⟨h2, h4, h1, .inl h3, h5, h6, false, h7, rfl⟩
  | nextFailed => exact .inl ⟨⟨rfl, rfl, rfl, .inl rfl, rfl⟩, rfl⟩

theorem detached_parts {g : Globals} (hz : (installerDetachDirectStorage g).2.1 = 0) :
    (installerDetachDirectStorage g).1.record =
        { g.record with detached := g.record.batch :: g.record.detached } ∧
      (installerDetachDirectStorage g).1.pendingPkgPath = [] ∧
      (installerDetachDirectStorage g).1.detachDirectStorage = true ∧
      (installerDetachDirectStorage g).1.status.isInstalling = false ∧
      (installerDetachDirectStorage g).1.cancelStream = g.cancelStream := by
  unfold installerDetachDirectStorage at hz ⊢
  split
  · rename_i h1
    rw [if_pos h1] at hz
    cases hz
  · rename_i h1
    rw [if_neg h1] at hz
    split
    · rename_i h2
      rw [if_pos h2] at hz
      cases hz
    · exact ⟨rfl, rfl, rfl, rfl, rfl⟩

theorem canceled_parts {g : Globals} (hz : (installerCancel g).2 = 0) :
    (installerCancel g).1.record = { g.record with
        canceled := g.record.batch :: g.record.canceled
        canceledSinceUser := true
        canceledSinceStart := true } ∧
      (installerCancel g).1.pendingPkgPath = [] ∧ (installerCancel g).1.cancelStream = true ∧
      (installerCancel g).1.detachDirectStorage = g.detachDirectStorage ∧
      (installerCancel g).1.status.isInstalling = false := by
  unfold installerCancel at hz ⊢
  split
  · rename_i h1
    rw [if_pos h1] at hz
    cases hz
  · rename_i h1
    rw [if_neg h1] at hz
    split
    · rename_i h2
      rw [if_pos h2] at hz
      cases hz
    · exact ⟨rfl, rfl, rfl, rfl, rfl⟩

/-- The capture of the pending path by a worker. -/
structure Capture (g : Globals) (w w' : Worker) : Prop where
  nonempty : carrying w' = true → w'.next ≠ []
  queued : w'.queued = w.queued
  afterCancel : w'.afterCancel = w.afterCancel
  afterDetach : w'.afterDetach = w.afterDetach
  next : w'.next = (captureNext g).2
  nextBatch : w'.nextBatch = g.record.pendingBatch

/-- A worker carries nothing it did not carry before, unless it has just captured it. -/
theorem Move.carried {e : WorkerEvent} (hm : Move g w e g' w' new) :
    (SameRun w w' ∧ (carrying w' = true → carrying w = true)) ∨ Capture g w w' := by
  have hstage : SameRun w w' → stage w' ≠ .released →
      (SameRun w w' ∧ (carrying w' = true → carrying w = true)) ∨ Capture g w w' := by
    intro hr hs
    refine .inl ⟨hr, fun hc => ?_⟩
    rw [not_carrying_of_stage hs] at hc
    cases hc
  cases hm with
  | quiet _ hs hr => exact hstage hr.toSameRun (by rw [hs]; decide)
  | display _ _ hs hr => exact hstage hr.toSameRun (by rw [hs]; decide)
  | launch _ _ hs hr => exact hstage hr.toSameRun (by rw [hs]; decide)
  | settle _ _ hs hr => exact hstage hr.toSameRun (by rw [hs]; decide)
  | error _ _ hs hr => exact hstage hr (by rw [hs]; decide)
  | completion _ _ _ hs hr => exact hstage hr (by rw [hs]; decide)
  | fail _ _ hs hr => exact hstage hr (by rw [hs]; decide)
  | failOut _ _ hs hr => exact hstage hr (by rw [hs]; decide)
  | clear _ hs hr => exact hstage hr.toSameRun (by rw [hs]; decide)
  | detached _ _ hs hr => exact hstage hr.toSameRun (by rw [hs]; decide)
  | capture _ _ hne _ hq hac had _ _ hnext hnb => exact .inr ⟨hne, hq, hac, had, hnext, hnb⟩
  | step _ _ hr hc => exact .inl ⟨hr.toSameRun, hc⟩
  | leave _ hs hr => exact hstage hr.toSameRun (by rw [hs]; decide)
  | exit _ hs hr => exact hstage hr.toSameRun (by rw [hs]; decide)
  | check _ hc _ hr => exact .inl ⟨hr.toSameRun, fun _ => hc⟩
  | take _ hc _ hr => exact .inl ⟨hr.toSameRun, fun _ => hc⟩
  | commit _ hc _ hr => exact .inl ⟨hr.toSameRun, fun _ => hc⟩
  | commitFailed _ hc _ _ hr => exact .inl ⟨hr.toSameRun, fun _ => hc⟩
  | nextFailed _ _ hs hr => exact hstage hr.toSameRun (by rw [hs]; decide)

/-- The commit of a call of the user. -/
structure UserCommit (g g' : Globals) (c : StartCall) (created : Bool) (new : List Thread) :
    Prop where
  idle : g.status.isInstalling = false
  commit : Commit g g' (g.record.userCommit (!c.fromLive && c.pendingPath ≠ []))
    (pendingAfter g c) created
  new : new = if created then [.worker (newWorker g (g.record.batches + 1) false)] else []

/-- A step of another thread that is no commit, no cancel and no detach. -/
structure Calm (g g' : Globals) : Prop where
  monitor : g'.monitorRunning = true → g.monitorRunning = true
  cancel : g.cancelStream = true → g'.cancelStream = true
  detach : g'.detachDirectStorage = g.detachDirectStorage
  pending : g'.pendingPkgPath = g.pendingPkgPath ∨ g'.pendingPkgPath = []
  record : g'.record = g.record

theorem Kept.calm (h : Kept g g') : Calm g g' :=
  ⟨fun hm => h.monitor ▸ hm, fun hc => h.cancel ▸ hc, h.detach, h.pending, h.record⟩

theorem CallMove.kept {t t' : Thread} {e : CallEvent} {new : List Thread}
    (hm : CallMove g t e g' t' new) :
    (Calm g g' ∧ new = []) ∨
      (∃ c d created, t = .starting c .checking ∧ e = .commit d created ∧
        UserCommit g g' c created new) ∨
      (e = .cancel ∧ g' = (installerCancel g).1 ∧ (installerCancel g).2 = 0 ∧ new = []) ∨
      (e = .detach ∧ g' = (installerDetachDirectStorage g).1 ∧
        (installerDetachDirectStorage g).2.1 = 0 ∧ new = []) := by
  have hcalm : ∀ {g'}, Kept g g' → Calm g g' := Kept.calm
  cases hm with
  | quiet => exact .inl ⟨hcalm ⟨rfl, rfl, rfl, .inl rfl, rfl⟩, rfl⟩
  | display => exact .inl ⟨hcalm ⟨rfl, rfl, rfl, .inl rfl, rfl⟩, rfl⟩
  | error => exact .inl ⟨hcalm ⟨rfl, rfl, rfl, .inl rfl, rfl⟩, rfl⟩
  | check => exact .inl ⟨hcalm (kept_startCheck false g), rfl⟩
  | take => exact .inl ⟨hcalm (kept_takeThread none g), rfl⟩
  | commit h1 h2 _ h4 h5 => exact .inr (.inl ⟨_, _, true, h1, h2, h4, h5, rfl⟩)
  | commitFailed h1 h2 _ h4 h5 => exact .inr (.inl ⟨_, _, false, h1, h2, h4, h5, rfl⟩)
  | cancel h1 _ h3 => exact .inr (.inr (.inl ⟨h1, rfl, h3, rfl⟩))
  | detach h1 _ h3 => exact .inr (.inr (.inr ⟨h1, rfl, h3, rfl⟩))
  | raise => exact .inl ⟨⟨id, fun _ => rfl, rfl, .inl rfl, rfl⟩, rfl⟩
  | stop => exact .inl ⟨⟨nofun, id, rfl, .inl rfl, rfl⟩, rfl⟩
  | clear => exact .inl ⟨hcalm ⟨rfl, rfl, rfl, .inr rfl, rfl⟩, rfl⟩
  | joined => exact .inl ⟨hcalm ⟨rfl, rfl, rfl, .inl rfl, rfl⟩, rfl⟩

theorem CallMove.not_worker {t t' : Thread} {e : CallEvent} {new : List Thread}
    (hm : CallMove g t e g' t' new) : isWorker t' = false := by
  cases hm <;> assumption

/-! The path in the status changes with a commit. -/

theorem Move.path {e : WorkerEvent} (hm : Move g w e g' w' new) :
    g'.status.pkgPath = g.status.pkgPath ∨ carrying w = true := by
  cases hm with
  | completion =>
    left
    unfold complete
    split <;> rfl
  | capture => exact .inl (by rw [(captureNext_status g).1])
  | check => exact .inl (by rw [(startCheck_status true g).1])
  | take => exact .inl (by rw [(takeThread_status (some w.id) g).1])
  | commit _ hc => exact .inr hc
  | commitFailed _ hc => exact .inr hc
  | _ => exact .inl rfl

theorem CallMove.path {t t' : Thread} {e : CallEvent} {new : List Thread}
    (hm : CallMove g t e g' t' new) :
    g'.status.pkgPath = g.status.pkgPath ∨
      ∃ c d created, t = .starting c .checking ∧ e = .commit d created := by
  cases hm with
  | check => exact .inl (by rw [(startCheck_status false g).1])
  | take => exact .inl (by rw [(takeThread_status none g).1])
  | commit h1 h2 => exact .inr ⟨_, _, true, h1, h2⟩
  | commitFailed h1 h2 => exact .inr ⟨_, _, false, h1, h2⟩
  | cancel =>
    left
    unfold installerCancel
    split
    · rfl
    · split <;> rfl
  | detach =>
    left
    unfold installerDetachDirectStorage
    split
    · rfl
    · split <;> rfl
  | _ => exact .inl rfl

/-- A step of a worker that keeps the flags, the history and the path of the status. -/
def Stays (g g' : Globals) (new : List Worker) : Prop :=
  Kept g g' ∧ g'.status.pkgPath = g.status.pkgPath ∧ new = []

/-- Behind its release, too, a worker changes them only with its commit. -/
theorem carrier_stays {s s' : Site} {w w' : Worker} {e : WorkerEvent} {new : List Worker}
    (h : workerTurn s w e = some (s', w', new)) (hcarry : carrying w = true)
    (he : ∀ d created, e ≠ .commit d created) : Stays s.inst s'.inst new := by
  have hsame : ∀ {g : Globals}, Stays g g [] := ⟨⟨rfl, rfl, rfl, .inl rfl, rfl⟩, rfl, rfl⟩
  have hexit : ∀ {g : Globals} {ids}, Stays g { g with exited := ids } [] :=
    ⟨⟨rfl, rfl, rfl, .inl rfl, rfl⟩, rfl, rfl⟩
  unfold carrying at hcarry
  cases hpc : w.pc with
  | release t =>
    cases e with
    | go =>
      simp only [workerTurn, hpc] at h
      cases htear : teardown w.filesystem s t with
      | mk s₁ next =>
        have hinst := teardown_inst htear
        rw [htear] at h
        cases next with
        | some t' =>
          cases h
          rw [hinst]
          exact hsame
        | none =>
          simp only at h
          split at h
          · cases h
            rw [← hinst]
            exact hexit
          · cases h
            rw [hinst]
            exact hsame
    | commit d created => exact absurd rfl (he d created)
    | _ => simp [workerTurn, hpc] at h
  | starting pc =>
    cases e with
    | go =>
      simp only [workerTurn, hpc] at h
      cases pc with
      | check =>
        have hkept := kept_startCheck true s.inst
        have hpath := congrArg Status.pkgPath (startCheck_status true s.inst).1
        cases hcheck : startCheck true s.inst with
        | mk g r =>
          rw [hcheck] at h hkept hpath
          cases r with
          | some r =>
            cases h
            exact hexit
          | none =>
            cases h
            exact ⟨hkept, hpath, rfl⟩
      | join =>
        have hkept := kept_takeThread (some w.id) s.inst
        have hpath := congrArg Status.pkgPath (takeThread_status (some w.id) s.inst).1
        cases htake : takeThread (some w.id) s.inst with
        | mk g old =>
          rw [htake] at h hkept hpath
          cases old <;> cases h <;> exact ⟨hkept, hpath, rfl⟩
      | _ => cases h
    | commit d created => exact absurd rfl (he d created)
    | join =>
      cases pc with
      | joining old =>
        simp only [workerTurn, hpc] at h
        split at h <;> cases h
        exact hsame
      | _ => simp [workerTurn, hpc] at h
    | refused code =>
      cases pc with
      | checking =>
        simp only [workerTurn, hpc] at h
        split at h <;> cases h
        exact hsame
      | _ => simp [workerTurn, hpc] at h
    | _ => simp [workerTurn, hpc] at h
  | _ =>
    rw [hpc] at hcarry
    cases hcarry

theorem worker_stays {s s' : Site} {w w' : Worker} {e : WorkerEvent} {new : List Worker}
    (h : workerTurn s w e = some (s', w', new)) (he : ∀ d created, e ≠ .commit d created) :
    Stays s.inst s'.inst new := by
  have hm := worker_move h
  cases hcarry : carrying w with
  | true => exact carrier_stays h hcarry he
  | false =>
    have hpath : s'.inst.status.pkgPath = s.inst.status.pkgPath := by
      rcases hm.path with hpath | hc
      · exact hpath
      · exact absurd (hcarry.symm.trans hc) Bool.false_ne_true
    rcases hm.kept with ⟨hk, hnew⟩ | hh
    · exact ⟨hk, hpath, hnew⟩
    · exact absurd (hcarry.symm.trans hh.carries) Bool.false_ne_true

end PkgManager.InstallMoves
