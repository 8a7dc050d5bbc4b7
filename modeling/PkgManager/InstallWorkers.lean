import PkgManager.InstallMarks

namespace PkgManager.InstallWorkers

open Interleaving Machine Installer InstallWorker InstallThreads InstallMoves InstallMarks

/-- A worker is before its hand-off block, or hands an update over. -/
def busy (w : Worker) : Bool := beforeHandoff w || carrying w

def busyThread : Thread → Bool
  | .worker w => busy w
  | _ => false

/-- The event commits an install of the user. -/
def commitsUser (p : Pool Site Thread) (i : Nat) (e : Event) : Bool :=
  match p.threads[i]?, e with
  | some (.starting _ .checking), .call (.commit _ _) => !p.shared.inst.status.isInstalling
  | _, _ => false

/-- An install of the user commits only when every earlier worker has passed its
hand-off block and dropped or started what it captured there. -/
def joinsFirst (p : Pool Site Thread) (i : Nat) (e : Event) : Bool :=
  !commitsUser p i e || p.threads.all fun t => !busyThread t

/-- At most one worker is on its way, and a detached update is never started. -/
structure OneWorker (p : Pool Site Thread) : Prop where
  single : p.threads.countP waits ≤ 1
  discarded : ∀ w, .worker w ∈ p.threads → carrying w = true →
    p.shared.inst.record.detached.contains w.nextBatch = true →
      ∀ path d created,
        startCommit (some w.nextBatch) path [] d created p.shared.inst =
          (p.shared.inst, handoffDiscarded)
  neverStarted : ∀ w, .worker w ∈ p.threads → w.queued = true → w.afterDetach = false

/-- What the invariant says of one worker: batches are numbered from below, and
the detach flag is up while it carries a detached update. -/
structure Tracked (g : Globals) (w : Worker) : Prop where
  next_le : w.nextBatch ≤ g.record.batches
  flag : carrying w = true → g.record.detached.contains w.nextBatch = true →
    g.detachDirectStorage = true
  fresh : w.queued = true → w.afterDetach = false

structure WorkersInv (p : Pool Site Thread) : Prop where
  single : p.threads.countP busyThread ≤ 1
  numbered : Numbered detachedMarks p.shared.inst
  tracked : ∀ t ∈ p.threads, OnWorker (Tracked p.shared.inst) t

variable {g g' : Globals} {w w' : Worker} {new : List Worker} {e : WorkerEvent}

theorem tracked_cancel (h : Tracked g w) (hz : (installerCancel g).2 = 0) :
    Tracked (installerCancel g).1 w := by
  obtain ⟨hr, _, _, hd, _⟩ := canceled_parts hz
  refine ⟨?_, ?_, h.fresh⟩
  · rw [hr]
    exact h.next_le
  · rw [hr, hd]
    exact h.flag

theorem tracked_detach (h : Tracked g w) (hz : (installerDetachDirectStorage g).2.1 = 0) :
    Tracked (installerDetachDirectStorage g).1 w := by
  obtain ⟨hr, _, hd, _⟩ := detached_parts hz
  refine ⟨?_, fun _ _ => hd, h.fresh⟩
  rw [hr]
  exact h.next_le

theorem tracked_calm (h : Tracked g w) (hc : Calm g g') : Tracked g' w := by
  refine ⟨?_, ?_, h.fresh⟩
  · rw [hc.record]
    exact h.next_le
  · rw [hc.record, hc.detach]
    exact h.flag

/-- A worker that moves stays busy or becomes idle, never the other way. -/
theorem busy_of_move (hm : Move g w e g' w' new) (hb : busy w' = true) : busy w = true := by
  have hb' : stage w' = .released → carrying w' = true := by
    intro hs
    unfold busy beforeHandoff at hb
    rw [hs, Bool.false_or] at hb
    exact hb
  have hrun : stage w = .running ∨ stage w = .settled ∨ stage w = .leaving → busy w = true := by
    intro hs
    unfold busy beforeHandoff
    rcases hs with hs | hs | hs <;> rw [hs] <;> rfl
  have hcarry : carrying w = true → busy w = true := fun hc => by rw [busy, hc, Bool.or_true]
  have hover : stage w' ≠ .over := by
    intro hs
    unfold busy beforeHandoff at hb
    rw [hs, not_carrying_of_stage (by rw [hs]; decide)] at hb
    cases hb
  cases hm with
  | quiet hs => exact hrun (.inl hs)
  | display _ hs => exact hrun (.inl hs)
  | launch _ hs => exact hrun (.inl hs)
  | settle _ hs => exact hrun (.inl hs)
  | error _ hs => exact hrun (.inl hs)
  | completion _ _ hs => exact hrun (.inl hs)
  | fail _ hs => exact hrun (.inl hs)
  | failOut _ hs => exact hrun (.inl hs)
  | clear hs => exact hrun (.inl hs)
  | detached _ hs => exact hrun (.inl hs)
  | capture hs => exact hrun (.inr (.inl hs))
  | step _ hs' _ hc => exact hcarry (hc (hb' hs'))
  | leave hs => exact hrun (.inr (.inr hs))
  | exit _ hs' => exact absurd hs' hover
  | check _ hc => exact hcarry hc
  | take _ hc => exact hcarry hc
  | commit _ hc => exact hcarry hc
  | commitFailed _ hc => exact hcarry hc
  | nextFailed _ _ hs' => exact absurd hs' hover

/-- What a worker knows of its update survives a step that is no commit. -/
theorem tracked_move (hn : Numbered detachedMarks g) (h : Tracked g w) (hm : Move g w e g' w' new)
    (hk : Kept g g') : Tracked g' w' := by
  rcases hm.carried with ⟨hr, hc⟩ | hcap
  · have hbase := tracked_calm h hk.calm
    refine ⟨?_, fun hcarry => ?_, ?_⟩
    · rw [hr.nextBatch]
      exact hbase.next_le
    · rw [hr.nextBatch]
      exact hbase.flag (hc hcarry)
    · rw [hr.queued, hr.afterDetach]
      exact hbase.fresh
  · refine ⟨?_, fun hcarry hdet => ?_, ?_⟩
    · rw [hcap.nextBatch, hk.record]
      exact hn.pending_le
    · have hpending := (captureNext_next (hcap.next ▸ hcap.nonempty hcarry)).1
      rw [hcap.nextBatch, hk.record] at hdet
      exact absurd (List.contains_iff_mem.mp hdet) (hn.pending_unmarked hpending)
    · rw [hcap.queued, hcap.afterDetach]
      exact h.fresh

/-- Behind a commit no worker but the new one is busy, so none carries an update. -/
theorem tracked_commit (h : Tracked g w) (hb : busy w = false)
    (hle : g.record.batches ≤ g'.record.batches) : Tracked g' w := by
  refine ⟨Nat.le_trans h.next_le hle, fun hc => ?_, h.fresh⟩
  rw [busy, hc, Bool.or_true] at hb
  cases hb

theorem tracked_new {batch : Nat} {queued : Bool} (hb : queued = true →
    g.record.detached.contains batch = false) : Tracked g' (newWorker g batch queued) :=
  ⟨Nat.zero_le _, nofun, hb⟩

theorem not_busy_of_call {t : Thread} (h : isWorker t = false) : busyThread t = false := by
  cases t with
  | worker w => cases h
  | _ => rfl

theorem busy_after_handoff (hd : carrying w' = false)
    (hs : stage w' = .released ∨ stage w' = .over) : busy w' = false := by
  unfold busy beforeHandoff
  rw [hd]
  rcases hs with hs | hs <;> rw [hs] <;> rfl

theorem workersInv_work {p : Pool Site Thread} {i : Nat} {s' : Site} (h : WorkersInv p)
    (ht : p.threads[i]? = some (.worker w)) (hm : Move p.shared.inst w e s'.inst w' new) :
    WorkersInv ⟨s', p.threads.set i (.worker w') ++ new.map .worker⟩ := by
  have htr : Tracked p.shared.inst w := h.tracked _ (List.mem_of_getElem? ht)
  have hcount := countP_step busyThread (.worker w') (new.map .worker) ht
  have hsingle := h.single
  rcases hm.kept with ⟨hk, rfl⟩ | hh
  · refine ⟨?_, h.numbered.calm hk.calm, ?_⟩
    · have hle : (if busyThread (.worker w') then 1 else 0) ≤
          if busyThread (.worker w) then 1 else 0 := by
        cases hb : busyThread (.worker w') with
        | false => exact Nat.zero_le _
        | true =>
          have hw : busyThread (.worker w) = true := busy_of_move hm hb
          exact Nat.le_of_eq (by rw [hw])
      simp only [List.map_nil, List.countP_nil] at hcount ⊢
      omega
    · refine forall_step ht (P := OnWorker (Tracked s'.inst)) (tracked_move h.numbered htr hm hk) ?_ ?_
      · exact onWorkers_mono h.tracked fun _ hv => tracked_calm hv hk.calm
      · exact fun _ hu => absurd hu List.not_mem_nil
  · obtain ⟨created, hc, hnew⟩ := hh.commit
    have hbusy : busyThread (.worker w) = true := by
      show (beforeHandoff w || carrying w) = true
      rw [hh.carries, Bool.or_true]
    have hidle : busyThread (.worker w') = false := busy_after_handoff hh.drops hh.after
    have hbatches : s'.inst.record.batches = p.shared.inst.record.batches := by
      rw [hc.record]
      rfl
    refine ⟨?_, h.numbered.queued htr.next_le hc, ?_⟩
    · have hone : (new.map Thread.worker).countP busyThread ≤ 1 := by
        refine Nat.le_trans List.countP_le_length ?_
        rw [hnew]
        cases created <;> simp
      rw [hbusy, hidle, if_pos rfl, if_neg (by decide)] at hcount
      simp only at hcount ⊢
      omega
    · intro u hu
      rcases mem_step ht hu with rfl | ⟨j, hji, hj⟩ | hn
      · refine ⟨?_, fun hcarry => ?_, ?_⟩
        · rw [hh.running.nextBatch, hbatches]
          exact htr.next_le
        · rw [hh.drops] at hcarry
          cases hcarry
        · rw [hh.running.queued, hh.running.afterDetach]
          exact htr.fresh
      · have hother := only_of_countP hsingle ht hbusy hj hji
        have hut := h.tracked u (List.mem_of_getElem? hj)
        cases u with
        | worker v => exact tracked_commit hut hother (Nat.le_of_eq hbatches.symm)
        | _ => trivial
      · rw [hnew] at hn
        cases created with
        | false => cases hn
        | true =>
          obtain rfl := List.mem_singleton.mp hn
          -- a detached update would have its flag up, and the commit refuses that
          refine tracked_new fun _ => Bool.eq_false_iff.mpr fun hdet => ?_
          exact absurd (hh.attached.symm.trans (htr.flag hh.carries hdet)) Bool.false_ne_true

theorem workersInv_call {p : Pool Site Thread} {i : Nat} {s' : Site} {t t' : Thread}
    {ev : CallEvent} {threads : List Thread} (h : WorkersInv p) (ht : p.threads[i]? = some t)
    (hw : isWorker t = false) (hg : joinsFirst p i (.call ev) = true)
    (hm : CallMove p.shared.inst t ev s'.inst t' threads) :
    WorkersInv ⟨s', p.threads.set i t' ++ threads⟩ := by
  have hcount := countP_step busyThread t' threads ht
  rw [not_busy_of_call hw, not_busy_of_call hm.not_worker, if_neg (by decide)] at hcount
  have hsingle := h.single
  have ht' := hm.not_worker
  rcases hm.kept with ⟨hk, rfl⟩ | ⟨c, d, created, rfl, rfl, hu⟩ | ⟨rfl, hgc, hz, rfl⟩ |
      ⟨rfl, hgc, hz, rfl⟩
  · refine ⟨?_, h.numbered.calm hk, ?_⟩
    · simp only [List.countP_nil] at hcount ⊢
      omega
    · refine forall_step ht (P := OnWorker (Tracked s'.inst)) (onWorker_of_call ht') ?_ ?_
      · exact onWorkers_mono h.tracked fun _ hv => tracked_calm hv hk
      · exact fun _ hu => absurd hu List.not_mem_nil
  · have hnone : ∀ u ∈ p.threads, busyThread u = false := by
      have hcommits : commitsUser p i (.call (.commit d created)) = true := by
        simp [commitsUser, ht, hu.idle]
      rw [joinsFirst, hcommits, Bool.not_true, Bool.false_or] at hg
      intro u hmem
      simpa using List.all_eq_true.mp hg u hmem
    have hbatches : p.shared.inst.record.batches ≤ s'.inst.record.batches := by
      rw [hu.commit.record]
      exact Nat.le_succ _
    refine ⟨?_, h.numbered.user hu, ?_⟩
    · have hzero : p.threads.countP busyThread = 0 :=
        List.countP_eq_zero.mpr fun u hmem => by rw [hnone u hmem]; decide
      have hone : threads.countP busyThread ≤ 1 := by
        refine Nat.le_trans List.countP_le_length ?_
        rw [hu.new]
        cases created <;> simp
      simp only at hcount ⊢
      omega
    · refine forall_step ht (P := OnWorker (Tracked s'.inst)) (onWorker_of_call ht') ?_ ?_
      · intro u hmem
        have hut := h.tracked u hmem
        have hidle := hnone u hmem
        cases u with
        | worker v => exact tracked_commit hut hidle hbatches
        | _ => trivial
      · rw [hu.new]
        intro u hmem
        cases created with
        | false => cases hmem
        | true =>
          obtain rfl := List.mem_singleton.mp hmem
          exact tracked_new nofun
  · refine ⟨?_, ?_, ?_⟩
    · simp only [List.countP_nil] at hcount ⊢
      omega
    · obtain ⟨hr, hp, _⟩ := canceled_parts hz
      rw [← hgc] at hr hp
      exact h.numbered.mark (by rw [hr]) (by rw [hr]) (by rw [hr]) hp fun b hb => .inr (by rwa [hr] at hb)
    · rw [hgc]
      refine forall_step ht (P := OnWorker (Tracked (installerCancel p.shared.inst).1)) (onWorker_of_call ht') ?_ ?_
      · exact onWorkers_mono h.tracked fun _ hv => tracked_cancel hv hz
      · exact fun _ hu => absurd hu List.not_mem_nil
  · refine ⟨?_, ?_, ?_⟩
    · simp only [List.countP_nil] at hcount ⊢
      omega
    · obtain ⟨hr, hp, _⟩ := detached_parts hz
      rw [← hgc] at hr hp
      refine h.numbered.mark (by rw [hr]) (by rw [hr]) (by rw [hr]) hp fun b hb => ?_
      rw [hr] at hb
      exact List.mem_cons.mp hb
    · rw [hgc]
      refine forall_step ht (P := OnWorker (Tracked (installerDetachDirectStorage p.shared.inst).1)) (onWorker_of_call ht')
        ?_ ?_
      · exact onWorkers_mono h.tracked fun _ hv => tracked_detach hv hz
      · exact fun _ hu => absurd hu List.not_mem_nil

theorem workersInv_step {p q : Pool Site Thread} {i : Nat} {ev : Event} (h : WorkersInv p)
    (hg : joinsFirst p i ev = true) (hs : installs.step p i ev = some q) : WorkersInv q := by
  obtain ⟨s', ts'⟩ := q
  rcases installs_step hs with ⟨w, w', new, we, ht, rfl, hm, rfl⟩ | ⟨t, t', new, ce, ht, hw, rfl, hm, rfl⟩
  · exact workersInv_work h ht hm
  · exact workersInv_call h ht hw hg hm

theorem workersInv_start (live : LiveSession.Live) (n : Nat) : WorkersInv (start live n) := by
  refine ⟨?_, numbered_init.mpr nofun, onWorkers_replicate n⟩
  simp [start, List.countP_replicate, busyThread]

/-- In every run in which a user's install commits only behind the workers before
it, one worker at most is on its way and a detached update is discarded. -/
theorem one_worker (live : LiveSession.Live) (n : Nat) (p : Pool Site Thread)
    (h : Reach installs (fun p i e => joinsFirst p i e = true) (start live n) p) : OneWorker p := by
  have hinv : WorkersInv p := h.invariant WorkersInv (workersInv_start live n)
    fun p i e q hp hg hs => workersInv_step hp hg hs
  refine ⟨?_, fun w hw hc hd path d created => ?_, fun w hw => (hinv.tracked _ hw).fresh⟩
  · refine Nat.le_trans (List.countP_mono_left fun t _ ht => ?_) hinv.single
    cases t with
    | worker w =>
      show (beforeHandoff w || carrying w) = true
      rw [show beforeHandoff w = true from ht, Bool.true_or]
    | _ => cases ht
  · unfold startCommit
    rw [if_pos ⟨rfl, (hinv.tracked _ hw).flag hc hd⟩]

/-- The queued update of a package that was installed, behind its base. -/
theorem one_worker_queued : ∃ p,
    Reach installs (fun p i e => joinsFirst p i e = true) (start (LiveSession.Live.init true) 2) p ∧
      p.threads.countP waits = 1 ∧ OneWorker p := by
  have hrun : (installs.exec (fun p i e => joinsFirst p i e = true)
      ([(0, .call (.startBatch streamedPath streamedPath))] ++ (startEvents streamedPath).drop 1 ++
        verifiedEvents 2 ++ List.replicate 6 (2, .work .go) ++ [(2, .work .go)] ++
        [(2, .work (.commit streamedDetail true))])
      (start (LiveSession.Live.init true) 2)).map (fun p => p.threads.countP waits) = some 1 := by rfl
  obtain ⟨p, hp, hc⟩ := Option.map_eq_some_iff.mp hrun
  exact ⟨p, .of_exec hp, hc, one_worker _ _ p (.of_exec hp)⟩

/-- One call takes the worker of a canceled install and waits for it, another one
finds no worker to wait for. -/
theorem one_worker_fails :
    ¬∀ live n p, Reach installs (fun _ _ _ => True) (start live n) p → OneWorker p := by
  intro hall
  have hrun : (installs.exec (fun _ _ _ => True)
      (startEvents streamedPath ++ (1, .call .cancel) :: List.replicate 3 (1, .call .go) ++
        [(1, .call (.start streamedPath)), (1, .call .go), (1, .call .go)] ++
        startEvents streamedPath)
      (start (LiveSession.Live.init true) 2)).map (fun p => p.threads.countP waits) = some 2 := by rfl
  obtain ⟨p, hp, hc⟩ := Option.map_eq_some_iff.mp hrun
  have hone := (hall _ _ p (.of_exec hp)).single
  rw [hc] at hone
  exact absurd hone (by decide)

end PkgManager.InstallWorkers
