import PkgManager.InstallMoves

namespace PkgManager.InstallHandoff

open Interleaving Machine Installer InstallWorker InstallThreads InstallMoves

/-- No section that reports a failure leaves an update pending, and an install of
the user commits only when the workers before it have passed their hand-off block. -/
def dropsUpdate (p : Pool Site Thread) (i : Nat) (e : Event) : Bool :=
  let g := p.shared.inst
  match p.threads[i]?, e with
  | some (.worker w), .work ev => !reportsError g w ev || g.pendingPkgPath = []
  | some (.starting c .checking), .call (.commit _ created) =>
    g.status.isInstalling ||
      ((created || pendingAfter g c = []) && p.threads.all fun t => !waits t)
  | some _, .call .expired => g.pendingPkgPath = []
  | _, _ => true

/-- A worker hands over the update of its own batch, and only after its package
was verified. -/
structure VerifiedFirst (p : Pool Site Thread) : Prop where
  captures : ∀ w, .worker w ∈ p.threads → w.pc = .handoff → (captureNext p.shared.inst).2 ≠ [] →
    w.verified = true ∧ w.failed = false ∧ p.shared.inst.status.failed = false ∧
      p.shared.inst.record.pendingBatch = w.batch
  carries : ∀ w, .worker w ∈ p.threads → carrying w = true →
    w.verified = true ∧ w.failed = false ∧ w.nextBatch = w.batch

/-- While an update is pending its base is installing, or the end of the session
has been asked for. -/
structure PendingInv (g : Globals) : Prop where
  detached : g.detachDirectStorage = true → g.pendingPkgPath = []
  tracked : g.pendingPkgPath ≠ [] →
    g.status.isInstalling = true ∨ g.monitorRunning = false ∨ g.cancelStream = true
  installing : g.status.isInstalling = true → g.status.failed = false

structure OwnWorker (g : Globals) (w : Worker) : Prop where
  batch : g.pendingPkgPath ≠ [] → beforeHandoff w = true → w.batch = g.record.pendingBatch
  running : stage w = .running → w.verified = false ∧ w.failed = false
  settled : stage w = .settled → (w.verified = true ∧ w.failed = false) ∨ g.pendingPkgPath = [] ∨
    g.monitorRunning = false ∨ g.cancelStream = true
  leaving : stage w = .leaving → g.pendingPkgPath = []
  carries : carrying w = true → w.verified = true ∧ w.failed = false ∧ w.nextBatch = w.batch

structure HandoffInv (p : Pool Site Thread) : Prop where
  pending : PendingInv p.shared.inst
  owner : p.shared.inst.pendingPkgPath ≠ [] → ∃ t ∈ p.threads, waits t = true
  threads : ∀ t ∈ p.threads, OnWorker (OwnWorker p.shared.inst) t

variable {g g' : Globals} {w w' : Worker} {new : List Worker} {e : WorkerEvent}

/-! The globals. -/

theorem pendingInv_empty (h : g.pendingPkgPath = [])
    (hi : g.status.isInstalling = true → g.status.failed = false) : PendingInv g :=
  ⟨fun _ => h, fun hne => absurd h hne, hi⟩

theorem PendingInv.calm (h : PendingInv g) (hc : Calm g g')
    (hi : g'.status.isInstalling = g.status.isInstalling) (hf : g'.status.failed = g.status.failed) :
    PendingInv g' := by
  have hinstalling : g'.status.isInstalling = true → g'.status.failed = false := by
    rw [hi, hf]
    exact h.installing
  rcases hc.pending with hp | hp
  · refine ⟨?_, ?_, hinstalling⟩
    · rw [hc.detach, hp]
      exact h.detached
    · rw [hp, hi]
      intro hne
      rcases h.tracked hne with ht | ht | ht
      · exact .inl ht
      · refine .inr (.inl (Bool.eq_false_iff.mpr fun hm => ?_))
        exact absurd (ht.symm.trans (hc.monitor hm)) Bool.false_ne_true
      · exact .inr (.inr (hc.cancel ht))
  · exact pendingInv_empty hp hinstalling

theorem PendingInv.complete (h : PendingInv g) (hd : g.detachDirectStorage = false) :
    PendingInv (complete g) := by
  unfold Installer.complete
  split
  · rename_i hp
    unfold hasPending at hp
    simp only [Bool.and_eq_true_iff, Bool.not_eq_true', decide_eq_true_eq] at hp
    obtain ⟨⟨⟨hne, hc⟩, _⟩, hm⟩ := hp
    refine ⟨h.detached, fun _ => .inl rfl, fun _ => ?_⟩
    -- nobody canceled the base, so it is still installing
    rcases h.tracked hne with ht | ht | ht
    · exact h.installing ht
    · exact absurd (ht.symm.trans hm) Bool.false_ne_true
    · exact absurd (hc.symm.trans ht) Bool.false_ne_true
  · rename_i hp
    refine ⟨h.detached, fun hne => .inr ?_, nofun⟩
    have hne' : g.pendingPkgPath ≠ [] := hne
    unfold hasPending at hp
    show g.monitorRunning = false ∨ g.cancelStream = true
    cases hm : g.monitorRunning with
    | false => exact .inl rfl
    | true =>
      cases hc : g.cancelStream with
      | true => exact .inr rfl
      | false => exact absurd (by simp [hne', hc, hd, hm]) hp

theorem pendingInv_commit {record : Record} {pending : Path} {created : Bool}
    (h : Commit g g' record pending created) (hp : created = false → pending = []) :
    PendingInv g' := by
  refine ⟨fun hd => absurd (h.detach.symm.trans hd) Bool.false_ne_true, fun hne => ?_, fun hi => ?_⟩
  · rw [h.pendingPath] at hne
    rw [h.installing]
    cases created with
    | true => exact .inl rfl
    | false => exact absurd (hp rfl) hne
  · rw [h.failed, ← h.installing, hi]
    rfl

theorem pendingInv_move (h : PendingInv g) (hm : Move g w e g' w' new)
    (hdrop : reportsError g w e = true → g.pendingPkgPath = []) : PendingInv g' := by
  have hfail : ∀ code, g.pendingPkgPath = [] → PendingInv (failWith code g) :=
    fun _ hp => pendingInv_empty hp nofun
  cases hm with
  | quiet => exact h
  | display => exact ⟨h.detached, h.tracked, h.installing⟩
  | launch => exact ⟨h.detached, h.tracked, h.installing⟩
  | settle => exact h
  | error he => exact hfail _ (hdrop he)
  | completion _ hd => exact h.complete hd
  | fail => exact pendingInv_empty rfl nofun
  | failOut => exact pendingInv_empty rfl nofun
  | clear => exact pendingInv_empty rfl h.installing
  | detached => exact h
  | capture =>
    refine pendingInv_empty (captureNext_pending g) ?_
    rw [(captureNext_status g).1]
    exact h.installing
  | step => exact h
  | leave => exact h
  | exit => exact ⟨h.detached, h.tracked, h.installing⟩
  | check =>
    have hs := (startCheck_status true g).1
    exact h.calm (kept_startCheck true g).calm (by rw [hs]) (by rw [hs])
  | take =>
    have hs := (takeThread_status (some w.id) g).1
    exact h.calm (kept_takeThread _ g).calm (by rw [hs]) (by rw [hs])
  | commit _ _ _ _ _ hc => exact pendingInv_commit hc nofun
  | commitFailed _ _ _ _ _ _ hc => exact pendingInv_commit hc fun _ => rfl
  | nextFailed he =>
    obtain ⟨h1, h2, h3⟩ := hfail 0 (hdrop he)
    exact ⟨h1, h2, h3⟩

theorem pendingInv_call {t t' : Thread} {ev : CallEvent} {threads : List Thread}
    (h : PendingInv g) (hm : CallMove g t ev g' t' threads)
    (hexpired : ev = .expired → g.pendingPkgPath = [])
    (hfailed : ∀ c d, t = .starting c .checking → ev = .commit d false →
      g.status.isInstalling = false → pendingAfter g c = []) : PendingInv g' := by
  cases hm with
  | quiet => exact h
  | display => exact ⟨h.detached, h.tracked, h.installing⟩
  | error he => exact pendingInv_empty (hexpired he) nofun
  | check =>
    have hs := (startCheck_status false g).1
    exact h.calm (kept_startCheck false g).calm (by rw [hs]) (by rw [hs])
  | take =>
    have hs := (takeThread_status none g).1
    exact h.calm (kept_takeThread none g).calm (by rw [hs]) (by rw [hs])
  | commit _ _ _ _ hc => exact pendingInv_commit hc nofun
  | commitFailed ht he _ hidle hc => exact pendingInv_commit hc fun _ => hfailed _ _ ht he hidle
  | cancel _ _ hz =>
    obtain ⟨_, hp, _, _, hi⟩ := canceled_parts hz
    exact pendingInv_empty hp fun hon => absurd (hi.symm.trans hon) Bool.false_ne_true
  | detach _ _ hz =>
    obtain ⟨_, hp, _, hi, _⟩ := detached_parts hz
    exact pendingInv_empty hp fun hon => absurd (hi.symm.trans hon) Bool.false_ne_true
  | raise => exact ⟨h.detached, fun _ => .inr (.inr rfl), h.installing⟩
  | stop => exact ⟨h.detached, fun _ => .inr (.inl rfl), h.installing⟩
  | clear => exact pendingInv_empty rfl h.installing
  | joined => exact ⟨h.detached, h.tracked, h.installing⟩

/-! The workers. -/

theorem OwnWorker.calm (h : OwnWorker g w) (hc : Calm g g') : OwnWorker g' w := by
  have hpending : g'.pendingPkgPath ≠ [] → g.pendingPkgPath ≠ [] := by
    rcases hc.pending with hp | hp
    · rw [hp]
      exact id
    · exact fun hne => absurd hp hne
  have hempty : g.pendingPkgPath = [] → g'.pendingPkgPath = [] := by
    intro hp
    by_contra hne
    exact hpending hne hp
  refine ⟨?_, h.running, ?_, fun hs => hempty (h.leaving hs), h.carries⟩
  · rw [hc.record]
    exact fun hne => h.batch (hpending hne)
  · intro hs
    rcases h.settled hs with hv | hp | hm | hcan
    · exact .inl hv
    · exact .inr (.inl (hempty hp))
    · refine .inr (.inr (.inl (Bool.eq_false_iff.mpr fun hm' => ?_)))
      exact absurd (hm.symm.trans (hc.monitor hm')) Bool.false_ne_true
    · exact .inr (.inr (.inr (hc.cancel hcan)))

theorem OwnWorker.empty (h : OwnWorker g w) (hp : g'.pendingPkgPath = []) : OwnWorker g' w :=
  ⟨fun hne => absurd hp hne, h.running, fun _ => .inr (.inl hp), fun _ => hp, h.carries⟩

/-- A worker behind its hand-off block is not concerned by a new batch. -/
theorem OwnWorker.passed (h : OwnWorker g w) (hb : beforeHandoff w = false) : OwnWorker g' w := by
  have hstage : ∀ s, stage w = s → s ≠ .running ∧ s ≠ .settled ∧ s ≠ .leaving := by
    rintro s rfl
    unfold beforeHandoff at hb
    split at hb
    · cases hb
    · cases hb
    · cases hb
    · rename_i hs
      rw [hs]
      decide
    · rename_i hs
      rw [hs]
      decide
  refine ⟨fun _ hbefore => ?_, fun hs => ?_, fun hs => ?_, fun hs => ?_, h.carries⟩
  · exact absurd (hb.symm.trans hbefore) Bool.false_ne_true
  · exact absurd rfl (hstage _ hs).1
  · exact absurd rfl (hstage _ hs).2.1
  · exact absurd rfl (hstage _ hs).2.2

theorem ownWorker_new {batch : Nat} {queued : Bool}
    (hb : g'.pendingPkgPath ≠ [] → batch = g'.record.pendingBatch) :
    OwnWorker g' (newWorker g batch queued) :=
  ⟨fun hne _ => hb hne, fun _ => ⟨rfl, rfl⟩, nofun, nofun, nofun⟩

theorem before_of_running {s : Stage} (hs : stage w = s)
    (h : s = .running ∨ s = .settled ∨ s = .leaving) : beforeHandoff w = true := by
  unfold beforeHandoff
  rw [hs]
  rcases h with rfl | rfl | rfl <;> rfl

theorem OwnWorker.same (h : OwnWorker g w) (hr : Running w w') (hs : stage w' = stage w)
    (hc : carrying w' = true → carrying w = true) : OwnWorker g w' := by
  have hb : beforeHandoff w' = beforeHandoff w := by rw [beforeHandoff, beforeHandoff, hs]
  refine ⟨?_, ?_, ?_, ?_, ?_⟩
  · rw [hb, hr.batch]
    exact h.batch
  · rw [hs, hr.verified, hr.failed]
    exact h.running
  · rw [hs, hr.verified, hr.failed]
    exact h.settled
  · rw [hs]
    exact h.leaving
  · rw [hr.verified, hr.failed, hr.nextBatch, hr.batch]
    exact fun hcarry => h.carries (hc hcarry)

/-- The worker comes to its hand-off block. -/
theorem OwnWorker.settle (h : OwnWorker g w) (hs : stage w = .running) (hs' : stage w' = .settled)
    (hr : SameRun w w') (hend : (w'.verified = true ∧ w'.failed = false) ∨ g.pendingPkgPath = [] ∨
      g.monitorRunning = false ∨ g.cancelStream = true) : OwnWorker g w' := by
  refine ⟨fun hne _ => ?_, fun h' => ?_, fun _ => hend, fun h' => ?_, fun h' => ?_⟩
  · rw [hr.batch]
    exact h.batch hne (before_of_running hs (.inl rfl))
  · exact absurd (hs'.symm.trans h') nofun
  · exact absurd (hs'.symm.trans h') nofun
  · rw [not_carrying_of_stage (by rw [hs']; decide)] at h'
    cases h'

/-- The worker is gone, or leaves without a hand-off. -/
theorem ownWorker_gone (hs : stage w' = .leaving ∨ stage w' = .over)
    (hp : stage w' = .leaving → g.pendingPkgPath = []) : OwnWorker g w' := by
  have hne : stage w' ≠ .running ∧ stage w' ≠ .settled ∧ stage w' ≠ .released := by
    rcases hs with hs | hs <;> rw [hs] <;> decide
  refine ⟨fun hpending hb => ?_, fun h => absurd h hne.1, fun h => absurd h hne.2.1, hp, fun h => ?_⟩
  · rcases hs with hs | hs
    · exact absurd (hp hs) hpending
    · rw [beforeHandoff, hs] at hb
      cases hb
  · rw [not_carrying_of_stage hne.2.2] at h
    cases h

/-- A worker that settles was told to stop, or its base no longer installs. -/
theorem stopped_of_settle (h : PendingInv g) (hk : keepGoing g = false) :
    g.pendingPkgPath = [] ∨ g.monitorRunning = false ∨ g.cancelStream = true := by
  by_cases hp : g.pendingPkgPath = []
  · exact .inl hp
  · rcases h.tracked hp with ht | ht
    · right
      cases hm : g.monitorRunning with
      | false => exact .inl rfl
      | true =>
        cases hc : g.cancelStream with
        | true => exact .inr rfl
        | false =>
          cases hd : g.detachDirectStorage with
          | true => exact absurd (h.detached hd) hp
          | false => simp [keepGoing, hm, hc, hd, ht] at hk
    · exact .inr ht

/-- What a step of a worker leaves behind, when it creates no worker. -/
theorem ownWorker_move (hi : PendingInv g) (h : OwnWorker g w) (hm : Move g w e g' w' new)
    (hk : Kept g g') (hdrop : reportsError g w e = true → g.pendingPkgPath = []) :
    OwnWorker g' w' := by
  cases hm with
  | quiet hs hs' hr =>
    exact h.same hr (hs'.trans hs.symm) fun hc => by
      rw [not_carrying_of_stage (by rw [hs']; decide)] at hc
      cases hc
  | display _ hs hs' hr =>
    exact (h.same hr (hs'.trans hs.symm) fun hc => by
      rw [not_carrying_of_stage (by rw [hs']; decide)] at hc
      cases hc).calm hk.calm
  | launch _ hs hs' hr =>
    exact (h.same hr (hs'.trans hs.symm) fun hc => by
      rw [not_carrying_of_stage (by rw [hs']; decide)] at hc
      cases hc).calm hk.calm
  | settle hkeep hs hs' hr => exact h.settle hs hs' hr.toSameRun (.inr (stopped_of_settle hi hkeep))
  | error he hs hs' hr => exact (h.settle hs hs' hr (.inr (.inl (hdrop he)))).calm hk.calm
  | completion _ _ hs hs' hr hf hv =>
    exact (h.settle hs hs' hr (.inl ⟨hv, hf.trans (h.running hs).2⟩)).calm hk.calm
  | fail _ _ hs' => exact ownWorker_gone (.inl hs') fun _ => rfl
  | failOut _ _ hs' => exact ownWorker_gone (.inr hs') fun _ => rfl
  | clear _ hs' => exact ownWorker_gone (.inl hs') fun _ => rfl
  | detached hd _ hs' => exact ownWorker_gone (.inl hs') fun _ => hi.detached hd
  | capture hs hs' hne hbatch _ _ _ hv hf hnext hnb =>
    have hp := captureNext_pending g
    refine ⟨fun hne' => absurd hp hne', fun h' => ?_, fun _ => .inr (.inl hp), fun _ => hp,
      fun hc => ?_⟩
    · exact absurd (hs'.symm.trans h') nofun
    · -- what was captured was pending, so the base did not stop for another reason
      obtain ⟨hpending, hmon, hcan, _⟩ := captureNext_next (hnext ▸ hne hc)
      rw [hv, hf, hnb, hbatch]
      rcases h.settled hs with ⟨h1, h2⟩ | h1 | h1 | h1
      · exact ⟨h1, h2, (h.batch hpending (before_of_running hs (.inr (.inl rfl)))).symm⟩
      · exact absurd h1 hpending
      · exact absurd (h1.symm.trans hmon) Bool.false_ne_true
      · exact absurd (hcan.symm.trans h1) Bool.false_ne_true
  | step hs hs' hr hc => exact h.same hr (hs'.trans hs.symm) hc
  | leave hs hs' hr =>
    exact h.same hr (hs'.trans hs.symm) fun hc => by
      rw [not_carrying_of_stage (by rw [hs']; decide)] at hc
      cases hc
  | exit _ hs' => exact ownWorker_gone (.inr hs') fun h' => absurd (hs'.symm.trans h') nofun
  | check hs hc hs' hr => exact (h.same hr (hs'.trans hs.symm) fun _ => hc).calm hk.calm
  | take hs hc hs' hr => exact (h.same hr (hs'.trans hs.symm) fun _ => hc).calm hk.calm
  | commit _ _ hs' => exact ownWorker_gone (.inr hs') fun h' => absurd (hs'.symm.trans h') nofun
  | commitFailed hs hc hs' hc' hr hd hcommit =>
    exact (h.same hr (hs'.trans hs.symm) fun _ => hc).empty hcommit.pendingPath
  | nextFailed _ _ hs' => exact ownWorker_gone (.inr hs') fun h' => absurd (hs'.symm.trans h') nofun

/-- A worker that passes its hand-off block leaves no update behind. -/
theorem stays_of_pending (h : OwnWorker g w) (hm : Move g w e g' w' new)
    (hp : g'.pendingPkgPath ≠ []) (hb : beforeHandoff w = true) : beforeHandoff w' = true := by
  have hreleased : stage w ≠ .released := by
    intro hs
    rw [beforeHandoff, hs] at hb
    cases hb
  cases hm with
  | quiet _ hs' => exact before_of_running hs' (.inl rfl)
  | display _ _ hs' => exact before_of_running hs' (.inl rfl)
  | launch _ _ hs' => exact before_of_running hs' (.inl rfl)
  | settle _ _ hs' => exact before_of_running hs' (.inr (.inl rfl))
  | error _ _ hs' => exact before_of_running hs' (.inr (.inl rfl))
  | completion _ _ _ hs' => exact before_of_running hs' (.inr (.inl rfl))
  | fail _ _ hs' => exact before_of_running hs' (.inr (.inr rfl))
  | failOut => exact absurd rfl hp
  | clear _ hs' => exact before_of_running hs' (.inr (.inr rfl))
  | detached _ _ hs' => exact before_of_running hs' (.inr (.inr rfl))
  | capture => exact absurd (captureNext_pending g) hp
  | step hs => exact absurd hs hreleased
  | leave _ hs' => exact before_of_running hs' (.inr (.inr rfl))
  | exit hs =>
    rcases hs with hs | hs
    · exact absurd (h.leaving hs) hp
    · exact absurd hs hreleased
  | check hs => exact absurd hs hreleased
  | take hs => exact absurd hs hreleased
  | commit hs => exact absurd hs hreleased
  | commitFailed hs => exact absurd hs hreleased
  | nextFailed _ hs => exact absurd hs hreleased

theorem handoffInv_work {p : Pool Site Thread} {i : Nat} {s' : Site} (h : HandoffInv p)
    (ht : p.threads[i]? = some (.worker w)) (hg : dropsUpdate p i (.work e) = true)
    (hm : Move p.shared.inst w e s'.inst w' new) :
    HandoffInv ⟨s', p.threads.set i (.worker w') ++ new.map .worker⟩ := by
  have hown : OwnWorker p.shared.inst w := h.threads _ (List.mem_of_getElem? ht)
  have hdrop : reportsError p.shared.inst w e = true → p.shared.inst.pendingPkgPath = [] := by
    intro he
    simpa [dropsUpdate, ht, he] using hg
  have hpending := pendingInv_move h.pending hm hdrop
  rcases hm.kept with ⟨hk, rfl⟩ | hh
  · refine ⟨hpending, fun hne => ?_, ?_⟩
    · have hne' : s'.inst.pendingPkgPath ≠ [] := hne
      have hold : p.shared.inst.pendingPkgPath ≠ [] := by
        rcases hk.pending with hp | hp
        · exact hp ▸ hne'
        · exact absurd hp hne'
      obtain ⟨t, htm, hwaits⟩ := h.owner hold
      obtain ⟨j, hj⟩ := List.mem_iff_getElem?.mp htm
      by_cases hji : j = i
      · subst hji
        obtain rfl := Option.some.inj (ht.symm.trans hj)
        exact ⟨.worker w', List.mem_of_getElem? (getElem?_step ht),
          stays_of_pending hown hm hne' hwaits⟩
      · refine ⟨t, List.mem_append_left _ (List.mem_of_getElem? (i := j) ?_), hwaits⟩
        rw [List.getElem?_set_ne (Ne.symm hji), hj]
    · refine forall_step ht (P := OnWorker (OwnWorker s'.inst)) (ownWorker_move h.pending hown hm hk hdrop) ?_ ?_
      · exact onWorkers_mono h.threads fun _ hv => hv.calm hk.calm
      · exact fun _ hu => absurd hu List.not_mem_nil
  · obtain ⟨created, hc, hnew⟩ := hh.commit
    have hempty : s'.inst.pendingPkgPath = [] := hc.pendingPath
    have hw' : OwnWorker p.shared.inst w' := by
      refine ⟨fun _ hb => ?_, fun hs => ?_, fun hs => ?_, fun hs => ?_, fun hcarry => ?_⟩
      · rcases hh.after with hs | hs <;> rw [beforeHandoff, hs] at hb <;> cases hb
      · rcases hh.after with hs' | hs' <;> exact absurd (hs.symm.trans hs') nofun
      · rcases hh.after with hs' | hs' <;> exact absurd (hs.symm.trans hs') nofun
      · rcases hh.after with hs' | hs' <;> exact absurd (hs.symm.trans hs') nofun
      · exact absurd (hh.drops.symm.trans hcarry) Bool.false_ne_true
    refine ⟨hpending, fun hne => absurd hempty hne, ?_⟩
    refine forall_step ht (P := OnWorker (OwnWorker s'.inst)) (hw'.empty hempty) ?_ ?_
    · exact onWorkers_mono h.threads fun _ hv => hv.empty hempty
    · intro u hu
      rw [hnew] at hu
      cases created with
      | false => cases hu
      | true =>
        obtain rfl := List.mem_singleton.mp hu
        exact ownWorker_new fun hne => absurd hempty hne

theorem handoffInv_call {p : Pool Site Thread} {i : Nat} {s' : Site} {t t' : Thread}
    {ev : CallEvent} {threads : List Thread} (h : HandoffInv p) (ht : p.threads[i]? = some t)
    (hw : isWorker t = false) (hg : dropsUpdate p i (.call ev) = true)
    (hm : CallMove p.shared.inst t ev s'.inst t' threads) :
    HandoffInv ⟨s', p.threads.set i t' ++ threads⟩ := by
  have ht' := hm.not_worker
  have hnotWaiting : waits t = false := by
    cases t with
    | worker w => cases hw
    | _ => rfl
  have howner : s'.inst.pendingPkgPath = p.shared.inst.pendingPkgPath ∨ s'.inst.pendingPkgPath = [] →
      s'.inst.pendingPkgPath ≠ [] → ∃ u ∈ p.threads.set i t' ++ threads, waits u = true := by
    rintro (hp | hp) hne
    · obtain ⟨u, hum, hwaits⟩ := h.owner (hp ▸ hne)
      obtain ⟨j, hj⟩ := List.mem_iff_getElem?.mp hum
      have hji : j ≠ i := by
        rintro rfl
        rw [Option.some.inj (ht.symm.trans hj), hwaits] at hnotWaiting
        cases hnotWaiting
      refine ⟨u, List.mem_append_left _ (List.mem_of_getElem? (i := j) ?_), hwaits⟩
      rw [List.getElem?_set_ne (Ne.symm hji), hj]
    · exact absurd hp hne
  have hexpired : ev = .expired → p.shared.inst.pendingPkgPath = [] := by
    rintro rfl
    cases t with
    | worker w => cases hw
    | _ => simpa [dropsUpdate, ht] using hg
  -- a commit meets no worker before its hand-off block
  have hcommit : ∀ c d created, t = .starting c .checking → ev = .commit d created →
      p.shared.inst.status.isInstalling = false →
        (created = false → pendingAfter p.shared.inst c = []) ∧
          ∀ u ∈ p.threads, waits u = false := by
    rintro c d created rfl rfl hidle
    simp only [dropsUpdate, ht, hidle, Bool.false_or, Bool.and_eq_true_iff] at hg
    refine ⟨?_, fun u hmem => by simpa using List.all_eq_true.mp hg.2 u hmem⟩
    rintro rfl
    simpa using hg.1
  have hpending := pendingInv_call h.pending hm hexpired fun c d h1 h2 hidle =>
    (hcommit c d false h1 h2 hidle).1 rfl
  rcases hm.kept with ⟨hk, rfl⟩ | ⟨c, d, created, h1, h2, hu⟩ | ⟨rfl, hgc, hz, rfl⟩ |
      ⟨rfl, hgc, hz, rfl⟩
  · refine ⟨hpending, howner hk.pending, ?_⟩
    refine forall_step ht (P := OnWorker (OwnWorker s'.inst)) (onWorker_of_call ht') ?_ ?_
    · exact onWorkers_mono h.threads fun _ hv => hv.calm hk
    · exact fun _ hmem => absurd hmem List.not_mem_nil
  · obtain ⟨hfailed, hpassed⟩ := hcommit c d created h1 h2 hu.idle
    have hnone : p.shared.inst.pendingPkgPath = [] := by
      by_contra hne
      obtain ⟨u, hum, hwaits⟩ := h.owner hne
      exact absurd ((hpassed u hum).symm.trans hwaits) Bool.false_ne_true
    refine ⟨hpending, fun hne => ?_, ?_⟩
    · cases created with
      | false => exact absurd (hu.commit.pendingPath.trans (hfailed rfl)) hne
      | true =>
        refine ⟨.worker (newWorker p.shared.inst (p.shared.inst.record.batches + 1) false),
          List.mem_append_right _ ?_, rfl⟩
        rw [hu.new]
        exact List.mem_singleton.mpr rfl
    · refine forall_step ht (P := OnWorker (OwnWorker s'.inst)) (onWorker_of_call ht') ?_ ?_
      · intro u hmem
        have hv := h.threads u hmem
        have hb := hpassed u hmem
        cases u with
        | worker v => exact OwnWorker.passed hv hb
        | _ => trivial
      · rw [hu.new]
        intro u hmem
        cases created with
        | false => cases hmem
        | true =>
          obtain rfl := List.mem_singleton.mp hmem
          refine ownWorker_new fun hne => ?_
          rw [hu.commit.pendingPath] at hne
          rw [hu.commit.record]
          unfold pendingAfter at hne
          cases hl : c.fromLive with
          | true =>
            rw [hl, if_pos rfl] at hne
            exact absurd hnone hne
          | false =>
            rw [hl] at hne
            have hp : c.pendingPath ≠ [] := hne
            simp [Record.userCommit, hp]
  · obtain ⟨_, hp, _⟩ := canceled_parts hz
    rw [← hgc] at hp
    refine ⟨hpending, howner (.inr hp), ?_⟩
    refine forall_step ht (P := OnWorker (OwnWorker s'.inst)) (onWorker_of_call ht') ?_ ?_
    · exact onWorkers_mono h.threads fun _ hv => hv.empty hp
    · exact fun _ hmem => absurd hmem List.not_mem_nil
  · obtain ⟨_, hp, _⟩ := detached_parts hz
    rw [← hgc] at hp
    refine ⟨hpending, howner (.inr hp), ?_⟩
    refine forall_step ht (P := OnWorker (OwnWorker s'.inst)) (onWorker_of_call ht') ?_ ?_
    · exact onWorkers_mono h.threads fun _ hv => hv.empty hp
    · exact fun _ hmem => absurd hmem List.not_mem_nil

theorem handoffInv_step {p q : Pool Site Thread} {i : Nat} {ev : Event} (h : HandoffInv p)
    (hg : dropsUpdate p i ev = true) (hs : installs.step p i ev = some q) : HandoffInv q := by
  obtain ⟨s', ts'⟩ := q
  rcases installs_step hs with ⟨w, w', new, we, ht, rfl, hm, rfl⟩ | ⟨t, t', new, ce, ht, hw, rfl, hm, rfl⟩
  · exact handoffInv_work h ht hg hm
  · exact handoffInv_call h ht hw hg hm

/-- In every run in which no failure leaves an update pending and no install of the
user overtakes a worker, an update is handed over behind its verified base only. -/
theorem update_behind_verified_base (live : LiveSession.Live) (n : Nat) (p : Pool Site Thread)
    (h : Reach installs (fun p i e => dropsUpdate p i e = true) (start live n) p) :
    VerifiedFirst p := by
  have hinv : HandoffInv p := by
    refine h.invariant HandoffInv ?_ fun p i e q hp hg hs => handoffInv_step hp hg hs
    exact ⟨pendingInv_empty rfl nofun, fun hne => absurd rfl hne, onWorkers_replicate n⟩
  refine ⟨fun w hw hpc hne => ?_, fun w hw => (hinv.threads _ hw).carries⟩
  have hown : OwnWorker p.shared.inst w := hinv.threads _ hw
  have hs : stage w = .settled := stage_at hpc
  obtain ⟨hpending, hmon, hcan, _⟩ := captureNext_next hne
  have hbatch := hown.batch hpending (before_of_running hs (.inr (.inl rfl)))
  have hfailed : p.shared.inst.status.failed = false := by
    rcases hinv.pending.tracked hpending with hi | hi | hi
    · exact hinv.pending.installing hi
    · exact absurd (hi.symm.trans hmon) Bool.false_ne_true
    · exact absurd (hcan.symm.trans hi) Bool.false_ne_true
  rcases hown.settled hs with ⟨hv, hf⟩ | hp | hp | hp
  · exact ⟨hv, hf, hfailed, hbatch.symm⟩
  · exact absurd hp hpending
  · exact absurd (hp.symm.trans hmon) Bool.false_ne_true
  · exact absurd (hcan.symm.trans hp) Bool.false_ne_true

def workerIs (P : Worker → Bool) : InstallThreads.Thread → Bool
  | .worker w => P w
  | _ => false

/-- An update that is handed over behind its verified base. -/
theorem update_behind_verified_base_queued : ∃ p,
    Reach installs (fun p i e => dropsUpdate p i e = true) (start (LiveSession.Live.init true) 1) p ∧
      (∃ w, .worker w ∈ p.threads ∧ carrying w = true) ∧ VerifiedFirst p := by
  have hrun : (installs.exec (fun p i e => dropsUpdate p i e = true)
      ((0, .call (.startBatch streamedPath streamedPath)) :: (startEvents streamedPath).drop 1 ++
        verifiedEvents 1 ++ List.replicate 2 (1, .work .go))
      (start (LiveSession.Live.init true) 1)).map
      (fun p => p.threads.any (workerIs carrying)) = some true := by rfl
  obtain ⟨p, hp, hc⟩ := Option.map_eq_some_iff.mp hrun
  obtain ⟨t, ht, hcarry⟩ := List.any_eq_true.mp hc
  refine ⟨p, .of_exec hp, ?_, update_behind_verified_base _ _ p (.of_exec hp)⟩
  cases t with
  | worker w => exact ⟨w, ht, hcarry⟩
  | _ => cases hcarry

/-- The system installer reports an error, and the update is captured all the same. -/
theorem update_behind_verified_base_fails :
    ¬∀ live n p, Reach installs (fun _ _ _ => True) (start live n) p → VerifiedFirst p := by
  intro hall
  have hrun : (installs.exec (fun _ _ _ => True)
      ((0, .call (.startBatch streamedPath streamedPath)) :: (startEvents streamedPath).drop 1 ++
        (verifiedEvents 1).take 8 ++ [(1, .work (.pollError 5)), (1, .work .go), (1, .work .go)])
      (start (LiveSession.Live.init true) 1)).map
      (fun p => p.threads.any (workerIs fun w => carrying w && w.failed)) = some true := by rfl
  obtain ⟨p, hp, hc⟩ := Option.map_eq_some_iff.mp hrun
  obtain ⟨t, ht, hboth⟩ := List.any_eq_true.mp hc
  cases t with
  | worker w =>
    obtain ⟨hcarry, hfailed⟩ := Bool.and_eq_true_iff.mp hboth
    obtain ⟨_, hf, _⟩ := (hall _ _ p (.of_exec hp)).carries w ht hcarry
    exact absurd (hf.symm.trans hfailed) Bool.false_ne_true
  | _ => cases hboth

end PkgManager.InstallHandoff
