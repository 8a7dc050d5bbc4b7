import PkgManager.InstallMarks

namespace PkgManager.InstallCancel

open Interleaving Machine Installer InstallWorker InstallThreads InstallMoves InstallMarks

def carries : Thread → Bool
  | .worker w => carrying w
  | _ => false

/-- A cancel that succeeds meets no worker that has captured an update. -/
def cancelsFirst (p : Pool Site Thread) (_ : Nat) (e : Event) : Bool :=
  match e with
  | .call .cancel => (installerCancel p.shared.inst).2 ≠ 0 || p.threads.all fun t => !carries t
  | _ => true

/-- A cancel is final: its flag stands until the user asks for another install, and
no update of a canceled batch gets a worker. -/
structure CancelFinal (p : Pool Site Thread) : Prop where
  flag : p.shared.inst.record.canceledSinceUser = true → p.shared.inst.cancelStream = true
  neverStarted : ∀ w, .worker w ∈ p.threads → w.queued = true → w.afterCancel = false

structure Uncanceled (g : Globals) (w : Worker) : Prop where
  next_le : w.nextBatch ≤ g.record.batches
  live : carrying w = true → w.nextBatch ∉ g.record.canceled
  quiet : g.record.canceledSinceUser = true → carrying w = false
  fresh : w.queued = true → w.afterCancel = false

structure CancelInv (p : Pool Site Thread) : Prop where
  flag : p.shared.inst.record.canceledSinceUser = true → p.shared.inst.cancelStream = true
  numbered : Numbered canceledMarks p.shared.inst
  threads : ∀ t ∈ p.threads, OnWorker (Uncanceled p.shared.inst) t

variable {g g' : Globals} {w w' : Worker} {new : List Worker} {e : WorkerEvent}

theorem Uncanceled.congr (h : Uncanceled g w) (hb : g.record.batches ≤ g'.record.batches)
    (hc : g'.record.canceled = g.record.canceled)
    (hu : g'.record.canceledSinceUser = true → g.record.canceledSinceUser = true) :
    Uncanceled g' w := by
  refine ⟨Nat.le_trans h.next_le hb, ?_, fun hcan => h.quiet (hu hcan), h.fresh⟩
  rw [hc]
  exact h.live

theorem Uncanceled.calm (h : Uncanceled g w) (hc : Calm g g') : Uncanceled g' w :=
  h.congr (Nat.le_of_eq (by rw [hc.record])) (by rw [hc.record]) (by rw [hc.record]; exact id)

theorem Uncanceled.same (h : Uncanceled g w) (hr : SameRun w w')
    (hc : carrying w' = true → carrying w = true) : Uncanceled g w' := by
  refine ⟨?_, ?_, fun hcan => ?_, ?_⟩
  · rw [hr.nextBatch]
    exact h.next_le
  · rw [hr.nextBatch]
    exact fun hcarry => h.live (hc hcarry)
  · exact Bool.eq_false_iff.mpr fun hcarry =>
      absurd ((h.quiet hcan).symm.trans (hc hcarry)) Bool.false_ne_true
  · rw [hr.queued, hr.afterCancel]
    exact h.fresh

/-- A step of a worker that is no commit: only the capture takes an update up. -/
theorem uncanceled_move (hflag : g.record.canceledSinceUser = true → g.cancelStream = true)
    (hn : Numbered canceledMarks g) (h : Uncanceled g w) (hm : Move g w e g' w' new)
    (hk : Kept g g') : Uncanceled g' w' := by
  rcases hm.carried with ⟨hr, hc⟩ | hcap
  · exact (h.same hr hc).calm hk.calm
  · refine ⟨?_, fun hcarry => ?_, fun hcan => ?_, ?_⟩
    · rw [hcap.nextBatch, hk.record]
      exact hn.pending_le
    · rw [hcap.nextBatch, hk.record]
      exact hn.pending_unmarked (captureNext_next (hcap.next ▸ hcap.nonempty hcarry)).1
    · -- nothing is captured once the flag is up
      rw [hk.record] at hcan
      refine Bool.eq_false_iff.mpr fun hcarry => ?_
      obtain ⟨_, _, hoff, _⟩ := captureNext_next (hcap.next ▸ hcap.nonempty hcarry)
      exact absurd (hoff.symm.trans (hflag hcan)) Bool.false_ne_true
    · rw [hcap.queued, hcap.afterCancel]
      exact h.fresh

theorem cancelInv_work {p : Pool Site Thread} {i : Nat} {s' : Site} (h : CancelInv p)
    (ht : p.threads[i]? = some (.worker w)) (hm : Move p.shared.inst w e s'.inst w' new) :
    CancelInv ⟨s', p.threads.set i (.worker w') ++ new.map .worker⟩ := by
  have hun : Uncanceled p.shared.inst w := h.threads _ (List.mem_of_getElem? ht)
  rcases hm.kept with ⟨hk, rfl⟩ | hh
  · refine ⟨?_, h.numbered.calm hk.calm, ?_⟩
    · show s'.inst.record.canceledSinceUser = true → s'.inst.cancelStream = true
      rw [hk.record, hk.cancel]
      exact h.flag
    · refine forall_step ht (P := OnWorker (Uncanceled s'.inst))
        (uncanceled_move h.flag h.numbered hun hm hk) ?_ ?_
      · exact onWorkers_mono h.threads fun _ hv => hv.calm hk.calm
      · exact fun _ hu => absurd hu List.not_mem_nil
  · obtain ⟨created, hc, hnew⟩ := hh.commit
    have hlive := hun.live hh.carries
    -- a worker that hands over carries, so no cancel came since the user's install
    have hno : s'.inst.record.canceledSinceUser ≠ true := by
      rw [hc.record]
      intro hcan
      exact absurd ((hun.quiet hcan).symm.trans hh.carries) Bool.false_ne_true
    have hrest : ∀ v, Uncanceled p.shared.inst v → Uncanceled s'.inst v := by
      intro v hv
      exact hv.congr (by rw [hc.record]; exact Nat.le_refl _) (by rw [hc.record]; rfl)
        fun hcan => absurd hcan hno
    refine ⟨fun hcan => absurd hcan hno, h.numbered.queued hun.next_le hc, ?_⟩
    refine forall_step ht (P := OnWorker (Uncanceled s'.inst)) ?_ ?_ ?_
    · refine hrest w' (hun.same hh.running.toSameRun fun hcarry => ?_)
      rw [hh.drops] at hcarry
      cases hcarry
    · exact onWorkers_mono h.threads hrest
    · intro u hu
      rw [hnew] at hu
      cases created with
      | false => cases hu
      | true =>
        obtain rfl := List.mem_singleton.mp hu
        refine ⟨Nat.zero_le _, nofun, fun _ => rfl, fun _ => ?_⟩
        exact Bool.eq_false_iff.mpr fun hcontains => hlive (List.contains_iff_mem.mp hcontains)

theorem cancelInv_call {p : Pool Site Thread} {i : Nat} {s' : Site} {t t' : Thread}
    {ev : CallEvent} {threads : List Thread} (h : CancelInv p) (ht : p.threads[i]? = some t)
    (hg : cancelsFirst p i (.call ev) = true)
    (hm : CallMove p.shared.inst t ev s'.inst t' threads) :
    CancelInv ⟨s', p.threads.set i t' ++ threads⟩ := by
  have ht' := hm.not_worker
  rcases hm.kept with ⟨hk, rfl⟩ | ⟨c, d, created, rfl, rfl, hu⟩ | ⟨rfl, hgc, hz, rfl⟩ |
      ⟨rfl, hgc, hz, rfl⟩
  · refine ⟨?_, h.numbered.calm hk, ?_⟩
    · show s'.inst.record.canceledSinceUser = true → s'.inst.cancelStream = true
      rw [hk.record]
      exact fun hcan => hk.cancel (h.flag hcan)
    · refine forall_step ht (P := OnWorker (Uncanceled s'.inst)) (onWorker_of_call ht') ?_ ?_
      · exact onWorkers_mono h.threads fun _ hv => hv.calm hk
      · exact fun _ hmem => absurd hmem List.not_mem_nil
  · have hno : s'.inst.record.canceledSinceUser ≠ true := by
      rw [hu.commit.record]
      exact nofun
    refine ⟨fun hcan => absurd hcan hno, h.numbered.user hu, ?_⟩
    refine forall_step ht (P := OnWorker (Uncanceled s'.inst)) (onWorker_of_call ht') ?_ ?_
    · refine onWorkers_mono h.threads fun _ hv => ?_
      exact hv.congr (by rw [hu.commit.record]; exact Nat.le_succ _)
        (by rw [hu.commit.record]; rfl) fun hcan => absurd hcan hno
    · rw [hu.new]
      intro u hmem
      cases created with
      | false => cases hmem
      | true =>
        obtain rfl := List.mem_singleton.mp hmem
        exact ⟨Nat.zero_le _, nofun, fun _ => rfl, nofun⟩
  · obtain ⟨hr, hp, hcancel, _⟩ := canceled_parts hz
    rw [← hgc] at hr hp hcancel
    have hnone : ∀ u ∈ p.threads, carries u = false := by
      have hall : (p.threads.all fun t => !carries t) = true := by
        simpa [cancelsFirst, hz] using hg
      intro u hmem
      simpa using List.all_eq_true.mp hall u hmem
    refine ⟨fun _ => hcancel, ?_, ?_⟩
    · refine h.numbered.mark (by rw [hr]) (by rw [hr]) (by rw [hr]) hp fun b hb => ?_
      rw [hr] at hb
      exact List.mem_cons.mp hb
    · refine forall_step ht (P := OnWorker (Uncanceled s'.inst)) (onWorker_of_call ht') ?_ ?_
      · intro u hmem
        have hv := h.threads u hmem
        have hidle := hnone u hmem
        cases u with
        | worker v =>
          have hv' : Uncanceled p.shared.inst v := hv
          refine ⟨?_, fun hcarry => ?_, fun _ => hidle, hv'.fresh⟩
          · rw [hr]
            exact hv'.next_le
          · exact absurd (hidle.symm.trans hcarry) Bool.false_ne_true
        | _ => trivial
      · exact fun _ hmem => absurd hmem List.not_mem_nil
  · obtain ⟨hr, hp, _, _, hcancel⟩ := detached_parts hz
    rw [← hgc] at hr hp hcancel
    refine ⟨?_, ?_, ?_⟩
    · show s'.inst.record.canceledSinceUser = true → s'.inst.cancelStream = true
      rw [hr, hcancel]
      exact h.flag
    · exact h.numbered.mark (by rw [hr]) (by rw [hr]) (by rw [hr]) hp fun b hb => .inr (by rwa [hr] at hb)
    · refine forall_step ht (P := OnWorker (Uncanceled s'.inst)) (onWorker_of_call ht') ?_ ?_
      · refine onWorkers_mono h.threads fun _ hv => ?_
        exact hv.congr (Nat.le_of_eq (by rw [hr])) (by rw [hr]) (by rw [hr]; exact id)
      · exact fun _ hmem => absurd hmem List.not_mem_nil

theorem cancelInv_step {p q : Pool Site Thread} {i : Nat} {ev : Event} (h : CancelInv p)
    (hg : cancelsFirst p i ev = true) (hs : installs.step p i ev = some q) : CancelInv q := by
  obtain ⟨s', ts'⟩ := q
  rcases installs_step hs with ⟨w, w', new, we, ht, rfl, hm, rfl⟩ | ⟨t, t', new, ce, ht, hw, rfl, hm, rfl⟩
  · exact cancelInv_work h ht hm
  · exact cancelInv_call h ht hg hm

/-- In every run in which a cancel meets no worker that carries an update, the cancel
is final. -/
theorem cancel_final (live : LiveSession.Live) (n : Nat) (p : Pool Site Thread)
    (h : Reach installs (fun p i e => cancelsFirst p i e = true) (start live n) p) :
    CancelFinal p := by
  have hinv : CancelInv p := by
    refine h.invariant CancelInv ?_ fun p i e q hp hg hs => cancelInv_step hp hg hs
    exact ⟨nofun, numbered_init.mpr nofun, onWorkers_replicate n⟩
  exact ⟨hinv.flag, fun w hw => (hinv.threads _ hw).fresh⟩

/-- A cancel before the base has reached its hand-off block. -/
theorem cancel_final_early : ∃ p,
    Reach installs (fun p i e => cancelsFirst p i e = true) (start (LiveSession.Live.init true) 2) p ∧
      p.shared.inst.record.canceledSinceUser = true ∧ CancelFinal p := by
  have hrun : (installs.exec (fun p i e => cancelsFirst p i e = true)
      ((0, .call (.startBatch streamedPath streamedPath)) :: (startEvents streamedPath).drop 1 ++
        verifiedEvents 2 ++ [(1, .call .cancel), (2, .work .go), (2, .work .go)])
      (start (LiveSession.Live.init true) 2)).map
      (fun p => p.shared.inst.record.canceledSinceUser) = some true := by rfl
  obtain ⟨p, hp, hc⟩ := Option.map_eq_some_iff.mp hrun
  exact ⟨p, .of_exec hp, hc, cancel_final _ _ p (.of_exec hp)⟩

/-- The worker has captured the update when the cancel comes, and starts it after the
cancel has returned. -/
theorem cancel_final_fails :
    ¬∀ live n p, Reach installs (fun _ _ _ => True) (start live n) p → CancelFinal p := by
  intro hall
  have hrun : (installs.exec (fun _ _ _ => True)
      ((0, .call (.startBatch streamedPath streamedPath)) :: (startEvents streamedPath).drop 1 ++
        verifiedEvents 2 ++ List.replicate 2 (2, .work .go) ++
        (1, .call .cancel) :: List.replicate 3 (1, .call .go) ++
        List.replicate 5 (2, .work .go) ++ [(2, .work (.commit streamedDetail true))])
      (start (LiveSession.Live.init true) 2)).map
      (fun p => (p.shared.inst.record.canceledSinceUser, p.shared.inst.cancelStream)) =
        some (true, false) := by rfl
  obtain ⟨p, hp, hc⟩ := Option.map_eq_some_iff.mp hrun
  obtain ⟨h1, h2⟩ := Prod.mk.inj hc
  have hflag := (hall _ _ p (.of_exec hp)).flag h1
  exact absurd (h2.symm.trans hflag) Bool.false_ne_true

end PkgManager.InstallCancel
