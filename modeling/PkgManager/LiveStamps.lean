import PkgManager.LiveWaited

namespace PkgManager.LiveStamps

open Interleaving Memory LiveSession LiveCalls LiveSlots LiveReads LiveThreads LiveSound LiveReaders
open LiveEviction LiveWaited

/-- No slot was used after now. -/
def Stamped (lv : Live) : Prop := ∀ k, lv.lastUse k ≤ lv.tick

theorem Stamped.congr {lv lv' : Live} (h : Stamped lv) (hu : lv'.lastUse = lv.lastUse)
    (ht : lv'.tick = lv.tick) : Stamped lv' := by
  unfold Stamped
  rw [hu, ht]
  exact h

/-- A slot is used now. -/
theorem Stamped.use {lv lv' : Live} (h : Stamped lv) {k : Nat}
    (hu : lv'.lastUse = Function.update lv.lastUse k (lv.tick + 1)) (ht : lv'.tick = lv.tick + 1) :
    Stamped lv' := by
  intro j
  rw [hu, ht, Function.update_apply]
  split_ifs
  · exact Nat.le_refl _
  · exact Nat.le_succ_of_le (h j)

theorem claim_clock (lv : Live) (seg k : Nat) :
    (claim lv seg k).lastUse = lv.lastUse ∧ (claim lv seg k).tick = lv.tick := by
  unfold claim
  split_ifs <;> exact ⟨rfl, rfl⟩

theorem alloc_clock (lv : Live) (seg : Nat) :
    (allocSlotLocked lv seg).1.lastUse = lv.lastUse ∧ (allocSlotLocked lv seg).1.tick = lv.tick := by
  unfold allocSlotLocked
  split_ifs
  · exact ⟨rfl, rfl⟩
  · cases freeSlot lv with
    | some i => exact claim_clock lv seg i
    | none =>
      cases oldestSeg lv seg with
      | none => exact ⟨rfl, rfl⟩
      | some old => exact claim_clock (evict lv old) seg _

theorem storeSeg_stamped {lv : Live} (h : Stamped lv) (seg : Nat) (data : Bytes) (offset len : Nat) :
    Stamped (storeSegLocked lv seg data offset len).1 := by
  obtain ⟨hu, ht⟩ := alloc_clock lv seg
  unfold storeSegLocked
  simp only
  generalize (if seg * SEG < offset then offset else seg * SEG) = wStart
  generalize (if u64 (offset + len) < _ then u64 (offset + len) else _) = wEnd
  generalize (allocSlotLocked lv seg).1 = lv' at hu ht ⊢
  generalize (allocSlotLocked lv seg).2 = slot
  split_ifs
  · exact h
  · exact h
  · exact h.congr hu ht
  · exact (h.congr hu ht).use rfl rfl

theorem tryWriteLoop_stamped {lv : Live} (h : Stamped lv) (data : Bytes) (offset len n s : Nat) :
    Stamped (tryWriteLoop data offset len n s lv).1 := by
  induction n generalizing s lv with
  | zero => exact h
  | succ n ih =>
    have hst := storeSeg_stamped h s data offset len
    rw [tryWriteLoop_succ]
    cases hstore : storeSegLocked lv s data offset len with
    | mk lv' r =>
      rw [hstore] at hst
      have hrest := ih hst (s + 1)
      split_ifs
      · exact hrest
      · exact hst
      · exact hst
      · exact hrest

theorem writeLoop_stamped {lv : Live} (h : Stamped lv) (w : WriteCall) (n s : Nat) :
    Stamped (writeLoop w n s lv).1 := by
  induction n generalizing s lv with
  | zero => exact h
  | succ n ih =>
    have hst := storeSeg_stamped h s w.data w.offset w.len
    rw [writeLoop_succ]
    cases hstore : storeSegLocked lv s w.data w.offset w.len with
    | mk lv' r =>
      rw [hstore] at hst
      have hrest := ih hst (s + 1)
      split_ifs
      · exact h
      · exact hrest
      · exact hst
      · exact hrest
      · exact hst

theorem copyLoop_stamped {lv : Live} (h : Stamped lv) (n : Nat) (r : ReadCall) :
    Stamped (copyLoop n lv r).1 := by
  induction n generalizing lv r with
  | zero => exact h
  | succ n ih =>
    simp only [copyLoop]
    generalize (if r.off / SEG < lv.nsegs then lv.slotOf (r.off / SEG) else -1) = slot
    generalize (if segLenLocked lv (r.off / SEG) < _ then _ else _) = m
    split_ifs
    · exact h
    · exact h
    · exact ih (h.use rfl rfl) _
    · exact h

theorem stamped_of_parkFrame {lv lv' : Live} (h : Stamped lv) (hf : parkFrame lv' = parkFrame lv) :
    Stamped lv' :=
  h.congr (congrArg Live.lastUse hf :) (congrArg Live.tick hf :)

theorem readTurn_stamped {lv : Live} (h : Stamped lv) (r : ReadCall) (now : Nat) :
    Stamped (readTurn lv r now).1 := by
  unfold readTurn
  by_cases hab : lv.aborted = true
  · rw [if_pos hab]
    exact h
  · rw [if_neg hab]
    dsimp only
    generalize r.off + (r.count - r.got) = stop
    generalize firstMissing lv stop (stop - r.off) r.off = miss
    split_ifs
    · exact (copyLoop_stamped h _ r).congr rfl rfl
    · exact copyLoop_stamped h _ r
    · have hp := stamped_of_parkFrame h (park_frame lv (miss / SEG))
      have he := stamped_of_parkFrame hp (emitSeek_frame (park lv (miss / SEG)) (miss / SEG) now)
      cases hem : emitSeekLocked (park lv (miss / SEG)) (miss / SEG) now with
      | mk lv'' fn =>
        rw [hem] at he
        cases fn <;> exact he
    · exact stamped_of_parkFrame h (park_frame lv (miss / SEG))

theorem unpark_stamped {lv : Live} (h : Stamped lv) (need : Nat) : Stamped (unpark lv need) :=
  stamped_of_parkFrame h (unpark_frame lv need)

theorem afterWrite_stamped {lv : Live} (h : Stamped lv) (offset : Nat) (data : Bytes) (len : Nat)
    (turn : WriteTurn) : Stamped (afterWrite offset data len lv turn).1 := by
  cases turn with
  | done r =>
    have hf := (accept_quiet lv offset data len r).frame_eq
    exact h.congr (congrArg Live.lastUse hf :) (congrArg Live.tick hf :)
  | wait w => exact h

theorem wsLiveRead_stamped {lv : Live} (h : Stamped lv) (off : Nat) (buf : Bytes) (count now : Nat) :
    Stamped (wsLiveRead lv off buf count now).1 := by
  unfold wsLiveRead
  dsimp only
  split_ifs
  · exact h
  · exact h
  · exact h
  · exact readTurn_stamped h _ now
  · exact readTurn_stamped h _ now

theorem quiet_stamped {lv lv' : Live} (h : Stamped lv) (hq : Quiet lv lv') : Stamped lv' :=
  h.congr (congrArg Live.lastUse hq.frame_eq :) (congrArg Live.tick hq.frame_eq :)

theorem call_stamped {lv : Live} (h : Stamped lv) {e : Event} {st : Live × Thread}
    (hc : call lv e = some st) : Stamped st.1 := by
  cases e with
  | create c =>
    cases hc
    obtain ⟨n, he⟩ | ⟨_, _, _, _, he⟩ := create_cases lv c
    · rw [he]
      exact h
    · rw [he]
      exact fun k => Nat.zero_le _
  | setSeekFn on => cases hc; exact h
  | attach =>
    cases hc
    unfold wsLiveAttach
    split_ifs <;> exact h
  | detach => cases hc; exact quiet_stamped h (detach_quiet lv)
  | tryWrite offset data len =>
    cases hc
    refine afterWrite_stamped ?_ _ _ _ _
    cases hr : writeRefused lv offset len with
    | some r =>
      rw [tryWrite_refused hr]
      exact h
    | none =>
      rw [tryWrite_loop hr]
      exact tryWriteLoop_stamped h _ _ _ _ _
  | write offset data len =>
    cases hc
    refine afterWrite_stamped ?_ _ _ _ _
    unfold wsLiveWrite
    cases writeRefused lv offset len with
    | some r => exact h
    | none => exact writeLoop_stamped h _ _ _
  | read off buf count now => cases hc; exact wsLiveRead_stamped h off buf count now
  | finish =>
    cases hc
    unfold wsLiveFinish
    dsimp only
    split_ifs <;> exact h
  | abort =>
    cases hc
    unfold wsLiveAbort
    split_ifs <;> exact h
  | destroy =>
    cases hc
    unfold wsLiveDestroy
    dsimp only
    split_ifs <;> exact h
  | writeWake expired => cases hc
  | rescan now => cases hc
  | seekReturn now => cases hc
  | readWake expired now => cases hc

theorem turn_stamped {lv lv' : Live} (h : Stamped lv) {t t' : Thread} {e : Event}
    (ht : turn lv t e = some (lv', t')) : Stamped lv' := by
  obtain ⟨_, hc⟩ | ⟨w, expired, rfl, rfl, he⟩ | ⟨r, rfl, now, rfl, he⟩ |
    ⟨r, need, rfl, now, rfl, he⟩ | ⟨r, need, rfl, expired, now, rfl, he⟩ := turn_cases ht
  · exact call_stamped h hc
  · obtain rfl := congrArg Prod.fst he
    refine afterWrite_stamped ?_ _ _ _ _
    unfold writeWake
    split_ifs
    · exact h
    · exact writeLoop_stamped h _ _ _
  · obtain rfl := congrArg Prod.fst he
    exact readTurn_stamped h r now
  · obtain rfl := congrArg Prod.fst he
    unfold seekReturn
    split_ifs
    · exact unpark_stamped h need
    · exact readTurn_stamped (unpark_stamped h need) r now
    · exact h
  · obtain rfl := congrArg Prod.fst he
    unfold readWake
    split_ifs
    · exact unpark_stamped h need
    · exact readTurn_stamped (unpark_stamped h need) r now

theorem stamped_step {p q : Pool Live Thread} {i : Nat} {e : Event} (h : Stamped p.shared)
    (hs : live.step p i e = some q) : Stamped q.shared := by
  obtain ⟨t, lv', t', _, hturn, rfl⟩ := live_step hs
  exact turn_stamped h hturn

theorem stamped_reach {G : Pool Live Thread → Nat → Event → Prop} {seekFn : Bool} {n : Nat}
    {p : Pool Live Thread} (h : live.Reach G (start seekFn n) p) : Stamped p.shared :=
  h.invariant (fun p => Stamped p.shared) (fun _ => Nat.zero_le _) fun _ _ _ _ hp _ hs => stamped_step hp hs

end PkgManager.LiveStamps
