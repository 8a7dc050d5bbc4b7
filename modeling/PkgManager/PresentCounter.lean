import PkgManager.LiveSound

namespace PkgManager.PresentCounter

open Interleaving Memory LiveSession LiveCalls LiveSlots LiveThreads LiveSound

/-- Setting one of the flags below `n` changes their count by that flag alone. -/
theorem countP_update (f : Nat → Bool) (b : Bool) {n s : Nat} (hs : s < n) :
    (List.range n).countP (Function.update f s b) + (if f s then 1 else 0) =
      (List.range n).countP f + if b then 1 else 0 := by
  induction n with
  | zero => omega
  | succ n ih =>
    rw [List.range_succ, List.countP_append, List.countP_append, List.countP_singleton,
      List.countP_singleton]
    by_cases hn : s = n
    · subst hn
      have hrest : (List.range s).countP (Function.update f s b) = (List.range s).countP f := by
        apply List.countP_congr
        intro t ht
        have hne : t ≠ s := Nat.ne_of_lt (List.mem_range.mp ht)
        rw [Function.update_of_ne hne]
      rw [hrest, Function.update_self]
      omega
    · have hlt := ih (by omega)
      rw [Function.update_of_ne (Ne.symm hn)]
      omega

/-- The counter is the number of segments present and `k` more. -/
def Counted (lv : Live) (k : Nat) : Prop :=
  lv.presentCount = (List.range lv.nsegs).countP lv.present + k

/-! The evictions of a store. -/

/-- The whole segment lies in the message. -/
def whole (lv : Live) (seg offset len : Nat) : Bool :=
  0 < segLenLocked lv seg ∧ offset ≤ seg * SEG ∧ seg * SEG + segLenLocked lv seg ≤ u64 (offset + len)

/-- A store of `seg` finds no slot but that of another segment. -/
def mustEvict (lv : Live) (seg offset len : Nat) : Bool :=
  whole lv seg offset len ∧ lv.slotOf seg < 0 ∧ freeSlot lv = none ∧ (oldestSeg lv seg).isSome

/-- Stores of a message over `n` segments from `s` on that have to evict one;
a store that fails ends the loop. -/
def storeEvictions (data : Bytes) (offset len : Nat) : Nat → Nat → Live → Nat
  | 0, _, _ => 0
  | n + 1, s, lv =>
    let st := storeSegLocked lv s data offset len
    (if mustEvict lv s offset len then 1 else 0) +
      if st.2 < 0 then 0 else storeEvictions data offset len n (s + 1) st.1

def messageEvictions (lv : Live) (offset : Nat) (data : Bytes) (len : Nat) : Nat :=
  match writeRefused lv offset len with
  | some _ => 0
  | none =>
    storeEvictions data offset len (lastSeg offset len + 1 - firstSeg offset) (firstSeg offset) lv

/-- Stores of one step of a thread that have to evict a segment. -/
def evictionsOf (lv : Live) : Thread → Event → Nat
  | _, .tryWrite offset data len => messageEvictions lv offset data len
  | _, .write offset data len => messageEvictions lv offset data len
  | .writing w, .writeWake false =>
    if lv.aborted then 0 else storeEvictions w.data w.offset w.len w.left w.seg lv
  | _, _ => 0

/-- The live session with the number of evictions since it was created. -/
def counting : Machine (Live × Nat) Thread Event where
  act e st t := (turn st.1 t e).map fun r =>
    ((r.1, if st.1.active then st.2 + evictionsOf st.1 t e else 0), r.2, [])

/-! One store. -/

theorem store_part {lv : Live} {seg offset len : Nat} (data : Bytes)
    (h : whole lv seg offset len = false) : (storeSegLocked lv seg data offset len).1 = lv := by
  simp only [whole, decide_eq_false_iff_not] at h
  unfold storeSegLocked
  simp only
  generalize hstart : (if seg * SEG < offset then offset else seg * SEG) = wStart
  generalize hend : (if u64 (offset + len) < seg * SEG + segLenLocked lv seg then
    u64 (offset + len) else seg * SEG + segLenLocked lv seg) = wEnd
  by_cases hskip : wEnd ≤ wStart
  · rw [if_pos hskip]
  · have hpart : wEnd - wStart ≠ segLenLocked lv seg := by
      split at hstart <;> split at hend <;> omega
    rw [if_neg hskip, if_pos hpart]

theorem store_whole {lv : Live} {seg offset len : Nat} (data : Bytes)
    (h : whole lv seg offset len = true) :
    storeSegLocked lv seg data offset len =
      if (allocSlotLocked lv seg).2 < 0 then ((allocSlotLocked lv seg).1, -2)
      else (fillSlot (allocSlotLocked lv seg).1 seg (allocSlotLocked lv seg).2.toNat
        (lv.present seg) data (seg * SEG - offset) (segLenLocked lv seg),
          (allocSlotLocked lv seg).2) := by
  simp only [whole, decide_eq_true_eq] at h
  obtain ⟨hpos, hstart, hstop⟩ := h
  have h1 : (if seg * SEG < offset then offset else seg * SEG) = seg * SEG := if_neg (by omega)
  have h2 : (if u64 (offset + len) < seg * SEG + segLenLocked lv seg then u64 (offset + len)
      else seg * SEG + segLenLocked lv seg) = seg * SEG + segLenLocked lv seg := if_neg (by omega)
  unfold storeSegLocked
  simp only [h1, h2]
  rw [if_neg (by omega), if_neg (by omega)]

/-- A fill counts its segment unless that was present. -/
theorem fill_counted {lv : Live} {seg k slot : Nat} {resident : Bool} {data : Bytes}
    {start len : Nat} (hs : seg < lv.nsegs) (h : Counted lv k) :
    Counted (fillSlot lv seg slot resident data start len) k := by
  have hc := countP_update lv.present true hs
  unfold Counted at h ⊢
  show (if lv.present seg then lv.presentCount else lv.presentCount + 1) =
    (List.range lv.nsegs).countP (Function.update lv.present seg true) + k
  cases hp : lv.present seg <;> simp only [hp, Bool.false_eq_true, ↓reduceIte] at hc ⊢ <;> omega

theorem claim_counted {lv : Live} {k : Nat} (seg slot : Nat) (h : Counted lv k) :
    Counted (claim lv seg slot) k := by
  unfold claim
  split
  · exact h
  · exact h

/-- An eviction clears its flag and leaves the counter as it is. -/
theorem evict_counted {lv : Live} {k old : Nat} (hold : old < lv.nsegs)
    (hp : lv.present old = true) (h : Counted lv k) : Counted (evict lv old) (k + 1) := by
  have hc := countP_update lv.present false hold
  unfold Counted at h ⊢
  show lv.presentCount =
    (List.range lv.nsegs).countP (Function.update lv.present old false) + (k + 1)
  simp only [hp, Bool.false_eq_true, ↓reduceIte] at hc
  omega

theorem alloc_counted {lv : Live} {seg k offset len : Nat} (hs : seg < lv.nsegs)
    (hw : whole lv seg offset len = true) (h : Counted lv k) :
    (allocSlotLocked lv seg).1.nsegs = lv.nsegs ∧
      Counted (allocSlotLocked lv seg).1 (k + if mustEvict lv seg offset len then 1 else 0) := by
  unfold allocSlotLocked mustEvict
  by_cases hres : 0 ≤ lv.slotOf seg
  · have hno : ¬lv.slotOf seg < 0 := by omega
    rw [if_pos ⟨hs, hres⟩]
    simp only [hno, false_and, and_false, decide_false, Bool.false_eq_true, ↓reduceIte]
    exact ⟨trivial, h⟩
  · have hneg : lv.slotOf seg < 0 := by omega
    rw [if_neg (fun hn => hres hn.2)]
    cases hf : freeSlot lv with
    | some i =>
      simp only [reduceCtorEq, false_and, and_false, decide_false, Bool.false_eq_true, ↓reduceIte]
      refine ⟨?_, claim_counted seg i h⟩
      unfold claim
      split <;> rfl
    | none =>
      cases ho : oldestSeg lv seg with
      | none =>
        simp only [Option.isSome_none, Bool.false_eq_true, and_false, decide_false, ↓reduceIte]
        exact ⟨trivial, h⟩
      | some old =>
        have hv := oldestSeg_victim ho
        simp only [hw, hneg, Option.isSome_some, and_self, decide_true, ↓reduceIte]
        refine ⟨?_, claim_counted _ _ (evict_counted hv.lt hv.present h)⟩
        unfold claim
        split <;> rfl

theorem store_counted {lv : Live} {k : Nat} (hs : Session lv) (h : Counted lv k) (seg : Nat)
    (data : Bytes) (offset len : Nat) :
    Counted (storeSegLocked lv seg data offset len).1
      (k + if mustEvict lv seg offset len then 1 else 0) := by
  cases hw : whole lv seg offset len with
  | false =>
    rw [store_part data hw]
    have hno : mustEvict lv seg offset len = false := by simp [mustEvict, hw]
    rw [hno]
    exact h
  | true =>
    have hlen : 0 < segLenLocked lv seg := by
      simp only [whole, decide_eq_true_eq] at hw
      exact hw.1
    have hlt := seg_lt_of_segLen_pos hs hlen
    obtain ⟨hn, ha⟩ := alloc_counted hlt hw h
    rw [store_whole data hw]
    split
    · exact ha
    · exact fill_counted (hn ▸ hlt) ha

/-! A write. -/

theorem wrote_aborted {lv lv' : Live} {data : Bytes} {offset len : Nat}
    (h : Wrote data offset len lv lv') : lv'.aborted = lv.aborted :=
  (congrArg Live.aborted h.frame_eq :)

/-- A store ends with a slot or nothing to do, or fails in one of two ways. -/
theorem store_result {lv : Live} (hs : Session lv) (seg : Nat) (data : Bytes) (offset len : Nat) :
    (storeSegLocked lv seg data offset len).2 = -1 ∨
      (storeSegLocked lv seg data offset len).2 = -2 ∨
        0 ≤ (storeSegLocked lv seg data offset len).2 := by
  have hcases := store_cases hs seg data offset len
  revert hcases
  generalize (storeSegLocked lv seg data offset len).1 = lv'
  generalize (storeSegLocked lv seg data offset len).2 = r
  intro hcases
  cases hcases <;> omega

theorem storeEvictions_succ (data : Bytes) (offset len n s : Nat) (lv : Live) :
    storeEvictions data offset len (n + 1) s lv =
      (if mustEvict lv s offset len then 1 else 0) +
        if (storeSegLocked lv s data offset len).2 < 0 then 0
        else storeEvictions data offset len n (s + 1) (storeSegLocked lv s data offset len).1 := by
  rw [storeEvictions]

theorem tryWriteLoop_counted {lv : Live} {k : Nat} (hs : Session lv) (h : Counted lv k)
    (data : Bytes) (offset len n s : Nat) :
    Counted (tryWriteLoop data offset len n s lv).1
      (k + storeEvictions data offset len n s lv) := by
  induction n generalizing s lv k with
  | zero => exact h
  | succ n ih =>
    have hst := store_counted hs h s data offset len
    have hnext := ih ((store_wrote hs s data offset len).session hs) hst (s + 1)
    have hr := store_result hs s data offset len
    rw [tryWriteLoop_succ, storeEvictions_succ, ← Nat.add_assoc]
    -- the store is a pair from here on, so that its projections compare without being unfolded
    generalize storeSegLocked lv s data offset len = st at hst hnext hr ⊢
    obtain ⟨lv', r⟩ := st
    dsimp only at hst hnext hr ⊢
    obtain rfl | rfl | hr := hr
    · exact hst
    · exact hst
    · have hok : ¬r < 0 := by omega
      have hfatal : r ≠ -1 := by omega
      have hbusy : r ≠ -2 := by omega
      rw [if_neg hok, if_neg hfatal, if_neg hbusy, ite_self]
      exact hnext

theorem writeLoop_counted {lv : Live} {k : Nat} (hs : Session lv) (h : Counted lv k)
    (ha : lv.aborted = false) (w : WriteCall) (n s : Nat) :
    Counted (writeLoop w n s lv).1 (k + storeEvictions w.data w.offset w.len n s lv) := by
  induction n generalizing s lv k with
  | zero => exact h
  | succ n ih =>
    have hw := store_wrote hs s w.data w.offset w.len
    have hst := store_counted hs h s w.data w.offset w.len
    have hnext := ih (hw.session hs) hst ((wrote_aborted hw).trans ha) (s + 1)
    have hr := store_result hs s w.data w.offset w.len
    rw [writeLoop_succ, if_neg (by simp [ha]), storeEvictions_succ, ← Nat.add_assoc]
    generalize storeSegLocked lv s w.data w.offset w.len = st at hst hnext hr ⊢
    obtain ⟨lv', r⟩ := st
    dsimp only at hst hnext hr ⊢
    obtain rfl | rfl | hr := hr
    · exact hst
    · exact hst
    · have hok : ¬r < 0 := by omega
      have hfatal : r ≠ -1 := by omega
      rw [if_neg hok, if_neg hfatal, if_pos hr, ite_self]
      exact hnext

/-! A step. -/

theorem Counted.congr {lv lv' : Live} {k : Nat} (h : Counted lv k)
    (hcount : lv'.presentCount = lv.presentCount) (hsegs : lv'.nsegs = lv.nsegs)
    (hpresent : lv'.present = lv.present) : Counted lv' k := by
  unfold Counted
  rw [hcount, hsegs, hpresent]
  exact h

theorem quiet_counted {lv lv' : Live} {k : Nat} (h : Quiet lv lv') (hc : Counted lv k) :
    Counted lv' k :=
  hc.congr (congrArg Live.presentCount h.frame_eq :) (congrArg Live.nsegs h.frame_eq :)
    (congrArg Live.present h.frame_eq :)

theorem counted_of_readFrame {lv lv' : Live} {k : Nat} (h : readFrame lv' = readFrame lv)
    (hc : Counted lv k) : Counted lv' k :=
  hc.congr (congrArg Live.presentCount h :) (congrArg Live.nsegs h :) (congrArg Live.present h :)

theorem freshSession_counted (lv : Live) (c : CreateCall) : Counted (freshSession lv c) 0 := by
  have hnone : (List.range (freshSession lv c).nsegs).countP (freshSession lv c).present = 0 :=
    List.countP_eq_zero.mpr fun _ _ => Bool.false_ne_true
  unfold Counted
  rw [hnone]
  rfl

theorem afterWrite_counted {lv : Live} {k : Nat} (offset : Nat) (data : Bytes) (len : Nat)
    (wt : WriteTurn) (h : Counted lv k) : Counted (afterWrite offset data len lv wt).1 k := by
  cases wt with
  | done r => exact quiet_counted (accept_quiet lv offset data len r) h
  | wait w => exact h

theorem messageEvictions_refused {lv : Live} {offset len : Nat} {r : Int} (data : Bytes)
    (h : writeRefused lv offset len = some r) : messageEvictions lv offset data len = 0 := by
  unfold messageEvictions
  rw [h]

theorem messageEvictions_stored {lv : Live} {offset len : Nat} (data : Bytes)
    (h : writeRefused lv offset len = none) :
    messageEvictions lv offset data len =
      storeEvictions data offset len (lastSeg offset len + 1 - firstSeg offset)
        (firstSeg offset) lv := by
  unfold messageEvictions
  rw [h]

theorem tryWrite_counted {lv : Live} {k : Nat} (hs : Session lv) (h : Counted lv k)
    (offset : Nat) (data : Bytes) (len : Nat) :
    Counted (wsLiveTryWrite lv offset data len).1 (k + messageEvictions lv offset data len) := by
  unfold wsLiveTryWrite
  cases hr : writeRefused lv offset len with
  | some r =>
    rw [messageEvictions_refused data hr]
    exact h
  | none =>
    rw [messageEvictions_stored data hr]
    exact tryWriteLoop_counted hs h data offset len _ _

theorem write_counted {lv : Live} {k : Nat} (hs : Session lv) (h : Counted lv k)
    (offset : Nat) (data : Bytes) (len : Nat) :
    Counted (wsLiveWrite lv offset data len).1 (k + messageEvictions lv offset data len) := by
  unfold wsLiveWrite
  cases hr : writeRefused lv offset len with
  | some r =>
    rw [messageEvictions_refused data hr]
    exact h
  | none =>
    rw [messageEvictions_stored data hr]
    exact writeLoop_counted hs h (writeRefused_none hr).2
      ⟨offset, len, data, firstSeg offset, lastSeg offset len + 1 - firstSeg offset⟩ _ _

theorem writeWake_counted {lv : Live} {k : Nat} (hs : Session lv) (h : Counted lv k)
    (w : WriteCall) (expired : Bool) :
    Counted (writeWake lv w expired).1 (k + evictionsOf lv (.writing w) (.writeWake expired)) := by
  unfold writeWake evictionsOf
  cases expired with
  | true => exact h
  | false =>
    simp only [Bool.false_eq_true, ↓reduceIte]
    cases ha : lv.aborted with
    | false => exact writeLoop_counted hs h ha w _ _
    | true =>
      cases hl : w.left with
      | zero => exact h
      | succ n =>
        rw [writeLoop_succ, if_pos ha]
        exact h

theorem call_counted {lv : Live} {k : Nat} {e : Event} {st : Live × Thread} (hs : Session lv)
    (ha : lv.active = true) (h : Counted lv k) (t : Thread) (hc : call lv e = some st)
    (hst : st.1.active = true) : Counted st.1 (k + evictionsOf lv t e) := by
  cases e with
  | create c =>
    cases hc
    obtain ⟨n, hn⟩ | ⟨hno, _⟩ := create_cases lv c
    · simp only [hn, evictionsOf, Nat.add_zero]
      exact h
    · simp [ha] at hno
  | setSeekFn on =>
    cases hc
    simp only [evictionsOf, Nat.add_zero]
    exact h
  | attach =>
    cases hc
    simp only [evictionsOf, Nat.add_zero]
    unfold wsLiveAttach
    split
    · exact h
    · exact h
  | detach =>
    cases hc
    simp only [evictionsOf, Nat.add_zero]
    exact quiet_counted (detach_quiet lv) h
  | tryWrite offset data len =>
    cases hc
    simp only [evictionsOf]
    exact afterWrite_counted offset data len _ (tryWrite_counted hs h offset data len)
  | write offset data len =>
    cases hc
    simp only [evictionsOf]
    exact afterWrite_counted offset data len _ (write_counted hs h offset data len)
  | read off buf count now =>
    cases hc
    simp only [evictionsOf, Nat.add_zero]
    exact counted_of_readFrame (wsLiveRead_frame lv off buf count now) h
  | finish =>
    cases hc
    simp only [evictionsOf, Nat.add_zero]
    unfold wsLiveFinish
    dsimp only
    split
    · exact h
    · exact h
  | abort =>
    cases hc
    simp only [evictionsOf, Nat.add_zero]
    unfold wsLiveAbort
    split
    · exact h
    · exact h
  | destroy =>
    cases hc
    simp [(destroy_inactive lv ha).1] at hst
  | writeWake expired => cases hc
  | rescan now => cases hc
  | seekReturn now => cases hc
  | readWake expired now => cases hc

theorem turn_counted {lv lv' : Live} {t t' : Thread} {k : Nat} {e : Event} (hs : Session lv)
    (ha : lv.active = true) (h : Counted lv k) (ht : turn lv t e = some (lv', t'))
    (ha' : lv'.active = true) : Counted lv' (k + evictionsOf lv t e) := by
  obtain ⟨_, hc⟩ | ⟨w, expired, rfl, rfl, he⟩ | ⟨r, rfl, now, rfl, he⟩ |
    ⟨r, need, rfl, now, rfl, he⟩ | ⟨r, need, rfl, expired, now, rfl, he⟩ := turn_cases ht
  · exact call_counted hs ha h t hc ha'
  · obtain rfl : lv' = _ := congrArg Prod.fst he
    exact afterWrite_counted _ _ _ _ (writeWake_counted hs h w expired)
  · obtain rfl : lv' = _ := congrArg Prod.fst he
    exact counted_of_readFrame (scanFrom_frame _ _ _) h
  · obtain rfl : lv' = _ := congrArg Prod.fst he
    exact counted_of_readFrame (seekReturn_frame _ _ _ _) h
  · obtain rfl : lv' = _ := congrArg Prod.fst he
    exact counted_of_readFrame (readWake_frame _ _ _ _ _) h

/-- A session that was not there before the step starts with a right counter. -/
theorem fresh_counted {lv lv' : Live} {e : Event} (h : Change lv e lv')
    (ha : lv.active = false) (ha' : lv'.active = true) : Counted lv' 0 := by
  cases h with
  | fresh => exact freshSession_counted lv _
  | quiet hq _ =>
    rw [hq.active, ha] at ha'
    cases ha'
  | destroyed hact =>
    rw [ha] at hact
    cases hact
  | wrote hact =>
    rw [ha] at hact
    cases hact
  | read hf =>
    have hact : lv'.active = lv.active := (congrArg Live.active hf :)
    rw [hact, ha] at ha'
    cases ha'

/-! Runs. -/

/-- The pool without the number of evictions. -/
def liveOf (p : Pool (Live × Nat) Thread) : Pool Live Thread := ⟨p.shared.1, p.threads⟩

def countingStart (seekFn : Bool) (n : Nat) : Pool (Live × Nat) Thread :=
  ⟨(Live.init seekFn, 0), List.replicate n .idle⟩

theorem counting_step {p q : Pool (Live × Nat) Thread} {i : Nat} {e : Event}
    (h : counting.step p i e = some q) :
    live.step (liveOf p) i e = some (liveOf q) ∧
      ∃ t, p.threads[i]? = some t ∧ (∃ t', turn p.shared.1 t e = some (q.shared.1, t')) ∧
        q.shared.2 = if p.shared.1.active then p.shared.2 + evictionsOf p.shared.1 t e else 0 := by
  obtain ⟨t, st, t', new, ht, hact, rfl⟩ := step_eq_some h
  obtain ⟨⟨lv, t₁⟩, hturn, he⟩ := Option.map_eq_some_iff.mp hact
  simp only [Prod.mk.injEq] at he
  obtain ⟨rfl, rfl, rfl⟩ := he
  refine ⟨?_, t, ht, ⟨t₁, hturn⟩, rfl⟩
  show live.step ⟨p.shared.1, p.threads⟩ i e = _
  unfold Machine.step
  simp only [ht, live, hturn, Option.map_some]
  rfl

structure CounterInv (p : Pool (Live × Nat) Thread) : Prop where
  session : SessionInv (liveOf p)
  counted : p.shared.1.active = true → Counted p.shared.1 p.shared.2

theorem counterInv_step {p q : Pool (Live × Nat) Thread} {i : Nat} {e : Event}
    (h : CounterInv p) (hs : counting.step p i e = some q) : CounterInv q := by
  obtain ⟨hlive, t, _, ⟨t', hturn⟩, hk⟩ := counting_step hs
  obtain ⟨hinv, hchange⟩ := sessionInv_step h.session hlive
  refine ⟨hinv, fun ha' => ?_⟩
  rw [hk]
  cases ha : p.shared.1.active with
  | false =>
    rw [if_neg Bool.false_ne_true]
    exact fresh_counted hchange ha ha'
  | true =>
    rw [if_pos rfl]
    exact turn_counted (h.session.session ha) ha (h.counted ha) hturn ha'

theorem counterInv_reach {G : Pool (Live × Nat) Thread → Nat → Event → Prop} {seekFn : Bool}
    {n : Nat} {p : Pool (Live × Nat) Thread} (h : counting.Reach G (countingStart seekFn n) p) :
    CounterInv p :=
  h.invariant CounterInv ⟨start_sessionInv seekFn n, nofun⟩
    fun _ _ _ _ hp _ hs => counterInv_step hp hs

/-- Every run of the session is one with its evictions counted. -/
theorem live_counts {G : Pool Live Thread → Nat → Event → Prop} {seekFn : Bool} {n : Nat}
    {q : Pool Live Thread} (h : live.Reach G (start seekFn n) q) :
    ∃ p, counting.Reach (fun p => G (liveOf p)) (countingStart seekFn n) p ∧ liveOf p = q := by
  induction h with
  | refl => exact ⟨_, .refl, rfl⟩
  | @tail q r i e _ hg hs ih =>
    obtain ⟨p, hp, rfl⟩ := ih
    obtain ⟨t, lv', t', ht, hturn, rfl⟩ := live_step hs
    have hstep : counting.step p i e = some
        ⟨(lv', if p.shared.1.active then p.shared.2 + evictionsOf p.shared.1 t e else 0),
          p.threads.set i t' ++ []⟩ := by
      unfold Machine.step
      have ht' : p.threads[i]? = some t := ht
      have hturn' : turn p.shared.1 t e = some (lv', t') := hturn
      simp only [ht', counting, hturn', Option.map_some]
    exact ⟨_, hp.tail hg hstep, rfl⟩

/-- In a run from the start of the process the counter of a live session is
right exactly while no store of that session evicted a segment. -/
theorem present_count_iff {G : Pool (Live × Nat) Thread → Nat → Event → Prop} {seekFn : Bool}
    {n : Nat} {p : Pool (Live × Nat) Thread} (h : counting.Reach G (countingStart seekFn n) p)
    (ha : p.shared.1.active = true) :
    (p.shared.1.presentCount = (List.range p.shared.1.nsegs).countP p.shared.1.present ∧
      p.shared.1.presentCount ≤ p.shared.1.nslots) ↔ p.shared.2 = 0 := by
  have hinv := counterInv_reach h
  have hc : p.shared.1.presentCount = _ + p.shared.2 := hinv.counted ha
  have hle : (List.range p.shared.1.nsegs).countP p.shared.1.present ≤ p.shared.1.nslots :=
    (hinv.session.session ha).present_le
  constructor
  · rintro ⟨heq, _⟩
    omega
  · intro hz
    omega

/-- Five segments of a file over a ring of four slots: the last store evicts a
segment that was read. -/
def evictingRun : List (Nat × Event) :=
  [(0, .create sixSegments), (0, .tryWrite 0 (fun _ => 7) (4 * SEG)), (0, .attach),
    (0, .read 0 (fun _ => 0) (2 * SEG) 0), (0, .tryWrite (4 * SEG) (fun _ => 8) SEG)]

theorem present_count_iff_full :
    ∃ p, counting.Reach (fun p => AttachDiscipline (liveOf p)) (countingStart false 1) p ∧
      p.shared.1.presentCount = 4 ∧
      p.shared.1.presentCount = (List.range p.shared.1.nsegs).countP p.shared.1.present := by
  have hv : ((counting.exec (fun p => AttachDiscipline (liveOf p)) (evictingRun.take 2)
      (countingStart false 1)).map fun p =>
        (p.shared.1.active, p.shared.1.presentCount, p.shared.2)) = some (true, 4, 0) := by
    rfl
  obtain ⟨p, hp, hv⟩ := Option.map_eq_some_iff.mp hv
  simp only [Prod.mk.injEq] at hv
  have hr : counting.Reach (fun p => AttachDiscipline (liveOf p)) (countingStart false 1) p :=
    .of_exec hp
  exact ⟨p, hr, hv.2.1, ((present_count_iff hr hv.1).mpr hv.2.2).1⟩

theorem present_count_fails :
    ¬∀ p, live.Reach AttachDiscipline (start false 1) p → p.shared.active = true →
      p.shared.presentCount = (List.range p.shared.nsegs).countP p.shared.present ∧
        p.shared.presentCount ≤ p.shared.nslots := by
  intro hall
  have hv : ((live.exec AttachDiscipline evictingRun (start false 1)).map fun p =>
      (p.shared.active, p.shared.presentCount, p.shared.nslots)) = some (true, 5, 4) := by
    rfl
  obtain ⟨p, hp, hv⟩ := Option.map_eq_some_iff.mp hv
  simp only [Prod.mk.injEq] at hv
  have hle := (hall p (.of_exec hp) hv.1).2
  omega

end PkgManager.PresentCounter
