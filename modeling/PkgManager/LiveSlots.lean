import PkgManager.LiveCalls

namespace PkgManager.LiveSlots

open Memory LiveSession LiveCalls

/-- The arrays of the slot table are partial inverses of each other, and what
is present was acknowledged. -/
structure SlotTable (lv : Live) : Prop where
  present_iff : ∀ s < lv.nsegs, lv.present s = true ↔ 0 ≤ lv.slotOf s
  slotOf_lt : ∀ s < lv.nsegs, lv.slotOf s < lv.nslots
  slotSeg_lt : ∀ k < lv.nslots, lv.slotSeg k < lv.nsegs
  seg_of_slot : ∀ s < lv.nsegs, ∀ k < lv.nslots, lv.slotOf s = k → lv.slotSeg k = s
  slot_of_seg : ∀ s < lv.nsegs, ∀ k < lv.nslots, lv.slotSeg k = s → lv.slotOf s = k
  acked : ∀ s < lv.nsegs, lv.present s = true → lv.ackedEver s = true

/-- A segment that has a slot, and the slot. -/
theorem SlotTable.slot {lv : Live} (h : SlotTable lv) {s : Nat} (hs : s < lv.nsegs)
    (hp : lv.present s = true) :
    ∃ k, k < lv.nslots ∧ lv.slotOf s = (k : Int) ∧ lv.slotSeg k = (s : Int) := by
  have h0 := (h.present_iff s hs).mp hp
  have hlt := h.slotOf_lt s hs
  have hk : ((lv.slotOf s).toNat : Int) = lv.slotOf s := Int.toNat_of_nonneg h0
  have hb : (lv.slotOf s).toNat < lv.nslots := by omega
  exact ⟨(lv.slotOf s).toNat, hb, hk.symm, h.seg_of_slot s hs _ hb hk.symm⟩

theorem SlotTable.slot_inj {lv : Live} (h : SlotTable lv) {s t : Nat} (hs : s < lv.nsegs)
    (ht : t < lv.nsegs) (hp : lv.present s = true) (he : lv.slotOf s = lv.slotOf t) : s = t := by
  obtain ⟨k, hk, hks, hseg⟩ := h.slot hs hp
  have htk := h.seg_of_slot t ht k hk (he ▸ hks)
  omega

/-- No more segments are present than there are slots. -/
theorem SlotTable.present_le {lv : Live} (h : SlotTable lv) :
    (List.range lv.nsegs).countP lv.present ≤ lv.nslots := by
  have hcard : (List.range lv.nsegs).countP lv.present =
      ((Finset.range lv.nsegs).filter (fun s => lv.present s = true)).card := by
    rw [List.countP_eq_length_filter]
    rw [← List.toFinset_card_of_nodup (List.nodup_range.filter _)]
    congr 1
    ext s
    simp
  rw [hcard, ← Finset.card_range lv.nslots]
  apply Finset.card_le_card_of_injOn (fun s => (lv.slotOf s).toNat)
  · intro s hs
    simp only [Finset.coe_filter, Finset.mem_range, Set.mem_ofPred_eq] at hs
    obtain ⟨k, hk, hks, _⟩ := h.slot hs.1 hs.2
    simp only [Finset.coe_range, Set.mem_Iio]
    omega
  · intro s hs t ht he
    simp only [Finset.coe_filter, Finset.mem_range, Set.mem_ofPred_eq] at hs ht
    have h1 := (h.present_iff s hs.1).mp hs.2
    have h2 := (h.present_iff t ht.1).mp ht.2
    exact h.slot_inj hs.1 ht.1 hs.2 (by simp only at he; omega)

theorem freshSession_slotTable (lv : Live) (c : CreateCall) : SlotTable (freshSession lv c) := by
  constructor
  · intro s _
    simp [freshSession]
  · intro s _
    show (-1 : Int) < _
    omega
  · intro k _
    show (-1 : Int) < ((freshSession lv c).nsegs : Int)
    omega
  · intro s _ k _ h
    have h' : (-1 : Int) = k := h
    omega
  · intro s _ k _ h
    have h' : (-1 : Int) = s := h
    omega
  · intro s _ h
    cases h

/-! Allocation. -/

theorem freeSlot_some {lv : Live} {i : Nat} (h : freeSlot lv = some i) :
    i < lv.nslots ∧ lv.slotSeg i < 0 := by
  have hp := List.find?_some h
  have hm := List.mem_of_find?_eq_some h
  exact ⟨List.mem_range.mp hm, by simpa using hp⟩

theorem freeSlot_none {lv : Live} (h : freeSlot lv = none) (k : Nat) (hk : k < lv.nslots) :
    0 ≤ lv.slotSeg k := by
  have hn := List.find?_eq_none.mp h k (List.mem_range.mpr hk)
  simpa using hn

/-- What the eviction scan may pick for an incoming segment. -/
structure Victim (lv : Live) (seg old : Nat) : Prop where
  pos : 0 < old
  lt : old < lv.nsegs
  present : lv.present old = true
  slot : 0 ≤ lv.slotOf old
  unshielded : lv.waiters old = 0
  rule : evictable lv seg old = true

theorem evictScan_victim {lv : Live} {seg s : Nat} {best : Option (Nat × Nat)}
    (hs : 0 < s ∧ s < lv.nsegs) (hb : ∀ b ∈ best, Victim lv seg b.2) :
    ∀ b ∈ evictScan lv seg best s, Victim lv seg b.2 := by
  unfold evictScan
  split
  · exact hb
  · split
    · exact hb
    · split
      · exact hb
      · rename_i h1 h2 h3
        simp only [not_or, Bool.not_eq_true, Bool.not_eq_false', Int.not_lt] at h1 h3
        have hv : Victim lv seg s := ⟨hs.1, hs.2, by simpa using h1.1, h1.2, by omega, by simpa using h3⟩
        cases best with
        | none => simpa using hv
        | some b =>
          have hold := hb b rfl
          simp only
          split <;> simpa

theorem evictScan_foldl_victim {lv : Live} {seg : Nat} (l : List Nat)
    (hl : ∀ s ∈ l, 0 < s ∧ s < lv.nsegs) (best : Option (Nat × Nat))
    (hb : ∀ b ∈ best, Victim lv seg b.2) :
    ∀ b ∈ l.foldl (evictScan lv seg) best, Victim lv seg b.2 := by
  induction l generalizing best with
  | nil => exact hb
  | cons s l ih =>
    have hs := hl s List.mem_cons_self
    exact ih (fun t ht => hl t (List.mem_cons_of_mem s ht)) _ (evictScan_victim hs hb)

theorem oldestSeg_victim {lv : Live} {seg old : Nat} (h : oldestSeg lv seg = some old) :
    Victim lv seg old := by
  unfold oldestSeg at h
  obtain ⟨b, hb, rfl⟩ := Option.map_eq_some_iff.mp h
  apply evictScan_foldl_victim _ _ none (by simp) b hb
  intro s hs
  rw [List.mem_range'_1] at hs
  omega

/-- The four ways an allocation ends. -/
inductive Alloc (lv : Live) (seg : Nat) : Live → Int → Prop
  | resident (h : 0 ≤ lv.slotOf seg) : Alloc lv seg lv (lv.slotOf seg)
  | free {k : Nat} (h : lv.slotOf seg < 0) (hk : k < lv.nslots) (hfree : lv.slotSeg k < 0) :
      Alloc lv seg (claim lv seg k) k
  | evicted {k old : Nat} (h : lv.slotOf seg < 0) (hv : Victim lv seg old)
      (hk : lv.slotOf old = k) (hfull : ∀ k < lv.nslots, 0 ≤ lv.slotSeg k) :
      Alloc lv seg (claim (evict lv old) seg k) k
  | full (h : lv.slotOf seg < 0) (hfull : ∀ k < lv.nslots, 0 ≤ lv.slotSeg k)
      (hnone : oldestSeg lv seg = none) : Alloc lv seg lv (-1)

theorem alloc_cases (lv : Live) {seg : Nat} (hs : seg < lv.nsegs) :
    Alloc lv seg (allocSlotLocked lv seg).1 (allocSlotLocked lv seg).2 := by
  unfold allocSlotLocked
  by_cases hres : 0 ≤ lv.slotOf seg
  · rw [if_pos ⟨hs, hres⟩]
    exact .resident hres
  · rw [if_neg (fun h => hres h.2)]
    cases hf : freeSlot lv with
    | some i =>
      obtain ⟨hi, hfree⟩ := freeSlot_some hf
      exact .free (by omega) hi hfree
    | none =>
      cases ho : oldestSeg lv seg with
      | none => exact .full (by omega) (freeSlot_none hf) ho
      | some old =>
        have hv := oldestSeg_victim ho
        have hk : lv.slotOf old = ((lv.slotOf old).toNat : Int) := by
          rw [Int.toNat_of_nonneg hv.slot]
        exact .evicted (by omega) hv hk (freeSlot_none hf)

/-! One stored segment. -/

/-- The state without what a store may change. -/
def frame (lv : Live) : Live :=
  { lv with
    present := fun _ => false
    slotOf := fun _ => 0
    slots := fun _ _ => 0
    lastUse := fun _ => 0
    slotRead := fun _ => false
    slotSeg := fun _ => 0
    ackedEver := fun _ => false
    presentCount := 0
    tick := 0
    history := { lv.history with stores := [] } }

/-- A session the slot table of which is sound and covers the whole package. -/
structure Session (lv : Live) : Prop extends SlotTable lv where
  total_pos : 0 < lv.total
  total_le : lv.total ≤ maxTotal
  covers : lv.total ≤ lv.nsegs * SEG
  tight : lv.nsegs * SEG < lv.total + SEG

/-- The segment was put into slot `k`: it took a free slot, its own or the one
of an evicted segment. -/
structure Store (lv lv' : Live) (seg k : Nat) (data : Bytes) (offset len : Nat) : Prop where
  seg_lt : seg < lv.nsegs
  slot_lt : k < lv.nslots
  start : offset ≤ seg * SEG
  stop : seg * SEG + segLenLocked lv seg ≤ u64 (offset + len)
  slotOf_seg : lv'.slotOf seg = k
  slotSeg_slot : lv'.slotSeg k = seg
  present_seg : lv'.present seg = true
  own : 0 ≤ lv.slotOf seg → lv.slotOf seg = k
  others : ∀ s < lv.nsegs, s ≠ seg →
    (lv'.present s = lv.present s ∧ lv'.slotOf s = lv.slotOf s ∧ lv.slotOf s ≠ k) ∨
      (lv.slotOf seg < 0 ∧ Victim lv seg s ∧ lv.slotOf s = k ∧
        lv'.present s = false ∧ lv'.slotOf s = -1)
  otherSlots : ∀ j, j ≠ k → lv'.slotSeg j = lv.slotSeg j ∧ lv'.slots j = lv.slots j
  ackedEver : lv'.ackedEver = Function.update lv.ackedEver seg true
  bytes : lv'.slots k = blit (lv.slots k) 0 data (seg * SEG - offset) (segLenLocked lv seg)
  stores : lv'.history.stores =
    ⟨seg, fun o => data (seg * SEG - offset + o)⟩ :: lv.history.stores
  frame_eq : frame lv' = frame lv

theorem store_of_alloc {lv lv₁ : Live} {seg k : Nat} {data : Bytes} {offset len : Nat}
    (h : Session lv) (hs : seg < lv.nsegs) (hstart : offset ≤ seg * SEG)
    (hstop : seg * SEG + segLenLocked lv seg ≤ u64 (offset + len)) (ha : Alloc lv seg lv₁ k) :
    Store lv (fillSlot lv₁ seg k (lv.present seg) data (seg * SEG - offset)
      (segLenLocked lv seg)) seg k data offset len := by
  generalize hr : (k : Int) = r at ha
  cases ha with
  | resident hres =>
    have hp := (h.present_iff seg hs).mpr hres
    obtain ⟨k', hk', hsk, hseg⟩ := h.slot hs hp
    obtain rfl : k' = k := by omega
    refine ⟨hs, hk', hstart, hstop, hsk, hseg, by simp [fillSlot], fun _ => hsk, ?_, fun j hj => ?_, rfl,
      by simp [fillSlot], rfl, rfl⟩
    · intro s hs' hne
      refine .inl ⟨by simp [fillSlot, hne], rfl, fun he => hne ?_⟩
      have := h.seg_of_slot s hs' k' hk' he
      omega
    · simp [fillSlot, hj]
  | @free k' hseg hk' hfree =>
    obtain rfl : k' = k := by omega
    have hc : claim lv seg k' = { lv with
        slotOf := Function.update lv.slotOf seg k'
        slotSeg := Function.update lv.slotSeg k' seg } := if_pos hs
    rw [hc]
    refine ⟨hs, hk', hstart, hstop, by simp [fillSlot], by simp [fillSlot], by simp [fillSlot],
      fun _ => by omega, ?_, fun j hj => ?_, rfl, by simp [fillSlot], rfl, rfl⟩
    · intro s hs' hne
      refine .inl ⟨by simp [fillSlot, hne], by simp [fillSlot, hne], fun he => ?_⟩
      have := h.seg_of_slot s hs' k' hk' he
      omega
    · simp [fillSlot, hj]
  | @evicted k' old hseg hv hk' hfull =>
    obtain rfl : k' = k := by omega
    have hlt : k' < lv.nslots := by
      have := h.slotOf_lt old hv.lt
      omega
    have hne' : old ≠ seg := by
      rintro rfl
      omega
    have hc : claim (evict lv old) seg k' = { evict lv old with
        slotOf := Function.update (evict lv old).slotOf seg k'
        slotSeg := Function.update lv.slotSeg k' seg } := if_pos hs
    rw [hc]
    refine ⟨hs, hlt, hstart, hstop, by simp [fillSlot], by simp [fillSlot], by simp [fillSlot],
      fun _ => by omega, ?_, fun j hj => ?_, rfl, by simp [fillSlot, evict], rfl, rfl⟩
    · intro s hs' hne
      by_cases hso : s = old
      · subst hso
        exact .inr ⟨hseg, hv, hk', by simp [fillSlot, evict, hne], by simp [fillSlot, evict, hne]⟩
      · refine .inl ⟨by simp [fillSlot, evict, hne, hso], by simp [fillSlot, evict, hne, hso],
          fun he => hso ?_⟩
        exact h.slot_inj hs' hv.lt ((h.present_iff s hs').mpr (by omega)) (he.trans hk'.symm)
    · simp [fillSlot, evict, hj]
  | full _ _ _ => omega

/-- The ways `store_seg_locked` ends. -/
inductive StoreSeg (lv : Live) (seg : Nat) (data : Bytes) (offset len : Nat) : Live → Int → Prop
  | skip : StoreSeg lv seg data offset len lv 1
  | misfit : StoreSeg lv seg data offset len lv (-1)
  | busy (hs : seg < lv.nsegs) (h : lv.slotOf seg < 0)
      (hfull : ∀ k < lv.nslots, 0 ≤ lv.slotSeg k) (hnone : oldestSeg lv seg = none) :
      StoreSeg lv seg data offset len lv (-2)
  | stored {lv' : Live} {k : Nat} (h : Store lv lv' seg k data offset len) :
      StoreSeg lv seg data offset len lv' k

theorem seg_lt_of_segLen_pos {lv : Live} (h : Session lv) {seg : Nat}
    (hp : 0 < segLenLocked lv seg) : seg < lv.nsegs := by
  have hc := h.covers
  have hlt : seg * SEG < lv.total := by
    simp only [segLenLocked] at hp
    split at hp <;> omega
  unfold SEG at *
  omega

theorem store_cases {lv : Live} (h : Session lv) (seg : Nat) (data : Bytes) (offset len : Nat) :
    StoreSeg lv seg data offset len (storeSegLocked lv seg data offset len).1
      (storeSegLocked lv seg data offset len).2 := by
  unfold storeSegLocked
  simp only
  generalize hw : (if seg * SEG < offset then offset else seg * SEG) = wStart
  generalize hw' : (if u64 (offset + len) < seg * SEG + segLenLocked lv seg then
    u64 (offset + len) else seg * SEG + segLenLocked lv seg) = wEnd
  by_cases h1 : wEnd ≤ wStart
  · rw [if_pos h1]
    exact .skip
  · rw [if_neg h1]
    by_cases h2 : wEnd - wStart ≠ segLenLocked lv seg
    · rw [if_pos h2]
      exact .misfit
    · rw [if_neg h2]
      have hoff : offset ≤ seg * SEG := by split at hw <;> split at hw' <;> omega
      have hstart : wStart = seg * SEG := by split at hw <;> omega
      have hstop : seg * SEG + segLenLocked lv seg ≤ u64 (offset + len) := by
        split at hw' <;> omega
      have hs : seg < lv.nsegs := seg_lt_of_segLen_pos h (by omega)
      have ha := alloc_cases lv hs
      rw [hstart]
      by_cases hneg : (allocSlotLocked lv seg).2 < 0
      · rw [if_pos hneg]
        revert ha hneg
        generalize (allocSlotLocked lv seg).1 = lv₁
        generalize (allocSlotLocked lv seg).2 = r
        intro ha hneg
        cases ha with
        | resident hres => omega
        | free => omega
        | evicted => omega
        | full hseg hfull hnone => exact .busy hs hseg hfull hnone
      · rw [if_neg hneg]
        have hk : ((allocSlotLocked lv seg).2.toNat : Int) = (allocSlotLocked lv seg).2 :=
          Int.toNat_of_nonneg (by omega)
        rw [← hk] at ha ⊢
        exact .stored (store_of_alloc h hs hoff hstop ha)

theorem Store.nsegs {lv lv' : Live} {seg k : Nat} {data : Bytes} {offset len : Nat}
    (h : Store lv lv' seg k data offset len) : lv'.nsegs = lv.nsegs := by
  have hf := congrArg Live.nsegs h.frame_eq
  exact hf

theorem Store.nslots {lv lv' : Live} {seg k : Nat} {data : Bytes} {offset len : Nat}
    (h : Store lv lv' seg k data offset len) : lv'.nslots = lv.nslots := by
  have hf := congrArg Live.nslots h.frame_eq
  exact hf

theorem Store.total {lv lv' : Live} {seg k : Nat} {data : Bytes} {offset len : Nat}
    (h : Store lv lv' seg k data offset len) : lv'.total = lv.total := by
  have hf := congrArg Live.total h.frame_eq
  exact hf

theorem Store.slotTable {lv lv' : Live} {seg k : Nat} {data : Bytes} {offset len : Nat}
    (h : Store lv lv' seg k data offset len) (ht : SlotTable lv) : SlotTable lv' := by
  constructor
  · intro s hs
    rw [h.nsegs] at hs
    by_cases he : s = seg
    · subst he
      simp [h.present_seg, h.slotOf_seg]
    · obtain ⟨hp, ho, _⟩ | ⟨_, _, _, hp, ho⟩ := h.others s hs he
      · rw [hp, ho]
        exact ht.present_iff s hs
      · simp [hp, ho]
  · intro s hs
    rw [h.nsegs] at hs
    rw [h.nslots]
    have hk := h.slot_lt
    by_cases he : s = seg
    · subst he
      rw [h.slotOf_seg]
      exact_mod_cast hk
    · obtain ⟨_, ho, _⟩ | ⟨_, _, _, _, ho⟩ := h.others s hs he
      · rw [ho]
        exact ht.slotOf_lt s hs
      · omega
  · intro j hj
    rw [h.nslots] at hj
    rw [h.nsegs]
    have hs := h.seg_lt
    by_cases he : j = k
    · subst he
      rw [h.slotSeg_slot]
      exact_mod_cast hs
    · rw [(h.otherSlots j he).1]
      exact ht.slotSeg_lt j hj
  · intro s hs j hj ho
    rw [h.nsegs] at hs
    rw [h.nslots] at hj
    by_cases he : s = seg
    · subst he
      obtain rfl : j = k := by
        have hk := h.slotOf_seg
        omega
      exact h.slotSeg_slot
    · obtain ⟨_, ho', hne⟩ | ⟨_, _, _, _, ho'⟩ := h.others s hs he
      · rw [(h.otherSlots j (by omega)).1]
        exact ht.seg_of_slot s hs j hj (ho' ▸ ho)
      · omega
  · intro s hs j hj ho
    rw [h.nsegs] at hs
    rw [h.nslots] at hj
    by_cases he : j = k
    · subst he
      obtain rfl : s = seg := by
        have hk := h.slotSeg_slot
        omega
      exact h.slotOf_seg
    · rw [(h.otherSlots j he).1] at ho
      have hold := ht.slot_of_seg s hs j hj ho
      have hne : s ≠ seg := by
        rintro rfl
        have hown := h.own (by omega)
        omega
      obtain ⟨_, ho', _⟩ | ⟨_, _, hk, _, _⟩ := h.others s hs hne
      · rw [ho', hold]
      · omega
  · intro s hs hp
    rw [h.nsegs] at hs
    rw [h.ackedEver]
    by_cases he : s = seg
    · subst he
      simp
    · rw [Function.update_of_ne he]
      obtain ⟨hp', _⟩ | ⟨_, _, _, hp', _⟩ := h.others s hs he
      · exact ht.acked s hs (hp' ▸ hp)
      · simp [hp'] at hp

/-- The fields a session's soundness depends on. -/
def tableOf (lv : Live) : Live :=
  { Live.init false with
    total := lv.total
    nsegs := lv.nsegs
    nslots := lv.nslots
    present := lv.present
    slotOf := lv.slotOf
    slotSeg := lv.slotSeg
    ackedEver := lv.ackedEver }

theorem Session.table {lv : Live} (h : Session lv) : Session (tableOf lv) :=
  ⟨⟨h.present_iff, h.slotOf_lt, h.slotSeg_lt, h.seg_of_slot, h.slot_of_seg, h.acked⟩,
    h.total_pos, h.total_le, h.covers, h.tight⟩

theorem Session.of_table {lv : Live} (h : Session (tableOf lv)) : Session lv :=
  ⟨⟨h.present_iff, h.slotOf_lt, h.slotSeg_lt, h.seg_of_slot, h.slot_of_seg, h.acked⟩,
    h.total_pos, h.total_le, h.covers, h.tight⟩

theorem Session.congr {lv lv' : Live} (h : Session lv) (he : tableOf lv' = tableOf lv) :
    Session lv' :=
  .of_table (he ▸ h.table)

theorem Store.session {lv lv' : Live} {seg k : Nat} {data : Bytes} {offset len : Nat}
    (h : Store lv lv' seg k data offset len) (hs : Session lv) : Session lv' where
  toSlotTable := h.slotTable hs.toSlotTable
  total_pos := by rw [h.total]; exact hs.total_pos
  total_le := by rw [h.total]; exact hs.total_le
  covers := by rw [h.total, h.nsegs]; exact hs.covers
  tight := by rw [h.total, h.nsegs]; exact hs.tight

/-- What a write call does to the session: it stores segments of its message. -/
def Wrote (data : Bytes) (offset len : Nat) : Live → Live → Prop :=
  Relation.ReflTransGen fun lv lv' => ∃ seg k, Store lv lv' seg k data offset len

/-- A predicate every single store keeps is kept by a whole write. -/
theorem Wrote.preserves {data : Bytes} {offset len : Nat} {lv lv' : Live} {P : Live → Prop}
    (h : Wrote data offset len lv lv') (hs : Session lv) (hP : P lv)
    (hstep : ∀ a b seg k, Session a → P a → Store a b seg k data offset len → P b) :
    Session lv' ∧ P lv' := by
  induction h with
  | refl => exact ⟨hs, hP⟩
  | tail _ hst ih =>
    obtain ⟨seg, k, hst⟩ := hst
    exact ⟨hst.session ih.1, hstep _ _ seg k ih.1 ih.2 hst⟩

theorem Wrote.frame_eq {data : Bytes} {offset len : Nat} {lv lv' : Live}
    (h : Wrote data offset len lv lv') : frame lv' = frame lv := by
  induction h with
  | refl => rfl
  | tail _ hst ih =>
    obtain ⟨_, _, hst⟩ := hst
    exact hst.frame_eq.trans ih

theorem StoreSeg.wrote {lv lv' : Live} {seg : Nat} {data : Bytes} {offset len : Nat} {r : Int}
    (h : StoreSeg lv seg data offset len lv' r) : Wrote data offset len lv lv' := by
  cases h with
  | skip => exact .refl
  | misfit => exact .refl
  | busy => exact .refl
  | stored h => exact .single ⟨_, _, h⟩

theorem store_wrote {lv : Live} (h : Session lv) (seg : Nat) (data : Bytes) (offset len : Nat) :
    Wrote data offset len lv (storeSegLocked lv seg data offset len).1 :=
  (store_cases h seg data offset len).wrote

theorem Wrote.session {data : Bytes} {offset len : Nat} {lv lv' : Live}
    (h : Wrote data offset len lv lv') (hs : Session lv) : Session lv' :=
  (h.preserves (P := fun _ => True) hs trivial fun _ _ _ _ _ _ _ => trivial).1

theorem tryWriteLoop_wrote {lv : Live} (h : Session lv) (data : Bytes) (offset len n s : Nat) :
    Wrote data offset len lv (tryWriteLoop data offset len n s lv).1 := by
  induction n generalizing s lv with
  | zero => exact .refl
  | succ n ih =>
    have hw := store_wrote h s data offset len
    rw [tryWriteLoop_succ]
    cases hst : storeSegLocked lv s data offset len with
    | mk lv' r =>
      rw [hst] at hw
      have hn := hw.trans (ih (hw.session h) (s + 1))
      split_ifs
      · exact hn
      · exact hw
      · exact hw
      · exact hn

theorem writeLoop_wrote {lv : Live} (h : Session lv) (w : WriteCall) (n s : Nat) :
    Wrote w.data w.offset w.len lv (writeLoop w n s lv).1 := by
  induction n generalizing s lv with
  | zero => exact .refl
  | succ n ih =>
    have hw := store_wrote h s w.data w.offset w.len
    rw [writeLoop_succ]
    cases hst : storeSegLocked lv s w.data w.offset w.len with
    | mk lv' r =>
      rw [hst] at hw
      have hn := hw.trans (ih (hw.session h) (s + 1))
      split_ifs
      · exact .refl
      · exact hn
      · exact hw
      · exact hn
      · exact hw

end PkgManager.LiveSlots
