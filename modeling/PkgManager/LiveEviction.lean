import PkgManager.LiveReaders

namespace PkgManager.LiveEviction

open Interleaving Memory LiveSession LiveCalls LiveSlots LiveReads LiveThreads LiveSound LiveReaders

/-! What the eviction scan finds. -/

def stamp (lv : Live) (s : Nat) : Nat := lv.lastUse (lv.slotOf s).toNat

/-- What the scan holds after it has seen some segments. -/
structure Oldest (lv : Live) (seg : Nat) (seen : Nat → Prop) (best : Option (Nat × Nat)) : Prop where
  stamped : ∀ b ∈ best, b.1 = stamp lv b.2
  least : ∀ s, seen s → Victim lv seg s → ∃ b, best = some b ∧ b.1 ≤ stamp lv s

theorem evictScan_of_not_victim {lv : Live} {seg s : Nat} (best : Option (Nat × Nat)) (hpos : 0 < s)
    (hlt : s < lv.nsegs) (h : ¬Victim lv seg s) : evictScan lv seg best s = best := by
  unfold evictScan
  split_ifs with h1 h2 h3
  · rfl
  · rfl
  · rfl
  · simp only [not_or, Bool.not_eq_true, Bool.not_eq_false', Int.not_lt] at h1 h3
    exact absurd ⟨hpos, hlt, by simpa using h1.1, h1.2, by omega, by simpa using h3⟩ h

theorem evictScan_of_victim {lv : Live} {seg s : Nat} (best : Option (Nat × Nat))
    (h : Victim lv seg s) : evictScan lv seg best s =
      match best with
      | none => some (stamp lv s, s)
      | some (oldest, old) => if stamp lv s < oldest then some (stamp lv s, s) else some (oldest, old) := by
  unfold evictScan
  have h1 : ¬((!lv.present s) = true ∨ lv.slotOf s < 0) := by
    have hs := h.slot
    simp only [h.present, Bool.not_true, Bool.false_eq_true, false_or]
    omega
  rw [if_neg h1, if_neg (by rw [h.unshielded]; omega), if_neg (by simp [h.rule])]
  rfl

theorem evictScan_oldest {lv : Live} {seg s : Nat} {seen : Nat → Prop} {best : Option (Nat × Nat)}
    (hpos : 0 < s) (hlt : s < lv.nsegs) (h : Oldest lv seg seen best) :
    Oldest lv seg (fun t => seen t ∨ t = s) (evictScan lv seg best s) := by
  by_cases hv : Victim lv seg s
  · rw [evictScan_of_victim best hv]
    cases best with
    | none =>
      refine ⟨fun b hb => by rw [← Option.some.inj hb], fun t ht htv => ?_⟩
      rcases ht with ht | rfl
      · obtain ⟨b, hb, _⟩ := h.least t ht htv
        cases hb
      · exact ⟨_, rfl, Nat.le_refl _⟩
    | some b =>
      obtain ⟨oldest, old⟩ := b
      have hold : oldest = stamp lv old := h.stamped _ rfl
      by_cases hless : stamp lv s < oldest
      · simp only [if_pos hless]
        refine ⟨fun b hb => by rw [← Option.some.inj hb], fun t ht htv => ?_⟩
        rcases ht with ht | rfl
        · obtain ⟨b, hb, hle⟩ := h.least t ht htv
          obtain rfl := Option.some.inj hb
          exact ⟨_, rfl, Nat.le_trans (Nat.le_of_lt hless) hle⟩
        · exact ⟨_, rfl, Nat.le_refl _⟩
      · simp only [if_neg hless]
        refine ⟨h.stamped, fun t ht htv => ?_⟩
        rcases ht with ht | rfl
        · exact h.least t ht htv
        · exact ⟨_, rfl, Nat.le_of_not_lt hless⟩
  · rw [evictScan_of_not_victim best hpos hlt hv]
    refine ⟨h.stamped, fun t ht htv => ?_⟩
    rcases ht with ht | rfl
    · exact h.least t ht htv
    · exact absurd htv hv

theorem foldl_oldest {lv : Live} {seg : Nat} (l : List Nat) (hl : ∀ s ∈ l, 0 < s ∧ s < lv.nsegs)
    {seen : Nat → Prop} {best : Option (Nat × Nat)} (h : Oldest lv seg seen best) :
    Oldest lv seg (fun t => seen t ∨ t ∈ l) (l.foldl (evictScan lv seg) best) := by
  induction l generalizing seen best with
  | nil => simpa using h
  | cons s l ih =>
    have hs := hl s List.mem_cons_self
    have hrest := ih (fun t ht => hl t (List.mem_cons_of_mem s ht)) (evictScan_oldest hs.1 hs.2 h)
    refine ⟨hrest.stamped, fun t ht htv => hrest.least t ?_ htv⟩
    rcases ht with ht | ht
    · exact .inl (.inl ht)
    · rcases List.mem_cons.mp ht with rfl | ht
      · exact .inl (.inr rfl)
      · exact .inr ht

theorem oldestSeg_oldest (lv : Live) (seg : Nat) :
    Oldest lv seg (fun s => 0 < s ∧ s < lv.nsegs)
      ((List.range' 1 (lv.nsegs - 1)).foldl (evictScan lv seg) none) := by
  have hl : ∀ s ∈ List.range' 1 (lv.nsegs - 1), 0 < s ∧ s < lv.nsegs := by
    intro s hs
    rw [List.mem_range'_1] at hs
    omega
  have hstart : Oldest lv seg (fun _ => False) none :=
    ⟨fun _ hb => absurd hb (by simp), fun _ h => h.elim⟩
  have hscan := foldl_oldest _ hl hstart
  refine ⟨hscan.stamped, fun s hs hv => hscan.least s (.inr ?_) hv⟩
  rw [List.mem_range'_1]
  omega

/-- Where the scan finds nothing no segment may go. -/
theorem oldestSeg_none {lv : Live} {seg : Nat} (h : oldestSeg lv seg = none) (s : Nat) :
    ¬Victim lv seg s := by
  intro hv
  obtain ⟨b, hb, _⟩ := (oldestSeg_oldest lv seg).least s ⟨hv.pos, hv.lt⟩ hv
  unfold oldestSeg at h
  rw [hb] at h
  cases h

/-- The segment that goes has the least stamp of those that may. -/
theorem oldestSeg_least {lv : Live} {seg old s : Nat} (h : oldestSeg lv seg = some old)
    (hv : Victim lv seg s) : stamp lv old ≤ stamp lv s := by
  have hscan := oldestSeg_oldest lv seg
  obtain ⟨b, hb, hle⟩ := hscan.least s ⟨hv.pos, hv.lt⟩ hv
  unfold oldestSeg at h
  rw [hb, Option.map_some] at h
  obtain rfl := Option.some.inj h
  rw [← hscan.stamped b hb]
  exact hle

/-! A full slot table. -/

/-- Each slot holds a segment of its own that is present. -/
theorem slot_holds {lv : Live} (h : SlotTable lv) {k : Nat} (hk : k < lv.nslots)
    (hfull : 0 ≤ lv.slotSeg k) :
    ∃ s, s < lv.nsegs ∧ lv.slotSeg k = (s : Int) ∧ lv.slotOf s = (k : Int) ∧ lv.present s = true := by
  have hlt := h.slotSeg_lt k hk
  have hs : ((lv.slotSeg k).toNat : Int) = lv.slotSeg k := Int.toNat_of_nonneg hfull
  have hseg : (lv.slotSeg k).toNat < lv.nsegs := by omega
  have hslot := h.slot_of_seg _ hseg k hk hs.symm
  exact ⟨_, hseg, hs.symm, hslot, (h.present_iff _ hseg).mpr (by omega)⟩

/-- What keeps a segment in its slot against the incoming one: it is the header, a
reader waits for it, or none of the three rules releases it. -/
def Held (lv : Live) (seg s : Nat) : Prop :=
  s = 0 ∨ 0 < lv.waiters s ∨ evictable lv seg s = false

theorem held_of_full {lv : Live} (h : SlotTable lv) {seg : Nat}
    (hfull : ∀ k < lv.nslots, 0 ≤ lv.slotSeg k) (hnone : oldestSeg lv seg = none) :
    ∀ k < lv.nslots, ∃ s < lv.nsegs, lv.slotSeg k = (s : Int) ∧ Held lv seg s := by
  intro k hk
  obtain ⟨s, hs, hseg, hslot, hp⟩ := slot_holds h hk (hfull k hk)
  refine ⟨s, hs, hseg, ?_⟩
  by_contra hheld
  unfold Held at hheld
  simp only [not_or, Nat.not_lt, Bool.not_eq_false] at hheld
  obtain ⟨h0, hw, hrule⟩ := hheld
  exact oldestSeg_none hnone s ⟨by omega, hs, hp, by omega, by omega, hrule⟩

end PkgManager.LiveEviction
