import PkgManager.LiveEviction

namespace PkgManager.LiveWaited

open Interleaving Memory LiveSession LiveCalls LiveSlots LiveReads LiveThreads LiveSound LiveReaders
open LiveEviction

/-! The write of one whole segment. -/

theorem storeSeg_whole {lv : Live} (h : Session lv) {seg : Nat} (hs : seg < lv.nsegs) (data : Bytes) :
    storeSegLocked lv seg data (seg * SEG) (segLenLocked lv seg) =
      if (allocSlotLocked lv seg).2 < 0 then ((allocSlotLocked lv seg).1, -2)
      else (fillSlot (allocSlotLocked lv seg).1 seg (allocSlotLocked lv seg).2.toNat (lv.present seg)
        data 0 (segLenLocked lv seg), (allocSlotLocked lv seg).2) := by
  obtain ⟨hpos, _, hle⟩ := segLen_bounds h hs
  unfold storeSegLocked
  simp only [u64_total h hle, Nat.lt_irrefl, if_false]
  rw [if_neg (by omega), if_neg (by omega), Nat.sub_self]

theorem writeRefused_whole {lv : Live} (h : Session lv) (ha : lv.active = true)
    (hab : lv.aborted = false) {seg : Nat} (hs : seg < lv.nsegs) :
    writeRefused lv (seg * SEG) (segLenLocked lv seg) = none := by
  obtain ⟨hpos, _, hle⟩ := segLen_bounds h hs
  unfold writeRefused
  rw [if_neg (by simp [ha, hab]), if_neg (by omega), u64_total h hle, if_neg]
  rw [Nat.mul_mod_left]
  omega

theorem segs_whole {lv : Live} (h : Session lv) {seg : Nat} (hs : seg < lv.nsegs) :
    firstSeg (seg * SEG) = seg ∧ lastSeg (seg * SEG) (segLenLocked lv seg) = seg := by
  obtain ⟨hpos, hlen, hle⟩ := segLen_bounds h hs
  have htotal := h.total_le
  unfold maxTotal at htotal
  unfold firstSeg lastSeg
  rw [u64_total h hle, u64Sub_of_le (by omega) (by omega)]
  unfold SEG at *
  omega

/-- A whole segment is stored where there is a slot for it. -/
theorem tryWrite_whole {lv : Live} (h : Session lv) (ha : lv.active = true) (hab : lv.aborted = false)
    {seg : Nat} (hs : seg < lv.nsegs) (data : Bytes) :
    wsLiveTryWrite lv (seg * SEG) data (segLenLocked lv seg) =
      if (allocSlotLocked lv seg).2 < 0 then ((allocSlotLocked lv seg).1, -2)
      else (fillSlot (allocSlotLocked lv seg).1 seg (allocSlotLocked lv seg).2.toNat (lv.present seg)
        data 0 (segLenLocked lv seg), 0) := by
  obtain ⟨hfirst, hlast⟩ := segs_whole h hs
  unfold wsLiveTryWrite
  rw [writeRefused_whole h ha hab hs, hfirst, hlast, Nat.add_sub_cancel_left]
  simp only
  rw [tryWriteLoop_succ, storeSeg_whole h hs]
  by_cases hneg : (allocSlotLocked lv seg).2 < 0
  · rw [if_pos hneg, if_pos hneg]
    rfl
  · simp only [if_neg hneg]
    split_ifs with h1 h2 h3
    · rfl
    · omega
    · omega
    · rfl

/-! Parked readers and the segments they shield. -/

theorem parkedOn_reading {t : Thread} {s : Nat} (h : t.parkedOn s = true) : t.reading = true := by
  cases t with
  | seeking => rfl
  | waiting => rfl
  | _ => cases h

theorem parkedOn_unique {t : Thread} {s s' : Nat} (h : t.parkedOn s = true) (h' : t.parkedOn s' = true) :
    s = s' := by
  cases t with
  | seeking r need => exact (beq_iff_eq.mp h).symm.trans (beq_iff_eq.mp h')
  | waiting r need => exact (beq_iff_eq.mp h).symm.trans (beq_iff_eq.mp h')
  | _ => cases h

/-- Each reader is parked on one segment at most. -/
theorem sum_parked_le (l : List Thread) (S : Finset Nat) :
    ∑ s ∈ S, l.countP (Thread.parkedOn s) ≤ l.countP Thread.reading := by
  induction l with
  | nil => simp
  | cons t l ih =>
    simp only [List.countP_cons, Finset.sum_add_distrib]
    have hone : ∑ s ∈ S, (if t.parkedOn s = true then 1 else 0) ≤ if t.reading = true then 1 else 0 := by
      by_cases hex : ∃ s ∈ S, t.parkedOn s = true
      · obtain ⟨s, hS, hs⟩ := hex
        rw [if_pos (parkedOn_reading hs), Finset.sum_eq_single_of_mem s hS, if_pos hs]
        exact fun s' _ hne => if_neg fun hp => hne (parkedOn_unique hp hs)
      · rw [Finset.sum_eq_zero]
        · exact Nat.zero_le _
        · intro s hs
          exact if_neg fun hp => hex ⟨s, hs, hp⟩
    omega

/-- In a full table a segment may go for a waited-on one, as long as there are
fewer readers than slots. -/
theorem oldestSeg_waited {p : Pool Live Thread} (hp : ReaderInv p) (ha : p.shared.active = true)
    (hreaders : p.threads.countP Thread.reading < p.shared.nslots) {seg : Nat}
    (hs : seg < p.shared.nsegs) (hwaited : 0 < p.shared.waiters seg)
    (habsent : p.shared.slotOf seg < 0) (hfull : ∀ k < p.shared.nslots, 0 ≤ p.shared.slotSeg k) :
    oldestSeg p.shared seg ≠ none := by
  intro hnone
  have ht := (hp.session ha).toSlotTable
  have hheld := held_of_full ht hfull hnone
  let shielded := (Finset.range p.shared.nsegs).filter fun s => 0 < p.shared.waiters s
  have hmem : seg ∈ shielded := Finset.mem_filter.mpr ⟨Finset.mem_range.mpr hs, hwaited⟩
  -- What is held is the header or shielded by another reader.
  have hslots : p.shared.nslots ≤ (insert 0 (shielded.erase seg)).card := by
    rw [← Finset.card_range p.shared.nslots]
    refine Finset.card_le_card_of_injOn (fun k => (p.shared.slotSeg k).toNat) ?_ ?_
    · intro k hk
      obtain ⟨s, hlt, hseg, hkept⟩ := hheld k (by simpa using hk)
      obtain ⟨s', _, hseg', hslot, hpres⟩ := slot_holds ht (by simpa using hk) (by omega)
      obtain rfl : s = s' := by omega
      have hne : s ≠ seg := by
        rintro rfl
        omega
      have hacked := ht.acked s hlt hpres
      simp only [hseg, Int.toNat_natCast, Finset.coe_insert, Set.mem_insert_iff, Finset.mem_coe]
      rcases hkept with h0 | hw | hrule
      · exact .inl h0
      · exact .inr (Finset.mem_erase.mpr ⟨hne, Finset.mem_filter.mpr ⟨Finset.mem_range.mpr hlt, hw⟩⟩)
      · simp [evictable, hs, hwaited, hacked] at hrule
    · intro k hk k' hk' he
      have h0 := hfull k (by simpa using hk)
      have h0' := hfull k' (by simpa using hk')
      obtain ⟨s, _, hseg, hslot, _⟩ := slot_holds ht (by simpa using hk) h0
      obtain ⟨s', _, hseg', hslot', _⟩ := slot_holds ht (by simpa using hk') h0'
      simp only [hseg, hseg', Int.toNat_natCast] at he
      rw [he] at hslot
      omega
  have hcard : (insert 0 (shielded.erase seg)).card ≤ shielded.card := by
    have hinsert := Finset.card_insert_le 0 (shielded.erase seg)
    rw [Finset.card_erase_of_mem hmem] at hinsert
    have hpos := Finset.card_pos.mpr ⟨seg, hmem⟩
    omega
  have hsum : shielded.card ≤ ∑ s ∈ shielded, p.threads.countP (Thread.parkedOn s) := by
    rw [Finset.card_eq_sum_ones]
    refine Finset.sum_le_sum fun s hsh => ?_
    obtain ⟨hlt, hw⟩ := Finset.mem_filter.mp hsh
    rw [← hp.waiters ha s (Finset.mem_range.mp hlt)]
    exact hw
  have hparked := sum_parked_le p.threads shielded
  omega

theorem alloc_waited {p : Pool Live Thread} (hp : ReaderInv p) (ha : p.shared.active = true)
    (hreaders : p.threads.countP Thread.reading < p.shared.nslots) {seg : Nat}
    (hs : seg < p.shared.nsegs) (hwaited : 0 < p.shared.waiters seg) :
    0 ≤ (allocSlotLocked p.shared seg).2 := by
  have hc := alloc_cases p.shared hs
  generalize (allocSlotLocked p.shared seg).1 = lv₁ at hc
  generalize (allocSlotLocked p.shared seg).2 = r at hc ⊢
  cases hc with
  | resident h => exact h
  | free h hk hfree => exact Int.natCast_nonneg _
  | evicted h hv hk hfull => exact Int.natCast_nonneg _
  | full h hfull hnone => exact absurd hnone (oldestSeg_waited hp ha hreaders hs hwaited h hfull)

theorem parkedOn_lt {p : Pool Live Thread} (hp : ReaderInv p) (ha : p.shared.active = true)
    {t : Thread} (ht : t ∈ p.threads) {seg : Nat} (hseg : t.parkedOn seg = true) :
    seg < p.shared.nsegs ∧ 0 < p.shared.waiters seg := by
  refine ⟨?_, hp.waiters_pos ht ha seg hseg⟩
  have hr := hp.readers t ht
  cases t with
  | seeking r need => exact beq_iff_eq.mp hseg ▸ hr.2 ha
  | waiting r need => exact beq_iff_eq.mp hseg ▸ hr.2 ha
  | _ => cases hseg

/-! Busy. -/

theorem tryWriteLoop_busy {lv : Live} (h : Session lv) (data : Bytes) (offset len n s : Nat)
    (hbusy : (tryWriteLoop data offset len n s lv).2 = -2) :
    ∃ seg, s ≤ seg ∧ seg < s + n ∧
      ∀ k < (tryWriteLoop data offset len n s lv).1.nslots,
        ∃ old < (tryWriteLoop data offset len n s lv).1.nsegs,
          (tryWriteLoop data offset len n s lv).1.slotSeg k = (old : Int) ∧
            Held (tryWriteLoop data offset len n s lv).1 seg old := by
  induction n generalizing s lv with
  | zero => cases hbusy
  | succ n ih =>
    have hst := store_cases h s data offset len
    have hw := hst.wrote
    rw [tryWriteLoop_succ] at hbusy ⊢
    generalize (storeSegLocked lv s data offset len).1 = lv' at *
    generalize (storeSegLocked lv s data offset len).2 = r at *
    by_cases h1 : r = 1
    · rw [if_pos h1] at hbusy ⊢
      obtain ⟨seg, hle, hlt, hheld⟩ := ih (hw.session h) (s + 1) hbusy
      exact ⟨seg, by omega, by omega, hheld⟩
    · rw [if_neg h1] at hbusy ⊢
      by_cases h2 : r = -1
      · rw [if_pos h2] at hbusy
        cases hbusy
      · rw [if_neg h2] at hbusy ⊢
        by_cases h3 : r = -2
        · rw [if_pos h3]
          cases hst with
          | skip => omega
          | misfit => omega
          | busy hs hseg hfull hnone =>
            exact ⟨s, Nat.le_refl s, by omega, held_of_full h.toSlotTable hfull hnone⟩
          | stored hstore => omega
        · rw [if_neg h3] at hbusy ⊢
          obtain ⟨seg, hle, hlt, hheld⟩ := ih (hw.session h) (s + 1) hbusy
          exact ⟨seg, by omega, by omega, hheld⟩

theorem tryWrite_loop {lv : Live} {offset len : Nat} (h : writeRefused lv offset len = none)
    (data : Bytes) : wsLiveTryWrite lv offset data len =
      tryWriteLoop data offset len (lastSeg offset len + 1 - firstSeg offset) (firstSeg offset) lv := by
  unfold wsLiveTryWrite
  rw [h]

theorem tryWrite_refused {lv : Live} {offset len : Nat} {r : Int}
    (h : writeRefused lv offset len = some r) (data : Bytes) :
    wsLiveTryWrite lv offset data len = (lv, r) := by
  unfold wsLiveTryWrite
  rw [h]

theorem writeRefused_some {lv : Live} {offset len : Nat} {r : Int}
    (h : writeRefused lv offset len = some r) : r = -1 ∨ len = 0 ∧ r = 0 := by
  unfold writeRefused at h
  split_ifs at h with h1 h2 h3
  · exact .inl (Option.some.inj h).symm
  · exact .inr ⟨h2, (Option.some.inj h).symm⟩
  · exact .inl (Option.some.inj h).symm

theorem tryWrite_busy {lv : Live} (h : lv.active = true → Session lv) {offset len : Nat} {data : Bytes}
    (hbusy : (wsLiveTryWrite lv offset data len).2 = -2) :
    ∃ seg, firstSeg offset ≤ seg ∧ seg ≤ lastSeg offset len ∧
      ∀ k < (wsLiveTryWrite lv offset data len).1.nslots,
        ∃ s < (wsLiveTryWrite lv offset data len).1.nsegs,
          (wsLiveTryWrite lv offset data len).1.slotSeg k = (s : Int) ∧
            Held (wsLiveTryWrite lv offset data len).1 seg s := by
  cases hr : writeRefused lv offset len with
  | some r =>
    rw [tryWrite_refused hr] at hbusy
    have hcode := writeRefused_some hr
    simp only at hbusy
    omega
  | none =>
    rw [tryWrite_loop hr] at hbusy ⊢
    have hs := h (writeRefused_none hr).1
    obtain ⟨seg, hle, hlt, hheld⟩ := tryWriteLoop_busy hs data offset len _ _ hbusy
    have hlast : seg ≤ lastSeg offset len := by
      generalize lastSeg offset len = last at hlt ⊢
      omega
    exact ⟨seg, hle, hlast, hheld⟩

/-- A write of a segment a reader waits for is stored; a write is busy only where
every slot holds a segment that no rule releases for one of the written segments. -/
theorem waited_write_lands {seekFn : Bool} {m : Nat} {p : Pool Live Thread}
    (h : live.Reach AttachDiscipline (start seekFn m) p) :
    (∀ (seg : Nat) (data : Bytes), p.shared.active = true → p.shared.aborted = false →
      p.threads.countP Thread.reading < p.shared.nslots →
      (∃ t ∈ p.threads, t.parkedOn seg = true) →
        (wsLiveTryWrite p.shared (seg * SEG) data (segLenLocked p.shared seg)).2 = 0 ∧
        (wsLiveTryWrite p.shared (seg * SEG) data (segLenLocked p.shared seg)).1.present seg = true) ∧
    (∀ (offset : Nat) (data : Bytes) (len : Nat), (wsLiveTryWrite p.shared offset data len).2 = -2 →
      ∃ seg, firstSeg offset ≤ seg ∧ seg ≤ lastSeg offset len ∧
        ∀ k < (wsLiveTryWrite p.shared offset data len).1.nslots,
          ∃ s < (wsLiveTryWrite p.shared offset data len).1.nsegs,
            (wsLiveTryWrite p.shared offset data len).1.slotSeg k = (s : Int) ∧
              Held (wsLiveTryWrite p.shared offset data len).1 seg s) := by
  have hp := readerInv_reach h
  constructor
  · rintro seg data ha hab hreaders ⟨t, ht, hseg⟩
    obtain ⟨hlt, hw⟩ := parkedOn_lt hp ha ht hseg
    have hslot := alloc_waited hp ha hreaders hlt hw
    rw [tryWrite_whole (hp.session ha) ha hab hlt, if_neg (by omega)]
    exact ⟨rfl, by simp [fillSlot]⟩
  · exact fun offset data len hbusy => tryWrite_busy hp.session hbusy

/-- Four of six segments fill the ring: the fifth is busy until a reader waits for the sixth. -/
theorem waited_write_lands_full :
    (∃ p, live.Reach AttachDiscipline (start true 2) p ∧
      (wsLiveTryWrite p.shared (4 * SEG) (fun _ => 8) SEG).2 = -2 ∧
      ∀ k < 4, ∃ s : Nat, (wsLiveTryWrite p.shared (4 * SEG) (fun _ => 8) SEG).1.slotSeg k = (s : Int)) ∧
    (∃ p, live.Reach AttachDiscipline (start true 2) p ∧
      (wsLiveTryWrite p.shared (5 * SEG) (fun _ => 8) (segLenLocked p.shared 5)).2 = 0) := by
  constructor
  · have hv : ((live.exec AttachDiscipline [(0, .create sixSegments),
        (0, .tryWrite 0 (fun _ => 7) (4 * SEG))] (start true 2)).map fun p =>
          ((wsLiveTryWrite p.shared (4 * SEG) (fun _ => 8) SEG).2,
            (wsLiveTryWrite p.shared (4 * SEG) (fun _ => 8) SEG).1.nslots)) = some (-2, 4) := by
      decide
    obtain ⟨p, hp, hv⟩ := Option.map_eq_some_iff.mp hv
    obtain ⟨hbusy, hn⟩ := Prod.mk.inj hv
    have hr : live.Reach AttachDiscipline (start true 2) p := .of_exec hp
    obtain ⟨seg, _, _, hheld⟩ := (waited_write_lands hr).2 (4 * SEG) (fun _ => 8) SEG hbusy
    refine ⟨p, hr, hbusy, fun k hk => ?_⟩
    rw [hn] at hheld
    obtain ⟨s, _, hs, _⟩ := hheld k hk
    exact ⟨s, hs⟩
  · have hv : ((live.exec AttachDiscipline [(0, .create sixSegments),
        (0, .tryWrite 0 (fun _ => 7) (4 * SEG)), (1, .attach),
        (1, .read (5 * SEG) (fun _ => 0) 16 3000)] (start true 2)).map fun p =>
          (p.shared.active, p.shared.aborted, decide (p.threads.countP Thread.reading < p.shared.nslots),
            p.threads.any (Thread.parkedOn 5))) = some (true, false, true, true) := by
      decide
    obtain ⟨p, hp, hv⟩ := Option.map_eq_some_iff.mp hv
    simp only [Prod.mk.injEq, decide_eq_true_eq, List.any_eq_true] at hv
    obtain ⟨ha, hab, hreaders, hparked⟩ := hv
    have hr : live.Reach AttachDiscipline (start true 2) p := .of_exec hp
    exact ⟨p, hr, ((waited_write_lands hr).1 5 _ ha hab hreaders hparked).1⟩

end PkgManager.LiveWaited
