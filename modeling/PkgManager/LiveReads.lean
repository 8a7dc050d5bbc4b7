import PkgManager.LiveSlots

namespace PkgManager.LiveReads

open Memory LiveSession LiveCalls LiveSlots

/-- The cached byte at a file position. -/
def cell (lv : Live) (pos : Nat) : UInt8 := lv.slots (lv.slotOf (pos / SEG)).toNat (pos % SEG)

/-- A read call inside the package that has not copied anything yet. -/
structure Reading (lv : Live) (r : ReadCall) : Prop where
  start : r.off = r.readStart
  got : r.got = 0
  count_pos : 0 < r.count
  count_eq : r.count = min r.asked (lv.total - r.readStart)
  inside : r.readStart < lv.total
  stop : r.servedEnd = r.readStart + r.count

theorem Reading.stop_le {lv : Live} {r : ReadCall} (h : Reading lv r) :
    r.readStart + r.count ≤ lv.total := by
  have hc := h.count_eq
  have hi := h.inside
  omega

/-- Every position up to `stop` lies in a resident segment. -/
def Resident (lv : Live) (start stop : Nat) : Prop :=
  ∀ pos, start ≤ pos → pos < stop → lv.present (pos / SEG) = true

theorem div_eq_of_seg {s pos : Nat} (h : s * SEG ≤ pos) (h' : pos < (s + 1) * SEG) :
    pos / SEG = s := by
  unfold SEG at *
  omega

theorem seg_lt {lv : Live} (h : Session lv) (pos : Nat) (hp : pos < lv.total) :
    pos / SEG < lv.nsegs := by
  have hc := h.covers
  unfold SEG at *
  omega

theorem seg_start_lt {lv : Live} (h : Session lv) {seg : Nat} (hs : seg < lv.nsegs) :
    seg * SEG < lv.total := by
  have htight := h.tight
  have hmul := Nat.mul_le_mul_right SEG (Nat.succ_le_of_lt hs)
  rw [Nat.succ_mul] at hmul
  omega

theorem segLen_bounds {lv : Live} (h : Session lv) {seg : Nat} (hs : seg < lv.nsegs) :
    0 < segLenLocked lv seg ∧ segLenLocked lv seg ≤ SEG ∧ seg * SEG + segLenLocked lv seg ≤ lv.total := by
  have hlt := seg_start_lt h hs
  have hseg : 0 < SEG := by decide
  simp only [segLenLocked, if_neg (Nat.not_le.mpr hlt)]
  split_ifs <;> omega

/-- Positions in the package do not wrap. -/
theorem u64_total {lv : Live} (h : Session lv) {n : Nat} (hn : n ≤ lv.total) : u64 n = n := by
  have hle := h.total_le
  unfold maxTotal at hle
  exact u64_of_lt (by omega)

/-- The segment behind an offset and where it ends. -/
theorem seg_bounds (pos : Nat) : pos / SEG * SEG ≤ pos ∧ pos < (pos / SEG + 1) * SEG := by
  unfold SEG
  omega

theorem firstMissing_cases {lv : Live} (h : Session lv) {stop : Nat} (hstop : stop ≤ lv.total)
    (n o : Nat) (hn : stop - o ≤ n) :
    (firstMissing lv stop n o = stop ∧ Resident lv o stop) ∨
      (o ≤ firstMissing lv stop n o ∧ firstMissing lv stop n o < stop ∧
        lv.present (firstMissing lv stop n o / SEG) = false) := by
  induction n generalizing o with
  | zero => exact .inl ⟨rfl, fun pos h1 h2 => by omega⟩
  | succ n ih =>
    by_cases ho : o < stop
    · have hs := seg_lt h o (by omega)
      obtain ⟨hlo, hhi⟩ := seg_bounds o
      by_cases hp : lv.present (o / SEG) = true
      · generalize hend : (if lv.total < (o / SEG + 1) * SEG then lv.total
          else (o / SEG + 1) * SEG) = sEnd
        have hgt : o < sEnd := by split at hend <;> omega
        have hle : sEnd ≤ (o / SEG + 1) * SEG := by split at hend <;> omega
        have hstep : firstMissing lv stop (n + 1) o = firstMissing lv stop n sEnd := by
          simp only [firstMissing]
          rw [if_pos ho, if_neg (by simp [hp]; omega), hend, if_pos hgt]
        have hres : ∀ pos, o ≤ pos → pos < sEnd → lv.present (pos / SEG) = true := by
          intro pos h1 h2
          rwa [div_eq_of_seg (s := o / SEG) (by omega) (by omega)]
        rw [hstep]
        obtain ⟨he, hr⟩ | ⟨h1, h2, h3⟩ := ih sEnd (by omega)
        · refine .inl ⟨he, fun pos h1 h2 => ?_⟩
          by_cases hlt : pos < sEnd
          · exact hres pos h1 hlt
          · exact hr pos (by omega) h2
        · exact .inr ⟨by omega, h2, h3⟩
      · have hstep : firstMissing lv stop (n + 1) o = o := by
          simp only [firstMissing]
          rw [if_pos ho, if_pos (by simp [hp])]
        rw [hstep]
        exact .inr ⟨Nat.le_refl o, ho, by simpa using hp⟩
    · have hstep : firstMissing lv stop (n + 1) o = stop := by
        simp only [firstMissing]
        rw [if_neg ho]
      rw [hstep]
      exact .inl ⟨rfl, fun pos h1 h2 => by omega⟩

/-! Copying. -/

/-- The state without what a copy may change. -/
def copyFrame (lv : Live) : Live :=
  { lv with lastUse := fun _ => 0, slotRead := fun _ => false, tick := 0, served := 0 }

/-- The copy loop filled the whole buffer. -/
structure Copied (lv : Live) (r : ReadCall) (lv' : Live) (r' : ReadCall) : Prop where
  frame_eq : copyFrame lv' = copyFrame lv
  got : r'.got = r.count
  count : r'.count = r.count
  asked : r'.asked = r.asked
  readStart : r'.readStart = r.readStart
  servedEnd : r'.servedEnd = r.servedEnd
  bytes : ∀ k < r.count, r'.dst k = cell lv (r.readStart + k)

theorem cell_frame {lv lv' : Live} (h : copyFrame lv' = copyFrame lv) (pos : Nat) :
    cell lv' pos = cell lv pos := by
  have h1 : lv'.slots = lv.slots := by
    have hf := congrArg Live.slots h
    exact hf
  have h2 : lv'.slotOf = lv.slotOf := by
    have hf := congrArg Live.slotOf h
    exact hf
  simp [cell, h1, h2]

/-- One turn of the copy loop takes the rest of the segment or of the request. -/
theorem copyLoop_turn {lv : Live} (h : Session lv) {r : ReadCall} (n : Nat)
    (hstop : r.readStart + r.count ≤ lv.total) (hoff : r.off = r.readStart + r.got)
    (hlt : r.got < r.count) (hres : lv.present (r.off / SEG) = true)
    (hlow : ∀ k < r.got, r.dst k = cell lv (r.readStart + k)) :
    ∃ lv' r', copyLoop (n + 1) lv r = copyLoop n lv' r' ∧ copyFrame lv' = copyFrame lv ∧
      r'.asked = r.asked ∧ r'.readStart = r.readStart ∧ r'.servedEnd = r.servedEnd ∧
      r'.count = r.count ∧ r'.off = r.readStart + r'.got ∧ r.got < r'.got ∧ r'.got ≤ r.count ∧
      ∀ k < r'.got, r'.dst k = cell lv (r.readStart + k) := by
  have hs := seg_lt h r.off (by omega)
  obtain ⟨hlo, hhi⟩ := seg_bounds r.off
  have hslot : 0 ≤ lv.slotOf (r.off / SEG) := (h.present_iff _ hs).mp hres
  generalize hso : r.off - r.off / SEG * SEG = so
  have hso' : so < SEG := by unfold SEG at *; omega
  have hleft : so + (lv.total - r.off) ≤ segLenLocked lv (r.off / SEG) ∨
      segLenLocked lv (r.off / SEG) = SEG := by
    simp only [segLenLocked]
    split
    · omega
    · split <;> omega
  generalize hm₀ : (if r.count - r.got < SEG - so then r.count - r.got else SEG - so) = m₀
  generalize hm : (if segLenLocked lv (r.off / SEG) < so + m₀ then
    segLenLocked lv (r.off / SEG) - so else m₀) = m
  have hm0 : 0 < m ∧ m ≤ r.count - r.got ∧ so + m ≤ SEG := by
    split at hm₀ <;> split at hm <;> omega
  have hstep := copyLoop.eq_2 lv r n
  simp only [if_pos hlt, if_pos hs, hso, hm₀, hm] at hstep
  rw [if_neg (by omega), if_neg (by omega)] at hstep
  refine ⟨_, _, hstep, rfl, rfl, rfl, rfl, rfl, ?_, ?_, ?_, ?_⟩
  · simp only
    omega
  · simp only
    omega
  · simp only
    omega
  · refine blit_prefix (fun k b => b = cell lv (r.readStart + k)) hlow ?_
    intro j hj
    have hdiv : (r.readStart + (r.got + j)) / SEG = r.off / SEG :=
      div_eq_of_seg (by omega) (by unfold SEG at *; omega)
    have hmod : (r.readStart + (r.got + j)) % SEG = so + j := by
      unfold SEG at *
      omega
    simp [cell, hdiv, hmod]

theorem copyLoop_copied {lv : Live} (h : Session lv) {r : ReadCall} (n : Nat)
    (hstop : r.readStart + r.count ≤ lv.total) (hoff : r.off = r.readStart + r.got)
    (hle : r.got ≤ r.count) (hn : r.count - r.got ≤ n)
    (hres : Resident lv r.off (r.readStart + r.count))
    (hlow : ∀ k < r.got, r.dst k = cell lv (r.readStart + k)) :
    Copied lv r (copyLoop n lv r).1 (copyLoop n lv r).2 := by
  induction n generalizing lv r with
  | zero =>
    have hgot : r.got = r.count := by omega
    exact ⟨rfl, hgot, rfl, rfl, rfl, rfl, hgot ▸ hlow⟩
  | succ n ih =>
    by_cases hlt : r.got < r.count
    · obtain ⟨lv', r', hstep, hf, ha, hs, he, hc, hoff', hgt, hle', hlow'⟩ :=
        copyLoop_turn h n hstop hoff hlt (hres _ (Nat.le_refl _) (by omega)) hlow
      have htab : tableOf lv' = tableOf lv := by
        have ht := congrArg tableOf hf
        exact ht
      have htotal : lv'.total = lv.total := by
        have ht := congrArg Live.total hf
        exact ht
      have hpres : lv'.present = lv.present := by
        have ht := congrArg Live.present hf
        exact ht
      have hrest := ih (h.congr htab) (r := r') (by omega) (hs ▸ hoff') (hc ▸ hle') (by omega)
        (fun pos h1 h2 => by rw [hpres]; exact hres pos (by omega) (by omega))
        (fun k hk => by rw [hs, cell_frame hf]; exact hlow' k hk)
      rw [hstep]
      exact ⟨hrest.frame_eq.trans hf, hrest.got.trans hc, hrest.count.trans hc,
        hrest.asked.trans ha, hrest.readStart.trans hs, hrest.servedEnd.trans he,
        fun k hk => by rw [hrest.bytes k (hc ▸ hk), cell_frame hf, hs]⟩
    · have hgot : r.got = r.count := by omega
      have hstop' : copyLoop (n + 1) lv r = (lv, r) := by
        rw [copyLoop]
        exact if_neg hlt
      rw [hstop']
      exact ⟨rfl, hgot, rfl, rfl, rfl, rfl, hgot ▸ hlow⟩

/-! One turn of a read. -/

/-- The state without what parking may change. -/
def parkFrame (lv : Live) : Live :=
  { lv with waiters := fun _ => 0, peakSeg := 0, seekSent := fun _ => 0 }

/-- The reader recorded the missing segment `need` and now waits for it. -/
structure Parked (lv : Live) (r : ReadCall) (lv' : Live) (need : Nat) : Prop where
  lt : need < lv.nsegs
  missing : lv.present need = false
  above : r.readStart < (need + 1) * SEG
  below : need * SEG < r.readStart + r.count
  frame_eq : parkFrame lv' = parkFrame lv
  waiters : lv'.waiters = Function.update lv.waiters need (lv.waiters need + 1)
  peakSeg : lv'.peakSeg = max lv.peakSeg need

/-- The ways a turn of the loop of `ws_live_read` ends. -/
inductive ReadStep (lv : Live) (r : ReadCall) : Live → ReadTurn → Prop
  | aborted (h : lv.aborted = true) : ReadStep lv r lv (.ret r (-1))
  | served {lv' : Live} {r' : ReadCall} (ha : lv.aborted = false) (h : Copied lv r lv' r')
      (hres : Resident lv r.readStart (r.readStart + r.count)) :
      ReadStep lv r (deliver lv' r') (.ret r' r.count)
  | seek {lv' : Live} {need : Nat} (h : Parked lv r lv' need) : ReadStep lv r lv' (.seek r need)
  | wait {lv' : Live} {need : Nat} (h : Parked lv r lv' need) : ReadStep lv r lv' (.wait r need)

theorem park_parked {lv : Live} {r : ReadCall} {need : Nat} (hlt : need < lv.nsegs)
    (hm : lv.present need = false) (ha : r.readStart < (need + 1) * SEG)
    (hb : need * SEG < r.readStart + r.count) : Parked lv r (park lv need) need := by
  unfold park
  by_cases hp : lv.peakSeg < need
  · simp only [if_pos (And.intro hp hlt), if_pos hlt]
    exact ⟨hlt, hm, ha, hb, rfl, rfl, (Nat.max_eq_right (Nat.le_of_lt hp)).symm⟩
  · simp only [if_neg (fun h : lv.peakSeg < need ∧ need < lv.nsegs => hp h.1), if_pos hlt]
    exact ⟨hlt, hm, ha, hb, rfl, rfl, (Nat.max_eq_left (Nat.le_of_not_lt hp)).symm⟩

theorem emitSeek_parked {lv lv' : Live} {r : ReadCall} {need : Nat} (now : Nat)
    (h : Parked lv r lv' need) : Parked lv r (emitSeekLocked lv' need now).1 need := by
  unfold emitSeekLocked
  split
  · exact ⟨h.lt, h.missing, h.above, h.below, h.frame_eq, h.waiters, h.peakSeg⟩
  · exact h

theorem readTurn_cases {lv : Live} (h : lv.aborted = false → Session lv) {r : ReadCall}
    (hr : lv.aborted = false → Reading lv r) (now : Nat) :
    ReadStep lv r (readTurn lv r now).1 (readTurn lv r now).2 := by
  unfold readTurn
  cases hab : lv.aborted with
  | true => exact .aborted hab
  | false =>
    have hs := h hab
    have hr := hr hab
    have hle := hr.stop_le
    have hstop : r.off + (r.count - r.got) = r.readStart + r.count := by
      rw [hr.start, hr.got, Nat.sub_zero]
    have hc : r.count - r.got = r.count := by rw [hr.got, Nat.sub_zero]
    simp only [Bool.false_eq_true, ↓reduceIte, hstop]
    obtain ⟨hm, hres⟩ | ⟨hlo, hhi, hm⟩ :=
      firstMissing_cases hs hle (r.readStart + r.count - r.off) r.off (Nat.le_refl _)
    · rw [if_pos (Nat.le_of_eq hm.symm), hc]
      have hcopy := copyLoop_copied hs (r := r) r.count hle (by rw [hr.start, hr.got]; rfl)
        (by rw [hr.got]; omega) (by omega) hres (fun k hk => by rw [hr.got] at hk; omega)
      cases hst : copyLoop r.count lv r with
      | mk lv' r' =>
        rw [hst] at hcopy
        have hgot : r'.got = r.count := hcopy.got
        have hcount : r'.count = r.count := hcopy.count
        simp only
        rw [if_pos (by omega), hgot]
        exact .served hab hcopy (hr.start ▸ hres)
    · rw [if_neg (by omega)]
      generalize firstMissing lv (r.readStart + r.count) (r.readStart + r.count - r.off) r.off =
        miss at hlo hhi hm
      have hlt : miss / SEG < lv.nsegs := seg_lt hs miss (by omega)
      obtain ⟨h1, h2⟩ := seg_bounds miss
      have hstart := hr.start
      have hp := park_parked (r := r) hlt hm (by omega) (by omega)
      by_cases h0 : 0 < miss / SEG
      · rw [if_pos h0]
        have he := emitSeek_parked now hp
        cases hem : emitSeekLocked (park lv (miss / SEG)) (miss / SEG) now with
        | mk lv'' fn =>
          rw [hem] at he
          cases fn with
          | true => exact .seek he
          | false => exact .wait he
      · rw [if_neg h0]
        exact .wait hp

end PkgManager.LiveReads
