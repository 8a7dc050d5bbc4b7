import Mathlib.Data.List.Basic
import Mathlib.Tactic.IntervalCases

/-! Percent coding of bytes: those that `keep` holds of stand for themselves. -/

namespace PkgManager.PercentCode

variable {keep : UInt8 → Bool}

def upperHex (n : Nat) : UInt8 := if n < 10 then UInt8.ofNat (48 + n) else UInt8.ofNat (55 + n)

def hexValue (b : UInt8) : Option Nat :=
  if 48 ≤ b ∧ b ≤ 57 then some (b.toNat - 48)
  else if 65 ≤ b ∧ b ≤ 70 then some (b.toNat - 55)
  else if 97 ≤ b ∧ b ≤ 102 then some (b.toNat - 87)
  else none

def encodeByte (keep : UInt8 → Bool) (b : UInt8) : List UInt8 :=
  if keep b then [b] else [37, upperHex (b.toNat / 16), upperHex (b.toNat % 16)]

def encode (keep : UInt8 → Bool) (bytes : List UInt8) : List UInt8 := bytes.flatMap (encodeByte keep)

/-- None where a percent sign is not followed by two hexadecimal digits. -/
def decode : List UInt8 → Option (List UInt8)
  | [] => some []
  | 37 :: high :: low :: t =>
    (hexValue high).bind fun h => (hexValue low).bind fun l =>
      (decode t).map (UInt8.ofNat (16 * h + l) :: ·)
  | b :: t => if b = 37 then none else (decode t).map (b :: ·)

theorem hexValue_upperHex {n : Nat} (h : n < 16) : hexValue (upperHex n) = some n := by
  interval_cases n <;> rfl

theorem decode_plain {b : UInt8} (hb : b ≠ 37) (t : List UInt8) :
    decode (b :: t) = (decode t).map (b :: ·) := by
  rw [decode.eq_3, if_neg hb]
  intro high low u h
  exact absurd h hb

theorem decode_percent (b : UInt8) (t : List UInt8) :
    decode (37 :: upperHex (b.toNat / 16) :: upperHex (b.toNat % 16) :: t) =
      (decode t).map (b :: ·) := by
  have hb := b.toNat_lt
  have hvalue : 16 * (b.toNat / 16) + b.toNat % 16 = b.toNat := by omega
  rw [decode.eq_2, hexValue_upperHex (by omega), hexValue_upperHex (by omega)]
  simp only [Option.bind_some, hvalue, UInt8.ofNat_toNat]

theorem decode_encodeByte (hkeep : keep 37 = false) (b : UInt8) (t : List UInt8) :
    decode (encodeByte keep b ++ t) = (decode t).map (b :: ·) := by
  by_cases hb : keep b = true
  · have hne : b ≠ 37 := by
      intro h
      simp [h, hkeep] at hb
    simpa only [encodeByte, if_pos hb, List.singleton_append] using decode_plain hne t
  · simpa only [encodeByte, if_neg hb, List.cons_append, List.nil_append] using decode_percent b t

theorem decode_encode (hkeep : keep 37 = false) (bytes : List UInt8) :
    decode (encode keep bytes) = some bytes := by
  induction bytes with
  | nil => rfl
  | cons b bytes ih =>
    have h := decode_encodeByte hkeep b (encode keep bytes)
    rwa [ih, Option.map_some] at h

/-- What an encoded text is made of. -/
theorem forall_encode {P : UInt8 → Prop} (hkeep : ∀ b, keep b = true → P b) (hpercent : P 37)
    (hhex : ∀ n < 16, P (upperHex n)) (bytes : List UInt8) : ∀ b ∈ encode keep bytes, P b := by
  intro b hb
  obtain ⟨c, -, hc⟩ := List.mem_flatMap.mp hb
  by_cases h : keep c = true
  · rw [encodeByte, if_pos h, List.mem_singleton] at hc
    rw [hc]
    exact hkeep c h
  · have hlt := c.toNat_lt
    rw [encodeByte, if_neg h] at hc
    simp only [List.mem_cons, List.not_mem_nil, or_false] at hc
    rcases hc with rfl | rfl | rfl
    · exact hpercent
    · exact hhex _ (by omega)
    · exact hhex _ (by omega)

end PkgManager.PercentCode
