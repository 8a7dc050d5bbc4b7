import Mathlib

namespace PkgManager.Records

/-- The `w` little-endian bytes of a number. -/
def leBytes : Nat → Nat → List UInt8
  | 0, _ => []
  | w + 1, n => UInt8.ofNat n :: leBytes w (n / 256)

def leValue : List UInt8 → Nat
  | [] => 0
  | b :: bs => b.toNat + 256 * leValue bs

/-- Cut a record into fields of the given widths. -/
def unpack : List Nat → List UInt8 → List (List UInt8)
  | [], _ => []
  | w :: ws, bs => bs.take w :: unpack ws (bs.drop w)

theorem length_leBytes (w n : Nat) : (leBytes w n).length = w := by
  induction w generalizing n with
  | zero => rfl
  | succ w ih => simp [leBytes, ih]

theorem leValue_leBytes (w n : Nat) : leValue (leBytes w n) = n % 256 ^ w := by
  induction w generalizing n with
  | zero => simp [leBytes, leValue, Nat.mod_one]
  | succ w ih =>
    have hb : (UInt8.ofNat n).toNat = n % 256 := UInt8.toNat_ofNat'
    rw [leBytes, leValue, ih, hb, Nat.pow_succ', Nat.mod_mul]

theorem leValue_leBytes_of_lt {w n : Nat} (h : n < 256 ^ w) : leValue (leBytes w n) = n := by
  rw [leValue_leBytes, Nat.mod_eq_of_lt h]

/-- Fields laid out one after the other are read back one by one. -/
theorem unpack_flatten (fs : List (List UInt8)) (rest : List UInt8) :
    unpack (fs.map List.length) (fs.flatten ++ rest) = fs := by
  induction fs with
  | nil => rfl
  | cons f fs ih =>
    simp only [List.map_cons, List.flatten_cons, List.append_assoc, unpack]
    rw [List.take_left, List.drop_left, ih]

theorem length_unpack {ws : List Nat} {bs : List UInt8} (h : ws.sum ≤ bs.length) :
    (unpack ws bs).map List.length = ws := by
  induction ws generalizing bs with
  | nil => rfl
  | cons w ws ih =>
    rw [List.sum_cons] at h
    rw [unpack, List.map_cons, List.length_take, Nat.min_eq_left (by omega),
      ih (by rw [List.length_drop]; omega)]

theorem leValue_lt (bs : List UInt8) : leValue bs < 256 ^ bs.length := by
  induction bs with
  | nil => exact Nat.one_pos
  | cons b bs ih =>
    have hb := b.toNat_lt
    rw [leValue, List.length_cons, Nat.pow_succ']
    omega

end PkgManager.Records
