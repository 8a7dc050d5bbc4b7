import Mathlib

namespace PkgManager.Memory

/-- A buffer read by index. -/
abbrev Bytes := Nat → UInt8

/-- Copy `len` bytes of `src` from `start` on to `dst` at `pos`. -/
def blit (dst : Bytes) (pos : Nat) (src : Bytes) (start len : Nat) : Bytes := fun k =>
  if pos ≤ k ∧ k < pos + len then src (start + (k - pos)) else dst k

variable {dst src : Bytes} {pos start len k : Nat}

theorem blit_inside (h : pos ≤ k) (h' : k < pos + len) :
    blit dst pos src start len k = src (start + (k - pos)) := if_pos ⟨h, h'⟩

theorem blit_outside (h : k < pos ∨ pos + len ≤ k) : blit dst pos src start len k = dst k :=
  if_neg (by omega)

/-- A copy at `pos` extends a filled prefix of length `pos` by `len`. -/
theorem blit_prefix (P : Nat → UInt8 → Prop) (hlow : ∀ k < pos, P k (dst k))
    (hnew : ∀ j < len, P (pos + j) (src (start + j))) :
    ∀ k < pos + len, P k (blit dst pos src start len k) := by
  intro k hk
  by_cases hp : pos ≤ k
  · have h := hnew (k - pos) (by omega)
    rw [show pos + (k - pos) = k by omega] at h
    rwa [blit_inside hp hk]
  · rw [blit_outside (.inl (by omega))]
    exact hlow k (by omega)

/-- Unsigned 64-bit addition and subtraction wrap. -/
def u64 (n : Nat) : Nat := n % 2 ^ 64

def u64Sub (a b : Nat) : Nat := (a + 2 ^ 64 - b) % 2 ^ 64

theorem u64_of_lt {n : Nat} (h : n < 2 ^ 64) : u64 n = n := Nat.mod_eq_of_lt h

theorem u64_lt (n : Nat) : u64 n < 2 ^ 64 := Nat.mod_lt _ (by decide)

theorem u64Sub_of_le {a b : Nat} (h : b ≤ a) (ha : a < 2 ^ 64) : u64Sub a b = a - b := by
  unfold u64Sub
  omega

end PkgManager.Memory
