import Mathlib

namespace PkgManager.ConditionVariable

/-- A condition variable. A thread waits under a ticket; it stays blocked as long as
its ticket is in the list. -/
structure Cond where
  next : Nat
  blocked : List Nat

namespace Cond

def init : Cond := ⟨0, []⟩

/-- The next thread that waits has the ticket `next`. -/
def wait (c : Cond) : Cond := ⟨c.next + 1, c.next :: c.blocked⟩

/-- A signal wakes one thread that waits, here the one with ticket `k`, and no one
where no thread waits. -/
def signal (c : Cond) (k : Nat) : Option Cond :=
  if c.blocked = [] then some c
  else if k ∈ c.blocked then some { c with blocked := c.blocked.erase k }
  else none

/-- A thread may also wake without a signal. -/
def spurious (c : Cond) (k : Nat) : Option Cond :=
  if k ∈ c.blocked then some { c with blocked := c.blocked.erase k } else none

variable {c c' : Cond} {k : Nat}

/-- A signal leaves no one behind where at most one thread waits. -/
theorem signal_last (h : c.signal k = some c') (hone : c.blocked.length ≤ 1) : c'.blocked = [] := by
  unfold signal at h
  split at h
  · cases h
    assumption
  · split at h <;> cases h
    rename_i hmem
    have hlen := List.length_erase_of_mem hmem
    exact List.length_eq_zero_iff.mp (by simp only; omega)

theorem spurious_some (h : c.spurious k = some c') : c'.blocked = c.blocked.erase k := by
  unfold spurious at h
  split at h <;> cases h
  rfl

end Cond

end PkgManager.ConditionVariable
