import Mathlib

namespace PkgManager.RingBuffer

open Function

variable {α : Type}

/-- The `n` entries of a ring from `head` on, oldest first. -/
def window (slots : Nat → α) (depth head n : Nat) : List α :=
  (List.range n).map fun k => slots ((head + k) % depth)

variable (slots : Nat → α) {depth : Nat} (head : Nat) {i j n : Nat}

theorem index_inj (hi : i < depth) (hj : j < depth)
    (h : (head + i) % depth = (head + j) % depth) : i = j := by
  have hmod := Nat.ModEq.add_left_cancel' head h
  rwa [Nat.ModEq, Nat.mod_eq_of_lt hi, Nat.mod_eq_of_lt hj] at hmod

theorem length_window : (window slots depth head n).length = n := by simp [window]

theorem getElem?_window (hi : i < n) :
    (window slots depth head n)[i]? = some (slots ((head + i) % depth)) := by
  simp [window, hi]

theorem window_pop : window slots depth head (n + 1) =
    slots (head % depth) :: window slots depth (head + 1) n := by
  unfold window
  rw [List.range_succ_eq_map, List.map_cons, List.map_map]
  congr 1
  apply List.map_congr_left
  intro k _
  show slots ((head + (k + 1)) % depth) = slots ((head + 1 + k) % depth)
  congr 2
  omega

/-- The entry behind the window is free. -/
theorem window_behind (hn : n < depth) (x : α) :
    window (update slots ((head + n) % depth) x) depth head n = window slots depth head n := by
  apply List.map_congr_left
  intro k hk
  have hk := List.mem_range.mp hk
  apply update_of_ne
  intro he
  have h := index_inj head (by omega) hn he
  omega

theorem window_push (hn : n < depth) (x : α) :
    window (update slots ((head + n) % depth) x) depth head (n + 1) =
      window slots depth head n ++ [x] := by
  rw [← window_behind slots head hn x]
  simp [window, List.range_succ]

theorem window_set (hi : i < n) (hn : n ≤ depth) (x : α) :
    window (update slots ((head + i) % depth) x) depth head n =
      (window slots depth head n).set i x := by
  apply List.ext_getElem?
  intro k
  by_cases hk : k < n
  · rw [getElem?_window _ _ hk, List.getElem?_set]
    by_cases he : i = k
    · subst he
      simp [length_window, hk]
    · rw [if_neg he, getElem?_window _ _ hk, update_of_ne]
      intro h
      exact he (index_inj head (by omega) (by omega) h).symm
  · rw [List.getElem?_eq_none, List.getElem?_eq_none] <;> simp [length_window] <;> omega

/-! A ring that is written over: entry `k` of all that was written stands in slot `k % depth`. -/

variable {slots} {l : List α}

def Holds (slots : Nat → α) (depth : Nat) (l : List α) : Prop :=
  ∀ k x, l[k]? = some x → l.length ≤ k + depth → slots (k % depth) = x

theorem holds_nil : Holds slots depth ([] : List α) := by
  intro k x hk
  cases hk

theorem Holds.push (h : Holds slots depth l) (x : α) :
    Holds (update slots (l.length % depth) x) depth (l ++ [x]) := by
  intro k y hk hlast
  rw [List.length_append, List.length_singleton] at hlast
  by_cases heq : k = l.length
  · subst heq
    rw [List.getElem?_append_right (Nat.le_refl _), Nat.sub_self] at hk
    rw [update_self]
    exact Option.some.inj hk
  · have hlt : k < l.length := by
      have hbound := (List.getElem?_eq_some_iff.mp hk).1
      rw [List.length_append, List.length_singleton] at hbound
      omega
    rw [List.getElem?_append_left hlt] at hk
    rw [update_of_ne]
    · exact h k y hk (by omega)
    · intro hmod
      have hturn : (k + 0) % depth = (k + (l.length - k)) % depth := by
        rw [Nat.add_zero, hmod, Nat.add_sub_cancel' hlt.le]
      have hsame := index_inj k (by omega) (by omega) hturn
      omega

/-- The last `n` entries, from the slot of the oldest of them on. -/
theorem Holds.window (h : Holds slots depth l) (hn : n ≤ l.length) (hdepth : n ≤ depth) {start : Nat}
    (hstart : start % depth = (l.length - n) % depth) :
    window slots depth start n = l.drop (l.length - n) := by
  apply List.ext_getElem?
  intro k
  by_cases hk : k < n
  · have hlt : l.length - n + k < l.length := by omega
    rw [getElem?_window _ _ hk, List.getElem?_drop, List.getElem?_eq_getElem hlt]
    have hslot := h (l.length - n + k) _ (List.getElem?_eq_getElem hlt) (by omega)
    rw [← hslot, Nat.add_mod start, hstart, ← Nat.add_mod]
  · rw [List.getElem?_eq_none, List.getElem?_eq_none]
    · rw [List.length_drop]
      omega
    · rw [length_window]
      omega

end PkgManager.RingBuffer
