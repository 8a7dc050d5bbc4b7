import Mathlib

namespace PkgManager.BlockBuffer

/-! Data that goes piece by piece into a buffer, which is worked off whenever it is full. -/

variable {σ α : Type}

/-- One element into the buffer of a value. -/
def absorb (n : Nat) (f : σ → List α → σ) (p : σ × List α) (x : α) : σ × List α :=
  if p.2.length + 1 = n then (f p.1 (p.2 ++ [x]), []) else (p.1, p.2 ++ [x])

/-- The blocks of the data worked off in order. -/
def blocks (n : Nat) (f : σ → List α → σ) (s : σ) (xs : List α) : σ :=
  (List.range (xs.length / n)).foldl (fun s i => f s ((xs.drop (n * i)).take n)) s

section

variable {n : Nat} {f : σ → List α → σ}

theorem absorb_room {xs rest : List α} (s : σ) (h : rest.length + xs.length < n) :
    xs.foldl (absorb n f) (s, rest) = (s, rest ++ xs) := by
  induction xs generalizing rest with
  | nil => simp
  | cons x xs ih =>
    rw [List.length_cons] at h
    have hnot : ¬rest.length + 1 = n := by omega
    have hrest : (rest ++ [x]).length + xs.length < n := by
      rw [List.length_append, List.length_singleton]
      omega
    rw [List.foldl_cons, absorb, if_neg hnot, ih hrest, List.append_assoc, List.singleton_append]

theorem absorb_full {xs rest : List α} (s : σ) (hne : xs ≠ []) (h : rest.length + xs.length = n) :
    xs.foldl (absorb n f) (s, rest) = (f s (rest ++ xs), []) := by
  obtain ⟨front, x, rfl⟩ := List.eq_nil_or_concat xs |>.resolve_left hne
  rw [List.concat_eq_append] at h ⊢
  rw [List.length_append, List.length_singleton] at h
  have hfull : (rest ++ front).length + 1 = n := by
    rw [List.length_append]
    omega
  rw [List.foldl_append, absorb_room s (by omega), List.foldl_cons, List.foldl_nil, absorb,
    if_pos hfull, List.append_assoc]

/-- How full the buffer is. -/
theorem length_absorb {p : σ × List α} (h : p.2.length < n) (xs : List α) :
    (xs.foldl (absorb n f) p).2.length = (p.2.length + xs.length) % n := by
  induction xs generalizing p with
  | nil => exact (Nat.mod_eq_of_lt h).symm
  | cons x xs ih =>
    rw [List.foldl_cons, List.length_cons]
    by_cases hfull : p.2.length + 1 = n
    · have hstep : absorb n f p x = (f p.1 (p.2 ++ [x]), []) := if_pos hfull
      have hsum : p.2.length + (xs.length + 1) = xs.length + n := by omega
      have hempty : ([] : List α).length < n := by
        rw [List.length_nil]
        omega
      rw [hstep, ih hempty, hsum, Nat.add_mod_right, List.length_nil, Nat.zero_add]
    · have hstep : absorb n f p x = (p.1, p.2 ++ [x]) := if_neg hfull
      have hlen : (p.2 ++ [x]).length = p.2.length + 1 := by
        rw [List.length_append, List.length_singleton]
      have hroom : (p.2 ++ [x]).length < n := by omega
      rw [hstep, ih hroom, hlen, Nat.add_right_comm, Nat.add_assoc]

/-- A block that is there from the start. -/
theorem blocks_append {b : List α} (hn : 0 < n) (hb : b.length = n) (s : σ) (xs : List α) :
    blocks n f s (b ++ xs) = blocks n f (f s b) xs := by
  have hcount : (b ++ xs).length / n = xs.length / n + 1 := by
    rw [List.length_append, hb, Nat.add_comm, Nat.add_div_right _ hn]
  unfold blocks
  rw [hcount, List.range_succ_eq_map, List.foldl_cons, List.foldl_map, Nat.mul_zero, List.drop_zero,
    List.take_left' hb]
  congr 1
  funext s i
  rw [Nat.mul_succ, Nat.add_comm, ← List.drop_drop, List.drop_left' hb]

/-- Data of whole blocks leaves nothing in the buffer. -/
theorem absorb_blocks (hn : 0 < n) {xs : List α} {k : Nat} (h : xs.length = n * k) (s : σ) :
    xs.foldl (absorb n f) (s, []) = (blocks n f s xs, []) := by
  induction k generalizing xs s with
  | zero =>
    obtain rfl := List.length_eq_zero_iff.mp h
    simp [blocks]
  | succ k ih =>
    have hle : n ≤ xs.length := by
      rw [h, Nat.mul_succ]
      exact Nat.le_add_left n _
    have hb : (xs.take n).length = n := by
      rw [List.length_take]
      omega
    have hmore : (xs.drop n).length = n * k := by
      rw [List.length_drop, h, Nat.mul_succ]
      omega
    have hne : xs.take n ≠ [] := List.ne_nil_of_length_pos (by omega)
    have hfull : (xs.take n).foldl (absorb n f) (s, []) = (f s ([] ++ xs.take n), []) :=
      absorb_full s hne (by rw [List.length_nil]; omega)
    rw [← List.take_append_drop n xs, List.foldl_append, hfull, List.nil_append, ih hmore,
      blocks_append hn hb]

end

end PkgManager.BlockBuffer
