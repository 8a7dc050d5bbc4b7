import Mathlib

namespace PkgManager.Tiling

variable {α : Type}

/-- Piece `i` of a list cut into consecutive pieces. -/
def piece (ps : List (List α)) (i : Nat) : List α := ps.getD i []

/-- Where piece `i` starts in the whole. -/
def startOf (ps : List (List α)) (i : Nat) : Nat := (ps.take i).flatten.length

theorem startOf_zero (ps : List (List α)) : startOf ps 0 = 0 := by simp [startOf]

theorem startOf_succ (ps : List (List α)) (i : Nat) :
    startOf ps (i + 1) = startOf ps i + (piece ps i).length := by
  unfold startOf piece
  rw [List.take_add_one, List.flatten_append, List.length_append, List.getD_eq_getElem?_getD]
  cases ps[i]? <;> simp

theorem startOf_length (ps : List (List α)) : startOf ps ps.length = ps.flatten.length := by
  simp [startOf]

theorem startOf_mono (ps : List (List α)) {i j : Nat} (h : i ≤ j) :
    startOf ps i ≤ startOf ps j := by
  induction j with
  | zero =>
    exact Nat.le_of_eq (by rw [Nat.le_zero.mp h])
  | succ j ih =>
    by_cases he : i = j + 1
    · exact Nat.le_of_eq (by rw [he])
    · have hj := ih (by omega)
      rw [startOf_succ]
      omega

/-- Every position lies in some piece. -/
theorem exists_piece (ps : List (List α)) {pos : Nat} (h : pos < ps.flatten.length) :
    ∃ i < ps.length, startOf ps i ≤ pos ∧ pos < startOf ps i + (piece ps i).length := by
  rw [← startOf_length] at h
  suffices ∀ n, pos < startOf ps n →
      ∃ i < n, startOf ps i ≤ pos ∧ pos < startOf ps i + (piece ps i).length from this _ h
  intro n hn
  induction n with
  | zero => simp [startOf_zero] at hn
  | succ n ih =>
    by_cases hlt : pos < startOf ps n
    · obtain ⟨i, hi, hin⟩ := ih hlt
      exact ⟨i, by omega, hin⟩
    · rw [startOf_succ] at hn
      exact ⟨n, by omega, by omega, hn⟩

/-- No position lies in two pieces. -/
theorem piece_unique (ps : List (List α)) {i j pos : Nat} (hi : startOf ps i ≤ pos)
    (hi' : pos < startOf ps i + (piece ps i).length) (hj : startOf ps j ≤ pos)
    (hj' : pos < startOf ps j + (piece ps j).length) : i = j := by
  rw [← startOf_succ] at hi' hj'
  by_contra hne
  by_cases hlt : i < j
  · have hm := startOf_mono ps (show i + 1 ≤ j by omega)
    omega
  · have hm := startOf_mono ps (show j + 1 ≤ i by omega)
    omega

/-- From inside a piece on, the whole continues with the rest of that piece. -/
theorem drop_flatten (ps : List (List α)) {i k : Nat} (hk : k ≤ (piece ps i).length) :
    ∃ rest, ps.flatten.drop (startOf ps i + k) = (piece ps i).drop k ++ rest := by
  refine ⟨(ps.drop (i + 1)).flatten, ?_⟩
  have hpiece : (ps[i]?.toList).flatten = piece ps i := by
    unfold piece
    rw [List.getD_eq_getElem?_getD]
    cases ps[i]? <;> simp
  have hsplit : ps.flatten = (ps.take i).flatten ++ (piece ps i ++ (ps.drop (i + 1)).flatten) := by
    have hps : ps = ps.take i ++ (ps[i]?.toList ++ ps.drop (i + 1)) := by
      rw [← List.append_assoc, ← List.take_add_one, List.take_append_drop]
    have hflat := congrArg List.flatten hps
    rwa [List.flatten_append, List.flatten_append, hpiece] at hflat
  have hstart : startOf ps i = (ps.take i).flatten.length := rfl
  rw [hsplit, hstart, ← List.drop_drop, List.drop_left, List.drop_append_of_le_length hk]

end PkgManager.Tiling
