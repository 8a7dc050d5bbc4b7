import Mathlib

namespace PkgManager.BoundedSort

variable {α κ : Type} [LinearOrder κ] (key : α → κ)

/-! The least elements of a stream, kept in order in a list of at most `m`. -/

/-- Put `x` at its place; what falls behind place `m` is lost. -/
def keepLeast (m : Nat) (out : List α) (x : α) : List α :=
  let pos := (out.takeWhile fun a => key a < key x).length
  if m ≤ pos then out else (out.take pos ++ x :: out.drop pos).take m

/-- Keep an element, and note that one was there that did not fit. -/
def pageStep (m : Nat) (st : List α × Bool) (x : α) : List α × Bool :=
  (keepLeast key m st.1 x, st.2 || st.1.length == m)

/-- Each key is less than the ones behind it. -/
def Ascending (l : List α) : Prop := l.Pairwise fun a b => key a < key b

/-- Insertion in front of the first element that is not less. -/
def insert (l : List α) (x : α) : List α := l.orderedInsert (fun a b => key a ≤ key b) x

variable {key}

theorem take_insert (l : List α) (x : α) (m : Nat) :
    (insert key (l.take m) x).take m = (insert key l x).take m := by
  induction l generalizing m with
  | nil => simp [insert]
  | cons b l ih =>
    cases m with
    | zero => simp
    | succ m =>
      unfold insert at ih ⊢
      rw [List.take_succ_cons, List.orderedInsert_cons, List.orderedInsert_cons]
      by_cases hle : key x ≤ key b
      · rw [if_pos hle, if_pos hle, List.take_succ_cons, List.take_succ_cons]
        cases m with
        | zero => rfl
        | succ m => rw [List.take_succ_cons, List.take_succ_cons, List.take_take, Nat.min_eq_left (by omega)]
      · rw [if_neg hle, if_neg hle, List.take_succ_cons, List.take_succ_cons, ih]

theorem keepLeast_eq {m : Nat} {out : List α} (hlen : out.length ≤ m) (x : α) :
    keepLeast key m out x = (insert key out x).take m := by
  have hsplit : insert key out x =
      out.takeWhile (fun a => key a < key x) ++ x :: out.dropWhile (fun a => key a < key x) := by
    unfold insert
    rw [List.orderedInsert_eq_take_drop]
    simp only [not_le]
  have htake := List.takeWhile_append_dropWhile (p := fun a => decide (key a < key x)) (l := out)
  unfold keepLeast
  simp only
  rw [hsplit]
  generalize out.takeWhile (fun a => key a < key x) = front at htake ⊢
  generalize out.dropWhile (fun a => key a < key x) = back at htake ⊢
  subst htake
  rw [List.length_append] at hlen
  by_cases hm : m ≤ front.length
  · rw [if_pos hm, List.take_append_of_le_length hm, List.take_of_length_le (by omega)]
    have hback : back = [] := List.length_eq_zero_iff.mp (by omega)
    rw [hback, List.append_nil]
  · rw [if_neg hm, List.take_left, List.drop_left]

theorem length_insert (l : List α) (x : α) : (insert key l x).length = l.length + 1 :=
  List.orderedInsert_length _ l x

/-- The list holds the least elements of what was seen, and the flag says whether
there were more. -/
theorem foldl_pageStep (m : Nat) (l s : List α) :
    l.foldl (pageStep key m) (s.take m, decide (m < s.length)) =
      ((l.foldl (insert key) s).take m, decide (m < s.length + l.length)) := by
  induction l generalizing s with
  | nil => rfl
  | cons x l ih =>
    have hstep : pageStep key m (s.take m, decide (m < s.length)) x =
        ((insert key s x).take m, decide (m < (insert key s x).length)) := by
      have hlen : (s.take m).length = min m s.length := List.length_take
      unfold pageStep
      simp only
      rw [keepLeast_eq (by omega), take_insert, length_insert, hlen]
      congr 1
      rw [Bool.eq_iff_iff]
      simp only [Bool.or_eq_true, decide_eq_true_eq, beq_iff_eq]
      omega
    rw [List.foldl_cons, List.foldl_cons, hstep, ih, length_insert, List.length_cons,
      Nat.add_right_comm, Nat.add_assoc]

theorem foldl_insert_perm (l s : List α) : (l.foldl (insert key) s).Perm (s ++ l) := by
  induction l generalizing s with
  | nil => rw [List.foldl_nil, List.append_nil]
  | cons x l ih =>
    rw [List.foldl_cons]
    have hx : (insert key s x ++ l).Perm (x :: s ++ l) :=
      (List.perm_orderedInsert _ x s).append_right l
    exact (ih _).trans (hx.trans List.perm_middle.symm)

theorem foldl_insert_sorted (l : List α) {s : List α} (hs : s.Pairwise fun a b => key a ≤ key b) :
    (l.foldl (insert key) s).Pairwise fun a b => key a ≤ key b := by
  induction l generalizing s with
  | nil => exact hs
  | cons x l ih =>
    refine ih ?_
    have : Std.Total fun a b : α => key a ≤ key b := ⟨fun a b => le_total (key a) (key b)⟩
    have : IsTrans α fun a b => key a ≤ key b := ⟨fun _ _ _ => le_trans⟩
    exact List.Pairwise.orderedInsert x s hs

/-- A list in order without repeated keys ascends. -/
theorem ascending_of_sorted {l : List α} (hs : l.Pairwise fun a b => key a ≤ key b)
    (hkeys : (l.map key).Nodup) : Ascending key l := by
  induction l with
  | nil => exact List.Pairwise.nil
  | cons a l ih =>
    rw [List.pairwise_cons] at hs
    rw [List.map_cons, List.nodup_cons] at hkeys
    refine List.pairwise_cons.mpr ⟨fun b hb => lt_of_le_of_ne (hs.1 b hb) fun he => ?_, ih hs.2 hkeys.2⟩
    exact hkeys.1 (he ▸ List.mem_map_of_mem hb)

theorem Ascending.nodup_keys {l : List α} (h : Ascending key l) : (l.map key).Nodup :=
  List.pairwise_map.mpr (h.imp ne_of_lt)

/-- There is one ascending list of given elements. -/
theorem Ascending.eq_of_perm {s t : List α} (hs : Ascending key s) (ht : Ascending key t)
    (hperm : s.Perm t) : s = t :=
  hperm.eq_of_pairwise (fun _ _ _ _ hab hba => absurd hba (lt_asymm hab)) hs ht

theorem foldl_insert_eq {l s : List α} (hs : Ascending key s) (hperm : s.Perm l) :
    l.foldl (insert key) [] = s := by
  have hlist : (l.foldl (insert key) []).Perm l := foldl_insert_perm l []
  refine Ascending.eq_of_perm (ascending_of_sorted (foldl_insert_sorted l List.Pairwise.nil) ?_) hs
    (hlist.trans hperm.symm)
  exact ((hlist.trans hperm.symm).map key).nodup_iff.mpr hs.nodup_keys

/-- A page over a stream in any order. -/
theorem page_eq {l s : List α} (hs : Ascending key s) (hperm : s.Perm l) (m : Nat) :
    l.foldl (pageStep key m) ([], false) = (s.take m, decide (m < s.length)) := by
  have hpage : l.foldl (pageStep key m) (([] : List α).take m, decide (m < ([] : List α).length)) =
      ((l.foldl (insert key) []).take m, decide (m < ([] : List α).length + l.length)) :=
    foldl_pageStep m l []
  rw [List.take_nil, List.length_nil, Nat.zero_add, decide_eq_false (Nat.not_lt_zero m)] at hpage
  rw [hpage, foldl_insert_eq hs hperm, hperm.length_eq]

/-- What is greater than an element of an ascending list comes behind it. -/
theorem Ascending.filter_greater {s : List α} (hs : Ascending key s) {j : Nat} (hj : j < s.length) :
    s.filter (fun a => key s[j] < key a) = s.drop (j + 1) := by
  induction s generalizing j with
  | nil => exact absurd hj (Nat.not_lt_zero j)
  | cons a s ih =>
    have hhead := (List.pairwise_cons.mp hs).1
    cases j with
    | zero =>
      rw [List.getElem_cons_zero, List.filter_cons_of_neg (by simp), List.drop_succ_cons, List.drop_zero]
      exact List.filter_eq_self.mpr fun b hb => decide_eq_true (hhead b hb)
    | succ j =>
      have hj' : j < s.length := Nat.lt_of_succ_lt_succ hj
      have hless : ¬key s[j] < key a := lt_asymm (hhead _ (List.getElem_mem hj'))
      rw [List.getElem_cons_succ, List.filter_cons_of_neg (by simpa using hless), List.drop_succ_cons]
      exact ih (List.pairwise_cons.mp hs).2 hj'

/-- The page behind an element, over the stream in any order. -/
theorem page_after {l s : List α} (hs : Ascending key s) (hperm : s.Perm l) (m : Nat) {j : Nat}
    (hj : j < s.length) :
    (l.filter fun a => key s[j] < key a).foldl (pageStep key m) ([], false) =
      ((s.drop (j + 1)).take m, decide (m < (s.drop (j + 1)).length)) := by
  refine page_eq (hs.sublist (List.drop_sublist _ s)) ?_ m
  rw [← hs.filter_greater hj]
  exact hperm.filter _

end PkgManager.BoundedSort
