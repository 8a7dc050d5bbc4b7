import Mathlib

namespace PkgManager.Interleaving

variable {σ τ ε : Type}

/-- Threads over one shared state. An event is what a thread runs between
taking and giving up the lock: it reads the shared and its local state and
yields both, together with the threads it creates. -/
structure Machine (σ τ ε : Type) where
  act : ε → σ → τ → Option (σ × τ × List τ)

structure Pool (σ τ : Type) where
  shared : σ
  threads : List τ

namespace Machine

def step (M : Machine σ τ ε) (p : Pool σ τ) (i : Nat) (e : ε) : Option (Pool σ τ) :=
  match p.threads[i]? with
  | none => none
  | some t => (M.act e p.shared t).map fun r => ⟨r.1, p.threads.set i r.2.1 ++ r.2.2⟩

/-- Pools reachable from `p` by steps that satisfy the guard. -/
inductive Reach (M : Machine σ τ ε) (G : Pool σ τ → Nat → ε → Prop) (p : Pool σ τ) :
    Pool σ τ → Prop
  | refl : Reach M G p p
  | tail {q r : Pool σ τ} {i : Nat} {e : ε} :
      Reach M G p q → G q i e → M.step q i e = some r → Reach M G p r

/-- Execute a list of events, each by the thread of its index; none if a guard
fails or a thread cannot take its event. -/
def exec (M : Machine σ τ ε) (G : Pool σ τ → Nat → ε → Prop) [∀ p i e, Decidable (G p i e)] :
    List (Nat × ε) → Pool σ τ → Option (Pool σ τ)
  | [], p => some p
  | (i, e) :: es, p => if G p i e then (M.step p i e).bind (exec M G es) else none

end Machine

open Machine

variable {M : Machine σ τ ε} {G G' : Pool σ τ → Nat → ε → Prop} {p q r : Pool σ τ}
  {i : Nat} {e : ε}

theorem step_eq_some (h : M.step p i e = some q) :
    ∃ t s' t' new, p.threads[i]? = some t ∧ M.act e p.shared t = some (s', t', new) ∧
      q = ⟨s', p.threads.set i t' ++ new⟩ := by
  unfold step at h
  cases ht : p.threads[i]? with
  | none => simp [ht] at h
  | some t =>
    simp only [ht, Option.map_eq_some_iff] at h
    obtain ⟨⟨s', t', new⟩, hact, rfl⟩ := h
    exact ⟨t, s', t', new, rfl, hact, rfl⟩

theorem Machine.Reach.trans (h : Reach M G p q) (k : Reach M G q r) : Reach M G p r := by
  induction k with
  | refl => exact h
  | tail _ hg hs ih => exact .tail ih hg hs

theorem Machine.Reach.mono (h : Reach M G p q) (hG : ∀ p i e, G p i e → G' p i e) :
    Reach M G' p q := by
  induction h with
  | refl => exact .refl
  | tail _ hg hs ih => exact .tail ih (hG _ _ _ hg) hs

/-- A predicate that holds at the start and survives every guarded step holds
in every reachable pool. -/
theorem Machine.Reach.invariant (P : Pool σ τ → Prop) (h : Reach M G p q) (h0 : P p)
    (hstep : ∀ p i e q, P p → G p i e → M.step p i e = some q → P q) : P q := by
  induction h with
  | refl => exact h0
  | tail _ hg hs ih => exact hstep _ _ _ _ ih hg hs

theorem Machine.Reach.of_exec [∀ p i e, Decidable (G p i e)] {es : List (Nat × ε)}
    (h : M.exec G es p = some q) : Reach M G p q := by
  induction es generalizing p with
  | nil => exact Option.some.inj h ▸ .refl
  | cons ie es ih =>
    obtain ⟨i, e⟩ := ie
    unfold exec at h
    split at h
    · rename_i hg
      obtain ⟨r, hs, hr⟩ := Option.bind_eq_some_iff.mp h
      exact (Reach.tail .refl hg hs).trans (ih hr)
    · cases h

/-- Every thread of the successor is the one that moved, an old one or a new one. -/
theorem mem_step {t u t' : τ} {new : List τ} (ht : p.threads[i]? = some t)
    (hu : u ∈ p.threads.set i t' ++ new) :
    u = t' ∨ (∃ j, j ≠ i ∧ p.threads[j]? = some u) ∨ u ∈ new := by
  rcases List.mem_append.mp hu with hu | hu
  · obtain ⟨j, hj⟩ := List.mem_iff_getElem?.mp hu
    by_cases hji : j = i
    · subst hji
      have hlt : j < p.threads.length := (List.getElem?_eq_some_iff.mp ht).1
      rw [List.getElem?_set_self hlt] at hj
      exact .inl (Option.some.inj hj).symm
    · rw [List.getElem?_set_ne (Ne.symm hji)] at hj
      exact .inr (.inl ⟨j, hji, hj⟩)
  · exact .inr (.inr hu)

/-- A predicate of the old threads, the one that moved and the new ones holds of
all threads of the successor. -/
theorem forall_step {P : τ → Prop} {t t' : τ} {new : List τ} (ht : p.threads[i]? = some t)
    (hmove : P t') (hold : ∀ u ∈ p.threads, P u) (hnew : ∀ u ∈ new, P u) :
    ∀ u ∈ p.threads.set i t' ++ new, P u := by
  intro u hu
  rcases mem_step ht hu with rfl | ⟨j, _, hj⟩ | hn
  · exact hmove
  · exact hold u (List.mem_of_getElem? hj)
  · exact hnew u hn

/-- The local rule: the moving thread establishes its own predicate, every
other thread's predicate survives the change of the shared state. -/
theorem threads_step {L : σ → τ → Prop} {t t' : τ} {s' : σ} {new : List τ}
    (ht : p.threads[i]? = some t) (hp : ∀ u ∈ p.threads, L p.shared u)
    (hmove : L s' t') (hother : ∀ u ∈ p.threads, L p.shared u → L s' u)
    (hnew : ∀ u ∈ new, L s' u) : ∀ u ∈ p.threads.set i t' ++ new, L s' u :=
  forall_step ht hmove (fun u hu => hother u hu (hp u hu)) hnew

theorem getElem?_step {t t' : τ} {new : List τ} (ht : p.threads[i]? = some t) :
    (p.threads.set i t' ++ new)[i]? = some t' := by
  have hlt : i < p.threads.length := (List.getElem?_eq_some_iff.mp ht).1
  rw [List.getElem?_append_left (by simpa using hlt), List.getElem?_set_self hlt]

theorem getElem?_other {t' u : τ} {new : List τ} {j : Nat} (hji : j ≠ i)
    (hj : p.threads[j]? = some u) : (p.threads.set i t' ++ new)[j]? = some u := by
  have hlt : j < p.threads.length := (List.getElem?_eq_some_iff.mp hj).1
  rw [List.getElem?_append_left (by simpa using hlt), List.getElem?_set_ne (Ne.symm hji)]
  exact hj

/-- How a step changes the number of threads in a given local state. -/
theorem countP_step (P : τ → Bool) {t : τ} (t' : τ) (new : List τ) (ht : p.threads[i]? = some t) :
    (p.threads.set i t' ++ new).countP P + (if P t then 1 else 0) =
      p.threads.countP P + (if P t' then 1 else 0) + new.countP P := by
  obtain ⟨hlt, rfl⟩ := List.getElem?_eq_some_iff.mp ht
  have hle := List.boole_getElem_le_countP (p := P) hlt
  rw [List.countP_append, List.countP_set hlt]
  omega

/-- How a step changes the sum of what the threads hold. -/
theorem sum_step (f : τ → Nat) {t : τ} (t' : τ) (new : List τ) (ht : p.threads[i]? = some t) :
    ((p.threads.set i t' ++ new).map f).sum + f t = (p.threads.map f).sum + f t' + (new.map f).sum := by
  obtain ⟨shared, threads⟩ := p
  simp only at ht ⊢
  rw [List.map_append, List.sum_append]
  induction threads generalizing i with
  | nil => cases ht
  | cons u us ih =>
    cases i with
    | zero =>
      obtain rfl := Option.some.inj ht
      rw [List.set_cons_zero, List.map_cons, List.map_cons, List.sum_cons, List.sum_cons]
      omega
    | succ i =>
      have hus := ih ht
      rw [List.set_cons_succ, List.map_cons, List.map_cons, List.sum_cons, List.sum_cons]
      omega

/-- Where at most one thread is in a given local state, no other thread is. -/
theorem only_of_countP {P : τ → Bool} {l : List τ} {t u : τ} {i j : Nat} (h : l.countP P ≤ 1)
    (hi : l[i]? = some t) (ht : P t = true) (hj : l[j]? = some u) (hji : j ≠ i) : P u = false := by
  have hpos : ∀ {l : List τ} {k : Nat} {v : τ}, l[k]? = some v → P v = true → 0 < l.countP P :=
    fun hk hv => List.countP_pos_iff.mpr ⟨_, List.mem_of_getElem? hk, hv⟩
  by_contra hu
  rw [Bool.not_eq_false] at hu
  induction l generalizing i j with
  | nil => cases hi
  | cons a l ih =>
    rw [List.countP_cons] at h
    cases i with
    | zero =>
      cases j with
      | zero => exact hji rfl
      | succ j =>
        have hl : 0 < l.countP P := hpos hj hu
        rw [Option.some.inj hi, if_pos ht] at h
        omega
    | succ i =>
      cases j with
      | zero =>
        have hl : 0 < l.countP P := hpos hi ht
        rw [Option.some.inj hj, if_pos hu] at h
        omega
      | succ j => exact ih (by omega) hi hj fun hij => hji (congrArg _ hij)

end PkgManager.Interleaving
