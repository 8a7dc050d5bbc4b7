import Mathlib

namespace PkgManager.BoundedMemory

/-! Memory in which an access outside of it, or of a byte that was not written yet, is a
fault. A pointer into a region is what is left of the region from there. -/

abbrev Region := List (Option UInt8)

inductive Fault where
  | read
  | write
  deriving DecidableEq

abbrev Checked (α : Type) := Except Fault α

def ofBytes (s : List UInt8) : Region := s.map some

def zeros (n : Nat) : Region := List.replicate n (some 0)

/-- An array without an initializer. -/
def fresh (n : Nat) : Region := List.replicate n none

/-- A string literal. -/
def literal (s : List UInt8) : Region := ofBytes (s ++ [0])

def load (r : Region) (i : Nat) : Checked UInt8 :=
  match r[i]? with
  | some (some b) => .ok b
  | _ => .error .read

def readBytes : Region → Nat → Checked (List UInt8)
  | _, 0 => .ok []
  | some b :: r, n + 1 => (readBytes r n).map (b :: ·)
  | _, _ => .error .read

/-- The bytes from `off` on are these. -/
def write (r : Region) (off : Nat) (bs : List UInt8) : Checked Region :=
  if bs = [] then .ok r
  else if off + bs.length ≤ r.length then
    .ok (r.take off ++ ofBytes bs ++ r.drop (off + bs.length))
  else .error .write

/-! The string functions of C. -/

/-- The string that stands there. -/
def cstring : Region → Checked (List UInt8)
  | some b :: r => if b = 0 then .ok [] else (cstring r).map (b :: ·)
  | _ => .error .read

/-- The string, or its first `n` bytes. -/
def stringUpTo : Region → Nat → Checked (List UInt8)
  | _, 0 => .ok []
  | some b :: r, n + 1 => if b = 0 then .ok [] else (stringUpTo r n).map (b :: ·)
  | _, _ => .error .read

/-- `strcmp` finds no difference to the text. -/
def equals : Region → List UInt8 → Checked Bool
  | some b :: _, [] => .ok (b = 0)
  | some b :: r, c :: s => if b = c then equals r s else .ok false
  | _, _ => .error .read

/-- `strncmp` with the length of the text finds no difference. -/
def begins : Region → List UInt8 → Checked Bool
  | _, [] => .ok true
  | some b :: r, c :: s => if b = c then begins r s else .ok false
  | _, _ => .error .read

def memchr (c : UInt8) : Nat → Region → Checked (Option Nat)
  | 0, _ => .ok none
  | n + 1, some b :: r => if b = c then .ok (some 0) else (memchr c n r).map (·.map (· + 1))
  | _, _ => .error .read

def strchr (c : UInt8) : Region → Checked (Option Nat)
  | some b :: r =>
    if b = c then .ok (some 0)
    else if b = 0 then .ok none
    else (strchr c r).map (·.map (· + 1))
  | _ => .error .read

def strstr (pat : List UInt8) : Region → Checked (Option Nat)
  | [] => .error .read
  | b :: r => do
    if ← begins (b :: r) pat then return some 0
    else if b = some 0 then return none
    else (strstr pat r).map (·.map (· + 1))

def strncpy (dst : Region) (off : Nat) (src : Region) (n : Nat) : Checked Region := do
  let s ← stringUpTo src n
  write dst off (s ++ List.replicate (n - s.length) 0)

def memcpy (dst : Region) (off : Nat) (src : Region) (n : Nat) : Checked Region := do
  let s ← readBytes src n
  write dst off s

/-- `snprintf` of a text into `n` bytes. -/
def print (dst : Region) (off n : Nat) (s : List UInt8) : Checked Region :=
  if n = 0 then .ok dst else write dst off (s.take (n - 1) ++ [0])

/-! A computation without a fault. -/

def Safe {α : Type} (x : Checked α) (P : α → Prop) : Prop := ∃ a, x = .ok a ∧ P a

section Rules

variable {α β : Type} {x : Checked α} {P Q : α → Prop}

theorem Safe.pure {a : α} (h : P a) : Safe (.ok a) P := ⟨a, rfl, h⟩

theorem Safe.imp (h : Safe x P) (hPQ : ∀ a, P a → Q a) : Safe x Q := by
  obtain ⟨a, hx, ha⟩ := h
  exact ⟨a, hx, hPQ a ha⟩

theorem Safe.bind {f : α → Checked β} {R : β → Prop} (h : Safe x P) (hf : ∀ a, P a → Safe (f a) R) :
    Safe (x >>= f) R := by
  obtain ⟨a, rfl, ha⟩ := h
  exact hf a ha

theorem Safe.map {f : α → β} {R : β → Prop} (h : Safe x P) (hf : ∀ a, P a → R (f a)) :
    Safe (x.map f) R := by
  obtain ⟨a, rfl, ha⟩ := h
  exact ⟨f a, rfl, hf a ha⟩

theorem ok_bind {a : α} {f : α → Checked β} : (Except.ok a : Checked α) >>= f = f a := rfl

theorem bind_ok {f : α → Checked β} {b : β} (h : x >>= f = .ok b) : ∃ a, x = .ok a ∧ f a = .ok b := by
  cases x with
  | error e => cases h
  | ok a => exact ⟨a, rfl, h⟩

theorem map_ok {f : α → β} {b : β} (h : x.map f = .ok b) : ∃ a, x = .ok a ∧ f a = b := by
  cases x with
  | error e => cases h
  | ok a => exact ⟨a, rfl, Except.ok.inj h⟩

/-- A loop keeps what each of its passes keeps. -/
theorem Safe.foldlM {I : β → Prop} {f : β → α → Checked β} {l : List α}
    (hf : ∀ a ∈ l, ∀ b, I b → Safe (f b a) I) {b : β} (hb : I b) : Safe (l.foldlM f b) I := by
  induction l generalizing b with
  | nil => exact ⟨b, rfl, hb⟩
  | cons a l ih =>
    rw [List.foldlM_cons]
    exact (hf a List.mem_cons_self b hb).bind fun b' hb' =>
      ih (fun a' ha' => hf a' (List.mem_cons_of_mem a ha')) hb'

/-- A loop that ends without a fault has none in its passes. -/
theorem foldlM_ok {f : β → α → Checked β} {l : List α} {b b' : β} (h : l.foldlM f b = .ok b') :
    ∀ a ∈ l, ∃ c c', f c a = .ok c' := by
  induction l generalizing b with
  | nil => exact fun a ha => absurd ha List.not_mem_nil
  | cons a l ih =>
    rw [List.foldlM_cons] at h
    obtain ⟨c, hc, hl⟩ := bind_ok h
    intro a' ha'
    rcases List.mem_cons.mp ha' with rfl | ha'
    · exact ⟨b, c, hc⟩
    · exact ih hl a' ha'

end Rules

/-! Reading. -/

/-- The first `n` bytes are there and were written. -/
def Written (r : Region) (n : Nat) : Prop := ∀ i < n, ∃ b, r[i]? = some (some b)

theorem written_ofBytes (s : List UInt8) : Written (ofBytes s) s.length := by
  intro i hi
  exact ⟨s[i], by rw [ofBytes, List.getElem?_map, List.getElem?_eq_getElem hi]; rfl⟩

theorem Written.mono {r : Region} {m n : Nat} (h : Written r n) (hmn : m ≤ n) : Written r m :=
  fun i hi => h i (Nat.lt_of_lt_of_le hi hmn)

theorem Written.length_le {r : Region} {n : Nat} (h : Written r n) : n ≤ r.length := by
  cases n with
  | zero => exact Nat.zero_le _
  | succ n =>
    obtain ⟨b, hb⟩ := h n (Nat.lt_succ_self n)
    exact (List.getElem?_eq_some_iff.mp hb).1

theorem Written.tail {c : Option UInt8} {r : Region} {n : Nat} (h : Written (c :: r) (n + 1)) :
    (∃ b, c = some b) ∧ Written r n := by
  refine ⟨?_, fun i hi => ?_⟩
  · obtain ⟨b, hb⟩ := h 0 (Nat.succ_pos n)
    exact ⟨b, Option.some.inj hb⟩
  · obtain ⟨b, hb⟩ := h (i + 1) (Nat.succ_lt_succ hi)
    exact ⟨b, hb⟩

theorem Written.drop {r : Region} {m n : Nat} (h : Written r (m + n)) : Written (r.drop m) n := by
  intro i hi
  obtain ⟨b, hb⟩ := h (m + i) (by omega)
  exact ⟨b, by rw [List.getElem?_drop, hb]⟩

theorem load_ok {r : Region} {i : Nat} {b : UInt8} (h : r[i]? = some (some b)) : load r i = .ok b := by
  unfold load
  rw [h]

theorem readBytes_written {r : Region} {n : Nat} (h : Written r n) :
    Safe (readBytes r n) fun s => ofBytes s = r.take n ∧ s.length = n := by
  induction n generalizing r with
  | zero =>
    exact ⟨[], by cases r <;> rfl, rfl, rfl⟩
  | succ n ih =>
    cases r with
    | nil => exact absurd h.length_le (Nat.not_succ_le_zero n)
    | cons c r =>
      obtain ⟨⟨b, rfl⟩, htail⟩ := h.tail
      rw [readBytes]
      refine (ih htail).map fun s hs => ⟨?_, ?_⟩
      · rw [List.take_succ_cons, ← hs.1]
        rfl
      · rw [List.length_cons, hs.2]

/-- What was written stays written, whatever is written over it. -/
theorem write_written (r : Region) (off : Nat) (bs : List UInt8) (h : off + bs.length ≤ r.length) :
    Safe (write r off bs) fun r' => r'.length = r.length ∧
      (∀ i, off ≤ i → i < off + bs.length → r'[i]? = (bs[i - off]?).map some) ∧
      ∀ i, i < off ∨ off + bs.length ≤ i → r'[i]? = r[i]? := by
  unfold write
  by_cases hnil : bs = []
  · rw [if_pos hnil, hnil]
    refine .pure ⟨rfl, fun i hle hlt => ?_, fun _ _ => rfl⟩
    rw [List.length_nil] at hlt
    omega
  · rw [if_neg hnil, if_pos h]
    have htake : (r.take off).length = off := by
      rw [List.length_take]
      omega
    have hbytes : (ofBytes bs).length = bs.length := List.length_map _
    refine .pure ⟨?_, fun i hle hlt => ?_, fun i hi => ?_⟩
    · rw [List.length_append, List.length_append, htake, hbytes, List.length_drop]
      omega
    · rw [List.append_assoc, List.getElem?_append_right (by omega), htake,
        List.getElem?_append_left (by omega), ofBytes, List.getElem?_map]
    · rcases hi with hi | hi
      · rw [List.append_assoc, List.getElem?_append_left (by omega), List.getElem?_take_of_lt hi]
      · rw [List.getElem?_append_right (by rw [List.length_append]; omega), List.length_append, htake,
          hbytes, List.getElem?_drop]
        congr 1
        omega

/-! Strings. -/

/-- A string stands there. -/
def Terminated (r : Region) : Prop := ∃ s, cstring r = .ok s

theorem terminated_of {r : Region} {k : Nat} (h : Written r k) (hk : r[k]? = some (some 0)) :
    Terminated r := by
  induction k generalizing r with
  | zero =>
    cases r with
    | nil => cases hk
    | cons c r =>
      obtain rfl := Option.some.inj hk
      exact ⟨[], rfl⟩
  | succ k ih =>
    cases r with
    | nil => cases hk
    | cons c r =>
      obtain ⟨⟨b, rfl⟩, htail⟩ := h.tail
      obtain ⟨s, hs⟩ := ih htail hk
      unfold Terminated
      by_cases hb : b = 0
      · exact ⟨[], by rw [cstring, if_pos hb]⟩
      · exact ⟨b :: s, by rw [cstring, if_neg hb, hs]; rfl⟩

theorem zeros_terminated {n : Nat} (h : 0 < n) : Terminated (zeros n) := by
  cases n with
  | zero => cases h
  | succ n => exact ⟨[], rfl⟩

theorem cstring_cons {c : Option UInt8} {r : Region} {s : List UInt8} (h : cstring (c :: r) = .ok s) :
    (c = some 0 ∧ s = []) ∨ ∃ b s', b ≠ 0 ∧ c = some b ∧ s = b :: s' ∧ cstring r = .ok s' := by
  cases c with
  | none => cases h
  | some b =>
    rw [cstring] at h
    by_cases hb : b = 0
    · rw [if_pos hb] at h
      exact .inl ⟨by rw [hb], (Except.ok.inj h).symm⟩
    · rw [if_neg hb] at h
      obtain ⟨s', hs', rfl⟩ := map_ok h
      exact .inr ⟨b, s', hb, rfl, rfl, hs'⟩

variable {r : Region} {s : List UInt8}

theorem cstring_load (h : cstring r = .ok s) : load r 0 = .ok (s.headD 0) := by
  cases r with
  | nil => cases h
  | cons c r =>
    rcases cstring_cons h with ⟨rfl, rfl⟩ | ⟨b, s', -, rfl, rfl, -⟩ <;> rfl

theorem cstring_equals (h : cstring r = .ok s) {t : List UInt8} (ht : 0 ∉ t) :
    equals r t = .ok (s = t) := by
  induction r generalizing s t with
  | nil => cases h
  | cons c r ih =>
    rcases cstring_cons h with ⟨rfl, rfl⟩ | ⟨b, s', hb, rfl, rfl, hs'⟩
    · cases t with
      | nil => rfl
      | cons d t =>
        have hd : (0 : UInt8) ≠ d := fun h0 => ht (h0 ▸ List.mem_cons_self)
        rw [equals, if_neg hd]
        rfl
    · cases t with
      | nil => rw [equals, decide_eq_false hb]; rfl
      | cons d t =>
        rw [equals]
        by_cases hbd : b = d
        · rw [if_pos hbd, ih hs' fun h0 => ht (List.mem_cons_of_mem d h0), hbd]
          congr 1
          simp
        · rw [if_neg hbd]
          congr 1
          simp [hbd]

theorem cstring_begins (h : cstring r = .ok s) {t : List UInt8} (ht : 0 ∉ t) :
    begins r t = .ok (t.isPrefixOf s) := by
  induction r generalizing s t with
  | nil => cases h
  | cons c r ih =>
    cases t with
    | nil => cases r <;> rfl
    | cons d t =>
      rcases cstring_cons h with ⟨rfl, rfl⟩ | ⟨b, s', hb, rfl, rfl, hs'⟩
      · have hd : (0 : UInt8) ≠ d := fun h0 => ht (h0 ▸ List.mem_cons_self)
        rw [begins, if_neg hd]
        rfl
      · rw [begins]
        by_cases hbd : b = d
        · rw [if_pos hbd, ih hs' fun h0 => ht (List.mem_cons_of_mem d h0), hbd]
          congr 1
          simp
        · rw [if_neg hbd]
          congr 1
          simp [List.isPrefixOf, Ne.symm hbd]

theorem Terminated.pos (h : Terminated r) : 0 < r.length := by
  obtain ⟨s, hs⟩ := h
  cases r with
  | nil => cases hs
  | cons c r => exact Nat.succ_pos _

theorem Terminated.load (h : Terminated r) : Safe (load r 0) fun _ => True := by
  obtain ⟨s, hs⟩ := h
  exact ⟨_, cstring_load hs, trivial⟩

theorem Terminated.equals (h : Terminated r) {t : List UInt8} (ht : 0 ∉ t) :
    Safe (equals r t) fun _ => True := by
  obtain ⟨s, hs⟩ := h
  exact ⟨_, cstring_equals hs ht, trivial⟩

theorem Terminated.begins (h : Terminated r) {t : List UInt8} (ht : 0 ∉ t) :
    Safe (begins r t) fun _ => True := by
  obtain ⟨s, hs⟩ := h
  exact ⟨_, cstring_begins hs ht, trivial⟩

theorem cstring_literal_append {t : List UInt8} (ht : 0 ∉ t) (r : Region) :
    cstring (literal t ++ r) = .ok t := by
  induction t with
  | nil => rfl
  | cons b t ih =>
    have hb : b ≠ 0 := fun h0 => ht (h0 ▸ List.mem_cons_self)
    show cstring (some b :: (literal t ++ r)) = .ok (b :: t)
    rw [cstring, if_neg hb, ih fun h0 => ht (List.mem_cons_of_mem b h0)]
    rfl

theorem cstring_literal {t : List UInt8} (ht : 0 ∉ t) : cstring (literal t) = .ok t := by
  rw [← List.append_nil (literal t)]
  exact cstring_literal_append ht []

/-- What is behind the beginning of a string is a string. -/
theorem cstring_drop (h : cstring r = .ok s) {n : Nat} (hn : n ≤ s.length) :
    cstring (r.drop n) = .ok (s.drop n) := by
  induction n generalizing r s with
  | zero => exact h
  | succ n ih =>
    cases r with
    | nil => cases h
    | cons c r =>
      rcases cstring_cons h with ⟨-, rfl⟩ | ⟨b, s', -, rfl, rfl, hs'⟩
      · cases hn
      · exact ih hs' (Nat.le_of_succ_le_succ hn)

theorem cstring_strchr (h : cstring r = .ok s) {c : UInt8} (hc : c ≠ 0) :
    Safe (strchr c r) fun found => ∀ i ∈ found, i < s.length := by
  induction r generalizing s with
  | nil => cases h
  | cons b r ih =>
    rcases cstring_cons h with ⟨rfl, rfl⟩ | ⟨b, s', hb, rfl, rfl, hs'⟩
    · rw [strchr, if_neg (Ne.symm hc), if_pos rfl]
      exact .pure fun i hi => nomatch hi
    · rw [strchr]
      by_cases hbc : b = c
      · rw [if_pos hbc]
        refine .pure fun i hi => ?_
        cases hi
        exact Nat.succ_pos _
      · rw [if_neg hbc, if_neg hb]
        refine (ih hs').map fun found hfound i hi => ?_
        obtain ⟨j, hj, rfl⟩ := Option.map_eq_some_iff.mp hi
        exact Nat.succ_lt_succ (hfound j hj)

/-- Behind a byte that was found in a string there is a string again. -/
theorem Terminated.strchr (h : Terminated r) {c : UInt8} (hc : c ≠ 0) :
    Safe (strchr c r) fun found => ∀ i ∈ found, Terminated (r.drop (i + 1)) := by
  obtain ⟨s, hs⟩ := h
  exact (cstring_strchr hs hc).imp fun found hfound i hi => ⟨_, cstring_drop hs (hfound i hi)⟩

theorem stringUpTo_written {n : Nat} (h : Written r n) :
    Safe (stringUpTo r n) fun s => s.length ≤ n := by
  induction n generalizing r with
  | zero => exact ⟨[], by cases r <;> rfl, Nat.le_refl 0⟩
  | succ n ih =>
    cases r with
    | nil => exact absurd h.length_le (Nat.not_succ_le_zero n)
    | cons c r =>
      obtain ⟨⟨b, rfl⟩, htail⟩ := h.tail
      rw [stringUpTo]
      split
      · exact .pure (Nat.zero_le _)
      · exact (ih htail).map fun s hs => Nat.succ_le_succ hs

theorem stringUpTo_cstring (h : cstring r = .ok s) (n : Nat) : stringUpTo r n = .ok (s.take n) := by
  induction n generalizing r s with
  | zero => cases r <;> rfl
  | succ n ih =>
    cases r with
    | nil => cases h
    | cons c r =>
      rcases cstring_cons h with ⟨rfl, rfl⟩ | ⟨b, s', hb, rfl, rfl, hs'⟩
      · rfl
      · rw [stringUpTo, if_neg hb, ih hs']
        rfl

/-! Memory that holds these bytes. -/

theorem length_ofBytes (s : List UInt8) : (ofBytes s).length = s.length := List.length_map _

theorem drop_ofBytes (s : List UInt8) (n : Nat) : (ofBytes s).drop n = ofBytes (s.drop n) := by
  rw [ofBytes, ofBytes, List.map_drop]

theorem readBytes_ofBytes {n : Nat} {s : List UInt8} (h : n ≤ s.length) :
    readBytes (ofBytes s) n = .ok (s.take n) := by
  induction n generalizing s with
  | zero => cases s <;> rfl
  | succ n ih =>
    cases s with
    | nil => cases h
    | cons b s =>
      show readBytes (some b :: ofBytes s) (n + 1) = _
      rw [readBytes, ih (Nat.le_of_succ_le_succ h)]
      rfl

theorem readBytes_faults {s : List UInt8} {n : Nat} (h : s.length < n) :
    readBytes (ofBytes s) n = .error .read := by
  induction n generalizing s with
  | zero => cases h
  | succ n ih =>
    cases s with
    | nil => rfl
    | cons b s =>
      show readBytes (some b :: ofBytes s) (n + 1) = _
      rw [readBytes, ih (Nat.lt_of_succ_lt_succ h)]
      rfl

variable {pat : List UInt8} {c : UInt8}

theorem begins_ofBytes (hpat : 0 ∉ pat) (h : pat.length ≤ s.length ∨ 0 ∈ s) :
    begins (ofBytes s) pat = .ok (pat.isPrefixOf s) := by
  induction pat generalizing s with
  | nil => cases s <;> rfl
  | cons d pat ih =>
    have hd : d ≠ 0 := fun h0 => hpat (h0 ▸ List.mem_cons_self)
    cases s with
    | nil =>
      rcases h with h | h
      · cases h
      · cases h
    | cons b s =>
      show begins (some b :: ofBytes s) (d :: pat) = _
      rw [begins]
      by_cases hbd : b = d
      · have hs : pat.length ≤ s.length ∨ 0 ∈ s := by
          rcases h with h | h
          · exact .inl (Nat.le_of_succ_le_succ h)
          · exact .inr ((List.mem_cons.mp h).resolve_left fun h0 => hd (hbd ▸ h0.symm))
        rw [if_pos hbd, ih (fun h0 => hpat (List.mem_cons_of_mem d h0)) hs, hbd]
        congr 1
        simp
      · rw [if_neg hbd]
        congr 1
        simp [List.isPrefixOf, Ne.symm hbd]

/-- At the end of the memory the comparison fails or leaves it. -/
theorem begins_short (h : s.length < pat.length) :
    begins (ofBytes s) pat = .ok false ∨ begins (ofBytes s) pat = .error .read := by
  induction pat generalizing s with
  | nil => cases h
  | cons d pat ih =>
    cases s with
    | nil => exact .inr rfl
    | cons b s =>
      show begins (some b :: ofBytes s) (d :: pat) = _ ∨ begins (some b :: ofBytes s) (d :: pat) = _
      rw [begins]
      by_cases hbd : b = d
      · rw [if_pos hbd]
        exact ih (Nat.lt_of_succ_lt_succ h)
      · rw [if_neg hbd]
        exact .inl rfl

theorem strchr_faults (hc : c ∉ s) (hnul : 0 ∉ s) : strchr c (ofBytes s) = .error .read := by
  induction s with
  | nil => rfl
  | cons b s ih =>
    have hbc : b ≠ c := fun h => hc (h ▸ List.mem_cons_self)
    have hb : b ≠ 0 := fun h => hnul (h ▸ List.mem_cons_self)
    show strchr c (some b :: ofBytes s) = _
    rw [strchr, if_neg hbc, if_neg hb,
      ih (fun h => hc (List.mem_cons_of_mem b h)) fun h => hnul (List.mem_cons_of_mem b h)]
    rfl

/-- The search for a NUL: it is met in the memory, or the search goes as far as it is told. -/
theorem memchr_ofBytes (s : List UInt8) (n : Nat) (h : n ≤ s.length ∨ 0 ∈ s) :
    Safe (memchr 0 n (ofBytes s)) fun found => found.isSome → 0 ∈ s := by
  induction n generalizing s with
  | zero => exact ⟨none, by cases s <;> rfl, fun hf => nomatch hf⟩
  | succ n ih =>
    cases s with
    | nil => exact absurd h (by simp)
    | cons b s =>
      show Safe (memchr 0 (n + 1) (some b :: ofBytes s)) _
      rw [memchr]
      by_cases hb : b = 0
      · rw [if_pos hb]
        exact .pure fun _ => hb ▸ List.mem_cons_self
      · rw [if_neg hb]
        have hs : n ≤ s.length ∨ 0 ∈ s := by
          rcases h with h | h
          · exact .inl (Nat.le_of_succ_le_succ h)
          · exact .inr ((List.mem_cons.mp h).resolve_left fun h0 => hb h0.symm)
        refine (ih s hs).map fun found hfound hsome => List.mem_cons_of_mem b (hfound ?_)
        cases found with
        | none => cases hsome
        | some k => rfl

theorem memchr_faults (s : List UInt8) (n : Nat) (hn : s.length < n) (h : 0 ∉ s) :
    memchr 0 n (ofBytes s) = .error .read := by
  induction n generalizing s with
  | zero => cases hn
  | succ n ih =>
    cases s with
    | nil => rfl
    | cons b s =>
      have hb : b ≠ 0 := fun h0 => h (h0 ▸ List.mem_cons_self)
      show memchr 0 (n + 1) (some b :: ofBytes s) = _
      rw [memchr, if_neg hb, ih s (Nat.lt_of_succ_lt_succ hn) fun h0 => h (List.mem_cons_of_mem b h0)]
      rfl

theorem cstring_ofBytes {s : List UInt8} (h : 0 ∈ s) : Terminated (ofBytes s) := by
  obtain ⟨k, hk⟩ := List.mem_iff_getElem?.mp h
  refine terminated_of (k := k) ((written_ofBytes s).mono ?_) ?_
  · exact Nat.le_of_lt (List.getElem?_eq_some_iff.mp hk).1
  · rw [ofBytes, List.getElem?_map, hk]
    rfl

/-! Copying. -/

variable {dst src : Region} {n : Nat}

/-- The first `n` bytes of the copy, and what is left of the destination. -/
theorem strncpy_written (h : Safe (stringUpTo src n) fun s => s.length ≤ n) (hn : n ≤ dst.length) :
    Safe (strncpy dst 0 src n) fun r => r.length = dst.length ∧ Written r n := by
  refine h.bind fun s hs => ?_
  have hlen : (s ++ List.replicate (n - s.length) 0).length = n := by
    rw [List.length_append, List.length_replicate]
    omega
  refine (write_written dst 0 _ (by rw [hlen]; omega)).imp fun r hr => ⟨hr.1, fun i hi => ?_⟩
  have hi' : i < (s ++ List.replicate (n - s.length) 0).length := by omega
  rw [hr.2.1 i (Nat.zero_le i) (by omega), Nat.sub_zero, List.getElem?_eq_getElem hi']
  exact ⟨_, rfl⟩

/-- A string that is shorter than the copy ends in it. -/
theorem strncpy_terminated (h : cstring src = .ok s) (hs : s.length < n) (hn : n ≤ dst.length) :
    Safe (strncpy dst 0 src n) fun r => r.length = dst.length ∧ Terminated r := by
  unfold strncpy
  rw [stringUpTo_cstring h, List.take_of_length_le (Nat.le_of_lt hs)]
  have hlen : (s ++ List.replicate (n - s.length) 0).length = n := by
    rw [List.length_append, List.length_replicate]
    omega
  refine (write_written dst 0 (s ++ List.replicate (n - s.length) 0) (by rw [hlen]; omega)).imp
    fun r hr => ⟨hr.1, terminated_of (k := s.length) (fun i hi => ?_) ?_⟩
  · have hi' : i < (s ++ List.replicate (n - s.length) 0).length := by omega
    rw [hr.2.1 i (Nat.zero_le i) (by omega), Nat.sub_zero, List.getElem?_eq_getElem hi']
    exact ⟨_, rfl⟩
  · rw [hr.2.1 s.length (Nat.zero_le _) (by omega), Nat.sub_zero,
      List.getElem?_append_right (Nat.le_refl _), Nat.sub_self, List.getElem?_replicate]
    rw [if_pos (by omega)]
    rfl

theorem write_more {r : Region} {off : Nat} (bs : List UInt8) (h : Written r off)
    (hle : off + bs.length ≤ r.length) :
    Safe (write r off bs) fun r' => r'.length = r.length ∧ Written r' (off + bs.length) := by
  refine (write_written r off bs hle).imp fun r' hr' => ⟨hr'.1, fun i hi => ?_⟩
  by_cases hoff : i < off
  · rw [hr'.2.2 i (.inl hoff)]
    exact h i hoff
  · have hi' : i - off < bs.length := by omega
    rw [hr'.2.1 i (by omega) hi, List.getElem?_eq_getElem hi']
    exact ⟨_, rfl⟩

/-- A terminator behind what was written. -/
theorem write_nul (h : Written dst n) (hn : n < dst.length) :
    Safe (write dst n [0]) fun r => r.length = dst.length ∧ Terminated r := by
  refine (write_written dst n [0] (by rw [List.length_singleton]; omega)).imp fun r hr =>
    ⟨hr.1, terminated_of (k := n) (fun i hi => ?_) ?_⟩
  · rw [hr.2.2 i (.inl hi)]
    exact h i hi
  · rw [hr.2.1 n (Nat.le_refl n) (by rw [List.length_singleton]; omega), Nat.sub_self]
    rfl

theorem print_written {off : Nat} (h : Written dst off) (s : List UInt8) (hn : 0 < n)
    (hle : off + n ≤ dst.length) :
    Safe (print dst off n s) fun r => r.length = dst.length ∧
      Written r (off + min s.length (n - 1)) ∧ Terminated r := by
  unfold print
  rw [if_neg (Nat.ne_of_gt hn)]
  have hlen : (s.take (n - 1)).length = min s.length (n - 1) := by
    rw [List.length_take, Nat.min_comm]
  have hall : (s.take (n - 1) ++ [0]).length = min s.length (n - 1) + 1 := by
    rw [List.length_append, hlen, List.length_singleton]
  refine (write_written dst off (s.take (n - 1) ++ [0]) (by rw [hall]; omega)).imp fun r hr => ?_
  have hwritten : Written r (off + min s.length (n - 1)) := by
    intro i hi
    by_cases hoff : i < off
    · rw [hr.2.2 i (.inl hoff)]
      exact h i hoff
    · have hi' : i - off < (s.take (n - 1) ++ [0]).length := by omega
      rw [hr.2.1 i (by omega) (by omega), List.getElem?_eq_getElem hi']
      exact ⟨_, rfl⟩
  refine ⟨hr.1, hwritten, terminated_of hwritten ?_⟩
  rw [hr.2.1 _ (Nat.le_add_right _ _) (by omega), Nat.add_sub_cancel_left,
    List.getElem?_append_right (Nat.le_of_eq hlen), hlen, Nat.sub_self]
  rfl

end PkgManager.BoundedMemory
