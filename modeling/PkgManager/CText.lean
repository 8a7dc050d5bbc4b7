import Mathlib

namespace PkgManager.CText

/-! C strings are lists of bytes; a pointer into one is the rest of the text from there. -/

def ascii (s : String) : List UInt8 := s.toList.map fun c => UInt8.ofNat c.toNat

/-- The string a buffer holds: what stands before its first NUL. -/
def upToNul (s : List UInt8) : List UInt8 := s.takeWhile (· ≠ 0)

def toLower (b : UInt8) : UInt8 := if 65 ≤ b ∧ b ≤ 90 then b + 32 else b

/-- `strcasecmp` finds no difference. -/
def sameText (a b : List UInt8) : Bool := a.map toLower = b.map toLower

theorem eq_of_toLower {b c : UInt8} (hc : ¬(97 ≤ c ∧ c ≤ 122)) (h : toLower b = c) : b = c := by
  unfold toLower at h
  by_cases hcase : 65 ≤ b ∧ b ≤ 90
  · rw [if_pos hcase] at h
    have h65 : 65 ≤ b.toNat := UInt8.le_iff_toNat_le.mp hcase.1
    have h90 : b.toNat ≤ 90 := UInt8.le_iff_toNat_le.mp hcase.2
    have hsum := congrArg UInt8.toNat h
    have h32 : (32 : UInt8).toNat = 32 := rfl
    rw [UInt8.toNat_add, h32] at hsum
    refine absurd ⟨UInt8.le_iff_toNat_le.mpr ?_, UInt8.le_iff_toNat_le.mpr ?_⟩ hc
    · show 97 ≤ c.toNat
      omega
    · show c.toNat ≤ 122
      omega
  · rwa [if_neg hcase] at h

def isDigit (b : UInt8) : Bool := 48 ≤ b ∧ b ≤ 57

def isSpace (b : UInt8) : Bool := b = 32 ∨ (9 ≤ b ∧ b ≤ 13)

def digitsValue (ds : List UInt8) : Nat := ds.foldl (fun v d => 10 * v + (d.toNat - 48)) 0

/-- `strtoul` in base 10: the value and what follows the number, which is the
whole text where there is none. -/
def strtoul (s : List UInt8) : Nat × List UInt8 :=
  let t := s.dropWhile isSpace
  let negative := t.head? = some 45
  let u := if t.head? = some 45 ∨ t.head? = some 43 then t.drop 1 else t
  let digits := u.takeWhile isDigit
  if digits = [] then (0, s)
  else
    let v := digitsValue digits
    (if 2 ^ 64 ≤ v then 2 ^ 64 - 1 else if negative then (2 ^ 64 - v) % 2 ^ 64 else v,
      u.dropWhile isDigit)

/-- `%u`. -/
def decimal (n : Nat) : List UInt8 := (Nat.toDigits 10 n).map fun c => UInt8.ofNat c.toNat

/-- `strstr`: how far into the string the pattern stands first. -/
def strstr (pat : List UInt8) : List UInt8 → Option Nat
  | [] => if pat = [] then some 0 else none
  | b :: s =>
    if pat.isPrefixOf (b :: s) then some 0
    else if b = 0 then none
    else (strstr pat s).map (· + 1)

def strchr (c : UInt8) (s : List UInt8) : Option Nat := strstr [c] s

/-- What follows the last slash. -/
def baseName (path : List UInt8) : List UInt8 := (path.reverse.takeWhile (· ≠ 47)).reverse

/-- A text in a buffer of `n` bytes. -/
def bounded (n : Nat) (s : List UInt8) : List UInt8 := s.take (n - 1)

/-! Numbers. -/

theorem isDigit_char {c : Char} (h : c.isDigit = true) :
    (UInt8.ofNat c.toNat).toNat = c.toNat ∧ isDigit (UInt8.ofNat c.toNat) = true := by
  have hc : 48 ≤ c.toNat ∧ c.toNat ≤ 57 := by
    simp only [Char.isDigit, Bool.and_eq_true, decide_eq_true_eq, ge_iff_le, UInt32.le_iff_toNat_le] at h
    exact h
  have hval : (UInt8.ofNat c.toNat).toNat = c.toNat := by
    rw [UInt8.toNat_ofNat']
    omega
  refine ⟨hval, ?_⟩
  simp only [isDigit, decide_eq_true_eq, Bool.decide_and, Bool.and_eq_true, UInt8.le_iff_toNat_le, hval]
  exact hc

theorem isDigit_decimal (n : Nat) : ∀ b ∈ decimal n, isDigit b = true := by
  intro b hb
  obtain ⟨c, hc, rfl⟩ := List.mem_map.mp hb
  exact (isDigit_char (Nat.isDigit_of_mem_toDigits (by decide) (by decide) hc)).2

theorem decimal_ne_nil (n : Nat) : decimal n ≠ [] := by
  unfold decimal
  rw [ne_eq, List.map_eq_nil_iff]
  exact Nat.toDigits_ne_nil

theorem foldl_digits {cs : List Char} (h : ∀ c ∈ cs, c.isDigit = true) (v : Nat) :
    (cs.map fun c => UInt8.ofNat c.toNat).foldl (fun v d => 10 * v + (d.toNat - 48)) v =
      Nat.ofDigitChars 10 cs v := by
  induction cs generalizing v with
  | nil => simp
  | cons c cs ih =>
    rw [List.map_cons, List.foldl_cons, ih fun c' hc' => h c' (List.mem_cons_of_mem c hc'),
      Nat.ofDigitChars_cons, (isDigit_char (h c List.mem_cons_self)).1]
    rfl

theorem digitsValue_decimal (n : Nat) : digitsValue (decimal n) = n := by
  have hdigits : ∀ c ∈ Nat.toDigits 10 n, c.isDigit = true := fun c hc =>
    Nat.isDigit_of_mem_toDigits (by decide) (by decide) hc
  unfold digitsValue decimal
  rw [foldl_digits hdigits, Nat.ofDigitChars_toDigits (by decide) (by decide)]

theorem length_decimal_le {n k : Nat} (hk : 0 < k) (h : n < 10 ^ k) : (decimal n).length ≤ k := by
  unfold decimal
  rw [List.length_map]
  exact (Nat.length_toDigits_le_iff (by decide) hk).mpr h

theorem not_isDigit_of_isSpace {b : UInt8} (h : isSpace b = true) : isDigit b = false := by
  have hb : b = 32 ∨ b ≤ 13 := by
    rcases of_decide_eq_true h with h | h
    · exact .inl h
    · exact .inr h.2
  rcases hb with rfl | hb
  · rfl
  · refine decide_eq_false fun hdigit => ?_
    exact absurd (UInt8.le_trans hdigit.1 hb) (by decide)

/-- The digits of a number begin with one, are all there is of it, and mean it. -/
theorem decimal_digits (n : Nat) :
    (decimal n).dropWhile isSpace = decimal n ∧ (decimal n).head? ≠ some 45 ∧
      (decimal n).head? ≠ some 43 ∧ (decimal n).takeWhile isDigit = decimal n := by
  have hdigits := isDigit_decimal n
  have hne := decimal_ne_nil n
  generalize decimal n = ds at hdigits hne
  have hend : ds.takeWhile isDigit = ds := List.takeWhile_eq_self_iff.mpr hdigits
  cases ds with
  | nil => exact absurd rfl hne
  | cons d ds =>
    have hd := hdigits d List.mem_cons_self
    have hspace : ¬isSpace d = true := fun h => by
      rw [not_isDigit_of_isSpace h] at hd
      cases hd
    refine ⟨List.dropWhile_cons_of_neg hspace, ?_, ?_, hend⟩
    · rintro h
      obtain rfl := Option.some.inj h
      exact absurd hd (by decide)
    · rintro h
      obtain rfl := Option.some.inj h
      exact absurd hd (by decide)

theorem strtoul_decimal {n : Nat} (h : n < 2 ^ 64) : (strtoul (decimal n)).1 = n := by
  obtain ⟨hspace, h45, h43, hdigits⟩ := decimal_digits n
  unfold strtoul
  simp only [hspace, h45, h43, or_self, if_false, hdigits, decimal_ne_nil n, digitsValue_decimal,
    Nat.not_le_of_lt h]

/-- Digits are read as far as they go, and too large a number as the largest. -/
theorem strtoul_append {ds r : List UInt8} (hne : ds ≠ []) (hdigits : ∀ b ∈ ds, isDigit b = true)
    (hr : ∀ c ∈ r.head?, isDigit c = false) :
    strtoul (ds ++ r) = (min (digitsValue ds) (2 ^ 64 - 1), r) := by
  cases ds with
  | nil => exact absurd rfl hne
  | cons d ds =>
    have hd := hdigits d List.mem_cons_self
    have hskip : (d :: ds ++ r).dropWhile isSpace = d :: ds ++ r := by
      refine List.dropWhile_cons_of_neg fun hspace => ?_
      rw [not_isDigit_of_isSpace hspace] at hd
      cases hd
    have h45 : ¬(d :: ds ++ r).head? = some 45 := by
      rintro h
      obtain rfl := Option.some.inj h
      exact absurd hd (by decide)
    have h43 : ¬(d :: ds ++ r).head? = some 43 := by
      rintro h
      obtain rfl := Option.some.inj h
      exact absurd hd (by decide)
    have htake : (d :: ds ++ r).takeWhile isDigit = d :: ds := by
      rw [List.takeWhile_append_of_pos hdigits]
      cases r with
      | nil => exact List.append_nil _
      | cons c cs => rw [List.takeWhile_cons_of_neg (by rw [hr c rfl]; decide), List.append_nil]
    have hdrop : (d :: ds ++ r).dropWhile isDigit = r := by
      rw [List.dropWhile_append_of_pos hdigits]
      cases r with
      | nil => rfl
      | cons c cs => exact List.dropWhile_cons_of_neg (by rw [hr c rfl]; decide)
    unfold strtoul
    simp only [hskip, h45, h43, or_self, if_false, htake, hdrop]
    rw [if_neg (List.cons_ne_nil d ds)]
    show ((if 2 ^ 64 ≤ digitsValue (d :: ds) then 2 ^ 64 - 1 else digitsValue (d :: ds)), r) =
      (min (digitsValue (d :: ds)) (2 ^ 64 - 1), r)
    congr 1
    split_ifs <;> omega

theorem baseName_append (dir : List UInt8) {name : List UInt8} (h : 47 ∉ name) :
    baseName (dir ++ 47 :: name) = name := by
  have hall : ∀ b ∈ name.reverse, decide (b ≠ 47) = true := fun b hb =>
    decide_eq_true fun hb' => h (hb' ▸ List.mem_reverse.mp hb)
  unfold baseName
  rw [List.reverse_append, List.reverse_cons, List.append_assoc, List.takeWhile_append_of_pos hall]
  simp

/-! Searching a text with another one behind it. -/

theorem strstr_le {pat s : List UInt8} {i : Nat} (h : strstr pat s = some i) :
    i + pat.length ≤ s.length := by
  induction s generalizing i with
  | nil =>
    unfold strstr at h
    split_ifs at h with hnil
    obtain rfl := Option.some.inj h
    simp [hnil]
  | cons b s ih =>
    unfold strstr at h
    split_ifs at h with hpre hb
    · obtain rfl := Option.some.inj h
      have hlen := (List.isPrefixOf_iff_prefix.mp hpre).length_le
      omega
    · obtain ⟨j, hj, rfl⟩ := Option.map_eq_some_iff.mp h
      have hle := ih hj
      rw [List.length_cons]
      omega

/-- What follows a pattern that was found, and that no NUL stands before it. -/
theorem strstr_found {pat s : List UInt8} {i : Nat} (h : strstr pat s = some i) :
    pat <+: s.drop i ∧ 0 ∉ s.take i := by
  induction s generalizing i with
  | nil =>
    unfold strstr at h
    by_cases hnil : pat = []
    · rw [if_pos hnil] at h
      obtain rfl := Option.some.inj h
      exact ⟨by rw [hnil]; exact List.nil_prefix, List.not_mem_nil⟩
    · rw [if_neg hnil] at h
      cases h
  | cons b s ih =>
    unfold strstr at h
    by_cases hpre : pat.isPrefixOf (b :: s) = true
    · rw [if_pos hpre] at h
      obtain rfl := Option.some.inj h
      exact ⟨List.isPrefixOf_iff_prefix.mp hpre, List.not_mem_nil⟩
    · rw [if_neg hpre] at h
      by_cases hb : b = 0
      · rw [if_pos hb] at h
        cases h
      · rw [if_neg hb] at h
        obtain ⟨j, hj, rfl⟩ := Option.map_eq_some_iff.mp h
        obtain ⟨hdrop, htake⟩ := ih hj
        refine ⟨hdrop, ?_⟩
        rw [List.take_succ_cons, List.mem_cons, not_or]
        exact ⟨Ne.symm hb, htake⟩

theorem strstr_nil {pat : List UInt8} (hpat : pat ≠ []) : strstr pat [] = none := by
  unfold strstr
  rw [if_neg hpat]

/-- A pattern is found where it was, whatever stands behind the text. -/
theorem strstr_append {pat s : List UInt8} {i : Nat} (hpat : pat ≠ []) (rest : List UInt8)
    (h : strstr pat s = some i) : strstr pat (s ++ rest) = some i := by
  induction s generalizing i with
  | nil => rw [strstr_nil hpat] at h; cases h
  | cons b s ih =>
    have hle := strstr_le h
    unfold strstr at h
    rw [List.cons_append, strstr]
    by_cases hpre : pat.isPrefixOf (b :: s) = true
    · rw [if_pos hpre] at h
      have hlong : pat.isPrefixOf (b :: (s ++ rest)) = true :=
        List.isPrefixOf_iff_prefix.mpr
          ((List.isPrefixOf_iff_prefix.mp hpre).trans (List.prefix_append _ _))
      rw [if_pos hlong, h]
    · rw [if_neg hpre] at h
      have hshort : ¬pat.isPrefixOf (b :: (s ++ rest)) = true := by
        intro hlong
        rw [List.isPrefixOf_iff_prefix] at hlong hpre
        exact hpre (List.prefix_of_prefix_length_le hlong (List.prefix_append (b :: s) rest)
          (by omega))
      rw [if_neg hshort]
      by_cases hb : b = 0
      · rw [if_pos hb] at h
        cases h
      · rw [if_neg hb] at h ⊢
        obtain ⟨j, hj, rfl⟩ := Option.map_eq_some_iff.mp h
        rw [ih hj]
        rfl

/-- What is found within the text is found without what stands behind it. -/
theorem strstr_of_append {pat s rest : List UInt8} {i : Nat} (hpat : pat ≠ [])
    (h : strstr pat (s ++ rest) = some i) (hi : i + pat.length ≤ s.length) :
    strstr pat s = some i := by
  induction s generalizing i with
  | nil =>
    have hpos := List.length_pos_iff.mpr hpat
    rw [List.length_nil] at hi
    omega
  | cons b s ih =>
    rw [List.cons_append, strstr] at h
    unfold strstr
    by_cases hlong : pat.isPrefixOf (b :: (s ++ rest)) = true
    · rw [if_pos hlong] at h
      obtain rfl := Option.some.inj h
      have hpre : pat.isPrefixOf (b :: s) = true := by
        rw [List.isPrefixOf_iff_prefix] at hlong ⊢
        exact List.prefix_of_prefix_length_le hlong (List.prefix_append (b :: s) rest) (by omega)
      rw [if_pos hpre]
    · rw [if_neg hlong] at h
      have hpre : ¬pat.isPrefixOf (b :: s) = true := by
        intro hp
        rw [List.isPrefixOf_iff_prefix] at hlong hp
        exact hlong (hp.trans (List.prefix_append (b :: s) rest))
      rw [if_neg hpre]
      by_cases hb : b = 0
      · rw [if_pos hb] at h
        cases h
      · rw [if_neg hb] at h ⊢
        obtain ⟨j, hj, rfl⟩ := Option.map_eq_some_iff.mp h
        rw [List.length_cons] at hi
        rw [ih hj (by omega)]
        rfl

end PkgManager.CText
