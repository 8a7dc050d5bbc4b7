import PkgManager.ManifestScan

namespace PkgManager.ManifestArrays

open CText Manifest QuotedText ManifestScan ScannerState
open PkgMetadata (Text quoted)

/-! Pairs. -/

/-- The search for a pair goes through the text at the depth it is at. -/
def Skips (opening closing : UInt8) (t : Text) : Prop :=
  ∀ depth rest, pairLoop opening closing depth false false (t ++ rest) =
    (pairLoop opening closing depth false false rest).map (· + t.length)

theorem Skips.append {opening closing : UInt8} {t u : Text} (ht : Skips opening closing t)
    (hu : Skips opening closing u) : Skips opening closing (t ++ u) := by
  intro depth rest
  rw [List.append_assoc, ht, hu, Option.map_map]
  congr 1
  funext n
  simp only [Function.comp, List.length_append]
  omega

theorem skips_bare {opening closing : UInt8} {t : Text}
    (ht : ∀ b ∈ t, b ≠ 34 ∧ b ≠ opening ∧ b ≠ closing) : Skips opening closing t := by
  intro depth rest
  induction t with
  | nil => simp
  | cons b t ih =>
    obtain ⟨h34, hopening, hclosing⟩ := ht b List.mem_cons_self
    have hstr : ¬(b = 92 ∧ false = true) := fun h => Bool.false_ne_true h.2
    rw [List.cons_append, pairLoop, if_neg Bool.false_ne_true, if_neg hstr, if_neg h34,
      if_neg Bool.false_ne_true, if_neg hopening, if_neg hclosing,
      ih fun c hc => ht c (List.mem_cons_of_mem b hc), Option.map_map]
    rfl

/-- Within a string no byte opens or closes anything. -/
theorem pairLoop_escape (opening closing : UInt8) (depth : Nat) (s rest : Text) :
    pairLoop opening closing depth true false (escape s ++ 34 :: rest) =
      (pairLoop opening closing depth false false rest).map (· + ((escape s).length + 1)) := by
  induction s with
  | nil => rfl
  | cons b s ih =>
    rw [escape_cons]
    by_cases hb : b = 34 ∨ b = 92
    · rw [escapeByte_special hb]
      have hstep (t : Text) : pairLoop opening closing depth true false (92 :: b :: t) =
          (pairLoop opening closing depth true false t).map (· + 2) := by
        rw [pairLoop, if_neg Bool.false_ne_true, if_pos ⟨rfl, rfl⟩, pairLoop, if_pos rfl,
          Option.map_map]
        rfl
      show pairLoop opening closing depth true false (92 :: b :: (escape s ++ 34 :: rest)) = _
      rw [hstep, ih, Option.map_map]
      rfl
    · rw [escapeByte_plain hb]
      have h34 : b ≠ 34 := fun h => hb (.inl h)
      have h92 : ¬(b = 92 ∧ true = true) := fun h => hb (.inr h.1)
      show pairLoop opening closing depth true false (b :: (escape s ++ 34 :: rest)) = _
      rw [pairLoop, if_neg Bool.false_ne_true, if_neg h92, if_neg h34, if_pos rfl, ih,
        Option.map_map]
      congr 1

theorem skips_quote (opening closing : UInt8) (s : Text) : Skips opening closing (quote s) := by
  intro depth rest
  have hstr : ¬((34 : UInt8) = 92 ∧ false = true) := fun h => Bool.false_ne_true h.2
  rw [quote_append, pairLoop, if_neg Bool.false_ne_true, if_neg hstr, if_pos rfl]
  show (pairLoop opening closing depth true false _).map _ = _
  rw [pairLoop_escape, Option.map_map]
  congr 1
  funext n
  simp only [Function.comp, quote, List.length_append, List.length_cons, List.length_nil]
  omega

/-- The pair around a text that is gone through is found. -/
theorem findMatchingPair_skips {opening closing : UInt8} (hne : closing ≠ opening)
    (ho : opening ≠ 34) (hc : closing ≠ 34) {t : Text} (ht : Skips opening closing t) (rest : Text) :
    findMatchingPair opening closing (opening :: (t ++ closing :: rest)) = some (t.length + 1) := by
  have hstr (b : UInt8) : ¬(b = 92 ∧ false = true) := fun h => Bool.false_ne_true h.2
  have hhead : (opening :: (t ++ closing :: rest)).head? = some opening := rfl
  unfold findMatchingPair
  rw [if_pos hhead, pairLoop, if_neg Bool.false_ne_true, if_neg (hstr opening), if_neg ho,
    if_neg Bool.false_ne_true, if_pos rfl, ht, pairLoop, if_neg Bool.false_ne_true,
    if_neg (hstr closing), if_neg hc, if_neg Bool.false_ne_true, if_neg hne, if_pos rfl, if_pos rfl]
  simp

/-! The loop over the objects of an array. -/

/-- An object whose closing brace is the one that matches. -/
def IsObject (item : Text) : Prop := ∃ body, item = 123 :: (body ++ [125]) ∧ Skips 123 125 body

theorem findMatchingPair_object {item : Text} (h : IsObject item) (rest : Text) :
    findMatchingPair 123 125 (item ++ rest) = some (item.length - 1) := by
  obtain ⟨body, rfl, hbody⟩ := h
  have htext : 123 :: (body ++ [125]) ++ rest = 123 :: (body ++ 125 :: rest) := by simp
  rw [htext, findMatchingPair_skips (by decide) (by decide) (by decide) hbody]
  simp

theorem takeWhile_blanks {blanks rest : Text} (hblanks : ∀ b ∈ blanks, isBlank b = true)
    (hrest : ∀ b ∈ rest.head?, isBlank b = false) {left : Nat} (hleft : blanks.length ≤ left) :
    ((blanks ++ rest).take left).takeWhile isBlank = blanks := by
  rw [List.take_append, List.take_of_length_le hleft, List.takeWhile_append_of_pos hblanks]
  cases rest with
  | nil => simp
  | cons c rest =>
    cases left - blanks.length with
    | zero => simp
    | succ n =>
      rw [List.take_succ_cons, List.takeWhile_cons_of_neg (by simp [hrest c (by simp)]),
        List.append_nil]

/-- The items of an array and what ends it: blanks, and the bracket. -/
theorem itemLines_cons (item : Text) (items : List Text) :
    ∃ blanks : Text, (∀ b ∈ blanks, isBlank b = true) ∧
      itemLines (item :: items) = item ++ (blanks ++ itemLines items) := by
  cases items with
  | nil => exact ⟨ascii "\n", by decide +kernel, rfl⟩
  | cons item' items => exact ⟨ascii ",\n", by decide +kernel, by rw [itemLines, List.append_assoc]; simp⟩

variable {full : State → Bool} {take : State → Text → State}

/-- The loop takes the object in front of it. -/
theorem arrayLoop_object {blanks o more rest : Text} (hblanks : ∀ b ∈ blanks, isBlank b = true)
    (ho : IsObject o) {s : State} (hfull : full s = false) (fuel : Nat) :
    arrayLoop full take (fuel + 1) s (blanks ++ (o ++ (more ++ 93 :: rest)))
        (blanks.length + (o.length + more.length)) =
      arrayLoop full take fuel (take s o) (more ++ 93 :: rest) more.length := by
  have hmatch := findMatchingPair_object ho (more ++ 93 :: rest)
  obtain ⟨body, hbody, -⟩ := ho
  have hpos : 0 < o.length := by rw [hbody]; exact Nat.succ_pos _
  have hstart : (o ++ (more ++ 93 :: rest)).head? = some 123 := by rw [hbody]; rfl
  have hstop : ¬(blanks.length + (o.length + more.length) = 0 ∨ full s = true) := by
    rw [hfull]
    simp only [Bool.false_eq_true, or_false]
    omega
  have hbrace : ∀ b ∈ (o ++ (more ++ 93 :: rest)).head?, isBlank b = false := by
    intro b hb
    rw [hstart, Option.mem_some_iff] at hb
    subst hb
    rfl
  have hnot : ¬(blanks.length + (o.length + more.length) - blanks.length = 0 ∨
      some (123 : UInt8) = some 93) := by
    rintro (h | h)
    · omega
    · exact absurd (Option.some.inj h) (by decide)
  have hin : ¬blanks.length + (o.length + more.length) - blanks.length < o.length - 1 := by omega
  have hlen : o.length - 1 + 1 = o.length := by omega
  have hleft : blanks.length + (o.length + more.length) - blanks.length - o.length = more.length := by
    omega
  rw [arrayLoop, if_neg hstop, takeWhile_blanks hblanks hbrace (by omega)]
  simp only [List.drop_left]
  rw [hstart, if_neg hnot, if_pos rfl, hmatch]
  simp only
  rw [if_neg hin, hlen, List.take_left, List.drop_left, hleft]

/-- Where nothing but blanks is left the loop is over. -/
theorem arrayLoop_blanks {blanks rest : Text} (hblanks : ∀ b ∈ blanks, isBlank b = true) (s : State)
    (fuel : Nat) :
    arrayLoop full take (fuel + 1) s (blanks ++ 93 :: rest) blanks.length = s := by
  rw [arrayLoop]
  by_cases hstop : blanks.length = 0 ∨ full s = true
  · rw [if_pos hstop]
  · rw [if_neg hstop, takeWhile_blanks hblanks (by simp [isBlank]) le_rfl]
    simp

/-- The loop takes one object after the other, as long as there is room for it. -/
theorem arrayLoop_items {indent : Text} (hindent : ∀ b ∈ indent, isBlank b = true)
    {objects : List Text} (hobjects : ∀ o ∈ objects, IsObject o)
    {lead closing : Text} (rest : Text) (hlead : ∀ b ∈ lead, isBlank b = true)
    (hclosing : ∀ b ∈ closing, isBlank b = true) {s : State}
    (hroom : ∀ a o b, objects = a ++ o :: b → full (a.foldl take s) = false) {fuel : Nat}
    (hfuel : (lead ++ (itemLines (objects.map (indent ++ ·)) ++ closing)).length < fuel) :
    arrayLoop full take fuel s
        (lead ++ (itemLines (objects.map (indent ++ ·)) ++ closing) ++ 93 :: rest)
        (lead ++ (itemLines (objects.map (indent ++ ·)) ++ closing)).length =
      objects.foldl take s := by
  obtain ⟨fuel, rfl⟩ : ∃ n, fuel = n + 1 := ⟨fuel - 1, by omega⟩
  induction objects generalizing lead s fuel with
  | nil =>
    have hall : ∀ b ∈ lead ++ closing, isBlank b = true := fun b hb =>
      (List.mem_append.mp hb).elim (hlead b) (hclosing b)
    exact arrayLoop_blanks hall s fuel
  | cons o objects ih =>
    obtain ⟨nl, hnl, hitems⟩ := itemLines_cons (indent ++ o) (objects.map (indent ++ ·))
    have ho := hobjects o List.mem_cons_self
    have hblanks : ∀ b ∈ lead ++ indent, isBlank b = true := fun b hb =>
      (List.mem_append.mp hb).elim (hlead b) (hindent b)
    have htext : lead ++ (itemLines ((o :: objects).map (indent ++ ·)) ++ closing) =
        (lead ++ indent) ++ (o ++ (nl ++ (itemLines (objects.map (indent ++ ·)) ++ closing))) := by
      rw [List.map_cons, hitems]
      simp only [List.append_assoc]
    have hroomTail : ∀ a o' b, objects = a ++ o' :: b → full (a.foldl take (take s o)) = false :=
      fun a o' b h => hroom (o :: a) o' b (by rw [h]; rfl)
    have hrest := ih (fun o' ho' => hobjects o' (List.mem_cons_of_mem o ho')) hnl hroomTail
    rw [htext] at hfuel ⊢
    generalize nl ++ (itemLines (objects.map (indent ++ ·)) ++ closing) = more at hfuel hrest ⊢
    have hpos : 0 < o.length := by
      obtain ⟨body, rfl, -⟩ := ho
      exact Nat.succ_pos _
    have hfull : full s = false := hroom [] o objects rfl
    have hlen : ((lead ++ indent) ++ (o ++ more)).length =
        (lead ++ indent).length + (o.length + more.length) := by
      simp only [List.length_append]
    have hassoc : (lead ++ indent) ++ (o ++ more) ++ 93 :: rest =
        (lead ++ indent) ++ (o ++ (more ++ 93 :: rest)) := by simp only [List.append_assoc]
    rw [hlen] at hfuel ⊢
    obtain ⟨fuel, rfl⟩ : ∃ n, fuel = n + 1 := ⟨fuel - 1, by omega⟩
    rw [hassoc, arrayLoop_object hblanks ho hfull]
    exact hrest fuel (by omega)

end PkgManager.ManifestArrays
