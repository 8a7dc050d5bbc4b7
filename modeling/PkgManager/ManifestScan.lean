import PkgManager.Manifest
import PkgManager.QuotedText

namespace PkgManager.ManifestScan

open CText Manifest QuotedText
open PkgMetadata (Text quoted)

/-! Strings. -/

/-- No control characters. -/
def Printable (s : Text) : Prop := ∀ b ∈ s, 32 ≤ b

instance (s : Text) : Decidable (Printable s) := List.decidableBAll _ s

theorem escapeByte_printable {b : UInt8} (h : 32 ≤ b) :
    Manifest.escapeByte b = QuotedText.escapeByte b := by
  unfold Manifest.escapeByte QuotedText.escapeByte
  by_cases hb : b = 34 ∨ b = 92
  · rw [if_pos hb, if_pos hb]
  · have h10 : b ≠ 10 := by rintro rfl; exact absurd h (by decide)
    have h13 : b ≠ 13 := by rintro rfl; exact absurd h (by decide)
    have h9 : b ≠ 9 := by rintro rfl; exact absurd h (by decide)
    rw [if_neg hb, if_neg hb, if_neg h10, if_neg h13, if_neg h9, if_pos h]

theorem length_escapeByte_le (b : UInt8) : (QuotedText.escapeByte b).length ≤ 2 := by
  by_cases hb : b = 34 ∨ b = 92
  · rw [escapeByte_special hb]
    exact le_rfl
  · rw [escapeByte_plain hb]
    exact Nat.le_succ 1

theorem length_escape_le (s : Text) : (escape s).length ≤ 2 * s.length := by
  induction s with
  | nil => exact Nat.zero_le _
  | cons b s ih =>
    have hlen := length_escapeByte_le b
    rw [escape_cons, List.length_append, List.length_cons]
    omega

theorem escapeLoop_printable {dstMax d : Nat} {s : Text} (hs : Printable s)
    (hd : d + 2 * s.length < dstMax) : escapeLoop dstMax d s = escape s := by
  induction s generalizing d with
  | nil => rfl
  | cons b s ih =>
    have hb := hs b List.mem_cons_self
    have h0 : b ≠ 0 := by rintro rfl; exact absurd hb (by decide)
    have hlen := length_escapeByte_le b
    rw [List.length_cons] at hd
    rw [escapeLoop, if_pos ⟨h0, by omega⟩, escapeByte_printable hb, escape_cons,
      ih (fun c hc => hs c (List.mem_cons_of_mem b hc)) (by omega)]

/-- A byte that is no backslash is read as it is, or ends the string. -/
theorem fieldString_byte (n : Nat) {c : UInt8} (h : c ≠ 92) (t : Text) :
    fieldString (n + 1) (c :: t) = if c = 34 then [] else c :: fieldString n t := by
  rw [fieldString]
  intro e t' heq
  exact absurd heq h

theorem fieldString_spec (n : Nat) (t : Text) : (fieldString n t).length ≤ n ∧ (fieldString n t).Sublist t := by
  fun_induction fieldString n t with
  | case1 t => exact ⟨le_rfl, List.nil_sublist _⟩
  | case2 n c s ih => exact ⟨Nat.succ_le_succ ih.1, (ih.2.cons_cons c).cons 92⟩
  | case3 n s hnot => exact ⟨Nat.zero_le _, List.nil_sublist _⟩
  | case4 n c s hnot hc ih => exact ⟨Nat.succ_le_succ ih.1, ih.2.cons_cons c⟩
  | case5 n => exact ⟨Nat.zero_le _, List.nil_sublist _⟩

/-- What fits of a string is read back as it was written, whatever stands behind it. -/
theorem fieldString_escape (n : Nat) (s rest : Text) : fieldString n (escape s ++ 34 :: rest) = s.take n := by
  induction s generalizing n with
  | nil => cases n <;> rfl
  | cons b s ih =>
    cases n with
    | zero => rfl
    | succ m =>
      rw [escape_cons, List.take_succ_cons]
      by_cases hb : b = 34 ∨ b = 92
      · rw [escapeByte_special hb]
        show b :: fieldString m (escape s ++ 34 :: rest) = b :: s.take m
        rw [ih]
      · rw [escapeByte_plain hb]
        rw [not_or] at hb
        show fieldString (m + 1) (b :: (escape s ++ 34 :: rest)) = b :: s.take m
        rw [fieldString_byte m hb.2, if_neg hb.1, ih]

/-! Words. -/

theorem isNameByte_of_isDigit {b : UInt8} (h : isDigit b = true) : isNameByte b = true := by
  unfold isNameByte
  rw [h]
  rfl

theorem decimal_name (n : Nat) : Name (decimal n) := fun b hb =>
  isNameByte_of_isDigit (isDigit_decimal n b hb)

theorem endsWord_name {b : UInt8} (h : isNameByte b = true) : endsWord b = false := by
  have hne (c : UInt8) (hc : isNameByte c = false) : (b == c) = false := by
    rw [beq_eq_false_iff_ne]
    rintro rfl
    rw [hc] at h
    cases h
  simp only [endsWord, Bool.or_eq_false_iff, decide_eq_false_iff_not]
  refine ⟨⟨⟨⟨?_, ?_⟩, ?_⟩, ?_⟩, ?_⟩ <;> rintro rfl <;> exact absurd h (by decide)

theorem takeWhile_word {w after : Text} (hw : Name w) (hafter : ∀ b ∈ after.head?, endsWord b = true) :
    (w ++ after).takeWhile (! endsWord ·) = w := by
  rw [List.takeWhile_append_of_pos fun b hb => by simp [endsWord_name (hw b hb)]]
  cases after with
  | nil => simp
  | cons c after =>
    rw [List.takeWhile_cons_of_neg (by simp [hafter c (by simp)]), List.append_nil]

/-! Fields. -/

theorem fieldValue_quoted {n : Nat} {s : Text} (hs : s.length < n) (after : Text) :
    fieldValue n (quote s ++ after) = s := by
  rw [quote_append]
  show fieldString (n - 1) (escape s ++ 34 :: after) = s
  rw [fieldString_escape, List.take_of_length_le (by omega)]

theorem fieldValue_word {n : Nat} {w after : Text} (hw : Name w) (hne : w ≠ []) (hlen : w.length < n)
    (hafter : ∀ b ∈ after.head?, endsWord b = true) : fieldValue n (w ++ after) = w := by
  have hquote : ¬(w ++ after).head? = some 34 := by
    cases w with
    | nil => exact absurd rfl hne
    | cons b w =>
      intro h
      obtain rfl := Option.some.inj h
      exact absurd (hw 34 List.mem_cons_self) (by decide)
  unfold fieldValue
  rw [if_neg hquote, takeWhile_word hw hafter, List.take_of_length_le (by omega)]

/-- What is written in front of the fields, between a key and its value, between
two fields and behind the last one. -/
structure Layout where
  opening : Text
  colon : Text
  sep : Text
  closing : Text

structure Layout.Proper (l : Layout) : Prop where
  opening : Bare l.opening
  colon : Bare l.colon
  colon58 : l.colon.head? = some 58
  gap : (l.colon.drop 1).all fun b => b = 32 ∨ b = 9
  sep : Bare l.sep
  sep44 : l.sep.head? = some 44
  closing : ∀ b ∈ l.closing.head?, endsWord b = true

def Layout.text (l : Layout) (fs : List Field) : Text :=
  l.opening ++ (fieldsText l.colon l.sep fs ++ l.closing)

theorem value_not_blank {f : Field} (hf : f.Clean) (hword : ∀ w, f.value = .word w → w ≠ [])
    (after : Text) :
    (f.value.text ++ after).dropWhile (fun b => b = 32 ∨ b = 9) = f.value.text ++ after := by
  obtain ⟨key, value⟩ := f
  cases value with
  | quoted s =>
    show (quote s ++ after).dropWhile _ = quote s ++ after
    rw [quote_append]
    exact List.dropWhile_cons_of_neg (by decide)
  | word w =>
    cases w with
    | nil => exact absurd rfl (hword [] rfl)
    | cons b w =>
      have hb := hf.word _ rfl b List.mem_cons_self
      refine List.dropWhile_cons_of_neg fun h => ?_
      rcases of_decide_eq_true h with rfl | rfl <;> exact absurd hb (by decide)

/-- A key leads to the value of its field. -/
theorem extract_field {l : Layout} (hl : l.Proper) {key : String} (hk : Name (ascii key))
    (hne : ascii key ≠ []) {fs : List Field} {f : Field} (hclean : ∀ g ∈ fs, g.Clean)
    (hword : ∀ w, f.value = .word w → w ≠ [])
    (hf : fs.find? (fun g => g.key = ascii key) = some f) (n : Nat) :
    ∃ after : Text, (∀ b ∈ after.head?, endsWord b = true) ∧
      extractJsonField (l.text fs) key n = fieldValue n (f.value.text ++ after) := by
  obtain ⟨before, after, htext, hafter, h0, hpasses⟩ :=
    strstr_key hl.colon hl.sep hl.colon58 hl.sep44 hk hne hclean hf l.closing
  have hkey : f.key = ascii key := by simpa using List.find?_some hf
  obtain ⟨gap, hcolon⟩ : ∃ gap, l.colon = 58 :: gap := List.head?_eq_some_iff.mp hl.colon58
  have hsearch : quoted (ascii key) ++ [58] = 34 :: (ascii key ++ 34 :: [58]) := by simp [quoted]
  have hfield : f.text l.colon ++ after =
      quoted (ascii key) ++ [58] ++ (gap ++ (f.value.text ++ after)) := by
    simp [Field.text, hkey, quote, quoted, escape_plain hk.plain, hcolon]
  have hfull : l.text fs = l.opening ++ (before ++ (f.text l.colon ++ after)) := by
    rw [Layout.text, htext]
  have hfound : strstr (quoted (ascii key) ++ [58]) (l.text fs) =
      some (before.length + l.opening.length) := by
    have hhere : quoted (ascii key) ++ [58] <+: f.text l.colon ++ after := by
      rw [hfield]
      exact List.prefix_append _ _
    rw [hsearch] at hhere ⊢
    rw [hfull, strstr_passes (passes_plain _ _ hl.opening.1) hl.opening.2,
      strstr_passes hpasses h0, strstr_here hhere]
    simp
  refine ⟨after, ?_, ?_⟩
  · rcases hafter with rfl | h44
    · exact hl.closing
    · intro b hb
      rw [h44, Option.mem_some_iff] at hb
      subst hb
      rfl
  · have hgap : ∀ b ∈ gap, (decide (b = 32 ∨ b = 9)) = true := by
      have hall := hl.gap
      rw [hcolon] at hall
      exact List.all_eq_true.mp hall
    have hdrop : (l.text fs).drop (before.length + l.opening.length + (quoted (ascii key) ++ [58]).length) =
        gap ++ (f.value.text ++ after) := by
      rw [hfull, hfield, Nat.add_comm before.length, Nat.add_assoc, ← List.drop_drop, List.drop_left,
        ← List.drop_drop, List.drop_left, List.drop_left]
    unfold extractJsonField
    simp only [hfound]
    rw [hdrop, List.dropWhile_append_of_pos hgap,
      value_not_blank (hclean f (List.mem_of_find?_eq_some hf)) hword]

theorem extract_quoted {l : Layout} (hl : l.Proper) {key : String} (hk : Name (ascii key))
    (hne : ascii key ≠ []) {fs : List Field} (hclean : ∀ g ∈ fs, g.Clean) {s : Text}
    (hf : fs.find? (fun g => g.key = ascii key) = some ⟨ascii key, .quoted s⟩) {n : Nat}
    (hs : s.length < n) : extractJsonField (l.text fs) key n = s := by
  obtain ⟨after, -, heq⟩ := extract_field hl hk hne hclean (by simp) hf n
  rw [heq]
  exact fieldValue_quoted hs after

theorem extract_word {l : Layout} (hl : l.Proper) {key : String} (hk : Name (ascii key))
    (hne : ascii key ≠ []) {fs : List Field} (hclean : ∀ g ∈ fs, g.Clean) {w : Text}
    (hf : fs.find? (fun g => g.key = ascii key) = some ⟨ascii key, .word w⟩) (hw : w ≠ []) {n : Nat}
    (hlen : w.length < n) : extractJsonField (l.text fs) key n = w := by
  have hname := (hclean _ (List.mem_of_find?_eq_some hf)).word w rfl
  obtain ⟨after, hafter, heq⟩ := extract_field hl hk hne hclean
    (fun w' hw' => by cases hw'; exact hw) hf n
  rw [heq]
  exact fieldValue_word hname hw hlen hafter

end PkgManager.ManifestScan
