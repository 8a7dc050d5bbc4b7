import PkgManager.ControlMessages
import PkgManager.EscapedText
import PkgManager.SettingsApi

namespace PkgManager.ControlFields

open EscapedText
open QuotedText (Plain Passes ReadsAs passes_plain)
open CText (ascii)
open SettingsApi (hexDigit)
open ControlMessages (Text strstr strchr quoted copyValue afterKey wsjString wsjU64 strtoull decimal
  digitsValue isDigit decimalOnto_spec isDigit_bounds strtoull_decimal)

/-- `extract_json_string_value`; the pattern is cut to its buffer of 64 bytes. -/
def extractJsonStringValue (json key : Text) (outMax : Nat) : Option Text :=
  let pattern := (quoted key).take 63
  (strstr pattern json).bind fun p =>
    (strchr 58 (p.drop pattern.length)).bind fun colon =>
      (strchr 34 colon).map fun q => copyValue (outMax - 1) q.tail

/-! A flat object as the page's `JSON.stringify` writes it. -/

def byteMarks (b : UInt8) : List Mark :=
  if b = 34 ∨ b = 92 then [.escaped b]
  else if b = 8 then [.escaped 98]
  else if b = 9 then [.escaped 116]
  else if b = 10 then [.escaped 110]
  else if b = 12 then [.escaped 102]
  else if b = 13 then [.escaped 114]
  else if b < 32 then
    [.escaped 117, .plain 48, .plain 48, .plain (hexDigit (b.toNat / 16)),
      .plain (hexDigit (b.toNat % 16))]
  else [.plain b]

def stringMarks (s : Text) : List Mark := s.flatMap byteMarks

def stringText (s : Text) : Text := string (stringMarks s)

/-- The bytes of the other numbers and of `true`, `false` and `null`. -/
def isLiteralByte (b : UInt8) : Bool :=
  isDigit b || (97 ≤ b && b ≤ 122) || b = 69 || b = 43 || b = 45 || b = 46

/-- A value that is no object and no array; from 10 ^ 21 on integers are written
with an exponent, which makes them literals. -/
inductive Scalar where
  | str (s : Text)
  | num (n : Nat) (h : n < 10 ^ 21)
  | lit (t : Text) (h : ∀ b ∈ t, isLiteralByte b = true)

def Scalar.text : Scalar → Text
  | .str s => stringText s
  | .num n _ => decimal n
  | .lit t _ => t

def memberText (e : Text × Scalar) : Text := stringText e.1 ++ 58 :: e.2.text

/-- The members and the closing brace. -/
def membersText : List (Text × Scalar) → Text
  | [] => [125]
  | [e] => memberText e ++ [125]
  | e :: f :: es => memberText e ++ 44 :: membersText (f :: es)

def stringify (o : List (Text × Scalar)) : Text := 123 :: membersText o

/-! What the pieces of a string look like. -/

theorem stringMarks_cons (b : UInt8) (s : Text) : stringMarks (b :: s) = byteMarks b ++ stringMarks s :=
  List.flatMap_cons

theorem text_stringMarks_cons (b : UInt8) (s : Text) :
    text (stringMarks (b :: s)) = text (byteMarks b) ++ text (stringMarks s) := by
  rw [stringMarks_cons]
  exact List.flatMap_append

/-- A byte that is written as it is. -/
def Ordinary (b : UInt8) : Prop := 32 ≤ b ∧ b ≠ 34 ∧ b ≠ 92

instance (b : UInt8) : Decidable (Ordinary b) := inferInstanceAs (Decidable (_ ∧ _))

theorem byteMarks_ordinary {b : UInt8} (h : Ordinary b) : byteMarks b = [.plain b] := by
  obtain ⟨hlow, h34, h92⟩ := h
  have hne : ∀ c : UInt8, c < 32 → b ≠ c := by
    rintro c hc rfl
    exact absurd hlow (UInt8.not_le.mpr hc)
  unfold byteMarks
  rw [if_neg (by simp [h34, h92]), if_neg (hne 8 (by decide)), if_neg (hne 9 (by decide)),
    if_neg (hne 10 (by decide)), if_neg (hne 12 (by decide)), if_neg (hne 13 (by decide)),
    if_neg (UInt8.not_lt.mpr hlow)]

theorem hexDigit_ordinary {n : Nat} (h : n < 16) : Ordinary (hexDigit n) := by
  have hall : ∀ n < 16, 32 ≤ hexDigit n ∧ hexDigit n ≠ 34 ∧ hexDigit n ≠ 92 := by decide
  exact hall n h

/-- How a byte is written that has a backslash in front. -/
structure Escapes (b c : UInt8) (ms : List Mark) : Prop where
  marks : byteMarks b = .escaped c :: ms
  nonzero : c ≠ 0
  ordinary : ∀ m ∈ ms, ∃ d, m = .plain d ∧ Ordinary d
  quote : c = 34 → b = 34 ∧ ms = []
  changed : b < 32 → b ≠ c

theorem byteMarks_escaped {b : UInt8} (h : ¬Ordinary b) : ∃ c ms, Escapes b c ms := by
  have hshort : ∀ c : UInt8, 34 < c → byteMarks b = [.escaped c] → ∃ c ms, Escapes b c ms := by
    intro c hc hmarks
    refine ⟨c, [], hmarks, ?_, fun m hm => absurd hm List.not_mem_nil, ?_, ?_⟩
    · rintro rfl
      exact absurd hc (by decide)
    · rintro rfl
      exact absurd hc (by decide)
    · rintro hb rfl
      exact UInt8.lt_asymm hb (UInt8.lt_trans (by decide : (32 : UInt8) < 34) hc)
  by_cases hspecial : b = 34 ∨ b = 92
  · have hmarks : byteMarks b = [.escaped b] := if_pos hspecial
    refine ⟨b, [], hmarks, ?_, fun m hm => absurd hm List.not_mem_nil, fun h34 => ⟨h34, rfl⟩, ?_⟩
    · rcases hspecial with rfl | rfl <;> decide
    · rcases hspecial with rfl | rfl <;> exact fun hb => absurd hb (by decide)
  · have hlow : b < 32 := by
      by_contra hb
      rw [not_or] at hspecial
      exact h ⟨UInt8.not_lt.mp hb, hspecial⟩
    by_cases h8 : b = 8
    · exact hshort 98 (by decide) (h8 ▸ rfl)
    by_cases h9 : b = 9
    · exact hshort 116 (by decide) (h9 ▸ rfl)
    by_cases h10 : b = 10
    · exact hshort 110 (by decide) (h10 ▸ rfl)
    by_cases h12 : b = 12
    · exact hshort 102 (by decide) (h12 ▸ rfl)
    by_cases h13 : b = 13
    · exact hshort 114 (by decide) (h13 ▸ rfl)
    have hnat : b.toNat < 32 := UInt8.lt_iff_toNat_lt.mp hlow
    have hmarks : byteMarks b = [.escaped 117, .plain 48, .plain 48, .plain (hexDigit (b.toNat / 16)),
        .plain (hexDigit (b.toNat % 16))] := by
      unfold byteMarks
      rw [if_neg hspecial, if_neg h8, if_neg h9, if_neg h10, if_neg h12, if_neg h13, if_pos hlow]
    refine ⟨117, _, hmarks, by decide, ?_, fun h34 => absurd h34 (by decide), ?_⟩
    · intro m hm
      simp only [List.mem_cons, List.not_mem_nil, or_false] at hm
      rcases hm with rfl | rfl | rfl | rfl
      · exact ⟨48, rfl, by decide, by decide, by decide⟩
      · exact ⟨48, rfl, by decide, by decide, by decide⟩
      · exact ⟨_, rfl, hexDigit_ordinary (by omega)⟩
      · exact ⟨_, rfl, hexDigit_ordinary (by omega)⟩
    · rintro hb rfl
      exact absurd hb (by decide)

theorem byteMarks_proper {b : UInt8} {m : Mark} (hm : m ∈ byteMarks b) : m.Proper := by
  have hplain : ∀ d, Ordinary d → (Mark.plain d).Proper := by
    rintro d ⟨hlow, h34, h92⟩
    refine ⟨h34, h92, ?_⟩
    rintro rfl
    exact absurd hlow (by decide)
  by_cases h : Ordinary b
  · rw [byteMarks_ordinary h, List.mem_singleton] at hm
    exact hm ▸ hplain b h
  · obtain ⟨c, ms, hc⟩ := byteMarks_escaped h
    rw [hc.marks, List.mem_cons] at hm
    rcases hm with rfl | hm
    · exact hc.nonzero
    · obtain ⟨d, rfl, hd⟩ := hc.ordinary m hm
      exact hplain d hd

theorem stringMarks_proper {s : Text} : ∀ m ∈ stringMarks s, m.Proper := by
  intro m hm
  obtain ⟨b, _, hb⟩ := List.mem_flatMap.mp hm
  exact byteMarks_proper hb

/-- Only the quote's own escape holds a quote. -/
theorem quote_not_mem_byte {b : UInt8} (h : b ≠ 34) : 34 ∉ text (byteMarks b) := by
  by_cases ho : Ordinary b
  · rw [byteMarks_ordinary ho]
    exact fun hm => h (List.mem_singleton.mp hm).symm
  · obtain ⟨c, ms, hc⟩ := byteMarks_escaped ho
    rw [hc.marks, text_cons]
    intro hm
    rcases List.mem_append.mp hm with hm | hm
    · rcases List.mem_cons.mp hm with h92 | hm
      · exact absurd h92 (by decide)
      · exact h (hc.quote (List.mem_singleton.mp hm).symm).1
    · obtain ⟨m, hm, h34⟩ := List.mem_flatMap.mp hm
      obtain ⟨d, rfl, hd⟩ := hc.ordinary m hm
      exact hd.2.1 (List.mem_singleton.mp h34).symm

/-- A text that is written as it is. -/
def Literal (w : Text) : Prop := ∀ b ∈ w, Ordinary b

theorem text_literal {w : Text} (h : Literal w) : text (stringMarks w) = w := by
  induction w with
  | nil => rfl
  | cons b w ih =>
    rw [text_stringMarks_cons, byteMarks_ordinary (h b List.mem_cons_self),
      ih fun c hc => h c (List.mem_cons_of_mem b hc)]
    rfl

/-! Where a word between quotes stands in a string. -/

theorem eq_of_prefix_text {w s rest : Text} (hw : Literal w)
    (h : w ++ [34] <+: text (stringMarks s) ++ 34 :: rest) : w = s := by
  induction s generalizing w with
  | nil =>
    cases w with
    | nil => rfl
    | cons b w => exact absurd (List.cons_prefix_cons.mp h).1 (hw b List.mem_cons_self).2.1
  | cons b s ih =>
    rw [text_stringMarks_cons] at h
    by_cases ho : Ordinary b
    · rw [byteMarks_ordinary ho] at h
      cases w with
      | nil => exact absurd (List.cons_prefix_cons.mp h).1.symm ho.2.1
      | cons c w =>
        obtain ⟨rfl, hrest⟩ := List.cons_prefix_cons.mp h
        rw [ih (fun d hd => hw d (List.mem_cons_of_mem c hd)) hrest]
    · obtain ⟨c, ms, hc⟩ := byteMarks_escaped ho
      rw [hc.marks] at h
      cases w with
      | nil => exact absurd (List.cons_prefix_cons.mp h).1 (by decide)
      | cons d w => exact absurd (List.cons_prefix_cons.mp h).1 (hw d List.mem_cons_self).2.2

theorem suffix_of_prefix_drop {w s rest : Text} (hw : Literal w) {i : Nat}
    (hi : i < (text (stringMarks s)).length)
    (h : 34 :: (w ++ [34]) <+: (text (stringMarks s) ++ 34 :: rest).drop i) : 34 :: w <:+ s := by
  induction s generalizing i with
  | nil => exact absurd hi (Nat.not_lt_zero i)
  | cons b s ih =>
    rw [text_stringMarks_cons, List.append_assoc] at h
    rw [text_stringMarks_cons, List.length_append] at hi
    by_cases hlt : i < (text (byteMarks b)).length
    · by_cases h34 : b = 34
      · subst h34
        have hpiece : text (byteMarks 34) = [92, 34] := rfl
        rw [hpiece] at h hlt
        match i with
        | 0 => exact absurd (List.cons_prefix_cons.mp h).1 (by decide)
        | 1 =>
          -- the escaped quote
          obtain rfl := eq_of_prefix_text hw (List.cons_prefix_cons.mp h).2
          exact List.suffix_rfl
        | j + 2 => exact absurd hlt (by simp)
      · exact absurd h (passes_plain _ _ (quote_not_mem_byte h34) i hlt)
    · rw [List.drop_append, List.drop_of_length_le (by omega), List.nil_append] at h
      exact (ih (by omega) h).trans (List.suffix_cons b s)

theorem stringText_append (s rest : Text) :
    stringText s ++ rest = 34 :: (text (stringMarks s) ++ 34 :: rest) := string_append _ rest

theorem length_stringText (s : Text) : (stringText s).length = (text (stringMarks s)).length + 2 := by
  unfold stringText string
  rw [List.length_append, List.length_cons]
  rfl

/-- A word between quotes begins nowhere in a string that does not read as it, and
not at its closing quote either where something else follows. -/
theorem passes_string {w s rest : Text} (hw : Literal w) (hs : ¬ReadsAs w s)
    (hrest : ¬w ++ [34] <+: rest) : Passes (quoted w) (stringText s) rest := by
  intro i hi h
  rw [stringText_append] at h
  rw [length_stringText] at hi
  have hquoted : quoted w = 34 :: (w ++ [34]) := rfl
  rw [hquoted] at h
  cases i with
  | zero =>
    obtain rfl := eq_of_prefix_text hw (List.cons_prefix_cons.mp h).2
    exact hs List.suffix_rfl
  | succ j =>
    rw [List.drop_succ_cons] at h
    by_cases hj : j < (text (stringMarks s)).length
    · exact hs ((suffix_of_prefix_drop hw hj h).trans (List.suffix_cons 34 s))
    · have hlast : j = (text (stringMarks s)).length := by omega
      rw [hlast, List.drop_left] at h
      exact hrest (List.cons_prefix_cons.mp h).2

/-- Where a string reads as the word, the word between quotes stands in it. -/
theorem stands_of_readsAs {w s : Text} (hw : Literal w) (hs : ReadsAs w s) (rest : Text) :
    ∃ j < (stringText s).length, quoted w <+: (stringText s ++ rest).drop j := by
  obtain ⟨t, ht⟩ := hs
  rw [stringText_append, length_stringText]
  cases t with
  | nil =>
    obtain rfl := List.tail_eq_of_cons_eq ht
    refine ⟨0, by omega, rest, ?_⟩
    rw [text_literal hw]
    simp [quoted]
  | cons c t =>
    have hs : s = t ++ 34 :: w := (List.tail_eq_of_cons_eq ht).symm
    have htext : text (stringMarks s) = text (stringMarks t) ++ 92 :: 34 :: w := by
      have hmarks : stringMarks s = stringMarks t ++ stringMarks (34 :: w) := by
        rw [hs]
        exact List.flatMap_append
      have happend : text (stringMarks t ++ stringMarks (34 :: w)) =
          text (stringMarks t) ++ text (stringMarks (34 :: w)) := List.flatMap_append
      rw [hmarks, happend, text_stringMarks_cons, text_literal hw]
      rfl
    refine ⟨(text (stringMarks t)).length + 2, ?_, rest, ?_⟩
    · rw [htext, List.length_append, List.length_cons, List.length_cons]
      omega
    · rw [htext, List.drop_succ_cons, List.append_assoc, ← List.drop_drop, List.drop_left]
      simp [quoted]

/-! What the value loop takes out of a string. -/

theorem copyValue_text {ms : List Mark} (h : ∀ m ∈ ms, m.Proper) (n : Nat) (rest : Text) :
    copyValue n (text ms ++ 34 :: rest) = (unescape ms).take n := by
  induction ms generalizing n with
  | nil =>
    cases n with
    | zero => rfl
    | succ n => rfl
  | cons m ms ih =>
    have hm := h m List.mem_cons_self
    have hmore := ih fun m' hm' => h m' (List.mem_cons_of_mem m hm')
    cases n with
    | zero => rfl
    | succ n =>
      rw [text_cons]
      cases m with
      | plain b =>
        show copyValue (n + 1) (b :: (text ms ++ 34 :: rest)) = b :: (unescape ms).take n
        unfold copyValue
        simp only [if_neg hm.1, if_neg hm.2.1, hmore]
      | escaped b =>
        show copyValue (n + 1) (92 :: b :: (text ms ++ 34 :: rest)) = b :: (unescape ms).take n
        unfold copyValue
        simp only [if_neg (by decide : ¬(92 : UInt8) = 34), if_true, hmore]

/-- Dropping the backslashes gives the string back as far as no control byte comes. -/
theorem unescape_take (s : Text) (n : Nat) :
    (unescape (stringMarks s)).take n = s.take n ↔ ∀ b ∈ s.take n, 32 ≤ b := by
  induction s generalizing n with
  | nil => simp [stringMarks, unescape]
  | cons b s ih =>
    cases n with
    | zero => simp
    | succ n =>
      have hsplit : unescape (stringMarks (b :: s)) =
          unescape (byteMarks b) ++ unescape (stringMarks s) := by
        rw [stringMarks_cons]
        exact List.map_append
      rw [hsplit, List.take_succ_cons, List.forall_mem_cons, ← ih n]
      by_cases hlow : b < 32
      · have hnot : ¬Ordinary b := fun ho => UInt8.not_lt.mpr ho.1 hlow
        obtain ⟨c, ms, hc⟩ := byteMarks_escaped hnot
        rw [hc.marks]
        refine iff_of_false (fun heq => ?_) fun hle => UInt8.not_lt.mpr hle.1 hlow
        exact hc.changed hlow (List.cons.inj heq).1.symm
      · have hone : unescape (byteMarks b) = [b] := by
          by_cases ho : Ordinary b
          · rw [byteMarks_ordinary ho]
            rfl
          · have hspecial : b = 34 ∨ b = 92 := by
              by_contra hb
              rw [not_or] at hb
              exact ho ⟨UInt8.not_lt.mp hlow, hb⟩
            rw [byteMarks, if_pos hspecial]
            rfl
        rw [hone, List.singleton_append, List.take_succ_cons]
        constructor
        · exact fun heq => ⟨UInt8.not_lt.mp hlow, (List.cons.inj heq).2⟩
        · exact fun h => congrArg (b :: ·) h.2

/-! Finding a key. -/

theorem strstr_passes {pat t rest : Text} (h : Passes pat t rest) :
    strstr pat (t ++ rest) = strstr pat rest := by
  induction t with
  | nil => rfl
  | cons b t ih =>
    have hnot : ¬pat.isPrefixOf (b :: (t ++ rest)) = true := fun hpre =>
      h 0 (by simp) (List.isPrefixOf_iff_prefix.mp hpre)
    rw [List.cons_append, strstr, if_neg hnot]
    exact ih fun i hi => h (i + 1) (by simpa using hi)

theorem strstr_here {pat t : Text} (h : pat <+: t) : strstr pat t = some t := by
  cases t with
  | nil =>
    rw [List.prefix_nil.mp h]
    rfl
  | cons b t => rw [strstr, if_pos (List.isPrefixOf_iff_prefix.mpr h)]

/-- Where the pattern stands somewhere, what is found is at least as long. -/
theorem strstr_length {pat t : Text} {j : Nat} (h : pat <+: t.drop j) :
    ∃ p, strstr pat t = some p ∧ t.length - j ≤ p.length := by
  induction t generalizing j with
  | nil =>
    rw [List.drop_nil] at h
    exact ⟨[], strstr_here h, by simp⟩
  | cons b t ih =>
    by_cases hpre : pat <+: b :: t
    · exact ⟨b :: t, strstr_here hpre, Nat.sub_le _ _⟩
    · cases j with
      | zero => exact absurd h hpre
      | succ j =>
        obtain ⟨p, hp, hle⟩ := ih h
        have hnot : ¬pat.isPrefixOf (b :: t) = true := fun h => hpre (List.isPrefixOf_iff_prefix.mp h)
        refine ⟨p, ?_, ?_⟩
        · rw [strstr, if_neg hnot, hp]
        · rw [List.length_cons]
          omega

/-- What a caller looks for: a short name without quote, backslash, control byte,
colon and comma. -/
structure FieldName (k : Text) : Prop where
  literal : Literal k
  colon : 58 ∉ k
  comma : 44 ∉ k
  short : k.length ≤ 61

/-- The value reads as the key, to the search. -/
def Scalar.ReadsAs (k : Text) : Scalar → Prop
  | .str s => QuotedText.ReadsAs k s
  | .num _ _ => False
  | .lit _ _ => False

instance (k : Text) : (v : Scalar) → Decidable (v.ReadsAs k)
  | .str s => inferInstanceAs (Decidable (QuotedText.ReadsAs k s))
  | .num _ _ => isFalse id
  | .lit _ _ => isFalse id

theorem FieldName.not_prefix {k : Text} (h : FieldName k) {c : UInt8} (hc : c = 58 ∨ c = 44)
    (rest : Text) : ¬k ++ [34] <+: c :: rest := by
  intro hpre
  cases k with
  | nil =>
    have h34 := (List.cons_prefix_cons.mp hpre).1
    rcases hc with rfl | rfl <;> exact absurd h34 (by decide)
  | cons b k =>
    obtain rfl := (List.cons_prefix_cons.mp hpre).1
    rcases hc with rfl | rfl
    · exact h.colon List.mem_cons_self
    · exact h.comma List.mem_cons_self

theorem quote_not_mem_decimal (n : Nat) : 34 ∉ decimal n := by
  obtain ⟨ds, heq, _, hdigits, _⟩ := decimalOnto_spec (Nat.lt_succ_self n) []
  have hdec : decimal n = ds := heq.trans (List.append_nil ds)
  rw [hdec]
  exact fun hm => absurd (hdigits 34 hm) (by decide)

/-- A member that does not read as the key is passed over. -/
theorem passes_member {k : Text} (hk : FieldName k) {e : Text × Scalar} (hkey : ¬ReadsAs k e.1)
    (hvalue : ¬e.2.ReadsAs k) (rest : Text) : Passes (quoted k) (memberText e) (44 :: rest) := by
  have hvaluePasses : Passes (quoted k) e.2.text (44 :: rest) := by
    cases hv : e.2 with
    | str s =>
      rw [hv] at hvalue
      exact passes_string hk.literal hvalue (hk.not_prefix (.inr rfl) rest)
    | num n _ => exact passes_plain _ _ (quote_not_mem_decimal n)
    | lit t ht => exact passes_plain _ _ fun hm => absurd (ht 34 hm) (by decide)
  have hcolon : Passes (quoted k) [58] (e.2.text ++ 44 :: rest) := passes_plain _ _ (by decide)
  refine Passes.append (u := 58 :: e.2.text) ?_ (Passes.append (t := [58]) hcolon hvaluePasses)
  exact passes_string hk.literal hkey (hk.not_prefix (.inl rfl) _)

theorem membersText_cons (e : Text × Scalar) {es : List (Text × Scalar)} (h : es ≠ []) :
    membersText (e :: es) = memberText e ++ 44 :: membersText es := by
  cases es with
  | nil => exact absurd rfl h
  | cons f es => rfl

/-- Nothing in front of the key's own member reads as the key. -/
def Unshadowed (o : List (Text × Scalar)) (k : Text) : Prop :=
  ∀ e ∈ o.takeWhile (fun e => e.1 ≠ k), ¬ReadsAs k e.1 ∧ ¬e.2.ReadsAs k

instance (o : List (Text × Scalar)) (k : Text) : Decidable (Unshadowed o k) :=
  inferInstanceAs (Decidable (∀ e ∈ _, _))

/-- The text from the key's own member on. -/
def ownText (o : List (Text × Scalar)) (k : Text) : Text := membersText (o.dropWhile fun e => e.1 ≠ k)

theorem own_prefix {k : Text} (hk : FieldName k) {e : Text × Scalar} (he : e.1 = k)
    (es : List (Text × Scalar)) : ∃ rest, membersText (e :: es) =
      quoted k ++ 58 :: (e.2.text ++ rest) ∧ ∀ b ∈ rest.head?, b = 44 ∨ b = 125 := by
  have hkey : stringText e.1 = quoted k := by
    unfold stringText string
    rw [he, text_literal hk.literal]
    rfl
  cases es with
  | nil =>
    refine ⟨[125], ?_, fun b hb => .inr (Option.some.inj hb).symm⟩
    show memberText e ++ [125] = _
    unfold memberText
    rw [hkey, List.append_assoc]
    rfl
  | cons f es =>
    refine ⟨44 :: membersText (f :: es), ?_, fun b hb => .inl (Option.some.inj hb).symm⟩
    rw [membersText_cons e (List.cons_ne_nil f es)]
    unfold memberText
    rw [hkey, List.append_assoc]
    rfl

theorem member_stands {k : Text} (hk : FieldName k) {e : Text × Scalar}
    (h : ReadsAs k e.1 ∨ e.2.ReadsAs k) (rest : Text) :
    ∃ j < (memberText e).length, quoted k <+: (memberText e ++ rest).drop j := by
  unfold memberText
  rcases h with h | h
  · obtain ⟨j, hj, hpre⟩ := stands_of_readsAs hk.literal h ((58 :: e.2.text) ++ rest)
    refine ⟨j, ?_, ?_⟩
    · rw [List.length_append]
      omega
    · rw [List.append_assoc]
      exact hpre
  · cases hv : e.2 with
    | num n _ =>
      rw [hv] at h
      exact h.elim
    | lit t _ =>
      rw [hv] at h
      exact h.elim
    | str s =>
      rw [hv] at h
      obtain ⟨j, hj, hpre⟩ := stands_of_readsAs hk.literal h rest
      refine ⟨(stringText e.1).length + (j + 1), ?_, ?_⟩
      · rw [List.length_append, List.length_cons]
        exact Nat.add_lt_add_left (Nat.succ_lt_succ hj) _
      · rw [List.append_assoc, ← List.drop_drop, List.drop_left]
        exact hpre

theorem own_length_le (o : List (Text × Scalar)) (k : Text) :
    (ownText o k).length ≤ (membersText o).length := by
  induction o with
  | nil => exact Nat.le_refl _
  | cons e o ih =>
    unfold ownText at ih ⊢
    by_cases he : e.1 = k
    · rw [List.dropWhile_cons_of_neg (by simp [he])]
    · rw [List.dropWhile_cons_of_pos (by simp [he])]
      refine Nat.le_trans ih ?_
      cases o with
      | nil =>
        show 1 ≤ (memberText e ++ [125]).length
        rw [List.length_append]
        exact Nat.le_add_left 1 _
      | cons f o =>
        rw [membersText_cons e (List.cons_ne_nil f o), List.length_append, List.length_cons]
        omega

theorem strstr_members {k : Text} (hk : FieldName k) {o : List (Text × Scalar)}
    (hmem : ∃ v, (k, v) ∈ o) :
    strstr (quoted k) (membersText o) = some (ownText o k) ↔ Unshadowed o k := by
  induction o with
  | nil =>
    obtain ⟨v, hv⟩ := hmem
    cases hv
  | cons e o ih =>
    unfold ownText Unshadowed
    by_cases he : e.1 = k
    · rw [List.dropWhile_cons_of_neg (by simp [he]), List.takeWhile_cons_of_neg (by simp [he])]
      obtain ⟨rest, hown, _⟩ := own_prefix hk he o
      refine iff_of_true ?_ fun _ h => absurd h List.not_mem_nil
      rw [hown]
      exact strstr_here (List.prefix_append _ _)
    · have hrest : ∃ v, (k, v) ∈ o := by
        obtain ⟨v, hv⟩ := hmem
        rcases List.mem_cons.mp hv with rfl | hv
        · exact absurd rfl he
        · exact ⟨v, hv⟩
      have hne : o ≠ [] := by
        rintro rfl
        obtain ⟨v, hv⟩ := hrest
        cases hv
      rw [List.dropWhile_cons_of_pos (by simp [he]), List.takeWhile_cons_of_pos (by simp [he]),
        List.forall_mem_cons, membersText_cons e hne]
      by_cases hreads : ReadsAs k e.1 ∨ e.2.ReadsAs k
      · -- the key is found in front of its member
        obtain ⟨j, hj, hpre⟩ := member_stands hk hreads (44 :: membersText o)
        obtain ⟨p, hp, hle⟩ := strstr_length hpre
        have hown := own_length_le o k
        refine iff_of_false (fun heq => ?_) fun h => hreads.elim h.1.1 h.1.2
        obtain rfl := Option.some.inj (hp.symm.trans heq)
        rw [List.length_append, List.length_cons] at hle
        unfold ownText at hown
        omega
      · rw [not_or] at hreads
        have hcomma : Passes (quoted k) [44] (membersText o) := passes_plain _ _ (by decide)
        have hskip : strstr (quoted k) (44 :: membersText o) = strstr (quoted k) (membersText o) :=
          strstr_passes hcomma
        rw [strstr_passes (passes_member hk hreads.1 hreads.2 _), hskip]
        exact (ih hrest).trans ⟨fun h => ⟨hreads, h⟩, fun h => h.2⟩

/-! What the extractors return. -/

/-- The string is kept where no control byte stands in what the buffer takes, and a
number where it has 64 bits. -/
def Scalar.Kept (max : Nat) : Scalar → Prop
  | .str s => ∀ b ∈ s.take (max - 1), 32 ≤ b
  | .num n _ => n < 2 ^ 64
  | .lit _ _ => True

instance (max : Nat) : (v : Scalar) → Decidable (v.Kept max)
  | .str s => List.decidableBAll _ (s.take (max - 1))
  | .num n _ => inferInstanceAs (Decidable (n < 2 ^ 64))
  | .lit _ _ => isTrue trivial

/-- The extractors return the value of the key, a string as far as the buffer takes it. -/
def Scalar.Returned (json k : Text) (max : Nat) : Scalar → Prop
  | .str s => wsjString json k max = some (s.take (max - 1)) ∧
      extractJsonStringValue json k max = some (s.take (max - 1))
  | .num n _ => wsjU64 json k = some n
  | .lit _ _ => True

/-- The key is found at its own member, and its value is returned. -/
def Extracted (o : List (Text × Scalar)) (k : Text) (v : Scalar) (max : Nat) : Prop :=
  strstr (quoted k) (stringify o) = some (ownText o k) ∧ v.Returned (stringify o) k max

theorem extract_eq_wsj {k : Text} (hk : FieldName k) (json : Text) (max : Nat) :
    extractJsonStringValue json k max = wsjString json k max := by
  have hcut : (quoted k).take 63 = quoted k := by
    refine List.take_of_length_le ?_
    have hshort := hk.short
    show (34 :: (k ++ [34])).length ≤ 63
    rw [List.length_cons, List.length_append]
    show k.length + 1 + 1 ≤ 63
    omega
  unfold extractJsonStringValue wsjString afterKey
  rw [hcut, Option.bind_assoc]

theorem afterKey_own {k json rest : Text} (h : strstr (quoted k) json = some (quoted k ++ 58 :: rest)) :
    afterKey json k = some (58 :: rest) := by
  unfold afterKey
  rw [h, Option.bind_some, List.drop_left]
  rfl

theorem wsjString_own {k json rest : Text} (s : Text) (max : Nat)
    (h : strstr (quoted k) json = some (quoted k ++ 58 :: (stringText s ++ rest))) :
    wsjString json k max = some ((unescape (stringMarks s)).take (max - 1)) := by
  unfold wsjString
  rw [afterKey_own h, Option.bind_some, stringText_append]
  show some (copyValue (max - 1) (text (stringMarks s) ++ 34 :: rest)) = _
  rw [copyValue_text stringMarks_proper]

theorem wsjU64_own {k json rest : Text} (n : Nat) (hrest : ∀ b ∈ rest.head?, b = 44 ∨ b = 125)
    (h : strstr (quoted k) json = some (quoted k ++ 58 :: (decimal n ++ rest))) :
    wsjU64 json k = some (if 2 ^ 64 ≤ n then 2 ^ 64 - 1 else n) := by
  obtain ⟨ds, heq, hne, hdigits, _⟩ := decimalOnto_spec (Nat.lt_succ_self n) []
  have hdec : decimal n = ds := heq.trans (List.append_nil ds)
  have hend : ∀ c ∈ rest.head?, isDigit c = false := by
    intro c hc
    rcases hrest c hc with rfl | rfl <;> decide
  have hnum := strtoull_decimal n hend
  unfold wsjU64
  rw [afterKey_own h, Option.map_some, List.tail_cons]
  cases ds with
  | nil => exact absurd rfl hne
  | cons d ds =>
    have hb := isDigit_bounds (hdigits d List.mem_cons_self)
    have hblank : ¬(d = 32 || d = 9) = true := by
      simp only [Bool.or_eq_true, decide_eq_true_eq, not_or]
      constructor <;> rintro rfl <;> exact absurd hb.1 (by decide)
    have h34 : ¬some d = some 34 := by
      intro heq
      obtain rfl := Option.some.inj heq
      exact absurd hb.1 (by decide)
    rw [hdec] at hnum ⊢
    rw [List.cons_append] at hnum ⊢
    have hskip : (d :: (ds ++ rest)).dropWhile (fun c => c = 32 || c = 9) = d :: (ds ++ rest) :=
      List.dropWhile_cons_of_neg hblank
    simp only [hskip, List.head?_cons, if_neg h34, hnum]

theorem own_member {o : List (Text × Scalar)} (hkeys : (o.map Prod.fst).Nodup) {k : Text} {v : Scalar}
    (hmem : (k, v) ∈ o) : ∃ es, (o.dropWhile fun e => e.1 ≠ k) = (k, v) :: es := by
  induction o with
  | nil => cases hmem
  | cons e o ih =>
    rw [List.map_cons, List.nodup_cons] at hkeys
    by_cases he : e.1 = k
    · rw [List.dropWhile_cons_of_neg (by simp [he])]
      rcases List.mem_cons.mp hmem with rfl | hmem
      · exact ⟨o, rfl⟩
      · exact absurd (List.mem_map.mpr ⟨_, hmem, he.symm⟩) hkeys.1
    · rw [List.dropWhile_cons_of_pos (by simp [he])]
      rcases List.mem_cons.mp hmem with rfl | hmem
      · exact absurd rfl he
      · exact ih hkeys.2 hmem

theorem strstr_stringify {k : Text} (hk : FieldName k) {o : List (Text × Scalar)}
    (hmem : ∃ v, (k, v) ∈ o) :
    strstr (quoted k) (stringify o) = some (ownText o k) ↔ Unshadowed o k := by
  have hbrace : Passes (quoted k) [123] (membersText o) := passes_plain _ _ (by decide)
  have hskip : strstr (quoted k) (stringify o) = strstr (quoted k) (membersText o) :=
    strstr_passes hbrace
  rw [hskip]
  exact strstr_members hk hmem

/-- Once the key is found the value decides. -/
theorem returned_own {k json rest : Text} (hk : FieldName k) {v : Scalar} (max : Nat)
    (hrest : ∀ b ∈ rest.head?, b = 44 ∨ b = 125)
    (h : strstr (quoted k) json = some (quoted k ++ 58 :: (v.text ++ rest))) :
    v.Returned json k max ↔ v.Kept max := by
  cases v with
  | str s =>
    show wsjString json k max = _ ∧ extractJsonStringValue json k max = _ ↔ _
    rw [extract_eq_wsj hk, and_self, wsjString_own s max h, Option.some_inj, unescape_take]
    rfl
  | num n hn =>
    show wsjU64 json k = some n ↔ n < 2 ^ 64
    rw [wsjU64_own n hrest h, Option.some_inj]
    split_ifs with hlarge
    · exact iff_of_false (by omega) (by omega)
    · exact iff_of_true rfl (Nat.not_le.mp hlarge)
  | lit t _ => exact Iff.rfl

/-- The fields of a flat object are extracted exactly where nothing in front of a key
reads as it, no control byte is among what is kept of a string, and a number has 64 bits. -/
theorem control_fields_extracted {o : List (Text × Scalar)} (hkeys : (o.map Prod.fst).Nodup)
    {k : Text} (hk : FieldName k) {v : Scalar} (hmem : (k, v) ∈ o) (max : Nat) :
    Extracted o k v max ↔ Unshadowed o k ∧ v.Kept max := by
  obtain ⟨es, hes⟩ := own_member hkeys hmem
  obtain ⟨rest, hown, hrest⟩ := own_prefix hk (show (k, v).1 = k from rfl) es
  have htext : ownText o k = quoted k ++ 58 :: (v.text ++ rest) := by
    unfold ownText
    rw [hes, hown]
  have hfound := strstr_stringify hk ⟨v, hmem⟩
  constructor
  · rintro ⟨hstr, hreturned⟩
    rw [htext] at hstr
    exact ⟨hfound.mp (htext ▸ hstr), (returned_own hk max hrest hstr).mp hreturned⟩
  · rintro ⟨hunshadowed, hkept⟩
    have hstr := hfound.mpr hunshadowed
    refine ⟨hstr, ?_⟩
    rw [htext] at hstr
    exact (returned_own hk max hrest hstr).mpr hkept

/-- `{"op":"init","filename":"a.pkg","total":1024}`. -/
def initFields : List (Text × Scalar) :=
  [(ascii "op", .str (ascii "init")), (ascii "filename", .str (ascii "a.pkg")),
    (ascii "total", .num 1024 (by decide))]

theorem fieldName_filename : FieldName (ascii "filename") :=
  ⟨by unfold Literal; decide +kernel, by decide, by decide, by decide⟩

theorem control_fields_extracted_init :
    Extracted initFields (ascii "filename") (.str (ascii "a.pkg")) 256 := by
  have hkeys : (initFields.map Prod.fst).Nodup := by decide
  have hmem : (ascii "filename", .str (ascii "a.pkg")) ∈ initFields :=
    List.mem_cons_of_mem _ List.mem_cons_self
  exact (control_fields_extracted hkeys fieldName_filename hmem 256).mpr ⟨by decide, by decide⟩

/-- `{"op":"init","filename":"a\nb"}` with the line break written as `\n`. -/
def brokenName : List (Text × Scalar) :=
  [(ascii "op", .str (ascii "init")), (ascii "filename", .str [97, 10, 98])]

/-- `{"title_name":"filename","total":5,"filename":"a.pkg"}`. -/
def namedTitle : List (Text × Scalar) :=
  [(ascii "title_name", .str (ascii "filename")), (ascii "total", .num 5 (by decide)),
    (ascii "filename", .str (ascii "a.pkg"))]

/-- A line break comes out as the letter n, and a title is taken for the key it spells. -/
theorem control_fields_extracted_fails :
    ((brokenName.map Prod.fst).Nodup ∧ FieldName (ascii "filename") ∧
      (ascii "filename", .str [97, 10, 98]) ∈ brokenName ∧
      wsjString (stringify brokenName) (ascii "filename") 256 = some [97, 110, 98] ∧
      ¬Extracted brokenName (ascii "filename") (.str [97, 10, 98]) 256) ∧
    ((namedTitle.map Prod.fst).Nodup ∧
      (ascii "filename", .str (ascii "a.pkg")) ∈ namedTitle ∧
      wsjString (stringify namedTitle) (ascii "filename") 256 = some (ascii "filename") ∧
      ¬Extracted namedTitle (ascii "filename") (.str (ascii "a.pkg")) 256) := by
  have hbroken : wsjString (stringify brokenName) (ascii "filename") 256 = some [97, 110, 98] := by
    decide +kernel
  have htitle : wsjString (stringify namedTitle) (ascii "filename") 256 = some (ascii "filename") := by
    decide +kernel
  refine ⟨⟨by decide, fieldName_filename, List.mem_cons_of_mem _ List.mem_cons_self, hbroken, ?_⟩,
    by decide, List.mem_cons_of_mem _ (List.mem_cons_of_mem _ List.mem_cons_self), htitle, ?_⟩
  · rintro ⟨_, hreturned, _⟩
    rw [hbroken] at hreturned
    exact absurd hreturned (by decide)
  · rintro ⟨_, hreturned, _⟩
    rw [htitle] at hreturned
    exact absurd hreturned (by decide)

end PkgManager.ControlFields
