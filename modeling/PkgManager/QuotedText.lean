import PkgManager.CText

namespace PkgManager.QuotedText

open CText

/-! Strings between quotes (34), in which a backslash (92) stands in front of a
quote and of a backslash. -/

def escapeByte (b : UInt8) : List UInt8 := if b = 34 ∨ b = 92 then [92, b] else [b]

def escape (s : List UInt8) : List UInt8 := s.flatMap escapeByte

/-- A text that can be written between quotes as it is. -/
def Plain (w : List UInt8) : Prop := ∀ b ∈ w, b ≠ 34 ∧ b ≠ 92

instance (w : List UInt8) : Decidable (Plain w) := List.decidableBAll _ w

theorem escapeByte_special {b : UInt8} (h : b = 34 ∨ b = 92) : escapeByte b = [92, b] := if_pos h

theorem escapeByte_plain {b : UInt8} (h : ¬(b = 34 ∨ b = 92)) : escapeByte b = [b] := if_neg h

theorem escape_cons (b : UInt8) (s : List UInt8) : escape (b :: s) = escapeByte b ++ escape s :=
  List.flatMap_cons

theorem escape_plain {w : List UInt8} (h : Plain w) : escape w = w := by
  induction w with
  | nil => rfl
  | cons b w ih =>
    have hb := h b List.mem_cons_self
    rw [escape_cons, escapeByte_plain (by simp [hb.1, hb.2]),
      ih fun c hc => h c (List.mem_cons_of_mem b hc)]
    rfl

theorem mem_escape {b : UInt8} (hb : b ≠ 92) (s : List UInt8) : b ∈ escape s ↔ b ∈ s := by
  induction s with
  | nil => rfl
  | cons c s ih =>
    rw [escape_cons, List.mem_append, List.mem_cons, ih]
    by_cases hc : c = 34 ∨ c = 92
    · rw [escapeByte_special hc]
      simp [hb]
    · rw [escapeByte_plain hc]
      simp

/-! A pattern that begins with a quote, in a text of quoted strings. -/

/-- The pattern begins nowhere in the text in front of the rest. -/
def Passes (pat t rest : List UInt8) : Prop := ∀ i < t.length, ¬pat <+: (t ++ rest).drop i

theorem Passes.append {pat t u rest : List UInt8} (ht : Passes pat t (u ++ rest))
    (hu : Passes pat u rest) : Passes pat (t ++ u) rest := by
  intro i hi hpre
  rw [List.append_assoc] at hpre
  by_cases hlt : i < t.length
  · exact ht i hlt hpre
  · rw [List.length_append] at hi
    rw [List.drop_append, List.drop_of_length_le (by omega), List.nil_append] at hpre
    exact hu (i - t.length) (by omega) hpre

theorem strstr_passes {pat t rest : List UInt8} (h : Passes pat t rest) (h0 : 0 ∉ t) :
    strstr pat (t ++ rest) = (strstr pat rest).map (· + t.length) := by
  induction t with
  | nil => simp
  | cons b t ih =>
    have hnot : ¬pat.isPrefixOf (b :: (t ++ rest)) = true := fun hpre =>
      h 0 (by simp) (List.isPrefixOf_iff_prefix.mp hpre)
    have hb : b ≠ 0 := fun hb => h0 (hb ▸ List.mem_cons_self)
    have htail : Passes pat t rest := fun i hi => h (i + 1) (by simpa using hi)
    rw [List.cons_append, strstr, if_neg hnot, if_neg hb,
      ih htail fun h => h0 (List.mem_cons_of_mem b h), Option.map_map]
    congr 1

theorem strstr_here {pat t : List UInt8} (h : pat <+: t) : strstr pat t = some 0 := by
  cases t with
  | nil =>
    unfold strstr
    rw [if_pos (List.prefix_nil.mp h)]
  | cons b t =>
    unfold strstr
    rw [if_pos (List.isPrefixOf_iff_prefix.mpr h)]

theorem passes_plain {c : UInt8} {t : List UInt8} (pat rest : List UInt8) (ht : c ∉ t) :
    Passes (c :: pat) t rest := by
  intro i hi hpre
  rw [List.drop_append_of_le_length (by omega), List.drop_eq_getElem_cons hi,
    List.cons_append] at hpre
  exact ht ((List.cons_prefix_cons.mp hpre).1 ▸ List.getElem_mem hi)

theorem strchr_here {c : UInt8} {before : List UInt8} (rest : List UInt8) (hfree : c ∉ before)
    (h0 : 0 ∉ before) :
    strchr c (before ++ c :: rest) = some before.length := by
  rw [strchr, strstr_passes (passes_plain [] _ hfree) h0, strstr_here (by simp)]
  simp

/-- Where a pattern stands somewhere it is found there or in front of it. -/
theorem strstr_of_prefix_drop {pat t : List UInt8} {j : Nat} (h : pat <+: t.drop j)
    (h0 : 0 ∉ t.take j) : ∃ i ≤ j, strstr pat t = some i ∧ pat <+: t.drop i := by
  induction t generalizing j with
  | nil =>
    rw [List.drop_nil] at h
    exact ⟨0, Nat.zero_le j, strstr_here h, h⟩
  | cons b t ih =>
    by_cases hpre : pat <+: b :: t
    · exact ⟨0, Nat.zero_le j, strstr_here hpre, hpre⟩
    · cases j with
      | zero => exact absurd h hpre
      | succ j =>
        rw [List.take_succ_cons, List.mem_cons, not_or] at h0
        obtain ⟨i, hij, hfound, hi⟩ := ih h h0.2
        have hnot : ¬pat.isPrefixOf (b :: t) = true := fun h => hpre (List.isPrefixOf_iff_prefix.mp h)
        refine ⟨i + 1, Nat.succ_le_succ hij, ?_, hi⟩
        rw [strstr, if_neg hnot, if_neg (Ne.symm h0.1), hfound]
        rfl

/-- A plain word up to a quote is a whole string. -/
theorem eq_of_plain_prefix {w s tail rest : List UInt8} (hw : Plain w)
    (h : w ++ 34 :: tail <+: escape s ++ 34 :: rest) : w = s ∧ tail <+: rest := by
  induction s generalizing w with
  | nil =>
    cases w with
    | nil => exact ⟨rfl, (List.cons_prefix_cons.mp h).2⟩
    | cons b w => exact absurd (List.cons_prefix_cons.mp h).1 (hw b List.mem_cons_self).1
  | cons c s ih =>
    rw [escape_cons] at h
    by_cases hc : c = 34 ∨ c = 92
    · rw [escapeByte_special hc] at h
      cases w with
      | nil => exact absurd (List.cons_prefix_cons.mp h).1 (by decide)
      | cons b w => exact absurd (List.cons_prefix_cons.mp h).1 (hw b List.mem_cons_self).2
    · rw [escapeByte_plain hc] at h
      cases w with
      | nil => exact absurd (List.cons_prefix_cons.mp h).1 fun h34 => hc (.inl h34.symm)
      | cons b w =>
        obtain ⟨rfl, htail⟩ := List.cons_prefix_cons.mp h
        obtain ⟨rfl, hrest⟩ := ih (fun d hd => hw d (List.mem_cons_of_mem b hd)) htail
        exact ⟨rfl, hrest⟩

/-- With its quotes the string ends in the word behind a quote. -/
def ReadsAs (w s : List UInt8) : Prop := 34 :: w <:+ 34 :: s

instance (w s : List UInt8) : Decidable (ReadsAs w s) := inferInstanceAs (Decidable (_ <:+ _))

/-- The word between quotes stands in a text, and behind it the tail. -/
structure Stands (w s tail rest text : List UInt8) : Prop where
  reads : ReadsAs w s
  tail : tail <+: rest
  text : text = 34 :: (w ++ 34 :: rest)

/-- A word between quotes within a string begins with a quote of the string's own
and ends where the string does. -/
theorem stands_of_prefix_drop {w s tail rest : List UInt8} (hw : Plain w) {i : Nat}
    (hi : i < (escape s).length)
    (h : 34 :: (w ++ 34 :: tail) <+: (escape s ++ 34 :: rest).drop i) :
    34 :: w <:+ s ∧ tail <+: rest ∧
      (escape s ++ 34 :: rest).drop i = 34 :: (w ++ 34 :: rest) := by
  induction s generalizing i with
  | nil => exact absurd hi (Nat.not_lt_zero i)
  | cons c s ih =>
    have hmore {j : Nat} (hj : j < (escape s).length)
        (h : 34 :: (w ++ 34 :: tail) <+: (escape s ++ 34 :: rest).drop j) :
        34 :: w <:+ c :: s ∧ tail <+: rest ∧
          (escape s ++ 34 :: rest).drop j = 34 :: (w ++ 34 :: rest) :=
      ⟨(ih hj h).1.trans (List.suffix_cons c s), (ih hj h).2⟩
    rw [escape_cons] at h hi ⊢
    by_cases hc : c = 34 ∨ c = 92
    · rw [escapeByte_special hc] at h hi ⊢
      match i with
      | 0 => exact absurd (List.cons_prefix_cons.mp h).1 (by decide)
      | 1 =>
        -- the escaped quote
        obtain ⟨rfl, hrest⟩ := List.cons_prefix_cons.mp h
        obtain ⟨rfl, htail⟩ := eq_of_plain_prefix hw hrest
        refine ⟨List.suffix_rfl, htail, ?_⟩
        rw [escape_plain hw]
        rfl
      | j + 2 => exact hmore (by simpa using hi) h
    · rw [escapeByte_plain hc] at h hi ⊢
      cases i with
      | zero => exact absurd (List.cons_prefix_cons.mp h).1 fun h34 => hc (.inl h34.symm)
      | succ j => exact hmore (by simpa using hi) h

def quote (s : List UInt8) : List UInt8 := 34 :: escape s ++ [34]

theorem quote_append (s rest : List UInt8) : quote s ++ rest = 34 :: (escape s ++ 34 :: rest) := by
  simp [quote]

/-- Where a word between quotes begins in a quoted string, the string reads as it;
the closing quote begins none when what follows is not the word. -/
theorem stands_of_prefix_quote {w s tail rest : List UInt8} (hw : Plain w)
    (hrest : ¬w ++ 34 :: tail <+: rest) {i : Nat} (hi : i < (quote s).length)
    (h : 34 :: (w ++ 34 :: tail) <+: (quote s ++ rest).drop i) :
    Stands w s tail rest ((quote s ++ rest).drop i) := by
  rw [quote_append] at h ⊢
  cases i with
  | zero =>
    obtain ⟨rfl, htail⟩ := eq_of_plain_prefix hw (List.cons_prefix_cons.mp h).2
    exact ⟨List.suffix_rfl, htail, by rw [escape_plain hw]; rfl⟩
  | succ j =>
    rw [List.drop_succ_cons] at h ⊢
    by_cases hj : j < (escape s).length
    · obtain ⟨hsuffix, htail, htext⟩ := stands_of_prefix_drop hw hj h
      exact ⟨hsuffix.trans (List.suffix_cons 34 s), htail, htext⟩
    · have hlast : j = (escape s).length := by
        simp only [quote, List.length_append, List.length_cons, List.length_nil] at hi
        omega
      rw [hlast, List.drop_left] at h
      exact absurd (List.cons_prefix_cons.mp h).2 hrest

theorem passes_quote {w s tail rest : List UInt8} (hw : Plain w)
    (hs : ¬(ReadsAs w s ∧ tail <+: rest)) (hrest : ¬w ++ 34 :: tail <+: rest) :
    Passes (34 :: (w ++ 34 :: tail)) (quote s) rest := by
  intro i hi h
  have hstands := stands_of_prefix_quote hw hrest hi h
  exact hs ⟨hstands.reads, hstands.tail⟩

theorem zero_not_mem_quote {s : List UInt8} (h : 0 ∉ s) : 0 ∉ quote s := by
  unfold quote
  simp only [List.cons_append, List.mem_cons, List.mem_append, List.not_mem_nil, or_false,
    mem_escape (b := 0) (by decide) s]
  rintro (h0 | h0 | h0)
  · exact absurd h0 (by decide)
  · exact h h0
  · exact absurd h0 (by decide)

/-- The word between quotes is found where a string reads as it. -/
theorem strstr_quote {w s rest : List UInt8} (hw : Plain w) (h0 : 0 ∉ s)
    (hrest : ¬w ++ [34] <+: rest) (hreads : ReadsAs w s) :
    ∃ i, strstr (34 :: (w ++ [34])) (quote s ++ rest) = some i ∧
      (quote s ++ rest).drop i = 34 :: (w ++ 34 :: rest) := by
  have hplace : ∃ j < (quote s).length, (quote s ++ rest).drop j = 34 :: (w ++ 34 :: rest) := by
    obtain ⟨t, ht⟩ := hreads
    rw [quote_append]
    cases t with
    | nil =>
      obtain rfl := List.tail_eq_of_cons_eq ht
      exact ⟨0, Nat.succ_pos _, by rw [escape_plain hw]; rfl⟩
    | cons c t =>
      have hs : s = t ++ 34 :: w := (List.tail_eq_of_cons_eq ht).symm
      have hescape : escape s = escape t ++ 92 :: 34 :: w := by
        rw [hs, escape, List.flatMap_append]
        show escape t ++ escape (34 :: w) = _
        rw [escape_cons, escape_plain hw]
        rfl
      refine ⟨(escape t).length + 2, ?_, ?_⟩
      · simp only [quote, hescape, List.length_append, List.length_cons]
        omega
      · rw [hescape, List.drop_succ_cons, List.append_assoc, ← List.drop_drop, List.drop_left]
        rfl
  obtain ⟨j, hj, htext⟩ := hplace
  have hpre : 34 :: (w ++ [34]) <+: (quote s ++ rest).drop j := by
    rw [htext]
    exact ⟨rest, by simp⟩
  have hzero : 0 ∉ (quote s ++ rest).take j := by
    rw [List.take_append_of_le_length (by omega)]
    exact fun h => zero_not_mem_quote h0 (List.mem_of_mem_take h)
  obtain ⟨i, hij, hfound, hi⟩ := strstr_of_prefix_drop hpre hzero
  exact ⟨i, hfound, (stands_of_prefix_quote hw hrest (by omega) hi).text⟩

/-! The fields of an object. -/

def isNameByte (b : UInt8) : Bool := isDigit b || (97 ≤ b && b ≤ 122) || b = 95

/-- Digits, small letters and underscores. -/
def Name (w : List UInt8) : Prop := ∀ b ∈ w, isNameByte b = true

instance (w : List UInt8) : Decidable (Name w) := List.decidableBAll _ w

theorem Name.not_mem {w : List UInt8} (h : Name w) {b : UInt8} (hb : isNameByte b = false) : b ∉ w :=
  fun hmem => Bool.false_ne_true (hb ▸ h b hmem)

theorem Name.plain {w : List UInt8} (h : Name w) : Plain w := fun b hb =>
  ⟨fun h34 => h.not_mem (b := 34) (by decide) (h34 ▸ hb),
    fun h92 => h.not_mem (b := 92) (by decide) (h92 ▸ hb)⟩

theorem readsAs_name {w s : List UInt8} (hs : Name s) (h : ReadsAs w s) : w = s := by
  obtain ⟨t, ht⟩ := h
  cases t with
  | nil => exact List.tail_eq_of_cons_eq ht
  | cons c t =>
    have h34 : 34 ∈ s := by
      rw [← List.tail_eq_of_cons_eq ht]
      simp
    exact absurd h34 (hs.not_mem (by decide))

/-- A name is not what follows, when that begins with something else. -/
theorem not_prefix_of_head {w more rest : List UInt8} (hw : Name w) (hne : w ≠ [])
    (hrest : ∀ b ∈ rest.head?, isNameByte b = false) : ¬w ++ more <+: rest := by
  intro h
  cases w with
  | nil => exact hne rfl
  | cons c w =>
    cases rest with
    | nil => exact absurd (List.prefix_nil.mp h) (List.cons_ne_nil _ _)
    | cons d rest =>
      obtain rfl := (List.cons_prefix_cons.mp h).1
      exact absurd (hw c List.mem_cons_self) (by simp [hrest c (by simp)])

inductive Value where
  | quoted (s : List UInt8)
  | word (w : List UInt8)

def Value.text : Value → List UInt8
  | .quoted s => quote s
  | .word w => w

structure Field where
  key : List UInt8
  value : Value

def Field.text (colon : List UInt8) (f : Field) : List UInt8 := quote f.key ++ colon ++ f.value.text

/-- The quoted strings of a value. -/
def Value.strings : Value → List (List UInt8)
  | .quoted s => [s]
  | .word _ => []

/-- A field whose key and whose word are names. -/
structure Field.Clean (f : Field) : Prop where
  key : Name f.key
  quoted : ∀ s, f.value = .quoted s → 0 ∉ s
  word : ∀ w, f.value = .word w → Name w

/-- The fields with separators between them. -/
def fieldsText (colon sep : List UInt8) (fs : List Field) : List UInt8 :=
  List.intercalate sep (fs.map (Field.text colon))

theorem fieldsText_cons (colon sep : List UInt8) (f : Field) {fs : List Field} (h : fs ≠ []) :
    fieldsText colon sep (f :: fs) = f.text colon ++ sep ++ fieldsText colon sep fs := by
  cases fs with
  | nil => exact absurd rfl h
  | cons g fs => exact List.intercalate_cons_cons

theorem fieldsText_singleton (colon sep : List UInt8) (f : Field) :
    fieldsText colon sep [f] = f.text colon := List.intercalate_singleton

/-- A text without quotes and without NULs. -/
def Bare (t : List UInt8) : Prop := 34 ∉ t ∧ 0 ∉ t

instance (t : List UInt8) : Decidable (Bare t) := inferInstanceAs (Decidable (_ ∧ _))

theorem Field.Clean.zero_not_mem {f : Field} (h : f.Clean) : 0 ∉ f.value.text := by
  obtain ⟨key, value⟩ := f
  cases value with
  | quoted s => exact zero_not_mem_quote (h.quoted s rfl)
  | word w => exact (h.word w rfl).not_mem (by decide)

section Lookup

variable {colon sep : List UInt8} (hcolon : Bare colon) (hsep : Bare sep)
  (hcolon58 : colon.head? = some 58) (hsep44 : sep.head? = some 44)

include hcolon hsep hcolon58 hsep44 in
/-- A field with another key is passed. -/
theorem passes_field {k : List UInt8} (hk : Name k) (hne : k ≠ []) {g : Field} (hg : g.Clean)
    (hkey : g.key ≠ k) {before rest : List UInt8}
    (hbefore : Passes (34 :: (k ++ 34 :: [58])) before rest) :
    Passes (34 :: (k ++ 34 :: [58])) (quote g.key ++ (colon ++ (g.value.text ++ (sep ++ before))))
      rest := by
  have hsep' : Passes (34 :: (k ++ 34 :: [58])) (sep ++ before) rest :=
    (passes_plain _ _ hsep.1).append hbefore
  have hhead (t : List UInt8) : (sep ++ t).head? = some 44 := by
    rw [List.head?_append, hsep44]
    rfl
  have hvalue : Passes (34 :: (k ++ 34 :: [58])) g.value.text ((sep ++ before) ++ rest) := by
    obtain ⟨key, value⟩ := g
    cases value with
    | word w => exact passes_plain _ _ ((hg.word w rfl).not_mem (by decide))
    | quoted s =>
      rw [List.append_assoc]
      refine passes_quote hk.plain (fun h => ?_) ?_
      · obtain ⟨t, ht⟩ := h.2
        have h44 := hhead (before ++ rest)
        rw [← ht] at h44
        cases h44
      · refine not_prefix_of_head hk hne fun b hb => ?_
        rw [hhead, Option.mem_some_iff] at hb
        subst hb
        decide
  refine Passes.append ?_ ((passes_plain _ _ hcolon.1).append (hvalue.append hsep'))
  refine passes_quote hk.plain (fun h => hkey (readsAs_name hg.key h.1).symm) ?_
  refine not_prefix_of_head hk hne fun b hb => ?_
  rw [List.append_assoc, List.head?_append, hcolon58, Option.some_or, Option.mem_some_iff] at hb
  subst hb
  decide

include hcolon hsep hcolon58 hsep44 in
/-- A key is first found where a field has it. -/
theorem strstr_key {k : List UInt8} (hk : Name k) (hne : k ≠ []) {fs : List Field} {f : Field}
    (hclean : ∀ g ∈ fs, g.Clean) (hf : fs.find? (fun g => g.key = k) = some f)
    (rest : List UInt8) :
    ∃ before after, fieldsText colon sep fs ++ rest = before ++ (f.text colon ++ after) ∧
      (after = rest ∨ after.head? = some 44) ∧ 0 ∉ before ∧
      Passes (34 :: (k ++ 34 :: [58])) before (f.text colon ++ after) := by
  induction fs with
  | nil => cases hf
  | cons g fs ih =>
    by_cases hkey : g.key = k
    · rw [List.find?_cons_of_pos (by simp [hkey])] at hf
      obtain rfl := Option.some.inj hf
      cases fs with
      | nil => exact ⟨[], rest, by rw [fieldsText_singleton]; rfl, .inl rfl, by simp,
          fun i hi => absurd hi (Nat.not_lt_zero i)⟩
      | cons g' fs =>
        refine ⟨[], sep ++ fieldsText colon sep (g' :: fs) ++ rest, ?_, .inr ?_, by simp,
          fun i hi => absurd hi (Nat.not_lt_zero i)⟩
        · rw [fieldsText_cons colon sep g (List.cons_ne_nil _ _)]
          simp only [List.append_assoc, List.nil_append]
        · cases sep with
          | nil => cases hsep44
          | cons b sep => exact hsep44
    · rw [List.find?_cons_of_neg (by simp [hkey])] at hf
      have hg := hclean g List.mem_cons_self
      obtain ⟨before, after, htext, hafter, h0, hpasses⟩ :=
        ih (fun g' hg' => hclean g' (List.mem_cons_of_mem g hg')) hf
      have hfs : fs ≠ [] := by
        rintro rfl
        cases hf
      refine ⟨quote g.key ++ (colon ++ (g.value.text ++ (sep ++ before))), after, ?_, hafter, ?_, ?_⟩
      · rw [fieldsText_cons colon sep g hfs]
        simp only [Field.text, List.append_assoc] at htext ⊢
        rw [htext]
      · simp only [List.mem_append, not_or]
        exact ⟨zero_not_mem_quote (hg.key.not_mem (by decide)), hcolon.2, hg.zero_not_mem, hsep.2, h0⟩
      · exact passes_field hcolon hsep hcolon58 hsep44 hk hne hg hkey hpasses

end Lookup

end PkgManager.QuotedText
