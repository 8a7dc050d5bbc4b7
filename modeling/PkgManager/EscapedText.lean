import PkgManager.QuotedText

namespace PkgManager.EscapedText

open CText QuotedText

/-! Strings between quotes (34), in which a backslash (92) may stand in front of any byte. -/

inductive Mark where
  | plain (b : UInt8)
  | escaped (b : UInt8)
deriving DecidableEq

def Mark.text : Mark → List UInt8
  | .plain b => [b]
  | .escaped b => [92, b]

/-- What a reader takes that drops backslashes. -/
def Mark.byte : Mark → UInt8
  | .plain b => b
  | .escaped b => b

def Mark.Proper : Mark → Prop
  | .plain b => b ≠ 34 ∧ b ≠ 92 ∧ b ≠ 0
  | .escaped b => b ≠ 0

def text (ms : List Mark) : List UInt8 := ms.flatMap Mark.text

def unescape (ms : List Mark) : List UInt8 := ms.map Mark.byte

def string (ms : List Mark) : List UInt8 := 34 :: text ms ++ [34]

theorem text_cons (m : Mark) (ms : List Mark) : text (m :: ms) = m.text ++ text ms :=
  List.flatMap_cons

theorem string_append (ms : List Mark) (rest : List UInt8) :
    string ms ++ rest = 34 :: (text ms ++ 34 :: rest) := by
  simp [string]

theorem length_text_le (ms : List Mark) : (text ms).length ≤ 2 * ms.length := by
  induction ms with
  | nil => exact le_rfl
  | cons m ms ih =>
    have hm : m.text.length ≤ 2 := by cases m <;> simp [Mark.text]
    rw [text_cons, List.length_append, List.length_cons]
    omega

theorem zero_not_mem_string {ms : List Mark} (h : ∀ m ∈ ms, m.Proper) : 0 ∉ string ms := by
  have htext : 0 ∉ text ms := by
    intro h0
    obtain ⟨m, hm, hb⟩ := List.mem_flatMap.mp h0
    have hp := h m hm
    cases m with
    | plain b => exact hp.2.2 (List.mem_singleton.mp hb).symm
    | escaped b =>
      rcases List.mem_cons.mp hb with h92 | hb
      · exact absurd h92 (by decide)
      · exact hp (List.mem_singleton.mp hb).symm
  simp only [string, List.cons_append, List.mem_cons, List.mem_append, List.not_mem_nil, or_false,
    not_or]
  exact ⟨by decide, htext, by decide⟩

/-! A key between quotes with its colon, in a text of such strings. -/

def keyPattern (k : List UInt8) : List UInt8 := 34 :: (k ++ 34 :: [58])

/-- A plain word up to a quote ends with the string. -/
theorem rest_of_plain_start {w tail rest : List UInt8} (hw : Plain w) {ms : List Mark}
    (hms : ∀ m ∈ ms, m.Proper) (h : w ++ 34 :: tail <+: text ms ++ 34 :: rest) : tail <+: rest := by
  induction ms generalizing w with
  | nil =>
    cases w with
    | nil => exact (List.cons_prefix_cons.mp h).2
    | cons b w => exact absurd (List.cons_prefix_cons.mp h).1 (hw b List.mem_cons_self).1
  | cons m ms ih =>
    have hm := hms m List.mem_cons_self
    have hmore := fun m' hm' => hms m' (List.mem_cons_of_mem m hm')
    rw [text_cons] at h
    cases m with
    | plain b =>
      cases w with
      | nil => exact absurd (List.cons_prefix_cons.mp h).1.symm hm.1
      | cons c w =>
        exact ih (fun d hd => hw d (List.mem_cons_of_mem c hd)) hmore (List.cons_prefix_cons.mp h).2
    | escaped b =>
      cases w with
      | nil => exact absurd (List.cons_prefix_cons.mp h).1 (by decide)
      | cons c w => exact absurd (List.cons_prefix_cons.mp h).1 (hw c List.mem_cons_self).2

/-- A word between quotes within a string ends with the string. -/
theorem rest_of_prefix_drop {w tail rest : List UInt8} (hw : Plain w) {ms : List Mark}
    (hms : ∀ m ∈ ms, m.Proper) {i : Nat} (hi : i < (text ms).length)
    (h : 34 :: (w ++ 34 :: tail) <+: (text ms ++ 34 :: rest).drop i) : tail <+: rest := by
  induction ms generalizing i with
  | nil => exact absurd hi (Nat.not_lt_zero i)
  | cons m ms ih =>
    have hm := hms m List.mem_cons_self
    have hmore := fun m' hm' => hms m' (List.mem_cons_of_mem m hm')
    rw [text_cons] at h hi
    cases m with
    | plain b =>
      cases i with
      | zero => exact absurd (List.cons_prefix_cons.mp h).1.symm hm.1
      | succ j => exact ih hmore (by simpa [Mark.text] using hi) h
    | escaped b =>
      match i with
      | 0 => exact absurd (List.cons_prefix_cons.mp h).1 (by decide)
      | 1 => exact rest_of_plain_start hw hmore (List.cons_prefix_cons.mp h).2
      | j + 2 => exact ih hmore (by simpa [Mark.text] using hi) h

/-- What may follow a value: neither a colon nor a name. -/
def Closes (rest : List UInt8) : Prop := ∀ b ∈ rest.head?, b ≠ 58 ∧ isNameByte b = false

/-- A value in which no key begins. -/
structure Sealed (v : List UInt8) : Prop where
  zero : 0 ∉ v
  passes : ∀ {k rest : List UInt8}, Name k → k ≠ [] → Closes rest → Passes (keyPattern k) v rest

theorem sealed_string {ms : List Mark} (h : ∀ m ∈ ms, m.Proper) : Sealed (string ms) := by
  refine ⟨zero_not_mem_string h, fun {k rest} hk hne hrest i hi hpre => ?_⟩
  have hcolon : ¬[58] <+: rest := by
    rintro ⟨t, rfl⟩
    exact (hrest 58 rfl).1 rfl
  rw [string_append] at hpre
  cases i with
  | zero => exact hcolon (rest_of_plain_start hk.plain h (List.cons_prefix_cons.mp hpre).2)
  | succ j =>
    rw [List.drop_succ_cons] at hpre
    by_cases hj : j < (text ms).length
    · exact hcolon (rest_of_prefix_drop hk.plain h hj hpre)
    · have hlast : j = (text ms).length := by
        simp only [string, List.length_append, List.length_cons, List.length_nil] at hi
        omega
      rw [hlast, List.drop_left] at hpre
      exact not_prefix_of_head hk hne (fun b hb => (hrest b hb).2) (List.cons_prefix_cons.mp hpre).2

theorem sealed_bare {w : List UInt8} (h : Bare w) : Sealed w :=
  ⟨h.2, fun _ _ _ => passes_plain _ _ h.1⟩

/-! Objects of such values. -/

structure Entry where
  key : List UInt8
  value : List UInt8

def Entry.text (colon : List UInt8) (e : Entry) : List UInt8 :=
  34 :: (e.key ++ [34]) ++ colon ++ e.value

structure Entry.Clean (e : Entry) : Prop where
  key : Name e.key
  value : Sealed e.value

def entriesText (colon sep : List UInt8) (es : List Entry) : List UInt8 :=
  List.intercalate sep (es.map (Entry.text colon))

theorem entriesText_cons (colon sep : List UInt8) (e : Entry) {es : List Entry} (h : es ≠ []) :
    entriesText colon sep (e :: es) = e.text colon ++ sep ++ entriesText colon sep es := by
  cases es with
  | nil => exact absurd rfl h
  | cons g es => exact List.intercalate_cons_cons

theorem entriesText_singleton (colon sep : List UInt8) (e : Entry) :
    entriesText colon sep [e] = e.text colon := List.intercalate_singleton

theorem quoted_key {k : List UInt8} (hk : Name k) : 34 :: (k ++ [34]) = quote k := by
  rw [quote, escape_plain hk.plain]
  rfl

theorem Entry.Clean.zero_not_mem {e : Entry} (h : e.Clean) {colon : List UInt8} (hcolon : 0 ∉ colon) :
    0 ∉ e.text colon := by
  simp only [Entry.text, List.cons_append, List.mem_cons, List.mem_append, List.not_mem_nil,
    or_false, not_or]
  exact ⟨by decide, ⟨⟨h.key.not_mem (by decide), by decide⟩, hcolon⟩, h.value.zero⟩

theorem zero_not_mem_entries {colon sep : List UInt8} (hcolon : 0 ∉ colon) (hsep : 0 ∉ sep)
    {es : List Entry} (h : ∀ e ∈ es, e.Clean) : 0 ∉ entriesText colon sep es := by
  induction es with
  | nil => exact List.not_mem_nil
  | cons e es ih =>
    have he := (h e List.mem_cons_self).zero_not_mem hcolon
    by_cases hes : es = []
    · rw [hes, entriesText_singleton]
      exact he
    · rw [entriesText_cons colon sep e hes, List.mem_append, List.mem_append, not_or, not_or]
      exact ⟨⟨he, hsep⟩, ih fun e' he' => h e' (List.mem_cons_of_mem e he')⟩

section Lookup

variable {colon sep : List UInt8} (hcolon : Bare colon) (hsep : Bare sep)
  (hcolon58 : colon.head? = some 58) (hsep44 : sep.head? = some 44)

include hcolon hsep hcolon58 hsep44 in
/-- An entry with another key is passed. -/
theorem passes_entry {k : List UInt8} (hk : Name k) (hne : k ≠ []) {g : Entry} (hg : g.Clean)
    (hkey : g.key ≠ k) {before rest : List UInt8} (hbefore : Passes (keyPattern k) before rest) :
    Passes (keyPattern k) (g.text colon ++ (sep ++ before)) rest := by
  have hhead (t : List UInt8) : (sep ++ t).head? = some 44 := by
    rw [List.head?_append, hsep44]
    rfl
  have hcloses : Closes (sep ++ before ++ rest) := by
    intro b hb
    rw [List.append_assoc, hhead, Option.mem_some_iff] at hb
    subst hb
    decide
  have hsep' : Passes (keyPattern k) (sep ++ before) rest := (passes_plain _ _ hsep.1).append hbefore
  have hname : Passes (keyPattern k) (34 :: (g.key ++ [34]))
      (colon ++ (g.value ++ (sep ++ before)) ++ rest) := by
    rw [quoted_key hg.key]
    refine passes_quote hk.plain (fun h => hkey (readsAs_name hg.key h.1).symm) ?_
    refine not_prefix_of_head hk hne fun b hb => ?_
    rw [List.append_assoc, List.head?_append, hcolon58, Option.some_or, Option.mem_some_iff] at hb
    subst hb
    decide
  have hwhole := hname.append
    ((passes_plain _ _ hcolon.1).append ((hg.value.passes hk hne hcloses).append hsep'))
  simpa only [Entry.text, List.append_assoc] using hwhole

include hcolon hsep hcolon58 hsep44 in
/-- A key is first found where an entry has it. -/
theorem strstr_entry {k : List UInt8} (hk : Name k) (hne : k ≠ []) {es : List Entry} {e : Entry}
    (hclean : ∀ g ∈ es, g.Clean) (he : es.find? (fun g => g.key = k) = some e) (rest : List UInt8) :
    ∃ before after, entriesText colon sep es ++ rest = before ++ (e.text colon ++ after) ∧
      (after = rest ∨ after.head? = some 44) ∧ 0 ∉ before ∧
      Passes (keyPattern k) before (e.text colon ++ after) := by
  induction es with
  | nil => cases he
  | cons g es ih =>
    by_cases hkey : g.key = k
    · rw [List.find?_cons_of_pos (by simp [hkey])] at he
      obtain rfl := Option.some.inj he
      cases es with
      | nil => exact ⟨[], rest, by rw [entriesText_singleton]; rfl, .inl rfl, by simp,
          fun i hi => absurd hi (Nat.not_lt_zero i)⟩
      | cons g' es =>
        refine ⟨[], sep ++ entriesText colon sep (g' :: es) ++ rest, ?_, .inr ?_, by simp,
          fun i hi => absurd hi (Nat.not_lt_zero i)⟩
        · rw [entriesText_cons colon sep g (List.cons_ne_nil _ _)]
          simp only [List.append_assoc, List.nil_append]
        · cases sep with
          | nil => cases hsep44
          | cons b sep => exact hsep44
    · rw [List.find?_cons_of_neg (by simp [hkey])] at he
      have hg := hclean g List.mem_cons_self
      obtain ⟨before, after, htext, hafter, h0, hpasses⟩ :=
        ih (fun g' hg' => hclean g' (List.mem_cons_of_mem g hg')) he
      have hes : es ≠ [] := by
        rintro rfl
        cases he
      refine ⟨g.text colon ++ (sep ++ before), after, ?_, hafter, ?_,
        passes_entry hcolon hsep hcolon58 hsep44 hk hne hg hkey hpasses⟩
      · rw [entriesText_cons colon sep g hes]
        simp only [List.append_assoc] at htext ⊢
        rw [htext]
      · rw [List.mem_append, List.mem_append, not_or, not_or]
        exact ⟨hg.zero_not_mem hcolon.2, hsep.2, h0⟩

end Lookup

end PkgManager.EscapedText
