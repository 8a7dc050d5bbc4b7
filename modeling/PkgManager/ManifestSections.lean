import PkgManager.ManifestArrays

namespace PkgManager.ManifestSections

open CText Manifest QuotedText ManifestScan ManifestArrays
open PkgMetadata (Text quoted)

/-! Fields and items are gone through. -/

/-- None of these bytes means anything to the search for a pair. -/
def Inert (opening closing : UInt8) (t : Text) : Prop := ∀ b ∈ t, b ≠ 34 ∧ b ≠ opening ∧ b ≠ closing

instance (opening closing : UInt8) (t : Text) : Decidable (Inert opening closing t) :=
  List.decidableBAll _ t

theorem Name.inert {w : Text} (hw : Name w) {opening closing : UInt8}
    (ho : isNameByte opening = false) (hc : isNameByte closing = false) : Inert opening closing w := by
  intro b hb
  refine ⟨?_, ?_, ?_⟩ <;> rintro rfl
  · exact hw.not_mem (b := 34) (by decide) hb
  · exact hw.not_mem ho hb
  · exact hw.not_mem hc hb

variable {opening closing : UInt8}

theorem skips_field (ho : isNameByte opening = false) (hc : isNameByte closing = false) {colon : Text}
    (hcolon : Inert opening closing colon) {f : Field} (hf : f.Clean) :
    Skips opening closing (f.text colon) := by
  refine ((skips_quote opening closing f.key).append (skips_bare hcolon)).append ?_
  obtain ⟨key, value⟩ := f
  cases value with
  | quoted s => exact skips_quote opening closing s
  | word w => exact skips_bare (Name.inert (hf.word w rfl) ho hc)

theorem skips_fields (ho : isNameByte opening = false) (hc : isNameByte closing = false)
    {colon sep : Text} (hcolon : Inert opening closing colon) (hsep : Inert opening closing sep)
    {fs : List Field} (hclean : ∀ f ∈ fs, f.Clean) :
    Skips opening closing (fieldsText colon sep fs) := by
  induction fs with
  | nil => exact skips_bare (by simp [fieldsText])
  | cons f fs ih =>
    have hf := skips_field ho hc hcolon (hclean f List.mem_cons_self)
    by_cases hfs : fs = []
    · rw [hfs, fieldsText_singleton]
      exact hf
    · rw [fieldsText_cons colon sep f hfs]
      exact (hf.append (skips_bare hsep)).append (ih fun g hg => hclean g (List.mem_cons_of_mem f hg))

theorem skips_itemLines (hnl : Inert opening closing (ascii ",\n")) {items : List Text}
    (hitems : ∀ item ∈ items, Skips opening closing item) : Skips opening closing (itemLines items) := by
  have hline : Inert opening closing (ascii "\n") := fun b hb => hnl b (by
    rw [List.mem_singleton.mp hb]
    decide)
  induction items with
  | nil => exact skips_bare (by simp [itemLines])
  | cons item items ih =>
    have hitem := hitems item List.mem_cons_self
    cases items with
    | nil => exact hitem.append (skips_bare hline)
    | cons item' items =>
      exact (hitem.append (skips_bare hnl)).append
        (ih fun i hi => hitems i (List.mem_cons_of_mem item hi))

/-! Keys of arrays. -/

theorem arrayStart_passes {key t rest : Text} (h : Passes (quoted key) t rest) (h0 : 0 ∉ t) :
    arrayStart (t ++ rest) key = arrayStart rest key := by
  unfold arrayStart
  rw [strstr_passes h h0]
  cases strstr (quoted key) rest with
  | none => rfl
  | some i =>
    have hdrop (n : Nat) : (t ++ rest).drop (n + t.length) = rest.drop n := by
      rw [Nat.add_comm, ← List.drop_drop, List.drop_left]
    simp only [Option.map_some, hdrop]
    congr 1
    funext j
    rw [← hdrop]
    congr 1
    omega

/-- A key leads to the first bracket behind the place where it is found. -/
theorem arrayStart_found {key t before rest : Text} {i : Nat} (hfound : strstr (quoted key) t = some i)
    (ht : t.drop i = before ++ 91 :: rest) (hfree : 91 ∉ before) (h0 : 0 ∉ before) :
    arrayStart t key = some (91 :: rest) := by
  unfold arrayStart
  rw [hfound]
  simp only
  rw [ht, strchr_here rest hfree h0, Option.map_some, ← List.drop_drop, ht, List.drop_left]

/-- A text made of these strings, and of plain text that does not begin like a name,
up to where it stops. -/
inductive Strung (stop : Text) : List Text → Text → Prop
  | stop : Strung stop [] stop
  | bare {ss : List Text} {t rest : Text} (ht : Bare t) (hfree : 91 ∉ t) (h : Strung stop ss rest) :
      Strung stop ss (t ++ rest)
  | string {ss : List Text} {s rest : Text} (hs : 0 ∉ s)
      (hrest : ∀ b ∈ rest.head?, isNameByte b = false) (h : Strung stop ss rest) :
      Strung stop (s :: ss) (quote s ++ rest)

theorem quoted_eq (w : Text) : quoted w = 34 :: (w ++ [34]) := rfl

theorem passes_bare {w t : Text} (ht : Bare t) (rest : Text) : Passes (quoted w) t rest := by
  rw [quoted_eq]
  exact passes_plain (w ++ [34]) rest ht.1

theorem passes_string {w s rest : Text} (hw : Name w) (hne : w ≠ []) (hs : ¬ReadsAs w s)
    (hrest : ∀ b ∈ rest.head?, isNameByte b = false) : Passes (quoted w) (quote s) rest := by
  rw [quoted_eq]
  exact passes_quote hw.plain (fun h => hs h.1) (not_prefix_of_head hw hne hrest)

/-- A key is not found among strings that do not read as it. -/
theorem Strung.arrayStart_stop {w : Text} (hw : Name w) (hne : w ≠ []) {stop text : Text}
    {ss : List Text} (h : Strung stop ss text) (hreads : ∀ s ∈ ss, ¬ReadsAs w s) :
    arrayStart text w = arrayStart stop w := by
  induction h with
  | stop => rfl
  | bare ht hfree h ih => rw [arrayStart_passes (passes_bare ht _) ht.2, ih hreads]
  | @string ss s rest hs hrest h ih =>
    have hpasses := passes_string hw hne (hreads s List.mem_cons_self) hrest
    rw [arrayStart_passes hpasses (zero_not_mem_quote hs),
      ih fun s' hs' => hreads s' (List.mem_cons_of_mem s hs')]

theorem Strung.free {stop text : Text} {ss : List Text} (h : Strung stop ss text)
    (hss : ∀ s ∈ ss, 91 ∉ s) : ∃ before, text = before ++ stop ∧ 91 ∉ before ∧ 0 ∉ before := by
  induction h with
  | stop => exact ⟨[], rfl, by simp, by simp⟩
  | @bare ss t rest ht hfree h ih =>
    obtain ⟨before, rfl, h91, h0⟩ := ih hss
    refine ⟨t ++ before, by rw [List.append_assoc], ?_, ?_⟩
    · rw [List.mem_append, not_or]
      exact ⟨hfree, h91⟩
    · rw [List.mem_append, not_or]
      exact ⟨ht.2, h0⟩
  | @string ss s rest hs hrest h ih =>
    obtain ⟨before, rfl, h91, h0⟩ := ih fun s' hs' => hss s' (List.mem_cons_of_mem s hs')
    have hs91 : 91 ∉ quote s := by
      have hs91 := hss s List.mem_cons_self
      simp [quote, mem_escape (b := 91) (by decide) s, hs91]
    refine ⟨quote s ++ before, by rw [List.append_assoc], ?_, ?_⟩
    · rw [List.mem_append, not_or]
      exact ⟨hs91, h91⟩
    · rw [List.mem_append, not_or]
      exact ⟨zero_not_mem_quote hs, h0⟩

theorem Strung.zero_not_mem {stop text : Text} {ss : List Text} (h : Strung stop ss text)
    (h0 : 0 ∉ stop) : 0 ∉ text := by
  induction h with
  | stop => exact h0
  | bare ht hfree h ih =>
    rw [List.mem_append, not_or]
    exact ⟨ht.2, ih⟩
  | string hs hrest h ih =>
    rw [List.mem_append, not_or]
    exact ⟨zero_not_mem_quote hs, ih⟩

/-- A key that stands where the text stops leads to the bracket there, also when a
string reads as the key, if no string behind it has a bracket. -/
theorem Strung.arrayStart_eq {w : Text} (hw : Name w) (hne : w ≠ []) {stop before array text : Text}
    {ss : List Text} (h : Strung stop ss text) (hstop : stop = before ++ 91 :: array)
    (hkey : quoted w <+: stop) (hfree : 91 ∉ before) (h0 : 0 ∉ before)
    (hss : ss.Pairwise fun s t => ReadsAs w s → 91 ∉ t) : arrayStart text w = some (91 :: array) := by
  induction h with
  | stop => exact arrayStart_found (strstr_here hkey) hstop hfree h0
  | bare ht hfree' h ih => rw [arrayStart_passes (passes_bare ht _) ht.2, ih hss]
  | @string ss s rest hs hrest h ih =>
    obtain ⟨hfirst, htail⟩ := List.pairwise_cons.mp hss
    by_cases hreads : ReadsAs w s
    · obtain ⟨i, hfound, hdrop⟩ := strstr_quote hw.plain hs (not_prefix_of_head hw hne hrest) hreads
      obtain ⟨between, rfl, h91, hb0⟩ := h.free fun t ht => hfirst t ht hreads
      have htext : (quote s ++ (between ++ stop)).drop i =
          34 :: (w ++ 34 :: (between ++ before)) ++ 91 :: array := by
        rw [hdrop, hstop]
        simp
      refine arrayStart_found hfound htext ?_ ?_
      · simp only [List.mem_cons, List.mem_append, not_or]
        exact ⟨by decide, hw.not_mem (by decide), by decide, h91, hfree⟩
      · simp only [List.mem_cons, List.mem_append, not_or]
        exact ⟨by decide, hw.not_mem (by decide), by decide, hb0, h0⟩
    · rw [arrayStart_passes (passes_string hw hne hreads hrest) (zero_not_mem_quote hs), ih htail]

/-! Strings of fields and items. -/

def Field.strings (f : Field) : List Text := f.key :: f.value.strings

theorem Name.bare {w : Text} (hw : Name w) : Bare w := ⟨hw.not_mem (by decide), hw.not_mem (by decide)⟩

variable {stop rest : Text} {ss : List Text}

theorem Strung.field {colon : Text} (hcolon : Bare colon) (hfree : 91 ∉ colon)
    (hhead : ∀ b ∈ colon.head?, isNameByte b = false) (hne : colon ≠ []) {f : Field} (hf : f.Clean)
    (hrest : ∀ b ∈ rest.head?, isNameByte b = false) (h : Strung stop ss rest) :
    Strung stop (Field.strings f ++ ss) (f.text colon ++ rest) := by
  obtain ⟨key, value⟩ := f
  have hkey : 0 ∉ key := hf.key.not_mem (by decide)
  have hvalue : Strung stop (value.strings ++ ss) (value.text ++ rest) := by
    cases value with
    | quoted s => exact h.string (hf.quoted s rfl) hrest
    | word w => exact h.bare (Name.bare (hf.word w rfl)) ((hf.word w rfl).not_mem (by decide))
  have hhead' : ∀ b ∈ (colon ++ (value.text ++ rest)).head?, isNameByte b = false := by
    cases colon with
    | nil => exact absurd rfl hne
    | cons c colon => exact hhead
  have h := (hvalue.bare hcolon hfree).string hkey hhead'
  simp only [Field.text, List.append_assoc] at h ⊢
  exact h

structure Layout.Free (l : Layout) : Prop where
  opening : 91 ∉ l.opening
  colon : 91 ∉ l.colon
  sep : 91 ∉ l.sep
  closing : Bare l.closing ∧ 91 ∉ l.closing
  head : ∀ b ∈ l.closing.head?, isNameByte b = false
  ne : l.closing ≠ []

theorem Strung.fields {l : Layout} (hl : l.Proper) (hfree : Layout.Free l) {fs : List Field}
    (hclean : ∀ f ∈ fs, f.Clean) (hrest : ∀ b ∈ rest.head?, isNameByte b = false)
    (h : Strung stop ss rest) :
    Strung stop (fs.flatMap Field.strings ++ ss) (fieldsText l.colon l.sep fs ++ rest) := by
  have hcolon : ∀ b ∈ l.colon.head?, isNameByte b = false := by
    intro b hb
    rw [hl.colon58, Option.mem_some_iff] at hb
    subst hb
    rfl
  have hne : l.colon ≠ [] := fun hnil => by
    have h58 := hl.colon58
    rw [hnil] at h58
    cases h58
  induction fs with
  | nil => exact h
  | cons f fs ih =>
    have hf := hclean f List.mem_cons_self
    have htail := ih fun g hg => hclean g (List.mem_cons_of_mem f hg)
    by_cases hfs : fs = []
    · rw [hfs, fieldsText_singleton, List.flatMap_singleton]
      exact h.field hl.colon hfree.colon hcolon hne hf hrest
    · have hsep : ∀ b ∈ (l.sep ++ (fieldsText l.colon l.sep fs ++ rest)).head?, isNameByte b = false := by
        intro b hb
        rw [List.head?_append, hl.sep44, Option.some_or, Option.mem_some_iff] at hb
        subst hb
        rfl
      have hone := (htail.bare hl.sep hfree.sep).field hl.colon hfree.colon hcolon hne hf hsep
      rw [fieldsText_cons l.colon l.sep f hfs, List.flatMap_cons]
      simp only [List.append_assoc] at hone ⊢
      exact hone

theorem Strung.object {l : Layout} (hl : l.Proper) (hfree : Layout.Free l) {fs : List Field}
    (hclean : ∀ f ∈ fs, f.Clean) (h : Strung stop ss rest) :
    Strung stop (fs.flatMap Field.strings ++ ss) (l.text fs ++ rest) := by
  have hhead : ∀ b ∈ (l.closing ++ rest).head?, isNameByte b = false := by
    have hne := hfree.ne
    have hclosing := hfree.head
    cases hc : l.closing with
    | nil => exact absurd hc hne
    | cons c closing =>
      rw [hc] at hclosing
      exact hclosing
  have h := ((h.bare hfree.closing.1 hfree.closing.2).fields hl hfree hclean hhead).bare hl.opening
    hfree.opening
  simp only [Layout.text, List.append_assoc] at h ⊢
  exact h

theorem blanks_bare {blanks : Text} (h : ∀ b ∈ blanks, isBlank b = true) : Bare blanks ∧ 91 ∉ blanks := by
  refine ⟨⟨fun hb => ?_, fun hb => ?_⟩, fun hb => ?_⟩ <;> exact absurd (h _ hb) (by decide)

theorem Strung.items {l : Layout} (hl : l.Proper) (hfree : Layout.Free l) {indent : Text}
    (hindent : ∀ b ∈ indent, isBlank b = true) {objects : List (List Field)}
    (hclean : ∀ fs ∈ objects, ∀ f ∈ fs, f.Clean) (h : Strung stop ss rest) :
    Strung stop (objects.flatMap (·.flatMap Field.strings) ++ ss)
      (itemLines (objects.map fun fs => indent ++ l.text fs) ++ rest) := by
  have hbare := blanks_bare hindent
  induction objects with
  | nil => exact h
  | cons fs objects ih =>
    obtain ⟨nl, hnl, hitems⟩ := itemLines_cons (indent ++ l.text fs)
      (objects.map fun fs => indent ++ l.text fs)
    have hnl := blanks_bare hnl
    have htail := ih fun fs' hfs' => hclean fs' (List.mem_cons_of_mem fs hfs')
    have hone := ((htail.bare hnl.1 hnl.2).object hl hfree (hclean fs List.mem_cons_self)).bare
      hbare.1 hbare.2
    rw [List.map_cons, hitems, List.flatMap_cons]
    simp only [List.append_assoc] at hone ⊢
    exact hone

end PkgManager.ManifestSections
