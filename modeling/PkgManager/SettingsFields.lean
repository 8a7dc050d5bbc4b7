import PkgManager.EscapedText
import PkgManager.ManifestScan
import PkgManager.Settings

namespace PkgManager.SettingsFields

open CText EscapedText ManifestScan Settings
open QuotedText (Bare Name Passes Plain isNameByte passes_plain strstr_passes strstr_here)
open PkgMetadata (Text quoted)
open Manifest (fieldString fieldValue extractJsonField endsWord isBlank)

/-! What the readers make of escaped strings. -/

/-- A string is read up to the room there is, whatever stands behind it. -/
theorem fieldString_marks {ms : List Mark} (h : ∀ m ∈ ms, m.Proper) (n : Nat) (rest : Text) :
    fieldString n (text ms ++ 34 :: rest) = (unescape ms).take n := by
  induction ms generalizing n with
  | nil => cases n <;> rfl
  | cons m ms ih =>
    have hm := h m List.mem_cons_self
    have hmore := fun m' hm' => h m' (List.mem_cons_of_mem m hm')
    cases n with
    | zero => rfl
    | succ n =>
      rw [text_cons]
      cases m with
      | plain b =>
        show fieldString (n + 1) (b :: (text ms ++ 34 :: rest)) = b :: (unescape ms).take n
        rw [fieldString_byte n hm.2.1, if_neg hm.1, ih hmore]
      | escaped b =>
        show b :: fieldString n (text ms ++ 34 :: rest) = b :: (unescape ms).take n
        rw [ih hmore]

theorem fieldValue_string {ms : List Mark} (h : ∀ m ∈ ms, m.Proper) (n : Nat) (after : Text) :
    fieldValue n (string ms ++ after) = (unescape ms).take (n - 1) := by
  rw [string_append]
  exact fieldString_marks h (n - 1) after

/-- An object of the layout. -/
def layoutText (l : Layout) (es : List Entry) : Text :=
  l.opening ++ (entriesText l.colon l.sep es ++ l.closing)

/-- A value that is not skipped as a blank. -/
def Starts (v : Text) : Prop := ∃ b t, v = b :: t ∧ b ≠ 32 ∧ b ≠ 9

theorem starts_string (ms : List Mark) : Starts (string ms) := ⟨34, _, rfl, by decide, by decide⟩

theorem Starts.append {v : Text} (h : Starts v) (after : Text) : Starts (v ++ after) := by
  obtain ⟨b, t, rfl, hb⟩ := h
  exact ⟨b, t ++ after, rfl, hb⟩

/-- What is read of a key that is not found in front of where it stands. -/
theorem extract_passed {key : String} {before gap p : Text} (h0 : 0 ∉ before)
    (hpasses : Passes (keyPattern (ascii key)) before (quoted (ascii key) ++ [58] ++ (gap ++ p)))
    (hgap : ∀ b ∈ gap, (decide (b = 32 ∨ b = 9)) = true) (hstarts : Starts p) (n : Nat) :
    extractJsonField (before ++ (quoted (ascii key) ++ [58] ++ (gap ++ p))) key n = fieldValue n p := by
  have hsearch : quoted (ascii key) ++ [58] = keyPattern (ascii key) := by simp [quoted, keyPattern]
  have hfound : strstr (quoted (ascii key) ++ [58]) (before ++ (quoted (ascii key) ++ [58] ++ (gap ++ p))) =
      some before.length := by
    have hhere : quoted (ascii key) ++ [58] <+: quoted (ascii key) ++ [58] ++ (gap ++ p) :=
      List.prefix_append _ _
    rw [hsearch] at hhere hpasses ⊢
    rw [strstr_passes hpasses h0, strstr_here hhere, Option.map_some, Nat.zero_add]
  obtain ⟨b, t, hb, h32, h9⟩ := hstarts
  have hstop : p.dropWhile (fun b => b = 32 ∨ b = 9) = p := by
    rw [hb]
    exact List.dropWhile_cons_of_neg (by simp [h32, h9])
  unfold extractJsonField
  simp only [hfound]
  rw [← List.drop_drop, List.drop_left, List.drop_left, List.dropWhile_append_of_pos hgap, hstop]

theorem gap_blank {l : Layout} (hl : l.Proper) {gap : Text} (h : l.colon = 58 :: gap) :
    ∀ b ∈ gap, (decide (b = 32 ∨ b = 9)) = true := by
  have hall := hl.gap
  rw [h] at hall
  exact List.all_eq_true.mp hall

/-- A key leads to the value of its entry. -/
theorem extract_entry {l : Layout} (hl : l.Proper) {key : String} (hk : Name (ascii key))
    (hne : ascii key ≠ []) {es : List Entry} {e : Entry} (hclean : ∀ g ∈ es, g.Clean)
    (hstarts : Starts e.value) (he : es.find? (fun g => g.key = ascii key) = some e) (n : Nat) :
    ∃ after : Text, (∀ b ∈ after.head?, endsWord b = true) ∧
      extractJsonField (layoutText l es) key n = fieldValue n (e.value ++ after) := by
  obtain ⟨before, after, htext, hafter, h0, hpasses⟩ :=
    strstr_entry hl.colon hl.sep hl.colon58 hl.sep44 hk hne hclean he l.closing
  have hkey : e.key = ascii key := by simpa using List.find?_some he
  obtain ⟨gap, hcolon⟩ : ∃ gap, l.colon = 58 :: gap := List.head?_eq_some_iff.mp hl.colon58
  have hentry : e.text l.colon ++ after =
      quoted (ascii key) ++ [58] ++ (gap ++ (e.value ++ after)) := by
    simp [Entry.text, hkey, quoted, hcolon]
  have hfull : layoutText l es = l.opening ++ before ++ (e.text l.colon ++ after) := by
    rw [layoutText, htext, List.append_assoc]
  have hopening : Passes (keyPattern (ascii key)) l.opening (before ++ (e.text l.colon ++ after)) :=
    passes_plain _ _ hl.opening.1
  have hfront := hopening.append hpasses
  have hzero : 0 ∉ l.opening ++ before := by
    rw [List.mem_append, not_or]
    exact ⟨hl.opening.2, h0⟩
  refine ⟨after, ?_, ?_⟩
  · rcases hafter with rfl | h44
    · exact hl.closing
    · intro b hb
      rw [h44, Option.mem_some_iff] at hb
      subst hb
      rfl
  · rw [hentry] at hfront hfull
    rw [hfull]
    exact extract_passed hzero hfront (gap_blank hl hcolon) (hstarts.append after) n

theorem extract_string {l : Layout} (hl : l.Proper) {key : String} (hk : Name (ascii key))
    (hne : ascii key ≠ []) {es : List Entry} (hclean : ∀ g ∈ es, g.Clean) {ms : List Mark}
    (hms : ∀ m ∈ ms, m.Proper)
    (he : es.find? (fun g => g.key = ascii key) = some ⟨ascii key, string ms⟩) (n : Nat) :
    extractJsonField (layoutText l es) key n = (unescape ms).take (n - 1) := by
  obtain ⟨after, -, heq⟩ := extract_entry hl hk hne hclean (starts_string ms) he n
  rw [heq]
  exact fieldValue_string hms n after

/-- A word that stands without quotes. -/
def IsWord (w : Text) : Prop := Bare w ∧ w ≠ [] ∧ ∀ b ∈ w, b ≠ 9 ∧ b ≠ 93 ∧ endsWord b = false

instance (w : Text) : Decidable (IsWord w) :=
  haveI : Decidable (∀ b ∈ w, b ≠ 9 ∧ b ≠ 93 ∧ endsWord b = false) := List.decidableBAll _ w
  inferInstanceAs (Decidable (_ ∧ _ ∧ _))

theorem extract_bare {l : Layout} (hl : l.Proper) {key : String} (hk : Name (ascii key))
    (hne : ascii key ≠ []) {es : List Entry} (hclean : ∀ g ∈ es, g.Clean) {w : Text} (hw : IsWord w)
    (he : es.find? (fun g => g.key = ascii key) = some ⟨ascii key, w⟩) {n : Nat} (hn : w.length < n) :
    extractJsonField (layoutText l es) key n = w := by
  obtain ⟨hbare, hnil, hends⟩ := hw
  obtain ⟨b, t, rfl⟩ : ∃ b t, w = b :: t := List.exists_cons_of_ne_nil hnil
  have hb := hends b List.mem_cons_self
  have hstarts : Starts (b :: t) := by
    refine ⟨b, t, rfl, ?_, hb.1⟩
    rintro rfl
    exact absurd hb.2.2 (by decide)
  obtain ⟨after, hafter, heq⟩ := extract_entry hl hk hne hclean hstarts he n
  have hquote : ¬(b :: t ++ after).head? = some 34 := by
    intro h
    exact hbare.1 (Option.some.inj h ▸ List.mem_cons_self)
  have htake : (b :: t ++ after).takeWhile (! endsWord ·) = b :: t := by
    rw [List.takeWhile_append_of_pos fun c hc => by simp [(hends c hc).2.2]]
    cases after with
    | nil => simp
    | cons c after =>
      rw [List.takeWhile_cons_of_neg (by simp [hafter c (by simp)]), List.append_nil]
  rw [heq, fieldValue, if_neg hquote, htake, List.take_of_length_le (by omega)]

/-! Where an object ends. -/

/-- The search for the end of an object goes through the text. -/
def Inside (t : Text) : Prop :=
  ∀ rest, objEnd false false (t ++ rest) = (objEnd false false rest).map (· + t.length)

theorem Inside.append {t u : Text} (ht : Inside t) (hu : Inside u) : Inside (t ++ u) := by
  intro rest
  rw [List.append_assoc, ht, hu, Option.map_map]
  congr 1
  funext n
  simp only [Function.comp, List.length_append]
  omega

theorem inside_bare {t : Text} (h : ∀ b ∈ t, b ≠ 34 ∧ b ≠ 125 ∧ b ≠ 93) : Inside t := by
  intro rest
  induction t with
  | nil => simp
  | cons b t ih =>
    obtain ⟨h34, h125, h93⟩ := h b List.mem_cons_self
    rw [List.cons_append, objEnd, if_neg Bool.false_ne_true, if_neg (fun h => Bool.false_ne_true h.2),
      if_neg h34, if_neg (fun h => h125 h.2), if_neg (fun h => h93 h.2),
      ih fun c hc => h c (List.mem_cons_of_mem b hc), Option.map_map]
    rfl

theorem objEnd_text {ms : List Mark} (h : ∀ m ∈ ms, m.Proper) (rest : Text) :
    objEnd true false (text ms ++ 34 :: rest) =
      (objEnd false false rest).map (· + ((text ms).length + 1)) := by
  induction ms with
  | nil => rfl
  | cons m ms ih =>
    have hm := h m List.mem_cons_self
    have hrest := ih fun m' hm' => h m' (List.mem_cons_of_mem m hm')
    rw [text_cons]
    cases m with
    | plain b =>
      show objEnd true false (b :: (text ms ++ 34 :: rest)) = _
      rw [objEnd, if_neg Bool.false_ne_true, if_neg (fun h => hm.2.1 h.1), if_neg hm.1,
        if_neg (by simp), if_neg (by simp), hrest, Option.map_map]
      congr 1
    | escaped b =>
      show objEnd true false (92 :: b :: (text ms ++ 34 :: rest)) = _
      rw [objEnd, if_neg Bool.false_ne_true, if_pos ⟨rfl, rfl⟩, objEnd, if_pos rfl, hrest,
        Option.map_map, Option.map_map]
      congr 1

theorem inside_string {ms : List Mark} (h : ∀ m ∈ ms, m.Proper) : Inside (string ms) := by
  intro rest
  rw [string_append, objEnd, if_neg Bool.false_ne_true, if_neg (by simp), if_pos rfl]
  show (objEnd true false _).map _ = _
  rw [objEnd_text h, Option.map_map]
  congr 1
  funext n
  simp only [Function.comp, string, List.length_append, List.length_cons, List.length_nil]
  omega

theorem inside_word {w : Text} (h : IsWord w) : Inside w := by
  refine inside_bare fun b hb => ⟨fun h34 => h.1.1 (h34 ▸ hb), ?_, (h.2.2 b hb).2.1⟩
  rintro rfl
  exact absurd (h.2.2 125 hb).2.2 (by decide)

theorem string_plain (k : Text) : string (k.map .plain) = 34 :: (k ++ [34]) := by
  have htext : text (k.map .plain) = k := by
    induction k with
    | nil => rfl
    | cons b k ih =>
      rw [List.map_cons, text_cons, ih]
      rfl
  rw [string, htext]
  rfl

/-- No byte of a name means anything between quotes. -/
theorem plain_proper {k : Text} (hk : Name k) : ∀ m ∈ k.map Mark.plain, m.Proper := by
  intro m hm
  obtain ⟨b, hb, rfl⟩ := List.mem_map.mp hm
  have hplain := hk.plain b hb
  exact ⟨hplain.1, hplain.2, fun h0 => hk.not_mem (b := 0) (by decide) (h0 ▸ hb)⟩

theorem inside_entries {colon sep : Text} (hcolon : Inside colon) (hsep : Inside sep)
    {es : List Entry} (h : ∀ e ∈ es, Name e.key ∧ Inside e.value) : Inside (entriesText colon sep es) := by
  have hentry : ∀ e ∈ es, Inside (e.text colon) := by
    intro e he
    obtain ⟨hkey, hvalue⟩ := h e he
    have hquoted : Inside (34 :: (e.key ++ [34])) := string_plain e.key ▸ inside_string (plain_proper hkey)
    exact (hquoted.append hcolon).append hvalue
  induction es with
  | nil => exact inside_bare (by simp [entriesText])
  | cons e es ih =>
    by_cases hes : es = []
    · rw [hes, entriesText_singleton]
      exact hentry e List.mem_cons_self
    · rw [entriesText_cons colon sep e hes]
      exact ((hentry e List.mem_cons_self).append hsep).append
        (ih (fun e' he' => h e' (List.mem_cons_of_mem e he'))
          fun e' he' => hentry e' (List.mem_cons_of_mem e he'))

end PkgManager.SettingsFields
