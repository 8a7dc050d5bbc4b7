import PkgManager.JsonText
import PkgManager.PkgMetadata

namespace PkgManager.LocalizedTitles

open CText PkgMetadata
open JsonText (Json IsJson Body Writes run run_append run_cons step)

/-- Empty, or an object of strings. -/
def TitlesObject (t : Text) : Prop :=
  t = [] ∨ ∃ ms : List (Text × Text), IsJson (.object (ms.map fun m => (m.1, .string m.2))) t

/-- What an entry takes with the brace or the comma in front of it. -/
def pairLength (e : Text × Text) : Nat := e.1.length + (escapeTitle e.2).length + 6

/-- The entries that fit a buffer of `max` bytes behind the first `used` of them. -/
def fitting (max : Nat) : Nat → List (Text × Text) → List (Text × Text)
  | _, [] => []
  | used, e :: rest =>
    if pairLength e < max - used then e :: fitting max (used + pairLength e) rest else []

/-- The tags are JSON string contents as they stand, the titles have no control
bytes, and the closing brace finds room. -/
structure Embeds (max : Nat) (es : List (Text × Text)) : Prop where
  tag : ∀ e ∈ fitting max 0 es, ∃ s, Body s e.1
  title : ∀ e ∈ fitting max 0 es, ∀ b ∈ e.2, 32 ≤ b
  room : ((fitting max 0 es).map pairLength).sum + 1 ≠ max

/-! The text of the entries. -/

def pairText (e : Text × Text) : Text := quoted e.1 ++ [58] ++ quoted (escapeTitle e.2)

def itemsText : Bool → List (Text × Text) → Text
  | _, [] => []
  | first, e :: rest => (if first then [] else [44]) ++ pairText e ++ itemsText false rest

theorem length_pairText (e : Text × Text) : (pairText e).length + 1 = pairLength e := by
  simp only [pairText, quoted, pairLength, List.length_append, List.length_cons, List.length_nil]
  omega

theorem appendTitles_behind (max : Nat) {acc : Text} (hacc : 1 < acc.length) (es : List (Text × Text)) :
    appendTitles max acc es = acc ++ itemsText false (fitting max acc.length es) := by
  induction es generalizing acc with
  | nil => simp [appendTitles, fitting, itemsText]
  | cons e rest ih =>
    have hne : acc ≠ [123] := by
      rintro rfl
      exact absurd hacc (by decide)
    have hlen := length_pairText e
    rw [appendTitles, fitting, if_neg hne]
    have hitem : ([44] ++ quoted e.1 ++ [58] ++ quoted (escapeTitle e.2) : Text) = 44 :: pairText e := rfl
    simp only [hitem, List.length_cons, hlen]
    split_ifs with hfits
    · rw [ih (by simp only [List.length_append, List.length_cons]; omega)]
      have hused : (acc ++ 44 :: pairText e).length = acc.length + pairLength e := by
        rw [List.length_append, List.length_cons, hlen]
      rw [hused]
      simp [itemsText]
    · simp [itemsText]

theorem appendTitles_eq {max : Nat} (hmax : 1 ≤ max) (es : List (Text × Text)) :
    appendTitles max [123] es = 123 :: itemsText true (fitting max 0 es) := by
  cases es with
  | nil => rfl
  | cons e rest =>
    have hlen := length_pairText e
    rw [appendTitles, fitting, if_pos rfl]
    have hitem : ([] ++ quoted e.1 ++ [58] ++ quoted (escapeTitle e.2) : Text) = pairText e := rfl
    simp only [hitem, List.length_cons, List.length_nil]
    have hused : ([123] ++ pairText e : Text).length = 0 + pairLength e := by
      rw [List.length_append, List.length_singleton]
      omega
    have hmore : 1 < ([123] ++ pairText e : Text).length := by
      rw [hused, pairLength]
      omega
    by_cases hfits : pairLength e < max - 0
    · rw [if_pos (by omega), if_pos hfits, appendTitles_behind max hmore, hused]
      simp [itemsText]
    · rw [if_neg (by omega), if_neg hfits]
      rfl

theorem length_itemsText (es : List (Text × Text)) :
    (itemsText false es).length = (es.map pairLength).sum := by
  induction es with
  | nil => rfl
  | cons e rest ih =>
    have hlen := length_pairText e
    simp only [itemsText, Bool.false_eq_true, if_false, List.length_append, List.length_singleton, ih,
      List.map_cons, List.sum_cons]
    omega

theorem length_itemsText_true {es : List (Text × Text)} (h : es ≠ []) :
    (itemsText true es).length + 1 = (es.map pairLength).sum := by
  cases es with
  | nil => exact absurd rfl h
  | cons e rest =>
    have hlen := length_pairText e
    simp only [itemsText, if_true, List.nil_append, List.length_append, length_itemsText, List.map_cons,
      List.sum_cons]
    omega

theorem sum_fitting (max used : Nat) (h : used < max) (es : List (Text × Text)) :
    used + ((fitting max used es).map pairLength).sum < max := by
  induction es generalizing used with
  | nil => simpa [fitting] using h
  | cons e rest ih =>
    rw [fitting]
    split_ifs with hfits
    · have hmore := ih (used + pairLength e) (by omega)
      rw [List.map_cons, List.sum_cons]
      omega
    · simpa using h

theorem mem_of_mem_fitting {max used : Nat} {es : List (Text × Text)} {e : Text × Text}
    (h : e ∈ fitting max used es) : e ∈ es := by
  induction es generalizing used with
  | nil => exact h
  | cons e' rest ih =>
    rw [fitting] at h
    split_ifs at h
    · rcases List.mem_cons.mp h with rfl | h
      · exact List.mem_cons_self
      · exact List.mem_cons_of_mem e' (ih h)
    · exact absurd h List.not_mem_nil

/-- The text with its closing brace, where there is room for it. -/
theorem titlesJson_eq {max : Nat} (hmax : 2 < max) (es : List (Text × Text)) :
    titlesJson max es =
      123 :: itemsText true (fitting max 0 es) ++
        if ((fitting max 0 es).map pairLength).sum + 1 ≠ max then [125] else [] := by
  have hsum := sum_fitting max 0 (by omega) es
  unfold titlesJson
  rw [appendTitles_eq (by omega)]
  generalize fitting max 0 es = w at hsum
  dsimp only
  have hlen : (123 :: itemsText true w).length < max - 1 ↔ (w.map pairLength).sum + 1 ≠ max := by
    by_cases hw : w = []
    · subst hw
      simp only [itemsText, List.length_cons, List.length_nil, List.map_nil, List.sum_nil]
      omega
    · have hitems := length_itemsText_true hw
      rw [List.length_cons]
      omega
  by_cases hroom : (w.map pairLength).sum + 1 ≠ max
  · rw [if_pos (hlen.mpr hroom), if_pos hroom]
  · rw [if_neg (fun h => hroom (hlen.mp h)), if_neg hroom, List.append_nil]

/-! What a JSON reader meets in them. -/

theorem body_escapeTitle {t : Text} (h : ∀ b ∈ t, 32 ≤ b) : Body t (escapeTitle t) := by
  induction t with
  | nil => exact .nil
  | cons b t ih =>
    have hrest := ih fun c hc => h c (List.mem_cons_of_mem b hc)
    unfold escapeTitle
    rw [List.flatMap_cons]
    split_ifs with hb
    · refine .short ?_ hrest
      rcases hb with rfl | rfl <;> rfl
    · exact .plain b (h b List.mem_cons_self) (fun hq => hb (.inl hq)) (fun hs => hb (.inr hs)) hrest

theorem run_escapeTitle {t : Text} {q : JsonText.State} (h : run .inside (escapeTitle t) = some q) :
    q = .inside ∧ ∀ b ∈ t, 32 ≤ b := by
  induction t with
  | nil => exact ⟨(Option.some.inj h).symm, fun _ hb => absurd hb List.not_mem_nil⟩
  | cons b t ih =>
    unfold escapeTitle at h
    rw [List.flatMap_cons, run_append] at h
    split_ifs at h with hb
    · have hstep : run .inside [92, b] = some .inside := by rcases hb with rfl | rfl <;> rfl
      rw [hstep] at h
      obtain ⟨hq, hrest⟩ := ih h
      refine ⟨hq, List.forall_mem_cons.mpr ⟨?_, hrest⟩⟩
      rcases hb with rfl | rfl <;> decide
    · rw [run_cons, step, if_neg (fun hq => hb (.inl hq)), if_neg (fun hs => hb (.inr hs))] at h
      split_ifs at h with hcontrol
      · cases h
      · obtain ⟨hq, hrest⟩ := ih h
        exact ⟨hq, List.forall_mem_cons.mpr ⟨UInt8.not_lt.mp hcontrol, hrest⟩⟩

/-- Outside of a string a title is no JSON, or seems to be no string. -/
theorem run_escapeTitle_outside {t : Text} {q : JsonText.State}
    (h : run .outside (escapeTitle t) = some q) : q = .outside := by
  induction t with
  | nil => exact (Option.some.inj h).symm
  | cons b t ih =>
    unfold escapeTitle at h
    rw [List.flatMap_cons, run_append] at h
    split_ifs at h with hb
    · cases h
    · rw [run_cons, step, if_neg (fun hq => hb (.inl hq)), if_neg (fun hs => hb (.inr hs))] at h
      exact ih h

theorem run_tag_outside {t : Text} {q : JsonText.State} (hquote : 34 ∉ t)
    (h : run .outside t = some q) : q = .outside := by
  induction t with
  | nil => exact (Option.some.inj h).symm
  | cons b t ih =>
    have hb : b ≠ 34 := fun hb => hquote (hb ▸ List.mem_cons_self)
    rw [run_cons, step, if_neg hb] at h
    split_ifs at h
    · cases h
    · exact ih (fun ht => hquote (List.mem_cons_of_mem b ht)) h

/-- Without a quote there is no way out of a string. -/
theorem run_tag_inside {t : Text} {q q' : JsonText.State} (hquote : 34 ∉ t) (hq : q ≠ .outside)
    (h : run q t = some q') : q' ≠ .outside := by
  induction t generalizing q with
  | nil =>
    obtain rfl := Option.some.inj h
    exact hq
  | cons b t ih =>
    have hb : b ≠ 34 := fun hb => hquote (hb ▸ List.mem_cons_self)
    rw [run_cons, Option.bind_eq_some_iff] at h
    obtain ⟨next, hstep, h⟩ := h
    refine ih (fun ht => hquote (List.mem_cons_of_mem b ht)) ?_ h
    rintro rfl
    cases q with
    | outside => exact hq rfl
    | inside =>
      rw [step, if_neg hb] at hstep
      split_ifs at hstep <;> cases hstep
    | escape =>
      rw [step] at hstep
      split_ifs at hstep <;> cases hstep
    | hex n =>
      rw [step] at hstep
      split_ifs at hstep
      cases n <;> cases hstep

/-- Where a pair leaves the reader that takes its first quote for the end of a string. -/
theorem run_pairText_inside {e : Text × Text} {q : JsonText.State} (hquote : 34 ∉ e.1)
    (h : run .inside (pairText e) = some q) : q = .inside := by
  have htext : pairText e = [34] ++ e.1 ++ [34, 58, 34] ++ escapeTitle e.2 ++ [34] := by
    simp [pairText, quoted]
  rw [htext] at h
  simp only [run_append, Option.bind_eq_some_iff] at h
  obtain ⟨q₄, ⟨q₃, ⟨q₂, ⟨q₁, hopen, htag⟩, hcolon⟩, htitle⟩, hclose⟩ := h
  obtain rfl : .outside = q₁ := Option.some.inj hopen
  obtain rfl := run_tag_outside hquote htag
  obtain rfl : .outside = q₃ := Option.some.inj hcolon
  obtain rfl := run_escapeTitle_outside htitle
  exact (Option.some.inj hclose).symm

/-- Where a pair leaves the reader of JSON: outside of the strings, or one too many within. -/
theorem run_pairText {e : Text × Text} {q : JsonText.State} (hquote : 34 ∉ e.1)
    (h : run .outside (pairText e) = some q) :
    q = .inside ∨ (q = .outside ∧ (∃ s, Body s e.1) ∧ ∀ b ∈ e.2, 32 ≤ b) := by
  have htext : pairText e = [34] ++ e.1 ++ [34, 58, 34] ++ escapeTitle e.2 ++ [34] := by
    simp [pairText, quoted]
  rw [htext] at h
  simp only [run_append, Option.bind_eq_some_iff] at h
  obtain ⟨q₄, ⟨q₃, ⟨q₂, ⟨q₁, hopen, htag⟩, hcolon⟩, htitle⟩, hclose⟩ := h
  obtain rfl : .inside = q₁ := Option.some.inj hopen
  cases q₂ with
  | outside => exact absurd rfl (run_tag_inside hquote (by decide) htag)
  | inside =>
    obtain rfl : .inside = q₃ := Option.some.inj hcolon
    obtain ⟨rfl, hplain⟩ := run_escapeTitle htitle
    exact .inr ⟨(Option.some.inj hclose).symm, JsonText.body_of_run hquote htag, hplain⟩
  | escape =>
    obtain rfl : .outside = q₃ := Option.some.inj hcolon
    obtain rfl := run_escapeTitle_outside htitle
    exact .inl (Option.some.inj hclose).symm
  | hex n => cases hcolon

/-- A reader that is one quote off stays so to the end. -/
theorem run_itemsText_inside {es : List (Text × Text)} (hquote : ∀ e ∈ es, 34 ∉ e.1) :
    run .inside (itemsText false es ++ [125]) ≠ some .outside := by
  induction es with
  | nil => decide
  | cons e rest ih =>
    intro h
    rw [itemsText, List.append_assoc, List.append_assoc, run_append, Option.bind_eq_some_iff] at h
    obtain ⟨q₁, hcomma, h⟩ := h
    obtain rfl : .inside = q₁ := Option.some.inj hcomma
    rw [run_append, Option.bind_eq_some_iff] at h
    obtain ⟨q₂, hpair, h⟩ := h
    obtain rfl := run_pairText_inside (hquote e List.mem_cons_self) hpair
    exact ih (fun e' he' => hquote e' (List.mem_cons_of_mem e he')) h

theorem sound_of_run {es : List (Text × Text)} (hquote : ∀ e ∈ es, 34 ∉ e.1) {first : Bool}
    (h : run .outside (itemsText first es ++ [125]) = some .outside) :
    ∀ e ∈ es, (∃ s, Body s e.1) ∧ ∀ b ∈ e.2, 32 ≤ b := by
  induction es generalizing first with
  | nil => exact fun _ he => absurd he List.not_mem_nil
  | cons e rest ih =>
    have hmore := fun e' he' => hquote e' (List.mem_cons_of_mem e he')
    rw [itemsText, List.append_assoc, List.append_assoc, run_append, Option.bind_eq_some_iff] at h
    obtain ⟨q₁, hcomma, h⟩ := h
    have hq₁ : q₁ = .outside := by cases first <;> exact (Option.some.inj hcomma).symm
    rw [hq₁, run_append, Option.bind_eq_some_iff] at h
    obtain ⟨q₂, hpair, h⟩ := h
    rcases run_pairText (hquote e List.mem_cons_self) hpair with rfl | ⟨rfl, hsound⟩
    · exact absurd h (run_itemsText_inside hmore)
    · exact List.forall_mem_cons.mpr ⟨hsound, ih hmore h⟩

/-! The two directions. -/

theorem writes_members {e : Text × Text} {es : List (Text × Text)}
    (htag : ∀ x ∈ e :: es, ∃ s, Body s x.1) (htitle : ∀ x ∈ e :: es, ∀ b ∈ x.2, 32 ≤ b) :
    ∃ (m : Text × Text) (ms : List (Text × Text)),
      Writes (.members ((m :: ms).map fun m => (m.1, .string m.2)))
        (pairText e ++ itemsText false es) := by
  induction es generalizing e with
  | nil =>
    obtain ⟨s, hs⟩ := htag e List.mem_cons_self
    have hvalue := Writes.string (body_escapeTitle (htitle e List.mem_cons_self))
    have hone := Writes.member JsonText.ws_nil hs JsonText.ws_nil JsonText.ws_nil hvalue JsonText.ws_nil
    exact ⟨(s, e.2), [], by simpa [pairText, quoted, JsonText.quoted, itemsText] using hone⟩
  | cons e' es ih =>
    obtain ⟨s, hs⟩ := htag e List.mem_cons_self
    have hvalue := Writes.string (body_escapeTitle (htitle e List.mem_cons_self))
    obtain ⟨m, ms, hrest⟩ := ih (fun x hx => htag x (List.mem_cons_of_mem e hx))
      (fun x hx => htitle x (List.mem_cons_of_mem e hx))
    have hmore := Writes.members JsonText.ws_nil hs JsonText.ws_nil JsonText.ws_nil hvalue
      JsonText.ws_nil hrest
    exact ⟨(s, e.2), m :: ms, by simpa [pairText, quoted, JsonText.quoted, itemsText] using hmore⟩

theorem itemsText_last {es : List (Text × Text)} (first : Bool) (h : es ≠ []) :
    ∃ u, itemsText first es = u ++ [34] := by
  induction es generalizing first with
  | nil => exact absurd rfl h
  | cons e rest ih =>
    by_cases hrest : rest = []
    · subst hrest
      exact ⟨(if first then [] else [44]) ++ quoted e.1 ++ [58] ++ [34] ++ escapeTitle e.2,
        by simp [itemsText, pairText, quoted]⟩
    · obtain ⟨u, hu⟩ := ih false hrest
      exact ⟨(if first then [] else [44]) ++ pairText e ++ u, by rw [itemsText, hu, ← List.append_assoc]⟩

theorem object_last {ms : List (Text × Json)} {t : Text} (h : IsJson (.object ms) t) :
    ∃ u b, t = u ++ [b] ∧ b ≠ 34 := by
  obtain ⟨a, body, b, rfl, -, hbody, hb⟩ := h
  have hbrace : ∃ u, body = u ++ [125] := by
    cases hbody with
    | @emptyObject w _ => exact ⟨123 :: w, rfl⟩
    | @object _ inner _ => exact ⟨123 :: inner, rfl⟩
  obtain ⟨u, rfl⟩ := hbrace
  rcases List.eq_nil_or_concat b with rfl | ⟨w, c, rfl⟩
  · exact ⟨a ++ u, 125, by simp, by decide⟩
  · refine ⟨a ++ (u ++ [125]) ++ w, c, by simp, ?_⟩
    rintro rfl
    exact absurd (hb 34 (by simp)) (by decide)

theorem titlesJson_embeds {max : Nat} (hmax : 2 < max) {es : List (Text × Text)} (h : Embeds max es) :
    TitlesObject (titlesJson max es) := by
  refine .inr ?_
  rw [titlesJson_eq hmax, if_pos h.room]
  obtain ⟨htag, htitle, -⟩ := h
  cases hw : fitting max 0 es with
  | nil => exact ⟨[], JsonText.isJson_of_writes (.emptyObject JsonText.ws_nil)⟩
  | cons e rest =>
    rw [hw] at htag htitle
    obtain ⟨m, ms, hms⟩ := writes_members htag htitle
    refine ⟨m :: ms, JsonText.isJson_of_writes ?_⟩
    exact .object hms

theorem embeds_of_titlesJson {max : Nat} (hmax : 2 < max) {es : List (Text × Text)}
    (hquote : ∀ e ∈ es, 34 ∉ e.1) (h : TitlesObject (titlesJson max es)) : Embeds max es := by
  rw [titlesJson_eq hmax] at h
  have hwritten : ∀ e ∈ fitting max 0 es, 34 ∉ e.1 := fun e he => hquote e (mem_of_mem_fitting he)
  rcases h with h | ⟨ms, h⟩
  · cases h
  · by_cases hroom : ((fitting max 0 es).map pairLength).sum + 1 ≠ max
    · rw [if_pos hroom] at h
      have hrun := JsonText.run_isJson h
      rw [List.cons_append, run_cons] at hrun
      have hsound := sound_of_run hwritten hrun
      exact ⟨fun e he => (hsound e he).1, fun e he => (hsound e he).2, hroom⟩
    · -- The text ends with the quote of its last title.
      rw [if_neg hroom, List.append_nil] at h
      have hne : fitting max 0 es ≠ [] := by
        intro hnil
        rw [hnil, List.map_nil, List.sum_nil] at hroom
        omega
      obtain ⟨u, hu⟩ := itemsText_last true hne
      obtain ⟨u', b, hlast, hb⟩ := object_last h
      rw [hu, ← List.cons_append] at hlast
      exact absurd (List.append_inj' hlast rfl).2 (fun hb' => hb (List.cons.inj hb').1.symm)

/-! The two parsers. -/

/-- The language entries of a `param.json`. -/
def paramJsonTitles (json : Text) : List (Text × Text) :=
  match localizedBlock json with
  | none => []
  | some (start, close) =>
    let region := (json.take close).drop start
    languageEntries (region.length + 1) 64 (region.drop 1)

/-- The language entries of a `param.sfo`. -/
def paramSfoTitles (sfo : Text) : List (Text × Text) :=
  if sfo.length < 20 ∨ sfo.take 4 ≠ [0, 80, 83, 70] ∨ sfo.length ≤ readLe sfo 8 4 ∨
      sfo.length ≤ readLe sfo 12 4 ∨ 1024 < readLe sfo 16 4 then []
  else (sfoEntries sfo).loc

theorem parseParamJson_titles (json : Text) (m : Meta) :
    (parseParamJson json m).localizedTitles =
      if paramJsonTitles json = [] then [] else titlesJson 2048 (paramJsonTitles json) := by
  unfold parseParamJson paramJsonTitles
  cases localizedBlock json with
  | none => rfl
  | some block => rfl

theorem parseParamSfo_titles (sfo localized lang : Text) :
    (parseParamSfo sfo localized lang).localizedTitles =
      if paramSfoTitles sfo = [] then localized else titlesJson 2048 (paramSfoTitles sfo) := by
  unfold parseParamSfo paramSfoTitles
  by_cases hheader : sfo.length < 20 ∨ sfo.take 4 ≠ [0, 80, 83, 70] ∨ sfo.length ≤ readLe sfo 8 4 ∨
      sfo.length ≤ readLe sfo 12 4 ∨ 1024 < readLe sfo 16 4
  · simp only [if_pos hheader, if_true]
  · simp only [if_neg hheader]

theorem languageEntries_tag {n k : Nat} {p : Text} : ∀ e ∈ languageEntries n k p, 34 ∉ e.1 := by
  fun_induction languageEntries n k p with
  | case1 | case2 | case3 | case5 | case7 => exact fun _ he => absurd he List.not_mem_nil
  | case4 _ _ _ _ _ _ _ _ ih => exact ih
  | case6 _ _ _ _ _ _ _ _ _ _ _ ih => exact ih
  | case8 _ _ _ body _ _ key _ _ _ _ _ _ _ _ _ _ ih =>
    refine List.forall_mem_cons.mpr ⟨fun h => ?_, ih⟩
    have hkey : 34 ∈ body.takeWhile (· ≠ 34) :=
      List.mem_of_mem_take ((List.takeWhile_subset _) (List.mem_of_mem_take h))
    exact absurd (List.mem_takeWhile_imp hkey) (by decide)
  | case9 _ _ _ _ _ _ _ _ _ _ _ _ _ _ _ _ _ ih => exact ih
  | case10 _ _ _ _ _ _ _ _ _ _ _ _ ih => exact ih

theorem sfoLanguage_quote {key lang : Text} (h : sfoLanguage key = some lang) : 34 ∉ lang := by
  have hmap : ∀ l ∈ sfoLangMap.map ascii, 34 ∉ l := by decide
  unfold sfoLanguage at h
  dsimp only at h
  split_ifs at h
  obtain ⟨l, hl, rfl⟩ := Option.map_eq_some_iff.mp h
  exact hmap _ (List.mem_map_of_mem (List.mem_of_getElem? hl))

theorem sfoEntry_tag {sfo : Text} {found : Sfo} (i : Nat) (h : ∀ e ∈ found.loc, 34 ∉ e.1) :
    ∀ e ∈ (sfoEntry sfo found i).loc, 34 ∉ e.1 := by
  unfold sfoEntry
  dsimp only
  split_ifs
  · exact h
  · unfold sfoValue
    split_ifs
    · exact h
    · exact h
    · cases hlang : sfoLanguage _ with
      | none => exact h
      | some lang =>
        exact List.forall_mem_append.mpr ⟨h, List.forall_mem_singleton.mpr (sfoLanguage_quote hlang)⟩
    · exact h
    · exact h
    · exact h
    · exact h

theorem paramSfoTitles_tag (sfo : Text) : ∀ e ∈ paramSfoTitles sfo, 34 ∉ e.1 := by
  have hfold : ∀ (is : List Nat) (found : Sfo), (∀ e ∈ found.loc, 34 ∉ e.1) →
      ∀ e ∈ (is.foldl (sfoEntry sfo) found).loc, 34 ∉ e.1 := by
    intro is
    induction is with
    | nil => exact fun _ h => h
    | cons i is ih => exact fun found h => ih _ (sfoEntry_tag i h)
  unfold paramSfoTitles
  split_ifs
  · exact fun _ he => absurd he List.not_mem_nil
  · exact hfold _ _ fun _ he => absurd he List.not_mem_nil

theorem paramJsonTitles_tag (json : Text) : ∀ e ∈ paramJsonTitles json, 34 ∉ e.1 := by
  unfold paramJsonTitles
  cases localizedBlock json with
  | none => exact fun _ he => absurd he List.not_mem_nil
  | some block => exact languageEntries_tag

theorem titlesJson_valid {es : List (Text × Text)} (hquote : ∀ e ∈ es, 34 ∉ e.1) :
    TitlesObject (titlesJson 2048 es) ↔ Embeds 2048 es :=
  ⟨embeds_of_titlesJson (by decide) hquote, titlesJson_embeds (by decide)⟩

theorem embeds_nil : Embeds 2048 [] :=
  ⟨fun _ he => absurd he List.not_mem_nil, fun _ he => absurd he List.not_mem_nil, by decide⟩

/-- The texts are JSON exactly where the entries embed; a `param.sfo` without
titles leaves the text that was there. -/
theorem localized_titles_valid (json sfo localized lang : Text) (m : Meta) :
    (TitlesObject (parseParamJson json m).localizedTitles ↔ Embeds 2048 (paramJsonTitles json)) ∧
    (TitlesObject (parseParamSfo sfo localized lang).localizedTitles ↔
      if paramSfoTitles sfo = [] then TitlesObject localized else Embeds 2048 (paramSfoTitles sfo)) := by
  rw [parseParamJson_titles, parseParamSfo_titles]
  constructor
  · by_cases hnil : paramJsonTitles json = []
    · rw [if_pos hnil, hnil]
      exact iff_of_true (.inl rfl) embeds_nil
    · rw [if_neg hnil]
      exact titlesJson_valid (paramJsonTitles_tag json)
  · split_ifs
    · exact Iff.rfl
    · exact titlesJson_valid (paramSfoTitles_tag sfo)

/-- A line break within a title. -/
theorem localized_titles_valid_fails :
    ¬∀ (json sfo lang : Text) (m : Meta), TitlesObject (parseParamJson json m).localizedTitles ∧
      TitlesObject (parseParamSfo sfo [] lang).localizedTitles := by
  intro h
  let json := ascii "\x7b\"localizedParameters\":\x7b\"en-US\":\x7b\"titleName\":\"A\nB\"\x7d\x7d\x7d"
  have htitles : paramJsonTitles json = [(ascii "en-US", [65, 10, 66])] := by decide
  have hjson := (h json [] [] Meta.empty).1
  rw [parseParamJson_titles, htitles, if_neg (List.cons_ne_nil _ _)] at hjson
  have hembeds := embeds_of_titlesJson (by decide) (by decide) hjson
  exact absurd (hembeds.title (ascii "en-US", [65, 10, 66]) (by decide) 10 (by decide)) (by decide)

end PkgManager.LocalizedTitles
