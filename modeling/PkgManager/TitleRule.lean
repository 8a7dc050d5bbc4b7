import PkgManager.TitleLookup

namespace PkgManager.TitleRule

open CText KeySearch TitleLookup
open PkgMetadata (Text titlesJson)
open LocalizedTitles (fitting)

/-! Which title is due. -/

/-- No entry has the tag or its language. -/
def Unanswered (es : List (Text × Text)) (l : Text) : Prop :=
  ∀ e ∈ es, e.1 ≠ l ∧ primaryOf e.1 ≠ primaryOf l

/-- The entry has the tag, or its language where none has the tag. -/
def Answers (es : List (Text × Text)) (l : Text) (e : Text × Text) : Prop :=
  e ∈ es ∧ (e.1 = l ∨ ((∀ g ∈ es, g.1 ≠ l) ∧ primaryOf e.1 = primaryOf l))

/-- The entry answers the first language asked for that has one, or else the default language; or it
is an English one, or the first. -/
inductive Chosen (es : List (Text × Text)) (langs : List Text) (lang : Text) : Text × Text → Prop
  | asked {front back : List Text} {l : Text} {e : Text × Text} (hlist : langs = front ++ l :: back)
      (hfront : ∀ k ∈ front, Unanswered es k) (h : Answers es l e) : Chosen es langs lang e
  | usual {e : Text × Text} (hnone : ∀ l ∈ langs, Unanswered es l) (h : Answers es lang e) :
      Chosen es langs lang e
  | english {e : Text × Text} (hnone : ∀ l ∈ langs, Unanswered es l) (husual : Unanswered es lang)
      (he : e ∈ es) (h : primaryOf e.1 = ascii "en") : Chosen es langs lang e
  | first {e : Text × Text} (hnone : ∀ l ∈ langs, Unanswered es l) (husual : Unanswered es lang)
      (henglish : ∀ g ∈ es, primaryOf g.1 ≠ ascii "en") (h : es.head? = some e) : Chosen es langs lang e

/-- What is shown where neither the languages asked for nor the default one lead to an entry: the
title of an English entry, or the first one as it stands, is the title that is due. -/
def FallsBack (es : List (Text × Text)) (lang : Text) (m : Nat) : Prop :=
  match nearEntry es (ascii "en") with
  | some e => ∀ g ∈ askedEntry es lang, snprintf m e.2 = snprintf m g.2
  | none => ∃ e, es.head? = some e ∧ (rawTitle e.2).length + 1 < m ∧
      rawTitle e.2 = snprintf m ((askedEntry es lang).getD e).2

/-! What is found answers. -/

section Rules

variable {es : List (Text × Text)} (hes : IsTagged es)

include hes

omit hes in
theorem exactEntry_none_iff {l : Text} : exactEntry es l = none ↔ ∀ e ∈ es, e.1 ≠ l := by
  unfold exactEntry
  rw [List.find?_eq_none]
  simp

theorem askedEntry_none_iff {l : Text} (hl : 45 ∉ primaryOf l) : askedEntry es l = none ↔ Unanswered es l := by
  unfold askedEntry
  rw [Option.or_eq_none_iff, exactEntry_none_iff, nearEntry_none_iff hes hl]
  exact ⟨fun h e he => ⟨h.1 e he, h.2 e he⟩, fun h => ⟨fun e he => (h e he).1, fun e he => (h e he).2⟩⟩

theorem askedEntry_answers {l : Text} (hl : 45 ∉ primaryOf l) {e : Text × Text} (h : askedEntry es l = some e) :
    Answers es l e := by
  rcases Option.or_eq_some_iff.mp h with hexact | ⟨hnone, hnear⟩
  · obtain ⟨he, hkey, -⟩ := exactEntry_some hes hexact
    exact ⟨he, .inl hkey⟩
  · obtain ⟨he, hprimary⟩ := nearEntry_primary hes hl hnear
    exact ⟨he, .inr ⟨exactEntry_none_iff.mp hnone, hprimary⟩⟩

omit hes in
theorem usualEntry_asked {lang : Text} {e : Text × Text} (h : usualEntry es lang = some e) :
    askedEntry es lang = some e := by
  unfold usualEntry at h
  by_cases hempty : lang = []
  · rw [if_pos hempty] at h
    cases h
  · rw [if_neg hempty] at h
    rcases Option.or_eq_some_iff.mp h with hexact | ⟨hnone, hregional⟩
    · rw [askedEntry, hexact]
      rfl
    · rw [askedEntry, hnone, nearEntry, hregional]
      rfl

/-- Where the default language leads to no entry there is at most the one without a region. -/
theorem answers_unusual {lang : Text} (hl : 45 ∉ primaryOf lang) (h : usualEntry es lang = none) {e : Text × Text}
    (he : Answers es lang e) : askedEntry es lang = some e := by
  have hsome : askedEntry es lang ≠ none := by
    intro hnone
    obtain ⟨hmem, hany⟩ := he
    have hun := (askedEntry_none_iff hes hl).mp hnone e hmem
    rcases hany with hkey | ⟨-, hprimary⟩
    · exact hun.1 hkey
    · exact hun.2 hprimary
  have hne : lang ≠ [] := by
    rintro rfl
    exact hsome (askedEntry_nil hes)
  unfold usualEntry at h
  rw [if_neg hne] at h
  obtain ⟨hexact, hregional⟩ := Option.or_eq_none_iff.mp h
  obtain ⟨hmem, hkey | ⟨-, hprimary⟩⟩ := he
  · exact absurd hkey (exactEntry_none_iff.mp hexact e hmem)
  · have hbare : e.1 = primaryOf lang := by
      rcases (primaryOf_iff (hes.tag e hmem).1 hl).mp hprimary with hpre | hbare
      · exact absurd (List.isPrefixOf_iff_prefix.mpr hpre) (List.find?_eq_none.mp hregional e hmem)
      · exact hbare
    have hself := exactEntry_self hes hmem
    rw [hbare] at hself
    rw [askedEntry, hexact, nearEntry, hregional, hself]
    rfl

end Rules

/-! What is shown is due. -/

section Shown

variable {es : List (Text × Text)} (hes : IsTagged es) {langs : List Text} {lang : Text}

include hes

/-- Without an answer to the languages asked for only the entry of the default language is due, where
it has one. -/
theorem chosen_usual (hnone : ∀ l ∈ langs, Unanswered es l) (hl : 45 ∉ primaryOf lang)
    (husual : usualEntry es lang = none) {g e : Text × Text} (hg : askedEntry es lang = some g)
    (h : Chosen es langs lang e) : e = g := by
  have hanswered : ¬Unanswered es lang := by
    intro hun
    rw [(askedEntry_none_iff hes hl).mpr hun] at hg
    cases hg
  cases h with
  | @asked front back l _ hlist hfront h =>
    have hun := hnone l (by rw [hlist]; simp) e h.1
    rcases h.2 with hkey | ⟨-, hprimary⟩
    · exact absurd hkey hun.1
    · exact absurd hprimary hun.2
  | usual _ h =>
    rw [answers_unusual hes hl husual h] at hg
    exact Option.some.inj hg
  | english _ hun => exact absurd hun hanswered
  | first _ hun => exact absurd hun hanswered

omit hes in
theorem chosen_first (hnone : ∀ l ∈ langs, Unanswered es l) (husual : Unanswered es lang)
    (henglish : ∀ g ∈ es, primaryOf g.1 ≠ ascii "en") {e : Text × Text} (h : Chosen es langs lang e) :
    es.head? = some e := by
  have hanswers {l : Text} (hun : Unanswered es l) : ¬Answers es l e := by
    rintro ⟨he, hkey | ⟨-, hprimary⟩⟩
    · exact (hun e he).1 hkey
    · exact (hun e he).2 hprimary
  cases h with
  | @asked front back l _ hlist hfront h => exact absurd h (hanswers (hnone l (by rw [hlist]; simp)))
  | usual _ h => exact absurd h (hanswers husual)
  | english _ _ he h => exact absurd h (henglish e he)
  | first _ _ _ h => exact h

theorem fallsBack_iff (hnone : ∀ l ∈ langs, Unanswered es l) (hl : 45 ∉ primaryOf lang)
    (husual : usualEntry es lang = none) (hne : es ≠ []) {json : Text} (hjson : Holds json es) (m : Nat) :
    (∃ e, Chosen es langs lang e ∧
      ((nearEntry es (ascii "en")).map fun e => snprintf m e.2).or (firstTitle json m) = some (snprintf m e.2)) ↔
      FallsBack es lang m := by
  obtain ⟨first, rest, rfl⟩ := List.exists_cons_of_ne_nil hne
  have hen : 45 ∉ ascii "en" := by decide
  have hfirst := firstTitle_eq hes hjson m
  unfold FallsBack
  cases hnear : nearEntry (first :: rest) (ascii "en") with
  | some english =>
    obtain ⟨hmem, hprimary⟩ := nearEntry_primary hes hen hnear
    rw [Option.map_some, Option.some_or]
    dsimp only
    constructor
    · rintro ⟨e, hchosen, hshown⟩ g hg
      rw [chosen_usual hes hnone hl husual hg hchosen] at hshown
      exact Option.some.inj hshown
    · intro hsame
      cases hasked : askedEntry (first :: rest) lang with
      | some g =>
        refine ⟨g, .usual hnone (askedEntry_answers hes hl hasked), ?_⟩
        rw [hsame g hasked]
      | none => exact ⟨english, .english hnone ((askedEntry_none_iff hes hl).mp hasked) hmem hprimary, rfl⟩
  | none =>
    have henglish := (nearEntry_none_iff hes hen).mp hnear
    rw [Option.map_none, Option.none_or, hfirst]
    dsimp only
    constructor
    · rintro ⟨e, hchosen, hshown⟩
      refine ⟨first, rfl, ?_⟩
      by_cases hlen : (rawTitle first.2).length + 1 < m
      · rw [if_pos hlen] at hshown
        refine ⟨hlen, ?_⟩
        rw [Option.some.inj hshown]
        cases hasked : askedEntry (first :: rest) lang with
        | some g =>
          rw [chosen_usual hes hnone hl husual hasked hchosen]
          rfl
        | none =>
          have hun := (askedEntry_none_iff hes hl).mp hasked
          rw [← Option.some.inj (chosen_first hnone hun henglish hchosen)]
          rfl
      · rw [if_neg hlen] at hshown
        cases hshown
    · rintro ⟨e, hhead, hlen, hraw⟩
      obtain rfl := Option.some.inj hhead
      rw [if_pos hlen, hraw]
      cases hasked : askedEntry (first :: rest) lang with
      | some g => exact ⟨g, .usual hnone (askedEntry_answers hes hl hasked), rfl⟩
      | none =>
        exact ⟨first, .first hnone ((askedEntry_none_iff hes hl).mp hasked) henglish rfl, rfl⟩

end Shown

theorem acceptTags_subset (fuel : Nat) (p : Text) : ∀ l ∈ acceptTags fuel p, l ⊆ p := by
  induction fuel generalizing p with
  | zero => exact nofun
  | succ fuel ih =>
    have hdrop := (List.dropWhile_sublist (l := p) fun b => decide (b = 32 ∨ b = 9 ∨ b = 44)).subset
    unfold acceptTags
    dsimp only
    split
    · exact nofun
    · refine List.forall_mem_cons.mpr ⟨?_, fun l hl => ?_⟩
      · exact List.Subset.trans
          ((List.rdropWhile_prefix _ _).sublist.trans (List.takeWhile_sublist _)).subset hdrop
      · refine List.Subset.trans (ih _ l hl) (List.Subset.trans ?_ hdrop)
        exact ((List.drop_sublist 1 _).trans (List.dropWhile_sublist _)).subset

/-- There is room for the first title at least. -/
theorem fitting_ne_nil {es : List (Text × Text)} (hes : IsTitles es) (hne : es ≠ []) : fitting 2048 0 es ≠ [] := by
  obtain ⟨e, rest, rfl⟩ := List.exists_cons_of_ne_nil hne
  have htag := (hes.tag e List.mem_cons_self).2
  have hshort := hes.short e List.mem_cons_self
  have hlen : (PkgMetadata.escapeTitle e.2).length ≤ 2 * e.2.length :=
    ManifestScan.length_escape_le e.2
  rw [fitting, LocalizedTitles.pairLength, if_pos (by omega)]
  exact List.cons_ne_nil _ _

/-- Where what is sought is found at keys only, the title that is due is shown if and only if it is
the one of the entry that was found, or the fallback has it. -/
theorem title_chosen_iff {es : List (Text × Text)} {lang accept : Text} {m : Nat} (hes : IsTitles es)
    (hne : es ≠ []) (hm : 2 ≤ m) (haccept : 0 ∉ accept) (hlang : 0 ∉ lang)
    (hclear : Clear (titlesJson 2048 es) (fitting 2048 0 es) (languagesOf accept) lang) :
    (∃ e, Chosen (fitting 2048 0 es) (languagesOf accept) lang e ∧
        resolveLocalizedTitle (titlesJson 2048 es) lang accept m = some (snprintf m e.2)) ↔
      ((∀ l ∈ languagesOf accept, Unanswered (fitting 2048 0 es) l) → usualEntry (fitting 2048 0 es) lang = none →
        FallsBack (fitting 2048 0 es) lang m) := by
  have hjson := titlesJson_holds hes.toIsTagged
  have hw := hes.toIsTagged.sublist (fitting_sublist 2048 0 es)
  have hfits := fitting_ne_nil hes hne
  have hl := primary_hyphen_free hlang
  have hlangs : ∀ l ∈ languagesOf accept, 45 ∉ primaryOf l := fun l hmem =>
    primary_hyphen_free fun h0 => haccept (acceptTags_subset _ _ l hmem h0)
  rw [resolve_eq hw hjson hm hclear]
  generalize titlesJson 2048 es = json at hjson
  generalize fitting 2048 0 es = w at hw hjson hfits
  unfold consoleEntry
  cases hasked : (languagesOf accept).findSome? fun l => askedEntry w l with
  | some e =>
    obtain ⟨front, l, back, hlist, hentry, hfront⟩ := List.findSome?_eq_some_iff.mp hasked
    have hmem : l ∈ languagesOf accept := by
      rw [hlist]
      exact List.mem_append_right front List.mem_cons_self
    have hbefore : ∀ k ∈ front, Unanswered w k := by
      intro k hk
      refine (askedEntry_none_iff hw (hlangs k ?_)).mp (hfront k hk)
      rw [hlist]
      exact List.mem_append_left _ hk
    constructor
    · intro _ hnone
      rw [(askedEntry_none_iff hw (hlangs l hmem)).mpr (hnone l hmem)] at hentry
      cases hentry
    · intro _
      exact ⟨e, .asked hlist hbefore (askedEntry_answers hw (hlangs l hmem) hentry), rfl⟩
  | none =>
    have hnone : ∀ l ∈ languagesOf accept, Unanswered w l := fun l hmem =>
      (askedEntry_none_iff hw (hlangs l hmem)).mp (List.findSome?_eq_none_iff.mp hasked l hmem)
    rw [Option.none_or]
    cases husual : usualEntry w lang with
    | some e =>
      constructor
      · exact fun _ _ => nofun
      · intro _
        exact ⟨e, .usual hnone (askedEntry_answers hw hl (usualEntry_asked husual)), rfl⟩
    | none =>
      have hback := fallsBack_iff hw hnone hl husual hfits hjson m
      rw [Option.none_or, hback]
      exact ⟨fun h _ _ => h, fun h => h hnone rfl⟩

def wayTitles : List (Text × Text) := [(ascii "en-GB", ascii "On the way"), (ascii "de-DE", ascii "Unterwegs")]

theorem title_chosen_german :
    ∃ e, Chosen (fitting 2048 0 wayTitles) (languagesOf (ascii "de-AT")) (ascii "en-GB") e ∧
      resolveLocalizedTitle (titlesJson 2048 wayTitles) (ascii "en-GB") (ascii "de-AT") 256 =
        some (snprintf 256 e.2) := by
  have hfit : fitting 2048 0 wayTitles = wayTitles := by decide
  have hlangs : languagesOf (ascii "de-AT") = [ascii "de-AT"] := by decide
  have henglish : IsLanguage (ascii "en-GB") := ⟨by decide +kernel, 101, ascii "n-GB", rfl, by decide⟩
  have hgerman : IsLanguage (ascii "de-DE") := ⟨by decide +kernel, 100, ascii "e-DE", rfl, by decide⟩
  have haustrian : IsLanguage (ascii "de-AT") := ⟨by decide +kernel, 100, ascii "e-AT", rfl, by decide⟩
  have htitles : IsTitles wayTitles :=
    ⟨⟨List.forall_mem_cons.mpr ⟨⟨henglish, by decide⟩, List.forall_mem_singleton.mpr ⟨hgerman, by decide⟩⟩,
      by decide, by decide⟩, by decide⟩
  have hfound : askedEntry wayTitles (ascii "de-AT") = some (ascii "de-DE", ascii "Unterwegs") := by
    decide
  have hquiet : Quiet wayTitles (primaryOf (ascii "de-AT")) := by
    unfold Quiet
    decide
  have hnone : ¬∀ l ∈ [ascii "de-AT"], askedEntry wayTitles l = none := by
    intro h
    rw [h _ List.mem_cons_self] at hfound
    cases hfound
  have hanswered : ¬∀ l ∈ [ascii "de-AT"], Unanswered wayTitles l := by
    intro h
    have hun := h _ List.mem_cons_self (ascii "de-DE", ascii "Unterwegs") (by decide)
    exact hun.2 (by decide)
  have hclear : Clear (titlesJson 2048 wayTitles) wayTitles [ascii "de-AT"] (ascii "en-GB") := by
    refine ⟨?_, fun h => absurd h hnone, fun h => absurd h hnone⟩
    intro front l back hlist _
    have hl : l ∈ [ascii "de-AT"] := by
      rw [hlist]
      exact List.mem_append_right front List.mem_cons_self
    obtain rfl := List.mem_singleton.mp hl
    refine ⟨fun hlong => absurd hlong (by decide), fun _ _ h => absurd ⟨haustrian.word, by decide⟩ h, ?_⟩
    exact fun _ _ _ => ⟨fun _ _ => hquiet.guarded, fun _ h => absurd (primary_word haustrian) h⟩
  have hiff := @title_chosen_iff wayTitles (ascii "en-GB") (ascii "de-AT") 256 htitles (List.cons_ne_nil _ _)
    (by decide) (by decide) (by decide)
  rw [hfit, hlangs] at hiff
  rw [hfit, hlangs]
  exact (hiff hclear).mpr fun h => absurd h hanswered

def routeTitles : List (Text × Text) := [(ascii "fr-FR", ascii "en-Route"), (ascii "en-GB", ascii "On the way")]

/-- The first title is taken for a key. -/
theorem title_chosen_fails :
    ¬∃ e, Chosen (fitting 2048 0 routeTitles) (languagesOf (ascii "en-US")) [] e ∧
      resolveLocalizedTitle (titlesJson 2048 routeTitles) [] (ascii "en-US") 256 = some (snprintf 256 e.2) := by
  have hfit : fitting 2048 0 routeTitles = routeTitles := by decide
  have hlangs : languagesOf (ascii "en-US") = [ascii "en-US"] := by decide
  have hshown : resolveLocalizedTitle (titlesJson 2048 routeTitles) [] (ascii "en-US") 256 =
      some (ascii "en-Route") := by decide
  have hanswered : ¬∀ l ∈ [ascii "en-US"], Unanswered routeTitles l := by
    intro h
    have hun := h _ List.mem_cons_self (ascii "en-GB", ascii "On the way") (by decide)
    exact hun.2 (by decide)
  have hfrench : primaryOf (ascii "fr-FR") ≠ primaryOf (ascii "en-US") := by decide
  rw [hfit, hlangs, hshown]
  rintro ⟨e, hchosen, htitle⟩
  cases hchosen with
  | @asked front back l _ hlist _ h =>
    have hl : l ∈ [ascii "en-US"] := by
      rw [hlist]
      exact List.mem_append_right front List.mem_cons_self
    obtain rfl := List.mem_singleton.mp hl
    obtain ⟨hmem, hany⟩ := h
    rcases List.mem_cons.mp hmem with rfl | hmem
    · rcases hany with hkey | ⟨-, hprimary⟩
      · exact absurd hkey (by decide)
      · exact hfrench hprimary
    · obtain rfl := List.mem_singleton.mp hmem
      exact absurd (Option.some.inj htitle) (by decide)
  | usual hnone _ => exact hanswered hnone
  | english hnone _ _ _ => exact hanswered hnone
  | first hnone _ _ _ => exact hanswered hnone

end PkgManager.TitleRule
