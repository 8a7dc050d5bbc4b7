import PkgManager.KeySearch
import PkgManager.LocalizedTitles
import PkgManager.ManifestScan

namespace PkgManager.TitleLookup

open CText KeySearch
open PkgMetadata (Text quoted escapeTitle titlesJson)
open LocalizedTitles (fitting)
open Manifest (fieldString)

/-! `pkg_parser_resolve_localized_title`. -/

/-- `snprintf` of a text into `n` bytes. -/
def snprintf (n : Nat) (s : Text) : Text := s.take (n - 1)

/-- `extract_val_for_key`: the value of the key, in `outMax` bytes. -/
def extractValForKey (json key : Text) (outMax : Nat) : Option Text :=
  let pattern := snprintf 64 (quoted key ++ [58, 34])
  (strstr pattern json).map fun i => fieldString (outMax - 1) (json.drop (i + pattern.length))

/-- The value counts where it is not empty. -/
def nonEmpty (out : Option Text) : Option Text := out.filter (· ≠ [])

/-- The value of the key whose quote stands at `found`. -/
def valueOfFound (json : Text) (outMax found : Nat) : Option Text :=
  let rest := json.drop (found + 1)
  (strchr 34 rest).bind fun keyLen =>
    if keyLen < 32 then nonEmpty (extractValForKey json (rest.take keyLen) outMax) else none

/-- The tag in front of its first hyphen, or else of its first underscore. -/
def primaryOf (tag : Text) : Text :=
  match (strchr 45 tag).or (strchr 95 tag) with
  | some i => tag.take i
  | none => tag

/-- `"xx-`. -/
def regionalPattern (primary : Text) : Text := snprintf 32 (34 :: (primary ++ [45]))

/-- `"xx":`. -/
def barePattern (primary : Text) : Text := snprintf 32 (quoted primary ++ [58])

/-- The title of a requested language. -/
def requestedTitle (json : Text) (outMax : Nat) (tag : Text) : Option Text :=
  if tag = [] ∨ 32 ≤ tag.length then none
  else
    (nonEmpty (extractValForKey json tag outMax)).or <|
      if (primaryOf tag).length < 16 then
        ((strstr (regionalPattern (primaryOf tag)) json).or
          (strstr (barePattern (primaryOf tag)) json)).bind (valueOfFound json outMax)
      else none

/-- The title of the default language. -/
def defaultTitle (json : Text) (outMax : Nat) (lang : Text) : Option Text :=
  if lang = [] then none
  else
    (nonEmpty (extractValForKey json lang outMax)).or <|
      if (primaryOf lang).length < 16 then
        (strstr (regionalPattern (primaryOf lang)) json).bind (valueOfFound json outMax)
      else none

def englishTitle (json : Text) (outMax : Nat) : Option Text :=
  ((strstr (ascii "\"en-") json).or (strstr (ascii "\"en\":") json)).bind (valueOfFound json outMax)

/-- The first value as it stands in the text. -/
def firstTitle (json : Text) (outMax : Nat) : Option Text :=
  (strchr 58 json).bind fun colon =>
    if json[colon + 1]? = some 34 then
      (strchr 34 (json.drop (colon + 2))).bind fun l =>
        if l + 1 < outMax then some ((json.drop (colon + 2)).take l) else none
    else none

/-- The languages of an `Accept-Language`, without what stands behind a semicolon. -/
def acceptTags : Nat → Text → List Text
  | 0, _ => []
  | fuel + 1, p =>
    let p := p.dropWhile fun b => b = 32 ∨ b = 9 ∨ b = 44
    if p = [] then []
    else (p.takeWhile fun b => b ≠ 44 ∧ b ≠ 59).rdropWhile isSpace ::
      acceptTags fuel ((p.dropWhile (· ≠ 44)).drop 1)

def languagesOf (accept : Text) : List Text := acceptTags accept.length accept

/-- `pkg_parser_resolve_localized_title`; where it fails, `out` is empty. -/
def resolveLocalizedTitle (json defaultLang accept : Text) (outMax : Nat) : Option Text :=
  if json.head? ≠ some 123 ∨ outMax = 0 then none
  else
    ((languagesOf accept).findSome? (requestedTitle json outMax)).or <|
      (defaultTitle json outMax defaultLang).or <|
        (englishTitle json outMax).or (firstTitle json outMax)

/-- The title `pkg_scanner_packages_for_drive_to_json_ex` shows. -/
def displayTitle (localized titleName defaultLang accept : Text) : Text :=
  if accept ≠ [] ∧ localized.head? = some 123 then
    (resolveLocalizedTitle localized defaultLang accept 256).getD []
  else titleName

/-! What is shown fits its buffer. -/

/-- A text of less than 256 bytes. -/
def Fits (t : Text) : Prop := t.length ≤ 255 ∧ 0 ∉ t

theorem fits_or {o o' : Option Text} (h : ∀ t ∈ o, Fits t) (h' : ∀ t ∈ o', Fits t) : ∀ t ∈ o.or o', Fits t := by
  cases o with
  | none => exact h'
  | some t => exact h

section Fits

variable {json : Text} (h0 : 0 ∉ json)

include h0

theorem extract_fits (key : Text) : ∀ t ∈ nonEmpty (extractValForKey json key 256), Fits t := by
  intro t ht
  obtain ⟨hread, -⟩ := Option.filter_eq_some_iff.mp ht
  obtain ⟨i, -, rfl⟩ := Option.map_eq_some_iff.mp hread
  obtain ⟨hlen, hsub⟩ := ManifestScan.fieldString_spec 255 (json.drop (i + (snprintf 64 (quoted key ++ [58, 34])).length))
  exact ⟨hlen, fun hz => h0 ((hsub.trans (List.drop_sublist _ _)).subset hz)⟩

theorem found_fits (found : Option Nat) : ∀ t ∈ found.bind (valueOfFound json 256), Fits t := by
  intro t ht
  obtain ⟨n, -, hn⟩ := Option.bind_eq_some_iff.mp ht
  obtain ⟨keyLen, -, hkey⟩ := Option.bind_eq_some_iff.mp hn
  by_cases hlen : keyLen < 32
  · rw [if_pos hlen] at hkey
    exact extract_fits h0 _ t hkey
  · rw [if_neg hlen] at hkey
    cases hkey

theorem requestedTitle_fits (tag : Text) : ∀ t ∈ requestedTitle json 256 tag, Fits t := by
  unfold requestedTitle
  split
  · exact nofun
  · refine fits_or (extract_fits h0 tag) ?_
    split
    · exact found_fits h0 _
    · exact nofun

theorem defaultTitle_fits (lang : Text) : ∀ t ∈ defaultTitle json 256 lang, Fits t := by
  unfold defaultTitle
  split
  · exact nofun
  · refine fits_or (extract_fits h0 lang) ?_
    split
    · exact found_fits h0 _
    · exact nofun

theorem firstTitle_fits : ∀ t ∈ firstTitle json 256, Fits t := by
  intro t ht
  obtain ⟨colon, -, hcolon⟩ := Option.bind_eq_some_iff.mp ht
  by_cases hquote : json[colon + 1]? = some 34
  · rw [if_pos hquote] at hcolon
    obtain ⟨l, -, hl⟩ := Option.bind_eq_some_iff.mp hcolon
    by_cases hlen : l + 1 < 256
    · rw [if_pos hlen] at hl
      obtain rfl := Option.some.inj hl
      have hsub := (List.take_sublist l _).trans (List.drop_sublist (colon + 2) json)
      refine ⟨?_, fun hz => h0 (hsub.subset hz)⟩
      rw [List.length_take]
      omega
    · rw [if_neg hlen] at hl
      cases hl
  · rw [if_neg hquote] at hcolon
    cases hcolon

theorem resolve_fits (lang accept : Text) : ∀ t ∈ resolveLocalizedTitle json lang accept 256, Fits t := by
  unfold resolveLocalizedTitle
  split
  · exact nofun
  · refine fits_or (fun t ht => ?_) (fits_or (defaultTitle_fits h0 lang)
      (fits_or (found_fits h0 _) (firstTitle_fits h0)))
    obtain ⟨tag, -, htag⟩ := List.exists_of_findSome?_eq_some ht
    exact requestedTitle_fits h0 tag t htag

end Fits

theorem displayTitle_fits {localized titleName : Text} (h0 : 0 ∉ localized) (hname : 0 ∉ titleName)
    (hlen : titleName.length ≤ 255) (lang accept : Text) :
    Fits (displayTitle localized titleName lang accept) := by
  unfold displayTitle
  split
  · cases hfound : resolveLocalizedTitle localized lang accept 256 with
    | none => exact ⟨Nat.zero_le _, List.not_mem_nil⟩
    | some t => exact resolve_fits h0 lang accept t hfound
  · exact ⟨hlen, hname⟩

/-! The tags and the titles. -/

def isTagByte (b : UInt8) : Bool := isDigit b || (65 ≤ b && b ≤ 90) || (97 ≤ b && b ≤ 122) || b = 45

/-- A language tag: letters, digits and hyphens, and a letter first. -/
structure IsLanguage (t : Text) : Prop where
  bytes : ∀ b ∈ t, isTagByte b = true
  first : ∃ b rest, t = b :: rest ∧ ((65 ≤ b ∧ b ≤ 90) ∨ (97 ≤ b ∧ b ≤ 122))

/-- What the builders take: tags of less than 16 bytes that are different, and titles that are
not empty. -/
structure IsTagged (es : List (Text × Text)) : Prop where
  tag : ∀ e ∈ es, IsLanguage e.1 ∧ e.1.length < 16
  title : ∀ e ∈ es, e.2 ≠ [] ∧ 0 ∉ e.2
  nodup : (es.map Prod.fst).Nodup

structure IsTitles (es : List (Text × Text)) : Prop extends IsTagged es where
  short : ∀ e ∈ es, e.2.length < 256

theorem IsLanguage.not_mem {t : Text} (h : IsLanguage t) {b : UInt8} (hb : isTagByte b = false) : b ∉ t := by
  intro hmem
  have htag := h.bytes b hmem
  rw [hb] at htag
  cases htag

theorem word_of_language {t u : Text} (h : IsLanguage t) (hu : u.Sublist t) (hne : u ≠ []) : Word u := by
  refine ⟨hne, fun b hb => ?_⟩
  have hmem := hu.subset hb
  have hnot (c : UInt8) (hc : isTagByte c = false) : b ≠ c := by
    rintro rfl
    exact h.not_mem hc hmem
  exact ⟨hnot 34 (by decide), hnot 92 (by decide), hnot 44 (by decide), hnot 58 (by decide),
    hnot 125 (by decide), hnot 0 (by decide)⟩

theorem IsLanguage.ne_nil {t : Text} (h : IsLanguage t) : t ≠ [] := by
  obtain ⟨b, rest, rfl, -⟩ := h.first
  exact List.cons_ne_nil _ _

theorem IsLanguage.word {t : Text} (h : IsLanguage t) : Word t :=
  word_of_language h (List.Sublist.refl t) h.ne_nil

theorem strchr_none {c : UInt8} {t : Text} (hfree : c ∉ t) (h0 : 0 ∉ t) : strchr c t = none := by
  have hpasses := QuotedText.strstr_passes (QuotedText.passes_plain (t := t) [] [] hfree) h0
  rw [List.append_nil] at hpasses
  unfold strchr
  rw [hpasses]
  rfl

/-- A text ends before the byte, or goes on with it. -/
theorem takeWhile_cases (c : UInt8) (t : Text) :
    t.takeWhile (· ≠ c) = t ∨ ∃ rest, t = t.takeWhile (· ≠ c) ++ c :: rest := by
  have hsplit := List.takeWhile_append_dropWhile (p := fun b => decide (b ≠ c)) (l := t)
  cases htail : t.dropWhile (fun b => decide (b ≠ c)) with
  | nil =>
    rw [htail, List.append_nil] at hsplit
    exact .inl hsplit
  | cons b rest =>
    have hb : b = c := by
      have hhead := List.head?_dropWhile_not (p := fun b => decide (b ≠ c)) t
      rw [htail] at hhead
      simpa using hhead
    rw [htail, hb] at hsplit
    exact .inr ⟨rest, hsplit.symm⟩

theorem not_mem_takeWhile (c : UInt8) (t : Text) : c ∉ t.takeWhile (· ≠ c) := by
  intro hmem
  have hne := List.mem_takeWhile_imp hmem
  exact of_decide_eq_true hne rfl

theorem primaryOf_eq {t : Text} (h : IsLanguage t) : primaryOf t = t.takeWhile (· ≠ 45) := by
  have h0 : 0 ∉ t := h.not_mem (by decide)
  have h95 : 95 ∉ t := h.not_mem (by decide)
  have hfree := not_mem_takeWhile 45 t
  have hzero : (0 : UInt8) ∉ t.takeWhile (· ≠ 45) := fun hm => h0 ((List.takeWhile_sublist _).subset hm)
  unfold primaryOf
  rw [strchr_none h95 h0, Option.or_none]
  rcases takeWhile_cases 45 t with hall | ⟨rest, hsplit⟩
  · rw [hall] at hfree ⊢
    rw [strchr_none hfree h0]
  · have hfound := QuotedText.strchr_here rest hfree hzero
    rw [← hsplit] at hfound
    rw [hfound]
    exact (List.prefix_iff_eq_take.mp (List.takeWhile_prefix _)).symm

theorem primary_hyphen_free {t : Text} (h0 : 0 ∉ t) : 45 ∉ primaryOf t := by
  have hfree := not_mem_takeWhile 45 t
  unfold primaryOf
  rcases takeWhile_cases 45 t with hall | ⟨rest, hsplit⟩
  · rw [hall] at hfree
    split
    · exact fun hmem => hfree ((List.take_sublist _ t).subset hmem)
    · exact hfree
  · have hzero : (0 : UInt8) ∉ t.takeWhile (· ≠ 45) := fun hm => h0 ((List.takeWhile_sublist _).subset hm)
    have hfound := QuotedText.strchr_here rest hfree hzero
    rw [← hsplit] at hfound
    rw [hfound, Option.some_or]
    dsimp only
    rw [← List.prefix_iff_eq_take.mp (List.takeWhile_prefix _)]
    exact hfree

theorem primary_word {t : Text} (h : IsLanguage t) : Word (primaryOf t) := by
  rw [primaryOf_eq h]
  refine word_of_language h (List.takeWhile_sublist _) ?_
  obtain ⟨b, rest, rfl, hb⟩ := h.first
  have hne : b ≠ 45 := by
    rintro rfl
    exact absurd hb (by decide)
  rw [List.takeWhile_cons_of_pos (by simpa using hne)]
  exact List.cons_ne_nil _ _

/-- The tags of a language are itself and the ones with a region. -/
theorem primaryOf_iff {t p : Text} (h : IsLanguage t) (hp : 45 ∉ p) :
    primaryOf t = p ↔ p ++ [45] <+: t ∨ t = p := by
  rw [primaryOf_eq h]
  constructor
  · rintro rfl
    rcases takeWhile_cases 45 t with hall | ⟨rest, hsplit⟩
    · exact .inr hall.symm
    · left
      refine ⟨rest, ?_⟩
      rw [List.append_assoc]
      exact hsplit.symm
  · have hmarks : ∀ b ∈ p, decide (b ≠ 45) = true := by
      intro b hb
      apply decide_eq_true
      rintro rfl
      exact hp hb
    rintro (⟨rest, rfl⟩ | rfl)
    · rw [List.append_assoc, List.takeWhile_append_of_pos hmarks]
      exact List.append_nil p
    · exact List.takeWhile_eq_self_iff.mpr hmarks

/-! The lookup in the text of titles. -/

/-- The entry with this tag. -/
def exactEntry (es : List (Text × Text)) (tag : Text) : Option (Text × Text) := es.find? fun e => e.1 = tag

/-- The first entry with a tag of the language and a region. -/
def regionalEntry (es : List (Text × Text)) (primary : Text) : Option (Text × Text) :=
  es.find? fun e => (primary ++ [45]).isPrefixOf e.1

/-- The first entry of a language, one with a region before the one without. -/
def nearEntry (es : List (Text × Text)) (primary : Text) : Option (Text × Text) :=
  (regionalEntry es primary).or (exactEntry es primary)

/-- What is found for a language asked for. -/
def askedEntry (es : List (Text × Text)) (l : Text) : Option (Text × Text) :=
  (exactEntry es l).or (nearEntry es (primaryOf l))

/-- What is found for the default language. -/
def usualEntry (es : List (Text × Text)) (lang : Text) : Option (Text × Text) :=
  if lang = [] then none else (exactEntry es lang).or (regionalEntry es (primaryOf lang))

/-- The entry whose title is shown, where it is not the first value as it stands. -/
def consoleEntry (es : List (Text × Text)) (langs : List Text) (lang : Text) : Option (Text × Text) :=
  (langs.findSome? fun l => askedEntry es l).or ((usualEntry es lang).or (nearEntry es (ascii "en")))

theorem nearEntry_mem {es : List (Text × Text)} {primary : Text} {e : Text × Text}
    (h : nearEntry es primary = some e) : e ∈ es := by
  rcases Option.or_eq_some_iff.mp h with hregional | ⟨-, hexact⟩
  · exact List.mem_of_find?_eq_some hregional
  · exact List.mem_of_find?_eq_some hexact

theorem consoleEntry_mem {es : List (Text × Text)} {langs : List Text} {lang : Text} {e : Text × Text}
    (h : consoleEntry es langs lang = some e) : e ∈ es := by
  rcases Option.or_eq_some_iff.mp h with hasked | ⟨-, hmore⟩
  · obtain ⟨l, -, hl⟩ := List.exists_of_findSome?_eq_some hasked
    rcases Option.or_eq_some_iff.mp hl with hexact | ⟨-, hnear⟩
    · exact List.mem_of_find?_eq_some hexact
    · exact nearEntry_mem hnear
  · rcases Option.or_eq_some_iff.mp hmore with husual | ⟨-, hnear⟩
    · unfold usualEntry at husual
      split at husual
      · cases husual
      · rcases Option.or_eq_some_iff.mp husual with hexact | ⟨-, hregional⟩
        · exact List.mem_of_find?_eq_some hexact
        · exact List.mem_of_find?_eq_some hregional
    · exact nearEntry_mem hnear

/-- No title has the language and a hyphen at its start or behind a quote. -/
def Quiet (es : List (Text × Text)) (primary : Text) : Prop :=
  ∀ e ∈ es, ¬34 :: (primary ++ [45]) <:+: 34 :: e.2

theorem Quiet.guarded {es : List (Text × Text)} {primary : Text} (h : Quiet es primary) :
    Guarded (primary ++ [45]) es := by
  intro front e back hsplit hvalue
  refine absurd hvalue (h e ?_)
  rw [hsplit]
  exact List.mem_append_right front List.mem_cons_self

/-- The tag is a word, or the text has it nowhere as a key. -/
def Whole (json tag : Text) : Prop :=
  ¬(Word tag ∧ tag.length < 60) → strstr (snprintf 64 (quoted tag ++ [58, 34])) json = none

/-- The first place where the language begins a key is one, or the text has it nowhere so. -/
structure Near (json : Text) (es : List (Text × Text)) (primary : Text) (patterns : List Text) : Prop where
  word : primary.length < 16 → Word primary → Guarded (primary ++ [45]) es
  other : primary.length < 16 → ¬Word primary → ∀ pat ∈ patterns, strstr pat json = none

/-- What is sought for a language asked for is found at keys only. -/
structure Asked (json : Text) (es : List (Text × Text)) (l : Text) : Prop where
  short : 32 ≤ l.length → askedEntry es l = none
  whole : l ≠ [] → l.length < 32 → Whole json l
  near : l ≠ [] → l.length < 32 → exactEntry es l = none →
    Near json es (primaryOf l) [regionalPattern (primaryOf l), barePattern (primaryOf l)]

/-- And for the default language. -/
structure Usual (json : Text) (es : List (Text × Text)) (lang : Text) : Prop where
  whole : Whole json lang
  near : exactEntry es lang = none → Near json es (primaryOf lang) [regionalPattern (primaryOf lang)]

theorem extract_none {json tag : Text} (h : strstr (snprintf 64 (quoted tag ++ [58, 34])) json = none) (m : Nat) :
    extractValForKey json tag m = none := by
  unfold extractValForKey
  dsimp only
  rw [h]
  rfl

section Specs

variable {es : List (Text × Text)} (hes : IsTagged es)

include hes

theorem keyed : ∀ e ∈ es, Keyed e :=
  fun e he => ⟨(hes.tag e he).1.word, (hes.title e he).2⟩

theorem exactEntry_self {e : Text × Text} (he : e ∈ es) : exactEntry es e.1 = some e := by
  unfold exactEntry
  have hsome : (es.find? fun g => g.1 = e.1).isSome = true :=
    List.find?_isSome.mpr ⟨e, he, decide_eq_true rfl⟩
  obtain ⟨g, hg⟩ := Option.isSome_iff_exists.mp hsome
  have hkey : g.1 = e.1 := by simpa using List.find?_some hg
  rw [hg, List.inj_on_of_nodup_map hes.nodup (List.mem_of_find?_eq_some hg) he hkey]

theorem exactEntry_some {tag : Text} {e : Text × Text} (h : exactEntry es tag = some e) :
    e ∈ es ∧ e.1 = tag ∧ Word tag ∧ tag.length < 16 := by
  have he := List.mem_of_find?_eq_some h
  have hkey : e.1 = tag := by simpa using List.find?_some h
  obtain ⟨htag, hlen⟩ := hes.tag e he
  rw [hkey] at htag hlen
  exact ⟨he, hkey, htag.word, hlen⟩

theorem regionalEntry_some {primary : Text} {e : Text × Text} (h : regionalEntry es primary = some e) :
    e ∈ es ∧ primary ++ [45] <+: e.1 ∧ Word primary ∧ primary.length < 16 := by
  have he := List.mem_of_find?_eq_some h
  have hpre : primary ++ [45] <+: e.1 := List.isPrefixOf_iff_prefix.mp (by simpa using List.find?_some h)
  obtain ⟨htag, hlen⟩ := hes.tag e he
  have hsub := (List.prefix_append primary [45]).trans hpre
  refine ⟨he, hpre, word_of_language htag hsub.sublist ?_, ?_⟩
  · rintro rfl
    obtain ⟨b, rest, htext, hb⟩ := htag.first
    rw [htext] at hpre
    obtain rfl := (List.cons_prefix_cons.mp hpre).1
    exact absurd hb (by decide)
  · exact Nat.lt_of_le_of_lt hsub.length_le hlen

theorem nearEntry_some {primary : Text} {e : Text × Text} (h : nearEntry es primary = some e) :
    Word primary ∧ primary.length < 16 := by
  cases hregional : regionalEntry es primary with
  | some g => exact (regionalEntry_some hes hregional).2.2
  | none =>
    rw [nearEntry, hregional, Option.none_or] at h
    exact (exactEntry_some hes h).2.2

/-- What is no word, or too long a one, has no entry. -/
theorem nearEntry_none {primary : Text} (h : ¬(Word primary ∧ primary.length < 16)) :
    nearEntry es primary = none := by
  cases hnear : nearEntry es primary with
  | none => rfl
  | some e => exact absurd (nearEntry_some hes hnear) h

theorem nearEntry_primary {p : Text} (hp : 45 ∉ p) {e : Text × Text} (h : nearEntry es p = some e) :
    e ∈ es ∧ primaryOf e.1 = p := by
  have he := nearEntry_mem h
  refine ⟨he, (primaryOf_iff (hes.tag e he).1 hp).mpr ?_⟩
  rcases Option.or_eq_some_iff.mp h with hregional | ⟨-, hexact⟩
  · exact .inl (regionalEntry_some hes hregional).2.1
  · exact .inr (exactEntry_some hes hexact).2.1

theorem nearEntry_none_iff {p : Text} (hp : 45 ∉ p) : nearEntry es p = none ↔ ∀ e ∈ es, primaryOf e.1 ≠ p := by
  constructor
  · intro h e he hprimary
    obtain ⟨hregional, hexact⟩ := Option.or_eq_none_iff.mp h
    rcases (primaryOf_iff (hes.tag e he).1 hp).mp hprimary with hpre | htag
    · exact List.find?_eq_none.mp hregional e he (List.isPrefixOf_iff_prefix.mpr hpre)
    · exact List.find?_eq_none.mp hexact e he (decide_eq_true htag)
  · intro h
    cases hnear : nearEntry es p with
    | none => rfl
    | some e =>
      obtain ⟨he, hprimary⟩ := nearEntry_primary hes hp hnear
      exact absurd hprimary (h e he)

theorem askedEntry_nil : askedEntry es [] = none := by
  have hword : ¬Word [] := fun h => h.ne_nil rfl
  have hnear : nearEntry es (primaryOf []) = none := nearEntry_none hes fun h => hword h.1
  cases hexact : exactEntry es [] with
  | some e => exact absurd (exactEntry_some hes hexact).2.2.1 hword
  | none => rw [askedEntry, hexact, hnear]; rfl

section Text

variable {json : Text} (hjson : Holds json es)

include hjson

theorem extract_eq {tag : Text} (htag : Word tag) (hlen : tag.length < 60) (m : Nat) :
    extractValForKey json tag m = (exactEntry es tag).map fun e => snprintf m e.2 := by
  have hpattern : snprintf 64 (quoted tag ++ [58, 34]) = 34 :: (tag ++ 34 :: 58 :: [34]) := by
    have hquoted : quoted tag ++ [58, 34] = 34 :: (tag ++ 34 :: 58 :: [34]) := by
      simp [quoted]
    rw [hquoted]
    apply List.take_of_length_le
    simp only [List.length_cons, List.length_append, List.length_nil]
    omega
  have hfound := strstr_key (keyed hes) hjson htag (List.prefix_refl [34])
  unfold extractValForKey exactEntry
  rw [hpattern]
  cases hfind : es.find? fun e => e.1 = tag with
  | none =>
    rw [hfind] at hfound
    dsimp only at hfound ⊢
    rw [hfound]
    rfl
  | some e =>
    rw [hfind] at hfound
    obtain ⟨n, rest, hn, hdrop⟩ := hfound
    have hkey : e.1 = tag := by simpa using List.find?_some hfind
    have hvalue : json.drop (n + (34 :: (tag ++ 34 :: 58 :: [34]) : Text).length) =
        QuotedText.escape e.2 ++ 34 :: rest := by
      have hmember : member e ++ rest =
          (34 :: (tag ++ 34 :: 58 :: [34])) ++ (QuotedText.escape e.2 ++ 34 :: rest) := by
        rw [member, hkey, htag.quote_eq, QuotedText.quote]
        simp
      rw [← List.drop_drop, hdrop, hmember, List.drop_left]
    dsimp only
    rw [hn, Option.map_some, Option.map_some, hvalue, ManifestScan.fieldString_escape]
    rfl

variable {m : Nat} (hm : 2 ≤ m)

omit hjson in
include hm in
theorem nonEmpty_exact (tag : Text) :
    (nonEmpty ((exactEntry es tag).map fun e => snprintf m e.2)) =
      (exactEntry es tag).map fun e => snprintf m e.2 := by
  cases hfind : exactEntry es tag with
  | none => rfl
  | some e =>
    have hne := (hes.title e (List.mem_of_find?_eq_some hfind)).1
    have hcut : snprintf m e.2 ≠ [] := by
      intro hnil
      rcases List.take_eq_nil_iff.mp hnil with hzero | hnil
      · omega
      · exact hne hnil
    exact Option.filter_some_pos (decide_eq_true hcut)

include hm

theorem whole_eq {tag : Text} (h : Whole json tag) :
    nonEmpty (extractValForKey json tag m) = (exactEntry es tag).map fun e => snprintf m e.2 := by
  by_cases hword : Word tag ∧ tag.length < 60
  · rw [extract_eq hes hjson hword.1 hword.2, nonEmpty_exact hes hm]
  · rw [extract_none (h hword)]
    cases hexact : exactEntry es tag with
    | none => rfl
    | some e =>
      obtain ⟨-, -, htag, hlen⟩ := exactEntry_some hes hexact
      exact absurd ⟨htag, by omega⟩ hword

/-- Where a key is found its value is read. -/
theorem valueOfFound_eq {n : Nat} {e : Text × Text} {rest : Text} (he : e ∈ es)
    (hdrop : json.drop n = member e ++ rest) : valueOfFound json m n = some (snprintf m e.2) := by
  obtain ⟨htag, hlen⟩ := hes.tag e he
  have hrest : json.drop (n + 1) = e.1 ++ 34 :: (58 :: QuotedText.quote e.2 ++ rest) := by
    rw [← List.drop_drop, hdrop, member, htag.word.quote_eq]
    simp
  have hquote : (34 : UInt8) ∉ e.1 := fun h34 => (htag.word.bytes 34 h34).1 rfl
  have hzero : (0 : UInt8) ∉ e.1 := fun h0 => (htag.word.bytes 0 h0).2.2.2.2.2 rfl
  unfold valueOfFound
  dsimp only
  rw [hrest, QuotedText.strchr_here _ hquote hzero, Option.bind_some, if_pos (by omega), List.take_left,
    extract_eq hes hjson htag.word (by omega), nonEmpty_exact hes hm, exactEntry_self hes he]
  rfl

end Text

end Specs

/-- What is found is where the entry stands, and there is none without an entry. -/
def Leads (json : Text) (m : Nat) (found : Option Nat) : Option (Text × Text) → Prop
  | none => found = none
  | some e => ∃ n, found = some n ∧ valueOfFound json m n = some (snprintf m e.2)

theorem Leads.or {json : Text} {m : Nat} {f g : Option Nat} {e e' : Option (Text × Text)}
    (h : Leads json m f e) (h' : Leads json m g e') : Leads json m (f.or g) (e.or e') := by
  cases e with
  | none =>
    have hf : f = none := h
    rw [hf]
    exact h'
  | some e =>
    obtain ⟨n, rfl, hn⟩ := h
    exact ⟨n, rfl, hn⟩

theorem Leads.value {json : Text} {m : Nat} {f : Option Nat} {e : Option (Text × Text)} (h : Leads json m f e) :
    f.bind (valueOfFound json m) = e.map fun e => snprintf m e.2 := by
  cases e with
  | none =>
    have hf : f = none := h
    rw [hf]
    rfl
  | some e =>
    obtain ⟨n, rfl, hn⟩ := h
    exact hn

section Rules

variable {es : List (Text × Text)} (hes : IsTagged es) {json : Text} (hjson : Holds json es) {m : Nat}
  (hm : 2 ≤ m)

include hes hjson hm

theorem leads_regional {primary : Text} (hp : Word primary) (hlen : primary.length < 16)
    (hguarded : Guarded (primary ++ [45]) es) :
    Leads json m (strstr (regionalPattern primary) json) (regionalEntry es primary) := by
  have hword : Word (primary ++ [45]) := by
    refine ⟨List.append_ne_nil_of_left_ne_nil hp.ne_nil _, ?_⟩
    exact List.forall_mem_append.mpr ⟨hp.bytes, by decide +kernel⟩
  have hpattern : regionalPattern primary = 34 :: (primary ++ [45]) := by
    apply List.take_of_length_le
    simp only [List.length_cons, List.length_append, List.length_nil]
    omega
  have hfound := strstr_start (keyed hes) hjson hword hguarded
  rw [hpattern]
  unfold regionalEntry
  cases hfind : es.find? fun e => (primary ++ [45]).isPrefixOf e.1 with
  | none =>
    rw [hfind] at hfound
    exact hfound
  | some e =>
    rw [hfind] at hfound
    obtain ⟨n, rest, hn, hdrop⟩ := hfound
    exact ⟨n, hn, valueOfFound_eq hes hjson hm (List.mem_of_find?_eq_some hfind) hdrop⟩

theorem leads_bare {primary : Text} (hp : Word primary) (hlen : primary.length < 16) :
    Leads json m (strstr (barePattern primary) json) (exactEntry es primary) := by
  have hpattern : barePattern primary = 34 :: (primary ++ 34 :: 58 :: []) := by
    have hquoted : quoted primary ++ [58] = 34 :: (primary ++ 34 :: 58 :: []) := by
      simp [quoted]
    unfold barePattern
    rw [hquoted]
    apply List.take_of_length_le
    simp only [List.length_cons, List.length_append, List.length_nil]
    omega
  have hfound := strstr_key (keyed hes) hjson hp (List.nil_prefix (l := [34]))
  rw [hpattern]
  unfold exactEntry
  cases hfind : es.find? fun e => e.1 = primary with
  | none =>
    rw [hfind] at hfound
    exact hfound
  | some e =>
    rw [hfind] at hfound
    obtain ⟨n, rest, hn, hdrop⟩ := hfound
    exact ⟨n, hn, valueOfFound_eq hes hjson hm (List.mem_of_find?_eq_some hfind) hdrop⟩

theorem requestedTitle_eq {l : Text} (h : Asked json es l) :
    requestedTitle json m l = (askedEntry es l).map fun e => snprintf m e.2 := by
  unfold requestedTitle
  by_cases hskip : l = [] ∨ 32 ≤ l.length
  · have hnone : askedEntry es l = none := by
      rcases hskip with rfl | hlong
      · exact askedEntry_nil hes
      · exact h.short hlong
    rw [if_pos hskip, hnone]
    rfl
  · rw [if_neg hskip]
    rw [not_or, Nat.not_le] at hskip
    rw [whole_eq hes hjson hm (h.whole hskip.1 hskip.2), askedEntry]
    cases hexact : exactEntry es l with
    | some e => rfl
    | none =>
      have hnear := h.near hskip.1 hskip.2 hexact
      rw [Option.map_none, Option.none_or, Option.none_or]
      by_cases hshort : (primaryOf l).length < 16
      · rw [if_pos hshort]
        by_cases hword : Word (primaryOf l)
        · have hregional := leads_regional hes hjson hm hword hshort (hnear.word hshort hword)
          exact (hregional.or (leads_bare hes hjson hm hword hshort)).value
        · have hnone := hnear.other hshort hword
          rw [hnone _ List.mem_cons_self, hnone _ (List.mem_cons_of_mem _ List.mem_cons_self),
            nearEntry_none hes fun hw => hword hw.1]
          rfl
      · rw [if_neg hshort, nearEntry_none hes fun hw => hshort hw.2]
        rfl

theorem defaultTitle_eq {lang : Text} (h : lang ≠ [] → Usual json es lang) :
    defaultTitle json m lang = (usualEntry es lang).map fun e => snprintf m e.2 := by
  unfold defaultTitle usualEntry
  by_cases hempty : lang = []
  · rw [if_pos hempty, if_pos hempty]
    rfl
  · rw [if_neg hempty, if_neg hempty, whole_eq hes hjson hm (h hempty).whole]
    cases hexact : exactEntry es lang with
    | some e => rfl
    | none =>
      have hnear := (h hempty).near hexact
      have hnone (hw : ¬(Word (primaryOf lang) ∧ (primaryOf lang).length < 16)) :
          regionalEntry es (primaryOf lang) = none := (Option.or_eq_none_iff.mp (nearEntry_none hes hw)).1
      rw [Option.map_none, Option.none_or, Option.none_or]
      by_cases hshort : (primaryOf lang).length < 16
      · rw [if_pos hshort]
        by_cases hword : Word (primaryOf lang)
        · exact (leads_regional hes hjson hm hword hshort (hnear.word hshort hword)).value
        · rw [hnear.other hshort hword _ List.mem_cons_self, hnone fun hw => hword hw.1]
          rfl
      · rw [if_neg hshort, hnone fun hw => hshort hw.2]
        rfl

theorem englishTitle_eq (hguarded : Guarded (ascii "en-") es) :
    englishTitle json m = (nearEntry es (ascii "en")).map fun e => snprintf m e.2 := by
  have hword : Word (ascii "en") := ⟨by decide, by decide +kernel⟩
  have hregional : ascii "\"en-" = regionalPattern (ascii "en") := by decide
  have hbare : ascii "\"en\":" = barePattern (ascii "en") := by decide
  unfold englishTitle
  rw [hregional, hbare]
  have hleads := leads_regional hes hjson hm hword (by decide) hguarded
  exact (hleads.or (leads_bare hes hjson hm hword (by decide))).value

end Rules

/-- A title as it stands in the text, up to the first quote in it. -/
def rawTitle (title : Text) : Text := (QuotedText.escape title).takeWhile (· ≠ 34)

theorem rawTitle_plain {title : Text} (h : QuotedText.Plain title) : rawTitle title = title := by
  unfold rawTitle
  rw [QuotedText.escape_plain h]
  exact List.takeWhile_eq_self_iff.mpr fun b hb => decide_eq_true (h b hb).1

/-- Up to the first quote there is a part of a text and the quote. -/
theorem strchr_takeWhile {c : UInt8} {t rest : Text} (h0 : 0 ∉ t) :
    strchr c (t ++ c :: rest) = some (t.takeWhile (· ≠ c)).length := by
  have hfree := not_mem_takeWhile c t
  have hzero : 0 ∉ t.takeWhile (· ≠ c) := fun hm => h0 ((List.takeWhile_sublist _).subset hm)
  rcases takeWhile_cases c t with hall | ⟨tail, hsplit⟩
  · rw [hall] at hfree ⊢
    exact QuotedText.strchr_here rest hfree h0
  · have hmore : t ++ c :: rest = t.takeWhile (· ≠ c) ++ c :: (tail ++ c :: rest) := by
      conv_lhs => rw [hsplit]
      rw [List.append_assoc]
      rfl
    rw [hmore]
    exact QuotedText.strchr_here _ hfree hzero

theorem firstTitle_eq {e : Text × Text} {es : List (Text × Text)} (hes : IsTagged (e :: es)) {json : Text}
    (hjson : Holds json (e :: es)) (m : Nat) :
    firstTitle json m = if (rawTitle e.2).length + 1 < m then some (rawTitle e.2) else none := by
  have hkeyed := keyed hes e List.mem_cons_self
  obtain ⟨behind, hobject⟩ := hjson.cons
  have htext : json = (123 :: 34 :: (e.1 ++ [34])) ++ 58 :: 34 :: (QuotedText.escape e.2 ++ 34 :: behind) := by
    rw [hobject, member, hkeyed.key.quote_eq, QuotedText.quote]
    simp
  have hmarks : ∀ b ∈ (123 :: 34 :: (e.1 ++ [34]) : Text), b ≠ 58 ∧ b ≠ 0 := by
    rw [List.forall_mem_cons, List.forall_mem_cons, List.forall_mem_append]
    refine ⟨by decide, by decide, fun b hb => ?_, by decide +kernel⟩
    exact ⟨(hkeyed.key.bytes b hb).2.2.2.1, (hkeyed.key.bytes b hb).2.2.2.2.2⟩
  have hcolon : strchr 58 json = some (123 :: 34 :: (e.1 ++ [34]) : Text).length := by
    rw [htext]
    exact QuotedText.strchr_here _ (fun h => (hmarks 58 h).1 rfl) fun h => (hmarks 0 h).2 rfl
  have hvalue : 0 ∉ QuotedText.escape e.2 := by
    rw [QuotedText.mem_escape (by decide)]
    exact hkeyed.value
  unfold firstTitle
  rw [hcolon, Option.bind_some]
  generalize (123 :: 34 :: (e.1 ++ [34]) : Text) = front at htext
  have hquote : json[front.length + 1]? = some 34 := by
    rw [htext, List.getElem?_append_right (Nat.le_add_right _ 1), Nat.add_sub_cancel_left]
    rfl
  have hdrop : json.drop (front.length + 2) = QuotedText.escape e.2 ++ 34 :: behind := by
    rw [htext, ← List.drop_drop, List.drop_left]
    rfl
  have htake : (QuotedText.escape e.2 ++ 34 :: behind).take (rawTitle e.2).length = rawTitle e.2 := by
    have hpre : rawTitle e.2 <+: QuotedText.escape e.2 ++ 34 :: behind :=
      (List.takeWhile_prefix _).trans (List.prefix_append _ _)
    exact (List.prefix_iff_eq_take.mp hpre).symm
  rw [if_pos hquote, hdrop, strchr_takeWhile hvalue, Option.bind_some]
  show (if (rawTitle e.2).length + 1 < m then some ((QuotedText.escape e.2 ++ 34 :: behind).take
    (rawTitle e.2).length) else none) = _
  rw [htake]

/-- Where a search goes on, what is sought there is found at keys only. -/
structure Clear (json : Text) (es : List (Text × Text)) (langs : List Text) (lang : Text) : Prop where
  asked : ∀ front l back, langs = front ++ l :: back → (∀ k ∈ front, askedEntry es k = none) → Asked json es l
  usual : (∀ l ∈ langs, askedEntry es l = none) → lang ≠ [] → Usual json es lang
  english : (∀ l ∈ langs, askedEntry es l = none) → usualEntry es lang = none → Guarded (ascii "en-") es

theorem findSome_map {α β γ : Type} {f : α → Option γ} {g : α → Option β} {k : β → γ} {xs : List α}
    (h : ∀ front x back, xs = front ++ x :: back → (∀ y ∈ front, g y = none) → f x = (g x).map k) :
    xs.findSome? f = (xs.findSome? g).map k := by
  induction xs with
  | nil => rfl
  | cons x xs ih =>
    rw [List.findSome?_cons, List.findSome?_cons, h [] x xs rfl (List.forall_mem_nil _)]
    cases hx : g x with
    | some b => rfl
    | none =>
      refine ih fun front y back hsplit hfront => ?_
      refine h (x :: front) y back (congrArg (x :: ·) hsplit) ?_
      exact List.forall_mem_cons.mpr ⟨hx, hfront⟩

theorem resolve_eq {es : List (Text × Text)} (hes : IsTagged es) {json : Text} (hjson : Holds json es) {m : Nat}
    (hm : 2 ≤ m) {lang accept : Text} (h : Clear json es (languagesOf accept) lang) :
    resolveLocalizedTitle json lang accept m =
      ((consoleEntry es (languagesOf accept) lang).map fun e => snprintf m e.2).or (firstTitle json m) := by
  have hopen : ¬(json.head? ≠ some 123 ∨ m = 0) := not_or.mpr ⟨not_not_intro hjson.head, by omega⟩
  have hasked := findSome_map fun front l back hsplit hfront =>
    requestedTitle_eq hes hjson hm (h.asked front l back hsplit hfront)
  unfold resolveLocalizedTitle consoleEntry
  rw [if_neg hopen, hasked, Option.map_or, Option.or_assoc]
  cases hfound : (languagesOf accept).findSome? fun l => askedEntry es l with
  | some e => rfl
  | none =>
    have hnone := List.findSome?_eq_none_iff.mp hfound
    rw [defaultTitle_eq hes hjson hm (h.usual hnone), Option.map_none, Option.none_or, Option.none_or,
      Option.map_or, Option.or_assoc]
    cases husual : usualEntry es lang with
    | some e => rfl
    | none => rw [englishTitle_eq hes hjson hm (h.english hnone husual)]

/-! The text the builders write. -/

theorem more_eq {es : List (Text × Text)} (h : ∀ e ∈ es, Keyed e) :
    LocalizedTitles.itemsText false es ++ [125] = more es := by
  induction es with
  | nil => rfl
  | cons e es ih =>
    have hkey := (h e List.mem_cons_self).key.quote_eq
    have hrest := ih fun g hg => h g (List.mem_cons_of_mem e hg)
    rw [more_cons, ← hrest, member, hkey]
    simp [LocalizedTitles.itemsText, LocalizedTitles.pairText, quoted, QuotedText.quote]
    rfl

theorem object_eq {es : List (Text × Text)} (h : ∀ e ∈ es, Keyed e) :
    123 :: LocalizedTitles.itemsText true es ++ [125] = object es := by
  cases es with
  | nil => rfl
  | cons e es =>
    have hkey := (h e List.mem_cons_self).key.quote_eq
    have hrest := more_eq fun g hg => h g (List.mem_cons_of_mem e hg)
    rw [object, ← hrest, member, hkey]
    simp [LocalizedTitles.itemsText, LocalizedTitles.pairText, quoted, QuotedText.quote]
    rfl

theorem IsTagged.sublist {es fs : List (Text × Text)} (h : IsTagged es) (hsub : fs.Sublist es) : IsTagged fs where
  tag := fun e he => h.tag e (hsub.subset he)
  title := fun e he => h.title e (hsub.subset he)
  nodup := h.nodup.sublist (hsub.map Prod.fst)

theorem IsTitles.sublist {es fs : List (Text × Text)} (h : IsTitles es) (hsub : fs.Sublist es) : IsTitles fs where
  toIsTagged := h.toIsTagged.sublist hsub
  short := fun e he => h.short e (hsub.subset he)

theorem fitting_sublist (max used : Nat) (es : List (Text × Text)) : (fitting max used es).Sublist es := by
  induction es generalizing used with
  | nil => exact List.Sublist.refl []
  | cons e es ih =>
    rw [fitting]
    split
    · exact (ih _).cons_cons e
    · exact List.nil_sublist _

/-- The text holds the entries that fit. -/
theorem titlesJson_holds {es : List (Text × Text)} (hes : IsTagged es) :
    Holds (titlesJson 2048 es) (fitting 2048 0 es) := by
  have hobject := object_eq (keyed (hes.sublist (fitting_sublist 2048 0 es)))
  rw [LocalizedTitles.titlesJson_eq (by decide)]
  split
  · exact .inl hobject
  · right
    rw [List.append_nil]
    exact hobject

/-- And its bracket, where there is room for it. -/
theorem titlesJson_object {es : List (Text × Text)} (hes : IsTagged es)
    (hroom : ((fitting 2048 0 es).map LocalizedTitles.pairLength).sum + 1 ≠ 2048) :
    titlesJson 2048 es = object (fitting 2048 0 es) := by
  rw [LocalizedTitles.titlesJson_eq (by decide), if_pos hroom]
  exact object_eq (keyed (hes.sublist (fitting_sublist 2048 0 es)))

end PkgManager.TitleLookup
