import PkgManager.PackageListing

namespace PkgManager.TitleAgreement

open CText KeySearch TitleLookup
open PkgMetadata (Text titlesJson)
open LocalizedTitles (fitting Embeds)
open JsonText (Json IsJson Body Writes)
open PackageListing (shown)

/-! `getLocalizedTitle` of the page, on tags of ASCII. -/

def lower (t : Text) : Text := t.map toLower

def trim (t : Text) : Text := (t.dropWhile isSpace).rdropWhile isSpace

/-- `t.split('-')[0].split('_')[0]`. -/
def primaryPart (t : Text) : Text := (t.takeWhile (· ≠ 45)).takeWhile (· ≠ 95)

/-- The languages of the browser, or its only one. -/
def navLangs (languages : List Text) (language : Text) : List Text :=
  if languages ≠ [] then languages else [if language ≠ [] then language else ascii "en-US"]

/-- The first value whose key passes the test, where it is not empty. -/
def valueWhere (loc : List (Text × Text)) (test : Text → Bool) : Option Text :=
  (loc.find? fun e => test e.1 ∧ e.2 ≠ []).map Prod.snd

def exactMatch (loc : List (Text × Text)) (tag : Text) : Option Text :=
  valueWhere loc fun k => lower k = tag

def primaryMatch (loc : List (Text × Text)) (primary : Text) : Option Text :=
  valueWhere loc fun k => lower (primaryPart k) = primary

/-- `getLocalizedTitle`, of a record whose titles are an object. -/
def getLocalizedTitle (loc : List (Text × Text)) (titleName defaultLanguage : Text) (langs : List Text) :
    Text :=
  if loc = [] then titleName
  else
    let asked := langs.filter (· ≠ [])
    let found :=
      (asked.findSome? fun l => exactMatch loc (lower (trim l))).or <|
        (asked.findSome? fun l => primaryMatch loc (lower (primaryPart l))).or <|
          (if defaultLanguage = [] then none
            else (exactMatch loc (lower (trim defaultLanguage))).or
              (primaryMatch loc (primaryPart (lower (trim defaultLanguage))))).or <|
            valueWhere loc fun k => (ascii "en").isPrefixOf (lower k)
    match found with
    | some title => title
    | none =>
      if titleName ≠ [] ∧ titleName ≠ ascii "Unknown Package" ∧ titleName ≠ ascii "Package" then titleName
      else
        match (loc.head?.map Prod.snd).filter (· ≠ []) with
        | some first => first
        | none => titleName

/-! Both on the same record. -/

/-- The text of the titles of a package. -/
def storedTitles (es : List (Text × Text)) : Text := if es = [] then [] else titlesJson 2048 es

/-- The titles in the record of the package. -/
def recordTitles (es : List (Text × Text)) : Text :=
  if (storedTitles es).head? = some 123 then storedTitles es else ascii "\x7b\x7d"

/-- What the console shows. -/
def consoleTitle (es : List (Text × Text)) (titleName lang accept : Text) : Text :=
  displayTitle (storedTitles es) titleName lang accept

/-- What the page shows of the record it gets, whose title is the one of the console. -/
def pageTitle (es : List (Text × Text)) (titleName lang accept : Text) (langs : List Text) : Text :=
  getLocalizedTitle (fitting 2048 0 es) (shown (consoleTitle es titleName lang accept)) (shown lang) langs

/-! The record. -/

theorem tag_byte {b : UInt8} (h : isTagByte b = true) : 32 ≤ b ∧ isSpace b = false ∧ b ≠ 95 := by
  have hnat : 45 ≤ b.toNat ∧ b.toNat ≠ 95 := by
    have h45 : (45 : UInt8).toNat = 45 := rfl
    unfold isTagByte isDigit at h
    simp only [Bool.or_eq_true, Bool.and_eq_true, decide_eq_true_eq, UInt8.le_iff_toNat_le] at h
    rcases h with ((h | h) | h) | rfl
    · have h48 : (48 : UInt8).toNat = 48 := rfl
      have h57 : (57 : UInt8).toNat = 57 := rfl
      omega
    · have h65 : (65 : UInt8).toNat = 65 := rfl
      have h90 : (90 : UInt8).toNat = 90 := rfl
      omega
    · have h97 : (97 : UInt8).toNat = 97 := rfl
      omega
    · decide
  have h32 : (32 : UInt8).toNat = 32 := rfl
  refine ⟨UInt8.le_iff_toNat_le.mpr (by omega), decide_eq_false ?_, ?_⟩
  · rintro (rfl | ⟨-, hle⟩)
    · exact absurd hnat.1 (by decide)
    · have hle := UInt8.le_iff_toNat_le.mp hle
      have h13 : (13 : UInt8).toNat = 13 := rfl
      omega
  · rintro rfl
    exact hnat.2 rfl

theorem body_tag {t : Text} (h : IsLanguage t) : Body t t := by
  have hplain := h.word.plain
  have hbytes := h.bytes
  clear h
  induction t with
  | nil => exact .nil
  | cons b t ih =>
    have hb := hplain b List.mem_cons_self
    refine .plain b (tag_byte (hbytes b List.mem_cons_self)).1 hb.1 hb.2 ?_
    exact ih (fun c hc => hplain c (List.mem_cons_of_mem b hc)) fun c hc => hbytes c (List.mem_cons_of_mem b hc)

/-- The titles of the record are an object of these entries. -/
theorem object_isJson {es : List (Text × Text)} (hes : IsTitles es)
    (hprintable : ∀ e ∈ es, ∀ b ∈ e.2, 32 ≤ b) :
    IsJson (.object (es.map fun e => (e.1, .string e.2))) (object es) := by
  have hmember : ∀ e ∈ es, ∃ k v, member e = JsonText.quoted k ++ 58 :: v ∧ Body e.1 k ∧
      Writes (.value (.string e.2)) v := by
    intro e he
    have hkey := (hes.tag e he).1
    refine ⟨e.1, QuotedText.quote e.2, ?_, body_tag hkey, ?_⟩
    · rw [member, hkey.word.quote_eq]
      rfl
    · exact .string (LocalizedTitles.body_escapeTitle (hprintable e he))
  have hmembers : ∀ (e : Text × Text) (fs : List (Text × Text)), (∀ g ∈ e :: fs, g ∈ es) →
      Writes (.members ((e :: fs).map fun e => (e.1, .string e.2))) (member e ++ fs.flatMap fun e => 44 :: member e) := by
    intro e fs
    induction fs generalizing e with
    | nil =>
      intro hall
      obtain ⟨k, v, htext, hk, hv⟩ := hmember e (hall e List.mem_cons_self)
      have hone := Writes.member JsonText.ws_nil hk JsonText.ws_nil JsonText.ws_nil hv JsonText.ws_nil
      simpa [htext] using hone
    | cons g fs ih =>
      intro hall
      obtain ⟨k, v, htext, hk, hv⟩ := hmember e (hall e List.mem_cons_self)
      have hrest := ih g fun x hx => hall x (List.mem_cons_of_mem e hx)
      have hmore := Writes.members JsonText.ws_nil hk JsonText.ws_nil JsonText.ws_nil hv JsonText.ws_nil hrest
      simpa [htext] using hmore
  cases es with
  | nil => exact JsonText.isJson_of_writes (.emptyObject JsonText.ws_nil)
  | cons e fs =>
    have hobject := Writes.object (hmembers e fs fun g hg => hg)
    have htext : object (e :: fs) = 123 :: ((member e ++ fs.flatMap fun e => 44 :: member e) ++ [125]) := by
      rw [object, more, List.append_assoc]
    rw [htext]
    exact JsonText.isJson_of_writes hobject

/-! What the page looks for. -/

/-- The first entry of a language, with a region or without. -/
def primaryEntry (es : List (Text × Text)) (primary : Text) : Option (Text × Text) :=
  es.find? fun e => primaryOf e.1 = primary

/-- The entry whose title the page shows, where it is not the title of the record. -/
def pageEntry (es : List (Text × Text)) (langs : List Text) (lang : Text) : Option (Text × Text) :=
  (langs.findSome? fun l => exactEntry es l).or <|
    (langs.findSome? fun l => primaryEntry es (primaryOf l)).or <|
      (if lang = [] then none else (exactEntry es lang).or (primaryEntry es (primaryOf lang))).or <|
        primaryEntry es (ascii "en")

/-- The tags differ from what is looked for in more than the case of their letters. -/
structure OneCase (es : List (Text × Text)) (langs : List Text) : Prop where
  tag : ∀ l ∈ langs, ∀ e ∈ es, lower e.1 = lower l → e.1 = l
  primary : ∀ l ∈ langs, ∀ e ∈ es, lower (primaryOf e.1) = lower (primaryOf l) → primaryOf e.1 = primaryOf l
  english : ∀ e ∈ es, ascii "en" <+: lower e.1 → primaryOf e.1 = ascii "en"

theorem trim_language {t : Text} (h : IsLanguage t) : trim t = t := by
  have hspace : ∀ b ∈ t, ¬isSpace b = true := by
    intro b hb
    rw [(tag_byte (h.bytes b hb)).2.1]
    exact Bool.false_ne_true
  have hfront : t.dropWhile isSpace = t := by
    obtain ⟨b, rest, rfl, -⟩ := h.first
    exact List.dropWhile_cons_of_neg (hspace b List.mem_cons_self)
  unfold trim
  rw [hfront]
  exact List.rdropWhile_eq_self_iff.mpr fun hne => hspace _ (List.getLast_mem hne)

theorem primaryPart_language {t : Text} (h : IsLanguage t) : primaryPart t = primaryOf t := by
  rw [primaryOf_eq h]
  apply List.takeWhile_eq_self_iff.mpr
  intro b hb
  have hmem := (List.takeWhile_sublist _).subset hb
  exact decide_eq_true (tag_byte (h.bytes b hmem)).2.2

theorem takeWhile_lower {c : UInt8} (hupper : ¬(65 ≤ c ∧ c ≤ 90)) (hlower : ¬(97 ≤ c ∧ c ≤ 122)) (t : Text) :
    (lower t).takeWhile (· ≠ c) = lower (t.takeWhile (· ≠ c)) := by
  have hsame : toLower c = c := if_neg hupper
  have hmark : ((fun b => decide (b ≠ c)) ∘ toLower) = fun b => decide (b ≠ c) := by
    funext b
    refine decide_eq_decide.mpr (not_congr ⟨eq_of_toLower hlower, ?_⟩)
    rintro rfl
    exact hsame
  unfold lower
  rw [List.takeWhile_map, hmark]

theorem primaryPart_lower (t : Text) : primaryPart (lower t) = lower (primaryPart t) := by
  unfold primaryPart
  rw [takeWhile_lower (by decide) (by decide), takeWhile_lower (by decide) (by decide)]

section Page

variable {es : List (Text × Text)} (hes : IsTitles es)

include hes

theorem valueWhere_eq {test : Text → Bool} {p : Text × Text → Bool} (h : ∀ e ∈ es, test e.1 = p e) :
    valueWhere es test = (es.find? p).map Prod.snd := by
  unfold valueWhere
  congr 1
  apply List.find?_congr
  intro e he
  have hne := (hes.title e he).1
  rw [← h e he]
  simp [hne]

theorem exactMatch_eq {l : Text} (hl : IsLanguage l) (hcase : ∀ e ∈ es, lower e.1 = lower l → e.1 = l) :
    exactMatch es (lower (trim l)) = (exactEntry es l).map Prod.snd := by
  rw [trim_language hl]
  refine valueWhere_eq hes fun e he => ?_
  refine decide_eq_decide.mpr ⟨hcase e he, fun h => ?_⟩
  rw [h]

theorem primaryMatch_eq {l : Text} (hl : IsLanguage l)
    (hcase : ∀ e ∈ es, lower (primaryOf e.1) = lower (primaryOf l) → primaryOf e.1 = primaryOf l) :
    primaryMatch es (lower (primaryPart l)) = (primaryEntry es (primaryOf l)).map Prod.snd := by
  rw [primaryPart_language hl]
  refine valueWhere_eq hes fun e he => ?_
  rw [primaryPart_language (hes.tag e he).1]
  refine decide_eq_decide.mpr ⟨hcase e he, fun h => ?_⟩
  rw [h]

theorem englishMatch_eq (hcase : ∀ e ∈ es, ascii "en" <+: lower e.1 → primaryOf e.1 = ascii "en") :
    (valueWhere es fun k => (ascii "en").isPrefixOf (lower k)) =
      (primaryEntry es (ascii "en")).map Prod.snd := by
  refine valueWhere_eq hes fun e he => ?_
  have hback : primaryOf e.1 = ascii "en" → ascii "en" <+: lower e.1 := by
    intro h
    have hpre := (List.takeWhile_prefix (l := e.1) (fun b => decide (b ≠ 45))).map toLower
    rw [← primaryOf_eq (hes.tag e he).1, h] at hpre
    exact hpre
  by_cases h : ascii "en" <+: lower e.1
  · rw [List.isPrefixOf_iff_prefix.mpr h, decide_eq_true (hcase e he h)]
  · rw [decide_eq_false (fun heq => h (hback heq))]
    exact Bool.eq_false_iff.mpr fun hpre => h (List.isPrefixOf_iff_prefix.mp hpre)

/-- The page shows the title of its entry, and else the one of the record. -/
theorem getLocalizedTitle_eq {langs : List Text} {lang titleName : Text} (hne : es ≠ [])
    (hlangs : ∀ l ∈ langs, IsLanguage l) (hlang : lang = [] ∨ IsLanguage lang)
    (hcase : OneCase es (lang :: langs)) :
    getLocalizedTitle es titleName lang langs =
      match (pageEntry es langs lang).map Prod.snd with
      | some title => title
      | none =>
        if titleName ≠ [] ∧ titleName ≠ ascii "Unknown Package" ∧ titleName ≠ ascii "Package" then titleName
        else
          match (es.head?.map Prod.snd).filter (· ≠ []) with
          | some first => first
          | none => titleName := by
  have hasked : langs.filter (· ≠ []) = langs :=
    List.filter_eq_self.mpr fun l hl => decide_eq_true (hlangs l hl).ne_nil
  have hmem {front back : List Text} {l : Text} (hsplit : langs = front ++ l :: back) : l ∈ langs := by
    rw [hsplit]
    exact List.mem_append_right front List.mem_cons_self
  have hexact := findSome_map (k := Prod.snd) fun front l back hsplit _ =>
    exactMatch_eq hes (hlangs l (hmem hsplit)) (hcase.tag l (List.mem_cons_of_mem lang (hmem hsplit)))
  have hprimary := findSome_map (k := Prod.snd) fun front l back hsplit _ =>
    primaryMatch_eq hes (hlangs l (hmem hsplit)) (hcase.primary l (List.mem_cons_of_mem lang (hmem hsplit)))
  have husual : (if lang = [] then none
      else (exactMatch es (lower (trim lang))).or (primaryMatch es (primaryPart (lower (trim lang))))) =
      (if lang = [] then none
        else (exactEntry es lang).or (primaryEntry es (primaryOf lang))).map Prod.snd := by
    rcases hlang with rfl | hlang
    · rfl
    · rw [if_neg hlang.ne_nil, if_neg hlang.ne_nil,
        exactMatch_eq hes hlang (hcase.tag lang List.mem_cons_self), trim_language hlang, primaryPart_lower,
        primaryMatch_eq hes hlang (hcase.primary lang List.mem_cons_self), Option.map_or]
  unfold getLocalizedTitle
  rw [if_neg hne]
  dsimp only
  rw [hasked, hexact, hprimary, husual, englishMatch_eq hes hcase.english]
  unfold pageEntry
  rw [Option.map_or, Option.map_or, Option.map_or]

end Page

/-! The entry both show. -/

/-- The languages are tags of less than 32 bytes, and no title is taken for a key of them. -/
structure Sought (es : List (Text × Text)) (langs : List Text) (lang : Text) : Prop where
  requested : ∀ l ∈ langs, IsLanguage l ∧ l.length < 32 ∧ Quiet es (primaryOf l)
  usual : lang = [] ∨ (IsLanguage lang ∧ lang.length < 32 ∧ Quiet es (primaryOf lang))
  english : Quiet es (ascii "en")

theorem near_language {json l : Text} {es : List (Text × Text)} (hl : IsLanguage l) (h : Quiet es (primaryOf l))
    (patterns : List Text) : Near json es (primaryOf l) patterns where
  word := fun _ _ => h.guarded
  other := fun _ hword => absurd (primary_word hl) hword

theorem whole_language {json l : Text} (hl : IsLanguage l) (hlen : l.length < 32) : Whole json l :=
  fun h => absurd ⟨hl.word, by omega⟩ h

theorem Sought.clear {es : List (Text × Text)} {langs : List Text} {lang : Text} (h : Sought es langs lang)
    (json : Text) : Clear json es langs lang where
  asked := by
    intro front l back hsplit _
    obtain ⟨hl, hlen, hquiet⟩ := h.requested l (by rw [hsplit]; simp)
    exact ⟨fun hlong => absurd hlen (Nat.not_lt.mpr hlong), fun _ _ => whole_language hl hlen,
      fun _ _ _ => near_language hl hquiet _⟩
  usual := by
    intro _ hne
    rcases h.usual with rfl | ⟨hl, hlen, hquiet⟩
    · exact absurd rfl hne
    · exact ⟨whole_language hl hlen, fun _ => near_language hl hquiet _⟩
  english := fun _ _ => h.english.guarded

theorem primaryEntry_none {es : List (Text × Text)} (hes : IsTitles es) {p : Text} (hp : 45 ∉ p)
    (h : nearEntry es p = none) : primaryEntry es p = none := by
  have hnone := (nearEntry_none_iff hes.toIsTagged hp).mp h
  exact List.find?_eq_none.mpr fun e he hprimary => hnone e he (of_decide_eq_true hprimary)

/-- The first language with an entry has one with its tag, or no language has and its first entry is
the one with a region; the entries of the default language and of English are in this order too. -/
structure SameOrder (es : List (Text × Text)) (langs : List Text) (lang : Text) : Prop where
  asked : ∀ front l back, langs = front ++ l :: back → (∀ k ∈ front, askedEntry es k = none) →
    askedEntry es l ≠ none → exactEntry es l ≠ none ∨
      ((∀ k ∈ back, exactEntry es k = none) ∧ primaryEntry es (primaryOf l) = nearEntry es (primaryOf l))
  usual : (∀ l ∈ langs, askedEntry es l = none) → lang ≠ [] → exactEntry es lang = none →
    primaryEntry es (primaryOf lang) = regionalEntry es (primaryOf lang)
  english : (∀ l ∈ langs, askedEntry es l = none) → usualEntry es lang = none →
    primaryEntry es (ascii "en") = nearEntry es (ascii "en")

theorem findSome_behind {α β : Type} {f : α → Option β} {front back : List α} {x : α}
    (h : ∀ y ∈ front, f y = none) : (front ++ x :: back).findSome? f = (f x).or (back.findSome? f) := by
  rw [List.findSome?_append, List.findSome?_eq_none_iff.mpr h, Option.none_or, List.findSome?_cons]
  cases f x with
  | none => rfl
  | some b => rfl

/-- The page finds for the languages asked for what the console does. -/
theorem asked_eq {es : List (Text × Text)} (hes : IsTitles es) {langs : List Text} {lang : Text}
    (hlangs : ∀ l ∈ langs, IsLanguage l) (h : SameOrder es langs lang) :
    (langs.findSome? fun l => exactEntry es l).or (langs.findSome? fun l => primaryEntry es (primaryOf l)) =
      langs.findSome? fun l => askedEntry es l := by
  have hneither : ∀ l ∈ langs, askedEntry es l = none →
      exactEntry es l = none ∧ primaryEntry es (primaryOf l) = none := by
    intro l hl hnone
    obtain ⟨hexact, hnear⟩ := Option.or_eq_none_iff.mp hnone
    exact ⟨hexact, primaryEntry_none hes (primary_hyphen_free ((hlangs l hl).not_mem (by decide))) hnear⟩
  cases hfound : langs.findSome? fun l => askedEntry es l with
  | none =>
    have hnone := List.findSome?_eq_none_iff.mp hfound
    rw [List.findSome?_eq_none_iff.mpr fun l hl => (hneither l hl (hnone l hl)).1,
      List.findSome?_eq_none_iff.mpr fun l hl => (hneither l hl (hnone l hl)).2]
    rfl
  | some e =>
    obtain ⟨front, l, back, hlist, hl, hfront⟩ := List.findSome?_eq_some_iff.mp hfound
    have hbefore : ∀ k ∈ front, exactEntry es k = none ∧ primaryEntry es (primaryOf k) = none := by
      intro k hk
      refine hneither k ?_ (hfront k hk)
      rw [hlist]
      exact List.mem_append_left _ hk
    have hasked := h.asked front l back hlist hfront (by rw [hl]; exact Option.some_ne_none e)
    rw [hlist, findSome_behind fun k hk => (hbefore k hk).1, findSome_behind fun k hk => (hbefore k hk).2]
    cases hexact : exactEntry es l with
    | some g =>
      have hsame : askedEntry es l = some g := by
        rw [askedEntry, hexact]
        rfl
      rw [← hl, hsame]
      rfl
    | none =>
      rcases hasked with hsome | ⟨hback, hprimary⟩
      · exact absurd hexact hsome
      · have hsame : askedEntry es l = primaryEntry es (primaryOf l) := by
          rw [askedEntry, hexact, hprimary]
          rfl
        rw [List.findSome?_eq_none_iff.mpr hback, ← hsame, hl]
        rfl

theorem pageEntry_eq {es : List (Text × Text)} (hes : IsTitles es) {langs : List Text} {lang : Text}
    (hlangs : ∀ l ∈ langs, IsLanguage l) (h : SameOrder es langs lang) :
    pageEntry es langs lang = consoleEntry es langs lang := by
  have hasked := asked_eq hes hlangs h
  have hconsole : consoleEntry es langs lang =
      (langs.findSome? fun l => askedEntry es l).or ((usualEntry es lang).or (nearEntry es (ascii "en"))) := rfl
  unfold pageEntry
  rw [← Option.or_assoc, hasked, hconsole]
  cases hfound : langs.findSome? fun l => askedEntry es l with
  | some e => rfl
  | none =>
    have hnone := List.findSome?_eq_none_iff.mp hfound
    have husual : (if lang = [] then none else (exactEntry es lang).or (primaryEntry es (primaryOf lang))) =
        usualEntry es lang := by
      unfold usualEntry
      by_cases hempty : lang = []
      · rw [if_pos hempty, if_pos hempty]
      · rw [if_neg hempty, if_neg hempty]
        cases hexact : exactEntry es lang with
        | some g => rfl
        | none => rw [h.usual hnone hempty hexact]
    rw [husual, Option.none_or, Option.none_or]
    cases hlast : usualEntry es lang with
    | some e => rfl
    | none => rw [h.english hnone hlast]

/-! The titles both show. -/

theorem shown_eq {t : Text} (h : ∀ b ∈ t, 32 ≤ b) : shown t = t :=
  List.filter_eq_self.mpr fun b hb => decide_eq_true (.inl (h b hb))

theorem rawTitle_printable {t : Text} (h : ∀ b ∈ t, 32 ≤ b) : ∀ b ∈ rawTitle t, 32 ≤ b := by
  intro b hb
  have hescape := (List.takeWhile_sublist _).subset hb
  by_cases hslash : b = 92
  · rw [hslash]
    decide
  · exact h b ((QuotedText.mem_escape hslash t).mp hescape)

/-- A backslash stands where the title has a mark. -/
theorem rawTitle_eq {t : Text} (h : 92 ∉ rawTitle t) : rawTitle t = t := by
  induction t with
  | nil => rfl
  | cons c t ih =>
    unfold rawTitle at h ⊢
    rw [QuotedText.escape_cons] at h ⊢
    by_cases hc : c = 34 ∨ c = 92
    · rw [QuotedText.escapeByte_special hc] at h
      exact absurd List.mem_cons_self h
    · have hquote : decide (c ≠ 34) = true := decide_eq_true fun h34 => hc (.inl h34)
      rw [QuotedText.escapeByte_plain hc, List.singleton_append,
        List.takeWhile_cons_of_pos (p := fun b => decide (b ≠ 34)) hquote] at h ⊢
      rw [List.mem_cons, not_or] at h
      exact congrArg (c :: ·) (ih h.2)

theorem rawTitle_ne_nil {t : Text} (h : t ≠ []) : rawTitle t ≠ [] := by
  intro hnil
  have hmark : 92 ∉ rawTitle t := by
    rw [hnil]
    exact List.not_mem_nil
  have hraw := rawTitle_eq hmark
  rw [hnil] at hraw
  exact h hraw.symm

/-- The page shows the first title too, as it stands in the text or whole. -/
theorem fallback_eq {e : Text × Text} {es : List (Text × Text)} (hne : e.2 ≠ []) :
    (if rawTitle e.2 ≠ [] ∧ rawTitle e.2 ≠ ascii "Unknown Package" ∧ rawTitle e.2 ≠ ascii "Package" then
      rawTitle e.2
    else
      match ((e :: es).head?.map Prod.snd).filter (· ≠ []) with
      | some first => first
      | none => rawTitle e.2) = rawTitle e.2 := by
  split
  · rfl
  · next hgeneric =>
    have hword : 92 ∉ rawTitle e.2 := by
      by_cases h1 : rawTitle e.2 = ascii "Unknown Package"
      · rw [h1]
        decide
      · by_cases h2 : rawTitle e.2 = ascii "Package"
        · rw [h2]
          decide
        · exact absurd ⟨rawTitle_ne_nil hne, h1, h2⟩ hgeneric
    have hfirst : ((e :: es).head?.map Prod.snd).filter (· ≠ []) = some e.2 :=
      Option.filter_some_pos (decide_eq_true hne)
    rw [hfirst, rawTitle_eq hword]

theorem languagesOf_nil : languagesOf [] = [] := rfl

/-- What is shown where the titles are an object of these entries. -/
theorem shown_agree {w : List (Text × Text)} {titleName lang accept : Text} (hw : IsTitles w)
    (hprintable : ∀ e ∈ w, ∀ b ∈ e.2, 32 ≤ b) (haccept : languagesOf accept ≠ [])
    (hsought : Sought w (languagesOf accept) lang) (hcase : OneCase w (lang :: languagesOf accept))
    (horder : SameOrder w (languagesOf accept) lang)
    (hfirst : consoleEntry w (languagesOf accept) lang = none → ∀ e ∈ w.head?, (rawTitle e.2).length + 1 < 256) :
    displayTitle (object w) titleName lang accept =
      getLocalizedTitle w (shown (displayTitle (object w) titleName lang accept)) lang (languagesOf accept) := by
  have hlangs : ∀ l ∈ languagesOf accept, IsLanguage l := fun l hl => (hsought.requested l hl).1
  have hlang : lang = [] ∨ IsLanguage lang := hsought.usual.imp_right fun h => h.1
  have hasked : accept ≠ [] := by
    rintro rfl
    exact haccept languagesOf_nil
  have hopen : (object w).head? = some 123 := by
    cases w with
    | nil => rfl
    | cons e w => rfl
  have hdisplay : displayTitle (object w) titleName lang accept =
      (((consoleEntry w (languagesOf accept) lang).map fun e => snprintf 256 e.2).or
        (firstTitle (object w) 256)).getD [] := by
    unfold displayTitle
    rw [if_pos ⟨hasked, hopen⟩, resolve_eq hw.toIsTagged (.inl rfl) (by decide) (hsought.clear (object w))]
  rw [hdisplay]
  cases w with
  | nil =>
    have hnone : firstTitle (object []) 256 = none := rfl
    have hentry : consoleEntry [] (languagesOf accept) lang = none := by
      have hasked : ∀ l ∈ languagesOf accept, askedEntry [] l = none := fun l _ => rfl
      have husual : usualEntry [] lang = none := by
        unfold usualEntry
        split
        · rfl
        · rfl
      have hconsole : consoleEntry [] (languagesOf accept) lang =
          ((languagesOf accept).findSome? fun l => askedEntry [] l).or ((usualEntry [] lang).or none) := rfl
      rw [hconsole, List.findSome?_eq_none_iff.mpr hasked, husual]
      rfl
    rw [hentry, hnone]
    rfl
  | cons e w =>
    rw [getLocalizedTitle_eq hw (List.cons_ne_nil e w) hlangs hlang hcase, pageEntry_eq hw hlangs horder]
    cases hentry : consoleEntry (e :: w) (languagesOf accept) lang with
    | some g =>
      have hshort := hw.short g (consoleEntry_mem hentry)
      exact List.take_of_length_le (by omega)
    | none =>
      have hlen := hfirst hentry e rfl
      have htitle := hw.title e List.mem_cons_self
      have hraw := shown_eq (rawTitle_printable (hprintable e List.mem_cons_self))
      rw [firstTitle_eq hw.toIsTagged (.inl rfl), if_pos hlen, Option.map_none, Option.none_or, Option.getD_some, hraw]
      exact (fallback_eq htitle.1).symm

/-- The page finds the entries in its record, and shows the title the console shows. -/
theorem titles_agree {es : List (Text × Text)} {titleName lang accept language : Text} (hes : IsTitles es)
    (hembeds : Embeds 2048 es) (hname : ∀ b ∈ titleName, 32 ≤ b) (haccept : languagesOf accept ≠ [])
    (hsought : Sought (fitting 2048 0 es) (languagesOf accept) lang)
    (hcase : OneCase (fitting 2048 0 es) (lang :: languagesOf accept))
    (horder : SameOrder (fitting 2048 0 es) (languagesOf accept) lang)
    (hfirst : consoleEntry (fitting 2048 0 es) (languagesOf accept) lang = none →
      ∀ e ∈ (fitting 2048 0 es).head?, (rawTitle e.2).length + 1 < 256) :
    IsJson (.object ((fitting 2048 0 es).map fun e => (e.1, .string e.2))) (recordTitles es) ∧
      consoleTitle es titleName lang accept =
        pageTitle es titleName lang accept (navLangs (languagesOf accept) language) := by
  have hw : IsTitles (fitting 2048 0 es) := hes.sublist (fitting_sublist 2048 0 es)
  have hnav : navLangs (languagesOf accept) language = languagesOf accept := if_pos haccept
  have hlang : shown lang = lang := by
    rcases hsought.usual with rfl | ⟨hlang, -⟩
    · rfl
    · exact shown_eq fun b hb => (tag_byte (hlang.bytes b hb)).1
  have hjson := object_isJson hw hembeds.title
  unfold recordTitles pageTitle consoleTitle
  rw [hnav, hlang]
  cases es with
  | nil =>
    have hdisplay : displayTitle (storedTitles []) titleName lang accept = titleName :=
      if_neg fun h => absurd h.2 (by decide)
    rw [hdisplay, shown_eq hname]
    exact ⟨hjson, rfl⟩
  | cons e es =>
    have hstored : storedTitles (e :: es) = object (fitting 2048 0 (e :: es)) := by
      unfold storedTitles
      rw [if_neg (List.cons_ne_nil e es), titlesJson_object hes.toIsTagged hembeds.room]
    have hopen : (object (fitting 2048 0 (e :: es))).head? = some 123 := by
      cases fitting 2048 0 (e :: es) with
      | nil => rfl
      | cons g w => rfl
    rw [hstored, if_pos hopen]
    exact ⟨hjson, shown_agree hw hembeds.title haccept hsought hcase horder hfirst⟩

def twoTitles : List (Text × Text) := [(ascii "en-US", ascii "A"), (ascii "de-DE", ascii "B")]

theorem titles_agree_german :
    IsJson (.object [(ascii "en-US", .string (ascii "A")), (ascii "de-DE", .string (ascii "B"))])
        (recordTitles twoTitles) ∧
      consoleTitle twoTitles (ascii "A") (ascii "en-US") (ascii "de-DE,en-US;q=0.9") =
        pageTitle twoTitles (ascii "A") (ascii "en-US") (ascii "de-DE,en-US;q=0.9")
          (navLangs (languagesOf (ascii "de-DE,en-US;q=0.9")) (ascii "de-DE")) := by
  have hfit : fitting 2048 0 twoTitles = twoTitles := by decide
  have hlangs : languagesOf (ascii "de-DE,en-US;q=0.9") = [ascii "de-DE", ascii "en-US"] := by decide
  have henglish : IsLanguage (ascii "en-US") := ⟨by decide +kernel, 101, ascii "n-US", rfl, by decide⟩
  have hgerman : IsLanguage (ascii "de-DE") := ⟨by decide +kernel, 100, ascii "e-DE", rfl, by decide⟩
  have hfound : askedEntry twoTitles (ascii "de-DE") = some (ascii "de-DE", ascii "B") := by decide
  have hnone : ¬∀ l ∈ [ascii "de-DE", ascii "en-US"], askedEntry twoTitles l = none := by
    intro h
    rw [h _ List.mem_cons_self] at hfound
    cases hfound
  have htitles : IsTitles twoTitles :=
    ⟨⟨List.forall_mem_cons.mpr ⟨⟨henglish, by decide⟩, List.forall_mem_singleton.mpr ⟨hgerman, by decide⟩⟩,
      by decide, by decide⟩, by decide⟩
  have hsought : Sought twoTitles [ascii "de-DE", ascii "en-US"] (ascii "en-US") :=
    ⟨List.forall_mem_cons.mpr ⟨⟨hgerman, by decide, by unfold Quiet; decide⟩,
      List.forall_mem_singleton.mpr ⟨henglish, by decide, by unfold Quiet; decide⟩⟩,
      .inr ⟨henglish, by decide, by unfold Quiet; decide⟩, by unfold Quiet; decide⟩
  have horder : SameOrder twoTitles [ascii "de-DE", ascii "en-US"] (ascii "en-US") := by
    refine ⟨?_, fun h => absurd h hnone, fun h => absurd h hnone⟩
    intro front l back hlist hfront _
    cases front with
    | nil =>
      obtain ⟨rfl, rfl⟩ := List.cons_eq_cons.mp hlist
      exact .inl (by decide)
    | cons k front =>
      obtain ⟨rfl, -⟩ := List.cons_eq_cons.mp hlist
      rw [hfront _ List.mem_cons_self] at hfound
      cases hfound
  have hembeds : Embeds 2048 twoTitles := by
    refine ⟨?_, ?_, ?_⟩
    · rw [hfit]
      exact fun e he => ⟨e.1, body_tag (htitles.tag e he).1⟩
    · rw [hfit]
      decide +kernel
    · decide
  have hentry : consoleEntry twoTitles [ascii "de-DE", ascii "en-US"] (ascii "en-US") ≠ none := by
    decide
  have hcase : OneCase twoTitles (ascii "en-US" :: [ascii "de-DE", ascii "en-US"]) :=
    ⟨by decide, by decide, by decide⟩
  have hagree := @titles_agree twoTitles (ascii "A") (ascii "en-US") (ascii "de-DE,en-US;q=0.9")
    (ascii "de-DE") htitles hembeds (by decide +kernel)
  rw [hfit, hlangs] at hagree
  have hboth := hagree (List.cons_ne_nil _ _) hsought hcase horder fun h => absurd h hentry
  rw [hlangs]
  exact hboth

/-- The language asked for first has another region, and the next one is there. -/
theorem titles_agree_fails :
    languagesOf (ascii "de-AT,en-US;q=0.9") = [ascii "de-AT", ascii "en-US"] ∧
      consoleTitle twoTitles (ascii "A") (ascii "en-US") (ascii "de-AT,en-US;q=0.9") ≠
        pageTitle twoTitles (ascii "A") (ascii "en-US") (ascii "de-AT,en-US;q=0.9")
          (navLangs [ascii "de-AT", ascii "en-US"] (ascii "de-AT")) := by
  decide

end PkgManager.TitleAgreement
