import PkgManager.PkgWalk

namespace PkgManager.ParserAgreement

open CText PkgMetadata PkgParser PkgWalk

/-! What stands behind a `param.json` in memory is of no interest. -/

theorem jsonExtractLoop_beyond {pat : Text} (hpat : pat ≠ []) (beyond : Text) (max n : Nat)
    (p : Text) : jsonExtractLoop beyond pat max n p = jsonExtractLoop [] pat max n p := by
  induction n generalizing p with
  | zero => rfl
  | succ n ih =>
    unfold jsonExtractLoop
    by_cases hp : p = []
    · rw [if_pos hp, if_pos hp]
    · rw [if_neg hp, if_neg hp, List.append_nil]
      cases hfound : strstr pat p with
      | none =>
        cases hmore : strstr pat (p ++ beyond) with
        | none => rfl
        | some i =>
          -- such a key reaches over the end, and so does its colon
          have hover : p.length < i + pat.length := by
            by_contra hle
            rw [strstr_of_append hpat hmore (by omega)] at hfound
            cases hfound
          simp only
          by_cases hi : p.length ≤ i
          · rw [if_pos hi]
          · rw [if_neg hi]
            cases strchr 58 ((p ++ beyond).drop (i + pat.length)) with
            | none => rfl
            | some c => exact if_pos (by omega)
      | some i =>
        have hle := strstr_le hfound
        rw [strstr_append hpat beyond hfound]
        simp only
        rw [List.drop_append_of_le_length hle]
        by_cases hi : p.length ≤ i
        · rw [if_pos hi, if_pos hi]
        · rw [if_neg hi, if_neg hi]
          cases hcolon : strchr 58 (p.drop (i + pat.length)) with
          | some c =>
            have hmore : strchr 58 (p.drop (i + pat.length) ++ beyond) = some c :=
              strstr_append (by simp) beyond hcolon
            rw [hmore]
            simp only [ih]
          | none =>
            cases hmore : strchr 58 (p.drop (i + pat.length) ++ beyond) with
            | none => rfl
            | some c =>
              have hover : (p.drop (i + pat.length)).length ≤ c := by
                by_contra hlt
                have hin := strstr_of_append (by simp) hmore (by rw [List.length_singleton]; omega)
                rw [strchr, hin] at hcolon
                cases hcolon
              rw [List.length_drop] at hover
              exact if_pos (by omega)

theorem quoted_ne_nil (key : Text) : quoted key ≠ [] := List.cons_ne_nil _ _

theorem jsonExtractKey_beyond (json beyond beyond' : Text) (key : String) (max : Nat) :
    jsonExtractKey json beyond key max = jsonExtractKey json beyond' key max := by
  unfold jsonExtractKey
  rw [jsonExtractLoop_beyond (quoted_ne_nil _) beyond, jsonExtractLoop_beyond (quoted_ne_nil _) beyond']

/-- The entry is the same to the file parser and the memory parser, under the name
each of them reads. -/
def SameRoles (e : Entry) (name name' : Text) : Prop :=
  isPlaygo e name = isPlaygo e name' ∧ isDelta e name = isDelta e name' ∧
    isJson e name = isJson e name' ∧ isSfo e name = isSfo e name'

instance (e : Entry) (name name' : Text) : Decidable (SameRoles e name name') :=
  inferInstanceAs (Decidable (_ ∧ _))

/-- No entry of the table is a playgo chunk, a delta information or a metadata text
under only one of its two readings: the name up to the end of the string table,
and the name with the byte behind a table that does not end it. -/
def namesAgree (d beyond : Text) : Bool :=
  match (findCnt d (· < d.length)).bind (readCnt d) with
  | none => true
  | some cnt =>
    match readEntries d cnt with
    | none => true
    | some entries =>
      let strings := readStrings d cnt entries
      entries.all fun e =>
        SameRoles e (fileName strings e.nameOff) (memName (d ++ beyond) strings e.nameOff)

theorem namesAgree_entries {d beyond : Text} {cnt : Cnt} {entries : List Entry}
    (h : namesAgree d beyond = true) (hcnt : (findCnt d (· < d.length)).bind (readCnt d) = some cnt)
    (hentries : readEntries d cnt = some entries) :
    ∀ e ∈ entries, SameRoles e (fileName (readStrings d cnt entries) e.nameOff)
      (memName (d ++ beyond) (readStrings d cnt entries) e.nameOff) := by
  unfold namesAgree at h
  rw [hcnt] at h
  simp only [hentries] at h
  intro e he
  exact of_decide_eq_true (List.all_eq_true.mp h e he)

theorem entryTexts_congr {d : Text} {offset : Nat} {e : Entry} {name name' : Text}
    (h : SameRoles e name name') : entryTexts d offset name e = entryTexts d offset name' e := by
  obtain ⟨_, _, hjson, hsfo⟩ := h
  unfold entryTexts
  rw [hjson, hsfo]

theorem parts_congr (δ δ' : Dialect) (d : Text) (offset : Nat) {strings : Option Strings}
    {entries : List Entry}
    (h : ∀ e ∈ entries, SameRoles e (δ.name strings e.nameOff) (δ'.name strings e.nameOff)) :
    (parts δ d offset strings entries).playgo = (parts δ' d offset strings entries).playgo ∧
      (parts δ d offset strings entries).delta = (parts δ' d offset strings entries).delta ∧
      (parts δ d offset strings entries).texts = (parts δ' d offset strings entries).texts := by
  induction entries with
  | nil => exact ⟨rfl, rfl, rfl⟩
  | cons e entries ih =>
    obtain ⟨hplaygo, hdelta, htexts⟩ := ih fun e' he' => h e' (List.mem_cons_of_mem e he')
    have he := h e List.mem_cons_self
    simp only [parts] at hplaygo hdelta htexts ⊢
    simp only [List.any_cons, List.flatMap_cons]
    exact ⟨by rw [he.1, hplaygo], by rw [he.2.1, hdelta], by rw [entryTexts_congr he, htexts]⟩

/-! The kind of a package. -/

theorem parseParamJson_category (json : Text) (m : Meta) :
    (parseParamJson json m).category =
      orElse m.category ((jsonExtractKey json [0] "category" 16).getD []) := by
  unfold parseParamJson
  simp only
  cases localizedBlock json <;> rfl

theorem parseParamSfo_category (sfo localized lang : Text) :
    (parseParamSfo sfo localized lang).category = (parseParamSfo sfo [] []).category := by
  unfold parseParamSfo
  by_cases hbad : sfo.length < 20 ∨ sfo.take 4 ≠ [0, 80, 83, 70] ∨ sfo.length ≤ readLe sfo 8 4 ∨
      sfo.length ≤ readLe sfo 12 4 ∨ 1024 < readLe sfo 16 4
  · rw [if_pos hbad, if_pos hbad]
  · rw [if_neg hbad, if_neg hbad]

/-- The category, and whether a `param.sfo` gave it, are the same. -/
def SameCategory (s s' : TextState) : Prop := s.1.category = s'.1.category ∧ s.2 = s'.2

theorem textStep_category {d memory : Text} {s s' : TextState} (h : SameCategory s s') (t : MetaText) :
    SameCategory (textStep (memDialect memory) s t) (textStep (fileDialect d) s' t) := by
  obtain ⟨hcat, hps4⟩ := h
  cases t with
  | json close t =>
    refine ⟨?_, hps4⟩
    show orElse s.1.category _ = (parseParamJson t s'.1).category
    rw [parseParamJson_category, hcat, jsonExtractKey_beyond t _ [0]]
  | sfo t =>
    refine ⟨?_, ?_⟩
    · show orElse s.1.category (parseParamSfo t [] []).category =
        orElse s'.1.category (parseParamSfo t _ _).category
      rw [hcat, parseParamSfo_category t s'.1.localizedTitles]
    · simp only [textStep, hcat, hps4]

theorem foldl_textStep_category (d memory : Text) {s s' : TextState} (h : SameCategory s s')
    (texts : List MetaText) :
    SameCategory (texts.foldl (textStep (memDialect memory)) s)
      (texts.foldl (textStep (fileDialect d)) s') := by
  induction texts generalizing s s' with
  | nil => exact h
  | cons t texts ih => exact ih (textStep_category h t)

/-- What the kind is made of. -/
structure SameKindWalk (w w' : Walk) : Prop where
  playgo : w.hasPlaygoChunkPatch = w'.hasPlaygoChunkPatch
  delta : w.hasDeltaPatch = w'.hasDeltaPatch
  badge : w.hasBaseAppMetadata = w'.hasBaseAppMetadata
  ps4 : w.hasPs4SfoCategory = w'.hasPs4SfoCategory
  category : w.info.category = w'.info.category

theorem classify_congr {w w' : Walk} (h : SameKindWalk w w') (typeMagic : Nat) :
    classify typeMagic w = classify typeMagic w' := by
  unfold classify isUpdate
  rw [h.playgo, h.delta, h.badge, h.ps4, h.category]

theorem walk_sameKind {d beyond : Text} (offset : Nat) {strings : Option Strings}
    {entries : List Entry}
    (h : ∀ e ∈ entries, SameRoles e (fileName strings e.nameOff)
      (memName (d ++ beyond) strings e.nameOff)) :
    SameKindWalk ((parts (memDialect (d ++ beyond)) d offset strings entries).walk
        (memDialect (d ++ beyond)))
      ((parts (fileDialect d) d offset strings entries).walk (fileDialect d)) := by
  obtain ⟨hplaygo, hdelta, htexts⟩ :=
    parts_congr (fileDialect d) (memDialect (d ++ beyond)) d offset h
  have hbadge : badgeOf (memDialect (d ++ beyond)) = badgeOf (fileDialect d) := by
    funext t
    cases t <;> rfl
  have hstart : SameCategory (Meta.empty, false) (Meta.empty, false) := ⟨rfl, rfl⟩
  obtain ⟨hcat, hps4⟩ := foldl_textStep_category d (d ++ beyond) hstart
    (parts (fileDialect d) d offset strings entries).texts
  unfold Parts.walk
  rw [← hplaygo, ← hdelta, ← htexts]
  exact ⟨rfl, rfl, by rw [hbadge], hps4, hcat⟩

/-- Both parsers reject, or both accept and the results are related. -/
inductive Agree (P : Detail → Detail → Prop) : Option Detail → Option Detail → Prop where
  | rejected : Agree P none none
  | accepted {a b : Detail} : P a b → Agree P (some a) (some b)

/-- What a package is identified by. -/
structure SameKind (a b : Detail) : Prop where
  pkgType : a.pkgType = b.pkgType
  pkgTypeStr : a.pkgType.str = b.pkgType.str
  contentId : a.contentId = b.contentId
  category : a.info.category = b.info.category

theorem agree_bind {P : Detail → Detail → Prop} {o : Option Cnt} {f g : Cnt → Option Detail}
    (h : ∀ cnt, o = some cnt → Agree P (f cnt) (g cnt)) : Agree P (o.bind f) (o.bind g) := by
  cases o with
  | none => exact .rejected
  | some cnt => exact h cnt rfl

/-- The memory parser given the whole file looks for the header as the file parser does. -/
theorem findCnt_whole {d : Text} (h : ¬d.length < 0x80) :
    (findCnt d fun cand => d.length = 0 ∨ cand < d.length) = findCnt d (· < d.length) := by
  have hpos : ¬d.length = 0 := by omega
  simp only [hpos, false_or]

theorem findCnt_multipart {d : Text} (h : hasMultipartMagic d = true) (inFile : Nat → Bool) :
    findCnt d inFile = none := by
  have h8 : d.take 8 = MultipartHeader.magicBytes := of_decide_eq_true h
  have h4 : d.take 4 = MultipartHeader.magicBytes.take 4 := by rw [← h8, List.take_take]; rfl
  unfold findCnt
  rw [h4, if_neg (by decide), if_neg (by decide)]

/-- The two parsers accept the same packages when they agree on the common walk. -/
theorem agree_of_walk {P : Detail → Detail → Prop} {d beyond : Text} (hm : isMultipart d = false)
    (h : ∀ cnt, (findCnt d (· < d.length)).bind (readCnt d) = some cnt →
      Agree P (parseCnt (memDialect (d ++ beyond)) d d.length cnt)
        (parseCnt (fileDialect d) d d.length cnt)) :
    Agree P (pkgParserParseMem d d.length beyond) (pkgParserParse d) := by
  unfold pkgParserParseMem pkgParserParse
  by_cases hshort : d.length < 0x80
  · rw [if_pos hshort, if_pos hshort]
    exact .rejected
  · have hwhole : ¬(hasMultipartMagic d = true ∧ isMultipart d = true) := by simp [hm]
    have hpart : ¬isMultipart d = true := by simp [hm]
    rw [if_neg hshort, if_neg hshort, if_neg hwhole]
    by_cases hmagic : hasMultipartMagic d = true
    · rw [if_pos hmagic, if_neg hpart, findCnt_multipart hmagic]
      exact .rejected
    · rw [if_neg hmagic, findCnt_whole hshort]
      exact agree_bind h

/-- Where the two readings of the names agree, so do the parsers on whether this
is a package, on its content id, its category and its kind. -/
theorem parsers_same_kind {d beyond : Text} (hm : isMultipart d = false) (hn : namesAgree d beyond = true) :
    Agree SameKind (pkgParserParseMem d d.length beyond) (pkgParserParse d) := by
  refine agree_of_walk hm fun cnt hcnt => ?_
  rw [parseCnt_eq, parseCnt_eq]
  cases hentries : readEntries d cnt with
  | none => exact .rejected
  | some entries =>
    have hw := walk_sameKind cnt.offset (namesAgree_entries hn hcnt hentries)
    exact .accepted
      ⟨classify_congr hw _, congrArg PkgType.str (classify_congr hw _), rfl, hw.category⟩

/-! A package whose string table ends in the middle of its file. -/

def be32 (n : Nat) : Text :=
  [UInt8.ofNat (n / 2 ^ 24), UInt8.ofNat (n / 2 ^ 16), UInt8.ofNat (n / 2 ^ 8), UInt8.ofNat n]

def Entry.bytes (e : Entry) : Text :=
  be32 e.type ++ be32 e.nameOff ++ List.replicate 8 0 ++ be32 e.dataOff ++ be32 e.dataSize ++
    List.replicate 8 0

/-- A CNT file with its table behind the header. -/
def cntFile (typeMagic : Nat) (entries : List Entry) (rest : Text) : Text :=
  cntMagic ++ be32 typeMagic ++ List.replicate 8 0 ++ be32 entries.length ++ List.replicate 4 0 ++
    be32 0x80 ++ List.replicate 100 0 ++ (entries.map Entry.bytes).flatten ++ rest

/-- One name, the string table and the byte behind it. -/
def namedFile (name : String) (type : Nat) (behind : UInt8) : Text :=
  cntFile 0 [⟨0x0200, 0, 192, name.length⟩, ⟨type, 0, 0, 0⟩] (ascii name ++ [behind])

def terminatedFile : Text := namedFile "app/playgo-chunk.dat" 1 0

theorem parsers_same_kind_terminated :
    Agree SameKind (pkgParserParseMem terminatedFile terminatedFile.length [])
      (pkgParserParse terminatedFile) :=
  parsers_same_kind (by decide +kernel) (by decide +kernel)

def openFile : Text := namedFile "app/playgo-chunk.dat" 1 1

/-- The name of a playgo chunk, with another byte behind the table. -/
theorem parsers_same_kind_fails :
    ¬∀ d beyond, isMultipart d = false →
      Agree SameKind (pkgParserParseMem d d.length beyond) (pkgParserParse d) := by
  intro hall
  have hm : isMultipart openFile = false := by decide +kernel
  have h := hall openFile [] hm
  have hmem : (pkgParserParseMem openFile openFile.length []).map (·.pkgType) = some .base := by
    decide +kernel
  have hfile : (pkgParserParse openFile).map (·.pkgType) = some .update := by decide +kernel
  generalize pkgParserParseMem openFile openFile.length [] = a at h hmem
  generalize pkgParserParse openFile = b at h hfile
  obtain ⟨a, rfl, ha⟩ := Option.map_eq_some_iff.mp hmem
  obtain ⟨b, rfl, hb⟩ := Option.map_eq_some_iff.mp hfile
  cases h with
  | accepted hsame =>
    have hkind := hsame.pkgType
    rw [ha, hb] at hkind
    cases hkind

end PkgManager.ParserAgreement
