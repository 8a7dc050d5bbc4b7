import PkgManager.ParserAgreement

namespace PkgManager.SmbAgreement

open CText PkgMetadata PkgParser PkgWalk ParserAgreement

/-- What a library shows of a package. -/
structure SameListing (a b : Detail) : Prop where
  pkgType : a.pkgType = b.pkgType
  pkgTypeStr : a.pkgType.str = b.pkgType.str
  contentId : a.contentId = b.contentId
  titleId : a.info.titleId = b.info.titleId
  titleName : a.info.titleName = b.info.titleName
  appVersion : a.info.appVersion = b.info.appVersion
  icon : a.icon = b.icon

/-- The icon is below the limit and lies in the file. -/
def iconFits (d : Text) (icon : Nat × Nat) : Bool :=
  icon.2 < 10 * 1024 * 1024 && icon.1 + icon.2 ≤ d.length

/-- The kind depends on the keys of a base application alone: the CNT type is 1,
and neither a mark of an update nor a category settles it. -/
def undecided (typeMagic : Nat) (w : Walk) : Bool :=
  typeMagic % 256 = 1 && !isUpdate typeMagic w && !isDlcCategory w.info.category &&
    !(w.hasPs4SfoCategory && isBaseCategory w.info.category)

/-- The table of a package that is accepted. -/
def tableOf (d : Text) : Option (Cnt × List Entry) :=
  ((findCnt d (· < d.length)).bind (readCnt d)).bind fun cnt =>
    (readEntries d cnt).map fun entries => (cnt, entries)

def partsOf (δ : Dialect) (d : Text) (table : Cnt × List Entry) : Parts :=
  parts δ d table.1.offset (readStrings d table.1 table.2) table.2

/-- The last icon entry that is not empty, if there is one, fits. -/
def lastIconFits (d : Text) : Bool :=
  (tableOf d).all fun table => (partsOf smbDialect d table).icons.getLast?.all (iconFits d)

/-- Where the kind depends on it, a key of a base application stands in front of
the first NUL of its `param.json`, or there is none. -/
def badgeSeen (d : Text) : Bool :=
  (tableOf d).all fun table =>
    let texts := (partsOf (fileDialect d) d table).texts
    !undecided table.1.typeMagic ((partsOf (fileDialect d) d table).walk (fileDialect d)) ||
      texts.any (badgeOf smbDialect) == texts.any (badgeOf (fileDialect d))

/-! Icons. -/

theorem iconOf_file (d : Text) (offset : Nat) (name : Text) (e : Entry) :
    iconOf (fileDialect d) offset name e =
      (iconOf smbDialect offset name e).filter (iconFits d) := by
  unfold iconOf
  by_cases hicon : isIcon e name = true ∧ 0 < e.dataSize
  · have hsmb : isIcon e name = true ∧ 0 < e.dataSize ∧
        smbDialect.icon (offset + e.dataOff) e.dataSize = true := ⟨hicon.1, hicon.2, rfl⟩
    rw [if_pos hsmb, Option.filter_some]
    by_cases hfits : iconFits d (offset + e.dataOff, e.dataSize) = true
    · rw [if_pos hfits, if_pos ⟨hicon.1, hicon.2, hfits⟩]
    · rw [if_neg hfits, if_neg fun h => hfits h.2.2]
  · rw [if_neg fun h => hicon ⟨h.1, h.2.1⟩, if_neg fun h => hicon ⟨h.1, h.2.1⟩]
    rfl

theorem icons_file (d : Text) (table : Cnt × List Entry) :
    (partsOf (fileDialect d) d table).icons =
      (partsOf smbDialect d table).icons.filter (iconFits d) := by
  unfold partsOf parts
  simp only [List.filter_filterMap]
  congr 1
  funext e
  exact iconOf_file d table.1.offset _ e

theorem getLast?_filter_iff {α : Type} (p : α → Bool) (l : List α) :
    (l.filter p).getLast? = l.getLast? ↔ l.getLast?.all p = true := by
  rcases List.eq_nil_or_concat l with rfl | ⟨l, a, rfl⟩
  · simp
  · rw [List.concat_eq_append, List.filter_append, List.getLast?_append, List.getLast?_append]
    by_cases ha : p a = true
    · simp [ha]
    · -- the last one is not kept, so what is kept does not end in it
      have hone : [a].filter p = [] := by simp [ha]
      rw [hone, List.getLast?_nil, Option.none_or, List.getLast?_singleton, Option.some_or,
        Option.all_some]
      refine ⟨fun hlast => ?_, fun hkept => absurd hkept ha⟩
      exact absurd (List.mem_filter.mp (List.mem_of_getLast? hlast)).2 ha

/-! The kind. -/

theorem classify_badge (typeMagic : Nat) (w : Walk) (badge : Bool) :
    classify typeMagic { w with hasBaseAppMetadata := badge } = classify typeMagic w ↔
      undecided typeMagic w = false ∨ badge = w.hasBaseAppMetadata := by
  have hupdate : isUpdate typeMagic { w with hasBaseAppMetadata := badge } = isUpdate typeMagic w :=
    rfl
  unfold classify undecided
  rw [hupdate]
  simp only
  cases isUpdate typeMagic w <;> cases isDlcCategory w.info.category <;>
    cases w.hasPs4SfoCategory && isBaseCategory w.info.category <;>
    by_cases h1 : typeMagic % 256 = 1 <;> cases badge <;> cases w.hasBaseAppMetadata <;> simp [h1]

/-! The two parsers on one table. -/

def detailOf (δ : Dialect) (d : Text) (table : Cnt × List Entry) : Detail :=
  let w := (partsOf δ d table).walk δ
  ⟨withFallbacks table.1.contentId w.info, table.1.contentId, classify table.1.typeMagic w, w.icon,
    false, 0, 0, d.length⟩

theorem bind_parseCnt (δ : Dialect) (d : Text) :
    ((findCnt d (· < d.length)).bind (readCnt d)).bind (parseCnt δ d d.length) =
      (tableOf d).map (detailOf δ d) := by
  unfold tableOf
  cases (findCnt d (· < d.length)).bind (readCnt d) with
  | none => rfl
  | some cnt =>
    rw [Option.bind_some, Option.bind_some, parseCnt_eq]
    cases readEntries d cnt <;> rfl

/-- A package is no shorter than its header. -/
theorem tableOf_short {d : Text} (h : d.length < 0x80) : tableOf d = none := by
  have hcnt : (findCnt d (· < d.length)).bind (readCnt d) = none := by
    cases findCnt d (· < d.length) with
    | none => rfl
    | some offset =>
      have hslice : slice d offset 0x80 = none := if_neg (by omega)
      rw [Option.bind_some]
      unfold readCnt
      rw [hslice]
  unfold tableOf
  rw [hcnt]
  rfl

theorem tableOf_multipart {d : Text} (h : hasMultipartMagic d = true) : tableOf d = none := by
  unfold tableOf
  rw [findCnt_multipart h]
  rfl

theorem pkgParserParse_eq {d : Text} (hm : isMultipart d = false) :
    pkgParserParse d = (tableOf d).map (detailOf (fileDialect d) d) := by
  have hwhole : ¬(hasMultipartMagic d = true ∧ isMultipart d = true) := by simp [hm]
  unfold pkgParserParse
  by_cases hshort : d.length < 0x80
  · rw [if_pos hshort, tableOf_short hshort]
    rfl
  · rw [if_neg hshort, if_neg hwhole, bind_parseCnt]

theorem smbClientParsePkg_eq (d : Text) :
    smbClientParsePkg d = (tableOf d).map (detailOf smbDialect d) := by
  unfold smbClientParsePkg
  by_cases hshort : d.length < 0x80
  · rw [if_pos hshort, tableOf_short hshort]
    rfl
  · rw [if_neg hshort]
    by_cases hmagic : hasMultipartMagic d = true
    · rw [if_pos hmagic, tableOf_multipart hmagic]
      rfl
    · rw [if_neg hmagic, bind_parseCnt]

theorem sameListing_iff (d : Text) (table : Cnt × List Entry) :
    SameListing (detailOf smbDialect d table) (detailOf (fileDialect d) d table) ↔
      (partsOf smbDialect d table).icons.getLast?.all (iconFits d) = true ∧
      (undecided table.1.typeMagic ((partsOf (fileDialect d) d table).walk (fileDialect d)) = false ∨
        (partsOf (fileDialect d) d table).texts.any (badgeOf smbDialect) =
          (partsOf (fileDialect d) d table).texts.any (badgeOf (fileDialect d))) := by
  have hicon : (detailOf smbDialect d table).icon = (detailOf (fileDialect d) d table).icon ↔
      (partsOf smbDialect d table).icons.getLast?.all (iconFits d) = true := by
    rw [← getLast?_filter_iff, ← icons_file]
    exact eq_comm
  have hkind := classify_badge table.1.typeMagic
    ((partsOf (fileDialect d) d table).walk (fileDialect d))
    ((partsOf (fileDialect d) d table).texts.any (badgeOf smbDialect))
  rw [← hicon]
  constructor
  · exact fun h => ⟨h.icon, hkind.mp h.pkgType⟩
  · intro ⟨h, hbadge⟩
    have htype : (detailOf smbDialect d table).pkgType = (detailOf (fileDialect d) d table).pkgType :=
      hkind.mpr hbadge
    exact ⟨htype, congrArg PkgType.str htype, rfl, rfl, rfl, rfl, h⟩

theorem agree_map_iff {α : Type} {P : Detail → Detail → Prop} {o : Option α} {f g : α → Detail} :
    Agree P (o.map f) (o.map g) ↔ ∀ a, o = some a → P (f a) (g a) := by
  cases o with
  | none => exact ⟨fun _ a h => (nomatch h), fun _ => .rejected⟩
  | some a =>
    constructor
    · intro h a' ha
      cases ha
      cases h with
      | accepted h => exact h
    · exact fun h => .accepted (h a rfl)

/-- The parser of the share lists a package as the parser of a local file does
when its last icon fits, and the keys it is known by stand where the
other parser looks for them. -/
theorem smb_same_listing_iff {d : Text} (hm : isMultipart d = false) :
    Agree SameListing (smbClientParsePkg d) (pkgParserParse d) ↔
      lastIconFits d = true ∧ badgeSeen d = true := by
  rw [pkgParserParse_eq hm, smbClientParsePkg_eq, agree_map_iff]
  unfold lastIconFits badgeSeen
  cases tableOf d with
  | none => simp
  | some table =>
    rw [Option.all_some, Option.all_some, Bool.or_eq_true, Bool.not_eq_true', beq_iff_eq,
      ← sameListing_iff]
    exact ⟨fun h => h table rfl, fun h a ha => by cases ha; exact h⟩

/-- An icon in front of the end of the file. -/
def iconFile (dataOff : Nat) : Text := cntFile 0 [⟨0x1200, 0, dataOff, 4⟩] [1, 2, 3, 4]

theorem smb_same_listing_icon :
    Agree SameListing (smbClientParsePkg (iconFile 160)) (pkgParserParse (iconFile 160)) :=
  (smb_same_listing_iff (by decide +kernel)).mpr ⟨by decide +kernel, by decide +kernel⟩

/-- An icon behind the end of the file is one to the parser of the share. -/
theorem smb_same_listing_fails :
    ¬∀ d, isMultipart d = false → Agree SameListing (smbClientParsePkg d) (pkgParserParse d) := by
  intro hall
  have hm : isMultipart (iconFile 1000) = false := by decide +kernel
  have h := hall (iconFile 1000) hm
  have hsmb : (smbClientParsePkg (iconFile 1000)).map (·.icon) = some (some (1000, 4)) := by
    decide +kernel
  have hfile : (pkgParserParse (iconFile 1000)).map (·.icon) = some none := by decide +kernel
  generalize smbClientParsePkg (iconFile 1000) = a at h hsmb
  generalize pkgParserParse (iconFile 1000) = b at h hfile
  obtain ⟨a, rfl, ha⟩ := Option.map_eq_some_iff.mp hsmb
  obtain ⟨b, rfl, hb⟩ := Option.map_eq_some_iff.mp hfile
  cases h with
  | accepted hsame =>
    have hicon := hsame.icon
    rw [ha, hb] at hicon
    cases hicon

end PkgManager.SmbAgreement
