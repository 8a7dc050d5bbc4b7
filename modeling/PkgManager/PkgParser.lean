import PkgManager.MultipartHeader
import PkgManager.PkgMetadata

namespace PkgManager.PkgParser

open CText PkgMetadata

/-! Reading. -/

/-- A read of `n` bytes at an offset that has to give all of them. -/
def slice (d : Text) (off n : Nat) : Option Text :=
  if off + n ≤ d.length then some ((d.drop off).take n) else none

def readBe32 (s : Text) (off : Nat) : Nat :=
  ((s.drop off).take 4).foldl (fun v b => 256 * v + b.toNat) 0

def cntMagic : Text := [0x7F, 67, 78, 84]

def fihMagic : Text := [0x7F, 70, 73, 72]

def isCntAt (d : Text) (cand : Nat) : Bool := slice d cand 4 = some cntMagic

/-- Where the CNT header stands: at the beginning, or where the FIH header says;
`inFile` is the bound a parser puts on its candidates. -/
def findCnt (d : Text) (inFile : Nat → Bool) : Option Nat :=
  if d.take 4 = cntMagic then some 0
  else if d.take 4 = fihMagic then
    let entry := readLe d 0x58 8
    if 0 < entry ∧ inFile entry ∧ isCntAt d entry then some entry
    else ((List.range 62).map (0x10 + 8 * ·)).findSome? fun off =>
      let cand := readLe d off 8
      if off + 8 ≤ min d.length 0x200 ∧ 0x10000 ≤ cand ∧ inFile cand ∧ cand % 0x1000 = 0 ∧
          isCntAt d cand then some cand
      else none
  else none

/-- What the CNT header says. -/
structure Cnt where
  offset : Nat
  typeMagic : Nat
  contentId : Text
  entryCount : Nat
  tableOffset : Nat

def readCnt (d : Text) (offset : Nat) : Option Cnt :=
  match slice d offset 0x80 with
  | none => none
  | some hdr =>
    let cnt : Cnt := ⟨offset, readBe32 hdr 4,
      ((hdr.drop 0x40).take 48).takeWhile fun b => 32 ≤ b ∧ b ≤ 126, readBe32 hdr 0x10, readBe32 hdr 0x18⟩
    if hdr.take 4 ≠ cntMagic ∨ cnt.entryCount = 0 ∨ 2048 < cnt.entryCount ∨
        0x200000 < cnt.tableOffset then none
    else some cnt

structure Entry where
  type : Nat
  nameOff : Nat
  dataOff : Nat
  dataSize : Nat

def readEntry (table : Text) (i : Nat) : Entry :=
  let e := i * 32
  ⟨readBe32 table e, readBe32 table (e + 4), readBe32 table (e + 16), readBe32 table (e + 20)⟩

def readEntries (d : Text) (cnt : Cnt) : Option (List Entry) :=
  (slice d (cnt.offset + cnt.tableOffset) (cnt.entryCount * 32)).map fun table =>
    (List.range cnt.entryCount).map (readEntry table)

/-- A string table and where it ends. -/
structure Strings where
  text : Text
  close : Nat

/-- The table of names, which the first entry of type 0x0200 places. -/
def readStrings (d : Text) (cnt : Cnt) (entries : List Entry) : Option Strings :=
  match entries.find? (·.type = 0x0200) with
  | none => none
  | some e =>
    if e.dataSize = 0 ∨ 65536 ≤ e.dataSize then none
    else (slice d (cnt.offset + e.dataOff) e.dataSize).map fun text =>
      ⟨text, cnt.offset + e.dataOff + e.dataSize⟩

/-! The walk over the entries. -/

/-- What the walk has found. -/
structure Walk where
  info : Meta
  hasPlaygoChunkPatch : Bool
  hasDeltaPatch : Bool
  hasBaseAppMetadata : Bool
  hasPs4SfoCategory : Bool
  icon : Option (Nat × Nat)

def Walk.start : Walk := ⟨.empty, false, false, false, false, none⟩

/-- Where the parsers go their own ways: how the name of an entry is read, which
texts have one of the keys of a base application, what a `param.json` that ends
at an offset and a `param.sfo` set, and which icons are taken. -/
structure Dialect where
  name : Option Strings → Nat → Text
  badge : Text → Bool
  json : Nat → Text → Meta → Meta
  sfo : Text → Meta → Meta
  icon : Nat → Nat → Bool

/-! What an entry is, by its type or its name. -/

def isPlaygo (e : Entry) (name : Text) : Bool :=
  e.type = 0x1008 || name = ascii "app/playgo-chunk.dat"

def isDelta (e : Entry) (name : Text) : Bool :=
  e.type = 0x0407 || e.type = 0x0408 || name = ascii "target-deltainfo.dat" ||
    name = ascii "origin-deltainfo.dat"

def isJson (e : Entry) (name : Text) : Bool := e.type = 0x2000 || name = ascii "param.json"

def isSfo (e : Entry) (name : Text) : Bool := e.type = 0x1000 || name = ascii "param.sfo"

def isIcon (e : Entry) (name : Text) : Bool := e.type = 0x1200 || name = ascii "icon0.png"

/-- The text of a metadata entry. -/
def entryText (d : Text) (offset : Nat) (e : Entry) : Option Text :=
  if 0 < e.dataSize ∧ e.dataSize < 262144 then slice d (offset + e.dataOff) e.dataSize else none

def jsonStep (δ : Dialect) (d : Text) (offset : Nat) (e : Entry) (w : Walk) : Walk :=
  match entryText d offset e with
  | none => w
  | some json =>
    { w with
      hasBaseAppMetadata := w.hasBaseAppMetadata || δ.badge json
      info := δ.json (offset + e.dataOff + e.dataSize) json w.info }

def sfoStep (δ : Dialect) (d : Text) (offset : Nat) (e : Entry) (w : Walk) : Walk :=
  match entryText d offset e with
  | none => w
  | some sfo =>
    { w with
      hasPs4SfoCategory := w.hasPs4SfoCategory ||
        (w.info.category = [] && (parseParamSfo sfo [] []).category ≠ [])
      info := δ.sfo sfo w.info }

def iconStep (δ : Dialect) (offset : Nat) (e : Entry) (w : Walk) : Walk :=
  if 0 < e.dataSize ∧ δ.icon (offset + e.dataOff) e.dataSize then
    { w with icon := some (offset + e.dataOff, e.dataSize) }
  else w

def entryStep (δ : Dialect) (d : Text) (offset : Nat) (strings : Option Strings) (w : Walk)
    (e : Entry) : Walk :=
  let name := δ.name strings e.nameOff
  let w := { w with
    hasPlaygoChunkPatch := w.hasPlaygoChunkPatch || isPlaygo e name
    hasDeltaPatch := w.hasDeltaPatch || isDelta e name }
  let w := if isJson e name then jsonStep δ d offset e w else w
  let w := if isSfo e name then sfoStep δ d offset e w else w
  if isIcon e name then iconStep δ offset e w else w

/-! The kind of a package. -/

/-- `pkg_type_t`. -/
inductive PkgType where
  | unknown
  | base
  | update
  | dlc
  deriving DecidableEq

/-- `pkg_type_str`. -/
def PkgType.str : PkgType → String
  | .unknown => "unknown"
  | .base => "base"
  | .update => "update"
  | .dlc => "dlc"

def hasPrefix (pat : String) (category : Text) : Bool := (ascii pat).isPrefixOf category

def isDeltaType (typeMagic : Nat) : Bool := typeMagic % 256 = 0x1E ∨ typeMagic / 2 ^ 24 = 0x41

def isBaseCategory (category : Text) : Bool :=
  hasPrefix "gd" category || hasPrefix "bd" category || hasPrefix "gc" category ||
    hasPrefix "wt" category

def isUpdate (typeMagic : Nat) (w : Walk) : Bool :=
  w.hasPlaygoChunkPatch || w.hasDeltaPatch || isDeltaType typeMagic ||
    hasPrefix "gp" w.info.category

def isDlcCategory (category : Text) : Bool :=
  hasPrefix "ac" category || hasPrefix "al" category || category = ascii "addcont"

def classify (typeMagic : Nat) (w : Walk) : PkgType :=
  if isUpdate typeMagic w then .update
  else if isDlcCategory w.info.category then .dlc
  else if w.hasPs4SfoCategory && isBaseCategory w.info.category then .base
  else if typeMagic % 256 = 1 ∧ w.hasBaseAppMetadata = false then .dlc
  else .base

/-! The result. -/

/-- `pkg_detail_t`, less the path, the times and what is not of the package. -/
structure Detail where
  info : Meta
  contentId : Text
  pkgType : PkgType
  icon : Option (Nat × Nat)
  isMultipart : Bool
  partIndex : Nat
  totalParts : Nat
  totalPkgSize : Nat

/-- The title id in a content id "XX0000-TITLEID_00-...". -/
def idTitle (contentId : Text) : Text :=
  match strchr 45 contentId with
  | none => []
  | some dash =>
    let rest := contentId.drop (dash + 1)
    match strchr 95 rest with
    | none => []
    | some len => if len < 32 then rest.take len else []

def orElse (old new : Text) : Text := if old = [] then new else old

/-- The title id and the title of a package whose metadata has none. -/
def withFallbacks (contentId : Text) (m : Meta) : Meta :=
  let titleId := orElse m.titleId (idTitle contentId)
  { m with
    titleId := titleId
    titleName := orElse m.titleName (orElse titleId (ascii "Unknown Package")) }

def parseCnt (δ : Dialect) (d : Text) (size : Nat) (cnt : Cnt) : Option Detail :=
  match readEntries d cnt with
  | none => none
  | some entries =>
    let w := entries.foldl (entryStep δ d cnt.offset (readStrings d cnt entries)) .start
    some ⟨withFallbacks cnt.contentId w.info, cnt.contentId, classify cnt.typeMagic w, w.icon,
      false, 0, 0, size⟩

/-- A text of a multi-part header in its field of `n` bytes. -/
def headerText (n : Nat) (field : Text) : Text := upToNul (field.take (n - 1))

/-- The fields a part file gives. -/
def multipartDetail (h : MultipartHeader.Header) (size : Nat) (icon : Option (Nat × Nat)) : Detail :=
  let kind := headerText 16 h.pkgType
  let titleId := orElse (headerText 32 h.titleId) (ascii "UNKNOWN")
  ⟨⟨titleId, orElse (headerText 256 h.titleName) titleId, [], headerText 32 h.appVersion, [], []⟩,
    headerText 64 h.contentId,
    if kind = ascii "update" then .update else if kind = ascii "dlc" then .dlc else .base,
    icon, true, h.partIndex, h.totalParts, if 0 < h.totalPkgSize then h.totalPkgSize else size⟩

/-- A part of a multi-part package. -/
def isMultipart (d : Text) : Bool :=
  MultipartHeader.headerSize ≤ d.length && MultipartHeader.isValidHeader (MultipartHeader.parse d)

def hasMultipartMagic (d : Text) : Bool := d.take 8 = MultipartHeader.magicBytes

def fileName (strings : Option Strings) (nameOff : Nat) : Text :=
  match strings with
  | none => []
  | some s => if nameOff < s.text.length then upToNul (s.text.drop nameOff) else []

/-- What a `param.sfo` leaves: its texts where there were none, and the localized
titles and default language given. -/
def mergeSfo (m r : Meta) (localized lang : Text) : Meta :=
  ⟨orElse m.titleId r.titleId, orElse m.titleName r.titleName, orElse m.category r.category,
    orElse m.appVersion r.appVersion, localized, lang⟩

def fileSfo (sfo : Text) (m : Meta) : Meta :=
  let r := parseParamSfo sfo m.localizedTitles m.defaultLanguage
  mergeSfo m r r.localizedTitles r.defaultLanguage

def badgeKeys : List String := ["applicationDrmType", "applicationCategoryType", "contentBadgeType"]

/-- `pkg_parser_parse` on a local file of this content. -/
def fileDialect (d : Text) : Dialect where
  name := fileName
  badge json := badgeKeys.any (jsonHasKey json)
  json _ json m := parseParamJson json m
  sfo := fileSfo
  icon off size := size < 10 * 1024 * 1024 && off + size ≤ d.length

def pkgParserParse (d : Text) : Option Detail :=
  if d.length < 0x80 then none
  else if hasMultipartMagic d ∧ isMultipart d then
    let h := MultipartHeader.parse d
    some (multipartDetail h d.length
      (if 0 < h.iconOffset ∧ 0 < h.iconSize ∧ h.iconSize < 10 * 1024 * 1024 then
        some (h.iconOffset, h.iconSize) else none))
  else ((findCnt d (· < d.length)).bind (readCnt d)).bind (parseCnt (fileDialect d) d d.length)

/-- The name in a buffer of 128 bytes, the byte behind it included. -/
def memName (memory : Text) (strings : Option Strings) (nameOff : Nat) : Text :=
  match strings with
  | none => []
  | some s =>
    if nameOff < s.text.length then
      let name := s.text.drop nameOff
      let nl := (upToNul name).length
      if nl < 128 then upToNul ((name ++ memory.drop s.close).take (nl + 1)) else []
    else []

/-- The `param.json` of the memory parser, `beyond` the memory behind it. -/
def memJson (json beyond : Text) (m : Meta) : Meta :=
  { m with
    titleId := (jsonExtractKey json beyond "titleId" 32).getD m.titleId
    titleName := (jsonExtractKey json beyond "titleName" 256).getD m.titleName
    category := orElse m.category ((jsonExtractKey json beyond "category" 16).getD [])
    appVersion := orElse (jsonVersion json beyond) m.appVersion }

def memSfo (sfo : Text) (m : Meta) : Meta :=
  let r := parseParamSfo sfo [] []
  mergeSfo m r (orElse m.localizedTitles r.localizedTitles) (orElse m.defaultLanguage r.defaultLanguage)

/-- `memory` is the data and what lies behind it. -/
def memDialect (memory : Text) : Dialect where
  name := memName memory
  badge json := badgeKeys.any (jsonHasKey json)
  json close json m := memJson json (memory.drop close) m
  sfo := memSfo
  icon _ _ := false

/-- `pkg_parser_parse_mem` on the first bytes of a package of `total` bytes, with
`beyond` behind them in memory. -/
def pkgParserParseMem (data : Text) (total : Nat) (beyond : Text) : Option Detail :=
  if data.length < 0x80 then none
  else if hasMultipartMagic data then
    if isMultipart data then some (multipartDetail (MultipartHeader.parse data) total none) else none
  else ((findCnt data fun cand => total = 0 ∨ cand < total).bind (readCnt data)).bind
    (parseCnt (memDialect (data ++ beyond)) data total)

/-- `smb_client_parse_pkg` on a share file of this content. -/
def smbDialect : Dialect where
  name := fileName
  badge json := badgeKeys.any fun key => (strstr (quoted (ascii key)) json).isSome
  json _ json m := parseParamJson json m
  sfo := fileSfo
  icon _ _ := true

def smbClientParsePkg (d : Text) : Option Detail :=
  if d.length < 0x80 then none
  else if hasMultipartMagic d then none
  else ((findCnt d (· < d.length)).bind (readCnt d)).bind (parseCnt smbDialect d d.length)

end PkgManager.PkgParser
