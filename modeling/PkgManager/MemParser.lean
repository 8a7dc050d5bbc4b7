import PkgManager.JsonSearch
import PkgManager.PkgParser

namespace PkgManager.MemParser

open CText (ascii)
open BoundedMemory
open PkgMetadata (Text formatVersion scanVersion startsWithV quoted jsonExtractKey)
open PkgParser (PkgType cntMagic fihMagic isDeltaType badgeKeys Entry Strings)
open MultipartHeader (Header)
open SfoBounds (readLe parseParamSfo callerOutputs)
open JsonSearch (extractKey hasKey)

/-! `pkg_parser_parse_mem` on checked memory. Offsets are added in 64 bits. -/

/-- `mem_slice`: the pointer, none where the bytes are not all in the data. -/
def memSlice (data : Region) (off sz : Nat) : Option Region :=
  if sz = 0 ∨ data.length < off then none
  else if data.length < sz ∨ data.length - sz < off then none
  else some (data.drop off)

def wrapped (off : Nat) : Nat := off % 2 ^ 64

def readBe (p : Region) : Checked Nat := do
  let s ← readBytes p 4
  return PkgParser.readBe32 s 0

/-- `memcmp` finds no difference to the magic. -/
def hasMagic (p : Region) (magic : Text) : Checked Bool := do
  let s ← readBytes p magic.length
  return s = magic

/-- `pkg_detail_t`, less the icon, the time and the blurhash, which stay zero. -/
structure Detail where
  path : Region
  filename : Region
  titleId : Region
  titleName : Region
  localizedTitles : Region
  defaultLanguage : Region
  contentId : Region
  appVersion : Region
  fileSize : Nat
  totalPkgSize : Nat
  isValid : Bool
  isMultipart : Bool
  partIndex : Nat
  totalParts : Nat
  pkgType : PkgType
  pkgTypeStr : Region
  category : Region

/-- What `memset` leaves. -/
def Detail.cleared : Detail where
  path := zeros 512
  filename := zeros 256
  titleId := zeros 32
  titleName := zeros 256
  localizedTitles := zeros 2048
  defaultLanguage := zeros 32
  contentId := zeros 64
  appVersion := zeros 32
  fileSize := 0
  totalPkgSize := 0
  isValid := false
  isMultipart := false
  partIndex := 0
  totalParts := 0
  pkgType := .unknown
  pkgTypeStr := zeros 16
  category := zeros 16

/-- What a call returns; the stage is none where it writes none. -/
structure Outcome where
  code : Int
  stage : Option Nat
  out : Detail

/-! Copying to a field. -/

/-- `strncpy` with one byte less than the field has. -/
def copyField (dst src : Region) : Checked Region := strncpy dst 0 src (dst.length - 1)

/-- `snprintf` of a text into a whole field. -/
def printField (dst : Region) (s : Text) : Checked Region := print dst 0 dst.length s

def isEmpty (r : Region) : Checked Bool := do return (← load r 0) = 0

/-- A copy of the first text, or of the other one where it is empty. -/
def copyOr (dst src other : Region) : Checked Region := do
  if ← isEmpty src then copyField dst other else copyField dst src

/-- A copy of a text that is not empty. -/
def copyGiven (dst src : Region) : Checked Region := do
  if ← isEmpty src then return dst else copyField dst src

/-- A copy of a text that is not empty to a field that is. -/
def fillField (dst src : Region) : Checked Region := do
  if ← isEmpty dst then copyGiven dst src else return dst

def fillFrom (dst : Region) : Option Region → Checked Region
  | some src => fillField dst src
  | none => .ok dst

/-! The name of the file. -/

def baseOf (filename : Region) : Checked Region := do
  match ← strchr 47 filename with
  | some slash => return filename.drop (slash + 1)
  | none => return filename

def takeFilename (filename : Region) (out : Detail) : Checked Detail := do
  let base ← baseOf filename
  if ← begins base (ascii "live:") then
    let s ← stringUpTo base 200
    let name ← printField out.filename (s ++ ascii ".pkg")
    let t ← cstring base
    let path ← printField out.path t
    return { out with filename := name, path }
  else
    let name ← copyField out.filename base
    let path ← copyField out.path filename
    return { out with filename := name, path }

def nameFields (out : Detail) : Option Region → Checked Detail
  | none => .ok out
  | some filename => do
    if ← isEmpty filename then return out else takeFilename filename out

/-! A part of a multi-part package. -/

/-- A text of the local header with its last byte set to NUL. -/
def closed (field : Text) : Checked Region := write (ofBytes field) (field.length - 1) [0]

def multipartType (kind : Region) : Checked PkgType := do
  if ← equals kind (ascii "update") then return .update
  else if ← equals kind (ascii "dlc") then return .dlc
  else return .base

def multipartFields (h : Header) (out : Detail) : Checked Detail := do
  let pkgType ← closed h.pkgType
  let id ← closed h.titleId
  let name ← closed h.titleName
  let content ← closed h.contentId
  let version ← closed h.appVersion
  let type ← multipartType pkgType
  let pkgTypeStr ← copyField out.pkgTypeStr (literal (ascii type.str))
  let titleId ← copyOr out.titleId id (literal (ascii "UNKNOWN"))
  let titleName ← copyOr out.titleName name titleId
  let appVersion ← copyGiven out.appVersion version
  let contentId ← copyGiven out.contentId content
  return { out with
    pkgTypeStr, titleId, titleName, appVersion, contentId
    isMultipart := true
    partIndex := h.partIndex
    totalParts := h.totalParts
    pkgType := type
    totalPkgSize := if 0 < h.totalPkgSize then h.totalPkgSize else out.totalPkgSize
    isValid := true }

def parseMultipart (data : Region) (out : Detail) : Checked Outcome :=
  match memSlice data 0 MultipartHeader.headerSize with
  | none => .ok ⟨-1, none, out⟩
  | some mp => do
    let bytes ← readBytes mp MultipartHeader.headerSize
    let h := MultipartHeader.parse bytes
    if MultipartHeader.isValidHeader h then
      let out ← multipartFields h out
      return ⟨0, some 0, out⟩
    else return ⟨-1, none, out⟩

/-! The CNT header. -/

def isCntAt (data : Region) (cand : Nat) : Checked Bool :=
  match memSlice data cand 4 with
  | none => .ok false
  | some t => hasMagic t cntMagic

/-- The candidate at 0x58. -/
def entryCandidate (data : Region) (total : Nat) : Checked (Option Nat) :=
  match memSlice data 0x58 8 with
  | none => .ok none
  | some e58 => do
    let cand ← readLe e58 8
    if 0 < cand ∧ (total = 0 ∨ cand < total) then
      if ← isCntAt data cand then return some cand else return none
    else return none

/-- The loop over the offsets of the header window. -/
def scanCnt (data : Region) (total : Nat) : List Nat → Checked (Option Nat)
  | [] => .ok none
  | off :: offs =>
    if min data.length 0x200 < off + 8 then .ok none
    else
      match memSlice data off 8 with
      | none => .ok none
      | some e => do
        let cand ← readLe e 8
        if 0x10000 ≤ cand ∧ (total = 0 ∨ cand < total) ∧ cand % 0x1000 = 0 then
          if ← isCntAt data cand then return some cand else scanCnt data total offs
        else scanCnt data total offs

def scanOffsets : List Nat := (List.range 62).map (0x10 + 8 * ·)

def findCnt (data hdr : Region) (total : Nat) : Checked (Option Nat) := do
  if ← hasMagic hdr cntMagic then return some 0
  else if ← hasMagic hdr fihMagic then
    match ← entryCandidate data total with
    | some cand => return some cand
    | none => scanCnt data total scanOffsets
  else return none

/-- The loop that cuts the content id at the first byte that is no ASCII text. -/
def cutLoop (r : Region) : List Nat → Checked Region
  | [] => .ok r
  | i :: is => do
    let b ← load r i
    if b < 32 ∨ 126 < b then write r i [0] else cutLoop r is

def takeContentId (dst cid : Region) : Checked Region := do
  let r ← memcpy dst 0 cid 48
  let r ← write r 48 [0]
  cutLoop r (List.range 48)

/-- The place and the size of the string table, zero where there is none. -/
def findStrings (table : Region) : List Nat → Checked (Nat × Nat)
  | [] => .ok (0, 0)
  | i :: is => do
    let e := table.drop (i * 32)
    if (← readBe e) = 0x0200 then
      let off ← readBe (e.drop 16)
      let sz ← readBe (e.drop 20)
      return (off, sz)
    else findStrings table is

/-! The walk over the entries. -/

/-- What the loop works on. -/
structure Walk where
  out : Detail
  hasPlaygoChunkPatch : Bool
  hasDeltaPatch : Bool
  hasBaseAppMetadata : Bool
  hasPs4SfoCategory : Bool

/-- A string table and its size. -/
structure Table where
  text : Region
  size : Nat

def entryName (strings : Option Table) (fnOff : Nat) : Checked Region :=
  match strings with
  | none => .ok (literal [])
  | some t =>
    if fnOff < t.size then do
      let name := t.text.drop fnOff
      let s ← stringUpTo name (t.size - fnOff)
      if s.length < 128 then memcpy (zeros 128) 0 name (s.length + 1) else return literal []
    else .ok (literal [])

/-- The type says so, or the name is one of these. -/
def isEntry (byType : Bool) (name : Region) : List String → Checked Bool
  | [] => .ok byType
  | text :: texts =>
    if byType then .ok true
    else equals name (ascii text) >>= fun same => isEntry same name texts

/-- One of the keys is there. -/
def hasAnyKey (json : Region) (n : Nat) : List String → Checked Bool
  | [] => .ok false
  | key :: keys => do
    if ← hasKey json n key then return true else hasAnyKey json n keys

/-- The value of a key by way of a local array of `max` bytes. -/
def takeKey (json : Region) (n : Nat) (key : String) (max : Nat) (dst : Region) : Checked Region := do
  match ← extractKey json n key (zeros max) with
  | some value => copyField dst value
  | none => return dst

def takeCategory (json : Region) (n : Nat) (dst : Region) : Checked Region := do
  match ← extractKey json n "category" (zeros 16) with
  | some value => if ← isEmpty dst then copyField dst value else return dst
  | none => return dst

/-- The value of the first key that has one. -/
def firstKey (json : Region) (n : Nat) : List String → Checked (Option Region)
  | [] => .ok none
  | key :: keys => do
    match ← extractKey json n key (zeros 32) with
    | some value => return some value
    | none => firstKey json n keys

def versionKeys : List String := ["contentVersion", "appVersion", "version"]

def takeVersion (dst ver : Region) : Checked Region := do
  let s ← cstring ver
  if s = [] then return dst
  else if (scanVersion s).isSome ∨ ¬startsWithV s then printField dst (formatVersion s)
  else copyField dst ver

def versionField (json : Region) (n : Nat) (dst : Region) : Checked Region := do
  match ← firstKey json n versionKeys with
  | some ver => takeVersion dst ver
  | none => return dst

/-- The `param.json` at the pointer. -/
def jsonFields (json : Region) (n : Nat) (w : Walk) : Checked Walk := do
  let badge ← hasAnyKey json n badgeKeys
  let titleId ← takeKey json n "titleId" 32 w.out.titleId
  let titleName ← takeKey json n "titleName" 256 w.out.titleName
  let category ← takeCategory json n w.out.category
  let appVersion ← versionField json n w.out.appVersion
  return { w with
    hasBaseAppMetadata := w.hasBaseAppMetadata || badge
    out := { w.out with titleId, titleName, category, appVersion } }

/-- Whether the category of a `param.sfo` is taken. -/
def givesCategory (dst : Region) : Option Region → Checked Bool
  | some src => do
    if ← isEmpty src then return false else isEmpty dst
  | none => .ok false

/-- The `param.sfo` at the pointer, whose size is below 2 ^ 18: the parser does not
read behind it. -/
def sfoFields (sfo : Region) (n : Nat) (w : Walk) : Checked Walk := do
  let r ← parseParamSfo (sfo.take n) callerOutputs
  let given ← givesCategory w.out.category r.category
  let category ← fillFrom w.out.category r.category
  let titleId ← fillField w.out.titleId r.titleId
  let titleName ← fillField w.out.titleName r.title
  let appVersion ← fillFrom w.out.appVersion r.version
  let localizedTitles ← fillFrom w.out.localizedTitles r.localizedTitles
  let defaultLanguage ← fillFrom w.out.defaultLanguage r.defaultLanguage
  return { w with
    hasPs4SfoCategory := w.hasPs4SfoCategory || given
    out := { w.out with
      category, titleId, titleName, appVersion, localizedTitles, defaultLanguage } }

/-- What is done with the text of a metadata entry. -/
def withText (data : Region) (offset : Nat) (e : Entry) (f : Region → Walk → Checked Walk) (w : Walk) :
    Checked Walk :=
  if 0 < e.dataSize ∧ e.dataSize < 262144 then
    match memSlice data (wrapped (offset + e.dataOff)) e.dataSize with
    | none => .ok w
    | some text => f text w
  else .ok w

def jsonStep (data : Region) (offset : Nat) (e : Entry) (name : Region) (w : Walk) : Checked Walk := do
  if ← isEntry (e.type = 0x2000) name ["param.json"] then
    withText data offset e (fun json => jsonFields json e.dataSize) w
  else return w

def sfoStep (data : Region) (offset : Nat) (e : Entry) (name : Region) (w : Walk) : Checked Walk := do
  if ← isEntry (e.type = 0x1000) name ["param.sfo"] then
    withText data offset e (fun sfo => sfoFields sfo e.dataSize) w
  else return w

def readEntry (table : Region) (i : Nat) : Checked Entry := do
  let e := table.drop (i * 32)
  let type ← readBe e
  let nameOff ← readBe (e.drop 4)
  let dataOff ← readBe (e.drop 16)
  let dataSize ← readBe (e.drop 20)
  return ⟨type, nameOff, dataOff, dataSize⟩

def entryStep (data : Region) (offset : Nat) (table : Region) (strings : Option Table) (w : Walk)
    (i : Nat) : Checked Walk := do
  let e ← readEntry table i
  let name ← entryName strings e.nameOff
  let playgo ← isEntry (e.type = 0x1008) name ["app/playgo-chunk.dat"]
  let delta ← isEntry (e.type = 0x0407 ∨ e.type = 0x0408) name
    ["target-deltainfo.dat", "origin-deltainfo.dat"]
  let w ← jsonStep data offset e name { w with
    hasPlaygoChunkPatch := w.hasPlaygoChunkPatch || playgo
    hasDeltaPatch := w.hasDeltaPatch || delta }
  sfoStep data offset e name w

/-! Behind the walk. -/

/-- `strncmp` finds one of the prefixes. -/
def hasPrefix (category : Region) : List String → Checked Bool
  | [] => .ok false
  | pat :: pats => do
    if ← begins category (ascii pat) then return true else hasPrefix category pats

def baseCategories : List String := ["gd", "bd", "gc", "wt"]

def isDlcCategory (category : Region) : Checked Bool := do
  if ← hasPrefix category ["ac", "al"] then return true else equals category (ascii "addcont")

def classify (typeMagic : Nat) (w : Walk) : Checked PkgType := do
  let category := w.out.category
  if w.hasPlaygoChunkPatch ∨ w.hasDeltaPatch ∨ isDeltaType typeMagic then return .update
  else if ← hasPrefix category ["gp"] then return .update
  else if ← isDlcCategory category then return .dlc
  else
    let base ← hasPrefix category baseCategories
    if w.hasPs4SfoCategory ∧ base then return .base
    else if typeMagic % 256 = 1 ∧ ¬w.hasBaseAppMetadata then return .dlc
    else return .base

/-- The title id of a content id "XX0000-TITLEID_00-...". -/
def idFromContent (titleId contentId : Region) : Checked Region := do
  match ← strchr 45 contentId with
  | none => return titleId
  | some dash =>
    let behind := contentId.drop (dash + 1)
    match ← strchr 95 behind with
    | none => return titleId
    | some len =>
      if len < titleId.length then
        let r ← strncpy titleId 0 behind len
        write r len [0]
      else return titleId

def fallbackId (titleId contentId : Region) : Checked Region := do
  if ← isEmpty titleId then
    if ← isEmpty contentId then return titleId else idFromContent titleId contentId
  else return titleId

def fallbackName (titleName titleId : Region) : Checked Region := do
  if ← isEmpty titleName then
    let s ← cstring titleId
    printField titleName (if s = [] then ascii "Unknown Package" else s)
  else return titleName

def finish (typeMagic : Nat) (w : Walk) : Checked Outcome := do
  let type ← classify typeMagic w
  let pkgTypeStr ← copyField w.out.pkgTypeStr (literal (ascii type.str))
  let titleId ← fallbackId w.out.titleId w.out.contentId
  let titleName ← fallbackName w.out.titleName titleId
  return ⟨0, some 0, { w.out with
    pkgType := type, pkgTypeStr, titleId, titleName, isValid := true }⟩

/-! The whole function. -/

def stringTable (data : Region) (offset : Nat) (place : Nat × Nat) : Option Table :=
  if 0 < place.2 ∧ place.2 < 65536 then
    (memSlice data (wrapped (offset + place.1)) place.2).map fun text => ⟨text, place.2⟩
  else none

def parseEntries (data : Region) (offset typeMagic entryCount : Nat) (table : Region) (out : Detail) :
    Checked Outcome := do
  let place ← findStrings table (List.range entryCount)
  let w ← (List.range entryCount).foldlM
    (entryStep data offset table (stringTable data offset place)) ⟨out, false, false, false, false⟩
  finish typeMagic w

def parseHeader (data : Region) (offset : Nat) (cntHdr : Region) (out : Detail) : Checked Outcome := do
  let typeMagic ← readBe (cntHdr.drop 4)
  match memSlice data (wrapped (offset + 0x40)) 48 with
  | none => return ⟨-1, some 4, out⟩
  | some cid =>
    let contentId ← takeContentId out.contentId cid
    let out := { out with contentId }
    let entryCount ← readBe (cntHdr.drop 0x10)
    let tableOffset ← readBe (cntHdr.drop 0x18)
    if entryCount = 0 ∨ 2048 < entryCount ∨ 0x200000 < tableOffset then return ⟨-1, some 5, out⟩
    else
      match memSlice data (wrapped (offset + tableOffset)) (entryCount * 32) with
      | none => return ⟨-1, some 6, out⟩
      | some table => parseEntries data offset typeMagic entryCount table out

def parseCnt (data : Region) (offset : Nat) (out : Detail) : Checked Outcome :=
  match memSlice data offset 0x80 with
  | none => .ok ⟨-1, some 3, out⟩
  | some cntHdr => do
    if ← hasMagic cntHdr cntMagic then parseHeader data offset cntHdr out
    else return ⟨-1, some 3, out⟩

def parsePackage (data hdr : Region) (total : Nat) (out : Detail) : Checked Outcome := do
  if ← hasMagic data MultipartHeader.magicBytes then parseMultipart data out
  else
    match ← findCnt data hdr total with
    | none => return ⟨-1, some 2, out⟩
    | some offset => parseCnt data offset out

/-- `pkg_parser_parse_mem`; a null pointer as the name is none. -/
def pkgParserParseMem (data : Region) (total : Nat) (filename : Option Region) (out : Detail) :
    Checked Outcome :=
  if data.length = 0 then .ok ⟨-1, some 1, out⟩
  else do
    let out ← nameFields Detail.cleared filename
    let out := { out with fileSize := total, totalPkgSize := total }
    match memSlice data 0 0x80 with
    | none => return ⟨-1, some 1, out⟩
    | some hdr => parsePackage data hdr total out

end PkgManager.MemParser
