import PkgManager.ScannerState

namespace PkgManager.Manifest

open CText PkgParser ScannerState
open PkgMetadata (Text quoted)

/-! Writing the manifest. -/

def escapeByte (c : UInt8) : Text :=
  if c = 34 ∨ c = 92 then [92, c]
  else if c = 10 then [92, 110]
  else if c = 13 then [92, 114]
  else if c = 9 then [92, 116]
  else if 32 ≤ c then [c]
  else []

/-- The loop of `escape_json_str`, with `d` bytes of the buffer written. -/
def escapeLoop (dstMax : Nat) : Nat → Text → Text
  | _, [] => []
  | d, c :: s =>
    if c ≠ 0 ∧ d + 2 < dstMax then
      escapeByte c ++ escapeLoop dstMax (d + (escapeByte c).length) s
    else []

/-- `escape_json_str` into a buffer of `dstMax` bytes. -/
def escapeJsonStr (dstMax : Nat) (s : Text) : Text := escapeLoop dstMax 0 s

/-- A field of a string, which is escaped in a buffer of twice its size. -/
def strField {n : Nat} (colon key : String) (s : CString n) : Text :=
  quoted (ascii key) ++ ascii colon ++ ([34] ++ escapeJsonStr (2 * n) s.text ++ [34])

def wordField (colon key : String) (word : Text) : Text :=
  quoted (ascii key) ++ ascii colon ++ word

def flagNumber (b : Bool) : Text := decimal (if b then 1 else 0)

def flagWord (b : Bool) : Text := if b then ascii "true" else ascii "false"

def driveText (d : Drive) : Text :=
  ascii "    \x7b" ++ List.intercalate (ascii ",") [
    strField ":" "id" d.id,
    strField ":" "label" d.label,
    strField ":" "path" d.path,
    strField ":" "type" d.type,
    wordField ":" "mounted" (flagNumber d.mounted),
    wordField ":" "pkg_count" (decimal d.pkgCount.toNat)] ++ ascii "\x7d"

def fileText (f : ScannedFile) : Text :=
  ascii "    \x7b" ++ List.intercalate (ascii ",") [
    strField ":" "path" f.path,
    wordField ":" "file_size" (decimal f.fileSize.toNat),
    wordField ":" "mtime" (decimal f.mtime.toNat)] ++ ascii "\x7d"

def packageText (p : Package) : Text :=
  ascii "    \x7b\n      " ++ List.intercalate (ascii ",\n      ") [
    strField ": " "path" p.path,
    strField ": " "filename" p.filename,
    strField ": " "title_id" p.titleId,
    strField ": " "title_name" p.titleName,
    strField ": " "localized_titles" p.localizedTitles,
    strField ": " "default_language" p.defaultLanguage,
    strField ": " "content_id" p.contentId,
    strField ": " "app_version" p.appVersion,
    wordField ": " "file_size" (decimal p.fileSize.toNat),
    wordField ": " "total_pkg_size"
      (decimal (if 0 < p.totalPkgSize then p.totalPkgSize else p.fileSize).toNat),
    wordField ": " "icon_offset" (decimal p.iconOffset.toNat),
    wordField ": " "icon_size" (decimal p.iconSize.toNat),
    wordField ": " "has_icon" (flagWord p.hasIcon),
    wordField ": " "is_valid" (flagWord p.isValid),
    wordField ": " "is_multipart" (flagWord p.isMultipart),
    wordField ": " "part_index" (decimal p.partIndex.toNat),
    wordField ": " "total_parts" (decimal p.totalParts.toNat),
    wordField ": " "pkg_type" (decimal (typeCode p.pkgType)),
    strField ": " "pkg_type_str" p.pkgTypeStr,
    strField ": " "category" p.category,
    wordField ": " "mtime" (decimal p.mtime.toNat),
    strField ": " "blurhash" p.blurhash] ++ ascii "\n    \x7d"

/-- The items of an array, one behind the other. -/
def itemLines : List Text → Text
  | [] => []
  | [item] => item ++ ascii "\n"
  | item :: items => item ++ ascii ",\n" ++ itemLines items

def manifestVersion : Nat := 3

/-- The file `save_manifest_locked` writes. -/
def saveManifest (s : State) : Text :=
  ascii "\x7b\n  \"version\": " ++ decimal manifestVersion ++
    ascii ",\n  \"drives\": [\n" ++ itemLines (s.drives.map driveText) ++
    ascii "  ],\n  \"files\": [\n" ++ itemLines (s.files.map fileText) ++
    ascii "  ],\n  \"packages\": [\n" ++ itemLines (s.packages.map packageText) ++
    ascii "  ]\n\x7d\n"

/-! Reading it. -/

/-- A string behind its opening quote, in what room the buffer has. -/
def fieldString : Nat → Text → Text
  | 0, _ => []
  | n + 1, 92 :: c :: s => c :: fieldString n s
  | n + 1, c :: s => if c = 34 then [] else c :: fieldString n s
  | _ + 1, [] => []

/-- Where a word that stands without quotes ends. -/
def endsWord (b : UInt8) : Bool := b = 44 || b = 125 || b = 10 || b = 13 || b = 32

/-- The value a field has from here on. -/
def fieldValue (outMax : Nat) (p : Text) : Text :=
  if p.head? = some 34 then fieldString (outMax - 1) (p.drop 1)
  else (p.takeWhile (! endsWord ·)).take (outMax - 1)

/-- `extract_json_field` into a buffer of `outMax` bytes. -/
def extractJsonField (json : Text) (key : String) (outMax : Nat) : Text :=
  let searchKey := quoted (ascii key) ++ [58]
  match strstr searchKey json with
  | none => []
  | some i =>
    fieldValue outMax ((json.drop (i + searchKey.length)).dropWhile fun b => b = 32 ∨ b = 9)

/-- The loop of `find_matching_pair`: how far the closing byte is. -/
def pairLoop (opening closing : UInt8) (depth : Nat) (inStr esc : Bool) : Text → Option Nat
  | [] => none
  | b :: s =>
    if esc then (pairLoop opening closing depth inStr false s).map (· + 1)
    else if b = 92 ∧ inStr then (pairLoop opening closing depth inStr true s).map (· + 1)
    else if b = 34 then (pairLoop opening closing depth (!inStr) false s).map (· + 1)
    else if inStr then (pairLoop opening closing depth inStr false s).map (· + 1)
    else if b = opening then (pairLoop opening closing (depth + 1) inStr false s).map (· + 1)
    else if b = closing then
      if depth = 1 then some 0
      else (pairLoop opening closing (depth - 1) inStr false s).map (· + 1)
    else (pairLoop opening closing depth inStr false s).map (· + 1)

/-- `find_matching_pair`. -/
def findMatchingPair (opening closing : UInt8) (s : Text) : Option Nat :=
  if s.head? = some opening then pairLoop opening closing 0 false false s else none

def isBlank (b : UInt8) : Bool := b = 32 || b = 9 || b = 13 || b = 10 || b = 44

/-- The loop over the objects of an array, of which `left` bytes are left from `p`
on; `full` says that there is no room for another. -/
def arrayLoop (full : State → Bool) (take : State → Text → State) :
    Nat → State → Text → Nat → State
  | 0, s, _, _ => s
  | fuel + 1, s, p, left =>
    if left = 0 ∨ full s then s
    else
      let blanks := ((p.take left).takeWhile isBlank).length
      let p := p.drop blanks
      let left := left - blanks
      if left = 0 ∨ p.head? = some 93 then s
      else if p.head? = some 123 then
        match findMatchingPair 123 125 p with
        | none => s
        | some objEnd =>
          if left < objEnd then s
          else arrayLoop full take fuel (take s (p.take (objEnd + 1))) (p.drop (objEnd + 1))
            (left - (objEnd + 1))
      else arrayLoop full take fuel s (p.drop 1) (left - 1)

/-- The first bracket behind the first occurrence of a key. -/
def arrayStart (buf key : Text) : Option Text :=
  match strstr (quoted key) buf with
  | none => none
  | some i => (strchr 91 (buf.drop i)).map fun j => buf.drop (i + j)

/-- What stands behind the bracket, and how much of it up to the one that closes it. -/
def findArray (buf : Text) (key : String) : Option (Text × Nat) :=
  (arrayStart buf (ascii key)).bind fun start =>
    (findMatchingPair 91 93 start).map fun arrEnd => (start.drop 1, arrEnd - 1)

def readArray (full : State → Bool) (take : State → Text → State) (buf : Text) (key : String)
    (s : State) : State :=
  match findArray buf key with
  | none => s
  | some (p, left) => arrayLoop full take (left + 1) s p left

/-- `atoi`. -/
def atoi (s : Text) : Int32 := ((scanInt s).map (·.1)).getD 0

def fieldText (item : Text) (key : String) (n : Nat) [NeZero n] : CString n :=
  CString.of n (extractJsonField item key n)

/-- A number of a field, read by `strtoull` or `strtoul`. -/
def fieldNumber (item : Text) (key : String) : Nat := (strtoul (extractJsonField item key 64)).1

def fieldFlag (item : Text) (key : String) : Bool :=
  extractJsonField item key 64 = ascii "true" || extractJsonField item key 64 = ascii "1"

def readDrive (item : Text) : Drive where
  id := fieldText item "id" 32
  label := fieldText item "label" 64
  path := fieldText item "path" 256
  type := fieldText item "type" 16
  mounted := atoi (extractJsonField item "mounted" 64) ≠ 0
  pkgCount := UInt64.ofNat (fieldNumber item "pkg_count")
  clickable := 0 < UInt64.ofNat (fieldNumber item "pkg_count")

def takeDrive (s : State) (item : Text) : State :=
  if item.length < 1024 then s.addDrive (readDrive item) else s

def readFile (item : Text) : ScannedFile where
  path := fieldText item "path" 512
  fileSize := UInt64.ofNat (fieldNumber item "file_size")
  mtime := UInt64.ofNat (fieldNumber item "mtime")

def takeFile (s : State) (item : Text) : State :=
  if item.length < 1024 then s.addScannedFile (readFile item) else s

/-- The package type of a number. -/
def typeOfCode (n : Int32) : PkgType :=
  if n = 1 then .base else if n = 2 then .update else if n = 3 then .dlc else .unknown

def readPackage (item : Text) : Package where
  path := fieldText item "path" 512
  filename := fieldText item "filename" 256
  titleId := fieldText item "title_id" 32
  titleName := fieldText item "title_name" 256
  localizedTitles := fieldText item "localized_titles" 2048
  defaultLanguage := fieldText item "default_language" 32
  contentId := fieldText item "content_id" 64
  appVersion := fieldText item "app_version" 32
  fileSize := UInt64.ofNat (fieldNumber item "file_size")
  totalPkgSize := UInt64.ofNat
    (if extractJsonField item "total_pkg_size" 64 ≠ [] then fieldNumber item "total_pkg_size"
    else fieldNumber item "file_size")
  iconOffset := UInt64.ofNat (fieldNumber item "icon_offset")
  iconSize := UInt32.ofNat (fieldNumber item "icon_size")
  hasIcon := fieldFlag item "has_icon"
  isValid := fieldFlag item "is_valid"
  isMultipart := fieldFlag item "is_multipart"
  partIndex := UInt32.ofNat (fieldNumber item "part_index")
  totalParts := UInt32.ofNat (fieldNumber item "total_parts")
  pkgType := typeOfCode (atoi (extractJsonField item "pkg_type" 64))
  pkgTypeStr := fieldText item "pkg_type_str" 16
  category := fieldText item "category" 16
  mtime := UInt64.ofNat (fieldNumber item "mtime")
  blurhash := fieldText item "blurhash" 64

def takePackage (s : State) (item : Text) : State := s.addPackage (readPackage item)

/-- `load_manifest_locked`, where `none` is a failure that leaves the state as it was. -/
def loadManifest (file : Text) : Option State :=
  if file.length ≤ 10 ∨ 10 * 1024 * 1024 < file.length then none
  else
    let buf := upToNul file
    if atoi (extractJsonField buf "version" 16) ≠ Int32.ofNat manifestVersion then none
    else
      let s := readArray (fun s => maxDrives ≤ s.drives.length) takeDrive buf "drives" .empty
      let s := readArray (fun _ => false) takeFile buf "files" s
      let s := readArray (fun s => maxPackages ≤ s.packages.length) takePackage buf "packages" s
      some s.sorted

end PkgManager.Manifest
