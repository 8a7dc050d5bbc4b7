import PkgManager.ManifestRecords
import PkgManager.SettingsRoundTrip

namespace PkgManager.DetailCache

open CText ScannerState EscapedText SettingsFields ManifestScan
open PkgMetadata (Text quoted)
open Manifest (extractJsonField fieldText fieldString fieldValue atoi typeOfCode flagWord)
open ManifestRecords (writtenTotal)
open Settings (strLine wordLine)

/-! The details of a package in a directory of the cache. -/

/-- `snprintf` of a text into `n` bytes. -/
def snprintf (n : Nat) (s : Text) : Text := s.take (n - 1)

/-- What the calls of the file system answer: a directory is there or can be made, a file is
opened for writing, is flushed, is moved. `PATH_MAX` is 1024: no longer path is opened. -/
structure Calls where
  makes : Text → Bool
  opens : Text → Bool
  flushes : Text → Bool
  renames : Text → Text → Bool
  opens_short : ∀ p, opens p = true → p.length < 1024

/-- The files and what is in them. -/
abbrev Disk := Text → Option Text

def Disk.put (disk : Disk) (p : Text) (content : Option Text) : Disk :=
  fun q => if q = p then content else disk q

def value (json : Text) (key : String) : Text := extractJsonField json key 512

def number (json : Text) (key : String) : Nat := (strtoul (value json key)).1

def flag (json : Text) (key : String) : Bool :=
  value json key = ascii "true" || value json key = ascii "1"

/-- The record `pkg_cache_lookup` reads. -/
def readDetail (json : Text) (iconCached : Bool) : Package where
  path := .of 512 []
  filename := .of 256 []
  titleId := fieldText json "title_id" 32
  titleName := fieldText json "title_name" 256
  localizedTitles := fieldText json "localized_titles" 2048
  defaultLanguage := fieldText json "default_language" 32
  contentId := fieldText json "content_id" 64
  appVersion := fieldText json "app_version" 32
  fileSize := UInt64.ofNat (number json "file_size")
  totalPkgSize := UInt64.ofNat (if value json "total_pkg_size" ≠ [] then number json "total_pkg_size"
    else number json "file_size")
  iconOffset := UInt64.ofNat (number json "icon_offset")
  iconSize := UInt32.ofNat (number json "icon_size")
  hasIcon := flag json "has_icon" || iconCached
  isValid := true
  isMultipart := flag json "is_multipart"
  partIndex := UInt32.ofNat (number json "part_index")
  totalParts := UInt32.ofNat (number json "total_parts")
  pkgType := typeOfCode (atoi (value json "pkg_type"))
  pkgTypeStr := fieldText json "pkg_type_str" 16
  category := fieldText json "category" 16
  mtime := UInt64.ofNat (number json "mtime")
  blurhash := fieldText json "blurhash" 64

/-- There is an icon in the directory of the cache. -/
def iconCached (disk : Disk) (dir checksum : Text) : Bool :=
  (disk (snprintf 1024 (dir ++ [47] ++ checksum ++ ascii "/icon.png"))).any (· ≠ [])

/-- A record of a package that could not be read when it was stored. -/
def Unknown (d : Package) : Prop := d.titleId.text = [] ∧ d.titleName.text = ascii "Unknown Package"

instance (d : Package) : Decidable (Unknown d) := inferInstanceAs (Decidable (_ ∧ _))

/-- `pkg_cache_lookup`; a file that does not fit its buffer is none. -/
def lookup (disk : Disk) (dir checksum : Text) : Option Package :=
  match disk (snprintf 1024 (dir ++ [47] ++ checksum ++ ascii "/meta.json")) with
  | none => none
  | some content =>
    if 8191 ≤ content.length ∨ content = [] then none
    else
      let d := readDetail (upToNul content) (iconCached disk dir checksum)
      if Unknown d then none else some d

/-! The text as entries, behind which the blurhash stands as it is. -/

open SettingsRoundTrip (strEntry wordEntry strLine_eq wordLine_eq onDisk onDisk_proper reread
  decimal_isWord flagWord_isWord length_strLine_le length_wordLine reread_eq_iff)

def entries (d : Package) : List Entry := [
  strEntry "title_id" d.titleId, strEntry "title_name" d.titleName,
  strEntry "localized_titles" d.localizedTitles, strEntry "default_language" d.defaultLanguage,
  strEntry "content_id" d.contentId, strEntry "app_version" d.appVersion,
  wordEntry "file_size" (decimal d.fileSize.toNat),
  wordEntry "total_pkg_size" (decimal (writtenTotal d).toNat),
  wordEntry "icon_offset" (decimal d.iconOffset.toNat),
  wordEntry "icon_size" (decimal d.iconSize.toNat),
  wordEntry "has_icon" (flagWord d.hasIcon), wordEntry "is_multipart" (flagWord d.isMultipart),
  wordEntry "part_index" (decimal d.partIndex.toNat),
  wordEntry "total_parts" (decimal d.totalParts.toNat),
  wordEntry "pkg_type" (decimal (typeCode d.pkgType)), strEntry "pkg_type_str" d.pkgTypeStr,
  strEntry "category" d.category, wordEntry "mtime" (decimal d.mtime.toNat)]

section Reading

variable (d : Package) (blurhash : Text)

end Reading

/-! The blurhash. -/

/-- What is read of a record that is stored: nothing where it is unknown. -/
def cached (d : Package) (iconCached : Bool) : Option Package :=
  if Unknown d then none
  else some { d with
    path := .of 512 []
    filename := .of 256 []
    totalPkgSize := writtenTotal d
    hasIcon := d.hasIcon || iconCached
    isValid := true }

/-- Calls that all succeed where the path is not too long. -/
def working : Calls := ⟨fun _ => true, fun p => p.length < 1024, fun _ => true, fun _ _ => true, by simp⟩

end PkgManager.DetailCache
