import PkgManager.PkgParser

namespace PkgManager.ScannerState

open CText PkgParser
open PkgMetadata (Text)

/-- A C string in an array of `n` bytes. -/
structure CString (n : Nat) where
  text : Text
  fits : text.length < n
  noNul : 0 ∉ text
  deriving DecidableEq

-- the array sizes the structs of the scanner and of the settings use
instance size16 : NeZero 16 := ⟨by decide⟩
instance size32 : NeZero 32 := ⟨by decide⟩
instance size64 : NeZero 64 := ⟨by decide⟩
instance size128 : NeZero 128 := ⟨by decide⟩
instance size256 : NeZero 256 := ⟨by decide⟩
instance size512 : NeZero 512 := ⟨by decide⟩
instance size2048 : NeZero 2048 := ⟨by decide⟩

theorem CString.ext_text {n : Nat} {a b : CString n} (h : a.text = b.text) : a = b := by
  cases a
  cases b
  cases h
  rfl

/-- `strncpy` with the terminator put behind it. -/
def CString.of (n : Nat) [NeZero n] (s : Text) : CString n where
  text := (upToNul s).take (n - 1)
  fits := by
    have hn := Nat.pos_of_neZero n
    rw [List.length_take]
    omega
  noNul := by
    intro h
    have h0 : (0 : UInt8) ∈ s.takeWhile (· ≠ 0) := List.mem_of_mem_take h
    exact absurd (List.mem_takeWhile_imp h0) (by simp)

theorem CString.of_text {n : Nat} [NeZero n] (s : CString n) : CString.of n s.text = s := by
  have hall : upToNul s.text = s.text := by
    refine List.takeWhile_eq_self_iff.mpr fun b hb => ?_
    exact decide_eq_true fun h0 => s.noNul (h0 ▸ hb)
  have hfits := s.fits
  have htake : s.text.take (n - 1) = s.text := List.take_of_length_le (by omega)
  have htext : (CString.of n s.text).text = (upToNul s.text).take (n - 1) := rfl
  exact CString.ext_text (by rw [htext, hall, htake])

theorem CString.text_of_fits {n : Nat} [NeZero n] {t : Text} (hlen : t.length < n) (h0 : 0 ∉ t) :
    (CString.of n t).text = t :=
  congrArg CString.text (CString.of_text ⟨t, hlen, h0⟩)

/-- `pkg_drive_t`. -/
structure Drive where
  id : CString 32
  label : CString 64
  path : CString 256
  type : CString 16
  mounted : Bool
  pkgCount : UInt64
  clickable : Bool
  deriving DecidableEq

/-- `scanned_file_entry_t`. -/
structure ScannedFile where
  path : CString 512
  fileSize : UInt64
  mtime : UInt64
  deriving DecidableEq

/-- `pkg_detail_t`. -/
structure Package where
  path : CString 512
  filename : CString 256
  titleId : CString 32
  titleName : CString 256
  localizedTitles : CString 2048
  defaultLanguage : CString 32
  contentId : CString 64
  appVersion : CString 32
  fileSize : UInt64
  totalPkgSize : UInt64
  iconOffset : UInt64
  iconSize : UInt32
  hasIcon : Bool
  isValid : Bool
  isMultipart : Bool
  partIndex : UInt32
  totalParts : UInt32
  pkgType : PkgType
  pkgTypeStr : CString 16
  category : CString 16
  mtime : UInt64
  blurhash : CString 64
  deriving DecidableEq

def maxPackages : Nat := 4096

def maxDrives : Nat := 16

/-- What the scanner has of drives, files and packages. -/
structure State where
  drives : List Drive
  files : List ScannedFile
  packages : List Package
  drives_le : drives.length ≤ maxDrives
  packages_le : packages.length ≤ maxPackages
  files_named : ∀ f ∈ files, f.path.text ≠ []
  files_nodup : (files.map (·.path)).Nodup

theorem no_drives_le : ([] : List Drive).length ≤ maxDrives := Nat.zero_le _

theorem no_packages_le : ([] : List Package).length ≤ maxPackages := Nat.zero_le _

theorem no_files_named : ∀ f ∈ ([] : List ScannedFile), f.path.text ≠ [] :=
  fun _ hf => absurd hf List.not_mem_nil

theorem no_files_nodup : (([] : List ScannedFile).map (·.path)).Nodup := List.nodup_nil

def State.empty : State :=
  ⟨[], [], [], no_drives_le, no_packages_le, no_files_named, no_files_nodup⟩

def State.addDrive (s : State) (d : Drive) : State :=
  if h : s.drives.length < maxDrives then
    { s with
      drives := s.drives ++ [d]
      drives_le := by rw [List.length_append]; exact h }
  else s

def State.addPackage (s : State) (p : Package) : State :=
  if h : s.packages.length < maxPackages then
    { s with
      packages := s.packages ++ [p]
      packages_le := by rw [List.length_append]; exact h }
  else s

def ScannedFile.update (f e : ScannedFile) : ScannedFile := if e.path = f.path then f else e

/-- The record of a file, in place of the one there is of its path. -/
def putFile (files : List ScannedFile) (f : ScannedFile) : List ScannedFile :=
  if f.path ∈ files.map (·.path) then files.map f.update else files ++ [f]

theorem map_update_path (files : List ScannedFile) (f : ScannedFile) :
    (files.map f.update).map (·.path) = files.map (·.path) := by
  rw [List.map_map]
  refine List.map_congr_left fun e _ => ?_
  show (f.update e).path = e.path
  unfold ScannedFile.update
  by_cases h : e.path = f.path
  · rw [if_pos h, h]
  · rw [if_neg h]

theorem putFile_nodup {files : List ScannedFile} (h : (files.map (·.path)).Nodup) (f : ScannedFile) :
    ((putFile files f).map (·.path)).Nodup := by
  unfold putFile
  by_cases hmem : f.path ∈ files.map (·.path)
  · rw [if_pos hmem, map_update_path]
    exact h
  · rw [if_neg hmem, List.map_append, List.nodup_append]
    refine ⟨h, by simp, fun a ha b hb hab => ?_⟩
    have hb : b = f.path := List.mem_singleton.mp hb
    rw [← hb, ← hab] at hmem
    exact hmem ha

theorem putFile_named {files : List ScannedFile} (h : ∀ e ∈ files, e.path.text ≠ [])
    {f : ScannedFile} (hf : f.path.text ≠ []) : ∀ e ∈ putFile files f, e.path.text ≠ [] := by
  unfold putFile
  intro e he
  by_cases hmem : f.path ∈ files.map (·.path)
  · rw [if_pos hmem] at he
    obtain ⟨e', he', rfl⟩ := List.mem_map.mp he
    unfold ScannedFile.update
    by_cases heq : e'.path = f.path
    · rw [if_pos heq]
      exact hf
    · rw [if_neg heq]
      exact h e' he'
  · rw [if_neg hmem] at he
    rcases List.mem_append.mp he with he | he
    · exact h e he
    · rw [List.mem_singleton.mp he]
      exact hf

/-- `add_scanned_file_locked`. -/
def State.addScannedFile (s : State) (f : ScannedFile) : State :=
  if h : f.path.text = [] then s
  else
    { s with
      files := putFile s.files f
      files_named := putFile_named s.files_named h
      files_nodup := putFile_nodup s.files_nodup f }

/-! The order of the packages. -/

/-- `strcmp`. -/
def strcmp : Text → Text → Int32
  | [], [] => 0
  | [], b :: _ => -Int32.ofNat b.toNat
  | a :: _, [] => Int32.ofNat a.toNat
  | a :: s, b :: t => if a = b then strcmp s t else Int32.ofNat a.toNat - Int32.ofNat b.toNat

def strcasecmp (s t : Text) : Int32 := strcmp (s.map toLower) (t.map toLower)

/-- `%d` of `sscanf`. -/
def scanInt (s : Text) : Option (Int32 × Text) :=
  let t := s.dropWhile isSpace
  let negative := t.head? = some 45
  let u := if t.head? = some 45 ∨ t.head? = some 43 then t.drop 1 else t
  let digits := u.takeWhile isDigit
  if digits = [] then none
  else
    let v := digitsValue digits
    let long : Int := if negative then -(min v (2 ^ 63) : Nat) else (min v (2 ^ 63 - 1) : Nat)
    some (Int32.ofInt long, u.dropWhile isDigit)

/-- `".%d"`. -/
def scanDotInt (s : Text) : Option (Int32 × Text) :=
  if s.head? = some 46 then scanInt (s.drop 1) else none

/-- `parse_version_parts`: major, minor and patch. -/
def parseVersionParts (v : Text) : Int32 × Int32 × Int32 :=
  match scanInt (v.dropWhile fun b => b = 118 ∨ b = 86 ∨ isSpace b) with
  | none => (0, 0, 0)
  | some (a, r) =>
    match scanDotInt r with
    | none => (a, 0, 0)
    | some (b, r) =>
      match scanDotInt r with
      | none => (a, b, 0)
      | some (c, _) => if b = 0 ∧ 0 < c then (a, c, 0) else (a, b, c)

/-- `app_info_compare_versions`. -/
def compareVersions (verA verB : Text) : Int32 :=
  let (majA, minA, patchA) := parseVersionParts verA
  let (majB, minB, patchB) := parseVersionParts verB
  if majA ≠ majB then majA - majB
  else if minA ≠ minB then minA - minB
  else patchA - patchB

/-- `pkg_type_t` as a number. -/
def typeCode : PkgType → Nat
  | .unknown => 0
  | .base => 1
  | .update => 2
  | .dlc => 3

/-- `compare_pkg_by_title_name`. -/
def comparePkgByTitleName (a b : Package) : Int32 :=
  let na := if a.titleName.text = [] then ascii "Unknown Package" else a.titleName.text
  let nb := if b.titleName.text = [] then ascii "Unknown Package" else b.titleName.text
  let cmp := strcasecmp na nb
  if cmp ≠ 0 then cmp
  else if a.pkgType ≠ b.pkgType then Int32.ofNat (typeCode a.pkgType) - Int32.ofNat (typeCode b.pkgType)
  else
    let vcmp := if a.appVersion.text ≠ [] ∧ b.appVersion.text ≠ [] then
      compareVersions a.appVersion.text b.appVersion.text else 0
    if vcmp ≠ 0 then vcmp else strcmp a.path.text b.path.text

/-- `qsort` with that order. -/
def sortPackages (packages : List Package) : List Package :=
  packages.mergeSort fun a b => comparePkgByTitleName a b ≤ 0

theorem sortPackages_perm (packages : List Package) : (sortPackages packages).Perm packages :=
  List.mergeSort_perm packages _

def State.sorted (s : State) : State where
  drives := s.drives
  files := s.files
  packages := sortPackages s.packages
  drives_le := s.drives_le
  packages_le := by rw [(sortPackages_perm s.packages).length_eq]; exact s.packages_le
  files_named := s.files_named
  files_nodup := s.files_nodup

end PkgManager.ScannerState
