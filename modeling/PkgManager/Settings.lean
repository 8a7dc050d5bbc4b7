import PkgManager.SmbShare

namespace PkgManager.Settings

open CText ScannerState SmbShare
open PkgMetadata (Text quoted)
open Manifest (escapeJsonStr extractJsonField fieldText flagWord atoi)

def maxSmbShares : Nat := 8

/-- `app_settings_t`. -/
structure AppSettings where
  moveInstalledToEnd : Bool
  fadeInstalledPackages : Bool
  allSourcesMode : Bool
  pkgInstallDebug : Bool
  smbShares : List ShareConfig
  shares_le : smbShares.length ≤ maxSmbShares
  deriving DecidableEq

/-- `g_settings` before anything is loaded. -/
def AppSettings.initial : AppSettings := ⟨true, true, false, false, [], Nat.zero_le _⟩

def moveKey : String := "move_installed_to_end"

def fadeKey : String := "fade_installed_packages"

def sourcesKey : String := "all_sources_mode"

def debugKey : String := "pkg_install_debug"

def sharesKey : String := "smb_shares"

/-! Reading settings. `pkg_cache.c` has `escape_json_str` and `extract_json_field` in the
same words as `pkg_scanner.c`. -/

/-- Where the object in front ends: at a brace outside of strings, unless a bracket
comes first. -/
def objEnd (inStr esc : Bool) : Text → Option Nat
  | [] => none
  | q :: s =>
    if esc then (objEnd inStr false s).map (· + 1)
    else if q = 92 ∧ inStr then (objEnd inStr true s).map (· + 1)
    else if q = 34 then (objEnd (!inStr) false s).map (· + 1)
    else if !inStr ∧ q = 125 then some 0
    else if !inStr ∧ q = 93 then none
    else (objEnd inStr false s).map (· + 1)

def isTrue (val : Text) : Bool := val = ascii "true" || val = ascii "1"

def readPort (val : Text) : Int32 := if 0 < atoi val then atoi val else smbDefaultPort

/-- An object as a share, of which `count` were read before. -/
def readShare (item : Text) (count : Nat) : Option ShareConfig :=
  let enabled := extractJsonField item "enabled" 64
  let s : ShareConfig := {
    enabled := enabled = [] || isTrue enabled
    browseOnly := isTrue (extractJsonField item "browse_only" 64)
    id := fieldText item "id" 32
    label := fieldText item "label" 64
    server := fieldText item "server" 128
    port := readPort (extractJsonField item "port" 64)
    share := fieldText item "share" 128
    path := fieldText item "path" 256
    username := fieldText item "username" 64
    password := fieldText item "password" 64
    workgroup := fieldText item "workgroup" 64
    isReadOnly := isTrue (extractJsonField item "is_read_only" 64) }
  if s.server.text ≠ [] ∧ (s.share.text ≠ [] ∨ s.server.text.any isSlash) then
    some { s with
      id := if s.id.text = [] then CString.of 32 (ascii "smb" ++ decimal count) else s.id }
  else none

/-- An object behind the shares that were read; there is room for eight. -/
def takeShare (shares : List ShareConfig) (item : Text) : List ShareConfig :=
  if shares.length < maxSmbShares then
    match readShare item shares.length with
    | some s => shares ++ [s]
    | none => shares
  else shares

/-- The loop over the objects of the list. -/
def sharesLoop : Nat → List ShareConfig → Text → List ShareConfig
  | 0, shares, _ => shares
  | fuel + 1, shares, arr =>
    if arr = [] ∨ arr.head? = some 93 then shares
    else
      match strchr 123 arr with
      | none => shares
      | some start =>
        match objEnd false false (arr.drop start) with
        | none => shares
        | some len =>
          sharesLoop fuel (takeShare shares ((arr.drop start).take (len + 1)))
            (arr.drop (start + (len + 1)))

/-- `pkg_cache_parse_smb_shares`. -/
def parseSmbShares (buf : Text) : List ShareConfig :=
  match strstr (quoted (ascii sharesKey)) buf with
  | none => []
  | some i =>
    match strchr 91 (buf.drop i) with
    | none => []
    | some j => sharesLoop buf.length [] (buf.drop (i + (j + 1)))

theorem takeShare_le {shares : List ShareConfig} (h : shares.length ≤ maxSmbShares) (item : Text) :
    (takeShare shares item).length ≤ maxSmbShares := by
  unfold takeShare
  split
  · rename_i hlt
    split
    · rw [List.length_append, List.length_singleton]
      exact hlt
    · exact h
  · exact h

theorem sharesLoop_le (fuel : Nat) {shares : List ShareConfig} (h : shares.length ≤ maxSmbShares)
    (arr : Text) : (sharesLoop fuel shares arr).length ≤ maxSmbShares := by
  induction fuel generalizing shares arr with
  | zero => exact h
  | succ fuel ih =>
    rw [sharesLoop]
    split
    · exact h
    · split
      · exact h
      · split
        · exact h
        · exact ih (takeShare_le h _) _

theorem parseSmbShares_le (buf : Text) : (parseSmbShares buf).length ≤ maxSmbShares := by
  unfold parseSmbShares
  split
  · exact Nat.zero_le _
  · split
    · exact Nat.zero_le _
    · exact sharesLoop_le _ (Nat.zero_le _) _

/-- What stands behind a key and its colon. -/
def behindKey (buf : Text) (key : String) : Option Text :=
  (strstr (quoted (ascii key) ++ [58]) buf).map fun i =>
    buf.drop (i + (quoted (ascii key) ++ [58]).length)

/-- The word stands here or one byte on. -/
def wordHere (word : String) (p : Text) : Bool :=
  (ascii word).isPrefixOf p || (ascii word).isPrefixOf (p.drop 1)

/-- `load_settings_from_disk`, from the bytes of the file if there is one. -/
def loadSettingsFromDisk (s : AppSettings) (file : Option Text) : AppSettings :=
  match file with
  | none => s
  | some bytes =>
    let buf := upToNul (bytes.take 16383)
    if bytes = [] then s
    else {
      moveInstalledToEnd :=
        ((behindKey buf moveKey).map (! wordHere "false" ·)).getD s.moveInstalledToEnd
      fadeInstalledPackages :=
        ((behindKey buf fadeKey).map (! wordHere "false" ·)).getD s.fadeInstalledPackages
      allSourcesMode := ((behindKey buf sourcesKey).map (wordHere "true")).getD s.allSourcesMode
      pkgInstallDebug := ((behindKey buf debugKey).map (wordHere "true")).getD s.pkgInstallDebug
      smbShares := parseSmbShares buf
      shares_le := parseSmbShares_le buf }

/-! Writing them. -/

def decimalInt (n : Int32) : Text :=
  if n < 0 then 45 :: decimal n.toInt.natAbs else decimal n.toInt.natAbs

/-- A string of a share, escaped in a buffer of `size` bytes. -/
def strLine {n : Nat} (key : String) (size : Nat) (s : CString n) : Text :=
  quoted (ascii key) ++ ascii ": " ++ ([34] ++ escapeJsonStr size s.text ++ [34])

def wordLine (key : String) (word : Text) : Text := quoted (ascii key) ++ ascii ": " ++ word

def shareText (s : ShareConfig) : Text :=
  ascii "\x7b\n      " ++ List.intercalate (ascii ",\n      ") [
    strLine "id" 128 s.id,
    strLine "label" 256 s.label,
    strLine "server" 256 s.server,
    wordLine "port" (decimalInt s.port),
    strLine "share" 256 s.share,
    strLine "path" 512 s.path,
    strLine "username" 256 s.username,
    strLine "password" 256 s.password,
    strLine "workgroup" 256 s.workgroup,
    wordLine "is_read_only" (flagWord s.isReadOnly),
    wordLine "browse_only" (flagWord s.browseOnly),
    wordLine "enabled" (flagWord s.enabled)] ++ ascii "\n    \x7d"

/-- What stands in front of the shares. -/
def settingsHead (s : AppSettings) : Text :=
  ascii "\x7b\n  " ++ wordLine moveKey (flagWord s.moveInstalledToEnd) ++
    ascii ",\n  " ++ wordLine fadeKey (flagWord s.fadeInstalledPackages) ++
    ascii ",\n  " ++ wordLine sourcesKey (flagWord s.allSourcesMode) ++
    ascii ",\n  " ++ wordLine debugKey (flagWord s.pkgInstallDebug) ++
    ascii ",\n  " ++ wordLine sharesKey (ascii "[\n")

/-- The file `save_settings_to_disk` writes. -/
def saveSettingsToDisk (s : AppSettings) : Text :=
  settingsHead s ++
    Manifest.itemLines (s.smbShares.map fun share => ascii "    " ++ shareText share) ++
    ascii "  ]\n\x7d\n"

end PkgManager.Settings
