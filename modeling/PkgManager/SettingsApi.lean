import PkgManager.Settings

namespace PkgManager.SettingsApi

open CText ScannerState SmbShare Settings
open PkgMetadata (Text quoted)
open Manifest (flagWord)

/-! `GET /api/settings`. -/

def hexDigit (n : Nat) : UInt8 := if n < 10 then UInt8.ofNat (48 + n) else UInt8.ofNat (87 + n)

def escapeByte (c : UInt8) : Text :=
  if c = 34 ∨ c = 92 then [92, c]
  else if c = 10 then [92, 110]
  else if c = 13 then [92, 114]
  else if c = 9 then [92, 116]
  else if c < 32 then [92, 117, 48, 48, hexDigit (c.toNat / 16), hexDigit (c.toNat % 16)]
  else [c]

/-- The loop of `json_str_esc`, with `d` bytes of the buffer written. -/
def escapeLoop (dstSz : Nat) : Nat → Text → Text
  | _, [] => []
  | d, c :: s =>
    if c ≠ 0 ∧ d + 6 < dstSz then escapeByte c ++ escapeLoop dstSz (d + (escapeByte c).length) s
    else []

/-- `json_str_esc` into a buffer of `dstSz` bytes. -/
def jsonStrEsc (dstSz : Nat) (s : Text) : Text := escapeLoop dstSz 0 s

def strField {n : Nat} (key : String) (size : Nat) (s : CString n) : Text :=
  quoted (ascii key) ++ [58] ++ ([34] ++ jsonStrEsc size s.text ++ [34])

def wordField (key : String) (word : Text) : Text := quoted (ascii key) ++ [58] ++ word

/-- A share as the page gets it: without its password. -/
def shareJson (s : ShareConfig) : Text :=
  ascii "\x7b" ++ List.intercalate (ascii ",") [
    strField "id" 64 s.id,
    strField "label" 128 s.label,
    strField "server" 256 s.server,
    wordField "port" (decimalInt s.port),
    strField "share" 256 s.share,
    strField "path" 512 s.path,
    strField "username" 128 s.username,
    wordField "password" (quoted []),
    wordField "has_password" (flagWord (s.password.text ≠ [])),
    strField "workgroup" 128 s.workgroup,
    wordField "is_read_only" (flagWord s.isReadOnly),
    wordField "browse_only" (flagWord s.browseOnly),
    wordField "enabled" (flagWord s.enabled)] ++ ascii "\x7d"

/-- `shares_json` and its fill: what a share that does not fit leaves behind the fill
stays there until the next one is written over it. -/
structure SharesBuffer where
  written : Text
  spill : Text

def sharesJsonSize : Nat := 8192

/-- `snprintf` behind what is written; the position moves where all of it fits. -/
def SharesBuffer.put (b : SharesBuffer) (item : Text) : SharesBuffer :=
  if item ≠ [] ∧ b.written.length + item.length < sharesJsonSize then ⟨b.written ++ item, []⟩
  else ⟨b.written, item.take (sharesJsonSize - b.written.length - 1)⟩

def putShares : Nat → SharesBuffer → List ShareConfig → SharesBuffer
  | _, b, [] => b
  | i, b, s :: shares => putShares (i + 1) (b.put ((if 0 < i then [44] else []) ++ shareJson s)) shares

/-- The body of the answer. -/
def getSettings (s : AppSettings) : Text :=
  let b := putShares 0 ⟨[], []⟩ s.smbShares
  (ascii "\x7b" ++ List.intercalate (ascii ",") [
    wordField moveKey (flagWord s.moveInstalledToEnd),
    wordField fadeKey (flagWord s.fadeInstalledPackages),
    wordField sourcesKey (flagWord s.allSourcesMode),
    wordField debugKey (flagWord s.pkgInstallDebug),
    wordField sharesKey ([91] ++ (b.written ++ b.spill) ++ [93])] ++ ascii "\x7d").take
      (b.written.length + 1023)

/-! `POST /api/settings`. -/

/-- A flag the handler looks for as `false` first. -/
def offFlag (body : Text) (key : String) (old : Bool) : Bool :=
  match behindKey body key with
  | none => old
  | some p => if wordHere "false" p then false else if wordHere "true" p then true else old

/-- A flag it looks for as `true` first. -/
def onFlag (body : Text) (key : String) (old : Bool) : Bool :=
  match behindKey body key with
  | none => old
  | some p => if wordHere "true" p then true else if wordHere "false" p then false else old

def editFlags (body : Text) (s : AppSettings) : AppSettings :=
  { s with
    moveInstalledToEnd := offFlag body moveKey s.moveInstalledToEnd
    fadeInstalledPackages := offFlag body fadeKey s.fadeInstalledPackages
    allSourcesMode := onFlag body sourcesKey s.allSourcesMode
    pkgInstallDebug := onFlag body debugKey s.pkgInstallDebug }

def listsShares (body : Text) : Bool := (strstr (quoted (ascii sharesKey)) body).isSome

/-- The stored share a posted one without a password stands for. -/
def sameShare (s old : ShareConfig) : Bool :=
  s.id.text ≠ [] && old.id.text ≠ [] && s.id.text = old.id.text ||
    old.server.text ≠ [] && sameText s.server.text old.server.text &&
      sameText s.share.text old.share.text && sameText s.username.text old.username.text

def keepPassword (old : List ShareConfig) (s : ShareConfig) : ShareConfig :=
  if s.password.text ≠ [] then s
  else
    match old.find? fun o => sameShare s (sanitizeConfig o) && o.password.text ≠ [] with
    | some o => { s with password := o.password }
    | none => s

/-- The list of the body in place of the shares, with the passwords of `old`. -/
def editShares (body : Text) (old s : AppSettings) : AppSettings :=
  { s with
    smbShares := (parseSmbShares body).map fun share => keepPassword old.smbShares (sanitizeConfig share)
    shares_le := by
      rw [List.length_map]
      exact parseSmbShares_le body }

/-- The whole request at once: `data` is the body as it came, if there was one. -/
def postSettings (data : Option Text) (s : AppSettings) : AppSettings :=
  match data with
  | none => s
  | some data =>
    let body := upToNul data
    if listsShares body then editShares body s (editFlags body s) else editFlags body s

end PkgManager.SettingsApi
