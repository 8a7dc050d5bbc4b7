import PkgManager.Manifest

namespace PkgManager.SmbShare

open CText ScannerState
open PkgMetadata (Text)

def smbDefaultPort : Int32 := 445

/-- `smb_share_config_t`. -/
structure ShareConfig where
  enabled : Bool
  browseOnly : Bool
  id : CString 32
  label : CString 64
  server : CString 128
  port : Int32
  share : CString 128
  path : CString 256
  username : CString 64
  password : CString 64
  workgroup : CString 64
  isReadOnly : Bool
  deriving DecidableEq

/-! `smb_client_sanitize_config`. -/

def isGap (b : UInt8) : Bool := b = 32 || b = 9

def isSpaceByte (b : UInt8) : Bool := b = 32 || b = 9 || b = 13 || b = 10

def isSlash (b : UInt8) : Bool := b = 47 || b = 92

def isEdge (b : UInt8) : Bool := isSpaceByte b || isSlash b

/-- `strrchr`. -/
def strrchr (c : UInt8) (s : Text) : Option Nat :=
  (s.reverse.findIdx? (· = c)).map fun i => s.length - 1 - i

/-- The server without blanks, `smb://` and slashes around it. -/
def cleanServer (server : Text) : Text :=
  let s := server.dropWhile isSpaceByte
  let s := if sameText (s.take 6) (ascii "smb://") then s.drop 6 else s
  (s.dropWhile isSlash).rdropWhile isEdge

/-- What stands in the server behind its host: a share, and a path in it. -/
def extraParts (srv : Text) : Text × Text :=
  let extra := ((srv.dropWhile (! isSlash ·)).drop 1).dropWhile isSlash
  (extra.takeWhile (! isSlash ·), ((extra.dropWhile (! isSlash ·)).drop 1).dropWhile isSlash)

/-- Where the port of a host begins: at its only colon, or behind a bracket. -/
def portColon (host : Text) : Option Nat :=
  match strchr 58 host, strrchr 58 host with
  | some first, some last =>
    if first = last then some first
    else
      match strrchr 93 host with
      | some bracket => if bracket < last then some last else none
      | none => none
  | _, _ => none

/-- The host without its port, and the port of the share. -/
def splitPort (host : Text) (port : Int32) : Text × Int32 :=
  match portColon host with
  | none => (host, port)
  | some colon =>
    let digits := host.drop (colon + 1)
    if 0 < colon ∧ digits.all isDigit ∧ digits ≠ [] then
      let p := Manifest.atoi digits
      (host.take colon, if 0 < p ∧ (port ≤ 0 ∨ port = smbDefaultPort) then p else port)
    else (host, port)

/-- The loop that makes one slash of several: `room` bytes are left, and `last` is
the one before. -/
def joinSlashes : Nat → UInt8 → Text → Text
  | 0, _, _ => []
  | _, _, [] => []
  | room + 1, last, c :: s =>
    let ch := if c = 92 then 47 else c
    if ch = 47 ∧ last = 47 then joinSlashes (room + 1) last s else ch :: joinSlashes room ch s

def cleanPath (path : Text) : Text := (joinSlashes 255 0 (path.dropWhile isEdge)).rdropWhile isEdge

/-- The path in front of which the one of the server stands. -/
def joinPaths (sub path : Text) : Text :=
  if sub = [] then path
  else if path = [] then sub
  else (sub ++ [47] ++ path).take 255

def cleanName (s : Text) : Text := (s.dropWhile isGap).rdropWhile isSpaceByte

def sanitizeConfig (cfg : ShareConfig) : ShareConfig :=
  let srv := cleanServer cfg.server.text
  let (extractedShare, subpath) := extraParts srv
  let (host, port) := splitPort (srv.takeWhile (! isSlash ·)) cfg.port
  let share := if cfg.share.text = [] then extractedShare else cfg.share.text
  let workgroup := cleanName cfg.workgroup.text
  { cfg with
    server := CString.of 128 host
    port := if port ≤ 0 then smbDefaultPort else port
    share := CString.of 128 ((share.dropWhile isEdge).rdropWhile isEdge)
    path := CString.of 256 (joinPaths (cleanPath subpath) (cleanPath cfg.path.text))
    username := CString.of 64 (cleanName cfg.username.text)
    workgroup := CString.of 64 (if workgroup = [] then ascii "WORKGROUP" else workgroup) }

end PkgManager.SmbShare
