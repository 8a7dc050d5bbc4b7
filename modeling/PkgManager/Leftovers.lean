import PkgManager.FileTree
import PkgManager.PkgMetadata

namespace PkgManager.Leftovers

open CText
open FileTree (FileSystem Place)
open PkgMetadata (Text)

/-! `rmdir_recursive_depth`. -/

/-- What the console's database and the parameter files say of titles. -/
structure AppInfo where
  partiallyInstalled : Text → Bool
  registered : Text → Bool
  readsVersion : FileSystem → Text → Bool

def isAlnum (b : UInt8) : Bool :=
  (48 ≤ b && b ≤ 57) || (65 ≤ b && b ≤ 90) || (97 ≤ b && b ≤ 122)

def escapeJsonByte (c : UInt8) : Text :=
  if c = 34 then [92, 34]
  else if c = 92 then [92, 92]
  else if c = 10 then [92, 110]
  else if c = 13 then [92, 114]
  else if c = 9 then [92, 116]
  else if 32 ≤ c ∧ c ≤ 126 then [c]
  else [32]

/-- `escape_json_str` with the room left in the buffer. -/
def escapeJsonStr : Nat → Text → Text
  | _, [] => []
  | room, c :: s =>
    if 2 < room then escapeJsonByte c ++ escapeJsonStr (room - (escapeJsonByte c).length) s else []

def failure (text : String) : Text := ascii "\x7b\"success\":false,\"error\":\"" ++ ascii text ++ ascii "\"\x7d"

end PkgManager.Leftovers
