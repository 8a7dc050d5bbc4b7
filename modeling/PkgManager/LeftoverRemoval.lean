import PkgManager.Leftovers

namespace PkgManager.LeftoverRemoval

open CText Leftovers
open FileTree (FileSystem Place Kind IsName)
open FileTree.FileSystem
open PkgMetadata (Text)

variable {fs s : FileSystem} {T d l : Place} {path name : Text}

/-! The path in the buffer. A name that does not fit is cut, and may then be empty, or one
of the names of the directory itself and of the one above. -/

/-- The directory of a path is in `T`, and deep in it where the path is long: a path that
is not full is not long enough to be cut behind the root. -/
structure Inside (T : Place) (path : Text) (d : Place) : Prop where
  below : T <+: d
  short : path.length ≤ 1023
  deep : path.length = 1023 ∨ path.length + 256 * T.length ≤ 511 + 256 * d.length

variable {roots : Roots} {info : AppInfo} {id root : Text}

end PkgManager.LeftoverRemoval
