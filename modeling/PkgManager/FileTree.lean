import Mathlib

namespace PkgManager.FileTree

abbrev Name := List UInt8

/-- Where an entry physically is: the names on the way from the root, none of them a link. -/
abbrev Place := List Name

inductive Kind where
  | file
  | link (target : Name)
  | dir (opens : Bool)
  deriving DecidableEq

structure Entry where
  kind : Kind
  size : UInt64
  deriving DecidableEq

def Entry.isDir (e : Entry) : Bool :=
  match e.kind with
  | .dir _ => true
  | _ => false

def rootDir : Entry := ⟨.dir true, 0⟩

def lookup (entries : List (Place × Entry)) (l : Place) : Option Entry :=
  if l = [] then some rootDir else (entries.find? (·.1 = l)).map (·.2)

/-- A name in a directory. -/
abbrev IsName (n : Name) : Prop := n ≠ [] ∧ n ≠ [46] ∧ n ≠ [46, 46] ∧ 47 ∉ n ∧ n.length ≤ 255

/-- Every entry stands in a directory. -/
structure FileSystem where
  entries : List (Place × Entry)
  placed : ∀ e ∈ entries, e.1 ≠ [] ∧ (lookup entries e.1.dropLast).any Entry.isDir = true
  named : ∀ e ∈ entries, ∀ n ∈ e.1, IsName n

namespace FileSystem

variable {fs fs' : FileSystem} {l : Place} {path : Name}

def entryAt (fs : FileSystem) (l : Place) : Option Entry := lookup fs.entries l

def components (path : Name) : List Name := path.splitOn 47

/-- What a name stands for in a directory. -/
def child (l : Place) (n : Name) : Place :=
  if n = [] ∨ n = [46] then l else if n = [46, 46] then l.dropLast else l ++ [n]

def isDirAt (fs : FileSystem) (l : Place) : Bool := (fs.entryAt l).any Entry.isDir

/-- Along the names, with `follow` behind a link. -/
def walk (fs : FileSystem) (follow : Place → List Name → Option Place) :
    Place → List Name → Option Place
  | l, [] => some l
  | l, n :: ns =>
    if fs.isDirAt l then
      match fs.entryAt (child l n) with
      | none => none
      | some ⟨.link target, _⟩ =>
        follow (if target.head? = some 47 then [] else l) (components target ++ ns)
      | some _ => walk fs follow (child l n) ns
    else none

/-- How many links a path leads through at most. -/
def maxLinks : Nat := 32

def follow (fs : FileSystem) : Nat → Place → List Name → Option Place
  | 0 => walk fs fun _ _ => none
  | k + 1 => walk fs (follow fs k)

/-- Where a path leads, a link at its end followed. -/
def resolve (fs : FileSystem) (path : Name) : Option Place :=
  fs.follow maxLinks [] (components path)

def stat (fs : FileSystem) (path : Name) : Option Entry := (fs.resolve path).bind fs.entryAt

def opendir (fs : FileSystem) (path : Name) : Option Place :=
  (fs.resolve path).filter fun l => (fs.entryAt l).any (·.kind = .dir true)

def readdir (fs : FileSystem) (l : Place) : List Name :=
  [46] :: [46, 46] :: (fs.entries.filter (·.1.dropLast = l)).filterMap (·.1.getLast?)

theorem isDirAt_of_entryAt {n : Name} {e : Entry} (h : fs.entryAt (l ++ [n]) = some e) :
    fs.isDirAt l = true := by
  unfold entryAt lookup at h
  rw [if_neg (List.append_ne_nil_of_right_ne_nil l (List.cons_ne_nil n []))] at h
  obtain ⟨p, hp, -⟩ := Option.map_eq_some_iff.mp h
  have hat := List.find?_some hp
  simp only [decide_eq_true_eq] at hat
  have hparent := (fs.placed p (List.mem_of_find?_eq_some hp)).2
  rw [hat, List.dropLast_concat] at hparent
  exact hparent

def Below (fs' fs : FileSystem) : Prop := ∀ l e, fs'.entryAt l = some e → fs.entryAt l = some e

theorem Below.refl (fs : FileSystem) : Below fs fs := fun _ _ h => h

theorem Below.trans {fs'' : FileSystem} (h : Below fs'' fs') (h' : Below fs' fs) : Below fs'' fs :=
  fun l e he => h' l e (h l e he)

theorem Below.isDirAt (h : Below fs' fs) (hdir : fs'.isDirAt l = true) : fs.isDirAt l = true := by
  obtain ⟨e, he, hkind⟩ := (Option.any_eq_true _ _).mp hdir
  exact (Option.any_eq_true _ _).mpr ⟨e, h l e he, hkind⟩

structure Confined (T : Place) (fs fs' : FileSystem) : Prop where
  below : Below fs' fs
  outside : ∀ l, ¬T <+: l → fs'.entryAt l = fs.entryAt l

variable {T : Place}

theorem Confined.refl (T : Place) (fs : FileSystem) : Confined T fs fs := ⟨.refl fs, fun _ _ => rfl⟩

theorem Confined.trans {fs'' : FileSystem} (h : Confined T fs fs') (h' : Confined T fs' fs'') :
    Confined T fs fs'' :=
  ⟨h'.below.trans h.below, fun l hl => (h'.outside l hl).trans (h.outside l hl)⟩

end FileSystem

end PkgManager.FileTree
