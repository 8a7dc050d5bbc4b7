import PkgManager.PkgParser

namespace PkgManager.PkgWalk

open CText PkgMetadata PkgParser

/-- A metadata text, a `param.json` with the offset it ends at. -/
inductive MetaText where
  | json (close : Nat) (text : Text)
  | sfo (text : Text)

/-- The metadata texts of an entry of the name. -/
def entryTexts (d : Text) (offset : Nat) (name : Text) (e : Entry) : List MetaText :=
  match entryText d offset e with
  | none => []
  | some t =>
    (if isJson e name then [.json (offset + e.dataOff + e.dataSize) t] else []) ++
      if isSfo e name then [.sfo t] else []

/-- The texts set so far, and whether a `param.sfo` has set the category. -/
abbrev TextState := Meta × Bool

def textStep (δ : Dialect) (s : TextState) : MetaText → TextState
  | .json close t => (δ.json close t s.1, s.2)
  | .sfo t =>
    (δ.sfo t s.1, s.2 || (s.1.category = [] && (parseParamSfo t [] []).category ≠ []))

def badgeOf (δ : Dialect) : MetaText → Bool
  | .json _ t => δ.badge t
  | .sfo _ => false

/-- The icon an entry of the name gives. -/
def iconOf (δ : Dialect) (offset : Nat) (name : Text) (e : Entry) : Option (Nat × Nat) :=
  if isIcon e name ∧ 0 < e.dataSize ∧ δ.icon (offset + e.dataOff) e.dataSize then
    some (offset + e.dataOff, e.dataSize)
  else none

/-- What one entry does to the walk. -/
theorem entryStep_eq (δ : Dialect) (d : Text) (offset : Nat) (strings : Option Strings) (w : Walk)
    (e : Entry) : entryStep δ d offset strings w e =
      let name := δ.name strings e.nameOff
      let texts := entryTexts d offset name e
      let s := texts.foldl (textStep δ) (w.info, w.hasPs4SfoCategory)
      ⟨s.1, w.hasPlaygoChunkPatch || isPlaygo e name, w.hasDeltaPatch || isDelta e name,
        w.hasBaseAppMetadata || texts.any (badgeOf δ), s.2, (iconOf δ offset name e).or w.icon⟩ := by
  obtain ⟨info, playgo, delta, badge, ps4, icon⟩ := w
  unfold entryStep entryTexts jsonStep sfoStep iconStep iconOf
  simp only
  generalize δ.name strings e.nameOff = name
  generalize isPlaygo e name = isPlaygo'
  generalize isDelta e name = isDelta'
  by_cases hicon : 0 < e.dataSize ∧ δ.icon (offset + e.dataOff) e.dataSize = true <;>
  cases isIcon e name <;> cases isJson e name <;> cases isSfo e name <;>
  cases entryText d offset e <;> simp [hicon, textStep, badgeOf]

/-- What the entries of a table are to a parser. -/
structure Parts where
  playgo : Bool
  delta : Bool
  texts : List MetaText
  icons : List (Nat × Nat)

def parts (δ : Dialect) (d : Text) (offset : Nat) (strings : Option Strings) (entries : List Entry) :
    Parts where
  playgo := entries.any fun e => isPlaygo e (δ.name strings e.nameOff)
  delta := entries.any fun e => isDelta e (δ.name strings e.nameOff)
  texts := entries.flatMap fun e => entryTexts d offset (δ.name strings e.nameOff) e
  icons := entries.filterMap fun e => iconOf δ offset (δ.name strings e.nameOff) e

/-- The walk that has found these parts. -/
def Parts.walk (δ : Dialect) (p : Parts) : Walk :=
  let s := p.texts.foldl (textStep δ) (.empty, false)
  ⟨s.1, p.playgo, p.delta, p.texts.any (badgeOf δ), s.2, p.icons.getLast?⟩

theorem getLast?_filterMap_cons {α β : Type} (f : α → Option β) (a : α) (l : List α) (b : Option β) :
    (((a :: l).filterMap f).getLast?).or b = ((l.filterMap f).getLast?).or ((f a).or b) := by
  rw [List.filterMap_cons]
  cases f a with
  | none => rfl
  | some x => rw [List.getLast?_cons]; cases (l.filterMap f).getLast? <;> rfl

theorem foldl_entryStep (δ : Dialect) (d : Text) (offset : Nat) (strings : Option Strings)
    (entries : List Entry) (w : Walk) :
    entries.foldl (entryStep δ d offset strings) w =
      let p := parts δ d offset strings entries
      let s := p.texts.foldl (textStep δ) (w.info, w.hasPs4SfoCategory)
      ⟨s.1, w.hasPlaygoChunkPatch || p.playgo, w.hasDeltaPatch || p.delta,
        w.hasBaseAppMetadata || p.texts.any (badgeOf δ), s.2, p.icons.getLast?.or w.icon⟩ := by
  induction entries generalizing w with
  | nil => simp [parts]
  | cons e entries ih =>
    rw [List.foldl_cons, ih, entryStep_eq]
    simp only [parts, List.any_cons, List.flatMap_cons, List.foldl_append, List.any_append,
      Bool.or_assoc, getLast?_filterMap_cons]

/-- A parser reads the parts of the table and makes the result of them. -/
theorem parseCnt_eq (δ : Dialect) (d : Text) (size : Nat) (cnt : Cnt) :
    parseCnt δ d size cnt = (readEntries d cnt).map fun entries =>
      let w := (parts δ d cnt.offset (readStrings d cnt entries) entries).walk δ
      ⟨withFallbacks cnt.contentId w.info, cnt.contentId, classify cnt.typeMagic w, w.icon,
        false, 0, 0, size⟩ := by
  unfold parseCnt
  cases readEntries d cnt with
  | none => rfl
  | some entries =>
    rw [Option.map_some]
    simp only
    rw [foldl_entryStep]
    simp [Parts.walk, Walk.start]

end PkgManager.PkgWalk
