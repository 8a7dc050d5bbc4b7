import PkgManager.BoundedSort
import PkgManager.SmbShare

namespace PkgManager.SmbBrowse

open BoundedSort CText ScannerState SmbShare
open PkgMetadata (Text)

/-- The `smb2_type` of a directory entry. -/
inductive FileType where
  | file
  | directory
  | link
deriving DecidableEq

/-- What `smb2_readdir` hands out. -/
structure Dirent where
  name : Text
  type : FileType
  size : UInt64
  mtime : UInt32

/-- `smb_dir_entry_t`. -/
structure DirEntry where
  name : CString 256
  isDir : Bool
  size : UInt64
  mtime : UInt32
deriving DecidableEq

/-- `smb_dir_entry_cmp`. -/
def dirEntryCmp (a b : DirEntry) : Int32 :=
  if a.isDir ≠ b.isDir then (if b.isDir then 1 else 0) - (if a.isDir then 1 else 0)
  else
    let cmp := strcasecmp a.name.text b.name.text
    if cmp ≠ 0 then cmp else strcmp a.name.text b.name.text

/-- `MAX_SMB_BROWSE_ENTRIES`. -/
def maxSmbBrowseEntries : Nat := 256

/-- The cursor behind `D:` or `F:`. -/
def parseCursor (after : Text) : Option DirEntry :=
  match after with
  | kind :: 58 :: name =>
    if h : (kind = 68 ∨ kind = 70) ∧ name.length < 256 ∧ 0 ∉ name then
      some ⟨⟨name, h.2.1, h.2.2⟩, kind = 68, 0, 0⟩
    else none
  | _ => none

/-- The folder to list: the explicit one, or the one of the share. -/
def browseTarget (subpath path : Text) : Text :=
  let raw := if subpath ≠ [] then subpath else path
  (joinSlashes 511 0 (raw.dropWhile isSlash)).rdropWhile (· = 47)

/-- A folder with a segment `.` or `..`. -/
def climbs (target : Text) : Bool := (target.splitOn 47).any fun s => s = [46] ∨ s = [46, 46]

/-- Insert the candidate at its place. -/
def insertEntry (maxOut : Nat) (out : List DirEntry) (hasMore : Bool) (dst : DirEntry) :
    List DirEntry × Bool :=
  let pos := (out.takeWhile fun e => dirEntryCmp e dst < 0).length
  let hasMore := hasMore || out.length == maxOut
  if maxOut ≤ pos then (out, hasMore)
  else ((out.take pos ++ dst :: out.drop pos).take maxOut, hasMore)

/-- What is shown of a file: a name with more than four bytes that ends in `.pkg`. -/
def isPkgName (name : Text) : Bool :=
  4 < name.length && sameText (name.drop (name.length - 4)) (ascii ".pkg")

def entryOf (ent : Dirent) : DirEntry :=
  ⟨CString.of 256 ent.name, ent.type = .directory, ent.size, ent.mtime⟩

/-- One turn of the loop over the directory. -/
def readEntry (after : Option DirEntry) (maxOut : Nat) (st : List DirEntry × Bool) (ent : Dirent) :
    List DirEntry × Bool :=
  if ent.name = [46] ∨ ent.name = [46, 46] then st
  else if ent.name.head? = some 46 then st
  else if ent.name = [] then st
  else if ent.type ≠ .directory ∧ !isPkgName ent.name then st
  else if after.any (fun cursor => dirEntryCmp (entryOf ent) cursor ≤ 0) then st
  else insertEntry maxOut st.1 st.2 (entryOf ent)

/-- The server: whether it can be connected to, and what its folders hold. An error
comes with its text. -/
structure SmbServer where
  connect : ShareConfig → Except Text Unit
  opendir : ShareConfig → Text → Except Text (List Dirent)

/-- `smb_client_list_dir_page`: the entries and `has_more`, or the error. -/
def listDirPage (w : SmbServer) (cfg : ShareConfig) (subpath after : Text) (maxOut : Int) :
    Except Text (List DirEntry × Bool) :=
  let cursor := parseCursor after
  if after ≠ [] ∧ cursor = none then .error (ascii "Invalid cursor")
  else if maxOut ≤ 0 then .error (ascii "Invalid arguments")
  else
    let max := min maxOut.toNat maxSmbBrowseEntries
    let clean := sanitizeConfig cfg
    if clean.server.text = [] ∨ clean.share.text = [] then
      .error (ascii "Server and share are required")
    else
      let target := browseTarget subpath clean.path.text
      if climbs target then .error (ascii "Invalid folder path")
      else
        match w.connect clean with
        | .error e => .error (if e = [] then ascii "Failed to connect to share" else e)
        | .ok () =>
          match w.opendir clean target with
          | .error e => .error (if e = [] then ascii "Folder not found or access denied" else e)
          | .ok ents =>
            let st := ents.foldl (readEntry cursor max) ([], false)
            .ok (st.1.insertionSort fun a b => dirEntryCmp a b ≤ 0, st.2)

/-! The comparison is an order of keys. -/

theorem byte_sub (a b : UInt8) :
    (Int32.ofNat a.toNat - Int32.ofNat b.toNat).toInt = (a.toNat : Int) - b.toNat := by
  have ha := a.toNat_lt
  have hb := b.toNat_lt
  rw [Int32.toInt_sub, Int32.toInt_ofNat_of_lt (by omega), Int32.toInt_ofNat_of_lt (by omega)]
  exact Int.bmod_eq_of_le (by omega) (by omega)

def bytes (s : Text) : List Nat := s.map UInt8.toNat

theorem bytes_inj {s t : Text} : bytes s = bytes t ↔ s = t :=
  (List.map_injective_iff.mpr fun _ _ => UInt8.toNat_inj.mp).eq_iff

theorem negative_iff (x : Int32) : x < 0 ↔ x.toInt < 0 := Int32.lt_iff_toInt_lt

theorem zero_iff (x : Int32) : x = 0 ↔ x.toInt = 0 := Int32.toInt_inj.symm

/-- The sign of `strcmp` says how the texts compare. -/
theorem strcmp_sign {s t : Text} (hs : 0 ∉ s) (ht : 0 ∉ t) :
    (strcmp s t < 0 ↔ bytes s < bytes t) ∧ (strcmp s t = 0 ↔ bytes s = bytes t) := by
  induction s generalizing t with
  | nil =>
    cases t with
    | nil => exact ⟨iff_of_false (by decide) (lt_irrefl _), iff_of_true rfl rfl⟩
    | cons b t =>
      have hb : b ≠ 0 := fun h => ht (h ▸ List.mem_cons_self)
      have hpos : 0 < b.toNat := Nat.pos_of_ne_zero fun h => hb (UInt8.toNat_inj.mp h)
      have hval : (strcmp [] (b :: t)).toInt = -(b.toNat : Int) := by
        have hsub := byte_sub 0 b
        simpa [strcmp] using hsub
      rw [negative_iff, zero_iff, hval]
      exact ⟨iff_of_true (by omega) (List.nil_lt_cons _ _), iff_of_false (by omega) nofun⟩
  | cons a s ih =>
    rw [List.mem_cons, not_or] at hs
    have hpos : 0 < a.toNat := Nat.pos_of_ne_zero fun h => hs.1 (UInt8.toNat_inj.mp h).symm
    cases t with
    | nil =>
      have hval : (strcmp (a :: s) []).toInt = (a.toNat : Int) := by
        have hlt := a.toNat_lt
        exact Int32.toInt_ofNat_of_lt (by omega)
      rw [negative_iff, zero_iff, hval]
      exact ⟨iff_of_false (by omega) (List.not_lt_nil _), iff_of_false (by omega) nofun⟩
    | cons b t =>
      rw [List.mem_cons, not_or] at ht
      by_cases hab : a = b
      · subst hab
        have hval : strcmp (a :: s) (a :: t) = strcmp s t := if_pos rfl
        obtain ⟨hlt, heq⟩ := ih hs.2 ht.2
        rw [hval, hlt, heq]
        unfold bytes
        rw [List.map_cons, List.map_cons, List.cons_lt_cons_iff, List.cons_inj_right]
        simp
      · have hne : a.toNat ≠ b.toNat := fun h => hab (UInt8.toNat_inj.mp h)
        have hval : (strcmp (a :: s) (b :: t)).toInt = (a.toNat : Int) - b.toNat := by
          rw [← byte_sub]
          exact congrArg Int32.toInt (if_neg hab)
        rw [negative_iff, zero_iff, hval]
        unfold bytes
        rw [List.map_cons, List.map_cons, List.cons_lt_cons_iff, List.cons.injEq]
        constructor
        · constructor
          · exact fun h => .inl (by omega)
          · rintro (h | ⟨h, _⟩)
            · omega
            · exact absurd h hne
        · exact iff_of_false (by omega) fun h => hne h.1

/-- Directories first, then the names without case, then the names. -/
def key (e : DirEntry) : Bool ×ₗ (List Nat ×ₗ List Nat) :=
  toLex (!e.isDir, toLex (bytes (e.name.text.map toLower), bytes e.name.text))

theorem zero_not_mem_lower {s : Text} (h : 0 ∉ s) : 0 ∉ s.map toLower := by
  intro hm
  obtain ⟨b, hb, h0⟩ := List.mem_map.mp hm
  exact h (eq_of_toLower (by decide) h0 ▸ hb)

theorem cmp_sign (a b : DirEntry) :
    (dirEntryCmp a b < 0 ↔ key a < key b) ∧ (dirEntryCmp a b = 0 ↔ key a = key b) := by
  obtain ⟨hcase, hcase'⟩ := strcmp_sign (zero_not_mem_lower a.name.noNul) (zero_not_mem_lower b.name.noNul)
  obtain ⟨hname, hname'⟩ := strcmp_sign a.name.noNul b.name.noNul
  unfold dirEntryCmp key
  rw [Prod.Lex.toLex_lt_toLex, Prod.Lex.toLex_lt_toLex, toLex_inj, Prod.mk.injEq, toLex_inj,
    Prod.mk.injEq]
  simp only
  by_cases hdir : a.isDir = b.isDir
  · rw [if_neg (not_not.mpr hdir), hdir]
    simp only [lt_irrefl, false_or, true_and]
    unfold strcasecmp
    by_cases heq : strcmp (a.name.text.map toLower) (b.name.text.map toLower) = 0
    · rw [if_neg (not_not.mpr heq), hname, hname', hcase'.mp heq]
      simp
    · have hne : bytes (a.name.text.map toLower) ≠ bytes (b.name.text.map toLower) :=
        fun h => heq (hcase'.mpr h)
      rw [if_pos heq, hcase, hcase']
      simp [hne]
  · rw [if_pos hdir]
    cases ha : a.isDir <;> cases hb : b.isDir
    · exact absurd (ha.trans hb.symm) hdir
    · exact ⟨iff_of_false (by decide) (by simp), iff_of_false (by decide) (by simp)⟩
    · exact ⟨iff_of_true (by decide) (.inl (by decide)), iff_of_false (by decide) (by simp)⟩
    · exact absurd (ha.trans hb.symm) hdir

theorem cmp_le (a b : DirEntry) : dirEntryCmp a b ≤ 0 ↔ key a ≤ key b := by
  obtain ⟨hlt, heq⟩ := cmp_sign a b
  rw [le_iff_lt_or_eq, ← hlt, ← heq, Int32.le_iff_toInt_le, negative_iff, zero_iff]
  exact Int.le_iff_lt_or_eq

theorem key_inj {a b : DirEntry} (h : key a = key b) : a.name = b.name ∧ a.isDir = b.isDir := by
  obtain ⟨hdir, hnames⟩ := Prod.mk.inj (toLex_inj.mp h)
  have hname := (Prod.mk.inj (toLex_inj.mp hnames)).2
  exact ⟨CString.ext_text (bytes_inj.mp hname), Bool.not_inj hdir⟩

/-! One call over a listing. -/

/-- A directory or a `.pkg` file whose name does not begin with a dot. -/
def Shown (ent : Dirent) : Prop :=
  ent.name ≠ [] ∧ ent.name.head? ≠ some 46 ∧
    (ent.type = .directory ∨ ∃ stem ext, ent.name = stem ++ ext ∧ sameText ext (ascii ".pkg") = true)

/-- The loop skips exactly what is not shown. -/
def shows (ent : Dirent) : Bool :=
  !(ent.name = [46] ∨ ent.name = [46, 46]) && ent.name.head? ≠ some 46 && ent.name ≠ [] &&
    !(ent.type ≠ .directory ∧ !isPkgName ent.name)

theorem sameText_length {s t : Text} (h : sameText s t = true) : s.length = t.length := by
  have hmap : s.map toLower = t.map toLower := of_decide_eq_true h
  have hlen := congrArg List.length hmap
  rwa [List.length_map, List.length_map] at hlen

theorem isPkgName_iff {name : Text} (hdot : name.head? ≠ some 46) :
    isPkgName name = true ↔ ∃ stem ext, name = stem ++ ext ∧ sameText ext (ascii ".pkg") = true := by
  unfold isPkgName
  rw [Bool.and_eq_true, decide_eq_true_eq]
  constructor
  · rintro ⟨_, hext⟩
    exact ⟨_, _, (List.take_append_drop _ name).symm, hext⟩
  · rintro ⟨stem, ext, rfl, hext⟩
    have hlen : ext.length = 4 := sameText_length hext
    have hstem : stem ≠ [] := by
      rintro rfl
      -- the name is the extension, and begins with its dot
      have hmap : ext.map toLower = (ascii ".pkg").map toLower := of_decide_eq_true hext
      cases ext with
      | nil => cases hlen
      | cons b ext =>
        have hb : toLower b = 46 := (List.cons.inj hmap).1
        refine hdot (congrArg some ?_)
        unfold toLower at hb
        split_ifs at hb with hcase
        · have h65 : 65 ≤ b.toNat := UInt8.le_iff_toNat_le.mp hcase.1
          have h90 : b.toNat ≤ 90 := UInt8.le_iff_toNat_le.mp hcase.2
          have hsum := congrArg UInt8.toNat hb
          rw [UInt8.toNat_add] at hsum
          simp at hsum
          omega
        · exact hb
    have hpos := List.length_pos_of_ne_nil hstem
    rw [List.length_append, hlen, Nat.add_sub_cancel, List.drop_left]
    exact ⟨by omega, hext⟩

theorem shows_iff (ent : Dirent) : shows ent = true ↔ Shown ent := by
  unfold shows Shown
  by_cases hdot : ent.name.head? = some 46
  · simp [hdot]
  · have hnot : ¬(ent.name = [46] ∨ ent.name = [46, 46]) := by
      rintro (h | h) <;> exact hdot (by rw [h]; rfl)
    have hpkg := isPkgName_iff hdot
    by_cases hdir : ent.type = .directory
    · simp [hdot, hnot, hdir]
    · simp [hdot, hnot, hdir, ← hpkg]

def candidates (ents : List Dirent) : List DirEntry := (ents.filter shows).map entryOf

theorem insertEntry_eq (m : Nat) (out : List DirEntry) (more : Bool) (dst : DirEntry) :
    insertEntry m out more dst = pageStep key m (out, more) dst := by
  have hpos : (out.takeWhile fun e => dirEntryCmp e dst < 0) = out.takeWhile fun e => key e < key dst := by
    congr 1
    funext e
    exact decide_eq_decide.mpr (cmp_sign e dst).1
  unfold insertEntry pageStep keepLeast
  rw [hpos]
  simp only
  split_ifs <;> rfl

theorem readEntry_shown {ent : Dirent} (h : shows ent = true) (after : Option DirEntry) (m : Nat)
    (st : List DirEntry × Bool) : readEntry after m st ent =
      if after.any (fun cursor => dirEntryCmp (entryOf ent) cursor ≤ 0) then st
      else pageStep key m st (entryOf ent) := by
  unfold shows at h
  simp only [Bool.and_eq_true, Bool.not_eq_true', decide_eq_false_iff_not, decide_eq_true_eq] at h
  have hkind : ¬(ent.type ≠ .directory ∧ (!isPkgName ent.name) = true) := by simpa using h.2
  unfold readEntry
  rw [if_neg h.1.1.1, if_neg h.1.1.2, if_neg h.1.2, if_neg hkind, insertEntry_eq]

theorem readEntry_hidden {ent : Dirent} (h : ¬shows ent = true) (after : Option DirEntry) (m : Nat)
    (st : List DirEntry × Bool) : readEntry after m st ent = st := by
  unfold readEntry
  split_ifs with h1 h2 h3 h4 h5
  · rfl
  · rfl
  · rfl
  · rfl
  · rfl
  · have hkind : ent.type = .directory ∨ isPkgName ent.name = true := by
      by_contra hx
      exact h4 (by simpa [not_or] using hx)
    exact absurd (by simpa [shows, h1, h2, h3] using hkind) h

theorem foldl_readEntry (after : Option DirEntry) (m : Nat) (ents : List Dirent)
    (st : List DirEntry × Bool) : ents.foldl (readEntry after m) st =
      ((candidates ents).filter fun e => after.all fun cursor => key cursor < key e).foldl
        (pageStep key m) st := by
  induction ents generalizing st with
  | nil => rfl
  | cons ent ents ih =>
    rw [List.foldl_cons, ih]
    unfold candidates
    by_cases h : shows ent = true
    · rw [List.filter_cons_of_pos h, List.map_cons, readEntry_shown h]
      by_cases hold : after.any (fun cursor => dirEntryCmp (entryOf ent) cursor ≤ 0) = true
      · rw [if_pos hold, List.filter_cons_of_neg]
        cases after with
        | none => cases hold
        | some cursor =>
          have hle := (cmp_le (entryOf ent) cursor).mp (of_decide_eq_true hold)
          simpa using hle
      · rw [if_neg hold, List.filter_cons_of_pos, List.foldl_cons]
        cases after with
        | none => rfl
        | some cursor =>
          have hnot : ¬dirEntryCmp (entryOf ent) cursor ≤ 0 := fun h => hold (decide_eq_true h)
          rw [cmp_le] at hnot
          simpa using hnot
    · rw [List.filter_cons_of_neg h, readEntry_hidden h]

/-- The last step of a call leaves what ascends as it is. -/
theorem sort_ascending {s : List DirEntry} (h : Ascending key s) :
    (s.insertionSort fun a b => dirEntryCmp a b ≤ 0) = s :=
  List.Pairwise.insertionSort_eq (h.imp fun hab => (cmp_le _ _).mpr (le_of_lt hab))

/-- `D:` or `F:` and the name. -/
def cursorText (e : DirEntry) : Text := (if e.isDir then 68 else 70) :: 58 :: e.name.text

theorem parseCursor_cursorText (e : DirEntry) :
    ∃ c, parseCursor (cursorText e) = some c ∧ key c = key e := by
  obtain ⟨name, isDir, size, mtime⟩ := e
  have hname := And.intro name.fits name.noNul
  cases isDir with
  | false =>
    refine ⟨⟨name, false, 0, 0⟩, ?_, rfl⟩
    show (if h : ((70 : UInt8) = 68 ∨ (70 : UInt8) = 70) ∧ name.text.length < 256 ∧ 0 ∉ name.text then _
      else _) = _
    rw [dif_pos ⟨.inr rfl, hname⟩]
    rfl
  | true =>
    refine ⟨⟨name, true, 0, 0⟩, ?_, rfl⟩
    show (if h : ((68 : UInt8) = 68 ∨ (68 : UInt8) = 70) ∧ name.text.length < 256 ∧ 0 ∉ name.text then _
      else _) = _
    rw [dif_pos ⟨.inl rfl, hname⟩]
    rfl

/-- The folder can be listed, and holds these entries. -/
structure Lists (w : SmbServer) (cfg : ShareConfig) (subpath : Text) (ents : List Dirent) : Prop where
  server : (sanitizeConfig cfg).server.text ≠ []
  share : (sanitizeConfig cfg).share.text ≠ []
  inside : climbs (browseTarget subpath (sanitizeConfig cfg).path.text) = false
  connects : w.connect (sanitizeConfig cfg) = .ok ()
  opens : w.opendir (sanitizeConfig cfg) (browseTarget subpath (sanitizeConfig cfg).path.text) = .ok ents

theorem listDirPage_eq {w : SmbServer} {cfg : ShareConfig} {subpath after : Text} {ents : List Dirent}
    (h : Lists w cfg subpath ents) (hafter : after ≠ [] → parseCursor after ≠ none) {m : Int}
    (hm : 1 ≤ m) (hcap : m ≤ maxSmbBrowseEntries) :
    listDirPage w cfg subpath after m =
      .ok (((ents.foldl (readEntry (parseCursor after) m.toNat) ([], false)).1.insertionSort
        fun a b => dirEntryCmp a b ≤ 0), (ents.foldl (readEntry (parseCursor after) m.toNat) ([], false)).2) := by
  have hmin : min m.toNat maxSmbBrowseEntries = m.toNat := by omega
  unfold listDirPage
  simp only [hmin]
  rw [if_neg fun hx => hafter hx.1 hx.2, if_neg (by omega), if_neg (by simp [h.server, h.share]),
    if_neg (by simp [h.inside]), h.connects]
  simp only [h.opens]

/-! Browsing page by page. -/

/-- The cursor that follows a page. -/
def nextCursor (es : List DirEntry) : Text := (es.getLast?.map cursorText).getD []

/-- The calls of a client: first without a cursor, then behind the last entry as long
as there is more. Each call may see the folder in another order. -/
inductive Browsing (cfg : ShareConfig) (subpath : Text) (l : List Dirent) (m : Int) :
    Nat → List DirEntry → Text → Bool → Prop
  | first {w : SmbServer} {ents : List Dirent} {es : List DirEntry} {more : Bool}
      (hw : Lists w cfg subpath ents) (hperm : ents.Perm l)
      (h : listDirPage w cfg subpath [] m = .ok (es, more)) :
      Browsing cfg subpath l m 1 es (nextCursor es) more
  | next {k : Nat} {seen : List DirEntry} {after : Text} {w : SmbServer} {ents : List Dirent}
      {es : List DirEntry} {more : Bool} (before : Browsing cfg subpath l m k seen after true)
      (hw : Lists w cfg subpath ents) (hperm : ents.Perm l)
      (h : listDirPage w cfg subpath after m = .ok (es, more)) :
      Browsing cfg subpath l m (k + 1) (seen ++ es) (nextCursor es) more

theorem entryOf_name {ent : Dirent} (hlen : ent.name.length < 256) (hnul : 0 ∉ ent.name) :
    (entryOf ent).name.text = ent.name := by
  show (upToNul ent.name).take 255 = ent.name
  have hall : upToNul ent.name = ent.name := by
    unfold upToNul
    rw [List.takeWhile_eq_self_iff]
    intro b hb
    simpa using fun h0 : b = 0 => hnul (h0 ▸ hb)
  rw [hall, List.take_of_length_le (by omega)]

/-- The entries to be seen, in their order. -/
def inOrder (l : List Dirent) : List DirEntry := (candidates l).foldl (insert key) []

theorem inOrder_perm (l : List Dirent) : (inOrder l).Perm (candidates l) := foldl_insert_perm _ []

theorem inOrder_ascending {l : List Dirent} (hnames : (l.map Dirent.name).Nodup)
    (hshort : ∀ d ∈ l, d.name.length < 256 ∧ 0 ∉ d.name) : Ascending key (inOrder l) := by
  refine ascending_of_sorted (foldl_insert_sorted _ List.Pairwise.nil) ?_
  refine ((inOrder_perm l).map key).nodup_iff.mpr ?_
  unfold candidates
  rw [List.map_map]
  have hfilter : ((l.filter shows).map Dirent.name).Nodup :=
    hnames.sublist ((List.filter_sublist).map _)
  refine (List.Nodup.of_map Dirent.name hfilter).map_on ?_
  intro d hd d' hd' hkey
  have hd₁ := List.mem_of_mem_filter hd
  have hd₂ := List.mem_of_mem_filter hd'
  have hname := congrArg CString.text (key_inj hkey).1
  rw [entryOf_name (hshort d hd₁).1 (hshort d hd₁).2, entryOf_name (hshort d' hd₂).1 (hshort d' hd₂).2]
    at hname
  exact List.inj_on_of_nodup_map hnames hd₁ hd₂ hname

theorem mem_inOrder {l : List Dirent} {e : DirEntry} :
    e ∈ inOrder l ↔ ∃ d ∈ l, Shown d ∧ entryOf d = e := by
  rw [(inOrder_perm l).mem_iff]
  unfold candidates
  rw [List.mem_map]
  simp only [List.mem_filter, shows_iff, and_assoc]

/-- The first page. -/
theorem first_page {w : SmbServer} {cfg : ShareConfig} {subpath : Text} {l ents : List Dirent}
    (hasc : Ascending key (inOrder l)) (hw : Lists w cfg subpath ents) (hperm : ents.Perm l) {m : Int}
    (hm : 1 ≤ m) (hcap : m ≤ maxSmbBrowseEntries) :
    listDirPage w cfg subpath [] m =
      .ok ((inOrder l).take m.toNat, decide (m.toNat < (inOrder l).length)) := by
  have hcand : (candidates ents).Perm (candidates l) := (hperm.filter _).map _
  have hparse : parseCursor [] = none := rfl
  have hall : ((candidates ents).filter fun e => (none : Option DirEntry).all fun c => key c < key e) =
      candidates ents := List.filter_eq_self.mpr fun _ _ => rfl
  rw [listDirPage_eq hw (fun h => absurd rfl h) hm hcap, hparse, foldl_readEntry, hall,
    page_eq hasc ((inOrder_perm l).trans hcand.symm)]
  simp only
  rw [sort_ascending (hasc.sublist (List.take_sublist _ _))]

/-- The page behind the entry at place `j`. -/
theorem page_behind {w : SmbServer} {cfg : ShareConfig} {subpath : Text} {l ents : List Dirent}
    (hasc : Ascending key (inOrder l)) (hw : Lists w cfg subpath ents) (hperm : ents.Perm l) {m : Int}
    (hm : 1 ≤ m) (hcap : m ≤ maxSmbBrowseEntries) {j : Nat} (hj : j < (inOrder l).length) :
    listDirPage w cfg subpath (cursorText (inOrder l)[j]) m =
      .ok (((inOrder l).drop (j + 1)).take m.toNat,
        decide (m.toNat < ((inOrder l).drop (j + 1)).length)) := by
  have hcand : (candidates ents).Perm (candidates l) := (hperm.filter _).map _
  obtain ⟨c, hparse, hkey⟩ := parseCursor_cursorText (inOrder l)[j]
  have hvalid : parseCursor (cursorText (inOrder l)[j]) ≠ none := by
    rw [hparse]
    exact nofun
  have hall : ((candidates ents).filter fun e => (some c).all fun c => key c < key e) =
      (candidates ents).filter fun e => key (inOrder l)[j] < key e := by
    rw [← hkey]
    rfl
  rw [listDirPage_eq hw (fun _ => hvalid) hm hcap, hparse, foldl_readEntry, hall,
    page_after hasc ((inOrder_perm l).trans hcand.symm) m.toNat hj]
  simp only
  rw [sort_ascending (hasc.sublist ((List.take_sublist _ _).trans (List.drop_sublist _ _)))]

theorem nextCursor_page (s : List DirEntry) (n : Nat) {m : Nat} (hm : 0 < m) (hlt : n + m < s.length) :
    nextCursor ((s.drop n).take m) = cursorText s[n + m - 1] := by
  have hlen : ((s.drop n).take m).length = m := by
    rw [List.length_take, List.length_drop]
    omega
  have hlast : ((s.drop n).take m).getLast? = some s[n + m - 1] := by
    rw [List.getLast?_eq_getElem?, hlen, List.getElem?_take_of_lt (by omega), List.getElem?_drop,
      ← Nat.add_sub_assoc hm, List.getElem?_eq_getElem (by omega)]
  unfold nextCursor
  rw [hlast]
  rfl

/-- What was seen after `k` calls. -/
structure Seen (l : List Dirent) (m k : Nat) (es : List DirEntry) (after : Text) (more : Bool) : Prop where
  entries : es = (inOrder l).take (k * m)
  more_iff : more = true ↔ k * m < (inOrder l).length
  cursor : ∀ h : k * m < (inOrder l).length, after = cursorText (inOrder l)[k * m - 1]
  pos : 0 < k

theorem browsing_seen {cfg : ShareConfig} {subpath : Text} {l : List Dirent} {m : Int}
    (hasc : Ascending key (inOrder l)) (hm : 1 ≤ m) (hcap : m ≤ maxSmbBrowseEntries) {k : Nat}
    {es : List DirEntry} {after : Text} {more : Bool}
    (h : Browsing cfg subpath l m k es after more) : Seen l m.toNat k es after more := by
  have hpos : 0 < m.toNat := by omega
  induction h with
  | first hw hperm h =>
    rw [first_page hasc hw hperm hm hcap] at h
    obtain ⟨rfl, rfl⟩ := Prod.mk.inj (Except.ok.inj h)
    refine ⟨by rw [Nat.one_mul], by rw [decide_eq_true_eq, Nat.one_mul], fun hlt => ?_, Nat.one_pos⟩
    have hcursor := nextCursor_page (inOrder l) 0 hpos (by omega)
    simp only [List.drop_zero, Nat.zero_add] at hcursor
    simp only [hcursor, Nat.one_mul]
  | @next k seen after w ents es more before hw hperm h ih =>
    have hlt := ih.more_iff.mp rfl
    have hmul : 0 < k * m.toNat := Nat.mul_pos ih.pos hpos
    have hback : k * m.toNat - 1 + 1 = k * m.toNat := Nat.sub_add_cancel hmul
    rw [ih.cursor hlt, page_behind hasc hw hperm hm hcap (by omega), hback] at h
    obtain ⟨rfl, rfl⟩ := Prod.mk.inj (Except.ok.inj h)
    have hsucc : (k + 1) * m.toNat = k * m.toNat + m.toNat := Nat.succ_mul k m.toNat
    refine ⟨?_, ?_, fun hlt' => ?_, Nat.succ_pos k⟩
    · rw [ih.entries, hsucc, List.take_add]
    · rw [decide_eq_true_eq, List.length_drop, hsucc]
      omega
    · have hcursor := nextCursor_page (inOrder l) (k * m.toNat) hpos (by omega)
      simp only [hcursor, hsucc]

/-- Page by page a client sees every directory and every `.pkg` file once and in one
order: after `k` calls it has the first `k * m` of them, there is more exactly where
some are left, and the next call does not fail. -/
theorem browsing_complete {cfg : ShareConfig} {subpath : Text} {l : List Dirent}
    (hnames : (l.map Dirent.name).Nodup) (hshort : ∀ d ∈ l, d.name.length < 256 ∧ 0 ∉ d.name)
    {m : Int} (hm : 1 ≤ m) (hcap : m ≤ maxSmbBrowseEntries) :
    ∃ order : List DirEntry, (∀ e, e ∈ order ↔ ∃ d ∈ l, Shown d ∧ entryOf d = e) ∧
      order.Pairwise (fun a b => dirEntryCmp a b < 0) ∧
      (∀ w ents, Lists w cfg subpath ents → ents.Perm l →
        ∃ es more, listDirPage w cfg subpath [] m = .ok (es, more)) ∧
      ∀ k es after more, Browsing cfg subpath l m k es after more →
        es = order.take (k * m.toNat) ∧ (more = true ↔ es ≠ order) ∧
        (more = true → k * m.toNat < order.length ∧ ∀ w ents, Lists w cfg subpath ents → ents.Perm l →
          ∃ es' more', listDirPage w cfg subpath after m = .ok (es', more')) := by
  have hasc := inOrder_ascending hnames hshort
  refine ⟨inOrder l, fun e => mem_inOrder, hasc.imp fun hab => (cmp_sign _ _).1.mpr hab,
    fun w ents hw hperm => ⟨_, _, first_page hasc hw hperm hm hcap⟩, ?_⟩
  intro k es after more h
  have hseen := browsing_seen hasc hm hcap h
  refine ⟨hseen.entries, ?_, fun hmore => ?_⟩
  · rw [hseen.more_iff, hseen.entries, ne_eq, List.take_eq_self_iff, Nat.not_le]
  · have hlt := hseen.more_iff.mp hmore
    refine ⟨hlt, fun w ents hw hperm => ?_⟩
    rw [hseen.cursor hlt]
    exact ⟨_, _, page_behind hasc hw hperm hm hcap (by omega)⟩

/-- The share `games` of the server `nas`. -/
def nasShare : ShareConfig where
  enabled := true
  browseOnly := false
  id := CString.of 32 (ascii "1")
  label := CString.of 64 []
  server := CString.of 128 (ascii "nas")
  port := 445
  share := CString.of 128 (ascii "games")
  path := CString.of 256 []
  username := CString.of 64 []
  password := CString.of 64 []
  workgroup := CString.of 64 []
  isReadOnly := true

/-- Two packages whose names differ in case, a folder, a hidden file and a text. -/
def nasFolder : List Dirent :=
  [⟨ascii "b.PKG", .file, 7, 0⟩, ⟨ascii "B.pkg", .file, 8, 0⟩, ⟨ascii ".x.pkg", .file, 9, 0⟩,
    ⟨ascii "notes.txt", .file, 1, 0⟩, ⟨ascii "dlc", .directory, 0, 0⟩]

def nas : SmbServer := ⟨fun _ => .ok (), fun _ _ => .ok nasFolder⟩

theorem browsing_complete_two :
    ∃ es after more, Browsing nasShare [] nasFolder 2 1 es after more ∧ es.length ≤ 2 := by
  have hlists : Lists nas nasShare [] nasFolder :=
    ⟨by decide, by decide, by decide, rfl, rfl⟩
  obtain ⟨order, _, _, hfirst, hpages⟩ := browsing_complete (show (nasFolder.map Dirent.name).Nodup by decide)
    (show ∀ d ∈ nasFolder, d.name.length < 256 ∧ 0 ∉ d.name by decide) (show (1 : Int) ≤ 2 by decide)
    (show (2 : Int) ≤ maxSmbBrowseEntries by decide)
  obtain ⟨es, more, hcall⟩ := hfirst nas nasFolder hlists (List.Perm.refl _)
  have hrun : Browsing nasShare [] nasFolder 2 1 es (nextCursor es) more :=
    .first hlists (List.Perm.refl _) hcall
  obtain ⟨hes, _⟩ := hpages 1 es _ more hrun
  refine ⟨es, _, more, hrun, ?_⟩
  rw [hes]
  exact List.length_take_le _ _

end PkgManager.SmbBrowse
