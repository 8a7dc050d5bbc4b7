import PkgManager.PartSources

namespace PkgManager.SchemePrefix

open CText Records MultipartHeader MultipartStream PartSources

/-! A path with "file://" in front of it. -/

def scheme : Path := ascii "file://"

/-- An opening while the directories stay as they are. -/
def openingOf (fs : FileSystem) (path : Path) : Opening := ⟨path, fs.content, fun _ => fs⟩

/-- What a sequence of `virtual_stream_read` calls returns. -/
def answers (env : Env) : VirtualStream → List Ask → List (Option ReadResult)
  | _, [] => []
  | s, a :: asks =>
    let read := virtualStreamRead s (a.request env)
    read.result :: answers env read.stream asks

/-- The path opens the same with the scheme and without it, or not at all. -/
def Transparent (env : Env) (fs : FileSystem) (path : Path) : Prop :=
  match (openingOf fs (scheme ++ path)).open env, (openingOf fs path).open env with
  | .ok s, .ok s' => ∀ asks, answers env s asks = answers env s' asks
  | .error _, .error _ => True
  | _, _ => False

/-- A path of the local file system that fits the buffers of the callers with the scheme. -/
structure LocalPath (path : Path) : Prop where
  absolute : path.head? = some 47
  fits : (scheme ++ path).length < 512

/-- Where the slice of a part belongs when it says so. -/
def sliceStart (h : Header) : Nat := if h.partIndex = 1 then 0 else h.partOffset

/-- A part of a package: its slice is not empty and lies in the package. -/
structure PackagePart (h : Header) : Prop where
  parts : h.totalParts ≤ maxParts
  filled : 0 < h.partDataSize
  inside : sliceStart h + h.partDataSize ≤ h.totalPkgSize

/-! Single packages. -/

theorem localPath_scheme (path : Path) : localPath (scheme ++ path) = path := by
  have hlen : scheme.length = 7 := rfl
  unfold localPath
  rw [← hlen, List.take_left, List.drop_left]
  exact if_pos rfl

theorem localPath_absolute {path : Path} (h : path.head? = some 47) : localPath path = path := by
  unfold localPath
  refine if_neg fun hscheme => ?_
  cases path with
  | nil => cases h
  | cons b rest =>
    obtain rfl := Option.some.inj h
    cases hscheme

theorem open_missing {files : Files} (find : Nat → Option Path) {initial : Path}
    (hfile : files (localPath initial) = none) :
    virtualStreamOpen files find initial = .error (-1) := by
  unfold virtualStreamOpen
  rw [hfile]

theorem open_single {files : Files} (find : Nat → Option Path) {initial : Path} {bs : List UInt8}
    {e : Int} (hfile : files (localPath initial) = some bs) (hr : readHeader (some bs) = .error e) :
    virtualStreamOpen files find initial =
      .ok ⟨false, 1, 1, bs.length, [], [], fun _ => ⟨localPath initial, 0, bs.length, 0, none⟩⟩ := by
  unfold virtualStreamOpen
  rw [hfile]
  simp only [hr]

/-- The file at the path is no part of a package: both openings give one stream. -/
theorem transparent_single {path : Path} (hpath : LocalPath path) {env : Env} {fs : FileSystem}
    (hsingle : ∀ h, readHeader (fs.content path) ≠ .ok h) : Transparent env fs path := by
  have hscheme := localPath_scheme path
  have hplain := localPath_absolute hpath.absolute
  unfold Transparent
  cases hfile : fs.content path with
  | none =>
    have hopen : ∀ p, localPath p = path → (openingOf fs p).open env = .error (-1) :=
      fun p hp => open_missing _ (hp.symm ▸ hfile)
    rw [hopen _ hscheme, hopen _ hplain]
    trivial
  | some bs =>
    cases hr : readHeader (some bs) with
    | ok h => exact absurd (hfile ▸ hr) (hsingle h)
    | error e =>
      have hopen : ∀ p, localPath p = path → (openingOf fs p).open env =
          .ok ⟨false, 1, 1, bs.length, [], [], fun _ => ⟨path, 0, bs.length, 0, none⟩⟩ := by
        intro p hp
        have hs : (openingOf fs p).open env = .ok ⟨false, 1, 1, bs.length, [], [],
            fun _ => ⟨localPath p, 0, bs.length, 0, none⟩⟩ :=
          open_single _ (hp.symm ▸ hfile) hr
        rwa [hp] at hs
      rw [hopen _ hscheme, hopen _ hplain]
      exact fun _ => rfl

/-! A disc with copies of the parts. -/

/-- The name of a copy; `c` is one of the two letters it may begin with. -/
def entry (c : UInt8) (j : Nat) : Path := c :: ascii "art_" ++ (decimal j ++ ascii ".pkg.part")

def shelf (c : UInt8) (j : Nat) : Path := ascii "/mnt/disc" ++ 47 :: entry c j

theorem partNumber_shelf {c : UInt8} (hc : c ∈ [112, 80]) {j : Nat} (hj : 0 < j) (hle : j ≤ maxParts) :
    partNumber (shelf c j) = some j := by
  have hmax : maxParts = 256 := rfl
  have hslash : 47 ∉ entry c j := by
    have hdigits : 47 ∉ decimal j := fun h => absurd (isDigit_decimal j 47 h) (by decide)
    have hrest : 47 ∉ ascii "art_" ∧ 47 ∉ ascii ".pkg.part" := by decide
    have hletter : 47 ≠ c := by
      rintro rfl
      exact absurd hc (by decide)
    simp [entry, hdigits, hrest.1, hrest.2, hletter]
  have hshown : ¬(hidden (entry c j) = true ∨ entry c j = []) := by
    rintro (h | h)
    · obtain rfl : c = 46 := Option.some.inj (of_decide_eq_true h)
      exact absurd hc (by decide)
    · cases h
  have hstaged : stagedNumber (entry c j) = some j := by
    have htake : (entry c j).take 5 = c :: ascii "art_" := rfl
    have hdrop : (entry c j).drop 5 = decimal j ++ ascii ".pkg.part" := rfl
    have hnumber := strtoul_append (decimal_ne_nil j) (isDigit_decimal j)
      (r := ascii ".pkg.part") (fun b hb => by obtain rfl := Option.some.inj hb; rfl)
    rw [digitsValue_decimal, Nat.min_eq_left (by omega)] at hnumber
    have hpart : sameText (c :: ascii "art_") (ascii "part_") = true := by
      rcases List.mem_pair.mp hc with rfl | rfl <;> rfl
    unfold stagedNumber
    rw [htake, hdrop, hpart, if_pos rfl, hnumber]
    exact if_pos ⟨hj, hle, rfl⟩
  unfold partNumber shelf
  rw [baseName_append _ hslash]
  dsimp only
  rw [if_neg hshown, hstaged]
  rfl

theorem shelf_fits {c : UInt8} {j : Nat} (hle : j ≤ maxParts) :
    joined (ascii "/mnt/disc") (entry c j) = shelf c j ∧ bounded 512 (shelf c j) = shelf c j := by
  have hdecimal : (decimal j).length ≤ 3 :=
    length_decimal_le (by decide) (Nat.lt_of_le_of_lt hle (by decide))
  have hlen : (shelf c j).length ≤ 50 := by
    have hfixed : (ascii "/mnt/disc").length + (ascii "art_").length + (ascii ".pkg.part").length = 22 := rfl
    simp only [shelf, entry, List.length_append, List.length_cons]
    omega
  refine ⟨?_, List.take_of_length_le (by omega)⟩
  have hsame : ascii "/mnt/disc" ++ [47] ++ entry c j = shelf c j := by simp [shelf]
  unfold joined
  rw [hsame]
  exact List.take_of_length_le (by omega)

/-- The header of a copy: only the copy of the part itself has anything in it. -/
def copyHeader (hdr : Header) (j : Nat) : Header :=
  { hdr with
    partIndex := j
    partDataSize := if j = hdr.partIndex then 1 else 0
    partOffset := if j = hdr.partIndex then sliceStart hdr else 0
    dataOffset := headerSize }

def copyFile (hdr : Header) (j : Nat) (x : UInt8) : List UInt8 := (copyHeader hdr j).bytes ++ [x]

def shelfContent (path : Path) (bs : List UInt8) (hdr : Header) (c x : UInt8) : Files := fun q =>
  if q = path then some bs
  else (partNumber q).bind fun j =>
    if q = shelf c j ∧ j ≤ hdr.totalParts then some (copyFile hdr j x) else none

/-- The part at its path, and the copies on the disc. -/
def shelved (path : Path) (bs : List UInt8) (hdr : Header) (c x : UInt8) : FileSystem where
  readdir dir :=
    let own := if dirName path = some dir then [baseName path] else []
    if dir = ascii "/mnt/disc" then
      some (((List.range hdr.totalParts).map fun j => entry c (j + 1)) ++ own)
    else if own ≠ [] then some own
    else none
  kind q := (shelfContent path bs hdr c x q).map fun _ => .regular
  mounted _ := false
  content := shelfContent path bs hdr c x

theorem readHeader_ok {bs : List UInt8} {h : Header} (hr : readHeader (some bs) = .ok h) :
    headerSize ≤ bs.length ∧ h = parse bs ∧ isValidHeader h = true := by
  unfold readHeader at hr
  simp only at hr
  split_ifs at hr with hlen hvalid
  obtain rfl := Except.ok.inj hr
  exact ⟨by omega, rfl, hvalid⟩

theorem valid_index {h : Header} (hv : isValidHeader h = true) :
    0 < h.partIndex ∧ h.partIndex ≤ h.totalParts := by
  unfold isValidHeader at hv
  split_ifs at hv with _ _ hindex
  rw [not_or, not_or] at hindex
  omega

theorem dataStart_copy (hdr : Header) (j : Nat) : dataStart (copyHeader hdr j) = headerSize := by
  have hoff : (copyHeader hdr j).dataOffset = headerSize := rfl
  unfold dataStart
  rw [hoff, if_neg (by decide)]

theorem copyHeader_filled {bs : List UInt8} {hdr : Header} (hr : readHeader (some bs) = .ok hdr)
    (j : Nat) : (copyHeader hdr j).Filled := by
  obtain ⟨hlen, rfl, -⟩ := readHeader_ok hr
  have h : (copyHeader (parse bs) j).fields.map List.length = (parse bs).fields.map List.length := by
    simp only [Header.fields, copyHeader, List.map_cons, length_leBytes]
  exact h.trans (parse_filled hlen)

theorem readHeader_copy {bs : List UInt8} {hdr : Header} (hr : readHeader (some bs) = .ok hdr)
    {j : Nat} (hj : 0 < j) (hle : j ≤ hdr.totalParts) (x : UInt8) :
    readHeader (some (copyFile hdr j x)) = .ok (copyHeader hdr j) := by
  have hfilled := copyHeader_filled hr j
  obtain ⟨hlen, rfl, hvalid⟩ := readHeader_ok hr
  have hrange := parse_inRange hlen
  have hcopy : (copyHeader (parse bs) j).InRange := by
    have hindex : j < 2 ^ 32 := Nat.lt_of_le_of_lt hle hrange.totalParts
    refine { hrange with partIndex := hindex, partDataSize := ?_, partOffset := ?_, dataOffset := ?_ }
    · show (if j = (parse bs).partIndex then 1 else 0) < 2 ^ 64
      split_ifs <;> decide
    · show (if j = (parse bs).partIndex then sliceStart (parse bs) else 0) < 2 ^ 64
      have hoff := hrange.partOffset
      unfold sliceStart
      split_ifs <;> omega
    · show headerSize < 2 ^ 32
      decide
  have hparse : parse (copyFile (parse bs) j x) = copyHeader (parse bs) j := parse_bytes hfilled hcopy [x]
  have hvalid' : isValidHeader (copyHeader (parse bs) j) = true := by
    unfold isValidHeader at hvalid
    split_ifs at hvalid with h1 h2 h3 h4 h5
    have h3' : ¬((parse bs).totalParts = 0 ∨ j = 0 ∨ (parse bs).totalParts < j) := by omega
    exact (if_neg h1).trans ((if_neg h2).trans ((if_neg h3').trans ((if_neg h4).trans (if_neg h5))))
  have hlong : ¬(copyFile (parse bs) j x).length < headerSize := by
    unfold copyFile
    rw [List.length_append, Header.length_bytes hfilled]
    omega
  unfold readHeader
  simp only
  rw [if_neg hlong, hparse, if_pos hvalid']

/-- A part of a package at a path that is none of those of the copies. -/
structure Placed (path : Path) (bs : List UInt8) (hdr : Header) (c : UInt8) : Prop where
  local' : LocalPath path
  read : readHeader (some bs) = .ok hdr
  part : PackagePart hdr
  letter : c ∈ [112, 80]
  apart : ∀ j, shelf c j ≠ path

section Copies

variable {path : Path} {bs : List UInt8} {hdr : Header} {c x : UInt8}

theorem Placed.number (hp : Placed path bs hdr c) {j : Nat} (hj : 0 < j) (hle : j ≤ hdr.totalParts) :
    partNumber (shelf c j) = some j :=
  partNumber_shelf hp.letter hj (Nat.le_trans hle hp.part.parts)

theorem Placed.content (hp : Placed path bs hdr c) {j : Nat} (hj : 0 < j)
    (hle : j ≤ hdr.totalParts) :
    (shelved path bs hdr c x).content (shelf c j) = some (copyFile hdr j x) := by
  have hnumber := hp.number hj hle
  show shelfContent path bs hdr c x (shelf c j) = _
  unfold shelfContent
  rw [if_neg (hp.apart j), hnumber]
  show (if shelf c j = shelf c j ∧ j ≤ hdr.totalParts then _ else _) = _
  rw [if_pos ⟨rfl, hle⟩]

/-- What the finder makes of a name on the disc. -/
theorem Placed.seen (hp : Placed path bs hdr c) {p j : Nat} (hj : 0 < j) (hle : j ≤ hdr.totalParts)
    (name : List UInt8) :
    (if hidden (entry c j) then none
      else
        match (shelved path bs hdr c x).kind (joined (ascii "/mnt/disc") (entry c j)) with
        | some .regular => checkPartFile (shelved path bs hdr c x) hdr.packageUuid name p
            (joined (ascii "/mnt/disc") (entry c j))
        | some .directory =>
          if entry c j = ascii "pkg" then
            scanFindPartRecursive (shelved path bs hdr c x) hdr.packageUuid name p 6
              (joined (ascii "/mnt/disc") (entry c j))
          else none
        | _ => none) = if j = p then some (shelf c j) else none := by
  obtain ⟨hjoined, hbounded⟩ := @shelf_fits c j (Nat.le_trans hle hp.part.parts)
  have hlocal : localPath (shelf c j) = shelf c j := localPath_absolute rfl
  have hnumber := hp.number hj hle
  have hseen : hidden (entry c j) = false := by
    rcases List.mem_pair.mp hp.letter with rfl | rfl <;> rfl
  have hcontent := hp.content (x := x) hj hle
  have hkind : (shelved path bs hdr c x).kind (shelf c j) = some .regular := by
    show ((shelved path bs hdr c x).content (shelf c j)).map _ = _
    rw [hcontent]
    rfl
  rw [hjoined, hseen, if_neg nofun, hkind]
  simp only
  unfold checkPartFile
  have hname : isPartFilename (shelf c j) 0 = true := by
    unfold isPartFilename
    rw [hnumber]
    rfl
  rw [hlocal, hcontent, readHeader_copy hp.read hj hle, hname, if_neg nofun]
  simp only
  have hmatch : matchesPackage hdr.packageUuid name (copyHeader hdr j) = true :=
    decide_eq_true (.inl rfl)
  rw [hmatch, if_neg nofun, hbounded]
  rfl

theorem findSome_range {α : Type} (f : Nat → Option α) {n p : Nat} (hp : p < n) {a : α}
    (hat : f p = some a) (hother : ∀ j < n, j ≠ p → f j = none) :
    (List.range n).findSome? f = some a := by
  induction n with
  | zero => omega
  | succ n ih =>
    rw [List.range_succ, List.findSome?_append]
    by_cases hpn : p = n
    · have hnone : (List.range n).findSome? f = none :=
        List.findSome?_eq_none_iff.mpr fun j hj => by
          have hlt := List.mem_range.mp hj
          exact hother j (by omega) (by omega)
      rw [hnone, ← hpn]
      simp [hat]
    · rw [ih (by omega) fun j hj => hother j (by omega)]
      rfl

/-- The finder gives the copy of every part. -/
theorem Placed.found (hp : Placed path bs hdr c) (name : List UInt8) {p : Nat} (hpos : 0 < p)
    (hle : p ≤ hdr.totalParts) :
    findPartEx unset (shelved path bs hdr c x) hdr.packageUuid name p = some (shelf c p) := by
  have hscan : scanFindPartInLocation (shelved path bs hdr c x) hdr.packageUuid name p
      (ascii "/mnt/disc") = some (shelf c p) := by
    have hdir : (shelved path bs hdr c x).readdir (ascii "/mnt/disc") =
        some (((List.range hdr.totalParts).map fun j => entry c (j + 1)) ++
          if dirName path = some (ascii "/mnt/disc") then [baseName path] else []) := by
      simp only [shelved, if_pos]
    unfold scanFindPartInLocation
    rw [hdir]
    dsimp only
    rw [List.findSome?_append, List.findSome?_map]
    rw [findSome_range _ (Nat.sub_one_lt_of_le hpos hle) (a := shelf c p)]
    · rfl
    · have hsub : p - 1 + 1 = p := Nat.sub_add_cancel hpos
      refine (hp.seen (Nat.succ_pos _) (by omega) name).trans ?_
      rw [Nat.succ_eq_add_one, hsub, if_pos rfl]
    · intro j hj hne
      exact (hp.seen (Nat.succ_pos j) hj name).trans (if_neg (by omega))
  unfold findPartEx locations
  have hscan' : unset.scanDir = [] := rfl
  rw [hscan', if_pos rfl, List.nil_append, List.findSome?_cons, hscan]

/-- The table with the first `p` parts: only the part itself has anything in it. -/
structure Laid (initial : Path) (hdr : Header) (p : Nat) (s : VirtualStream) : Prop where
  parts : s.totalParts = hdr.totalParts
  size : s.totalPkgSize = hdr.totalPkgSize
  uuid : s.packageUuid = hdr.packageUuid
  own : hdr.partIndex ≤ p → s.parts (hdr.partIndex - 1) =
    ⟨initial, sliceStart hdr, hdr.partDataSize, dataStart hdr, none⟩
  others : ∀ i < p, i + 1 ≠ hdr.partIndex → (s.parts i).partDataSize = 0 ∧
    (i + 1 < hdr.partIndex → (s.parts i).startPkgOffset = 0)

theorem setPart_other (s : VirtualStream) {i j : Nat} (h : j ≠ i) (part : VirtualPart) :
    (s.setPart i part).parts j = s.parts j :=
  Function.update_of_ne h _ _

theorem setPart_self (s : VirtualStream) (i : Nat) (part : VirtualPart) :
    (s.setPart i part).parts i = part :=
  Function.update_self ..

theorem Laid.prevEnd {initial : Path} {hdr : Header} {p : Nat} {s : VirtualStream}
    (hs : Laid initial hdr p s) (hp : p < hdr.partIndex) (h0 : 0 < p) :
    (s.parts (p - 1)).startPkgOffset + (s.parts (p - 1)).partDataSize = 0 := by
  obtain ⟨hsize, hstart⟩ := hs.others (p - 1) (by omega) (by omega)
  rw [hsize, hstart (by omega)]

theorem Placed.resolvePart (hp : Placed path bs hdr c) {initial : Path}
    (hinitial : MultipartStream.localPath initial = path) {find : Nat → Option Path}
    (hfind : ∀ p, 0 < p → p ≤ hdr.totalParts → find p = some (shelf c p)) {p : Nat}
    (hlt : p < hdr.totalParts) {s : VirtualStream} (hs : Laid initial hdr p s) :
    ∃ s', resolvePart (shelved path bs hdr c x).content find hdr initial s (p + 1) = .ok s' ∧
      Laid initial hdr (p + 1) s' := by
  unfold MultipartStream.resolvePart
  by_cases hown : p + 1 = hdr.partIndex
  · have hfile : (shelved path bs hdr c x).content (MultipartStream.localPath initial) = some bs := by
      rw [hinitial]
      exact if_pos rfl
    rw [if_pos hown]
    simp only
    rw [hfile, hp.read]
    refine ⟨_, rfl, hs.parts, hs.size, hs.uuid, fun _ => ?_, fun i hi hne => ?_⟩
    · have hindex : hdr.partIndex - 1 = p := by omega
      have hsub : p + 1 - 1 = p := rfl
      rw [hindex, hsub]
      simp only [VirtualStream.setPart, Function.update_self, VirtualPart.mk.injEq, true_and, and_true]
      unfold sliceStart
      rw [← hown]
      by_cases h1 : p + 1 = 1
      · rw [if_pos h1, if_pos h1]
      · rw [if_neg h1, if_neg h1]
        have hend := hs.prevEnd (by omega) (by omega)
        have hsub2 : p + 1 - 2 = p - 1 := by omega
        rw [hsub2, hend]
        split_ifs <;> omega
    · rw [setPart_other s (show i ≠ p + 1 - 1 by omega)]
      exact hs.others i (by omega) hne
  · have hlocal : localPath (shelf c (p + 1)) = shelf c (p + 1) := localPath_absolute rfl
    rw [if_neg hown, hfind (p + 1) (Nat.succ_pos p) hlt]
    simp only
    rw [hlocal, hp.content (Nat.succ_pos p) hlt, readHeader_copy hp.read (Nat.succ_pos p) hlt]
    have hdata : (copyHeader hdr (p + 1)).partDataSize = 0 := if_neg hown
    have hoff : (copyHeader hdr (p + 1)).partOffset = 0 := if_neg hown
    refine ⟨_, rfl, hs.parts, hs.size, hs.uuid, fun hle => ?_, fun i hi hne => ?_⟩
    · have hindex := (valid_index (readHeader_ok hp.read).2.2).1
      rw [setPart_other s (show hdr.partIndex - 1 ≠ p + 1 - 1 by omega)]
      exact hs.own (by omega)
    · by_cases hip : i = p
      · subst hip
        have hsub : i + 1 - 1 = i := rfl
        rw [hsub]
        simp only [VirtualStream.setPart, Function.update_self]
        refine ⟨hdata, fun hbefore => ?_⟩
        rw [hoff]
        by_cases h1 : i + 1 = 1
        · rw [if_pos h1]
        · rw [if_neg h1, if_neg (Nat.lt_irrefl 0)]
          have hsub2 : i + 1 - 2 = i - 1 := by omega
          rw [hsub2]
          exact hs.prevEnd (by omega) (by omega)
      · rw [setPart_other s (show i ≠ p + 1 - 1 from hip)]
        exact hs.others i (by omega) hne

theorem Placed.resolveParts (hp : Placed path bs hdr c) {initial : Path}
    (hinitial : MultipartStream.localPath initial = path) {find : Nat → Option Path}
    (hfind : ∀ p, 0 < p → p ≤ hdr.totalParts → find p = some (shelf c p)) (n p : Nat)
    (hn : p + n = hdr.totalParts) {s : VirtualStream} (hs : Laid initial hdr p s) :
    ∃ s', resolveParts (shelved path bs hdr c x).content find hdr initial n (p + 1) s = .ok s' ∧
      Laid initial hdr hdr.totalParts s' := by
  induction n generalizing p s with
  | zero =>
    obtain rfl : p = hdr.totalParts := hn
    exact ⟨s, rfl, hs⟩
  | succ n ih =>
    obtain ⟨s1, h1, hs1⟩ := hp.resolvePart (x := x) hinitial hfind (by omega) hs
    obtain ⟨s', h', hs'⟩ := ih (p + 1) (by omega) hs1
    refine ⟨s', ?_, hs'⟩
    unfold MultipartStream.resolveParts
    rw [h1]
    exact h'

/-- The part opens under its path and with the scheme in front of it. -/
theorem Placed.opened (hp : Placed path bs hdr c) {initial : Path}
    (hinitial : MultipartStream.localPath initial = path) :
    ∃ s, (openingOf (shelved path bs hdr c x) initial).open unset = .ok s ∧
      Laid initial hdr hdr.totalParts s := by
  have hfile : (shelved path bs hdr c x).content (MultipartStream.localPath initial) = some bs := by
    rw [hinitial]
    exact if_pos rfl
  have hfind : ∀ p, 0 < p → p ≤ hdr.totalParts →
      (openingOf (shelved path bs hdr c x) initial).find unset p = some (shelf c p) := by
    intro p hpos hle
    have hfiles : readHeader ((openingOf (shelved path bs hdr c x) initial).files
        (MultipartStream.localPath (openingOf (shelved path bs hdr c x) initial).path)) = .ok hdr :=
      (congrArg readHeader hfile).trans hp.read
    have hsearch : findPartEx unset ((openingOf (shelved path bs hdr c x) initial).search p)
        hdr.packageUuid (cString hdr.pkgFilename) p = some (shelf c p) := hp.found _ hpos hle
    unfold Opening.find
    rw [hfiles]
    simp only
    unfold Opening.partPath
    rw [hsearch]
  have hindex := valid_index (readHeader_ok hp.read).2.2
  have hcount : ¬(hdr.totalParts = 0 ∨ maxParts < hdr.totalParts) := by
    have hmax := hp.part.parts
    omega
  obtain ⟨s, hs, hlaid⟩ := hp.resolveParts (x := x) hinitial hfind hdr.totalParts 0 (Nat.zero_add _)
    (s := ⟨true, 1, hdr.totalParts, hdr.totalPkgSize, cString hdr.pkgFilename, hdr.packageUuid,
      fun _ => ⟨[], 0, 0, 0, none⟩⟩)
    ⟨rfl, rfl, rfl, fun h => by omega, fun i hi => absurd hi (Nat.not_lt_zero i)⟩
  refine ⟨s, ?_, hlaid⟩
  unfold Opening.open virtualStreamOpen
  have hfile' : (openingOf (shelved path bs hdr c x) initial).files
      (MultipartStream.localPath (openingOf (shelved path bs hdr c x) initial).path) = some bs := hfile
  rw [hfile']
  simp only [hp.read]
  rw [if_neg hcount]
  exact hs

/-- The first byte of the part is looked for in the part. -/
theorem Placed.partAt (hp : Placed path bs hdr c) {s : VirtualStream}
    (hparts : s.totalParts = hdr.totalParts)
    (hown : (s.parts (hdr.partIndex - 1)).startPkgOffset = sliceStart hdr ∧
      0 < (s.parts (hdr.partIndex - 1)).partDataSize)
    (hothers : ∀ i < hdr.totalParts, i + 1 ≠ hdr.partIndex → (s.parts i).partDataSize = 0) :
    MultipartStream.partAt s (sliceStart hdr) = some (hdr.partIndex - 1) := by
  have hindex := valid_index (readHeader_ok hp.read).2.2
  have hcovers : ∀ i < hdr.totalParts,
      (covers s (sliceStart hdr) i = true ↔ i = hdr.partIndex - 1) := by
    intro i hi
    unfold covers
    rw [decide_eq_true_iff]
    by_cases hi' : i + 1 = hdr.partIndex
    · obtain rfl : i = hdr.partIndex - 1 := by omega
      rw [hown.1]
      omega
    · rw [hothers i hi hi']
      omega
  unfold MultipartStream.partAt
  rw [hparts]
  cases hf : (List.range hdr.totalParts).find? (covers s (sliceStart hdr)) with
  | none =>
    have hnone := List.find?_eq_none.mp hf (hdr.partIndex - 1) (List.mem_range.mpr (by omega))
    exact absurd ((hcovers _ (by omega)).mpr rfl) hnone
  | some i =>
    have hi := List.mem_range.mp (List.mem_of_find?_eq_some hf)
    rw [(hcovers i hi).mp (List.find?_some hf)]

end Copies

/-- What a read of one byte at this place of a file gives. -/
def byteAt (file : List UInt8) (n : Nat) : ReadResult :=
  match file.drop n with
  | [] => .error
  | b :: _ => .data [b]

/-- One byte of a part, at its start. -/
theorem transfer_first {s : VirtualStream} {i off : Nat} (file : List UInt8) (t : Turn)
    (hstart : (s.parts i).startPkgOffset = off) (hsize : 0 < (s.parts i).partDataSize)
    (htotal : off < s.totalPkgSize) :
    transfer s i off 1 file t = byteAt file (s.parts i).dataOffset := by
  have hread : (if s.totalPkgSize < off + 1 then s.totalPkgSize - off else 1) = 1 := if_neg (by omega)
  have hchunk : (if 1 < (s.parts i).partDataSize then 1 else (s.parts i).partDataSize) = 1 := by
    split_ifs <;> omega
  unfold transfer byteAt
  dsimp only
  rw [hstart, if_neg (Nat.lt_irrefl off), Nat.sub_self, if_neg (by omega), Nat.sub_zero, hread, hchunk,
    Nat.add_zero, preadLoop, if_neg Nat.one_ne_zero]
  have htake : min 1 (max 1 (t.short (s.parts i).dataOffset)) = 1 :=
    Nat.min_eq_left (Nat.le_max_left 1 _)
  dsimp only
  rw [htake]
  cases file.drop (s.parts i).dataOffset with
  | nil => rfl
  | cons b rest => rfl

/-- The part is open, or can be opened. -/
def Ready (s : VirtualStream) (i : Nat) (t : Turn) (file : List UInt8) : Prop :=
  (s.parts i).fd = some file ∨
    ((s.parts i).fd = none ∧ (s.parts i).path ≠ [] ∧ t.files (s.parts i).path = some file)

theorem readPass_ready {s : VirtualStream} {off i : Nat} {t : Turn} {file : List UInt8}
    (hat : partAt s off = some i) (hfile : Ready s i t file)
    (hstart : (s.parts i).startPkgOffset = off) (hsize : 0 < (s.parts i).partDataSize)
    (htotal : off < s.totalPkgSize) :
    (readPass s off 1 t).result = some (byteAt file (s.parts i).dataOffset) := by
  have hfd : (if (s.parts i).fd = none ∧ (s.parts i).path ≠ [] then t.files (s.parts i).path
      else (s.parts i).fd) = some file := by
    rcases hfile with hfd | ⟨hfd, hpath, hopen⟩
    · rw [hfd, if_neg fun h => nomatch h.1]
    · rw [if_pos ⟨hfd, hpath⟩, hopen]
  have htransfer := @transfer_first
    { s.setPart i { s.parts i with fd := some file } with currentPart := i + 1 } i off file t
    (by rw [setPart_self]; exact hstart) (by rw [setPart_self]; exact hsize) htotal
  rw [setPart_self] at htransfer
  unfold readPass
  rw [hat]
  dsimp only
  rw [hfd]
  dsimp only
  rw [htransfer]

theorem readPass_wait {s : VirtualStream} {off i : Nat} {t : Turn} (hat : partAt s off = some i)
    (hfd : (s.parts i).fd = none) (hpath : (s.parts i).path ≠ [])
    (hfile : t.files (s.parts i).path = none) :
    readPass s off 1 t =
      let waited := waitForPart
        { s.setPart i { s.parts i with fd := none } with currentPart := i + 1 } i t
      ⟨waited.1, if waited.2 then none else some .error, some (i + 1)⟩ := by
  unfold readPass
  rw [hat]
  dsimp only
  rw [if_pos ⟨hfd, hpath⟩, hfile]

/-- A read of the first byte of the part, with the directories as they are. -/
def firstByte (fs : FileSystem) (hdr : Header) : Ask :=
  ⟨sliceStart hdr, 1, fun _ => ⟨fs.content, [fs], fs.content, fun _ => 1⟩, 2⟩

section Reads

variable {path : Path} {bs : List UInt8} {hdr : Header} {c x : UInt8}

theorem Placed.start_lt (hp : Placed path bs hdr c) : sliceStart hdr < hdr.totalPkgSize := by
  have hin := hp.part.inside
  have hfilled := hp.part.filled
  omega

theorem Laid.at (hp : Placed path bs hdr c) {initial : Path} {s : VirtualStream}
    (hs : Laid initial hdr hdr.totalParts s) :
    partAt s (sliceStart hdr) = some (hdr.partIndex - 1) ∧
      s.parts (hdr.partIndex - 1) =
        ⟨initial, sliceStart hdr, hdr.partDataSize, dataStart hdr, none⟩ := by
  have hown := hs.own (valid_index (readHeader_ok hp.read).2.2).2
  refine ⟨hp.partAt hs.parts ⟨by rw [hown], by rw [hown]; exact hp.part.filled⟩ ?_, hown⟩
  exact fun i hi hne => (hs.others i hi hne).1

theorem Placed.read_eq (hp : Placed path bs hdr c) {s : VirtualStream}
    (hsize : s.totalPkgSize = hdr.totalPkgSize) (fs : FileSystem) :
    virtualStreamRead s ((firstByte fs hdr).request unset) =
      readLoop (sliceStart hdr) 1 ((firstByte fs hdr).request unset).turns 2 0 s := by
  have hlt := hp.start_lt
  rw [← hsize] at hlt
  unfold virtualStreamRead
  refine if_neg ?_
  rintro (h0 | hend)
  · cases h0
  · exact absurd hend (Nat.not_le_of_lt hlt)

/-- Without the scheme the part is opened and read. -/
theorem Placed.plain_read (hp : Placed path bs hdr c) {s : VirtualStream}
    (hs : Laid path hdr hdr.totalParts s) :
    (virtualStreamRead s ((firstByte (shelved path bs hdr c x) hdr).request unset)).result =
      some (byteAt bs (dataStart hdr)) := by
  obtain ⟨hat, hown⟩ := Laid.at hp hs
  have hlt := hp.start_lt
  rw [← hs.size] at hlt
  have hne : path ≠ [] := by
    rintro rfl
    cases hp.local'.absolute
  have hready : Ready s (hdr.partIndex - 1)
      (((firstByte (shelved path bs hdr c x) hdr).request unset).turns 0) bs := by
    refine .inr ⟨by rw [hown], by rw [hown]; exact hne, ?_⟩
    rw [hown]
    exact if_pos rfl
  have hpass := readPass_ready hat hready (by rw [hown]) (by rw [hown]; exact hp.part.filled) hlt
  rw [hown] at hpass
  rw [hp.read_eq hs.size, readLoop]
  dsimp only
  rw [hpass]

theorem waitForPart_found {s : VirtualStream} {i : Nat} {t : Turn} {p : Path} {h : Header}
    {file : List UInt8}
    (hwait : t.waitDisc s.packageUuid s.pkgFilename (i + 1) s.totalParts = some p)
    (hread : readHeader (t.later (localPath p)) = .ok h) (hfile : t.later p = some file) :
    ∃ s', waitForPart s i t = (s', true) ∧ s'.totalParts = s.totalParts ∧
      s'.totalPkgSize = s.totalPkgSize ∧
      s'.parts i = ⟨p, if 0 < h.partOffset then h.partOffset else (s.parts i).startPkgOffset,
        h.partDataSize, dataStart h, some file⟩ ∧
      ∀ j, j ≠ i → (s'.parts j).partDataSize = (s.parts j).partDataSize := by
  unfold waitForPart
  rw [hwait]
  dsimp only
  rw [hread]
  dsimp only
  rw [hfile]
  refine ⟨_, rfl, rfl, rfl, setPart_self _ i _, fun j hj => ?_⟩
  rw [setPart_other _ hj]
  simp only [hj, if_false]

theorem Placed.scheme_closed (hp : Placed path bs hdr c) :
    (shelved path bs hdr c x).content (scheme ++ path) = none := by
  have hother : ∀ q : Path, q.head? = some 47 → scheme ++ path ≠ q := by
    rintro q hq rfl
    cases hq
  show shelfContent path bs hdr c x (scheme ++ path) = none
  unfold shelfContent
  rw [if_neg (hother path hp.local'.absolute)]
  cases hn : partNumber (scheme ++ path) with
  | none => rfl
  | some j =>
    show (if scheme ++ path = shelf c j ∧ j ≤ hdr.totalParts then some (copyFile hdr j x) else none) = none
    exact if_neg fun h => hother (shelf c j) rfl h.1

/-- With the scheme the part cannot be opened, and the copy on the disc is read. -/
theorem Placed.scheme_read (hp : Placed path bs hdr c) {s : VirtualStream}
    (hs : Laid (scheme ++ path) hdr hdr.totalParts s) :
    (virtualStreamRead s ((firstByte (shelved path bs hdr c x) hdr).request unset)).result =
      some (.data [x]) := by
  obtain ⟨hat, hown⟩ := Laid.at hp hs
  have hindex := valid_index (readHeader_ok hp.read).2.2
  have hk : hdr.partIndex - 1 + 1 = hdr.partIndex := Nat.sub_add_cancel hindex.1
  have hlt := hp.start_lt
  generalize ht : ((firstByte (shelved path bs hdr c x) hdr).request unset).turns = turns
  have hfiles : ∀ n, (turns n).files = (shelved path bs hdr c x).content := fun n => by rw [← ht]; rfl
  have hlater : ∀ n, (turns n).later = (shelved path bs hdr c x).content := fun n => by rw [← ht]; rfl
  have hwait : ∀ n name total, (turns n).waitDisc hdr.packageUuid name hdr.partIndex total =
      some (shelf c hdr.partIndex) := by
    intro n name total
    rw [← ht]
    show [shelved path bs hdr c x].findSome? (fun fs =>
      findPartEx unset fs hdr.packageUuid name hdr.partIndex) = _
    rw [List.findSome?_cons, hp.found name hindex.1 hindex.2]
  have hcopy := hp.content (x := x) hindex.1 hindex.2
  have hlocal : localPath (shelf c hdr.partIndex) = shelf c hdr.partIndex := localPath_absolute rfl
  -- the first pass waits for the part
  have hclosed : (turns 0).files (s.parts (hdr.partIndex - 1)).path = none := by
    rw [hown, hfiles]
    exact hp.scheme_closed
  have hpass := readPass_wait hat (by rw [hown]) (by rw [hown]; exact List.cons_ne_nil _ _) hclosed
  generalize hs0 : ({ s.setPart (hdr.partIndex - 1) { s.parts (hdr.partIndex - 1) with fd := none } with
    currentPart := hdr.partIndex - 1 + 1 } : VirtualStream) = s0 at hpass
  have hparts0 : ∀ j, (s0.parts j).startPkgOffset = (s.parts j).startPkgOffset ∧
      (s0.parts j).partDataSize = (s.parts j).partDataSize := by
    intro j
    rw [← hs0]
    show ((s.setPart _ _).parts j).startPkgOffset = _ ∧ ((s.setPart _ _).parts j).partDataSize = _
    by_cases hj : j = hdr.partIndex - 1
    · rw [hj, setPart_self]
      exact ⟨rfl, rfl⟩
    · rw [setPart_other _ hj]
      exact ⟨rfl, rfl⟩
  have hsame0 : s0.packageUuid = hdr.packageUuid ∧ s0.totalParts = hdr.totalParts ∧
      s0.totalPkgSize = hdr.totalPkgSize := by
    rw [← hs0]
    exact ⟨hs.uuid, hs.parts, hs.size⟩
  obtain ⟨s1, hwaited, htotal1, hsize1, hpart1, hother1⟩ := waitForPart_found (s := s0)
    (i := hdr.partIndex - 1) (t := turns 0) (p := shelf c hdr.partIndex)
    (by rw [hsame0.1, hk]; exact hwait 0 _ _)
    (by rw [hlater, hlocal, hcopy]; exact readHeader_copy hp.read hindex.1 hindex.2 x)
    (by rw [hlater]; exact hcopy)
  -- the second one reads the copy
  have hoff : (copyHeader hdr hdr.partIndex).partOffset = sliceStart hdr := if_pos rfl
  have hdata : (copyHeader hdr hdr.partIndex).partDataSize = 1 := if_pos rfl
  have hstart1 : (s1.parts (hdr.partIndex - 1)).startPkgOffset = sliceStart hdr := by
    rw [hpart1]
    dsimp only
    rw [hoff, (hparts0 _).1, hown]
    split_ifs with h
    · rfl
    · rfl
  have hlen1 : 0 < (s1.parts (hdr.partIndex - 1)).partDataSize := by
    rw [hpart1]
    exact hdata.symm ▸ Nat.one_pos
  have hat1 : MultipartStream.partAt s1 (sliceStart hdr) = some (hdr.partIndex - 1) := by
    refine hp.partAt (htotal1.trans hsame0.2.1) ⟨hstart1, hlen1⟩ fun i hi hne => ?_
    rw [hother1 i (by omega), (hparts0 i).2]
    exact (hs.others i hi hne).1
  have hready1 : Ready s1 (hdr.partIndex - 1) (turns 1) (copyFile hdr hdr.partIndex x) :=
    .inl (by rw [hpart1])
  have hpass1 := readPass_ready hat1 hready1 hstart1 hlen1 (by rw [hsize1, hsame0.2.2]; exact hlt)
  have hbyte : byteAt (copyFile hdr hdr.partIndex x) (s1.parts (hdr.partIndex - 1)).dataOffset =
      .data [x] := by
    have hoffset : (s1.parts (hdr.partIndex - 1)).dataOffset = headerSize := by
      rw [hpart1]
      exact dataStart_copy hdr hdr.partIndex
    unfold byteAt
    rw [hoffset, copyFile, ← Header.length_bytes (copyHeader_filled hp.read hdr.partIndex), List.drop_left]
  rw [hp.read_eq hs.size, ht, readLoop]
  dsimp only
  rw [hpass, hwaited]
  dsimp only
  rw [if_pos rfl, readLoop]
  dsimp only
  rw [hpass1, hbyte]

/-- The part is not read the same with the scheme in front of its path. -/
theorem Placed.not_transparent (hp : Placed path bs hdr c)
    (hx : byteAt bs (dataStart hdr) ≠ .data [x]) : ¬Transparent unset (shelved path bs hdr c x) path := by
  intro h
  obtain ⟨s, hs, hlaid⟩ := hp.opened (x := x) (localPath_scheme path)
  obtain ⟨s', hs', hlaid'⟩ := hp.opened (x := x) (localPath_absolute hp.local'.absolute)
  unfold Transparent at h
  rw [hs, hs'] at h
  have hfirst := h [firstByte (shelved path bs hdr c x) hdr]
  unfold answers at hfirst
  dsimp only at hfirst
  rw [hp.scheme_read hlaid, hp.plain_read hlaid'] at hfirst
  exact hx (Option.some.inj (List.cons.inj hfirst).1).symm

end Reads

/-- Some letter keeps the copies apart from the part, and some byte from its first one. -/
theorem not_transparent {path : Path} (hpath : LocalPath path) {bs : List UInt8} {hdr : Header}
    (hr : readHeader (some bs) = .ok hdr) (hpart : PackagePart hdr) :
    ∃ fs : FileSystem, fs.content path = some bs ∧ ¬Transparent unset fs path := by
  have hletter : ∃ c ∈ [112, 80], ∀ j, shelf c j ≠ path := by
    by_cases ha : path[10]? = some 112
    · refine ⟨80, by decide, fun j hj => ?_⟩
      rw [← hj] at ha
      have hb : (shelf 80 j)[10]? = some 80 := rfl
      rw [hb] at ha
      exact absurd ha (by decide)
    · exact ⟨112, by decide, fun j hj => ha (hj ▸ rfl)⟩
  obtain ⟨c, hc, hapart⟩ := hletter
  have hp : Placed path bs hdr c := ⟨hpath, hr, hpart, hc, hapart⟩
  have hbyte : ∃ x, byteAt bs (dataStart hdr) ≠ .data [x] := by
    cases byteAt bs (dataStart hdr) with
    | error => exact ⟨0, nofun⟩
    | data ds =>
      by_cases h0 : ds = [0]
      · refine ⟨1, fun h => ?_⟩
        rw [h0] at h
        cases h
      · exact ⟨0, fun h => h0 (ReadResult.data.inj h)⟩
  obtain ⟨x, hx⟩ := hbyte
  exact ⟨shelved path bs hdr c x, if_pos rfl, hp.not_transparent hx⟩

/-- A path opens and reads the same with the scheme and without it, whatever lies
in the directories, exactly where its file is no part of a package. -/
theorem scheme_transparent {path : Path} (hpath : LocalPath path) {file : Option (List UInt8)}
    (hfile : ∀ h, readHeader file = .ok h → PackagePart h) :
    (∀ (env : Env) (fs : FileSystem), fs.content path = file → Transparent env fs path) ↔
      ∀ h, readHeader file ≠ .ok h := by
  constructor
  · intro hall h hr
    cases file with
    | none => cases hr
    | some bs =>
      obtain ⟨fs, hcontent, hnot⟩ := not_transparent hpath hr (hfile h hr)
      exact hnot (hall unset fs hcontent)
  · intro hsingle env fs hcontent
    exact transparent_single hpath (hcontent.symm ▸ hsingle)

def usbPath : Path := ascii "/mnt/usb0/game.pkg.part1"

theorem usbPath_local : LocalPath usbPath := ⟨by decide, by decide⟩

theorem gameHeader_part : PackagePart (gameHeader [1] ⟨1, 0, 4096, [1]⟩) :=
  ⟨by decide, by decide, by decide⟩

theorem scheme_transparent_usb :
    (∀ (env : Env) (fs : FileSystem), fs.content usbPath = some [1, 2, 3] →
      Transparent env fs usbPath) ↔ ∀ h, readHeader (some [1, 2, 3]) ≠ .ok h := by
  refine scheme_transparent usbPath_local fun h hr => ?_
  obtain ⟨hlen, -⟩ := readHeader_ok hr
  exact absurd hlen (by decide)

theorem scheme_transparent_fails :
    ¬∀ (path : Path), LocalPath path → ∀ (env : Env) (fs : FileSystem), Transparent env fs path := by
  intro hall
  have hread : readHeader (some (PkgSplit.partFile (gameMeta [1]) 2 gameParts ⟨1, 0, 4096, [1]⟩)) =
      .ok (gameHeader [1] ⟨1, 0, 4096, [1]⟩) :=
    PkgSplit.readHeader_partFile (by decide) (by decide) (by decide)
  obtain ⟨fs, -, hnot⟩ := not_transparent usbPath_local hread gameHeader_part
  exact hnot (hall usbPath usbPath_local unset fs)

end PkgManager.SchemePrefix
