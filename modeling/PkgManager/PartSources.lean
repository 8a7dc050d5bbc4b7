import PkgManager.CText
import PkgManager.MultipartStream
import PkgManager.PkgSplit

namespace PkgManager.PartSources

open CText MultipartHeader MultipartStream

/-- What `stat` says a path is. -/
inductive Kind where
  | regular
  | directory
  | other

/-- What the calls of one search answer: the names in a directory in the order
of `readdir`, `stat`, the mount check and the content of the files. -/
structure FileSystem where
  readdir : Path → Option (List Path)
  kind : Path → Option Kind
  mounted : Path → Bool
  content : Files

/-- `PKG_SCAN_DIR`, `PKG_DISC_DIR` and `PKG_TMP_DIR`, empty where they are not set. -/
structure Env where
  scanDir : Path
  discDir : Path
  tmpDir : Path

/-- What stands before the last slash, if there is one. -/
def dirName (path : Path) : Option Path :=
  if 47 ∈ path then some ((path.reverse.dropWhile (· ≠ 47)).drop 1).reverse else none

def hidden (name : Path) : Bool := name.head? = some 46

/-! Finding a part. -/

/-- The name of a file in the staging directory: `part_%u.pkg.part`. -/
def stagedNumber (name : Path) : Option Nat :=
  if sameText (name.take 5) (ascii "part_") then
    let (n, rest) := strtoul (name.drop 5)
    if 0 < n ∧ n ≤ maxParts ∧ sameText rest (ascii ".pkg.part") then some n else none
  else none

/-- The number behind the last ".part" that a digit follows. -/
def suffixNumber (name : Path) : Option Nat :=
  let candidates := name.tails.filter fun t =>
    sameText (t.take 5) (ascii ".part") && (t.drop 5).head?.any isDigit
  match candidates.getLast? with
  | none => none
  | some t =>
    let (n, rest) := strtoul (t.drop 5)
    if n = 0 ∨ maxParts < n then none
    else if rest ≠ [] ∧ sameText rest (ascii ".pkg") = false then none
    else some n

def partNumber (path : Path) : Option Nat :=
  let name := baseName path
  if hidden name ∨ name = [] then none else (stagedNumber name).or (suffixNumber name)

/-- `multipart_is_part_filename`. -/
def isPartFilename (path : Path) (target : Nat) : Bool :=
  (partNumber path).any fun n => target = 0 ∨ target = n

/-- A header that `check_part_file` takes for the package. -/
def matchesPackage (uuid name : List UInt8) (h : Header) : Bool :=
  h.packageUuid = uuid ∨ (name ≠ [] ∧ sameText (upToNul h.pkgFilename) name)

/-- `check_part_file`. -/
def checkPartFile (fs : FileSystem) (uuid name : List UInt8) (part : Nat) (full : Path) :
    Option Path :=
  if isPartFilename full 0 = false then none
  else
    match readHeader (fs.content (localPath full)) with
    | .error _ => none
    | .ok h =>
      if matchesPackage uuid name h = false then none
      else if h.partIndex = part then some (bounded 512 full)
      else none

def joined (dir name : Path) : Path := bounded 1024 (dir ++ [47] ++ name)

/-- `scan_find_part_recursive` with `n` levels left. -/
def scanFindPartRecursive (fs : FileSystem) (uuid name : List UInt8) (part : Nat) :
    Nat → Path → Option Path
  | 0, _ => none
  | n + 1, dir =>
    match fs.readdir dir with
    | none => none
    | some entries => entries.findSome? fun entry =>
      if hidden entry then none
      else
        match fs.kind (joined dir entry) with
        | some .directory => scanFindPartRecursive fs uuid name part n (joined dir entry)
        | some .regular => checkPartFile fs uuid name part (joined dir entry)
        | _ => none

/-- `scan_find_part_in_location`. -/
def scanFindPartInLocation (fs : FileSystem) (uuid name : List UInt8) (part : Nat) (base : Path) :
    Option Path :=
  match fs.readdir base with
  | none => none
  | some entries => entries.findSome? fun entry =>
    if hidden entry then none
    else
      match fs.kind (joined base entry) with
      | some .regular => checkPartFile fs uuid name part (joined base entry)
      | some .directory =>
        if entry = ascii "pkg" then
          scanFindPartRecursive fs uuid name part 6 (joined base entry)
        else none
      | _ => none

/-- The locations of `pkg_scanner_find_part_ex`, in its order. -/
def locations (env : Env) (fs : FileSystem) : List Path :=
  (if env.scanDir = [] then []
    else env.scanDir :: if env.discDir = [] then [] else [env.discDir]) ++
  ascii "/mnt/disc" ::
    ((List.range 8).map fun i => ascii "/mnt/usb" ++ decimal i).filter fs.mounted

/-- `pkg_scanner_find_part_ex`. -/
def findPartEx (env : Env) (fs : FileSystem) (uuid name : List UInt8) (part : Nat) : Option Path :=
  (locations env fs).findSome? (scanFindPartInLocation fs uuid name part)

/-- The search in the directory of the opened file. -/
def adjacentPart (fs : FileSystem) (initial : Path) (uuid : List UInt8) (part : Nat) : Option Path :=
  match dirName (bounded 512 initial) with
  | none => none
  | some dir =>
    match fs.readdir dir with
    | none => none
    | some entries => entries.findSome? fun entry =>
      if hidden entry ∨ isPartFilename entry part = false then none
      else
        match readHeader (fs.content (localPath (joined dir entry))) with
        | .error _ => none
        | .ok h =>
          if h.packageUuid = uuid ∧ h.partIndex = part then some (bounded 512 (joined dir entry))
          else none

/-- The file of the part in the staging directory. -/
def stagedPart (env : Env) (fs : FileSystem) (part : Nat) : Option Path :=
  let dir := if env.tmpDir = [] then ascii "/data/pkgmgr/tmp" else env.tmpDir
  let cand := bounded 512 (dir ++ ascii "/part_" ++ decimal part ++ ascii ".pkg.part")
  match fs.kind cand with
  | none => none
  | some _ => some cand

/-! The stream. -/

/-- An opening of a local path: the files it reads headers from and what the
search for each part meets. -/
structure Opening where
  path : Path
  files : Files
  search : Nat → FileSystem

/-- The path of part `p` from the finder, the adjacent files or the staging directory. -/
def Opening.partPath (env : Env) (o : Opening) (hdr : Header) (p : Nat) : Option Path :=
  match findPartEx env (o.search p) hdr.packageUuid (cString hdr.pkgFilename) p with
  | some path => some path
  | none =>
    match adjacentPart (o.search p) o.path hdr.packageUuid p with
    | some path => some path
    | none => stagedPart env (o.search p) p

def Opening.find (env : Env) (o : Opening) (p : Nat) : Option Path :=
  match readHeader (o.files (localPath o.path)) with
  | .error _ => none
  | .ok hdr => o.partPath env hdr p

/-- `virtual_stream_open` with the finder of the scanner. -/
def Opening.open (env : Env) (o : Opening) : Except Int VirtualStream :=
  virtualStreamOpen o.files (o.find env) o.path

/-- What one pass of a read meets: the files it can open, what each look of
`installer_wait_for_part` meets until it finds the part or gives up, the files
after the wait, and how much each `pread` returns at most. -/
structure Moment where
  files : Files
  looks : List FileSystem
  later : Files
  short : Nat → Nat

def Moment.turn (env : Env) (m : Moment) : Turn where
  files := m.files
  waitDisc uuid name part _ := m.looks.findSome? fun fs => findPartEx env fs uuid name part
  later := m.later
  short := m.short

structure Ask where
  off : Nat
  count : Nat
  moments : Nat → Moment
  fuel : Nat

def Ask.request (env : Env) (a : Ask) : Request :=
  ⟨a.off, a.count, fun k => (a.moments k).turn env, a.fuel⟩

/-- The stream after a sequence of `virtual_stream_read` calls. -/
def after (env : Env) (s : VirtualStream) (asks : List Ask) : VirtualStream :=
  afterReads s (asks.map (Ask.request env))

/-! What each source says about the file it gives. -/

/-- The path is that of a file, in a buffer of 512 bytes, whose header has the property. -/
def Shows (files : Files) (path : Path) (P : Header → Prop) : Prop :=
  ∃ full h, path = bounded 512 full ∧ readHeader (files (localPath full)) = .ok h ∧ P h

/-- The header carries the package and the number of the part. -/
def Carries (uuid : List UInt8) (part : Nat) (h : Header) : Prop :=
  h.packageUuid = uuid ∧ h.partIndex = part

/-- The same, where another package may have the file name of this one. -/
def Named (uuid name : List UInt8) (part : Nat) (h : Header) : Prop :=
  matchesPackage uuid name h = true ∧ h.partIndex = part

theorem checkPartFile_shows {fs : FileSystem} {uuid name : List UInt8} {part : Nat} {full path : Path}
    (h : checkPartFile fs uuid name part full = some path) :
    Shows fs.content path (Named uuid name part) := by
  unfold checkPartFile at h
  cases hr : readHeader (fs.content (localPath full)) with
  | error e => simp [hr] at h
  | ok hdr =>
    simp only [hr] at h
    split_ifs at h with _ hm hp
    exact ⟨full, hdr, (Option.some.inj h).symm, hr, by simpa using hm, hp⟩

theorem scanFindPartRecursive_shows {fs : FileSystem} {uuid name : List UInt8} {part n : Nat}
    {dir path : Path} (h : scanFindPartRecursive fs uuid name part n dir = some path) :
    Shows fs.content path (Named uuid name part) := by
  induction n generalizing dir path with
  | zero => simp [scanFindPartRecursive] at h
  | succ n ih =>
    unfold scanFindPartRecursive at h
    cases hd : fs.readdir dir with
    | none => simp [hd] at h
    | some entries =>
      rw [hd] at h
      obtain ⟨entry, _, he⟩ := List.exists_of_findSome?_eq_some h
      rw [if_neg (fun hh => by simp [hh] at he)] at he
      cases hk : fs.kind (joined dir entry) with
      | none => simp [hk] at he
      | some kind =>
        cases kind with
        | directory => exact ih (by simpa [hk] using he)
        | regular => exact checkPartFile_shows (by simpa [hk] using he)
        | other => simp [hk] at he

theorem scanFindPartInLocation_shows {fs : FileSystem} {uuid name : List UInt8} {part : Nat}
    {base path : Path} (h : scanFindPartInLocation fs uuid name part base = some path) :
    Shows fs.content path (Named uuid name part) := by
  unfold scanFindPartInLocation at h
  cases hd : fs.readdir base with
  | none => simp [hd] at h
  | some entries =>
    rw [hd] at h
    obtain ⟨entry, _, he⟩ := List.exists_of_findSome?_eq_some h
    rw [if_neg (fun hh => by simp [hh] at he)] at he
    cases hk : fs.kind (joined base entry) with
    | none => simp [hk] at he
    | some kind =>
      cases kind with
      | regular => exact checkPartFile_shows (by simpa [hk] using he)
      | directory =>
        simp only [hk] at he
        split_ifs at he
        exact scanFindPartRecursive_shows he
      | other => simp [hk] at he

theorem findPartEx_shows {env : Env} {fs : FileSystem} {uuid name : List UInt8} {part : Nat}
    {path : Path} (h : findPartEx env fs uuid name part = some path) :
    Shows fs.content path (Named uuid name part) := by
  obtain ⟨base, _, hb⟩ := List.exists_of_findSome?_eq_some h
  exact scanFindPartInLocation_shows hb

theorem adjacentPart_shows {fs : FileSystem} {initial path : Path} {uuid : List UInt8} {part : Nat}
    (h : adjacentPart fs initial uuid part = some path) :
    Shows fs.content path (Carries uuid part) := by
  unfold adjacentPart at h
  cases hdir : dirName (bounded 512 initial) with
  | none => simp [hdir] at h
  | some dir =>
    rw [hdir] at h
    cases hd : fs.readdir dir with
    | none => simp [hd] at h
    | some entries =>
      simp only [hd] at h
      obtain ⟨entry, _, he⟩ := List.exists_of_findSome?_eq_some h
      cases hr : readHeader (fs.content (localPath (joined dir entry))) with
      | error e => simp [hr] at he
      | ok hdr =>
        simp only [hr] at he
        split_ifs at he with _ hm
        exact ⟨joined dir entry, hdr, (Option.some.inj he).symm, hr, hm⟩

/-- Where the path of part `p` of a stream comes from, and what its source found
in the file when it gave the path. -/
inductive Supplied (env : Env) (o : Opening) (asks : List Ask) (uuid name : List UInt8) (p : Nat) :
    Path → Prop where
  | initial {h : Header} : readHeader (o.files (localPath o.path)) = .ok h → Carries uuid p h →
      Supplied env o asks uuid name p o.path
  | finder {path : Path} : findPartEx env (o.search p) uuid name p = some path →
      Shows (o.search p).content path (Named uuid name p) → Supplied env o asks uuid name p path
  | adjacent {path : Path} : adjacentPart (o.search p) o.path uuid p = some path →
      Shows (o.search p).content path (Carries uuid p) → Supplied env o asks uuid name p path
  | staging {path : Path} : findPartEx env (o.search p) uuid name p = none →
      adjacentPart (o.search p) o.path uuid p = none → stagedPart env (o.search p) p = some path →
      Supplied env o asks uuid name p path
  | waiter {path : Path} {a : Ask} {k : Nat} {fs : FileSystem} : a ∈ asks →
      fs ∈ (a.moments k).looks → findPartEx env fs uuid name p = some path →
      Shows fs.content path (Named uuid name p) → Supplied env o asks uuid name p path

theorem Opening.partPath_supplied {env : Env} {o : Opening} {hdr : Header} {p : Nat} {path : Path}
    (h : o.partPath env hdr p = some path) :
    Supplied env o [] hdr.packageUuid (cString hdr.pkgFilename) p path := by
  unfold Opening.partPath at h
  cases hf : findPartEx env (o.search p) hdr.packageUuid (cString hdr.pkgFilename) p with
  | some found =>
    rw [hf] at h
    cases h
    exact .finder hf (findPartEx_shows hf)
  | none =>
    rw [hf] at h
    cases ha : adjacentPart (o.search p) o.path hdr.packageUuid p with
    | some found =>
      simp only [ha] at h
      cases h
      exact .adjacent ha (adjacentPart_shows ha)
    | none =>
      simp only [ha] at h
      exact .staging hf ha h

theorem Supplied.mono {env : Env} {o : Opening} {asks asks' : List Ask} {uuid name : List UInt8}
    {p : Nat} {path : Path} (h : Supplied env o asks uuid name p path) (hsub : asks ⊆ asks') :
    Supplied env o asks' uuid name p path := by
  cases h with
  | initial hr hc => exact .initial hr hc
  | finder hf hs => exact .finder hf hs
  | adjacent ha hs => exact .adjacent ha hs
  | staging hf ha hg => exact .staging hf ha hg
  | waiter hmem hl hf hs => exact .waiter (hsub hmem) hl hf hs

/-- Every path in the table has a source. -/
def Sourced (env : Env) (o : Opening) (asks : List Ask) (s : VirtualStream) : Prop :=
  ∀ i, (s.parts i).path ≠ [] →
    Supplied env o asks s.packageUuid s.pkgFilename (i + 1) (s.parts i).path

/-! Opening. -/

theorem resolvePart_parts {files : Files} {find : Nat → Option Path} {hdr : Header} {initial : Path}
    {s s' : VirtualStream} {p : Nat} (h : resolvePart files find hdr initial s p = .ok s') :
    ∃ part, s' = s.setPart (p - 1) part ∧
      (part.path = [] ∨ (if p = hdr.partIndex then some initial else find p) = some part.path) := by
  unfold resolvePart at h
  cases hp : (if p = hdr.partIndex then some initial else find p) with
  | none =>
    simp only [hp] at h
    exact ⟨_, (Except.ok.inj h).symm, .inl rfl⟩
  | some path =>
    simp only [hp] at h
    cases hr : readHeader (files (localPath path)) with
    | error e => simp [hr] at h
    | ok hh =>
      simp only [hr] at h
      exact ⟨_, (Except.ok.inj h).symm, .inr rfl⟩

theorem sourced_setPart {env : Env} {o : Opening} {asks : List Ask} {s : VirtualStream} {i : Nat}
    {part : VirtualPart} (h : Sourced env o asks s)
    (hp : part.path ≠ [] → Supplied env o asks s.packageUuid s.pkgFilename (i + 1) part.path) :
    Sourced env o asks (s.setPart i part) := by
  intro j hj
  unfold VirtualStream.setPart at hj ⊢
  by_cases hij : j = i
  · subst hij
    simp only [Function.update_self] at hj ⊢
    exact hp hj
  · simp only [Function.update_of_ne hij] at hj ⊢
    exact h j hj

theorem resolveParts_sourced {env : Env} {o : Opening} {hdr : Header} {n p : Nat}
    {s s' : VirtualStream} (hr : readHeader (o.files (localPath o.path)) = .ok hdr)
    (huuid : s.packageUuid = hdr.packageUuid) (hname : s.pkgFilename = cString hdr.pkgFilename)
    (hp : 1 ≤ p) (hs : Sourced env o [] s)
    (h : resolveParts o.files (o.find env) hdr o.path n p s = .ok s') : Sourced env o [] s' := by
  induction n generalizing p s with
  | zero =>
    cases h
    exact hs
  | succ n ih =>
    unfold resolveParts at h
    cases hstep : resolvePart o.files (o.find env) hdr o.path s p with
    | error e => simp [hstep] at h
    | ok t =>
      rw [hstep] at h
      obtain ⟨part, rfl, hpart⟩ := resolvePart_parts hstep
      refine ih (s := s.setPart (p - 1) part) huuid hname (by omega) ?_ h
      refine sourced_setPart hs fun hne => ?_
      have hsucc : p - 1 + 1 = p := by omega
      rw [huuid, hname, hsucc]
      have hfrom := hpart.resolve_left hne
      by_cases hidx : p = hdr.partIndex
      · rw [if_pos hidx] at hfrom
        rw [← Option.some.inj hfrom]
        exact .initial hr ⟨rfl, hidx.symm⟩
      · rw [if_neg hidx] at hfrom
        have hfind : o.partPath env hdr p = some part.path := by
          simpa [Opening.find, hr] using hfrom
        exact Opening.partPath_supplied hfind

theorem open_sourced {env : Env} {o : Opening} {s : VirtualStream} (h : o.open env = .ok s)
    (hm : s.isMultipart = true) : Sourced env o [] s := by
  unfold Opening.open virtualStreamOpen at h
  cases hb : o.files (localPath o.path) with
  | none => simp [hb] at h
  | some bs =>
    rw [hb] at h
    cases hr : readHeader (some bs) with
    | error e =>
      simp only [hr] at h
      rw [← Except.ok.inj h] at hm
      cases hm
    | ok hdr =>
      simp only [hr] at h
      split_ifs at h
      exact resolveParts_sourced (by rw [hb, hr]) rfl rfl (Nat.le_refl 1)
        (fun i hi => absurd rfl hi) h

/-! Reading. -/

theorem waitForPart_sourced {env : Env} {o : Opening} {asks : List Ask} {s : VirtualStream} {i : Nat}
    {a : Ask} {k : Nat} (ha : a ∈ asks) (hs : Sourced env o asks s) :
    Sourced env o asks (waitForPart s i ((a.moments k).turn env)).1 := by
  unfold waitForPart
  cases hw : ((a.moments k).turn env).waitDisc s.packageUuid s.pkgFilename (i + 1) s.totalParts with
  | none => exact hs
  | some path =>
    simp only
    have hclosed : Sourced env o asks { s with
        parts := fun k => if k = i then s.parts k else { s.parts k with fd := none } } := by
      intro j hj
      by_cases hij : j = i
      · simp only [if_pos hij] at hj ⊢
        exact hs j hj
      · simp only [if_neg hij] at hj ⊢
        exact hs j hj
    cases hr : readHeader (((a.moments k).turn env).later (localPath path)) with
    | error e => exact hclosed
    | ok h =>
      refine sourced_setPart hclosed fun _ => ?_
      obtain ⟨fs, hfs, hf⟩ := List.exists_of_findSome?_eq_some hw
      exact .waiter ha hfs hf (findPartEx_shows hf)

theorem readPass_sourced {env : Env} {o : Opening} {asks : List Ask} {s : VirtualStream}
    {off count : Nat} {a : Ask} {k : Nat} (ha : a ∈ asks) (hs : Sourced env o asks s) :
    Sourced env o asks (readPass s off count ((a.moments k).turn env)).stream := by
  unfold readPass
  cases hat : partAt s off with
  | none => exact hs
  | some i =>
    simp only
    generalize (if (s.parts i).fd = none ∧ (s.parts i).path ≠ [] then
      ((a.moments k).turn env).files (s.parts i).path else (s.parts i).fd) = fd
    have hopened : Sourced env o asks
        { s.setPart i { s.parts i with fd := fd } with currentPart := i + 1 } :=
      sourced_setPart hs fun hne => hs i hne
    cases fd with
    | some file => exact hopened
    | none => exact waitForPart_sourced ha hopened

theorem readLoop_sourced {env : Env} {o : Opening} {asks : List Ask} {s : VirtualStream}
    {off count n k : Nat} {a : Ask} (ha : a ∈ asks) (hs : Sourced env o asks s) :
    Sourced env o asks (readLoop off count (a.request env).turns n k s).stream := by
  induction n generalizing k s with
  | zero => exact hs
  | succ n ih =>
    have hpass : Sourced env o asks (readPass s off count ((a.moments k).turn env)).stream :=
      readPass_sourced ha hs
    unfold readLoop
    simp only
    cases hres : (readPass s off count ((a.request env).turns k)).result with
    | some r => exact hpass
    | none => exact ih hpass

theorem after_sourced {env : Env} {o : Opening} {asks : List Ask} {s : VirtualStream}
    (hs : Sourced env o asks s) (rest : List Ask) (hsub : rest ⊆ asks) :
    Sourced env o asks (after env s rest) := by
  induction rest generalizing s with
  | nil => exact hs
  | cons a rest ih =>
    obtain ⟨ha, hrest⟩ := List.cons_subset.mp hsub
    refine ih (s := (virtualStreamRead s (a.request env)).stream) ?_ hrest
    unfold virtualStreamRead
    split_ifs
    · exact hs
    · exact readLoop_sourced ha hs

/-- The files that a run meets, from the opening to the last read. -/
inductive Met (o : Opening) (asks : List Ask) : Files → Prop where
  | opened : Met o asks o.files
  | searched (p : Nat) : Met o asks (o.search p).content
  | read {a : Ask} (k : Nat) : a ∈ asks → Met o asks (a.moments k).files
  | looked {a : Ask} {k : Nat} {fs : FileSystem} : a ∈ asks → fs ∈ (a.moments k).looks →
      Met o asks fs.content
  | later {a : Ask} (k : Nat) : a ∈ asks → Met o asks (a.moments k).later

/-- Whatever supplied a path, at some moment of the run its file carried the
package of the stream and the number of the part. -/
def PartsIdentified (env : Env) (o : Opening) (asks : List Ask) : Prop :=
  ∀ s, o.open env = .ok s → s.isMultipart = true →
    ∀ i, ((after env s asks).parts i).path ≠ [] → ∃ files h, Met o asks files ∧
      readHeader (files (localPath ((after env s asks).parts i).path)) = .ok h ∧
      Carries s.packageUuid (i + 1) h

/-! Two packages of one name. -/

def gameMeta (uuid : List UInt8) : PkgSplit.PkgMeta :=
  ⟨ascii "game.pkg", [], [], [], uuid, [], [], []⟩

def gameParts : List PkgSplit.PartInfo := [⟨1, 0, 4096, [1]⟩, ⟨2, 1, 4096, [2]⟩]

def gameHeader (uuid : List UInt8) (p : PkgSplit.PartInfo) : Header :=
  PkgSplit.partHeader (gameMeta uuid) 2 gameParts p

def firstPath : Path := ascii "/mnt/usb0/game.pkg.part1"

def secondPath : Path := ascii "/mnt/disc/game.pkg.part2"

/-- The first part of one package, and everywhere else the second part of another. -/
def gameFiles : Files := fun path =>
  if path = firstPath then
    some (PkgSplit.partFile (gameMeta [1]) 2 gameParts ⟨1, 0, 4096, [1]⟩)
  else some (PkgSplit.partFile (gameMeta [2]) 2 gameParts ⟨2, 1, 4096, [2]⟩)

/-- The other package lies on the disc, and the staging directory is empty. -/
def onDisc : FileSystem where
  readdir dir := if dir = ascii "/mnt/disc" then some [ascii "game.pkg.part2"] else none
  kind path := if path.take 5 = ascii "/mnt/" then some .regular else none
  mounted _ := false
  content := gameFiles

/-- The other package was staged, and nothing is mounted. -/
def inStaging : FileSystem where
  readdir _ := none
  kind _ := some .regular
  mounted _ := false
  content := gameFiles

def unset : Env := ⟨[], [], []⟩

def opening (fs : FileSystem) : Opening := ⟨firstPath, gameFiles, fun _ => fs⟩

theorem readHeader_first :
    readHeader (gameFiles firstPath) = .ok (gameHeader [1] ⟨1, 0, 4096, [1]⟩) := by
  have hf : gameFiles firstPath =
      some (PkgSplit.partFile (gameMeta [1]) 2 gameParts ⟨1, 0, 4096, [1]⟩) := if_pos rfl
  rw [hf]
  exact PkgSplit.readHeader_partFile (by decide) (by decide) (by decide)

theorem readHeader_other {path : Path} (hne : path ≠ firstPath) :
    readHeader (gameFiles path) = .ok (gameHeader [2] ⟨2, 1, 4096, [2]⟩) := by
  have hf : gameFiles path =
      some (PkgSplit.partFile (gameMeta [2]) 2 gameParts ⟨2, 1, 4096, [2]⟩) := if_neg hne
  rw [hf]
  exact PkgSplit.readHeader_partFile (by decide) (by decide) (by decide)

theorem resolvePart_found {files : Files} (find : Nat → Option Path) (hdr : Header) {h : Header}
    (initial : Path) {path : Path} (s : VirtualStream) (p : Nat)
    (hfrom : (if p = hdr.partIndex then some initial else find p) = some path)
    (hr : readHeader (files (localPath path)) = .ok h) :
    ∃ part, part.path = path ∧
      resolvePart files find hdr initial s p = .ok (s.setPart (p - 1) part) := by
  unfold resolvePart
  rw [hfrom]
  simp only [hr]
  exact ⟨_, rfl, rfl⟩

/-- A second part that was found is in the table of the opened stream. -/
theorem open_game {fs : FileSystem} {path : Path} (hlocal : localPath path = path)
    (hne : path ≠ firstPath) (hf : (opening fs).find unset 2 = some path) :
    ∃ s, (opening fs).open unset = .ok s ∧ s.isMultipart = true ∧ (s.parts 1).path = path ∧
      s.packageUuid = (gameHeader [1] ⟨1, 0, 4096, [1]⟩).packageUuid := by
  have hfirst : localPath firstPath = firstPath := by decide
  have h1 : readHeader (gameFiles (localPath firstPath)) = .ok (gameHeader [1] ⟨1, 0, 4096, [1]⟩) := by
    rw [hfirst]
    exact readHeader_first
  have h2 : readHeader (gameFiles (localPath path)) = .ok (gameHeader [2] ⟨2, 1, 4096, [2]⟩) := by
    rw [hlocal]
    exact readHeader_other hne
  have hparts : ∀ s : VirtualStream, ∃ part part', part'.path = path ∧
      resolveParts gameFiles ((opening fs).find unset) (gameHeader [1] ⟨1, 0, 4096, [1]⟩) firstPath
        2 1 s = .ok ((s.setPart 0 part).setPart 1 part') := by
    intro s
    obtain ⟨part, _, hs1⟩ := resolvePart_found ((opening fs).find unset)
      (gameHeader [1] ⟨1, 0, 4096, [1]⟩) firstPath s 1 (if_pos rfl) h1
    obtain ⟨part', hpath, hs2⟩ := resolvePart_found ((opening fs).find unset)
      (gameHeader [1] ⟨1, 0, 4096, [1]⟩) firstPath (s.setPart 0 part) 2 ((if_neg (by decide)).trans hf) h2
    refine ⟨part, part', hpath, ?_⟩
    simp only [resolveParts, hs1, hs2]
  unfold Opening.open virtualStreamOpen
  cases hb : gameFiles (localPath firstPath) with
  | none =>
    rw [hb] at h1
    cases h1
  | some bs =>
    rw [hb] at h1
    have ho : (opening fs).files (localPath (opening fs).path) = some bs := hb
    rw [ho]
    simp only [h1]
    rw [if_neg (by decide)]
    obtain ⟨part, part', hpath, hres⟩ := hparts _
    refine ⟨_, hres, rfl, ?_, rfl⟩
    simpa [VirtualStream.setPart] using hpath

/-- On the disc lies one file. -/
theorem findPartEx_onDisc (uuid name : List UInt8) (part : Nat) :
    findPartEx unset onDisc uuid name part = checkPartFile onDisc uuid name part secondPath := by
  have hlocations : locations unset onDisc = [ascii "/mnt/disc"] := by decide
  have hdir : onDisc.readdir (ascii "/mnt/disc") = some [ascii "game.pkg.part2"] := rfl
  have hkind : onDisc.kind secondPath = some .regular := rfl
  have hfull : joined (ascii "/mnt/disc") (ascii "game.pkg.part2") = secondPath := by decide
  have hseen : hidden (ascii "game.pkg.part2") = false := by decide
  unfold findPartEx
  rw [hlocations, List.findSome?_cons, scanFindPartInLocation, hdir]
  simp only [List.findSome?_cons, List.findSome?_nil, hfull, hkind, hseen]
  cases checkPartFile onDisc uuid name part secondPath <;> rfl

theorem find_onDisc : (opening onDisc).find unset 2 = some secondPath := by
  have hfirst : localPath firstPath = firstPath := by decide
  have hr : readHeader ((opening onDisc).files (localPath (opening onDisc).path)) =
      .ok (gameHeader [1] ⟨1, 0, 4096, [1]⟩) := by
    show readHeader (gameFiles (localPath firstPath)) = _
    rw [hfirst]
    exact readHeader_first
  have hcheck : checkPartFile onDisc (gameHeader [1] ⟨1, 0, 4096, [1]⟩).packageUuid
      (cString (gameHeader [1] ⟨1, 0, 4096, [1]⟩).pkgFilename) 2 secondPath = some secondPath := by
    have hother : readHeader (onDisc.content (localPath secondPath)) =
        .ok (gameHeader [2] ⟨2, 1, 4096, [2]⟩) := by
      have hsecond : localPath secondPath = secondPath := by decide
      have hcontent : onDisc.content = gameFiles := rfl
      rw [hsecond, hcontent]
      exact readHeader_other (by decide)
    have hname : matchesPackage (gameHeader [1] ⟨1, 0, 4096, [1]⟩).packageUuid
        (cString (gameHeader [1] ⟨1, 0, 4096, [1]⟩).pkgFilename)
        (gameHeader [2] ⟨2, 1, 4096, [2]⟩) ≠ false := by decide
    unfold checkPartFile
    rw [if_neg (by decide)]
    simp only [hother]
    have hindex : (gameHeader [2] ⟨2, 1, 4096, [2]⟩).partIndex = 2 := rfl
    rw [if_neg hname, if_pos hindex]
    rfl
  unfold Opening.find
  rw [hr]
  simp only [Opening.partPath]
  have hfind := (findPartEx_onDisc (gameHeader [1] ⟨1, 0, 4096, [1]⟩).packageUuid
    (cString (gameHeader [1] ⟨1, 0, 4096, [1]⟩).pkgFilename) 2).trans hcheck
  generalize (gameHeader [1] ⟨1, 0, 4096, [1]⟩).packageUuid = uuid at hfind ⊢
  generalize cString (gameHeader [1] ⟨1, 0, 4096, [1]⟩).pkgFilename = name at hfind ⊢
  have hsearch : (opening onDisc).search 2 = onDisc := rfl
  rw [hsearch, hfind]

def stagedPath : Path := ascii "/data/pkgmgr/tmp/part_2.pkg.part"

theorem find_inStaging : (opening inStaging).find unset 2 = some stagedPath := by
  have hfirst : localPath firstPath = firstPath := by decide
  have hr : readHeader ((opening inStaging).files (localPath (opening inStaging).path)) =
      .ok (gameHeader [1] ⟨1, 0, 4096, [1]⟩) := by
    show readHeader (gameFiles (localPath firstPath)) = _
    rw [hfirst]
    exact readHeader_first
  have hnone : ∀ uuid name, findPartEx unset inStaging uuid name 2 = none := fun _ _ => rfl
  have hadjacent : ∀ uuid, adjacentPart inStaging firstPath uuid 2 = none := fun _ => rfl
  have hstaged : stagedPart unset inStaging 2 = some stagedPath := by decide
  have hsearch : (opening inStaging).search 2 = inStaging := rfl
  have hpath : (opening inStaging).path = firstPath := rfl
  unfold Opening.find
  rw [hr]
  simp only [Opening.partPath]
  rw [hsearch, hpath, hnone, hadjacent]
  exact hstaged

theorem stagedPart_onDisc (part : Nat) : stagedPart unset onDisc part = none := by
  have hkind : onDisc.kind (bounded 512 (ascii "/data/pkgmgr/tmp" ++ ascii "/part_" ++
      decimal part ++ ascii ".pkg.part")) = none := rfl
  unfold stagedPart
  simp only [unset, if_true, hkind]

/-- A second part found under a foreign header is not of the package. -/
theorem not_identified {fs : FileSystem} {path : Path} (hcontent : fs.content = gameFiles)
    (hlocal : localPath path = path) (hne : path ≠ firstPath) (hsome : path ≠ [])
    (hf : (opening fs).find unset 2 = some path) : ¬PartsIdentified unset (opening fs) [] := by
  intro hall
  obtain ⟨s, hs, hm, hpath, huuid⟩ := open_game hlocal hne hf
  have hafter : after unset s [] = s := rfl
  obtain ⟨files, h, hmet, hr, hc, _⟩ := hall s hs hm 1 (by rw [hafter, hpath]; exact hsome)
  have hfiles : files = gameFiles := by
    cases hmet with
    | opened => rfl
    | searched p => exact hcontent
    | read k ha => cases ha
    | looked ha _ => cases ha
    | later k ha => cases ha
  rw [hafter, hpath, hlocal, hfiles, readHeader_other hne] at hr
  obtain rfl := Except.ok.inj hr
  rw [huuid] at hc
  revert hc
  decide

/-- Every path in the table of a multi-part stream was supplied for its part:
the opened file and an adjacent one carry the package and the number, and what
the finder or the disc waiter found carries the number and is of the package or
bears its file name. -/
theorem parts_supplied {env : Env} {o : Opening} {s : VirtualStream} (h : o.open env = .ok s)
    (hm : s.isMultipart = true) (asks : List Ask) (i : Nat)
    (hi : ((after env s asks).parts i).path ≠ []) :
    Supplied env o asks (after env s asks).packageUuid (after env s asks).pkgFilename (i + 1)
      ((after env s asks).parts i).path := by
  have hs : Sourced env o asks s := fun j hj =>
    (open_sourced h hm j hj).mono (List.nil_subset asks)
  exact after_sourced hs asks (List.Subset.refl asks) i hi

theorem parts_supplied_onDisc : ∃ s, (opening onDisc).open unset = .ok s ∧
    Supplied unset (opening onDisc) [] s.packageUuid s.pkgFilename 2 secondPath := by
  obtain ⟨s, hs, hm, hpath, _⟩ := open_game (by decide) (by decide) find_onDisc
  refine ⟨s, hs, ?_⟩
  have h := parts_supplied hs hm [] 1 (by rw [show after unset s [] = s from rfl, hpath]; decide)
  rwa [show after unset s [] = s from rfl, hpath] at h

/-- The finder takes the part of another package for its file name, and what lies
in the staging directory is not looked at. -/
theorem parts_identified_fails :
    (¬∀ env o asks, (∀ p, stagedPart env (o.search p) p = none) → PartsIdentified env o asks) ∧
      ¬∀ env o asks, (∀ uuid name p, findPartEx env (o.search p) uuid name p = none) →
        PartsIdentified env o asks := by
  constructor
  · intro hall
    exact not_identified rfl (by decide) (by decide) (by decide) find_onDisc
      (hall unset (opening onDisc) [] stagedPart_onDisc)
  · intro hall
    exact not_identified rfl (by decide) (by decide) (by decide) find_inStaging
      (hall unset (opening inStaging) [] fun _ _ _ => rfl)

end PkgManager.PartSources
