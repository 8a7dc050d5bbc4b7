import PkgManager.ScanSources

namespace PkgManager.FullScan

open CText ScannerState QuickScan SmbShare ScanSources
open PkgMetadata (Text)
open SmbBrowse (SmbServer)
open SmbUrl (smbClientScanShare)

/-! The files of a drive. -/

/-- A package file of a full scan; the path is not cut yet. -/
structure Found where
  full : Text
  name : Text
  size : UInt64
  mtime : UInt64

def fullPath (dir name : Text) : Text := bounded 1024 (dir ++ 47 :: name)

/-- `count_pkg_files` with the number of levels that are left. -/
def countPkgFiles (w : World) (recursive : Bool) : Nat → Text → Nat
  | 0, _ => 0
  | levels + 1, dir =>
    match w.readdir dir with
    | none => 0
    | some names => (names.map fun name =>
      if name.head? = some 46 then 0
      else
        match w.stat (fullPath dir name) with
        | some (.regular _ _) => if isPackageFile name then 1 else 0
        | some .directory => if recursive then countPkgFiles w true levels (fullPath dir name) else 0
        | _ => 0).sum

/-- The files `scan_dir_root` meets. -/
def scanDirRoot (w : World) (dir : Text) : List Found :=
  match w.readdir dir with
  | none => []
  | some names => names.flatMap fun name =>
    if name.head? = some 46 then []
    else
      match w.stat (fullPath dir name) with
      | some (.regular size mtime) =>
        if isPackageFile name then [⟨fullPath dir name, name, size, mtime⟩] else []
      | _ => []

/-- The files `scan_dir_recursive` meets. -/
def scanDirRecursive (w : World) : Nat → Text → List Found
  | 0, _ => []
  | levels + 1, dir =>
    match w.readdir dir with
    | none => []
    | some names => names.flatMap fun name =>
      if name.head? = some 46 then []
      else
        match w.stat (fullPath dir name) with
        | some .directory => scanDirRecursive w levels (fullPath dir name)
        | some (.regular size mtime) =>
          if isPackageFile name then [⟨fullPath dir name, name, size, mtime⟩] else []
        | _ => []

/-- The variables `PKG_SCAN_DIR`, `PKG_DISC_DIR` and `PKG_USB_PREFIX`, empty where not set. -/
structure Env where
  scanDir : Text
  discDir : Text
  usbPrefix : Text

/-- A drive of a full scan. `whole` drives are read with all their folders, the others
with those in `pkg`; only `checked` ones have to be mounted. -/
structure FullDrive where
  source : Source
  pkgDirSize : Nat
  whole : Bool
  checked : Bool

def usbSource (i : Nat) (path : Text) : Source :=
  ⟨ascii "usb" ++ decimal i, ascii "USB Drive " ++ decimal i, path, ascii "usb"⟩

def discSource (path : Text) : Source := ⟨ascii "disc", ascii "Blu-ray Disc", path, ascii "disc"⟩

def fullDrives (env : Env) : List FullDrive :=
  if env.scanDir ≠ [] then
    ⟨usbSource 0 env.scanDir, 0, true, false⟩ ::
      if env.discDir ≠ [] then [⟨discSource env.discDir, 0, true, true⟩] else []
  else
    let usbPrefix := if env.usbPrefix = [] then ascii "/mnt/usb" else env.usbPrefix
    let discDir := if env.discDir = [] then ascii "/mnt/disc" else env.discDir
    ((List.range 8).map fun i =>
      ⟨usbSource i (bounded 64 (usbPrefix ++ decimal i)), 128, false, true⟩) ++
      [⟨discSource discDir, 256, false, true⟩]

def FullDrive.present (w : World) (d : FullDrive) : Bool := !d.checked || w.mounted d.source.path

def FullDrive.pkgDir (d : FullDrive) : Text := bounded d.pkgDirSize (d.source.path ++ ascii "/pkg")

def FullDrive.count (w : World) (d : FullDrive) : Nat :=
  if d.present w then
    if d.whole then countPkgFiles w true 6 d.source.path
    else countPkgFiles w false 6 d.source.path + countPkgFiles w true 6 d.pkgDir
  else 0

def FullDrive.files (w : World) (d : FullDrive) : List Found :=
  if d.whole then scanDirRecursive w 6 d.source.path
  else scanDirRoot w d.source.path ++ scanDirRecursive w 6 d.pkgDir

/-- The label the files of the drive are shown with. -/
def FullDrive.shown (d : FullDrive) : Text := if d.whole then d.source.path else d.source.label

/-! The scan. -/

/-- What a full scan is given: the console as it is when the files are counted and when
they are read, the shares of the settings, and what `parse_pkg_entry` makes of a file. -/
structure FullJob where
  env : Env
  shares : List ShareSource
  counted : World
  scanned : World
  parse : Found → Option Package
  -- a longer path would be cut in its record and not in the comparison with the others
  short : ∀ d ∈ fullDrives env, ∀ f ∈ d.files scanned, f.full.length < 512

def smbClientCountPkgFiles (w : SmbServer) (cfg : ShareConfig) : Option Nat :=
  (smbClientScanShare w cfg).2

/-- `total_expected`. -/
def FullJob.expected (j : FullJob) : Nat :=
  ((fullDrives j.env).map (·.count j.counted)).sum +
    ((j.shares.filter (! ·.cfg.browseOnly)).map fun s =>
      (smbClientCountPkgFiles j.counted.smb s.cfg).getD 0).sum

/-- What the loops of `scan_full_owned` do in one piece, with a lock or alone. -/
inductive Step where
  | clear
  | publish (total : Nat)
  | mark
  | grow
  | record (f : Found)
  | show (label name : Text)
  | read (detail : Option Package)
  | insert
  | processed
  | tally
  | addDrive (src : Source)
  | addEmptyDrive (src : Source) (mounted : Bool)
  | sourceFailed
  | sortAndSave

/-- `process_pkg_file`. -/
def processSteps (parse : Found → Option Package) (label : Text) (f : Found) : List Step :=
  [.record f, .show label f.name, .read (parse f), .insert, .processed]

def driveSteps (j : FullJob) (d : FullDrive) : List Step :=
  if d.present j.scanned then
    .mark :: (d.files j.scanned).flatMap (processSteps j.parse d.shown) ++
      [.tally, .addDrive d.source]
  else []

/-- The files of a share, none where they cannot all be listed. -/
def shareFiles (w : SmbServer) (cfg : ShareConfig) : Option (List Found) :=
  match smbClientScanShare w cfg with
  | (_, none) => none
  | (calls, some _) => (quickSmbFiles calls).map fun files =>
    files.map fun f => ⟨f.path.text, f.filename.text, f.fileSize, f.mtime.toUInt32.toUInt64⟩

/-- `smb_pkg_scan_cb`. -/
def smbPkgScanSteps (parse : Found → Option Package) (label : Text) (f : Found) : List Step :=
  .grow :: processSteps parse label f

def shareSteps (j : FullJob) (s : ShareSource) : List Step :=
  let src := (Origin.share s).source
  if s.cfg.browseOnly then [.addEmptyDrive src true]
  else
    match shareFiles j.scanned.smb s.cfg with
    | some files => .mark :: files.flatMap (smbPkgScanSteps j.parse src.label) ++ [.tally, .addDrive src]
    | none => [.mark, .tally, .sourceFailed, .addEmptyDrive src false]

/-- `scan_full_owned`, up to its `scan_release`. -/
def fullSteps (j : FullJob) : List Step :=
  .clear :: .publish j.expected ::
    ((fullDrives j.env).flatMap (driveSteps j) ++ j.shares.flatMap (shareSteps j) ++ [.sortAndSave])

/-- The library, and as what it was saved last. -/
structure Catalog where
  library : State
  saved : Option State

/-- The variables of a full scan: `prev_pkg`, `count`, at last `total_packages`, and the
`detail` that was read. -/
structure Regs where
  prev : Nat
  count : Nat
  detail : Option Package

def emptyDrive (src : Source) (mounted : Bool) : Drive := { driveEntry src 0 with mounted }

def Found.record (f : Found) : ScannedFile := ⟨.of 512 f.full, f.size, f.mtime⟩

/-- What a step does to the library. -/
def Step.catalog (c : Catalog) (r : Regs) : Step → Catalog × Regs
  | .clear => ({ c with library := .empty }, r)
  | .publish _ | .grow | .show _ _ | .processed | .sourceFailed => (c, r)
  | .mark => (c, { r with prev := c.library.packages.length })
  | .record f => ({ c with library := c.library.addScannedFile f.record }, r)
  | .read detail =>
    (c, { r with detail := if maxPackages ≤ c.library.packages.length then none else detail })
  | .insert =>
    match r.detail with
    | some p => ({ c with library := c.library.addPackage p }, { r with detail := none })
    | none => (c, r)
  | .tally => (c, { r with count := c.library.packages.length - r.prev })
  | .addDrive src => ({ c with library := c.library.addDrive (driveEntry src r.count) }, r)
  | .addEmptyDrive src mounted => ({ c with library := c.library.addDrive (emptyDrive src mounted) }, r)
  | .sortAndSave =>
    (⟨c.library.sorted, some c.library.sorted⟩, { r with count := c.library.packages.length })

/-- The step writes behind the end of `g_packages`. -/
def Step.overruns (c : Catalog) (r : Regs) : Step → Bool
  | .insert => r.detail.isSome && decide (maxPackages ≤ c.library.packages.length)
  | _ => false

/-- `pkg_scan_status_t`. -/
structure Status where
  isScanning : Bool
  failedSources : Nat
  totalFiles : Nat
  processedFiles : Nat
  currentDrive : CString 64
  currentFile : CString 256
  deriving DecidableEq

/-- What a step does to the status. -/
def Step.status (st : Status) : Step → Status
  | .publish total => ⟨true, 0, total, 0, .of 64 [], .of 256 []⟩
  | .grow =>
    { st with
      totalFiles :=
        if st.totalFiles = 0 then 1
        else if st.totalFiles ≤ st.processedFiles then st.processedFiles + 1
        else st.totalFiles }
  | .show label name =>
    { st with
      currentFile := .of 256 name
      currentDrive := if label ≠ [] then .of 64 label else st.currentDrive }
  | .processed => { st with processedFiles := st.processedFiles + 1 }
  | .sourceFailed => { st with failedSources := st.failedSources + 1 }
  | _ => st

/-! What a full scan makes of the library, file by file and source by source. -/

def processPkgFile (parse : Found → Option Package) (s : State) (f : Found) : State :=
  match parse f with
  | some p => (s.addScannedFile f.record).addPackage p
  | none => s.addScannedFile f.record

def scanFiles (parse : Found → Option Package) (src : Source) (files : List Found) (s : State) :
    State :=
  let s' := files.foldl (processPkgFile parse) s
  s'.addDrive (driveEntry src (s'.packages.length - s.packages.length))

def scanDrive (j : FullJob) (s : State) (d : FullDrive) : State :=
  if d.present j.scanned then scanFiles j.parse d.source (d.files j.scanned) s else s

def scanShare (j : FullJob) (s : State) (sh : ShareSource) : State :=
  let src := (Origin.share sh).source
  if sh.cfg.browseOnly then s.addDrive (emptyDrive src true)
  else
    match shareFiles j.scanned.smb sh.cfg with
    | some files => scanFiles j.parse src files s
    | none => s.addDrive (emptyDrive src false)

def fullLibrary (j : FullJob) : State :=
  (j.shares.foldl (scanShare j) ((fullDrives j.env).foldl (scanDrive j) .empty)).sorted

/-! The steps make that library. -/

def runSteps : List Step → Catalog × Regs → Catalog × Regs :=
  fun steps x => steps.foldl (fun x k => k.catalog x.1 x.2) x

theorem runSteps_append (a b : List Step) (x : Catalog × Regs) :
    runSteps (a ++ b) x = runSteps b (runSteps a x) :=
  List.foldl_append

/-- The steps change the library as `g` does. -/
def Performs (steps : List Step) (g : State → State) : Prop :=
  ∀ x : Catalog × Regs, (runSteps steps x).1 = { x.1 with library := g x.1.library }

theorem performs_append {a b : List Step} {g h : State → State} (ha : Performs a g)
    (hb : Performs b h) : Performs (a ++ b) (h ∘ g) := by
  intro x
  rw [runSteps_append, hb, ha]
  rfl

theorem performs_flatMap {α : Type} {l : List α} {steps : α → List Step} {g : State → α → State}
    (h : ∀ a, Performs (steps a) (g · a)) : Performs (l.flatMap steps) (l.foldl g ·) := by
  induction l with
  | nil => exact fun x => rfl
  | cons a l ih => exact performs_append (h a) ih

theorem performs_process (parse : Found → Option Package) (label : Text) (f : Found) :
    Performs (processSteps parse label f) (processPkgFile parse · f) := by
  intro x
  cases hparse : parse f with
  | none =>
    simp only [runSteps, processSteps, processPkgFile, hparse, List.foldl_cons, List.foldl_nil,
      Step.catalog, ite_self]
  | some p =>
    by_cases hfull : maxPackages ≤ (x.1.library.addScannedFile f.record).packages.length
    · have hadd : (x.1.library.addScannedFile f.record).addPackage p =
          x.1.library.addScannedFile f.record := dif_neg (Nat.not_lt.mpr hfull)
      simp only [runSteps, processSteps, processPkgFile, hparse, List.foldl_cons, List.foldl_nil,
        Step.catalog, if_pos hfull, hadd]
    · simp only [runSteps, processSteps, processPkgFile, hparse, List.foldl_cons, List.foldl_nil,
        Step.catalog, if_neg hfull]

theorem performs_smbPkgScan (parse : Found → Option Package) (label : Text) (f : Found) :
    Performs (smbPkgScanSteps parse label f) (processPkgFile parse · f) :=
  performs_process parse label f

theorem catalog_prev {k : Step} (hk : k ≠ .mark) (c : Catalog) (r : Regs) :
    (k.catalog c r).2.prev = r.prev := by
  cases k with
  | mark => exact absurd rfl hk
  | insert =>
    unfold Step.catalog
    cases r.detail <;> rfl
  | _ => rfl

theorem runSteps_prev {steps : List Step} (h : .mark ∉ steps) (x : Catalog × Regs) :
    (runSteps steps x).2.prev = x.2.prev := by
  induction steps generalizing x with
  | nil => rfl
  | cons k steps ih =>
    have hk : k ≠ .mark := fun hk => h (hk ▸ List.mem_cons_self)
    exact (ih (fun hm => h (List.mem_cons_of_mem k hm)) _).trans (catalog_prev hk x.1 x.2)

/-- The files of a source, and the drive for it. -/
theorem performs_source {parse : Found → Option Package} {steps : Found → List Step}
    (hsteps : ∀ f, Performs (steps f) (processPkgFile parse · f)) (hmark : ∀ f, .mark ∉ steps f)
    (src : Source) (files : List Found) :
    Performs (.mark :: files.flatMap steps ++ [.tally, .addDrive src])
      (scanFiles parse src files) := by
  intro x
  let y : Catalog × Regs := (x.1, { x.2 with prev := x.1.library.packages.length })
  have hlibrary := performs_flatMap (l := files) hsteps y
  have hprev : (runSteps (files.flatMap steps) y).2.prev = x.1.library.packages.length := by
    refine runSteps_prev (fun hm => ?_) y
    obtain ⟨f, -, hf⟩ := List.mem_flatMap.mp hm
    exact hmark f hf
  show (runSteps (files.flatMap steps ++ [.tally, .addDrive src]) y).1 = _
  rw [runSteps_append]
  simp only [runSteps, List.foldl_cons, List.foldl_nil, Step.catalog, scanFiles] at hlibrary hprev ⊢
  rw [hlibrary, hprev]

theorem performs_drive (j : FullJob) (d : FullDrive) :
    Performs (driveSteps j d) (scanDrive j · d) := by
  unfold driveSteps scanDrive
  by_cases h : d.present j.scanned = true
  · simp only [if_pos h]
    exact performs_source (performs_process j.parse d.shown) (fun f => by simp [processSteps]) _ _
  · simp only [if_neg h]
    exact fun x => rfl

theorem performs_share (j : FullJob) (sh : ShareSource) :
    Performs (shareSteps j sh) (scanShare j · sh) := by
  unfold shareSteps scanShare
  by_cases h : sh.cfg.browseOnly = true
  · simp only [if_pos h]
    exact fun x => rfl
  · simp only [if_neg h]
    cases shareFiles j.scanned.smb sh.cfg with
    | none => exact fun x => rfl
    | some files =>
      exact performs_source (performs_smbPkgScan j.parse _)
        (fun f => by simp [smbPkgScanSteps, processSteps]) _ _

/-- A full scan without interruption leaves the library of its sources, whatever it was. -/
theorem fullSteps_catalog (j : FullJob) (x : Catalog × Regs) :
    (runSteps (fullSteps j) x).1 = ⟨fullLibrary j, some (fullLibrary j)⟩ := by
  let y : Catalog × Regs := ({ x.1 with library := .empty }, x.2)
  have hsources := performs_append (performs_flatMap (l := fullDrives j.env) (performs_drive j))
    (performs_flatMap (l := j.shares) (performs_share j)) y
  show (runSteps ((fullDrives j.env).flatMap (driveSteps j) ++ j.shares.flatMap (shareSteps j) ++
    [.sortAndSave]) y).1 = _
  rw [runSteps_append]
  simp only [runSteps, List.foldl_cons, List.foldl_nil, Step.catalog] at hsources ⊢
  rw [hsources]
  rfl

end PkgManager.FullScan
