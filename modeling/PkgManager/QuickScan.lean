import PkgManager.PartSources
import PkgManager.ScannerState

namespace PkgManager.QuickScan

open CText ScannerState
open PkgMetadata (Text)

/-- `quick_file_entry_t`. -/
structure FileEntry where
  path : CString 512
  filename : CString 256
  fileSize : UInt64
  mtime : UInt64
  deriving DecidableEq

structure Source where
  id : Text
  label : Text
  path : Text
  type : Text

/-- What a quick scan finds at a source. `unreadable` is a share that cannot be listed,
and a list of files that is not complete. -/
inductive Media where
  | unreadable
  | unmounted
  | files (l : List FileEntry)

/-- `pkg_matches_drive_path`. -/
def matchesDrivePath (pkgPath drivePath : Text) : Bool :=
  drivePath ≠ [] && drivePath.isPrefixOf pkgPath &&
    (drivePath.getLast? = some 47 || (pkgPath.drop drivePath.length).head?.all (· = 47))

def mtimeNear (a b : UInt64) : Bool :=
  let diff := a.toInt64 - b.toInt64
  let diff := if diff < 0 then -diff else diff
  diff ≤ 2

/-- The first element for which `P` holds, changed. -/
def updateFirst {α : Type} (P : α → Bool) (f : α → α) : List α → List α
  | [] => []
  | a :: l => if P a then f a :: l else a :: updateFirst P f l

theorem length_updateFirst {α : Type} (P : α → Bool) (f : α → α) (l : List α) :
    (updateFirst P f l).length = l.length := by
  induction l with
  | nil => rfl
  | cons a l ih =>
    rw [updateFirst]
    split
    · rfl
    · rw [List.length_cons, List.length_cons, ih]

theorem mem_updateFirst {α : Type} {P : α → Bool} {f : α → α} {l : List α} {b : α}
    (h : b ∈ updateFirst P f l) : b ∈ l ∨ ∃ a ∈ l, P a = true ∧ b = f a := by
  induction l with
  | nil => exact absurd h List.not_mem_nil
  | cons a l ih =>
    rw [updateFirst] at h
    by_cases hP : P a = true
    · rw [if_pos hP] at h
      rcases List.mem_cons.mp h with rfl | h
      · exact .inr ⟨a, List.mem_cons_self, hP, rfl⟩
      · exact .inl (List.mem_cons_of_mem a h)
    · rw [if_neg hP] at h
      rcases List.mem_cons.mp h with rfl | h
      · exact .inl List.mem_cons_self
      · rcases ih h with h | ⟨c, hc, hPc, rfl⟩
        · exact .inl (List.mem_cons_of_mem a h)
        · exact .inr ⟨c, List.mem_cons_of_mem a hc, hPc, rfl⟩

/-! The drives. -/

def isDriveOf (src : Source) (d : Drive) : Bool := d.path.text = src.path || d.id.text = src.id

def markMounted (count : Nat) (d : Drive) : Drive :=
  { d with mounted := true, pkgCount := UInt64.ofNat count, clickable := 0 < count }

def markUnmounted (d : Drive) : Drive := { d with mounted := false, pkgCount := 0, clickable := false }

/-- The drive `add_drive_entry` adds. -/
def driveEntry (src : Source) (count : Nat) : Drive where
  id := .of 32 src.id
  label := .of 64 src.label
  path := .of 256 src.path
  type := .of 16 src.type
  mounted := true
  pkgCount := UInt64.ofNat count
  clickable := 0 < count || src.type = ascii "smb"

def driveWasMounted (s : State) (src : Source) : Bool :=
  (s.drives.find? (isDriveOf src)).any (·.mounted)

def updateDrives (s : State) (P : Drive → Bool) (f : Drive → Drive) : State :=
  { s with
    drives := updateFirst P f s.drives
    drives_le := by rw [length_updateFirst]; exact s.drives_le }

/-- The drive of the source is mounted; `added` packages are counted for a new one. -/
def mountDrive (s : State) (src : Source) (count added : Nat) : State :=
  if s.drives.any (isDriveOf src) then updateDrives s (isDriveOf src) (markMounted count)
  else s.addDrive (driveEntry src added)

/-! The packages and files of a source. -/

def ofSource (path : Text) (p : Package) : Bool := matchesDrivePath p.path.text path

def fileOfSource (path : Text) (f : ScannedFile) : Bool := matchesDrivePath f.path.text path

def filterPackages (s : State) (P : Package → Bool) : State :=
  { s with
    packages := s.packages.filter P
    packages_le := (List.length_filter_le P s.packages).trans s.packages_le }

/-- `remove_scanned_files_for_drive_locked`. -/
def removeScannedFiles (s : State) (path : Text) : State :=
  { s with
    files := s.files.filter (! fileOfSource path ·)
    files_named := fun f hf => s.files_named f (List.mem_filter.mp hf).1
    files_nodup := s.files_nodup.sublist (List.filter_sublist.map _) }

def removeSource (s : State) (path : Text) : State :=
  removeScannedFiles (filterPackages s (! ofSource path ·)) path

/-- A package of the library is the file, as the file list was when it was read. -/
def unchanged (f : FileEntry) (p : Package) : Bool :=
  f.path = p.path && f.fileSize = p.fileSize && (mtimeNear f.mtime p.mtime || f.mtime = 0)

def recorded (f : FileEntry) (r : ScannedFile) : Bool :=
  f.path = r.path && f.fileSize = r.fileSize &&
    (mtimeNear f.mtime r.mtime || f.mtime = 0 || r.mtime = 0)

def isLaterPart (f : FileEntry) : Bool := (PartSources.partNumber f.path.text).any (1 < ·)

/-- The file list of the source is the one on record. -/
def identical (s : State) (src : Source) (files : List FileEntry) : Bool :=
  let packages := s.packages.filter (ofSource src.path)
  let records := s.files.filter (fileOfSource src.path)
  files.length = records.length &&
    if files = [] then driveWasMounted s src && packages.isEmpty
    else
      !packages.isEmpty && packages.length ≤ files.length &&
        packages.all (fun p => p.mtime ≠ 0 && files.any (unchanged · p)) &&
        files.all fun f =>
          records.any (recorded f) && (packages.any (f.path = ·.path) || isLaterPart f)

/-- A package of the library from which the file is not parsed again. -/
def carries (src : Source) (f : FileEntry) (p : Package) : Bool :=
  ofSource src.path p && f.path = p.path && f.fileSize = p.fileSize &&
    (f.mtime = 0 || p.mtime = 0 || mtimeNear f.mtime p.mtime)

def takeMtime (f : FileEntry) (p : Package) : Package :=
  if p.mtime = 0 ∧ f.mtime ≠ 0 then { p with mtime := f.mtime } else p

/-- The copies a scan takes of the library, and the files it has to parse. -/
structure Taken where
  packages : List Package
  carried : List Package
  pending : List FileEntry

def takeFile (src : Source) (t : Taken) (f : FileEntry) : Taken :=
  match t.packages.find? (carries src f) with
  | none => { t with pending := t.pending ++ [f] }
  | some p =>
    { t with
      packages := updateFirst (carries src f) (takeMtime f) t.packages
      carried := t.carried ++ [takeMtime f p] }

def takeFiles (src : Source) (packages : List Package) (files : List FileEntry) : Taken :=
  files.foldl (takeFile src) ⟨packages, [], []⟩

theorem length_takeFile (src : Source) (t : Taken) (f : FileEntry) :
    (takeFile src t f).packages.length = t.packages.length := by
  unfold takeFile
  split
  · rfl
  · exact length_updateFirst _ _ _

theorem length_takeFiles (src : Source) (packages : List Package) (files : List FileEntry) :
    (takeFiles src packages files).packages.length = packages.length := by
  suffices h : ∀ t : Taken, (files.foldl (takeFile src) t).packages.length = t.packages.length from
    h ⟨packages, [], []⟩
  induction files with
  | nil => exact fun _ => rfl
  | cons f files ih =>
    intro t
    rw [List.foldl_cons, ih, length_takeFile]

/-! `scan_quick_single_source`: a first critical section, the parsing of the files that are
new or modified, and a second critical section. -/

/-- A scan behind its first critical section. -/
structure Scan where
  source : Source
  files : List FileEntry
  carried : List Package
  pending : List FileEntry

inductive Begun where
  | returned (changed : Bool)
  | parsing (scan : Scan)

def beginScan (s : State) (src : Source) : Media → State × Begun
  | .unreadable => (s, .returned false)
  | .unmounted =>
    (updateDrives (removeSource s src.path) (isDriveOf src) markUnmounted,
      .returned (s.packages.any (ofSource src.path) || driveWasMounted s src))
  | .files files =>
    if identical s src files then
      let count := (s.packages.filter (ofSource src.path)).length
      (mountDrive s src count count, .returned false)
    else
      let t := takeFiles src s.packages files
      ({ s with
          packages := t.packages
          packages_le := by rw [length_takeFiles]; exact s.packages_le },
        .parsing ⟨src, files, t.carried, t.pending⟩)

/-- What `parse_pkg_entry` makes of a file; none is a later part of a package. -/
structure Parser where
  entry : FileEntry → Option Package
  named : ∀ f p, entry f = some p → p.path = f.path

def isProvisionalPackage (p : Package) : Bool :=
  p.titleId.text = ascii "UNKNOWN" && p.titleName.text = ascii "Unknown Package"

def parsed (scan : Scan) (parse : Parser) : List Package := scan.pending.filterMap parse.entry

def recordFile (s : State) (f : FileEntry) : State := s.addScannedFile ⟨f.path, f.fileSize, f.mtime⟩

/-- The packages of the library that stay: those of other sources, and in a scan that met
an unreadable package those of which the source says nothing. -/
def stays (scan : Scan) (updated : List Package) (provisional : Bool) (p : Package) : Bool :=
  !ofSource scan.source.path p ||
    (provisional && !scan.files.any (·.path = p.path) && !updated.any (·.path = p.path))

def putPackages (s : State) (kept updated : List Package) (hkept : kept.length ≤ maxPackages) : State :=
  { s with
    packages := kept ++ updated.take (maxPackages - kept.length)
    packages_le := by
      rw [List.length_append, List.length_take]
      omega }

def commitScan (s : State) (scan : Scan) (parse : Parser) : State :=
  let new := parsed scan parse
  let updated := scan.carried ++ new
  let provisional := new.any isProvisionalPackage
  let kept := s.packages.filter (stays scan updated provisional)
  let s' := putPackages s kept updated ((List.length_filter_le _ _).trans s.packages_le)
  let s' := if provisional then s' else removeScannedFiles s' scan.source.path
  let s' := scan.files.foldl recordFile s'
  mountDrive s' scan.source (s'.packages.filter (ofSource scan.source.path)).length updated.length

/-- What `pkg_scanner_scan_quick` does with a share that is only browsed. -/
def hideShare (s : State) (share : Source) (sourcePath : Text) : State × Bool :=
  let mine (d : Drive) : Bool := d.id.text = share.id
  let changed := s.packages.any (ofSource sourcePath) ||
    s.drives.any (fun d => mine d && !(d.clickable && d.mounted && d.pkgCount = 0)) || !s.drives.any mine
  let s' := removeSource s sourcePath
  if s.drives.any mine then
    ({ s' with
        drives := s'.drives.map fun d =>
          if mine d then { d with mounted := true, clickable := true, pkgCount := 0 } else d
        drives_le := by rw [List.length_map]; exact s'.drives_le }, changed)
  else (s'.addDrive (driveEntry share 0), changed)

/-! What a scan leaves of the packages. -/

theorem addDrive_packages (s : State) (d : Drive) : (s.addDrive d).packages = s.packages := by
  unfold State.addDrive
  split <;> rfl

theorem mountDrive_packages (s : State) (src : Source) (count added : Nat) :
    (mountDrive s src count added).packages = s.packages := by
  unfold mountDrive
  split
  · rfl
  · exact addDrive_packages s _

theorem recordFiles_packages (s : State) (files : List FileEntry) :
    (files.foldl recordFile s).packages = s.packages := by
  induction files generalizing s with
  | nil => rfl
  | cons f files ih =>
    have hone : (recordFile s f).packages = s.packages := by
      unfold recordFile State.addScannedFile
      split <;> rfl
    rw [List.foldl_cons, ih, hone]

theorem commitScan_packages (s : State) (scan : Scan) (parse : Parser) :
    let updated := scan.carried ++ parsed scan parse
    let kept := s.packages.filter (stays scan updated ((parsed scan parse).any isProvisionalPackage))
    (commitScan s scan parse).packages = kept ++ updated.take (maxPackages - kept.length) := by
  intro updated kept
  unfold commitScan
  rw [mountDrive_packages, recordFiles_packages]
  split <;> rfl

theorem hideShare_packages (s : State) (share : Source) (sourcePath : Text) :
    (hideShare s share sourcePath).1.packages = s.packages.filter (! ofSource sourcePath ·) := by
  unfold hideShare
  dsimp only
  split
  · rfl
  · exact addDrive_packages _ _

/-- The package is one of the list, but for its time stamp. -/
def Restamped (l : List Package) (p : Package) : Prop := ∃ q ∈ l, p = { q with mtime := p.mtime }

theorem restamped_takeMtime {l : List Package} {p : Package} (f : FileEntry) (h : Restamped l p) :
    Restamped l (takeMtime f p) := by
  obtain ⟨q, hq, hp⟩ := h
  unfold takeMtime
  split
  · exact ⟨q, hq, by rw [hp]⟩
  · exact ⟨q, hq, hp⟩

theorem restamped_takeFile (src : Source) {l : List Package} {t : Taken} (f : FileEntry)
    (hpackages : ∀ p ∈ t.packages, Restamped l p) (hcarried : ∀ p ∈ t.carried, Restamped l p) :
    (∀ p ∈ (takeFile src t f).packages, Restamped l p) ∧
      ∀ p ∈ (takeFile src t f).carried, Restamped l p := by
  unfold takeFile
  cases hfind : t.packages.find? (carries src f) with
  | none => exact ⟨hpackages, hcarried⟩
  | some q =>
    refine ⟨fun p hp => ?_, fun p hp => ?_⟩
    · rcases mem_updateFirst hp with hp | ⟨a, ha, -, rfl⟩
      · exact hpackages p hp
      · exact restamped_takeMtime f (hpackages a ha)
    · rcases List.mem_append.mp hp with hp | hp
      · exact hcarried p hp
      · rw [List.mem_singleton.mp hp]
        exact restamped_takeMtime f (hpackages q (List.mem_of_find?_eq_some hfind))

theorem restamped_takeFiles (src : Source) (packages : List Package) (files : List FileEntry) :
    (∀ p ∈ (takeFiles src packages files).packages, Restamped packages p) ∧
      ∀ p ∈ (takeFiles src packages files).carried, Restamped packages p := by
  suffices h : ∀ t : Taken, (∀ p ∈ t.packages, Restamped packages p) →
      (∀ p ∈ t.carried, Restamped packages p) →
      (∀ p ∈ (files.foldl (takeFile src) t).packages, Restamped packages p) ∧
        ∀ p ∈ (files.foldl (takeFile src) t).carried, Restamped packages p from
    h ⟨packages, [], []⟩ (fun p hp => ⟨p, hp, rfl⟩) (fun p hp => absurd hp List.not_mem_nil)
  induction files with
  | nil => exact fun t hpackages hcarried => ⟨hpackages, hcarried⟩
  | cons f files ih =>
    intro t hpackages hcarried
    obtain ⟨hpackages', hcarried'⟩ := restamped_takeFile src f hpackages hcarried
    exact ih _ hpackages' hcarried'

end PkgManager.QuickScan
