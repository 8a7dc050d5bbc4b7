import PkgManager.QuickLocality

namespace PkgManager.QuickIdempotence

open CText ScannerState QuickScan ScanSources QuickLocality
open PkgMetadata (Text)
open Settings (maxSmbShares)

/-! `parse_pkg_entry`. -/

/-- `BLURHASH_UPGRADE_MIN_LEN`. -/
def blurhashUpgradeMinLen : Nat := 40

/-- What the cache, the parser and the icon say of a file. -/
structure Reading where
  lookup : FileEntry → Option Package
  parse : FileEntry → Option Package
  healed : Package → Option (CString 64)
  named : ∀ f p, parse f = some p → p.path = f.path

def needsHealing (p : Package) : Bool :=
  p.hasIcon && p.blurhash.text.length < blurhashUpgradeMinLen && 0 < p.iconOffset && 0 < p.iconSize &&
    p.iconSize < 10 * 1024 * 1024

def heal (m : Reading) (p : Package) : Package :=
  { p with blurhash := if needsHealing p then (m.healed p).getD p.blurhash else p.blurhash }

/-- A package of the cache, at the file it is read from. -/
def fromCache (m : Reading) (f : FileEntry) (p : Package) : Package :=
  heal m { p with
    path := f.path
    filename := f.filename
    fileSize := f.fileSize
    totalPkgSize := if p.totalPkgSize = 0 then f.fileSize else p.totalPkgSize
    mtime := f.mtime }

/-- A package the parser read. -/
def fromParser (f : FileEntry) (p : Package) : Package :=
  let size := if p.fileSize = 0 then f.fileSize else p.fileSize
  { p with
    fileSize := size
    totalPkgSize := if p.totalPkgSize = 0 then size else p.totalPkgSize
    mtime := if p.mtime = 0 then f.mtime else p.mtime }

/-- The package of a file without metadata. -/
def unknownPackage (f : FileEntry) : Package where
  path := f.path
  filename := f.filename
  titleId := .of 32 (ascii "UNKNOWN")
  titleName := .of 256 (ascii "Unknown Package")
  localizedTitles := .of 2048 []
  defaultLanguage := .of 32 []
  contentId := .of 64 []
  appVersion := .of 32 []
  fileSize := f.fileSize
  totalPkgSize := f.fileSize
  iconOffset := 0
  iconSize := 0
  hasIcon := false
  isValid := true
  isMultipart := false
  partIndex := 0
  totalParts := 0
  pkgType := .unknown
  pkgTypeStr := .of 16 []
  category := .of 16 []
  mtime := f.mtime
  blurhash := .of 64 []

def readPackage (m : Reading) (f : FileEntry) : Package :=
  match m.lookup f with
  | some p => fromCache m f p
  | none =>
    match m.parse f with
    | some p => fromParser f p
    | none => unknownPackage f

/-- Where the header makes the file a part behind the first, there is no package. -/
def parsePkgEntry (m : Reading) (f : FileEntry) : Option Package :=
  let p := readPackage m f
  if p.isMultipart = false ∨ p.partIndex = 1 then some p else none

theorem readPackage_path (m : Reading) (f : FileEntry) : (readPackage m f).path = f.path := by
  unfold readPackage
  split
  · rfl
  · split
    · rename_i p hp
      exact m.named f p hp
    · rfl

def Reading.parser (m : Reading) : Parser where
  entry := parsePkgEntry m
  named := by
    intro f p h
    unfold parsePkgEntry at h
    dsimp only at h
    split at h
    · cases h
      exact readPackage_path m f
    · cases h

/-- Where the parser gives a size and a time stamp, they are the listed ones. -/
structure Unchanged (m : Reading) (f : FileEntry) : Prop where
  size : ∀ p, m.parse f = some p → p.fileSize = 0 ∨ p.fileSize = f.fileSize
  mtime : ∀ p, m.parse f = some p → p.mtime = 0 ∨ mtimeNear f.mtime p.mtime = true

theorem mtimeNear_self (t : UInt64) : mtimeNear t t = true := by
  unfold mtimeNear
  rw [Int64.sub_self]
  rfl

/-- The package is what the library has of the file. -/
structure Stored (f : FileEntry) (p : Package) : Prop where
  path : p.path = f.path
  size : p.fileSize = f.fileSize
  near : mtimeNear f.mtime p.mtime = true
  stamped : p.mtime ≠ 0

theorem stored_read {m : Reading} {f : FileEntry} (h : Unchanged m f) (hf : f.mtime ≠ 0) :
    Stored f (readPackage m f) := by
  refine ⟨readPackage_path m f, ?_, ?_, ?_⟩ <;> unfold readPackage
  · split
    · rfl
    · split
      · rename_i p hp
        show (if p.fileSize = 0 then f.fileSize else p.fileSize) = f.fileSize
        rcases h.size p hp with h0 | h0 <;> simp [h0]
      · rfl
  · split
    · exact mtimeNear_self f.mtime
    · split
      · rename_i p hp
        show mtimeNear f.mtime (if p.mtime = 0 then f.mtime else p.mtime) = true
        split
        · exact mtimeNear_self f.mtime
        · rename_i h0
          exact (h.mtime p hp).resolve_left h0
      · exact mtimeNear_self f.mtime
  · split
    · exact hf
    · split
      · rename_i p hp
        show (if p.mtime = 0 then f.mtime else p.mtime) ≠ 0
        split
        · exact hf
        · assumption
      · exact hf

/-! The records a scan writes. -/

def recordOf (f : FileEntry) : ScannedFile := ⟨f.path, f.fileSize, f.mtime⟩

theorem recordFile_files {f : FileEntry} (hf : f.path.text ≠ []) (s : State) :
    (recordFile s f).files = putFile s.files (recordOf f) := by
  unfold recordFile State.addScannedFile
  rw [dif_neg hf]
  rfl

theorem mem_putFile_path (l : List ScannedFile) (r : ScannedFile) (q : CString 512) :
    q ∈ (putFile l r).map (·.path) ↔ q ∈ l.map (·.path) ∨ q = r.path := by
  unfold putFile
  by_cases hmem : r.path ∈ l.map (·.path)
  · rw [if_pos hmem, map_update_path]
    exact ⟨.inl, fun h => h.elim id fun h => h ▸ hmem⟩
  · rw [if_neg hmem, List.map_append, List.mem_append, List.map_singleton, List.mem_singleton]

theorem mem_putFile_self (l : List ScannedFile) (r : ScannedFile) : r ∈ putFile l r := by
  unfold putFile
  by_cases hmem : r.path ∈ l.map (·.path)
  · rw [if_pos hmem]
    obtain ⟨e, he, hpath⟩ := List.mem_map.mp hmem
    exact List.mem_map.mpr ⟨e, he, if_pos hpath⟩
  · rw [if_neg hmem]
    exact List.mem_append_right l (List.mem_singleton_self r)

theorem mem_putFile_of_ne {l : List ScannedFile} {r e : ScannedFile} (he : e ∈ l) (hne : e.path ≠ r.path) :
    e ∈ putFile l r := by
  unfold putFile
  split
  · exact List.mem_map.mpr ⟨e, he, if_neg hne⟩
  · exact List.mem_append_left _ he

theorem mem_recordFiles_path {files : List FileEntry} (hnamed : ∀ f ∈ files, f.path.text ≠ []) (s : State)
    (q : CString 512) : q ∈ (files.foldl recordFile s).files.map (·.path) ↔
      q ∈ s.files.map (·.path) ∨ q ∈ files.map (·.path) := by
  induction files generalizing s with
  | nil => simp
  | cons f files ih =>
    rw [List.foldl_cons, ih (fun g hg => hnamed g (List.mem_cons_of_mem f hg)),
      recordFile_files (hnamed f List.mem_cons_self), mem_putFile_path, List.map_cons, List.mem_cons,
      or_assoc]
    rfl

theorem recordFiles_keep {files : List FileEntry} (hnamed : ∀ f ∈ files, f.path.text ≠ []) {s : State}
    {e : ScannedFile} (he : e ∈ s.files) (hne : ∀ f ∈ files, e.path ≠ f.path) :
    e ∈ (files.foldl recordFile s).files := by
  induction files generalizing s with
  | nil => exact he
  | cons f files ih =>
    rw [List.foldl_cons]
    refine ih (fun g hg => hnamed g (List.mem_cons_of_mem f hg)) ?_
      (fun g hg => hne g (List.mem_cons_of_mem f hg))
    rw [recordFile_files (hnamed f List.mem_cons_self)]
    exact mem_putFile_of_ne he (hne f List.mem_cons_self)

theorem recordFiles_put {files : List FileEntry} (hnamed : ∀ f ∈ files, f.path.text ≠ [])
    (hpaths : (files.map (·.path)).Nodup) (s : State) :
    ∀ f ∈ files, recordOf f ∈ (files.foldl recordFile s).files := by
  induction files generalizing s with
  | nil => exact fun f hf => absurd hf List.not_mem_nil
  | cons g files ih =>
    obtain ⟨hg, hrest⟩ := List.nodup_cons.mp hpaths
    have hnamed' : ∀ f ∈ files, f.path.text ≠ [] := fun f hf => hnamed f (List.mem_cons_of_mem g hf)
    intro f hf
    rw [List.foldl_cons]
    rcases List.mem_cons.mp hf with rfl | hf
    · refine recordFiles_keep hnamed' ?_ fun h hh heq => hg (List.mem_map.mpr ⟨h, hh, heq.symm⟩)
      rw [recordFile_files (hnamed f List.mem_cons_self)]
      exact mem_putFile_self _ _
    · exact ih hnamed' hrest _ f hf

/-- As many records as files, where the source had no other ones. -/
theorem length_records {files : List FileEntry} {path : Text}
    (hlisted : ∀ f ∈ files, matchesDrivePath f.path.text path = true)
    (hnamed : ∀ f ∈ files, f.path.text ≠ []) (hpaths : (files.map (·.path)).Nodup) {s : State}
    (hold : ∀ r ∈ s.files, fileOfSource path r = true → r.path ∈ files.map (·.path)) :
    ((files.foldl recordFile s).files.filter (fileOfSource path)).length = files.length := by
  have hnodup : (((files.foldl recordFile s).files.filter (fileOfSource path)).map (·.path)).Nodup :=
    (files.foldl recordFile s).files_nodup.sublist (List.filter_sublist.map _)
  have hperm : (((files.foldl recordFile s).files.filter (fileOfSource path)).map (·.path)).Perm
      (files.map (·.path)) := by
    refine (List.perm_ext_iff_of_nodup hnodup hpaths).mpr fun q => ⟨fun hq => ?_, fun hq => ?_⟩
    · obtain ⟨r, hr, rfl⟩ := List.mem_map.mp hq
      obtain ⟨hr, hsource⟩ := List.mem_filter.mp hr
      rcases (mem_recordFiles_path hnamed s r.path).mp (List.mem_map_of_mem hr) with h | h
      · obtain ⟨r', hr', hpath⟩ := List.mem_map.mp h
        rw [← hpath]
        refine hold r' hr' ?_
        unfold fileOfSource at hsource ⊢
        rw [hpath]
        exact hsource
      · exact h
    · obtain ⟨r, hr, hpath⟩ := List.mem_map.mp ((mem_recordFiles_path hnamed s q).mpr (.inr hq))
      obtain ⟨f, hf, hfpath⟩ := List.mem_map.mp hq
      refine List.mem_map.mpr ⟨r, List.mem_filter.mpr ⟨hr, ?_⟩, hpath⟩
      unfold fileOfSource
      rw [hpath, ← hfpath]
      exact hlisted f hf
  rw [← List.length_map (·.path), hperm.length_eq, List.length_map]

/-! The drive of the source. -/

theorem find_updateFirst {α : Type} {P : α → Bool} {f : α → α} (h : ∀ a, P a = true → P (f a) = true)
    (l : List α) : (updateFirst P f l).find? P = (l.find? P).map f := by
  induction l with
  | nil => rfl
  | cons a l ih =>
    rw [updateFirst]
    by_cases hP : P a = true
    · rw [if_pos hP, List.find?_cons_of_pos (h a hP), List.find?_cons_of_pos hP, Option.map_some]
    · rw [if_neg hP, List.find?_cons_of_neg hP, List.find?_cons_of_neg hP, ih]

theorem recordFiles_drives (files : List FileEntry) (s : State) :
    (files.foldl recordFile s).drives = s.drives := by
  induction files generalizing s with
  | nil => rfl
  | cons f files ih =>
    rw [List.foldl_cons, ih]
    unfold recordFile State.addScannedFile
    split <;> rfl

/-- There is a drive for the source, or room for one that is found again. -/
def HasDrive (s : State) (src : Source) : Prop :=
  s.drives.any (isDriveOf src) = true ∨
    s.drives.length < maxDrives ∧ ∀ count, isDriveOf src (driveEntry src count) = true

theorem mounted_mountDrive {s : State} {src : Source} (h : HasDrive s src) (count added : Nat) :
    driveWasMounted (mountDrive s src count added) src = true := by
  unfold driveWasMounted mountDrive
  by_cases hany : s.drives.any (isDriveOf src) = true
  · rw [if_pos hany]
    have hfind : (updateFirst (isDriveOf src) (markMounted count) s.drives).find? (isDriveOf src) =
        (s.drives.find? (isDriveOf src)).map (markMounted count) :=
      find_updateFirst (P := isDriveOf src) (f := markMounted count) (fun _ ha => ha) _
    show ((updateFirst (isDriveOf src) (markMounted count) s.drives).find? (isDriveOf src)).any _ = true
    rw [hfind]
    obtain ⟨d, hd, hmine⟩ := List.any_eq_true.mp hany
    cases hd' : s.drives.find? (isDriveOf src) with
    | none => exact absurd hmine (List.find?_eq_none.mp hd' d hd)
    | some d => rfl
  · rw [if_neg hany]
    unfold State.addDrive
    obtain ⟨hroom, hown⟩ := h.resolve_left hany
    rw [dif_pos hroom]
    have hnone : s.drives.find? (isDriveOf src) = none :=
      List.find?_eq_none.mpr fun d hd hmine => hany (List.any_eq_true.mpr ⟨d, hd, hmine⟩)
    show ((s.drives ++ [driveEntry src added]).find? (isDriveOf src)).any _ = true
    rw [List.find?_append, hnone, Option.none_or, List.find?_cons_of_pos (hown added)]
    rfl

/-! The packages of the source. -/

theorem stored_takeMtime {src : Source} {f : FileEntry} {p : Package} (h : carries src f p = true)
    (hf : f.mtime ≠ 0) : Stored f (takeMtime f p) := by
  unfold carries at h
  simp only [Bool.and_eq_true, Bool.or_eq_true, decide_eq_true_eq] at h
  obtain ⟨⟨⟨-, hpath⟩, hsize⟩, hnear⟩ := h
  unfold takeMtime
  by_cases hp : p.mtime = 0
  · rw [if_pos ⟨hp, hf⟩]
    exact ⟨hpath.symm, hsize.symm, mtimeNear_self f.mtime, hf⟩
  · rw [if_neg fun hboth => hp hboth.1]
    exact ⟨hpath.symm, hsize.symm, (hnear.resolve_left (not_or.mpr ⟨hf, hp⟩)), hp⟩

theorem stored_carried {src : Source} {packages : List Package} {files : List FileEntry}
    (hstamped : ∀ f ∈ files, f.mtime ≠ 0) :
    ∀ c ∈ (takeFiles src packages files).carried, ∃ f ∈ files, Stored f c := by
  suffices h : ∀ (later : List FileEntry) (t : Taken), (∀ f ∈ later, f ∈ files) →
      (∀ c ∈ t.carried, ∃ f ∈ files, Stored f c) →
      ∀ c ∈ (later.foldl (takeFile src) t).carried, ∃ f ∈ files, Stored f c from
    h files ⟨packages, [], []⟩ (fun _ hf => hf) fun c hc => absurd hc List.not_mem_nil
  intro later
  induction later with
  | nil => exact fun t _ ht => ht
  | cons f later ih =>
    intro t hmem ht
    rw [List.foldl_cons]
    refine ih _ (fun g hg => hmem g (List.mem_cons_of_mem f hg)) ?_
    unfold takeFile
    cases hfind : t.packages.find? (carries src f) with
    | none => exact ht
    | some p =>
      intro c hc
      rcases List.mem_append.mp hc with hc | hc
      · exact ht c hc
      · rw [List.mem_singleton.mp hc]
        have hf := hmem f List.mem_cons_self
        exact ⟨f, hf, stored_takeMtime (List.find?_some hfind) (hstamped f hf)⟩

/-- The library has the packages and the records of the files, and no others of the source. -/
structure InStep (s : State) (src : Source) (files : List FileEntry) : Prop where
  drive : driveWasMounted s src = true
  count : (s.files.filter (fileOfSource src.path)).length = files.length
  records : ∀ f ∈ files, recordOf f ∈ s.files
  packages : ∀ p ∈ s.packages, ofSource src.path p = true → ∃ f ∈ files, Stored f p
  few : (s.packages.filter (ofSource src.path)).length ≤ files.length
  each : ∀ f ∈ files, ∃ p ∈ s.packages, p.path = f.path

theorem InStep.identical {s : State} {src : Source} {files : List FileEntry} (h : InStep s src files)
    (hlisted : ∀ f ∈ files, matchesDrivePath f.path.text src.path = true) :
    identical s src files = true := by
  have hmine : ∀ f ∈ files, ∃ p ∈ s.packages.filter (ofSource src.path), p.path = f.path := by
    intro f hf
    obtain ⟨p, hp, hpath⟩ := h.each f hf
    refine ⟨p, List.mem_filter.mpr ⟨hp, ?_⟩, hpath⟩
    unfold ofSource
    rw [hpath]
    exact hlisted f hf
  unfold QuickScan.identical
  dsimp only
  rw [h.count, decide_eq_true rfl, Bool.true_and]
  by_cases hnil : files = []
  · have hfew := h.few
    rw [hnil, List.length_nil, Nat.le_zero, List.length_eq_zero_iff] at hfew
    rw [if_pos hnil, h.drive, hfew]
    rfl
  · rw [if_neg hnil]
    obtain ⟨f, hf⟩ := List.exists_mem_of_ne_nil files hnil
    have hne : (s.packages.filter (ofSource src.path)).isEmpty = false := by
      obtain ⟨p, hp, -⟩ := hmine f hf
      rw [List.isEmpty_eq_false_iff]
      exact List.ne_nil_of_mem hp
    rw [hne, decide_eq_true h.few, Bool.not_false, Bool.true_and, Bool.true_and, Bool.and_eq_true]
    refine ⟨List.all_eq_true.mpr fun p hp => ?_, List.all_eq_true.mpr fun f hf => ?_⟩
    · obtain ⟨hp, hsource⟩ := List.mem_filter.mp hp
      obtain ⟨f, hf, hstored⟩ := h.packages p hp hsource
      rw [Bool.and_eq_true]
      refine ⟨decide_eq_true hstored.stamped, List.any_eq_true.mpr ⟨f, hf, ?_⟩⟩
      unfold unchanged
      rw [hstored.path, hstored.size, hstored.near, decide_eq_true rfl, decide_eq_true rfl]
      rfl
    · obtain ⟨p, hp, hpath⟩ := hmine f hf
      rw [Bool.and_eq_true]
      constructor
      · refine List.any_eq_true.mpr ⟨recordOf f, List.mem_filter.mpr ⟨h.records f hf, hlisted f hf⟩, ?_⟩
        unfold recorded recordOf
        dsimp only
        rw [mtimeNear_self, decide_eq_true rfl, decide_eq_true rfl]
        rfl
      · have hany : (s.packages.filter (ofSource src.path)).any (f.path = ·.path) = true :=
          List.any_eq_true.mpr ⟨p, hp, decide_eq_true hpath.symm⟩
        rw [hany, Bool.true_or]

theorem inStep_sorted {s : State} {src : Source} {files : List FileEntry} (h : InStep s src files) :
    InStep s.sorted src files := by
  have hperm : s.sorted.packages.Perm s.packages := sortPackages_perm s.packages
  refine ⟨h.drive, h.count, h.records, fun p hp => h.packages p (hperm.mem_iff.mp hp), ?_, fun f hf => ?_⟩
  · rw [(hperm.filter _).length_eq]
    exact h.few
  · obtain ⟨p, hp, hpath⟩ := h.each f hf
    exact ⟨p, hperm.mem_iff.mpr hp, hpath⟩

/-! The commit of a scan. -/

/-- What a scan needs in order to have each file in the library behind it: paths of their
own, time stamps, a package in every file that has to be read, room, and, where one of
these files is unreadable, nothing of the source that is no longer listed. -/
structure Recordable (s : State) (src : Source) (m : Reading) (files : List FileEntry) : Prop where
  paths : (files.map (·.path)).Nodup
  stamped : ∀ f ∈ files, f.mtime ≠ 0
  unchanged : ∀ f ∈ files, Unchanged m f
  listed : ∀ f ∈ (takeFiles src s.packages files).pending, (parsePkgEntry m f).isSome
  room : (s.packages.filter (! ofSource src.path ·)).length + files.length ≤ maxPackages
  retained : (∃ f ∈ (takeFiles src s.packages files).pending, (parsePkgEntry m f).any isProvisionalPackage) →
    (∀ p ∈ s.packages, ofSource src.path p = true → p.path ∈ files.map (·.path)) ∧
      ∀ r ∈ s.files, fileOfSource src.path r = true → r.path ∈ files.map (·.path)

theorem parsePkgEntry_eq {m : Reading} {f : FileEntry} {p : Package} (h : parsePkgEntry m f = some p) :
    p = readPackage m f := by
  unfold parsePkgEntry at h
  dsimp only at h
  split at h
  · exact (Option.some.inj h).symm
  · cases h

theorem commit_inStep {s s₀ : State} {src : Source} {m : Reading} {files : List FileEntry}
    (hpackages : s₀.packages = (takeFiles src s.packages files).packages) (hfiles : s₀.files = s.files)
    (hdrive : HasDrive s₀ src) (hlisted : ∀ f ∈ files, matchesDrivePath f.path.text src.path = true)
    (hnamed : ∀ f ∈ files, f.path.text ≠ []) (h : Recordable s src m files) :
    InStep (commitScan s₀ ⟨src, files, (takeFiles src s.packages files).carried,
      (takeFiles src s.packages files).pending⟩ m.parser) src files := by
  have htaken := takenOf_takeFiles src s.packages files
  have hcarried : ∀ c ∈ (takeFiles src s.packages files).carried, ∃ f ∈ files, Stored f c :=
    stored_carried h.stamped
  have hread := h.listed
  have hretained := h.retained
  generalize takeFiles src s.packages files = t at hpackages htaken hcarried hread hretained ⊢
  have hupdated : ∀ p ∈ t.carried ++ t.pending.filterMap (parsePkgEntry m), ∃ f ∈ files, Stored f p := by
    intro p hp
    rcases List.mem_append.mp hp with hp | hp
    · exact hcarried p hp
    · obtain ⟨f, hf, hentry⟩ := List.mem_filterMap.mp hp
      have hmem := htaken.pending f hf
      rw [parsePkgEntry_eq hentry]
      exact ⟨f, hmem, stored_read (h.unchanged f hmem) (h.stamped f hmem)⟩
  have hlength : (t.carried ++ t.pending.filterMap (parsePkgEntry m)).length ≤ files.length := by
    have hcount := htaken.count
    have hparsed := List.length_filterMap_le (parsePkgEntry m) t.pending
    rw [List.length_append]
    omega
  have hprov : (t.pending.filterMap (parsePkgEntry m)).any isProvisionalPackage = true →
      (∀ p ∈ s.packages, ofSource src.path p = true → p.path ∈ files.map (·.path)) ∧
        ∀ r ∈ s.files, fileOfSource src.path r = true → r.path ∈ files.map (·.path) := by
    intro hany
    obtain ⟨p, hp, hp'⟩ := List.any_eq_true.mp hany
    obtain ⟨f, hf, hentry⟩ := List.mem_filterMap.mp hp
    exact hretained ⟨f, hf, by rw [hentry]; exact hp'⟩
  have hpaths : ∀ p ∈ s₀.packages, ∃ q ∈ s.packages, q.path = p.path := by
    intro p hp
    have hmem := List.mem_map_of_mem (f := (·.path)) (hpackages ▸ hp)
    rw [htaken.paths] at hmem
    exact List.mem_map.mp hmem
  have hkept : s₀.packages.filter (stays ⟨src, files, t.carried, t.pending⟩
      (t.carried ++ t.pending.filterMap (parsePkgEntry m))
      ((t.pending.filterMap (parsePkgEntry m)).any isProvisionalPackage)) =
        s₀.packages.filter (! ofSource src.path ·) := by
    refine List.filter_congr fun p hp => ?_
    unfold stays
    dsimp only
    by_cases hsource : ofSource src.path p = true
    swap
    · rw [Bool.eq_false_iff.mpr hsource]
      rfl
    rw [hsource, Bool.not_true, Bool.false_or]
    cases hany : (t.pending.filterMap (parsePkgEntry m)).any isProvisionalPackage with
    | false => rfl
    | true =>
      obtain ⟨q, hq, hpath⟩ := hpaths p hp
      have hmem := (hprov hany).1 q hq (by unfold ofSource at hsource ⊢; rw [hpath]; exact hsource)
      obtain ⟨f, hf, hfpath⟩ := List.mem_map.mp hmem
      have hlist : files.any (·.path = p.path) = true :=
        List.any_eq_true.mpr ⟨f, hf, decide_eq_true (hfpath.trans hpath)⟩
      rw [hlist]
      rfl
  have hroom : (s₀.packages.filter (! ofSource src.path ·)).length + files.length ≤ maxPackages := by
    rw [length_filter_of_paths (hpackages ▸ htaken.paths)]
    exact h.room
  have hlibrary : (commitScan s₀ ⟨src, files, t.carried, t.pending⟩ m.parser).packages =
      s₀.packages.filter (! ofSource src.path ·) ++
        (t.carried ++ t.pending.filterMap (parsePkgEntry m)) := by
    refine (commitScan_packages s₀ _ m.parser).trans ?_
    show s₀.packages.filter (stays _ (t.carried ++ t.pending.filterMap (parsePkgEntry m))
      ((t.pending.filterMap (parsePkgEntry m)).any isProvisionalPackage)) ++
        (t.carried ++ t.pending.filterMap (parsePkgEntry m)).take _ = _
    rw [hkept, List.take_of_length_le]
    show _ ≤ maxPackages - (s₀.packages.filter (stays _ (t.carried ++ t.pending.filterMap (parsePkgEntry m))
      ((t.pending.filterMap (parsePkgEntry m)).any isProvisionalPackage))).length
    rw [hkept]
    omega
  have hmine : ∀ p, p ∈ s₀.packages.filter (! ofSource src.path ·) → ¬ofSource src.path p = true := by
    intro p hp hsource
    have hnot := (List.mem_filter.mp hp).2
    rw [hsource] at hnot
    cases hnot
  obtain ⟨base, hrecords, hbase⟩ : ∃ base : State,
      (commitScan s₀ ⟨src, files, t.carried, t.pending⟩ m.parser).files =
        (files.foldl recordFile base).files ∧
      ∀ r ∈ base.files, fileOfSource src.path r = true → r.path ∈ files.map (·.path) := by
    unfold commitScan
    dsimp only
    refine ⟨_, mountDrive_files _ _ _ _, ?_⟩
    split
    · rename_i hany
      intro r hr
      exact (hprov hany).2 r (hfiles ▸ hr)
    · intro r hr hsource
      have hnot := (List.mem_filter.mp hr).2
      rw [hsource] at hnot
      cases hnot
  refine ⟨?_, ?_, ?_, ?_, ?_, ?_⟩
  · unfold commitScan
    dsimp only
    refine mounted_mountDrive ?_ _ _
    unfold HasDrive
    rw [recordFiles_drives]
    split <;> exact hdrive
  · rw [hrecords]
    exact length_records hlisted hnamed h.paths hbase
  · intro f hf
    rw [hrecords]
    exact recordFiles_put hnamed h.paths base f hf
  · intro p hp hsource
    rw [hlibrary] at hp
    rcases List.mem_append.mp hp with hp | hp
    · exact absurd hsource (hmine p hp)
    · exact hupdated p hp
  · rw [hlibrary, List.filter_append, List.filter_eq_nil_iff.mpr hmine, List.nil_append]
    exact (List.length_filter_le _ _).trans hlength
  · intro f hf
    rcases htaken.each f hf with ⟨c, hc, hpath⟩ | hpending
    · exact ⟨c, hlibrary ▸ List.mem_append_right _ (List.mem_append_left _ hc), hpath⟩
    · obtain ⟨p, hentry⟩ := Option.isSome_iff_exists.mp (hread f hpending)
      refine ⟨p, ?_, by rw [parsePkgEntry_eq hentry, readPackage_path]⟩
      rw [hlibrary]
      exact List.mem_append_right _ (List.mem_append_right _ (List.mem_filterMap.mpr ⟨f, hpending, hentry⟩))

/-! Scanning again. -/

/-- A scan of the source reports no change, and keeps the packages and the records. -/
structure Repeats (w : World) (o : Origin) (parse : Parser) (s : State) : Prop where
  unchanged : (scanOrigin w s o parse).2 = false
  packages : (scanQuick w s o parse).packages = s.packages
  files : (scanQuick w s o parse).files = s.files

theorem repeats_of_eq {w : World} {o : Origin} {parse : Parser} {s : State} (s' : State)
    (hscan : scanOrigin w s o parse = (s', false)) (hpackages : s'.packages = s.packages)
    (hfiles : s'.files = s.files) : Repeats w o parse s := by
  have hquick : scanQuick w s o parse = s' := by
    unfold scanQuick
    rw [hscan]
    rfl
  exact ⟨by rw [hscan], by rw [hquick, hpackages], by rw [hquick, hfiles]⟩

theorem repeats_of_identical {w : World} {o : Origin} {parse : Parser} {s : State} {files : List FileEntry}
    (hscan : scanOrigin w s o parse = scanQuickSource s o.source (.files files) parse)
    (hid : identical s o.source files = true) : Repeats w o parse s := by
  refine repeats_of_eq (mountDrive s o.source (s.packages.filter (ofSource o.source.path)).length
      (s.packages.filter (ofSource o.source.path)).length) ?_ (mountDrive_packages s _ _ _)
    (mountDrive_files s _ _ _)
  rw [hscan]
  unfold scanQuickSource beginScan
  dsimp only
  rw [if_pos hid]

theorem identical_mountDrive {s : State} {src : Source} {files : List FileEntry}
    (h : identical s src files = true) (count added : Nat) :
    identical (mountDrive s src count added) src files = true := by
  unfold QuickScan.identical at h ⊢
  rw [mountDrive_packages, mountDrive_files]
  dsimp only at h ⊢
  by_cases hnil : files = []
  · rw [if_pos hnil] at h ⊢
    simp only [Bool.and_eq_true] at h ⊢
    refine ⟨h.1, mounted_mountDrive (.inl ?_) count added, h.2.2⟩
    have hmounted := h.2.1
    unfold driveWasMounted at hmounted
    cases hfind : s.drives.find? (isDriveOf src) with
    | none =>
      rw [hfind] at hmounted
      cases hmounted
    | some d => exact List.any_eq_true.mpr ⟨d, List.mem_of_find?_eq_some hfind, List.find?_some hfind⟩
  · rw [if_neg hnil] at h ⊢
    exact h

/-- Nothing of the source is left, and its drive is not mounted. -/
structure Gone (s : State) (src : Source) : Prop where
  packages : s.packages.filter (! ofSource src.path ·) = s.packages
  files : s.files.filter (! fileOfSource src.path ·) = s.files
  drive : driveWasMounted s src = false

theorem gone_unmounted (s : State) (src : Source) :
    Gone (updateDrives (removeSource s src.path) (isDriveOf src) markUnmounted) src := by
  refine ⟨?_, ?_, ?_⟩
  · show (s.packages.filter _).filter _ = s.packages.filter _
    rw [List.filter_filter]
    exact List.filter_congr fun p _ => Bool.and_self _
  · show (s.files.filter _).filter _ = s.files.filter _
    rw [List.filter_filter]
    exact List.filter_congr fun f _ => Bool.and_self _
  · unfold driveWasMounted
    have hfind : (updateFirst (isDriveOf src) markUnmounted s.drives).find? (isDriveOf src) =
        (s.drives.find? (isDriveOf src)).map markUnmounted :=
      find_updateFirst (P := isDriveOf src) (f := markUnmounted) (fun _ hd => hd) _
    show ((updateFirst (isDriveOf src) markUnmounted s.drives).find? (isDriveOf src)).any _ = false
    rw [hfind]
    cases s.drives.find? (isDriveOf src) <;> rfl

theorem gone_sorted {s : State} {src : Source} (h : Gone s src) : Gone s.sorted src := by
  have hperm : s.sorted.packages.Perm s.packages := sortPackages_perm s.packages
  refine ⟨List.filter_eq_self.mpr fun p hp => ?_, h.files, h.drive⟩
  exact List.filter_eq_self.mp h.packages p (hperm.mem_iff.mp hp)

theorem repeats_of_gone {w : World} {o : Origin} {parse : Parser} {s : State}
    (hscan : scanOrigin w s o parse = scanQuickSource s o.source .unmounted parse) (h : Gone s o.source) :
    Repeats w o parse s := by
  refine repeats_of_eq (updateDrives (removeSource s o.source.path) (isDriveOf o.source) markUnmounted)
    ?_ h.packages h.files
  have hnone : s.packages.any (ofSource o.source.path) = false := by
    refine List.any_eq_false.mpr fun p hp hsource => ?_
    have hnot := List.filter_eq_self.mp h.packages p hp
    rw [hsource] at hnot
    cases hnot
  rw [hscan]
  unfold scanQuickSource beginScan
  dsimp only
  rw [hnone, h.drive]
  rfl

theorem inStep_scan {src : Source} {files : List FileEntry} {m : Reading} {s : State}
    (hlisted : ∀ f ∈ files, matchesDrivePath f.path.text src.path = true)
    (hnamed : ∀ f ∈ files, f.path.text ≠ []) (hid : ¬identical s src files = true)
    (hdrive : HasDrive s src) (h : Recordable s src m files) :
    InStep (scanQuickSource s src (.files files) m.parser).1 src files := by
  unfold scanQuickSource beginScan
  dsimp only
  rw [if_neg hid]
  exact commit_inStep rfl rfl hdrive hlisted hnamed h

/-- A scan that takes the files up is repeated without a change. -/
theorem repeats_files {w : World} {o : Origin} {m : Reading} {s : State} {files : List FileEntry}
    (hmedia : media w o = .files files)
    (hscan : ∀ s parse, scanOrigin w s o parse = scanQuickSource s o.source (.files files) parse)
    (h : identical s o.source files = true ∨ HasDrive s o.source ∧ Recordable s o.source m files)
    (again : Parser) : Repeats w o again (scanQuick w s o m.parser) := by
  have hlisted := media_below hmedia
  have hnamed : ∀ f ∈ files, f.path.text ≠ [] := by
    intro f hf hnil
    have hbelow := hlisted f hf
    unfold matchesDrivePath at hbelow
    rw [hnil] at hbelow
    simp only [Bool.and_eq_true, decide_eq_true_eq, List.isPrefixOf_iff_prefix, List.prefix_nil] at hbelow
    exact hbelow.1.1 hbelow.1.2
  refine repeats_of_identical (hscan _ again) ?_
  by_cases hid : identical s o.source files = true
  · have hquick : scanQuick w s o m.parser = mountDrive s o.source
        (s.packages.filter (ofSource o.source.path)).length
        (s.packages.filter (ofSource o.source.path)).length := by
      unfold scanQuick
      rw [hscan s m.parser]
      unfold scanQuickSource beginScan
      dsimp only
      rw [if_pos hid]
      rfl
    rw [hquick]
    exact identical_mountDrive hid _ _
  · obtain ⟨hdrive, hrecordable⟩ := h.resolve_left hid
    have hin := inStep_scan hlisted hnamed hid hdrive hrecordable
    rw [← hscan s m.parser] at hin
    unfold scanQuick
    dsimp only
    split
    · exact (inStep_sorted hin).identical hlisted
    · exact hin.identical hlisted

theorem repeats_unmounted {w : World} {o : Origin} {s : State}
    (hscan : ∀ s parse, scanOrigin w s o parse = scanQuickSource s o.source .unmounted parse)
    (parse again : Parser) : Repeats w o again (scanQuick w s o parse) := by
  have hgone : Gone (scanOrigin w s o parse).1 o.source := by
    rw [hscan s parse]
    exact gone_unmounted s o.source
  refine repeats_of_gone (hscan _ again) ?_
  unfold scanQuick
  dsimp only
  split
  · exact gone_sorted hgone
  · exact hgone

theorem repeats_unreadable {w : World} {o : Origin} {s : State}
    (hscan : ∀ s parse, scanOrigin w s o parse = scanQuickSource s o.source .unreadable parse)
    (again : Parser) : Repeats w o again s :=
  repeats_of_eq s (hscan s again) rfl rfl

/-! A share that is only browsed. -/

/-- The share's drive is shown as it should be, and nothing of its folder is in the library. -/
structure Hidden (s : State) (share : Source) (path : Text) : Prop where
  packages : s.packages.filter (! ofSource path ·) = s.packages
  files : s.files.filter (! fileOfSource path ·) = s.files
  found : s.drives.any (fun d => d.id.text = share.id) = true
  shown : ∀ d ∈ s.drives, d.id.text = share.id → (d.clickable && d.mounted && d.pkgCount = 0) = true

theorem hidden_hideShare {s : State} {share : Source} {path : Text} (htype : share.type = ascii "smb")
    (h : s.drives.any (fun d => d.id.text = share.id) = true ∨
      s.drives.length < maxDrives ∧ (CString.of 32 share.id).text = share.id) :
    Hidden (hideShare s share path).1 share path := by
  have hpackages : (s.packages.filter (! ofSource path ·)).filter (! ofSource path ·) =
      s.packages.filter (! ofSource path ·) := by
    rw [List.filter_filter]
    exact List.filter_congr fun p _ => Bool.and_self _
  have hfiles : (s.files.filter (! fileOfSource path ·)).filter (! fileOfSource path ·) =
      s.files.filter (! fileOfSource path ·) := by
    rw [List.filter_filter]
    exact List.filter_congr fun f _ => Bool.and_self _
  unfold hideShare
  dsimp only
  by_cases hany : s.drives.any (fun d => d.id.text = share.id) = true
  · rw [if_pos hany]
    refine ⟨hpackages, hfiles, ?_, ?_⟩
    · obtain ⟨d, hd, hid⟩ := List.any_eq_true.mp hany
      refine List.any_eq_true.mpr ⟨_, List.mem_map_of_mem hd, ?_⟩
      rw [if_pos hid]
      exact hid
    · intro d hd hid
      obtain ⟨d', -, rfl⟩ := List.mem_map.mp hd
      by_cases hmine : (decide (d'.id.text = share.id)) = true
      · rw [if_pos hmine]
        rfl
      · rw [if_neg hmine] at hid
        exact absurd (decide_eq_true hid) hmine
  · obtain ⟨hroom, hown⟩ := h.resolve_left hany
    rw [if_neg hany]
    have hdrives : ((removeSource s path).addDrive (driveEntry share 0)).drives =
        s.drives ++ [driveEntry share 0] := by
      unfold State.addDrive
      rw [dif_pos (show (removeSource s path).drives.length < maxDrives from hroom)]
      rfl
    refine ⟨?_, ?_, ?_, ?_⟩
    · rw [addDrive_packages]
      exact hpackages
    · rw [addDrive_files]
      exact hfiles
    · rw [hdrives]
      exact List.any_eq_true.mpr ⟨driveEntry share 0, List.mem_append_right _ (List.mem_singleton_self _),
        decide_eq_true hown⟩
    · intro d hd hid
      rw [hdrives] at hd
      rcases List.mem_append.mp hd with hd | hd
      · exact absurd (List.any_eq_true.mpr ⟨d, hd, decide_eq_true hid⟩) hany
      · rw [List.mem_singleton.mp hd]
        unfold driveEntry
        rw [htype]
        rfl

theorem hidden_sorted {s : State} {share : Source} {path : Text} (h : Hidden s share path) :
    Hidden s.sorted share path := by
  have hperm : s.sorted.packages.Perm s.packages := sortPackages_perm s.packages
  refine ⟨List.filter_eq_self.mpr fun p hp => ?_, h.files, h.found, h.shown⟩
  exact List.filter_eq_self.mp h.packages p (hperm.mem_iff.mp hp)

theorem repeats_hidden {w : World} {o : Origin} {parse : Parser} {s : State} {path : Text}
    (hscan : scanOrigin w s o parse = hideShare s o.source path) (h : Hidden s o.source path) :
    Repeats w o parse s := by
  have hquiet : (hideShare s o.source path).2 = false := by
    have hnone : s.packages.any (ofSource path) = false := by
      refine List.any_eq_false.mpr fun p hp hsource => ?_
      have hnot := List.filter_eq_self.mp h.packages p hp
      rw [hsource] at hnot
      cases hnot
    have hshown : s.drives.any (fun d => decide (d.id.text = o.source.id) &&
        !(d.clickable && d.mounted && d.pkgCount = 0)) = false := by
      refine List.any_eq_false.mpr fun d hd hbad => ?_
      obtain ⟨hid, hbad⟩ := Bool.and_eq_true_iff.mp hbad
      rw [h.shown d hd (of_decide_eq_true hid)] at hbad
      cases hbad
    unfold hideShare
    dsimp only
    rw [if_pos h.found, hnone, hshown, h.found]
    rfl
  refine repeats_of_eq (hideShare s o.source path).1 (hscan.trans (Prod.ext rfl hquiet)) ?_ ?_
  · rw [hideShare_packages]
    exact h.packages
  · unfold hideShare
    dsimp only
    rw [if_pos h.found]
    exact h.files

/-! Any source. -/

/-- The source is a drive, or a share of the settings. -/
def Configured : Origin → Prop
  | .drive _ => True
  | .share sh => sh.index < maxSmbShares

theorem share_id {sh : ShareSource} (h : sh.index < maxSmbShares) :
    (CString.of 32 (Origin.share sh).source.id).text = (Origin.share sh).source.id := by
  show (CString.of 32 (if sh.cfg.id.text ≠ [] then sh.cfg.id.text else ascii "smb" ++ decimal sh.index)).text = _
  by_cases hid : sh.cfg.id.text ≠ []
  · have hsource : (Origin.share sh).source.id = sh.cfg.id.text := if_pos hid
    rw [if_pos hid, hsource, CString.of_text]
  · have hsource : (Origin.share sh).source.id = ascii "smb" ++ decimal sh.index := if_neg hid
    rw [if_neg hid, hsource]
    refine CString.text_of_fits ?_ fun h0 => ?_
    · have hlen := length_decimal_le (k := 1) Nat.one_pos
        (show sh.index < 10 ^ 1 by unfold maxSmbShares at h; omega)
      have hsmb : (ascii "smb").length = 3 := rfl
      rw [List.length_append, hsmb]
      omega
    · rcases List.mem_append.mp h0 with h0 | h0
      · exact absurd h0 (by decide)
      · exact absurd (isDigit_decimal _ 0 h0) (by decide)

theorem own_drive {o : Origin} (h : Configured o) (count : Nat) :
    isDriveOf o.source (driveEntry o.source count) = true := by
  unfold isDriveOf
  rw [Bool.or_eq_true]
  cases o with
  | drive d =>
    refine .inl (decide_eq_true ?_)
    show (CString.of 256 d.path.text).text = d.path.text
    rw [CString.of_text]
  | share sh => exact .inr (decide_eq_true (share_id h))

/-- The source has a drive in the table, or there is room for it. -/
def Tabled (s : State) (o : Origin) : Prop :=
  match o with
  | .drive d => s.drives.any (isDriveOf (Origin.drive d).source) = true ∨ s.drives.length < maxDrives
  | .share sh =>
    if sh.cfg.browseOnly then
      s.drives.any (fun d => d.id.text = (Origin.share sh).source.id) = true ∨ s.drives.length < maxDrives
    else s.drives.any (isDriveOf (Origin.share sh).source) = true ∨ s.drives.length < maxDrives

/-- The files a scan of the source goes through are as the library has them, or can be recorded. -/
def Recorded (w : World) (s : State) (o : Origin) (m : Reading) : Prop :=
  ∀ files, listed w o = some files → identical s o.source files = true ∨ Recordable s o.source m files

/-- A quick scan of the source again, of the same content and with any parser, changes nothing. -/
theorem quick_scan_idempotent {w : World} {s : State} {o : Origin} {m : Reading} (hconf : Configured o)
    (htable : Tabled s o) (hrec : Recorded w s o m) (again : Parser) :
    Repeats w o again (scanQuick w s o m.parser) := by
  have hsource : (∀ s parse, scanOrigin w s o parse = scanQuickSource s o.source (media w o) parse) →
      (s.drives.any (isDriveOf o.source) = true ∨ s.drives.length < maxDrives) →
      (∀ files, media w o = .files files →
        identical s o.source files = true ∨ Recordable s o.source m files) →
      Repeats w o again (scanQuick w s o m.parser) := by
    intro hscan hroom hfiles
    cases hmedia : media w o with
    | unreadable =>
      rw [hmedia] at hscan
      exact repeats_unreadable hscan again
    | unmounted =>
      rw [hmedia] at hscan
      exact repeats_unmounted hscan m.parser again
    | files files =>
      rw [hmedia] at hscan
      exact repeats_files hmedia hscan
        ((hfiles files hmedia).imp id fun h => ⟨hroom.imp id fun h => ⟨h, own_drive hconf⟩, h⟩) again
  cases o with
  | drive d =>
    refine hsource (fun _ _ => rfl) htable fun files hmedia => hrec files ?_
    unfold listed
    dsimp only
    rw [hmedia]
  | share sh =>
    by_cases hbrowse : sh.cfg.browseOnly = true
    · unfold Tabled at htable
      dsimp only at htable
      rw [if_pos hbrowse] at htable
      have hscan : ∀ s parse, scanOrigin w s (.share sh) parse =
          hideShare s (Origin.share sh).source (sourcePath sh.cfg) := by
        intro s parse
        unfold scanOrigin
        dsimp only
        rw [if_pos hbrowse]
      have hhidden : Hidden (scanOrigin w s (.share sh) m.parser).1 (Origin.share sh).source
          (sourcePath sh.cfg) := by
        rw [hscan]
        exact hidden_hideShare rfl (htable.imp id fun h => ⟨h, share_id hconf⟩)
      refine repeats_hidden (hscan _ again) ?_
      unfold scanQuick
      dsimp only
      split
      · exact hidden_sorted hhidden
      · exact hhidden
    · unfold Tabled at htable
      dsimp only at htable
      rw [if_neg hbrowse] at htable
      have hscan : ∀ s parse, scanOrigin w s (.share sh) parse =
          scanQuickSource s (Origin.share sh).source (media w (.share sh)) parse := by
        intro s parse
        unfold scanOrigin
        dsimp only
        rw [if_neg hbrowse]
      refine hsource hscan htable fun files hmedia => hrec files ?_
      unfold listed
      dsimp only
      rw [if_neg hbrowse, hmedia]

/-! A drive with one file. -/

def usb0 : Origin :=
  .drive ⟨ascii "usb0", ascii "USB Drive 0", CString.of 256 (ascii "/mnt/usb0"), ascii "usb", false,
    by decide⟩

def worldOf (name : String) : World where
  mounted := fun _ => true
  readdir := fun dir => if dir = ascii "/mnt/usb0" then some [ascii name] else none
  stat := fun _ => some (.regular 5 7)
  smb := emptyWorld.smb

def fileNamed (name : String) : FileEntry :=
  ⟨CString.of 512 (ascii "/mnt/usb0/" ++ ascii name), CString.of 256 (ascii name), 5, 7⟩

def gameReading : Reading where
  lookup := fun _ => none
  parse := fun f => some { packageAt f.path with fileSize := f.fileSize, mtime := f.mtime }
  healed := fun _ => none
  named := by
    intro f p h
    cases h
    rfl

theorem quick_scan_idempotent_one :
    Repeats (worldOf "a.pkg") usb0 gameReading.parser
      (scanQuick (worldOf "a.pkg") .empty usb0 gameReading.parser) := by
  have htable : Tabled .empty usb0 := Or.inr (by decide)
  refine quick_scan_idempotent (show Configured usb0 from trivial) htable (fun files h => .inr ?_) gameReading.parser
  have hlist : listed (worldOf "a.pkg") usb0 = some [fileNamed "a.pkg"] := by decide
  rw [hlist] at h
  obtain rfl := Option.some.inj h
  refine ⟨by decide, by decide, fun f _ => ⟨fun p hp => ?_, fun p hp => ?_⟩,
    by decide, by decide, fun _ => ⟨fun p hp => ?_, fun r hr => ?_⟩⟩
  · cases hp
    exact .inr rfl
  · cases hp
    exact .inr (mtimeNear_self f.mtime)
  · exact absurd hp List.not_mem_nil
  · exact absurd hr List.not_mem_nil

def unreadableReading : Reading := ⟨fun _ => none, fun _ => none, fun _ => none, QuickLocality.nothing_named⟩

/-- The library has the package "a.pkg" of the drive. -/
def libraryA : State where
  drives := [driveEntry usb0.source 1]
  files := [recordOf (fileNamed "a.pkg")]
  packages := [{ packageAt (fileNamed "a.pkg").path with fileSize := 5, mtime := 7 }]
  drives_le := by decide
  packages_le := by decide
  files_named := by decide
  files_nodup := by decide

/-- In place of a package the drive has a file that cannot be read. -/
theorem quick_scan_idempotent_fails :
    ¬∀ w s o (m : Reading), Configured o → Repeats w o m.parser (scanQuick w s o m.parser) := by
  intro hall
  have h := (hall (worldOf "b.pkg") libraryA usb0 unreadableReading trivial).unchanged
  exact absurd h (by decide)

end PkgManager.QuickIdempotence
