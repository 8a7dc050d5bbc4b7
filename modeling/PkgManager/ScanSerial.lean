import PkgManager.ScanThreads

namespace PkgManager.ScanSerial

open Interleaving Machine CText ScannerState QuickScan ScanSources FullScan ScanThreads
open PkgMetadata (Text)
open BlurhashUpdates (Job setBlurhash setHash isAt)

/-! The library but for the hashes of its packages, which the calls of
`pkg_scanner_set_blurhash` change while a scan is on. -/

theorem State.ext_fields {s t : State} (hdrives : s.drives = t.drives) (hfiles : s.files = t.files)
    (hpackages : s.packages = t.packages) : s = t := by
  cases s
  cases t
  cases hdrives
  cases hfiles
  cases hpackages
  rfl

def barePackage (p : Package) : Package := { p with blurhash := .of 64 [] }

def bare (s : State) : State :=
  { s with
    packages := s.packages.map barePackage
    packages_le := by rw [List.length_map]; exact s.packages_le }

def bareCatalog (c : Catalog) : Catalog := ⟨bare c.library, c.saved.map bare⟩

def bareRegs (r : Regs) : Regs := { r with detail := r.detail.map barePackage }

def bareScan (scan : Scan) : Scan := { scan with carried := scan.carried.map barePackage }

theorem bareParser_named (parse : Parser) (f : FileEntry) (p : Package)
    (h : (parse.entry f).map barePackage = some p) : p.path = f.path := by
  obtain ⟨q, hq, rfl⟩ := Option.map_eq_some_iff.mp h
  exact parse.named f q hq

def bareParser (parse : Parser) : Parser :=
  ⟨fun f => (parse.entry f).map barePackage, bareParser_named parse⟩

def bareStep : Step → Step
  | .read detail => .read (detail.map barePackage)
  | k => k

def bareJob : Job → Job
  | .source src media parse => .source src media (bareParser parse)
  | .browseOnly share path => .browseOnly share path

/-! What the scans do does not look at the hashes. -/

theorem length_bare (s : State) : (bare s).packages.length = s.packages.length := List.length_map _

theorem bare_addScannedFile (s : State) (f : ScannedFile) :
    bare (s.addScannedFile f) = (bare s).addScannedFile f := by
  unfold State.addScannedFile
  split <;> rfl

theorem bare_addPackage (s : State) (p : Package) :
    bare (s.addPackage p) = (bare s).addPackage (barePackage p) := by
  unfold State.addPackage
  by_cases h : s.packages.length < maxPackages
  · rw [dif_pos h, dif_pos (length_bare s ▸ h)]
    exact State.ext_fields rfl rfl List.map_append
  · rw [dif_neg h, dif_neg (length_bare s ▸ h)]

theorem bare_addDrive (s : State) (d : Drive) : bare (s.addDrive d) = (bare s).addDrive d := by
  unfold State.addDrive
  by_cases h : s.drives.length < maxDrives
  · rw [dif_pos h, dif_pos (show (bare s).drives.length < maxDrives from h)]
    rfl
  · rw [dif_neg h, dif_neg (show ¬(bare s).drives.length < maxDrives from h)]

theorem bare_sorted (s : State) : bare s.sorted = (bare s).sorted :=
  State.ext_fields rfl rfl (List.map_mergeSort fun _ _ _ _ => rfl)

/-- A step of a full scan. -/
theorem bare_catalog (k : Step) (c : Catalog) (r : Regs) :
    (bareStep k).catalog (bareCatalog c) (bareRegs r) =
      (bareCatalog (k.catalog c r).1, bareRegs (k.catalog c r).2) := by
  cases k with
  | mark => simp only [bareStep, Step.catalog, bareCatalog, bareRegs, length_bare]
  | tally => simp only [bareStep, Step.catalog, bareCatalog, bareRegs, length_bare]
  | record f => simp only [bareStep, Step.catalog, bareCatalog, bareRegs, bare_addScannedFile]
  | addDrive src => simp only [bareStep, Step.catalog, bareCatalog, bareRegs, bare_addDrive]
  | addEmptyDrive src mounted =>
    simp only [bareStep, Step.catalog, bareCatalog, bareRegs, bare_addDrive]
  | sortAndSave =>
    simp only [bareStep, Step.catalog, bareCatalog, bareRegs, bare_sorted, length_bare,
      Option.map_some]
  | read detail =>
    simp only [bareStep, Step.catalog, bareCatalog, bareRegs, length_bare]
    split <;> rfl
  | insert =>
    cases hdetail : r.detail with
    | none => simp only [bareStep, Step.catalog, bareRegs, hdetail, Option.map_none]
    | some p =>
      simp only [bareStep, Step.catalog, bareRegs, hdetail, Option.map_some, bareCatalog,
        bare_addPackage, Option.map_none]
  | _ => rfl

theorem bare_runSteps (steps : List Step) (x : Catalog × Regs) :
    runSteps (steps.map bareStep) (bareCatalog x.1, bareRegs x.2) =
      (bareCatalog (runSteps steps x).1, bareRegs (runSteps steps x).2) := by
  induction steps generalizing x with
  | nil => rfl
  | cons k steps ih =>
    have hstep := bare_catalog k x.1 x.2
    show runSteps (steps.map bareStep) ((bareStep k).catalog (bareCatalog x.1) (bareRegs x.2)) = _
    rw [hstep]
    exact ih (k.catalog x.1 x.2)

/-! A quick scan. -/

theorem map_updateFirst {α : Type} {P : α → Bool} {f g : α → α} (hP : ∀ a, P (g a) = P a)
    (hf : ∀ a, g (f a) = f (g a)) (l : List α) :
    (updateFirst P f l).map g = updateFirst P f (l.map g) := by
  induction l with
  | nil => rfl
  | cons a l ih =>
    rw [updateFirst, List.map_cons, updateFirst, hP]
    split
    · rw [List.map_cons, hf]
    · rw [List.map_cons, ih]

theorem filter_bare {P : Package → Bool} (hP : ∀ p, P (barePackage p) = P p) (l : List Package) :
    (l.map barePackage).filter P = (l.filter P).map barePackage := by
  rw [List.filter_map]
  exact congrArg (List.map barePackage) (List.filter_congr fun p _ => hP p)

theorem any_bare {P : Package → Bool} (hP : ∀ p, P (barePackage p) = P p) (l : List Package) :
    (l.map barePackage).any P = l.any P := by
  rw [List.any_map]
  exact congrArg l.any (funext hP)

theorem all_bare {P : Package → Bool} (hP : ∀ p, P (barePackage p) = P p) (l : List Package) :
    (l.map barePackage).all P = l.all P := by
  rw [List.all_map]
  exact congrArg l.all (funext hP)

theorem bare_mountDrive (s : State) (src : Source) (count added : Nat) :
    bare (mountDrive s src count added) = mountDrive (bare s) src count added := by
  unfold mountDrive
  by_cases h : s.drives.any (isDriveOf src) = true
  · rw [if_pos h, if_pos (show (bare s).drives.any (isDriveOf src) = true from h)]
    rfl
  · rw [if_neg h, if_neg (show ¬(bare s).drives.any (isDriveOf src) = true from h)]
    exact bare_addDrive s _

theorem bare_removeSource (s : State) (path : Text) :
    bare (removeSource s path) = removeSource (bare s) path :=
  State.ext_fields rfl rfl (filter_bare (fun _ => rfl) s.packages).symm

theorem any_path (l : List Package) (f : FileEntry) :
    (l.map barePackage).any (f.path = ·.path) = l.any (f.path = ·.path) := any_bare (fun _ => rfl) l

theorem identical_bare (s : State) (src : Source) (files : List FileEntry) :
    identical (bare s) src files = identical s src files := by
  have hfilter : (bare s).packages.filter (ofSource src.path) =
      (s.packages.filter (ofSource src.path)).map barePackage := filter_bare (fun _ => rfl) s.packages
  unfold identical
  simp only [hfilter, List.length_map, List.isEmpty_map]
  simp only [any_path]
  rw [all_bare fun p => rfl]
  rfl

def bareTaken (t : Taken) : Taken :=
  ⟨t.packages.map barePackage, t.carried.map barePackage, t.pending⟩

theorem bare_takeMtime (f : FileEntry) (p : Package) :
    barePackage (takeMtime f p) = takeMtime f (barePackage p) := by
  unfold takeMtime
  by_cases h : p.mtime = 0 ∧ f.mtime ≠ 0
  · rw [if_pos h, if_pos (show (barePackage p).mtime = 0 ∧ f.mtime ≠ 0 from h)]
    rfl
  · rw [if_neg h, if_neg (show ¬((barePackage p).mtime = 0 ∧ f.mtime ≠ 0) from h)]

theorem bare_takeFile (src : Source) (t : Taken) (f : FileEntry) :
    takeFile src (bareTaken t) f = bareTaken (takeFile src t f) := by
  have hfind : (bareTaken t).packages.find? (carries src f) =
      (t.packages.find? (carries src f)).map barePackage := List.find?_map
  unfold takeFile
  rw [hfind]
  cases t.packages.find? (carries src f) with
  | none => rfl
  | some p =>
    have hupdate := map_updateFirst (P := carries src f) (f := takeMtime f) (g := barePackage)
      (fun _ => rfl) (bare_takeMtime f) t.packages
    simp only [Option.map_some, bareTaken, List.map_append, List.map_cons, List.map_nil,
      bare_takeMtime, hupdate]

theorem bare_takeFiles (src : Source) (packages : List Package) (files : List FileEntry) :
    takeFiles src (packages.map barePackage) files = bareTaken (takeFiles src packages files) := by
  suffices h : ∀ t : Taken, files.foldl (takeFile src) (bareTaken t) =
      bareTaken (files.foldl (takeFile src) t) from h ⟨packages, [], []⟩
  induction files with
  | nil => exact fun _ => rfl
  | cons f files ih =>
    intro t
    rw [List.foldl_cons, List.foldl_cons, bare_takeFile]
    exact ih _

def bareBegun : Begun → Begun
  | .returned changed => .returned changed
  | .parsing scan => .parsing (bareScan scan)

theorem bare_beginScan (s : State) (src : Source) (m : Media) :
    beginScan (bare s) src m = (bare (beginScan s src m).1, bareBegun (beginScan s src m).2) := by
  cases m with
  | unreadable => rfl
  | unmounted =>
    have hany : (bare s).packages.any (ofSource src.path) = s.packages.any (ofSource src.path) :=
      any_bare (fun _ => rfl) s.packages
    have hdrives : bare (updateDrives (removeSource s src.path) (isDriveOf src) markUnmounted) =
        updateDrives (removeSource (bare s) src.path) (isDriveOf src) markUnmounted := by
      rw [← bare_removeSource]
      rfl
    simp only [beginScan, hany, hdrives, bareBegun]
    rfl
  | files files =>
    have hcount : ((bare s).packages.filter (ofSource src.path)).length =
        (s.packages.filter (ofSource src.path)).length := by
      have hfilter : (bare s).packages.filter (ofSource src.path) =
          (s.packages.filter (ofSource src.path)).map barePackage :=
        filter_bare (fun _ => rfl) s.packages
      rw [hfilter, List.length_map]
    have htaken : takeFiles src (bare s).packages files = bareTaken (takeFiles src s.packages files) :=
      bare_takeFiles src s.packages files
    by_cases h : identical s src files = true
    · have hbare : identical (bare s) src files = true := (identical_bare s src files).trans h
      simp only [beginScan, if_pos h, if_pos hbare, hcount, bareBegun, bare_mountDrive]
    · have hbare : ¬identical (bare s) src files = true := by
        rw [identical_bare]
        exact h
      simp only [beginScan, if_neg h, if_neg hbare, htaken]
      rfl

theorem bare_parsed (scan : Scan) (parse : Parser) :
    parsed (bareScan scan) (bareParser parse) = (parsed scan parse).map barePackage :=
  List.map_filterMap.symm

theorem bare_recordFiles (files : List FileEntry) (s : State) :
    bare (files.foldl recordFile s) = files.foldl recordFile (bare s) := by
  induction files generalizing s with
  | nil => rfl
  | cons f files ih =>
    have hrecord : bare (recordFile s f) = recordFile (bare s) f := bare_addScannedFile s _
    rw [List.foldl_cons, List.foldl_cons, ih, hrecord]

theorem bare_putPackages {s : State} {kept kept' updated updated' : List Package}
    (hkept : kept' = kept.map barePackage) (hupdated : updated' = updated.map barePackage)
    (h : kept.length ≤ maxPackages) (h' : kept'.length ≤ maxPackages) :
    putPackages (bare s) kept' updated' h' = bare (putPackages s kept updated h) := by
  subst hkept
  subst hupdated
  refine State.ext_fields rfl rfl ?_
  show kept.map barePackage ++ (updated.map barePackage).take _ = (kept ++ updated.take _).map _
  rw [List.map_append, List.map_take, List.length_map]

/-- What `commitScan` does behind the packages. -/
def commitFiles (scan : Scan) (provisional : Bool) (added : Nat) (s : State) : State :=
  let s' := scan.files.foldl recordFile
    (if provisional then s else removeScannedFiles s scan.source.path)
  mountDrive s' scan.source (s'.packages.filter (ofSource scan.source.path)).length added

theorem bare_commitFiles (scan : Scan) (provisional : Bool) (added : Nat) (s : State) :
    bare (commitFiles scan provisional added s) = commitFiles scan provisional added (bare s) := by
  have hfiles : bare (scan.files.foldl recordFile
      (if provisional then s else removeScannedFiles s scan.source.path)) =
      scan.files.foldl recordFile
        (if provisional then bare s else removeScannedFiles (bare s) scan.source.path) := by
    rw [bare_recordFiles]
    cases provisional <;> rfl
  unfold commitFiles
  dsimp only
  rw [bare_mountDrive, hfiles, ← hfiles]
  congr 1
  have hfilter := filter_bare (P := ofSource scan.source.path) (fun _ => rfl)
    (scan.files.foldl recordFile
      (if provisional then s else removeScannedFiles s scan.source.path)).packages
  exact ((congrArg List.length hfilter).trans (List.length_map _)).symm

theorem bare_commitScan (s : State) (scan : Scan) (parse : Parser) :
    commitScan (bare s) (bareScan scan) (bareParser parse) = bare (commitScan s scan parse) := by
  have hupdated : (bareScan scan).carried ++ parsed (bareScan scan) (bareParser parse) =
      (scan.carried ++ parsed scan parse).map barePackage := by
    rw [bare_parsed, List.map_append]
    rfl
  have hprovisional : (parsed (bareScan scan) (bareParser parse)).any isProvisionalPackage =
      (parsed scan parse).any isProvisionalPackage := by
    rw [bare_parsed]
    exact any_bare (fun _ => rfl) _
  have hstays : ∀ p, stays (bareScan scan) ((scan.carried ++ parsed scan parse).map barePackage)
      ((parsed scan parse).any isProvisionalPackage) (barePackage p) =
        stays scan (scan.carried ++ parsed scan parse)
          ((parsed scan parse).any isProvisionalPackage) p := by
    intro p
    unfold stays
    rw [any_bare fun _ => rfl]
    rfl
  have hkept : (bare s).packages.filter (stays (bareScan scan)
      ((bareScan scan).carried ++ parsed (bareScan scan) (bareParser parse))
      ((parsed (bareScan scan) (bareParser parse)).any isProvisionalPackage)) =
        (s.packages.filter (stays scan (scan.carried ++ parsed scan parse)
          ((parsed scan parse).any isProvisionalPackage))).map barePackage := by
    rw [hupdated, hprovisional]
    show (s.packages.map barePackage).filter _ = _
    rw [List.filter_map]
    exact congrArg _ (List.filter_congr fun p _ => hstays p)
  have hlength := congrArg List.length hupdated
  rw [List.length_map] at hlength
  show commitFiles (bareScan scan) _ _ (putPackages (bare s) _ _ _) =
    bare (commitFiles scan _ _ (putPackages s _ _ _))
  rw [bare_commitFiles, bare_putPackages hkept hupdated, hprovisional, hlength]
  rfl

theorem bare_hideShare (s : State) (share : Source) (path : Text) :
    hideShare (bare s) share path = (bare (hideShare s share path).1, (hideShare s share path).2) := by
  have hany : (bare s).packages.any (ofSource path) = s.packages.any (ofSource path) :=
    any_bare (fun _ => rfl) s.packages
  have hremoved := filter_bare (P := (! ofSource path ·)) (fun _ => rfl) s.packages
  unfold hideShare
  simp only [hany]
  by_cases h : s.drives.any (fun d => decide (d.id.text = share.id)) = true
  · rw [if_pos h, if_pos (show (bare s).drives.any (fun d => decide (d.id.text = share.id)) = true from h)]
    exact Prod.ext (State.ext_fields rfl rfl hremoved) rfl
  · rw [if_neg h, if_neg (show ¬(bare s).drives.any (fun d => decide (d.id.text = share.id)) = true from h)]
    refine Prod.ext ?_ rfl
    show (removeSource (bare s) path).addDrive _ = bare ((removeSource s path).addDrive _)
    rw [bare_addDrive, bare_removeSource]

theorem setBlurhash_bare {s s' : State} {path blurhash : Text}
    (h : setBlurhash s path blurhash = some s') : bare s' = bare s := by
  unfold setBlurhash at h
  split at h
  · rw [← Option.some.inj h]
    refine State.ext_fields rfl rfl ?_
    show (updateFirst (isAt path) (setHash blurhash) s.packages).map barePackage =
      s.packages.map barePackage
    generalize s.packages = l
    induction l with
    | nil => rfl
    | cons a l ih =>
      rw [updateFirst]
      split
      · rfl
      · rw [List.map_cons, List.map_cons, ih]
  · cases h

/-! What the rest of a scan will make of the catalog. -/

def runJob (s : State) : Job → State × Bool
  | .source src media parse => scanQuickSource s src media parse
  | .browseOnly share sourcePath => hideShare s share sourcePath

/-- A quick scan of sources, and whether one has changed. -/
def runJobs : List Job → State → Bool → State × Bool
  | [], s, changed => (s, changed)
  | job :: jobs, s, changed => runJobs jobs (runJob s job).1 (changed || (runJob s job).2)

def settle (c : Catalog) (r : State × Bool) : Catalog :=
  if r.2 then ⟨r.1.sorted, some r.1.sorted⟩ else { c with library := r.1 }

def finish (c : Catalog) : Work → Catalog
  | .full todo r => (runSteps todo (c, r)).1
  | .quick todo changed => settle c (runJobs todo c.library changed)
  | .parsing scan parse todo => settle c (runJobs todo (commitScan c.library scan parse) true)
  | .leaving => c

theorem step_finish {c c' : Catalog} {w w' : Work} (h : w.step c = some (c', w')) :
    finish c' w' = finish c w := by
  cases w with
  | full todo r =>
    cases todo with
    | nil => cases h
    | cons k todo =>
      obtain ⟨rfl, rfl⟩ := Prod.mk.inj (Option.some.inj h)
      rfl
  | quick todo changed =>
    cases todo with
    | nil =>
      obtain ⟨rfl, rfl⟩ := Prod.mk.inj (Option.some.inj h)
      rfl
    | cons job todo =>
      cases job with
      | browseOnly share path =>
        obtain ⟨rfl, rfl⟩ := Prod.mk.inj (Option.some.inj h)
        rfl
      | source src media parse =>
        simp only [Work.step] at h
        simp only [finish, runJobs, runJob, scanQuickSource]
        cases hbegin : beginScan c.library src media with
        | mk library begun =>
          rw [hbegin] at h
          cases begun with
          | returned ch =>
            obtain ⟨rfl, rfl⟩ := Prod.mk.inj (Option.some.inj h)
            rfl
          | parsing scan =>
            obtain ⟨rfl, rfl⟩ := Prod.mk.inj (Option.some.inj h)
            simp only [finish, Bool.or_true]
            rfl
  | parsing scan parse todo =>
    obtain ⟨rfl, rfl⟩ := Prod.mk.inj (Option.some.inj h)
    rfl
  | leaving => cases h

theorem finish_of_done {c : Catalog} {w : Work} (h : w.step c = none) : finish c w = c := by
  cases w with
  | full todo r =>
    cases todo with
    | nil => rfl
    | cons k todo => cases h
  | quick todo changed =>
    cases todo with
    | nil => cases h
    | cons job todo =>
      cases job with
      | browseOnly share path => cases h
      | source src media parse =>
        simp only [Work.step] at h
        split at h <;> cases h
  | parsing scan parse todo => cases h
  | leaving => rfl

/-! It does not depend on the hashes. -/

def bareWork : Work → Work
  | .full todo r => .full (todo.map bareStep) (bareRegs r)
  | .quick todo changed => .quick (todo.map bareJob) changed
  | .parsing scan parse todo => .parsing (bareScan scan) (bareParser parse) (todo.map bareJob)
  | .leaving => .leaving

theorem bare_runJob (s : State) (job : Job) :
    runJob (bare s) (bareJob job) = (bare (runJob s job).1, (runJob s job).2) := by
  cases job with
  | browseOnly share path => exact bare_hideShare s share path
  | source src media parse =>
    have hbegin := bare_beginScan s src media
    simp only [bareJob, runJob, scanQuickSource, hbegin]
    cases beginScan s src media with
    | mk library begun =>
      cases begun with
      | returned changed => rfl
      | parsing scan => simp only [bareBegun, bare_commitScan]

theorem bare_runJobs (jobs : List Job) (s : State) (changed : Bool) :
    runJobs (jobs.map bareJob) (bare s) changed =
      (bare (runJobs jobs s changed).1, (runJobs jobs s changed).2) := by
  induction jobs generalizing s changed with
  | nil => rfl
  | cons job jobs ih =>
    rw [List.map_cons, runJobs, runJobs, bare_runJob]
    exact ih _ _

theorem bare_settle (c : Catalog) (r : State × Bool) :
    settle (bareCatalog c) (bare r.1, r.2) = bareCatalog (settle c r) := by
  unfold settle
  by_cases h : r.2 = true
  · rw [if_pos h, if_pos h]
    simp only [bareCatalog, bare_sorted, Option.map_some]
  · rw [if_neg h, if_neg h]
    rfl

theorem bare_finish (c : Catalog) (w : Work) :
    finish (bareCatalog c) (bareWork w) = bareCatalog (finish c w) := by
  cases w with
  | full todo r => exact congrArg Prod.fst (bare_runSteps todo (c, r))
  | quick todo changed =>
    have hjobs := bare_runJobs todo c.library changed
    show settle (bareCatalog c) (runJobs (todo.map bareJob) (bare c.library) changed) = _
    rw [hjobs]
    exact bare_settle c _
  | parsing scan parse todo =>
    have hjobs := bare_runJobs todo (commitScan c.library scan parse) true
    show settle (bareCatalog c) (runJobs (todo.map bareJob)
      (commitScan (bare c.library) (bareScan scan) (bareParser parse)) true) = _
    rw [bare_commitScan, hjobs]
    exact bare_settle c _
  | leaving => rfl

theorem finish_congr {c c' : Catalog} (h : bareCatalog c = bareCatalog c') (w : Work) :
    bareCatalog (finish c w) = bareCatalog (finish c' w) := by
  rw [← bare_finish, ← bare_finish, h]

/-! The scans one after the other. -/

def runPass (c : Catalog) : Pass → Catalog
  | .full j => ⟨fullLibrary j, some (fullLibrary j)⟩
  | .quick jobs => settle c (runJobs jobs c.library false)

def serial (passes : List Pass) (c : Catalog) : Catalog := passes.foldl runPass c

theorem finish_work (c : Catalog) (p : Pass) : finish c p.work = runPass c p := by
  cases p with
  | full j => exact fullSteps_catalog j (c, ⟨0, 0, none⟩)
  | quick jobs => rfl

theorem runPass_congr {c c' : Catalog} (h : bareCatalog c = bareCatalog c') (p : Pass) :
    bareCatalog (runPass c p) = bareCatalog (runPass c' p) := by
  rw [← finish_work, ← finish_work]
  exact finish_congr h p.work

theorem serial_enlist (passes : List Pass) (p : Pass) (c : Catalog) :
    serial (passes ++ [p]) c = runPass (serial passes c) p := by
  unfold serial
  rw [List.foldl_append]
  rfl

/-! The pool. -/

/-- The scan that was admitted will leave `goal`. -/
def Due (goal : Catalog) (s : Scanner) : Thread → Prop
  | .creating _ => bareCatalog s.catalog = goal
  | .working w => bareCatalog (finish s.catalog w) = goal
  | _ => True

theorem Due.other {goal : Catalog} {s : Scanner} {t : Thread} (ht : t.owns = false) :
    Due goal s t := by
  cases t with
  | creating j => cases ht
  | working w => cases ht
  | _ => trivial

theorem Due.hash {goal : Catalog} {s : Scanner} {t : Thread} (h : Due goal s t) {library : State}
    (hbare : bare library = bare s.catalog.library) :
    Due goal { s with catalog := { s.catalog with library } } t := by
  have hcatalog : bareCatalog { s.catalog with library } = bareCatalog s.catalog := by
    unfold bareCatalog
    rw [hbare]
  cases t with
  | creating j => exact hcatalog.trans h
  | working w => exact (finish_congr hcatalog w).trans h
  | _ => trivial

/-- The catalog is, or will be, what the admitted scans make of it one after the other. -/
structure Serial (c₀ : Catalog) (p : Pool Scanner Thread) : Prop where
  alone : Alone p
  idle : p.shared.active = false →
    bareCatalog p.shared.catalog = bareCatalog (serial p.shared.passes c₀)
  due : ∀ t ∈ p.threads, Due (bareCatalog (serial p.shared.passes c₀)) p.shared t

variable {c₀ : Catalog} {p : Pool Scanner Thread} {i : Nat} {t t' : Thread} {s' : Scanner}
  {new : List Thread}

/-- The thread that moves has the scan. -/
theorem due_owner (h : Alone p) (ht : p.threads[i]? = some t) (howns : t.owns = true)
    {goal : Catalog} (hmove : Due goal s' t') (hnew : ∀ u ∈ new, Due goal s' u) :
    ∀ u ∈ p.threads.set i t' ++ new, Due goal s' u := by
  intro u hu
  rcases mem_step ht hu with rfl | ⟨k, hki, hk⟩ | hu
  · exact hmove
  · exact .other (h.other ht howns hk hki)
  · exact hnew u hu

/-- No thread has a scan but the one that asks. -/
theorem due_claim (h : Alone p) (hfree : p.shared.active = false) (ht : p.threads[i]? = some t)
    {goal : Catalog} (hmove : Due goal s' t') : ∀ u ∈ p.threads.set i t' ++ [], Due goal s' u :=
  forall_step ht hmove
    (fun _ hu => .other (h.free hfree hu))
    fun _ hu => absurd hu List.not_mem_nil

theorem due_work {pass : Pass} {s : Scanner} {passes : List Pass}
    (h : bareCatalog s.catalog = bareCatalog (serial passes c₀)) :
    Due (bareCatalog (serial (passes ++ [pass]) c₀)) s (.working pass.work) := by
  show bareCatalog (finish s.catalog pass.work) = _
  rw [finish_work, serial_enlist]
  exact runPass_congr h pass

theorem serial_move {P : FullJob → Prop} (h : Serial c₀ p) (ht : p.threads[i]? = some t)
    (hmove : Move P p.shared t s' t' new) : Serial c₀ ⟨s', p.threads.set i t' ++ new⟩ := by
  have hmem : t ∈ p.threads := List.mem_of_getElem? ht
  have halone := alone_move h.alone ht hmove
  cases hmove with
  | look hown hown' _ =>
    exact ⟨halone, h.idle, forall_step ht (.other hown') h.due
      fun _ hu => absurd hu List.not_mem_nil⟩
  | hash hset =>
    have hbare := setBlurhash_bare hset
    refine ⟨halone, fun hfree => ?_, forall_step ht trivial (fun u hu => (h.due u hu).hash hbare)
      fun _ hu => absurd hu List.not_mem_nil⟩
    refine Eq.trans ?_ (h.idle hfree)
    unfold bareCatalog
    rw [hbare]
  | reserve drive hfree _ =>
    exact ⟨halone, fun hactive => Bool.noConfusion hactive, due_claim h.alone hfree ht (h.idle hfree)⟩
  | enter drive hfree _ =>
    exact ⟨halone, fun hactive => Bool.noConfusion hactive,
      due_claim h.alone hfree ht (due_work (h.idle hfree))⟩
  | create j =>
    refine ⟨halone, fun hfree => ?_, due_owner h.alone ht rfl trivial fun u hu => ?_⟩
    · exact Bool.noConfusion ((h.alone.active hmem rfl).symm.trans hfree)
    · rw [List.mem_singleton.mp hu]
      exact due_work (h.due _ hmem)
  | abandon j =>
    exact ⟨halone, fun _ => h.due _ hmem,
      due_owner h.alone ht rfl trivial fun u hu => absurd hu List.not_mem_nil⟩
  | work hstep =>
    refine ⟨halone, fun hfree => ?_,
      due_owner h.alone ht rfl ?_ fun u hu => absurd hu List.not_mem_nil⟩
    · exact Bool.noConfusion ((h.alone.active hmem rfl).symm.trans hfree)
    · exact (congrArg bareCatalog (step_finish hstep)).trans (h.due _ hmem)
  | @leave w hstep =>
    have hdue : bareCatalog (finish p.shared.catalog w) = _ := h.due _ hmem
    rw [finish_of_done hstep] at hdue
    exact ⟨halone, fun _ => hdue, due_owner h.alone ht rfl
      (.other (left_owns w)) fun u hu => absurd hu List.not_mem_nil⟩

theorem serial_start (catalog : Catalog) (n : Nat) : Serial catalog (start catalog n) := by
  refine ⟨alone_start catalog n, fun _ => rfl, fun t ht => ?_⟩
  rw [List.eq_of_mem_replicate ht]
  trivial

/-- Whenever no scan is on, drives, files and packages are those that the admitted scans make
one after the other, and so is the manifest; the hashes of the packages apart. -/
theorem scans_serialize {catalog : Catalog} {n : Nat} {p : Pool Scanner Thread}
    (h : scanner.Reach (fun _ _ _ => True) (start catalog n) p) (hidle : p.shared.active = false) :
    bareCatalog p.shared.catalog = bareCatalog (serial p.shared.passes catalog) := by
  have hserial : Serial catalog p := by
    refine h.invariant (Serial catalog) (serial_start catalog n) fun q i e r hq _ hstep => ?_
    obtain ⟨t, s', t', new, ht, hact, rfl⟩ := step_eq_some hstep
    exact serial_move hq ht (turn_move hact fun _ _ => trivial)
  exact hserial.idle hidle

/-- A quick scan of a drive that was taken out, with a hash that comes in between. -/
theorem scans_serialize_unmounted :
    ∃ p, scanner.Reach (fun _ _ _ => True) (start ⟨BlurhashUpdates.oneGame, none⟩ 2) p ∧
      p.shared.active = false ∧
      bareCatalog p.shared.catalog =
        bareCatalog (serial p.shared.passes ⟨BlurhashUpdates.oneGame, none⟩) := by
  have hreach : scanner.Reach (fun _ _ _ => True) (start ⟨BlurhashUpdates.oneGame, none⟩ 2) _ :=
    .tail (i := 0) (e := .go) (.tail (i := 0) (e := .go) (.tail (i := 0) (e := .go)
      (.tail (i := 1) (e := .setBlurhash (ascii "/mnt/usb0/a.pkg") (ascii "LGFF"))
        (.tail (i := 0)
          (e := .scanQuick [.source BlurhashUpdates.usb .unmounted BlurhashUpdates.parseGame])
          .refl trivial rfl) trivial rfl) trivial rfl) trivial rfl) trivial rfl
  exact ⟨_, hreach, rfl, scans_serialize hreach rfl⟩

end PkgManager.ScanSerial
