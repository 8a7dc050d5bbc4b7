import PkgManager.ScanThreads

namespace PkgManager.ScanProgress

open Interleaving Machine CText ScannerState QuickScan ScanSources FullScan ScanThreads
open PkgMetadata (Text)
open BlurhashUpdates (setBlurhash)

/-! The count of the files is the number a scan meets. -/

/-- How many files the drive has for the scan. -/
def met (j : FullJob) (d : FullDrive) : Nat :=
  if d.present j.scanned then (d.files j.scanned).length else 0

/-- The drives have not more files when they are read than were counted for all sources. -/
def Counted (j : FullJob) : Prop := ((fullDrives j.env).map (met j)).sum ≤ j.expected

/-- Along the steps there are never more files processed than are expected. -/
def Keeps : List Step → Status → Prop
  | [], st => st.processedFiles ≤ st.totalFiles
  | k :: todo, st => st.processedFiles ≤ st.totalFiles ∧ Keeps todo (k.status st)

def statusAfter (steps : List Step) (st : Status) : Status := steps.foldl (fun st k => k.status st) st

theorem Keeps.now {todo : List Step} {st : Status} (h : Keeps todo st) :
    st.processedFiles ≤ st.totalFiles := by
  cases todo with
  | nil => exact h
  | cons k todo => exact h.1

theorem keeps_append {a b : List Step} {st : Status} (ha : Keeps a st)
    (hb : Keeps b (statusAfter a st)) : Keeps (a ++ b) st := by
  induction a generalizing st with
  | nil => exact hb
  | cons k a ih => exact ⟨ha.1, ih ha.2 hb⟩

/-- With `n` more files expected than processed the steps keep, and leave `m` of them. -/
def Within (n : Nat) (steps : List Step) (m : Nat) : Prop :=
  ∀ st : Status, st.processedFiles + n ≤ st.totalFiles →
    Keeps steps st ∧
      (statusAfter steps st).processedFiles + m ≤ (statusAfter steps st).totalFiles

theorem within_append {n m k : Nat} {a b : List Step} (ha : Within n a m) (hb : Within m b k) :
    Within n (a ++ b) k := by
  intro st hst
  obtain ⟨hkeeps, hleft⟩ := ha st hst
  obtain ⟨hkeeps', hleft'⟩ := hb _ hleft
  refine ⟨keeps_append hkeeps hkeeps', ?_⟩
  have hafter : statusAfter (a ++ b) st = statusAfter b (statusAfter a st) := List.foldl_append
  rw [hafter]
  exact hleft'

theorem within_nil (n : Nat) : Within n [] n := by
  intro st hst
  exact ⟨(Nat.le_add_right _ _).trans hst, hst⟩

theorem within_flatMap {α : Type} {steps : α → List Step} {size : α → Nat}
    (h : ∀ a m, Within (size a + m) (steps a) m) (l : List α) (m : Nat) :
    Within ((l.map size).sum + m) (l.flatMap steps) m := by
  induction l with
  | nil =>
    rw [List.map_nil, List.sum_nil, Nat.zero_add]
    exact within_nil m
  | cons a l ih =>
    rw [List.map_cons, List.sum_cons, Nat.add_assoc]
    exact within_append (h a _) ih

theorem within_flatMap_zero {α : Type} {steps : α → List Step} (h : ∀ a, Within 0 (steps a) 0)
    (l : List α) : Within 0 (l.flatMap steps) 0 := by
  induction l with
  | nil => exact within_nil 0
  | cons a l ih => exact within_append (h a) ih

/-- A step that does not touch the two counts. -/
theorem within_still {k : Step} (n : Nat)
    (hprocessed : ∀ st, (k.status st).processedFiles = st.processedFiles)
    (htotal : ∀ st, (k.status st).totalFiles = st.totalFiles) : Within n [k] n := by
  intro st hst
  have hnow : st.processedFiles ≤ st.totalFiles := (Nat.le_add_right _ _).trans hst
  have hnext : (k.status st).processedFiles + n ≤ (k.status st).totalFiles := by
    rw [hprocessed, htotal]
    exact hst
  exact ⟨⟨hnow, (Nat.le_add_right _ _).trans hnext⟩, hnext⟩

theorem within_process (parse : Found → Option Package) (label : Text) (f : Found) (m : Nat) :
    Within (1 + m) (processSteps parse label f) m := by
  intro st hst
  have hnow : st.processedFiles ≤ st.totalFiles := by omega
  have hnext : st.processedFiles + 1 ≤ st.totalFiles := by omega
  refine ⟨⟨hnow, hnow, hnow, hnow, hnow, hnext⟩, ?_⟩
  show st.processedFiles + 1 + m ≤ st.totalFiles
  omega

theorem within_smbPkgScan (parse : Found → Option Package) (label : Text) (f : Found) :
    Within 0 (smbPkgScanSteps parse label f) 0 := by
  intro st hst
  have hgrow : Within 0 [.grow] 1 := by
    intro st hst
    have hnext : st.processedFiles + 1 ≤ (Step.status st .grow).totalFiles := by
      simp only [Step.status]
      split
      · omega
      · split <;> omega
    exact ⟨⟨hst, (Nat.le_add_right _ _).trans hnext⟩, hnext⟩
  exact within_append hgrow (within_process parse label f 0) st hst

theorem within_source {n m : Nat} {steps : List Step} (h : Within n steps m) (src : Source) :
    Within n (.mark :: steps ++ [.tally, .addDrive src]) m := by
  have hmark : Within n [.mark] n := within_still n (fun _ => rfl) fun _ => rfl
  have htally : Within m [.tally] m := within_still m (fun _ => rfl) fun _ => rfl
  have hdrive : Within m [.addDrive src] m := within_still m (fun _ => rfl) fun _ => rfl
  exact within_append (within_append hmark h) (within_append htally hdrive)

theorem within_drive (j : FullJob) (d : FullDrive) (m : Nat) :
    Within (met j d + m) (driveSteps j d) m := by
  unfold met driveSteps
  by_cases h : d.present j.scanned = true
  · rw [if_pos h, if_pos h]
    have hfiles : Within (((d.files j.scanned).map fun _ => 1).sum + m)
        ((d.files j.scanned).flatMap (processSteps j.parse d.shown)) m :=
      within_flatMap (within_process j.parse d.shown) (d.files j.scanned) m
    rw [List.map_const', List.sum_replicate_nat, Nat.mul_one] at hfiles
    exact within_source hfiles d.source
  · rw [if_neg h, if_neg h, Nat.zero_add]
    exact within_nil m

theorem within_share (j : FullJob) (sh : ShareSource) : Within 0 (shareSteps j sh) 0 := by
  unfold shareSteps
  dsimp only
  split
  · exact within_still 0 (fun _ => rfl) fun _ => rfl
  · cases shareFiles j.scanned.smb sh.cfg with
    | none =>
      intro st hst
      exact ⟨⟨hst, hst, hst, hst, hst⟩, hst⟩
    | some files =>
      exact within_source (within_flatMap_zero (within_smbPkgScan j.parse _) files) _

/-- Along a full scan of as many files as were counted. -/
theorem keeps_full {j : FullJob} (h : Counted j) {st : Status}
    (hst : st.processedFiles ≤ st.totalFiles) : Keeps (fullSteps j) st := by
  have hdrives := within_flatMap (within_drive j) (fullDrives j.env) 0
  have hshares := within_flatMap_zero (within_share j) j.shares
  have hsort : Within 0 [.sortAndSave] 0 := within_still 0 (fun _ => rfl) fun _ => rfl
  have hsources := within_append (within_append hdrives hshares) hsort
  have hpublished : 0 + (((fullDrives j.env).map (met j)).sum + 0) ≤ j.expected := by
    unfold Counted at h
    omega
  exact ⟨hst, hst, (hsources ⟨true, 0, j.expected, 0, .of 64 [], .of 256 []⟩ hpublished).1⟩

/-! The pool. -/

/-- What a thread relies on: the rest of its scan keeps the status, and a package that was
read has room. -/
def Steady (s : Scanner) : Thread → Prop
  | .creating j => Counted j
  | .working (.full todo r) =>
    Keeps todo s.status ∧
      (r.detail.isSome = true → s.catalog.library.packages.length < maxPackages)
  | .told st => st.processedFiles ≤ st.totalFiles
  | _ => True

structure Inv (p : Pool Scanner Thread) : Prop where
  alone : Alone p
  shown : p.shared.status.isScanning = p.shared.active
  inBounds : p.shared.overrun = false
  progress : p.shared.status.processedFiles ≤ p.shared.status.totalFiles
  steady : ∀ t ∈ p.threads, Steady p.shared t

/-- A thread that was not admitted relies on nothing the others change. -/
theorem Steady.other {s s' : Scanner} {t : Thread} (h : Steady s t) (ht : t.owns = false) :
    Steady s' t := by
  cases t with
  | creating j => cases ht
  | working w => cases ht
  | told st => exact h
  | _ => trivial

theorem Steady.pass {s : Scanner} {p : Pass} (hp : ∀ j, p.job = some j → Counted j)
    (hs : s.status.processedFiles ≤ s.status.totalFiles) : Steady s (.working p.work) := by
  cases p with
  | full j => exact ⟨keeps_full (hp j rfl) hs, fun h => absurd h Bool.false_ne_true⟩
  | quick jobs => trivial

theorem setBlurhash_packages {s s' : State} {path blurhash : Text}
    (h : setBlurhash s path blurhash = some s') : s'.packages.length = s.packages.length := by
  unfold setBlurhash at h
  split at h
  · rw [← Option.some.inj h]
    exact length_updateFirst _ _ _
  · cases h

theorem Steady.hash {s : Scanner} {t : Thread} (h : Steady s t) {path blurhash : Text} {library : State}
    (hset : setBlurhash s.catalog.library path blurhash = some library) :
    Steady { s with catalog := { s.catalog with library } } t := by
  cases t with
  | working w =>
    cases w with
    | full todo r =>
      refine ⟨h.1, fun hr => ?_⟩
      have hlength := setBlurhash_packages hset
      exact hlength ▸ h.2 hr
    | _ => trivial
  | _ => exact h

theorem inv_start (catalog : Catalog) (n : Nat) : Inv (start catalog n) := by
  refine ⟨alone_start catalog n, rfl, rfl, Nat.le_refl _, fun t ht => ?_⟩
  rw [List.eq_of_mem_replicate ht]
  trivial

end PkgManager.ScanProgress
