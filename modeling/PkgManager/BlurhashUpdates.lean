import PkgManager.Interleaving
import PkgManager.QuickScan

namespace PkgManager.BlurhashUpdates

open Interleaving Machine CText ScannerState QuickScan
open PkgMetadata (Text)

def isAt (path : Text) (p : Package) : Bool := p.path.text = path

def setHash (blurhash : Text) (p : Package) : Package := { p with blurhash := .of 64 blurhash }

/-- `pkg_scanner_set_blurhash`; none where the library has no package of the path. -/
def setBlurhash (s : State) (path blurhash : Text) : Option State :=
  if s.packages.any (isAt path) then
    some { s with
      packages := updateFirst (isAt path) (setHash blurhash) s.packages
      packages_le := by rw [length_updateFirst]; exact s.packages_le }
  else none

/-- What the scanner threads share. `hashes` is history: the hash of the last successful
call for a package, until its file is parsed anew. -/
structure Store where
  library : State
  hashes : Text → Option (CString 64)

/-- A source of a quick scan: one with what the scan meets there, or a share that is
only browsed. -/
inductive Job where
  | source (src : Source) (media : Media) (parse : Parser)
  | browseOnly (share : Source) (sourcePath : Text)

/-- Where `pkg_scanner_scan_quick` and the calls of `pkg_scanner_set_blurhash` stand. -/
inductive Thread where
  | scanning (jobs : List Job) (changed : Bool)
  | parsing (scan : Scan) (parse : Parser) (jobs : List Job)
  | scanned
  | caller (path blurhash : Text)
  | called (path blurhash : Text) (ok : Bool)

def remember (hashes : Text → Option (CString 64)) (path blurhash : Text) :
    Text → Option (CString 64) :=
  fun q => if q = path then some (.of 64 blurhash) else hashes q

/-- A package parsed anew is another one than the call was for. -/
def forget (hashes : Text → Option (CString 64)) (new : List Package) : Text → Option (CString 64) :=
  fun q => if new.any (isAt q) then none else hashes q

/-- What a thread does in one critical section. -/
def turn (s : Store) : Thread → Option (Store × Thread × List Thread)
  | .scanning [] changed =>
    some ({ s with library := if changed then s.library.sorted else s.library }, .scanned, [])
  | .scanning (.source src media parse :: jobs) changed =>
    match beginScan s.library src media with
    | (library, .returned c) => some ({ s with library }, .scanning jobs (changed || c), [])
    | (library, .parsing scan) => some ({ s with library }, .parsing scan parse jobs, [])
  | .scanning (.browseOnly share sourcePath :: jobs) changed =>
    let hidden := hideShare s.library share sourcePath
    some ({ s with library := hidden.1 }, .scanning jobs (changed || hidden.2), [])
  | .parsing scan parse jobs =>
    some (⟨commitScan s.library scan parse, forget s.hashes (parsed scan parse)⟩,
      .scanning jobs true, [])
  | .scanned => none
  | .caller path blurhash =>
    match setBlurhash s.library path blurhash with
    | some library => some (⟨library, remember s.hashes path blurhash⟩, .called path blurhash true, [])
    | none => some (s, .called path blurhash false, [])
  | .called _ _ _ => none

def scanner : Machine Store Thread Unit where
  act _ s t := turn s t

/-- A quick scan, and calls with paths and hashes. -/
def start (library : State) (jobs : List Job) (calls : List (Text × Text)) : Pool Store Thread :=
  ⟨⟨library, fun _ => none⟩,
    .scanning jobs false :: calls.map fun c => .caller c.1 c.2⟩

/-- The copies a scan holds between its critical sections. -/
def copies : Thread → List Package
  | .parsing scan _ _ => scan.carried
  | _ => []

/-- The packages of a path have the hash. -/
def Have (packages : List Package) (path : Text) (h : CString 64) : Prop :=
  ∀ p ∈ packages, p.path.text = path → p.blurhash = h

/-- Every call that succeeded is seen in the library. -/
def Visible (s : Store) : Prop := ∀ path h, s.hashes path = some h → Have s.library.packages path h

/-- A call is for a package that the library lists once, and of which no scan holds a copy
with another hash. -/
def callsAlone (p : Pool Store Thread) (i : Nat) : Bool :=
  match p.threads[i]? with
  | some (Thread.caller path blurhash) =>
    (p.shared.library.packages.filter (isAt path)).length ≤ 1 &&
      p.threads.all fun t => (copies t).all fun c => !isAt path c || c.blurhash = .of 64 blurhash
  | _ => true

/-! What a turn does to the packages of a path. -/

theorem Have.subset {l l' : List Package} {path : Text} {h : CString 64} (hl : Have l path h)
    (hsub : ∀ p ∈ l', p ∈ l) : Have l' path h :=
  fun p hp => hl p (hsub p hp)

theorem Have.restamped {l l' : List Package} {path : Text} {h : CString 64} (hl : Have l path h)
    (hstamp : ∀ p ∈ l', Restamped l p) : Have l' path h := by
  intro p hp hpath
  obtain ⟨q, hq, heq⟩ := hstamp p hp
  have hqpath : q.path.text = path := by
    rw [heq] at hpath
    exact hpath
  rw [heq]
  exact hl q hq hqpath

theorem have_updateFirst {l : List Package} {path blurhash : Text}
    (hone : (l.filter (isAt path)).length ≤ 1) :
    Have (updateFirst (isAt path) (setHash blurhash) l) path (.of 64 blurhash) := by
  induction l with
  | nil => exact fun p hp => absurd hp List.not_mem_nil
  | cons a l ih =>
    intro p hp hpath
    rw [updateFirst] at hp
    by_cases ha : isAt path a = true
    · rw [if_pos ha] at hp
      rw [List.filter_cons_of_pos ha, List.length_cons] at hone
      have hrest : l.filter (isAt path) = [] := List.length_eq_zero_iff.mp (by omega)
      rcases List.mem_cons.mp hp with rfl | hp
      · rfl
      · have hmem : p ∈ l.filter (isAt path) := List.mem_filter.mpr ⟨hp, decide_eq_true hpath⟩
        rw [hrest] at hmem
        exact absurd hmem List.not_mem_nil
    · rw [if_neg ha] at hp
      rw [List.filter_cons_of_neg ha] at hone
      rcases List.mem_cons.mp hp with rfl | hp
      · exact absurd (decide_eq_true hpath) ha
      · exact ih hone p hp hpath

theorem Have.updateFirst {l : List Package} {path path' : Text} {h : CString 64} (hl : Have l path h)
    (hne : path ≠ path') (blurhash : Text) :
    Have (updateFirst (isAt path') (setHash blurhash) l) path h := by
  intro p hp hpath
  rcases mem_updateFirst hp with hp | ⟨a, -, ha, rfl⟩
  · exact hl p hp hpath
  · have hpath' : a.path.text = path' := of_decide_eq_true ha
    exact absurd (hpath.symm.trans hpath') hne

theorem have_commitScan {s : State} {scan : Scan} {parse : Parser} {path : Text} {h : CString 64}
    (hlib : Have s.packages path h) (hcopies : Have scan.carried path h)
    (hnew : (parsed scan parse).any (isAt path) = false) :
    Have (commitScan s scan parse).packages path h := by
  intro p hp hpath
  rw [commitScan_packages] at hp
  rcases List.mem_append.mp hp with hp | hp
  · exact hlib p (List.mem_filter.mp hp).1 hpath
  · rcases List.mem_append.mp (List.mem_of_mem_take hp) with hp | hp
    · exact hcopies p hp hpath
    · exact absurd (decide_eq_true hpath) (List.any_eq_false.mp hnew p hp)

theorem forget_eq_some {hashes : Text → Option (CString 64)} {new : List Package} {path : Text}
    {h : CString 64} (hforget : forget hashes new path = some h) :
    hashes path = some h ∧ new.any (isAt path) = false := by
  unfold forget at hforget
  split at hforget
  · cases hforget
  · rename_i hany
    exact ⟨hforget, Bool.eq_false_iff.mpr hany⟩

theorem remember_eq_some {hashes : Text → Option (CString 64)} {path blurhash q : Text}
    {h : CString 64} (hsome : remember hashes path blurhash q = some h) :
    (q = path ∧ h = .of 64 blurhash) ∨ (q ≠ path ∧ hashes q = some h) := by
  unfold remember at hsome
  by_cases hq : q = path
  · rw [if_pos hq] at hsome
    exact .inl ⟨hq, (Option.some.inj hsome).symm⟩
  · rw [if_neg hq] at hsome
    exact .inr ⟨hq, hsome⟩

theorem beginScan_restamped (s : State) (src : Source) (media : Media) :
    (∀ p ∈ (beginScan s src media).1.packages, Restamped s.packages p) ∧
      ∀ scan, (beginScan s src media).2 = .parsing scan → ∀ p ∈ scan.carried, Restamped s.packages p := by
  have hself : ∀ p ∈ s.packages, Restamped s.packages p := fun p hp => ⟨p, hp, rfl⟩
  cases media with
  | unreadable => exact ⟨hself, fun scan h => nomatch h⟩
  | unmounted => exact ⟨fun p hp => hself p (List.mem_filter.mp hp).1, fun scan h => nomatch h⟩
  | files files =>
    unfold beginScan
    dsimp only
    by_cases hid : identical s src files = true
    · rw [if_pos hid]
      refine ⟨fun p hp => ?_, fun scan h => nomatch h⟩
      rw [mountDrive_packages] at hp
      exact hself p hp
    · rw [if_neg hid]
      obtain ⟨hpackages, hcarried⟩ := restamped_takeFiles src s.packages files
      refine ⟨hpackages, fun scan h => ?_⟩
      obtain rfl := Begun.parsing.inj h
      exact hcarried

/-! The invariant: the calls are seen in the library, and in the copies of the scans. -/

def CopiesHave (hashes : Text → Option (CString 64)) (t : Thread) : Prop :=
  ∀ path h, hashes path = some h → Have (copies t) path h

structure Kept (p : Pool Store Thread) : Prop where
  library : Visible p.shared
  copies : ∀ t ∈ p.threads, CopiesHave p.shared.hashes t

theorem copiesHave_of_nil {hashes : Text → Option (CString 64)} {t : Thread} (h : copies t = []) :
    CopiesHave hashes t := by
  intro path hash _ c hc
  rw [h] at hc
  exact absurd hc List.not_mem_nil

theorem kept_start (library : State) (jobs : List Job) (calls : List (Text × Text)) :
    Kept (start library jobs calls) := by
  refine ⟨fun path h hnone => absurd hnone (by simp [start]), fun t ht => copiesHave_of_nil ?_⟩
  rcases List.mem_cons.mp ht with rfl | ht
  · rfl
  · obtain ⟨c, -, rfl⟩ := List.mem_map.mp ht
    rfl

/-- The turn of a scanner that leaves the history as it is. -/
theorem Kept.turn {p : Pool Store Thread} {i : Nat} {t t' : Thread} {library : State} (h : Kept p)
    (ht : p.threads[i]? = some t)
    (hlib : ∀ c ∈ library.packages, Restamped p.shared.library.packages c)
    (hcopies : ∀ c ∈ BlurhashUpdates.copies t', Restamped p.shared.library.packages c) :
    Kept ⟨{ p.shared with library }, p.threads.set i t' ++ []⟩ :=
  ⟨fun path hash hsome => (h.library path hash hsome).restamped hlib,
    forall_step ht (fun path hash hsome => (h.library path hash hsome).restamped hcopies) h.copies
      (fun _ hu => absurd hu List.not_mem_nil)⟩

theorem kept_step {p q : Pool Store Thread} {i : Nat} (h : Kept p) (hg : callsAlone p i = true)
    (hs : scanner.step p i () = some q) : Kept q := by
  obtain ⟨t, s', t', new, ht, hact, rfl⟩ := step_eq_some hs
  have hturn : turn p.shared t = some (s', t', new) := hact
  have hself : ∀ c ∈ p.shared.library.packages, Restamped p.shared.library.packages c :=
    fun c hc => ⟨c, hc, rfl⟩
  have hnone : ∀ c ∈ ([] : List Package), Restamped p.shared.library.packages c :=
    fun c hc => absurd hc List.not_mem_nil
  cases t with
  | scanning jobs changed =>
    cases jobs with
    | nil =>
      cases hturn
      refine h.turn ht (fun c hc => ?_) hnone
      split at hc
      · exact hself c ((sortPackages_perm _).mem_iff.mp hc)
      · exact hself c hc
    | cons job jobs =>
      cases job with
      | source src media parse =>
        obtain ⟨hlib, hcarried⟩ := beginScan_restamped p.shared.library src media
        cases hbegin : beginScan p.shared.library src media with
        | mk library begun =>
          rw [hbegin] at hlib hcarried
          simp only [BlurhashUpdates.turn, hbegin] at hturn
          cases begun with
          | returned c =>
            cases hturn
            exact h.turn ht hlib hnone
          | parsing scan =>
            cases hturn
            exact h.turn ht hlib (hcarried scan rfl)
      | browseOnly share sourcePath =>
        cases hturn
        refine h.turn ht (fun c hc => ?_) hnone
        rw [hideShare_packages] at hc
        exact hself c (List.mem_filter.mp hc).1
  | parsing scan parse jobs =>
    cases hturn
    have hscan := h.copies _ (List.mem_of_getElem? ht)
    refine ⟨fun path hash hsome => ?_,
      forall_step ht (copiesHave_of_nil rfl) (fun u hu path hash hsome => ?_)
        (fun u hu => absurd hu List.not_mem_nil)⟩
    · obtain ⟨hold, hnew⟩ := forget_eq_some hsome
      exact have_commitScan (h.library path hash hold) (hscan path hash hold) hnew
    · exact h.copies u hu path hash (forget_eq_some hsome).1
  | scanned => cases hturn
  | caller path blurhash =>
    cases hset : setBlurhash p.shared.library path blurhash with
    | none =>
      simp only [BlurhashUpdates.turn, hset] at hturn
      cases hturn
      exact h.turn ht hself hnone
    | some library =>
      simp only [BlurhashUpdates.turn, hset] at hturn
      cases hturn
      unfold callsAlone at hg
      rw [ht] at hg
      obtain ⟨hone, hall⟩ := Bool.and_eq_true_iff.mp hg
      unfold setBlurhash at hset
      split at hset
      · cases hset
        refine ⟨fun q hash hsome => ?_,
          forall_step ht (copiesHave_of_nil rfl) (fun u hu q hash hsome => ?_)
            (fun u hu => absurd hu List.not_mem_nil)⟩
        · rcases remember_eq_some hsome with ⟨rfl, rfl⟩ | ⟨hq, hold⟩
          · exact have_updateFirst (of_decide_eq_true hone)
          · exact (h.library q hash hold).updateFirst hq blurhash
        · rcases remember_eq_some hsome with ⟨rfl, rfl⟩ | ⟨-, hold⟩
          · intro c hc hpath
            have hcopy := List.all_eq_true.mp (List.all_eq_true.mp hall u hu) c hc
            have hat : isAt q c = true := decide_eq_true hpath
            rw [hat, Bool.not_true, Bool.false_or] at hcopy
            exact of_decide_eq_true hcopy
          · exact h.copies u hu q hash hold
      · cases hset
  | called path blurhash ok => cases hturn

/-- In every run in which each call is for a package that the library lists once and of
which no scan holds a copy with another hash, the library has the hash of every call that
succeeded. -/
theorem blurhashes_kept (library : State) (jobs : List Job) (calls : List (Text × Text))
    (p : Pool Store Thread)
    (h : Reach scanner (fun p i _ => callsAlone p i = true) (start library jobs calls) p) :
    Visible p.shared := by
  have hinv : Kept p :=
    h.invariant Kept (kept_start library jobs calls) fun p i e q hp hg hs => kept_step hp hg hs
  exact hinv.library

/-! A package on a drive on which a second one appears. -/

def usb : Source := ⟨ascii "usb0", ascii "USB Drive 0", ascii "/mnt/usb0", ascii "usb"⟩

def fileOf (name : String) : FileEntry where
  path := .of 512 (ascii ("/mnt/usb0/" ++ name))
  filename := .of 256 (ascii name)
  fileSize := 4096
  mtime := 100

def packageOf (f : FileEntry) : Package where
  path := f.path
  filename := f.filename
  titleId := .of 32 (ascii "CUSA00001")
  titleName := .of 256 (ascii "Game")
  localizedTitles := .of 2048 []
  defaultLanguage := .of 32 []
  contentId := .of 64 []
  appVersion := .of 32 []
  fileSize := f.fileSize
  totalPkgSize := f.fileSize
  iconOffset := 0
  iconSize := 0
  hasIcon := true
  isValid := true
  isMultipart := false
  partIndex := 0
  totalParts := 0
  pkgType := .base
  pkgTypeStr := .of 16 (ascii "base")
  category := .of 16 []
  mtime := f.mtime
  blurhash := .of 64 []

def oneGame : State where
  drives := []
  files := []
  packages := [packageOf (fileOf "a.pkg")]
  drives_le := no_drives_le
  packages_le := by decide
  files_named := no_files_named
  files_nodup := no_files_nodup

def parseGame : Parser := ⟨fun f => some (packageOf f), fun _ _ h => by cases h; rfl⟩

def rescan : Job := .source usb (.files [fileOf "a.pkg", fileOf "b.pkg"]) parseGame

def hashCall : Text × Text := (ascii "/mnt/usb0/a.pkg", ascii "L6Pj0^jE")

/-- What a package has at the end of a run, and what its calls have set. -/
def seen (p : Pool Store Thread) : Option (CString 64) × List (CString 64) :=
  (p.shared.hashes hashCall.1, (p.shared.library.packages.filter (isAt hashCall.1)).map (·.blurhash))

theorem blurhashes_kept_before : ∃ p : Pool Store Thread,
    p.shared.hashes hashCall.1 = some (.of 64 hashCall.2) ∧ Visible p.shared := by
  have hrun : (scanner.exec (fun p i _ => callsAlone p i = true)
      [(1, ()), (0, ()), (0, ())] (start oneGame [rescan] [hashCall])).map (fun p => (seen p).1) =
        some (some (.of 64 hashCall.2)) := by decide
  obtain ⟨p, hp, hseen⟩ := Option.map_eq_some_iff.mp hrun
  exact ⟨p, hseen, blurhashes_kept oneGame [rescan] [hashCall] p (.of_exec hp)⟩

/-- A call between the two critical sections of a scan. -/
theorem blurhashes_kept_fails : ¬∀ library jobs calls p,
    Reach scanner (fun _ _ _ => True) (start library jobs calls) p →
      (∀ t ∈ p.threads, copies t = []) → Visible p.shared := by
  intro hall
  have hrun : (scanner.exec (fun _ _ _ => True)
      [(0, ()), (1, ()), (0, ())] (start oneGame [rescan] [hashCall])).map
        (fun p => (p.threads.all fun t => (copies t).isEmpty, seen p)) =
      some (true, some (.of 64 hashCall.2), [.of 64 []]) := by decide
  obtain ⟨p, hp, hend⟩ := Option.map_eq_some_iff.mp hrun
  obtain ⟨hdone, hseen⟩ := Prod.mk.inj hend
  obtain ⟨hhash, hhave⟩ := Prod.mk.inj hseen
  have hvisible := hall oneGame [rescan] [hashCall] p (.of_exec hp)
    (fun t ht => List.isEmpty_iff.mp (List.all_eq_true.mp hdone t ht)) _ _ hhash
  have hmem : CString.of 64 [] ∈
      (p.shared.library.packages.filter (isAt hashCall.1)).map (·.blurhash) := by
    rw [hhave]
    exact List.mem_singleton_self _
  obtain ⟨c, hc, hempty⟩ := List.mem_map.mp hmem
  obtain ⟨hc, hpath⟩ := List.mem_filter.mp hc
  have hsame := hempty.symm.trans (hvisible c hc (of_decide_eq_true hpath))
  exact absurd hsame (by decide)

end PkgManager.BlurhashUpdates
