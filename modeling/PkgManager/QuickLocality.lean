import PkgManager.ScanSources

namespace PkgManager.QuickLocality

open CText ScannerState QuickScan ScanSources
open PkgMetadata (Text)

/-- The path whose records a scan of the source may drop. -/
def cleared : Origin → Text
  | .drive d => d.path.text
  | .share s => if s.cfg.browseOnly then sourcePath s.cfg else shareRoot s.cfg

/-- The files a scan goes through; a share that is only browsed has none. -/
def listed (w : World) : Origin → Option (List FileEntry)
  | .drive d =>
    match media w (.drive d) with
    | .files files => some files
    | _ => none
  | .share s =>
    if s.cfg.browseOnly then some []
    else
      match media w (.share s) with
      | .files files => some files
      | _ => none

/-- The packages and file records of a path are the same, in whatever order the packages. -/
structure Leaves (own : Text) (s s' : State) : Prop where
  packages : (s'.packages.filter (ofSource own)).Perm (s.packages.filter (ofSource own))
  files : s'.files.filter (fileOfSource own) = s.files.filter (fileOfSource own)

/-- No package can be of both paths. -/
def Apart (path own : Text) : Prop :=
  ∀ q : CString 512, matchesDrivePath q.text path = true → matchesDrivePath q.text own = false

/-- The parser reads the file, and as no later part of a package. -/
def Readable (parse : Parser) (f : FileEntry) : Prop :=
  (∃ p, parse.entry f = some p ∧ isProvisionalPackage p = false) ∧ isLaterPart f = false

/-- The paths of the packages. -/
def HasPath (l : List Package) (path : CString 512) : Prop := ∃ p ∈ l, p.path = path

/-- A quick scan of the source leaves the other one alone, and gives the source the packages
a full scan of the same files adds for it. -/
structure Sound (o other : Origin) : Prop where
  leaves : ∀ w s parse, Leaves other.own s (scanQuick w s o parse)
  agrees : ∀ w s s₀ parse files, listed w o = some files → (∀ f ∈ files, Readable parse f) →
    (s.packages.filter (! ofSource (cleared o) ·)).length + files.length ≤ maxPackages →
    s₀.packages.length + files.length ≤ maxPackages →
    ∀ path, HasPath ((scanQuick w s o parse).packages.filter (ofSource (cleared o))) path ↔
      HasPath ((scanFullFiles parse s₀ files).packages.drop s₀.packages.length) path

/-! What a scan leaves of another source. -/

variable {path own : Text} {s s' : State}

theorem Leaves.refl (own : Text) (s : State) : Leaves own s s := ⟨.refl _, rfl⟩

theorem Leaves.trans {s'' : State} (h : Leaves own s s') (h' : Leaves own s' s'') : Leaves own s s'' :=
  ⟨h'.packages.trans h.packages, h'.files.trans h.files⟩

theorem addDrive_files (s : State) (d : Drive) : (s.addDrive d).files = s.files := by
  unfold State.addDrive
  split <;> rfl

theorem mountDrive_files (s : State) (src : Source) (count added : Nat) :
    (mountDrive s src count added).files = s.files := by
  unfold mountDrive
  split
  · rfl
  · exact addDrive_files s _

theorem filter_updateFirst {α : Type} {P Q : α → Bool} {f : α → α}
    (h : ∀ a, P a = true → Q a = false ∧ Q (f a) = false) (l : List α) :
    (updateFirst P f l).filter Q = l.filter Q := by
  induction l with
  | nil => rfl
  | cons a l ih =>
    rw [updateFirst]
    by_cases hP : P a = true
    · obtain ⟨hQ, hQf⟩ := h a hP
      rw [if_pos hP, List.filter_cons_of_neg (by simp [hQf]), List.filter_cons_of_neg (by simp [hQ])]
    · rw [if_neg hP]
      simp only [List.filter_cons, ih]

theorem carries_ofSource {src : Source} {f : FileEntry} {p : Package} (h : carries src f p = true) :
    ofSource src.path p = true ∧ f.path = p.path := by
  unfold carries at h
  simp only [Bool.and_eq_true, decide_eq_true_eq] at h
  exact ⟨h.1.1.1, h.1.1.2⟩

theorem takeMtime_path (f : FileEntry) (p : Package) : (takeMtime f p).path = p.path := by
  unfold takeMtime
  split <;> rfl

theorem ofSource_takeMtime (path : Text) (f : FileEntry) (p : Package) :
    ofSource path (takeMtime f p) = ofSource path p := by
  unfold ofSource
  rw [takeMtime_path]

/-! What the copies of a scan are. -/

/-- The state of the loop over the files behind those in `files`. -/
structure TakenOf (src : Source) (packages : List Package) (files : List FileEntry) (t : Taken) : Prop where
  paths : t.packages.map (·.path) = packages.map (·.path)
  others : ∀ own, Apart src.path own → t.packages.filter (ofSource own) = packages.filter (ofSource own)
  carried : ∀ c ∈ t.carried, ofSource src.path c = true ∧ ∃ f ∈ files, c.path = f.path
  pending : ∀ f ∈ t.pending, f ∈ files
  each : ∀ f ∈ files, (∃ c ∈ t.carried, c.path = f.path) ∨ f ∈ t.pending
  count : t.carried.length + t.pending.length = files.length

theorem map_path_updateFirst (P : Package → Bool) (f : FileEntry) (l : List Package) :
    (updateFirst P (takeMtime f) l).map (·.path) = l.map (·.path) := by
  induction l with
  | nil => rfl
  | cons a l ih =>
    rw [updateFirst]
    split
    · rw [List.map_cons, List.map_cons, takeMtime_path]
    · rw [List.map_cons, List.map_cons, ih]

theorem takenOf_takeFile {src : Source} {packages : List Package} {files : List FileEntry} {t : Taken}
    (h : TakenOf src packages files t) (f : FileEntry) :
    TakenOf src packages (files ++ [f]) (takeFile src t f) := by
  unfold takeFile
  cases hfind : t.packages.find? (carries src f) with
  | none =>
    refine ⟨h.paths, h.others, fun c hc => ?_, fun g hg => ?_, fun g hg => ?_, ?_⟩
    · obtain ⟨hsource, g, hg, hpath⟩ := h.carried c hc
      exact ⟨hsource, g, List.mem_append_left [f] hg, hpath⟩
    · rcases List.mem_append.mp hg with hg | hg
      · exact List.mem_append_left [f] (h.pending g hg)
      · exact List.mem_append_right files hg
    · rcases List.mem_append.mp hg with hg | hg
      · rcases h.each g hg with hc | hp
        · exact .inl hc
        · exact .inr (List.mem_append_left [f] hp)
      · exact .inr (List.mem_append_right t.pending hg)
    · have hcount := h.count
      simp only [List.length_append, List.length_cons, List.length_nil]
      omega
  | some p =>
    obtain ⟨hsource, hpath⟩ := carries_ofSource (List.find?_some hfind)
    have hcopy : (takeMtime f p).path = f.path := (takeMtime_path f p).trans hpath.symm
    refine ⟨?_, fun own hapart => ?_, fun c hc => ?_, fun g hg => ?_, fun g hg => ?_, ?_⟩
    · exact (map_path_updateFirst _ f t.packages).trans h.paths
    · refine (filter_updateFirst (fun a ha => ?_) t.packages).trans (h.others own hapart)
      have hnot := hapart a.path (carries_ofSource ha).1
      exact ⟨hnot, (ofSource_takeMtime own f a).trans hnot⟩
    · rcases List.mem_append.mp hc with hc | hc
      · obtain ⟨hc, g, hg, hgpath⟩ := h.carried c hc
        exact ⟨hc, g, List.mem_append_left [f] hg, hgpath⟩
      · rw [List.mem_singleton.mp hc, ofSource_takeMtime]
        exact ⟨hsource, f, List.mem_append_right files (List.mem_singleton_self f), hcopy⟩
    · exact List.mem_append_left [f] (h.pending g hg)
    · rcases List.mem_append.mp hg with hg | hg
      · rcases h.each g hg with ⟨c, hc, hcpath⟩ | hp
        · exact .inl ⟨c, List.mem_append_left _ hc, hcpath⟩
        · exact .inr hp
      · rw [List.mem_singleton.mp hg]
        exact .inl ⟨_, List.mem_append_right _ (List.mem_singleton_self _), hcopy⟩
    · have hcount := h.count
      simp only [List.length_append, List.length_cons, List.length_nil]
      omega

theorem takenOf_takeFiles (src : Source) (packages : List Package) (files : List FileEntry) :
    TakenOf src packages files (takeFiles src packages files) := by
  suffices h : ∀ (later done : List FileEntry) (t : Taken), TakenOf src packages done t →
      TakenOf src packages (done ++ later) (later.foldl (takeFile src) t) from
    h files [] ⟨packages, [], []⟩
      ⟨rfl, fun _ _ => rfl, fun c hc => absurd hc List.not_mem_nil,
        fun f hf => absurd hf List.not_mem_nil, fun f hf => absurd hf List.not_mem_nil, rfl⟩
  intro later
  induction later with
  | nil =>
    intro done t h
    rwa [List.append_nil]
  | cons f later ih =>
    intro done t h
    have hnext := ih (done ++ [f]) _ (takenOf_takeFile h f)
    rwa [List.append_assoc] at hnext

/-! Locality. -/

theorem length_filter_of_paths {l l' : List Package} (h : l.map (·.path) = l'.map (·.path)) (path : Text) :
    (l.filter (! ofSource path ·)).length = (l'.filter (! ofSource path ·)).length := by
  have hcount : ∀ l : List Package, (l.filter (! ofSource path ·)).length =
      (l.map (·.path)).countP fun q => !matchesDrivePath q.text path := by
    intro l
    rw [List.countP_map, List.countP_eq_length_filter]
    rfl
  rw [hcount, hcount, h]

def emptyWorld : World where
  mounted := fun _ => true
  readdir := fun _ => some []
  stat := fun _ => none
  smb := ⟨fun _ => .ok (), fun _ _ => .ok []⟩

def packageAt (q : CString 512) : Package where
  path := q
  filename := .of 256 []
  titleId := .of 32 []
  titleName := .of 256 []
  localizedTitles := .of 2048 []
  defaultLanguage := .of 32 []
  contentId := .of 64 []
  appVersion := .of 32 []
  fileSize := 0
  totalPkgSize := 0
  iconOffset := 0
  iconSize := 0
  hasIcon := false
  isValid := true
  isMultipart := false
  partIndex := 0
  totalParts := 0
  pkgType := .base
  pkgTypeStr := .of 16 []
  category := .of 16 []
  mtime := 0
  blurhash := .of 64 []

theorem nothing_named (f : FileEntry) (p : Package) (h : none = some p) : p.path = f.path := by
  cases h

end PkgManager.QuickLocality
