import PkgManager.QuickScan
import PkgManager.SmbUrl

namespace PkgManager.ScanSources

open CText ScannerState QuickScan SmbShare
open PkgMetadata (Text)
open Settings (decimalInt)
open SmbBrowse (SmbServer)
open SmbUrl (Call smbClientScanShare)

/-! What a scan reads. -/

inductive Stat where
  | directory
  | regular (size mtime : UInt64)
  | other

/-- The console's drives and the servers of its shares. -/
structure World where
  mounted : Text → Bool
  readdir : Text → Option (List Text)
  stat : Text → Option Stat
  smb : SmbServer

/-- A drive, or with `whole` the directory that `PKG_SCAN_DIR` names. -/
structure DriveSource where
  id : Text
  label : Text
  path : CString 256
  type : Text
  whole : Bool
  named : path.text ≠ []

/-- A share of the settings that a scan takes up; it is stored as it was sanitized. -/
structure ShareSource where
  index : Nat
  cfg : ShareConfig
  enabled : cfg.enabled = true
  server : cfg.server.text ≠ []
  share : cfg.share.text ≠ []
  clean : sanitizeConfig cfg = cfg

inductive Origin where
  | drive (d : DriveSource)
  | share (s : ShareSource)

def shareRoot (cfg : ShareConfig) : Text :=
  let host := if cfg.port ≠ 0 ∧ cfg.port ≠ smbDefaultPort then
    cfg.server.text ++ 58 :: decimalInt cfg.port else cfg.server.text
  bounded 512 (ascii "smb://" ++ host ++ 47 :: cfg.share.text)

/-- The root of the share and the folder that is scanned. -/
def sourcePath (cfg : ShareConfig) : Text :=
  shareRoot cfg ++ (if cfg.path.text ≠ [] then 47 :: cfg.path.text else [])

/-- What a scan calls the source. -/
def Origin.source : Origin → Source
  | .drive d => ⟨d.id, d.label, d.path.text, d.type⟩
  | .share s =>
    { id := if s.cfg.id.text ≠ [] then s.cfg.id.text else ascii "smb" ++ decimal s.index
      label := if s.cfg.label.text ≠ [] then s.cfg.label.text
        else ascii "SMB: " ++ s.cfg.share.text.take 58
      path := shareRoot s.cfg
      type := ascii "smb" }

/-- Where the packages of the source stand. -/
def Origin.own : Origin → Text
  | .drive d => d.path.text
  | .share s => sourcePath s.cfg

/-! The file lists. -/

def isPackageFile (name : Text) : Bool :=
  if name.head? = some 46 ∨ name = [] then false
  else
    match PartSources.partNumber name with
    | some n => n = 1
    | none =>
      match strrchr 46 name with
      | none => false
      | some dot => sameText (name.drop dot) (ascii ".pkg") || sameText (name.drop dot) (ascii ".001")

/-- `collect_local_files_quick` with the number of levels that are left, from `depth > 5`
on none. -/
def collectLocalFilesQuick (w : World) (deep : Bool) : Nat → Text → List FileEntry
  | 0, _ => []
  | levels + 1, dir =>
    match w.readdir dir with
    | none => []
    | some names => names.flatMap fun name =>
      if name.head? = some 46 then []
      else
        let full := bounded 1024 (dir ++ 47 :: name)
        match w.stat full with
        | some .directory => if deep then collectLocalFilesQuick w deep levels full else []
        | some (.regular size mtime) =>
          if isPackageFile name then [⟨CString.of 512 full, CString.of 256 name, size, mtime⟩] else []
        | _ => []

/-- `quick_smb_pkg_cb` for the calls of a scan; none where a URL does not fit. -/
def quickSmbFiles (calls : List Call) : Option (List FileEntry) :=
  let listed := calls.filter fun c => isPackageFile c.name
  if listed.all fun c => c.url.length < 512 then
    some (listed.map fun c =>
      ⟨CString.of 512 c.url, CString.of 256 c.name, c.size, UInt64.ofNat c.mtime.toNat⟩)
  else none

def media (w : World) : Origin → Media
  | .drive d =>
    if w.mounted d.path.text then
      .files (if d.whole then collectLocalFilesQuick w true 6 d.path.text
        else collectLocalFilesQuick w false 6 d.path.text ++
          collectLocalFilesQuick w true 6 (bounded 512 (d.path.text ++ ascii "/pkg")))
    else .unmounted
  | .share s =>
    match smbClientScanShare w.smb s.cfg with
    | (calls, some _) =>
      match quickSmbFiles calls with
      | some files => .files files
      | none => .unreadable
    | (_, none) => .unreadable

/-! Scans of one source. -/

/-- A quick scan with a file list. -/
def scanQuickSource (s : State) (src : Source) (m : Media) (parse : Parser) : State × Bool :=
  match beginScan s src m with
  | (s', .returned changed) => (s', changed)
  | (s', .parsing scan) => (commitScan s' scan parse, true)

def scanOrigin (w : World) (s : State) (o : Origin) (parse : Parser) : State × Bool :=
  match o with
  | .share sh =>
    if sh.cfg.browseOnly then hideShare s o.source (sourcePath sh.cfg)
    else scanQuickSource s o.source (media w o) parse
  | .drive _ => scanQuickSource s o.source (media w o) parse

/-- `pkg_scanner_scan_quick` of one source. -/
def scanQuick (w : World) (s : State) (o : Origin) (parse : Parser) : State :=
  let r := scanOrigin w s o parse
  if r.2 then r.1.sorted else r.1

/-- `process_pkg_file`. -/
def processPkgFile (parse : Parser) (s : State) (f : FileEntry) : State :=
  match parse.entry f with
  | some p => (recordFile s f).addPackage p
  | none => recordFile s f

/-- The files of one source in a full scan. -/
def scanFullFiles (parse : Parser) (s : State) (files : List FileEntry) : State :=
  files.foldl (processPkgFile parse) s

/-! The files of a source are below its path. -/

theorem matches_append {path rest : Text} (hpath : path ≠ []) :
    matchesDrivePath (path ++ 47 :: rest) path = true := by
  unfold matchesDrivePath
  rw [List.isPrefixOf_iff_prefix.mpr (List.prefix_append path _), List.drop_left]
  simp [hpath]

/-- The path of a C string that begins so. -/
theorem of_append (n : Nat) [NeZero n] {path : Text} (rest : Text) (hnul : 0 ∉ path)
    (hlen : path.length + 1 < n) :
    ∃ r, (CString.of n (path ++ 47 :: rest)).text = path ++ 47 :: r := by
  have hall : ∀ b ∈ path, decide (b ≠ 0) = true := fun b hb => decide_eq_true fun h => hnul (h ▸ hb)
  have hupto : upToNul (path ++ 47 :: rest) = path ++ 47 :: upToNul rest := by
    unfold upToNul
    rw [List.takeWhile_append_of_pos hall]
    simp
  refine ⟨(upToNul rest).take (n - 1 - path.length - 1), ?_⟩
  show (upToNul (path ++ 47 :: rest)).take (n - 1) = _
  rw [hupto, List.take_append, List.take_of_length_le (by omega)]
  obtain ⟨k, hk⟩ : ∃ k, n - 1 - path.length = k + 1 := ⟨n - 1 - path.length - 1, by omega⟩
  rw [hk, List.take_succ_cons]
  rfl

theorem bounded_append {n : Nat} {path : Text} (rest : Text) (hlen : path.length + 1 < n) :
    ∃ r, bounded n (path ++ 47 :: rest) = path ++ 47 :: r := by
  refine ⟨rest.take (n - 1 - path.length - 1), ?_⟩
  unfold bounded
  rw [List.take_append, List.take_of_length_le (by omega)]
  obtain ⟨k, hk⟩ : ∃ k, n - 1 - path.length = k + 1 := ⟨n - 1 - path.length - 1, by omega⟩
  rw [hk, List.take_succ_cons]
  rfl

/-- The directory is the path, or below it. -/
def Below (path dir : Text) : Prop := dir = path ∨ ∃ r, dir = path ++ 47 :: r

theorem below_entry {path dir : Text} (h : Below path dir) (name : Text) :
    ∃ r, dir ++ 47 :: name = path ++ 47 :: r := by
  rcases h with rfl | ⟨r, rfl⟩
  · exact ⟨name, rfl⟩
  · exact ⟨r ++ 47 :: name, List.append_assoc _ _ _⟩

theorem collect_below {w : World} {deep : Bool} {path : CString 256} (hpath : path.text ≠ [])
    (levels : Nat) {dir : Text} (hdir : Below path.text dir) :
    ∀ f ∈ collectLocalFilesQuick w deep levels dir, matchesDrivePath f.path.text path.text = true := by
  have hfits := path.fits
  induction levels generalizing dir with
  | zero => exact fun f hf => absurd hf List.not_mem_nil
  | succ levels ih =>
    intro f hf
    rw [collectLocalFilesQuick] at hf
    cases hread : w.readdir dir with
    | none =>
      rw [hread] at hf
      exact absurd hf List.not_mem_nil
    | some names =>
      rw [hread] at hf
      obtain ⟨name, -, hf⟩ := List.mem_flatMap.mp hf
      obtain ⟨r, hr⟩ := below_entry hdir name
      obtain ⟨r', hr'⟩ := bounded_append r (show path.text.length + 1 < 1024 by omega)
      split at hf
      · exact absurd hf List.not_mem_nil
      · rw [hr, hr'] at hf
        dsimp only at hf
        split at hf
        · split at hf
          · exact ih (.inr ⟨r', rfl⟩) f hf
          · exact absurd hf List.not_mem_nil
        · split at hf
          · rw [List.mem_singleton.mp hf]
            obtain ⟨r'', hr''⟩ := of_append 512 r' path.noNul (by omega)
            rw [hr'']
            exact matches_append hpath
          · exact absurd hf List.not_mem_nil
        · exact absurd hf List.not_mem_nil

theorem shareRoot_eq {s : ShareSource} :
    shareRoot s.cfg = ascii "smb://" ++ SmbUrl.hostText s.cfg ++ 47 :: s.cfg.share.text := by
  have hport : 0 < s.cfg.port := by
    have h := SmbUrl.sanitized_port s.cfg
    rwa [s.clean] at h
  have hhost : (if s.cfg.port ≠ 0 ∧ s.cfg.port ≠ smbDefaultPort then
      s.cfg.server.text ++ 58 :: decimalInt s.cfg.port else s.cfg.server.text) =
        SmbUrl.hostText s.cfg := by
    unfold SmbUrl.hostText
    have hne : s.cfg.port ≠ 0 := fun h => Int32.lt_irrefl (h ▸ hport)
    simp only [hne, hport, ne_eq, not_false_eq_true, true_and]
  have hlen := SmbUrl.length_hostText_le s.cfg
  have hshare := s.cfg.share.fits
  unfold shareRoot
  rw [hhost]
  refine SmbUrl.bounded_of_lt ?_
  have hscheme : (ascii "smb://").length = 6 := rfl
  simp only [List.length_append, List.length_cons, hscheme]
  omega

theorem length_shareRoot_le (s : ShareSource) : (shareRoot s.cfg).length ≤ 273 := by
  have hlen := SmbUrl.length_hostText_le s.cfg
  have hshare := s.cfg.share.fits
  have hscheme : (ascii "smb://").length = 6 := rfl
  rw [shareRoot_eq]
  simp only [List.length_append, List.length_cons, hscheme]
  omega

theorem shareRoot_noNul (s : ShareSource) : 0 ∉ shareRoot s.cfg := by
  have hport : 0 < s.cfg.port := by
    have h := SmbUrl.sanitized_port s.cfg
    rwa [s.clean] at h
  rw [shareRoot_eq]
  intro h
  rcases List.mem_append.mp h with h | h
  · rcases List.mem_append.mp h with h | h
    · exact absurd h (by decide)
    · unfold SmbUrl.hostText at h
      split at h
      · rcases List.mem_append.mp h with h | h
        · exact s.cfg.server.noNul h
        · rcases List.mem_cons.mp h with h | h
          · exact absurd h (by decide)
          · exact absurd (SmbUrl.digit_of_decimalInt hport 0 h) (by decide)
      · exact s.cfg.server.noNul h
  · rcases List.mem_cons.mp h with h | h
    · exact absurd h (by decide)
    · exact s.cfg.share.noNul h

theorem shareRoot_ne_nil (s : ShareSource) : shareRoot s.cfg ≠ [] := by
  rw [shareRoot_eq]
  exact List.append_ne_nil_of_right_ne_nil _ (List.cons_ne_nil _ _)

theorem share_below {w : SmbServer} {s : ShareSource} {calls : List Call} {count : Option Nat}
    (hscan : smbClientScanShare w s.cfg = (calls, count)) {files : List FileEntry}
    (hfiles : quickSmbFiles calls = some files) :
    ∀ f ∈ files, matchesDrivePath f.path.text (shareRoot s.cfg) = true := by
  intro f hf
  unfold quickSmbFiles at hfiles
  dsimp only at hfiles
  split at hfiles
  · rw [← Option.some.inj hfiles] at hf
    obtain ⟨c, hc, rfl⟩ := List.mem_map.mp hf
    have hmem : c ∈ (smbClientScanShare w s.cfg).1 := by
      rw [hscan]
      exact (List.mem_filter.mp hc).1
    have hurl := (SmbUrl.smbClientScanShare_ofFile hmem).url
    rw [s.clean] at hurl
    have hlen := length_shareRoot_le s
    obtain ⟨r, hr⟩ : ∃ r, c.url = shareRoot s.cfg ++ 47 :: r := by
      rw [hurl, SmbUrl.fileUrl, shareRoot_eq]
      have hassoc : ascii "smb://" ++ SmbUrl.hostText s.cfg ++
          47 :: (s.cfg.share.text ++ 47 :: SmbUrl.childPath c.openPath c.name) =
          (ascii "smb://" ++ SmbUrl.hostText s.cfg ++ 47 :: s.cfg.share.text) ++
            47 :: SmbUrl.childPath c.openPath c.name := by simp
      rw [hassoc]
      refine bounded_append _ ?_
      rw [← shareRoot_eq]
      omega
    obtain ⟨r', hr'⟩ := of_append 512 r (shareRoot_noNul s) (by omega)
    show matchesDrivePath (CString.of 512 c.url).text (shareRoot s.cfg) = true
    rw [hr, hr']
    exact matches_append (shareRoot_ne_nil s)
  · cases hfiles

/-- The files of the list are below the path of the source. -/
theorem media_below {w : World} {o : Origin} {files : List FileEntry} (h : media w o = .files files) :
    ∀ f ∈ files, matchesDrivePath f.path.text o.source.path = true := by
  cases o with
  | drive d =>
    unfold media at h
    dsimp only at h
    split at h
    · cases h
      intro f hf
      split at hf
      · exact collect_below d.named 6 (.inl rfl) f hf
      · rcases List.mem_append.mp hf with hf | hf
        · exact collect_below d.named 6 (.inl rfl) f hf
        · have hfits := d.path.fits
          obtain ⟨r, hr⟩ := bounded_append (ascii "pkg") (show d.path.text.length + 1 < 512 by omega)
          exact collect_below d.named 6 (.inr ⟨r, hr⟩) f hf
    · cases h
  | share s =>
    unfold media at h
    dsimp only at h
    split at h
    · rename_i calls n hscan
      split at h
      · rename_i files' hfiles
        cases h
        exact share_below hscan hfiles
      · cases h
    · cases h

end PkgManager.ScanSources
