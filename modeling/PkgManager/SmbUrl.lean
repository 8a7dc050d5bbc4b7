import PkgManager.SettingsRoundTrip
import PkgManager.SmbBrowse

namespace PkgManager.SmbUrl

open CText ScannerState SmbShare SmbBrowse
open PkgMetadata (Text)
open Settings (decimalInt)

structure ParsedUrl where
  server : Text
  port : Int32
  share : Text
  path : Text
  deriving DecidableEq

/-- `smb_client_parse_url` with the sizes of the caller's buffers. -/
def smbClientParseUrl (serverSz shareSz pathSz : Nat) (url : Text) : Option ParsedUrl :=
  if url.take 6 ≠ ascii "smb://" then none
  else
    let p := url.drop 6
    let hostPort := bounded 160 (p.takeWhile (· ≠ 47))
    let rest := (p.dropWhile (· ≠ 47)).drop 1
    let prt := Manifest.atoi ((hostPort.dropWhile (· ≠ 58)).drop 1)
    some
      { server := bounded serverSz (hostPort.takeWhile (· ≠ 58))
        port := if 58 ∈ hostPort ∧ 0 < prt then prt else smbDefaultPort
        share := bounded shareSz (rest.takeWhile (· ≠ 47))
        path := bounded pathSz ((rest.dropWhile (· ≠ 47)).dropWhile (· = 47)) }

/-! `scan_smb_dir`. -/

/-- The server and the port as the URL of a file has them. -/
def hostText (cfg : ShareConfig) : Text :=
  if 0 < cfg.port ∧ cfg.port ≠ smbDefaultPort then cfg.server.text ++ 58 :: decimalInt cfg.port
  else cfg.server.text

def fileUrl (cfg : ShareConfig) (childPath : Text) : Text :=
  bounded 1024 (ascii "smb://" ++ hostText cfg ++ 47 :: (cfg.share.text ++ 47 :: childPath))

/-- The path of an entry of a directory, in the share. -/
def entryPath (openPath name : Text) : Text :=
  if openPath ≠ [] then openPath ++ 47 :: name else name

/-- `child_path`. -/
def childPath (openPath name : Text) : Text := bounded 512 (entryPath openPath name)

/-- A call of `pkg_cb`, and the directory in which the file was found. -/
structure Call where
  openPath : Text
  url : Text
  name : Text
  size : UInt64
  mtime : UInt32
  deriving DecidableEq

/-- The loop over a directory: the calls, and the count unless it gives up. -/
def scanEntries (recurse : Text → List Call × Option Nat) (cfg : ShareConfig)
    (skipUnreadable : Bool) (openPath : Text) : List Dirent → Nat → List Call × Option Nat
  | [], count => ([], some count)
  | ent :: ents, count =>
    if ent.name.head? = some 46 then scanEntries recurse cfg skipUnreadable openPath ents count
    else
      let child := childPath openPath ent.name
      match ent.type with
      | .directory =>
        let sub := recurse child
        match sub.2 with
        | none =>
          if skipUnreadable then
            let rest := scanEntries recurse cfg skipUnreadable openPath ents count
            (sub.1 ++ rest.1, rest.2)
          else (sub.1, none)
        | some n =>
          let rest := scanEntries recurse cfg skipUnreadable openPath ents (count + n)
          (sub.1 ++ rest.1, rest.2)
      | .file =>
        if isPkgName ent.name then
          let rest := scanEntries recurse cfg skipUnreadable openPath ents (count + 1)
          (⟨openPath, fileUrl cfg child, ent.name, ent.size, ent.mtime⟩ :: rest.1, rest.2)
        else scanEntries recurse cfg skipUnreadable openPath ents count
      | .link => scanEntries recurse cfg skipUnreadable openPath ents count

/-- The scan with the number of levels that are left, from `depth > 4` on none. -/
def scanSmbDir (w : SmbServer) (cfg : ShareConfig) (skipUnreadable : Bool) :
    Nat → Text → List Call × Option Nat
  | 0, _ => ([], some 0)
  | levels + 1, subDir =>
    let openPath := subDir.dropWhile (· = 47)
    match w.opendir cfg openPath with
    | .error _ => ([], none)
    | .ok ents => scanEntries (scanSmbDir w cfg skipUnreadable levels) cfg skipUnreadable openPath ents 0

def smbClientScanShare (w : SmbServer) (cfg : ShareConfig) : List Call × Option Nat :=
  if cfg.enabled = false then ([], some 0)
  else
    let clean := sanitizeConfig cfg
    if clean.server.text = [] ∨ clean.share.text = [] then ([], none)
    else
      match w.connect clean with
      | .error _ => ([], none)
      | .ok () => scanSmbDir w clean (clean.path.text = []) 5 clean.path.text

/-! What a scan calls with. -/

/-- The call of a file in a directory that was opened. -/
structure OfFile (cfg : ShareConfig) (c : Call) : Prop where
  url : c.url = fileUrl cfg (childPath c.openPath c.name)
  named : isPkgName c.name = true
  relative : c.openPath.head? ≠ some 47

theorem scanEntries_ofFile {recurse : Text → List Call × Option Nat} {cfg : ShareConfig} {skip : Bool}
    {openPath : Text} (hrec : ∀ sub, ∀ c ∈ (recurse sub).1, OfFile cfg c)
    (hopen : openPath.head? ≠ some 47) (ents : List Dirent) (count : Nat) :
    ∀ c ∈ (scanEntries recurse cfg skip openPath ents count).1, OfFile cfg c := by
  induction ents generalizing count with
  | nil => exact fun c hc => absurd hc List.not_mem_nil
  | cons ent ents ih =>
    rw [scanEntries]
    by_cases hhidden : ent.name.head? = some 46
    · rw [if_pos hhidden]
      exact ih count
    · rw [if_neg hhidden]
      dsimp only
      cases ent.type with
      | directory =>
        dsimp only
        cases (recurse (childPath openPath ent.name)).2 with
        | none =>
          dsimp only
          split
          · intro c hc
            rcases List.mem_append.mp hc with hc | hc
            · exact hrec _ c hc
            · exact ih count c hc
          · exact hrec _
        | some n =>
          intro c hc
          rcases List.mem_append.mp hc with hc | hc
          · exact hrec _ c hc
          · exact ih (count + n) c hc
      | file =>
        dsimp only
        split
        · rename_i hname
          intro c hc
          rcases List.mem_cons.mp hc with rfl | hc
          · exact ⟨rfl, hname, hopen⟩
          · exact ih (count + 1) c hc
        · exact ih count
      | link => exact ih count

theorem head?_dropWhile_ne (s : Text) : (s.dropWhile (· = 47)).head? ≠ some 47 := by
  intro h
  have hhead := List.head?_dropWhile_not (· = (47 : UInt8)) s
  rw [h] at hhead
  exact absurd hhead (by decide)

theorem scanSmbDir_ofFile (w : SmbServer) (cfg : ShareConfig) (skip : Bool) (levels : Nat) (sub : Text) :
    ∀ c ∈ (scanSmbDir w cfg skip levels sub).1, OfFile cfg c := by
  induction levels generalizing sub with
  | zero => exact fun c hc => absurd hc List.not_mem_nil
  | succ levels ih =>
    rw [scanSmbDir]
    cases w.opendir cfg (sub.dropWhile (· = 47)) with
    | error e => exact fun c hc => absurd hc List.not_mem_nil
    | ok ents => exact scanEntries_ofFile ih (head?_dropWhile_ne sub) ents 0

theorem smbClientScanShare_ofFile {w : SmbServer} {cfg : ShareConfig} {c : Call}
    (hc : c ∈ (smbClientScanShare w cfg).1) : OfFile (sanitizeConfig cfg) c := by
  unfold smbClientScanShare at hc
  split at hc
  · exact absurd hc List.not_mem_nil
  · dsimp only at hc
    split at hc
    · exact absurd hc List.not_mem_nil
    · split at hc
      · exact absurd hc List.not_mem_nil
      · exact scanSmbDir_ofFile w _ _ 5 _ c hc

/-! A sanitized server. -/

theorem splitPort_subset (host : Text) (port : Int32) : ∀ b ∈ (splitPort host port).1, b ∈ host := by
  intro b hb
  unfold splitPort at hb
  split at hb
  · exact hb
  · dsimp only at hb
    split at hb
    · exact List.mem_of_mem_take hb
    · exact hb

theorem sanitized_server (cfg : ShareConfig) : 47 ∉ (sanitizeConfig cfg).server.text := by
  intro h
  have hhost : (47 : UInt8) ∈ (splitPort ((cleanServer cfg.server.text).takeWhile (! isSlash ·)) cfg.port).1 :=
    (List.takeWhile_prefix _).subset (List.mem_of_mem_take h)
  exact absurd (List.mem_takeWhile_imp (splitPort_subset _ _ _ hhost)) (by decide)

theorem sanitized_port (cfg : ShareConfig) : 0 < (sanitizeConfig cfg).port := by
  show 0 < if (splitPort ((cleanServer cfg.server.text).takeWhile (! isSlash ·)) cfg.port).2 ≤ 0 then
    smbDefaultPort else (splitPort ((cleanServer cfg.server.text).takeWhile (! isSlash ·)) cfg.port).2
  split
  · decide
  · rename_i hpos
    exact Int32.not_le.mp hpos

/-! The URL of a file, read back. -/

theorem cut_at {c : UInt8} {s : Text} (hs : c ∉ s) (t : Text) :
    (s ++ c :: t).takeWhile (· ≠ c) = s ∧ (s ++ c :: t).dropWhile (· ≠ c) = c :: t := by
  have hall : ∀ b ∈ s, decide (b ≠ c) = true := fun b hb => decide_eq_true fun h => hs (h ▸ hb)
  rw [List.takeWhile_append_of_pos hall, List.dropWhile_append_of_pos hall]
  simp

theorem uncut {c : UInt8} {s : Text} (hs : c ∉ s) :
    s.takeWhile (· ≠ c) = s ∧ s.dropWhile (· ≠ c) = [] := by
  have hall : ∀ b ∈ s, decide (b ≠ c) = true := fun b hb => decide_eq_true fun h => hs (h ▸ hb)
  exact ⟨List.takeWhile_eq_self_iff.mpr hall, List.dropWhile_eq_nil_iff.mpr hall⟩

theorem bounded_of_lt {n : Nat} {s : Text} (h : s.length < n) : bounded n s = s :=
  List.take_of_length_le (by omega)

theorem digit_of_decimalInt {n : Int32} (h : 0 < n) : ∀ b ∈ decimalInt n, isDigit b = true := by
  intro b hb
  unfold decimalInt at hb
  rw [if_neg (Int32.not_lt.mpr (Int32.le_of_lt h))] at hb
  exact isDigit_decimal _ b hb

theorem length_hostText_le (cfg : ShareConfig) : (hostText cfg).length ≤ 139 := by
  have hserver := cfg.server.fits
  have hport := SettingsRoundTrip.length_decimalInt_le cfg.port
  unfold hostText
  split
  · rw [List.length_append, List.length_cons]
    omega
  · omega

theorem slash_not_mem_hostText {cfg : ShareConfig} (hserver : 47 ∉ cfg.server.text) (hport : 0 < cfg.port) :
    47 ∉ hostText cfg := by
  unfold hostText
  split
  · intro h
    rcases List.mem_append.mp h with h | h
    · exact hserver h
    · rcases List.mem_cons.mp h with h | h
      · exact absurd h (by decide)
      · exact absurd (digit_of_decimalInt hport 47 h) (by decide)
  · exact hserver

/-- What stands behind the host in a URL. -/
def shareAndPath (cfg : ShareConfig) (child : Text) : Text := cfg.share.text ++ 47 :: child

theorem parse_fileUrl {cfg : ShareConfig} (hserver : 47 ∉ cfg.server.text) (hport : 0 < cfg.port)
    {child : Text} (hchild : child.length ≤ 511) :
    smbClientParseUrl 128 128 256 (fileUrl cfg child) = some
      { server := bounded 128 ((hostText cfg).takeWhile (· ≠ 58))
        port := if 58 ∈ hostText cfg ∧
            0 < Manifest.atoi (((hostText cfg).dropWhile (· ≠ 58)).drop 1) then
          Manifest.atoi (((hostText cfg).dropWhile (· ≠ 58)).drop 1) else smbDefaultPort
        share := bounded 128 ((shareAndPath cfg child).takeWhile (· ≠ 47))
        path := bounded 256
          (((shareAndPath cfg child).dropWhile (· ≠ 47)).dropWhile (· = 47)) } := by
  have hhost := length_hostText_le cfg
  have hshare := cfg.share.fits
  obtain ⟨htake, hdrop⟩ := cut_at (slash_not_mem_hostText hserver hport) (shareAndPath cfg child)
  have hurl : fileUrl cfg child = ascii "smb://" ++ (hostText cfg ++ 47 :: shareAndPath cfg child) := by
    unfold fileUrl
    rw [bounded_of_lt]
    · exact List.append_assoc _ _ _
    · have hscheme : (ascii "smb://").length = 6 := rfl
      simp only [List.length_append, List.length_cons, hscheme]
      omega
  have hscheme : (fileUrl cfg child).take 6 = ascii "smb://" := by rw [hurl]; rfl
  have hrest : (fileUrl cfg child).drop 6 = hostText cfg ++ 47 :: shareAndPath cfg child := by
    rw [hurl]
    rfl
  unfold smbClientParseUrl
  rw [if_neg (not_not.mpr hscheme)]
  simp only [hrest, htake, hdrop, bounded_of_lt (show (hostText cfg).length < 160 by omega),
    List.drop_succ_cons, List.drop_zero]

/-- The parser gives back what the URL of the file was made of. -/
def RoundTrip (cfg : ShareConfig) (c : Call) : Prop :=
  smbClientParseUrl 128 128 256 c.url = some
    ⟨cfg.server.text, cfg.port, cfg.share.text, entryPath c.openPath c.name⟩

/-- The port behind a host without colons. -/
theorem port_hostText {cfg : ShareConfig} (hcolon : 58 ∉ cfg.server.text) (hport : 0 < cfg.port) :
    (hostText cfg).takeWhile (· ≠ 58) = cfg.server.text ∧
      (if 58 ∈ hostText cfg ∧ 0 < Manifest.atoi (((hostText cfg).dropWhile (· ≠ 58)).drop 1) then
        Manifest.atoi (((hostText cfg).dropWhile (· ≠ 58)).drop 1) else smbDefaultPort) = cfg.port := by
  unfold hostText
  by_cases hexplicit : 0 < cfg.port ∧ cfg.port ≠ smbDefaultPort
  · obtain ⟨htake, hdrop⟩ := cut_at hcolon (decimalInt cfg.port)
    rw [if_pos hexplicit, htake, hdrop, List.drop_succ_cons, List.drop_zero,
      SettingsRoundTrip.atoi_decimalInt, if_pos ⟨List.mem_append_right _ List.mem_cons_self, hport⟩]
    exact ⟨rfl, rfl⟩
  · rw [if_neg hexplicit, (uncut hcolon).1, if_neg fun h => hcolon h.1]
    refine ⟨rfl, ?_⟩
    by_contra hne
    exact hexplicit ⟨hport, fun h => hne h.symm⟩

theorem head?_entryPath {c : Call} (hopen : c.openPath.head? ≠ some 47)
    (hname : c.name.head? ≠ some 47) : (entryPath c.openPath c.name).head? ≠ some 47 := by
  unfold entryPath
  split
  · rename_i hne
    rwa [List.head?_append_of_ne_nil _ hne]
  · exact hname

theorem dropWhile_slashes {s : Text} (h : s.head? ≠ some 47) : (47 :: s).dropWhile (· = 47) = s := by
  rw [List.dropWhile_cons_of_pos (by decide)]
  cases s with
  | nil => rfl
  | cons b s =>
    refine List.dropWhile_cons_of_neg fun hb => h ?_
    rw [of_decide_eq_true hb]
    rfl

/-- The URL of a file that a scan finds is read back exactly when the server has no colon,
the share no slash and the path fits the buffer of those who open it; no path begins with
a slash unless the name of a file does. -/
theorem url_read_back (w : SmbServer) (cfg : ShareConfig) (c : Call)
    (hc : c ∈ (smbClientScanShare w cfg).1) :
    RoundTrip (sanitizeConfig cfg) c ↔
      58 ∉ (sanitizeConfig cfg).server.text ∧ 47 ∉ (sanitizeConfig cfg).share.text ∧
        (entryPath c.openPath c.name).length ≤ 255 ∧ (entryPath c.openPath c.name).head? ≠ some 47 := by
  obtain ⟨hurl, -, hopen⟩ := smbClientScanShare_ofFile hc
  generalize hclean : sanitizeConfig cfg = clean at hurl ⊢
  have hserver : 47 ∉ clean.server.text := hclean ▸ sanitized_server cfg
  have hport : 0 < clean.port := hclean ▸ sanitized_port cfg
  have hchild : (childPath c.openPath c.name).length ≤ 511 := List.length_take_le _ _
  have hparse := parse_fileUrl hserver hport hchild
  have hfits := clean.server.fits
  have hshareFits := clean.share.fits
  unfold RoundTrip
  rw [hurl, hparse, Option.some_inj, ParsedUrl.mk.injEq]
  constructor
  · rintro ⟨hs, -, hsh, hp⟩
    refine ⟨fun hmem => ?_, fun hmem => ?_, ?_, fun hhead => ?_⟩
    · rw [← hs] at hmem
      exact absurd (List.mem_takeWhile_imp (List.mem_of_mem_take hmem)) (by decide)
    · rw [← hsh] at hmem
      exact absurd (List.mem_takeWhile_imp (List.mem_of_mem_take hmem)) (by decide)
    · rw [← hp]
      exact List.length_take_le _ _
    · rw [← hp] at hhead
      unfold bounded at hhead
      rw [List.head?_take, if_neg (by decide)] at hhead
      exact head?_dropWhile_ne _ hhead
  · rintro ⟨hcolon, hslash, hlen, hhead⟩
    obtain ⟨hhost, hprt⟩ := port_hostText hcolon hport
    obtain ⟨htake, hdrop⟩ := cut_at hslash (childPath c.openPath c.name)
    have hwhole : childPath c.openPath c.name = entryPath c.openPath c.name :=
      bounded_of_lt (by omega)
    unfold shareAndPath
    refine ⟨?_, hprt, ?_, ?_⟩
    · rw [hhost]
      exact bounded_of_lt hfits
    · rw [htake]
      exact bounded_of_lt hshareFits
    · rw [hdrop, hwhole, dropWhile_slashes hhead]
      exact bounded_of_lt (by omega)

/-! A share of a host, and the same of an IPv6 address. -/

def pkgFolder : List Dirent := [⟨ascii "a.pkg", .file, 7, 0⟩]

def pkgServer : SmbServer := ⟨fun _ => .ok (), fun _ _ => .ok pkgFolder⟩

def shareOf (server : String) : ShareConfig := { nasShare with server := CString.of 128 (ascii server) }

def callOf (server : String) : Call :=
  ⟨[], ascii ("smb://" ++ server ++ "/games/a.pkg"), ascii "a.pkg", 7, 0⟩

theorem url_read_back_nas : RoundTrip (sanitizeConfig (shareOf "nas")) (callOf "nas") :=
  (url_read_back pkgServer (shareOf "nas") (callOf "nas") (by decide)).mpr
    ⟨by decide, by decide, by decide, by decide⟩

theorem url_read_back_fails : ¬∀ w cfg c, c ∈ (smbClientScanShare w cfg).1 →
    RoundTrip (sanitizeConfig cfg) c := by
  intro hall
  have hmem : callOf "fe80::1" ∈ (smbClientScanShare pkgServer (shareOf "fe80::1")).1 := by
    decide
  have hread : smbClientParseUrl 128 128 256 (callOf "fe80::1").url = some
      ⟨ascii "fe80", 445, ascii "games", ascii "a.pkg"⟩ := by decide
  have hserver : (sanitizeConfig (shareOf "fe80::1")).server.text = ascii "fe80::1" := by decide
  have hsame := hread.symm.trans (hall pkgServer (shareOf "fe80::1") (callOf "fe80::1") hmem)
  obtain ⟨hs, -⟩ := ParsedUrl.mk.inj (Option.some.inj hsame)
  rw [hserver] at hs
  exact absurd hs (by decide)

end PkgManager.SmbUrl
