import PkgManager.JsonItems
import PkgManager.TitleLookup
import PkgManager.SettingsAnswer

namespace PkgManager.PackageListing

open CText ScannerState
open PkgMetadata (Text quoted)
open PkgParser (PkgType)
open Manifest (escapeJsonStr flagWord)
open TitleLookup (displayTitle)
open JsonText (Json Body IsJson Writes walk)
open SettingsApi (wordField)
open SettingsAnswer (IsMember isMember_word writes_flag body_name)

/-! `pkg_scanner_packages_for_drive_to_json_ex`. -/

/-- What `app_info.c` answers: installed and in which version, a DLC, leftovers, an installation
that was aborted. -/
structure AppInfo where
  checkInstalled : Text → Bool × CString 32
  checkDlcInstalled : Text → Text → Bool
  checkHasLeftover : Text → Bool × CString 128
  checkPartiallyInstalled : Text → Bool × CString 128

/-- `evaluate_install_eligibility`: whether a package can be installed, and why it cannot. -/
def evaluateInstallEligibility (pkg : Package) (isInstalled : Bool) (installedVersion : Text)
    (dlcInstalled hasLeftover partially : Bool) : Bool × Text :=
  let versions := installedVersion ≠ [] ∧ pkg.appVersion.text ≠ []
  let older := compareVersions installedVersion pkg.appVersion.text < 0
  let sameOrNewer := ascii "Installed version is same or newer"
  if pkg.isMultipart ∧ (ascii "smb://").isPrefixOf pkg.path.text then
    (false, ascii "Multi-part packages are only supported on USB/Disc")
  else if hasLeftover then
    (false, ascii "Leftovers detected on console. Clean up leftovers before installing.")
  else if pkg.pkgType = .base ∨ pkg.pkgType = .unknown then
    if isInstalled then
      if versions then if older then (true, []) else (false, sameOrNewer)
      else (false, ascii "Application is already installed")
    else (true, [])
  else if ¬isInstalled then
    (false, if partially then ascii "Base package installation was aborted. Reinstall base package first."
      else ascii "Base package is not installed")
  else if pkg.pkgType = .update ∧ versions ∧ ¬older then (false, sameOrNewer)
  else if pkg.pkgType = .dlc ∧ dlcInstalled then (false, ascii "DLC is already installed")
  else (true, [])

/-- The type of a package, and a word for none. -/
def typeText (pkg : Package) : Text :=
  if pkg.pkgTypeStr.text ≠ [] then pkg.pkgTypeStr.text else ascii "unknown"

/-- The titles as they stand in the answer. -/
def localizedText (pkg : Package) : Text :=
  if pkg.localizedTitles.text.head? = some 123 then pkg.localizedTitles.text else ascii "\x7b\x7d"

/-- A string of the answer, escaped in a buffer of `size` bytes. -/
def textField (key : String) (size : Nat) (s : Text) : Text :=
  quoted (ascii key) ++ [58] ++ ([34] ++ escapeJsonStr size s ++ [34])

section Item

variable (info : AppInfo) (accept : Text) (pkg : Package)

def installed : Bool × CString 32 := info.checkInstalled pkg.titleId.text

def dlcInstalled : Bool :=
  pkg.pkgType = .dlc && pkg.contentId.text ≠ [] && info.checkDlcInstalled pkg.titleId.text pkg.contentId.text

/-- Only what is not installed is asked for. -/
def unlessInstalled (answer : Bool × CString 128) : Bool × CString 128 :=
  if (installed info pkg).1 then (false, .of 128 []) else answer

def leftover : Bool × CString 128 := unlessInstalled info pkg (info.checkHasLeftover pkg.titleId.text)

def partially : Bool × CString 128 := unlessInstalled info pkg (info.checkPartiallyInstalled pkg.titleId.text)

def eligibility : Bool × Text :=
  evaluateInstallEligibility pkg (installed info pkg).1 (installed info pkg).2.text (dlcInstalled info pkg)
    (leftover info pkg).1 (partially info pkg).1

def shownTitle : Text :=
  displayTitle pkg.localizedTitles.text pkg.titleName.text pkg.defaultLanguage.text accept

def packageObject : Text :=
  ascii "\x7b" ++ List.intercalate (ascii ",") [
    textField "path" 1024 pkg.path.text,
    textField "filename" 512 pkg.filename.text,
    textField "title_id" 64 pkg.titleId.text,
    textField "title_name" 512 (shownTitle accept pkg),
    wordField "localized_titles" (localizedText pkg),
    textField "default_language" 64 pkg.defaultLanguage.text,
    textField "content_id" 128 pkg.contentId.text,
    textField "app_version" 64 pkg.appVersion.text,
    wordField "file_size" (decimal pkg.fileSize.toNat),
    wordField "total_pkg_size"
      (decimal (if 0 < pkg.totalPkgSize then pkg.totalPkgSize else pkg.fileSize).toNat),
    wordField "has_icon" (flagWord pkg.hasIcon),
    wordField "is_multipart" (flagWord pkg.isMultipart),
    wordField "part_index" (decimal pkg.partIndex.toNat),
    wordField "total_parts" (decimal pkg.totalParts.toNat),
    textField "pkg_type" 32 (typeText pkg),
    textField "category" 32 pkg.category.text,
    wordField "mtime" (decimal pkg.mtime.toNat),
    wordField "is_installed" (flagWord (installed info pkg).1),
    textField "installed_version" 64 (installed info pkg).2.text,
    wordField "is_dlc_installed" (flagWord (dlcInstalled info pkg)),
    wordField "has_leftover" (flagWord (leftover info pkg).1),
    textField "leftover_desc" 256 (leftover info pkg).2.text,
    wordField "is_partially_installed" (flagWord (partially info pkg).1),
    textField "partial_desc" 256 (partially info pkg).2.text,
    wordField "can_install" (flagWord (eligibility info pkg).1),
    textField "install_disabled_reason" 256 (eligibility info pkg).2,
    textField "blurhash" 128 pkg.blurhash.text] ++ ascii "\x7d"

end Item

/-- The directory of a drive, of its id or its path, or a directory itself. -/
def targetPath (drives : List Drive) (drive : Text) : Text :=
  if drive = [] ∨ drive = ascii "__all__" then []
  else
    let found := ((drives.find? fun d => d.id.text = drive ∨ d.path.text = drive).map (·.path.text)).getD []
    if found = [] then drive.take 255 else found

/-- The package is within the directory. -/
def inTarget (target path : Text) : Bool :=
  target = [] ||
    (target.isPrefixOf path &&
      (target.getLast? = some 47 || path[target.length]? = some 47 || path.length = target.length))

/-- The packages of a drive. -/
def packagesOf (s : State) (drive : Text) : List Package :=
  s.packages.filter fun pkg =>
    pkg.filename.text.head? ≠ some 46 && inTarget (targetPath s.drives drive) pkg.path.text

/-- The loop over them, with `emitted` of them in the text; an item that does not fit ends it. -/
def listLoop (info : AppInfo) (accept : Text) (bufSize : Nat) : Nat → Text → List Package → Text
  | _, json, [] => json
  | emitted, json, pkg :: pkgs =>
    if bufSize ≤ json.length + 1024 then json
    else
      let item := (if 0 < emitted then [44] else []) ++ packageObject info accept pkg
      if bufSize - json.length ≤ item.length then json
      else listLoop info accept bufSize (emitted + 1) (json ++ item) pkgs

def bufSize (s : State) : Nat := 64 + s.packages.length * 4096

/-- The answer, where its buffer can be had. -/
def packagesJson (info : AppInfo) (s : State) (drive accept : Text) : Text :=
  let json := listLoop info accept (bufSize s) 0 [91] (packagesOf s drive)
  if json.length + 1 < bufSize s then json ++ [93] else json

/-! An item as JSON. -/

/-- What a reader makes of an escaped string: control characters but blanks are dropped. -/
def shown (t : Text) : Text := t.filter fun b => 32 ≤ b ∨ b = 9 ∨ b = 10 ∨ b = 13

theorem escapeByte_body {c : UInt8} {s t : Text} (h : Body s t) :
    Body (shown [c] ++ s) (Manifest.escapeByte c ++ t) := by
  unfold Manifest.escapeByte
  split_ifs with hmark h10 h13 h9 h32
  · have hshort : JsonText.shortEscape c = some c := by
      rcases hmark with rfl | rfl <;> rfl
    have hshown : shown [c] = [c] := by
      rcases hmark with rfl | rfl <;> rfl
    rw [hshown]
    exact .short hshort h
  · subst h10
    exact .short rfl h
  · subst h13
    exact .short rfl h
  · subst h9
    exact .short rfl h
  · have hshown : shown [c] = [c] := List.filter_cons_of_pos (by simp [h32])
    rw [not_or] at hmark
    rw [hshown]
    exact .plain c h32 hmark.1 hmark.2 h
  · have hshown : shown [c] = [] := List.filter_cons_of_neg (by simp [h32, h10, h13, h9])
    rw [hshown]
    exact h

/-- A string that fits its buffer is written whole. -/
theorem escapeLoop_body {max d : Nat} {s : Text} (h0 : 0 ∉ s) (hd : d + 2 * s.length < max) :
    Body (shown s) (Manifest.escapeLoop max d s) := by
  induction s generalizing d with
  | nil => exact .nil
  | cons c s ih =>
    have hlen : (Manifest.escapeByte c).length ≤ 2 := by
      unfold Manifest.escapeByte
      split_ifs <;> simp
    rw [List.mem_cons, not_or] at h0
    rw [List.length_cons] at hd
    have hsplit : shown ([c] ++ s) = shown [c] ++ shown s := List.filter_append ..
    rw [List.singleton_append] at hsplit
    rw [Manifest.escapeLoop, if_pos ⟨Ne.symm h0.1, by omega⟩, hsplit]
    exact escapeByte_body (ih h0.2 (by omega))

theorem isMember_text (key : String) (size : Nat) {s : Text} (hk : QuotedText.Name (ascii key))
    (h0 : 0 ∉ s) (hsize : 2 * s.length < size) :
    IsMember (ascii key, .string (shown s)) (textField key size s) :=
  ⟨ascii key, JsonText.quoted (escapeJsonStr size s), by simp [textField, quoted, JsonText.quoted],
    body_name hk, .string (escapeLoop_body h0 (by omega))⟩

theorem isMember_field {n : Nat} (key : String) (size : Nat) (hk : QuotedText.Name (ascii key))
    (hsize : size = 2 * n) (s : CString n) :
    IsMember (ascii key, .string (shown s.text)) (textField key size s.text) := by
  have hfits := s.fits
  exact isMember_text key size hk s.noNul (by omega)

theorem isMember_number (key : String) (hk : QuotedText.Name (ascii key)) (n : Nat) :
    IsMember (ascii key, .number (decimal n)) (wordField key (decimal n)) :=
  isMember_word key hk (.number ⟨[], decimal n, [], [], by simp, .inl rfl,
    SettingsAnswer.decimal_isInteger n, .inl rfl, .inl rfl⟩)

theorem isMember_flag (key : String) (hk : QuotedText.Name (ascii key)) (b : Bool) :
    IsMember (ascii key, .bool b) (wordField key (flagWord b)) :=
  isMember_word key hk (writes_flag b)

section Item

variable (info : AppInfo) (accept : Text) (pkg : Package)

/-- The value of a package, with the one of its titles. -/
def packageJson (titles : Json) : Json := .object [
  (ascii "path", .string (shown pkg.path.text)),
  (ascii "filename", .string (shown pkg.filename.text)),
  (ascii "title_id", .string (shown pkg.titleId.text)),
  (ascii "title_name", .string (shown (shownTitle accept pkg))),
  (ascii "localized_titles", titles),
  (ascii "default_language", .string (shown pkg.defaultLanguage.text)),
  (ascii "content_id", .string (shown pkg.contentId.text)),
  (ascii "app_version", .string (shown pkg.appVersion.text)),
  (ascii "file_size", .number (decimal pkg.fileSize.toNat)),
  (ascii "total_pkg_size", .number
    (decimal (if 0 < pkg.totalPkgSize then pkg.totalPkgSize else pkg.fileSize).toNat)),
  (ascii "has_icon", .bool pkg.hasIcon),
  (ascii "is_multipart", .bool pkg.isMultipart),
  (ascii "part_index", .number (decimal pkg.partIndex.toNat)),
  (ascii "total_parts", .number (decimal pkg.totalParts.toNat)),
  (ascii "pkg_type", .string (shown (typeText pkg))),
  (ascii "category", .string (shown pkg.category.text)),
  (ascii "mtime", .number (decimal pkg.mtime.toNat)),
  (ascii "is_installed", .bool (installed info pkg).1),
  (ascii "installed_version", .string (shown (installed info pkg).2.text)),
  (ascii "is_dlc_installed", .bool (dlcInstalled info pkg)),
  (ascii "has_leftover", .bool (leftover info pkg).1),
  (ascii "leftover_desc", .string (shown (leftover info pkg).2.text)),
  (ascii "is_partially_installed", .bool (partially info pkg).1),
  (ascii "partial_desc", .string (shown (partially info pkg).2.text)),
  (ascii "can_install", .bool (eligibility info pkg).1),
  (ascii "install_disabled_reason", .string (shown (eligibility info pkg).2)),
  (ascii "blurhash", .string (shown pkg.blurhash.text))]

theorem typeText_fits : 0 ∉ typeText pkg ∧ 2 * (typeText pkg).length < 32 := by
  have hfits := pkg.pkgTypeStr.fits
  unfold typeText
  split
  · exact ⟨pkg.pkgTypeStr.noNul, by omega⟩
  · decide

theorem reason_fits : 0 ∉ (eligibility info pkg).2 ∧ 2 * (eligibility info pkg).2.length < 256 := by
  unfold eligibility evaluateInstallEligibility
  dsimp only
  split_ifs <;> decide

theorem shownTitle_fits : 0 ∉ shownTitle accept pkg ∧ 2 * (shownTitle accept pkg).length < 512 := by
  have hfits := pkg.titleName.fits
  obtain ⟨hlen, h0⟩ := TitleLookup.displayTitle_fits pkg.localizedTitles.noNul pkg.titleName.noNul
    (by omega) pkg.defaultLanguage.text accept
  exact ⟨h0, by
    show 2 * (displayTitle _ _ _ _).length < 512
    omega⟩

theorem writes_package {titles : Json} (h : Writes (.value titles) (localizedText pkg)) :
    Writes (.value (packageJson info accept pkg titles)) (packageObject info accept pkg) := by
  have hopen : ascii "\x7b" = [123] := by decide
  have hclose : ascii "\x7d" = [125] := by decide
  have hcomma : ascii "," = [44] := by decide
  obtain ⟨htype, htypeLen⟩ := typeText_fits pkg
  obtain ⟨hreason, hreasonLen⟩ := reason_fits info pkg
  obtain ⟨htitle, htitleLen⟩ := shownTitle_fits accept pkg
  unfold packageObject packageJson
  rw [hopen, hclose, hcomma, List.append_assoc, List.singleton_append]
  refine .object (JsonText.writes_members (List.cons_ne_nil _ _) ?_)
  exact .cons (isMember_field "path" 1024 (by decide) rfl _) <|
    .cons (isMember_field "filename" 512 (by decide) rfl _) <|
    .cons (isMember_field "title_id" 64 (by decide) rfl _) <|
    .cons (isMember_text "title_name" 512 (by decide) htitle htitleLen) <|
    .cons (isMember_word "localized_titles" (by decide) h) <|
    .cons (isMember_field "default_language" 64 (by decide) rfl _) <|
    .cons (isMember_field "content_id" 128 (by decide) rfl _) <|
    .cons (isMember_field "app_version" 64 (by decide) rfl _) <|
    .cons (isMember_number "file_size" (by decide) _) <|
    .cons (isMember_number "total_pkg_size" (by decide) _) <|
    .cons (isMember_flag "has_icon" (by decide) _) <|
    .cons (isMember_flag "is_multipart" (by decide) _) <|
    .cons (isMember_number "part_index" (by decide) _) <|
    .cons (isMember_number "total_parts" (by decide) _) <|
    .cons (isMember_text "pkg_type" 32 (by decide) htype htypeLen) <|
    .cons (isMember_field "category" 32 (by decide) rfl _) <|
    .cons (isMember_number "mtime" (by decide) _) <|
    .cons (isMember_flag "is_installed" (by decide) _) <|
    .cons (isMember_field "installed_version" 64 (by decide) rfl _) <|
    .cons (isMember_flag "is_dlc_installed" (by decide) _) <|
    .cons (isMember_flag "has_leftover" (by decide) _) <|
    .cons (isMember_field "leftover_desc" 256 (by decide) rfl _) <|
    .cons (isMember_flag "is_partially_installed" (by decide) _) <|
    .cons (isMember_field "partial_desc" 256 (by decide) rfl _) <|
    .cons (isMember_flag "can_install" (by decide) _) <|
    .cons (isMember_text "install_disabled_reason" 256 (by decide) hreason hreasonLen) <|
    .cons (isMember_field "blurhash" 128 (by decide) rfl _) .nil

end Item

/-! The list as JSON. -/

/-- The value is the one of the package, its titles an object. -/
def IsEntry (info : AppInfo) (accept : Text) (pkg : Package) (v : Json) : Prop :=
  ∃ titles, Writes (.value (.object titles)) (localizedText pkg) ∧ v = packageJson info accept pkg (.object titles)

/-- The text is an array of these packages, each once and in this order. -/
def ListsAll (info : AppInfo) (accept : Text) (pkgs : List Package) (json : Text) : Prop :=
  ∃ vs, IsJson (.array vs) json ∧ List.Forall₂ (IsEntry info accept) pkgs vs

/-- The titles of the package are nothing or an object. -/
def TitlesSound (pkg : Package) : Prop :=
  pkg.localizedTitles.text = [] ∨ ∃ ms, Writes (.value (.object ms)) pkg.localizedTitles.text

/-- The array without its last bracket. -/
def listing (info : AppInfo) (accept : Text) (pkgs : List Package) : Text :=
  91 :: List.intercalate [44] (pkgs.map (packageObject info accept))

/-- All packages and the brackets fit, and in front of the last package there is more than
1024 bytes of room. -/
structure Room (info : AppInfo) (accept : Text) (size : Nat) (pkgs : List Package) : Prop where
  whole : (listing info accept pkgs).length + 2 ≤ size
  last : ∀ front pkg, pkgs = front ++ [pkg] → (listing info accept front).length + 1024 < size

section Listing

variable (info : AppInfo) (accept : Text)

theorem listing_concat (front : List Package) (pkg : Package) : listing info accept (front ++ [pkg]) =
    listing info accept front ++ ((if 0 < front.length then [44] else []) ++ packageObject info accept pkg) := by
  unfold listing
  rw [List.map_append, List.map_singleton, JsonText.intercalate_concat, List.length_map, List.cons_append]

theorem length_listing_le (front rest : List Package) :
    (listing info accept front).length ≤ (listing info accept (front ++ rest)).length := by
  induction rest generalizing front with
  | nil => rw [List.append_nil]
  | cons pkg rest ih =>
    have hnext := ih (front ++ [pkg])
    rw [listing_concat, List.length_append, List.append_assoc, List.singleton_append] at hnext
    omega

/-- Every package is begun with more than 1024 bytes of room, and fits. -/
def Steps (size : Nat) (front pkgs : List Package) : Prop :=
  ∀ j < pkgs.length, (listing info accept (front ++ pkgs.take j)).length + 1024 < size ∧
    (listing info accept (front ++ pkgs.take (j + 1))).length < size

/-- The loop leaves the packages up to the first that does not fit. -/
theorem listLoop_spec {size : Nat} (front pkgs : List Package)
    (hroom : (listing info accept front).length < size) :
    ∃ k ≤ pkgs.length,
      listLoop info accept size front.length (listing info accept front) pkgs =
        listing info accept (front ++ pkgs.take k) ∧
      (listing info accept (front ++ pkgs.take k)).length < size ∧
      (k = pkgs.length ↔ Steps info accept size front pkgs) := by
  induction pkgs generalizing front with
  | nil =>
    refine ⟨0, le_rfl, ?_, ?_, iff_of_true rfl nofun⟩
    · rw [List.take_nil, List.append_nil, listLoop]
    · rw [List.take_nil, List.append_nil]
      exact hroom
  | cons pkg pkgs ih =>
    have hmore (j : Nat) : front ++ (pkg :: pkgs).take (j + 1) = front ++ [pkg] ++ pkgs.take j := by
      rw [List.take_succ_cons, List.append_assoc, List.singleton_append]
    have hnone : front ++ (pkg :: pkgs).take 0 = front := List.append_nil front
    have hconcat := listing_concat info accept front pkg
    have hstop (h : ¬((listing info accept front).length + 1024 < size ∧
        (listing info accept (front ++ [pkg])).length < size)) :
        0 = (pkg :: pkgs).length ↔ Steps info accept size front (pkg :: pkgs) := by
      refine iff_of_false (Nat.zero_ne_add_one _) fun hsteps => h ?_
      have hfirst := hsteps 0 (Nat.zero_lt_succ _)
      rw [hnone, hmore, List.take_zero, List.append_nil] at hfirst
      exact hfirst
    rw [listLoop]
    by_cases hbegin : size ≤ (listing info accept front).length + 1024
    · rw [if_pos hbegin]
      exact ⟨0, Nat.zero_le _, by rw [hnone], by rw [hnone]; exact hroom, hstop fun h => by omega⟩
    · rw [if_neg hbegin]
      generalize hitem : (if 0 < front.length then [44] else []) ++ packageObject info accept pkg = item at *
      have hlen := congrArg List.length hconcat
      rw [List.length_append] at hlen
      dsimp only
      by_cases hfits : size - (listing info accept front).length ≤ item.length
      · rw [if_pos hfits]
        exact ⟨0, Nat.zero_le _, by rw [hnone], by rw [hnone]; exact hroom, hstop fun h => by omega⟩
      · rw [if_neg hfits, ← hconcat]
        obtain ⟨k, hk, hloop, hlt, hall⟩ := ih (front ++ [pkg]) (by omega)
        have hcount : (front ++ [pkg]).length = front.length + 1 := List.length_append
        rw [hcount] at hloop
        refine ⟨k + 1, Nat.succ_le_succ hk, ?_, ?_, ?_⟩
        · rw [hloop, hmore]
        · rw [hmore]
          exact hlt
        · rw [List.length_cons, Nat.succ_inj, hall]
          constructor
          · intro hsteps j hj
            cases j with
            | zero =>
              rw [hnone, hmore, List.take_zero, List.append_nil]
              exact ⟨by omega, by omega⟩
            | succ j =>
              rw [hmore, hmore]
              exact hsteps j (Nat.lt_of_succ_lt_succ hj)
          · intro hsteps j hj
            have hstep := hsteps (j + 1) (Nat.succ_lt_succ hj)
            rw [hmore, hmore] at hstep
            exact hstep

/-- With room for the bracket the steps are a matter of the last one. -/
theorem room_iff (size : Nat) (pkgs : List Package) : Room info accept size pkgs ↔
    Steps info accept size [] pkgs ∧ (listing info accept pkgs).length + 2 ≤ size := by
  constructor
  · intro h
    refine ⟨fun j hj => ?_, h.whole⟩
    obtain ⟨front, pkg, rfl⟩ := List.eq_nil_or_concat' pkgs |>.resolve_left (by
      rintro rfl
      exact Nat.not_lt_zero j hj)
    have hlast := h.last front pkg rfl
    rw [List.length_append, List.length_singleton] at hj
    have htake : (front ++ [pkg]).take j = front.take j := List.take_append_of_le_length (by omega)
    have hfront := length_listing_le info accept (front.take j) (front.drop j)
    have hwhole := length_listing_le info accept ((front ++ [pkg]).take (j + 1)) ((front ++ [pkg]).drop (j + 1))
    have hroom := h.whole
    rw [List.take_append_drop] at hfront hwhole
    rw [List.nil_append, List.nil_append, htake]
    exact ⟨by omega, by omega⟩
  · rintro ⟨hsteps, hwhole⟩
    refine ⟨hwhole, ?_⟩
    rintro front pkg rfl
    have hstep := (hsteps front.length (by simp)).1
    rw [List.nil_append, List.take_left] at hstep
    exact hstep

theorem localizedText_sound {pkg : Package} (h : TitlesSound pkg) :
    ∃ ms, Writes (.value (.object ms)) (localizedText pkg) := by
  unfold localizedText
  rcases h with hnil | ⟨ms, hms⟩
  · rw [hnil]
    exact ⟨[], .emptyObject JsonText.ws_nil⟩
  · have hopen : ∀ t, Writes (.value (.object ms)) t → t.head? = some 123 := by
      intro t ht
      cases ht <;> rfl
    rw [if_pos (hopen _ hms)]
    exact ⟨ms, hms⟩

theorem writes_packages {pkgs : List Package} (h : ∀ pkg ∈ pkgs, TitlesSound pkg) :
    ∃ vs, List.Forall₂ (IsEntry info accept) pkgs vs ∧
      List.Forall₂ (fun v t => Writes (.value v) t) vs (pkgs.map (packageObject info accept)) := by
  induction pkgs with
  | nil => exact ⟨[], .nil, .nil⟩
  | cons pkg pkgs ih =>
    obtain ⟨ms, hms⟩ := localizedText_sound (h pkg List.mem_cons_self)
    obtain ⟨vs, hentries, hvs⟩ := ih fun p hp => h p (List.mem_cons_of_mem pkg hp)
    exact ⟨_ :: vs, .cons ⟨ms, hms, rfl⟩ hentries, .cons (writes_package info accept pkg hms) hvs⟩

/-- The list of some packages and its bracket are an array of them; without it a bracket is open. -/
theorem listing_sound {pkgs : List Package} (h : ∀ pkg ∈ pkgs, TitlesSound pkg) :
    (∃ vs, List.Forall₂ (IsEntry info accept) pkgs vs ∧
      IsJson (.array vs) (listing info accept pkgs ++ [93])) ∧
    walk (.outside, 0) (listing info accept pkgs) = some (.outside, 1) := by
  have hweight : (0 : Int) + JsonText.weight 91 = 1 := by decide
  obtain ⟨vs, hentries, hvs⟩ := writes_packages info accept h
  unfold listing
  rw [JsonText.walk_byte (by decide) (by decide), hweight]
  cases hentries with
  | nil => exact ⟨⟨[], .nil, JsonText.isJson_of_writes (.emptyArray JsonText.ws_nil)⟩, rfl⟩
  | cons hentry hrest =>
    have hitems := JsonText.writes_items (List.cons_ne_nil _ _) hvs
    exact ⟨⟨_, .cons hentry hrest, JsonText.isJson_of_writes (.array hitems)⟩, JsonText.walk_writes hitems 1⟩

/-- Fewer packages are no list of all. -/
theorem not_listsAll {pkgs : List Package} (h : ∀ pkg ∈ pkgs, TitlesSound pkg) {k : Nat}
    (hk : k < pkgs.length) : ¬ListsAll info accept pkgs (listing info accept (pkgs.take k) ++ [93]) := by
  rintro ⟨vs, hjson, hall⟩
  have hsome : ∀ pkg ∈ pkgs.take k, TitlesSound pkg := fun p hp => h p (List.mem_of_mem_take hp)
  obtain ⟨⟨us, hus, hfront⟩, -⟩ := listing_sound info accept hsome
  have hlen := hall.length_eq
  have hlen' := hus.length_eq
  have hcommas := (JsonText.commas_array hjson).symm.trans (JsonText.commas_array hfront)
  rw [List.length_take] at hlen'
  have hnone : k = 0 := by omega
  rw [hnone, List.take_zero] at hjson
  obtain rfl := JsonText.array_brackets hjson
  rw [List.length_nil] at hlen
  omega

end Listing

theorem listsAll_iff (info : AppInfo) (s : State) (drive accept : Text)
    (h : ∀ pkg ∈ s.packages, TitlesSound pkg) :
    ListsAll info accept (packagesOf s drive) (packagesJson info s drive accept) ↔
      Room info accept (bufSize s) (packagesOf s drive) := by
  have hsound : ∀ pkg ∈ packagesOf s drive, TitlesSound pkg := fun pkg hp => h pkg (List.mem_of_mem_filter hp)
  have hempty : listing info accept [] = [91] := rfl
  have hstart : (listing info accept []).length < bufSize s := by
    unfold bufSize
    rw [hempty, List.length_singleton]
    omega
  obtain ⟨k, hk, hloop, hlt, hall⟩ := listLoop_spec info accept [] (packagesOf s drive) hstart
  rw [room_iff, ← hall]
  unfold packagesJson
  rw [List.length_nil, hempty, List.nil_append] at hloop
  rw [List.nil_append] at hlt
  rw [hloop]
  generalize packagesOf s drive = pkgs at *
  dsimp only
  have hsome : ∀ pkg ∈ pkgs.take k, TitlesSound pkg := fun p hp => hsound p (List.mem_of_mem_take hp)
  have hopen := (listing_sound info accept hsome).2
  by_cases hroom : (listing info accept (pkgs.take k)).length + 1 < bufSize s
  · rw [if_pos hroom]
    constructor
    · intro hlists
      have hwhole : k = pkgs.length := by
        by_contra hne
        exact not_listsAll info accept hsound (by omega) hlists
      rw [hwhole, List.take_length] at hroom
      exact ⟨hwhole, hroom⟩
    · rintro ⟨rfl, -⟩
      obtain ⟨⟨vs, hentries, hjson⟩, -⟩ := listing_sound info accept hsound
      rw [List.take_length]
      exact ⟨vs, hjson, hentries⟩
  · rw [if_neg hroom]
    constructor
    · rintro ⟨vs, hjson, -⟩
      exact absurd hjson (JsonText.not_isJson hopen (by decide) _)
    · rintro ⟨rfl, hfits⟩
      rw [List.take_length] at hroom
      omega

/-- Nothing is installed. -/
def nothing : AppInfo where
  checkInstalled := fun _ => (false, .of 32 [])
  checkDlcInstalled := fun _ _ => false
  checkHasLeftover := fun _ => (false, .of 128 [])
  checkPartiallyInstalled := fun _ => (false, .of 128 [])

/-- A package of quotes, with titles as long as there can be. -/
def longPackage : Package where
  path := .of 512 (List.replicate 511 34)
  filename := .of 256 (List.replicate 255 34)
  titleId := .of 32 []
  titleName := .of 256 (List.replicate 255 34)
  localizedTitles := .of 2048 (ascii "\x7b\"a\":\"" ++ List.replicate 2039 120 ++ ascii "\"\x7d")
  defaultLanguage := .of 32 []
  contentId := .of 64 []
  appVersion := .of 32 []
  fileSize := 0
  totalPkgSize := 0
  iconOffset := 0
  iconSize := 0
  hasIcon := false
  isValid := true
  isMultipart := false
  partIndex := 0
  totalParts := 0
  pkgType := .base
  pkgTypeStr := .of 16 []
  category := .of 16 []
  mtime := 0
  blurhash := .of 64 []

def longState : State := State.empty.addPackage longPackage

theorem longState_sound : ∀ pkg ∈ longState.packages, TitlesSound pkg := by
  have hpackages : longState.packages = [longPackage] := rfl
  have hbody : ∀ n, Body (List.replicate n 120) (List.replicate n 120) := by
    intro n
    induction n with
    | zero => exact .nil
    | succ n ih => exact .plain 120 (by decide) (by decide) (by decide) ih
  have htext : longPackage.localizedTitles.text =
      123 :: (JsonText.quoted [97] ++ 58 :: JsonText.quoted (List.replicate 2039 120) ++ [125]) := by
    decide +kernel
  rw [hpackages]
  refine List.forall_mem_singleton.mpr (.inr ⟨[([97], .string (List.replicate 2039 120))], ?_⟩)
  rw [htext]
  have hmember := Writes.member JsonText.ws_nil (.plain 97 (by decide) (by decide) (by decide) .nil)
    JsonText.ws_nil JsonText.ws_nil (.string (hbody 2039)) JsonText.ws_nil
  simp only [List.nil_append, List.append_nil] at hmember
  exact .object hmember

theorem listsAll_long : (∀ pkg ∈ longState.packages, TitlesSound pkg) ∧
    (ListsAll nothing [] (packagesOf longState []) (packagesJson nothing longState [] []) ↔
      Room nothing [] (bufSize longState) (packagesOf longState [])) :=
  ⟨longState_sound, listsAll_iff nothing longState [] [] longState_sound⟩

theorem listsAll_fails : ¬∀ info s drive accept, (∀ pkg ∈ s.packages, TitlesSound pkg) →
    ListsAll info accept (packagesOf s drive) (packagesJson info s drive accept) := by
  intro h
  obtain ⟨vs, hjson, hall⟩ := h nothing longState [] [] longState_sound
  have hjson' : packagesJson nothing longState [] [] = [91, 93] := by decide +kernel
  have hcount : (packagesOf longState []).length = 1 := by decide
  rw [hjson'] at hjson
  obtain rfl := JsonText.array_brackets hjson
  have hlen := hall.length_eq
  rw [hcount] at hlen
  cases hlen

end PkgManager.PackageListing
