import PkgManager.ManifestRecords

namespace PkgManager.ManifestRoundTrip

open CText QuotedText PkgParser ScannerState Manifest ManifestScan ManifestArrays ManifestSections
  ManifestRecords
open PkgMetadata (Text quoted)

/-! Reading an array back. -/

theorem indent_blank : ∀ b ∈ indent, isBlank b = true := by decide +kernel

/-- An array of objects as it stands in the file, from its bracket on. -/
def arrayText (objects : List Text) (rest : Text) : Text :=
  91 :: (ascii "\n" ++ (itemLines (objects.map (indent ++ ·)) ++ ascii "  ") ++ 93 :: rest)

theorem readArray_eq {full : State → Bool} {take : State → Text → State} {buf : Text} {key : String}
    {objects : List Text} {rest : Text} {s : State}
    (hstart : arrayStart buf (ascii key) = some (arrayText objects rest))
    (hobjects : ∀ o ∈ objects, IsObject o) (hskips : ∀ o ∈ objects, Skips 91 93 o)
    (hroom : ∀ a o b, objects = a ++ o :: b → full (a.foldl take s) = false) :
    readArray full take buf key s = objects.foldl take s := by
  have hitems : ∀ item ∈ objects.map (indent ++ ·), Skips 91 93 item := by
    intro item hitem
    obtain ⟨o, ho, rfl⟩ := List.mem_map.mp hitem
    exact (skips_bare (by decide +kernel)).append (hskips o ho)
  have hbody : Skips 91 93 (ascii "\n" ++ (itemLines (objects.map (indent ++ ·)) ++ ascii "  ")) :=
    (skips_bare (by decide +kernel)).append ((skips_itemLines (by decide) hitems).append (skips_bare (by decide +kernel)))
  have hfind : findArray buf key = some
      (ascii "\n" ++ (itemLines (objects.map (indent ++ ·)) ++ ascii "  ") ++ 93 :: rest,
        (ascii "\n" ++ (itemLines (objects.map (indent ++ ·)) ++ ascii "  ")).length) := by
    unfold findArray
    rw [hstart, Option.bind_some, arrayText,
      findMatchingPair_skips (by decide) (by decide) (by decide) hbody]
    rfl
  unfold readArray
  rw [hfind]
  exact arrayLoop_items indent_blank hobjects rest (by decide +kernel) (by decide +kernel) hroom (Nat.lt_succ_self _)

/-! Filling the state. -/

theorem foldl_takeDrive (objects : List Text) {drives : List Drive} (s : State)
    (hread : objects.map readDrive = drives) (hfit : ∀ o ∈ objects, o.length < 1024)
    (hroom : s.drives.length + drives.length ≤ maxDrives) :
    (objects.foldl takeDrive s).drives = s.drives ++ drives ∧
      (objects.foldl takeDrive s).files = s.files ∧
      (objects.foldl takeDrive s).packages = s.packages := by
  induction objects generalizing drives s with
  | nil =>
    subst hread
    simp
  | cons o objects ih =>
    subst hread
    rw [List.map_cons, List.length_cons] at hroom
    have hlt : s.drives.length < maxDrives := by omega
    have hone : takeDrive s o = s.addDrive (readDrive o) := if_pos (hfit o List.mem_cons_self)
    have hadd : (s.addDrive (readDrive o)).drives = s.drives ++ [readDrive o] ∧
        (s.addDrive (readDrive o)).files = s.files ∧
        (s.addDrive (readDrive o)).packages = s.packages := by
      unfold State.addDrive
      rw [dif_pos hlt]
      exact ⟨rfl, rfl, rfl⟩
    obtain ⟨hdrives, hfiles, hpackages⟩ := ih (s.addDrive (readDrive o)) rfl
      (fun o' ho' => hfit o' (List.mem_cons_of_mem o ho'))
      (by rw [hadd.1, List.length_append, List.length_singleton]; omega)
    rw [List.foldl_cons, hone, hdrives, hfiles, hpackages, hadd.1, hadd.2.1, hadd.2.2]
    simp

theorem foldl_takeFile (objects : List Text) {files : List ScannedFile} (s : State)
    (hread : objects.map readFile = files) (hfit : ∀ o ∈ objects, o.length < 1024)
    (hnamed : ∀ f ∈ files, f.path.text ≠ [])
    (hnodup : ((s.files ++ files).map (·.path)).Nodup) :
    (objects.foldl takeFile s).drives = s.drives ∧
      (objects.foldl takeFile s).files = s.files ++ files ∧
      (objects.foldl takeFile s).packages = s.packages := by
  induction objects generalizing files s with
  | nil =>
    subst hread
    simp
  | cons o objects ih =>
    subst hread
    have hname := hnamed (readFile o) List.mem_cons_self
    have hone : takeFile s o = s.addScannedFile (readFile o) := if_pos (hfit o List.mem_cons_self)
    have hnew : (readFile o).path ∉ s.files.map (·.path) := by
      rw [List.map_append, List.nodup_append] at hnodup
      intro hmem
      exact hnodup.2.2 _ hmem _ (by simp) rfl
    have hadd : (s.addScannedFile (readFile o)).drives = s.drives ∧
        (s.addScannedFile (readFile o)).files = s.files ++ [readFile o] ∧
        (s.addScannedFile (readFile o)).packages = s.packages := by
      unfold State.addScannedFile
      rw [dif_neg hname]
      exact ⟨rfl, if_neg hnew, rfl⟩
    obtain ⟨hdrives, hfiles, hpackages⟩ := ih (s.addScannedFile (readFile o)) rfl
      (fun o' ho' => hfit o' (List.mem_cons_of_mem o ho'))
      (fun f hf => hnamed f (List.mem_cons_of_mem _ hf))
      (by rw [hadd.2.1, List.append_assoc]; exact hnodup)
    rw [List.foldl_cons, hone, hdrives, hfiles, hpackages, hadd.1, hadd.2.1, hadd.2.2]
    simp

theorem foldl_takePackage (objects : List Text) {packages : List Package} (s : State)
    (hread : objects.map readPackage = packages)
    (hroom : s.packages.length + packages.length ≤ maxPackages) :
    (objects.foldl takePackage s).drives = s.drives ∧
      (objects.foldl takePackage s).files = s.files ∧
      (objects.foldl takePackage s).packages = s.packages ++ packages := by
  induction objects generalizing packages s with
  | nil =>
    subst hread
    simp
  | cons o objects ih =>
    subst hread
    rw [List.map_cons, List.length_cons] at hroom
    have hlt : s.packages.length < maxPackages := by omega
    have hadd : (takePackage s o).drives = s.drives ∧ (takePackage s o).files = s.files ∧
        (takePackage s o).packages = s.packages ++ [readPackage o] := by
      unfold takePackage State.addPackage
      rw [dif_pos hlt]
      exact ⟨rfl, rfl, rfl⟩
    obtain ⟨hdrives, hfiles, hpackages⟩ := ih (takePackage s o) rfl
      (by rw [hadd.2.2, List.length_append, List.length_singleton]; omega)
    rw [List.foldl_cons, hdrives, hfiles, hpackages, hadd.1, hadd.2.1, hadd.2.2]
    simp

/-! The layouts. -/

theorem lineLayout_free : Layout.Free lineLayout := by
  refine ⟨?_, ?_, ?_, ?_, ?_, ?_⟩ <;> decide +kernel

theorem blockLayout_free : Layout.Free blockLayout := by
  refine ⟨?_, ?_, ?_, ?_, ?_, ?_⟩ <;> decide +kernel

theorem skips_text {opening closing : UInt8} (ho : isNameByte opening = false)
    (hc : isNameByte closing = false) {l : Layout} (hopening : Inert opening closing l.opening)
    (hcolon : Inert opening closing l.colon) (hsep : Inert opening closing l.sep)
    (hclosing : Inert opening closing l.closing) {fs : List Field} (hclean : ∀ f ∈ fs, f.Clean) :
    Skips opening closing (l.text fs) :=
  (skips_bare hopening).append ((skips_fields ho hc hcolon hsep hclean).append (skips_bare hclosing))

theorem isObject_line {fs : List Field} (hclean : ∀ f ∈ fs, f.Clean) : IsObject (lineLayout.text fs) :=
  ⟨fieldsText (ascii ":") (ascii ",") fs, rfl,
    skips_fields (by decide) (by decide) (by decide) (by decide) hclean⟩

theorem isObject_block {fs : List Field} (hclean : ∀ f ∈ fs, f.Clean) :
    IsObject (blockLayout.text fs) := by
  have hbody : Skips 123 125
      (ascii "\n      " ++ (fieldsText (ascii ": ") (ascii ",\n      ") fs ++ ascii "\n    ")) :=
    (skips_bare (by decide +kernel)).append
      ((skips_fields (by decide) (by decide) (by decide) (by decide) hclean).append
        (skips_bare (by decide +kernel)))
  refine ⟨_, ?_, hbody⟩
  simp only [Layout.text, blockLayout, List.append_assoc]
  rfl

/-! The file. -/

def driveObject (d : Drive) : Text := lineLayout.text (driveFields d)

def fileObject (f : ScannedFile) : Text := lineLayout.text (fileFields f)

def packageObject (p : Package) : Text := blockLayout.text (packageFields p)

/-- The texts of the state have no control characters. -/
def State.Printable (s : State) : Prop :=
  (∀ d ∈ s.drives, ∀ t ∈ driveTexts d, ManifestScan.Printable t) ∧
    (∀ f ∈ s.files, ManifestScan.Printable f.path.text) ∧
    ∀ p ∈ s.packages, ∀ t ∈ packageTexts p, ManifestScan.Printable t

def packagesPart (s : State) : Text :=
  quote (ascii "packages") ++ (ascii ": " ++ arrayText (s.packages.map packageObject) (ascii "\n\x7d\n"))

def filesPart (s : State) : Text :=
  quote (ascii "files") ++
    (ascii ": " ++ arrayText (s.files.map fileObject) (ascii ",\n  " ++ packagesPart s))

def drivesPart (s : State) : Text :=
  quote (ascii "drives") ++
    (ascii ": " ++ arrayText (s.drives.map driveObject) (ascii ",\n  " ++ filesPart s))

theorem saveManifest_eq {s : State} (h : State.Printable s) :
    saveManifest s = ascii "\x7b\n  " ++ (quote (ascii "version") ++ (ascii ": 3,\n  " ++ drivesPart s)) := by
  have hdrives : s.drives.map driveText = (s.drives.map driveObject).map (indent ++ ·) := by
    rw [List.map_map]
    exact List.map_congr_left fun d hd => driveText_eq (h.1 d hd)
  have hfiles : s.files.map fileText = (s.files.map fileObject).map (indent ++ ·) := by
    rw [List.map_map]
    exact List.map_congr_left fun f hf => fileText_eq (h.2.1 f hf)
  have hpackages : s.packages.map packageText = (s.packages.map packageObject).map (indent ++ ·) := by
    rw [List.map_map]
    exact List.map_congr_left fun p hp => packageText_eq (h.2.2 p hp)
  have h1 : ascii "\x7b\n  \"version\": " ++ decimal manifestVersion ++ ascii ",\n  \"drives\": [\n" =
      ascii "\x7b\n  " ++ quote (ascii "version") ++ ascii ": 3,\n  " ++ quote (ascii "drives") ++
        ascii ": " ++ [91] ++ ascii "\n" := by decide
  have h2 : ascii "  ],\n  \"files\": [\n" = ascii "  " ++ [93] ++ ascii ",\n  " ++
      quote (ascii "files") ++ ascii ": " ++ [91] ++ ascii "\n" := by decide
  have h3 : ascii "  ],\n  \"packages\": [\n" = ascii "  " ++ [93] ++ ascii ",\n  " ++
      quote (ascii "packages") ++ ascii ": " ++ [91] ++ ascii "\n" := by decide
  have h4 : ascii "  ]\n\x7d\n" = ascii "  " ++ [93] ++ ascii "\n\x7d\n" := by decide
  unfold saveManifest
  rw [h1, h2, h3, h4, hdrives, hfiles, hpackages]
  simp only [drivesPart, filesPart, packagesPart, arrayText, List.append_assoc, List.cons_append,
    List.nil_append]

/-! Where the arrays are found. -/

/-- The strings of an array, up to what stands behind it. -/
theorem strung_array {l : Layout} (hl : l.Proper) (hfree : Layout.Free l) {objects : List (List Field)}
    (hclean : ∀ fs ∈ objects, ∀ f ∈ fs, f.Clean) (tail : Text) (htail : Bare tail) (htail91 : 91 ∉ tail)
    (stop : Text) :
    Strung stop (objects.flatMap (·.flatMap Field.strings))
      (ascii "\n" ++ (itemLines ((objects.map l.text).map (indent ++ ·)) ++ ascii "  ") ++
        93 :: (tail ++ stop)) := by
  have hend : Strung stop [] (ascii "  " ++ ([93] ++ (tail ++ stop))) :=
    ((Strung.stop.bare htail htail91).bare (by decide) (by decide)).bare (by decide) (by decide)
  have hitems := (hend.items hl hfree indent_blank hclean).bare
    (t := ascii "\n") (by decide) (by decide)
  rw [List.append_nil] at hitems
  rw [List.map_map]
  simp only [List.append_assoc, List.cons_append, List.nil_append] at hitems ⊢
  exact hitems

/-- What stands in front of the items of an array is passed. -/
theorem arrayStart_array {w key : Text} (hw : Name w) (hne : w ≠ []) (hkey : ¬ReadsAs w key)
    (h0 : 0 ∉ key) (objects : List Text) (rest : Text) :
    arrayStart (quote key ++ (ascii ": " ++ arrayText objects rest)) w =
      arrayStart (ascii "\n" ++ (itemLines (objects.map (indent ++ ·)) ++ ascii "  ") ++ 93 :: rest) w := by
  have hcolon : ∀ b ∈ (ascii ": " ++ arrayText objects rest).head?, isNameByte b = false := by
    rintro b ⟨⟩
    decide
  have hsplit (t : Text) : (91 :: t : Text) = [91] ++ t := rfl
  rw [arrayStart_passes (passes_string hw hne hkey hcolon) (zero_not_mem_quote h0),
    arrayStart_passes (passes_bare (by decide) _) (by decide), arrayText, hsplit,
    arrayStart_passes (passes_bare (by decide) _) (by decide)]

/-- Neither of two strings is a key, or no bracket follows one that reads as the key. -/
def Apart (w s t : Text) : Prop := ReadsAs w s → 91 ∉ t

instance (w : Text) : DecidableRel (Apart w) := fun s t =>
  inferInstanceAs (Decidable (ReadsAs w s → 91 ∉ t))

/-- Strings that are keys can be left out. -/
theorem pairwise_of_filter {w : Text} {keys all : List Text} (hkeys : ∀ k ∈ keys, ¬ReadsAs w k ∧ 91 ∉ k)
    (h : (all.filter (· ∉ keys)).Pairwise (Apart w)) : all.Pairwise (Apart w) := by
  refine (List.pairwise_filter.mp h).imp fun {s t} hst hreads h91 => ?_
  by_cases hs : s ∈ keys
  · exact (hkeys s hs).1 hreads
  · by_cases ht : t ∈ keys
    · exact (hkeys t ht).2 h91
    · exact hst (by simpa using hs) (by simpa using ht) hreads h91

def driveKeys : List Text :=
  ["id", "label", "path", "type", "mounted", "pkg_count", "file_size", "mtime"].map ascii

theorem driveKeys_files : ∀ k ∈ driveKeys, ¬ReadsAs (ascii "files") k ∧ 91 ∉ k := by decide

theorem driveKeys_packages : ∀ k ∈ driveKeys, ¬ReadsAs (ascii "packages") k ∧ 91 ∉ k := by decide

theorem driveStrings_filter (d : Drive) :
    ((driveFields d).flatMap Field.strings).filter (· ∉ driveKeys) =
      (driveTexts d).filter (· ∉ driveKeys) := by
  have hout (key : String) (h : ascii key ∈ driveKeys) : decide (ascii key ∉ driveKeys) = false :=
    decide_eq_false fun hnot => hnot h
  simp only [driveFields, driveTexts, str, word, List.flatMap_cons, List.flatMap_nil, Field.strings,
    Value.strings, List.cons_append, List.nil_append, List.append_nil, List.filter_cons, List.filter_nil,
    hout "id" (by decide), hout "label" (by decide), hout "path" (by decide), hout "type" (by decide),
    hout "mounted" (by decide), hout "pkg_count" (by decide), Bool.false_eq_true, if_false]

theorem fileStrings_filter (f : ScannedFile) :
    ((fileFields f).flatMap Field.strings).filter (· ∉ driveKeys) =
      [f.path.text].filter (· ∉ driveKeys) := by
  have hout (key : String) (h : ascii key ∈ driveKeys) : decide (ascii key ∉ driveKeys) = false :=
    decide_eq_false fun hnot => hnot h
  simp only [fileFields, str, word, List.flatMap_cons, List.flatMap_nil, Field.strings,
    Value.strings, List.cons_append, List.nil_append, List.append_nil, List.filter_cons, List.filter_nil,
    hout "path" (by decide), hout "file_size" (by decide), hout "mtime" (by decide),
    Bool.false_eq_true, if_false]

theorem filter_flatMap_congr {α β : Type} (p : β → Bool) {f g : α → List β}
    (h : ∀ a, (f a).filter p = (g a).filter p) (l : List α) :
    (l.flatMap f).filter p = (l.flatMap g).filter p := by
  rw [List.filter_flatMap, List.filter_flatMap]
  congr 1
  funext a
  exact h a

/-- What the file has to be like in the places where a text could be taken for a key. -/
structure KeysFound (s : State) : Prop where
  files : (s.drives.flatMap driveTexts).Pairwise (Apart (ascii "files"))
  packages : ∀ t ∈ s.drives.flatMap driveTexts, ¬ReadsAs (ascii "packages") t
  packagesBehind : (s.files.map (·.path.text)).Pairwise (Apart (ascii "packages"))

def driveStrings (s : State) : List Text := (s.drives.map driveFields).flatMap (·.flatMap Field.strings)

def fileStrings (s : State) : List Text := (s.files.map fileFields).flatMap (·.flatMap Field.strings)

theorem driveStrings_filtered (s : State) : (driveStrings s).filter (· ∉ driveKeys) =
    (s.drives.flatMap driveTexts).filter (· ∉ driveKeys) := by
  unfold driveStrings
  rw [List.flatMap_map]
  exact filter_flatMap_congr _ driveStrings_filter s.drives

theorem fileStrings_filtered (s : State) : (fileStrings s).filter (· ∉ driveKeys) =
    (s.files.map (·.path.text)).filter (· ∉ driveKeys) := by
  unfold fileStrings
  rw [List.flatMap_map, ← List.flatMap_singleton' (s.files.map _), List.flatMap_map]
  exact filter_flatMap_congr _ fileStrings_filter s.files

theorem strung_drives (s : State) :
    Strung (filesPart s) (driveStrings s) (ascii "\n" ++ (itemLines
      ((s.drives.map driveObject).map (indent ++ ·)) ++ ascii "  ") ++ 93 :: (ascii ",\n  " ++ filesPart s)) := by
  have hclean : ∀ fs ∈ s.drives.map driveFields, ∀ f ∈ fs, f.Clean := by
    intro fs hfs
    obtain ⟨d, -, rfl⟩ := List.mem_map.mp hfs
    exact driveFields_clean d
  have hmap : (s.drives.map driveFields).map lineLayout.text = s.drives.map driveObject := by
    rw [List.map_map]
    rfl
  rw [← hmap]
  exact strung_array lineLayout_proper lineLayout_free hclean (ascii ",\n  ") (by decide) (by decide) (filesPart s)

theorem strung_files (s : State) :
    Strung (packagesPart s) (fileStrings s) (ascii "\n" ++ (itemLines
      ((s.files.map fileObject).map (indent ++ ·)) ++ ascii "  ") ++
        93 :: (ascii ",\n  " ++ packagesPart s)) := by
  have hclean : ∀ fs ∈ s.files.map fileFields, ∀ f ∈ fs, f.Clean := by
    intro fs hfs
    obtain ⟨f, -, rfl⟩ := List.mem_map.mp hfs
    exact fileFields_clean f
  have hmap : (s.files.map fileFields).map lineLayout.text = s.files.map fileObject := by
    rw [List.map_map]
    rfl
  rw [← hmap]
  exact strung_array lineLayout_proper lineLayout_free hclean (ascii ",\n  ") (by decide) (by decide) (packagesPart s)

theorem strung_packages (s : State) :
    Strung [] ((s.packages.map packageFields).flatMap (·.flatMap Field.strings)) (ascii "\n" ++ (itemLines
      ((s.packages.map packageObject).map (indent ++ ·)) ++ ascii "  ") ++ 93 :: ascii "\n\x7d\n") := by
  have hclean : ∀ fs ∈ s.packages.map packageFields, ∀ f ∈ fs, f.Clean := by
    intro fs hfs
    obtain ⟨p, -, rfl⟩ := List.mem_map.mp hfs
    exact packageFields_clean p
  have hmap : (s.packages.map packageFields).map blockLayout.text = s.packages.map packageObject := by
    rw [List.map_map]
    rfl
  have h := strung_array blockLayout_proper blockLayout_free hclean (ascii "\n\x7d\n") (by decide)
    (by decide) []
  rw [List.append_nil, hmap] at h
  exact h

/-- The text from the version on, as far as a key other than the first two is sought. -/
theorem arrayStart_front {w : Text} (hw : Name w) (hne : w ≠ []) (hversion : ¬ReadsAs w (ascii "version"))
    (hdrives : ¬ReadsAs w (ascii "drives")) {s : State} (h : State.Printable s) :
    arrayStart (saveManifest s) w = arrayStart (ascii "\n" ++ (itemLines
      ((s.drives.map driveObject).map (indent ++ ·)) ++ ascii "  ") ++
        93 :: (ascii ",\n  " ++ filesPart s)) w := by
  have hcolon : ∀ b ∈ (ascii ": 3,\n  " ++ drivesPart s).head?, isNameByte b = false := by
    rintro b ⟨⟩
    decide
  rw [saveManifest_eq h, arrayStart_passes (passes_bare (by decide) _) (by decide),
    arrayStart_passes (passes_string hw hne hversion hcolon) (zero_not_mem_quote (by decide)),
    arrayStart_passes (passes_bare (by decide) _) (by decide), drivesPart,
    arrayStart_array hw hne hdrives (by decide)]

/-- A key in front of its array. -/
theorem key_starts (key : String) (hk : Name (ascii key)) (t : Text) :
    quoted (ascii key) <+: quote (ascii key) ++ t := by
  have hquote : quote (ascii key) = quoted (ascii key) := by
    rw [quoted_eq, quote, escape_plain hk.plain]
    rfl
  rw [hquote]
  exact List.prefix_append _ _

theorem arrayPart_eq (key : String) (objects : List Text) (rest : Text) :
    quote (ascii key) ++ (ascii ": " ++ arrayText objects rest) =
      (quote (ascii key) ++ ascii ": ") ++ 91 :: (ascii "\n" ++
        (itemLines (objects.map (indent ++ ·)) ++ ascii "  ") ++ 93 :: rest) := by
  rw [List.append_assoc]
  rfl

theorem arrayStart_drives {s : State} (h : State.Printable s) :
    arrayStart (saveManifest s) (ascii "drives") =
      some (arrayText (s.drives.map driveObject) (ascii ",\n  " ++ filesPart s)) := by
  have hstrung : Strung (drivesPart s) [ascii "version"] (saveManifest s) := by
    rw [saveManifest_eq h]
    refine Strung.bare (by decide) (by decide) (Strung.string (by decide) ?_
      (Strung.bare (by decide) (by decide) .stop))
    rintro b ⟨⟩
    decide
  refine hstrung.arrayStart_eq (by decide) (by decide) (arrayPart_eq _ _ _)
    (key_starts _ (by decide) _) (by decide) (by decide) (List.pairwise_singleton _ _)

theorem arrayStart_files {s : State} (h : State.Printable s) (hkeys : KeysFound s) :
    arrayStart (saveManifest s) (ascii "files") =
      some (arrayText (s.files.map fileObject) (ascii ",\n  " ++ packagesPart s)) := by
  have hapart : (driveStrings s).Pairwise (Apart (ascii "files")) := by
    refine pairwise_of_filter driveKeys_files ?_
    rw [driveStrings_filtered]
    exact hkeys.files.filter _
  rw [arrayStart_front (by decide) (by decide) (by decide) (by decide) h]
  exact (strung_drives s).arrayStart_eq (by decide) (by decide) (arrayPart_eq _ _ _)
    (key_starts _ (by decide) _) (by decide) (by decide) hapart

theorem arrayStart_packages {s : State} (h : State.Printable s) (hkeys : KeysFound s) :
    arrayStart (saveManifest s) (ascii "packages") =
      some (arrayText (s.packages.map packageObject) (ascii "\n\x7d\n")) := by
  have hnone : ∀ t ∈ driveStrings s, ¬ReadsAs (ascii "packages") t := by
    intro t ht
    by_cases hkey : t ∈ driveKeys
    · exact (driveKeys_packages t hkey).1
    · have hin : t ∈ (driveStrings s).filter (· ∉ driveKeys) :=
        List.mem_filter.mpr ⟨ht, decide_eq_true hkey⟩
      rw [driveStrings_filtered] at hin
      exact hkeys.packages t (List.mem_filter.mp hin).1
  have hapart : (fileStrings s).Pairwise (Apart (ascii "packages")) := by
    refine pairwise_of_filter driveKeys_packages ?_
    rw [fileStrings_filtered]
    exact hkeys.packagesBehind.filter _
  rw [arrayStart_front (by decide) (by decide) (by decide) (by decide) h,
    (strung_drives s).arrayStart_stop (by decide) (by decide) hnone, filesPart,
    arrayStart_array (by decide) (by decide) (by decide) (by decide)]
  exact (strung_files s).arrayStart_eq (by decide) (by decide) (arrayPart_eq _ _ _)
    (key_starts _ (by decide) _) (by decide) (by decide) hapart

theorem arrayPart_zero {key : Text} (h0 : 0 ∉ key) {objects : List Text} {rest : Text}
    (h : 0 ∉ (ascii "\n" ++ (itemLines (objects.map (indent ++ ·)) ++ ascii "  ") ++ 93 :: rest)) :
    0 ∉ quote key ++ (ascii ": " ++ arrayText objects rest) := by
  rw [List.mem_append, List.mem_append, arrayText, List.mem_cons, not_or, not_or, not_or]
  exact ⟨zero_not_mem_quote h0, by decide, by decide, h⟩

theorem saveManifest_zero {s : State} (h : State.Printable s) : 0 ∉ saveManifest s := by
  have hpackages : 0 ∉ packagesPart s :=
    arrayPart_zero (by decide) ((strung_packages s).zero_not_mem (by simp))
  have hfiles : 0 ∉ filesPart s :=
    arrayPart_zero (by decide) ((strung_files s).zero_not_mem hpackages)
  have hdrives : 0 ∉ drivesPart s :=
    arrayPart_zero (by decide) ((strung_drives s).zero_not_mem hfiles)
  rw [saveManifest_eq h, List.mem_append, List.mem_append, List.mem_append, not_or, not_or, not_or]
  exact ⟨by decide, by decide, by decide, hdrives⟩

/-! The round trip. -/

/-- The file as an object whose first field is the version. -/
def versionLayout (s : State) : Layout :=
  ⟨ascii "\x7b\n  ", ascii ": ", ascii ",\n  ", ascii ",\n  " ++ drivesPart s⟩

theorem versionLayout_proper (s : State) : (versionLayout s).Proper where
  opening := show Bare (ascii "\x7b\n  ") by decide
  colon := show Bare (ascii ": ") by decide
  colon58 := rfl
  gap := rfl
  sep := show Bare (ascii ",\n  ") by decide
  sep44 := rfl
  closing := by
    rintro b ⟨⟩
    decide

theorem extract_version {s : State} (h : State.Printable s) :
    extractJsonField (saveManifest s) "version" 16 = ascii "3" := by
  have hclean : ∀ f ∈ [word "version" (ascii "3")], f.Clean := by
    intro f hf
    rw [List.mem_singleton.mp hf]
    exact word_clean (by decide) (by decide)
  have htext : saveManifest s = (versionLayout s).text [word "version" (ascii "3")] := by
    rw [saveManifest_eq h]
    simp only [Layout.text, fieldsText_singleton, Field.text, word, Value.text, List.append_assoc]
    rfl
  rw [htext]
  exact extract_word (versionLayout_proper s) (by decide) (by decide) hclean rfl (by decide) (by decide)

theorem length_driveObject (d : Drive) : (driveObject d).length < 1024 := by
  have hid := d.id.fits
  have hlabel := d.label.fits
  have hpath := d.path.fits
  have htype := d.type.fits
  have hid' := length_escape_le d.id.text
  have hlabel' := length_escape_le d.label.text
  have hpath' := length_escape_le d.path.text
  have htype' := length_escape_le d.type.text
  have hmounted : (flagNumber d.mounted).length ≤ 1 := by cases d.mounted <;> decide
  have hcount : (decimal d.pkgCount.toNat).length ≤ 20 :=
    length_decimal_le (by decide) (lt_trans d.pkgCount.toNat_lt (by decide))
  have hkeys : (quote (ascii "id")).length = 4 ∧ (quote (ascii "label")).length = 7 ∧
      (quote (ascii "path")).length = 6 ∧ (quote (ascii "type")).length = 6 ∧
      (quote (ascii "mounted")).length = 9 ∧ (quote (ascii "pkg_count")).length = 11 := by decide
  have hquote (t : Text) : (quote t).length = (escape t).length + 2 := by simp [quote]
  have hparts : (ascii "\x7b").length = 1 ∧ (ascii ":").length = 1 ∧ (ascii ",").length = 1 ∧
      (ascii "\x7d").length = 1 := by decide
  simp only [driveObject, Layout.text, lineLayout, fieldsText, driveFields, List.map_cons, List.map_nil,
    List.intercalate_cons_cons, List.intercalate_singleton, Field.text, str, word, Value.text,
    List.length_append, hkeys, hparts, hquote]
  simp only [hquote] at hkeys
  omega

/-- What the state is like when the file gives it back: no control characters, no text
in the way of a key, a drive that can be clicked exactly when it has packages, a total
size of every package, file records short enough for their buffer, and a file that is not
too long. -/
structure Restorable (s : State) : Prop where
  printable : State.Printable s
  keys : KeysFound s
  regular : ∀ d ∈ s.drives, Drive.Regular d
  total : ∀ p ∈ s.packages, p.totalPkgSize = 0 → p.fileSize = 0
  fits : ∀ f ∈ s.files, (fileText f).length < indent.length + 1024
  size : (saveManifest s).length ≤ 10 * 1024 * 1024

/-- The drives and the files are as they were, the packages in another order. -/
def Restored (s : State) (r : Option State) : Prop :=
  ∃ s', r = some s' ∧ s'.drives = s.drives ∧ s'.files = s.files ∧ s'.packages.Perm s.packages

theorem readDrives {s : State} (h : Restorable s) : (s.drives.map driveObject).map readDrive = s.drives := by
  rw [List.map_map]
  exact (List.map_congr_left fun d hd => readDrive_eq (h.regular d hd)).trans (List.map_id _)

theorem readFiles (s : State) : (s.files.map fileObject).map readFile = s.files := by
  rw [List.map_map]
  exact (List.map_congr_left fun f _ => readFile_eq f).trans (List.map_id _)

theorem readPackages {s : State} (h : Restorable s) :
    (s.packages.map packageObject).map readPackage = s.packages := by
  rw [List.map_map]
  exact (List.map_congr_left fun p hp => readPackage_eq (h.total p hp)).trans (List.map_id _)

theorem length_of_append_cons {α β : Type} {f : α → β} {l : List α} {a b : List β} {x : β}
    (h : l.map f = a ++ x :: b) : a.length < l.length := by
  have hlen := congrArg List.length h
  rw [List.length_map, List.length_append, List.length_cons] at hlen
  omega

theorem readArray_drives {s : State} (h : Restorable s) :
    let r := readArray (fun s => maxDrives ≤ s.drives.length) takeDrive (saveManifest s) "drives" .empty
    r.drives = s.drives ∧ r.files = [] ∧ r.packages = [] := by
  have hlen := s.drives_le
  have hfit : ∀ o ∈ s.drives.map driveObject, o.length < 1024 := by
    intro o ho
    obtain ⟨d, -, rfl⟩ := List.mem_map.mp ho
    exact length_driveObject d
  have hclean : ∀ o ∈ s.drives.map driveObject, IsObject o ∧ Skips 91 93 o := by
    intro o ho
    obtain ⟨d, -, rfl⟩ := List.mem_map.mp ho
    exact ⟨isObject_line (driveFields_clean d), skips_text (by decide) (by decide) (by decide)
      (by decide) (by decide) (by decide) (driveFields_clean d)⟩
  have hroom : ∀ a o b, s.drives.map driveObject = a ++ o :: b →
      decide (maxDrives ≤ (a.foldl takeDrive State.empty).drives.length) = false := by
    intro a o b hab
    have ha := length_of_append_cons hab
    have hfilled := foldl_takeDrive a State.empty rfl
      (fun o' ho' => hfit o' (by rw [hab]; exact List.mem_append_left _ ho'))
      (by rw [List.length_map]; simp only [State.empty, List.length_nil]; omega)
    rw [hfilled.1]
    simp only [State.empty, List.nil_append, List.length_map, decide_eq_false_iff_not]
    omega
  intro r
  have hr : r = (s.drives.map driveObject).foldl takeDrive .empty :=
    readArray_eq (arrayStart_drives h.printable) (fun o ho => (hclean o ho).1)
      (fun o ho => (hclean o ho).2) hroom
  rw [hr]
  exact foldl_takeDrive _ .empty (readDrives h) hfit (by simpa [State.empty] using hlen)

theorem readArray_files {s s₀ : State} (h : Restorable s) (h₀ : s₀.files = []) :
    let r := readArray (fun _ => false) takeFile (saveManifest s) "files" s₀
    r.drives = s₀.drives ∧ r.files = s.files ∧ r.packages = s₀.packages := by
  have hfit : ∀ o ∈ s.files.map fileObject, o.length < 1024 := by
    intro o ho
    obtain ⟨f, hf, rfl⟩ := List.mem_map.mp ho
    have hlen := h.fits f hf
    rw [fileText_eq (h.printable.2.1 f hf), List.length_append] at hlen
    unfold fileObject
    omega
  have hclean : ∀ o ∈ s.files.map fileObject, IsObject o ∧ Skips 91 93 o := by
    intro o ho
    obtain ⟨f, -, rfl⟩ := List.mem_map.mp ho
    exact ⟨isObject_line (fileFields_clean f), skips_text (by decide) (by decide) (by decide)
      (by decide) (by decide) (by decide) (fileFields_clean f)⟩
  intro r
  have hr : r = (s.files.map fileObject).foldl takeFile s₀ :=
    readArray_eq (arrayStart_files h.printable h.keys) (fun o ho => (hclean o ho).1)
      (fun o ho => (hclean o ho).2) (fun _ _ _ _ => rfl)
  have hfilled := foldl_takeFile _ s₀ (readFiles s) hfit s.files_named
    (by rw [h₀]; exact s.files_nodup)
  rw [h₀] at hfilled
  rw [hr]
  exact hfilled

theorem readArray_packages {s s₀ : State} (h : Restorable s) (h₀ : s₀.packages = []) :
    let r := readArray (fun s => maxPackages ≤ s.packages.length) takePackage (saveManifest s)
      "packages" s₀
    r.drives = s₀.drives ∧ r.files = s₀.files ∧ r.packages = s.packages := by
  have hlen := s.packages_le
  have hclean : ∀ o ∈ s.packages.map packageObject, IsObject o ∧ Skips 91 93 o := by
    intro o ho
    obtain ⟨p, -, rfl⟩ := List.mem_map.mp ho
    exact ⟨isObject_block (packageFields_clean p), skips_text (by decide) (by decide) (by decide)
      (by decide) (by decide) (by decide) (packageFields_clean p)⟩
  have hroom : ∀ a o b, s.packages.map packageObject = a ++ o :: b →
      decide (maxPackages ≤ (a.foldl takePackage s₀).packages.length) = false := by
    intro a o b hab
    have ha := length_of_append_cons hab
    have hfilled := foldl_takePackage a s₀ rfl (by
      rw [List.length_map, h₀, List.length_nil]
      omega)
    rw [hfilled.2.2, h₀]
    simp only [List.nil_append, List.length_map, decide_eq_false_iff_not]
    omega
  intro r
  have hr : r = (s.packages.map packageObject).foldl takePackage s₀ :=
    readArray_eq (arrayStart_packages h.printable h.keys) (fun o ho => (hclean o ho).1)
      (fun o ho => (hclean o ho).2) hroom
  have hfilled := foldl_takePackage _ s₀ (readPackages h) (by
    rw [h₀, List.length_nil]
    omega)
  rw [h₀] at hfilled
  rw [hr]
  exact hfilled

theorem length_saveManifest (s : State) : 10 < (saveManifest s).length := by
  have hhead : (ascii "\x7b\n  \"version\": ").length = 15 := by decide
  unfold saveManifest
  simp only [List.length_append, hhead]
  omega

/-- A state like that is read back from the file that is written of it. -/
theorem manifest_round_trip {s : State} (h : Restorable s) :
    Restored s (loadManifest (saveManifest s)) := by
  have hsize : ¬((saveManifest s).length ≤ 10 ∨ 10 * 1024 * 1024 < (saveManifest s).length) := by
    have hlong := length_saveManifest s
    have hshort := h.size
    omega
  have hbuf : upToNul (saveManifest s) = saveManifest s :=
    List.takeWhile_eq_self_iff.mpr fun b hb =>
      decide_eq_true fun h0 => saveManifest_zero h.printable (h0 ▸ hb)
  have hversion : ¬atoi (extractJsonField (saveManifest s) "version" 16) ≠ Int32.ofNat manifestVersion := by
    rw [extract_version h.printable]
    decide
  obtain ⟨hd, hdf, hdp⟩ := readArray_drives h
  obtain ⟨hfd, hf, hfp⟩ := readArray_files h hdf
  obtain ⟨hpd, hpf, hp⟩ := readArray_packages h (hfp.trans hdp)
  unfold loadManifest
  rw [if_neg hsize]
  simp only [hbuf]
  rw [if_neg hversion]
  refine ⟨_, rfl, hpd.trans (hfd.trans hd), hpf.trans hf, ?_⟩
  exact (sortPackages_perm _).trans (by rw [hp])

/-! Two states. -/

def cstring (n : Nat) [NeZero n] (s : String) : CString n := CString.of n (ascii s)

/-- A drive whose label has a quote and a bracket, with a file and its package. -/
def usbState : State :=
  ((State.empty.addDrive ⟨cstring 32 "usb0", cstring 64 "My \"files\" [1]", cstring 256 "/mnt/usb0",
      cstring 16 "usb", true, 1, true⟩).addScannedFile ⟨cstring 512 "/mnt/usb0/a\\b.pkg", 300, 17⟩).addPackage
    ⟨cstring 512 "/mnt/usb0/a\\b.pkg", cstring 256 "a\\b.pkg", cstring 32 "PPSA00001",
      cstring 256 "A \"path\": B", cstring 2048 "", cstring 32 "en-US", cstring 64 "UP0000-PPSA00001_00-A",
      cstring 32 "01.00", 300, 300, 200, 100, true, true, false, 0, 0, .base, cstring 16 "base",
      cstring 16 "gd", 17, cstring 64 ""⟩

theorem manifest_round_trip_usb : Restored usbState (loadManifest (saveManifest usbState)) :=
  manifest_round_trip ⟨⟨by decide, by decide, by decide⟩,
    ⟨by decide, by decide, by decide⟩, by decide, by decide,
    by decide +kernel, by decide +kernel⟩

/-- A file with a newline in its name. -/
def newlineState : State :=
  State.empty.addScannedFile ⟨cstring 512 "/mnt/usb0/a\nb.pkg", 300, 17⟩

/-- A newline is written as an escape that is read as a letter. -/
theorem manifest_round_trip_fails : ¬∀ s, Restored s (loadManifest (saveManifest s)) := by
  intro hall
  obtain ⟨s', hload, -, hfiles, -⟩ := hall newlineState
  have hread : (loadManifest (saveManifest newlineState)).map (fun s => s.files.map (·.path.text)) =
      some [ascii "/mnt/usb0/anb.pkg"] := by decide +kernel
  rw [hload, Option.map_some, hfiles] at hread
  exact absurd hread (by decide)

end PkgManager.ManifestRoundTrip
