import PkgManager.ManifestSections

namespace PkgManager.ManifestRecords

open CText QuotedText PkgParser ScannerState Manifest ManifestScan ManifestArrays ManifestSections
open PkgMetadata (Text quoted)

/-! The records as fields. -/

def indent : Text := ascii "    "

def lineLayout : Layout := ⟨ascii "\x7b", ascii ":", ascii ",", ascii "\x7d"⟩

def blockLayout : Layout := ⟨ascii "\x7b\n      ", ascii ": ", ascii ",\n      ", ascii "\n    \x7d"⟩

def str {n : Nat} (key : String) (s : CString n) : Field := ⟨ascii key, .quoted s.text⟩

def word (key : String) (w : Text) : Field := ⟨ascii key, .word w⟩

def driveFields (d : Drive) : List Field := [
  str "id" d.id, str "label" d.label, str "path" d.path, str "type" d.type,
  word "mounted" (flagNumber d.mounted), word "pkg_count" (decimal d.pkgCount.toNat)]

def fileFields (f : ScannedFile) : List Field := [
  str "path" f.path, word "file_size" (decimal f.fileSize.toNat),
  word "mtime" (decimal f.mtime.toNat)]

/-- The size that is written for a package. -/
def writtenTotal (p : Package) : UInt64 := if 0 < p.totalPkgSize then p.totalPkgSize else p.fileSize

def packageFields (p : Package) : List Field := [
  str "path" p.path, str "filename" p.filename, str "title_id" p.titleId,
  str "title_name" p.titleName, str "localized_titles" p.localizedTitles,
  str "default_language" p.defaultLanguage, str "content_id" p.contentId,
  str "app_version" p.appVersion, word "file_size" (decimal p.fileSize.toNat),
  word "total_pkg_size" (decimal (writtenTotal p).toNat),
  word "icon_offset" (decimal p.iconOffset.toNat), word "icon_size" (decimal p.iconSize.toNat),
  word "has_icon" (flagWord p.hasIcon), word "is_valid" (flagWord p.isValid),
  word "is_multipart" (flagWord p.isMultipart), word "part_index" (decimal p.partIndex.toNat),
  word "total_parts" (decimal p.totalParts.toNat), word "pkg_type" (decimal (typeCode p.pkgType)),
  str "pkg_type_str" p.pkgTypeStr, str "category" p.category, word "mtime" (decimal p.mtime.toNat),
  str "blurhash" p.blurhash]

def driveTexts (d : Drive) : List Text := [d.id.text, d.label.text, d.path.text, d.type.text]

def packageTexts (p : Package) : List Text := [
  p.path.text, p.filename.text, p.titleId.text, p.titleName.text, p.localizedTitles.text,
  p.defaultLanguage.text, p.contentId.text, p.appVersion.text, p.pkgTypeStr.text, p.category.text,
  p.blurhash.text]

/-! What is written. -/

theorem strField_eq {n : Nat} (colon key : String) (hk : Name (ascii key)) {s : CString n}
    (hs : Printable s.text) : strField colon key s = (str key s).text (ascii colon) := by
  have hfits := s.fits
  have hescape : escapeJsonStr (2 * n) s.text = escape s.text :=
    escapeLoop_printable hs (by omega)
  unfold strField
  rw [hescape]
  simp [str, Field.text, Value.text, quote, quoted, escape_plain hk.plain]

theorem wordField_eq (colon key : String) (hk : Name (ascii key)) (w : Text) :
    wordField colon key w = (word key w).text (ascii colon) := by
  simp [wordField, word, Field.text, Value.text, quote, quoted, escape_plain hk.plain]

theorem driveText_eq {d : Drive} (h : ∀ t ∈ driveTexts d, Printable t) :
    driveText d = indent ++ lineLayout.text (driveFields d) := by
  have hid := h d.id.text (by simp [driveTexts])
  have hlabel := h d.label.text (by simp [driveTexts])
  have hpath := h d.path.text (by simp [driveTexts])
  have htype := h d.type.text (by simp [driveTexts])
  unfold driveText
  rw [strField_eq ":" "id" (by decide) hid, strField_eq ":" "label" (by decide) hlabel,
    strField_eq ":" "path" (by decide) hpath, strField_eq ":" "type" (by decide) htype,
    wordField_eq ":" "mounted" (by decide), wordField_eq ":" "pkg_count" (by decide)]
  rfl

theorem fileText_eq {f : ScannedFile} (h : Printable f.path.text) :
    fileText f = indent ++ lineLayout.text (fileFields f) := by
  unfold fileText
  rw [strField_eq ":" "path" (by decide) h, wordField_eq ":" "file_size" (by decide),
    wordField_eq ":" "mtime" (by decide)]
  rfl

theorem packageText_eq {p : Package} (h : ∀ t ∈ packageTexts p, Printable t) :
    packageText p = indent ++ blockLayout.text (packageFields p) := by
  have hstr {n : Nat} (key : String) (s : CString n) (hk : Name (ascii key))
      (hs : s.text ∈ packageTexts p) : strField ": " key s = (str key s).text (ascii ": ") :=
    strField_eq ": " key hk (h s.text hs)
  have hword (key : String) (hk : Name (ascii key)) (w : Text) :
      wordField ": " key w = (word key w).text (ascii ": ") := wordField_eq ": " key hk w
  unfold packageText
  rw [hstr "path" p.path (by decide) (by simp [packageTexts]),
    hstr "filename" p.filename (by decide) (by simp [packageTexts]),
    hstr "title_id" p.titleId (by decide) (by simp [packageTexts]),
    hstr "title_name" p.titleName (by decide) (by simp [packageTexts]),
    hstr "localized_titles" p.localizedTitles (by decide) (by simp [packageTexts]),
    hstr "default_language" p.defaultLanguage (by decide) (by simp [packageTexts]),
    hstr "content_id" p.contentId (by decide) (by simp [packageTexts]),
    hstr "app_version" p.appVersion (by decide) (by simp [packageTexts]),
    hstr "pkg_type_str" p.pkgTypeStr (by decide) (by simp [packageTexts]),
    hstr "category" p.category (by decide) (by simp [packageTexts]),
    hstr "blurhash" p.blurhash (by decide) (by simp [packageTexts]),
    hword "file_size" (by decide),
    hword "total_pkg_size" (by decide),
    hword "icon_offset" (by decide),
    hword "icon_size" (by decide),
    hword "has_icon" (by decide),
    hword "is_valid" (by decide),
    hword "is_multipart" (by decide),
    hword "part_index" (by decide),
    hword "total_parts" (by decide),
    hword "pkg_type" (by decide),
    hword "mtime" (by decide)]
  rfl

/-! Reading a record. -/

theorem str_clean {n : Nat} {key : String} (hk : Name (ascii key)) (s : CString n) :
    (str key s).Clean :=
  ⟨hk, fun t ht => by cases ht; exact s.noNul, fun w hw => nomatch hw⟩

theorem word_clean {key : String} (hk : Name (ascii key)) {w : Text} (hw : Name w) :
    (word key w).Clean :=
  ⟨hk, fun t ht => (nomatch ht), fun w' hw' => by cases hw'; exact hw⟩

theorem lineLayout_proper : lineLayout.Proper := by
  refine ⟨?_, ?_, ?_, ?_, ?_, ?_, ?_⟩ <;> decide +kernel

theorem blockLayout_proper : blockLayout.Proper := by
  refine ⟨?_, ?_, ?_, ?_, ?_, ?_, ?_⟩ <;> decide +kernel

theorem flagNumber_name (b : Bool) : Name (flagNumber b) := decimal_name _

theorem flagWord_name (b : Bool) : Name (flagWord b) := by cases b <;> decide

theorem driveFields_clean (d : Drive) : ∀ f ∈ driveFields d, f.Clean := by
  simp only [driveFields, List.forall_mem_cons]
  exact ⟨str_clean (by decide) _, str_clean (by decide) _, str_clean (by decide) _,
    str_clean (by decide) _, word_clean (by decide) (flagNumber_name _),
    word_clean (by decide) (decimal_name _), by simp⟩

theorem fileFields_clean (f : ScannedFile) : ∀ g ∈ fileFields f, g.Clean := by
  simp only [fileFields, List.forall_mem_cons]
  exact ⟨str_clean (by decide) _, word_clean (by decide) (decimal_name _),
    word_clean (by decide) (decimal_name _), by simp⟩

theorem packageFields_clean (p : Package) : ∀ f ∈ packageFields p, f.Clean := by
  simp only [packageFields, List.forall_mem_cons]
  exact ⟨str_clean (by decide) _, str_clean (by decide) _, str_clean (by decide) _,
    str_clean (by decide) _, str_clean (by decide) _, str_clean (by decide) _,
    str_clean (by decide) _, str_clean (by decide) _, word_clean (by decide) (decimal_name _),
    word_clean (by decide) (decimal_name _), word_clean (by decide) (decimal_name _),
    word_clean (by decide) (decimal_name _), word_clean (by decide) (flagWord_name _),
    word_clean (by decide) (flagWord_name _), word_clean (by decide) (flagWord_name _),
    word_clean (by decide) (decimal_name _), word_clean (by decide) (decimal_name _),
    word_clean (by decide) (decimal_name _), str_clean (by decide) _, str_clean (by decide) _,
    word_clean (by decide) (decimal_name _), str_clean (by decide) _, by simp⟩

section Reading

variable {l : Layout} (hl : l.Proper) {fs : List Field} (hclean : ∀ f ∈ fs, f.Clean)

include hl hclean

theorem fieldText_eq {n : Nat} [NeZero n] (key : String) (s : CString n) (hk : Name (ascii key))
    (hne : ascii key ≠ []) (hf : fs.find? (fun g => g.key = ascii key) = some (str key s)) :
    fieldText (l.text fs) key n = s := by
  unfold fieldText
  rw [extract_quoted hl hk hne hclean hf s.fits]
  exact CString.of_text s

theorem fieldWord_eq (key : String) {w : Text} (hk : Name (ascii key)) (hne : ascii key ≠ [])
    (hw : w ≠ []) (hlen : w.length < 64)
    (hf : fs.find? (fun g => g.key = ascii key) = some (word key w)) :
    extractJsonField (l.text fs) key 64 = w :=
  extract_word hl hk hne hclean hf hw hlen

theorem fieldNumber_eq (key : String) {v : Nat} (hk : Name (ascii key)) (hne : ascii key ≠ [])
    (hv : v < 2 ^ 64) (hf : fs.find? (fun g => g.key = ascii key) = some (word key (decimal v))) :
    fieldNumber (l.text fs) key = v := by
  have hlen : (decimal v).length ≤ 20 := length_decimal_le (by decide) (by omega)
  unfold fieldNumber
  rw [fieldWord_eq hl hclean key hk hne (decimal_ne_nil v) (by omega) hf, strtoul_decimal hv]

theorem fieldFlag_eq (key : String) (b : Bool) (hk : Name (ascii key)) (hne : ascii key ≠ [])
    (hf : fs.find? (fun g => g.key = ascii key) = some (word key (flagWord b))) :
    fieldFlag (l.text fs) key = b := by
  unfold fieldFlag
  rw [fieldWord_eq hl hclean key hk hne (by cases b <;> decide) (by cases b <;> decide) hf]
  cases b <;> decide

end Reading

theorem readFile_eq (f : ScannedFile) : readFile (lineLayout.text (fileFields f)) = f := by
  have hclean := fileFields_clean f
  have hl := lineLayout_proper
  unfold readFile
  rw [fieldText_eq hl hclean "path" f.path (by decide) (by decide) rfl,
    fieldNumber_eq hl hclean "file_size" (by decide) (by decide) f.fileSize.toNat_lt rfl,
    fieldNumber_eq hl hclean "mtime" (by decide) (by decide) f.mtime.toNat_lt rfl,
    UInt64.ofNat_toNat, UInt64.ofNat_toNat]

/-- A drive that can be clicked as a drive with packages can. -/
def Drive.Regular (d : Drive) : Prop := d.clickable = decide (0 < d.pkgCount)

instance (d : Drive) : Decidable (Drive.Regular d) := inferInstanceAs (Decidable (_ = _))

theorem readDrive_eq {d : Drive} (hd : Drive.Regular d) :
    readDrive (lineLayout.text (driveFields d)) = d := by
  have hclean := driveFields_clean d
  have hl := lineLayout_proper
  have hmounted : extractJsonField (lineLayout.text (driveFields d)) "mounted" 64 = flagNumber d.mounted :=
    fieldWord_eq hl hclean "mounted" (by decide) (by decide) (decimal_ne_nil _)
      (by cases d.mounted <;> decide) rfl
  have hatoi : decide (atoi (flagNumber d.mounted) ≠ 0) = d.mounted := by
    cases d.mounted <;> decide
  unfold readDrive
  rw [fieldText_eq hl hclean "id" d.id (by decide) (by decide) rfl,
    fieldText_eq hl hclean "label" d.label (by decide) (by decide) rfl,
    fieldText_eq hl hclean "path" d.path (by decide) (by decide) rfl,
    fieldText_eq hl hclean "type" d.type (by decide) (by decide) rfl, hmounted, hatoi,
    fieldNumber_eq hl hclean "pkg_count" (by decide) (by decide) d.pkgCount.toNat_lt rfl,
    UInt64.ofNat_toNat, ← hd]

theorem total_eq {p : Package} (h : p.totalPkgSize = 0 → p.fileSize = 0) :
    writtenTotal p = p.totalPkgSize := by
  unfold writtenTotal
  by_cases h0 : p.totalPkgSize = 0
  · rw [h0, h h0]
    rfl
  · rw [if_pos (UInt64.pos_iff_ne_zero.mpr h0)]

theorem typeOfCode_decimal (t : PkgType) : typeOfCode (atoi (decimal (typeCode t))) = t := by
  cases t <;> decide

theorem readPackage_eq {p : Package} (h : p.totalPkgSize = 0 → p.fileSize = 0) :
    readPackage (blockLayout.text (packageFields p)) = p := by
  have hclean := packageFields_clean p
  have hl := blockLayout_proper
  have hnumber (key : String) {v : Nat} (hk : Name (ascii key)) (hne : ascii key ≠ [])
      (hv : v < 2 ^ 64)
      (hf : (packageFields p).find? (fun g => g.key = ascii key) = some (word key (decimal v))) :
      fieldNumber (blockLayout.text (packageFields p)) key = v :=
    fieldNumber_eq hl hclean key hk hne hv hf
  have h32 (n : UInt32) : n.toNat < 2 ^ 64 := lt_trans n.toNat_lt (by decide)
  have htotal : extractJsonField (blockLayout.text (packageFields p)) "total_pkg_size" 64 ≠ [] := by
    have hlen : (decimal (writtenTotal p).toNat).length ≤ 20 :=
      length_decimal_le (by decide) (lt_trans (writtenTotal p).toNat_lt (by decide))
    rw [fieldWord_eq hl hclean "total_pkg_size" (by decide) (by decide) (decimal_ne_nil _) (by omega) rfl]
    exact decimal_ne_nil _
  have htype : extractJsonField (blockLayout.text (packageFields p)) "pkg_type" 64 =
      decimal (typeCode p.pkgType) :=
    fieldWord_eq hl hclean "pkg_type" (by decide) (by decide) (decimal_ne_nil _)
      (by cases p.pkgType <;> decide) rfl
  unfold readPackage
  rw [fieldText_eq hl hclean "path" p.path (by decide) (by decide) rfl,
    fieldText_eq hl hclean "filename" p.filename (by decide) (by decide) rfl,
    fieldText_eq hl hclean "title_id" p.titleId (by decide) (by decide) rfl,
    fieldText_eq hl hclean "title_name" p.titleName (by decide) (by decide) rfl,
    fieldText_eq hl hclean "localized_titles" p.localizedTitles (by decide) (by decide) rfl,
    fieldText_eq hl hclean "default_language" p.defaultLanguage (by decide) (by decide) rfl,
    fieldText_eq hl hclean "content_id" p.contentId (by decide) (by decide) rfl,
    fieldText_eq hl hclean "app_version" p.appVersion (by decide) (by decide) rfl,
    fieldText_eq hl hclean "pkg_type_str" p.pkgTypeStr (by decide) (by decide) rfl,
    fieldText_eq hl hclean "category" p.category (by decide) (by decide) rfl,
    fieldText_eq hl hclean "blurhash" p.blurhash (by decide) (by decide) rfl,
    hnumber "file_size" (by decide) (by decide) p.fileSize.toNat_lt rfl, if_pos htotal,
    hnumber "total_pkg_size" (by decide) (by decide) (writtenTotal p).toNat_lt rfl,
    hnumber "icon_offset" (by decide) (by decide) p.iconOffset.toNat_lt rfl,
    hnumber "icon_size" (by decide) (by decide) (h32 p.iconSize) rfl,
    fieldFlag_eq hl hclean "has_icon" p.hasIcon (by decide) (by decide) rfl,
    fieldFlag_eq hl hclean "is_valid" p.isValid (by decide) (by decide) rfl,
    fieldFlag_eq hl hclean "is_multipart" p.isMultipart (by decide) (by decide) rfl,
    hnumber "part_index" (by decide) (by decide) (h32 p.partIndex) rfl,
    hnumber "total_parts" (by decide) (by decide) (h32 p.totalParts) rfl, htype,
    hnumber "mtime" (by decide) (by decide) p.mtime.toNat_lt rfl, total_eq h, typeOfCode_decimal]
  simp only [UInt64.ofNat_toNat, UInt32.ofNat_toNat]

end PkgManager.ManifestRecords
