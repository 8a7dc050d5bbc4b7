import PkgManager.SettingsApi
import PkgManager.SettingsFields

namespace PkgManager.SettingsRoundTrip

open CText ScannerState SmbShare Settings SettingsApi EscapedText SettingsFields ManifestScan
open QuotedText (Bare Name)
open PkgMetadata (Text quoted)
open Manifest (escapeJsonStr extractJsonField fieldText flagWord atoi)

/-! A string on the disk. -/

/-- How `escape_json_str` writes a byte. -/
def diskMarks (c : UInt8) : List Mark :=
  if c = 34 ∨ c = 92 then [.escaped c]
  else if c = 10 then [.escaped 110]
  else if c = 13 then [.escaped 114]
  else if c = 9 then [.escaped 116]
  else if 32 ≤ c then [.plain c]
  else []

def onDisk (s : Text) : List Mark := s.flatMap diskMarks

theorem escapeByte_eq (c : UInt8) : Manifest.escapeByte c = text (diskMarks c) := by
  unfold Manifest.escapeByte diskMarks
  split_ifs <;> rfl

theorem length_diskMarks_le (c : UInt8) : (diskMarks c).length ≤ 1 := by
  unfold diskMarks
  split_ifs <;> simp

theorem diskMarks_proper {c : UInt8} (h0 : c ≠ 0) : ∀ m ∈ diskMarks c, m.Proper := by
  unfold diskMarks
  split_ifs with hq h10 h13 h9 h32
  · rintro m hm
    obtain rfl := List.mem_singleton.mp hm
    exact h0
  · rintro m hm
    obtain rfl := List.mem_singleton.mp hm
    exact (by decide : (110 : UInt8) ≠ 0)
  · rintro m hm
    obtain rfl := List.mem_singleton.mp hm
    exact (by decide : (114 : UInt8) ≠ 0)
  · rintro m hm
    obtain rfl := List.mem_singleton.mp hm
    exact (by decide : (116 : UInt8) ≠ 0)
  · rintro m hm
    obtain rfl := List.mem_singleton.mp hm
    exact ⟨fun h => hq (.inl h), fun h => hq (.inr h), h0⟩
  · exact fun m hm => absurd hm List.not_mem_nil

theorem onDisk_proper {s : Text} (h0 : 0 ∉ s) : ∀ m ∈ onDisk s, m.Proper := by
  intro m hm
  obtain ⟨c, hc, hm⟩ := List.mem_flatMap.mp hm
  exact diskMarks_proper (fun h => h0 (h ▸ hc)) m hm

theorem length_onDisk_le (s : Text) : (onDisk s).length ≤ s.length := by
  induction s with
  | nil => exact le_rfl
  | cons c s ih =>
    have hc := length_diskMarks_le c
    show (diskMarks c ++ onDisk s).length ≤ _
    rw [List.length_append, List.length_cons]
    omega

theorem escapeLoop_eq {dstMax d : Nat} {s : Text} (h0 : 0 ∉ s) (hd : d + 2 * s.length < dstMax) :
    Manifest.escapeLoop dstMax d s = text (onDisk s) := by
  induction s generalizing d with
  | nil => rfl
  | cons c s ih =>
    rw [List.length_cons] at hd
    rw [List.mem_cons, not_or] at h0
    have hlen : (text (diskMarks c)).length ≤ 2 := by
      have hone := length_diskMarks_le c
      have htwo := length_text_le (diskMarks c)
      omega
    rw [Manifest.escapeLoop, if_pos ⟨Ne.symm h0.1, by omega⟩, escapeByte_eq, ih h0.2 (by omega)]
    show text (diskMarks c) ++ text (onDisk s) = text (diskMarks c ++ onDisk s)
    rw [text, text, text, List.flatMap_append]

/-- The string that is read back. -/
def asRead (s : Text) : Text := unescape (onDisk s)

theorem asRead_cons (c : UInt8) (s : Text) : asRead (c :: s) = unescape (diskMarks c) ++ asRead s :=
  List.map_append

theorem unescape_diskMarks_printable (c : UInt8) : ∀ b ∈ unescape (diskMarks c), 32 ≤ b := by
  unfold diskMarks
  split_ifs with hq h10 h13 h9 h32
  · rcases hq with rfl | rfl <;> decide +kernel
  · decide +kernel
  · decide +kernel
  · decide +kernel
  · intro b hb
    exact List.mem_singleton.mp hb ▸ h32
  · exact fun b hb => absurd hb List.not_mem_nil

/-- Only control characters come back changed. -/
theorem asRead_eq_iff (s : Text) : asRead s = s ↔ Printable s := by
  constructor
  · intro h b hb
    rw [← h] at hb
    obtain ⟨m, hm, rfl⟩ := List.mem_map.mp hb
    obtain ⟨c, -, hm⟩ := List.mem_flatMap.mp hm
    exact unescape_diskMarks_printable c _ (List.mem_map_of_mem hm)
  · intro h
    induction s with
    | nil => rfl
    | cons c s ih =>
      have hc := h c List.mem_cons_self
      rw [asRead_cons, ih fun b hb => h b (List.mem_cons_of_mem c hb)]
      have hone : unescape (diskMarks c) = [c] := by
        unfold diskMarks
        split_ifs with hq h10 h13 h9
        · rfl
        · exact absurd (h10 ▸ hc) (by decide)
        · exact absurd (h13 ▸ hc) (by decide)
        · exact absurd (h9 ▸ hc) (by decide)
        · rfl
      rw [hone]
      rfl

theorem length_asRead_le (s : Text) : (asRead s).length ≤ s.length := by
  rw [asRead, unescape, List.length_map]
  exact length_onDisk_le s

theorem zero_not_mem_asRead (s : Text) : 0 ∉ asRead s := by
  intro h
  obtain ⟨m, hm, hb⟩ := List.mem_map.mp h
  obtain ⟨c, -, hm⟩ := List.mem_flatMap.mp hm
  have hle := unescape_diskMarks_printable c _ (List.mem_map_of_mem hm)
  rw [hb] at hle
  exact absurd hle (by decide)

/-- A string of a share as it is read back. -/
def reread {n : Nat} (s : CString n) : CString n where
  text := asRead s.text
  fits := (length_asRead_le s.text).trans_lt s.fits
  noNul := zero_not_mem_asRead s.text

theorem reread_eq_iff {n : Nat} (s : CString n) : reread s = s ↔ Printable s.text := by
  rw [← asRead_eq_iff]
  exact ⟨fun h => congrArg CString.text h, fun h => CString.ext_text h⟩

/-! A port on the disk. -/

theorem isWord_of {w : Text} (hne : w ≠ [])
    (h : ∀ b ∈ w, b ≠ 34 ∧ b ≠ 0 ∧ b ≠ 9 ∧ b ≠ 93 ∧ Manifest.endsWord b = false) : IsWord w :=
  ⟨⟨fun hb => (h _ hb).1 rfl, fun hb => (h _ hb).2.1 rfl⟩, hne, fun b hb => (h b hb).2.2⟩

theorem decimal_word (n : Nat) : ∀ b ∈ decimal n,
    b ≠ 34 ∧ b ≠ 0 ∧ b ≠ 9 ∧ b ≠ 93 ∧ Manifest.endsWord b = false := by
  intro b hb
  have hname := isNameByte_of_isDigit (isDigit_decimal _ b hb)
  have hne (c : UInt8) (hc : QuotedText.isNameByte c = false) : b ≠ c := by
    rintro rfl
    exact absurd (hc.symm.trans hname) Bool.false_ne_true
  exact ⟨hne 34 (by decide), hne 0 (by decide), hne 9 (by decide), hne 93 (by decide),
    endsWord_name hname⟩

theorem decimal_isWord (n : Nat) : IsWord (decimal n) := isWord_of (decimal_ne_nil n) (decimal_word n)

theorem decimalInt_isWord (n : Int32) : IsWord (decimalInt n) := by
  unfold decimalInt
  split
  · refine isWord_of (List.cons_ne_nil _ _) fun b hb => ?_
    rcases List.mem_cons.mp hb with rfl | hb
    · decide
    · exact decimal_word _ b hb
  · exact decimal_isWord _

theorem natAbs_toInt_le (n : Int32) : n.toInt.natAbs ≤ 2 ^ 31 := by
  have hlow := n.le_toInt
  have hhigh := n.toInt_lt
  omega

theorem length_decimalInt_le (n : Int32) : (decimalInt n).length ≤ 11 := by
  have hdigits : (decimal n.toInt.natAbs).length ≤ 10 :=
    length_decimal_le (by decide) ((natAbs_toInt_le n).trans_lt (by decide))
  unfold decimalInt
  split
  · rw [List.length_cons]
    omega
  · omega

/-- What `scanInt` makes of a sign and the digits behind it. -/
theorem scanInt_digits {sign : Text} (hsign : sign = [] ∨ sign = [45]) {k : Nat} (hk : k ≤ 2 ^ 31) :
    scanInt (sign ++ decimal k) = some (Int32.ofInt (if sign = [] then k else -(k : Int)), []) := by
  obtain ⟨hspace, h45, h43, hdigits⟩ := decimal_digits k
  have hend : (decimal k).dropWhile isDigit = [] :=
    List.dropWhile_eq_nil_iff.mpr fun b hb => isDigit_decimal k b hb
  have hmin : min k (2 ^ 63) = k ∧ min k (2 ^ 63 - 1) = k := by omega
  unfold scanInt
  rcases hsign with rfl | rfl
  · simp only [List.nil_append, hspace, h45, h43, hdigits, or_self, if_false, decimal_ne_nil k,
      digitsValue_decimal, hmin.2, hend, if_true]
  · have hfirst : ([45] ++ decimal k).dropWhile isSpace = 45 :: decimal k := rfl
    simp only [hfirst, List.head?_cons, true_or, if_true, List.drop_succ_cons, List.drop_zero, hdigits,
      decimal_ne_nil k, if_false, digitsValue_decimal, hmin.1, hend, List.cons_ne_nil]

theorem atoi_decimalInt (n : Int32) : atoi (decimalInt n) = n := by
  have hk := natAbs_toInt_le n
  unfold decimalInt atoi
  split
  · rename_i hneg
    have hint : n.toInt < 0 := Int32.lt_iff_toInt_lt.mp hneg
    show ((scanInt ([45] ++ decimal n.toInt.natAbs)).map (·.1)).getD 0 = n
    rw [scanInt_digits (.inr rfl) hk, Option.map_some, Option.getD_some, if_neg (List.cons_ne_nil _ _)]
    have hvalue : -(n.toInt.natAbs : Int) = n.toInt := by omega
    rw [hvalue, Int32.ofInt_toInt]
  · rename_i hpos
    have hint : 0 ≤ n.toInt := by
      rw [Int32.lt_iff_toInt_lt] at hpos
      exact Int.not_lt.mp hpos
    show ((scanInt ([] ++ decimal n.toInt.natAbs)).map (·.1)).getD 0 = n
    rw [scanInt_digits (.inl rfl) hk, Option.map_some, Option.getD_some, if_pos rfl]
    have hvalue : (n.toInt.natAbs : Int) = n.toInt := by omega
    rw [hvalue, Int32.ofInt_toInt]

/-! A share on the disk. -/

def shareLayout : Layout := ⟨ascii "\x7b\n      ", ascii ": ", ascii ",\n      ", ascii "\n    \x7d"⟩

theorem shareLayout_proper : shareLayout.Proper where
  opening := by decide
  colon := by decide
  colon58 := rfl
  gap := rfl
  sep := by decide
  sep44 := rfl
  closing := by
    rintro b ⟨⟩
    decide

def strEntry {n : Nat} (key : String) (s : CString n) : Entry := ⟨ascii key, string (onDisk s.text)⟩

def wordEntry (key : String) (w : Text) : Entry := ⟨ascii key, w⟩

def shareEntries (s : ShareConfig) : List Entry := [
  strEntry "id" s.id, strEntry "label" s.label, strEntry "server" s.server,
  wordEntry "port" (decimalInt s.port), strEntry "share" s.share, strEntry "path" s.path,
  strEntry "username" s.username, strEntry "password" s.password, strEntry "workgroup" s.workgroup,
  wordEntry "is_read_only" (flagWord s.isReadOnly), wordEntry "browse_only" (flagWord s.browseOnly),
  wordEntry "enabled" (flagWord s.enabled)]

theorem strLine_eq {n size : Nat} (key : String) (hsize : 2 * n ≤ size + 1) (s : CString n) :
    strLine key size s = (strEntry key s).text (ascii ": ") := by
  have hfits := s.fits
  have hescape : escapeJsonStr size s.text = text (onDisk s.text) :=
    escapeLoop_eq s.noNul (by omega)
  unfold strLine
  rw [hescape]
  simp [strEntry, Entry.text, string, quoted]

theorem wordLine_eq (key : String) (w : Text) : wordLine key w = (wordEntry key w).text (ascii ": ") := by
  simp [wordLine, wordEntry, Entry.text, quoted]

theorem shareText_eq (s : ShareConfig) : shareText s = layoutText shareLayout (shareEntries s) := by
  unfold shareText
  rw [strLine_eq "id" (by decide) s.id, strLine_eq "label" (by decide) s.label,
    strLine_eq "server" (by decide) s.server, strLine_eq "share" (by decide) s.share,
    strLine_eq "path" (by decide) s.path, strLine_eq "username" (by decide) s.username,
    strLine_eq "password" (by decide) s.password, strLine_eq "workgroup" (by decide) s.workgroup,
    wordLine_eq, wordLine_eq, wordLine_eq, wordLine_eq, List.append_assoc]
  rfl

theorem flagWord_isWord (b : Bool) : IsWord (flagWord b) := by
  cases b <;> decide

/-- What holds of the strings and the words of a share holds of its entries. -/
theorem forall_shareEntries {P : Entry → Prop} (s : ShareConfig)
    (hstr : ∀ {n : Nat} (key : String) (t : CString n), Name (ascii key) → P (strEntry key t))
    (hword : ∀ {w : Text} (key : String), Name (ascii key) → IsWord w → P (wordEntry key w)) :
    ∀ e ∈ shareEntries s, P e := by
  intro e he
  simp only [shareEntries, List.mem_cons, List.not_mem_nil, or_false] at he
  rcases he with rfl | rfl | rfl | rfl | rfl | rfl | rfl | rfl | rfl | rfl | rfl | rfl
  · exact hstr "id" s.id (by decide)
  · exact hstr "label" s.label (by decide)
  · exact hstr "server" s.server (by decide)
  · exact hword "port" (by decide) (decimalInt_isWord s.port)
  · exact hstr "share" s.share (by decide)
  · exact hstr "path" s.path (by decide)
  · exact hstr "username" s.username (by decide)
  · exact hstr "password" s.password (by decide)
  · exact hstr "workgroup" s.workgroup (by decide)
  · exact hword "is_read_only" (by decide) (flagWord_isWord s.isReadOnly)
  · exact hword "browse_only" (by decide) (flagWord_isWord s.browseOnly)
  · exact hword "enabled" (by decide) (flagWord_isWord s.enabled)

theorem shareEntries_clean (s : ShareConfig) : ∀ e ∈ shareEntries s, e.Clean :=
  forall_shareEntries s (fun _ t hk => ⟨hk, sealed_string (onDisk_proper t.noNul)⟩)
    fun _ hk hw => ⟨hk, sealed_bare hw.1⟩

/-- Which share a read one is taken as. -/
def accept (s : ShareConfig) (count : Nat) : Option ShareConfig :=
  if s.server.text ≠ [] ∧ (s.share.text ≠ [] ∨ s.server.text.any isSlash) then
    some { s with
      id := if s.id.text = [] then CString.of 32 (ascii "smb" ++ decimal count) else s.id }
  else none

def rereadShare (s : ShareConfig) : ShareConfig where
  enabled := s.enabled
  browseOnly := s.browseOnly
  id := reread s.id
  label := reread s.label
  server := reread s.server
  port := if 0 < s.port then s.port else smbDefaultPort
  share := reread s.share
  path := reread s.path
  username := reread s.username
  password := reread s.password
  workgroup := reread s.workgroup
  isReadOnly := s.isReadOnly

theorem fieldText_entry {n : Nat} [NeZero n] {l : Layout} (hl : l.Proper) {es : List Entry}
    (hclean : ∀ g ∈ es, g.Clean) (key : String) (hk : Name (ascii key)) (hne : ascii key ≠ [])
    (t : CString n) (hfind : es.find? (fun g => g.key = ascii key) = some (strEntry key t)) :
    fieldText (layoutText l es) key n = reread t := by
  have hread := extract_string hl hk hne hclean (onDisk_proper t.noNul) hfind n
  have hlen := length_asRead_le t.text
  have hfits := t.fits
  unfold fieldText
  rw [hread, List.take_of_length_le (by show (asRead t.text).length ≤ _; omega)]
  exact CString.of_text (reread t)

theorem readShare_eq (s : ShareConfig) (count : Nat) :
    readShare (shareText s) count = accept (rereadShare s) count := by
  have hclean := shareEntries_clean s
  have hstr {n : Nat} [NeZero n] (key : String) (hk : Name (ascii key)) (hne : ascii key ≠ [])
      (t : CString n)
      (hfind : (shareEntries s).find? (fun g => g.key = ascii key) = some (strEntry key t)) :
      fieldText (shareText s) key n = reread t := by
    rw [shareText_eq]
    exact fieldText_entry shareLayout_proper hclean key hk hne t hfind
  have hword {w : Text} (key : String) (hk : Name (ascii key)) (hne : ascii key ≠ []) (hw : IsWord w)
      (hlen : w.length < 64)
      (hfind : (shareEntries s).find? (fun g => g.key = ascii key) = some (wordEntry key w)) :
      extractJsonField (shareText s) key 64 = w := by
    rw [shareText_eq]
    exact extract_bare shareLayout_proper hk hne hclean hw hfind hlen
  have hflag (b : Bool) : isTrue (flagWord b) = b ∧ flagWord b ≠ [] ∧ (flagWord b).length < 64 := by
    cases b <;> decide
  have hport := length_decimalInt_le s.port
  unfold readShare
  rw [hstr "id" (by decide) (by decide) s.id rfl, hstr "label" (by decide) (by decide) s.label rfl,
    hstr "server" (by decide) (by decide) s.server rfl,
    hstr "share" (by decide) (by decide) s.share rfl,
    hstr "path" (by decide) (by decide) s.path rfl,
    hstr "username" (by decide) (by decide) s.username rfl,
    hstr "password" (by decide) (by decide) s.password rfl,
    hstr "workgroup" (by decide) (by decide) s.workgroup rfl,
    hword "port" (by decide) (by decide) (decimalInt_isWord s.port) (by omega) rfl,
    hword "is_read_only" (by decide) (by decide) (flagWord_isWord _) (hflag _).2.2 rfl,
    hword "browse_only" (by decide) (by decide) (flagWord_isWord _) (hflag _).2.2 rfl,
    hword "enabled" (by decide) (by decide) (flagWord_isWord _) (hflag _).2.2 rfl]
  simp only [(hflag _).1, decide_eq_false (hflag s.enabled).2.1, Bool.false_or, readPort,
    atoi_decimalInt]
  rfl

/-! The loop over the shares. -/

/-- An object that ends where its closing brace is. -/
def IsItem (o : Text) : Prop := ∃ body, o = 123 :: (body ++ [125]) ∧ Inside (123 :: body)

theorem objEnd_item {o : Text} (h : IsItem o) (rest : Text) :
    objEnd false false (o ++ rest) = some (o.length - 1) := by
  obtain ⟨body, rfl, hbody⟩ := h
  have htext : 123 :: (body ++ [125]) ++ rest = (123 :: body) ++ 125 :: rest := by simp
  rw [htext, hbody, objEnd, if_neg Bool.false_ne_true, if_neg (by simp), if_neg (by decide),
    if_pos (by simp)]
  simp

/-- Nothing in front of an object is taken for one, or for the end of the list. -/
def Gap (t : Text) : Prop := 123 ∉ t ∧ 93 ∉ t ∧ 0 ∉ t

instance (t : Text) : Decidable (Gap t) := inferInstanceAs (Decidable (_ ∧ _ ∧ _))

theorem sharesLoop_end {gap : Text} (hgap : 123 ∉ gap) (fuel : Nat) (shares : List ShareConfig) :
    sharesLoop fuel shares gap = shares := by
  cases fuel with
  | zero => rfl
  | succ fuel =>
    have hnone : strchr 123 gap = none := by
      unfold strchr
      induction gap with
      | nil => rfl
      | cons b gap ih =>
        rw [List.mem_cons, not_or] at hgap
        have hnot : ¬[(123 : UInt8)].isPrefixOf (b :: gap) = true := fun hpre =>
          hgap.1 (List.cons_prefix_cons.mp (List.isPrefixOf_iff_prefix.mp hpre)).1
        rw [strstr, if_neg hnot, ih hgap.2]
        split <;> rfl
    rw [sharesLoop, hnone]
    split <;> rfl

theorem sharesLoop_item {gap o rest : Text} (hgap : Gap gap) (ho : IsItem o) (fuel : Nat)
    (shares : List ShareConfig) :
    sharesLoop (fuel + 1) shares (gap ++ (o ++ rest)) = sharesLoop fuel (takeShare shares o) rest := by
  have hend := objEnd_item ho rest
  obtain ⟨body, hbody, -⟩ := ho
  have hpos : 0 < o.length := by
    rw [hbody]
    exact Nat.succ_pos _
  have hhere : [(123 : UInt8)] <+: o ++ rest := by
    rw [hbody]
    exact ⟨body ++ [125] ++ rest, rfl⟩
  have hfound : strchr 123 (gap ++ (o ++ rest)) = some gap.length := by
    unfold strchr
    rw [QuotedText.strstr_passes (QuotedText.passes_plain [] _ hgap.1) hgap.2.2,
      QuotedText.strstr_here hhere]
    simp
  have hmore : ¬(gap ++ (o ++ rest) = [] ∨ (gap ++ (o ++ rest)).head? = some 93) := by
    rintro (h | h)
    · rw [hbody] at h
      simp at h
    · cases gap with
      | nil =>
        rw [hbody] at h
        exact absurd (Option.some.inj h) (by decide)
      | cons b gap => exact hgap.2.1 (Option.some.inj h ▸ List.mem_cons_self)
  rw [sharesLoop, if_neg hmore, hfound]
  simp only [List.drop_left, hend]
  have hlen : o.length - 1 + 1 = o.length := by omega
  rw [hlen, List.take_left, ← List.drop_drop, List.drop_left, List.drop_left]

def indent : Text := ascii "    "

/-- The loop over the lines of the file. -/
theorem sharesLoop_lines {gap tail : Text} (hgap : Gap gap) (htail : 123 ∉ tail) {objects : List Text}
    (hobjects : ∀ o ∈ objects, IsItem o) {fuel : Nat} (hfuel : objects.length ≤ fuel)
    (shares : List ShareConfig) :
    sharesLoop fuel shares (gap ++ (Manifest.itemLines (objects.map (indent ++ ·)) ++ tail)) =
      objects.foldl takeShare shares := by
  induction objects generalizing gap shares fuel with
  | nil =>
    refine sharesLoop_end ?_ fuel shares
    simp only [List.map_nil, Manifest.itemLines, List.nil_append, List.mem_append, not_or]
    exact ⟨hgap.1, htail⟩
  | cons o objects ih =>
    obtain ⟨fuel, rfl⟩ : ∃ m, fuel = m + 1 := ⟨fuel - 1, by rw [List.length_cons] at hfuel; omega⟩
    rw [List.length_cons] at hfuel
    have ho := hobjects o List.mem_cons_self
    have hmore := fun o' ho' => hobjects o' (List.mem_cons_of_mem o ho')
    have hfront : Gap (gap ++ indent) := by
      refine ⟨?_, ?_, ?_⟩ <;> rw [List.mem_append, not_or]
      · exact ⟨hgap.1, by decide⟩
      · exact ⟨hgap.2.1, by decide⟩
      · exact ⟨hgap.2.2, by decide⟩
    have hsplit : ∃ next, Gap next ∧
        Manifest.itemLines ((o :: objects).map (indent ++ ·)) ++ tail =
          indent ++ (o ++ (next ++ (Manifest.itemLines (objects.map (indent ++ ·)) ++ tail))) := by
      cases objects with
      | nil => exact ⟨ascii "\n", by decide, by simp [Manifest.itemLines]⟩
      | cons o' objects => exact ⟨ascii ",\n", by decide, by simp [Manifest.itemLines]⟩
    obtain ⟨next, hnext, htext⟩ := hsplit
    rw [htext, ← List.append_assoc gap, sharesLoop_item hfront ho, ih hnext hmore (by omega)]
    rfl

theorem isItem_layout {opening closing colon sep : Text} {es : List Entry}
    (hopening : Inside (123 :: opening)) (hclosing : Inside closing) (hcolon : Inside colon)
    (hsep : Inside sep) (hes : ∀ e ∈ es, Name e.key ∧ Inside e.value) :
    IsItem (layoutText ⟨123 :: opening, colon, sep, closing ++ [125]⟩ es) := by
  have hinside := hopening.append ((inside_entries hcolon hsep hes).append hclosing)
  exact ⟨opening ++ (entriesText colon sep es ++ closing), by simp [layoutText], hinside⟩

theorem isItem_share (s : ShareConfig) : IsItem (shareText s) := by
  have hfirst : ascii "\x7b\n      " = 123 :: ascii "\n      " := by decide
  have hlast : ascii "\n    \x7d" = ascii "\n    " ++ [125] := by decide
  rw [shareText_eq, shareLayout, hfirst, hlast]
  exact isItem_layout (inside_bare (by decide +kernel)) (inside_bare (by decide +kernel)) (inside_bare (by decide +kernel))
    (inside_bare (by decide +kernel)) (forall_shareEntries s
      (fun _ t hk => ⟨hk, inside_string (onDisk_proper t.noNul)⟩) fun _ hk hw => ⟨hk, inside_word hw⟩)

/-! The flags in front of the shares. -/

def headText (move fade sources debug : Bool) : Text :=
  ascii "\x7b\n  " ++ wordLine moveKey (flagWord move) ++
    ascii ",\n  " ++ wordLine fadeKey (flagWord fade) ++
    ascii ",\n  " ++ wordLine sourcesKey (flagWord sources) ++
    ascii ",\n  " ++ wordLine debugKey (flagWord debug) ++
    ascii ",\n  " ++ wordLine sharesKey (ascii "[\n")

theorem settingsHead_eq (s : AppSettings) : settingsHead s =
    headText s.moveInstalledToEnd s.fadeInstalledPackages s.allSourcesMode s.pkgInstallDebug := rfl

theorem behindKey_append {t p : Text} {key : String} (h : behindKey t key = some p) (rest : Text) :
    behindKey (t ++ rest) key = some (p ++ rest) := by
  obtain ⟨i, hi, rfl⟩ := Option.map_eq_some_iff.mp h
  have hne : quoted (ascii key) ++ [58] ≠ [] := by simp
  have hle := strstr_le hi
  unfold behindKey
  rw [strstr_append hne rest hi, Option.map_some, List.drop_append_of_le_length hle]

/-- A word is found within the text, whatever stands behind it. -/
theorem wordHere_append {word : String} {p : Text} (hlen : (ascii word).length < p.length) (rest : Text) :
    wordHere word (p ++ rest) = wordHere word p := by
  have hstart {w q : Text} (hw : w.length ≤ q.length) :
      w.isPrefixOf (q ++ rest) = w.isPrefixOf q := by
    rw [Bool.eq_iff_iff, List.isPrefixOf_iff_prefix, List.isPrefixOf_iff_prefix]
    exact ⟨fun h => List.prefix_of_prefix_length_le h (List.prefix_append q rest) hw,
      fun h => h.trans (List.prefix_append q rest)⟩
  unfold wordHere
  rw [List.drop_append_of_le_length (by omega), hstart (by omega),
    hstart (by rw [List.length_drop]; omega)]

/-- What a flag is read as. -/
def flagAt (t : Text) (key word : String) : Option Bool := (behindKey t key).map (wordHere word)

theorem flagAt_append {t : Text} {key word : String} {b : Bool} (h : flagAt t key word = some b)
    (hlen : ∀ p ∈ behindKey t key, (ascii word).length < p.length) (rest : Text) :
    flagAt (t ++ rest) key word = some b := by
  obtain ⟨p, hp, rfl⟩ := Option.map_eq_some_iff.mp h
  unfold flagAt
  rw [behindKey_append hp, Option.map_some, wordHere_append (hlen p hp)]

theorem head_flags : ∀ move fade sources debug, let t := headText move fade sources debug
    (flagAt t moveKey "false" = some (!move) ∧ flagAt t fadeKey "false" = some (!fade) ∧
      flagAt t sourcesKey "true" = some sources ∧ flagAt t debugKey "true" = some debug) ∧
    ∀ key ∈ [moveKey, fadeKey, sourcesKey, debugKey], ∀ p ∈ behindKey t key, 5 < p.length := by
  decide +kernel

/-- What stands behind the bracket of the list. -/
def listAt (t : Text) : Option Text :=
  (strstr (quoted (ascii sharesKey)) t).bind fun i =>
    (strchr 91 (t.drop i)).map fun j => t.drop (i + (j + 1))

theorem parseSmbShares_eq {t p : Text} (h : listAt t = some p) :
    parseSmbShares t = sharesLoop t.length [] p := by
  obtain ⟨i, hi, hp⟩ := Option.bind_eq_some_iff.mp h
  obtain ⟨j, hj, rfl⟩ := Option.map_eq_some_iff.mp hp
  unfold parseSmbShares
  simp only [hi, hj]

theorem head_list : ∀ move fade sources debug,
    listAt (headText move fade sources debug) = some (ascii "\n") := by
  decide +kernel

theorem listAt_append {t p : Text} (h : listAt t = some p) (rest : Text) :
    listAt (t ++ rest) = some (p ++ rest) := by
  obtain ⟨i, hi, hp⟩ := Option.bind_eq_some_iff.mp h
  obtain ⟨j, hj, rfl⟩ := Option.map_eq_some_iff.mp hp
  have hne : quoted (ascii sharesKey) ≠ [] := by simp [quoted]
  have hilen := strstr_le hi
  have hjlen := strstr_le hj
  rw [List.length_drop, List.length_singleton] at hjlen
  have hj' : strchr 91 ((t ++ rest).drop i) = some j := by
    rw [List.drop_append_of_le_length (by omega)]
    exact strstr_append (by simp) rest hj
  unfold listAt
  rw [strstr_append hne rest hi, Option.bind_some, hj', Option.map_some,
    List.drop_append_of_le_length (by omega)]

/-! The file is read whole. -/

theorem length_strLine_le {n : Nat} (key : String) (size : Nat) (hsize : 2 * n ≤ size + 1) (s : CString n) :
    (strLine key size s).length ≤ (ascii key).length + 4 + 2 * n := by
  have hfits := s.fits
  have hescape : escapeJsonStr size s.text = text (onDisk s.text) :=
    escapeLoop_eq s.noNul (by omega)
  have hmarks := length_onDisk_le s.text
  have htext := length_text_le (onDisk s.text)
  have hcolon : (ascii ": ").length = 2 := by decide
  unfold strLine
  rw [hescape]
  simp only [quoted, List.length_append, List.length_singleton, hcolon]
  omega

theorem length_wordLine (key : String) (w : Text) :
    (wordLine key w).length = (ascii key).length + 4 + w.length := by
  have hcolon : (ascii ": ").length = 2 := by decide
  simp only [wordLine, quoted, List.length_append, List.length_singleton, hcolon]
  omega

theorem length_shareText_le (s : ShareConfig) : (shareText s).length ≤ 1857 := by
  have hid := length_strLine_le "id" 128 (by decide) s.id
  have hlabel := length_strLine_le "label" 256 (by decide) s.label
  have hserver := length_strLine_le "server" 256 (by decide) s.server
  have hshare := length_strLine_le "share" 256 (by decide) s.share
  have hpath := length_strLine_le "path" 512 (by decide) s.path
  have husername := length_strLine_le "username" 256 (by decide) s.username
  have hpassword := length_strLine_le "password" 256 (by decide) s.password
  have hworkgroup := length_strLine_le "workgroup" 256 (by decide) s.workgroup
  have hport := length_decimalInt_le s.port
  have hflag (b : Bool) : (flagWord b).length ≤ 5 := by cases b <;> decide
  have hreadOnly := hflag s.isReadOnly
  have hbrowse := hflag s.browseOnly
  have henabled := hflag s.enabled
  have hkeys : (ascii "id").length = 2 ∧ (ascii "label").length = 5 ∧ (ascii "server").length = 6 ∧
      (ascii "port").length = 4 ∧ (ascii "share").length = 5 ∧ (ascii "path").length = 4 ∧
      (ascii "username").length = 8 ∧ (ascii "password").length = 8 ∧
      (ascii "workgroup").length = 9 ∧ (ascii "is_read_only").length = 12 ∧
      (ascii "browse_only").length = 11 ∧ (ascii "enabled").length = 7 := by decide
  have hparts : (ascii "\x7b\n      ").length = 8 ∧ (ascii ",\n      ").length = 8 ∧
      (ascii "\n    \x7d").length = 6 := by decide
  simp only [hkeys] at hid hlabel hserver hshare hpath husername hpassword hworkgroup
  simp only [shareText, List.intercalate_cons_cons, List.intercalate_singleton, List.length_append,
    length_wordLine, hkeys, hparts]
  omega

theorem length_itemLines_le {items : List Text} {k : Nat} (h : ∀ item ∈ items, item.length ≤ k) :
    (Manifest.itemLines items).length ≤ items.length * (k + 2) := by
  induction items with
  | nil => exact Nat.zero_le _
  | cons item items ih =>
    have hitem := h item List.mem_cons_self
    have hmore := ih fun i hi => h i (List.mem_cons_of_mem item hi)
    rw [List.length_cons, Nat.add_one_mul]
    cases items with
    | nil =>
      have hline : (ascii "\n").length = 1 := by decide
      rw [Manifest.itemLines, List.length_append, hline]
      omega
    | cons item' items =>
      have hline : (ascii ",\n").length = 2 := by decide
      rw [Manifest.itemLines, List.length_append, List.length_append, hline]
      · omega
      · exact nofun

theorem length_head_le : ∀ move fade sources debug,
    (headText move fade sources debug).length ≤ 200 ∧ 0 ∉ headText move fade sources debug := by
  decide +kernel

theorem length_saveSettings_le (s : AppSettings) : (saveSettingsToDisk s).length ≤ 16383 := by
  have hhead := (length_head_le s.moveInstalledToEnd s.fadeInstalledPackages s.allSourcesMode
    s.pkgInstallDebug).1
  have hcount := s.shares_le
  have hline : ∀ item ∈ s.smbShares.map (fun share => ascii "    " ++ shareText share),
      item.length ≤ 1861 := by
    intro item hitem
    obtain ⟨share, -, rfl⟩ := List.mem_map.mp hitem
    have hlen := length_shareText_le share
    have hindent : (ascii "    ").length = 4 := by decide
    rw [List.length_append, hindent]
    omega
  have hitems := length_itemLines_le hline
  have htail : (ascii "  ]\n\x7d\n").length = 6 := by decide
  rw [← settingsHead_eq] at hhead
  rw [List.length_map] at hitems
  unfold maxSmbShares at hcount
  simp only [saveSettingsToDisk, List.length_append, htail]
  omega

theorem zero_not_mem_shareText (s : ShareConfig) : 0 ∉ shareText s := by
  rw [shareText_eq]
  unfold layoutText
  rw [List.mem_append, List.mem_append, not_or, not_or]
  exact ⟨by decide, zero_not_mem_entries (by decide) (by decide) (shareEntries_clean s), by decide⟩

theorem zero_not_mem_itemLines {items : List Text} (h : ∀ item ∈ items, 0 ∉ item) :
    0 ∉ Manifest.itemLines items := by
  induction items with
  | nil => exact List.not_mem_nil
  | cons item items ih =>
    have hitem := h item List.mem_cons_self
    have hmore := ih fun i hi => h i (List.mem_cons_of_mem item hi)
    cases items with
    | nil =>
      rw [Manifest.itemLines, List.mem_append, not_or]
      exact ⟨hitem, by decide⟩
    | cons item' items =>
      rw [Manifest.itemLines, List.mem_append, List.mem_append, not_or, not_or]
      · exact ⟨⟨hitem, by decide⟩, hmore⟩
      · exact nofun

theorem zero_not_mem_saveSettings (s : AppSettings) : 0 ∉ saveSettingsToDisk s := by
  have hhead := (length_head_le s.moveInstalledToEnd s.fadeInstalledPackages s.allSourcesMode
    s.pkgInstallDebug).2
  rw [← settingsHead_eq] at hhead
  unfold saveSettingsToDisk
  rw [List.mem_append, List.mem_append, not_or, not_or]
  refine ⟨⟨hhead, zero_not_mem_itemLines fun item hitem => ?_⟩, by decide⟩
  obtain ⟨share, -, rfl⟩ := List.mem_map.mp hitem
  rw [List.mem_append, not_or]
  exact ⟨by decide, zero_not_mem_shareText share⟩

/-! What is loaded. -/

theorem shares_loaded (s : AppSettings) :
    parseSmbShares (saveSettingsToDisk s) = (s.smbShares.map shareText).foldl takeShare [] := by
  have hlist : listAt (saveSettingsToDisk s) = some (ascii "\n" ++
      (Manifest.itemLines ((s.smbShares.map shareText).map (indent ++ ·)) ++ ascii "  ]\n\x7d\n")) := by
    unfold saveSettingsToDisk
    rw [settingsHead_eq, List.append_assoc, listAt_append (head_list _ _ _ _), List.map_map]
    rfl
  have hitems : ∀ o ∈ s.smbShares.map shareText, IsItem o := by
    intro o ho
    obtain ⟨share, -, rfl⟩ := List.mem_map.mp ho
    exact isItem_share share
  have hfuel : (s.smbShares.map shareText).length ≤ (saveSettingsToDisk s).length := by
    have hcount := s.shares_le
    have htail : (ascii "  ]\n\x7d\n").length = 6 := by decide
    have hhead : 2 ≤ (settingsHead s).length := by
      unfold settingsHead wordLine quoted
      simp only [List.length_append, List.length_singleton]
      omega
    unfold maxSmbShares at hcount
    rw [List.length_map]
    simp only [saveSettingsToDisk, List.length_append, htail]
    omega
  rw [parseSmbShares_eq hlist]
  exact sharesLoop_lines (by decide) (by decide) hitems hfuel []

/-- The shares are loaded one by one, the flags as they were. -/
theorem load_save (old s : AppSettings) :
    (loadSettingsFromDisk old (some (saveSettingsToDisk s))).smbShares =
        (s.smbShares.map shareText).foldl takeShare [] ∧
      (loadSettingsFromDisk old (some (saveSettingsToDisk s))).moveInstalledToEnd =
        s.moveInstalledToEnd ∧
      (loadSettingsFromDisk old (some (saveSettingsToDisk s))).fadeInstalledPackages =
        s.fadeInstalledPackages ∧
      (loadSettingsFromDisk old (some (saveSettingsToDisk s))).allSourcesMode = s.allSourcesMode ∧
      (loadSettingsFromDisk old (some (saveSettingsToDisk s))).pkgInstallDebug = s.pkgInstallDebug := by
  have hbuf : upToNul ((saveSettingsToDisk s).take 16383) = saveSettingsToDisk s := by
    rw [List.take_of_length_le (length_saveSettings_le s)]
    exact List.takeWhile_eq_self_iff.mpr fun b hb =>
      decide_eq_true fun h0 => zero_not_mem_saveSettings s (h0 ▸ hb)
  have hne : saveSettingsToDisk s ≠ [] := by
    unfold saveSettingsToDisk settingsHead
    simp only [List.append_assoc]
    exact List.cons_ne_nil _ _
  obtain ⟨⟨hmove, hfade, hsources, hdebug⟩, hlen⟩ := head_flags s.moveInstalledToEnd
    s.fadeInstalledPackages s.allSourcesMode s.pkgInstallDebug
  have hsave : saveSettingsToDisk s = headText s.moveInstalledToEnd s.fadeInstalledPackages
      s.allSourcesMode s.pkgInstallDebug ++ (Manifest.itemLines
        (s.smbShares.map fun share => ascii "    " ++ shareText share) ++ ascii "  ]\n\x7d\n") := by
    rw [saveSettingsToDisk, settingsHead_eq, List.append_assoc]
  have hfalse : (ascii "false").length = 5 := by decide
  have htrue : (ascii "true").length < 5 := by decide
  have hflag {key word : String} {b : Bool} (hmem : key ∈ [moveKey, fadeKey, sourcesKey, debugKey])
      (hword : (ascii word).length ≤ 5)
      (h : flagAt (headText s.moveInstalledToEnd s.fadeInstalledPackages s.allSourcesMode
        s.pkgInstallDebug) key word = some b) : flagAt (saveSettingsToDisk s) key word = some b := by
    rw [hsave]
    exact flagAt_append h (fun p hp => hword.trans_lt (hlen key hmem p hp)) _
  have hoff {key : String} {b : Bool} (h : flagAt (saveSettingsToDisk s) key "false" = some (!b)) :
      (behindKey (saveSettingsToDisk s) key).map (! wordHere "false" ·) = some b := by
    obtain ⟨p, hp, hpb⟩ := Option.map_eq_some_iff.mp h
    rw [hp, Option.map_some, hpb, Bool.not_not]
  have hon {key : String} {b : Bool} (h : flagAt (saveSettingsToDisk s) key "true" = some b) :
      (behindKey (saveSettingsToDisk s) key).map (wordHere "true") = some b := h
  unfold loadSettingsFromDisk
  simp only [hbuf, if_neg hne]
  refine ⟨shares_loaded s, ?_, ?_, ?_, ?_⟩
  · rw [hoff (hflag (by simp) hfalse.le hmove), Option.getD_some]
  · rw [hoff (hflag (by simp) hfalse.le hfade), Option.getD_some]
  · rw [hon (hflag (by simp) htrue.le hsources), Option.getD_some]
  · rw [hon (hflag (by simp) htrue.le hdebug), Option.getD_some]

/-- What a share is like that comes back: no control characters, a name, a server and a
share on it, and a port. -/
structure Restorable (s : ShareConfig) : Prop where
  id : Printable s.id.text
  label : Printable s.label.text
  server : Printable s.server.text
  share : Printable s.share.text
  path : Printable s.path.text
  username : Printable s.username.text
  password : Printable s.password.text
  workgroup : Printable s.workgroup.text
  port : 0 < s.port
  named : s.id.text ≠ []
  placed : s.server.text ≠ [] ∧ (s.share.text ≠ [] ∨ s.server.text.any isSlash = true)

/-- A name that was made up is not one that is lost. -/
theorem named_ne_nil {s : CString 32} {count : Nat}
    (hid : CString.of 32 (ascii "smb" ++ decimal count) = s) : (reread s).text ≠ [] := by
  have hname : QuotedText.Name (ascii "smb" ++ decimal count) := by
    intro b hb
    rcases List.mem_append.mp hb with hb | hb
    · exact (by decide : Name (ascii "smb")) b hb
    · exact isNameByte_of_isDigit (isDigit_decimal count b hb)
  have hwhole : upToNul (ascii "smb" ++ decimal count) = ascii "smb" ++ decimal count :=
    List.takeWhile_eq_self_iff.mpr fun b hb =>
      decide_eq_true fun h0 => hname.not_mem (b := 0) (by decide) (h0 ▸ hb)
  have htext : s.text = (ascii "smb" ++ decimal count).take 31 := by
    rw [← hid]
    show (upToNul _).take 31 = _
    rw [hwhole]
  have hprintable : Printable s.text := by
    intro b hb
    rw [htext] at hb
    have hbyte := hname b (List.mem_of_mem_take hb)
    simp only [QuotedText.isNameByte, isDigit, Bool.or_eq_true, Bool.and_eq_true,
      decide_eq_true_eq] at hbyte
    rcases hbyte with (hb | hb) | rfl
    · exact UInt8.le_trans (by decide) hb.1
    · exact UInt8.le_trans (by decide) hb.1
    · decide
  rw [(reread_eq_iff s).mpr hprintable, htext]
  exact List.cons_ne_nil _ _

theorem readShare_iff (s : ShareConfig) (count : Nat) :
    readShare (shareText s) count = some s ↔ Restorable s := by
  rw [readShare_eq]
  constructor
  · intro h
    unfold accept at h
    split at h
    · rename_i hplaced
      have heq := Option.some.inj h
      have hlabel := (reread_eq_iff s.label).mp (congrArg ShareConfig.label heq)
      have hserver : reread s.server = s.server := congrArg ShareConfig.server heq
      have hshare : reread s.share = s.share := congrArg ShareConfig.share heq
      have hport : (if 0 < s.port then s.port else smbDefaultPort) = s.port :=
        congrArg ShareConfig.port heq
      have hid : (if (reread s.id).text = [] then CString.of 32 (ascii "smb" ++ decimal count)
          else reread s.id) = s.id := congrArg ShareConfig.id heq
      have hname : (reread s.id).text ≠ [] := by
        intro hnil
        rw [if_pos hnil] at hid
        exact named_ne_nil hid hnil
      rw [if_neg hname] at hid
      refine ⟨(reread_eq_iff s.id).mp hid, hlabel, (reread_eq_iff _).mp hserver,
        (reread_eq_iff _).mp hshare, (reread_eq_iff _).mp (congrArg ShareConfig.path heq),
        (reread_eq_iff _).mp (congrArg ShareConfig.username heq),
        (reread_eq_iff _).mp (congrArg ShareConfig.password heq),
        (reread_eq_iff _).mp (congrArg ShareConfig.workgroup heq), ?_, hid ▸ hname, ?_⟩
      · by_contra hnot
        rw [if_neg hnot] at hport
        exact hnot (hport ▸ (by decide))
      · rw [← hserver, ← hshare]
        exact hplaced
    · cases h
  · intro h
    have hsame : rereadShare s = s := by
      unfold rereadShare
      rw [(reread_eq_iff _).mpr h.id, (reread_eq_iff _).mpr h.label, (reread_eq_iff _).mpr h.server,
        (reread_eq_iff _).mpr h.share, (reread_eq_iff _).mpr h.path, (reread_eq_iff _).mpr h.username,
        (reread_eq_iff _).mpr h.password, (reread_eq_iff _).mpr h.workgroup, if_pos h.port]
    rw [hsame, accept, if_pos h.placed, if_neg h.named]

theorem takeShare_cases {shares : List ShareConfig} (h : shares.length < maxSmbShares) (item : Text) :
    (readShare item shares.length = none ∧ takeShare shares item = shares) ∨
      ∃ s, readShare item shares.length = some s ∧ takeShare shares item = shares ++ [s] := by
  unfold takeShare
  rw [if_pos h]
  cases hread : readShare item shares.length with
  | none => exact .inl ⟨rfl, rfl⟩
  | some s => exact .inr ⟨s, rfl, rfl⟩

theorem foldl_takeShare (objects : List Text) (shares : List ShareConfig) :
    shares <+: objects.foldl takeShare shares ∧
      (objects.foldl takeShare shares).length ≤ shares.length + objects.length := by
  induction objects generalizing shares with
  | nil => exact ⟨List.prefix_rfl, le_rfl⟩
  | cons o objects ih =>
    obtain ⟨hbegins, hlen⟩ := ih (takeShare shares o)
    have hone : shares <+: takeShare shares o ∧ (takeShare shares o).length ≤ shares.length + 1 := by
      unfold takeShare
      split
      · split
        · exact ⟨List.prefix_append _ _, by rw [List.length_append, List.length_singleton]⟩
        · exact ⟨List.prefix_rfl, Nat.le_succ _⟩
      · exact ⟨List.prefix_rfl, Nat.le_succ _⟩
    rw [List.foldl_cons, List.length_cons]
    exact ⟨hone.1.trans hbegins, by omega⟩

/-- All shares come back exactly when each of them does, from its own text and by what
is made of a share that was read. -/
theorem foldl_takeShare_iff {item : ShareConfig → Text} {f : ShareConfig → ShareConfig}
    {P : ShareConfig → Prop} (hback : ∀ s count, (readShare (item s) count).map f = some s ↔ P s)
    (shares before : List ShareConfig) (hroom : before.length + shares.length ≤ maxSmbShares) :
    ((shares.map item).foldl takeShare before).map f = before.map f ++ shares ↔ ∀ s ∈ shares, P s := by
  induction shares generalizing before with
  | nil => simp
  | cons s shares ih =>
    rw [List.length_cons] at hroom
    rw [List.map_cons, List.foldl_cons, List.forall_mem_cons]
    rcases takeShare_cases (by omega : before.length < maxSmbShares) (item s) with
      ⟨hread, htake⟩ | ⟨s', hread, htake⟩
    · rw [htake]
      constructor
      · intro h
        have hlen := (foldl_takeShare (shares.map item) before).2
        have hsame := congrArg List.length h
        rw [List.length_map, List.length_append, List.length_cons, List.length_map] at hsame
        rw [List.length_map] at hlen
        omega
      · rintro ⟨hs, -⟩
        have hmap := (hback s before.length).mpr hs
        rw [hread] at hmap
        cases hmap
    · have hnext : (before ++ [s']).length + shares.length ≤ maxSmbShares := by
        rw [List.length_append, List.length_singleton]
        omega
      have hsplit : before.map f ++ s :: shares = (before.map f ++ [s]) ++ shares := by simp
      rw [htake, ← hback s before.length, hread, Option.map_some]
      constructor
      · intro h
        obtain ⟨more, hmore⟩ := (foldl_takeShare (shares.map item) (before ++ [s'])).1
        rw [← hmore, List.map_append, List.map_append, List.append_assoc] at h
        have hhead := List.append_cancel_left h
        obtain hs : f s' = s := (List.cons.inj hhead).1
        have htail : more.map f = shares := (List.cons.inj hhead).2
        have hrest : ((shares.map item).foldl takeShare (before ++ [s'])).map f =
            (before ++ [s']).map f ++ shares := by
          rw [← hmore, List.map_append, htail]
        exact ⟨congrArg some hs, (ih _ hnext).mp hrest⟩
      · rintro ⟨hs, hmore⟩
        have hrest := (ih _ hnext).mpr hmore
        rw [hrest, List.map_append, List.map_singleton, Option.some.inj hs, hsplit]

/-- The settings come back from the file exactly when each share does. -/
theorem settings_round_trip (old s : AppSettings) :
    loadSettingsFromDisk old (some (saveSettingsToDisk s)) = s ↔
      ∀ share ∈ s.smbShares, Restorable share := by
  obtain ⟨hshares, hmove, hfade, hsources, hdebug⟩ := load_save old s
  have hiff := foldl_takeShare_iff (f := id) (fun s count => by rw [Option.map_id, id, readShare_iff])
    s.smbShares [] (by simpa using s.shares_le)
  rw [← hshares, List.map_id, List.map_nil, List.nil_append] at hiff
  rw [← hiff]
  constructor
  · exact fun h => congrArg AppSettings.smbShares h
  · intro h
    generalize loadSettingsFromDisk old (some (saveSettingsToDisk s)) = r at hmove hfade hsources hdebug h
    cases r
    cases s
    simp only at hmove hfade hsources hdebug h
    subst hmove hfade hsources hdebug h
    rfl

/-- A request whose share has a newline in its label. -/
def newlineBody : Text :=
  ascii "\x7b\"smb_shares\":[\x7b\"server\":\"nas\",\"share\":\"pkgs\",\"label\":\"a\nb\"\x7d]\x7d"

/-- The newline is written as an escape that is read as a letter. -/
theorem settings_round_trip_fails : ¬∀ data old,
    loadSettingsFromDisk old (some (saveSettingsToDisk (postSettings data .initial))) =
      postSettings data .initial := by
  intro hall
  have hlabels := congrArg (fun s => s.smbShares.map (·.label.text)) (hall (some newlineBody) .initial)
  have hstored : (postSettings (some newlineBody) .initial).smbShares.map (·.label.text) =
      [ascii "a\nb"] := by decide +kernel
  have hloaded : (loadSettingsFromDisk .initial (some (saveSettingsToDisk
      (postSettings (some newlineBody) .initial)))).smbShares.map (·.label.text) = [ascii "anb"] := by
    decide +kernel
  rw [hloaded, hstored] at hlabels
  exact absurd hlabels (by decide)

end PkgManager.SettingsRoundTrip
