import PkgManager.LocalizedTitles
import PkgManager.SettingsRoundTrip

namespace PkgManager.SettingsAnswer

open CText ScannerState SmbShare Settings SettingsApi EscapedText SettingsFields ManifestScan
open JsonText (Json Body IsJson Writes)
open PkgMetadata (Text quoted escapeTitle)
open QuotedText (Name)
open Manifest (extractJsonField fieldText flagWord atoi)
open SettingsRoundTrip (accept)

/-! A string of the answer. -/

/-- How `json_str_esc` writes a byte. -/
def pageMarks (c : UInt8) : List Mark :=
  if c = 34 ∨ c = 92 then [.escaped c]
  else if c = 10 then [.escaped 110]
  else if c = 13 then [.escaped 114]
  else if c = 9 then [.escaped 116]
  else if c < 32 then
    [.escaped 117, .plain 48, .plain 48, .plain (hexDigit (c.toNat / 16)), .plain (hexDigit (c.toNat % 16))]
  else [.plain c]

/-- What the loop writes, with `d` bytes of the buffer written. -/
def written (size : Nat) : Nat → Text → List Mark
  | _, [] => []
  | d, c :: s =>
    if c ≠ 0 ∧ d + 6 < size then pageMarks c ++ written size (d + (escapeByte c).length) s else []

theorem escapeByte_eq (c : UInt8) : escapeByte c = text (pageMarks c) := by
  unfold escapeByte pageMarks
  split_ifs <;> rfl

theorem escapeLoop_eq (size d : Nat) (s : Text) : escapeLoop size d s = text (written size d s) := by
  induction s generalizing d with
  | nil => rfl
  | cons c s ih =>
    rw [escapeLoop, written]
    split
    · rw [escapeByte_eq, ih, text, text, text, List.flatMap_append]
    · rfl

theorem hexDigit_plain {n : Nat} (h : n < 16) :
    (Mark.plain (hexDigit n)).Proper ∧ 32 ≤ hexDigit n := by
  have hdigits : ∀ n < 16, (hexDigit n ≠ 34 ∧ hexDigit n ≠ 92 ∧ hexDigit n ≠ 0) ∧ 32 ≤ hexDigit n := by
    decide
  exact hdigits n h

/-- No byte is lost, and none of those that are read is a control character. -/
structure Readable (ms : List Mark) : Prop where
  proper : ∀ m ∈ ms, m.Proper
  printable : ∀ m ∈ ms, 32 ≤ m.byte

theorem readable_pageMarks {c : UInt8} (h0 : c ≠ 0) : Readable (pageMarks c) := by
  unfold pageMarks
  split_ifs with hq h10 h13 h9 h32
  · refine ⟨List.forall_mem_singleton.mpr h0, List.forall_mem_singleton.mpr ?_⟩
    rcases hq with rfl | rfl <;> decide
  · exact ⟨List.forall_mem_singleton.mpr (by decide : (110 : UInt8) ≠ 0),
      List.forall_mem_singleton.mpr (by decide)⟩
  · exact ⟨List.forall_mem_singleton.mpr (by decide : (114 : UInt8) ≠ 0),
      List.forall_mem_singleton.mpr (by decide)⟩
  · exact ⟨List.forall_mem_singleton.mpr (by decide : (116 : UInt8) ≠ 0),
      List.forall_mem_singleton.mpr (by decide)⟩
  · have hlt : c.toNat < 32 := UInt8.lt_iff_toNat_lt.mp h32
    have hhigh := hexDigit_plain (by omega : c.toNat / 16 < 16)
    have hlow := hexDigit_plain (by omega : c.toNat % 16 < 16)
    have hu : (Mark.escaped 117).Proper := (by decide : (117 : UInt8) ≠ 0)
    have hzero : (Mark.plain 48).Proper := ⟨by decide, by decide, by decide⟩
    exact ⟨by simp [hhigh.1, hlow.1, hu, hzero], by simp [Mark.byte, hhigh.2, hlow.2]⟩
  · exact ⟨List.forall_mem_singleton.mpr ⟨fun h => hq (.inl h), fun h => hq (.inr h), h0⟩,
      List.forall_mem_singleton.mpr (UInt8.not_lt.mp h32)⟩

theorem pageMarks_ne_nil (c : UInt8) : pageMarks c ≠ [] := by
  unfold pageMarks
  split_ifs <;> exact List.cons_ne_nil _ _

theorem readable_written (size d : Nat) (s : Text) : Readable (written size d s) := by
  induction s generalizing d with
  | nil => exact ⟨nofun, nofun⟩
  | cons c s ih =>
    rw [written]
    split
    · rename_i h
      have hone := readable_pageMarks h.1
      have hmore := ih (d + (escapeByte c).length)
      exact ⟨List.forall_mem_append.mpr ⟨hone.proper, hmore.proper⟩,
        List.forall_mem_append.mpr ⟨hone.printable, hmore.printable⟩⟩
    · exact ⟨nofun, nofun⟩

/-- The string that is read back. -/
def asRead (size : Nat) (s : Text) : Text := unescape (written size 0 s)

theorem asRead_printable (size : Nat) (s : Text) : Printable (asRead size s) := by
  intro b hb
  obtain ⟨m, hm, rfl⟩ := List.mem_map.mp hb
  exact (readable_written size 0 s).printable m hm

/-- The room a string takes between quotes. -/
def room (t : Text) : Nat := t.length + t.countP fun b => b = 34 || b = 92

/-- No control character, and a buffer of `size` bytes takes it whole: six bytes are
left in it where the last one is written. -/
def Whole (size : Nat) (t : Text) : Prop := Printable t ∧ (t = [] ∨ room t.dropLast + 6 < size)

theorem room_cons (c : UInt8) (t : Text) :
    room (c :: t) = (if c = 34 ∨ c = 92 then 2 else 1) + room t := by
  unfold room
  rw [List.countP_cons, List.length_cons]
  by_cases hc : c = 34 ∨ c = 92
  · have hb : (decide (c = 34) || decide (c = 92)) = true := by simpa using hc
    rw [if_pos hc, if_pos hb]
    omega
  · have hb : ¬(decide (c = 34) || decide (c = 92)) = true := by simpa using hc
    rw [if_neg hc, if_neg hb]
    omega

theorem pageMarks_printable {c : UInt8} (h : 32 ≤ c) :
    unescape (pageMarks c) = [c] ∧ (escapeByte c).length = (if c = 34 ∨ c = 92 then 2 else 1) := by
  have h10 : c ≠ 10 := fun h10 => absurd (h10 ▸ h) (by decide)
  have h13 : c ≠ 13 := fun h13 => absurd (h13 ▸ h) (by decide)
  have h9 : c ≠ 9 := fun h9 => absurd (h9 ▸ h) (by decide)
  unfold pageMarks escapeByte
  by_cases hq : c = 34 ∨ c = 92
  · simp only [if_pos hq]
    exact ⟨rfl, rfl⟩
  · simp only [if_neg hq, if_neg h10, if_neg h13, if_neg h9, if_neg (UInt8.not_lt.mpr h)]
    exact ⟨rfl, rfl⟩

/-- What is read of a string without control characters is how it begins. -/
theorem unescape_written {s : Text} (hs : Printable s) (size d : Nat) :
    unescape (written size d s) <+: s ∧
      (unescape (written size d s) = s ↔ s = [] ∨ d + room s.dropLast + 6 < size) := by
  induction s generalizing d with
  | nil => exact ⟨List.prefix_rfl, iff_of_true rfl (.inl rfl)⟩
  | cons c s ih =>
    have hc := hs c List.mem_cons_self
    have h0 : c ≠ 0 := fun h0 => absurd (h0 ▸ hc) (by decide)
    obtain ⟨hone, hlen⟩ := pageMarks_printable hc
    obtain ⟨hbegins, hwhole⟩ :=
      ih (fun b hb => hs b (List.mem_cons_of_mem c hb)) (d + (escapeByte c).length)
    have hdrop : room (c :: s).dropLast = if s = [] then 0 else
        (escapeByte c).length + room s.dropLast := by
      cases s with
      | nil => rfl
      | cons c' s =>
        rw [List.dropLast_cons_of_ne_nil (List.cons_ne_nil c' s), room_cons, hlen,
          if_neg (List.cons_ne_nil c' s)]
    rw [written, hdrop]
    by_cases hroom : d + 6 < size
    · have hstep : unescape (pageMarks c ++ written size (d + (escapeByte c).length) s) =
          c :: unescape (written size (d + (escapeByte c).length) s) := by
        rw [unescape, List.map_append]
        show unescape (pageMarks c) ++ _ = _
        rw [hone]
        rfl
      rw [if_pos ⟨h0, hroom⟩, hstep]
      refine ⟨List.cons_prefix_cons.mpr ⟨rfl, hbegins⟩, ?_⟩
      rw [List.cons.injEq, hwhole]
      by_cases hnil : s = []
      · simp [hnil, hroom]
      · simp only [hnil, if_false, false_or, List.cons_ne_nil, true_and]
        omega
    · rw [if_neg fun h => hroom h.2]
      refine ⟨List.nil_prefix, iff_of_false (List.cons_ne_nil c s).symm ?_⟩
      rintro (h | h)
      · cases h
      · omega

theorem asRead_eq_iff {s : Text} (hs : Printable s) (size : Nat) : asRead size s = s ↔ Whole size s := by
  have hiff := (unescape_written hs size 0).2
  rw [Nat.zero_add] at hiff
  rw [asRead, hiff]
  exact ⟨fun h => ⟨hs, h⟩, fun h => h.2⟩

theorem asRead_ne_nil {size : Nat} (hsize : 6 < size) {s : Text} (h0 : 0 ∉ s) (hne : s ≠ []) :
    asRead size s ≠ [] := by
  cases s with
  | nil => exact absurd rfl hne
  | cons c s =>
    rw [List.mem_cons, not_or] at h0
    rw [asRead, written, if_pos ⟨Ne.symm h0.1, by omega⟩, unescape, ne_eq, List.map_eq_nil_iff,
      List.append_eq_nil_iff]
    exact fun h => pageMarks_ne_nil c h.1

/-- A string of a share as it is read back. -/
def reread {n : Nat} [NeZero n] (size : Nat) (s : CString n) : CString n := CString.of n (asRead size s.text)

section Reread

variable {n : Nat} [NeZero n] {size : Nat} {s : CString n}

theorem reread_text (size : Nat) (s : CString n) :
    (reread size s).text = (asRead size s.text).take (n - 1) := by
  have hall : upToNul (asRead size s.text) = asRead size s.text := by
    refine List.takeWhile_eq_self_iff.mpr fun b hb => decide_eq_true fun h0 => ?_
    exact absurd (h0 ▸ asRead_printable size s.text b hb) (by decide)
  show (upToNul (asRead size s.text)).take (n - 1) = _
  rw [hall]

theorem reread_printable (size : Nat) (s : CString n) : Printable (reread size s).text := by
  intro b hb
  rw [reread_text] at hb
  exact asRead_printable size s.text b (List.mem_of_mem_take hb)

theorem reread_whole (h : Whole size s.text) : reread size s = s := by
  rw [reread, (asRead_eq_iff h.1 size).mpr h]
  exact CString.of_text s

/-- What comes back as long as it was is what it was. -/
theorem whole_of_le (hs : Printable s.text) (hlen : s.text.length ≤ (reread size s).text.length) :
    Whole size s.text := by
  have hbegins : (asRead size s.text) <+: s.text := (unescape_written hs size 0).1
  refine (asRead_eq_iff hs size).mp (hbegins.eq_of_length (le_antisymm hbegins.length_le ?_))
  rw [reread_text, List.length_take] at hlen
  omega

theorem whole_of_sublist (h : s.text.Sublist (reread size s).text) : Whole size s.text :=
  whole_of_le (fun b hb => reread_printable size s b (h.subset hb)) h.length_le

theorem reread_ne_nil (hsize : 6 < size) (hn : 1 < n) (hne : s.text ≠ []) : (reread size s).text ≠ [] := by
  have hread := asRead_ne_nil hsize s.noNul hne
  rw [reread_text, ne_eq, List.take_eq_nil_iff, not_or]
  exact ⟨by omega, hread⟩

end Reread

/-! A share of the answer. -/

def answerLayout : Layout := ⟨ascii "\x7b", ascii ":", ascii ",", ascii "\x7d"⟩

theorem answerLayout_proper : answerLayout.Proper where
  opening := by decide
  colon := by decide
  colon58 := rfl
  gap := rfl
  sep := by decide
  sep44 := rfl
  closing := by
    rintro b ⟨⟩
    decide

def strEntry {n : Nat} (key : String) (size : Nat) (s : CString n) : Entry :=
  ⟨ascii key, string (written size 0 s.text)⟩

def wordEntry (key : String) (w : Text) : Entry := ⟨ascii key, w⟩

def answerEntries (s : ShareConfig) : List Entry := [
  strEntry "id" 64 s.id, strEntry "label" 128 s.label, strEntry "server" 256 s.server,
  wordEntry "port" (decimalInt s.port), strEntry "share" 256 s.share, strEntry "path" 512 s.path,
  strEntry "username" 128 s.username, wordEntry "password" (string []),
  wordEntry "has_password" (flagWord (s.password.text ≠ [])), strEntry "workgroup" 128 s.workgroup,
  wordEntry "is_read_only" (flagWord s.isReadOnly), wordEntry "browse_only" (flagWord s.browseOnly),
  wordEntry "enabled" (flagWord s.enabled)]

theorem strField_eq {n : Nat} (key : String) (size : Nat) (s : CString n) :
    strField key size s = (strEntry key size s).text (ascii ":") := by
  have hcolon : ascii ":" = [58] := by decide
  unfold strField jsonStrEsc
  rw [escapeLoop_eq, hcolon]
  simp [strEntry, Entry.text, string, quoted]

theorem wordField_eq (key : String) (w : Text) : wordField key w = (wordEntry key w).text (ascii ":") := by
  have hcolon : ascii ":" = [58] := by decide
  simp [wordField, wordEntry, Entry.text, quoted, hcolon]

theorem shareJson_eq (s : ShareConfig) : shareJson s = layoutText answerLayout (answerEntries s) := by
  unfold shareJson
  simp only [strField_eq, wordField_eq, List.append_assoc]
  rfl

/-- What holds of the strings and the words of a share holds of its entries. -/
theorem forall_answerEntries {P : Entry → Prop} (s : ShareConfig)
    (hstr : ∀ (key : String) {ms : List Mark}, Name (ascii key) → (∀ m ∈ ms, m.Proper) →
      P ⟨ascii key, string ms⟩)
    (hword : ∀ (key : String) {w : Text}, Name (ascii key) → IsWord w → P ⟨ascii key, w⟩) :
    ∀ e ∈ answerEntries s, P e := by
  have hproper {n : Nat} (size : Nat) (t : CString n) := (readable_written size 0 t.text).proper
  intro e he
  simp only [answerEntries, List.mem_cons, List.not_mem_nil, or_false] at he
  rcases he with rfl | rfl | rfl | rfl | rfl | rfl | rfl | rfl | rfl | rfl | rfl | rfl | rfl
  · exact hstr "id" (by decide) (hproper 64 s.id)
  · exact hstr "label" (by decide) (hproper 128 s.label)
  · exact hstr "server" (by decide) (hproper 256 s.server)
  · exact hword "port" (by decide) (SettingsRoundTrip.decimalInt_isWord s.port)
  · exact hstr "share" (by decide) (hproper 256 s.share)
  · exact hstr "path" (by decide) (hproper 512 s.path)
  · exact hstr "username" (by decide) (hproper 128 s.username)
  · exact hstr "password" (by decide) nofun
  · exact hword "has_password" (by decide) (SettingsRoundTrip.flagWord_isWord _)
  · exact hstr "workgroup" (by decide) (hproper 128 s.workgroup)
  · exact hword "is_read_only" (by decide) (SettingsRoundTrip.flagWord_isWord s.isReadOnly)
  · exact hword "browse_only" (by decide) (SettingsRoundTrip.flagWord_isWord s.browseOnly)
  · exact hword "enabled" (by decide) (SettingsRoundTrip.flagWord_isWord s.enabled)

theorem answerEntries_clean (s : ShareConfig) : ∀ e ∈ answerEntries s, e.Clean :=
  forall_answerEntries s (fun _ _ hk hms => ⟨hk, sealed_string hms⟩)
    fun _ _ hk hw => ⟨hk, sealed_bare hw.1⟩

/-- The share that is read of it. -/
def answerShare (s : ShareConfig) : ShareConfig where
  enabled := s.enabled
  browseOnly := s.browseOnly
  id := reread 64 s.id
  label := reread 128 s.label
  server := reread 256 s.server
  port := if 0 < s.port then s.port else smbDefaultPort
  share := reread 256 s.share
  path := reread 512 s.path
  username := reread 128 s.username
  password := CString.of 64 []
  workgroup := reread 128 s.workgroup
  isReadOnly := s.isReadOnly

theorem readShare_answer (s : ShareConfig) (count : Nat) :
    readShare (shareJson s) count = accept (answerShare s) count := by
  have hclean := answerEntries_clean s
  have htext {n : Nat} [NeZero n] (key : String) (ms : List Mark) (hk : Name (ascii key))
      (hne : ascii key ≠ []) (hms : ∀ m ∈ ms, m.Proper)
      (hfind : (answerEntries s).find? (fun g => g.key = ascii key) = some ⟨ascii key, string ms⟩) :
      fieldText (shareJson s) key n = CString.of n (unescape ms) := by
    have hread := extract_string answerLayout_proper hk hne hclean hms hfind n
    unfold fieldText
    rw [shareJson_eq, hread]
    refine CString.ext_text ?_
    show (upToNul _).take (n - 1) = (upToNul _).take (n - 1)
    unfold upToNul
    rw [← List.take_takeWhile, List.take_take, Nat.min_self]
  have hstr {n : Nat} [NeZero n] (key : String) (size : Nat) (t : CString n) (hk : Name (ascii key))
      (hne : ascii key ≠ [])
      (hfind : (answerEntries s).find? (fun g => g.key = ascii key) = some (strEntry key size t)) :
      fieldText (shareJson s) key n = reread size t :=
    htext key _ hk hne (readable_written size 0 t.text).proper hfind
  have hword {w : Text} (key : String) (hk : Name (ascii key)) (hne : ascii key ≠ []) (hw : IsWord w)
      (hlen : w.length < 64)
      (hfind : (answerEntries s).find? (fun g => g.key = ascii key) = some (wordEntry key w)) :
      extractJsonField (shareJson s) key 64 = w := by
    rw [shareJson_eq]
    exact extract_bare answerLayout_proper hk hne hclean hw hfind hlen
  have hflag (b : Bool) : isTrue (flagWord b) = b ∧ flagWord b ≠ [] ∧ (flagWord b).length < 64 := by
    cases b <;> decide
  have hport := SettingsRoundTrip.length_decimalInt_le s.port
  have hisWord := SettingsRoundTrip.flagWord_isWord
  unfold readShare
  rw [hstr "id" 64 s.id (by decide) (by decide) rfl, hstr "label" 128 s.label (by decide) (by decide) rfl,
    hstr "server" 256 s.server (by decide) (by decide) rfl,
    hstr "share" 256 s.share (by decide) (by decide) rfl,
    hstr "path" 512 s.path (by decide) (by decide) rfl,
    hstr "username" 128 s.username (by decide) (by decide) rfl,
    htext "password" [] (by decide) (by decide) nofun rfl,
    hstr "workgroup" 128 s.workgroup (by decide) (by decide) rfl,
    hword "port" (by decide) (by decide) (SettingsRoundTrip.decimalInt_isWord s.port) (by omega) rfl,
    hword "is_read_only" (by decide) (by decide) (hisWord _) (hflag _).2.2 rfl,
    hword "browse_only" (by decide) (by decide) (hisWord _) (hflag _).2.2 rfl,
    hword "enabled" (by decide) (by decide) (hisWord _) (hflag _).2.2 rfl]
  simp only [(hflag _).1, decide_eq_false (hflag s.enabled).2.1, Bool.false_or, readPort,
    SettingsRoundTrip.atoi_decimalInt]
  rfl

/-! The share as JSON. -/

/-- A string that is read back whole was written whole. -/
theorem text_written {s : Text} (hs : Printable s) {size d : Nat} (h : unescape (written size d s) = s) :
    text (written size d s) = escapeTitle s := by
  induction s generalizing d with
  | nil => rfl
  | cons c s ih =>
    have hc := hs c List.mem_cons_self
    rw [written] at h ⊢
    split at h
    · rename_i hroom
      rw [unescape, List.map_append] at h
      have hone : (pageMarks c).map Mark.byte = [c] := (pageMarks_printable hc).1
      rw [hone] at h
      have hrest := ih (fun b hb => hs b (List.mem_cons_of_mem c hb)) (List.cons.inj h).2
      have h10 : c ≠ 10 := fun h10 => absurd (h10 ▸ hc) (by decide)
      have h13 : c ≠ 13 := fun h13 => absurd (h13 ▸ hc) (by decide)
      have h9 : c ≠ 9 := fun h9 => absurd (h9 ▸ hc) (by decide)
      have hbyte : text (pageMarks c) = if c = 34 ∨ c = 92 then [92, c] else [c] := by
        rw [← escapeByte_eq, escapeByte, if_neg h10, if_neg h13, if_neg h9,
          if_neg (UInt8.not_lt.mpr hc)]
      rw [if_pos hroom, text, List.flatMap_append, escapeTitle, List.flatMap_cons]
      show text (pageMarks c) ++ text (written size _ s) = _ ++ escapeTitle s
      rw [hbyte, hrest]
    · cases h

theorem jsonStrEsc_whole {size : Nat} {t : Text} (h : Whole size t) : jsonStrEsc size t = escapeTitle t := by
  rw [jsonStrEsc, escapeLoop_eq, text_written h.1 ((asRead_eq_iff h.1 size).mpr h)]

theorem length_escapeTitle (t : Text) : (escapeTitle t).length = room t := by
  induction t with
  | nil => rfl
  | cons c t ih =>
    rw [room_cons, ← ih, escapeTitle, List.flatMap_cons, List.length_append]
    split <;> rfl

theorem body_name {k : Text} (hk : Name k) : Body k k := by
  induction k with
  | nil => exact .nil
  | cons c k ih =>
    have hplain := hk.plain c List.mem_cons_self
    have hc : 32 ≤ c := by
      by_contra hlt
      have hname := hk c List.mem_cons_self
      simp only [QuotedText.isNameByte, isDigit, Bool.or_eq_true, Bool.and_eq_true,
        decide_eq_true_eq] at hname
      rcases hname with (hb | hb) | rfl
      · exact hlt (UInt8.le_trans (by decide) hb.1)
      · exact hlt (UInt8.le_trans (by decide) hb.1)
      · exact hlt (by decide)
    exact .plain c hc hplain.1 hplain.2 (ih fun b hb => hk b (List.mem_cons_of_mem c hb))

/-- A number does not begin with a zero. -/
theorem decimal_isInteger (n : Nat) : JsonText.IsInteger (decimal n) := by
  have hhead : ∀ n, 0 < n → (decimal n).head? ≠ some 48 := by
    intro n
    induction n using Nat.strong_induction_on with
    | _ n ih =>
      intro hpos
      by_cases hn : n < 10
      · have hdigit : ∀ n < 10, 0 < n → (decimal n).head? ≠ some 48 := by decide
        exact hdigit n hn hpos
      · have hfront := ih (n / 10) (by omega) (by omega)
        have hne := decimal_ne_nil (n / 10)
        have hsplit : decimal n = decimal (n / 10) ++ [UInt8.ofNat (n % 10).digitChar.toNat] := by
          unfold decimal
          rw [Nat.toDigits_of_base_le (by decide) (Nat.not_lt.mp hn), List.map_append, List.map_singleton]
        rw [hsplit, List.head?_append_of_ne_nil _ hne]
        exact hfront
  by_cases h0 : n = 0
  · subst h0
    exact .inl (by decide)
  · exact .inr ⟨decimal_ne_nil n, hhead n (by omega), isDigit_decimal n⟩

theorem decimalInt_isNumber (n : Int32) : JsonText.IsNumber (decimalInt n) := by
  have hint := decimal_isInteger n.toInt.natAbs
  unfold decimalInt
  split
  · exact ⟨[45], _, [], [], by simp, .inr rfl, hint, .inl rfl, .inl rfl⟩
  · exact ⟨[], _, [], [], by simp, .inl rfl, hint, .inl rfl, .inl rfl⟩

/-- What the page reads of a share. -/
def shareValue (s : ShareConfig) : Json := .object [
  (ascii "id", .string s.id.text),
  (ascii "label", .string s.label.text),
  (ascii "server", .string s.server.text),
  (ascii "port", .number (decimalInt s.port)),
  (ascii "share", .string s.share.text),
  (ascii "path", .string s.path.text),
  (ascii "username", .string s.username.text),
  (ascii "password", .string []),
  (ascii "has_password", .bool (s.password.text ≠ [])),
  (ascii "workgroup", .string s.workgroup.text),
  (ascii "is_read_only", .bool s.isReadOnly),
  (ascii "browse_only", .bool s.browseOnly),
  (ascii "enabled", .bool s.enabled)]

/-- A member of an object with its text. -/
def IsMember (m : Text × Json) (t : Text) : Prop :=
  ∃ k v, t = JsonText.quoted k ++ 58 :: v ∧ Body m.1 k ∧ Writes (.value m.2) v

theorem isMember_word (key : String) {w : Text} {v : Json} (hk : Name (ascii key))
    (hw : Writes (.value v) w) : IsMember (ascii key, v) (wordField key w) :=
  ⟨ascii key, w, by simp [wordField, quoted, JsonText.quoted], body_name hk, hw⟩

theorem isMember_string {n : Nat} (key : String) {size : Nat} {s : CString n} (hk : Name (ascii key))
    (hs : Whole size s.text) : IsMember (ascii key, .string s.text) (strField key size s) := by
  refine ⟨ascii key, JsonText.quoted (escapeTitle s.text), ?_, body_name hk,
    .string (LocalizedTitles.body_escapeTitle hs.1)⟩
  rw [strField, jsonStrEsc_whole hs]
  simp [quoted, JsonText.quoted]

theorem writes_flag (b : Bool) : Writes (.value (.bool b)) (flagWord b) := by
  cases b
  · exact .false
  · exact .true

/-- The answer holds the texts of the share whole. -/
structure Held (s : ShareConfig) : Prop where
  id : Whole 64 s.id.text
  label : Whole 128 s.label.text
  server : Whole 256 s.server.text
  share : Whole 256 s.share.text
  path : Whole 512 s.path.text
  username : Whole 128 s.username.text
  workgroup : Whole 128 s.workgroup.text

theorem writes_share {s : ShareConfig} (h : Held s) : Writes (.value (shareValue s)) (shareJson s) := by
  have hopen : ascii "\x7b" = [123] := by decide
  have hclose : ascii "\x7d" = [125] := by decide
  have hcomma : ascii "," = [44] := by decide
  unfold shareJson shareValue
  rw [hopen, hclose, hcomma, List.append_assoc, List.singleton_append]
  refine .object (JsonText.writes_members (List.cons_ne_nil _ _) ?_)
  exact .cons (isMember_string "id" (by decide) h.id) <|
    .cons (isMember_string "label" (by decide) h.label) <|
    .cons (isMember_string "server" (by decide) h.server) <|
    .cons (isMember_word "port" (by decide) (.number (decimalInt_isNumber s.port))) <|
    .cons (isMember_string "share" (by decide) h.share) <|
    .cons (isMember_string "path" (by decide) h.path) <|
    .cons (isMember_string "username" (by decide) h.username) <|
    .cons (isMember_word "password" (by decide) (.string .nil)) <|
    .cons (isMember_word "has_password" (by decide) (writes_flag _)) <|
    .cons (isMember_string "workgroup" (by decide) h.workgroup) <|
    .cons (isMember_word "is_read_only" (by decide) (writes_flag s.isReadOnly)) <|
    .cons (isMember_word "browse_only" (by decide) (writes_flag s.browseOnly)) <|
    .cons (isMember_word "enabled" (by decide) (writes_flag s.enabled)) .nil

/-- The room a share takes in the answer. -/
def shareRoom (s : ShareConfig) : Nat :=
  162 + room s.id.text + room s.label.text + room s.server.text + (decimalInt s.port).length +
    room s.share.text + room s.path.text + room s.username.text +
    (flagWord (s.password.text ≠ [])).length + room s.workgroup.text + (flagWord s.isReadOnly).length +
    (flagWord s.browseOnly).length + (flagWord s.enabled).length

theorem length_shareJson {s : ShareConfig} (h : Held s) : (shareJson s).length = shareRoom s := by
  have hstr {n size : Nat} (key : String) {t : CString n} (ht : Whole size t.text) :
      (strField key size t).length = (ascii key).length + 5 + room t.text := by
    rw [strField, jsonStrEsc_whole ht]
    simp only [quoted, List.length_append, List.length_singleton, length_escapeTitle]
    omega
  have hword (key : String) (w : Text) :
      (wordField key w).length = (ascii key).length + 3 + w.length := by
    simp only [wordField, quoted, List.length_append, List.length_singleton]
    omega
  have hkeys : (ascii "id").length = 2 ∧ (ascii "label").length = 5 ∧ (ascii "server").length = 6 ∧
      (ascii "port").length = 4 ∧ (ascii "share").length = 5 ∧ (ascii "path").length = 4 ∧
      (ascii "username").length = 8 ∧ (ascii "password").length = 8 ∧
      (ascii "has_password").length = 12 ∧ (ascii "workgroup").length = 9 ∧
      (ascii "is_read_only").length = 12 ∧ (ascii "browse_only").length = 11 ∧
      (ascii "enabled").length = 7 := by decide
  have hparts : (ascii "\x7b").length = 1 ∧ (ascii ",").length = 1 ∧ (ascii "\x7d").length = 1 := by
    decide
  have hempty : (quoted []).length = 2 := rfl
  simp only [shareJson, List.intercalate_cons_cons, List.intercalate_singleton, List.length_append,
    hstr "id" h.id, hstr "label" h.label, hstr "server" h.server, hstr "share" h.share,
    hstr "path" h.path, hstr "username" h.username, hstr "workgroup" h.workgroup, hword, hkeys, hparts,
    hempty, shareRoom]
  omega

end PkgManager.SettingsAnswer
