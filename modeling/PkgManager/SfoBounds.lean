import PkgManager.BoundedMemory
import PkgManager.PkgMetadata

namespace PkgManager.SfoBounds

open CText BoundedMemory
open PkgMetadata (Text sfoLangMap)
open Records (leValue)

/-! `pkg_parser_parse_param_sfo` on checked memory. -/

def readLe (r : Region) (width : Nat) : Checked Nat := (readBytes r width).map leValue

/-- A value of `len` bytes without the NULs at its end. -/
def trimmed (data : Region) : Nat → Checked Nat
  | 0 => .ok 0
  | n + 1 => do
    let b ← load data n
    if b = 0 then trimmed data n else return n + 1

/-- The copy of a value into a buffer: as much as fits, without the NULs at the end. -/
def copyValue (dst data : Region) (len : Nat) : Checked Region := do
  let copyLen ← trimmed data (if len < dst.length then len else dst.length - 1)
  let dst ← strncpy dst 0 data copyLen
  write dst copyLen [0]

/-- The key is this one and its value is not set yet. -/
def wanted (key : Region) (name : String) (dst : Region) : Checked Bool := do
  if ← equals key (ascii name) then return (← load dst 0) = 0 else return false

/-- The outputs; a null pointer is none. -/
structure Outputs where
  title : Region
  titleId : Region
  version : Option Region
  category : Option Region
  localizedTitles : Option Region
  defaultLanguage : Option Region

/-- An entry of `sfo_loc`. -/
structure Slot where
  lang : Region
  title : Region

/-- What the loop over the entries works on. -/
structure Loop where
  title : Region
  titleId : Region
  category : Option Region
  appVer : Region
  version : Region
  loc : List Slot
  locCount : Nat

/-- The text is digits up to its end. -/
def digitsOnly : Region → Checked Bool
  | some b :: r => if b = 0 then .ok true else if isDigit b then digitsOnly r else .ok false
  | _ => .error .read

/-- `l_idx` of a suffix: its number, -1 where it is none. -/
def langIndex (suffix : Region) : Checked Int := do
  let b ← load suffix 0
  if b = 0 then return -1
  else if ← digitsOnly suffix then
    let s ← cstring suffix
    return Int.bmod (min (digitsValue s) (2 ^ 63 - 1)) (2 ^ 32)
  else return -1

/-- An element of an array of the program. -/
def slot {α : Type} (l : List α) (i : Nat) : Checked α :=
  match l[i]? with
  | some a => .ok a
  | none => .error .read

def takeLocalized (st : Loop) (suffix data : Region) (len : Nat) : Checked Loop := do
  let index ← langIndex suffix
  if 0 ≤ index ∧ index < 30 then
    let lang ← slot sfoLangMap index.toNat
    let entry ← slot st.loc st.locCount
    let copyLen ← trimmed data (if len < 256 then len else 255)
    let l ← strncpy entry.lang 0 (literal (ascii lang)) (entry.lang.length - 1)
    let t ← strncpy entry.title 0 data copyLen
    let t ← write t copyLen [0]
    return { st with loc := st.loc.set st.locCount ⟨l, t⟩, locCount := st.locCount + 1 }
  else return st

/-- `wanted` for a pointer that may be null. -/
def wantedAt (key : Region) (name : String) : Option Region → Checked Bool
  | some dst => wanted key name dst
  | none => do
    let _ ← equals key (ascii name)
    return false

def copyAt (data : Region) (len : Nat) : Option Region → Checked (Option Region)
  | some dst => do
    let dst ← copyValue dst data len
    return some dst
  | none => .ok none

def sfoValue (st : Loop) (key data : Region) (len : Nat) : Checked Loop := do
  if ← wanted key "TITLE" st.title then
    let title ← copyValue st.title data len
    return { st with title }
  else if ← wanted key "TITLE_ID" st.titleId then
    let titleId ← copyValue st.titleId data len
    return { st with titleId }
  else if (← begins key (ascii "TITLE_")) ∧ st.locCount < 32 then
    takeLocalized st (key.drop 6) data len
  else if ← wantedAt key "CATEGORY" st.category then
    let category ← copyAt data len st.category
    return { st with category }
  else if ← wanted key "APP_VER" st.appVer then
    let appVer ← copyValue st.appVer data len
    return { st with appVer }
  else if ← wanted key "VERSION" st.version then
    let version ← copyValue st.version data len
    return { st with version }
  else return st

/-- Entry `i` of the table. The sum of the table's start and the key's offset wraps
where it is compared, and not where it is added to the pointer. -/
def sfoEntry (sfo : Region) (keyTableStart dataTableStart : Nat) (st : Loop) (i : Nat) :
    Checked Loop := do
  let e := sfo.drop (20 + i * 16)
  let keyOff ← readLe e 2
  let dataLen ← readLe (e.drop 4) 4
  let dataOff ← readLe (e.drop 12) 4
  let keyAt := (keyTableStart + keyOff) % 2 ^ 32
  if sfo.length ≤ keyAt then return st
  else
    let key := sfo.drop (keyTableStart + keyOff)
    if (← memchr 0 (sfo.length - keyAt) key).isNone then return st
    else if sfo.length < dataOff ∨ sfo.length < dataLen ∨
        sfo.length < dataTableStart + dataOff + dataLen then return st
    else sfoValue st key (sfo.drop (dataTableStart + dataOff)) dataLen

/-- The entries the loop gets to. -/
def visited (len entryCount : Nat) : List Nat :=
  (List.range entryCount).takeWhile fun i => 20 + (i + 1) * 16 ≤ len

/-! Behind the loop. -/

/-- The slots in use, from one on. -/
def findEnglish : List Slot → Checked (Option Slot)
  | [] => .ok none
  | s :: ss => do
    if ← equals s.lang (ascii "en-US") then return some s else findEnglish ss

/-- `strncpy` of a string into a whole buffer, with the terminator put behind it. -/
def copyString (dst src : Region) : Checked Region := do
  let dst' ← strncpy dst 0 src (dst.length - 1)
  write dst' (dst.length - 1) [0]

def fallbackTitle (title : Region) (loc : List Slot) : Checked Region := do
  let b ← load title 0
  if b = 0 ∧ loc ≠ [] then
    match ← findEnglish loc with
    | some s => copyString title s.title
    | none =>
      let first ← slot loc 0
      copyString title first.title
  else return title

/-- The loop that escapes a title into `esc_t`; `c` is where it reads. -/
def escapeLoop (esc : Region) (eidx : Nat) : Region → Checked (Region × Nat)
  | some b :: title =>
    if b = 0 then .ok (esc, eidx)
    else if eidx + 2 < esc.length then
      if b = 34 ∨ b = 92 then
        write esc eidx [92, b] >>= fun esc => escapeLoop esc (eidx + 2) title
      else write esc eidx [b] >>= fun esc => escapeLoop esc (eidx + 1) title
    else .ok (esc, eidx)
  | _ => .error .read

def escaped (title : Region) : Checked Text := do
  let (esc, eidx) ← escapeLoop (fresh 512) 0 title
  let esc ← write esc eidx [0]
  cstring esc

/-- The loop that appends the titles at `pos`. -/
def appendLoop (out : Region) (pos : Nat) : List Slot → Checked (Region × Nat)
  | [] => .ok (out, pos)
  | s :: ss => do
    let esc ← escaped s.title
    let lang ← cstring s.lang
    let item := (if pos = 1 then [] else [44]) ++ [34] ++ lang ++ [34, 58, 34] ++ esc ++ [34]
    let out' ← print out pos (out.length - pos) item
    if item.length < out.length - pos then appendLoop out' (pos + item.length) ss
    else return (out', pos)

def writeTitles (out : Region) (loc : List Slot) : Checked Region := do
  if 2 < out.length then
    let out ← write out 0 [123]
    let (out, pos) ← appendLoop out 1 loc
    if pos < out.length - 1 then write out pos [125, 0] else write out (out.length - 1) [0]
  else return out

def writeLanguage (out : Region) : Checked Region := do
  if 0 < out.length then
    let b ← load out 0
    if b = 0 then copyString out (literal (ascii "en-US")) else return out
  else return out

def writeVersion (appVer version out : Region) : Checked Region := do
  let best := if (← load appVer 0) ≠ 0 then appVer else version
  let b ← load best 0
  if b = 0 then return out
  else if (← load out 0) = 0 then
    if b ≠ 118 ∧ b ≠ 86 then
      let s ← cstring best
      print out 0 out.length (118 :: s)
    else copyString out best
  else return out

/-- An output that is written where there is one. -/
def atOutput (f : Region → Checked Region) : Option Region → Checked (Option Region)
  | some out => do
    let out ← f out
    return some out
  | none => .ok none

/-- An output that is written where the file has localized titles. -/
def ifLocalized (loc : List Slot) (f : Region → Checked Region) (out : Option Region) :
    Checked (Option Region) :=
  if loc ≠ [] then atOutput f out else .ok out

/-- `pkg_parser_parse_param_sfo`. -/
def parseParamSfo (sfo : Region) (out : Outputs) : Checked Outputs := do
  if sfo.length < 20 then return out
  else if (← readBytes sfo 4) ≠ [0, 80, 83, 70] then return out
  else
    let keyTableStart ← readLe (sfo.drop 8) 4
    let dataTableStart ← readLe (sfo.drop 12) 4
    let entryCount ← readLe (sfo.drop 16) 4
    if sfo.length ≤ keyTableStart ∨ sfo.length ≤ dataTableStart ∨ 1024 < entryCount then return out
    else
      let st ← (visited sfo.length entryCount).foldlM (sfoEntry sfo keyTableStart dataTableStart)
        ⟨out.title, out.titleId, out.category, zeros 32, zeros 32,
          List.replicate 32 ⟨fresh 32, fresh 256⟩, 0⟩
      let loc := st.loc.take st.locCount
      let title ← fallbackTitle st.title loc
      let defaultLanguage ← ifLocalized loc writeLanguage out.defaultLanguage
      let localizedTitles ← ifLocalized loc (writeTitles · loc) out.localizedTitles
      let version ← atOutput (writeVersion st.appVer st.version) out.version
      return ⟨title, st.titleId, version, st.category, localizedTitles, defaultLanguage⟩

/-! The buffers. -/

/-- A string in the buffer that was there. -/
structure Fits (dst r : Region) : Prop where
  length : r.length = dst.length
  terminated : Terminated r

/-- The same for a buffer that may not be there. -/
def FitsAt (dst r : Option Region) : Prop :=
  match dst, r with
  | some dst, some r => Fits dst r
  | none, none => True
  | _, _ => False

variable {dst data key : Region}

theorem Fits.trans {r r' : Region} (h : Fits dst r) (h' : Fits r r') : Fits dst r' :=
  ⟨h'.length.trans h.length, h'.terminated⟩

theorem trimmed_le {m : Nat} (h : Written data m) (n : Nat) (hn : n ≤ m) :
    Safe (trimmed data n) (· ≤ n) := by
  induction n with
  | zero => exact .pure (Nat.le_refl 0)
  | succ n ih =>
    obtain ⟨b, hb⟩ := h n hn
    rw [trimmed, load_ok hb]
    refine Safe.bind (.pure (P := (· = b)) rfl) fun c _ => ?_
    split
    · exact (ih (by omega)).imp fun k hk => Nat.le_succ_of_le hk
    · exact .pure (Nat.le_refl _)

theorem copyValue_fits {len : Nat} (h : Written data len) (hdst : 0 < dst.length) :
    Safe (copyValue dst data len) (Fits dst) := by
  unfold copyValue
  have hcap : (if len < dst.length then len else dst.length - 1) ≤ len := by
    split <;> omega
  have hroom : (if len < dst.length then len else dst.length - 1) < dst.length := by
    split <;> omega
  refine (trimmed_le h _ hcap).bind fun n hn => ?_
  have hcopy : Safe (strncpy dst 0 data n) fun r => r.length = dst.length ∧ Written r n :=
    strncpy_written (stringUpTo_written (h.mono (Nat.le_trans hn hcap))) (by omega)
  refine hcopy.bind fun r hr => ?_
  exact (write_nul hr.2 (by omega)).imp fun r' hr' => ⟨hr'.1.trans hr.1, hr'.2⟩

theorem copyString_fits {src : Region} (h : Terminated src) (hdst : 0 < dst.length) :
    Safe (copyString dst src) (Fits dst) := by
  obtain ⟨s, hs⟩ := h
  unfold copyString
  have hsrc : Safe (stringUpTo src (dst.length - 1)) fun t => t.length ≤ dst.length - 1 :=
    ⟨_, stringUpTo_cstring hs _, List.length_take_le _ _⟩
  refine (strncpy_written hsrc (Nat.sub_le _ _)).bind fun r hr => ?_
  exact (write_nul hr.2 (by omega)).imp fun r' hr' => ⟨hr'.1.trans hr.1, hr'.2⟩

theorem wanted_safe (hkey : Terminated key) {name : String} (hname : 0 ∉ ascii name) (h : Terminated dst) :
    Safe (wanted key name dst) fun _ => True := by
  unfold wanted
  refine (hkey.equals hname).bind fun b _ => ?_
  split
  · exact h.load.bind fun c _ => .pure trivial
  · exact .pure trivial

theorem wantedAt_safe (hkey : Terminated key) {name : String} (hname : 0 ∉ ascii name)
    {dst : Option Region} (h : ∀ r ∈ dst, Terminated r) : Safe (wantedAt key name dst) fun _ => True := by
  cases dst with
  | none => exact (hkey.equals hname).bind fun _ _ => .pure trivial
  | some dst => exact wanted_safe hkey hname (h dst rfl)

theorem copyAt_fits {len : Nat} (h : Written data len) {dst : Option Region}
    (hdst : ∀ r ∈ dst, Terminated r) : Safe (copyAt data len dst) (FitsAt dst) := by
  cases dst with
  | none => exact .pure trivial
  | some dst => exact (copyValue_fits h (hdst dst rfl).pos).bind fun r hr => .pure hr

/-! The loop over the entries. -/

/-- What the loop keeps of its buffers. -/
structure Sound (out : Outputs) (st : Loop) : Prop where
  title : Fits out.title st.title
  titleId : Fits out.titleId st.titleId
  category : FitsAt out.category st.category
  appVer : Terminated st.appVer
  version : Terminated st.version
  slots : st.loc.length = 32
  sized : ∀ s ∈ st.loc, s.lang.length = 32 ∧ s.title.length = 256
  count : st.locCount ≤ 32
  used : ∀ s ∈ st.loc.take st.locCount, Terminated s.lang ∧ Terminated s.title

variable {out : Outputs} {st : Loop}

theorem FitsAt.terminated {dst r : Option Region} (h : FitsAt dst r) : ∀ r' ∈ r, Terminated r' := by
  intro r' hr'
  cases hr'
  cases dst with
  | none => exact h.elim
  | some dst => exact Fits.terminated h

theorem FitsAt.trans {dst r r' : Option Region} (h : FitsAt dst r) (h' : FitsAt r r') :
    FitsAt dst r' := by
  cases r with
  | none =>
    cases r' with
    | none => exact h
    | some r' => exact h'.elim
  | some r =>
    cases r' with
    | none => exact h'.elim
    | some r' =>
      cases dst with
      | none => exact h.elim
      | some dst => exact Fits.trans h h'

theorem lang_fits : ∀ l ∈ sfoLangMap, (ascii l).length < 31 ∧ 0 ∉ ascii l := by decide

theorem digitsOnly_safe {r : Region} (h : Terminated r) : Safe (digitsOnly r) fun _ => True := by
  obtain ⟨s, hs⟩ := h
  induction r generalizing s with
  | nil => cases hs
  | cons c r ih =>
    rcases cstring_cons hs with ⟨rfl, -⟩ | ⟨b, s', hb, rfl, -, hs'⟩
    · exact ⟨true, rfl, trivial⟩
    · rw [digitsOnly, if_neg hb]
      split
      · exact ih s' hs'
      · exact .pure trivial

theorem langIndex_safe {suffix : Region} (h : Terminated suffix) :
    Safe (langIndex suffix) fun _ => True := by
  unfold langIndex
  refine h.load.bind fun b _ => ?_
  split
  · exact .pure trivial
  · refine (digitsOnly_safe h).bind fun d _ => ?_
    split
    · obtain ⟨s, hs⟩ := h
      rw [hs]
      exact .pure trivial
    · exact .pure trivial

theorem slot_safe {α : Type} {l : List α} {i : Nat} (h : i < l.length) :
    Safe (slot l i) fun a => l[i]? = some a := by
  unfold slot
  rw [List.getElem?_eq_getElem h]
  exact .pure rfl

theorem takeLocalized_sound {suffix : Region} {len : Nat} (h : Sound out st) (hcount : st.locCount < 32)
    (hsuffix : Terminated suffix) (hdata : Written data len) :
    Safe (takeLocalized st suffix data len) (Sound out) := by
  unfold takeLocalized
  refine (langIndex_safe hsuffix).bind fun index _ => ?_
  by_cases hindex : 0 ≤ index ∧ index < 30
  swap
  · rw [if_neg hindex]
    exact .pure h
  rw [if_pos hindex]
  have hmap : index.toNat < sfoLangMap.length := by
    rw [show sfoLangMap.length = 30 from rfl]
    omega
  refine (slot_safe hmap).bind fun lang hlang => ?_
  obtain ⟨hshort, hnul⟩ := lang_fits lang (List.mem_of_getElem? hlang)
  refine (slot_safe (by rw [h.slots]; exact hcount)).bind fun entry hentry => ?_
  obtain ⟨hl, ht⟩ := h.sized entry (List.mem_of_getElem? hentry)
  have hcap : (if len < 256 then len else 255) ≤ len := by
    split <;> omega
  have hroom : (if len < 256 then len else 255) < 256 := by
    split <;> omega
  refine (trimmed_le hdata _ hcap).bind fun n hn => ?_
  have hcopy : Safe (strncpy entry.lang 0 (literal (ascii lang)) (entry.lang.length - 1)) fun r =>
      r.length = entry.lang.length ∧ Terminated r :=
    strncpy_terminated (cstring_literal hnul) (by omega) (Nat.sub_le _ _)
  refine hcopy.bind fun l hl' => ?_
  have htitle : Safe (strncpy entry.title 0 data n) fun r => r.length = entry.title.length ∧ Written r n :=
    strncpy_written (stringUpTo_written (hdata.mono (Nat.le_trans hn hcap))) (by omega)
  refine htitle.bind fun t ht' => ?_
  refine (write_nul ht'.2 (by omega)).bind fun t' ht'' => .pure ?_
  refine ⟨h.title, h.titleId, h.category, h.appVer, h.version, ?_, ?_, ?_, ?_⟩
  · exact (List.length_set ..).trans h.slots
  · intro s hs
    rcases List.mem_or_eq_of_mem_set hs with hs | rfl
    · exact h.sized s hs
    · exact ⟨hl'.1.trans hl, ht''.1.trans (ht'.1.trans ht)⟩
  · exact hcount
  · intro s hs
    have htake : (st.loc.set st.locCount ⟨l, t'⟩).take (st.locCount + 1) =
        st.loc.take st.locCount ++ [⟨l, t'⟩] := by
      rw [List.take_succ_eq_append_getElem (by rw [List.length_set, h.slots]; exact hcount),
        List.take_set_of_le (Nat.le_refl _), List.getElem_set_self]
    rw [htake] at hs
    rcases List.mem_append.mp hs with hs | hs
    · exact h.used s hs
    · rw [List.mem_singleton.mp hs]
      exact ⟨hl'.2, ht''.2⟩

theorem sfoValue_sound {len : Nat} (h : Sound out st) (hkey : Terminated key) (hdata : Written data len) :
    Safe (sfoValue st key data len) (Sound out) := by
  unfold sfoValue
  refine (wanted_safe hkey (by decide) h.title.terminated).bind fun b _ => ?_
  split
  · refine (copyValue_fits hdata h.title.terminated.pos).bind fun r hr => .pure ?_
    exact { h with title := h.title.trans hr }
  refine (wanted_safe hkey (by decide) h.titleId.terminated).bind fun b _ => ?_
  split
  · refine (copyValue_fits hdata h.titleId.terminated.pos).bind fun r hr => .pure ?_
    exact { h with titleId := h.titleId.trans hr }
  obtain ⟨s, hs⟩ := hkey
  have hkey : Terminated key := ⟨s, hs⟩
  have hbegins : Safe (begins key (ascii "TITLE_")) fun b => b = (ascii "TITLE_").isPrefixOf s :=
    ⟨_, cstring_begins hs (by decide), rfl⟩
  refine hbegins.bind fun b hb => ?_
  split
  · rename_i hloc
    have hsuffix : 6 ≤ s.length := by
      have hpre := (List.isPrefixOf_iff_prefix.mp (hb ▸ hloc.1)).length_le
      exact hpre
    exact takeLocalized_sound h hloc.2 ⟨_, cstring_drop hs hsuffix⟩ hdata
  refine (wantedAt_safe hkey (by decide) h.category.terminated).bind fun b _ => ?_
  split
  · refine (copyAt_fits hdata h.category.terminated).bind fun r hr => .pure ?_
    exact { h with category := h.category.trans hr }
  refine (wanted_safe hkey (by decide) h.appVer).bind fun b _ => ?_
  split
  · refine (copyValue_fits hdata h.appVer.pos).bind fun r hr => .pure ?_
    exact { h with appVer := hr.terminated }
  refine (wanted_safe hkey (by decide) h.version).bind fun b _ => ?_
  split
  · refine (copyValue_fits hdata h.version.pos).bind fun r hr => .pure ?_
    exact { h with version := hr.terminated }
  · exact .pure h

/-! The entries. -/

theorem readLe_value {sfo : Text} {off width : Nat} (h : off + width ≤ sfo.length) :
    readLe ((ofBytes sfo).drop off) width = .ok (PkgMetadata.readLe sfo off width) := by
  unfold readLe
  rw [drop_ofBytes, readBytes_ofBytes (by rw [List.length_drop]; omega)]
  rfl

/-- Where the key of entry `i` stands. -/
def keyAt (sfo : Text) (i : Nat) : Nat :=
  PkgMetadata.readLe sfo 8 4 + PkgMetadata.readLe sfo (20 + i * 16) 2

/-- The sum of the table's start and the key's offset wraps, and no NUL follows there. -/
def Overruns (sfo : Text) (i : Nat) : Prop := 2 ^ 32 ≤ keyAt sfo i ∧ 0 ∉ sfo.drop (keyAt sfo i)

theorem readLe_lt (sfo : Text) (off width : Nat) : PkgMetadata.readLe sfo off width < 256 ^ width := by
  unfold PkgMetadata.readLe
  refine Nat.lt_of_lt_of_le (Records.leValue_lt _) (Nat.pow_le_pow_right (by decide) ?_)
  exact List.length_take_le _ _

/-- The three fields of an entry that are read. -/
theorem entry_reads {sfo : Text} {i : Nat} (hi : 20 + (i + 1) * 16 ≤ sfo.length) :
    readLe ((ofBytes sfo).drop (20 + i * 16)) 2 = .ok (PkgMetadata.readLe sfo (20 + i * 16) 2) ∧
      readLe (((ofBytes sfo).drop (20 + i * 16)).drop 4) 4 =
        .ok (PkgMetadata.readLe sfo (20 + i * 16 + 4) 4) ∧
      readLe (((ofBytes sfo).drop (20 + i * 16)).drop 12) 4 =
        .ok (PkgMetadata.readLe sfo (20 + i * 16 + 12) 4) := by
  refine ⟨readLe_value (by omega), ?_, ?_⟩
  · rw [List.drop_drop]
    exact readLe_value (by omega)
  · rw [List.drop_drop]
    exact readLe_value (by omega)

theorem sfoEntry_sound {sfo : Text} {i dataTableStart : Nat} (hi : 20 + (i + 1) * 16 ≤ sfo.length)
    (hover : ¬Overruns sfo i) (h : Sound out st) :
    Safe (sfoEntry (ofBytes sfo) (PkgMetadata.readLe sfo 8 4) dataTableStart st i) (Sound out) := by
  obtain ⟨hkey, hlen, hoff⟩ := entry_reads hi
  unfold sfoEntry
  dsimp only
  rw [hkey, hlen, hoff, length_ofBytes]
  refine Safe.bind (.pure (P := (· = PkgMetadata.readLe sfo (20 + i * 16) 2)) rfl) fun keyOff hkeyOff => ?_
  refine Safe.bind (.pure (P := fun _ => True) trivial) fun dataLen _ => ?_
  refine Safe.bind (.pure (P := fun _ => True) trivial) fun dataOff _ => ?_
  have hk : PkgMetadata.readLe sfo 8 4 + keyOff = keyAt sfo i := by rw [hkeyOff]; rfl
  rw [hk]
  split
  · exact .pure h
  rename_i hin
  have hstop : sfo.length - keyAt sfo i % 2 ^ 32 ≤ (sfo.drop (keyAt sfo i)).length ∨
      0 ∈ sfo.drop (keyAt sfo i) := by
    by_cases hwrap : 2 ^ 32 ≤ keyAt sfo i
    · refine .inr ?_
      by_contra hnot
      exact hover ⟨hwrap, hnot⟩
    · rw [Nat.mod_eq_of_lt (Nat.lt_of_not_le hwrap), List.length_drop]
      exact .inl (Nat.le_refl _)
  rw [drop_ofBytes]
  refine (memchr_ofBytes _ _ hstop).bind fun found hfound => ?_
  split
  · exact .pure h
  rename_i hsome
  split
  · exact .pure h
  rename_i hdata
  have hterm : Terminated (ofBytes (sfo.drop (keyAt sfo i))) := by
    refine cstring_ofBytes (hfound ?_)
    cases found with
    | none => exact absurd rfl hsome
    | some k => rfl
  refine sfoValue_sound h hterm (Written.drop ((written_ofBytes sfo).mono ?_))
  omega

/-- The search for the end of such a key leaves the file. -/
theorem sfoEntry_overruns {sfo : Text} {i dataTableStart : Nat} (hi : 20 + (i + 1) * 16 ≤ sfo.length)
    (htable : PkgMetadata.readLe sfo 8 4 < sfo.length) (hover : Overruns sfo i) :
    ∀ st', sfoEntry (ofBytes sfo) (PkgMetadata.readLe sfo 8 4) dataTableStart st i ≠ .ok st' := by
  intro st' hok
  obtain ⟨hkey, hlen, hoff⟩ := entry_reads hi
  obtain ⟨hwrap, hnul⟩ := hover
  have hk4 := readLe_lt sfo 8 4
  have hk2 := readLe_lt sfo (20 + i * 16) 2
  have hk : keyAt sfo i = PkgMetadata.readLe sfo 8 4 + PkgMetadata.readLe sfo (20 + i * 16) 2 := rfl
  have hmod : keyAt sfo i % 2 ^ 32 = keyAt sfo i - 2 ^ 32 := by omega
  unfold sfoEntry at hok
  dsimp only at hok
  rw [hkey, hlen, hoff, length_ofBytes] at hok
  obtain ⟨keyOff, hkeyOff, hok⟩ := bind_ok hok
  obtain ⟨dataLen, -, hok⟩ := bind_ok hok
  obtain ⟨dataOff, -, hok⟩ := bind_ok hok
  obtain rfl := Except.ok.inj hkeyOff
  rw [← hk, hmod, if_neg (by omega), drop_ofBytes,
    memchr_faults _ _ (by rw [List.length_drop]; omega) hnul] at hok
  cases hok

/-! Behind the loop. -/

/-- Slots in use. -/
def Used (loc : List Slot) : Prop := ∀ s ∈ loc, Terminated s.lang ∧ Terminated s.title

variable {loc : List Slot}

theorem findEnglish_safe (h : Used loc) : Safe (findEnglish loc) fun found => ∀ s ∈ found, s ∈ loc := by
  induction loc with
  | nil => exact ⟨none, rfl, fun s hs => nomatch hs⟩
  | cons s loc ih =>
    unfold findEnglish
    refine ((h s List.mem_cons_self).1.equals (by decide)).bind fun b _ => ?_
    split
    · refine .pure fun s' hs' => ?_
      cases hs'
      exact List.mem_cons_self
    · exact (ih fun s' hs' => h s' (List.mem_cons_of_mem s hs')).imp fun found hfound s' hs' =>
        List.mem_cons_of_mem s (hfound s' hs')

theorem fallbackTitle_fits {title : Region} (ht : Terminated title) (h : Used loc) :
    Safe (fallbackTitle title loc) (Fits title) := by
  unfold fallbackTitle
  refine ht.load.bind fun b _ => ?_
  by_cases hnone : b = 0 ∧ loc ≠ []
  · rw [if_pos hnone]
    refine (findEnglish_safe h).bind fun found hfound => ?_
    cases found with
    | some s => exact copyString_fits (h s (hfound s rfl)).2 ht.pos
    | none =>
      have hfirst : Safe (slot loc 0) fun s => loc[0]? = some s :=
        slot_safe (List.length_pos_iff.mpr hnone.2)
      exact hfirst.bind fun s hs => copyString_fits (h s (List.mem_of_getElem? hs)).2 ht.pos
  · rw [if_neg hnone]
    exact .pure ⟨rfl, ht⟩

/-- The escaped title stays in its buffer, with room for the terminator. -/
theorem escapeLoop_safe {title esc : Region} {eidx : Nat} (ht : Terminated title) (h : Written esc eidx)
    (hroom : eidx < esc.length) :
    Safe (escapeLoop esc eidx title) fun r => Written r.1 r.2 ∧ r.2 < r.1.length := by
  obtain ⟨s, hs⟩ := ht
  induction title generalizing s esc eidx with
  | nil => cases hs
  | cons c title ih =>
    rcases cstring_cons hs with ⟨rfl, -⟩ | ⟨b, s', hb, rfl, -, hs'⟩
    · exact ⟨(esc, eidx), rfl, h, hroom⟩
    · rw [escapeLoop, if_neg hb]
      split
      · split
        · refine (write_more [92, b] h (by simp; omega)).bind fun r hr => ?_
          exact ih hr.2 (by rw [hr.1]; omega) s' hs'
        · refine (write_more [b] h (by simp; omega)).bind fun r hr => ?_
          exact ih hr.2 (by rw [hr.1]; omega) s' hs'
      · exact .pure ⟨h, hroom⟩

theorem escaped_safe {title : Region} (h : Terminated title) : Safe (escaped title) fun _ => True := by
  unfold escaped
  have hempty : Written (fresh 512) 0 := fun i hi => absurd hi (Nat.not_lt_zero i)
  refine (escapeLoop_safe h hempty (by rw [fresh, List.length_replicate]; decide)).bind fun r hr => ?_
  refine (write_nul hr.1 hr.2).bind fun esc hesc => ?_
  obtain ⟨s, hs⟩ := hesc.2
  exact ⟨s, hs, trivial⟩

theorem appendLoop_safe {r : Region} {pos : Nat} (h : Used loc) (hr : Written r pos)
    (hpos : pos < r.length) :
    Safe (appendLoop r pos loc) fun r' =>
      r'.1.length = r.length ∧ Written r'.1 r'.2 ∧ r'.2 < r'.1.length := by
  induction loc generalizing r pos with
  | nil => exact .pure ⟨rfl, hr, hpos⟩
  | cons s loc ih =>
    obtain ⟨hlang, htitle⟩ := h s List.mem_cons_self
    obtain ⟨lang, hlang⟩ := hlang
    unfold appendLoop
    refine (escaped_safe htitle).bind fun esc _ => ?_
    rw [hlang]
    refine Safe.bind (.pure (P := fun _ => True) trivial) fun lang _ => ?_
    generalize (if pos = 1 then [] else [44]) ++ [34] ++ lang ++ [34, 58, 34] ++ esc ++ [34] = item
    refine (print_written hr item (by omega) (by omega)).bind fun r' hr' => ?_
    obtain ⟨hlen, hwritten, -⟩ := hr'
    split
    · rename_i hfits
      have hmore : Written r' (pos + item.length) := by
        rwa [Nat.min_eq_left (by omega)] at hwritten
      refine (ih (fun s' hs' => h s' (List.mem_cons_of_mem s hs')) hmore (by omega)).imp fun q hq => ?_
      exact ⟨hq.1.trans hlen, hq.2⟩
    · exact .pure ⟨hlen, hwritten.mono (Nat.le_add_right _ _), by rw [hlen]; exact hpos⟩

theorem writeTitles_fits (h : Used loc) (hout : Terminated dst) :
    Safe (writeTitles dst loc) (Fits dst) := by
  unfold writeTitles
  split
  · have hempty : Written dst 0 := fun i hi => absurd hi (Nat.not_lt_zero i)
    refine (write_more [123] hempty (by simp; omega)).bind fun r hr => ?_
    refine (appendLoop_safe h hr.2 (by simp; omega)).bind fun q hq => ?_
    obtain ⟨out, pos⟩ := q
    obtain ⟨hlen, hwritten, hpos⟩ := hq
    dsimp only at hlen hwritten hpos ⊢
    split
    · rename_i hroom
      refine (write_written out pos [125, 0] (by simp; omega)).imp fun r' hr' => ?_
      refine ⟨hr'.1.trans (hlen.trans hr.1), terminated_of (k := pos + 1) (fun i hi => ?_) ?_⟩
      · by_cases hi' : i < pos
        · rw [hr'.2.2 i (.inl hi')]
          exact hwritten i hi'
        · obtain rfl : i = pos := by omega
          rw [hr'.2.1 i (Nat.le_refl _) (by simp), Nat.sub_self]
          exact ⟨125, rfl⟩
      · rw [hr'.2.1 (pos + 1) (by omega) (by simp), Nat.add_sub_cancel_left]
        rfl
    · have hlast : Written out (out.length - 1) := hwritten.mono (by omega)
      exact (write_nul hlast (by omega)).imp fun r' hr' => ⟨hr'.1.trans (hlen.trans hr.1), hr'.2⟩
  · exact .pure ⟨rfl, hout⟩

theorem writeLanguage_fits (hout : Terminated dst) : Safe (writeLanguage dst) (Fits dst) := by
  unfold writeLanguage
  rw [if_pos hout.pos]
  refine hout.load.bind fun b _ => ?_
  split
  · exact copyString_fits ⟨_, cstring_literal (by decide)⟩ hout.pos
  · exact .pure ⟨rfl, hout⟩

theorem writeVersion_fits {appVer version : Region} (happ : Terminated appVer) (hver : Terminated version)
    (hout : Terminated dst) : Safe (writeVersion appVer version dst) (Fits dst) := by
  unfold writeVersion
  refine happ.load.bind fun b _ => ?_
  have hbest : Terminated (if b ≠ 0 then appVer else version) := by
    split
    · exact happ
    · exact hver
  generalize (if b ≠ 0 then appVer else version) = best at hbest
  refine hbest.load.bind fun c _ => ?_
  split
  · exact .pure ⟨rfl, hout⟩
  refine hout.load.bind fun d _ => ?_
  split
  swap
  · exact .pure ⟨rfl, hout⟩
  split
  · obtain ⟨s, hs⟩ := hbest
    rw [hs]
    refine Safe.bind (.pure (P := fun _ => True) trivial) fun s _ => ?_
    have hempty : Written dst 0 := fun i hi => absurd hi (Nat.not_lt_zero i)
    refine (print_written hempty (118 :: s) hout.pos (by omega)).imp fun r hr => ⟨hr.1, hr.2.2⟩
  · exact copyString_fits hbest hout.pos

theorem atOutput_fits {f : Region → Checked Region} (hf : ∀ r, Terminated r → Safe (f r) (Fits r))
    {o : Option Region} (h : ∀ r ∈ o, Terminated r) : Safe (atOutput f o) (FitsAt o) := by
  cases o with
  | none => exact .pure trivial
  | some r => exact (hf r (h r rfl)).bind fun r' hr' => .pure hr'

/-! The whole function. -/

/-- The outputs are buffers that hold a string each. -/
structure Outputs.Strings (out : Outputs) : Prop where
  title : Terminated out.title
  titleId : Terminated out.titleId
  version : ∀ r ∈ out.version, Terminated r
  category : ∀ r ∈ out.category, Terminated r
  localizedTitles : ∀ r ∈ out.localizedTitles, Terminated r
  defaultLanguage : ∀ r ∈ out.defaultLanguage, Terminated r

/-- The outputs behind the call are those buffers, with a string each. -/
structure Filled (out r : Outputs) : Prop where
  title : Fits out.title r.title
  titleId : Fits out.titleId r.titleId
  version : FitsAt out.version r.version
  category : FitsAt out.category r.category
  localizedTitles : FitsAt out.localizedTitles r.localizedTitles
  defaultLanguage : FitsAt out.defaultLanguage r.defaultLanguage

theorem fitsAt_refl {o : Option Region} (h : ∀ r ∈ o, Terminated r) : FitsAt o o := by
  cases o with
  | none => trivial
  | some r => exact ⟨rfl, h r rfl⟩

theorem ifLocalized_fits (loc : List Slot) {f : Region → Checked Region}
    (hf : ∀ r, Terminated r → Safe (f r) (Fits r)) {o : Option Region} (h : ∀ r ∈ o, Terminated r) :
    Safe (ifLocalized loc f o) (FitsAt o) := by
  unfold ifLocalized
  split
  · exact atOutput_fits hf h
  · exact .pure (fitsAt_refl h)

theorem filled_refl {out : Outputs} (h : out.Strings) : Filled out out :=
  ⟨⟨rfl, h.title⟩, ⟨rfl, h.titleId⟩, fitsAt_refl h.version, fitsAt_refl h.category,
    fitsAt_refl h.localizedTitles, fitsAt_refl h.defaultLanguage⟩

/-- The header is one whose entries are read. -/
structure Accepted (sfo : Text) : Prop where
  length : 20 ≤ sfo.length
  magic : sfo.take 4 = [0, 80, 83, 70]
  keys : PkgMetadata.readLe sfo 8 4 < sfo.length
  data : PkgMetadata.readLe sfo 12 4 < sfo.length
  count : PkgMetadata.readLe sfo 16 4 ≤ 1024

/-- The entries that are read. -/
def entriesOf (sfo : Text) : List Nat := visited sfo.length (PkgMetadata.readLe sfo 16 4)

theorem sized_slots {s : Slot} (h : s ∈ List.replicate 32 (⟨fresh 32, fresh 256⟩ : Slot)) :
    s.lang.length = 32 ∧ s.title.length = 256 := by
  rw [(List.mem_replicate.mp h).2]
  exact ⟨List.length_replicate, List.length_replicate⟩

theorem start_sound {out : Outputs} (h : out.Strings) :
    Sound out ⟨out.title, out.titleId, out.category, zeros 32, zeros 32,
      List.replicate 32 ⟨fresh 32, fresh 256⟩, 0⟩ where
  title := ⟨rfl, h.title⟩
  titleId := ⟨rfl, h.titleId⟩
  category := fitsAt_refl h.category
  appVer := zeros_terminated (by decide)
  version := zeros_terminated (by decide)
  slots := List.length_replicate
  sized := fun _ hs => sized_slots hs
  count := Nat.zero_le _
  used := fun s hs => nomatch hs

theorem visited_le {sfo : Text} {i : Nat} (h : i ∈ entriesOf sfo) : 20 + (i + 1) * 16 ≤ sfo.length := by
  unfold entriesOf visited at h
  have hle := List.mem_takeWhile_imp h
  exact of_decide_eq_true hle

/-- What is read of an accepted header. -/
theorem header_reads {sfo : Text} (h : 20 ≤ sfo.length) :
    readBytes (ofBytes sfo) 4 = .ok (sfo.take 4) ∧
      readLe ((ofBytes sfo).drop 8) 4 = .ok (PkgMetadata.readLe sfo 8 4) ∧
      readLe ((ofBytes sfo).drop 12) 4 = .ok (PkgMetadata.readLe sfo 12 4) ∧
      readLe ((ofBytes sfo).drop 16) 4 = .ok (PkgMetadata.readLe sfo 16 4) :=
  ⟨readBytes_ofBytes (by omega), readLe_value (by omega), readLe_value (by omega),
    readLe_value (by omega)⟩

theorem parse_sound {sfo : Text} {out : Outputs} (h : out.Strings)
    (hover : Accepted sfo → ∀ i ∈ entriesOf sfo, ¬Overruns sfo i) :
    Safe (parseParamSfo (ofBytes sfo) out) (Filled out) := by
  unfold parseParamSfo
  rw [length_ofBytes]
  by_cases hlen : sfo.length < 20
  · rw [if_pos hlen]
    exact .pure (filled_refl h)
  rw [if_neg hlen]
  obtain ⟨hmagic, hkeys, hdata, hcount⟩ := header_reads (Nat.le_of_not_lt hlen)
  rw [hmagic, hkeys, hdata, hcount]
  refine Safe.bind (.pure (P := (· = sfo.take 4)) rfl) fun magic hm => ?_
  by_cases hmagic : magic ≠ [0, 80, 83, 70]
  · rw [if_pos hmagic]
    exact .pure (filled_refl h)
  rw [if_neg hmagic]
  refine Safe.bind (.pure (P := (· = PkgMetadata.readLe sfo 8 4)) rfl) fun keyTableStart hk => ?_
  refine Safe.bind (.pure (P := (· = PkgMetadata.readLe sfo 12 4)) rfl) fun dataTableStart hd => ?_
  refine Safe.bind (.pure (P := (· = PkgMetadata.readLe sfo 16 4)) rfl) fun entryCount hc => ?_
  by_cases hbad : sfo.length ≤ keyTableStart ∨ sfo.length ≤ dataTableStart ∨ 1024 < entryCount
  · rw [if_pos hbad]
    exact .pure (filled_refl h)
  rw [if_neg hbad]
  have hnot := hover ⟨Nat.le_of_not_lt hlen, (hm ▸ not_not.mp hmagic), by omega, by omega, by omega⟩
  rw [hk, hc]
  have hloop : Safe ((visited sfo.length (PkgMetadata.readLe sfo 16 4)).foldlM
      (sfoEntry (ofBytes sfo) (PkgMetadata.readLe sfo 8 4) dataTableStart)
      ⟨out.title, out.titleId, out.category, zeros 32, zeros 32,
        List.replicate 32 ⟨fresh 32, fresh 256⟩, 0⟩) (Sound out) :=
    Safe.foldlM (fun i hi st hst => sfoEntry_sound (visited_le hi) (hnot i hi) hst) (start_sound h)
  refine hloop.bind fun st hst => ?_
  have hused : Used (st.loc.take st.locCount) := hst.used
  generalize st.loc.take st.locCount = loc at hused
  refine (fallbackTitle_fits hst.title.terminated hused).bind fun title htitle => ?_
  have hlang : Safe (ifLocalized loc writeLanguage out.defaultLanguage) (FitsAt out.defaultLanguage) :=
    ifLocalized_fits loc (fun r hr => writeLanguage_fits hr) h.defaultLanguage
  refine hlang.bind fun defaultLanguage hdefault => ?_
  have htitles : Safe (ifLocalized loc (writeTitles · loc) out.localizedTitles)
      (FitsAt out.localizedTitles) :=
    ifLocalized_fits loc (fun r hr => writeTitles_fits hused hr) h.localizedTitles
  refine htitles.bind fun localizedTitles hlocalized => ?_
  have hversion : Safe (atOutput (writeVersion st.appVer st.version) out.version) (FitsAt out.version) :=
    atOutput_fits (fun r hr => writeVersion_fits hst.appVer hst.version hr) h.version
  exact hversion.bind fun version hver =>
    .pure ⟨hst.title.trans htitle, hst.titleId, hver, hst.category, hlocalized, hdefault⟩

theorem parse_overruns {sfo : Text} (h : Accepted sfo) {i : Nat} (hi : i ∈ entriesOf sfo)
    (hover : Overruns sfo i) (out r : Outputs) : parseParamSfo (ofBytes sfo) out ≠ .ok r := by
  intro hok
  obtain ⟨hmagic, hkeys, hdata, hcount⟩ := header_reads h.length
  have hkey := h.keys
  have hdat := h.data
  have hcnt := h.count
  unfold parseParamSfo at hok
  rw [length_ofBytes, if_neg (Nat.not_lt.mpr h.length), hmagic, hkeys, hdata, hcount] at hok
  obtain ⟨magic, hm, hok⟩ := bind_ok hok
  obtain rfl := Except.ok.inj hm
  rw [if_neg (not_not.mpr h.magic)] at hok
  obtain ⟨keyTableStart, hk, hok⟩ := bind_ok hok
  obtain rfl := Except.ok.inj hk
  obtain ⟨dataTableStart, hd, hok⟩ := bind_ok hok
  obtain rfl := Except.ok.inj hd
  obtain ⟨entryCount, hc, hok⟩ := bind_ok hok
  obtain rfl := Except.ok.inj hc
  rw [if_neg (by omega)] at hok
  obtain ⟨st, hloop, -⟩ := bind_ok hok
  obtain ⟨st₁, st₂, hentry⟩ := foldlM_ok hloop i hi
  exact sfoEntry_overruns (visited_le hi) h.keys hover st₂ hentry

/-- The parser stays in its buffers, and leaves a string in each, exactly where no entry
that it reads has a key whose place wraps and has no end behind it. -/
theorem sfo_in_bounds (sfo : Text) {out : Outputs} (h : out.Strings) :
    Safe (parseParamSfo (ofBytes sfo) out) (Filled out) ↔
      (Accepted sfo → ∀ i ∈ entriesOf sfo, ¬Overruns sfo i) := by
  constructor
  · rintro ⟨r, hr, -⟩ haccepted i hi hover
    exact parse_overruns haccepted hi hover out r hr
  · exact parse_sound h

/-- Nothing wraps in a file of less than 4 GiB less 64 KiB. -/
theorem not_overruns {sfo : Text} (h : sfo.length ≤ 2 ^ 32 - 2 ^ 16) (haccepted : Accepted sfo) (i : Nat) :
    ¬Overruns sfo i := by
  rintro ⟨hwrap, -⟩
  have hkeys := haccepted.keys
  have hoff := readLe_lt sfo (20 + i * 16) 2
  unfold keyAt at hwrap
  omega

/-! A file of one title. -/

def titleFile : Text :=
  [0, 80, 83, 70, 1, 1, 0, 0, 36, 0, 0, 0, 42, 0, 0, 0, 1, 0, 0, 0,
    0, 0, 4, 2, 2, 0, 0, 0, 2, 0, 0, 0, 0, 0, 0, 0] ++ ascii "TITLE" ++ [0] ++ ascii "A" ++ [0]

/-- The buffers of the callers, zeroed. -/
def callerOutputs : Outputs := ⟨zeros 256, zeros 32, some (zeros 32), some (zeros 16), some (zeros 2048), some (zeros 32)⟩

theorem callerOutputs_strings : callerOutputs.Strings where
  title := zeros_terminated (by decide)
  titleId := zeros_terminated (by decide)
  version := by
    rintro r ⟨⟩
    exact zeros_terminated (by decide)
  category := by
    rintro r ⟨⟩
    exact zeros_terminated (by decide)
  localizedTitles := by
    rintro r ⟨⟩
    exact zeros_terminated (by decide)
  defaultLanguage := by
    rintro r ⟨⟩
    exact zeros_terminated (by decide)

theorem sfo_in_bounds_title : Safe (parseParamSfo (ofBytes titleFile) callerOutputs) (Filled callerOutputs) :=
  (sfo_in_bounds titleFile callerOutputs_strings).mpr fun h i _ =>
    not_overruns (by decide) h i

/-- A file of more than 4 GiB, whose key table starts at the last 32-bit offset. -/
def wideFile : Text :=
  [0, 80, 83, 70, 1, 1, 0, 0, 255, 255, 255, 255, 0, 0, 0, 0, 1, 0, 0, 0,
    1, 0, 4, 2, 1, 0, 0, 0, 1, 0, 0, 0, 0, 0, 0, 0] ++ List.replicate (2 ^ 32) 1

theorem sfo_in_bounds_fails :
    ¬∀ sfo out, Outputs.Strings out → Safe (parseParamSfo (ofBytes sfo) out) (Filled out) := by
  intro hall
  have hlen : wideFile.length = 36 + 2 ^ 32 := by
    unfold wideFile
    rw [List.length_append, List.length_replicate]
    rfl
  have hkeys : PkgMetadata.readLe wideFile 8 4 = 2 ^ 32 - 1 := by rfl
  have hdata : PkgMetadata.readLe wideFile 12 4 = 0 := by rfl
  have hcount : PkgMetadata.readLe wideFile 16 4 = 1 := by rfl
  have hoff : PkgMetadata.readLe wideFile 20 2 = 1 := by rfl
  have haccepted : Accepted wideFile := ⟨by omega, by rfl, by omega, by omega, by omega⟩
  have hmem : 0 ∈ entriesOf wideFile := by
    unfold entriesOf visited
    rw [hcount, hlen]
    decide
  have hat : keyAt wideFile 0 = 2 ^ 32 := by
    unfold keyAt
    rw [hkeys, hoff]
    norm_num
  have hover : Overruns wideFile 0 := by
    refine ⟨Nat.le_of_eq hat.symm, fun h0 => ?_⟩
    rw [hat] at h0
    unfold wideFile at h0
    rw [List.drop_append, List.drop_eq_nil_of_le (by decide), List.nil_append] at h0
    exact absurd (List.eq_of_mem_replicate (List.mem_of_mem_drop h0)) (by decide)
  obtain ⟨r, hr, -⟩ := hall wideFile callerOutputs callerOutputs_strings
  exact parse_overruns haccepted hmem hover callerOutputs r hr

end PkgManager.SfoBounds
