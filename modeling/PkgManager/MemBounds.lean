import PkgManager.MemFields
import PkgManager.ParserAgreement

namespace PkgManager.MemBounds

open CText (ascii upToNul)
open BoundedMemory MemParser MemFields
open PkgMetadata (Text quoted jsonExtractKey)
open PkgParser (slice memName isJson cntMagic fihMagic badgeKeys Entry Strings)
open SfoBounds (readLe_value)
open JsonSearch (Overruns Fitting)

/-! Where the parser reads. -/

/-- The places the walk over the entries starts from. -/
structure Places where
  offset : Nat
  entries : List Entry
  strings : Option Strings

/-- The string table, which the first entry of type 0x0200 places. -/
def stringsOf (data : Text) (offset : Nat) (entries : List Entry) : Option Strings :=
  match entries.find? (·.type = 0x0200) with
  | none => none
  | some e =>
    if e.dataSize = 0 ∨ 65536 ≤ e.dataSize then none
    else (slice data (wrapped (offset + e.dataOff)) e.dataSize).map fun text =>
      ⟨text, wrapped (offset + e.dataOff) + e.dataSize⟩

/-- The places that an entry table of `n` entries gives. -/
def placesAt (data : Text) (offset : Nat) (table : Text) (n : Nat) : Places :=
  let entries := (List.range n).map (PkgParser.readEntry table)
  ⟨offset, entries, stringsOf data offset entries⟩

/-- None where the parser does not get to the walk. -/
def placesOf (data : Text) (total : Nat) : Option Places :=
  if data.length < 0x80 ∨ PkgParser.hasMultipartMagic data then none
  else ((PkgParser.findCnt data fun cand => total = 0 ∨ cand < total).bind
    (PkgParser.readCnt data)).bind fun cnt =>
      (slice data (wrapped (cnt.offset + cnt.tableOffset)) (cnt.entryCount * 32)).map fun table =>
        placesAt data cnt.offset table cnt.entryCount

/-- The name of an entry ends in the string table, or is too long to be copied, or a
byte of the data follows the table. -/
def NameInside (data : Text) (strings : Option Strings) (nameOff : Nat) : Prop :=
  ∀ s ∈ strings, nameOff < s.text.length →
    0 ∈ s.text.drop nameOff ∨ 128 ≤ (s.text.drop nameOff).length ∨ s.close < data.length

/-- The searches for these keys, which end with the first that has a value. -/
def KeysInside (p : Text) (n : Nat) : List String → Prop
  | [] => True
  | key :: keys => ¬Overruns (quoted (ascii key)) p n ∧
    ((jsonExtractKey (p.take n) (p.drop n) key 32).isSome = false → KeysInside p n keys)

/-- The searches in a `param.json` of `n` bytes at the beginning of `p`. -/
def JsonInside (p : Text) (n : Nat) : Prop :=
  (∀ key ∈ ["titleId", "titleName", "category"], ¬Overruns (quoted (ascii key)) p n) ∧
    KeysInside p n versionKeys

/-- The text of an entry that is a `param.json`. -/
def TextInside (data : Text) (offset : Nat) (e : Entry) : Prop :=
  0 < e.dataSize → e.dataSize < 262144 → wrapped (offset + e.dataOff) + e.dataSize ≤ data.length →
    JsonInside (data.drop (wrapped (offset + e.dataOff))) e.dataSize

/-- The reads for one entry. -/
def EntryInside (data : Text) (places : Places) (e : Entry) : Prop :=
  NameInside data places.strings e.nameOff ∧
    (isJson e (memName data places.strings e.nameOff) → TextInside data places.offset e)

/-- The reads for the entries that the walk goes over. -/
def Inside (data : Text) (total : Nat) : Prop :=
  ∀ places, placesOf data total = some places → ∀ e ∈ places.entries, EntryInside data places e

/-! Reading the header. -/

variable {data : Text}

theorem memSlice_some {off sz : Nat} (hsz : 0 < sz) (h : off + sz ≤ data.length) :
    memSlice (ofBytes data) off sz = some (ofBytes (data.drop off)) := by
  unfold memSlice
  rw [length_ofBytes, if_neg (by omega), if_neg (by omega), drop_ofBytes]

theorem memSlice_none {off sz : Nat} (h : data.length < off + sz) :
    memSlice (ofBytes data) off sz = none := by
  unfold memSlice
  rw [length_ofBytes]
  split
  · rfl
  · rw [if_pos (by omega)]

theorem slice_some {off n : Nat} (h : off + n ≤ data.length) :
    slice data off n = some ((data.drop off).take n) := by
  unfold slice
  rw [if_pos h]

theorem slice_none {off n : Nat} (h : data.length < off + n) : slice data off n = none := by
  unfold slice
  rw [if_neg (Nat.not_le.mpr h)]

theorem readBe_ofBytes {off : Nat} (h : off + 4 ≤ data.length) :
    readBe ((ofBytes data).drop off) = .ok (PkgParser.readBe32 data off) := by
  unfold readBe
  rw [drop_ofBytes, readBytes_ofBytes (by rw [List.length_drop]; omega), ok_bind]
  unfold PkgParser.readBe32
  rw [List.drop_zero, List.take_take, Nat.min_self]
  rfl

/-- A number in the first bytes of a text. -/
theorem readBe32_take {off n : Nat} (h : off + 4 ≤ n) :
    PkgParser.readBe32 (data.take n) off = PkgParser.readBe32 data off := by
  unfold PkgParser.readBe32
  rw [List.drop_take, List.take_take, Nat.min_eq_left (by omega)]

theorem hasMagic_ofBytes {magic : Text} (h : magic.length ≤ data.length) :
    hasMagic (ofBytes data) magic = .ok (data.take magic.length = magic) := by
  unfold hasMagic
  rw [readBytes_ofBytes h, ok_bind]
  rfl

theorem isCntAt_ofBytes (cand : Nat) :
    isCntAt (ofBytes data) cand = .ok (PkgParser.isCntAt data cand) := by
  unfold isCntAt PkgParser.isCntAt
  by_cases h : cand + 4 ≤ data.length
  · rw [memSlice_some (by decide) h, slice_some h]
    dsimp only
    rw [hasMagic_ofBytes (by rw [List.length_drop]; exact Nat.le_sub_of_add_le' h)]
    simp [cntMagic]
  · rw [memSlice_none (Nat.lt_of_not_le h), slice_none (Nat.lt_of_not_le h)]
    rfl

theorem readLe_ofBytes {off width : Nat} (h : off + width ≤ data.length) :
    SfoBounds.readLe (ofBytes (data.drop off)) width = .ok (PkgMetadata.readLe data off width) := by
  rw [← drop_ofBytes]
  exact readLe_value h

theorem entryCandidate_ofBytes (total : Nat) (h : 0x80 ≤ data.length) :
    entryCandidate (ofBytes data) total =
      .ok (let entry := PkgMetadata.readLe data 0x58 8
        if 0 < entry ∧ (total = 0 ∨ entry < total) ∧ PkgParser.isCntAt data entry then some entry
        else none) := by
  unfold entryCandidate
  rw [memSlice_some (by decide) (by omega)]
  dsimp only
  rw [readLe_ofBytes (by omega), ok_bind]
  by_cases hin : 0 < PkgMetadata.readLe data 0x58 8 ∧
      (total = 0 ∨ PkgMetadata.readLe data 0x58 8 < total)
  · rw [if_pos hin, isCntAt_ofBytes, ok_bind]
    by_cases hcnt : PkgParser.isCntAt data (PkgMetadata.readLe data 0x58 8) = true
    · rw [if_pos hcnt, if_pos ⟨hin.1, hin.2, hcnt⟩]
      rfl
    · rw [if_neg hcnt, if_neg fun h => hcnt h.2.2]
      rfl
  · rw [if_neg hin, if_neg fun h => hin ⟨h.1, h.2.1⟩]
    rfl

/-- Offsets in order: those from the end of the window on give nothing. -/
theorem scanCnt_ofBytes (total : Nat) {offs : List Nat} (h : offs.Pairwise (· < ·)) :
    scanCnt (ofBytes data) total offs = .ok (offs.findSome? fun off =>
      let cand := PkgMetadata.readLe data off 8
      if off + 8 ≤ min data.length 0x200 ∧ 0x10000 ≤ cand ∧ decide (total = 0 ∨ cand < total) ∧
          cand % 0x1000 = 0 ∧ PkgParser.isCntAt data cand then some cand else none) := by
  induction offs with
  | nil => rfl
  | cons off offs ih =>
    obtain ⟨hlater, hoffs⟩ := List.pairwise_cons.mp h
    rw [scanCnt, length_ofBytes, List.findSome?_cons]
    by_cases hend : min data.length 0x200 < off + 8
    · have hnone : ∀ x ∈ off :: offs, ¬x + 8 ≤ min data.length 0x200 := by
        intro x hx
        rcases List.mem_cons.mp hx with rfl | hx
        · omega
        · have hlt := hlater x hx
          omega
      rw [if_pos hend, if_neg fun h => hnone off List.mem_cons_self h.1]
      congr 1
      refine (List.findSome?_eq_none_iff.mpr fun x hx => ?_).symm
      exact if_neg fun h => hnone x (List.mem_cons_of_mem off hx) h.1
    rw [if_neg hend, memSlice_some (by decide) (by omega)]
    dsimp only
    rw [readLe_ofBytes (by omega), ok_bind, ih hoffs]
    generalize PkgMetadata.readLe data off 8 = cand
    by_cases hin : 0x10000 ≤ cand ∧ (total = 0 ∨ cand < total) ∧ cand % 0x1000 = 0
    · rw [if_pos hin, isCntAt_ofBytes, ok_bind]
      by_cases hcnt : PkgParser.isCntAt data cand = true
      · rw [if_pos hcnt, if_pos ⟨by omega, hin.1, decide_eq_true hin.2.1, hin.2.2, hcnt⟩]
        rfl
      · rw [if_neg hcnt, if_neg fun h => hcnt h.2.2.2.2]
    · rw [if_neg hin, if_neg fun h => hin ⟨h.2.1, of_decide_eq_true h.2.2.1, h.2.2.2.1⟩]

theorem findCnt_ofBytes (total : Nat) (h : 0x80 ≤ data.length) :
    findCnt (ofBytes data) (ofBytes data) total =
      .ok (PkgParser.findCnt data fun cand => total = 0 ∨ cand < total) := by
  unfold findCnt PkgParser.findCnt
  rw [hasMagic_ofBytes (by simp [cntMagic]; omega), ok_bind]
  by_cases hcnt : data.take 4 = cntMagic
  · rw [if_pos (by simpa [cntMagic] using hcnt), if_pos hcnt]
    rfl
  rw [if_neg (by simpa [cntMagic] using hcnt), if_neg hcnt,
    hasMagic_ofBytes (by simp [fihMagic]; omega), ok_bind]
  by_cases hfih : data.take 4 = fihMagic
  swap
  · rw [if_neg (by simpa [fihMagic] using hfih), if_neg hfih]
    rfl
  rw [if_pos (by simpa [fihMagic] using hfih), if_pos hfih, entryCandidate_ofBytes total h, ok_bind]
  dsimp only
  by_cases hentry : 0 < PkgMetadata.readLe data 0x58 8 ∧
      (total = 0 ∨ PkgMetadata.readLe data 0x58 8 < total) ∧
        PkgParser.isCntAt data (PkgMetadata.readLe data 0x58 8) = true
  · rw [if_pos hentry, if_pos ⟨hentry.1, decide_eq_true hentry.2.1, hentry.2.2⟩]
    rfl
  · rw [if_neg hentry, if_neg fun h => hentry ⟨h.1, of_decide_eq_true h.2.1, h.2.2⟩]
    exact scanCnt_ofBytes total (by decide)

/-! The entries and the string table. -/

theorem readEntry_ofBytes {p : Text} {n i : Nat} (hi : i < n) (hp : n * 32 ≤ p.length) :
    MemParser.readEntry (ofBytes p) i = .ok (PkgParser.readEntry (p.take (n * 32)) i) := by
  have hread : ∀ off, i * 32 + off + 4 ≤ n * 32 → readBe ((ofBytes p).drop (i * 32 + off)) =
      .ok (PkgParser.readBe32 (p.take (n * 32)) (i * 32 + off)) := by
    intro off hoff
    rw [readBe_ofBytes (by omega), readBe32_take hoff]
  unfold MemParser.readEntry
  dsimp only
  rw [List.drop_drop, List.drop_drop, List.drop_drop, hread 4 (by omega), hread 16 (by omega),
    hread 20 (by omega)]
  have htype := hread 0 (by omega)
  rw [Nat.add_zero] at htype
  rw [htype]
  rfl

/-- The place and the size of the string table. -/
def placeOf (entries : List Entry) : Nat × Nat :=
  match entries.find? (·.type = 0x0200) with
  | none => (0, 0)
  | some e => (e.dataOff, e.dataSize)

theorem findStrings_ofBytes {p : Text} {n : Nat} (hp : n * 32 ≤ p.length) {is : List Nat}
    (his : ∀ i ∈ is, i < n) :
    findStrings (ofBytes p) is = .ok (placeOf (is.map (PkgParser.readEntry (p.take (n * 32))))) := by
  induction is with
  | nil => rfl
  | cons i is ih =>
    have hi : i < n := his i List.mem_cons_self
    have hread : ∀ off, i * 32 + off + 4 ≤ n * 32 → readBe ((ofBytes p).drop (i * 32 + off)) =
        .ok (PkgParser.readBe32 (p.take (n * 32)) (i * 32 + off)) := by
      intro off hoff
      rw [readBe_ofBytes (by omega), readBe32_take hoff]
    have htype := hread 0 (by omega)
    rw [Nat.add_zero] at htype
    rw [findStrings, htype, ok_bind, List.drop_drop, List.drop_drop, hread 16 (by omega),
      hread 20 (by omega), ih fun i hi => his i (List.mem_cons_of_mem _ hi)]
    unfold placeOf
    rw [List.map_cons, List.find?_cons]
    by_cases h : PkgParser.readBe32 (p.take (n * 32)) (i * 32) = 0x0200
    · have hfirst : (decide ((PkgParser.readEntry (p.take (n * 32)) i).type = 0x0200)) = true :=
        decide_eq_true h
      rw [if_pos h, hfirst]
      rfl
    · have hfirst : (decide ((PkgParser.readEntry (p.take (n * 32)) i).type = 0x0200)) = false :=
        decide_eq_false h
      rw [if_neg h, hfirst]

/-- The bytes of a string table stand in the data where it ends. -/
structure Stands (data : Text) (s : Strings) : Prop where
  length : s.text.length ≤ s.close
  close : s.close ≤ data.length
  text : s.text = (data.drop (s.close - s.text.length)).take s.text.length

def tableOf (data : Text) (s : Strings) : Table :=
  ⟨ofBytes (data.drop (s.close - s.text.length)), s.text.length⟩

theorem stringTable_ofBytes (data : Text) (offset : Nat) (entries : List Entry) :
    stringTable (ofBytes data) offset (placeOf entries) =
        (stringsOf data offset entries).map (tableOf data) ∧
      ∀ s ∈ stringsOf data offset entries, Stands data s := by
  unfold stringTable placeOf stringsOf
  cases entries.find? (·.type = 0x0200) with
  | none => exact ⟨rfl, fun s hs => nomatch hs⟩
  | some e =>
    dsimp only
    by_cases hsize : 0 < e.dataSize ∧ e.dataSize < 65536
    swap
    · rw [if_neg hsize, if_pos (by omega)]
      exact ⟨rfl, fun s hs => nomatch hs⟩
    rw [if_pos hsize, if_neg (by omega)]
    generalize wrapped (offset + e.dataOff) = off
    by_cases hin : off + e.dataSize ≤ data.length
    · have hlen : ((data.drop off).take e.dataSize).length = e.dataSize :=
        List.length_take_of_le (by rw [List.length_drop]; omega)
      rw [memSlice_some hsize.1 hin, slice_some hin]
      refine ⟨?_, fun s hs => ?_⟩
      · simp only [Option.map_some, tableOf]
        rw [hlen, Nat.add_sub_cancel]
      · obtain rfl := Option.some.inj hs
        refine ⟨?_, hin, ?_⟩
        · rw [hlen]
          exact Nat.le_add_left _ _
        · rw [hlen, Nat.add_sub_cancel]
    · rw [memSlice_none (Nat.lt_of_not_le hin), slice_none (Nat.lt_of_not_le hin)]
      exact ⟨rfl, fun s hs => nomatch hs⟩

/-! Names. -/

theorem upToNul_cons (b : UInt8) (s : Text) :
    upToNul (b :: s) = if b = 0 then [] else b :: upToNul s := by
  unfold upToNul
  rw [List.takeWhile_cons]
  by_cases hb : b = 0
  · rw [if_pos hb, if_neg (by simp [hb])]
  · rw [if_neg hb, if_pos (by simp [hb])]

theorem upToNul_zeros (s : Text) (k : Nat) : upToNul (s ++ List.replicate k 0) = upToNul s := by
  induction s with
  | nil => cases k <;> rfl
  | cons b s ih => rw [List.cons_append, upToNul_cons, upToNul_cons, ih]

theorem upToNul_of_free {s : Text} (h : 0 ∉ s) : upToNul s = s :=
  List.takeWhile_eq_self_iff.mpr fun _ hb => decide_eq_true fun h0 => h (h0 ▸ hb)

theorem length_upToNul_lt {s : Text} (h : 0 ∈ s) : (upToNul s).length < s.length := by
  induction s with
  | nil => cases h
  | cons b s ih =>
    rw [upToNul_cons]
    by_cases hb : b = 0
    · rw [if_pos hb]
      exact Nat.succ_pos _
    · rw [if_neg hb]
      exact Nat.succ_lt_succ (ih ((List.mem_cons.mp h).resolve_left fun h0 => hb h0.symm))

/-- A comparison with a text that is shorter than the memory ends in it. -/
theorem equals_ofBytes {s t : Text} (hlen : t.length < s.length) (ht : 0 ∉ t) :
    equals (ofBytes s) t = .ok (upToNul s = t) := by
  induction s generalizing t with
  | nil => cases hlen
  | cons b s ih =>
    show equals (some b :: ofBytes s) t = _
    rw [upToNul_cons]
    cases t with
    | nil =>
      rw [equals]
      by_cases hb : b = 0
      · rw [if_pos hb, decide_eq_true hb]
        rfl
      · rw [if_neg hb, decide_eq_false hb]
        rfl
    | cons c t =>
      have hc : c ≠ 0 := fun h0 => ht (h0 ▸ List.mem_cons_self)
      rw [equals]
      by_cases hbc : b = c
      · rw [if_pos hbc, if_neg (hbc ▸ hc), ih (Nat.lt_of_succ_lt_succ hlen) fun h0 =>
          ht (List.mem_cons_of_mem c h0), hbc]
        congr 1
        simp
      · rw [if_neg hbc]
        congr 1
        by_cases hb : b = 0 <;> simp [hb, hbc]

theorem stringUpTo_ofBytes {s : Text} {n : Nat} (h : n ≤ s.length) :
    stringUpTo (ofBytes s) n = .ok (upToNul (s.take n)) := by
  induction n generalizing s with
  | zero => cases s <;> rfl
  | succ n ih =>
    cases s with
    | nil => cases h
    | cons b s =>
      show stringUpTo (some b :: ofBytes s) (n + 1) = _
      rw [stringUpTo, List.take_succ_cons, upToNul_cons, ih (Nat.le_of_succ_le_succ h)]
      by_cases hb : b = 0
      · rw [if_pos hb, if_pos hb]
      · rw [if_neg hb, if_neg hb]
        rfl

/-- Comparisons with the texts of the program find this name. -/
def Named (name : Region) (text : Text) : Prop :=
  ∀ t, 0 ∉ t → t.length < 128 → equals name t = .ok (text = t)

theorem named_empty : Named (literal []) [] := fun t ht _ => by
  rw [cstring_equals (cstring_literal List.not_mem_nil) ht]

/-- The name as it is copied into the array. -/
theorem named_copy {l : Text} (h : l.length ≤ 128) (hne : l ≠ []) :
    Safe (write (zeros 128) 0 l) fun name => Named name (upToNul l) := by
  have hzeros : zeros 128 = ofBytes (List.replicate 128 0) := by
    rw [zeros, ofBytes, List.map_replicate]
  have hname : (zeros 128).take 0 ++ ofBytes l ++ (zeros 128).drop (0 + l.length) =
      ofBytes (l ++ List.replicate (128 - l.length) 0) := by
    rw [hzeros, drop_ofBytes, List.drop_replicate, List.take_zero, List.nil_append, Nat.zero_add]
    unfold ofBytes
    rw [List.map_append]
  unfold write
  rw [if_neg hne, if_pos (by rw [zeros, List.length_replicate]; omega), hname]
  refine .pure fun t ht hlen => ?_
  rw [equals_ofBytes (by simp; omega) ht, upToNul_zeros]

variable {strings : Option Strings} {nameOff : Nat}

/-- What is left of the table and of the data behind an offset. -/
theorem Stands.drop {s : Strings} (h : Stands data s) (hoff : nameOff < s.text.length) :
    ∃ q, (ofBytes (data.drop (s.close - s.text.length))).drop nameOff = ofBytes q ∧
      s.text.drop nameOff = q.take (s.text.length - nameOff) ∧
      s.text.drop nameOff ++ data.drop s.close = q ∧
      q.length + s.close = data.length + (s.text.length - nameOff) := by
  obtain ⟨hlen, hclose, htext⟩ := h
  have hdrop : s.text.drop nameOff =
      (data.drop (s.close - s.text.length + nameOff)).take (s.text.length - nameOff) := by
    rw [← List.drop_drop, ← List.drop_take, ← htext]
  refine ⟨data.drop (s.close - s.text.length + nameOff), ?_, hdrop, ?_, ?_⟩
  · rw [← List.drop_drop]
    exact drop_ofBytes _ _
  · have hrest : data.drop s.close =
        (data.drop (s.close - s.text.length + nameOff)).drop (s.text.length - nameOff) := by
      rw [List.drop_drop]
      congr 1
      omega
    rw [hdrop, hrest, List.take_append_drop]
  · rw [List.length_drop]
    omega

theorem entryName_inside (hs : ∀ s ∈ strings, Stands data s) (h : NameInside data strings nameOff) :
    Safe (entryName (strings.map (tableOf data)) nameOff) fun name =>
      Named name (memName data strings nameOff) := by
  cases strings with
  | none => exact .pure named_empty
  | some s =>
    simp only [entryName, memName, Option.map_some, tableOf]
    by_cases hoff : nameOff < s.text.length
    swap
    · rw [if_neg hoff, if_neg hoff]
      exact .pure named_empty
    obtain ⟨q, hq, hname, hall, hlen⟩ := (hs s rfl).drop hoff
    have hclose := (hs s rfl).close
    rw [if_pos hoff, if_pos hoff, hq, hall, stringUpTo_ofBytes (by omega), ← hname, ok_bind]
    by_cases hshort : (upToNul (s.text.drop nameOff)).length < 128
    swap
    · rw [if_neg hshort, if_neg hshort]
      exact .pure named_empty
    rw [if_pos hshort, if_pos hshort]
    have hfits : (upToNul (s.text.drop nameOff)).length + 1 ≤ q.length := by
      have hdrop : (s.text.drop nameOff).length = s.text.length - nameOff := List.length_drop
      have hle : (upToNul (s.text.drop nameOff)).length ≤ (s.text.drop nameOff).length :=
        (List.takeWhile_prefix _).length_le
      rcases h s rfl hoff with h | h | h
      · have hlt := length_upToNul_lt h
        omega
      · by_cases hnul : 0 ∈ s.text.drop nameOff
        · have hlt := length_upToNul_lt hnul
          omega
        · rw [upToNul_of_free hnul] at hshort
          omega
      · omega
    unfold memcpy
    rw [readBytes_ofBytes hfits, ok_bind]
    refine named_copy ?_ ?_
    · rw [List.length_take]
      omega
    · intro hnil
      have hzero := congrArg List.length hnil
      rw [List.length_take_of_le hfits] at hzero
      cases hzero

theorem entryName_overruns (hs : ∀ s ∈ strings, Stands data s) (h : ¬NameInside data strings nameOff) :
    entryName (strings.map (tableOf data)) nameOff = .error .read := by
  unfold NameInside at h
  push Not at h
  obtain ⟨s, rfl, hoff, hnul, hshort, hend⟩ := h
  obtain ⟨q, hq, hname, -, hlen⟩ := (hs s rfl).drop hoff
  have hclose := (hs s rfl).close
  have hdrop : (s.text.drop nameOff).length = s.text.length - nameOff := List.length_drop
  simp only [entryName, Option.map_some, tableOf]
  rw [if_pos hoff, hq, stringUpTo_ofBytes (by omega), ← hname, ok_bind, upToNul_of_free hnul,
    if_pos hshort]
  unfold memcpy
  rw [readBytes_faults (by omega)]
  rfl

theorem isEntry_named {name : Region} {text : Text} (h : Named name text) {texts : List String}
    (htexts : ∀ t ∈ texts, 0 ∉ ascii t ∧ (ascii t).length < 128) (byType : Bool) :
    isEntry byType name texts = .ok (byType || texts.any fun t => text = ascii t) := by
  induction texts generalizing byType with
  | nil => rw [isEntry, List.any_nil, Bool.or_false]
  | cons t texts ih =>
    obtain ⟨hnul, hlen⟩ := htexts t List.mem_cons_self
    rw [isEntry, List.any_cons]
    cases byType with
    | true => rfl
    | false =>
      rw [if_neg (by decide), h _ hnul hlen, ok_bind,
        ih fun t ht => htexts t (List.mem_cons_of_mem _ ht)]
      rfl

/-! The text of a `param.json`. -/

variable {p : Text} {n : Nat} {dst : Region}

theorem hasAnyKey_safe {json : Region} (h : Written json n) {keys : List String}
    (hkeys : ∀ key ∈ keys, Fitting key) : Safe (hasAnyKey json n keys) fun _ => True := by
  induction keys with
  | nil => exact .pure trivial
  | cons key keys ih =>
    refine (JsonSearch.hasKey_safe h (hkeys key List.mem_cons_self)).bind fun b _ => ?_
    split
    · exact .pure trivial
    · exact ih fun key hk => hkeys key (List.mem_cons_of_mem _ hk)

/-- A search into a zeroed local array. -/
theorem extractKey_zeros {key : String} (hkey : Fitting key) {max : Nat} (hmax : 0 < max)
    (hn : n ≤ p.length) (h : ¬Overruns (quoted (ascii key)) p n) :
    Safe (JsonSearch.extractKey (ofBytes p) n key (zeros max)) fun v => (∀ r ∈ v, Terminated r) ∧
      v.isSome = (jsonExtractKey (p.take n) (p.drop n) key 32).isSome := by
  have hout : 0 < (zeros max).length := by
    rw [zeros, List.length_replicate]
    exact hmax
  exact (JsonSearch.extractKey_inside hkey hout 32 hn h).imp fun v hv =>
    ⟨fun r hr => (hv.1 r hr).terminated, hv.2⟩

theorem not_overruns_of_ok {key : String} (hkey : Fitting key) {max : Nat} (hmax : 0 < max)
    (hn : n ≤ p.length) {v : Option Region}
    (h : JsonSearch.extractKey (ofBytes p) n key (zeros max) = .ok v) :
    ¬Overruns (quoted (ascii key)) p n := by
  intro hover
  have hout : 0 < (zeros max).length := by
    rw [zeros, List.length_replicate]
    exact hmax
  rw [JsonSearch.extractKey_overruns hkey hout hn hover] at h
  cases h

theorem takeKey_field {m max : Nat} (hdst : Field m dst) {key : String} (hkey : Fitting key)
    (hmax : 0 < max) (hn : n ≤ p.length) (h : ¬Overruns (quoted (ascii key)) p n) :
    Safe (takeKey (ofBytes p) n key max dst) (Field m) := by
  unfold takeKey
  refine (extractKey_zeros hkey hmax hn h).bind fun v hv => ?_
  cases v with
  | none => exact .pure hdst
  | some value => exact copyField_field hdst (hv.1 value rfl)

theorem takeCategory_field {m : Nat} (hdst : Field m dst) (hn : n ≤ p.length)
    (h : ¬Overruns (quoted (ascii "category")) p n) :
    Safe (takeCategory (ofBytes p) n dst) (Field m) := by
  unfold takeCategory
  refine (extractKey_zeros (by decide) (by decide) hn h).bind fun v hv => ?_
  cases v with
  | none => exact .pure hdst
  | some value =>
    refine (isEmpty_safe hdst.terminated).bind fun b _ => ?_
    split
    · exact copyField_field hdst (hv.1 value rfl)
    · exact .pure hdst

theorem firstKey_inside (hn : n ≤ p.length) {keys : List String} (hkeys : ∀ key ∈ keys, Fitting key)
    (h : KeysInside p n keys) :
    Safe (firstKey (ofBytes p) n keys) fun v => ∀ r ∈ v, Terminated r := by
  induction keys with
  | nil => exact .pure fun r hr => nomatch hr
  | cons key keys ih =>
    refine (extractKey_zeros (hkeys key List.mem_cons_self) (by decide) hn h.1).bind fun v hv => ?_
    cases v with
    | some value => exact .pure hv.1
    | none => exact ih (fun key hk => hkeys key (List.mem_cons_of_mem _ hk)) (h.2 hv.2.symm)

theorem keysInside_of_ok (hn : n ≤ p.length) {keys : List String} (hkeys : ∀ key ∈ keys, Fitting key)
    {v : Option Region} (h : firstKey (ofBytes p) n keys = .ok v) : KeysInside p n keys := by
  induction keys with
  | nil => exact trivial
  | cons key keys ih =>
    have hkey := hkeys key List.mem_cons_self
    obtain ⟨value, hvalue, hrest⟩ := bind_ok h
    have hnot := not_overruns_of_ok hkey (by decide) hn hvalue
    refine ⟨hnot, fun hnone => ?_⟩
    have hzeros : 0 < 32 := by decide
    obtain ⟨value', hvalue', -, hsome⟩ := extractKey_zeros hkey hzeros hn hnot
    obtain rfl := Except.ok.inj (hvalue.symm.trans hvalue')
    rw [hnone] at hsome
    cases value with
    | some value => cases hsome
    | none => exact ih (fun key hk => hkeys key (List.mem_cons_of_mem _ hk)) hrest

theorem takeVersion_field {m : Nat} (hdst : Field m dst) {ver : Region} (hver : Terminated ver) :
    Safe (takeVersion dst ver) (Field m) := by
  unfold takeVersion
  obtain ⟨s, hs⟩ := hver
  rw [hs, ok_bind]
  split
  · exact .pure hdst
  split
  · exact printField_field hdst _
  · exact copyField_field hdst ⟨s, hs⟩

theorem versionKeys_fitting : ∀ key ∈ versionKeys, Fitting key := by decide

theorem jsonFields_sound {w : Walk} (hw : Sound w.out) (hn : n ≤ p.length) (h : JsonInside p n) :
    Safe (jsonFields (ofBytes p) n w) fun w' => Sound w'.out := by
  obtain ⟨hkeys, hversion⟩ := h
  unfold jsonFields
  have hbadge : Safe (hasAnyKey (ofBytes p) n badgeKeys) fun _ => True :=
    hasAnyKey_safe ((written_ofBytes p).mono hn) (by decide)
  refine hbadge.bind fun badge _ => ?_
  have hid : Safe (takeKey (ofBytes p) n "titleId" 32 w.out.titleId) (Field 32) :=
    takeKey_field hw.titleId (by decide) (by decide) hn (hkeys _ (by simp))
  refine hid.bind fun titleId htitleId => ?_
  have hname : Safe (takeKey (ofBytes p) n "titleName" 256 w.out.titleName) (Field 256) :=
    takeKey_field hw.titleName (by decide) (by decide) hn (hkeys _ (by simp))
  refine hname.bind fun titleName htitleName => ?_
  refine (takeCategory_field hw.category hn (hkeys _ (by simp))).bind fun category hcategory => ?_
  have hver : Safe (versionField (ofBytes p) n w.out.appVersion) (Field 32) := by
    unfold versionField
    refine (firstKey_inside hn versionKeys_fitting hversion).bind fun v hv => ?_
    cases v with
    | none => exact .pure hw.appVersion
    | some ver => exact takeVersion_field hw.appVersion (hv ver rfl)
  refine hver.bind fun appVersion happVersion => .pure ?_
  exact { hw with
    titleId := htitleId, titleName := htitleName, category := hcategory, appVersion := happVersion }

theorem jsonInside_of_ok {w w' : Walk} (hn : n ≤ p.length) (h : jsonFields (ofBytes p) n w = .ok w') :
    JsonInside p n := by
  unfold jsonFields at h
  obtain ⟨badge, -, h⟩ := bind_ok h
  obtain ⟨titleId, hid, h⟩ := bind_ok h
  obtain ⟨titleName, hname, h⟩ := bind_ok h
  obtain ⟨category, hcategory, h⟩ := bind_ok h
  obtain ⟨appVersion, hversion, h⟩ := bind_ok h
  obtain ⟨v₁, hid, -⟩ := bind_ok hid
  obtain ⟨v₂, hname, -⟩ := bind_ok hname
  obtain ⟨v₃, hcategory, -⟩ := bind_ok hcategory
  obtain ⟨v₄, hversion, -⟩ := bind_ok hversion
  refine ⟨fun key hkey => ?_, keysInside_of_ok hn versionKeys_fitting hversion⟩
  simp only [List.mem_cons, List.not_mem_nil, or_false] at hkey
  rcases hkey with rfl | rfl | rfl
  · exact not_overruns_of_ok (by decide) (by decide) hn hid
  · exact not_overruns_of_ok (by decide) (by decide) hn hname
  · exact not_overruns_of_ok (by decide) (by decide) hn hcategory

/-! The text of a `param.sfo`. -/

theorem givesCategory_safe {src : Option Region} (hsrc : ∀ r ∈ src, Terminated r)
    (hdst : Terminated dst) : Safe (givesCategory dst src) fun _ => True := by
  cases src with
  | none => exact .pure trivial
  | some src =>
    refine (isEmpty_safe (hsrc src rfl)).bind fun b _ => ?_
    split
    · exact .pure trivial
    · exact isEmpty_safe hdst

theorem sfoFields_sound {w : Walk} (hw : Sound w.out) (hn : n ≤ p.length) (hsmall : n < 262144) :
    Safe (sfoFields (ofBytes p) n w) fun w' => Sound w'.out := by
  have htake : (ofBytes p).take n = ofBytes (p.take n) := by
    rw [ofBytes, ofBytes, List.map_take]
  have hlen : (p.take n).length = n := List.length_take_of_le hn
  have hparse : Safe (SfoBounds.parseParamSfo ((ofBytes p).take n) SfoBounds.callerOutputs)
      (SfoBounds.Filled SfoBounds.callerOutputs) := by
    rw [htake]
    exact SfoBounds.parse_sound SfoBounds.callerOutputs_strings fun haccepted i _ =>
      SfoBounds.not_overruns (by omega) haccepted i
  unfold sfoFields
  refine hparse.bind fun r hr => ?_
  refine (givesCategory_safe hr.category.terminated hw.category.terminated).bind fun given _ => ?_
  refine (fillFrom_field hw.category hr.category.terminated).bind fun category hcategory => ?_
  refine (fillField_field hw.titleId hr.titleId.terminated).bind fun titleId htitleId => ?_
  refine (fillField_field hw.titleName hr.title.terminated).bind fun titleName htitleName => ?_
  refine (fillFrom_field hw.appVersion hr.version.terminated).bind fun appVersion happVersion => ?_
  refine (fillFrom_field hw.localizedTitles hr.localizedTitles.terminated).bind fun titles htitles => ?_
  refine (fillFrom_field hw.defaultLanguage hr.defaultLanguage.terminated).bind fun lang hlang => ?_
  refine .pure ?_
  exact { hw with
    category := hcategory, titleId := htitleId, titleName := htitleName, appVersion := happVersion,
    localizedTitles := htitles, defaultLanguage := hlang }

/-! The walk. -/

theorem withText_inside {offset : Nat} {e : Entry} {f : Region → Walk → Checked Walk} (w : Walk)
    (hsize : 0 < e.dataSize ∧ e.dataSize < 262144)
    (hin : wrapped (offset + e.dataOff) + e.dataSize ≤ data.length) :
    withText (ofBytes data) offset e f w = f (ofBytes (data.drop (wrapped (offset + e.dataOff)))) w := by
  unfold withText
  rw [if_pos hsize, memSlice_some hsize.1 hin]

theorem withText_outside {offset : Nat} {e : Entry} {f : Region → Walk → Checked Walk} (w : Walk)
    (h : ¬((0 < e.dataSize ∧ e.dataSize < 262144) ∧
      wrapped (offset + e.dataOff) + e.dataSize ≤ data.length)) :
    withText (ofBytes data) offset e f w = .ok w := by
  unfold withText
  split
  · rename_i hsize
    rw [memSlice_none (Nat.lt_of_not_le fun hin => h ⟨hsize, hin⟩)]
  · rfl

variable {offset : Nat} {e : Entry} {name : Region} {text : Text} {w : Walk}

theorem isJson_named (h : Named name text) :
    isEntry (e.type = 0x2000) name ["param.json"] = .ok (isJson e text) := by
  rw [isEntry_named h (by decide)]
  unfold isJson
  simp

theorem jsonStep_sound (hname : Named name text) (hw : Sound w.out)
    (h : isJson e text → TextInside data offset e) :
    Safe (jsonStep (ofBytes data) offset e name w) fun w' => Sound w'.out := by
  unfold jsonStep
  rw [isJson_named hname, ok_bind]
  split
  · rename_i hjson
    by_cases hin : (0 < e.dataSize ∧ e.dataSize < 262144) ∧
        wrapped (offset + e.dataOff) + e.dataSize ≤ data.length
    · rw [withText_inside w hin.1 hin.2]
      exact jsonFields_sound hw (by rw [List.length_drop]; omega) (h hjson hin.1.1 hin.1.2 hin.2)
    · rw [withText_outside w hin]
      exact .pure hw
  · exact .pure hw

theorem textInside_of_ok (hname : Named name text) {w' : Walk}
    (h : jsonStep (ofBytes data) offset e name w = .ok w') (hjson : isJson e text) :
    TextInside data offset e := by
  intro hpos hsmall hin
  unfold jsonStep at h
  rw [isJson_named hname, ok_bind, if_pos hjson, withText_inside w ⟨hpos, hsmall⟩ hin] at h
  exact jsonInside_of_ok (by rw [List.length_drop]; omega) h

theorem sfoStep_sound (hname : Named name text) (hw : Sound w.out) :
    Safe (sfoStep (ofBytes data) offset e name w) fun w' => Sound w'.out := by
  unfold sfoStep
  rw [isEntry_named hname (by decide), ok_bind]
  split
  · by_cases hin : (0 < e.dataSize ∧ e.dataSize < 262144) ∧
        wrapped (offset + e.dataOff) + e.dataSize ≤ data.length
    · rw [withText_inside w hin.1 hin.2]
      exact sfoFields_sound hw (by rw [List.length_drop]; omega) hin.1.2
    · rw [withText_outside w hin]
      exact .pure hw
  · exact .pure hw

/-- Entry `i` of a table of `n`. -/
theorem entryStep_sound (hs : ∀ s ∈ strings, Stands data s) {i : Nat} (hi : i < n)
    (hp : n * 32 ≤ p.length) (hw : Sound w.out)
    (hname : NameInside data strings (PkgParser.readEntry (p.take (n * 32)) i).nameOff)
    (hjson : isJson (PkgParser.readEntry (p.take (n * 32)) i)
      (memName data strings (PkgParser.readEntry (p.take (n * 32)) i).nameOff) →
        TextInside data offset (PkgParser.readEntry (p.take (n * 32)) i)) :
    Safe (entryStep (ofBytes data) offset (ofBytes p) (strings.map (tableOf data)) w i)
      fun w' => Sound w'.out := by
  unfold entryStep
  rw [readEntry_ofBytes hi hp, ok_bind]
  generalize PkgParser.readEntry (p.take (n * 32)) i = e at hname hjson
  refine (entryName_inside hs hname).bind fun name hnamed => ?_
  rw [isEntry_named hnamed (by decide), ok_bind, isEntry_named hnamed (by decide),
    ok_bind]
  have hsteps : ∀ w : Walk, Sound w.out → Safe (jsonStep (ofBytes data) offset e name w >>=
      sfoStep (ofBytes data) offset e name) fun w' => Sound w'.out := fun w hw =>
    (jsonStep_sound hnamed hw hjson).bind fun w' hw' => sfoStep_sound hnamed hw'
  exact hsteps _ hw

theorem entryInside_of_ok (hs : ∀ s ∈ strings, Stands data s) {i : Nat} (hi : i < n)
    (hp : n * 32 ≤ p.length) {w' : Walk}
    (h : entryStep (ofBytes data) offset (ofBytes p) (strings.map (tableOf data)) w i = .ok w') :
    NameInside data strings (PkgParser.readEntry (p.take (n * 32)) i).nameOff ∧
      (isJson (PkgParser.readEntry (p.take (n * 32)) i)
        (memName data strings (PkgParser.readEntry (p.take (n * 32)) i).nameOff) →
          TextInside data offset (PkgParser.readEntry (p.take (n * 32)) i)) := by
  unfold entryStep at h
  rw [readEntry_ofBytes hi hp, ok_bind] at h
  generalize PkgParser.readEntry (p.take (n * 32)) i = e at h ⊢
  have hname : NameInside data strings e.nameOff := by
    by_contra hnot
    rw [entryName_overruns hs hnot] at h
    cases h
  obtain ⟨name, hok, hnamed⟩ := entryName_inside hs hname
  rw [hok, ok_bind, isEntry_named hnamed (by decide), ok_bind,
    isEntry_named hnamed (by decide), ok_bind] at h
  obtain ⟨w₁, hjson, -⟩ := bind_ok h
  exact ⟨hname, fun his => textInside_of_ok hnamed hjson his⟩

theorem parseEntries_sound (typeMagic : Nat) {out : Detail} (hp : n * 32 ≤ p.length) (hout : Sound out)
    (h : ∀ e ∈ (placesAt data offset (p.take (n * 32)) n).entries,
      EntryInside data (placesAt data offset (p.take (n * 32)) n) e) :
    Safe (parseEntries (ofBytes data) offset typeMagic n (ofBytes p) out) fun r => Sound r.out := by
  unfold parseEntries
  rw [findStrings_ofBytes hp fun i hi => List.mem_range.mp hi, ok_bind]
  obtain ⟨htable, hstands⟩ := stringTable_ofBytes data offset
    ((List.range n).map (PkgParser.readEntry (p.take (n * 32))))
  rw [htable]
  have hloop : Safe ((List.range n).foldlM
      (entryStep (ofBytes data) offset (ofBytes p) ((stringsOf data offset
        ((List.range n).map (PkgParser.readEntry (p.take (n * 32))))).map (tableOf data)))
      ⟨out, false, false, false, false⟩) fun w => Sound w.out := by
    refine Safe.foldlM (I := fun w : Walk => Sound w.out) (fun i hi w hw => ?_) hout
    obtain ⟨hname, hjson⟩ := h _ (List.mem_map.mpr ⟨i, hi, rfl⟩)
    exact entryStep_sound hstands (List.mem_range.mp hi) hp hw hname hjson
  exact hloop.bind fun w hw => finish_sound typeMagic hw

theorem entries_of_ok {typeMagic : Nat} {out : Detail} (hp : n * 32 ≤ p.length) {r : Outcome}
    (h : parseEntries (ofBytes data) offset typeMagic n (ofBytes p) out = .ok r) :
    ∀ e ∈ (placesAt data offset (p.take (n * 32)) n).entries,
      EntryInside data (placesAt data offset (p.take (n * 32)) n) e := by
  unfold parseEntries at h
  rw [findStrings_ofBytes hp fun i hi => List.mem_range.mp hi, ok_bind] at h
  obtain ⟨htable, hstands⟩ := stringTable_ofBytes data offset
    ((List.range n).map (PkgParser.readEntry (p.take (n * 32))))
  rw [htable] at h
  obtain ⟨w, hloop, -⟩ := bind_ok h
  intro e he
  obtain ⟨i, hi, rfl⟩ := List.mem_map.mp he
  obtain ⟨w₁, w₂, hstep⟩ := foldlM_ok hloop i hi
  exact entryInside_of_ok hstands (List.mem_range.mp hi) hp hstep

/-! The whole function. -/

variable {out : Detail}

theorem parseMultipart_sound (hout : Sound out) :
    Safe (parseMultipart (ofBytes data) out) fun r => Sound r.out := by
  unfold parseMultipart
  by_cases hin : 0 + MultipartHeader.headerSize ≤ data.length
  · rw [memSlice_some (by decide) hin, List.drop_zero]
    dsimp only
    have hlen : MultipartHeader.headerSize ≤ data.length := by omega
    rw [readBytes_ofBytes hlen, ok_bind]
    split
    · have hfilled : (MultipartHeader.parse (data.take MultipartHeader.headerSize)).Filled :=
        MultipartHeader.parse_filled (by rw [List.length_take_of_le hlen])
      exact (multipartFields_sound hfilled hout).bind fun out hout => .pure hout
    · exact .pure hout
  · rw [memSlice_none (Nat.lt_of_not_le hin)]
    exact .pure hout

/-- The header is refused, or the table of entries is looked for. -/
theorem parseCnt_cases (offset : Nat) (hout : Sound out) :
    (PkgParser.readCnt data offset = none ∧
      Safe (parseCnt (ofBytes data) offset out) fun r => Sound r.out) ∨
    ∃ cnt out', PkgParser.readCnt data offset = some cnt ∧ cnt.offset = offset ∧ 0 < cnt.entryCount ∧
      Sound out' ∧ parseCnt (ofBytes data) offset out =
        match memSlice (ofBytes data) (wrapped (offset + cnt.tableOffset)) (cnt.entryCount * 32) with
        | none => .ok ⟨-1, some 6, out'⟩
        | some table => parseEntries (ofBytes data) offset cnt.typeMagic cnt.entryCount table out' := by
  unfold parseCnt PkgParser.readCnt
  by_cases hin : offset + 0x80 ≤ data.length
  swap
  · rw [memSlice_none (Nat.lt_of_not_le hin), slice_none (Nat.lt_of_not_le hin)]
    exact .inl ⟨rfl, .pure hout⟩
  have hlen : 0x80 ≤ (data.drop offset).length := by
    rw [List.length_drop]
    omega
  have hcheck : hasMagic (ofBytes (data.drop offset)) cntMagic =
      .ok (decide ((data.drop offset).take 4 = cntMagic)) :=
    hasMagic_ofBytes (by simp [cntMagic]; omega)
  rw [memSlice_some (by decide) hin, slice_some hin]
  dsimp only
  rw [hcheck, ok_bind, List.take_take]
  by_cases hmagic : (data.drop offset).take 4 = cntMagic
  swap
  · rw [decide_eq_false hmagic, if_pos (.inl hmagic)]
    exact .inl ⟨rfl, .pure hout⟩
  rw [decide_eq_true hmagic, if_pos (rfl : true = true), readBe32_take (by decide),
    readBe32_take (by decide), readBe32_take (by decide)]
  have hwrap : wrapped (offset + 0x40) + 48 ≤ data.length := by
    have hle : wrapped (offset + 0x40) ≤ offset + 0x40 := Nat.mod_le _ _
    omega
  have hcid : Written (ofBytes (data.drop (wrapped (offset + 0x40)))) 48 :=
    (written_ofBytes _).mono (by rw [List.length_drop]; omega)
  obtain ⟨contentId, hok, hcontent⟩ := takeContentId_field hout.contentId hcid
  have hout' : Sound { out with contentId } := { hout with contentId := hcontent }
  unfold parseHeader
  rw [readBe_ofBytes (by omega), ok_bind, memSlice_some (by decide) hwrap]
  dsimp only
  rw [hok, ok_bind, readBe_ofBytes (by omega), ok_bind, readBe_ofBytes (by omega), ok_bind]
  by_cases hbad : PkgParser.readBe32 (data.drop offset) 0x10 = 0 ∨
      2048 < PkgParser.readBe32 (data.drop offset) 0x10 ∨
        0x200000 < PkgParser.readBe32 (data.drop offset) 0x18
  · rw [if_pos hbad, if_pos (.inr hbad)]
    exact .inl ⟨rfl, .pure hout'⟩
  · rw [if_neg hbad, if_neg fun h => hbad (h.resolve_left fun h => h hmagic)]
    exact .inr ⟨_, _, rfl, rfl, Nat.pos_of_ne_zero fun h0 => hbad (.inl h0), hout', rfl⟩

/-- The function returns in front of the walk, or it goes over the entries of the places. -/
theorem parse_cases (total : Nat) {filename : Option Region} (hname : ∀ r ∈ filename, Terminated r)
    (out : Detail) :
    (placesOf data total = none ∧
      Safe (pkgParserParseMem (ofBytes data) total filename out) fun r => data ≠ [] → Sound r.out) ∨
    ∃ offset typeMagic n p out', n * 32 ≤ p.length ∧ Sound out' ∧
      placesOf data total = some (placesAt data offset (p.take (n * 32)) n) ∧
      pkgParserParseMem (ofBytes data) total filename out =
        parseEntries (ofBytes data) offset typeMagic n (ofBytes p) out' := by
  unfold pkgParserParseMem placesOf
  rw [length_ofBytes]
  by_cases hempty : data.length = 0
  · rw [if_pos hempty, if_pos (.inl (by omega))]
    exact .inl ⟨rfl, .pure fun hne => absurd (List.length_eq_zero_iff.mp hempty) hne⟩
  rw [if_neg hempty]
  obtain ⟨out₀, hok, hout₀⟩ := nameFields_sound cleared_sound hname
  rw [hok, ok_bind]
  have hout : Sound { out₀ with fileSize := total, totalPkgSize := total } := { hout₀ with }
  generalize { out₀ with fileSize := total, totalPkgSize := total : Detail } = out₁ at hout
  by_cases hshort : data.length < 0x80
  · rw [memSlice_none (by omega), if_pos (.inl hshort)]
    exact .inl ⟨rfl, .pure fun _ => hout⟩
  rw [memSlice_some (by decide) (by omega), List.drop_zero]
  dsimp only
  unfold parsePackage
  have hcheck : hasMagic (ofBytes data) MultipartHeader.magicBytes =
      .ok (PkgParser.hasMultipartMagic data) :=
    hasMagic_ofBytes (by simp [MultipartHeader.magicBytes]; omega)
  rw [hcheck, ok_bind]
  by_cases hmulti : PkgParser.hasMultipartMagic data = true
  · rw [if_pos (.inr hmulti), if_pos hmulti]
    exact .inl ⟨rfl, (parseMultipart_sound hout).imp fun r hr _ => hr⟩
  rw [if_neg (by simp only [not_or]; exact ⟨hshort, hmulti⟩), if_neg hmulti,
    findCnt_ofBytes total (Nat.le_of_not_lt hshort), ok_bind]
  cases PkgParser.findCnt data fun cand => total = 0 ∨ cand < total with
  | none => exact .inl ⟨rfl, .pure fun _ => hout⟩
  | some offset =>
    dsimp only [Option.bind_some]
    rcases parseCnt_cases offset hout with ⟨hnone, hsafe⟩ | ⟨cnt, out', hcnt, hoff, hpos, hout', heq⟩
    · rw [hnone]
      exact .inl ⟨rfl, hsafe.imp fun r hr _ => hr⟩
    · rw [hcnt, heq]
      dsimp only [Option.bind_some]
      rw [hoff]
      by_cases hin : wrapped (offset + cnt.tableOffset) + cnt.entryCount * 32 ≤ data.length
      · rw [memSlice_some (by omega) hin, slice_some hin]
        exact .inr ⟨offset, cnt.typeMagic, cnt.entryCount, _, out',
          by rw [List.length_drop]; omega, hout', rfl, rfl⟩
      · rw [memSlice_none (Nat.lt_of_not_le hin), slice_none (Nat.lt_of_not_le hin)]
        exact .inl ⟨rfl, .pure fun _ => hout'⟩

/-- The parser leaves neither the data nor its buffers, exactly where no name at the end
of the data lacks its end and no search in a `param.json` runs past the data. -/
theorem parse_mem_in_bounds (data : Text) (total : Nat) {filename : Option Region}
    (hname : ∀ r ∈ filename, Terminated r) (out : Detail) :
    (Safe (pkgParserParseMem (ofBytes data) total filename out) fun _ => True) ↔ Inside data total := by
  rcases parse_cases total hname out with
    ⟨hnone, hsafe⟩ | ⟨offset, typeMagic, n, p, out', hp, hout, hplaces, heq⟩
  · refine iff_of_true (hsafe.imp fun r _ => trivial) fun places h => ?_
    rw [hnone] at h
    cases h
  · rw [heq]
    constructor
    · rintro ⟨r, hr, -⟩ places h
      obtain rfl := Option.some.inj (hplaces.symm.trans h)
      exact entries_of_ok hp hr
    · intro hinside
      exact (parseEntries_sound typeMagic hp hout (hinside _ hplaces)).imp fun r _ => trivial

/-! Data whose last byte is a NUL. -/

theorem nul_mem_drop (h : data.getLast? = some 0) {k : Nat} (hk : k < data.length) :
    0 ∈ data.drop k := by
  refine List.mem_of_getLast? ?_
  rw [List.getLast?_drop, if_neg (Nat.not_le.mpr hk), h]

theorem keysInside_of_nul (h : 0 ∈ p) {keys : List String} (hkeys : ∀ key ∈ keys, Fitting key) :
    KeysInside p n keys := by
  induction keys with
  | nil => exact trivial
  | cons key keys ih =>
    have hkey := JsonSearch.quoted_noNul (hkeys key List.mem_cons_self)
    exact ⟨JsonSearch.not_overruns_of_nul hkey h, fun _ =>
      ih fun key hk => hkeys key (List.mem_cons_of_mem _ hk)⟩

theorem inside_of_nul (h : data.getLast? = some 0) (total : Nat) : Inside data total := by
  intro places hplaces e _
  obtain ⟨offset, table, n, rfl⟩ : ∃ offset table n, places = placesAt data offset table n := by
    unfold placesOf at hplaces
    split at hplaces
    · cases hplaces
    · obtain ⟨cnt, -, hcnt⟩ := Option.bind_eq_some_iff.mp hplaces
      obtain ⟨table, -, rfl⟩ := Option.map_eq_some_iff.mp hcnt
      exact ⟨_, _, _, rfl⟩
  refine ⟨fun s hs hoff => ?_, fun _ hpos _ hin => ?_⟩
  · generalize e.nameOff = nameOff at hoff ⊢
    obtain ⟨hlen, hclose, htext⟩ := (stringTable_ofBytes data offset _).2 s hs
    by_cases hend : s.close < data.length
    · exact .inr (.inr hend)
    · have hdrop : s.text.drop nameOff = data.drop (s.close - s.text.length + nameOff) := by
        conv_lhs => rw [htext]
        rw [List.take_of_length_le (by rw [List.length_drop]; omega), List.drop_drop]
      rw [hdrop]
      exact .inl (nul_mem_drop h (by omega))
  · change wrapped (offset + e.dataOff) + e.dataSize ≤ data.length at hin
    have hnul : 0 ∈ data.drop (wrapped (offset + e.dataOff)) := nul_mem_drop h (by omega)
    refine ⟨fun key hkey => ?_, keysInside_of_nul hnul versionKeys_fitting⟩
    have hfits : ∀ key ∈ ["titleId", "titleName", "category"], Fitting key := by decide
    exact JsonSearch.not_overruns_of_nul (JsonSearch.quoted_noNul (hfits key hkey)) hnul

/-- A package of a string table and a `param.json`, with a NUL behind them. -/
def closedFile : Text :=
  ParserAgreement.cntFile 0 [⟨0x0200, 0, 192, 11⟩, ⟨0x10, 0, 203, 2⟩]
    (ascii "param.json" ++ [0] ++ ascii "{}" ++ [0])

theorem parse_mem_in_bounds_closed :
    Safe (pkgParserParseMem (ofBytes closedFile) closedFile.length (some (literal (ascii "live:1")))
      Detail.cleared) fun _ => True :=
  (parse_mem_in_bounds closedFile closedFile.length
    (fun r hr => Option.some.inj hr ▸ literal_terminated (by decide)) Detail.cleared).mpr
      (inside_of_nul (by decide) _)

/-- A package whose `param.json` is the end of the data. -/
def openFile : Text := ParserAgreement.cntFile 0 [⟨0x2000, 0, 160, 2⟩] (ascii "{}")

theorem parse_mem_in_bounds_fails :
    ¬∀ (data : Text) (total : Nat) (filename : Option Region) (out : Detail),
      (∀ r ∈ filename, Terminated r) →
        Safe (pkgParserParseMem (ofBytes data) total filename out) fun _ => True := by
  intro hall
  obtain ⟨r, hr, -⟩ := hall openFile openFile.length none Detail.cleared fun r hr => nomatch hr
  have hfault :
      (pkgParserParseMem (ofBytes openFile) openFile.length none Detail.cleared).toBool = false := by
    decide +kernel
  rw [hr] at hfault
  cases hfault

end PkgManager.MemBounds
