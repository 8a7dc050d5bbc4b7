import Mathlib

namespace PkgManager.StreamBounds

/-! The arithmetic of `virtual_stream_read`, on the words of the code. -/

/-- `virtual_part_info_t`, without its path and its file. -/
structure PartRange where
  startPkgOffset : UInt64
  partDataSize : UInt64
  dataOffset : UInt32

/-- `virtual_stream_t` of a local package, with whatever its headers say. -/
structure Table where
  totalPkgSize : UInt64
  totalParts : Nat
  parts : Nat → PartRange

/-- What the read takes from the header of a part. -/
structure PartHeader where
  partIndex : UInt32
  partDataSize : UInt64
  iconOffset : UInt32
  iconSize : UInt32
  partOffset : UInt64
  dataOffset : UInt32

def dataStart (h : PartHeader) : UInt32 :=
  if h.dataOffset = 0 then
    if h.partIndex = 1 ∧ 0 < h.iconSize ∧ h.iconOffset = 4096 then 4096 + h.iconSize else 4096
  else h.dataOffset

/-- What one `pread` answers: so many bytes, none at the end of the file, an
interruption or an error. -/
inductive PreadAnswer where
  | got (n : Nat)
  | interrupted
  | failed

/-- Bytes that were read: where they stand in the file of the part, and how many. -/
structure Span where
  pos : UInt64
  length : Nat

/-- The `pread` loop: what it read, and whether the chunk is complete. -/
def preadLoop : List PreadAnswer → UInt64 → Nat → List Span × Bool
  | _, _, 0 => ([], true)
  | [], _, _ + 1 => ([], false)
  | .interrupted :: rest, pos, left + 1 => preadLoop rest pos (left + 1)
  | .failed :: _, _, _ + 1 => ([], false)
  | .got n :: rest, pos, left + 1 =>
    if n = 0 then ([], false)
    else
      let got := min n (left + 1)
      let r := preadLoop rest (pos + UInt64.ofNat got) (left + 1 - got)
      (⟨pos, got⟩ :: r.1, r.2)

/-- What one pass of the read loop meets: what other reads have made of the
table, the parts whose file is open or can be opened, the header of the file the
disc waiter supplies and what others make of the table until then, whether that
file can be opened, and what `pread` answers. -/
structure Turn where
  others : (Nat → PartRange) → Nat → PartRange
  opens : Nat → Bool
  disc : Option PartHeader
  meanwhile : (Nat → PartRange) → Nat → PartRange
  reopens : Bool
  preads : List PreadAnswer

/-- What the read returns, the entry of the part it took its bytes from, and the bytes. -/
structure Outcome where
  result : Int
  entry : Option PartRange
  spans : List Span

def failure : Outcome := ⟨-1, none, []⟩

def covers (p : PartRange) (off : UInt64) : Bool :=
  p.startPkgOffset ≤ off ∧ off < p.startPkgOffset + p.partDataSize

def partAt (t : Table) (off : UInt64) : Option Nat :=
  (List.range t.totalParts).find? fun i => covers (t.parts i) off

def toRead (t : Table) (off count : UInt64) : UInt64 :=
  if t.totalPkgSize < off + count then t.totalPkgSize - off else count

/-- The transfer from the open file of a part. -/
def transfer (t : Table) (p : PartRange) (off count : UInt64) (preads : List PreadAnswer) : Outcome :=
  if off < p.startPkgOffset then failure
  else
    let inPart := off - p.startPkgOffset
    if p.partDataSize ≤ inPart then failure
    else
      let remaining := p.partDataSize - inPart
      let chunk := if toRead t off count < remaining then toRead t off count else remaining
      if chunk = 0 then ⟨0, some p, []⟩
      else
        let r := preadLoop preads (p.dataOffset.toUInt64 + inPart) chunk.toNat
        ⟨if r.2 then chunk.toNat else -1, some p, r.1⟩

/-- The entry of a part behind a disc wait. -/
def PartHeader.entry (h : PartHeader) (old : PartRange) : PartRange where
  startPkgOffset := if 0 < h.partOffset then h.partOffset else old.startPkgOffset
  partDataSize := h.partDataSize
  dataOffset := dataStart h

/-- The read loop; none as long as it waits for discs. -/
def readLoop (off count : UInt64) (turns : Nat → Turn) : Nat → Nat → Table → Option Outcome
  | 0, _, _ => none
  | n + 1, k, t =>
    let turn := turns k
    let now := { t with parts := turn.others t.parts }
    match partAt now off with
    | none => some failure
    | some i =>
      if turn.opens i then some (transfer now (now.parts i) off count turn.preads)
      else
        match turn.disc with
        | none => some failure
        | some h =>
          let waited := turn.meanwhile now.parts
          if turn.reopens = false then some failure
          else
            readLoop off count turns n (k + 1)
              { t with parts := Function.update waited i (h.entry (waited i)) }

/-- `virtual_stream_read` of a local package. -/
def virtualStreamRead (t : Table) (off count : UInt64) (turns : Nat → Turn) (fuel : Nat) :
    Option Outcome :=
  if count = 0 ∨ t.totalPkgSize ≤ off then some ⟨0, none, []⟩
  else readLoop off count turns fuel 0 t

/-- The result is an error or a number of bytes that are there and were asked for,
and all bytes lie in the slice of the part that was resolved for the offset. -/
structure Bounded (t : Table) (off count : UInt64) (o : Outcome) : Prop where
  result : o.result = -1 ∨
    0 < o.result ∧ o.result ≤ min count.toNat (t.totalPkgSize.toNat - off.toNat)
  resolved : ∀ p, o.entry = some p → covers p off = true
  within : ∀ s ∈ o.spans, ∃ p, o.entry = some p ∧ p.dataOffset.toNat ≤ s.pos.toNat ∧
    s.pos.toNat + s.length ≤ p.dataOffset.toNat + p.partDataSize.toNat

theorem bounded_failure (t : Table) (off count : UInt64) : Bounded t off count failure :=
  ⟨.inl rfl, nofun, nofun⟩

/-- A range that covers an offset does not wrap. -/
theorem covers_iff {p : PartRange} {off : UInt64} (h : covers p off = true) :
    p.startPkgOffset.toNat ≤ off.toNat ∧
      off.toNat < p.startPkgOffset.toNat + p.partDataSize.toNat := by
  obtain ⟨hlo, hhi⟩ := of_decide_eq_true h
  rw [UInt64.le_iff_toNat_le] at hlo
  rw [UInt64.lt_iff_toNat_lt, UInt64.toNat_add] at hhi
  exact ⟨hlo, Nat.lt_of_lt_of_le hhi (Nat.mod_le _ _)⟩

/-- The bytes of the loop stand one behind the other, from the position on. -/
theorem preadLoop_within (answers : List PreadAnswer) (pos : UInt64) (left : Nat)
    (hfit : pos.toNat + left < 2 ^ 64) :
    ∀ s ∈ (preadLoop answers pos left).1,
      pos.toNat ≤ s.pos.toNat ∧ s.pos.toNat + s.length ≤ pos.toNat + left := by
  induction answers generalizing pos left with
  | nil =>
    cases left with
    | zero => exact nofun
    | succ left => exact nofun
  | cons a rest ih =>
    cases left with
    | zero => exact nofun
    | succ left =>
      cases a with
      | interrupted => exact ih pos (left + 1) hfit
      | failed => exact nofun
      | got n =>
        unfold preadLoop
        by_cases hn : n = 0
        · rw [if_pos hn]
          exact nofun
        · rw [if_neg hn]
          dsimp only
          have hgot : min n (left + 1) ≤ left + 1 := Nat.min_le_right _ _
          generalize min n (left + 1) = got at hgot
          have hpos : (pos + UInt64.ofNat got).toNat = pos.toNat + got := by
            rw [UInt64.toNat_add, UInt64.toNat_ofNat', Nat.mod_eq_of_lt (a := got) (by omega),
              Nat.mod_eq_of_lt (by omega)]
          intro s hs
          rcases List.mem_cons.mp hs with rfl | hs
          · dsimp only
            omega
          · have hrest := ih (pos + UInt64.ofNat got) (left + 1 - got) (by omega) s hs
            omega

theorem toRead_eq {t : Table} {off count : UInt64} (htotal : t.totalPkgSize.toNat ≤ 2 ^ 62)
    (hoff : off < t.totalPkgSize) (hcount : count.toNat ≤ 2 ^ 62) :
    (toRead t off count).toNat = min count.toNat (t.totalPkgSize.toNat - off.toNat) := by
  rw [UInt64.lt_iff_toNat_lt] at hoff
  have hsum : (off + count).toNat = off.toNat + count.toNat := by
    rw [UInt64.toNat_add]
    exact Nat.mod_eq_of_lt (by omega)
  unfold toRead
  by_cases hlong : t.totalPkgSize < off + count
  · rw [if_pos hlong]
    rw [UInt64.lt_iff_toNat_lt, hsum] at hlong
    rw [UInt64.toNat_sub_of_le _ _ (UInt64.le_iff_toNat_le.mpr (Nat.le_of_lt hoff))]
    omega
  · rw [if_neg hlong]
    rw [UInt64.lt_iff_toNat_lt, hsum] at hlong
    omega

theorem transfer_bounded {t : Table} {p : PartRange} {off count : UInt64}
    (htotal : t.totalPkgSize.toNat ≤ 2 ^ 62) (hoff : off < t.totalPkgSize)
    (hpos : 0 < count.toNat) (hcount : count.toNat ≤ 2 ^ 62) (hcovers : covers p off = true)
    (preads : List PreadAnswer) : Bounded t off count (transfer t p off count preads) := by
  obtain ⟨hlo, hhi⟩ := covers_iff hcovers
  have hread := toRead_eq htotal hoff hcount
  have hoff' := UInt64.lt_iff_toNat_lt.mp hoff
  have hin : (off - p.startPkgOffset).toNat = off.toNat - p.startPkgOffset.toNat :=
    UInt64.toNat_sub_of_le _ _ (UInt64.le_iff_toNat_le.mpr hlo)
  have hinside : off - p.startPkgOffset < p.partDataSize := by
    rw [UInt64.lt_iff_toNat_lt, hin]
    omega
  have hremaining : (p.partDataSize - (off - p.startPkgOffset)).toNat =
      p.partDataSize.toNat - (off.toNat - p.startPkgOffset.toNat) := by
    rw [UInt64.toNat_sub_of_le _ _ (UInt64.le_of_lt hinside), hin]
  -- the chunk is the least of what is asked for, what the package and what the part still has
  have hchunk : (if toRead t off count < p.partDataSize - (off - p.startPkgOffset) then
      toRead t off count else p.partDataSize - (off - p.startPkgOffset)).toNat =
      min (min count.toNat (t.totalPkgSize.toNat - off.toNat))
        (p.partDataSize.toNat - (off.toNat - p.startPkgOffset.toNat)) := by
    by_cases hless : toRead t off count < p.partDataSize - (off - p.startPkgOffset)
    · rw [if_pos hless, hread]
      rw [UInt64.lt_iff_toNat_lt, hread, hremaining] at hless
      omega
    · rw [if_neg hless, hremaining]
      rw [UInt64.lt_iff_toNat_lt, hread, hremaining] at hless
      omega
  unfold transfer
  rw [if_neg (UInt64.not_lt.mpr (UInt64.le_iff_toNat_le.mpr hlo))]
  dsimp only
  rw [if_neg (UInt64.not_le.mpr hinside)]
  generalize hc : (if toRead t off count < p.partDataSize - (off - p.startPkgOffset) then
      toRead t off count else p.partDataSize - (off - p.startPkgOffset)) = chunk at hchunk
  have hne : chunk ≠ 0 := by
    rintro rfl
    rw [UInt64.toNat_zero] at hchunk
    omega
  rw [if_neg hne]
  have hfile : (p.dataOffset.toUInt64 + (off - p.startPkgOffset)).toNat =
      p.dataOffset.toNat + (off.toNat - p.startPkgOffset.toNat) := by
    have hdata := p.dataOffset.toNat_lt
    rw [UInt64.toNat_add, hin, UInt32.toNat_toUInt64]
    exact Nat.mod_eq_of_lt (by omega)
  refine ⟨?_, fun q hq => ?_, fun s hs => ?_⟩
  · dsimp only
    split_ifs
    · right
      omega
    · exact .inl rfl
  · obtain rfl := Option.some.inj hq
    exact hcovers
  · have hdata := p.dataOffset.toNat_lt
    have hwithin := preadLoop_within preads (p.dataOffset.toUInt64 + (off - p.startPkgOffset))
      chunk.toNat (by omega) s hs
    exact ⟨p, rfl, by omega, by omega⟩

theorem readLoop_bounded {off count : UInt64} (turns : Nat → Turn) (n k : Nat) {t : Table}
    (htotal : t.totalPkgSize.toNat ≤ 2 ^ 62) (hoff : off < t.totalPkgSize)
    (hpos : 0 < count.toNat) (hcount : count.toNat ≤ 2 ^ 62) {o : Outcome}
    (h : readLoop off count turns n k t = some o) : Bounded t off count o := by
  induction n generalizing k t with
  | zero => cases h
  | succ n ih =>
    unfold readLoop at h
    dsimp only at h
    cases hat : partAt { t with parts := (turns k).others t.parts } off with
    | none =>
      rw [hat] at h
      obtain rfl := Option.some.inj h
      exact bounded_failure t off count
    | some i =>
      rw [hat] at h
      dsimp only at h
      by_cases hopen : (turns k).opens i = true
      · rw [if_pos hopen] at h
        obtain rfl := Option.some.inj h
        have hcovers : covers ((turns k).others t.parts i) off = true :=
          @List.find?_some _ (fun i => covers ((turns k).others t.parts i) off) _ _ hat
        have hb := @transfer_bounded { t with parts := (turns k).others t.parts } _ off count
          htotal hoff hpos hcount hcovers (turns k).preads
        exact ⟨hb.result, hb.resolved, hb.within⟩
      · rw [if_neg hopen] at h
        cases hdisc : (turns k).disc with
        | none =>
          rw [hdisc] at h
          obtain rfl := Option.some.inj h
          exact bounded_failure t off count
        | some hdr =>
          rw [hdisc] at h
          dsimp only at h
          by_cases hre : (turns k).reopens = false
          · rw [if_pos hre] at h
            obtain rfl := Option.some.inj h
            exact bounded_failure t off count
          · rw [if_neg hre] at h
            generalize Function.update _ i _ = parts at h
            have hb := @ih (k + 1) ⟨t.totalPkgSize, t.totalParts, parts⟩ htotal hoff h
            exact ⟨hb.result, hb.resolved, hb.within⟩

/-- Whatever the headers say and other reads make of the table, a read of at least
one byte in front of the end of the package is bounded. -/
theorem virtual_read_bounded (t : Table) (off count : UInt64) (turns : Nat → Turn) (fuel : Nat)
    (o : Outcome) (htotal : t.totalPkgSize.toNat ≤ 2 ^ 62) (hoff : off < t.totalPkgSize)
    (hpos : 0 < count) (hcount : count.toNat ≤ 2 ^ 62)
    (h : virtualStreamRead t off count turns fuel = some o) : Bounded t off count o := by
  have hpos' : 0 < count.toNat := UInt64.lt_iff_toNat_lt.mp hpos
  unfold virtualStreamRead at h
  rw [if_neg] at h
  · exact readLoop_bounded turns fuel 0 htotal hoff hpos' hcount h
  · rintro (rfl | hend)
    · exact absurd hpos' (by decide)
    · exact absurd hoff (UInt64.not_lt.mpr hend)

/-- A package in one part whose size wraps around. -/
def wrapping : Table := ⟨100, 2, fun i => if i = 0 then ⟨10, 2 ^ 64 - 5, 4096⟩ else ⟨0, 60, 4096⟩⟩

def smooth : Turn := ⟨id, fun _ => true, none, id, false, [.got 7, .interrupted, .got 50]⟩

theorem virtual_read_bounded_wrapping : ∃ o,
    virtualStreamRead wrapping 20 30 (fun _ => smooth) 1 = some o ∧ o.result = 30 ∧
      Bounded wrapping 20 30 o := by
  have hrun : (virtualStreamRead wrapping 20 30 (fun _ => smooth) 1).map Outcome.result = some 30 := by
    decide +kernel
  obtain ⟨o, ho, hresult⟩ := Option.map_eq_some_iff.mp hrun
  exact ⟨o, ho, hresult, virtual_read_bounded wrapping 20 30 (fun _ => smooth) 1 o (by decide)
    (by decide) (by decide) (by decide) ho⟩

/-- A read of no bytes returns 0 wherever it is. -/
theorem virtual_read_bounded_fails :
    ¬∀ (t : Table) (off count : UInt64) (turns : Nat → Turn) (fuel : Nat) (o : Outcome),
      t.totalPkgSize.toNat ≤ 2 ^ 62 → off < t.totalPkgSize → count.toNat ≤ 2 ^ 62 →
        virtualStreamRead t off count turns fuel = some o → Bounded t off count o := by
  intro hall
  have hb := hall wrapping 20 0 (fun _ => smooth) 1 ⟨0, none, []⟩ (by decide) (by decide) (by decide) rfl
  rcases hb.result with h | ⟨h, -⟩
  · cases h
  · exact absurd h (by decide)

end PkgManager.StreamBounds
