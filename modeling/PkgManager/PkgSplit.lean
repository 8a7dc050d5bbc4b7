import PkgManager.MultipartHeader
import PkgManager.Tiling

namespace PkgManager.PkgSplit

open Records MultipartHeader Tiling

/-- The texts `split_pkg` puts into the headers and the icon it embeds in part
1, empty where the package has none. -/
structure PkgMeta where
  filename : List UInt8
  titleId : List UInt8
  titleName : List UInt8
  contentId : List UInt8
  pkgUuid : List UInt8
  iconData : List UInt8
  appVersion : List UInt8
  pkgType : List UInt8

/-- An entry of `parts_info`, with the slice that was written. -/
structure PartInfo where
  index : Nat
  partOffset : Nat
  dataOffset : Nat
  payload : List UInt8

def ioBufferSize : Nat := 2 * 1024 * 1024

def ljust (n : Nat) (bs : List UInt8) : List UInt8 := bs ++ List.replicate (n - bs.length) 0

/-- A text cut so that a NUL follows it, padded to `n` bytes. -/
def text (n : Nat) (bs : List UInt8) : List UInt8 := ljust n (bs.take (n - 1))

/-- The inner loop of `split_pkg`: read up to an I/O buffer at a time until the
part is full or the input ends. -/
def fillPart : Nat → Nat → List UInt8 → List UInt8
  | 0, _, _ => []
  | n + 1, left, input =>
    if left = 0 then []
    else
      let chunk := input.take (min ioBufferSize left)
      if chunk = [] then []
      else chunk ++ fillPart n (left - chunk.length) (input.drop chunk.length)

def maxPartPayload (partSize dataOffset : Nat) : Nat := max 1 (partSize - dataOffset)

def slicedFrom (m : PkgMeta) (currentPart : Nat) : Nat :=
  headerSize + if currentPart = 1 then m.iconData.length else 0

/-- The outer loop of `split_pkg`, over what is left of the package. -/
def splitLoop (m : PkgMeta) (partSize : Nat) : Nat → Nat → Nat → List UInt8 → List PartInfo
  | 0, _, _, _ => []
  | n + 1, currentPart, bytesRead, input =>
    let dataOffset := slicedFrom m currentPart
    let payload := fillPart input.length (maxPartPayload partSize dataOffset) input
    let rest := input.drop payload.length
    ⟨currentPart, bytesRead, dataOffset, payload⟩ ::
      if rest = [] then []
      else splitLoop m partSize n (currentPart + 1) (bytesRead + payload.length) rest

def partsInfo (m : PkgMeta) (partSize : Nat) (pkg : List UInt8) : List PartInfo :=
  splitLoop m partSize (pkg.length + 1) 1 0 pkg

/-- `pack_header`. -/
def packHeader (m : PkgMeta) (totalParts totalPkgSize totalArchiveSize : Nat) (p : PartInfo) : Header where
  magic := magicBytes
  headerVersion := 1
  partIndex := p.index
  totalParts := totalParts
  compressionType := 0
  chunkSize := ioBufferSize
  numChunksInPart := 0
  partDataSize := p.payload.length
  totalPkgSize := totalPkgSize
  totalArchiveSize := totalArchiveSize
  pkgFilename := text 256 m.filename
  titleId := text 32 m.titleId
  titleName := text 256 m.titleName
  contentId := text 64 m.contentId
  packageUuid := ljust 16 (m.pkgUuid.take 16)
  iconOffset := if p.index = 1 ∧ m.iconData ≠ [] then headerSize else 0
  iconSize := if p.index = 1 then m.iconData.length else 0
  appVersion := text 32 m.appVersion
  pkgType := text 16 m.pkgType
  partOffset := p.partOffset
  dataOffset := p.dataOffset
  reserved := List.replicate 3348 0

/-- The header `split_pkg` writes into the file of a part. -/
def partHeader (m : PkgMeta) (totalPkgSize : Nat) (ps : List PartInfo) (p : PartInfo) : Header :=
  packHeader m ps.length totalPkgSize (ps.map fun p => p.dataOffset + p.payload.length).sum p

def partFile (m : PkgMeta) (totalPkgSize : Nat) (ps : List PartInfo) (p : PartInfo) : List UInt8 :=
  (partHeader m totalPkgSize ps p).bytes ++ (if p.index = 1 then m.iconData else []) ++ p.payload

instance (h : Header) : Decidable h.InRange := decidable_of_iff _ (Header.inRange_iff h).symm

/-- `split_pkg`: the part files, unless a number does not fit its field. -/
def splitPkg (m : PkgMeta) (partSize : Nat) (pkg : List UInt8) : Option (List (List UInt8)) :=
  let ps := partsInfo m partSize pkg
  if ∀ p ∈ ps, (partHeader m pkg.length ps p).InRange then some (ps.map (partFile m pkg.length ps))
  else none

/-! What the loops compute. -/

theorem fillPart_eq_take (n left : Nat) (input : List UInt8) (hn : input.length ≤ n) :
    fillPart n left input = input.take left := by
  induction n generalizing left input with
  | zero =>
    have hnil : input = [] := List.length_eq_zero_iff.mp (Nat.le_zero.mp hn)
    simp [fillPart, hnil]
  | succ n ih =>
    unfold fillPart
    by_cases hl : left = 0
    · simp [hl]
    · rw [if_neg hl]
      simp only
      by_cases hc : input.take (min ioBufferSize left) = []
      · have hnil : input = [] := by
          by_contra hne
          have hlen := congrArg List.length hc
          have hpos := List.length_pos_iff.mpr hne
          simp only [List.length_take, List.length_nil] at hlen
          unfold ioBufferSize at hlen
          omega
        simp [hnil]
      · rw [if_neg hc]
        have hlen : (input.take (min ioBufferSize left)).length =
            min (min ioBufferSize left) input.length := List.length_take
        have hpos := List.length_pos_iff.mpr hc
        rw [ih _ _ (by rw [List.length_drop]; omega)]
        rw [hlen]
        generalize hk : min (min ioBufferSize left) input.length = k
        have htake : input.take (min ioBufferSize left) = input.take k := by
          rw [← hk, List.take_eq_take_min]
        have hadd : left = k + (left - k) := by omega
        rw [htake]
        conv_rhs => rw [hadd]
        rw [List.take_add]

def payloads (ps : List PartInfo) : List (List UInt8) := ps.map (·.payload)

/-- The parts cut from position `base` of the package on, numbered from `part`. -/
structure Cut (m : PkgMeta) (part base : Nat) (input : List UInt8) (ps : List PartInfo) : Prop where
  nonempty : ps ≠ []
  flatten : (payloads ps).flatten = input
  entry : ∀ i p, ps[i]? = some p → p.index = part + i ∧ p.partOffset = base + startOf (payloads ps) i ∧
    p.dataOffset = slicedFrom m (part + i)
  filled : input ≠ [] → ∀ p ∈ ps, p.payload ≠ []

theorem splitLoop_cut (m : PkgMeta) (partSize n part base : Nat) (input : List UInt8)
    (hn : input.length < n) : Cut m part base input (splitLoop m partSize n part base input) := by
  induction n generalizing part base input with
  | zero => omega
  | succ n ih =>
    unfold splitLoop
    simp only
    rw [fillPart_eq_take _ _ _ (Nat.le_refl _)]
    generalize hk : maxPartPayload partSize (slicedFrom m part) = k
    have hkpos : 0 < k := by
      rw [← hk]
      exact Nat.lt_of_lt_of_le Nat.one_pos (Nat.le_max_left _ _)
    have hdrop : input.drop (input.take k).length = input.drop k := by
      rw [List.length_take]
      by_cases hle : k ≤ input.length
      · rw [Nat.min_eq_left hle]
      · rw [Nat.min_eq_right (by omega), List.drop_length, List.drop_eq_nil_of_le (by omega)]
    rw [hdrop]
    have hfilled : input ≠ [] → input.take k ≠ [] := by
      intro hne hnil
      have hlen := congrArg List.length hnil
      have hpos := List.length_pos_iff.mpr hne
      rw [List.length_take, List.length_nil] at hlen
      omega
    by_cases hrest : input.drop k = []
    · rw [if_pos hrest]
      have hall : input.take k = input := by
        have h := List.take_append_drop k input
        rwa [hrest, List.append_nil] at h
      refine ⟨List.cons_ne_nil _ _, by simp [payloads, hall], ?_, ?_⟩
      · intro i p hp
        cases i with
        | zero =>
          obtain rfl := Option.some.inj hp
          exact ⟨rfl, rfl, rfl⟩
        | succ i => simp at hp
      · intro hne p hp
        obtain rfl := List.mem_singleton.mp hp
        exact hfilled hne
    · rw [if_neg hrest]
      have hlt : (input.drop k).length < n := by
        have hpos := List.length_pos_iff.mpr hrest
        rw [List.length_drop] at hpos ⊢
        omega
      have hc := ih (part + 1) (base + (input.take k).length) (input.drop k) hlt
      generalize splitLoop m partSize n (part + 1) (base + (input.take k).length) (input.drop k) =
        ps at hc
      refine ⟨List.cons_ne_nil _ _, ?_, ?_, ?_⟩
      · show input.take k ++ (payloads ps).flatten = input
        rw [hc.flatten, List.take_append_drop]
      · intro i p hp
        cases i with
        | zero =>
          obtain rfl := Option.some.inj hp
          exact ⟨rfl, rfl, rfl⟩
        | succ i =>
          obtain ⟨h1, h2, h3⟩ := hc.entry i p hp
          refine ⟨by omega, ?_, ?_⟩
          · rw [h2]
            show base + (input.take k).length + startOf (payloads ps) i =
              base + (input.take k ++ (((payloads ps).take i).flatten)).length
            rw [List.length_append, startOf]
            omega
          · rw [h3]
            congr 1
            omega
      · intro hne p hp
        cases hp with
        | head => exact hfilled hne
        | tail _ hp => exact hc.filled hrest p hp

theorem partsInfo_cut (m : PkgMeta) (partSize : Nat) (pkg : List UInt8) :
    Cut m 1 0 pkg (partsInfo m partSize pkg) :=
  splitLoop_cut m partSize _ 1 0 pkg (Nat.lt_succ_self _)

/-! What a part file says about itself. -/

theorem length_ljust {n : Nat} {bs : List UInt8} (h : bs.length ≤ n) : (ljust n bs).length = n := by
  simp [ljust]
  omega

theorem length_text (n : Nat) (bs : List UInt8) : (text n bs).length = n :=
  length_ljust (by rw [List.length_take]; omega)

theorem packHeader_filled (m : PkgMeta) (totalParts totalPkgSize totalArchiveSize : Nat)
    (p : PartInfo) : (packHeader m totalParts totalPkgSize totalArchiveSize p).Filled := by
  have huuid : (ljust 16 (m.pkgUuid.take 16)).length = 16 :=
    length_ljust (by rw [List.length_take]; omega)
  simp [-List.reduceReplicate, Header.Filled, Header.fields, packHeader, length_leBytes, length_text, huuid, widths,
    magicBytes]

theorem readHeader_partFile {m : PkgMeta} {total : Nat} {ps : List PartInfo} {p : PartInfo}
    (hr : (partHeader m total ps p).InRange) (h1 : 1 ≤ p.index) (h2 : p.index ≤ ps.length) :
    readHeader (some (partFile m total ps p)) = .ok (partHeader m total ps p) := by
  have hf : (partHeader m total ps p).Filled := packHeader_filled _ _ _ _ _
  have hlen := Header.length_bytes hf
  have hparse : parse (partFile m total ps p) = partHeader m total ps p := by
    unfold partFile
    rw [List.append_assoc]
    exact parse_bytes hf hr _
  have hvalid : isValidHeader (partHeader m total ps p) = true := by
    have hne : ps ≠ [] := List.length_pos_iff.mp (by omega)
    have hi : p.index ≠ 0 := by omega
    simp [-List.reduceReplicate, isValidHeader, partHeader, packHeader, ioBufferSize, hne, hi, h2]
  unfold readHeader
  simp only
  rw [hparse, if_neg, if_pos hvalid]
  unfold partFile
  rw [List.length_append, List.length_append, hlen]
  omega

/-- Behind its header and icon a part file holds its slice. -/
theorem drop_partFile {m : PkgMeta} {total : Nat} {ps : List PartInfo} {p : PartInfo}
    (hd : p.dataOffset = slicedFrom m p.index) (k : Nat) :
    (partFile m total ps p).drop (p.dataOffset + k) = p.payload.drop k := by
  have hlen := Header.length_bytes (packHeader_filled m ps.length total
    (ps.map fun p => p.dataOffset + p.payload.length).sum p)
  have hpre : ((partHeader m total ps p).bytes ++ if p.index = 1 then m.iconData else []).length =
      p.dataOffset := by
    rw [List.length_append, partHeader, hlen, hd, slicedFrom]
    split <;> rfl
  unfold partFile
  rw [← hpre, ← List.drop_drop, List.drop_left]

end PkgManager.PkgSplit
