import PkgManager.MultipartPackage

namespace PkgManager.MultipartDecompress

open Records MultipartHeader PkgSplit MultipartPackage

/-- `mz_crc32` of a buffer and `mz_uncompress` of a buffer into one of the given size. -/
structure Miniz where
  crc32 : List UInt8 → Nat
  uncompress : Nat → List UInt8 → Option (List UInt8)

/-- `multipart_chunk_header_t`. -/
structure ChunkHeader where
  uncompressedSize : Nat
  compressedSize : Nat
  chunkCrc32 : Nat

def chunkHeaderSize : Nat := 12

def parseChunkHeader (bs : List UInt8) : ChunkHeader :=
  let f := fun i => (unpack [4, 4, 4] bs).getD i []
  ⟨leValue (f 0), leValue (f 1), leValue (f 2)⟩

/-- The bytes in the output file, and how often the cancel flag was looked at. -/
structure Writer where
  out : List UInt8
  polls : Nat

def Writer.put (w : Writer) (bs : List UInt8) : Writer := ⟨w.out ++ bs, w.polls + 1⟩

structure Buffers where
  uncomp : Nat
  comp : Nat

/-- A raw slice, a buffer at a time. -/
def rawSlice (cancel : Nat → Bool) (cap : Nat) : Nat → Nat → List UInt8 → Writer → Except Int Writer
  | 0, _, _, w => .ok w
  | n + 1, bytesLeft, input, w =>
    if bytesLeft = 0 then .ok w
    else if cancel w.polls then .error (-99)
    else
      let chunk := input.take (min bytesLeft cap)
      if chunk = [] then .error (-13)
      else rawSlice cancel cap n (bytesLeft - chunk.length) (input.drop chunk.length) (w.put chunk)

/-- The content of a chunk, from what is stored of it. -/
def decodeChunk (z : Miniz) (compressionType cap : Nat) (c : ChunkHeader) (stored : List UInt8) :
    Except Int (List UInt8) :=
  if compressionType = 0 then
    if c.uncompressedSize ≠ c.compressedSize then .error (-12)
    else if c.chunkCrc32 ≠ 0 ∧ z.crc32 stored ≠ c.chunkCrc32 then .error (-16)
    else .ok stored
  else if compressionType = 1 then
    match z.uncompress cap stored with
    | none => .error (-15)
    | some out =>
      if out.length ≠ c.uncompressedSize then .error (-15)
      else if c.chunkCrc32 ≠ 0 ∧ z.crc32 out ≠ c.chunkCrc32 then .error (-16)
      else .ok out
  else .ok []

/-- The legacy format: chunks, each behind a header of its own. -/
def chunkLoop (z : Miniz) (cancel : Nat → Bool) (b : Buffers) (compressionType : Nat) :
    Nat → List UInt8 → Writer → Except Int Writer
  | 0, _, w => .ok w
  | n + 1, input, w =>
    if cancel w.polls then .error (-99)
    else if input.length < chunkHeaderSize then .error (-11)
    else
      let c := parseChunkHeader input
      let body := input.drop chunkHeaderSize
      if b.comp < c.compressedSize ∨ b.uncomp < c.uncompressedSize then .error (-12)
      else if body.length < c.compressedSize then .error (-13)
      else
        match decodeChunk z compressionType b.uncomp c (body.take c.compressedSize) with
        | .error e => .error e
        | .ok out => chunkLoop z cancel b compressionType n (body.drop c.compressedSize) (w.put out)

/-- `start_payload_offset`. -/
def startPayload (h : Header) : Except Int Nat :=
  if h.dataOffset ≠ 0 then .ok h.dataOffset
  else if 0 < h.iconSize ∧ h.iconOffset = headerSize then
    if 10 * 1024 * 1024 ≤ h.iconSize then .error (-10) else .ok (headerSize + h.iconSize)
  else .ok headerSize

/-- The pass through the loop over the parts. -/
def processPart (z : Miniz) (cancel : Nat → Bool) (b : Buffers) (file : Option (List UInt8))
    (w : Writer) : Except Int Writer :=
  if cancel w.polls then .error (-99)
  else
    match file with
    | none => .error (-9)
    | some bs =>
      if bs.length < headerSize then .error (-10)
      else
        let h := parse bs
        match startPayload h with
        | .error e => .error e
        | .ok start =>
          let w := { w with polls := w.polls + 1 }
          if h.numChunksInPart = 0 ∧ h.compressionType = 0 then
            rawSlice cancel b.uncomp h.partDataSize h.partDataSize (bs.drop start) w
          else chunkLoop z cancel b h.compressionType h.numChunksInPart (bs.drop start) w

def processParts (z : Miniz) (cancel : Nat → Bool) (b : Buffers) :
    List (Option (List UInt8)) → Writer → Except Int Writer
  | [], w => .ok w
  | file :: files, w =>
    match processPart z cancel b file w with
    | .error e => .error e
    | .ok w => processParts z cancel b files w

/-- The headers of the parts from number `i + 1` on; the sum of the slices. -/
def verifyParts (numParts : Nat) (expectedUuid : List UInt8) :
    Nat → List (Option (List UInt8)) → Nat → Except Int Nat
  | _, [], partsSum => .ok partsSum
  | i, file :: files, partsSum =>
    match readHeader file with
    | .error _ => .error (-4)
    | .ok h =>
      if h.partIndex ≠ i + 1 ∨ h.totalParts ≠ numParts then .error (-5)
      else if h.packageUuid ≠ expectedUuid then .error (-6)
      else verifyParts numParts expectedUuid (i + 1) files ((partsSum + h.partDataSize) % 2 ^ 64)

/-- What is returned, and the output file if there is one afterwards. -/
structure Outcome where
  result : Int
  output : Option (List UInt8)
  deriving DecidableEq

/-- The buffers that the first header asks for. -/
def buffers (h : Header) : Option Buffers :=
  let chunkSize := if h.chunkSize = 0 then 2 * 1024 * 1024 else h.chunkSize
  if h.numChunksInPart ≠ 0 ∨ h.compressionType ≠ 0 then
    if 8 * 1024 * 1024 < chunkSize then none
    else some ⟨chunkSize + 65536, chunkSize * 2 + 65536⟩
  else some ⟨2 * 1024 * 1024, 2 * 1024 * 1024⟩

/-- `multipart_decompress_to_pkg` on the files of the parts, `none` where one cannot be opened. -/
def decompressToPkg (z : Miniz) (files : List (Option (List UInt8))) (cancel : Nat → Bool) : Outcome :=
  match files with
  | [] => ⟨-1, none⟩
  | file :: others =>
    match readHeader file with
    | .error _ => ⟨-2, none⟩
    | .ok first =>
      if first.totalParts ≠ files.length then ⟨-3, none⟩
      else
        match verifyParts files.length first.packageUuid 1 others first.partDataSize with
        | .error e => ⟨e, none⟩
        | .ok partsSum =>
          if 0 < first.totalPkgSize ∧ partsSum ≠ 0 ∧ partsSum ≠ first.totalPkgSize then ⟨-18, none⟩
          else
            match buffers first with
            | none => ⟨-8, none⟩
            | some b =>
              match processParts z cancel b files ⟨[], 0⟩ with
              | .error e => ⟨e, none⟩
              | .ok w =>
                if 0 < first.totalPkgSize ∧ w.out.length % 2 ^ 64 ≠ first.totalPkgSize then ⟨-18, none⟩
                else ⟨0, some w.out⟩

/-! The files that `split_pkg` wrote. -/

section Split

variable {cancel : Nat → Bool} (hcancel : ∀ n, cancel n = false)

include hcancel in
theorem rawSlice_writes {cap : Nat} (hcap : 0 < cap) (n : Nat) (input : List UInt8) (w : Writer)
    (hn : input.length ≤ n) :
    ∃ polls, rawSlice cancel cap n input.length input w = .ok ⟨w.out ++ input, polls⟩ := by
  induction n generalizing input w with
  | zero =>
    obtain rfl := List.length_eq_zero_iff.mp (Nat.le_zero.mp hn)
    exact ⟨w.polls, by rw [rawSlice, List.append_nil]⟩
  | succ n ih =>
    unfold rawSlice
    by_cases h0 : input.length = 0
    · rw [if_pos h0, List.length_eq_zero_iff.mp h0]
      exact ⟨w.polls, by rw [List.append_nil]⟩
    · rw [if_neg h0, hcancel, if_neg Bool.false_ne_true]
      dsimp only
      have hlen : (input.take (min input.length cap)).length = min input.length cap := by
        rw [List.length_take]
        omega
      have hne : input.take (min input.length cap) ≠ [] := by
        intro hnil
        rw [hnil, List.length_nil] at hlen
        omega
      rw [if_neg hne, hlen]
      have hdrop : input.length - min input.length cap = (input.drop (min input.length cap)).length :=
        List.length_drop.symm
      rw [hdrop]
      obtain ⟨polls, hmore⟩ := ih (input.drop (min input.length cap))
        (w.put (input.take (min input.length cap))) (by rw [← hdrop]; omega)
      refine ⟨polls, hmore.trans ?_⟩
      unfold Writer.put
      rw [List.append_assoc, List.take_append_drop]

variable {m : PkgMeta} {total : Nat} {ps : List PartInfo} {p : PartInfo}

/-- A part of the split: its number is one of the parts', its numbers fit the
header, and its slice begins behind header and icon. -/
structure IsPart (m : PkgMeta) (total : Nat) (ps : List PartInfo) (i : Nat) (p : PartInfo) : Prop where
  index : p.index = i + 1
  lt : i < ps.length
  inRange : (partHeader m total ps p).InRange
  dataOffset : p.dataOffset = slicedFrom m p.index

theorem IsPart.read {i : Nat} (h : IsPart m total ps i p) :
    readHeader (some (partFile m total ps p)) = .ok (partHeader m total ps p) := by
  have hindex := h.index
  have hlt := h.lt
  exact readHeader_partFile h.inRange (by omega) (by omega)

theorem IsPart.parse {i : Nat} (h : IsPart m total ps i p) :
    headerSize ≤ (partFile m total ps p).length ∧
      MultipartHeader.parse (partFile m total ps p) = partHeader m total ps p := by
  have hread := h.read
  unfold readHeader at hread
  dsimp only at hread
  by_cases hlen : (partFile m total ps p).length < headerSize
  · rw [if_pos hlen] at hread
    cases hread
  · rw [if_neg hlen] at hread
    by_cases hvalid : isValidHeader (MultipartHeader.parse (partFile m total ps p)) = true
    · rw [if_pos hvalid] at hread
      exact ⟨Nat.le_of_not_lt hlen, Except.ok.inj hread⟩
    · rw [if_neg hvalid] at hread
      cases hread

include hcancel in
theorem processPart_writes {i : Nat} (h : IsPart m total ps i p) (z : Miniz) {b : Buffers}
    (hb : 0 < b.uncomp) (w : Writer) :
    ∃ polls, processPart z cancel b (some (partFile m total ps p)) w =
      .ok ⟨w.out ++ p.payload, polls⟩ := by
  obtain ⟨hlen, hparse⟩ := h.parse
  have hstart : startPayload (partHeader m total ps p) = .ok p.dataOffset := by
    refine if_pos ?_
    show p.dataOffset ≠ 0
    rw [h.dataOffset]
    unfold slicedFrom headerSize
    omega
  unfold processPart
  rw [hcancel, if_neg Bool.false_ne_true]
  dsimp only
  rw [if_neg (Nat.not_lt.mpr hlen), hparse, hstart]
  dsimp only
  have hraw : (partHeader m total ps p).numChunksInPart = 0 ∧
      (partHeader m total ps p).compressionType = 0 := ⟨rfl, rfl⟩
  have hslice : (partFile m total ps p).drop (p.dataOffset + 0) = p.payload.drop 0 :=
    drop_partFile h.dataOffset 0
  rw [Nat.add_zero, List.drop_zero] at hslice
  rw [if_pos hraw, hslice]
  exact rawSlice_writes hcancel hb _ p.payload _ (Nat.le_refl _)

include hcancel in
theorem processParts_writes (z : Miniz) {b : Buffers} (hb : 0 < b.uncomp) (qs : List PartInfo) (i : Nat)
    (h : ∀ j q, qs[j]? = some q → IsPart m total ps (i + j) q) (w : Writer) :
    ∃ polls, processParts z cancel b (qs.map fun q => some (partFile m total ps q)) w =
      .ok ⟨w.out ++ (payloads qs).flatten, polls⟩ := by
  induction qs generalizing i w with
  | nil => exact ⟨w.polls, by simp [processParts, payloads]⟩
  | cons q qs ih =>
    obtain ⟨polls, hq⟩ := processPart_writes hcancel (h 0 q rfl) z hb w
    obtain ⟨polls', hqs⟩ := ih (i + 1)
      (fun j r hr => by have hpart := h (j + 1) r hr; rwa [show i + 1 + j = i + (j + 1) by omega])
      ⟨w.out ++ q.payload, polls⟩
    refine ⟨polls', ?_⟩
    rw [List.map_cons, processParts, hq]
    dsimp only
    rw [hqs]
    simp [payloads]

theorem verifyParts_sums {numParts : Nat} (hnum : ps.length = numParts) (qs : List PartInfo) (i : Nat)
    (h : ∀ j q, qs[j]? = some q → IsPart m total ps (i + j) q) (sum : Nat) (hsum : sum < 2 ^ 64) :
    verifyParts numParts (ljust 16 (m.pkgUuid.take 16)) i
        (qs.map fun q => some (partFile m total ps q)) sum =
      .ok ((sum + (payloads qs).flatten.length) % 2 ^ 64) := by
  induction qs generalizing i sum with
  | nil =>
    have hmod : (sum + 0) % 2 ^ 64 = sum := Nat.mod_eq_of_lt hsum
    exact congrArg _ hmod.symm
  | cons q qs ih =>
    have hq := h 0 q rfl
    have hindex : ¬((partHeader m total ps q).partIndex ≠ i + 1 ∨
        (partHeader m total ps q).totalParts ≠ numParts) := by
      rintro (hne | hne)
      · exact hne hq.index
      · exact hne hnum
    have huuid : ¬(partHeader m total ps q).packageUuid ≠ ljust 16 (m.pkgUuid.take 16) :=
      fun hne => hne rfl
    rw [List.map_cons, verifyParts, hq.read]
    dsimp only
    rw [if_neg hindex, if_neg huuid, ih (i + 1) (fun j r hr => by
      have hpart := h (j + 1) r hr
      rwa [show i + 1 + j = i + (j + 1) by omega]) _ (Nat.mod_lt _ (by decide))]
    congr 1
    show ((sum + q.payload.length) % 2 ^ 64 + (payloads qs).flatten.length) % 2 ^ 64 =
      (sum + (q.payload ++ (payloads qs).flatten).length) % 2 ^ 64
    rw [List.length_append, Nat.mod_add_mod, Nat.add_assoc]

end Split

/-- Splitting a package and writing it back from its parts gives the package. -/
theorem decompress_split {m : PkgMeta} {partSize : Nat} {pkg : List UInt8} {files : List (List UInt8)}
    (h : splitPkg m partSize pkg = some files) (z : Miniz) {cancel : Nat → Bool}
    (hcancel : ∀ n, cancel n = false) :
    decompressToPkg z (files.map some) cancel = ⟨0, some pkg⟩ := by
  obtain ⟨hrange, hfiles⟩ := splitPkg_eq_some h
  have hcut := partsInfo_cut m partSize pkg
  generalize partsInfo m partSize pkg = ps at hrange hfiles hcut
  have hpart : ∀ j q, ps[j]? = some q → IsPart m pkg.length ps j q := by
    intro j q hq
    obtain ⟨hindex, -, hoffset⟩ := hcut.entry j q hq
    exact ⟨by omega, (List.getElem?_eq_some_iff.mp hq).1, hrange q (List.mem_of_getElem? hq),
      by rw [hoffset, hindex]⟩
  have hpieces := hcut.flatten
  cases hps : ps with
  | nil => exact absurd hps hcut.nonempty
  | cons p qs =>
    have hfirst := hpart 0 p (by rw [hps]; rfl)
    have hsize : pkg.length < 2 ^ 64 := hfirst.inRange.totalPkgSize
    have hlen : p.payload.length + (payloads qs).flatten.length = pkg.length := by
      rw [← hpieces, hps]
      show _ = (p.payload ++ (payloads qs).flatten).length
      rw [List.length_append]
    have hnum : ps.length = (files.map some).length := by
      rw [hfiles, List.length_map, List.length_map]
    have hmap : files.map some = ps.map fun q => some (partFile m pkg.length ps q) := by
      rw [hfiles, List.map_map]
      rfl
    have hverify := verifyParts_sums hnum qs 1
      (fun j q hq => by rw [Nat.add_comm 1 j]; exact hpart (j + 1) q (by rw [hps]; exact hq))
      p.payload.length (by omega)
    rw [hlen, Nat.mod_eq_of_lt hsize] at hverify
    obtain ⟨polls, hwrites⟩ := processParts_writes hcancel z (b := ⟨2 * 1024 * 1024, 2 * 1024 * 1024⟩)
      (by decide) ps 0 (fun j q hq => by rw [Nat.zero_add]; exact hpart j q hq) ⟨[], 0⟩
    rw [hpieces, List.nil_append, ← hmap] at hwrites
    have hcons : files.map some = some (partFile m pkg.length ps p) ::
        qs.map fun q => some (partFile m pkg.length ps q) := by
      rw [hmap, hps]
      rfl
    unfold decompressToPkg
    rw [hcons] at hnum hwrites hverify ⊢
    dsimp only
    rw [hfirst.read]
    dsimp only
    have htotal : ¬(partHeader m pkg.length ps p).totalParts ≠ _ := fun hne => hne hnum
    have huuid : (partHeader m pkg.length ps p).packageUuid = ljust 16 (m.pkgUuid.take 16) := rfl
    have hdata : (partHeader m pkg.length ps p).partDataSize = p.payload.length := rfl
    have hpkg : (partHeader m pkg.length ps p).totalPkgSize = pkg.length := rfl
    have hbuffers : buffers (partHeader m pkg.length ps p) =
        some ⟨2 * 1024 * 1024, 2 * 1024 * 1024⟩ := rfl
    rw [if_neg htotal, huuid, hdata, hverify, hpkg, hbuffers]
    dsimp only
    rw [if_neg fun hne => hne.2.2 rfl, hwrites]
    dsimp only
    rw [Nat.mod_eq_of_lt hsize, if_neg fun hne => hne.2 rfl]

theorem decompress_split_five :
    decompressToPkg ⟨fun _ => 0, fun _ _ => none⟩ (fiveFiles.map some) (fun _ => false) =
      ⟨0, some fiveBytes⟩ :=
  decompress_split splitPkg_five _ fun _ => rfl

end PkgManager.MultipartDecompress
