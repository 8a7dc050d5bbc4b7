import PkgManager.Records

namespace PkgManager.MultipartHeader

open Records

/-- `MULTIPART_MAGIC`, "PS5MPKG1". -/
def magicBytes : List UInt8 := [0x50, 0x53, 0x35, 0x4D, 0x50, 0x4B, 0x47, 0x31]

/-- `MULTIPART_HEADER_SIZE`. -/
def headerSize : Nat := 4096

/-- `MAX_MULTIPART_PARTS`. -/
def maxParts : Nat := 256

/-- `multipart_header_t`. -/
structure Header where
  magic : List UInt8
  headerVersion : Nat
  partIndex : Nat
  totalParts : Nat
  compressionType : Nat
  chunkSize : Nat
  numChunksInPart : Nat
  partDataSize : Nat
  totalPkgSize : Nat
  totalArchiveSize : Nat
  pkgFilename : List UInt8
  titleId : List UInt8
  titleName : List UInt8
  contentId : List UInt8
  packageUuid : List UInt8
  iconOffset : Nat
  iconSize : Nat
  appVersion : List UInt8
  pkgType : List UInt8
  partOffset : Nat
  dataOffset : Nat
  reserved : List UInt8

/-- The packed layout of the structure, which is also the format string of `pack_header`. -/
def widths : List Nat :=
  [8, 4, 4, 4, 4, 4, 4, 8, 8, 8, 256, 32, 256, 64, 16, 4, 4, 32, 16, 8, 4, 3348]

def Header.fields (h : Header) : List (List UInt8) :=
  [h.magic, leBytes 4 h.headerVersion, leBytes 4 h.partIndex, leBytes 4 h.totalParts,
    leBytes 4 h.compressionType, leBytes 4 h.chunkSize, leBytes 4 h.numChunksInPart,
    leBytes 8 h.partDataSize, leBytes 8 h.totalPkgSize, leBytes 8 h.totalArchiveSize,
    h.pkgFilename, h.titleId, h.titleName, h.contentId, h.packageUuid, leBytes 4 h.iconOffset,
    leBytes 4 h.iconSize, h.appVersion, h.pkgType, leBytes 8 h.partOffset,
    leBytes 4 h.dataOffset, h.reserved]

def Header.bytes (h : Header) : List UInt8 := h.fields.flatten

def parse (bs : List UInt8) : Header :=
  let f := fun i => (unpack widths bs).getD i []
  { magic := f 0
    headerVersion := leValue (f 1)
    partIndex := leValue (f 2)
    totalParts := leValue (f 3)
    compressionType := leValue (f 4)
    chunkSize := leValue (f 5)
    numChunksInPart := leValue (f 6)
    partDataSize := leValue (f 7)
    totalPkgSize := leValue (f 8)
    totalArchiveSize := leValue (f 9)
    pkgFilename := f 10
    titleId := f 11
    titleName := f 12
    contentId := f 13
    packageUuid := f 14
    iconOffset := leValue (f 15)
    iconSize := leValue (f 16)
    appVersion := f 17
    pkgType := f 18
    partOffset := leValue (f 19)
    dataOffset := leValue (f 20)
    reserved := f 21 }

/-- `multipart_is_valid_header`. -/
def isValidHeader (h : Header) : Bool :=
  if h.magic ≠ magicBytes then false
  else if h.headerVersion ≠ 1 then false
  else if h.totalParts = 0 ∨ h.partIndex = 0 ∨ h.totalParts < h.partIndex then false
  else if h.compressionType ≠ 0 ∧ h.compressionType ≠ 1 then false
  else if 64 * 1024 * 1024 < h.chunkSize then false
  else true

/-- `multipart_read_header` on the content of a file, `none` where it cannot be opened. -/
def readHeader (file : Option (List UInt8)) : Except Int Header :=
  match file with
  | none => .error (-1)
  | some bs =>
    if bs.length < headerSize then .error (-1)
    else if isValidHeader (parse bs) then .ok (parse bs)
    else .error (-2)

/-- The numbers fit their fields. -/
@[mk_iff]
structure Header.InRange (h : Header) : Prop where
  headerVersion : h.headerVersion < 2 ^ 32
  partIndex : h.partIndex < 2 ^ 32
  totalParts : h.totalParts < 2 ^ 32
  compressionType : h.compressionType < 2 ^ 32
  chunkSize : h.chunkSize < 2 ^ 32
  numChunksInPart : h.numChunksInPart < 2 ^ 32
  partDataSize : h.partDataSize < 2 ^ 64
  totalPkgSize : h.totalPkgSize < 2 ^ 64
  totalArchiveSize : h.totalArchiveSize < 2 ^ 64
  iconOffset : h.iconOffset < 2 ^ 32
  iconSize : h.iconSize < 2 ^ 32
  partOffset : h.partOffset < 2 ^ 64
  dataOffset : h.dataOffset < 2 ^ 32

/-- The texts fill their fields. -/
def Header.Filled (h : Header) : Prop := h.fields.map List.length = widths

theorem Header.length_bytes {h : Header} (hf : h.Filled) : h.bytes.length = headerSize := by
  unfold Header.bytes
  rw [List.length_flatten, hf]
  rfl

/-- A header that was laid out is read back field by field. -/
theorem parse_bytes {h : Header} (hf : h.Filled) (hr : h.InRange) (rest : List UInt8) :
    parse (h.bytes ++ rest) = h := by
  have hu : unpack widths (h.bytes ++ rest) = h.fields := by
    rw [← hf]
    exact unpack_flatten h.fields rest
  have h4 : ∀ {n : Nat}, n < 2 ^ 32 → leValue (leBytes 4 n) = n :=
    fun hn => leValue_leBytes_of_lt (Nat.lt_of_lt_of_le hn (by decide))
  have h8 : ∀ {n : Nat}, n < 2 ^ 64 → leValue (leBytes 8 n) = n :=
    fun hn => leValue_leBytes_of_lt (Nat.lt_of_lt_of_le hn (by decide))
  obtain ⟨r1, r2, r3, r4, r5, r6, r7, r8, r9, r10, r11, r12, r13⟩ := hr
  unfold parse
  rw [hu]
  simp [Header.fields, h4 r1, h4 r2, h4 r3, h4 r4, h4 r5, h4 r6, h8 r7, h8 r8, h8 r9, h4 r10, h4 r11,
    h8 r12, h4 r13]

theorem length_field {bs : List UInt8} (h : headerSize ≤ bs.length) (i : Nat) :
    ((unpack widths bs).getD i []).length = widths.getD i 0 := by
  have hmap : (unpack widths bs).map List.length = widths := length_unpack h
  have hi := congrArg (·[i]?) hmap
  simp only [List.getElem?_map] at hi
  rw [List.getD_eq_getElem?_getD, List.getD_eq_getElem?_getD, ← hi]
  cases (unpack widths bs)[i]? <;> rfl

/-- What is read from a file fills its fields. -/
theorem parse_filled {bs : List UInt8} (h : headerSize ≤ bs.length) : (parse bs).Filled := by
  have hf := length_field h
  simp only [Header.Filled, Header.fields, parse, List.map_cons, List.map_nil, length_leBytes, hf]
  rfl

theorem parse_inRange {bs : List UInt8} (h : headerSize ≤ bs.length) : (parse bs).InRange := by
  have hlt : ∀ i, leValue ((unpack widths bs).getD i []) < 256 ^ widths.getD i 0 := fun i => by
    rw [← length_field h i]
    exact leValue_lt _
  have h4 : ∀ i, widths.getD i 0 = 4 → leValue ((unpack widths bs).getD i []) < 2 ^ 32 := by
    intro i hi
    have hb := hlt i
    rw [hi] at hb
    exact Nat.lt_of_lt_of_eq hb (by decide)
  have h8 : ∀ i, widths.getD i 0 = 8 → leValue ((unpack widths bs).getD i []) < 2 ^ 64 := by
    intro i hi
    have hb := hlt i
    rw [hi] at hb
    exact Nat.lt_of_lt_of_eq hb (by decide)
  unfold parse
  generalize unpack widths bs = f at h4 h8
  exact ⟨h4 1 rfl, h4 2 rfl, h4 3 rfl, h4 4 rfl, h4 5 rfl, h4 6 rfl, h8 7 rfl, h8 8 rfl, h8 9 rfl,
    h4 15 rfl, h4 16 rfl, h8 19 rfl, h4 20 rfl⟩

end PkgManager.MultipartHeader
