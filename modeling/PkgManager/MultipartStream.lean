import PkgManager.MultipartHeader

namespace PkgManager.MultipartStream

open MultipartHeader

abbrev Path := List UInt8

/-- The files that can be opened at some moment, with their content. -/
abbrev Files := Path → Option (List UInt8)

/-- `virtual_part_info_t`; `fd` is the content of the open file. -/
structure VirtualPart where
  path : Path
  startPkgOffset : Nat
  partDataSize : Nat
  dataOffset : Nat
  fd : Option (List UInt8)

/-- `virtual_stream_t` of a local package. Sizes and offsets stay below 2^63,
the range of `off_t`, so that their 64-bit sums do not wrap. -/
structure VirtualStream where
  isMultipart : Bool
  currentPart : Nat
  totalParts : Nat
  totalPkgSize : Nat
  pkgFilename : List UInt8
  packageUuid : List UInt8
  parts : Nat → VirtualPart

/-- A path without the `file://` in front of it. -/
def localPath (path : Path) : Path :=
  if path.take 7 = [102, 105, 108, 101, 58, 47, 47] then path.drop 7 else path

/-- The text of a 256-byte field, cut at its first NUL. -/
def cString (bs : List UInt8) : List UInt8 := (bs.take 255).takeWhile (· ≠ 0)

def VirtualStream.setPart (s : VirtualStream) (i : Nat) (p : VirtualPart) : VirtualStream :=
  { s with parts := Function.update s.parts i p }

/-- Where the slice begins in a part file; headers without `data_offset` leave
it behind the header and the icon. -/
def dataStart (h : Header) : Nat :=
  if h.dataOffset = 0 then
    headerSize +
      if h.partIndex = 1 ∧ 0 < h.iconSize ∧ h.iconOffset = headerSize then h.iconSize else 0
  else h.dataOffset

/-- Resolve part `p` for the table: `find` stands for the part finder, the
adjacent files and the staging directory. -/
def resolvePart (files : Files) (find : Nat → Option Path) (hdr : Header) (initial : Path)
    (s : VirtualStream) (p : Nat) : Except Int VirtualStream :=
  let prevEnd := (s.parts (p - 2)).startPkgOffset + (s.parts (p - 2)).partDataSize
  match if p = hdr.partIndex then some initial else find p with
  | none =>
    -- the part is not mounted: its place is estimated from the opened one
    let start := if 1 < p then prevEnd else (s.parts (p - 1)).startPkgOffset
    let size := if p = s.totalParts then (s.totalPkgSize + 2 ^ 64 - start) % 2 ^ 64
      else hdr.partDataSize
    .ok (s.setPart (p - 1) ⟨[], start, size, headerSize, none⟩)
  | some path =>
    match readHeader (files (localPath path)) with
    | .error _ => .error (-4)
    | .ok h =>
      let start := if p = 1 then 0 else if 0 < h.partOffset then h.partOffset else prevEnd
      .ok (s.setPart (p - 1) ⟨path, start, h.partDataSize, dataStart h, none⟩)

def resolveParts (files : Files) (find : Nat → Option Path) (hdr : Header) (initial : Path) :
    Nat → Nat → VirtualStream → Except Int VirtualStream
  | 0, _, s => .ok s
  | n + 1, p, s =>
    match resolvePart files find hdr initial s p with
    | .error e => .error e
    | .ok s' => resolveParts files find hdr initial n (p + 1) s'

/-- `virtual_stream_open` of a local path. -/
def virtualStreamOpen (files : Files) (find : Nat → Option Path) (initial : Path) :
    Except Int VirtualStream :=
  match files (localPath initial) with
  | none => .error (-1)
  | some bs =>
    match readHeader (some bs) with
    | .error _ =>
      .ok ⟨false, 1, 1, bs.length, [], [], fun _ => ⟨localPath initial, 0, bs.length, 0, none⟩⟩
    | .ok hdr =>
      if hdr.totalParts = 0 ∨ maxParts < hdr.totalParts then .error (-2)
      else
        resolveParts files find hdr initial hdr.totalParts 1
          ⟨true, 1, hdr.totalParts, hdr.totalPkgSize, cString hdr.pkgFilename, hdr.packageUuid,
            fun _ => ⟨[], 0, 0, 0, none⟩⟩

/-- What one pass of the read loop meets: the files it can open, the disc
waiter's answer for a package, a part and the number of parts, the files that
can be opened after the wait, and how much each `pread` returns at most. -/
structure Turn where
  files : Files
  waitDisc : List UInt8 → List UInt8 → Nat → Nat → Option Path
  later : Files
  short : Nat → Nat

inductive ReadResult where
  | data (bs : List UInt8)
  | error

def covers (s : VirtualStream) (off i : Nat) : Bool :=
  (s.parts i).startPkgOffset ≤ off ∧
    off < (s.parts i).startPkgOffset + (s.parts i).partDataSize

def partAt (s : VirtualStream) (off : Nat) : Option Nat :=
  (List.range s.totalParts).find? (covers s off)

/-- The `pread` loop: `none` when the file ends before the chunk is complete. -/
def preadLoop (file : List UInt8) (short : Nat → Nat) : Nat → Nat → Nat → Option (List UInt8)
  | 0, _, _ => some []
  | n + 1, pos, left =>
    if left = 0 then some []
    else
      let got := (file.drop pos).take (min left (max 1 (short pos)))
      if got = [] then none
      else (preadLoop file short n (pos + got.length) (left - got.length)).map (got ++ ·)

/-- The transfer from the open file of part `i`. -/
def transfer (s : VirtualStream) (i off count : Nat) (file : List UInt8) (t : Turn) : ReadResult :=
  let part := s.parts i
  let toRead := if s.totalPkgSize < off + count then s.totalPkgSize - off else count
  if off < part.startPkgOffset then .error
  else
    let inPart := off - part.startPkgOffset
    if part.partDataSize ≤ inPart then .error
    else
      let remaining := part.partDataSize - inPart
      let chunk := if toRead < remaining then toRead else remaining
      match preadLoop file t.short chunk (part.dataOffset + inPart) chunk with
      | none => .error
      | some bs => .data bs

/-- Wait for the disc with part `i + 1`, close the others and take over what its
header says; false when the read fails there. -/
def waitForPart (s : VirtualStream) (i : Nat) (t : Turn) : VirtualStream × Bool :=
  match t.waitDisc s.packageUuid s.pkgFilename (i + 1) s.totalParts with
  | none => (s, false)
  | some path =>
    let closed := { s with
      parts := fun k => if k = i then s.parts k else { s.parts k with fd := none } }
    match readHeader (t.later (localPath path)) with
    | .error _ => (closed, false)
    | .ok h =>
      let start := if 0 < h.partOffset then h.partOffset else (s.parts i).startPkgOffset
      (closed.setPart i ⟨path, start, h.partDataSize, dataStart h, t.later path⟩,
        (t.later path).isSome)

/-- How a pass of the read loop ends: the stream, the answer if it has one, and
the part the disc waiter was asked for. -/
structure Pass where
  stream : VirtualStream
  result : Option ReadResult
  asked : Option Nat

def readPass (s : VirtualStream) (off count : Nat) (t : Turn) : Pass :=
  match partAt s off with
  | none => ⟨s, some .error, none⟩
  | some i =>
    let part := s.parts i
    let fd := if part.fd = none ∧ part.path ≠ [] then t.files part.path else part.fd
    let s' := { s.setPart i { part with fd := fd } with currentPart := i + 1 }
    match fd with
    | some file => ⟨s', some (transfer s' i off count file t), none⟩
    | none =>
      let waited := waitForPart s' i t
      ⟨waited.1, if waited.2 then none else some .error, some (i + 1)⟩

/-- The stream, the answer if the fuel sufficed for one, and the parts asked for. -/
structure Read where
  stream : VirtualStream
  result : Option ReadResult
  asked : List Nat

def readLoop (off count : Nat) (turns : Nat → Turn) : Nat → Nat → VirtualStream → Read
  | 0, _, s => ⟨s, none, []⟩
  | n + 1, k, s =>
    let pass := readPass s off count (turns k)
    match pass.result with
    | some r => ⟨pass.stream, some r, pass.asked.toList⟩
    | none =>
      let rest := readLoop off count turns n (k + 1) pass.stream
      { rest with asked := pass.asked.toList ++ rest.asked }

/-- A read and what it meets on its passes. -/
structure Request where
  off : Nat
  count : Nat
  turns : Nat → Turn
  fuel : Nat

/-- `virtual_stream_read` of a local package. -/
def virtualStreamRead (s : VirtualStream) (r : Request) : Read :=
  if r.count = 0 ∨ s.totalPkgSize ≤ r.off then ⟨s, some (.data []), []⟩
  else readLoop r.off r.count r.turns r.fuel 0 s

/-- The stream after a sequence of reads. -/
def afterReads (s : VirtualStream) (rs : List Request) : VirtualStream :=
  rs.foldl (fun s r => (virtualStreamRead s r).stream) s

end PkgManager.MultipartStream
