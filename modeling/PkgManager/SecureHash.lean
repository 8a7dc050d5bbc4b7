import PkgManager.BlockBuffer

namespace PkgManager.SecureHash

/-! The Secure Hash Algorithm of FIPS 180-1, for messages of whole bytes. -/

/-- The circular left shift. -/
def shift (n x : UInt32) : UInt32 := (x <<< n) ||| (x >>> (32 - n))

def f (t : Nat) (b c d : UInt32) : UInt32 :=
  if t < 20 then (b &&& c) ||| (~~~b &&& d)
  else if t < 40 then b ^^^ c ^^^ d
  else if t < 60 then (b &&& c) ||| (b &&& d) ||| (c &&& d)
  else b ^^^ c ^^^ d

def k (t : Nat) : UInt32 :=
  if t < 20 then 0x5A827999 else if t < 40 then 0x6ED9EBA1 else if t < 60 then 0x8F1BBCDC else 0xCA62C1D6

/-- The number bytes stand for, the most significant one first. -/
def number (bytes : List UInt8) : Nat := bytes.foldl (fun v b => 256 * v + b.toNat) 0

/-- The last `n` bytes of a number. -/
def bytes (n v : Nat) : List UInt8 := (List.range n).map fun i => UInt8.ofNat (v / 256 ^ (n - 1 - i))

/-- Five words. -/
structure Words where
  a : UInt32
  b : UInt32
  c : UInt32
  d : UInt32
  e : UInt32
  deriving DecidableEq

def word (block : List UInt8) (t : Nat) : UInt32 := UInt32.ofNat (number ((block.drop (4 * t)).take 4))

/-- The words of a block, and those that follow from them. -/
def schedule (block : List UInt8) (t : Nat) : UInt32 :=
  if t < 16 then word block t
  else shift 1 (schedule block (t - 3) ^^^ schedule block (t - 8) ^^^ schedule block (t - 14) ^^^
    schedule block (t - 16))
termination_by t

def round (w : Nat → UInt32) (s : Words) (t : Nat) : Words :=
  ⟨shift 5 s.a + f t s.b s.c s.d + s.e + w t + k t, s.a, shift 30 s.b, s.c, s.d⟩

def compress (h : Words) (block : List UInt8) : Words :=
  let s := (List.range 80).foldl (round (schedule block)) h
  ⟨h.a + s.a, h.b + s.b, h.c + s.c, h.d + s.d, h.e + s.e⟩

def initial : Words := ⟨0x67452301, 0xEFCDAB89, 0x98BADCFE, 0x10325476, 0xC3D2E1F0⟩

/-- The message with a one, zeros up to eight bytes in front of the end of a block, and
the number of its bits. -/
def pad (m : List UInt8) : List UInt8 :=
  m ++ 128 :: (List.replicate ((119 - m.length % 64) % 64) 0 ++ bytes 8 (8 * m.length))

def digest (m : List UInt8) : List UInt8 :=
  let h := BlockBuffer.blocks 64 compress initial (pad m)
  [h.a, h.b, h.c, h.d, h.e].flatMap fun w => bytes 4 w.toNat

theorem length_bytes (n v : Nat) : (bytes n v).length = n := by
  rw [bytes, List.length_map, List.length_range]

theorem length_pad (m : List UInt8) : ∃ k, (pad m).length = 64 * k := by
  refine ⟨(m.length + 1 + (119 - m.length % 64) % 64 + 8) / 64, ?_⟩
  rw [pad, List.length_append, List.length_cons, List.length_append, List.length_replicate,
    length_bytes]
  omega

end PkgManager.SecureHash
