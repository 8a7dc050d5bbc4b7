import PkgManager.Records

namespace PkgManager.RecordCodec

open Records

variable {α β : Type}

/-- How a value stands in memory, in a number of bytes that is the same for every value. -/
structure Codec (α : Type) where
  size : Nat
  encode : α → List UInt8
  decode : List UInt8 → α
  length_encode : ∀ a, (encode a).length = size
  decode_encode : ∀ a, decode (encode a) = a

namespace Codec

/-- One field behind the other. -/
def pair (c : Codec α) (d : Codec β) : Codec (α × β) where
  size := c.size + d.size
  encode := fun p => c.encode p.1 ++ d.encode p.2
  decode := fun bs => (c.decode (bs.take c.size), d.decode (bs.drop c.size))
  length_encode := by
    intro p
    rw [List.length_append, c.length_encode, d.length_encode]
  decode_encode := by
    intro p
    have hlen := c.length_encode p.1
    rw [List.take_left' hlen, List.drop_left' hlen, c.decode_encode, d.decode_encode]

/-- The fields of a record are the record. -/
def iso (c : Codec α) (make : α → β) (fields : β → α) (h : ∀ b, make (fields b) = b) : Codec β where
  size := c.size
  encode := fun b => c.encode (fields b)
  decode := fun bs => make (c.decode bs)
  length_encode := fun b => c.length_encode (fields b)
  decode_encode := by
    intro b
    rw [c.decode_encode, h]

/-- A field followed by bytes that no one reads. -/
def padded (c : Codec α) (n : Nat) : Codec α where
  size := c.size + n
  encode := fun a => c.encode a ++ List.replicate n 0
  decode := fun bs => c.decode (bs.take c.size)
  length_encode := by
    intro a
    rw [List.length_append, c.length_encode, List.length_replicate]
  decode_encode := by
    intro a
    rw [List.take_left' (c.length_encode a), c.decode_encode]

def chars (n : Nat) : Codec (Vector UInt8 n) where
  size := n
  encode := Vector.toList
  decode := fun bs => Vector.ofFn fun i => bs.getD i 0
  length_encode := fun v => v.length_toList
  decode_encode := by
    intro v
    apply Vector.ext
    intro i hi
    rw [Vector.getElem_ofFn, List.getD_eq_getElem _ _ (by simpa using hi), Vector.getElem_toList]

def uint32 : Codec UInt32 where
  size := 4
  encode := fun n => leBytes 4 n.toNat
  decode := fun bs => UInt32.ofNat (leValue bs)
  length_encode := fun n => length_leBytes 4 n.toNat
  decode_encode := by
    intro n
    rw [leValue_leBytes_of_lt n.toNat_lt, UInt32.ofNat_toNat]

def int32 : Codec Int32 := uint32.iso UInt32.toInt32 Int32.toUInt32 fun _ => rfl

theorem encode_ne_nil (c : Codec α) (h : 0 < c.size) (a : α) : c.encode a ≠ [] := by
  intro hnil
  have hlen := c.length_encode a
  rw [hnil, List.length_nil] at hlen
  omega

end Codec

end PkgManager.RecordCodec
