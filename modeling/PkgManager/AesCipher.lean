import PkgManager.BlockMac

namespace PkgManager.AesCipher

open BlockMac (bits octets)

/-! The cipher of FIPS 197 with a key of 128 bits. -/

/-- Multiplication by `x` in the field of 256 elements. -/
def xTime (b : UInt8) : UInt8 :=
  if b >>> 7 = 0 then b <<< 1 else (b <<< 1) ^^^ 0x1b

/-- The rows of the substitution table, sixteen values in each. -/
def sBoxRows : List Nat :=
  [0x637c777bf26b6fc53001672bfed7ab76, 0xca82c97dfa5947f0add4a2af9ca472c0,
   0xb7fd9326363ff7cc34a5e5f171d83115, 0x04c723c31896059a071280e2eb27b275,
   0x09832c1a1b6e5aa0523bd6b329e32f84, 0x53d100ed20fcb15b6acbbe394a4c58cf,
   0xd0efaafb434d338545f9027f503c9fa8, 0x51a3408f929d38f5bcb6da2110fff3d2,
   0xcd0c13ec5f974417c4a77e3d645d1973, 0x60814fdc222a908846eeb814de5e0bdb,
   0xe0323a0a4906245cc2d3ac629195e479, 0xe7c8376d8dd54ea96c56f4ea657aae08,
   0xba78252e1ca6b4c6e8dd741f4bbd8b8a, 0x703eb5664803f60e613557b986c11d9e,
   0xe1f8981169d98e949b1e87e9ce5528df, 0x8ca1890dbfe6426841992d0fb054bb16]

def sBox (b : UInt8) : UInt8 :=
  UInt8.ofNat (sBoxRows.getD (b.toNat / 16) 0 >>> (8 * (15 - b.toNat % 16)))

/-- Row `r` and column `c` of a state stand at `r + 4 * c`. -/
def entry (s : List UInt8) (r c : Nat) : UInt8 := s.getD (r + 4 * c) 0

def state (f : Nat → Nat → UInt8) : List UInt8 :=
  (List.range 16).map fun i => f (i % 4) (i / 4)

def subBytes (s : List UInt8) : List UInt8 := s.map sBox

def shiftRows (s : List UInt8) : List UInt8 := state fun r c => entry s r ((c + r) % 4)

def mixColumns (s : List UInt8) : List UInt8 :=
  state fun r c =>
    xTime (entry s r c) ^^^ (xTime (entry s ((r + 1) % 4) c) ^^^ entry s ((r + 1) % 4) c) ^^^
      entry s ((r + 2) % 4) c ^^^ entry s ((r + 3) % 4) c

def addWords (a b : List UInt8) : List UInt8 := List.zipWith (· ^^^ ·) a b

def rotWord (w : List UInt8) : List UInt8 := w.drop 1 ++ w.take 1

def subWord (w : List UInt8) : List UInt8 := w.map sBox

/-- The round constants, `x` to the power of `i - 1` in front. -/
def rcon (i : Nat) : List UInt8 := [(List.range (i - 1)).foldl (fun b _ => xTime b) 1, 0, 0, 0]

/-- The next four words of the key schedule, from the four before them. -/
def nextKey (k : List UInt8) (i : Nat) : List UInt8 :=
  let w0 := addWords (k.take 4) (addWords (subWord (rotWord (k.drop 12))) (rcon i))
  let w1 := addWords ((k.drop 4).take 4) w0
  let w2 := addWords ((k.drop 8).take 4) w1
  let w3 := addWords (k.drop 12) w2
  w0 ++ w1 ++ w2 ++ w3

/-- One round, with the state and the key of the round before. -/
def round (p : List UInt8 × List UInt8) (i : Nat) : List UInt8 × List UInt8 :=
  let k := nextKey p.2 i
  (addWords (mixColumns (shiftRows (subBytes p.1))) k, k)

def cipher (key input : List UInt8) : List UInt8 :=
  let p := (List.range' 1 9).foldl round (addWords input key, key)
  addWords (shiftRows (subBytes p.1)) (nextKey p.2 10)

/-- AES-128, from a key and a block of 128 bits. -/
def aes128 (key block : BitVec 128) : BitVec 128 :=
  bits (cipher (octets key).toList (octets block).toList)

example : aes128 0x000102030405060708090a0b0c0d0e0f 0x00112233445566778899aabbccddeeff =
    0x69c4e0d86a7b0430d8cdb78070b4c55a := by decide +kernel

end PkgManager.AesCipher
