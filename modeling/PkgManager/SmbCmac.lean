import PkgManager.AesCipher

namespace PkgManager.SmbCmac

open BlockMac (Block bits octets chain cmac part blockCount)
open AesCipher (aes128)

/-! The message authentication code of the SMB3 signatures. -/

/-- `cmac_cipher_init` and `cmac_cipher_encrypt` of a platform; nothing where one fails. -/
structure Backend (C : Type) where
  init : Block → Option C
  encrypt : C → Block → Option Block

/-- A back end that works as a block cipher. -/
def Backend.Encrypts {C : Type} (b : Backend C) (e : BitVec 128 → BitVec 128 → BitVec 128) : Prop :=
  ∀ key, ∃ c, b.init key = some c ∧
    ∀ block, b.encrypt c block = some (octets (e (bits key.toList) (bits block.toList)))

/-- One turn of the loop of `cmac_double`. -/
def doubleTurn (key : Block) (i : Nat) : Block :=
  key.set! i ((key[i]! <<< 1) ||| (key[i + 1]! >>> 7))

def cmacDouble (key : Block) : Block :=
  let carry := key[0]! >>> 7
  let key := (List.range 15).foldl doubleTurn key
  key.set! 15 ((key[15]! <<< 1) ^^^ (if carry ≠ 0 then 0x87 else 0))

/-- The loops `state[i] ^= p[i]`. -/
def xorInto (n : Nat) (state : Block) (p : List UInt8) : Block :=
  Vector.ofFn fun i : Fin 16 => if i < n then state[i] ^^^ p.getD i 0 else state[i]

/-- The loop over the blocks but the last one: the state and the rest of the message. -/
def blockLoop (encrypt : Block → Option Block) :
    Nat → Block → List UInt8 → Option (Block × List UInt8)
  | 0, state, msg => some (state, msg)
  | n + 1, state, msg =>
    if 16 < msg.length then
      (encrypt (xorInto 16 state msg)).bind fun state => blockLoop encrypt n state (msg.drop 16)
    else some (state, msg)

/-- The rest of the message, with the padding byte when it is short. -/
def lastBlock (state : Block) (msg : List UInt8) : Block :=
  let state := xorInto msg.length state msg
  if msg.length < 16 then state.set! msg.length (state[msg.length]! ^^^ 0x80) else state

/-- `cmac_accel_compute`: nothing for the result -1. The loop has fewer turns than the message bytes. -/
def cmacAccelCompute {C : Type} (b : Backend C) (key : Block) (msg : List UInt8) : Option Block := do
  let cipher ← b.init key
  let subkey ← b.encrypt cipher (Vector.replicate 16 0)
  let subkey := cmacDouble subkey
  let subkey :=
    if msg.length = 0 ∨ msg.length % 16 ≠ 0 then cmacDouble subkey else subkey
  let rest ← blockLoop (b.encrypt cipher) msg.length (Vector.replicate 16 0) msg
  b.encrypt cipher (xorInto 16 (lastBlock rest.1 rest.2) subkey.toList)

theorem getElem_doubleTurn (key : Block) {i j : Nat} (hi : i < 16) (hj : j < 16) :
    (doubleTurn key i)[j] =
      if j = i then (key[i] <<< 1) ||| (key[i + 1]! >>> 7) else key[j] := by
  unfold doubleTurn
  rw [Vector.set!_eq_setIfInBounds, Vector.getElem_setIfInBounds hj, getElem!_pos key i hi]
  by_cases h : i = j
  · rw [if_pos h, if_pos h.symm]
  · rw [if_neg h, if_neg (Ne.symm h)]

/-- The bytes that are shifted already, and the others. -/
theorem getElem_doubleLoop (key : Block) {n j : Nat} (hn : n ≤ 15) (hj : j < 16) :
    ((List.range n).foldl doubleTurn key)[j] =
      if j < n then (key[j] <<< 1) ||| (key[j + 1]! >>> 7) else key[j] := by
  induction n generalizing j with
  | zero => simp
  | succ n ih =>
    rw [List.range_succ, List.foldl_append, List.foldl_cons, List.foldl_nil,
      getElem_doubleTurn _ (by omega) hj]
    have hn' : n ≤ 15 := by omega
    have hat : n < 16 := by omega
    have hnext : n + 1 < 16 := by omega
    by_cases h : j = n
    · subst h
      have hbehind : ¬j + 1 < j := by omega
      have hnow : j < j + 1 := Nat.lt_succ_self j
      rw [if_pos rfl, getElem!_pos ((List.range j).foldl doubleTurn key) _ hnext, ih hn' hat, ih hn' hnext, if_neg (Nat.lt_irrefl j),
        if_neg hbehind, if_pos hnow, getElem!_pos key _ hnext]
    · rw [if_neg h, ih hn' hj]
      by_cases hlt : j < n
      · have hlt' : j < n + 1 := by omega
        rw [if_pos hlt, if_pos hlt']
      · have hlt' : ¬j < n + 1 := by omega
        rw [if_neg hlt, if_neg hlt']

/-- The doubling of the standard. -/
theorem bits_cmacDouble (key : Block) :
    bits (cmacDouble key).toList = BlockMac.double (bits key.toList) := by
  have hshift : bits (((List.range 15).foldl doubleTurn key).set! 15 (key[15] <<< 1)).toList =
      bits key.toList <<< 1 := by
    apply BlockMac.bits_shift
    · intro j hj
      have hne : ¬15 = j := by omega
      have hnext : j + 1 < 16 := by omega
      rw [Vector.set!_eq_setIfInBounds, Vector.getElem_setIfInBounds (by omega), if_neg hne,
        getElem_doubleLoop _ (by decide) (by omega), if_pos hj, getElem!_pos key _ hnext]
    · rw [Vector.set!_eq_setIfInBounds, Vector.getElem_setIfInBounds (by decide), if_pos rfl]
  have hlast : ((List.range 15).foldl doubleTurn key)[15]! = key[15] := by
    rw [getElem!_pos _ 15 (by decide), getElem_doubleLoop _ (by decide) (by decide),
      if_neg (by decide)]
  unfold cmacDouble BlockMac.double
  dsimp only
  rw [hlast, getElem!_pos key 0 (by decide), BlockMac.msb_bits, ← hshift]
  by_cases hcarry : key[0] >>> 7 = 0
  · rw [if_neg (not_not_intro hcarry), if_pos ((BlockMac.top_zero_iff _).mp hcarry), UInt8.xor_zero]
  · rw [if_pos hcarry, if_neg (mt (BlockMac.top_zero_iff _).mpr hcarry)]
    -- the constant of the standard is the last octet of a block of zeros
    have hconst : bits (List.replicate 15 0 ++ [0x87]) = 0x87 := by decide
    rw [← hconst]
    apply BlockMac.bits_xor (by decide)
    intro i hi
    rw [Vector.set!_eq_setIfInBounds, Vector.getElem_setIfInBounds hi,
      Vector.set!_eq_setIfInBounds, Vector.getElem_setIfInBounds hi]
    by_cases hend : 15 = i
    · subst hend
      rw [if_pos rfl, if_pos rfl]
      rfl
    · have hin : i < (List.replicate 15 (0 : UInt8)).length := by
        rw [List.length_replicate]
        omega
      rw [if_neg hend, if_neg hend, List.getD_append _ _ _ _ hin, List.getD_eq_getElem?_getD,
        List.getElem?_getD_replicate_default_eq, UInt8.xor_zero]

theorem getElem_xorInto (n : Nat) (state : Block) (p : List UInt8) {i : Nat} (hi : i < 16) :
    (xorInto n state p)[i] = if i < n then state[i] ^^^ p.getD i 0 else state[i] := by
  unfold xorInto
  rw [Vector.getElem_ofFn]
  rfl

theorem bits_xorInto {state : Block} {p : List UInt8} (h : 16 ≤ p.length) :
    bits (xorInto 16 state p).toList = bits state.toList ^^^ bits (p.take 16) := by
  apply BlockMac.bits_xor
  · rw [List.length_take]
    omega
  · intro i hi
    rw [getElem_xorInto _ _ _ hi, if_pos hi, List.getD_eq_getElem?_getD, List.getD_eq_getElem?_getD,
      List.getElem?_take_of_lt hi]

theorem bits_xorInto_block (state p : Block) :
    bits (xorInto 16 state p.toList).toList = bits state.toList ^^^ bits p.toList := by
  have hlen : p.toList.length = 16 := Vector.length_toList
  rw [bits_xorInto (Nat.le_of_eq hlen.symm), List.take_of_length_le (Nat.le_of_eq hlen)]

theorem blockLoop_chain {encrypt : Block → Option Block} {e : BitVec 128 → BitVec 128}
    (henc : ∀ block, encrypt block = some (octets (e (bits block.toList)))) {fuel : Nat}
    (state : Block) {msg : List UInt8} (hfuel : msg.length ≤ fuel) :
    blockLoop encrypt fuel state msg =
      some (octets (chain e (bits state.toList) msg ((msg.length - 1) / 16)),
        msg.drop (16 * ((msg.length - 1) / 16))) := by
  induction fuel generalizing state msg with
  | zero =>
    have hnone : (msg.length - 1) / 16 = 0 := by omega
    rw [hnone, Nat.mul_zero, List.drop_zero]
    unfold blockLoop chain
    rw [List.range_zero, List.foldl_nil, BlockMac.octets_bits]
  | succ n ih =>
    unfold blockLoop
    by_cases hlong : 16 < msg.length
    · have hrest : (msg.drop 16).length ≤ n := by
        rw [List.length_drop]
        omega
      have hcount : (msg.length - 1) / 16 = (msg.length - 16 - 1) / 16 + 1 := by omega
      have hat : 16 + 16 * ((msg.length - 16 - 1) / 16) = 16 * ((msg.length - 16 - 1) / 16 + 1) := by
        omega
      rw [if_pos hlong, henc, Option.bind_some, ih _ hrest, BlockMac.bits_octets,
        bits_xorInto (Nat.le_of_lt hlong), List.length_drop, List.drop_drop, hcount,
        BlockMac.chain_succ, hat]
    · have hnone : (msg.length - 1) / 16 = 0 := by omega
      rw [if_neg hlong, hnone, Nat.mul_zero, List.drop_zero]
      unfold chain
      rw [List.range_zero, List.foldl_nil, BlockMac.octets_bits]

/-- What the last block adds to the state. -/
theorem bits_lastBlock (state : Block) {msg : List UInt8} (h : msg.length ≤ 16) :
    bits (lastBlock state msg).toList =
      bits state.toList ^^^ bits (if msg.length = 16 then msg else BlockMac.padding msg) := by
  unfold lastBlock
  by_cases hfull : msg.length = 16
  · have hnot : ¬msg.length < 16 := by omega
    dsimp only
    rw [if_neg hnot, if_pos hfull, hfull, bits_xorInto (Nat.le_of_eq hfull.symm),
      List.take_of_length_le h]
  · have hshort : msg.length < 16 := by omega
    dsimp only
    rw [if_pos hshort, if_neg hfull]
    apply BlockMac.bits_xor (BlockMac.length_padding hshort)
    intro i hi
    rw [Vector.set!_eq_setIfInBounds, Vector.getElem_setIfInBounds hi, getElem!_pos (xorInto msg.length state msg) _ hshort,
      BlockMac.getD_padding]
    by_cases hat : msg.length = i
    · subst hat
      rw [if_pos rfl, if_pos rfl, getElem_xorInto _ _ _ hi, if_neg (Nat.lt_irrefl _)]
    · rw [if_neg hat, if_neg (Ne.symm hat), getElem_xorInto _ _ _ hi]
      by_cases hin : i < msg.length
      · rw [if_pos hin]
      · rw [if_neg hin, List.getD_eq_default _ _ (Nat.le_of_not_lt hin), UInt8.xor_zero]

/-- The code of any block cipher. -/
theorem cmacAccelCompute_cmac {C : Type} {b : Backend C} {e : BitVec 128 → BitVec 128 → BitVec 128}
    (h : b.Encrypts e) (key : Block) (msg : List UInt8) :
    cmacAccelCompute b key msg = some (octets (cmac (e (bits key.toList)) msg)) := by
  obtain ⟨c, hinit, henc⟩ := h key
  have hzero : bits (Vector.replicate 16 0 : Block).toList = 0 := by decide
  have hcount : blockCount msg - 1 = (msg.length - 1) / 16 := by
    rw [BlockMac.blockCount_eq, Nat.add_sub_cancel]
  have hrest : (msg.drop (16 * ((msg.length - 1) / 16))).length ≤ 16 := by
    rw [List.length_drop]
    omega
  have hpart : part msg (blockCount msg) = msg.drop (16 * ((msg.length - 1) / 16)) := by
    unfold part
    rw [hcount, List.take_of_length_le hrest]
  have hwhole : (msg.drop (16 * ((msg.length - 1) / 16))).length = 16 ↔
      msg.length ≠ 0 ∧ msg.length % 16 = 0 := by
    rw [List.length_drop]
    omega
  unfold cmacAccelCompute cmac
  simp only [hinit, henc, blockLoop_chain henc _ (Nat.le_refl _), Option.bind_eq_bind,
    Option.bind_some, hzero, hcount, hpart]
  rw [bits_xorInto_block, bits_lastBlock _ hrest, BlockMac.bits_octets]
  by_cases hflag : msg.length ≠ 0 ∧ msg.length % 16 = 0
  · have hnot : ¬(msg.length = 0 ∨ msg.length % 16 ≠ 0) := by omega
    rw [if_pos hflag, if_neg hnot, if_pos (hwhole.mpr hflag), bits_cmacDouble, BlockMac.bits_octets,
      BitVec.xor_assoc, BitVec.xor_comm]
  · have hyes : msg.length = 0 ∨ msg.length % 16 ≠ 0 := by omega
    rw [if_neg hflag, if_pos hyes, if_neg (mt hwhole.mp hflag), bits_cmacDouble, bits_cmacDouble,
      BlockMac.bits_octets, BitVec.xor_assoc, BitVec.xor_comm]

/-- The back end with the cipher itself, whose state is the key. -/
def aesBackend : Backend Block where
  init key := some key
  encrypt key block := some (octets (aes128 (bits key.toList) (bits block.toList)))

theorem cmac_accel_compute_aes {C : Type} {b : Backend C} (h : b.Encrypts aes128) (key : Block)
    (msg : List UInt8) :
    cmacAccelCompute b key msg = some (octets (cmac (aes128 (bits key.toList)) msg)) :=
  cmacAccelCompute_cmac h key msg

theorem cmac_accel_compute_aes_vector :
    cmacAccelCompute aesBackend (octets 0x2b7e151628aed2a6abf7158809cf4f3c)
        [0x6b, 0xc1, 0xbe, 0xe2, 0x2e, 0x40, 0x9f, 0x96, 0xe9, 0x3d, 0x7e, 0x11, 0x73, 0x93, 0x17, 0x2a,
          0xae, 0x2d, 0x8a, 0x57, 0x1e, 0x03, 0xac, 0x9c, 0x9e, 0xb7, 0x6f, 0xac, 0x45, 0xaf, 0x8e, 0x51,
          0x30, 0xc8, 0x1c, 0x46, 0xa3, 0x5c, 0xe4, 0x11] =
      some (octets 0xdfa66747de9ae63030ca32611497c827) := by
  rw [cmac_accel_compute_aes (fun key => ⟨key, rfl, fun block => rfl⟩)]
  decide +kernel

end PkgManager.SmbCmac
