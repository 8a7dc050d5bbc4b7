import Mathlib

namespace PkgManager.BlockMac

/-! The message authentication code of RFC 4493, over any function on blocks of 128 bits. -/

/-- Sixteen octets. -/
abbrev Block := Vector UInt8 16

/-- The bits of octets, those of the first one in front. -/
def bits (bs : List UInt8) : BitVec 128 :=
  bs.foldl (fun v b => (v <<< 8) ||| b.toBitVec.setWidth 128) 0

def octets (v : BitVec 128) : Block :=
  Vector.ofFn fun i : Fin 16 => UInt8.ofBitVec (v.extractLsb' (8 * (15 - i)) 8)

/-- The step from `L` to `K1` and from `K1` to `K2`. -/
def double (l : BitVec 128) : BitVec 128 :=
  if l.msb = false then l <<< 1 else (l <<< 1) ^^^ 0x87

/-- A single one and zeros up to a whole block. -/
def padding (m : List UInt8) : List UInt8 :=
  m ++ 0x80 :: List.replicate (15 - m.length) 0

/-- The block `M_i` of a message, from 1 on. -/
def part (m : List UInt8) (i : Nat) : List UInt8 := (m.drop (16 * (i - 1))).take 16

/-- The chaining value after `n` blocks. -/
def chain (e : BitVec 128 → BitVec 128) (x : BitVec 128) (m : List UInt8) (n : Nat) : BitVec 128 :=
  (List.range n).foldl (fun x i => e (x ^^^ bits (part m (i + 1)))) x

/-- How many blocks a message has; an empty one counts as one. -/
def blockCount (m : List UInt8) : Nat :=
  if (m.length + 15) / 16 = 0 then 1 else (m.length + 15) / 16

def cmac (e : BitVec 128 → BitVec 128) (m : List UInt8) : BitVec 128 :=
  let k1 := double (e 0)
  let k2 := double k1
  let n := blockCount m
  let last :=
    if m.length ≠ 0 ∧ m.length % 16 = 0 then bits (part m n) ^^^ k1
    else bits (padding (part m n)) ^^^ k2
  e (last ^^^ chain e 0 m (n - 1))

theorem chain_succ (e : BitVec 128 → BitVec 128) (x : BitVec 128) (m : List UInt8) (n : Nat) :
    chain e x m (n + 1) = chain e (e (x ^^^ bits (m.take 16))) (m.drop 16) n := by
  have hpart : ∀ i, part m (i + 1 + 1) = part (m.drop 16) (i + 1) := by
    intro i
    unfold part
    rw [List.drop_drop]
    congr 2
    omega
  unfold chain
  rw [List.range_succ_eq_map, List.foldl_cons, List.foldl_map]
  simp only [Nat.succ_eq_add_one, hpart]
  rfl

/-- One bit of a block. -/
theorem getLsbD_bits (bs : List UInt8) {i : Nat} (hi : i < 128) :
    (bits bs).getLsbD i =
      (decide (i / 8 < bs.length) && (bs.getD (bs.length - 1 - i / 8) 0).toBitVec.getLsbD (i % 8)) := by
  induction bs using List.reverseRecOn generalizing i with
  | nil => simp [bits]
  | append_singleton bs b ih =>
    have hstep : bits (bs ++ [b]) = (bits bs <<< 8) ||| b.toBitVec.setWidth 128 := by
      unfold bits
      rw [List.foldl_append, List.foldl_cons, List.foldl_nil]
    rw [hstep, BitVec.getLsbD_or, BitVec.getLsbD_shiftLeft, BitVec.getLsbD_setWidth,
      List.length_append, List.length_singleton]
    by_cases hlow : i < 8
    · have hdiv : i / 8 = 0 := Nat.div_eq_of_lt hlow
      have hmod : i % 8 = i := Nat.mod_eq_of_lt hlow
      rw [hdiv, hmod]
      simp [hi, hlow]
    · have hback : i - 8 < 128 := by omega
      have hdiv : (i - 8) / 8 = i / 8 - 1 := by omega
      have hmod : (i - 8) % 8 = i % 8 := by omega
      have hzero : b.toBitVec.getLsbD i = false := BitVec.getLsbD_of_ge _ _ (by omega)
      rw [ih hback, hdiv, hmod, hzero]
      have hpos : 1 ≤ i / 8 := by omega
      by_cases hlt : i / 8 < bs.length + 1
      · have hat : bs.length + 1 - 1 - i / 8 = bs.length - 1 - (i / 8 - 1) := by omega
        have hin : bs.length - 1 - (i / 8 - 1) < bs.length := by omega
        have hprev : i / 8 - 1 < bs.length := by omega
        rw [hat, List.getD_append _ _ _ _ hin]
        simp [hi, hlow, hlt, hprev]
      · have hprev : ¬i / 8 - 1 < bs.length := by omega
        simp [hlt, hprev]

/-- One bit of a whole block. -/
theorem getLsbD_block (b : Block) {i : Nat} (hi : i < 128) (hat : 15 - i / 8 < 16) :
    (bits b.toList).getLsbD i = b[15 - i / 8].toBitVec.getLsbD (i % 8) := by
  have hlen : b.toList.length = 16 := Vector.length_toList
  have hin : 15 - i / 8 < b.toList.length := by omega
  rw [getLsbD_bits _ hi, hlen, List.getD_eq_getElem _ _ hin, Vector.getElem_toList]
  have hlt : i / 8 < 16 := by omega
  simp [hlt]

theorem bits_octets (v : BitVec 128) : bits (octets v).toList = v := by
  apply BitVec.eq_of_getLsbD_eq
  intro i hi
  have hat : 8 * (15 - (15 - i / 8)) + i % 8 = i := by omega
  have hmod : i % 8 < 8 := Nat.mod_lt _ (by decide)
  rw [getLsbD_block _ hi (by omega)]
  unfold octets
  simp [hmod, hat]

theorem octets_bits (b : Block) : octets (bits b.toList) = b := by
  apply Vector.ext
  intro i hi
  apply UInt8.toBitVec_inj.mp
  apply BitVec.eq_of_getLsbD_eq
  intro j hj
  have hlt : 8 * (15 - i) + j < 128 := by omega
  have hat : 15 - (8 * (15 - i) + j) / 8 < 16 := by omega
  have hdiv : 15 - (8 * (15 - i) + j) / 8 = i := by omega
  have hmod : (8 * (15 - i) + j) % 8 = j := by omega
  unfold octets
  simp only [Vector.getElem_ofFn, BitVec.getLsbD_extractLsb', hj, decide_true, Bool.true_and,
    getLsbD_block b hlt hat, hdiv, hmod]

/-- Octet by octet is bit by bit. -/
theorem bits_xor {s t : Block} {m : List UInt8} (hm : m.length = 16)
    (h : ∀ i (hi : i < 16), t[i] = s[i] ^^^ m.getD i 0) :
    bits t.toList = bits s.toList ^^^ bits m := by
  apply BitVec.eq_of_getLsbD_eq
  intro i hi
  have hat : 15 - i / 8 < 16 := by omega
  have hin : i / 8 < 16 := by omega
  rw [BitVec.getLsbD_xor, getLsbD_block t hi hat, getLsbD_block s hi hat, getLsbD_bits m hi, h _ hat,
    hm, UInt8.toBitVec_xor, BitVec.getLsbD_xor, decide_eq_true hin, Bool.true_and]

theorem getLsbD_shiftLeft_one (x : UInt8) {r : Nat} (hr : r < 8) :
    (x <<< 1).toBitVec.getLsbD r = (decide (0 < r) && x.toBitVec.getLsbD (r - 1)) := by
  have h : (x <<< 1).toBitVec = x.toBitVec <<< 1 := rfl
  rw [h, BitVec.getLsbD_shiftLeft, decide_eq_true hr, Bool.true_and]
  by_cases hzero : r = 0
  · subst r
    simp
  · have hpos : 0 < r := by omega
    have hnot : ¬r < 1 := by omega
    simp [hpos, hnot]

theorem getLsbD_shiftRight_seven (y : UInt8) (r : Nat) :
    (y >>> 7).toBitVec.getLsbD r = (decide (r = 0) && y.toBitVec.getLsbD 7) := by
  have h : (y >>> 7).toBitVec = y.toBitVec >>> 7 := rfl
  rw [h, BitVec.getLsbD_ushiftRight]
  by_cases hzero : r = 0
  · subst r
    simp
  · rw [BitVec.getLsbD_of_ge _ _ (by omega), decide_eq_false hzero, Bool.false_and]

/-- The shift by one octet at a time, each with the top bit of the next one. -/
theorem bits_shift {s t : Block}
    (h : ∀ j (hj : j < 15), t[j] = (s[j] <<< (1 : UInt8)) ||| (s[j + 1] >>> (7 : UInt8)))
    (hlast : t[15] = s[15] <<< (1 : UInt8)) : bits t.toList = bits s.toList <<< 1 := by
  apply BitVec.eq_of_getLsbD_eq
  intro i hi
  have hat : 15 - i / 8 < 16 := by omega
  have hmod : i % 8 < 8 := Nat.mod_lt _ (by decide)
  rw [BitVec.getLsbD_shiftLeft, decide_eq_true hi, Bool.true_and, getLsbD_block t hi hat]
  by_cases hin : i % 8 = 0
  · by_cases hzero : i = 0
    · subst hzero
      simp [hlast]
    · -- the lowest bit of an octet is the top one of the octet behind it
      have hj : 15 - i / 8 < 15 := by omega
      have hprev : i - 1 < 128 := by omega
      have hnext : 15 - (i - 1) / 8 = 15 - i / 8 + 1 := by omega
      have htop : (i - 1) % 8 = 7 := by omega
      have hnot : ¬i < 1 := by omega
      rw [h _ hj, UInt8.toBitVec_or, BitVec.getLsbD_or, getLsbD_shiftLeft_one _ hmod,
        getLsbD_shiftRight_seven, getLsbD_block s hprev (by omega)]
      simp [hin, hnext, htop, hnot]
  · have hprev : i - 1 < 128 := by omega
    have hsame : 15 - (i - 1) / 8 = 15 - i / 8 := by omega
    have hbelow : (i - 1) % 8 = i % 8 - 1 := by omega
    have hpos : 0 < i % 8 := by omega
    have hnot : ¬i < 1 := by omega
    rw [getLsbD_block s hprev (by omega)]
    by_cases hj : 15 - i / 8 < 15
    · rw [h _ hj, UInt8.toBitVec_or, BitVec.getLsbD_or, getLsbD_shiftLeft_one _ hmod,
        getLsbD_shiftRight_seven]
      simp [hin, hpos, hsame, hbelow, hnot]
    · have hend : 15 - i / 8 = 15 := by omega
      simp only [hsame, hend, hlast, getLsbD_shiftLeft_one _ hmod]
      simp [hpos, hbelow, hnot]

theorem msb_bits (s : Block) : (bits s.toList).msb = s[0].toBitVec.getLsbD 7 := by
  rw [BitVec.msb_eq_getLsbD_last, getLsbD_block s (by decide) (by decide)]

theorem top_zero_iff (b : UInt8) : b >>> 7 = 0 ↔ b.toBitVec.getLsbD 7 = false := by
  have hmsb : b.toBitVec.getLsbD 7 = b.toBitVec.msb := (BitVec.msb_eq_getLsbD_last _).symm
  rw [hmsb, ← UInt8.toNat_inj, BitVec.msb_eq_decide]
  simp
  omega

/-- The message begins with whole blocks, and one more block or a part of it is left. -/
theorem blockCount_eq (m : List UInt8) : blockCount m = (m.length - 1) / 16 + 1 := by
  unfold blockCount
  by_cases h : (m.length + 15) / 16 = 0
  · rw [if_pos h]
    omega
  · rw [if_neg h]
    omega

theorem length_padding {m : List UInt8} (h : m.length < 16) : (padding m).length = 16 := by
  unfold padding
  rw [List.length_append, List.length_cons, List.length_replicate]
  omega

theorem getD_padding (m : List UInt8) (i : Nat) :
    (padding m).getD i 0 = if i = m.length then 0x80 else m.getD i 0 := by
  unfold padding
  by_cases hlt : i < m.length
  · have hne : i ≠ m.length := by omega
    rw [List.getD_append _ _ _ _ hlt, if_neg hne]
  · have hle : m.length ≤ i := by omega
    rw [List.getD_append_right _ _ _ _ hle, List.getD_eq_default m 0 hle]
    by_cases heq : i = m.length
    · rw [if_pos heq, heq, Nat.sub_self, List.getD_cons_zero]
    · obtain ⟨k, hk⟩ : ∃ k, i - m.length = k + 1 := ⟨i - m.length - 1, by omega⟩
      rw [if_neg heq, hk, List.getD_cons_succ, List.getD_eq_getElem?_getD,
        List.getElem?_getD_replicate_default_eq]

end PkgManager.BlockMac
