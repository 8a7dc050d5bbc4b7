import Mathlib

namespace PkgManager.FrameDecoder

/-! The frames that a client sends, read from the receive buffer. -/

/-- The payload of a frame that is whole, where it stands and how many bytes the
frame takes; it was unmasked in the buffer. -/
structure Whole where
  buf : List UInt8
  opcode : Nat
  fin : Bool
  payOff : Nat
  payLen : Nat
  used : Nat

/-- What `ws_direct_frame_decode` says: more bytes are needed, the frame is bad,
or here it is. -/
inductive Decoded where
  | more
  | bad
  | frame (w : Whole)

def beValue (bs : List UInt8) : Nat := bs.foldl (fun v b => 256 * v + b.toNat) 0

/-- The length of the payload and of the header up to it. -/
inductive PayloadLength where
  | more
  | bad
  | known (plen hdr : Nat)

def payloadLength (buf : List UInt8) : PayloadLength :=
  let n := (buf.getD 1 0 &&& 0x7F).toNat
  if n = 126 then
    if buf.length < 4 then .more else .known (beValue ((buf.drop 2).take 2)) 4
  else if n = 127 then
    if buf.length < 10 then .more
    else if buf.getD 2 0 &&& 0x80 ≠ 0 then .bad
    else .known (beValue ((buf.drop 2).take 8)) 10
  else .known n 2

/-- `pay[i] ^= mask[i % 4]`. -/
def xorMask (mask pay : List UInt8) : List UInt8 := pay.mapIdx fun i b => b ^^^ mask.getD (i % 4) 0

/-- The payload behind its mask is unmasked where it stands. -/
def unmask (buf : List UInt8) (hdr plen : Nat) : List UInt8 :=
  buf.take (hdr + 4) ++
    (xorMask ((buf.drop hdr).take 4) ((buf.drop (hdr + 4)).take plen) ++ buf.drop (hdr + 4 + plen))

/-- The rest of `ws_direct_frame_decode` once the lengths are read. -/
def decodeRest (buf : List UInt8) (opcode : Nat) (fin : Bool) (plen hdr : Nat) : Decoded :=
  let masked := buf.getD 1 0 &&& 0x80 ≠ 0
  let masklen := if masked then 4 else 0
  if 8 ≤ opcode ∧ (fin = false ∨ 125 < plen) then .bad
  else if 2 ^ 64 - 1 - hdr - masklen < plen then .bad
  else if buf.length < hdr + masklen + plen then .more
  else
    .frame
      { buf := if masked then unmask buf hdr plen else buf
        opcode := opcode
        fin := fin
        payOff := hdr + masklen
        payLen := plen
        used := hdr + masklen + plen }

/-- `ws_direct_frame_decode`. -/
def frameDecode (buf : List UInt8) : Decoded :=
  if buf.length < 2 then .more
  else if buf.getD 0 0 &&& 0x70 ≠ 0 then .bad
  else
    let opcode := (buf.getD 0 0 &&& 0x0F).toNat
    let fin := decide (buf.getD 0 0 &&& 0x80 ≠ 0)
    if 10 < opcode ∨ (2 < opcode ∧ opcode < 8) then .bad
    else
      match payloadLength buf with
      | .more => .more
      | .bad => .bad
      | .known plen hdr => decodeRest buf opcode fin plen hdr

def Whole.payload (w : Whole) : List UInt8 := (w.buf.drop w.payOff).take w.payLen

/-- The frame was longer in the buffer, by what stands behind it. -/
def Whole.extend (w : Whole) (rest : List UInt8) : Whole := { w with buf := w.buf ++ rest }

def Decoded.extend (d : Decoded) (rest : List UInt8) : Decoded :=
  match d with
  | .more => .more
  | .bad => .bad
  | .frame w => .frame (w.extend rest)

theorem getD_append_of_lt {buf : List UInt8} {i : Nat} (h : i < buf.length) (rest : List UInt8) :
    (buf ++ rest).getD i 0 = buf.getD i 0 := List.getD_append buf rest 0 i h

theorem take_drop_append {buf : List UInt8} {i n : Nat} (h : i + n ≤ buf.length) (rest : List UInt8) :
    ((buf ++ rest).drop i).take n = (buf.drop i).take n := by
  rw [List.drop_append_of_le_length (by omega),
    List.take_append_of_le_length (by rw [List.length_drop]; omega)]

/-- What is known of the length stays so. -/
theorem payloadLength_append {buf : List UInt8} (h2 : 2 ≤ buf.length) (rest : List UInt8)
    (h : payloadLength buf ≠ .more) : payloadLength (buf ++ rest) = payloadLength buf := by
  unfold payloadLength at h ⊢
  simp only [getD_append_of_lt (show 1 < buf.length by omega)] at h ⊢
  by_cases h126 : (buf.getD 1 0 &&& 0x7F).toNat = 126
  · rw [if_pos h126] at h ⊢
    rw [if_pos h126]
    by_cases hlen : buf.length < 4
    · rw [if_pos hlen] at h
      exact absurd rfl h
    · rw [if_neg hlen, if_neg (by rw [List.length_append]; omega),
        take_drop_append (by omega)]
  · rw [if_neg h126] at h ⊢
    rw [if_neg h126]
    by_cases h127 : (buf.getD 1 0 &&& 0x7F).toNat = 127
    · rw [if_pos h127] at h ⊢
      rw [if_pos h127]
      by_cases hlen : buf.length < 10
      · rw [if_pos hlen] at h
        exact absurd rfl h
      · rw [if_neg hlen, if_neg (by rw [List.length_append]; omega),
          getD_append_of_lt (by omega), take_drop_append (by omega)]
    · rw [if_neg h127, if_neg h127]

theorem payloadLength_hdr {buf : List UInt8} {plen hdr : Nat}
    (h : payloadLength buf = .known plen hdr) : 2 ≤ hdr := by
  unfold payloadLength at h
  dsimp only at h
  split_ifs at h
  · cases h
    decide
  · cases h
    decide
  · cases h
    decide

theorem unmask_append {buf : List UInt8} {hdr plen : Nat} (h : hdr + 4 + plen ≤ buf.length)
    (rest : List UInt8) : unmask (buf ++ rest) hdr plen = unmask buf hdr plen ++ rest := by
  unfold unmask
  rw [List.take_append_of_le_length (by omega), take_drop_append (by omega),
    take_drop_append (by omega), List.drop_append_of_le_length (by omega)]
  simp only [List.append_assoc]

theorem decodeRest_append {buf : List UInt8} (h2 : 2 ≤ buf.length) (opcode : Nat) (fin : Bool)
    (plen hdr : Nat) (rest : List UInt8) (h : decodeRest buf opcode fin plen hdr ≠ .more) :
    decodeRest (buf ++ rest) opcode fin plen hdr =
      (decodeRest buf opcode fin plen hdr).extend rest := by
  unfold decodeRest at h ⊢
  simp only [getD_append_of_lt (show 1 < buf.length by omega)] at h ⊢
  by_cases hcontrol : 8 ≤ opcode ∧ (fin = false ∨ 125 < plen)
  · rw [if_pos hcontrol, if_pos hcontrol]
    rfl
  · rw [if_neg hcontrol] at h ⊢
    rw [if_neg hcontrol]
    by_cases hmax : 2 ^ 64 - 1 - hdr - (if buf.getD 1 0 &&& 0x80 ≠ 0 then 4 else 0) < plen
    · rw [if_pos hmax, if_pos hmax]
      rfl
    · rw [if_neg hmax] at h ⊢
      rw [if_neg hmax]
      by_cases hlen : buf.length < hdr + (if buf.getD 1 0 &&& 0x80 ≠ 0 then 4 else 0) + plen
      · rw [if_pos hlen] at h
        exact absurd rfl h
      · rw [if_neg hlen, if_neg (by rw [List.length_append]; omega)]
        by_cases hmasked : buf.getD 1 0 &&& 0x80 ≠ 0
        · rw [if_pos hmasked] at hlen
          simp only [if_pos hmasked, Decoded.extend, Whole.extend,
            unmask_append (show hdr + 4 + plen ≤ buf.length by omega)]
        · simp only [if_neg hmasked, Decoded.extend, Whole.extend]

/-- What the decoder says of a buffer it says when more stands behind it. -/
theorem frameDecode_append {buf : List UInt8} (rest : List UInt8) (h : frameDecode buf ≠ .more) :
    frameDecode (buf ++ rest) = (frameDecode buf).extend rest := by
  unfold frameDecode at h ⊢
  by_cases h2 : buf.length < 2
  · rw [if_pos h2] at h
    exact absurd rfl h
  · rw [if_neg h2] at h ⊢
    rw [if_neg (by rw [List.length_append]; omega)]
    simp only [getD_append_of_lt (show 0 < buf.length by omega)]
    by_cases hrsv : buf.getD 0 0 &&& 0x70 ≠ 0
    · rw [if_pos hrsv, if_pos hrsv]
      rfl
    · rw [if_neg hrsv] at h ⊢
      rw [if_neg hrsv]
      dsimp only at h ⊢
      by_cases hop : 10 < (buf.getD 0 0 &&& 0x0F).toNat ∨
          (2 < (buf.getD 0 0 &&& 0x0F).toNat ∧ (buf.getD 0 0 &&& 0x0F).toNat < 8)
      · rw [if_pos hop, if_pos hop]
        rfl
      · rw [if_neg hop] at h ⊢
        rw [if_neg hop]
        have hmore : payloadLength buf ≠ .more := by
          intro hmore
          rw [hmore] at h
          exact h rfl
        rw [payloadLength_append (by omega) rest hmore]
        cases hplen : payloadLength buf with
        | more => exact absurd hplen hmore
        | bad => rfl
        | known plen hdr =>
          rw [hplen] at h
          exact decodeRest_append (by omega) _ _ plen hdr rest h

/-- A frame takes two bytes at least and stands within the buffer. -/
structure Whole.Fits (w : Whole) (buf : List UInt8) : Prop where
  two : 2 ≤ w.used
  used : w.used ≤ buf.length
  payload : w.payOff + w.payLen = w.used
  length : w.buf.length = buf.length
  rest : w.buf.drop w.used = buf.drop w.used

theorem length_unmask {buf : List UInt8} {hdr plen : Nat} (h : hdr + 4 + plen ≤ buf.length) :
    (unmask buf hdr plen).length = buf.length ∧
      (unmask buf hdr plen).drop (hdr + 4 + plen) = buf.drop (hdr + 4 + plen) := by
  have hhead : (buf.take (hdr + 4)).length = hdr + 4 := List.length_take_of_le (by omega)
  have hpay : (xorMask ((buf.drop hdr).take 4) ((buf.drop (hdr + 4)).take plen)).length = plen := by
    unfold xorMask
    rw [List.length_mapIdx, List.length_take, List.length_drop]
    omega
  unfold unmask
  constructor
  · rw [List.length_append, List.length_append, hhead, hpay, List.length_drop]
    omega
  · rw [← List.drop_drop, List.drop_left' hhead, List.drop_left' hpay]

theorem decodeRest_fits {buf : List UInt8} {opcode : Nat} {fin : Bool} {plen hdr : Nat} {w : Whole}
    (hhdr : 2 ≤ hdr) (h : decodeRest buf opcode fin plen hdr = .frame w) : w.Fits buf := by
  unfold decodeRest at h
  dsimp only at h
  by_cases hcontrol : 8 ≤ opcode ∧ (fin = false ∨ 125 < plen)
  · rw [if_pos hcontrol] at h
    cases h
  · rw [if_neg hcontrol] at h
    by_cases hmax : 2 ^ 64 - 1 - hdr - (if buf.getD 1 0 &&& 0x80 ≠ 0 then 4 else 0) < plen
    · rw [if_pos hmax] at h
      cases h
    · rw [if_neg hmax] at h
      by_cases hlen : buf.length < hdr + (if buf.getD 1 0 &&& 0x80 ≠ 0 then 4 else 0) + plen
      · rw [if_pos hlen] at h
        cases h
      · rw [if_neg hlen] at h
        obtain rfl := Decoded.frame.inj h
        by_cases hmasked : buf.getD 1 0 &&& 0x80 ≠ 0
        · simp only [if_pos hmasked] at hlen ⊢
          obtain ⟨hlength, hrest⟩ := length_unmask (show hdr + 4 + plen ≤ buf.length by omega)
          exact ⟨by dsimp only; omega, by dsimp only; omega, rfl, hlength, hrest⟩
        · simp only [if_neg hmasked] at hlen ⊢
          exact ⟨by dsimp only; omega, by dsimp only; omega, rfl, rfl, rfl⟩

theorem frameDecode_fits {buf : List UInt8} {w : Whole} (h : frameDecode buf = .frame w) :
    w.Fits buf := by
  unfold frameDecode at h
  by_cases h2 : buf.length < 2
  · rw [if_pos h2] at h
    cases h
  · rw [if_neg h2] at h
    by_cases hrsv : buf.getD 0 0 &&& 0x70 ≠ 0
    · rw [if_pos hrsv] at h
      cases h
    · rw [if_neg hrsv] at h
      dsimp only at h
      by_cases hop : 10 < (buf.getD 0 0 &&& 0x0F).toNat ∨
          (2 < (buf.getD 0 0 &&& 0x0F).toNat ∧ (buf.getD 0 0 &&& 0x0F).toNat < 8)
      · rw [if_pos hop] at h
        cases h
      · rw [if_neg hop] at h
        cases hplen : payloadLength buf with
        | more =>
          rw [hplen] at h
          cases h
        | bad =>
          rw [hplen] at h
          cases h
        | known plen hdr =>
          rw [hplen] at h
          exact decodeRest_fits (payloadLength_hdr hplen) h

theorem Whole.payload_extend {w : Whole} {buf : List UInt8} (h : w.Fits buf) (rest : List UInt8) :
    (w.extend rest).payload = w.payload := by
  have hpayload := h.payload
  have hused := h.used
  have hlength := h.length
  show ((w.buf ++ rest).drop w.payOff).take w.payLen = _
  exact take_drop_append (by omega) rest

end PkgManager.FrameDecoder
