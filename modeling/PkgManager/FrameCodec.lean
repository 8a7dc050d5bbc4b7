import PkgManager.FrameDecoder

namespace PkgManager.FrameCodec

open FrameDecoder

/-! The frames that the server and the client send. -/

/-- The bytes of the loop over `plen >> (i * 8)`, from `i = n - 1` down to 0. -/
def beBytes : Nat → Nat → List UInt8
  | 0, _ => []
  | n + 1, v => UInt8.ofNat (v >>> (n * 8)) :: beBytes n v

/-- The size of the extended length. -/
def lengthSize (plen : Nat) : Nat := if 126 ≤ plen then (if 65535 < plen then 8 else 2) else 0

/-- The second byte, which carries the mask bit, and the extended length. -/
def lengthBytes (bit : UInt8) (plen : Nat) : List UInt8 :=
  if plen < 126 then [bit ||| UInt8.ofNat plen]
  else if plen ≤ 65535 then [bit ||| 126, UInt8.ofNat (plen >>> 8), UInt8.ofNat plen]
  else (bit ||| 127) :: beBytes 8 plen

/-- `ws_direct_frame_encode_server`: the frame in `out`, of which it returns the
length, or none for -1. -/
def frameEncodeServer (opcode : UInt8) (payload : List UInt8) (outMax : Nat) : Option (List UInt8) :=
  if outMax < 2 + payload.length + lengthSize payload.length then none
  else some ((0x80 ||| (opcode &&& 0x0F)) :: (lengthBytes 0 payload.length ++ payload))

/-- `ws_direct_frame_encode_client` with the four bytes `rand` gave it. -/
def frameEncodeClient (opcode : UInt8) (payload : List UInt8) (m₀ m₁ m₂ m₃ : UInt8) (outMax : Nat) :
    Option (List UInt8) :=
  if outMax < 2 + payload.length + lengthSize payload.length + 4 then none
  else some ((0x80 ||| (opcode &&& 0x0F)) :: (lengthBytes 0x80 payload.length ++
    ([m₀, m₁, m₂, m₃] ++ xorMask [m₀, m₁, m₂, m₃] payload)))

/-- The out parameters of the decoder. -/
structure FrameOut where
  opcode : Nat
  fin : Bool
  payOff : Nat
  payLen : Nat

/-- A call of the decoder: its result, the buffer after it, and what it wrote to the
out parameters, if anything. -/
structure DecodeCall where
  result : Int
  buf : List UInt8
  out : Option FrameOut

/-- `ws_direct_frame_decode` with its result as an `int`. -/
def wsDirectFrameDecode (buf : List UInt8) : DecodeCall :=
  match frameDecode buf with
  | .more => ⟨0, buf, none⟩
  | .bad => ⟨-1, buf, none⟩
  | .frame w => ⟨(w.used : Int).bmod (2 ^ 32), w.buf, some ⟨w.opcode, w.fin, w.payOff, w.payLen⟩⟩

/-! Lengths. -/

theorem length_beBytes (n v : Nat) : (beBytes n v).length = n := by
  induction n with
  | zero => rfl
  | succ n ih => rw [beBytes, List.length_cons, ih]

theorem foldl_beBytes (n v a : Nat) :
    (beBytes n v).foldl (fun v b => 256 * v + b.toNat) a = a * 256 ^ n + v % 256 ^ n := by
  induction n generalizing a with
  | zero => simp [beBytes, Nat.mod_one]
  | succ n ih =>
    have hshift : v >>> (n * 8) = v / 256 ^ n := by
      rw [Nat.shiftRight_eq_div_pow, Nat.mul_comm, Nat.pow_mul]
    rw [beBytes, List.foldl_cons, ih, hshift, Nat.mod_pow_succ, UInt8.toNat_ofNat']
    generalize v % 256 ^ n = low
    rw [Nat.pow_succ]
    ring

theorem beValue_beBytes {n v : Nat} (h : v < 256 ^ n) : beValue (beBytes n v) = v := by
  unfold beValue
  rw [foldl_beBytes, Nat.zero_mul, Nat.zero_add, Nat.mod_eq_of_lt h]

theorem length_short (bit : UInt8) {plen : Nat} (h : plen < 126) :
    lengthBytes bit plen = [bit ||| UInt8.ofNat plen] ∧ lengthSize plen = 0 :=
  ⟨if_pos h, if_neg (by omega)⟩

theorem length_two (bit : UInt8) {plen : Nat} (h : 126 ≤ plen) (h' : plen ≤ 65535) :
    lengthBytes bit plen = [bit ||| 126, UInt8.ofNat (plen >>> 8), UInt8.ofNat plen] ∧
      lengthSize plen = 2 := by
  unfold lengthBytes lengthSize
  rw [if_neg (show ¬plen < 126 by omega), if_pos h', if_pos h, if_neg (show ¬65535 < plen by omega)]
  exact ⟨rfl, rfl⟩

theorem length_eight (bit : UInt8) {plen : Nat} (h : 65535 < plen) :
    lengthBytes bit plen = (bit ||| 127) :: beBytes 8 plen ∧ lengthSize plen = 8 := by
  unfold lengthBytes lengthSize
  rw [if_neg (show ¬plen < 126 by omega), if_neg (show ¬plen ≤ 65535 by omega),
    if_pos (show 126 ≤ plen by omega), if_pos h]
  exact ⟨rfl, rfl⟩

theorem length_lengthBytes (bit : UInt8) (plen : Nat) :
    (lengthBytes bit plen).length = 1 + lengthSize plen := by
  by_cases h1 : plen < 126
  · obtain ⟨hbytes, hsize⟩ := length_short bit h1
    rw [hbytes, hsize]
    rfl
  · by_cases h2 : plen ≤ 65535
    · obtain ⟨hbytes, hsize⟩ := length_two bit (by omega) h2
      rw [hbytes, hsize]
      rfl
    · obtain ⟨hbytes, hsize⟩ := length_eight bit (Nat.not_le.mp h2)
      rw [hbytes, hsize]
      rfl

/-- The second byte keeps the mask bit and the short length apart. -/
theorem second_byte {bit : UInt8} (hbit : bit = 0 ∨ bit = 0x80) {n : Nat} (hn : n < 128) :
    ((bit ||| UInt8.ofNat n) &&& 0x7F).toNat = n ∧ (bit ||| UInt8.ofNat n) &&& 0x80 = bit := by
  have hall : ∀ n < 128, (((0 : UInt8) ||| UInt8.ofNat n) &&& 0x7F).toNat = n ∧
      ((0 : UInt8) ||| UInt8.ofNat n) &&& 0x80 = 0 ∧
      (((0x80 : UInt8) ||| UInt8.ofNat n) &&& 0x7F).toNat = n ∧
      ((0x80 : UInt8) ||| UInt8.ofNat n) &&& 0x80 = 0x80 := by
    decide
  obtain ⟨h1, h2, h3, h4⟩ := hall n hn
  rcases hbit with rfl | rfl
  · exact ⟨h1, h2⟩
  · exact ⟨h3, h4⟩

/-- The mask bit as the decoder reads it. -/
theorem lengthBytes_bit {bit : UInt8} (hbit : bit = 0 ∨ bit = 0x80) (plen : Nat) (b₀ : UInt8)
    (tail : List UInt8) : (b₀ :: (lengthBytes bit plen ++ tail)).getD 1 0 &&& 0x80 = bit := by
  unfold lengthBytes
  split_ifs with h1 h2
  · exact (second_byte hbit (show plen < 128 by omega)).2
  · exact (second_byte hbit (show 126 < 128 by omega)).2
  · exact (second_byte hbit (show 127 < 128 by omega)).2

/-- Two bytes of a length that fits them. -/
theorem beValue_two {plen : Nat} (h : plen ≤ 65535) :
    beValue [UInt8.ofNat (plen >>> 8), UInt8.ofNat plen] = plen := by
  have hbytes : [UInt8.ofNat (plen >>> 8), UInt8.ofNat plen] = beBytes 2 plen := rfl
  rw [hbytes]
  exact beValue_beBytes (by omega)

theorem take_beBytes (n v : Nat) (tail : List UInt8) : (beBytes n v ++ tail).take n = beBytes n v :=
  List.take_left' (length_beBytes n v)

/-- The first of the eight bytes has its high bit clear. -/
theorem high_byte {plen : Nat} (h : plen < 2 ^ 63) : UInt8.ofNat (plen >>> 56) &&& 0x80 = 0 := by
  have hlt : plen >>> 56 < 128 := by
    rw [Nat.shiftRight_eq_div_pow]
    omega
  have hbyte := (second_byte (.inl rfl) hlt).2
  rwa [UInt8.zero_or] at hbyte

theorem payloadLength_lengthBytes {bit : UInt8} (hbit : bit = 0 ∨ bit = 0x80) {plen : Nat}
    (hlt : plen < 2 ^ 63) (b₀ : UInt8) (tail : List UInt8) :
    payloadLength (b₀ :: (lengthBytes bit plen ++ tail)) = .known plen (2 + lengthSize plen) := by
  unfold payloadLength
  by_cases h1 : plen < 126
  · obtain ⟨hbytes, hsize⟩ := length_short bit h1
    have hread : ((bit ||| UInt8.ofNat plen) &&& 0x7F).toNat = plen := (second_byte hbit (by omega)).1
    rw [hbytes, hsize]
    simp only [List.cons_append, List.getD_cons_succ, List.getD_cons_zero, hread]
    rw [if_neg (by omega), if_neg (by omega)]
  · by_cases h2 : plen ≤ 65535
    · obtain ⟨hbytes, hsize⟩ := length_two bit (by omega) h2
      have hread : ((bit ||| 126) &&& 0x7F).toNat = 126 := (second_byte hbit (by decide : 126 < 128)).1
      rw [hbytes, hsize]
      simp only [List.cons_append, List.nil_append, List.getD_cons_succ, List.getD_cons_zero, hread,
        if_true, List.drop_succ_cons, List.drop_zero, List.take_succ_cons, List.take_zero,
        beValue_two h2, List.length_cons]
      rw [if_neg (by omega)]
    · obtain ⟨hbytes, hsize⟩ := length_eight bit (Nat.not_le.mp h2)
      have hread : ((bit ||| 127) &&& 0x7F).toNat = 127 := (second_byte hbit (by decide : 127 < 128)).1
      have hfirst : (beBytes 8 plen ++ tail).getD 0 0 &&& 0x80 = 0 := high_byte hlt
      rw [hbytes, hsize]
      simp only [List.cons_append, List.getD_cons_succ, List.getD_cons_zero, hread, hfirst,
        List.drop_succ_cons, List.drop_zero, take_beBytes, List.length_cons, List.length_append,
        length_beBytes]
      rw [if_neg (by decide), if_pos trivial, if_neg (by omega), if_neg (by simp),
        beValue_beBytes (by omega)]

/-! Whole frames. -/

/-- The opcodes the decoder takes. -/
def validOpcodes : List UInt8 := [0, 1, 2, 8, 9, 10]

theorem first_byte {opcode : UInt8} (h : opcode ∈ validOpcodes) :
    (0x80 ||| (opcode &&& 0x0F)) &&& 0x70 = 0 ∧
      ((0x80 ||| (opcode &&& 0x0F)) &&& 0x0F).toNat = opcode.toNat ∧
      (0x80 ||| (opcode &&& 0x0F)) &&& 0x80 ≠ 0 ∧
      ¬(10 < opcode.toNat ∨ (2 < opcode.toNat ∧ opcode.toNat < 8)) := by
  revert opcode
  decide +kernel

/-- What the decoder makes of the bytes of one frame. -/
theorem frameDecode_frame {opcode : UInt8} (hop : opcode ∈ validOpcodes) {bit : UInt8}
    (hbit : bit = 0 ∨ bit = 0x80) {plen : Nat} (hcontrol : 8 ≤ opcode.toNat → plen ≤ 125)
    (hlt : plen < 2 ^ 31) {tail frame : List UInt8}
    (htail : tail.length = (if bit ≠ 0 then 4 else 0) + plen)
    (hframe : frame = (0x80 ||| (opcode &&& 0x0F)) :: (lengthBytes bit plen ++ tail)) :
    frameDecode frame = .frame
      { buf := if bit ≠ 0 then unmask frame (2 + lengthSize plen) plen else frame
        opcode := opcode.toNat
        fin := true
        payOff := 2 + lengthSize plen + if bit ≠ 0 then 4 else 0
        payLen := plen
        used := frame.length } := by
  obtain ⟨hrsv, hopcode, hfin, hknown⟩ := first_byte hop
  have hplen := payloadLength_lengthBytes hbit (show plen < 2 ^ 63 by omega)
    (0x80 ||| (opcode &&& 0x0F)) tail
  have hsecond := lengthBytes_bit hbit plen (0x80 ||| (opcode &&& 0x0F)) tail
  have hsize : lengthSize plen ≤ 8 := by
    unfold lengthSize
    split_ifs <;> decide
  have hmask : (if bit ≠ 0 then 4 else 0) ≤ 4 := by split_ifs <;> decide
  rw [← hframe] at hplen hsecond
  have hlength : frame.length = 2 + lengthSize plen + (if bit ≠ 0 then 4 else 0) + plen := by
    rw [hframe, List.length_cons, List.length_append, length_lengthBytes, htail]
    omega
  have hhead : frame.getD 0 0 = 0x80 ||| (opcode &&& 0x0F) := by rw [hframe, List.getD_cons_zero]
  have hfin' : decide ((0x80 ||| (opcode &&& 0x0F)) &&& 0x80 ≠ 0) = true := decide_eq_true hfin
  unfold frameDecode
  rw [if_neg (by omega), hhead, if_neg (by simp [hrsv]), hopcode, hplen, hfin']
  simp only [if_neg hknown, decodeRest, hsecond]
  have hsound : ¬(8 ≤ opcode.toNat ∧ (true = false ∨ 125 < plen)) := by
    rintro ⟨h8, h | h⟩
    · cases h
    · exact Nat.not_lt.mpr (hcontrol h8) h
  rw [if_neg hsound]
  generalize (if bit ≠ 0 then 4 else 0) = masklen at *
  rw [if_neg (by omega), if_neg (by omega), ← hlength]

theorem xorMask_xorMask (mask pay : List UInt8) : xorMask mask (xorMask mask pay) = pay := by
  unfold xorMask
  refine List.ext_getElem (by simp) fun i h₁ h₂ => ?_
  rw [List.getElem_mapIdx, List.getElem_mapIdx, UInt8.xor_assoc, UInt8.xor_self, UInt8.xor_zero]

theorem length_xorMask (mask pay : List UInt8) : (xorMask mask pay).length = pay.length :=
  List.length_mapIdx

theorem unmask_masked (head payload : List UInt8) (m₀ m₁ m₂ m₃ : UInt8) :
    unmask (head ++ ([m₀, m₁, m₂, m₃] ++ xorMask [m₀, m₁, m₂, m₃] payload)) head.length
      payload.length = head ++ ([m₀, m₁, m₂, m₃] ++ payload) := by
  have hmask : (head ++ [m₀, m₁, m₂, m₃]).length = head.length + 4 := by
    rw [List.length_append]
    rfl
  have hfour : ([m₀, m₁, m₂, m₃] ++ xorMask [m₀, m₁, m₂, m₃] payload).take 4 = [m₀, m₁, m₂, m₃] :=
    List.take_left' rfl
  have hassoc : head ++ ([m₀, m₁, m₂, m₃] ++ xorMask [m₀, m₁, m₂, m₃] payload) =
      head ++ [m₀, m₁, m₂, m₃] ++ xorMask [m₀, m₁, m₂, m₃] payload := by rw [List.append_assoc]
  have hall : (xorMask [m₀, m₁, m₂, m₃] payload).take payload.length = xorMask [m₀, m₁, m₂, m₃] payload :=
    List.take_of_length_le (Nat.le_of_eq (length_xorMask _ _))
  unfold unmask
  rw [List.drop_left, hfour, hassoc, List.take_left' hmask, List.drop_left' hmask, hall, xorMask_xorMask,
    List.drop_of_length_le, List.append_nil, List.append_assoc]
  rw [List.length_append, hmask, length_xorMask]

/-- The bytes of a frame come from one of the encoders. -/
def Encoded (opcode : UInt8) (payload frame : List UInt8) : Prop :=
  (∃ outMax, frameEncodeServer opcode payload outMax = some frame) ∨
    ∃ m₀ m₁ m₂ m₃ outMax, frameEncodeClient opcode payload m₀ m₁ m₂ m₃ outMax = some frame

/-- The frame the decoder finds in the bytes of an encoder. -/
structure Restored (opcode : UInt8) (payload frame : List UInt8) (w : Whole) : Prop where
  opcode : w.opcode = opcode.toNat
  fin : w.fin = true
  used : w.used = frame.length
  payLen : w.payLen = payload.length
  payload : w.payload = payload

theorem encoded_length_le {opcode : UInt8} {payload frame : List UInt8}
    (h : Encoded opcode payload frame) : payload.length ≤ frame.length := by
  rcases h with ⟨outMax, h⟩ | ⟨m₀, m₁, m₂, m₃, outMax, h⟩
  · unfold frameEncodeServer at h
    split_ifs at h
    rw [← Option.some.inj h, List.length_cons, List.length_append]
    omega
  · unfold frameEncodeClient at h
    split_ifs at h
    rw [← Option.some.inj h, List.length_cons, List.length_append, List.length_append, length_xorMask]
    omega

theorem encoded_restored {opcode : UInt8} (hop : opcode ∈ validOpcodes) {payload frame : List UInt8}
    (hcontrol : 8 ≤ opcode.toNat → payload.length ≤ 125) (hlt : payload.length < 2 ^ 31)
    (h : Encoded opcode payload frame) :
    ∃ w, frameDecode frame = .frame w ∧ Restored opcode payload frame w := by
  rcases h with ⟨outMax, h⟩ | ⟨m₀, m₁, m₂, m₃, outMax, h⟩
  · unfold frameEncodeServer at h
    split_ifs at h
    have hframe := (Option.some.inj h).symm
    have htail : payload.length = (if (0 : UInt8) ≠ 0 then 4 else 0) + payload.length := by simp
    refine ⟨_, frameDecode_frame hop (.inl rfl) hcontrol hlt htail hframe, rfl, rfl, rfl, rfl, ?_⟩
    have hhead : ((0x80 ||| (opcode &&& 0x0F)) :: lengthBytes 0 payload.length).length =
        2 + lengthSize payload.length := by
      rw [List.length_cons, length_lengthBytes]
      omega
    show (frame.drop (2 + lengthSize payload.length)).take payload.length = payload
    rw [hframe, ← List.cons_append, List.drop_left' hhead, List.take_length]
  · unfold frameEncodeClient at h
    split_ifs at h
    have hframe := (Option.some.inj h).symm
    have htail : ([m₀, m₁, m₂, m₃] ++ xorMask [m₀, m₁, m₂, m₃] payload).length =
        (if (0x80 : UInt8) ≠ 0 then 4 else 0) + payload.length := by
      rw [List.length_append, length_xorMask]
      rfl
    refine ⟨_, frameDecode_frame hop (.inr rfl) hcontrol hlt htail hframe, rfl, rfl, rfl, rfl, ?_⟩
    have hhead : ((0x80 ||| (opcode &&& 0x0F)) :: lengthBytes 0x80 payload.length).length =
        2 + lengthSize payload.length := by
      rw [List.length_cons, length_lengthBytes]
      omega
    have hfour : ((0x80 ||| (opcode &&& 0x0F)) :: lengthBytes 0x80 payload.length ++
        [m₀, m₁, m₂, m₃]).length = 2 + lengthSize payload.length + 4 := by
      rw [List.length_append, hhead]
      rfl
    show ((unmask frame (2 + lengthSize payload.length) payload.length).drop
      (2 + lengthSize payload.length + 4)).take payload.length = payload
    rw [hframe, ← List.cons_append, ← hhead, unmask_masked, hhead, ← List.append_assoc,
      List.drop_left' hfour, List.take_length]

/-- No proper part of a frame is enough. -/
theorem frameDecode_take {frame : List UInt8} {w : Whole} (h : frameDecode frame = .frame w)
    (hused : w.used = frame.length) {n : Nat} (hn : n < frame.length) :
    frameDecode (frame.take n) = .more := by
  by_contra hmore
  have happend := frameDecode_append (frame.drop n) hmore
  rw [List.take_append_drop, h] at happend
  cases hd : frameDecode (frame.take n) with
  | more => exact hmore hd
  | bad =>
    rw [hd] at happend
    cases happend
  | frame w' =>
    rw [hd] at happend
    have hw : w = w'.extend (frame.drop n) := Decoded.frame.inj happend
    have hfits := (frameDecode_fits hd).used
    have hsame : w'.used = w.used := by rw [hw]; rfl
    rw [List.length_take] at hfits
    omega

theorem bmod_of_lt {n : Nat} (h : n < 2 ^ 31) : (n : Int).bmod (2 ^ 32) = n :=
  Int.bmod_eq_of_le (by omega) (by omega)

/-- What an encoder wrote the decoder gives back from in front of any further bytes,
and from no part of it; a buffer it answers with 0 or -1 it leaves alone. -/
theorem frame_codec_round_trip {opcode : UInt8} (hop : opcode ∈ validOpcodes)
    {payload frame : List UInt8} (hcontrol : 8 ≤ opcode.toNat → payload.length ≤ 125)
    (h : Encoded opcode payload frame) :
    (∀ rest : List UInt8, (frame ++ rest).length < 2 ^ 31 → ∃ payOff buf,
      wsDirectFrameDecode (frame ++ rest) =
        ⟨frame.length, buf, some ⟨opcode.toNat, true, payOff, payload.length⟩⟩ ∧
      (buf.drop payOff).take payload.length = payload ∧ buf.length = (frame ++ rest).length ∧
      buf.drop frame.length = rest) ∧
    (frame.length < 2 ^ 31 → ∀ n < frame.length,
      wsDirectFrameDecode (frame.take n) = ⟨0, frame.take n, none⟩) ∧
    (∀ buf : List UInt8, buf.length < 2 ^ 31 → (wsDirectFrameDecode buf).result ≤ 0 →
      (wsDirectFrameDecode buf).buf = buf) := by
  have hle := encoded_length_le h
  refine ⟨fun rest hlt => ?_, fun hlt n hn => ?_, fun buf hlt hresult => ?_⟩
  · rw [List.length_append] at hlt
    obtain ⟨w, hw, hr⟩ := encoded_restored hop hcontrol (by omega) h
    have happend : frameDecode (frame ++ rest) = .frame (w.extend rest) := by
      rw [frameDecode_append rest (by rw [hw]; exact nofun), hw]
      rfl
    have hfits := frameDecode_fits happend
    have hused : (w.extend rest).used = frame.length := hr.used
    refine ⟨w.payOff, w.buf ++ rest, ?_, ?_, hfits.length, ?_⟩
    · unfold wsDirectFrameDecode
      rw [happend]
      show DecodeCall.mk ((w.used : Int).bmod (2 ^ 32)) (w.buf ++ rest)
        (some ⟨w.opcode, w.fin, w.payOff, w.payLen⟩) = _
      rw [hr.used, bmod_of_lt (by omega), hr.opcode, hr.fin, hr.payLen]
    · have hpayload := Whole.payload_extend (frameDecode_fits hw) rest
      rw [hr.payload] at hpayload
      rw [← hr.payLen]
      exact hpayload
    · have hrest := hfits.rest
      rw [hused, List.drop_left] at hrest
      exact hrest
  · obtain ⟨w, hw, hr⟩ := encoded_restored hop hcontrol (by omega) h
    unfold wsDirectFrameDecode
    rw [frameDecode_take hw hr.used hn]
  · unfold wsDirectFrameDecode at hresult ⊢
    cases hd : frameDecode buf with
    | more => rfl
    | bad => rfl
    | frame w =>
      rw [hd] at hresult
      have hfits := frameDecode_fits hd
      have htwo := hfits.two
      have hused := hfits.used
      simp only [bmod_of_lt (show w.used < 2 ^ 31 by omega)] at hresult
      omega

/-- A masked text frame in front of the first byte of the next one. -/
theorem frame_codec_round_trip_text :
    ∃ frame, frameEncodeClient 1 [72, 105] 1 2 3 4 16 = some frame ∧
      (∃ payOff buf, wsDirectFrameDecode (frame ++ [0x81]) =
        ⟨frame.length, buf, some ⟨1, true, payOff, 2⟩⟩ ∧ (buf.drop payOff).take 2 = [72, 105]) ∧
      wsDirectFrameDecode (frame.take 7) = ⟨0, frame.take 7, none⟩ := by
  have hframe : frameEncodeClient 1 [72, 105] 1 2 3 4 16 = some [0x81, 0x82, 1, 2, 3, 4, 73, 107] := by
    decide
  obtain ⟨hwhole, hpart, _⟩ := frame_codec_round_trip (show (1 : UInt8) ∈ validOpcodes by decide)
    (fun h => absurd h (by decide)) (.inr ⟨1, 2, 3, 4, 16, hframe⟩)
  obtain ⟨payOff, buf, hdecode, hpayload, _, _⟩ := hwhole [0x81] (by decide)
  exact ⟨_, hframe, ⟨payOff, buf, hdecode, hpayload⟩, hpart (by decide) 7 (by decide)⟩

end PkgManager.FrameCodec
