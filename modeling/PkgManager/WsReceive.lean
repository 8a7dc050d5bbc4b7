import PkgManager.FrameDecoder
import PkgManager.FrameReassembly
import PkgManager.WsHandshake

namespace PkgManager.WsReceive

open CText StreamResponse StreamConnection FrameDecoder FrameReassembly WsHandshake

variable {σ : Type}

/-- The size of the receive buffer. -/
def rcap : Nat := binMsgMax + 1024

/-- Why the frame loop is left. -/
inductive End where
  | decodeFailed
  | tooLong
  | gaveUp
  | peerClosed

/-- The receive buffer and the locals of the frame loop; the frames decoded so
far and the bytes of those that are done with. -/
structure Receiver (σ : Type) where
  rbuf : Text
  conn : Conn σ
  frames : List Frame
  consumed : Nat

/-- The frame in the buffer. `alloc` says for each frame whether memory is to be had. -/
def frameOf (alloc : Nat → Bool) (frames : List Frame) (w : Whole) : Frame :=
  ⟨w.opcode, w.fin, w.payload, alloc frames.length⟩

/-- The drain loop. -/
def drain (H : Handlers σ) (alloc : Nat → Bool) : Nat → Receiver σ → Receiver σ × Option End
  | 0, r => (r, none)
  | n + 1, r =>
    if r.rbuf = [] then (r, none)
    else
      match frameDecode r.rbuf with
      | .more => (r, if rcap ≤ r.rbuf.length then some .tooLong else none)
      | .bad => (r, some .decodeFailed)
      | .frame w =>
        let f := frameOf alloc r.frames w
        let c := frame H r.conn f
        if c.2 then
          ({ r with rbuf := w.buf, conn := c.1, frames := r.frames ++ [f] }, some .gaveUp)
        else
          drain H alloc n
            { rbuf := w.buf.drop w.used
              conn := c.1
              frames := r.frames ++ [f]
              consumed := r.consumed + w.used }

/-- What came of a connection. -/
structure Outcome (σ : Type) where
  conn : Conn σ
  frames : List Frame
  consumed : Nat
  why : End

def Receiver.outcome (r : Receiver σ) (why : End) : Outcome σ := ⟨r.conn, r.frames, r.consumed, why⟩

/-- The frame loop: drain what is buffered, then receive. -/
def receive (H : Handlers σ) (alloc : Nat → Bool) (cut : Nat → Nat) :
    Nat → Nat → Text → Receiver σ → Outcome σ
  | 0, _, _, r => r.outcome .peerClosed
  | n + 1, k, input, r =>
    match drain H alloc r.rbuf.length r with
    | (r, some why) => r.outcome why
    | (r, none) =>
      if rcap ≤ r.rbuf.length then r.outcome .tooLong
      else
        let got := recvBytes (cut k) (rcap - r.rbuf.length) input
        if got = [] then r.outcome .peerClosed
        else receive H alloc cut n (k + 1) (input.drop got.length) { r with rbuf := r.rbuf ++ got }

/-- `ws_conn_worker` on the bytes of a client, which `recv` splits as `cut` says:
the key of the answer to the handshake and what came of the frames. -/
def wsConnWorker (digest : Text → Text) (H : Handlers σ) (alloc : Nat → Bool) (s : σ)
    (cut : Nat → Nat) (input : Text) : Option (Text × Outcome σ) :=
  let shaken := readHandshake cut hsMax ⟨[], input, 0⟩
  match handshake digest shaken.hs, headerEnd shaken.hs with
  | some accept, some hend =>
    let keep := shaken.hs.drop (hend + 4)
    let rbuf := if rcap < keep.length then [] else keep
    some (accept, receive H alloc cut (shaken.input.length + 1) shaken.recvs shaken.input
      ⟨rbuf, .init s, [], 0⟩)
  | _, _ => none

/-! The same without `recv`: the frames of a text, one by one. -/

/-- What comes of the text, when the frames so far brought the connection there. -/
inductive Receives (H : Handlers σ) (alloc : Nat → Bool) :
    Conn σ → List Frame → Nat → Text → Outcome σ → Prop
  | peerClosed {c : Conn σ} {fs : List Frame} {n : Nat} {rest : Text} :
      rest.length < rcap → frameDecode (rest.take rcap) = .more →
      Receives H alloc c fs n rest ⟨c, fs, n, .peerClosed⟩
  | tooLong {c : Conn σ} {fs : List Frame} {n : Nat} {rest : Text} :
      rcap ≤ rest.length → frameDecode (rest.take rcap) = .more →
      Receives H alloc c fs n rest ⟨c, fs, n, .tooLong⟩
  | decodeFailed {c : Conn σ} {fs : List Frame} {n : Nat} {rest : Text} :
      frameDecode (rest.take rcap) = .bad → Receives H alloc c fs n rest ⟨c, fs, n, .decodeFailed⟩
  | gaveUp {c : Conn σ} {fs : List Frame} {n : Nat} {rest : Text} {w : Whole} :
      frameDecode (rest.take rcap) = .frame w → (frame H c (frameOf alloc fs w)).2 = true →
      Receives H alloc c fs n rest
        ⟨(frame H c (frameOf alloc fs w)).1, fs ++ [frameOf alloc fs w], n, .gaveUp⟩
  | frame {c : Conn σ} {fs : List Frame} {n : Nat} {rest : Text} {w : Whole} {out : Outcome σ} :
      frameDecode (rest.take rcap) = .frame w → (frame H c (frameOf alloc fs w)).2 = false →
      Receives H alloc (frame H c (frameOf alloc fs w)).1 (fs ++ [frameOf alloc fs w]) (n + w.used)
        (rest.drop w.used) out →
      Receives H alloc c fs n rest out

variable {H : Handlers σ} {alloc : Nat → Bool}

theorem Receives.unique {c : Conn σ} {fs : List Frame} {n : Nat} {rest : Text} {out out' : Outcome σ}
    (h : Receives H alloc c fs n rest out) (h' : Receives H alloc c fs n rest out') : out = out' := by
  induction h with
  | peerClosed hlen hd =>
    cases h' with
    | peerClosed => rfl
    | tooLong hlen' => exact absurd hlen (Nat.not_lt.mpr hlen')
    | decodeFailed hd' => rw [hd] at hd'; cases hd'
    | gaveUp hd' => rw [hd] at hd'; cases hd'
    | frame hd' => rw [hd] at hd'; cases hd'
  | tooLong hlen hd =>
    cases h' with
    | peerClosed hlen' => exact absurd hlen' (Nat.not_lt.mpr hlen)
    | tooLong => rfl
    | decodeFailed hd' => rw [hd] at hd'; cases hd'
    | gaveUp hd' => rw [hd] at hd'; cases hd'
    | frame hd' => rw [hd] at hd'; cases hd'
  | decodeFailed hd =>
    cases h' with
    | peerClosed _ hd' => rw [hd] at hd'; cases hd'
    | tooLong _ hd' => rw [hd] at hd'; cases hd'
    | decodeFailed => rfl
    | gaveUp hd' => rw [hd] at hd'; cases hd'
    | frame hd' => rw [hd] at hd'; cases hd'
  | gaveUp hd hf =>
    cases h' with
    | peerClosed _ hd' => rw [hd] at hd'; cases hd'
    | tooLong _ hd' => rw [hd] at hd'; cases hd'
    | decodeFailed hd' => rw [hd] at hd'; cases hd'
    | gaveUp hd' =>
      rw [hd] at hd'
      obtain rfl := Decoded.frame.inj hd'
      rfl
    | frame hd' hf' =>
      rw [hd] at hd'
      obtain rfl := Decoded.frame.inj hd'
      exact absurd hf (by rw [hf']; exact Bool.false_ne_true)
  | frame hd hf _ ih =>
    cases h' with
    | peerClosed _ hd' => rw [hd] at hd'; cases hd'
    | tooLong _ hd' => rw [hd] at hd'; cases hd'
    | decodeFailed hd' => rw [hd] at hd'; cases hd'
    | gaveUp hd' hf' =>
      rw [hd] at hd'
      obtain rfl := Decoded.frame.inj hd'
      exact absurd hf' (by rw [hf]; exact Bool.false_ne_true)
    | frame hd' _ hrest =>
      rw [hd] at hd'
      obtain rfl := Decoded.frame.inj hd'
      exact ih hrest

/-! The buffer holds what stands first in the text. -/

theorem take_buffer {rbuf : Text} (hlen : rbuf.length ≤ rcap) (input : Text) :
    (rbuf ++ input).take rcap = rbuf ++ input.take (rcap - rbuf.length) := by
  rw [List.take_append, List.take_of_length_le hlen]

/-- A frame in the buffer is the first frame of the text. -/
theorem frame_buffer {rbuf : Text} (hlen : rbuf.length ≤ rcap) (input : Text) {w : Whole}
    (h : frameDecode rbuf = .frame w) :
    ∃ w', frameDecode ((rbuf ++ input).take rcap) = .frame w' ∧
      (∀ (alloc : Nat → Bool) fs, frameOf alloc fs w' = frameOf alloc fs w) ∧ w'.used = w.used ∧
      (rbuf ++ input).drop w.used = w.buf.drop w.used ++ input := by
  have hfits := frameDecode_fits h
  refine ⟨w.extend (input.take (rcap - rbuf.length)), ?_, fun _ fs => ?_, rfl, ?_⟩
  · rw [take_buffer hlen, frameDecode_append _ (by rw [h]; exact nofun), h]
    rfl
  · unfold frameOf
    rw [Whole.payload_extend hfits]
    rfl
  · rw [List.drop_append_of_le_length hfits.used, hfits.rest]

/-- What the drain loop makes of the receiver. -/
structure Drained (H : Handlers σ) (alloc : Nat → Bool) (input : Text) (r : Receiver σ)
    (out : Receiver σ × Option End) : Prop where
  ended : ∀ why, out.2 = some why →
    Receives H alloc r.conn r.frames r.consumed (r.rbuf ++ input) (out.1.outcome why)
  length : out.2 = none → out.1.rbuf.length < rcap
  more : out.2 = none → frameDecode out.1.rbuf = .more
  rest : out.2 = none → ∀ o,
    Receives H alloc out.1.conn out.1.frames out.1.consumed (out.1.rbuf ++ input) o →
      Receives H alloc r.conn r.frames r.consumed (r.rbuf ++ input) o

theorem drained_nothing {r : Receiver σ} (input : Text) (hlen : r.rbuf.length < rcap)
    (hd : frameDecode r.rbuf = .more) : Drained H alloc input r (r, none) :=
  ⟨nofun, fun _ => hlen, fun _ => hd, fun _ _ ho => ho⟩

theorem drained_ended {r r' : Receiver σ} {input : Text} {why : End}
    (h : Receives H alloc r.conn r.frames r.consumed (r.rbuf ++ input) (r'.outcome why)) :
    Drained H alloc input r (r', some why) :=
  ⟨fun _ hwhy => Option.some.inj hwhy ▸ h, nofun, nofun, nofun⟩

theorem drain_drained (n : Nat) (r : Receiver σ) (input : Text) (hn : r.rbuf.length ≤ n)
    (hlen : r.rbuf.length ≤ rcap) : Drained H alloc input r (drain H alloc n r) := by
  have hcap : 0 < rcap := by decide
  induction n generalizing r with
  | zero =>
    have hnil : r.rbuf = [] := List.length_eq_zero_iff.mp (Nat.le_zero.mp hn)
    exact drained_nothing input (by rw [hnil]; exact hcap) (by rw [hnil]; rfl)
  | succ n ih =>
    unfold drain
    by_cases hnil : r.rbuf = []
    · rw [if_pos hnil]
      exact drained_nothing input (by rw [hnil]; exact hcap) (by rw [hnil]; rfl)
    · rw [if_neg hnil]
      cases hd : frameDecode r.rbuf with
      | more =>
        dsimp only
        by_cases hfull : rcap ≤ r.rbuf.length
        · rw [if_pos hfull]
          refine drained_ended (.tooLong (by rw [List.length_append]; omega) ?_)
          rw [take_buffer hlen, Nat.sub_eq_zero_of_le hfull, List.take_zero, List.append_nil, hd]
        · rw [if_neg hfull]
          exact drained_nothing input (Nat.lt_of_not_le hfull) hd
      | bad =>
        refine drained_ended (.decodeFailed ?_)
        rw [take_buffer hlen, frameDecode_append _ (by rw [hd]; exact nofun), hd]
        rfl
      | frame w =>
        obtain ⟨w', hw', hframe, hused, hrest⟩ := frame_buffer hlen input hd
        have hfits := frameDecode_fits hd
        dsimp only
        by_cases hgive : (frame H r.conn (frameOf alloc r.frames w)).2 = true
        · rw [if_pos hgive]
          have hgave := Receives.gaveUp (H := H) (n := r.consumed) hw' (by rw [hframe alloc]; exact hgive)
          rw [hframe alloc] at hgave
          exact drained_ended hgave
        · rw [if_neg hgive]
          have hlt : (w.buf.drop w.used).length < r.rbuf.length := by
            rw [List.length_drop, hfits.length]
            have htwo := hfits.two
            have hle := hfits.used
            omega
          have hmore := ih ⟨w.buf.drop w.used, (frame H r.conn (frameOf alloc r.frames w)).1,
            r.frames ++ [frameOf alloc r.frames w], r.consumed + w.used⟩
            (by dsimp only; omega) (by dsimp only; omega)
          have hstep : ∀ o, Receives H alloc (frame H r.conn (frameOf alloc r.frames w)).1
              (r.frames ++ [frameOf alloc r.frames w]) (r.consumed + w.used)
              (w.buf.drop w.used ++ input) o →
              Receives H alloc r.conn r.frames r.consumed (r.rbuf ++ input) o := by
            intro o ho
            refine .frame hw' (by rw [hframe alloc]; exact eq_false_of_ne_true hgive) ?_
            rw [hframe alloc, hused, hrest]
            exact ho
          exact ⟨fun why hwhy => hstep _ (hmore.ended why hwhy), hmore.length, hmore.more,
            fun hnone o ho => hstep o (hmore.rest hnone o ho)⟩

theorem receive_receives (cut : Nat → Nat) (n k : Nat) (input : Text) (r : Receiver σ)
    (hn : input.length < n) (hlen : r.rbuf.length ≤ rcap) :
    Receives H alloc r.conn r.frames r.consumed (r.rbuf ++ input) (receive H alloc cut n k input r) := by
  induction n generalizing k input r with
  | zero => omega
  | succ n ih =>
    unfold receive
    have hdrained : Drained H alloc input r (drain H alloc r.rbuf.length r) :=
      drain_drained _ r input (Nat.le_refl _) hlen
    cases hdrain : drain H alloc r.rbuf.length r with
    | mk r' o =>
      rw [hdrain] at hdrained
      cases o with
      | some why => exact hdrained.ended why rfl
      | none =>
        have hlt : r'.rbuf.length < rcap := hdrained.length rfl
        have hd : frameDecode r'.rbuf = .more := hdrained.more rfl
        refine hdrained.rest rfl _ ?_
        dsimp only
        rw [if_neg (Nat.not_le_of_lt hlt)]
        by_cases hgot : recvBytes (cut k) (rcap - r'.rbuf.length) input = []
        · rw [if_pos hgot, recvBytes_nil hgot, List.append_nil]
          exact .peerClosed hlt (by rw [List.take_of_length_le (Nat.le_of_lt hlt)]; exact hd)
        · rw [if_neg hgot]
          have hpre := recvBytes_prefix (cut k) (rcap - r'.rbuf.length) input
          have hroom := length_recvBytes_le (cut k)
            (show 0 < rcap - r'.rbuf.length by omega) input
          have hpos := List.length_pos_iff.mpr hgot
          generalize recvBytes (cut k) (rcap - r'.rbuf.length) input = got at hpre hroom hpos
          have hmore := ih (k + 1) (input.drop got.length) { r' with rbuf := r'.rbuf ++ got }
            (by
              have hsum := congrArg List.length hpre
              rw [List.length_append] at hsum
              omega)
            (by
              show (r'.rbuf ++ got).length ≤ rcap
              rw [List.length_append]
              omega)
          have htext : (r'.rbuf ++ got) ++ input.drop got.length = r'.rbuf ++ input := by
            rw [List.append_assoc, hpre]
          rw [← htext]
          exact hmore

/-- Where the head of a handshake ends, of which a part was read. -/
theorem headerEnd_read {S : Text} {s : Shaken} (h : ReadOf S s)
    (hend : headerEnd s.hs ≠ none ∨ s.hs = S.take hsMax) : headerEnd s.hs = headerEnd (S.take hsMax) := by
  rcases hend with hend | hend
  · obtain ⟨e, he⟩ := Option.ne_none_iff_exists'.mp hend
    have hpre : s.hs <+: S.take hsMax := by
      rw [← h.bytes, List.take_append, List.take_of_length_le h.length]
      exact List.prefix_append _ _
    obtain ⟨more, hmore⟩ := hpre
    rw [he, ← hmore]
    exact (strstr_append (List.cons_ne_nil _ _) more he).symm
  · rw [hend]

/-- What comes of all the bytes of a client: nothing unless the handshake passes,
then what the bytes behind the blank line yield. -/
inductive Connects (digest : Text → Text) (H : Handlers σ) (alloc : Nat → Bool) (s : σ) (S : Text) :
    Option (Text × Outcome σ) → Prop
  | endless : headerEnd (S.take hsMax) = none → Connects digest H alloc s S none
  | refused {e : Nat} : headerEnd (S.take hsMax) = some e →
      handshake digest (S.take e ++ (crlf ++ crlf ++ [])) = none → Connects digest H alloc s S none
  | upgraded {e : Nat} {accept : Text} {out : Outcome σ} : headerEnd (S.take hsMax) = some e →
      handshake digest (S.take e ++ (crlf ++ crlf ++ [])) = some accept →
      Receives H alloc (.init s) [] 0 (S.drop (e + 4)) out →
      Connects digest H alloc s S (some (accept, out))

theorem Connects.unique {digest : Text → Text} {s : σ} {S : Text} {o o' : Option (Text × Outcome σ)}
    (h : Connects digest H alloc s S o) (h' : Connects digest H alloc s S o') : o = o' := by
  cases h with
  | endless he =>
    cases h' with
    | endless => rfl
    | refused => rfl
    | upgraded he' => rw [he] at he'; cases he'
  | refused he hs =>
    cases h' with
    | endless => rfl
    | refused => rfl
    | upgraded he' hs' =>
      rw [he] at he'
      obtain rfl := Option.some.inj he'
      rw [hs] at hs'
      cases hs'
  | upgraded he hs hr =>
    cases h' with
    | endless he' => rw [he] at he'; cases he'
    | refused he' hs' =>
      rw [he] at he'
      obtain rfl := Option.some.inj he'
      rw [hs] at hs'
      cases hs'
    | upgraded he' hs' hr' =>
      rw [he] at he'
      obtain rfl := Option.some.inj he'
      rw [hs] at hs'
      obtain rfl := Option.some.inj hs'
      rw [hr.unique hr']

theorem wsConnWorker_connects (digest : Text → Text) (s : σ) (cut : Nat → Nat) (S : Text) :
    Connects digest H alloc s S (wsConnWorker digest H alloc s cut S) := by
  have hstart : ReadOf S ⟨[], S, 0⟩ := ⟨rfl, Nat.zero_le _⟩
  obtain ⟨hread, hfound⟩ := readHandshake_reads cut hsMax hstart (Nat.le_add_left _ _)
  have hend := headerEnd_read hread hfound
  unfold wsConnWorker
  dsimp only
  generalize readHandshake cut hsMax ⟨[], S, 0⟩ = shaken at hread hend
  rw [hend]
  cases he : headerEnd (S.take hsMax) with
  | none => cases handshake digest shaken.hs <;> exact .endless he
  | some e =>
    rw [he] at hend
    obtain ⟨⟨more, hmore⟩, h0⟩ := strstr_found hend
    have hle := strstr_le hend
    have hcrlf : (crlf ++ crlf).length = 4 := rfl
    have htake : S.take e = shaken.hs.take e := by
      rw [← hread.bytes, List.take_append_of_le_length (by omega)]
    have hhs : shaken.hs = S.take e ++ (crlf ++ crlf ++ more) := by
      rw [htake, hmore, List.take_append_drop]
    have hhead := handshake_head digest (htake ▸ h0) more
    rw [← hhs] at hhead
    rw [hhead]
    cases hshake : handshake digest (S.take e ++ (crlf ++ crlf ++ [])) with
    | none => exact .refused he hshake
    | some accept =>
      refine .upgraded he hshake ?_
      have hkeep : (shaken.hs.drop (e + 4)).length ≤ rcap := by
        rw [List.length_drop]
        have hmax := hread.length
        have hlt : hsMax ≤ rcap := by decide
        omega
      rw [if_neg (Nat.not_lt.mpr hkeep)]
      have hrest : shaken.hs.drop (e + 4) ++ shaken.input = S.drop (e + 4) := by
        rw [← hread.bytes, List.drop_append_of_le_length (by omega)]
      rw [← hrest]
      exact receive_receives cut _ _ shaken.input ⟨shaken.hs.drop (e + 4), .init s, [], 0⟩
        (Nat.lt_succ_self _) hkeep

/-- What comes of a connection does not depend on how its bytes are split: the
frames, the messages handed on, and where in the stream it ends. -/
theorem receive_independent (digest : Text → Text) (H : Handlers σ) (alloc : Nat → Bool) (s : σ)
    (cut cut' : Nat → Nat) (input : Text) :
    wsConnWorker digest H alloc s cut input = wsConnWorker digest H alloc s cut' input :=
  (wsConnWorker_connects digest s cut input).unique (wsConnWorker_connects digest s cut' input)

end PkgManager.WsReceive
