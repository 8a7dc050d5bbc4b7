import PkgManager.Fragments

namespace PkgManager.FrameReassembly

open Fragments

/-- `WS_TEXT_MAX`. -/
def textMax : Nat := 16 * 1024

/-- `WS_BIN_MSG_MAX`. -/
def binMsgMax : Nat := 8 * 1024 * 1024

inductive Kind where
  | text
  | binary
deriving DecidableEq

abbrev Msg := Message Kind UInt8

/-- A frame as `ws_direct_frame_decode` yields it. `allocOk` says whether a
`realloc` made for it succeeds. -/
structure Frame where
  opcode : Nat
  fin : Bool
  payload : List UInt8
  allocOk : Bool

/-- What the worker does with a message. `handle_text_msg` may set the pending
segment; a binary message is stored for it and answered, and the answer may
fail to go out. -/
structure Handlers (σ : Type) where
  text : σ → Int → List UInt8 → σ × Int
  binary : σ → Int → List UInt8 → σ × Bool

/-- The locals of the frame loop of `ws_conn_worker`, with the messages it has
handed on. -/
structure Conn (σ : Type) where
  fragText : List UInt8
  fragTextOn : Bool
  fragOp : Nat
  fragBin : List UInt8
  binCap : Nat
  pendingSeg : Int
  handler : σ
  delivered : List Msg

def Conn.init {σ : Type} (s : σ) : Conn σ := ⟨[], false, 0, [], 0, -1, s, []⟩

variable {σ : Type}

/-- What a reader of a C string sees of a buffer. -/
def cText (bs : List UInt8) : List UInt8 := bs.takeWhile (· ≠ 0)

/-- The text branch; the Bool says that the connection is given up. The handler
gets the buffer as a C string. -/
def textFrame (H : Handlers σ) (c : Conn σ) (f : Frame) (isStart : Bool) : Conn σ × Bool :=
  if isStart ∧ c.fragTextOn then (c, true)
  else if ¬isStart ∧ ¬c.fragTextOn then (c, true)
  else
    let c := if isStart then { c with fragText := [], fragOp := 1, fragTextOn := true } else c
    if textMax < c.fragText.length + f.payload.length then (c, true)
    else
      let c := { c with fragText := c.fragText ++ f.payload }
      if f.fin then
        let r := H.text c.handler c.pendingSeg (cText c.fragText)
        ({ c with
            handler := r.1
            pendingSeg := r.2
            delivered := c.delivered ++ [⟨.text, cText c.fragText⟩]
            fragTextOn := false
            fragText := [] }, false)
      else (c, false)

/-- The binary branch. -/
def binaryFrame (H : Handlers σ) (c : Conn σ) (f : Frame) (isStart : Bool) : Conn σ × Bool :=
  if ¬isStart ∧ ¬c.fragTextOn then (c, true)
  else
    let c := if isStart then { c with fragOp := 2, fragTextOn := true, fragBin := [] } else c
    let size := c.fragBin.length + f.payload.length
    if isStart ∧ c.pendingSeg < 0 then (c, true)
    else if binMsgMax < size then (c, true)
    else if c.binCap < size ∧ ¬f.allocOk then (c, true)
    else
      let c := { c with
        binCap := if c.binCap < size then max size 65536 else c.binCap
        fragBin := c.fragBin ++ f.payload }
      if f.fin then
        let r := H.binary c.handler c.pendingSeg c.fragBin
        let c := { c with handler := r.1, delivered := c.delivered ++ [⟨.binary, c.fragBin⟩] }
        if !r.2 then (c, true)
        else ({ c with pendingSeg := -1, fragTextOn := false, fragBin := [] }, false)
      else (c, false)

/-- One decoded frame: close, ping, pong, text, binary. -/
def frame (H : Handlers σ) (c : Conn σ) (f : Frame) : Conn σ × Bool :=
  if f.opcode = 8 then (c, true)
  else if f.opcode = 9 then (c, false)
  else if f.opcode = 10 then (c, false)
  else if f.opcode = 1 ∨ (f.opcode = 0 ∧ c.fragOp = 1) then textFrame H c f (f.opcode = 1)
  else if f.opcode = 2 ∨ (f.opcode = 0 ∧ c.fragOp = 2) then binaryFrame H c f (f.opcode = 2)
  else (c, true)

/-- The frame loop over the frames that arrive. -/
def wsConnWorker (H : Handlers σ) : Conn σ → List Frame → Conn σ × Bool
  | c, [] => (c, false)
  | c, f :: fs =>
    match frame H c f with
    | (c', true) => (c', true)
    | (c', false) => wsConnWorker H c' fs

/-! What the messages of the connection should be. -/

def roleOf (f : Frame) : Role Kind :=
  if f.opcode = 9 ∨ f.opcode = 10 then .control
  else if f.opcode = 1 then .start .text
  else if f.opcode = 2 then .start .binary
  else if f.opcode = 0 then .more
  else .other

/-- RFC 6455: data frames start a message, continuation frames go on with it. -/
def rfc : Framing Frame Kind UInt8 := ⟨roleOf, Frame.fin, Frame.payload⟩

/-- The result of the loop on a stream of frames, for frames within the limit
`L`, messages that are answered (`A`) and handed on as `see` says. A step that
`X` names is left out. -/
structure Exact (L : Read Kind UInt8 → Frame → Prop) (A : List Msg → Prop)
    (X : Read Kind UInt8 → Frame → Prop) (see : Msg → Msg) (frames : List Frame)
    (out : Conn σ × Bool) : Prop where
  following : ∀ r, Reads rfc L frames r →
    out.1.delivered = r.messages.map see ∧ (out.2 = false ↔ A r.messages)
  breaking : ∀ fs f rest r, frames = fs ++ f :: rest → Reads rfc L fs r → ¬X r f →
    (∀ r', ¬Reads rfc L (fs ++ [f]) r') →
      out.2 = true ∧ out.1.delivered = r.messages.map see
  sentence : ∀ ms, Sentence rfc frames ms →
    (∀ fs f rest r, frames = fs ++ f :: rest → Reads rfc anything fs r → L r f) →
      out.1.delivered = ms.map see ∧ (out.2 = false ↔ A ms)

/-- The state of the handlers behind some messages. -/
def after (H : Handlers σ) : σ × Int → List Msg → σ × Int
  | s, [] => s
  | s, ⟨.text, b⟩ :: ms => after H (H.text s.1 s.2 (cText b)) ms
  | s, ⟨.binary, b⟩ :: ms => after H ((H.binary s.1 s.2 b).1, -1) ms

/-- Every binary message was answered. -/
def Answered (H : Handlers σ) : σ × Int → List Msg → Prop
  | _, [] => True
  | s, ⟨.text, b⟩ :: ms => Answered H (H.text s.1 s.2 (cText b)) ms
  | s, ⟨.binary, b⟩ :: ms =>
    (H.binary s.1 s.2 b).2 = true ∧ Answered H ((H.binary s.1 s.2 b).1, -1) ms

/-- The longest binary message, complete or not. -/
def longest (r : Read Kind UInt8) : Nat :=
  ((r.messages ++ r.unfinished.toList).map fun m =>
    if m.kind = .binary then m.body.length else 0).foldr max 0

/-- The size of the buffer that holds them. -/
def room (n : Nat) : Nat := if n = 0 then 0 else max n 65536

/-- The limits of the worker on a message of `n` bytes so far. -/
def fitsKind (H : Handlers σ) (s : σ) (r : Read Kind UInt8) (f : Frame) (start : Bool) (n : Nat) :
    Kind → Prop
  | .text => n ≤ textMax
  | .binary => (start = true → 0 ≤ (after H (s, -1) r.messages).2) ∧ n ≤ binMsgMax ∧
      (room (longest r) < n → f.allocOk = true)

def Fits (H : Handlers σ) (s : σ) (r : Read Kind UInt8) (f : Frame) : Prop :=
  Answered H (s, -1) r.messages ∧
    match roleOf f, r.unfinished with
    | .start k, _ => fitsKind H s r f true f.payload.length k
    | .more, some m => fitsKind H s r f false (m.body.length + f.payload.length) m.kind
    | _, _ => True

/-- A text message is handed on up to its first NUL. -/
def seen (m : Msg) : Msg :=
  match m.kind with
  | .text => ⟨.text, cText m.body⟩
  | .binary => m

/-- A binary message starts while another message is unfinished. -/
def Overtaken (r : Read Kind UInt8) (f : Frame) : Prop :=
  roleOf f = .start .binary ∧ r.unfinished.isSome = true

theorem after_append (H : Handlers σ) (s : σ × Int) (ms : List Msg) (m : Msg) :
    after H s (ms ++ [m]) = after H (after H s ms) [m] := by
  induction ms generalizing s with
  | nil => rfl
  | cons a ms ih =>
    obtain ⟨k, b⟩ := a
    cases k with
    | text => exact ih _
    | binary => exact ih _

theorem answered_append (H : Handlers σ) (s : σ × Int) (ms : List Msg) (m : Msg) :
    Answered H s (ms ++ [m]) ↔ Answered H s ms ∧ Answered H (after H s ms) [m] := by
  induction ms generalizing s with
  | nil => exact ⟨fun h => ⟨trivial, h⟩, And.right⟩
  | cons a ms ih =>
    obtain ⟨k, b⟩ := a
    cases k with
    | text => exact ih _
    | binary => exact (and_congr_right fun _ => ih _).trans and_assoc.symm

theorem longest_take (ms : List Msg) (m : Msg) (last : Bool) :
    longest (Read.take ms m last) = longest ⟨ms, some m⟩ := by
  cases last with
  | true => simp [longest, Read.take]
  | false => rfl

theorem longest_some (ms : List Msg) (k : Kind) (b : List UInt8) :
    longest ⟨ms, some ⟨k, b⟩⟩ = max (longest ⟨ms, none⟩) (if k = .binary then b.length else 0) := by
  unfold longest
  simp only [Option.toList_some, Option.toList_none, List.append_nil, List.map_append,
    List.map_cons, List.map_nil]
  generalize (if k = .binary then b.length else 0) = n
  generalize (ms.map fun m : Msg => if m.kind = .binary then m.body.length else 0) = ns
  induction ns with
  | nil => simp
  | cons a ns ih => simp only [List.cons_append, List.foldr_cons, ih, Nat.max_assoc]

theorem room_grow (m n : Nat) :
    (if room m < n then max n 65536 else room m) = room (max m n) := by
  unfold room
  split_ifs <;> omega

/-- The worker has read `r`. -/
structure Holds (H : Handlers σ) (s : σ) (c : Conn σ) (r : Read Kind UInt8) : Prop where
  delivered : c.delivered = r.messages.map seen
  handler : (c.handler, c.pendingSeg) = after H (s, -1) r.messages
  answered : Answered H (s, -1) r.messages
  on : c.fragTextOn = r.unfinished.isSome
  text : ∀ b, r.unfinished = some ⟨.text, b⟩ → c.fragOp = 1 ∧ c.fragText = b
  binary : ∀ b, r.unfinished = some ⟨.binary, b⟩ → c.fragOp = 2 ∧ c.fragBin = b
  cap : c.binCap = room (longest r)

theorem init_holds (H : Handlers σ) (s : σ) : Holds H s (Conn.init s) .start :=
  ⟨rfl, rfl, trivial, rfl, nofun, nofun, rfl⟩

/-- What the worker makes of a frame that continues the grammar and fits. -/
structure Follows (H : Handlers σ) (s : σ) (r' : Read Kind UInt8) (out : Conn σ × Bool) : Prop where
  delivered : out.1.delivered = r'.messages.map seen
  closed : out.2 = false ↔ Answered H (s, -1) r'.messages
  holds : out.2 = false → Holds H s out.1 r'

/-- The worker gives up the connection and hands nothing on. -/
structure Breaks (c : Conn σ) (out : Conn σ × Bool) : Prop where
  closed : out.2 = true
  delivered : out.1.delivered = c.delivered

/-- A fragment of a text message of which `b` was read before. -/
theorem textFrame_eq (H : Handlers σ) (c : Conn σ) (f : Frame) (isStart : Bool) (b : List UInt8)
    (hon : c.fragTextOn = !isStart) (hb : b = if isStart then [] else c.fragText)
    (hop : isStart = false → c.fragOp = 1) :
    textFrame H c f isStart =
      if textMax < (b ++ f.payload).length then
        ({ c with fragText := b, fragOp := 1, fragTextOn := true }, true)
      else if f.fin then
        ({ c with
            handler := (H.text c.handler c.pendingSeg (cText (b ++ f.payload))).1
            pendingSeg := (H.text c.handler c.pendingSeg (cText (b ++ f.payload))).2
            delivered := c.delivered ++ [⟨.text, cText (b ++ f.payload)⟩]
            fragOp := 1
            fragTextOn := false
            fragText := [] }, false)
      else ({ c with fragText := b ++ f.payload, fragOp := 1, fragTextOn := true }, false) := by
  subst hb
  obtain ⟨ft, on, op, fb, cap, ps, h, d⟩ := c
  simp only at hon hop
  cases isStart with
  | true =>
    simp only [Bool.not_true] at hon
    subst hon
    simp only [textFrame, List.length_append]
    simp
  | false =>
    obtain rfl := hop rfl
    simp only [Bool.not_false] at hon
    subst hon
    simp only [textFrame, List.length_append]
    simp

/-- A fragment of a binary message of which `b` was read before. -/
theorem binaryFrame_eq (H : Handlers σ) (c : Conn σ) (f : Frame) (isStart : Bool) (b : List UInt8)
    (hon : c.fragTextOn = !isStart) (hb : b = if isStart then [] else c.fragBin)
    (hop : isStart = false → c.fragOp = 2) :
    binaryFrame H c f isStart =
      if isStart = true ∧ c.pendingSeg < 0 ∨ binMsgMax < (b ++ f.payload).length ∨
          (c.binCap < (b ++ f.payload).length ∧ ¬f.allocOk = true) then
        ({ c with fragBin := b, fragOp := 2, fragTextOn := true }, true)
      else
        let c' := { c with
          binCap := if c.binCap < (b ++ f.payload).length then max (b ++ f.payload).length 65536
            else c.binCap
          fragBin := b ++ f.payload
          fragOp := 2
          fragTextOn := true }
        if f.fin then
          let c' := { c' with
            handler := (H.binary c.handler c.pendingSeg (b ++ f.payload)).1
            delivered := c.delivered ++ [⟨.binary, b ++ f.payload⟩] }
          if !(H.binary c.handler c.pendingSeg (b ++ f.payload)).2 then (c', true)
          else ({ c' with pendingSeg := -1, fragTextOn := false, fragBin := [] }, false)
        else (c', false) := by
  subst hb
  obtain ⟨ft, on, op, fb, cap, ps, h, d⟩ := c
  simp only at hon hop
  cases isStart with
  | true =>
    simp only [Bool.not_true] at hon
    subst hon
    by_cases h1 : ps < 0
    · simp [binaryFrame, h1]
    · by_cases h2 : binMsgMax < f.payload.length
      · simp [binaryFrame, h1, h2]
      · simp [binaryFrame, h1, h2]
  | false =>
    obtain rfl := hop rfl
    simp only [Bool.not_false] at hon
    subst hon
    by_cases h2 : binMsgMax < fb.length + f.payload.length
    · simp [binaryFrame, h2]
    · simp [binaryFrame, h2]

/-- A fragment of a message of kind `k`, from what was read of the message before. -/
structure Fragment (H : Handlers σ) (s : σ) (c : Conn σ) (ms : List Msg) (o : Option Msg)
    (isStart : Bool) (k : Kind) (b : List UInt8) : Prop where
  holds : Holds H s c ⟨ms, o⟩
  part : (isStart = true ∧ o = none ∧ b = []) ∨ (isStart = false ∧ o = some ⟨k, b⟩)

theorem Fragment.longest_eq {H : Handlers σ} {s : σ} {c : Conn σ} {ms : List Msg} {o : Option Msg}
    {isStart : Bool} {b : List UInt8} (h : Fragment H s c ms o isStart .binary b) :
    longest ⟨ms, o⟩ = max (longest ⟨ms, none⟩) b.length := by
  obtain ⟨_, rfl, rfl⟩ | ⟨_, rfl⟩ := h.part
  · simp
  · simp [longest_some]

theorem Fragment.on {H : Handlers σ} {s : σ} {c : Conn σ} {ms : List Msg} {o : Option Msg}
    {isStart : Bool} {k : Kind} {b : List UInt8} (h : Fragment H s c ms o isStart k b) :
    c.fragTextOn = !isStart := by
  rw [h.holds.on]
  obtain ⟨rfl, rfl, _⟩ | ⟨rfl, rfl⟩ := h.part <;> rfl

theorem text_step {H : Handlers σ} {s : σ} {c : Conn σ} {ms : List Msg} {o : Option Msg}
    {isStart : Bool} {b : List UInt8} (h : Fragment H s c ms o isStart .text b) (f : Frame) :
    ((b ++ f.payload).length ≤ textMax →
      Follows H s (.take ms ⟨.text, b ++ f.payload⟩ f.fin) (textFrame H c f isStart)) ∧
      (¬(b ++ f.payload).length ≤ textMax → Breaks c (textFrame H c f isStart)) := by
  have hb : b = if isStart then [] else c.fragText := by
    obtain ⟨rfl, _, rfl⟩ | ⟨rfl, rfl⟩ := h.part
    · rfl
    · exact (h.holds.text b rfl).2.symm
  have hop : isStart = false → c.fragOp = 1 := by
    rintro rfl
    obtain ⟨h1, _⟩ | ⟨_, rfl⟩ := h.part
    · cases h1
    · exact (h.holds.text b rfl).1
  have hlong : longest ⟨ms, some ⟨.text, b ++ f.payload⟩⟩ = longest ⟨ms, o⟩ := by
    obtain ⟨_, rfl, _⟩ | ⟨_, rfl⟩ := h.part <;> simp [longest_some]
  have hhandler : (c.handler, c.pendingSeg) = after H (s, -1) ms := h.holds.handler
  rw [textFrame_eq H c f isStart b h.on hb hop]
  refine ⟨fun hle => ?_, fun hgt => ?_⟩
  · rw [if_neg (Nat.not_lt.mpr hle)]
    cases hf : f.fin with
    | true =>
      have hans : Answered H (s, -1) (ms ++ [⟨.text, b ++ f.payload⟩]) :=
        (answered_append H _ ms _).mpr ⟨h.holds.answered, trivial⟩
      have hd : c.delivered ++ [⟨.text, cText (b ++ f.payload)⟩] =
          List.map seen (ms ++ [⟨.text, b ++ f.payload⟩]) := by
        rw [h.holds.delivered, List.map_append]
        rfl
      have hafter : after H (s, -1) (ms ++ [⟨.text, b ++ f.payload⟩]) =
          H.text c.handler c.pendingSeg (cText (b ++ f.payload)) := by
        rw [after_append, ← hhandler]
        rfl
      refine ⟨hd, ⟨fun _ => hans, fun _ => rfl⟩,
        fun _ => ⟨hd, hafter.symm, hans, rfl, nofun, nofun, ?_⟩⟩
      rw [longest_take, hlong]
      exact h.holds.cap
    | false =>
      refine ⟨h.holds.delivered, ⟨fun _ => h.holds.answered, fun _ => rfl⟩, fun _ => ?_⟩
      refine ⟨h.holds.delivered, h.holds.handler, h.holds.answered, rfl, ?_, nofun, ?_⟩
      · rintro b' he
        cases he
        exact ⟨rfl, rfl⟩
      · rw [longest_take, hlong]
        exact h.holds.cap
  · rw [if_pos (Nat.lt_of_not_le hgt)]
    exact ⟨rfl, rfl⟩

theorem binary_step {H : Handlers σ} {s : σ} {c : Conn σ} {ms : List Msg} {o : Option Msg}
    {isStart : Bool} {b : List UInt8} (h : Fragment H s c ms o isStart .binary b) (f : Frame) :
    (fitsKind H s ⟨ms, o⟩ f isStart (b ++ f.payload).length .binary →
      Follows H s (.take ms ⟨.binary, b ++ f.payload⟩ f.fin) (binaryFrame H c f isStart)) ∧
      (¬fitsKind H s ⟨ms, o⟩ f isStart (b ++ f.payload).length .binary →
        Breaks c (binaryFrame H c f isStart)) := by
  have hb : b = if isStart then [] else c.fragBin := by
    obtain ⟨rfl, _, rfl⟩ | ⟨rfl, rfl⟩ := h.part
    · rfl
    · exact (h.holds.binary b rfl).2.symm
  have hop : isStart = false → c.fragOp = 2 := by
    rintro rfl
    obtain ⟨h1, _⟩ | ⟨_, rfl⟩ := h.part
    · cases h1
    · exact (h.holds.binary b rfl).1
  have hhandler : (c.handler, c.pendingSeg) = after H (s, -1) ms := h.holds.handler
  have hseg : c.pendingSeg = (after H (s, -1) ms).2 := congrArg Prod.snd hhandler
  have hfit : fitsKind H s ⟨ms, o⟩ f isStart (b ++ f.payload).length .binary ↔
      ¬(isStart = true ∧ c.pendingSeg < 0 ∨ binMsgMax < (b ++ f.payload).length ∨
        (c.binCap < (b ++ f.payload).length ∧ ¬f.allocOk = true)) := by
    unfold fitsKind
    rw [← hseg, ← h.holds.cap]
    simp only [not_or, not_and, Int.not_lt, Nat.not_lt, not_not]
  have hcap : (if c.binCap < (b ++ f.payload).length then max (b ++ f.payload).length 65536
      else c.binCap) = room (longest ⟨ms, some ⟨.binary, b ++ f.payload⟩⟩) := by
    rw [h.holds.cap, room_grow, h.longest_eq, longest_some, if_pos rfl, Nat.max_assoc]
    congr 2
    rw [List.length_append]
    omega
  rw [binaryFrame_eq H c f isStart b h.on hb hop, hfit]
  refine ⟨fun hle => ?_, fun hgt => ?_⟩
  · rw [if_neg hle]
    cases hf : f.fin with
    | true =>
      have hd : c.delivered ++ [⟨.binary, b ++ f.payload⟩] =
          List.map seen (ms ++ [⟨.binary, b ++ f.payload⟩]) := by
        rw [h.holds.delivered, List.map_append]
        rfl
      have hafter : after H (s, -1) (ms ++ [⟨.binary, b ++ f.payload⟩]) =
          ((H.binary c.handler c.pendingSeg (b ++ f.payload)).1, -1) := by
        rw [after_append, ← hhandler]
        rfl
      have hans : Answered H (s, -1) (ms ++ [⟨.binary, b ++ f.payload⟩]) ↔
          (H.binary c.handler c.pendingSeg (b ++ f.payload)).2 = true := by
        rw [answered_append, ← hhandler]
        exact ⟨fun ha => ha.2.1, fun ha => ⟨h.holds.answered, ha, trivial⟩⟩
      cases hsent : (H.binary c.handler c.pendingSeg (b ++ f.payload)).2 with
      | true =>
        refine ⟨hd, ⟨fun _ => hans.mpr hsent, fun _ => rfl⟩,
          fun _ => ⟨hd, hafter.symm, hans.mpr hsent, rfl, nofun, nofun, ?_⟩⟩
        rw [longest_take]
        exact hcap
      | false =>
        exact ⟨hd, ⟨nofun, fun ha => Bool.noConfusion (hsent.symm.trans (hans.mp ha))⟩, nofun⟩
    | false =>
      refine ⟨h.holds.delivered, ⟨fun _ => h.holds.answered, fun _ => rfl⟩, fun _ => ?_⟩
      refine ⟨h.holds.delivered, h.holds.handler, h.holds.answered, rfl, nofun, ?_, ?_⟩
      · rintro b' he
        cases he
        exact ⟨rfl, rfl⟩
      · rw [longest_take]
        exact hcap
  · rw [if_pos (not_not.mp hgt)]
    exact ⟨rfl, rfl⟩

/-- The step of the worker for each kind of frame. -/
inductive Dispatch (H : Handlers σ) (c : Conn σ) (f : Frame) : Role Kind → Conn σ × Bool → Prop
  | control : Dispatch H c f .control (c, false)
  | text : Dispatch H c f (.start .text) (textFrame H c f true)
  | binary : Dispatch H c f (.start .binary) (binaryFrame H c f true)
  | moreText (h : c.fragOp = 1) : Dispatch H c f .more (textFrame H c f false)
  | moreBinary (h : c.fragOp = 2) : Dispatch H c f .more (binaryFrame H c f false)
  | stray (h : c.fragOp ≠ 1) (h' : c.fragOp ≠ 2) : Dispatch H c f .more (c, true)
  | other : Dispatch H c f .other (c, true)

theorem frame_dispatch (H : Handlers σ) (c : Conn σ) (f : Frame) :
    Dispatch H c f (roleOf f) (frame H c f) := by
  obtain ⟨op, fin, payload, allocOk⟩ := f
  unfold frame roleOf
  simp only
  by_cases h9 : op = 9
  · subst h9
    exact .control
  · by_cases h10 : op = 10
    · subst h10
      exact .control
    · by_cases h1 : op = 1
      · subst h1
        exact .text
      · by_cases h2 : op = 2
        · subst h2
          exact .binary
        · by_cases h0 : op = 0
          · subst h0
            by_cases hop1 : c.fragOp = 1
            · simp only [hop1]
              exact .moreText hop1
            · by_cases hop2 : c.fragOp = 2
              · simp only [hop2]
                exact .moreBinary hop2
              · simp only [hop1, hop2]
                exact .stray hop1 hop2
          · simp only [h9, h10, h1, h2, h0, or_self, false_and, if_false, ite_self]
            exact .other

theorem stray_continuation {H : Handlers σ} {c : Conn σ} {f : Frame} (h : c.fragTextOn = false) :
    Breaks c (textFrame H c f false) ∧ Breaks c (binaryFrame H c f false) := by
  unfold textFrame binaryFrame
  rw [h]
  exact ⟨⟨rfl, rfl⟩, ⟨rfl, rfl⟩⟩

theorem frame_step {H : Handlers σ} {s : σ} {c : Conn σ} {r : Read Kind UInt8}
    (h : Holds H s c r) {f : Frame} (hx : ¬Overtaken r f) :
    (∀ r', Fits H s r f → accept rfc r f = some r' → Follows H s r' (frame H c f)) ∧
      ((Fits H s r f → accept rfc r f = none) → Breaks c (frame H c f)) := by
  have hd := frame_dispatch H c f
  have hfr : rfc.role f = roleOf f := rfl
  obtain ⟨ms, o⟩ := r
  unfold Fits
  generalize hrole : roleOf f = role at hd hfr
  generalize frame H c f = out at hd
  have hans := h.answered
  cases hd with
  | control =>
    rw [accept_control hfr]
    refine ⟨fun r' _ he => ?_, fun hn => ?_⟩
    · cases he
      exact ⟨h.delivered, ⟨fun _ => hans, fun _ => rfl⟩, fun _ => h⟩
    · cases hn ⟨hans, trivial⟩
  | text =>
    cases o with
    | none =>
      obtain ⟨hok, hbad⟩ := text_step (b := []) ⟨h, .inl ⟨rfl, rfl, rfl⟩⟩ f
      rw [accept_start hfr]
      refine ⟨fun r' hf he => ?_, fun hn => hbad fun hle => ?_⟩
      · cases he
        exact hok hf.2
      · cases hn ⟨hans, hle⟩
    | some m =>
      have hon : c.fragTextOn = true := h.on
      refine ⟨fun r' _ he => ?_, fun _ => ?_⟩
      · simp [accept, hfr] at he
      · unfold textFrame
        rw [hon]
        exact ⟨rfl, rfl⟩
  | binary =>
    cases o with
    | none =>
      obtain ⟨hok, hbad⟩ := binary_step (b := []) ⟨h, .inl ⟨rfl, rfl, rfl⟩⟩ f
      rw [accept_start hfr]
      refine ⟨fun r' hf he => ?_, fun hn => hbad fun hle => ?_⟩
      · cases he
        exact hok hf.2
      · cases hn ⟨hans, hle⟩
    | some m => exact absurd ⟨hrole, rfl⟩ hx
  | moreText hop =>
    cases o with
    | none =>
      refine ⟨fun r' _ he => ?_, fun _ => (stray_continuation (f := f) (H := H) h.on).1⟩
      simp [accept, hfr] at he
    | some m =>
      obtain ⟨k, b⟩ := m
      cases k with
      | binary => exact absurd (hop.symm.trans (h.binary b rfl).1) (by decide)
      | text =>
        obtain ⟨hok, hbad⟩ := text_step (b := b) ⟨h, .inr ⟨rfl, rfl⟩⟩ f
        rw [accept_more hfr]
        simp only [fitsKind, List.length_append] at hok hbad ⊢
        refine ⟨fun r' hf he => ?_, fun hn => hbad fun hle => ?_⟩
        · cases he
          exact hok hf.2
        · cases hn ⟨hans, hle⟩
  | moreBinary hop =>
    cases o with
    | none =>
      refine ⟨fun r' _ he => ?_, fun _ => (stray_continuation (f := f) (H := H) h.on).2⟩
      simp [accept, hfr] at he
    | some m =>
      obtain ⟨k, b⟩ := m
      cases k with
      | text => exact absurd (hop.symm.trans (h.text b rfl).1) (by decide)
      | binary =>
        obtain ⟨hok, hbad⟩ := binary_step (b := b) ⟨h, .inr ⟨rfl, rfl⟩⟩ f
        rw [accept_more hfr]
        rw [List.length_append] at hok hbad
        refine ⟨fun r' hf he => ?_, fun hn => hbad fun hle => ?_⟩
        · cases he
          exact hok hf.2
        · cases hn ⟨hans, hle⟩
  | stray h1 h2 =>
    refine ⟨fun r' _ he => ?_, fun _ => ⟨rfl, rfl⟩⟩
    cases o with
    | none => simp [accept, hfr] at he
    | some m =>
      obtain ⟨k, b⟩ := m
      cases k with
      | text => exact absurd (h.text b rfl).1 h1
      | binary => exact absurd (h.binary b rfl).1 h2
  | other =>
    refine ⟨fun r' _ he => ?_, fun _ => ⟨rfl, rfl⟩⟩
    simp [accept, hfr] at he

theorem accept_not_overtaken {r r' : Read Kind UInt8} {f : Frame} (h : accept rfc r f = some r') :
    ¬Overtaken r f := by
  rintro ⟨hrole, ho⟩
  obtain ⟨ms, o⟩ := r
  have hfr : rfc.role f = .start .binary := hrole
  cases o with
  | none => cases ho
  | some m => simp [accept, hfr] at h

theorem worker_cons (H : Handlers σ) (c : Conn σ) (f : Frame) (fs : List Frame) :
    wsConnWorker H c (f :: fs) =
      if (frame H c f).2 = true then ((frame H c f).1, true)
      else wsConnWorker H (frame H c f).1 fs := by
  rw [wsConnWorker]
  cases frame H c f with
  | mk c' closed => cases closed <;> rfl

/-- Behind frames that can be read and fit, the worker has read them, or it has
given up the connection over an answer. -/
theorem worker_reads {H : Handlers σ} {s : σ} {fs : List Frame} {r : Read Kind UInt8}
    (h : Reads rfc (Fits H s) fs r) (rest : List Frame) :
    (Answered H (s, -1) r.messages →
      ∃ c, Holds H s c r ∧ wsConnWorker H (.init s) (fs ++ rest) = wsConnWorker H c rest) ∧
      (¬Answered H (s, -1) r.messages →
        (wsConnWorker H (.init s) (fs ++ rest)).2 = true ∧
          (wsConnWorker H (.init s) (fs ++ rest)).1.delivered = r.messages.map seen) := by
  induction h generalizing rest with
  | nil => exact ⟨fun _ => ⟨_, init_holds H s, rfl⟩, fun hn => absurd trivial hn⟩
  | @frame fs r r' f _ hfit ha ih =>
    obtain ⟨c, hc, hrun⟩ := (ih (f :: rest)).1 hfit.1
    have hf := (frame_step hc (accept_not_overtaken ha)).1 r' hfit ha
    rw [List.append_assoc, List.singleton_append, hrun, worker_cons]
    cases hclosed : (frame H c f).2 with
    | false =>
      refine ⟨fun _ => ⟨(frame H c f).1, hf.holds hclosed, rfl⟩, fun hn => ?_⟩
      exact absurd (hf.closed.mp hclosed) hn
    | true =>
      refine ⟨fun hans => ?_, fun _ => ⟨rfl, hf.delivered⟩⟩
      exact absurd (hclosed.symm.trans (hf.closed.mpr hans)) (by decide)

/-- Messages are handed on exactly as the grammar has them, as long as they fit;
the first frame that does not continue it or does not fit costs the connection
and the message it belongs to. -/
theorem reassembly_exact (H : Handlers σ) (s : σ) (frames : List Frame) :
    Exact (Fits H s) (Answered H (s, -1)) Overtaken seen frames
      (wsConnWorker H (.init s) frames) := by
  have hfollow : ∀ r, Reads rfc (Fits H s) frames r →
      (wsConnWorker H (.init s) frames).1.delivered = r.messages.map seen ∧
        ((wsConnWorker H (.init s) frames).2 = false ↔ Answered H (s, -1) r.messages) := by
    intro r hr
    obtain ⟨hok, hbad⟩ := worker_reads hr []
    rw [List.append_nil] at hok hbad
    by_cases hans : Answered H (s, -1) r.messages
    · obtain ⟨c, hc, hrun⟩ := hok hans
      rw [hrun]
      exact ⟨hc.delivered, fun _ => hans, fun _ => rfl⟩
    · obtain ⟨hclosed, hd⟩ := hbad hans
      refine ⟨hd, fun h => ?_, fun h => absurd h hans⟩
      exact absurd (hclosed.symm.trans h) (by decide)
  refine ⟨hfollow, ?_, fun ms hms hl => ?_⟩
  · rintro fs f rest r rfl hr hx hstop
    obtain ⟨hok, hbad⟩ := worker_reads hr (f :: rest)
    by_cases hans : Answered H (s, -1) r.messages
    · obtain ⟨c, hc, hrun⟩ := hok hans
      have hb := (frame_step hc hx).2 fun hfit => by
        cases ha : accept rfc r f with
        | none => rfl
        | some r' => exact absurd (.frame hr hfit ha) (hstop r')
      rw [hrun, worker_cons, hb.closed]
      exact ⟨rfl, hb.delivered.trans hc.delivered⟩
    · exact hbad hans
  · exact hfollow ⟨ms, none⟩ ((sentence_iff.mp hms).within hl)

/-- Handlers that name segment 0 for every text message and answer everything. -/
def plain : Handlers Unit := ⟨fun s _ _ => (s, 0), fun s _ _ => (s, true)⟩

def textFin (bs : List UInt8) : Frame := ⟨1, true, bs, true⟩
def textOpen (bs : List UInt8) : Frame := ⟨1, false, bs, true⟩
def binaryFin (bs : List UInt8) : Frame := ⟨2, true, bs, true⟩

/-- What RFC 6455 alone promises of a connection. -/
def RfcExact (frames : List Frame) : Prop :=
  Exact (σ := Unit) anything (fun _ => True) (fun _ _ => False) id frames
    (wsConnWorker plain (.init ()) frames)

/-- A binary message that overtakes an unfinished text message is handed on; one
without a segment costs the connection; a text message is cut at a NUL. -/
theorem reassembly_fails :
    ¬RfcExact [textFin [115], textOpen [97], binaryFin [98]] ∧ ¬RfcExact [binaryFin [98]] ∧
      ¬RfcExact [textFin [97, 0, 98]] := by
  refine ⟨fun h => ?_, fun h => ?_, fun h => ?_⟩
  · have hr : Reads rfc anything [textFin [115], textOpen [97]]
        ⟨[⟨.text, [115]⟩], some ⟨.text, [97]⟩⟩ :=
      .frame (.frame .nil trivial rfl) trivial rfl
    have hstop : ∀ r', ¬Reads rfc anything
        ([textFin [115], textOpen [97]] ++ [binaryFin [98]]) r' := by
      intro r' hr'
      cases reads_iff.mp hr' with
      | frame _ h1 hr' =>
        cases h1
        cases hr' with
        | frame _ h2 hr' =>
          cases h2
          cases hr' with
          | frame _ h3 _ => cases h3
    have hclosed := (h.breaking _ _ [] _ rfl hr id hstop).1
    cases hclosed
  · have hr : Reads rfc anything [binaryFin [98]] ⟨[⟨.binary, [98]⟩], none⟩ :=
      .frame .nil trivial rfl
    cases (h.following _ hr).2.mpr trivial
  · have hr : Reads rfc anything [textFin [97, 0, 98]] ⟨[⟨.text, [97, 0, 98]⟩], none⟩ :=
      .frame .nil trivial rfl
    cases (h.following _ hr).1

end PkgManager.FrameReassembly
