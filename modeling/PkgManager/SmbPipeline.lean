import PkgManager.Memory
import PkgManager.RingBuffer

namespace PkgManager.SmbPipeline

open Memory RingBuffer

/-- A file, of a size that `off_t` can hold. -/
structure File where
  content : List UInt8
  small : content.length < 2 ^ 63

/-- `smb_file_session_t`. -/
structure Session where
  localFd : Bool
  connected : Bool
  fileSize : Nat
  dialect : Nat
  maxReadSize : Nat

/-- The arguments of a read. -/
structure Call where
  offset : Nat
  count : Nat
  offset_lt : offset < 2 ^ 64
  count_lt : count < 2 ^ 64

def pipelineDepth : Nat := 8

def pipelineChunk : Nat := 512 * 1024

def smb2Version0202 : Nat := 0x0202

/-- A request that libsmb2 has taken and not answered: its buffer and the slot
its callback gets. -/
structure Request where
  slot : Nat
  bufPos : Nat
  size : Nat
  off : Nat

/-- `smb_slot_cb_t`, `slot_bufs` (from the start of the buffer) and `slot_sizes`. -/
structure Slot where
  done : Bool
  result : Int
  bufPos : Nat
  size : Nat

/-- What libsmb2 does about one of its requests: store some of its data, complete
it with `n` bytes of the file (as many as there are), or fail it. -/
inductive Reply where
  | fragment (i : Nat) (bytes : List UInt8)
  | complete (i n : Nat)
  | fail (i errno : Nat)

/-- A turn of the event loop: what `poll` says and, where libsmb2 is called, its
replies and whether it goes on. -/
inductive Poll where
  | interrupted
  | failed
  | timeout (replies : List Reply) (ok : Bool)
  | invalid
  | ready (replies : List Reply) (ok : Bool)

/-- The credits of the context and the credit charges of its output queue, one
list for each compound. -/
structure Credits where
  credits : Int
  outqueue : List (List Int)

/-- The outside of one read: the credits before each request, what
`smb2_pread_async` returns for it, the turns of the event loop, and for a local
file how many bytes `pread` gets at most. -/
structure Env where
  file : File
  credits : Nat → Credits
  submit : Nat → Int
  poll : Nat → Poll
  pread : Option Nat

/-- The variables of `smb_file_session_read`; `looked` and `polled` count what it
has taken from outside. -/
structure Pipe where
  totalRead : Nat
  stopIssuing : Bool
  discardInflight : Bool
  readError : Int
  slots : Nat → Slot
  inFlight : Nat
  head : Nat
  tail : Nat
  issueOff : Nat
  buf : Bytes
  connected : Bool
  pending : List Request
  looked : Nat
  polled : Nat

/-- `smb_file_session_queued_credits`. -/
def queuedCredits (dialect : Nat) (outqueue : List (List Int)) : Int :=
  outqueue.foldl (fun total pdu => pdu.foldl (fun total charge =>
    total + if dialect ≤ smb2Version0202 then charge + 1 else charge) total) 0

def chunkLimit (s : Session) : Nat :=
  if 0 < s.maxReadSize ∧ s.maxReadSize < pipelineChunk then s.maxReadSize else pipelineChunk

def targetCount (s : Session) (c : Call) : Nat :=
  if 0 < s.fileSize then
    if s.fileSize ≤ c.offset then 0
    else if s.fileSize - c.offset < c.count then s.fileSize - c.offset
    else c.count
  else c.count

def issued (c : Call) (p : Pipe) : Nat := u64Sub p.issueOff c.offset

/-- The size of the next request, `none` where the credits allow none. -/
def toRequest (s : Session) (cr : Credits) (left : Nat) : Option Nat :=
  let toReq := min left (chunkLimit s)
  if smb2Version0202 < s.dialect then
    let available := cr.credits - queuedCredits s.dialect cr.outqueue
    if available ≤ 0 then none
    else
      let limited := min toReq (available.toNat * 65536)
      if limited = 0 then none else some limited
  else if toReq = 0 then none
  else some toReq

/-- Issue one request of `toReq` bytes. -/
def issue (depth : Nat) (c : Call) (rc : Int) (p : Pipe) (toReq : Nat) : Pipe :=
  let idx := p.tail % depth
  let prepared := { p with
    slots := Function.update p.slots idx ⟨false, 0, issued c p, toReq⟩
    looked := p.looked + 1 }
  if rc < 0 then { prepared with readError := rc, stopIssuing := true }
  else { prepared with
    pending := p.pending ++ [⟨idx, issued c p, toReq, p.issueOff⟩]
    issueOff := u64 (p.issueOff + toReq)
    inFlight := p.inFlight + 1
    tail := p.tail + 1 }

/-- The issue loop. Each turn but its last adds a request, so `depth` turns fill
the pipeline. -/
def issueLoop (depth : Nat) (s : Session) (c : Call) (env : Env) : Nat → Pipe → Pipe
  | 0, p => p
  | n + 1, p =>
    if ¬p.stopIssuing ∧ p.inFlight < depth ∧ issued c p < targetCount s c then
      match toRequest s (env.credits p.looked) (targetCount s c - issued c p) with
      | none => { p with looked := p.looked + 1 }
      | some toReq =>
        issueLoop depth s c env n (issue depth c (env.submit p.looked) p toReq)
    else p

/-- `smb_pipeline_cb`. -/
def pipelineCb (p : Pipe) (slot : Nat) (status : Int) : Pipe :=
  let answered := { p.slots slot with result := status, done := true }
  { p with slots := Function.update p.slots slot answered }

/-- A reply reaches the buffer of its request and, at its end, the callback. -/
def answer (file : File) (p : Pipe) : Reply → Pipe
  | .fragment i bytes =>
    match p.pending[i]? with
    | none => p
    | some r => { p with
        buf := blit p.buf r.bufPos (bytes.getD · 0) 0 (min bytes.length r.size) }
  | .complete i n =>
    match p.pending[i]? with
    | none => p
    | some r =>
      let got := min (min n r.size) (file.content.length - r.off)
      pipelineCb { p with
        buf := blit p.buf r.bufPos (file.content.getD · 0) r.off got
        pending := p.pending.eraseIdx i } r.slot got
  | .fail i errno =>
    match p.pending[i]? with
    | none => p
    | some r => pipelineCb { p with pending := p.pending.eraseIdx i } r.slot (.negSucc errno)

/-- `smb2_service`: whatever replies have arrived. -/
def service (file : File) (replies : List Reply) (p : Pipe) : Pipe :=
  replies.foldl (answer file) p

/-- `smb_file_session_abort_transport` and the assignments around it; destroying
the context cancels its requests. -/
def abortTransport (p : Pipe) : Pipe :=
  { p with
    readError := -1, stopIssuing := true, connected := false, pending := [], inFlight := 0 }

/-- Drive the event loop until the oldest request is answered. -/
def drive (depth : Nat) (env : Env) : Nat → Pipe → Option Pipe
  | 0, _ => none
  | n + 1, p =>
    if (p.slots (p.head % depth)).done then some p
    else
      let p' := { p with polled := p.polled + 1 }
      match env.poll p.polled with
      | .interrupted => drive depth env n p'
      | .failed => some (abortTransport p')
      | .timeout replies ok =>
        let q := service env.file replies p'
        if ok then drive depth env n q else some (abortTransport q)
      | .invalid => some (abortTransport p')
      | .ready replies ok =>
        let q := service env.file replies p'
        if ok then drive depth env n q else some (abortTransport q)

/-- What the result of the oldest request adds to the read. -/
def account (slot : Slot) (p : Pipe) : Pipe :=
  if p.discardInflight then p
  else if slot.result < 0 then
    { p with readError := slot.result, stopIssuing := true, discardInflight := true }
  else if slot.result = 0 then { p with stopIssuing := true, discardInflight := true }
  else
    let counted := { p with totalRead := p.totalRead + slot.result.toNat }
    if slot.result < slot.size then
      { counted with stopIssuing := true, discardInflight := true }
    else counted

/-- Consume the answered requests at the head, `n` being the number in flight. -/
def consume (depth : Nat) : Nat → Pipe → Pipe
  | 0, p => p
  | n + 1, p =>
    let slot := p.slots (p.head % depth)
    if slot.done then
      consume depth n (account slot { p with inFlight := p.inFlight - 1, head := p.head + 1 })
    else p

def pipelineLoop (depth : Nat) (s : Session) (c : Call) (env : Env) : Nat → Pipe → Option Pipe
  | 0, _ => none
  | n + 1, p =>
    if (¬p.stopIssuing ∧ p.totalRead < targetCount s c) ∨ 0 < p.inFlight then
      let q := issueLoop depth s c env depth p
      if q.inFlight = 0 then some q
      else
        match drive depth env n q with
        | none => none
        | some r =>
          if r.readError ≠ 0 ∧ ¬r.connected then some r
          else pipelineLoop depth s c env n (consume depth r.inFlight r)
    else some p

def start (c : Call) (buf : Bytes) : Pipe where
  totalRead := 0
  stopIssuing := false
  discardInflight := false
  readError := 0
  slots := fun _ => ⟨false, 0, 0, 0⟩
  inFlight := 0
  head := 0
  tail := 0
  issueOff := c.offset
  buf := buf
  connected := true
  pending := []
  looked := 0
  polled := 0

/-- `pread` on a local file. -/
def preadLocal (c : Call) (env : Env) (buf : Bytes) : Int × Bytes :=
  match env.pread with
  | none => (-1, buf)
  | some short =>
    if 2 ^ 63 ≤ c.offset then (-1, buf)
    else
      let got := min (min c.count short) (env.file.content.length - c.offset)
      (got, blit buf 0 (env.file.content.getD · 0) c.offset got)

/-- `smb_file_session_read`: its value and the buffer, `none` when the fuel does
not suffice. -/
def fileSessionRead (depth : Nat) (s : Session) (c : Call) (env : Env) (fuel : Nat) (buf : Bytes) :
    Option (Int × Bytes) :=
  if c.count = 0 then some (0, buf)
  else if s.localFd then some (preadLocal c env buf)
  else if ¬s.connected then some (-1, buf)
  else
    (pipelineLoop depth s c env fuel (start c buf)).map fun p =>
      (if 0 < p.totalRead then (p.totalRead : Int) else p.readError, p.buf)

end PkgManager.SmbPipeline
