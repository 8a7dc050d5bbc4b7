import PkgManager.InsertionOrder

namespace PkgManager.SegmentSender

open InsertionOrder

/-- What `createSegmentSender` is called with; `acknowledged` is shared with the caller. -/
structure Options where
  totalSegments : Nat
  startSegment : Nat
  demandWindow : Nat
  maxInFlight : Int
  acknowledged : OrderedSet Nat

def Options.limit (o : Options) : Nat := (min 2 (max 1 o.maxInFlight)).toNat

/-- A call of `readSegment`, with what its promise has come to. -/
structure Call (β : Type) where
  segment : Nat
  result : Option (Except Unit β)

/-- `{segment, result}`, where the promise is named by its call. -/
structure Read where
  segment : Nat
  result : Nat
deriving DecidableEq

/-- `sentAt` is the time of the last send; all that counts is whether there is one. -/
structure Flight where
  read : Read
  sentAt : Bool

structure Retry where
  read : Read
  timer : Bool

/-- A call of `sendSegment`, with the read its buffer comes from. -/
structure Sent (β : Type) where
  segment : Nat
  buffer : β
  read : Nat

/-- The variables of a sender. While a pump runs it waits for a read of its segment.
`reads`, `sent`, `owed` and `pumped` are history: `owed` are the segments requested of
an active sender and not acknowledged to it since. -/
structure Sender (β : Type) where
  totalSegments : Nat
  demandWindow : Nat
  limit : Nat
  acknowledged : OrderedSet Nat
  demands : OrderedSet Nat
  ahead : OrderedSet Nat
  flights : OrderedMap Nat Flight
  retries : OrderedMap Nat Retry
  baseline : Nat
  prepared : Option Read
  pumping : Option (Nat × Read)
  stopped : Bool
  shouldStop : Bool
  reads : List (Call β)
  sent : List (Sent β)
  owed : List Nat
  pumped : Bool

/-- What the page and the event loop do to a sender. A read completes with its buffer or
an error; the pump resumes some time after that, and `sendSegment` may throw. -/
inductive Event (β : Type) where
  | pump
  | request (segment : Int)
  | ack (segment : Nat)
  | busy (segment : Nat)
  | timer (segment : Nat)
  | readDone (read : Nat) (result : Except Unit β)
  | resume (thrown : Bool)
  | stop
  | halt
  | acknowledge (segment : Nat)

variable {β : Type}

def createSegmentSender (o : Options) : Sender β where
  totalSegments := o.totalSegments
  demandWindow := o.demandWindow
  limit := o.limit
  acknowledged := o.acknowledged
  demands := if 0 < o.demandWindow ∧ 0 < o.totalSegments then OrderedSet.empty.add 0 else .empty
  ahead := .empty
  flights := .empty
  retries := .empty
  baseline := o.startSegment
  prepared := none
  pumping := none
  stopped := false
  shouldStop := false
  reads := []
  sent := []
  owed := []
  pumped := false

namespace Sender

def inactive (s : Sender β) : Bool := s.stopped || s.shouldStop

def waitsForTimer (s : Sender β) (segment : Nat) : Bool :=
  match s.retries.get segment with
  | some retry => retry.timer
  | none => false

/-- The first loop of `nextSegment`. -/
def demanded (s : Sender β) : Option Nat :=
  s.demands.items.find? fun n => decide (n ∉ s.flights) && !s.waitsForTimer n

def settled (s : Sender β) (segment : Nat) : Bool :=
  decide (segment ∈ s.acknowledged) || decide (segment ∈ s.flights)

/-- The last loop of `nextSegment`, with the number of segments left. -/
def skip (p : Nat → Bool) : Nat → Nat → Nat
  | 0, baseline => baseline
  | left + 1, baseline => if p baseline then skip p left (baseline + 1) else baseline

def nextSegment (s : Sender β) : Sender β × Option Nat :=
  match s.demanded with
  | some n => (s, some n)
  | none =>
    if 0 < s.retries.size then (s, none)
    else if 0 < s.demandWindow then
      let ahead := s.ahead.dropWhile s.settled
      ({ s with ahead := ahead }, ahead.items.head?)
    else
      let baseline := skip s.settled (s.totalSegments - s.baseline) s.baseline
      ({ s with baseline := baseline }, if baseline < s.totalSegments then some baseline else none)

def prepare (s : Sender β) (segment : Nat) : Sender β × Read :=
  match s.prepared with
  | some read => if read.segment = segment then (s, read) else call s segment
  | none => call s segment
where
  call (s : Sender β) (segment : Nat) : Sender β × Read :=
    let read := ⟨segment, s.reads.length⟩
    ({ s with prepared := some read, reads := s.reads ++ [⟨segment, none⟩] }, read)

/-- A rejected segment keeps its read. -/
def readFor (s : Sender β) (segment : Nat) : Sender β × Read :=
  match s.retries.get segment with
  | some retry => (s, retry.read)
  | none => s.prepare segment

def fly (s : Sender β) (segment : Nat) (read : Read) : Sender β :=
  { s with
    retries := s.retries.delete segment
    prepared := if s.prepared = some read then none else s.prepared
    flights := s.flights.set segment ⟨read, false⟩
    pumping := some (segment, read) }

def take (s : Sender β) (segment : Nat) : Sender β :=
  { s with
    demands := s.demands.delete segment
    ahead := s.ahead.delete segment
    baseline := if segment = s.baseline then s.baseline + 1 else s.baseline }

/-- `pump` from the choice of a segment until it awaits the read. -/
def launch (s : Sender β) (segment : Nat) : Sender β :=
  ((s.take segment).readFor segment).1.fly segment ((s.take segment).readFor segment).2

/-- The loop of `pump`, until it awaits a read or ends. -/
def pumpLoop (s : Sender β) : Sender β :=
  if s.inactive || s.limit ≤ s.flights.size then { s with pumping := none }
  else match s.nextSegment with
    | (s, some segment) => s.launch segment
    | (s, none) => { s with pumping := none }

def pump (s : Sender β) : Sender β :=
  let s := { s with pumped := true }
  if s.inactive || s.pumping.isSome then s else s.pumpLoop

def stop (s : Sender β) : Sender β :=
  { s with
    stopped := true
    retries := .empty
    flights := .empty
    prepared := none
    demands := .empty
    ahead := .empty }

/-- The segments behind a seek that `request` reads ahead. -/
def window (s : Sender β) (segment : Nat) : List Nat :=
  (List.range' (segment + 1) (min s.totalSegments (segment + s.demandWindow) - (segment + 1))).filter
    fun n => !s.settled n

def request (s : Sender β) (segment : Nat) : Sender β :=
  if s.inactive || s.totalSegments ≤ segment then s
  else
    pump { s with
      ahead := ((s.window segment).foldl OrderedSet.add s.ahead).trim (s.demandWindow * 2)
      demands := if segment ∈ s.flights then s.demands else s.demands.add segment
      owed := segment :: s.owed }

/-- Whether a flight has been sent. -/
def inTransit (s : Sender β) (segment : Nat) : Bool :=
  match s.flights.get segment with
  | some flight => flight.sentAt
  | none => false

def ack (s : Sender β) (segment : Nat) : Sender β :=
  if s.inactive || !s.inTransit segment then s
  else
    pump { s with
      acknowledged := s.acknowledged.add segment
      demands := s.demands.delete segment
      flights := s.flights.delete segment
      owed := s.owed.filter (· ≠ segment) }

def busy (s : Sender β) (segment : Nat) : Sender β :=
  match s.flights.get segment with
  | none => s
  | some flight =>
    if s.inactive || !flight.sentAt then s
    else
      pump { s with
        flights := s.flights.delete segment
        demands := s.demands.add segment
        retries := s.retries.set segment ⟨flight.read, true⟩ }

def sendSegment (s : Sender β) (segment : Nat) (buffer : β) (read : Read) : Sender β :=
  { s with
    flights := s.flights.modify segment fun flight => { flight with sentAt := true }
    sent := s.sent ++ [⟨segment, buffer, read.result⟩] }

/-- What `pump` does after a send: it prepares the next segment but does not take it. -/
def readAhead (s : Sender β) : Sender β :=
  match s.nextSegment with
  | (s, some segment) => (s.prepare segment).1
  | (s, none) => s

/-- `pump` after its read: the send, the read ahead and the loop again. -/
def resume (s : Sender β) (segment : Nat) (read : Read) (thrown : Bool) :
    Except Unit β → Sender β
  | .error _ => { if s.inactive then s else s.stop with pumping := none }
  | .ok buffer =>
    if s.inactive then { s with pumping := none }
    else if thrown then { s.stop with pumping := none }
    else
      pumpLoop (s.sendSegment segment buffer read).readAhead

end Sender

def turn (s : Sender β) : Event β → Option (Sender β)
  | .pump => some s.pump
  | .request segment => some (if segment < 0 then s else s.request segment.toNat)
  | .ack segment => some (s.ack segment)
  | .busy segment => some (s.busy segment)
  | .timer segment =>
    if s.waitsForTimer segment then
      some ({ s with retries := s.retries.modify segment fun r => { r with timer := false } }.pump)
    else none
  | .readDone read result =>
    match s.reads[read]? with
    | some ⟨segment, none⟩ => some { s with reads := s.reads.set read { segment, result := some result } }
    | _ => none
  | .resume thrown =>
    s.pumping.bind fun p => (s.reads[p.2.result]?.bind Call.result).map (s.resume p.1 p.2 thrown)
  | .stop => some s.stop
  | .halt => some { s with shouldStop := true }
  | .acknowledge segment => some { s with acknowledged := s.acknowledged.add segment }

/-- The sender after a sequence of events, where each of them can happen in its turn. -/
def run (s : Sender β) (es : List (Event β)) : Option (Sender β) := es.foldlM turn s

end PkgManager.SegmentSender
