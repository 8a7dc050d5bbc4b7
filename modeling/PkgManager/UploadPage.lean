import PkgManager.SegmentSender
import PkgManager.UploadMoves

namespace PkgManager.UploadPage

open Interleaving Memory LiveSession ControlMessages UploadServer UploadThreads UploadMoves
open InsertionOrder SegmentSender

/-- What `readSegment` reads. -/
structure Buffer where
  data : Bytes
  len : Nat

/-- The package a page uploads, over the connection that is the given thread. -/
structure Upload where
  file : Bytes
  size : Nat
  conn : Nat

/-- `NSEGS`. -/
def Upload.segments (u : Upload) : Nat := max 1 ((u.size + SEG - 1) / SEG)

/-- `file.slice` of a segment. -/
def Upload.slice (u : Upload) (segment : Nat) : Buffer :=
  ⟨fun o => u.file (segment * SEG + o), min ((segment + 1) * SEG) u.size - segment * SEG⟩

/-- `{"op":"seg","seg":…}`. -/
def segText (segment : Nat) : Text :=
  [123] ++ jsonField opKey (quoted [115, 101, 103]) ++ [44] ++
    (jsonField [115, 101, 103] (decimal segment) ++ [125])

/-- `{"op":"ping"}`. -/
def pingText : Text := [123] ++ jsonField opKey (quoted [112, 105, 110, 103]) ++ [125]

/-- `{"op":"finish"}`. -/
def finishText : Text := [123] ++ jsonField opKey (quoted [102, 105, 110, 105, 115, 104]) ++ [125]

/-- `{"op":"sender_stats",` with the statistics. -/
def statsText (stats : Text) : Text :=
  [123] ++ jsonField opKey (quoted [115, 101, 110, 100, 101, 114, 95, 115, 116, 97, 116, 115]) ++
    [44] ++ stats

/-- What the page has sent and the connection not yet received; of a segment that is
half received there is the buffer left. -/
inductive Outgoing where
  | segment (n : Nat) (buffer : Buffer)
  | buffer (buffer : Buffer)
  | text (msg : Text)

/-- What the connection has sent and the page not yet received. -/
inductive Notice where
  | reply (r : Reply)
  | seek (segment : Nat)

/-- The program and a page that uploads to it. -/
structure Page where
  pool : Pool World Thread
  sender : Sender Buffer
  done : Bool
  finished : Bool
  up : List Outgoing
  down : List Notice

/-- What the page does by itself; a read may fail. -/
inductive SenderEvent where
  | pump
  | timer (segment : Nat)
  | readDone (read : Nat) (ok : Bool)
  | resume (thrown : Bool)
  | stop

inductive Event where
  | server (i : Nat) (e : UploadThreads.Event)
  | receive
  | seek (i : Nat)
  | sender (e : SenderEvent)
  | deliver
  | ping
  | stats (stats : Text)
  | finish
  | fail

def connOf (p : Pool World Thread) (i : Nat) : Option Conn :=
  match p.threads[i]? with
  | some (.conn c) => some c
  | _ => none

/-- The replies of a step, oldest first. -/
def said (c c' : Conn) : List Reply := (c'.replies.take (c'.replies.length - c.replies.length)).reverse

def notices (u : Upload) (p q : Pool World Thread) : List Notice :=
  match connOf p u.conn, connOf q u.conn with
  | some c, some c' => (said c c').map .reply
  | _, _ => []

namespace Page

def serverTurn (u : Upload) (p : Page) (i : Nat) (e : UploadThreads.Event) : Option Page :=
  (uploads.step p.pool i e).map fun q => { p with pool := q, down := p.down ++ notices u p.pool q }

/-- The connection takes the next message of the page. -/
def receive (u : Upload) (p : Page) : Option Page :=
  match p.up with
  | [] => none
  | .segment n buffer :: rest =>
    serverTurn u { p with up := .buffer buffer :: rest } u.conn (.conn (.text (segText n)))
  | .buffer buffer :: rest =>
    serverTurn u { p with up := rest } u.conn (.conn (.binary buffer.data buffer.len))
  | .text msg :: rest => serverTurn u { p with up := rest } u.conn (.conn (.text msg))

/-- `uplink_seek`, for a reader that has left the lock to ask for a segment. -/
def seek (u : Upload) (p : Page) (i : Nat) : Option Page :=
  match p.pool.threads[i]?, connOf p.pool u.conn with
  | some (.reader (.seeking _ need)), some c =>
    some (if p.pool.shared.uplink = some c.fd then { p with down := p.down ++ [.seek need] } else p)
  | _, _ => none

/-- The page fails or ends, and drops whatever it receives from now on. -/
def fail (p : Page) : Page := { p with done := true, sender := { p.sender with shouldStop := true } }

/-- What a turn of the sender has sent goes to the connection; its errors fail the page. -/
def setSender (p : Page) (s : Sender Buffer) : Page :=
  let p := { p with
    sender := s
    up := p.up ++ (s.sent.drop p.sender.sent.length).map fun m => .segment m.segment m.buffer }
  if s.stopped then p.fail else p

def senderTurn (u : Upload) (s : Sender Buffer) : SenderEvent → Option (Sender Buffer)
  | .pump => turn s .pump
  | .timer segment => turn s (.timer segment)
  | .readDone read ok =>
    s.reads[read]?.bind fun call =>
      turn s (.readDone read (if ok then .ok (u.slice call.segment) else .error ()))
  | .resume thrown => turn s (.resume thrown)
  | .stop => turn s .stop

/-- The dispatcher of `useDirectUpload`, for a page that is not done. -/
def onMessage (p : Page) : Notice → Page
  | .reply (.ack segment) =>
    p.setSender ({ p.sender with acknowledged := p.sender.acknowledged.add segment }.ack segment)
  | .reply (.busy segment) => p.setSender (p.sender.busy segment)
  | .seek segment => p.setSender (p.sender.request segment)
  | .reply .pong => if 0 < p.sender.demandWindow then p else p.fail
  -- a refused `finish` is settled later, by the status of the install
  | .reply (.error _) => if p.finished then p else p.fail
  | .reply _ => p.fail

def deliver (p : Page) : Option Page :=
  match p.down with
  | [] => none
  | m :: rest => some (if p.done then { p with down := rest } else onMessage { p with down := rest } m)

def allAcknowledged (p : Page) : Bool := p.sender.totalSegments ≤ p.sender.acknowledged.size

def say (p : Page) (msg : Text) : Page := { p with up := p.up ++ [.text msg] }

end Page

/-- Messages are taken from the page only. -/
def takesMessage : UploadThreads.Event → Bool
  | .conn (.text _) => true
  | .conn (.binary _ _) => true
  | _ => false

def turn (u : Upload) (p : Page) : Event → Option Page
  | .server i e => if i = u.conn ∧ takesMessage e = true then none else p.serverTurn u i e
  | .receive => p.receive u
  | .seek i => p.seek u i
  | .sender e => (Page.senderTurn u p.sender e).map p.setSender
  | .deliver => p.deliver
  | .ping => some (p.say pingText)
  | .stats stats => some (p.say (statsText stats))
  | .finish =>
    if p.done || p.finished || !p.allAcknowledged then none
    else some ({ p with finished := true, sender := { p.sender with shouldStop := true } }.say finishText)
  | .fail => some p.fail

/-- What the page passes to `createSegmentSender`: a session it resumes has the
segments below the base already. -/
def options (u : Upload) (base demandWindow : Nat) (maxInFlight : Int) : Options :=
  ⟨u.segments, base, demandWindow, maxInFlight, ⟨List.range base, List.nodup_range⟩⟩

def openPage (o : Options) (p : Pool World Thread) : Page :=
  ⟨p, createSegmentSender o, false, false, [], []⟩

/-- A reader holds a reference to the session while it reads. -/
def attached (p : Pool World Thread) : Bool :=
  0 < p.shared.live.refs || p.threads.all fun t =>
    match t with
    | .reader t => !t.reading
    | _ => true

def creating (p : Pool World Thread) (i : Nat) (e : UploadThreads.Event) : Bool :=
  match p.threads[i]? with
  | some t => creates p.shared t e
  | none => false

/-- Nothing creates a session. -/
def Undisturbed (p : Page) : Event → Prop
  | .server i e => creating p.pool i e = false
  | _ => True

/-- The pages a page can become by events that satisfy the guard. -/
def Reaches (u : Upload) (G : Page → Event → Prop) : Page → Page → Prop :=
  Relation.ReflTransGen fun p q => ∃ e, G p e ∧ turn u p e = some q

end PkgManager.UploadPage
