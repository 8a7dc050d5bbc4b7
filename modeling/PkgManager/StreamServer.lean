import PkgManager.ConditionVariable
import PkgManager.Installer
import PkgManager.Interleaving

namespace PkgManager.StreamServer

open ConditionVariable Interleaving Installer

/-- `g_ss`, the port its sockets bind, and the listeners `pthread_join` returns for.
Virtual streams are numbered in the order they are opened; `closed` is history. -/
structure Server where
  listenFd : Bool
  running : Bool
  threadCreated : Bool
  thread : Nat
  vs : Option Nat
  vsRefs : Nat
  stopping : Bool
  vsCond : Cond
  totalSize : Nat
  iconData : Option (List UInt8)
  iconName : Path
  sessionName : Path
  port : Bool
  listeners : Nat
  exited : List Nat
  opened : Nat
  closed : List Nat

def Server.init : Server :=
  ⟨false, false, false, 0, none, 0, false, .init, 0, none, [], [], false, 0, [], 0, []⟩

/-- Where `stream_server_session_stop_internal` stands after its first section. -/
inductive StopPc where
  | close (lfd join : Bool)
  | join
  | joining (thread : Nat)
  | drain
  | waiting (ticket : Nat)

/-- Where `stream_server_session_start_ex` stands; from `bind` on it holds a virtual
stream of its own. -/
inductive StartPc where
  | check
  | stop
  | opening
  | bind (vs size : Nat)
  | publish (vs size : Nat)

/-- `began` is history: the stream that was current in the first section of the stop.
`resume` is the name of the session whose start called it. -/
inductive Thread where
  | idle
  | returned (n : Int)
  | stop (began : Option Nat) (pc : StopPc) (resume : Option Path)
  | start (name : Path) (pc : StartPc)
  | server (listener : Option Nat) (pin : Option Nat)
  | gone

inductive Event where
  | stop
  | start (path name : Path)
  | setIcon (data : List UInt8) (name : Path) (allocOk : Bool)
  | setName (name : Path)
  | go
  | opened (size : Option Nat)
  | bound (ok : Bool)
  | publish (created : Bool)
  | spurious
  | accept
  | acquire
  | release (wake : Nat)
  | leave

/-- What follows the last slash, as far as a buffer of 128 bytes holds it. -/
def baseName (path : Path) : Path := ((path.reverse.takeWhile (· ≠ 47)).reverse).take 127

/-- The first section of a stop. -/
def beginStop (s : Server) (resume : Option Path) : Server × Thread :=
  let busy := s.running || s.threadCreated
  ({ s with
    running := if busy then false else s.running
    stopping := if busy then true else s.stopping
    threadCreated := if busy then false else s.threadCreated
    listenFd := false },
    .stop s.vs (.close s.listenFd (busy && s.threadCreated)) resume)

/-- The last section of a stop, once no request is in flight. -/
def teardown (s : Server) : Server :=
  { s with
    closed := s.vs.toList ++ s.closed
    vs := none
    iconData := none
    iconName := []
    stopping := false
    totalSize := 0
    sessionName := [] }

/-- The loop around `pthread_cond_wait`, entered or woken. -/
def drain (s : Server) (began : Option Nat) (resume : Option Path) : Server × Thread :=
  if 0 < s.vsRefs then
    ({ s with vsCond := s.vsCond.wait }, .stop began (.waiting s.vsCond.next) resume)
  else
    (teardown s, match resume with
      | some name => .start name .opening
      | none => .returned 0)

def stopTurn (s : Server) (began : Option Nat) (resume : Option Path) :
    StopPc → Event → Option (Server × Thread)
  | .close lfd join, .go =>
    some ({ s with port := if lfd then false else s.port },
      .stop began (if join then .join else .drain) resume)
  | .join, .go => some (s, .stop began (.joining s.thread) resume)
  | .joining thread, .go =>
    if s.exited.contains thread then some (s, .stop began .drain resume) else none
  | .drain, .go => some (drain s began resume)
  | .waiting ticket, .go =>
    if s.vsCond.blocked.contains ticket then none else some (drain s began resume)
  | .waiting ticket, .spurious =>
    (s.vsCond.spurious ticket).map fun c =>
      ({ s with vsCond := c }, .stop began (.waiting ticket) resume)
  | _, _ => none

/-- The section that makes a session current, with the listener it creates. -/
def publishSession (s : Server) (name : Path) (vs size : Nat) (created : Bool) :
    Server × Thread × List Thread :=
  if created then
    ({ s with
      vs := some vs
      vsRefs := 0
      stopping := false
      totalSize := size
      listenFd := true
      running := true
      iconData := none
      iconName := []
      sessionName := baseName name
      thread := s.listeners
      listeners := s.listeners + 1
      threadCreated := true }, .returned 0, [.server (some s.listeners) none])
  else
    ({ s with
      vs := none
      vsRefs := 0
      stopping := false
      totalSize := 0
      listenFd := false
      running := false
      iconData := none
      iconName := []
      sessionName := []
      port := false
      closed := vs :: s.closed }, .returned (-1), [])

def startTurn (s : Server) (name : Path) : StartPc → Event → Option (Server × Thread × List Thread)
  | .check, .go => some (s, .start name (if s.running then .stop else .opening), [])
  | .stop, .go => some ((beginStop s (some name)).1, (beginStop s (some name)).2, [])
  | .opening, .opened size =>
    match size with
    | some size => some ({ s with opened := s.opened + 1 }, .start name (.bind s.opened size), [])
    | none => some (s, .returned (-1), [])
  | .bind vs size, .bound ok =>
    if ok then
      if s.port then none else some ({ s with port := true }, .start name (.publish vs size), [])
    else some ({ s with closed := vs :: s.closed }, .returned (-1), [])
  | .publish vs size, .publish created => some (publishSession s name vs size created)
  | _, _ => none

/-- `stream_vs_acquire`. -/
def streamVsAcquire (s : Server) : Server × Option Nat :=
  if s.running then
    match s.vs with
    | some vs => ({ s with vsRefs := s.vsRefs + 1 }, some vs)
    | none => (s, none)
  else (s, none)

/-- `stream_vs_release`; `wake` is the waiter its signal reaches. -/
def streamVsRelease (s : Server) (wake : Nat) : Option Server :=
  let s := { s with vsRefs := s.vsRefs - 1 }
  if s.stopping ∧ s.vsRefs = 0 then (s.vsCond.signal wake).map fun c => { s with vsCond := c }
  else some s

/-- A connection, or the listener itself, between and in its requests. -/
def serverTurn (s : Server) (listener pin : Option Nat) :
    Event → Option (Server × Thread × List Thread)
  | .accept =>
    if listener.isSome ∧ pin = none then some (s, .server listener pin, [.server none none]) else none
  | .acquire =>
    if pin = none then some ((streamVsAcquire s).1, .server listener (streamVsAcquire s).2, []) else none
  | .release wake =>
    if pin = none then none else (streamVsRelease s wake).map fun s' => (s', .server listener none, [])
  | .leave =>
    match pin, listener with
    | none, none => some (s, .gone, [])
    | none, some id => if s.running then none else some ({ s with exited := id :: s.exited }, .gone, [])
    | some _, _ => none
  | _ => none

def setIcon (s : Server) (data : List UInt8) (name : Path) (allocOk : Bool) : Server :=
  if data ≠ [] ∧ name ≠ [] ∧ allocOk then
    { s with iconData := some data, iconName := baseName name }
  else { s with iconData := none, iconName := [] }

/-- A thread that is in no call starts one. -/
def begin (s : Server) : Event → Option (Server × Thread × List Thread)
  | .stop => some ((beginStop s none).1, (beginStop s none).2, [])
  | .start path name => some (s, if path = [] then .returned (-1) else .start name .check, [])
  | .setIcon data name allocOk => some (setIcon s data name allocOk, .returned 0, [])
  | .setName name => some ({ s with sessionName := baseName name }, .returned 0, [])
  | _ => none

def turn (s : Server) (t : Thread) (e : Event) : Option (Server × Thread × List Thread) :=
  match t with
  | .idle => begin s e
  | .returned _ => begin s e
  | .stop began pc resume => (stopTurn s began resume pc e).map fun r => (r.1, r.2, [])
  | .start name pc => startTurn s name pc e
  | .server listener pin => serverTurn s listener pin e
  | .gone => none

/-- The step makes a session current, or fails at its last act. -/
def publishes (t : Thread) (e : Event) : Bool :=
  match t, e with
  | .start _ (.publish _ _), .publish _ => true
  | _, _ => false

/-- The stream server under any number of threads. -/
def streams : Machine Server Thread Event where
  act e s t := turn s t e

def start (n : Nat) : Pool Server Thread := ⟨.init, List.replicate n .idle⟩

/-! Events of the runs below. -/

/-- Thread `i` starts a session. -/
def startEvents (i : Nat) : List (Nat × Event) :=
  [(i, .start [47] [97]), (i, .go), (i, .opened (some 1)), (i, .bound true), (i, .publish true)]

/-- Of two threads, the first starts a session; its listener, thread 2, accepts a
connection, thread 3, which pins the stream. -/
def pinEvents : List (Nat × Event) := startEvents 0 ++ [(2, .accept), (3, .acquire)]

/-- Thread 0 stops the session up to its last section. -/
def stopEvents : List (Nat × Event) := [(0, .stop), (0, .go), (0, .go), (2, .leave), (0, .go)]

end PkgManager.StreamServer
