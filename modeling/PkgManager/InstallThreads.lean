import PkgManager.InstallWorker
import PkgManager.Interleaving

namespace PkgManager.InstallThreads

open Interleaving Installer InstallWorker

/-- An install a user asks for: a package, the update to queue behind it, and
whether it comes from a live session. -/
structure StartCall where
  pkgPath : Path
  pendingPath : Path
  fromLive : Bool

/-- Where `installer_shutdown` stands, after it has raised the cancel flag. -/
inductive ShutdownPc where
  | monitor
  | clear
  | abort
  | look
  | join (old : Nat)
  | stop

inductive Thread where
  | idle
  | returned (n : Int)
  | starting (c : StartCall) (pc : StartPc)
  | canceling (t : Teardown)
  | shutting (pc : ShutdownPc)
  | waitingForPart
  | worker (w : Worker)

/-- The events of a thread that is not a worker. `go` runs the section it stands
at; the part waiter leaves when the part is found, when it sees that the install
is over, or after an hour. -/
inductive CallEvent where
  | start (path : Path)
  | startBatch (base update : Path)
  | startLive (uri : Path)
  | cancel
  | detach
  | shutdown
  | waitForPart
  | go
  | refused (code : Int)
  | commit (d : Detail) (created : Bool)
  | found
  | over
  | expired

inductive Event where
  | call (e : CallEvent)
  | work (e : WorkerEvent)

def beginCancel (s : Site) : Site × Thread :=
  let r := installerCancel s.inst
  ({ s with inst := r.1 }, if r.2 = 0 then .canceling .abort else .returned r.2)

/-- The commit of a start, with the worker it creates. -/
def commitStart (s : Site) (c : StartCall) (d : Detail) (created : Bool) :
    Site × Thread × List Thread :=
  let r := if c.fromLive then liveCommit c.pkgPath created s.inst
    else startCommit none c.pkgPath c.pendingPath d created s.inst
  ({ s with inst := r.1 }, .returned r.2,
    if r.2 = 0 then [.worker (newWorker s.inst r.1.record.batch false)] else [])

/-- A thread that is in no call starts one: `installer_start`,
`installer_start_batch`, `installer_start_live` and the others. -/
def begin (s : Site) : CallEvent → Option (Site × Thread × List Thread)
  | .start path =>
    some (s, if path = [] then .returned (-1) else .starting ⟨path, [], false⟩ .check, [])
  | .startBatch base update =>
    some (s, if base = [] ∨ update = [] then .returned (-1) else .starting ⟨base, update, false⟩ .check,
      [])
  | .startLive uri =>
    some (s, if [108, 105, 118, 101, 58].isPrefixOf uri ∧ LiveSession.wsLiveCheckId s.live (uri.drop 5)
      then .starting ⟨uri, [], true⟩ .check else .returned (-1), [])
  | .cancel => some ((beginCancel s).1, (beginCancel s).2, [])
  | .detach =>
    some ({ s with inst := (installerDetachDirectStorage s.inst).1 },
      .returned (installerDetachDirectStorage s.inst).2.1, [])
  | .shutdown => some (s.update raiseCancel, .shutting .monitor, [])
  | .waitForPart => some (s.update showWaiting, .waitingForPart, [])
  | _ => none

def startTurn (s : Site) (c : StartCall) : StartPc → CallEvent → Option (Site × Thread × List Thread)
  | .check, .go =>
    if c.fromLive then
      some (s, if s.inst.status.isInstalling then .returned (-2) else .starting c .join, [])
    else
      match startCheck false s.inst with
      | (g, some r) => some ({ s with inst := g }, .returned r, [])
      | (g, none) => some ({ s with inst := g }, .starting c .join, [])
  | .join, .go =>
    match takeThread none s.inst with
    | (g, some old) => some ({ s with inst := g }, .starting c (.joining old), [])
    | (g, none) => some ({ s with inst := g }, .starting c .checking, [])
  | .joining old, .go =>
    if s.inst.exited.contains old then some (s, .starting c .checking, []) else none
  | .checking, .refused code => if code ≠ 0 then some (s, .returned code, []) else none
  | .checking, .commit d created => some (commitStart s c d created)
  | _, _ => none

def shutdownTurn (s : Site) : ShutdownPc → Option (Site × Thread × List Thread)
  | .monitor => some (s.update stopMonitor, .shutting .clear, [])
  | .clear => some (s.update clearPending, .shutting .abort, [])
  | .abort => some ({ s with live := LiveCalls.wsLiveAbort s.live }, .shutting .look, [])
  | .look =>
    some (s, .shutting (if s.inst.streamThreadCreated then .join s.inst.streamThread else .stop), [])
  | .join old =>
    if s.inst.exited.contains old then
      some (s.update fun g => { g with streamThreadCreated := false }, .shutting .stop, [])
    else none
  | .stop => some ({ s with served := none }, .returned 0, [])

/-- The loop of `installer_wait_for_part`. -/
def waiterTurn (s : Site) : CallEvent → Option (Site × Thread × List Thread)
  | .found => some (s.update showPartFound, .returned 0, [])
  | .over =>
    if requestCanceled s.inst ∨ !s.inst.status.isInstalling then some (s, .returned (-1), []) else none
  | .expired => some (s.update (failWith (-22)), .returned (-22), [])
  | _ => none

def callTurn (s : Site) (t : Thread) (e : CallEvent) : Option (Site × Thread × List Thread) :=
  match t with
  | .idle => begin s e
  | .returned _ => begin s e
  | .starting c pc => startTurn s c pc e
  | .canceling pc =>
    match e with
    | .go =>
      match teardown false s pc with
      | (s', some pc') => some (s', .canceling pc', [])
      | (s', none) => some (s', .returned 0, [])
    | _ => none
  | .shutting pc =>
    match e with
    | .go => shutdownTurn s pc
    | _ => none
  | .waitingForPart => waiterTurn s e
  | .worker _ => none

def turn (s : Site) (t : Thread) : Event → Option (Site × Thread × List Thread)
  | .call e => callTurn s t e
  | .work e =>
    match t with
    | .worker w => (workerTurn s w e).map fun r => (r.1, .worker r.2.1, r.2.2.map .worker)
    | _ => none

/-- The installer under any number of threads. -/
def installs : Machine Site Thread Event where
  act e s t := turn s t e

def start (live : LiveSession.Live) (n : Nat) : Pool Site Thread :=
  ⟨⟨installerInit, live, none⟩, List.replicate n .idle⟩

/-! Events of the runs below. -/

/-- `/a.pkg`, a package that is streamed. -/
def streamedPath : Path := [47, 97, 46, 112, 107, 103]

def streamedDetail : Detail := ⟨false, [], true⟩

/-- Thread 0 starts an install; its worker is the first thread behind the others. -/
def startEvents (path : Path) : List (Nat × Event) :=
  [(0, .call (.start path)), (0, .call .go), (0, .call .go), (0, .call (.commit streamedDetail true))]

/-- The worker submits its package, and the helper reports it as installed. -/
def verifiedEvents (i : Nat) : List (Nat × Event) :=
  [(i, .work (.enter [] true)), (i, .work (.session true)), (i, .work .go), (i, .work (.helper 0)),
    (i, .work .go), (i, .work .go), (i, .work .go), (i, .work .go), (i, .work .pollOk),
    (i, .work .streamDone), (i, .work .verified)]

end PkgManager.InstallThreads
