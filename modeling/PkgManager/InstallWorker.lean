import PkgManager.Installer
import PkgManager.LiveCalls

namespace PkgManager.InstallWorker

open LiveSession LiveCalls Installer

/-- What installs work on: the globals of the installer, the live session and
the path the stream server serves. -/
structure Site where
  inst : Globals
  live : Live
  served : Option Path

def Site.update (s : Site) (f : Globals → Globals) : Site := { s with inst := f s.inst }

/-- The steps of a teardown: `ws_live_abort`, the stop of the stream server and
`ws_live_destroy`. -/
inductive Teardown where
  | abort
  | stop
  | destroy

/-- Where `installer_start_internal` stands. -/
inductive StartPc where
  | check
  | join
  | joining (old : Nat)
  | checking

/-- Where a worker stands: before it has tried to submit the package, in the
first submission, in the fallback to direct storage, in the monitor loop, and
behind it. -/
inductive WorkerPc where
  | entry
  | prepare
  | noSession
  | launch
  | submit
  | retry (ret : Int)
  | submitted (ret : Int)
  | checkCancel (ret : Int)
  | canceledStart
  | started (ret : Int)
  | startFailed (ret : Int)
  | fallback
  | fallbackSubmit
  | fallbackSubmitted (ret : Int)
  | monitor
  | poll
  | lost (code : Int)
  | systemError (code : Int)
  | pollFallback
  | pollFallbackSubmit
  | pollFallbackFailed (code : Int)
  | reported
  | polled
  | extracting
  | delivered
  | complete
  | timedOut
  | handoff
  | release (t : Teardown)
  | starting (pc : StartPc)
  | nextFailed (code : Int)
  | leave (t : Teardown)
  | exited

/-- `stream_installer_worker`. The last fields are its history: the install it
works for and whether it is a queued update, whether that install was already
canceled or detached when the worker was created, whether it reached its
verified completion and whether it reported an error. -/
structure Worker where
  id : Nat
  pc : WorkerPc
  pkgPath : Path
  isMultipart : Bool
  filesystem : Bool
  fallback : Bool
  streamDone : Bool
  next : Path
  batch : Nat
  queued : Bool
  afterCancel : Bool
  afterDetach : Bool
  verified : Bool
  failed : Bool
  nextBatch : Nat

def Worker.at (w : Worker) (pc : WorkerPc) : Worker := { w with pc := pc }

/-- The worker a commit on `g` creates. -/
def newWorker (g : Globals) (batch : Nat) (queued : Bool) : Worker where
  id := g.spawned
  pc := .entry
  pkgPath := []
  isMultipart := false
  filesystem := false
  fallback := false
  streamDone := false
  next := []
  batch := batch
  queued := queued
  afterCancel := g.record.canceled.contains batch
  afterDetach := g.record.detached.contains batch
  verified := false
  failed := false
  nextBatch := 0

/-- What a worker meets on its way: the environment, the helper process and the
clock decide between the events its place allows. -/
inductive WorkerEvent where
  /-- Run the section, or take the unlocked step, the worker stands at. -/
  | go
  | enter (prefixes : List Path) (networkConnected : Bool)
  | badHeader (code : Int)
  | session (ok : Bool)
  | helper (ret : Int)
  | again (ret : Int)
  | pollCanceled
  | pollLost (code : Int)
  | pollError (code : Int)
  | pollOk
  | streamDone
  | verified
  | timeout
  | quiet
  | join
  | refused (code : Int)
  | commit (d : Detail) (created : Bool)

/-- 0x80B21121, the error of a console without network. -/
def netNotConnected : Int := -2135813855

/-- A step of the teardown and what follows it. -/
def teardown (filesystem : Bool) (s : Site) : Teardown → Site × Option Teardown
  | .abort => ({ s with live := wsLiveAbort s.live }, some .stop)
  | .stop => (if filesystem then s else { s with served := none }, some .destroy)
  | .destroy => ({ s with live := wsLiveDestroy s.live }, none)

/-- A worker at its end can be joined. -/
def exitWorker (s : Site) (w : Worker) : Site × Worker :=
  (s.update fun g => { g with exited := w.id :: g.exited }, w.at .exited)

/-- One event of a worker, with the workers it creates. -/
def workerTurn (s : Site) (w : Worker) : WorkerEvent → Option (Site × Worker × List Worker)
  | .enter prefixes connected =>
    match w.pc with
    | .entry =>
      let path := s.inst.status.pkgPath
      let multi := s.inst.status.isMultipart
      let can := isUsbOrDiscPath prefixes path && !multi
      some (s, { w with
        pc := .prepare, pkgPath := path, isMultipart := multi
        filesystem := can && !connected, fallback := can && connected }, [])
    | _ => none
  | .badHeader code =>
    -- the header of part 1 cannot be read (-20) or counts too many parts (-25)
    match w.pc with
    | .prepare =>
      if w.isMultipart ∧ (code = -20 ∨ code = -25) then
        let r := exitWorker (s.update (failAndClear code)) { w with failed := true }
        some (r.1, r.2, [])
      else none
    | _ => none
  | .session ok =>
    match w.pc with
    | .prepare =>
      if w.filesystem then some (s, w.at .launch, [])
      else if ok then some ({ s with served := some w.pkgPath }, w.at .launch, [])
      else some ({ s with served := none }, w.at .noSession, [])
    | .retry ret =>
      if w.filesystem then some (s, w.at .submit, [])
      else if ok then some ({ s with served := some w.pkgPath }, w.at .submit, [])
      else some ({ s with served := none }, w.at (.submitted ret), [])
    | _ => none
  | .helper ret =>
    match w.pc with
    | .submit => some (s, w.at (.submitted ret), [])
    | .fallbackSubmit => some (s, w.at (.fallbackSubmitted ret), [])
    | .pollFallbackSubmit =>
      some (s, w.at (if ret = 0 then .monitor else .pollFallbackFailed ret), [])
    | _ => none
  | .again ret =>
    -- a transient error of the helper: stop the stream and try again
    match w.pc with
    | .submit => some (if w.filesystem then s else { s with served := none }, w.at (.retry ret), [])
    | _ => none
  | .pollCanceled =>
    match w.pc with
    | .poll => if requestCanceled s.inst then some (s, w.at .handoff, []) else none
    | _ => none
  | .pollLost code =>
    match w.pc with
    | .poll => some (s, w.at (.lost code), [])
    | _ => none
  | .pollError code =>
    match w.pc with
    | .poll =>
      if w.filesystem = false ∧ w.fallback ∧ code = netNotConnected then
        some ({ s with served := none },
          { w with pc := .pollFallback, filesystem := true, fallback := false }, [])
      else some (s, w.at (.systemError code), [])
    | _ => none
  | .pollOk =>
    match w.pc with
    | .poll => some (s, w.at .reported, [])
    | _ => none
  | .streamDone =>
    match w.pc with
    | .reported =>
      if w.filesystem ∨ w.streamDone then none
      else some (s.update showFinishing, { w with streamDone := true }, [])
    | .delivered =>
      if w.streamDone then none
      else some (s.update showFinishing, { w with streamDone := true }, [])
    | _ => none
  | .verified =>
    match w.pc with
    | .reported => if !w.filesystem ∧ w.streamDone then some (s, w.at .complete, []) else none
    | .extracting => some (s, w.at .complete, [])
    | .delivered => if w.streamDone then some (s, w.at .complete, []) else none
    | _ => none
  | .timeout =>
    match w.pc with
    | .extracting => some (s, w.at .timedOut, [])
    | .delivered => if w.streamDone then some (s, w.at .timedOut, []) else none
    | _ => none
  | .quiet =>
    match w.pc with
    | .poll => some (s, w.at .polled, [])
    | .reported => some (s, w.at .polled, [])
    | .extracting => some (s, w.at .monitor, [])
    | .delivered => some (s, w.at .monitor, [])
    | _ => none
  | .join =>
    match w.pc with
    | .starting (.joining old) =>
      if s.inst.exited.contains old then some (s, w.at (.starting .checking), []) else none
    | _ => none
  | .refused code =>
    match w.pc with
    | .starting .checking => if code ≠ 0 then some (s, w.at (.nextFailed code), []) else none
    | _ => none
  | .commit d created =>
    match w.pc with
    | .starting .checking =>
      let c := startCommit (some w.nextBatch) w.next [] d created s.inst
      if c.2 = handoffDiscarded then some ((exitWorker s w).1, (exitWorker s w).2, [])
      else if c.2 = 0 then
        let r := exitWorker { s with inst := c.1 } w
        some (r.1, r.2, [newWorker s.inst w.nextBatch true])
      else some ({ s with inst := c.1 }, w.at (.nextFailed c.2), [])
    | _ => none
  | .go =>
    match w.pc with
    | .noSession =>
      let r := exitWorker (s.update (failAndClear (-23))) { w with failed := true }
      some (r.1, r.2, [])
    | .launch =>
      if requestCanceled s.inst then some (s.update clearPending, w.at (.leave .abort), [])
      else some (s.update (showLaunch w.filesystem), w.at .submit, [])
    | .submitted ret =>
      if s.inst.detachDirectStorage then some (s, w.at (.leave .abort), [])
      else some (s, w.at (.checkCancel ret), [])
    | .checkCancel ret =>
      some (s, w.at (if requestCanceled s.inst then .canceledStart else .started ret), [])
    | .canceledStart => some (s.update clearPending, w.at (.leave .abort), [])
    | .started ret =>
      if ret = netNotConnected ∧ w.fallback ∧ requestCanceled s.inst = false then
        some ({ s with served := none },
          { w with pc := .fallback, filesystem := true, fallback := false }, [])
      else some (s, w.at (if ret = 0 then .monitor else .startFailed ret), [])
    | .startFailed ret =>
      some (s.update (failAndClear ret), { w with pc := .leave .abort, failed := true }, [])
    | .fallback => some (s.update showDirect, w.at .fallbackSubmit, [])
    | .fallbackSubmitted ret =>
      if s.inst.detachDirectStorage then some (s, w.at (.leave .abort), [])
      else some (s, w.at (if ret = 0 then .monitor else .startFailed ret), [])
    | .monitor => some (s, w.at (if keepGoing s.inst then .poll else .handoff), [])
    | .lost code =>
      some (s.update (failUnlessCanceled code),
        { w with pc := .handoff, failed := w.failed || !requestCanceled s.inst }, [])
    | .systemError code =>
      some (s.update (failWith (if code = 0 then -1 else code)),
        { w with pc := .handoff, failed := true }, [])
    | .pollFallback => some (s.update showDirect, w.at .pollFallbackSubmit, [])
    | .pollFallbackFailed code =>
      some (s.update (failWith code), { w with pc := .handoff, failed := true }, [])
    | .polled =>
      if w.filesystem then some (s.update showDirect, w.at .extracting, [])
      else some (s, w.at .delivered, [])
    | .complete =>
      if s.inst.detachDirectStorage then some (s, w.at .handoff, [])
      else some (s.update Installer.complete, { w with pc := .handoff, verified := true }, [])
    | .timedOut =>
      some (s.update (failWith (-24)), { w with pc := .handoff, failed := true }, [])
    | .handoff =>
      some (s.update fun g => (captureNext g).1,
        { w with
          pc := .release .abort, next := (captureNext s.inst).2
          nextBatch := s.inst.record.pendingBatch }, [])
    | .release t =>
      match teardown w.filesystem s t with
      | (s', some t') => some (s', w.at (.release t'), [])
      | (s', none) =>
        if w.next = [] then some ((exitWorker s' w).1, (exitWorker s' w).2, [])
        else some (s', w.at (.starting .check), [])
    | .leave t =>
      match teardown w.filesystem s t with
      | (s', some t') => some (s', w.at (.leave t'), [])
      | (s', none) => some ((exitWorker s' w).1, (exitWorker s' w).2, [])
    | .starting .check =>
      match startCheck true s.inst with
      | (_, some _) => some ((exitWorker s w).1, (exitWorker s w).2, [])
      | (g, none) => some ({ s with inst := g }, w.at (.starting .join), [])
    | .starting .join =>
      match takeThread (some w.id) s.inst with
      | (g, some old) => some ({ s with inst := g }, w.at (.starting (.joining old)), [])
      | (g, none) => some ({ s with inst := g }, w.at (.starting .checking), [])
    | .nextFailed code =>
      let r := exitWorker (s.update (failWith code)) w
      some (r.1, r.2, [])
    | _ => none

end PkgManager.InstallWorker
