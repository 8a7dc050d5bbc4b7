import PkgManager.Memory

namespace PkgManager.Installer

abbrev Path := List UInt8

/-- The texts `status_str` takes. -/
inductive StatusStr where
  | none
  | idle
  | transferring
  | installing
  | waitingDisc
  | error
  | canceled
  | background
  | playable
deriving DecidableEq

/-- `installer_status_t`, as far as the installer itself reads it. -/
structure Status where
  isInstalling : Bool
  pkgPath : Path
  statusStr : StatusStr
  errorCode : Int
  completed : Bool
  failed : Bool
  isMultipart : Bool
  waitingForDisc : Bool
  isDirectStorage : Bool
deriving DecidableEq

def Status.zero : Status := ⟨false, [], .none, 0, false, false, false, false, false⟩

/-- History of the installs. No function reads it: installs a user asked for are
numbered from 1, a queued update has the number of its base. -/
structure Record where
  /-- Installs the user asked for so far. -/
  batches : Nat
  /-- The one that committed last. -/
  batch : Nat
  /-- The one whose update is in the pending path. -/
  pendingBatch : Nat
  /-- Those that were canceled, and those that were detached. -/
  canceled : List Nat
  detached : List Nat
  /-- A cancel succeeded and no install of the user, or no install at all, has
  committed since. -/
  canceledSinceUser : Bool
  canceledSinceStart : Bool

/-- The globals of `installer.c`. A worker thread is known by its number;
`spawned` counts them and `exited` holds those `pthread_join` returns for. -/
structure Globals where
  status : Status
  monitorRunning : Bool
  cancelStream : Bool
  detachDirectStorage : Bool
  batchUpdatePending : Bool
  pendingPkgPath : Path
  streamThread : Nat
  streamThreadCreated : Bool
  spawned : Nat
  exited : List Nat
  record : Record

/-- The state `installer_init` leaves. -/
def installerInit : Globals where
  status := { Status.zero with statusStr := .idle }
  monitorRunning := true
  cancelStream := false
  detachDirectStorage := false
  batchUpdatePending := false
  pendingPkgPath := []
  streamThread := 0
  streamThreadCreated := false
  spawned := 0
  exited := []
  record := ⟨0, 0, 0, [], [], false, false⟩

/-- `INSTALLER_HANDOFF_DISCARDED`. -/
def handoffDiscarded : Int := -1000

/-- `is_usb_or_disc_path`; `prefixes` are those of the environment. -/
def isUsbOrDiscPath (prefixes : List Path) (path : Path) : Bool :=
  if path = [] then false
  else if [115, 109, 98, 58, 47, 47].isPrefixOf path then false
  else if [108, 105, 118, 101, 58].isPrefixOf path then false
  else if prefixes.any fun p => p ≠ [] && p.isPrefixOf path then true
  else if [47, 109, 110, 116, 47, 117, 115, 98].isPrefixOf path then true
  else [47, 109, 110, 116, 47, 100, 105, 115, 99].isPrefixOf path

/-- `install_request_canceled`. -/
def requestCanceled (g : Globals) : Bool := g.cancelStream || !g.monitorRunning

/-! The critical sections of `g_installer_mutex` that set the status. -/

/-- An exit that reports an error. -/
def failWith (code : Int) (g : Globals) : Globals :=
  { g with status := { g.status with
      isInstalling := false, failed := true, errorCode := code, statusStr := .error } }

def clearPending (g : Globals) : Globals := { g with pendingPkgPath := [] }

def failAndClear (code : Int) (g : Globals) : Globals := clearPending (failWith code g)

/-- The exit after the helper was lost: cancel and shutdown own the status. -/
def failUnlessCanceled (code : Int) (g : Globals) : Globals :=
  if requestCanceled g then g else failWith code g

/-- What the status shows while it keeps the flags of the install. -/
def display (str : StatusStr) (direct waiting : Bool) (g : Globals) : Globals :=
  { g with status := { g.status with
      statusStr := str, isDirectStorage := direct, waitingForDisc := waiting } }

def showDirect (g : Globals) : Globals := display .installing true g.status.waitingForDisc g

def showFinishing (g : Globals) : Globals :=
  display .installing g.status.isDirectStorage g.status.waitingForDisc g

def showWaiting (g : Globals) : Globals := display .waitingDisc g.status.isDirectStorage true g

def showPartFound (g : Globals) : Globals := display .transferring g.status.isDirectStorage false g

/-- Before the helper is launched, unless the install was canceled. -/
def showLaunch (filesystem : Bool) (g : Globals) : Globals :=
  if filesystem then display .installing true false g else display .transferring false false g

def hasPending (g : Globals) : Bool :=
  g.pendingPkgPath ≠ [] && !g.cancelStream && !g.detachDirectStorage && g.monitorRunning

/-- The verified completion of a package. -/
def complete (g : Globals) : Globals :=
  if hasPending g then
    { g with status := { g.status with
        isInstalling := true, completed := false, statusStr := .installing } }
  else
    { g with status := { g.status with
        isInstalling := false, completed := true, statusStr := .playable } }

def keepGoing (g : Globals) : Bool :=
  g.monitorRunning && !g.cancelStream && !g.detachDirectStorage && g.status.isInstalling

/-- The capture of `next_pkg_path`. -/
def captureNext (g : Globals) : Globals × Path :=
  if g.pendingPkgPath ≠ [] ∧ g.monitorRunning ∧ !g.cancelStream ∧ !g.detachDirectStorage then
    (clearPending g, g.pendingPkgPath)
  else if g.status.failed ∨ g.cancelStream ∨ !g.monitorRunning ∨ g.detachDirectStorage then
    (clearPending g, [])
  else (g, [])

/-! `installer_start_internal`: its check, its join and its commit. -/

def startCheck (queued : Bool) (g : Globals) : Globals × Option Int :=
  if queued ∧ g.detachDirectStorage then (g, some handoffDiscarded)
  else
    let already := g.status.isInstalling
    let g' := if already then g else clearPending g
    if already ∧ !queued then (g', some (-2)) else (g', none)

/-- The worker to join; `self` is the caller if it is a worker. -/
def takeThread (self : Option Nat) (g : Globals) : Globals × Option Nat :=
  if g.streamThreadCreated then
    ({ g with streamThreadCreated := false },
      if self = some g.streamThread then none else some g.streamThread)
  else (g, none)

/-- What a start found out about its package outside the lock. -/
structure Detail where
  isMultipart : Bool
  prefixes : List Path
  networkConnected : Bool

/-- `g_status` of an install that has just committed. -/
def committed (path : Path) (isMultipart offlineDirect : Bool) : Status :=
  { Status.zero with
    isInstalling := true
    isMultipart := isMultipart
    pkgPath := path
    isDirectStorage := offlineDirect
    statusStr := if offlineDirect then .installing else .transferring }

def Record.userCommit (r : Record) (pending : Bool) : Record :=
  { r with
    batches := r.batches + 1
    batch := r.batches + 1
    pendingBatch := if pending then r.batches + 1 else r.pendingBatch
    canceledSinceUser := false
    canceledSinceStart := false }

def Record.queuedCommit (r : Record) (batch : Nat) : Record :=
  { r with batch := batch, canceledSinceStart := false }

/-- `pthread_create` of the worker at the end of a commit. -/
def launch (created : Bool) (g : Globals) : Globals × Int :=
  if created then
    ({ g with streamThread := g.spawned, streamThreadCreated := true, spawned := g.spawned + 1 }, 0)
  else ({ g with status := { g.status with isInstalling := false, failed := true } }, -12)

/-- The commit; a queued update brings the number of its base along. -/
def startCommit (queued : Option Nat) (path pending : Path) (d : Detail) (created : Bool)
    (g : Globals) : Globals × Int :=
  if queued.isSome ∧ g.detachDirectStorage then (g, handoffDiscarded)
  else if g.status.isInstalling ∧ queued.isNone then (g, -2)
  else
    let offlineDirect := isUsbOrDiscPath d.prefixes path && !d.isMultipart && !d.networkConnected
    launch created { g with
      detachDirectStorage := false
      batchUpdatePending := pending ≠ []
      status := committed path d.isMultipart offlineDirect
      pendingPkgPath := pending
      cancelStream := false
      record := match queued with
        | some batch => g.record.queuedCommit batch
        | none => g.record.userCommit (pending ≠ []) }

/-- The commit of `installer_start_live`, which leaves the pending path alone. -/
def liveCommit (path : Path) (created : Bool) (g : Globals) : Globals × Int :=
  if g.status.isInstalling then (g, -2)
  else
    launch created { g with
      detachDirectStorage := false
      batchUpdatePending := false
      status := committed path false false
      cancelStream := false
      record := g.record.userCommit false }

/-- `installer_cancel`, up to the release of the stream. -/
def installerCancel (g : Globals) : Globals × Int :=
  if !g.status.isInstalling then (g, -1)
  else if g.status.isDirectStorage then (g, -2)
  else
    ({ g with
      cancelStream := true
      pendingPkgPath := []
      status := { g.status with isInstalling := false, failed := true, statusStr := .canceled }
      record := { g.record with
        canceled := g.record.batch :: g.record.canceled
        canceledSinceUser := true
        canceledSinceStart := true } }, 0)

/-- `installer_detach_direct_storage`, with `out_update_skipped`. -/
def installerDetachDirectStorage (g : Globals) : Globals × Int × Bool :=
  if !g.status.isInstalling then (g, -1, false)
  else if !g.status.isDirectStorage then (g, -2, false)
  else
    ({ g with
      detachDirectStorage := true
      batchUpdatePending := false
      pendingPkgPath := []
      status := { g.status with
        isInstalling := false, completed := false, failed := false, waitingForDisc := false
        errorCode := 0, statusStr := .background }
      record := { g.record with detached := g.record.batch :: g.record.detached } },
      0, g.batchUpdatePending)

/-! The flags `installer_shutdown` sets without the lock. -/

def raiseCancel (g : Globals) : Globals := { g with cancelStream := true }

def stopMonitor (g : Globals) : Globals := { g with monitorRunning := false }

end PkgManager.Installer
