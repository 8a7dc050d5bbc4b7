import PkgManager.ControlMessages
import PkgManager.InstallThreads
import PkgManager.LiveThreads

namespace PkgManager.UploadServer

open Memory LiveSession LiveCalls Installer InstallWorker ControlMessages

/-- The globals of `ws_upload.c`, next to what they act on. The last two are history:
the ids of all sessions, and those `ws_direct_init_owned` handed out as new, each with
its owner. -/
structure World where
  site : Site
  owner : Text
  ownerSid : Text
  ownerFilename : Text
  ownerTotal : Nat
  ownerMu : Bool
  uplink : Option Nat
  accepted : Nat
  created : List Text
  owned : List (Text × Text)

def World.live (s : World) : Live := s.site.live

def World.setLive (s : World) (live : Live) : World := { s with site := { s.site with live := live } }

/-- `ws_direct_init_session`, with the outcome as `ws_live_create` returns it. -/
def initSession (s : World) (c : CreateCall) : World × Int :=
  let r := wsDirectInitSession s.live c
  ({ s.setLive r.1 with
    created := if r.2 = 0 ∧ !s.live.active then r.1.sessionId :: s.created else s.created }, r.2)

/-- The steps of `ws_direct_cancel_session`. -/
inductive SessionEnd where
  | uplink
  | abort
  | destroy

def cancelSession (s : World) : SessionEnd → World × Option SessionEnd
  | .uplink => ({ s with uplink := none }, some .abort)
  | .abort => (s.setLive (wsLiveAbort s.live), some .destroy)
  | .destroy => (s.setLive (wsLiveDestroy s.live), none)

/-- The steps of the end of an upload: `installer_cancel` with the release of the
install it canceled, or, where it refuses, the end of the session. -/
inductive EndPc where
  | cancel
  | release (canceled : Path) (t : Teardown)
  | probe
  | session (e : SessionEnd)

/-- `onlyActive` asks for a session before it is ended. -/
def endUpload (onlyActive : Bool) (s : World) : EndPc → World × Option EndPc
  | .cancel =>
    let r := installerCancel s.site.inst
    ({ s with site := { s.site with inst := r.1 } },
      some (if r.2 = 0 then .release s.site.inst.status.pkgPath .abort
        else if onlyActive then .probe else .session .uplink))
  | .release canceled t =>
    ({ s with site := (teardown false s.site t).1 }, (teardown false s.site t).2.map (.release canceled))
  | .probe => (s, if s.live.active then some (.session .uplink) else none)
  | .session e => ((cancelSession s e).1, (cancelSession s e).2.map .session)

/-- `ws_direct_owner_matches`, also the check of `ws_direct_cancel_owned`. -/
def ownerMatches (s : World) (owner sid : Text) : Bool :=
  owner ≠ [] && sid ≠ [] && owner = s.owner && sid = s.ownerSid && wsLiveCheckId s.live sid

/-! The handlers of `/api/upload`. -/

structure InitOwned where
  filename : Text
  total : Nat
  owner : Text
  resumeSid : Text

def InitOwned.valid (c : InitOwned) : Bool :=
  32 ≤ c.owner.length && c.owner.length ≤ 64 && c.filename ≠ [] && c.total ≠ 0 && c.total ≤ maxTotal

/-- Where a request stands. From `resume` or `create` on, and while it ends an
upload, it holds the owner lock. -/
inductive RestPc where
  | idle
  | returned (n : Int)
  | init (c : InitOwned) (resuming : Bool)
  | resume (c : InitOwned) (resuming : Bool)
  | create (c : InitOwned) (resuming : Bool)
  | listen (resuming : Bool)
  | drop (e : SessionEnd)
  | cancel (owner sid : Text)
  | ending (sid : Text) (pc : EndPc)

inductive RestEvent where
  | init (c : InitOwned)
  | cancel (owner sid : Text)
  | finish
  | go
  | create (cfgSlots : Nat) (sid : Text) (allocOk : Bool)
  | listener (ok : Bool)

def request (s : World) : RestEvent → Option (World × RestPc)
  | .init c => some (s, if c.valid then .init c s.live.active else .returned (-1))
  | .cancel owner sid => some (s, .cancel owner sid)
  | .finish => some (s.setLive (wsLiveFinish s.live).1, .returned (wsLiveFinish s.live).2)
  | _ => none

def createOwned (s : World) (c : InitOwned) (resuming : Bool) (cfgSlots : Nat) (sid : Text)
    (allocOk : Bool) : World × RestPc :=
  let r := initSession s ⟨c.filename, c.total, 0, cfgSlots, sid, allocOk⟩
  if r.2 = 0 then
    ({ r.1 with
      ownerMu := false
      owner := c.owner
      ownerSid := r.1.live.sessionId
      ownerFilename := c.filename.take 255
      ownerTotal := c.total
      owned := (r.1.live.sessionId, c.owner) :: s.owned }, .listen resuming)
  else ({ r.1 with ownerMu := false }, .returned r.2)

/-- The owner asks for the session it already has. -/
def resumes (s : World) (c : InitOwned) : Bool :=
  s.owner ≠ [] && c.resumeSid ≠ [] && c.owner = s.owner && c.resumeSid = s.ownerSid &&
    c.filename = s.ownerFilename && c.total = s.ownerTotal && wsLiveCheckId s.live c.resumeSid

def restTurn (s : World) : RestPc → RestEvent → Option (World × RestPc)
  | .idle, e => request s e
  | .returned _, e => request s e
  | .init c resuming, .go =>
    if s.ownerMu then none
    else some ({ s with ownerMu := true },
      if s.live.active then .resume c resuming else .create c resuming)
  | .resume c resuming, .go =>
    some ({ s with ownerMu := false }, if resumes s c then .listen resuming else .returned (-2))
  | .create c resuming, .create cfgSlots sid allocOk =>
    some (createOwned s c resuming cfgSlots sid allocOk)
  | .listen resuming, .listener ok =>
    some (s, if ok then .returned 0 else if resuming then .returned (-1) else .drop .uplink)
  | .drop e, .go =>
    match cancelSession s e with
    | (s', some e') => some (s', .drop e')
    | (s', none) => some (s', .returned (-1))
  | .cancel owner sid, .go =>
    if s.ownerMu then none
    else if ownerMatches s owner sid then some ({ s with ownerMu := true }, .ending sid .cancel)
    else some (s, .returned (-1))
  | .ending sid pc, .go =>
    match endUpload false s pc with
    | (s', some pc') => some (s', .ending sid pc')
    | (s', none) => some ({ s' with ownerMu := false }, .returned 0)
  | _, _ => none

/-! `ws_conn_worker`. -/

inductive ReplyError where
  | missingOp
  | initNeeds
  | anotherUpload
  | fileMismatch
  | busy
  | initFailed
  | alreadyConnected
  | unauthorized
  | incomplete
  | unknownOp
  | badSegment
  | rejected
deriving DecidableEq

inductive Reply where
  | ready (sid : Text) (offset : Nat)
  | pong
  | status
  | complete
  | cancelled
  | ack (seg : Nat)
  | busy (seg : Nat)
  | error (e : ReplyError)
deriving DecidableEq

/-- A binary message with the segment it was announced for. -/
structure Message where
  seg : Nat
  data : Bytes
  len : Nat

/-- Where a connection stands: in its frame loop, in an `init` message, in the
other messages, and behind the loop. -/
inductive ConnPc where
  | reading
  | init (m : Init)
  | owned (m : Init)
  | sameFile (m : Init) (sid : Text)
  | unowned (m : Init)
  | uplink (sid : Text)
  | granted (sid : Text)
  | finish
  | cancel (e : SessionEnd)
  | sized (m : Message)
  | checkId (m : Message) (segs expLen : Nat)
  | active (m : Message) (segs expLen : Nat)
  | store (m : Message)
  | done
  | ending (pc : EndPc)
  | closed

/-- A connection and its locals; `presented` is history: the owners and session
ids of its `init` messages. -/
structure Conn where
  fd : Nat
  pc : ConnPc
  pendingSeg : Int
  authorized : Bool
  authorizedSid : Text
  finishReceived : Bool
  replies : List Reply
  presented : List (Text × Text)

def newConn (fd : Nat) : Conn := ⟨fd, .reading, -1, false, [], false, [], []⟩

def Conn.at (c : Conn) (pc : ConnPc) : Conn := { c with pc := pc }

/-- Reply and go on reading. -/
def Conn.reply (c : Conn) (r : Reply) : Conn := { c with pc := .reading, replies := r :: c.replies }

inductive ConnEvent where
  | text (msg : Text)
  | binary (data : Bytes) (len : Nat)
  | go
  | create (cfgSlots : Nat) (sid : Text) (allocOk : Bool)
  | disconnect

def Conn.present (c : Conn) (m : Init) : Conn :=
  match m.owner, m.sid with
  | some owner, some sid => { c with presented := (owner, sid) :: c.presented }
  | _, _ => c

/-- The check in front of `finish`, `cancel` and `seg`. -/
def mayControl (s : World) (c : Conn) : Bool := c.authorized && wsLiveCheckId s.live c.authorizedSid

/-- `handle_text_msg`, up to where it changes more than its own locals. -/
def handleTextMsg (s : World) (c : Conn) (msg : Text) : Conn :=
  match wsjString msg opKey 32 with
  | none => c.reply (.error .missingOp)
  | some op =>
    match opOf op with
    | .init =>
      match initOf msg with
      | none => c.reply (.error .initNeeds)
      | some m => (c.present m).at (.init m)
    | .senderStats => if c.authorized then c else c.reply (.error .unknownOp)
    | .ping => c.reply (if c.authorized then .pong else .error .unknownOp)
    | .status => c.reply .status
    | .finish => if mayControl s c then c.at .finish else c.reply (.error .unauthorized)
    | .cancel => if mayControl s c then c.at (.cancel .uplink) else c.reply (.error .unauthorized)
    | .seg =>
      if mayControl s c then { c with pendingSeg := segOf msg } else c.reply (.error .unauthorized)
    | .unknown => c.reply (.error .unknownOp)

/-- The segments of a package and the length a message for one must have. -/
def segCount (total : Nat) : Nat := if total = 0 then 0 else u64 (total + SEG - 1) / SEG

def expLen (total seg : Nat) : Nat :=
  if seg < segCount total ∧ seg = segCount total - 1 then total - seg * SEG else SEG

/-- The answer to a stored, busy or refused segment. -/
def answer (c : Conn) (seg : Nat) (r : Int) : Conn :=
  { c.reply (if r = 0 then .ack seg else if r = -2 then .busy seg else .error .rejected) with
    pendingSeg := -1 }

def rejectSegment (c : Conn) : Conn := { c.reply (.error .badSegment) with pendingSeg := -1 }

/-- The steps of a connection that wait for nothing but the locks. -/
def connGo (s : World) (c : Conn) : Option (World × Conn) :=
  match c.pc with
  | .init m =>
    if s.ownerMu then none else some (s, c.at (if s.owner = [] then .unowned m else .owned m))
  | .owned m =>
    if s.ownerMu then none
    else
      match m.owner, m.sid with
      | some owner, some sid =>
        some (s, if ownerMatches s owner sid then c.at (.sameFile m sid)
          else c.reply (.error .anotherUpload))
      | _, _ => some (s, c.reply (.error .anotherUpload))
  | .sameFile m sid =>
    if s.ownerMu then none
    else some (s, if m.filename = s.ownerFilename ∧ m.total = s.ownerTotal then c.at (.uplink sid)
      else c.reply (.error .fileMismatch))
  | .uplink sid =>
    if s.uplink ≠ none ∧ s.uplink ≠ some c.fd then some (s, c.reply (.error .alreadyConnected))
    else some ({ s with uplink := some c.fd }, c.at (.granted sid))
  | .granted sid =>
    some (s, { c.reply (.ready sid (wsLiveGetResumeOffset s.live)) with
      authorized := true, authorizedSid := sid })
  | .finish =>
    let r := wsLiveFinish s.live
    some (s.setLive r.1, if r.2 = 0 then { c.reply .complete with finishReceived := true }
      else c.reply (.error .incomplete))
  | .cancel e =>
    match cancelSession s e with
    | (s', some e') => some (s', c.at (.cancel e'))
    | (s', none) => some (s', c.reply .cancelled)
  | .sized m =>
    let total := wsLiveGetTotal s.live
    some (s, c.at (.checkId m (segCount total) (expLen total m.seg)))
  | .checkId m segs len =>
    some (s, if mayControl s c then c.at (.active m segs len) else rejectSegment c)
  | .active m segs len =>
    some (s, if s.live.active ∧ m.seg < segs ∧ m.len = len then c.at (.store m) else rejectSegment c)
  | .store m =>
    let r := wsLiveTryWrite s.live (m.seg * SEG) m.data m.len
    some (s.setLive r.1, answer c m.seg r.2)
  | .done =>
    if s.uplink = some c.fd then
      some ({ s with uplink := none },
        c.at (if c.authorized && !c.finishReceived then .ending .cancel else .closed))
    else some (s, c.at .closed)
  | .ending pc =>
    match endUpload true s pc with
    | (s', some pc') => some (s', c.at (.ending pc'))
    | (s', none) => some (s', c.at .closed)
  | _ => none

def connTurn (s : World) (c : Conn) : ConnEvent → Option (World × Conn)
  | .text msg =>
    match c.pc with
    | .reading => some (s, handleTextMsg s c msg)
    | _ => none
  | .binary data len =>
    match c.pc with
    | .reading =>
      -- a message without a segment header costs the connection
      some (s, c.at (if c.pendingSeg < 0 then .done else .sized ⟨c.pendingSeg.toNat, data, len⟩))
    | _ => none
  | .create cfgSlots sid allocOk =>
    match c.pc with
    | .unowned m =>
      let r := initSession s ⟨m.filename, m.total, 0, cfgSlots, sid, allocOk⟩
      some (r.1, if r.2 = 0 then c.at (.uplink r.1.live.sessionId)
        else c.reply (.error (if r.2 = -2 then .busy else .initFailed)))
    | _ => none
  | .disconnect =>
    match c.pc with
    | .reading => some (s, c.at .done)
    | _ => none
  | .go => connGo s c

end PkgManager.UploadServer
