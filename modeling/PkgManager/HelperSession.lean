import PkgManager.InstallHelper

namespace PkgManager.HelperSession

open InstallIpc InstallHelper

/-! A worker with its service and the helper process at the other end of the
socket. A transfer moves some bytes at a time; it may stop before it is through. -/

/-- Where the helper is in `install_helper_serve`. -/
inductive Stage where
  /-- In `sceAppInstUtilInitialize`. -/
  | starting
  | sending (rest : List UInt8)
  | receiving (got : List UInt8)
  /-- A request was read, its native call is under way. -/
  | handling (q : Request)
  | done

/-- Where the worker is with its service. -/
inductive Phase where
  | sending (q : Request) (rest : List UInt8)
  /-- `receive_response`, to a request or to the start of the helper. -/
  | receiving (q : Option Request) (got : List UInt8)
  /-- The worker has the result of a call, and whether that was `open_service`. -/
  | returned (opened : Bool) (result : Int32)
  | closed

/-- `install_service_t`. -/
structure Service where
  pid : Int32
  usable : Bool
  phase : Phase
  /-- The exchange is that of `install_service_close`. -/
  closing : Bool

structure Session where
  helper : Helper
  initialized : Int32
  stage : Stage
  service : Service
  toHelper : List UInt8
  toParent : List UInt8
  /-- What the helper reported when it was ready. -/
  ready : Option Response
  /-- The requests whose exchange was begun. -/
  sent : List Request
  /-- The requests that the helper answered, each with its response. -/
  served : List (Request × Response)
  /-- The responses that `receive_response` let pass, each with the number of
  the exchange it was taken for; none is the wait for the ready helper. -/
  accepted : List (Option Nat × Response)

def Session.start (pid : Int32) : Session where
  helper := .fresh pid
  initialized := 0
  stage := .starting
  service := { pid := -1, usable := false, phase := .receiving none [], closing := false }
  toHelper := []
  toParent := []
  ready := none
  sent := []
  served := []
  accepted := []

/-- The response with `.op = INSTALL_IPC_READY`. -/
def readyResponse (pid : Int32) (n : Native) (buildCommit : Vector UInt8 64) : Response :=
  { magic := ipcMagic, version := ipcVersion, op := ipcReady, result := n.result, pid := pid
    nativeMs := n.ms, nativeErrno := n.errno, buildCommit := buildCommit
    info := .zero, status := .zero }

/-- Where the helper is when this much of a response is left to send. -/
def afterSending (s : Session) (rest : List UInt8) : Stage :=
  if rest = [] then
    if s.initialized ≠ 0 ∨ s.helper.terminated = true then .done else .receiving []
  else .sending rest

/-- Where the helper is when it has read this much of a request. -/
def afterReceiving (got : List UInt8) : Stage :=
  if got.length = Request.codec.size then
    if (Request.codec.decode got).accepted then .handling (Request.codec.decode got) else .done
  else .receiving got

/-- A pass of `install_ipc_transfer` in the helper. -/
def helperTransfers (s : Session) (count : Nat) : Option Session :=
  match s.stage with
  | .sending rest =>
    if 0 < count ∧ count ≤ rest.length then
      some { s with
        toParent := s.toParent ++ rest.take count
        stage := afterSending s (rest.drop count) }
    else none
  | .receiving got =>
    if 0 < count ∧ count ≤ s.toHelper.length ∧ got.length + count ≤ Request.codec.size then
      some { s with
        toHelper := s.toHelper.drop count
        stage := afterReceiving (got ++ s.toHelper.take count) }
    else none
  | _ => none

/-- The operation that the response must name. -/
def expected : Option Request → UInt32
  | none => ipcReady
  | some q => q.op

/-- Where the worker is when a call of the service has returned. -/
def Service.returns (v : Service) (opened : Bool) (result : Int32) : Phase :=
  if v.closing then .closed else .returned opened result

/-- A call that could not be finished. -/
def Service.lost (v : Service) (opened : Bool) (error : Int32) : Service :=
  { v with usable := false, phase := v.returns opened error }

/-- `receive_response` with the whole response, and in `open_service` what follows it. -/
def receiveResponse (s : Session) (q : Option Request) (r : Response) : Session :=
  let pid := if s.service.pid ≤ 0 ∧ expected q = ipcReady then r.pid else s.service.pid
  let v := { s.service with pid := pid }
  if r.answers (expected q) pid then
    { s with
      service :=
        { v with
          usable := if q.isNone then r.result == 0 else v.usable
          phase := v.returns q.isNone r.result }
      accepted := s.accepted ++ [(q.map fun _ => s.sent.length - 1, r)] }
  else { s with service := v.lost q.isNone serviceDisconnected }

/-- A pass of `install_ipc_transfer` in the worker. -/
def transfers (s : Session) (count : Nat) : Option Session :=
  match s.service.phase with
  | .sending q rest =>
    if 0 < count ∧ count ≤ rest.length then
      some { s with
        toHelper := s.toHelper ++ rest.take count
        service :=
          { s.service with
            phase := if rest.drop count = [] then .receiving (some q) []
              else .sending q (rest.drop count) } }
    else none
  | .receiving q got =>
    if 0 < count ∧ count ≤ s.toParent.length ∧ got.length + count ≤ Response.codec.size then
      let s' := { s with toParent := s.toParent.drop count }
      let got' := got ++ s.toParent.take count
      some (if got'.length = Response.codec.size then
          receiveResponse s' q (Response.codec.decode got')
        else { s' with service := { s.service with phase := .receiving q got' } })
    else none
  | _ => none

/-- A transfer of the worker fails. -/
def stops (s : Session) (error : Int32) : Option Session :=
  if error = serviceTimeout ∨ error = serviceDisconnected ∨ error = serviceCanceled then
    match s.service.phase with
    | .sending _ _ => some { s with service := s.service.lost false error }
    | .receiving q _ => some { s with service := s.service.lost q.isNone error }
    | _ => none
  else none

/-- The worker goes on with a service unless it could not be opened or was lost. -/
def mayExchange (opened : Bool) (result : Int32) : Prop :=
  result ≠ serviceTimeout ∧ result ≠ serviceDisconnected ∧ result ≠ serviceCanceled ∧
    (opened = true → result = 0)

instance (opened : Bool) (result : Int32) : Decidable (mayExchange opened result) :=
  inferInstanceAs (Decidable (_ ∧ _))

/-- `exchange` up to its first transfer. -/
def beginExchange (s : Session) (q : Request) (closing : Bool) : Session :=
  let q := { q with magic := ipcMagic, version := ipcVersion }
  { s with
    service := { s.service with phase := .sending q (Request.codec.encode q), closing := closing }
    sent := s.sent ++ [q] }

/-- `install_ipc_request_t request = {.op = INSTALL_IPC_CLOSE}`. -/
def closeRequest : Request where
  magic := 0
  version := 0
  op := ipcClose
  uri := .replicate 1024 0
  name := .replicate 320 0
  iconUrl := .replicate 512 0
  titleId := .replicate 32 0
  directory := .replicate 64 0

inductive Event where
  /-- `sceAppInstUtilInitialize` returns. -/
  | starts (n : Native) (buildCommit : Vector UInt8 64)
  /-- The native call of a request returns. -/
  | handles (n : Native)
  | helperTransfers (count : Nat)
  /-- A transfer of the helper fails, or its process is ended. -/
  | helperStops
  | transfers (count : Nat)
  | stops (error : Int32)
  /-- The worker makes its next call. -/
  | exchanges (q : Request)
  /-- `install_service_close`. -/
  | closes

def step (s : Session) : Event → Option Session
  | .starts n buildCommit =>
    match s.stage with
    | .starting =>
      let r := readyResponse s.helper.pid n buildCommit
      some { s with
        initialized := n.result
        stage := .sending (Response.codec.encode r)
        ready := some r }
    | _ => none
  | .handles n =>
    match s.stage with
    | .handling q =>
      let r := handle s.helper q n
      some { s with
        helper := r.helper
        stage := .sending (Response.codec.encode r.response)
        served := s.served ++ [(q, r.response)] }
    | _ => none
  | .helperTransfers count => helperTransfers s count
  | .helperStops => some { s with stage := .done }
  | .transfers count => transfers s count
  | .stops error => stops s error
  | .exchanges q =>
    match s.service.phase with
    | .returned opened result =>
      if mayExchange opened result then some (beginExchange s q false) else none
    | _ => none
  | .closes =>
    match s.service.phase with
    | .returned _ _ =>
      some (if s.service.usable then beginExchange s closeRequest true
        else { s with service := { s.service with phase := .closed } })
    | _ => none

/-- A run of events, of which those pass that the session cannot take. -/
def exec (s : Session) : List Event → Session
  | [] => s
  | e :: es => exec ((step s e).getD s) es

end PkgManager.HelperSession
