import PkgManager.RecordCodec

namespace PkgManager.InstallIpc

open RecordCodec

/-! `install_ipc.h` and the records of `install_service.h`. -/

/-- `INSTALL_IPC_MAGIC`. -/
def ipcMagic : UInt32 := 0x504b4749

/-- `INSTALL_IPC_VERSION`. -/
def ipcVersion : UInt32 := 2

/-! `enum install_ipc_op` -/

def ipcReady : UInt32 := 0

def ipcInstall : UInt32 := 1

def ipcStatus : UInt32 := 2

def ipcShortcut : UInt32 := 3

def ipcClose : UInt32 := 4

/-! The results that are no native ones. -/

/-- `INSTALL_SERVICE_UNAVAILABLE`. -/
def serviceUnavailable : Int32 := -2001

/-- `INSTALL_SERVICE_DISCONNECTED`. -/
def serviceDisconnected : Int32 := -2002

/-- `INSTALL_SERVICE_CANCELED`. -/
def serviceCanceled : Int32 := -2003

/-- `INSTALL_SERVICE_TIMEOUT`. -/
def serviceTimeout : Int32 := -2004

/-- `pkg_info_t`. -/
structure PkgInfo where
  contentId : Vector UInt8 48
  type : Int32
  platform : Int32
  deriving DecidableEq

/-- `SceAppInstallStatusInstalled`, all behind its `status` in one piece. -/
structure AppInstallStatus where
  status : Vector UInt8 16
  details : Vector UInt8 584
  deriving DecidableEq

/-- `install_ipc_request_t`. -/
structure Request where
  magic : UInt32
  version : UInt32
  op : UInt32
  uri : Vector UInt8 1024
  name : Vector UInt8 320
  iconUrl : Vector UInt8 512
  titleId : Vector UInt8 32
  directory : Vector UInt8 64
  deriving DecidableEq

/-- `install_ipc_response_t`. -/
structure Response where
  magic : UInt32
  version : UInt32
  op : UInt32
  result : Int32
  pid : Int32
  nativeMs : UInt32
  nativeErrno : Int32
  buildCommit : Vector UInt8 64
  info : PkgInfo
  status : AppInstallStatus
  deriving DecidableEq

def PkgInfo.zero : PkgInfo := ⟨.replicate 48 0, 0, 0⟩

def AppInstallStatus.zero : AppInstallStatus := ⟨.replicate 16 0, .replicate 584 0⟩

/-- The last byte of the text is set to NUL. -/
def PkgInfo.cut (i : PkgInfo) : PkgInfo := { i with contentId := i.contentId.set 47 0 }

theorem status_last : 15 < 16 := by decide

def AppInstallStatus.cut (s : AppInstallStatus) : AppInstallStatus :=
  { s with status := s.status.set 15 0 status_last }

def PkgInfo.codec : Codec PkgInfo :=
  (Codec.pair (.chars 48) (.pair .int32 .int32)).iso
    (fun f => ⟨f.1, f.2.1, f.2.2⟩) (fun i => (i.contentId, i.type, i.platform)) fun _ => rfl

def AppInstallStatus.codec : Codec AppInstallStatus :=
  (Codec.pair (.chars 16) (.chars 584)).iso
    (fun f => ⟨f.1, f.2⟩) (fun s => (s.status, s.details)) fun _ => rfl

def Request.codec : Codec Request :=
  (Codec.pair .uint32 (.pair .uint32 (.pair .uint32 (.pair (.chars 1024) (.pair (.chars 320)
    (.pair (.chars 512) (.pair (.chars 32) (.chars 64)))))))).iso
    (fun f => ⟨f.1, f.2.1, f.2.2.1, f.2.2.2.1, f.2.2.2.2.1, f.2.2.2.2.2.1, f.2.2.2.2.2.2.1,
      f.2.2.2.2.2.2.2⟩)
    (fun q => (q.magic, q.version, q.op, q.uri, q.name, q.iconUrl, q.titleId, q.directory))
    fun _ => rfl

/-- The status stands at a multiple of eight. -/
def Response.codec : Codec Response :=
  (Codec.pair .uint32 (.pair .uint32 (.pair .uint32 (.pair .int32 (.pair .int32 (.pair .uint32
    (.pair .int32 (.pair (.chars 64) (.pair (.padded PkgInfo.codec 4)
      AppInstallStatus.codec))))))))).iso
    (fun f => ⟨f.1, f.2.1, f.2.2.1, f.2.2.2.1, f.2.2.2.2.1, f.2.2.2.2.2.1, f.2.2.2.2.2.2.1,
      f.2.2.2.2.2.2.2.1, f.2.2.2.2.2.2.2.2.1, f.2.2.2.2.2.2.2.2.2⟩)
    (fun r => (r.magic, r.version, r.op, r.result, r.pid, r.nativeMs, r.nativeErrno, r.buildCommit,
      r.info, r.status))
    fun _ => rfl

theorem Request.codec_size : Request.codec.size = 1964 := rfl

theorem Response.codec_size : Response.codec.size = 752 := rfl

/-- The check of the request loop: the numbers are right and every text ends in its field. -/
def Request.accepted (q : Request) : Bool :=
  q.magic == ipcMagic && q.version == ipcVersion && q.uri.contains 0 && q.name.contains 0 &&
    q.iconUrl.contains 0 && q.titleId.contains 0 && q.directory.contains 0

/-- The check of `receive_response`. -/
def Response.answers (r : Response) (op : UInt32) (pid : Int32) : Bool :=
  r.magic == ipcMagic && r.version == ipcVersion && r.op == op && r.pid == pid

end PkgManager.InstallIpc
