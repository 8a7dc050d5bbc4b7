import PkgManager.UploadServer

namespace PkgManager.UploadThreads

open Interleaving Installer InstallWorker ControlMessages UploadServer

/-- A thread of the program: one that installs, a request of the upload interface,
a connection, the listener that accepts connections, or a reader of the stream.
`canceled` is history: the package of the install its last cancel ended. -/
inductive Thread where
  | install (t : InstallThreads.Thread) (canceled : Path)
  | rest (pc : RestPc)
  | conn (c : Conn)
  | listener
  | reader (t : LiveThreads.Thread)

inductive Event where
  | install (e : InstallThreads.Event)
  | rest (e : RestEvent)
  | conn (e : ConnEvent)
  | accept
  | reader (e : LiveThreads.Event)

/-- The calls the stream server makes: it opens, reads and closes a session. -/
def mayRead : LiveThreads.Event → Bool
  | .attach => true
  | .detach => true
  | .read _ _ _ _ => true
  | .rescan _ => true
  | .seekReturn _ => true
  | .readWake _ _ => true
  | _ => false

def canceledBy (s : World) (canceled : Path) : InstallThreads.Event → Path
  | .call .cancel => s.site.inst.status.pkgPath
  | _ => canceled

def turn (s : World) (t : Thread) : Event → Option (World × Thread × List Thread)
  | .install e =>
    match t with
    | .install t canceled =>
      (InstallThreads.turn s.site t e).map fun r =>
        ({ s with site := r.1 }, .install r.2.1 (canceledBy s canceled e), r.2.2.map (.install · []))
    | _ => none
  | .rest e =>
    match t with
    | .rest pc => (restTurn s pc e).map fun r => (r.1, .rest r.2, [])
    | _ => none
  | .conn e =>
    match t with
    | .conn c => (connTurn s c e).map fun r => (r.1, .conn r.2, [])
    | _ => none
  | .accept =>
    match t with
    | .listener =>
      some ({ s with accepted := s.accepted + 1 }, .listener, [.conn (newConn s.accepted)])
    | _ => none
  | .reader e =>
    match t with
    | .reader t =>
      if mayRead e then (LiveThreads.turn s.live t e).map fun r => (s.setLive r.1, .reader r.2, [])
      else none
    | _ => none

/-- The program under any number of threads of each kind. -/
def uploads : Machine World Thread Event where
  act e s t := turn s t e

def fresh (seekFn : Bool) : World :=
  ⟨⟨installerInit, LiveSession.Live.init seekFn, none⟩, [], [], [], 0, false, none, 0, [], []⟩

def start (seekFn : Bool) (installs requests readers : Nat) : Pool World Thread :=
  ⟨fresh seekFn, List.replicate installs (.install .idle []) ++
    List.replicate requests (.rest .idle) ++ List.replicate readers (.reader .idle) ++ [.listener]⟩

/-- A connection of which the condition holds. -/
def connIs (P : Conn → Bool) : Thread → Bool
  | .conn c => P c
  | _ => false

/-! Events of the runs below. -/

def someOwner : Text := List.replicate 32 97

/-- A request opens a session for a package of one byte. -/
def openEvents (i : Nat) (filename sid : Text) : List (Nat × Event) :=
  [(i, .rest (.init ⟨filename, 1, someOwner, []⟩)), (i, .rest .go), (i, .rest (.create 8 sid true)),
    (i, .rest (.listener true))]

/-- The owner cancels an upload while nothing is installed. -/
def cancelEvents (i : Nat) (sid : Text) : List (Nat × Event) :=
  (i, .rest (.cancel someOwner sid)) :: List.replicate 5 (i, .rest .go)

def jsonField (key value : Text) : Text := quoted key ++ [58] ++ value

/-- `{"op":"init","filename":…,"total":1` and what follows. -/
def initMessage (filename rest : Text) : Text :=
  [123] ++ jsonField opKey (quoted [105, 110, 105, 116]) ++ [44] ++
    jsonField filenameKey (quoted filename) ++ [44] ++ jsonField totalKey [49] ++ rest ++ [125]

def ownedMessage (filename sid : Text) : Text :=
  initMessage filename ([44] ++ jsonField ownerKey (quoted someOwner) ++ [44] ++
    jsonField sessionIdKey (quoted sid))

/-- A connection joins the session of its owner. -/
def joinEvents (i : Nat) (filename sid : Text) : List (Nat × Event) :=
  (i, .conn (.text (ownedMessage filename sid))) :: List.replicate 5 (i, .conn .go)

/-- It sends the only segment and comes in front of the store. -/
def sendEvents (i : Nat) : List (Nat × Event) :=
  [(i, .conn (.text ([123] ++ jsonField opKey (quoted [115, 101, 103]) ++ [44, 34, 115, 101, 103, 34, 58, 48, 125]))),
    (i, .conn (.binary (fun _ => 7) 1)), (i, .conn .go), (i, .conn .go), (i, .conn .go)]

end PkgManager.UploadThreads
