import PkgManager.Routes

namespace PkgManager.Navigation

open Routes

structure Drive where
  id : String
  path : String
  label : String
  clickable : Bool
  deriving DecidableEq

def allSourcesDrive : Drive := ⟨"__all__", "All storage media", "All Sources", true⟩

structure Modals where
  donate : Bool
  clearCache : Bool
  smb : Bool
  leftover : Bool

def Modals.any (m : Modals) : Bool := m.donate || m.clearCache || m.smb || m.leftover

/-- The session history, and what the hooks keep. `stored` is `getSmbShareFromStorage` on the
settings in the local storage. `leaving` says that the page asked to be closed, or for the
entry before it, and has written no route since. -/
structure Page where
  entries : List Text
  index : Nat
  drive : Option Drive
  titleId : Option String
  showSettings : Bool
  showSmbPage : Bool
  showDirectInstall : Bool
  currentRoute : Route
  modals : Modals
  installing : Bool
  transferActive : Bool
  drives : List Drive
  stored : String → Option Drive
  leaving : Bool

def Page.hash (s : Page) : Text := (s.entries[s.index]?).getD []

def resolveDrive (stored : String → Option Drive) (driveId : String) (drives : List Drive) : Drive :=
  if driveId = "" ∨ driveId = "__all__" then allSourcesDrive
  else
    match drives.find? fun d => d.id = driveId || d.path = driveId with
    | some d => d
    | none => (stored driveId).getD ⟨driveId, driveId, driveId, true⟩

def pushState (s : Page) (hash : Text) : Page :=
  { s with entries := s.entries.take (s.index + 1) ++ [hash], index := s.index + 1 }

def replaceState (s : Page) (hash : Text) : Page := { s with entries := s.entries.set s.index hash }

def stay (s : Page) : Page := { s with leaving := false }

def writeHistory (s : Page) (route : Route) (replace : Bool) : Page :=
  if s.hash = formatHash route then stay s
  else if replace then replaceState (stay s) (formatHash route)
  else pushState (stay s) (formatHash route)

def seedHistory (s : Page) (route : Route) : Page :=
  match getHistoryChain route with
  | [] => s
  | root :: rest =>
    rest.foldl (fun s r => pushState s (formatHash r)) (replaceState s (formatHash root))

/-- An empty title counts as none. -/
def Page.title (s : Page) : Option String := s.titleId.filter (· ≠ "")

inductive View where
  | drives
  | drive
  | title
  | settings
  | smb
  | directInstall
  deriving DecidableEq

def getActiveViewType (s : Page) : View :=
  if s.showDirectInstall then .directInstall
  else if s.showSmbPage then .smb
  else if s.showSettings then .settings
  else if s.title.isSome then .title
  else if s.drive.isSome then .drive
  else .drives

def showPages (s : Page) (settings smb directInstall : Bool) : Page :=
  { s with showSettings := settings, showSmbPage := smb, showDirectInstall := directInstall }

/-- The drive of the first render. -/
def initialDrive (stored : String → Option Drive) (allSources : Bool) : Route → Option Drive
  | .drive id => some (resolveDrive stored (if id = "" then "__all__" else id) [])
  | .title _ => some (resolveDrive stored "__all__" [])
  | _ => if allSources then some allSourcesDrive else none

def initialRoute : Option Drive → Route
  | some d => .drive (if d.id = "" then "__all__" else d.id)
  | none => .drives

/-- The effect that selects the view of a deep link. -/
def applyInitialRoute (s : Page) : Route → Page
  | .drive id =>
    { showPages s false false false with
      drive := some (resolveDrive s.stored (if id = "" then "__all__" else id) s.drives) }
  | .title id =>
    { showPages s false false false with
      drive := some (resolveDrive s.stored "__all__" s.drives)
      titleId := some id }
  | .settings => showPages s true false false
  | .smb => showPages s false true false
  | .directInstall => showPages s false false true
  | .drives => { showPages s false false false with drive := none, titleId := none }

/-- A hash that cannot be read throws. -/
def mount (s : Page) (allSources : Bool) : Option Page :=
  match getRouteFromHash s.hash with
  | none => none
  | some route =>
    let drive := initialDrive s.stored allSources route
    let startRoute := if route ≠ .drives then route else initialRoute drive
    let s := seedHistory { s with drive, titleId := none, currentRoute := startRoute } startRoute
    match getRouteFromHash s.hash with
    | none => none
    | some hashRoute =>
      some (applyInitialRoute s (if hashRoute ≠ .drives then hashRoute else initialRoute drive))

/-- The page on its first render, before any effect. -/
def fresh (entries : List Text) (index : Nat) (stored : String → Option Drive) : Page where
  entries
  index
  drive := none
  titleId := none
  showSettings := false
  showSmbPage := false
  showDirectInstall := false
  currentRoute := .drives
  modals := ⟨false, false, false, false⟩
  installing := false
  transferActive := false
  drives := []
  stored
  leaving := false

/-- What a popped route shows. -/
def applyRoute (s : Page) : Route → Page
  | .smb => showPages s false true false
  | .directInstall => showPages s false false true
  | .settings => showPages s true false false
  | .title id => { showPages s false false false with titleId := some id }
  | .drive id =>
    { showPages s false false false with
      titleId := if s.title.isSome then none else s.titleId
      drive :=
        if s.drive.any fun d => d.id = id || d.path = id then s.drive
        else some (resolveDrive s.stored id s.drives) }
  | .drives => { showPages s false false false with titleId := none, drive := none }

/-- `confirmed` answers the question that is asked while files are sent. -/
def handlePopState (s : Page) (confirmed : Bool) : Page :=
  if s.showDirectInstall ∧ s.transferActive ∧ !confirmed then writeHistory s .directInstall false
  else if s.installing ∧ !s.transferActive then { s with leaving := true }
  else if s.modals.any then
    writeHistory { s with modals := ⟨false, false, false, false⟩ } s.currentRoute false
  else
    match getRouteFromHash s.hash with
    | none => s
    | some target =>
      if getActiveViewType s = .drives ∧ target = .drives then { s with leaving := true }
      else applyRoute (stay { s with currentRoute := target }) target

/-- A route the page goes to itself, and writes to the history. -/
def navigate (s : Page) (route : Route) (replace : Bool) : Page :=
  writeHistory { s with currentRoute := route } route replace

def handleSelectDrive (s : Page) (drive : Drive) : Page :=
  if !drive.clickable then s
  else
    navigate { s with drive := some drive, titleId := none }
      (.drive (if drive.id = "" then drive.path else drive.id)) false

/-- The drive id of a route, from the drive that is selected. -/
def Page.driveId (s : Page) : String :=
  match s.drive with
  | some d => if d.id = "" then "__all__" else d.id
  | none => "__all__"

/-- With a drive it only asks the browser to go back. -/
def handleBackToDrives (s : Page) : Page :=
  if s.drive.isSome then s else navigate { s with drive := none, titleId := none } .drives true

def handleOpenTitle (s : Page) (titleId : String) : Page :=
  navigate { s with titleId := some titleId } (.title titleId) false

def handleBackToPackages (s : Page) : Page :=
  if s.title.isSome then s else navigate { s with titleId := none } (.drive s.driveId) true

def handleOpenSettings (s : Page) : Page := navigate { s with showSettings := true } .settings false

def handleCloseSettings (s : Page) : Page :=
  if s.showSettings then s
  else
    navigate { s with showSettings := false, showSmbPage := false }
      (match s.title with
      | some id => .title id
      | none => if s.drive.isSome then .drive s.driveId else .drives) true

def handleOpenSmb (s : Page) : Page := navigate { s with showSmbPage := true } .smb false

def handleCloseSmb (s : Page) : Page :=
  if s.showSmbPage then s
  else navigate { s with showSmbPage := false, showSettings := true } .settings true

def handleOpenDirectInstall (s : Page) : Page :=
  navigate (showPages s false false true) .directInstall false

def handleCloseDirectInstall (s : Page) (confirmed : Bool) : Page :=
  if s.transferActive ∧ !confirmed then s
  else navigate { showPages s false false false with drive := none, titleId := none } .drives true

/-- The settings button of the header. -/
def onSettingsClick (s : Page) (confirmed : Bool) : Page :=
  if s.showDirectInstall ∧ s.transferActive ∧ !confirmed then s
  else
    let left := { s with showDirectInstall := false }
    if s.showSmbPage then handleCloseSmb left
    else if s.showSettings then handleCloseSettings left
    else handleOpenSettings left

/-- The selected drive, as a new list has it. -/
def matchDrive (drives : List Drive) (cur : Drive) : Drive :=
  if cur.id = "" ∨ cur.id = "__all__" then cur
  else
    (drives.find? fun d => d.id = cur.id || (cur.path ≠ "" && d.path = cur.path) ||
      (if d.id = "" then d.path else d.id) = cur.id).getD cur

inductive Event where
  | reload (allSources : Bool)
  | traverse (index : Nat) (confirmed : Bool)
  | selectDrive (drive : Drive)
  | backToDrives
  | openTitle (titleId : String)
  | backToPackages
  | settingsClick (confirmed : Bool)
  | closeSettings
  | openSmb
  | closeSmb
  | openDirectInstall
  | closeDirectInstall (confirmed : Bool)
  | drivesFetched (drives : List Drive)
  | settingsFetched (allSources : Bool) (stored : String → Option Drive)
  | settingsSaved (allSources : Bool) (stored : String → Option Drive)
  | modals (m : Modals)
  | status (installing transferActive : Bool)

/-- The buttons are those of the view. A title that is not among the packages leaves the view
behind it on the screen. -/
def Event.enabled (s : Page) : Event → Bool
  | .traverse index _ => index < s.entries.length && index ≠ s.index
  | .selectDrive _ => getActiveViewType s ∈ [.drives, .title]
  | .backToDrives => getActiveViewType s ∈ [.drive, .title]
  | .openTitle _ => getActiveViewType s ∈ [.drive, .title]
  | .backToPackages => getActiveViewType s = .title
  | .closeSettings => getActiveViewType s = .settings
  | .openSmb => getActiveViewType s = .settings
  | .closeSmb => getActiveViewType s = .smb
  | .settingsSaved _ _ => getActiveViewType s ∈ [.settings, .smb]
  | _ => true

def handle (s : Page) : Event → Option Page
  | .reload allSources => mount (fresh s.entries s.index s.stored) allSources
  | .traverse index confirmed => some (handlePopState { s with index } confirmed)
  | .selectDrive drive => some (handleSelectDrive s drive)
  | .backToDrives => some (handleBackToDrives s)
  | .openTitle titleId => some (handleOpenTitle s titleId)
  | .backToPackages => some (handleBackToPackages s)
  | .settingsClick confirmed => some (onSettingsClick s confirmed)
  | .closeSettings => some (handleCloseSettings s)
  | .openSmb => some (handleOpenSmb s)
  | .closeSmb => some (handleCloseSmb s)
  | .openDirectInstall => some (handleOpenDirectInstall s)
  | .closeDirectInstall confirmed => some (handleCloseDirectInstall s confirmed)
  | .drivesFetched drives =>
    some { s with
      drives
      drive := if drives = [] then s.drive else s.drive.map (matchDrive drives) }
  | .settingsFetched allSources stored =>
    some { s with
      stored
      drive := if allSources && s.drive.isNone then some allSourcesDrive else s.drive }
  | .settingsSaved allSources stored =>
    some { s with
      stored
      drive :=
        if allSources then some (s.drive.getD allSourcesDrive)
        else s.drive.filter (·.id ≠ "__all__") }
  | .modals m => some { s with modals := m }
  | .status installing transferActive => some { s with installing, transferActive }

def step (s : Page) (e : Event) : Option Page := if e.enabled s then handle s e else none

def load (hash : Text) (stored : String → Option Drive) (allSources : Bool) : Option Page :=
  mount (fresh [hash] 0 stored) allSources

end PkgManager.Navigation
