import PkgManager.InstallIpc

namespace PkgManager.InstallHelper

open InstallIpc

/-- A call of the helper into AppInstUtil, with what it returned where that is looked at. -/
inductive Call where
  | appInstUtilInitialize (result : Int32)
  | installByPackage (uri : Vector UInt8 1024) (name : Vector UInt8 320)
      (iconUrl : Vector UInt8 512) (result : Int32)
  | getInstallStatus (contentId : Vector UInt8 48)
  | registerShortcut (titleId : Vector UInt8 32) (directory : Vector UInt8 64)
  | appInstUtilTerminate
  deriving DecidableEq

/-- What a native call yields, and the clock and `errno` behind it. -/
structure Native where
  result : Int32
  info : PkgInfo
  status : AppInstallStatus
  ms : UInt32
  errno : Int32

/-- The variables of `install_helper_serve` that last from one request to the next. -/
structure Helper where
  pid : Int32
  used : Bool
  installed : Bool
  terminated : Bool
  info : PkgInfo

structure Handled where
  helper : Helper
  response : Response
  call : Option Call

/-- One request: the native call that it stands for, unless the helper refuses it. -/
def handle (h : Helper) (q : Request) (n : Native) : Handled :=
  let response : Response :=
    { magic := ipcMagic, version := ipcVersion, op := q.op, result := serviceUnavailable
      pid := h.pid, nativeMs := n.ms, nativeErrno := n.errno, buildCommit := .replicate 64 0
      info := .zero, status := .zero }
  if q.op = ipcInstall ∧ h.used = false then
    -- even a failed call consumes the process
    { helper := { h with used := true, installed := n.result == 0, info := n.info.cut }
      response := { response with result := n.result, info := n.info.cut }
      call := some (.installByPackage q.uri q.name q.iconUrl n.result) }
  else if q.op = ipcStatus ∧ h.installed = true then
    { helper := h
      response := { response with result := n.result, status := n.status.cut }
      call := some (.getInstallStatus h.info.contentId) }
  else if q.op = ipcShortcut ∧ h.used = false then
    { helper := { h with used := true }
      response := { response with result := n.result }
      call := some (.registerShortcut q.titleId q.directory) }
  else if q.op = ipcClose then
    { helper := { h with terminated := true }
      response := { response with result := n.result }
      call := some .appInstUtilTerminate }
  else
    { helper := h, response := response, call := none }

/-- A pass through the request loop: the request, if one came in whole, and
whether the response went out. -/
structure Turn where
  received : Option Request
  native : Native
  sent : Bool

structure Loop where
  helper : Helper
  calls : List Call
  /-- The loop was left. -/
  done : Bool

/-- The request loop, as far as the requests go. -/
def loop (h : Helper) : List Turn → Loop
  | [] => ⟨h, [], false⟩
  | t :: ts =>
    match t.received with
    | none => ⟨h, [], true⟩
    | some q =>
      if q.accepted then
        let r := handle h q t.native
        if t.sent = true ∧ r.helper.terminated = false then
          let l := loop r.helper ts
          { l with calls := r.call.toList ++ l.calls }
        else ⟨r.helper, r.call.toList, true⟩
      else ⟨h, [], true⟩

/-- What the helper meets before its first request. -/
structure Start where
  pid : Int32
  /-- `pthread_create` made the watcher. -/
  watched : Bool
  /-- What `sceAppInstUtilInitialize` returned. -/
  initialized : Int32
  readySent : Bool

structure Serve where
  calls : List Call
  /-- The exit code, once the request loop is left. -/
  returned : Option Nat

/-- `pkg_info_t info = {0}` and the flags. -/
def Helper.fresh (pid : Int32) : Helper := ⟨pid, false, false, false, .zero⟩

/-- `install_helper_serve`. -/
def serve (s : Start) (turns : List Turn) : Serve :=
  if s.watched then
    if s.readySent = false ∨ s.initialized ≠ 0 then
      { calls := .appInstUtilInitialize s.initialized :: if s.initialized = 0 then [.appInstUtilTerminate] else []
        returned := some (if s.initialized = 0 then 0 else 1) }
    else
      let l := loop (.fresh s.pid) turns
      if l.done then
        { calls := .appInstUtilInitialize s.initialized :: (l.calls ++
            if l.helper.terminated then [] else [.appInstUtilTerminate])
          returned := some 0 }
      else { calls := .appInstUtilInitialize s.initialized :: l.calls, returned := none }
  else { calls := [], returned := some 1 }

/-- The calls of which a process makes one. -/
def Call.uses : Call → Bool
  | .installByPackage .. => true
  | .registerShortcut .. => true
  | _ => false

def Call.queries : Call → Bool
  | .getInstallStatus _ => true
  | _ => false

def Call.terminates : Call → Bool
  | .appInstUtilTerminate => true
  | _ => false

def Call.installs : Call → Bool
  | .installByPackage .. => true
  | _ => false

/-- An install call that succeeded. -/
def Call.installed : Call → Bool
  | .installByPackage _ _ _ result => result == 0
  | _ => false

/-- The branches of the request loop, with what each does to the helper. -/
inductive Branch (h : Helper) (q : Request) (n : Native) : Option Call → Helper → Prop
  | install (hused : h.used = false) :
      Branch h q n (some (.installByPackage q.uri q.name q.iconUrl n.result))
        { h with used := true, installed := n.result == 0, info := n.info.cut }
  | status (hinstalled : h.installed = true) :
      Branch h q n (some (.getInstallStatus h.info.contentId)) h
  | shortcut (hused : h.used = false) :
      Branch h q n (some (.registerShortcut q.titleId q.directory)) { h with used := true }
  | close : Branch h q n (some .appInstUtilTerminate) { h with terminated := true }
  | refused : Branch h q n none h

theorem handle_branch (h : Helper) (q : Request) (n : Native) :
    Branch h q n (handle h q n).call (handle h q n).helper := by
  unfold handle
  by_cases hi : q.op = ipcInstall ∧ h.used = false
  · rw [if_pos hi]
    exact .install hi.2
  · rw [if_neg hi]
    by_cases hs : q.op = ipcStatus ∧ h.installed = true
    · rw [if_pos hs]
      exact .status hs.2
    · rw [if_neg hs]
      by_cases hc : q.op = ipcShortcut ∧ h.used = false
      · rw [if_pos hc]
        exact .shortcut hc.2
      · rw [if_neg hc]
        by_cases ht : q.op = ipcClose
        · rw [if_pos ht]
          exact .close
        · rw [if_neg ht]
          exact .refused

namespace Branch

variable {h h' : Helper} {q : Request} {n : Native} {c : Option Call}

theorem uses (hb : Branch h q n c h') :
    c.toList.countP Call.uses + h.used.toNat = h'.used.toNat := by
  cases hb with
  | install hused => rw [hused]; rfl
  | status => exact Nat.zero_add _
  | shortcut hused => rw [hused]; rfl
  | close => exact Nat.zero_add _
  | refused => exact Nat.zero_add _

theorem terminates (hb : Branch h q n c h') (ht : h.terminated = false) :
    c.toList.countP Call.terminates = h'.terminated.toNat := by
  cases hb with
  | install => rw [ht]; rfl
  | status => rw [ht]; rfl
  | shortcut => rw [ht]; rfl
  | close => rfl
  | refused => rw [ht]; rfl

theorem queries (hb : Branch h q n c h') : ∀ d ∈ c, d.queries = true → h.installed = true := by
  intro d hd hq
  cases hb with
  | status hinstalled => exact hinstalled
  | refused => cases hd
  | _ => cases Option.mem_some_iff.mp hd; cases hq

theorem installed (hb : Branch h q n c h') (hinstalled : h'.installed = true) :
    h.installed = true ∨ ∃ d ∈ c, d.installed = true := by
  cases hb with
  | install => exact .inr ⟨_, rfl, hinstalled⟩
  | _ => exact .inl hinstalled

theorem starts_not (hb : Branch h q n c h') (r : Int32) : .appInstUtilInitialize r ∉ c := by
  intro hmem
  cases hb <;> cases hmem

end Branch

/-- Every status query stands behind an install call that succeeded. -/
def Queried (installed : Bool) (calls : List Call) : Prop :=
  ∀ before d after, calls = before ++ d :: after → d.queries = true →
    installed = true ∨ ∃ e ∈ before, e.installed = true

theorem Queried.append {installed installed' : Bool} {c : Option Call} {calls : List Call}
    (hq : Queried installed' calls) (hc : ∀ d ∈ c, d.queries = true → installed = true)
    (hi : installed' = true → installed = true ∨ ∃ d ∈ c, d.installed = true) :
    Queried installed (c.toList ++ calls) := by
  intro before d after heq hd
  cases c with
  | none =>
    rcases hq before d after heq hd with h | h
    · rcases hi h with h | ⟨e, he, _⟩
      · exact .inl h
      · cases he
    · exact .inr h
  | some e =>
    cases before with
    | nil =>
      obtain ⟨rfl, -⟩ := List.cons.inj heq
      exact .inl (hc e rfl hd)
    | cons b before =>
      obtain ⟨rfl, htail⟩ := List.cons.inj heq
      rcases hq before d after htail hd with h | ⟨f, hf, hok⟩
      · rcases hi h with h | ⟨f, hf, hok⟩
        · exact .inl h
        · exact .inr ⟨f, Option.mem_some_iff.mp hf ▸ List.mem_cons_self, hok⟩
      · exact .inr ⟨f, List.mem_cons_of_mem e hf, hok⟩

theorem queried_nil (installed : Bool) : Queried installed [] := by
  intro before d after heq _
  cases before <;> cases heq

/-- What holds of the calls of a request loop that begins with the helper. -/
structure Kept (h : Helper) (l : Loop) : Prop where
  uses : l.calls.countP Call.uses + h.used.toNat = l.helper.used.toNat
  queried : Queried h.installed l.calls
  terminates : l.calls.countP Call.terminates = l.helper.terminated.toNat
  starts_not : ∀ r, .appInstUtilInitialize r ∉ l.calls

theorem kept_nothing {h : Helper} (ht : h.terminated = false) (done : Bool) :
    Kept h ⟨h, [], done⟩ where
  uses := Nat.zero_add _
  queried := queried_nil _
  terminates := by
    rw [ht]
    rfl
  starts_not := fun _ => List.not_mem_nil

theorem kept_last {h h' : Helper} {q : Request} {n : Native} {c : Option Call}
    (hb : Branch h q n c h') (ht : h.terminated = false) (done : Bool) :
    Kept h ⟨h', c.toList, done⟩ where
  uses := hb.uses
  queried := by
    rw [← List.append_nil c.toList]
    exact (queried_nil h'.installed).append hb.queries hb.installed
  terminates := hb.terminates ht
  starts_not := fun r hmem => hb.starts_not r (Option.mem_toList.mp hmem)

theorem kept_more {h h' : Helper} {q : Request} {n : Native} {c : Option Call} {l : Loop}
    (hb : Branch h q n c h') (ht : h.terminated = false) (ht' : h'.terminated = false)
    (hl : Kept h' l) : Kept h { l with calls := c.toList ++ l.calls } where
  uses := by
    have hc := hb.uses
    have hrest := hl.uses
    show (c.toList ++ l.calls).countP Call.uses + _ = l.helper.used.toNat
    rw [List.countP_append]
    omega
  queried := hl.queried.append hb.queries hb.installed
  terminates := by
    have hc := hb.terminates ht
    have hrest := hl.terminates
    rw [ht', Bool.toNat_false] at hc
    show (c.toList ++ l.calls).countP Call.terminates = l.helper.terminated.toNat
    rw [List.countP_append]
    omega
  starts_not := by
    intro r hmem
    rcases List.mem_append.mp hmem with hmem | hmem
    · exact hb.starts_not r (Option.mem_toList.mp hmem)
    · exact hl.starts_not r hmem

theorem loop_kept (h : Helper) (ts : List Turn) (ht : h.terminated = false) : Kept h (loop h ts) := by
  induction ts generalizing h with
  | nil => exact kept_nothing ht false
  | cons t ts ih =>
    unfold loop
    cases t.received with
    | none => exact kept_nothing ht true
    | some q =>
      dsimp only
      by_cases hq : q.accepted = true
      · rw [if_pos hq]
        have hb := handle_branch h q t.native
        by_cases hmore : t.sent = true ∧ (handle h q t.native).helper.terminated = false
        · rw [if_pos hmore]
          exact kept_more hb ht hmore.2 (ih _ hmore.2)
        · rw [if_neg hmore]
          exact kept_last hb ht true
      · rw [if_neg hq]
        exact kept_nothing ht true

theorem installs_le_uses (calls : List Call) : calls.countP Call.installs ≤ calls.countP Call.uses := by
  apply List.countP_mono_left
  intro c _ hc
  cases c with
  | installByPackage => rfl
  | _ => cases hc

/-- What holds of the calls of a process, and once it has returned. -/
structure Balanced (s : Serve) : Prop where
  uses : s.calls.countP Call.uses ≤ 1
  queried : Queried false s.calls
  terminates : s.returned ≠ none → s.calls.countP Call.terminates =
    if .appInstUtilInitialize 0 ∈ s.calls then 1 else 0

theorem queried_initialize {calls : List Call} (h : Queried false calls) (r : Int32) :
    Queried false (.appInstUtilInitialize r :: calls) :=
  h.append (c := some (.appInstUtilInitialize r)) (fun _ hd hq => by cases hd; cases hq) fun h => .inl h

theorem queried_terminate {installed : Bool} {calls : List Call} (h : Queried installed calls) :
    Queried installed (calls ++ [.appInstUtilTerminate]) := by
  intro before d after heq hd
  rcases List.eq_nil_or_concat after with rfl | ⟨after, e, rfl⟩
  · obtain ⟨-, hlast⟩ := List.append_inj' heq rfl
    cases hlast
    cases hd
  · rw [List.concat_eq_append, ← List.cons_append, ← List.append_assoc] at heq
    exact h before d after (List.append_inj' heq rfl).1 hd

theorem loop_balanced {l : Loop} {h : Helper} (hused : h.used = false) (hi : h.installed = false)
    (hkept : Kept h l) :
    (l.calls.countP Call.uses ≤ 1) ∧ Queried false (.appInstUtilInitialize 0 :: l.calls) := by
  have huses := hkept.uses
  rw [hused, Bool.toNat_false] at huses
  have hle := Bool.toNat_le l.helper.used
  exact ⟨by omega, queried_initialize (hi ▸ hkept.queried) 0⟩

theorem serve_balanced (s : Start) (turns : List Turn) : Balanced (serve s turns) := by
  unfold serve
  by_cases hw : s.watched = true
  · rw [if_pos hw]
    by_cases hstart : s.readySent = false ∨ s.initialized ≠ 0
    · rw [if_pos hstart]
      by_cases h0 : s.initialized = 0
      · rw [h0]
        exact ⟨Nat.zero_le _, queried_initialize (queried_terminate (queried_nil false)) 0,
          fun _ => rfl⟩
      · rw [if_neg h0]
        refine ⟨Nat.zero_le _, queried_initialize (queried_nil false) _, fun _ => ?_⟩
        have hnot : Call.appInstUtilInitialize 0 ∉ [Call.appInstUtilInitialize s.initialized] :=
          fun hmem => h0 (Call.appInstUtilInitialize.inj (List.mem_singleton.mp hmem)).symm
        exact (if_neg hnot).symm
    · rw [if_neg hstart]
      obtain ⟨-, h0⟩ := not_or.mp hstart
      rw [not_not.mp h0]
      have hkept := loop_kept (.fresh s.pid) turns rfl
      obtain ⟨huses, hqueried⟩ := loop_balanced rfl rfl hkept
      have hterminates := hkept.terminates
      by_cases hdone : (loop (.fresh s.pid) turns).done = true
      · rw [if_pos hdone]
        by_cases ht : (loop (.fresh s.pid) turns).helper.terminated = true
        · rw [if_pos ht, List.append_nil]
          rw [ht] at hterminates
          exact ⟨huses, hqueried, fun _ => hterminates.trans (if_pos List.mem_cons_self).symm⟩
        · rw [if_neg ht]
          rw [eq_false_of_ne_true ht] at hterminates
          refine ⟨?_, queried_terminate hqueried, fun _ => ?_⟩
          · show ((loop (.fresh s.pid) turns).calls ++ [_]).countP Call.uses ≤ 1
            rw [List.countP_append]
            exact huses
          · refine Eq.trans ?_ (if_pos List.mem_cons_self).symm
            show ((loop (.fresh s.pid) turns).calls ++ [_]).countP Call.terminates = 1
            rw [List.countP_append, hterminates]
            rfl
      · rw [if_neg hdone]
        exact ⟨huses, hqueried, fun h => absurd rfl h⟩
  · rw [if_neg hw]
    exact ⟨Nat.zero_le _, queried_nil false, fun _ => rfl⟩

/-- The helper's side of the protocol: one install call at most, status queries
only behind an install call that succeeded, no install and shortcut in one
process, and on return as many terminations as initializations that succeeded. -/
theorem calls_in_order (s : Start) (turns : List Turn) :
    (serve s turns).calls.countP Call.installs ≤ 1 ∧
    (∀ before contentId after, (serve s turns).calls = before ++ .getInstallStatus contentId :: after →
      ∃ uri name iconUrl, .installByPackage uri name iconUrl 0 ∈ before) ∧
    (∀ uri name iconUrl result titleId directory,
      ¬(.installByPackage uri name iconUrl result ∈ (serve s turns).calls ∧
        .registerShortcut titleId directory ∈ (serve s turns).calls)) ∧
    ((serve s turns).returned ≠ none →
      (serve s turns).calls.count .appInstUtilTerminate =
        if .appInstUtilInitialize 0 ∈ (serve s turns).calls then 1 else 0) := by
  obtain ⟨huses, hqueried, hterminates⟩ := serve_balanced s turns
  refine ⟨Nat.le_trans (installs_le_uses _) huses, ?_, ?_, ?_⟩
  · intro before contentId after heq
    rcases hqueried before _ after heq rfl with h | ⟨e, he, hok⟩
    · cases h
    · cases e with
      | installByPackage uri name iconUrl result =>
        have h0 : result = 0 := eq_of_beq hok
        exact ⟨uri, name, iconUrl, h0 ▸ he⟩
      | _ => cases hok
  · rintro uri name iconUrl result titleId directory ⟨hi, hc⟩
    obtain ⟨before, after, heq⟩ := List.append_of_mem hi
    rw [heq, List.countP_append, List.countP_cons_of_pos rfl] at huses
    rw [heq] at hc
    rcases List.mem_append.mp hc with hc | hc
    · have hpos := List.countP_pos_iff.mpr ⟨_, hc, (rfl : Call.uses _ = true)⟩
      omega
    · rcases List.mem_cons.mp hc with h | hc
      · cases h
      · have hpos := List.countP_pos_iff.mpr ⟨_, hc, (rfl : Call.uses _ = true)⟩
        omega
  · intro hret
    rw [← hterminates hret]
    unfold List.count
    congr 1
    funext c
    cases c <;> rfl

end PkgManager.InstallHelper
