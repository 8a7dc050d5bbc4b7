import PkgManager.Interleaving
import PkgManager.LiveCalls

namespace PkgManager.UploadListener

open Interleaving LiveSession LiveCalls

/-- The globals of the listener in `ws_upload.c`, and the session it serves. `bound` is the
socket that has the port; sockets and accept threads are numbered as they come. -/
structure Hub where
  live : Live
  lifecycleMu : Bool
  running : Bool
  listenFd : Option Nat
  listenPort : Nat
  created : Bool
  thread : Nat
  tracked : List (Option Nat)
  bound : Option Nat
  sockets : Nat
  listeners : Nat
  exited : List Nat

/-- `live_add`: without a free slot a connection is not tracked. -/
def liveAdd (fd : Nat) : List (Option Nat) → List (Option Nat)
  | [] => []
  | none :: slots => some fd :: slots
  | some c :: slots => some c :: liveAdd fd slots

def liveRemove (fd : Nat) (slots : List (Option Nat)) : List (Option Nat) :=
  slots.map fun c => if c = some fd then none else c

/-- Where `ws_direct_ensure_listener` stands; from `check` on in `ws_direct_listener_start`. -/
inductive StartPc where
  | ensure
  | check
  | bind
  | listen (fd : Nat)
  | publish (fd : Nat)
  | port (fd : Nat)
  | run (fd : Nat)
  | create (fd : Nat)
  | note
  | seekFn

/-- Where `ws_direct_listener_stop_if_idle` stands behind its lock; from `take` on in
`ws_direct_listener_stop`. -/
inductive StopPc where
  | session
  | clients
  | decide (clients : Bool)
  | take
  | close (lfd : Option Nat) (join : Bool)
  | join
  | joining (thread : Nat)
  | port

/-- `held` tells of the lifecycle lock. A listener is at the head of its loop, or in
`accept` on a socket. -/
inductive Thread where
  | idle
  | returned (n : Int)
  | init (c : CreateCall)
  | creating (c : CreateCall)
  | starting (held : Bool) (pc : StartPc)
  | stopIdle
  | stopping (held : Bool) (pc : StopPc)
  | leaving (n : Int)
  | listener (id : Nat) (fd : Option (Option Nat))
  | conn (fd : Nat) (added : Bool)
  | gone

inductive Event where
  | init (c : CreateCall)
  | ensure
  | stopIdle
  | force
  | session (live : Live)
  | go
  | fail
  | accept
  | interrupted

/-- The end of a start: in `ws_direct_init_session` its result is not looked at. -/
def started (held : Bool) (n : Int) : Thread := if held then .leaving 0 else .returned n

def startTurn (port : Nat) (s : Hub) (held : Bool) :
    StartPc → Event → Option (Hub × Thread × List Thread)
  | .ensure, .go =>
    some (s, if s.running then started held 0 else .starting held .check, [])
  | .check, .go => some (s, if s.running then started held 0 else .starting held .bind, [])
  | .bind, .fail => some (s, started held (-1), [])
  | .bind, .go =>
    if s.bound.isSome then some (s, started held (-1), [])
    else
      some ({ s with bound := some s.sockets, sockets := s.sockets + 1 },
        .starting held (.listen s.sockets), [])
  | .listen _, .fail => some ({ s with bound := none }, started held (-1), [])
  | .listen fd, .go => some (s, .starting held (.publish fd), [])
  | .publish fd, .go => some ({ s with listenFd := some fd }, .starting held (.port fd), [])
  | .port fd, .go => some ({ s with listenPort := port }, .starting held (.run fd), [])
  | .run fd, .go => some ({ s with running := true }, .starting held (.create fd), [])
  | .create fd, .fail =>
    some ({ s with
      running := false
      bound := if s.bound = some fd then none else s.bound
      listenFd := none }, started held (-1), [])
  | .create _, .go =>
    some ({ s with thread := s.listeners, listeners := s.listeners + 1 }, .starting held .note,
      [.listener s.listeners none])
  | .note, .go => some ({ s with created := true }, .starting held .seekFn, [])
  | .seekFn, .go => some ({ s with live := { s.live with seekFn := true } }, started held 0, [])
  | _, _ => none

def stopTurn (s : Hub) (held : Bool) : StopPc → Event → Option (Hub × Thread × List Thread)
  | .session, .go => some (s, if s.live.active then .leaving 0 else .stopping held .clients, [])
  | .clients, .go => some (s, .stopping held (.decide (s.tracked.any Option.isSome)), [])
  | .decide clients, .go =>
    some (s, if clients || !s.running then .leaving 0 else .stopping held .take, [])
  | .take, .go =>
    some ({ s with
      running := false
      created := false
      listenFd := none
      tracked := s.tracked.map fun _ => none }, .stopping held (.close s.listenFd s.created), [])
  | .close lfd join, .go =>
    some ({ s with bound := if s.bound = lfd then none else s.bound },
      .stopping held (if join then .join else .port), [])
  | .join, .go => some (s, .stopping held (.joining s.thread), [])
  | .joining thread, .go =>
    if s.exited.contains thread then some (s, .stopping held .port, []) else none
  | .port, .go => some ({ s with listenPort := 0 }, if held then .leaving 1 else .returned 0, [])
  | _, _ => none

/-- `ws_listener_fn`: what it does when `accept` fails. -/
def again (s : Hub) (id : Nat) : Hub × Thread × List Thread :=
  if s.running then (s, .listener id none, []) else ({ s with exited := id :: s.exited }, .gone, [])

def listenerTurn (s : Hub) (id : Nat) :
    Option (Option Nat) → Event → Option (Hub × Thread × List Thread)
  | none, .go =>
    some (if s.running then (s, .listener id (some s.listenFd), [])
      else ({ s with exited := id :: s.exited }, .gone, []))
  | some fd, .accept =>
    if fd.isSome ∧ s.bound = fd then
      some ({ s with sockets := s.sockets + 1 }, .listener id none, [.conn s.sockets false])
    else none
  | some _, .interrupted => some (s, .listener id none, [])
  | some _, .go => some (again s id)
  | _, _ => none

/-- The calls of the request handlers and of the main loop. `session` is a call of
`ws_stream.c` that creates no session. -/
def ask (s : Hub) : Event → Option (Hub × Thread × List Thread)
  | .init c =>
    some (s, if c.filename = [] ∨ c.totalSize = 0 ∨ maxTotal < c.totalSize then .returned (-1)
      else .init c, [])
  | .ensure => some (s, .starting false .ensure, [])
  | .stopIdle => some (s, .stopIdle, [])
  | .force => some (s, if s.running then .stopping false .take else .returned 0, [])
  | .session live => if live.active ∧ !s.live.active then none else some ({ s with live }, .returned 0, [])
  | _ => none

def turn (port : Nat) (s : Hub) : Thread → Event → Option (Hub × Thread × List Thread)
  | .idle, e => ask s e
  | .returned _, e => ask s e
  | .init c, .go => if s.lifecycleMu then none else some ({ s with lifecycleMu := true }, .creating c, [])
  | .creating c, .go =>
    some ({ s with live := (wsLiveCreate s.live c).1 },
      if (wsLiveCreate s.live c).2 = 0 then .starting true .ensure
      else .leaving (wsLiveCreate s.live c).2, [])
  | .starting held pc, e => startTurn port s held pc e
  | .stopIdle, .go =>
    if s.lifecycleMu then none else some ({ s with lifecycleMu := true }, .stopping true .session, [])
  | .stopping held pc, e => stopTurn s held pc e
  | .leaving n, .go => some ({ s with lifecycleMu := false }, .returned n, [])
  | .listener id fd, e => listenerTurn s id fd e
  | .conn fd false, .go => some ({ s with tracked := liveAdd fd s.tracked }, .conn fd true, [])
  | .conn fd true, .go => some ({ s with tracked := liveRemove fd s.tracked }, .gone, [])
  | _, _ => none

def uploads (port : Nat) : Machine Hub Thread Event where
  act e s t := turn port s t e

def start (n : Nat) : Pool Hub Thread :=
  ⟨⟨.init false, false, false, none, 0, false, 0, List.replicate 16 none, none, 0, 0, []⟩,
    List.replicate n .idle⟩

/-- Neither is a call of the operating system refused, but for a port in use, nor does the
main loop take the listener down for a new network. -/
def Event.calm : Event → Bool
  | .fail => false
  | .force => false
  | _ => true

/-! What the threads hold. -/

/-- The thread has the lifecycle lock. -/
def Thread.owns : Thread → Bool
  | .creating _ => true
  | .starting held _ => held
  | .stopping held _ => held
  | .leaving _ => true
  | _ => false

/-- The socket that a start has bound and has not handed over. -/
def StartPc.fd : StartPc → Option Nat
  | .listen fd => some fd
  | .publish fd => some fd
  | .port fd => some fd
  | .run fd => some fd
  | _ => none

def StopPc.lfd : StopPc → Option Nat
  | .close lfd _ => lfd
  | _ => none

/-- The thread has the socket with the port, and nobody else knows of it. -/
def Thread.holds : Thread → Bool
  | .starting _ pc => pc.fd.isSome
  | .stopping _ pc => pc.lfd.isSome
  | _ => false

def StartPc.early : StartPc → Bool
  | .ensure => true
  | .check => true
  | .bind => true
  | _ => false

/-- The thread will set `g_listen_running`, or find it set. -/
def Thread.raises : Thread → Bool
  | .starting held pc => pc.fd.isSome || held && pc.early
  | _ => false

def StartPc.creates : StartPc → Bool
  | .create _ => true
  | _ => false

/-- The thread accepts connections, or creates the one that does. -/
def Thread.mans : Thread → Bool
  | .starting _ pc => pc.creates
  | .listener _ _ => true
  | _ => false

def Thread.opens : Thread → Bool
  | .starting _ _ => true
  | _ => false

def StartPc.Holds (s : Hub) : StartPc → Prop
  | .listen fd => s.bound = some fd
  | .publish fd => s.bound = some fd
  | .port fd => s.bound = some fd ∧ s.listenFd = some fd
  | .run fd => s.bound = some fd ∧ s.listenFd = some fd
  | _ => True

def StopPc.Holds (s : Hub) : StopPc → Prop
  | .clients => s.live.active = false
  | .decide _ => s.live.active = false
  | .take => s.live.active = false ∧ s.running = true
  | .close lfd _ => lfd.isSome = true ∧ s.bound = lfd
  | _ => True

/-- What a thread relies on while the others move. -/
def Steady (s : Hub) : Thread → Prop
  | .starting _ pc => pc.Holds s
  | .stopping held pc => held = true ∧ pc.Holds s
  | _ => True

/-! What a turn does. -/

/-- Nothing that threads rely on is different, though the session may have ended. -/
structure Aside (s s' : Hub) : Prop where
  running : s'.running = s.running
  listenFd : s'.listenFd = s.listenFd
  bound : s'.bound = s.bound
  active : s.live.active = false → s'.live.active = false

theorem Aside.refl (s : Hub) : Aside s s := ⟨rfl, rfl, rfl, id⟩

theorem Aside.steady {s s' : Hub} (h : Aside s s') {t : Thread} (ht : Steady s t) : Steady s' t := by
  cases t with
  | starting held pc =>
    unfold Steady at ht ⊢
    cases pc <;> simp only [StartPc.Holds, h.bound, h.listenFd] at ht ⊢ <;> exact ht
  | stopping held pc =>
    refine ⟨ht.1, ?_⟩
    have hpc := ht.2
    cases pc with
    | clients => exact h.active hpc
    | decide clients => exact h.active hpc
    | take => exact ⟨h.active hpc.1, h.running.trans hpc.2⟩
    | close lfd join => exact ⟨hpc.1, h.bound.trans hpc.2⟩
    | session => exact hpc
    | join => exact hpc
    | joining thread => exact hpc
    | port => exact hpc
  | _ => exact ht

/-- The turns without a refusal. `glide` has those that move no claim on the lock or the
port. -/
inductive Move (s : Hub) : Thread → Hub → Thread → List Thread → Prop
  | glide {t t' : Thread} {s' : Hub} {new : List Thread} (hmu : s'.lifecycleMu = s.lifecycleMu)
      (hs : Aside s s') (howns : t'.owns = t.owns) (hholds : t'.holds = t.holds) (hraises : t.raises = true → t'.raises = true)
      (hmans : t.mans = true → t'.mans = true) (hsteady : Steady s t → Steady s t')
      (hnew : ∀ u ∈ new, u.owns = false ∧ u.holds = false ∧ Steady s u) : Move s t s' t' new
  | lock {t t' : Thread} (hfree : s.lifecycleMu = false) (ht : t.owns = false ∧ t.holds = false)
      (ht' : t'.owns = true ∧ t'.holds = false) (hraises : t.raises = false) (hmans : t.mans = false)
      (hsteady : Steady { s with lifecycleMu := true } t') :
      Move s t { s with lifecycleMu := true } t' []
  | unlock (n : Int) : Move s (.leaving n) { s with lifecycleMu := false } (.returned n) []
  | session (c : CreateCall) :
      Move s (.creating c) { s with live := (wsLiveCreate s.live c).1 } (.starting true .ensure) []
  | found {held : Bool} {pc : StartPc} (hpc : pc.early = true) (hrunning : s.running = true) :
      Move s (.starting held pc) s (started held 0) []
  | busy {held : Bool} (hbound : s.bound.isSome = true) :
      Move s (.starting held .bind) s (started held (-1)) []
  | bind {held : Bool} (hbound : s.bound = none) :
      Move s (.starting held .bind) { s with bound := some s.sockets, sockets := s.sockets + 1 }
        (.starting held (.listen s.sockets)) []
  | publish (held : Bool) (fd : Nat) :
      Move s (.starting held (.publish fd)) { s with listenFd := some fd } (.starting held (.port fd)) []
  | run (held : Bool) (fd : Nat) :
      Move s (.starting held (.run fd)) { s with running := true } (.starting held (.create fd)) []
  | create (held : Bool) (fd : Nat) :
      Move s (.starting held (.create fd))
        { s with thread := s.listeners, listeners := s.listeners + 1 } (.starting held .note)
        [.listener s.listeners none]
  | take (held : Bool) :
      Move s (.stopping held .take)
        { s with
          running := false
          created := false
          listenFd := none
          tracked := s.tracked.map fun _ => none }
        (.stopping held (.close s.listenFd s.created)) []
  | close (held : Bool) (lfd : Option Nat) (join : Bool) :
      Move s (.stopping held (.close lfd join))
        { s with bound := if s.bound = lfd then none else s.bound }
        (.stopping held (if join then .join else .port)) []
  | exit {id : Nat} {fd : Option (Option Nat)} (hrunning : s.running = false) :
      Move s (.listener id fd) { s with exited := id :: s.exited } .gone []

/-- A turn between places where a thread holds and raises nothing. -/
theorem Move.plain {s s' : Hub} {t t' : Thread} (hmu : s'.lifecycleMu = s.lifecycleMu)
    (hs : Aside s s') (howns : t'.owns = t.owns) (hholds : t'.holds = t.holds)
    (hraises : t.raises = false) (hmans : t.mans = false) (hsteady : Steady s t') :
    Move s t s' t' [] :=
  .glide hmu hs howns hholds (fun h => absurd (hraises.symm.trans h) Bool.false_ne_true)
    (fun h => absurd (hmans.symm.trans h) Bool.false_ne_true) (fun _ => hsteady)
    fun _ hu => absurd hu List.not_mem_nil

theorem wsLiveCreate_refused {lv : Live} {c : CreateCall} (h : (wsLiveCreate lv c).2 ≠ 0) :
    (wsLiveCreate lv c).1 = lv := by
  unfold wsLiveCreate at h ⊢
  dsimp only at h ⊢
  split_ifs at h ⊢ <;> first | rfl | exact absurd rfl h

theorem ask_move {s s' : Hub} {t t' : Thread} {new : List Thread} {e : Event}
    (h : ask s e = some (s', t', new)) (he : e.calm = true) (howns : t.owns = false) (hholds : t.holds = false)
    (hraises : t.raises = false) (hmans : t.mans = false) : Move s t s' t' new := by
  cases e with
  | init c =>
    simp only [ask] at h
    split at h
    · cases h
      exact .plain rfl (.refl s) howns.symm hholds.symm hraises hmans trivial
    · cases h
      exact .plain rfl (.refl s) howns.symm hholds.symm hraises hmans trivial
  | ensure =>
    cases h
    exact .plain rfl (.refl s) howns.symm hholds.symm hraises hmans trivial
  | stopIdle =>
    cases h
    exact .plain rfl (.refl s) howns.symm hholds.symm hraises hmans trivial
  | force => cases he
  | session live =>
    simp only [ask] at h
    split at h
    · cases h
    · rename_i hlive
      cases h
      refine .plain rfl ⟨rfl, rfl, rfl, fun hfree => ?_⟩ howns.symm hholds.symm hraises hmans trivial
      by_contra hactive
      exact hlive ⟨Bool.not_eq_false _ ▸ hactive, by rw [hfree]; rfl⟩
  | go => cases h
  | fail => cases h
  | accept => cases h
  | interrupted => cases h

theorem startTurn_move {port : Nat} {s s' : Hub} {held : Bool} {pc : StartPc} {t' : Thread}
    {new : List Thread} {e : Event} (h : startTurn port s held pc e = some (s', t', new)) (he : e.calm = true) :
    Move s (.starting held pc) s' t' new := by
  have hgo : e = .go := by
    cases e with
    | go => rfl
    | fail => cases he
    | _ => cases pc <;> cases h
  subst hgo
  have hnil : ∀ u ∈ ([] : List Thread), u.owns = false ∧ u.holds = false ∧ Steady s u :=
    fun _ hu => absurd hu List.not_mem_nil
  cases pc with
  | ensure =>
    simp only [startTurn] at h
    cases hrunning : s.running with
    | true =>
      simp only [hrunning] at h
      cases h
      exact .found rfl hrunning
    | false =>
      simp only [hrunning] at h
      cases h
      exact .glide rfl (.refl s) rfl rfl id id (fun _ => trivial) hnil
  | check =>
    simp only [startTurn] at h
    cases hrunning : s.running with
    | true =>
      simp only [hrunning] at h
      cases h
      exact .found rfl hrunning
    | false =>
      simp only [hrunning] at h
      cases h
      exact .glide rfl (.refl s) rfl rfl id id (fun _ => trivial) hnil
  | bind =>
    simp only [startTurn] at h
    split at h
    · rename_i hbound
      cases h
      exact .busy hbound
    · rename_i hbound
      cases h
      exact .bind (Option.not_isSome_iff_eq_none.mp hbound)
  | listen fd =>
    cases h
    exact .glide rfl (.refl s) rfl rfl id id id hnil
  | publish fd =>
    cases h
    exact .publish held fd
  | port fd =>
    cases h
    exact .glide rfl ⟨rfl, rfl, rfl, id⟩ rfl rfl id id id hnil
  | run fd =>
    cases h
    exact .run held fd
  | create fd =>
    cases h
    exact .create held fd
  | note =>
    cases h
    exact .glide rfl ⟨rfl, rfl, rfl, id⟩ rfl rfl id id id hnil
  | seekFn =>
    cases h
    cases held with
    | true => exact .plain rfl ⟨rfl, rfl, rfl, id⟩ rfl rfl rfl rfl trivial
    | false => exact .plain rfl ⟨rfl, rfl, rfl, id⟩ rfl rfl rfl rfl trivial

theorem stopTurn_move {s s' : Hub} {pc : StopPc} {t' : Thread} {new : List Thread} {e : Event}
    (h : stopTurn s true pc e = some (s', t', new)) : Move s (.stopping true pc) s' t' new := by
  have hgo : e = .go := by
    cases e with
    | go => rfl
    | _ => cases pc <;> cases h
  subst hgo
  cases pc with
  | session =>
    simp only [stopTurn] at h
    cases hactive : s.live.active with
    | true =>
      simp only [hactive] at h
      cases h
      exact .plain rfl (.refl s) rfl rfl rfl rfl trivial
    | false =>
      simp only [hactive] at h
      cases h
      exact .plain rfl (.refl s) rfl rfl rfl rfl ⟨rfl, hactive⟩
  | clients =>
    cases h
    exact .glide rfl (.refl s) rfl rfl id id id fun _ hu => absurd hu List.not_mem_nil
  | decide clients =>
    simp only [stopTurn] at h
    split at h
    · cases h
      exact .plain rfl (.refl s) rfl rfl rfl rfl trivial
    · rename_i hstop
      cases h
      have hrunning : s.running = true := by
        cases hr : s.running with
        | true => rfl
        | false =>
          rw [hr, Bool.not_false, Bool.or_true] at hstop
          exact absurd rfl hstop
      exact .glide rfl (.refl s) rfl rfl id id (fun hst => ⟨rfl, hst.2, hrunning⟩)
        fun _ hu => absurd hu List.not_mem_nil
  | take =>
    cases h
    exact .take true
  | close lfd join =>
    cases h
    exact .close true lfd join
  | join =>
    cases h
    exact .plain rfl (.refl s) rfl rfl rfl rfl ⟨rfl, trivial⟩
  | joining thread =>
    simp only [stopTurn] at h
    split at h
    · cases h
      exact .plain rfl (.refl s) rfl rfl rfl rfl ⟨rfl, trivial⟩
    · cases h
  | port =>
    cases h
    exact .plain rfl ⟨rfl, rfl, rfl, id⟩ rfl rfl rfl rfl trivial

theorem listenerTurn_move {s s' : Hub} {n : Nat} {fd : Option (Option Nat)} {t' : Thread}
    {new : List Thread} {e : Event} (h : listenerTurn s n fd e = some (s', t', new)) :
    Move s (.listener n fd) s' t' new := by
  have hnil : ∀ u ∈ ([] : List Thread), u.owns = false ∧ u.holds = false ∧ Steady s u :=
    fun _ hu => absurd hu List.not_mem_nil
  cases fd with
  | none =>
    cases e with
    | go =>
      simp only [listenerTurn] at h
      by_cases hrunning : s.running = true
      · rw [if_pos hrunning] at h
        cases h
        exact .glide rfl (.refl s) rfl rfl id id id hnil
      · rw [if_neg hrunning] at h
        cases h
        exact .exit (Bool.not_eq_true _ ▸ hrunning)
    | _ => cases h
  | some fd =>
    cases e with
    | accept =>
      simp only [listenerTurn] at h
      split at h
      · cases h
        refine .glide rfl ⟨rfl, rfl, rfl, id⟩ rfl rfl id id id fun u hu => ?_
        obtain rfl := List.mem_singleton.mp hu
        exact ⟨rfl, rfl, trivial⟩
      · cases h
    | interrupted =>
      cases h
      exact .glide rfl (.refl s) rfl rfl id id id hnil
    | go =>
      simp only [listenerTurn, again] at h
      by_cases hrunning : s.running = true
      · rw [if_pos hrunning] at h
        cases h
        exact .glide rfl (.refl s) rfl rfl id id id hnil
      · rw [if_neg hrunning] at h
        cases h
        exact .exit (Bool.not_eq_true _ ▸ hrunning)
    | _ => cases h

theorem turn_move {port : Nat} {s s' : Hub} {t t' : Thread} {new : List Thread} {e : Event}
    (h : turn port s t e = some (s', t', new)) (he : e.calm = true) (ht : Steady s t) :
    Move s t s' t' new := by
  cases t with
  | idle => exact ask_move h he rfl rfl rfl rfl
  | returned n => exact ask_move h he rfl rfl rfl rfl
  | init c =>
    cases e with
    | go =>
      simp only [turn] at h
      cases hmu : s.lifecycleMu with
      | true =>
        simp only [hmu] at h
        cases h
      | false =>
        simp only [hmu] at h
        cases h
        exact .lock hmu ⟨rfl, rfl⟩ ⟨rfl, rfl⟩ rfl rfl trivial
    | _ => cases h
  | creating c =>
    cases e with
    | go =>
      simp only [turn] at h
      split at h
      · cases h
        exact .session c
      · rename_i hrefused
        cases h
        rw [wsLiveCreate_refused hrefused]
        exact .plain rfl (.refl s) rfl rfl rfl rfl trivial
    | _ => cases h
  | starting held pc => exact startTurn_move h he
  | stopIdle =>
    cases e with
    | go =>
      simp only [turn] at h
      cases hmu : s.lifecycleMu with
      | true =>
        simp only [hmu] at h
        cases h
      | false =>
        simp only [hmu] at h
        cases h
        exact .lock hmu ⟨rfl, rfl⟩ ⟨rfl, rfl⟩ rfl rfl ⟨rfl, trivial⟩
    | _ => cases h
  | stopping held pc =>
    obtain rfl : held = true := ht.1
    exact stopTurn_move h
  | leaving n =>
    cases e with
    | go =>
      cases h
      exact .unlock n
    | _ => cases h
  | listener n fd => exact listenerTurn_move h
  | conn fd added =>
    cases e with
    | go =>
      cases added with
      | true =>
        cases h
        exact .plain rfl ⟨rfl, rfl, rfl, id⟩ rfl rfl rfl rfl trivial
      | false =>
        cases h
        exact .plain rfl ⟨rfl, rfl, rfl, id⟩ rfl rfl rfl rfl trivial
    | _ => cases added <;> cases h
  | gone => cases h

/-! The invariant. -/

/-- One thread at most has the lifecycle lock, one has the port or the listener has it. With
an active session the listener runs or is about to, and somebody accepts while it runs. -/
structure Inv (p : Pool Hub Thread) : Prop where
  alone : p.threads.countP Thread.owns = p.shared.lifecycleMu.toNat
  port : p.threads.countP Thread.holds + p.shared.running.toNat = p.shared.bound.isSome.toNat
  serving : p.shared.running = true → ∃ fd, p.shared.listenFd = some fd ∧ p.shared.bound = some fd
  steady : ∀ t ∈ p.threads, Steady p.shared t
  up : p.shared.live.active = true → p.shared.running = true ∨ ∃ t ∈ p.threads, t.raises = true
  manned : p.shared.running = true → ∃ t ∈ p.threads, t.mans = true

variable {p : Pool Hub Thread} {i : Nat} {t t' : Thread} {s' : Hub} {new : List Thread}

theorem countP_le_one_of_eq {P : Thread → Bool} {n : Nat} {b : Bool}
    (h : p.threads.countP P + n = b.toNat) : p.threads.countP P ≤ 1 := by
  have hle := Bool.toNat_le b
  omega

theorem Inv.owner (h : Inv p) (ht : p.threads[i]? = some t) (howns : t.owns = true) {j : Nat} {u : Thread}
    (hj : p.threads[j]? = some u) (hji : j ≠ i) : u.owns = false :=
  only_of_countP (countP_le_one_of_eq (n := 0) h.alone) ht howns hj hji

theorem Inv.holder (h : Inv p) (ht : p.threads[i]? = some t) (hholds : t.holds = true) :
    p.shared.running = false ∧ p.shared.bound.isSome = true ∧
      ∀ j u, p.threads[j]? = some u → j ≠ i → u.holds = false := by
  have hpos : 0 < p.threads.countP Thread.holds :=
    List.countP_pos_iff.mpr ⟨t, List.mem_of_getElem? ht, hholds⟩
  have hport := h.port
  have hbound := Bool.toNat_le p.shared.bound.isSome
  refine ⟨Bool.toNat_eq_zero.mp (by omega), Bool.toNat_eq_one.mp (by omega), fun j u hj hji => ?_⟩
  exact only_of_countP (countP_le_one_of_eq h.port) ht hholds hj hji

/-- What one turn has to show of the thread that moves. -/
theorem inv_step (h : Inv p) (ht : p.threads[i]? = some t)
    (howns : t'.owns.toNat + p.shared.lifecycleMu.toNat = s'.lifecycleMu.toNat + t.owns.toNat)
    (hholds : t'.holds.toNat + s'.running.toNat + p.shared.bound.isSome.toNat =
      t.holds.toNat + p.shared.running.toNat + s'.bound.isSome.toNat)
    (hnew : ∀ u ∈ new, u.owns = false ∧ u.holds = false ∧ Steady s' u)
    (hserving : s'.running = true → ∃ fd, s'.listenFd = some fd ∧ s'.bound = some fd)
    (hmove : Steady s' t') (hother : ∀ j u, j ≠ i → p.threads[j]? = some u → Steady s' u)
    (hup : s'.live.active = true → s'.running = true ∨ t'.raises = true ∨
      ∃ j u, j ≠ i ∧ p.threads[j]? = some u ∧ u.raises = true)
    (hmanned : s'.running = true → t'.mans = true ∨ (∃ u ∈ new, u.mans = true) ∨
      ∃ j u, j ≠ i ∧ p.threads[j]? = some u ∧ u.mans = true) :
    Inv ⟨s', p.threads.set i t' ++ new⟩ := by
  have hcount : ∀ (P : Thread → Bool), (∀ u ∈ new, P u = false) →
      (p.threads.set i t' ++ new).countP P + (P t).toNat = p.threads.countP P + (P t').toNat := by
    intro P hP
    have hone : ∀ b : Bool, (if b = true then 1 else 0) = b.toNat := fun b => by cases b <;> rfl
    have hstep := countP_step P t' new ht
    have hzero : new.countP P = 0 := List.countP_eq_zero.mpr fun u hu => by rw [hP u hu]; exact Bool.false_ne_true
    rw [hone, hone, hzero] at hstep
    exact hstep
  have hself : t' ∈ p.threads.set i t' ++ new := List.mem_of_getElem? (getElem?_step ht)
  have hfind : ∀ (P : Thread → Bool), (∃ j u, j ≠ i ∧ p.threads[j]? = some u ∧ P u = true) →
      ∃ u ∈ p.threads.set i t' ++ new, P u = true := by
    rintro P ⟨j, u, hji, hj, hu⟩
    exact ⟨u, List.mem_of_getElem? (getElem?_other hji hj), hu⟩
  refine ⟨?_, ?_, hserving, ?_, fun hactive => ?_, fun hrunning => ?_⟩
  · have hc := hcount Thread.owns fun u hu => (hnew u hu).1
    have ha := h.alone
    dsimp only
    omega
  · have hc := hcount Thread.holds fun u hu => (hnew u hu).2.1
    have hp := h.port
    dsimp only
    omega
  · intro u hu
    rcases mem_step ht hu with rfl | ⟨j, hji, hj⟩ | hn
    · exact hmove
    · exact hother j u hji hj
    · exact (hnew u hn).2.2
  · rcases hup hactive with hrunning | hraises | hothers
    · exact .inl hrunning
    · exact .inr ⟨t', hself, hraises⟩
    · exact .inr (hfind Thread.raises hothers)
  · rcases hmanned hrunning with hmans | ⟨u, hu, hmans⟩ | hothers
    · exact ⟨t', hself, hmans⟩
    · exact ⟨u, List.mem_append_right _ hu, hmans⟩
    · exact hfind Thread.mans hothers

/-- What a thread without the lock relies on. -/
theorem Steady.apart {s s' : Hub} {u : Thread} (h : Steady s u) (hu : u.owns = false)
    (hbound : s'.bound = s.bound) (hfd : s'.listenFd = s.listenFd) : Steady s' u := by
  cases u with
  | starting held pc =>
    unfold Steady at h ⊢
    cases pc <;> simp only [StartPc.Holds, hbound, hfd] at h ⊢ <;> exact h
  | stopping held pc => exact absurd (hu.symm.trans h.1) Bool.false_ne_true
  | _ => trivial

/-- A thread with neither relies on nothing. -/
theorem Steady.free {s s' : Hub} {u : Thread} (h : Steady s u) (howns : u.owns = false)
    (hholds : u.holds = false) : Steady s' u := by
  cases u with
  | starting held pc =>
    cases pc <;> first | trivial | cases hholds
  | stopping held pc => exact absurd (howns.symm.trans h.1) Bool.false_ne_true
  | _ => trivial

theorem Steady.bound {s : Hub} {u : Thread} (h : Steady s u) (hu : u.holds = true) :
    s.bound.isSome = true := by
  cases u with
  | starting held pc =>
    cases pc with
    | listen fd => exact Option.isSome_of_eq_some h
    | publish fd => exact Option.isSome_of_eq_some h
    | port fd => exact Option.isSome_of_eq_some h.1
    | run fd => exact Option.isSome_of_eq_some h.1
    | _ => cases hu
  | stopping held pc =>
    cases pc with
    | close lfd join => exact h.2.2 ▸ h.2.1
    | _ => cases hu
  | _ => cases hu

theorem inv_start (n : Nat) : Inv (start n) where
  alone := List.countP_replicate
  port := by
    have hnone : (start n).threads.countP Thread.holds = 0 := List.countP_replicate
    rw [hnone]
    rfl
  serving := fun hr => absurd hr Bool.false_ne_true
  steady := fun t ht => by
    obtain rfl := List.eq_of_mem_replicate ht
    trivial
  up := fun ha => absurd ha Bool.false_ne_true
  manned := fun hr => absurd hr Bool.false_ne_true

end PkgManager.UploadListener
