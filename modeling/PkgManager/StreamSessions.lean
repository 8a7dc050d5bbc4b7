import PkgManager.StreamServer

namespace PkgManager.StreamSessions

open Interleaving Machine ConditionVariable Installer StreamServer

/-- No stop is under way when a session becomes current. -/
def publishesAlone (p : Pool Server Thread) (i : Nat) (e : Event) : Bool :=
  match p.threads[i]? with
  | some t =>
    !publishes t e || p.threads.all fun u => match u with
      | .stop _ _ _ => false
      | _ => true
  | none => true

/-- The stream a start has opened and not yet handed over. -/
def held : Thread → Option Nat
  | .start _ (.bind vs _) => some vs
  | .start _ (.publish vs _) => some vs
  | _ => none

/-- The stream, the icon and the names of the session are as they were. -/
structure SameCurrent (s s' : Server) : Prop where
  vs : s'.vs = s.vs
  iconData : s'.iconData = s.iconData
  iconName : s'.iconName = s.iconName
  sessionName : s'.sessionName = s.sessionName
  closed : s'.closed = s.closed

/-- A session is torn down by its own stop, once, and not while a request has its
stream. -/
structure Owned (p : Pool Server Thread) : Prop where
  own : ∀ (i : Nat) (e : Event) (q : Pool Server Thread) (began : Option Nat) (pc : StopPc)
    (resume : Option Path), p.threads[i]? = some (.stop began pc resume) →
    streams.step p i e = some q → ∀ vs, p.shared.vs = some vs → began ≠ some vs →
      SameCurrent p.shared q.shared
  once : ∀ vs < p.shared.opened, p.shared.closed.count vs ≤ 1 ∧
    (p.shared.closed.count vs = 0 ↔
      p.shared.vs = some vs ∨ ∃ t ∈ p.threads, held t = some vs)
  pinned : ∀ listener vs, .server listener (some vs) ∈ p.threads → vs ∉ p.shared.closed

/-! What the sections do to the streams, the port and the pins. -/

structure Parts where
  vs : Option Nat
  vsRefs : Nat
  listenFd : Bool
  port : Bool
  opened : Nat
  closed : List Nat

def parts (s : Server) : Parts := ⟨s.vs, s.vsRefs, s.listenFd, s.port, s.opened, s.closed⟩

/-- What a thread holds: a bound socket, a pin, a stream, and the stream that was
current when its stop began. -/
structure Profile where
  binds : Bool
  pin : Option Nat
  holds : Option Nat
  stop : Option (Option Nat)
deriving DecidableEq

def plain : Profile := ⟨false, none, none, none⟩

@[simp] theorem plain_binds : plain.binds = false := rfl

@[simp] theorem plain_pin : plain.pin = none := rfl

@[simp] theorem plain_holds : plain.holds = none := rfl

@[simp] theorem plain_stop : plain.stop = none := rfl

def profile : Thread → Profile
  | .stop began (.close lfd _) _ => ⟨lfd, none, none, some began⟩
  | .stop began _ _ => ⟨false, none, none, some began⟩
  | .start _ (.bind vs _) => ⟨false, none, some vs, none⟩
  | .start _ (.publish vs _) => ⟨true, none, some vs, none⟩
  | .server _ pin => ⟨false, pin, none, none⟩
  | _ => plain

inductive Move (pub : Bool) (g : Parts) (t : Profile) : Parts → Profile → Prop
  | quiet : Move pub g t g t
  | begins : t = plain →
      Move pub g t { g with listenFd := false } ⟨g.listenFd, none, none, some g.vs⟩
  | closes {b} : t = ⟨true, none, none, some b⟩ →
      Move pub g t { g with port := false } ⟨false, none, none, some b⟩
  | tears {b} : t = ⟨false, none, none, some b⟩ → g.vsRefs = 0 →
      Move pub g t { g with vs := none, closed := g.vs.toList ++ g.closed } plain
  | opens : t = plain →
      Move pub g t { g with opened := g.opened + 1 } ⟨false, none, some g.opened, none⟩
  | binds {v} : t = ⟨false, none, some v, none⟩ → g.port = false →
      Move pub g t { g with port := true } ⟨true, none, some v, none⟩
  | discards {v} : t = ⟨false, none, some v, none⟩ →
      Move pub g t { g with closed := v :: g.closed } plain
  | publishes {v} : pub = true → t = ⟨true, none, some v, none⟩ →
      Move pub g t { g with vs := some v, vsRefs := 0, listenFd := true } plain
  | publishFails {v} : pub = true → t = ⟨true, none, some v, none⟩ →
      Move pub g t { g with
        vs := none, vsRefs := 0, listenFd := false, port := false, closed := v :: g.closed } plain
  | acquires {v} : t = plain → g.vs = some v →
      Move pub g t { g with vsRefs := g.vsRefs + 1 } ⟨false, some v, none, none⟩
  | releases {v} : t = ⟨false, some v, none, none⟩ →
      Move pub g t { g with vsRefs := g.vsRefs - 1 } plain

theorem drain_move {s : Server} {began : Option Nat} {resume : Option Path} {pub : Bool} :
    Move pub (parts s) ⟨false, none, none, some began⟩ (parts (drain s began resume).1)
      (profile (drain s began resume).2) := by
  unfold drain
  split
  · exact .quiet
  · have hz : s.vsRefs = 0 := by omega
    cases resume <;> exact .tears rfl hz

theorem stopTurn_move {s s' : Server} {began : Option Nat} {resume : Option Path}
    {pc : StopPc} {e : Event} {t' : Thread} {pub : Bool}
    (h : stopTurn s began resume pc e = some (s', t')) :
    Move pub (parts s) (profile (.stop began pc resume)) (parts s') (profile t') := by
  unfold stopTurn at h
  split at h
  · rename_i lfd join
    cases h
    have hprofile : profile (.stop began (if join then .join else .drain) resume) =
        ⟨false, none, none, some began⟩ := by
      cases join <;> rfl
    rw [hprofile]
    cases lfd with
    | true => exact .closes rfl
    | false => exact .quiet
  · cases h
    exact .quiet
  · split at h <;> cases h
    exact .quiet
  · have hs := Option.some.inj h
    rw [show s' = (drain s began resume).1 from (congrArg Prod.fst hs).symm,
      show t' = (drain s began resume).2 from (congrArg Prod.snd hs).symm]
    exact drain_move
  · split at h
    · cases h
    · have hs := Option.some.inj h
      rw [show s' = (drain s began resume).1 from (congrArg Prod.fst hs).symm,
        show t' = (drain s began resume).2 from (congrArg Prod.snd hs).symm]
      exact drain_move
  · obtain ⟨c, hc, he⟩ := Option.map_eq_some_iff.mp h
    cases he
    exact .quiet
  · cases h

theorem startTurn_move {s s' : Server} {name : Path} {pc : StartPc} {e : Event} {t' : Thread}
    {new : List Thread} (h : startTurn s name pc e = some (s', t', new)) :
    Move (publishes (.start name pc) e) (parts s) (profile (.start name pc)) (parts s')
      (profile t') ∧ ∀ u ∈ new, profile u = plain := by
  have hnone : ∀ u ∈ ([] : List Thread), profile u = plain :=
    fun _ hu => absurd hu List.not_mem_nil
  unfold startTurn at h
  split at h
  · cases h
    refine ⟨?_, hnone⟩
    split <;> exact .quiet
  · cases h
    exact ⟨.begins rfl, hnone⟩
  · split at h <;> cases h
    · exact ⟨.opens rfl, hnone⟩
    · exact ⟨.quiet, hnone⟩
  · split at h
    · split at h <;> cases h
      rename_i hport
      exact ⟨.binds rfl (Bool.eq_false_iff.mpr hport), hnone⟩
    · cases h
      exact ⟨.discards rfl, hnone⟩
  · rename_i vs size created
    cases created with
    | true =>
      cases h
      refine ⟨.publishes rfl rfl, fun u hu => ?_⟩
      obtain rfl := List.mem_singleton.mp hu
      rfl
    | false =>
      cases h
      exact ⟨.publishFails rfl rfl, hnone⟩
  · cases h

theorem release_parts {s s' : Server} {wake : Nat} (h : streamVsRelease s wake = some s') :
    parts s' = { parts s with vsRefs := s.vsRefs - 1 } := by
  unfold streamVsRelease at h
  simp only at h
  split at h
  · obtain ⟨c, _, rfl⟩ := Option.map_eq_some_iff.mp h
    rfl
  · cases h
    rfl

theorem serverTurn_move {s s' : Server} {listener pin : Option Nat} {e : Event} {t' : Thread}
    {new : List Thread} {pub : Bool} (h : serverTurn s listener pin e = some (s', t', new)) :
    Move pub (parts s) (profile (.server listener pin)) (parts s') (profile t') ∧
      ∀ u ∈ new, profile u = plain := by
  have hnone : ∀ u ∈ ([] : List Thread), profile u = plain :=
    fun _ hu => absurd hu List.not_mem_nil
  unfold serverTurn at h
  split at h
  · split at h <;> cases h
    refine ⟨.quiet, fun u hu => ?_⟩
    obtain rfl := List.mem_singleton.mp hu
    rfl
  · split at h
    · rename_i hpin
      rw [hpin]
      unfold streamVsAcquire at h
      split at h
      · split at h
        · rename_i vs hvs
          cases h
          exact ⟨.acquires rfl hvs, hnone⟩
        · cases h
          exact ⟨.quiet, hnone⟩
      · cases h
        exact ⟨.quiet, hnone⟩
    · cases h
  · split at h
    · cases h
    · rename_i hpin
      obtain ⟨vs, rfl⟩ := Option.ne_none_iff_exists'.mp hpin
      obtain ⟨s₁, hr, he⟩ := Option.map_eq_some_iff.mp h
      cases he
      rw [release_parts hr]
      exact ⟨.releases rfl, hnone⟩
  · split at h
    · cases h
      exact ⟨.quiet, hnone⟩
    · split at h <;> cases h
      exact ⟨.quiet, hnone⟩
    · cases h
  · cases h

theorem begin_move {s s' : Server} {e : Event} {t' : Thread} {new : List Thread} {pub : Bool}
    (h : begin s e = some (s', t', new)) :
    Move pub (parts s) plain (parts s') (profile t') ∧ ∀ u ∈ new, profile u = plain := by
  have hnone : ∀ u ∈ ([] : List Thread), profile u = plain :=
    fun _ hu => absurd hu List.not_mem_nil
  cases e with
  | stop =>
    cases h
    exact ⟨.begins rfl, hnone⟩
  | start path name =>
    cases h
    refine ⟨?_, hnone⟩
    split <;> exact .quiet
  | setIcon data name allocOk =>
    cases h
    refine ⟨?_, hnone⟩
    unfold setIcon
    split <;> exact .quiet
  | setName name =>
    cases h
    exact ⟨.quiet, hnone⟩
  | _ => cases h

theorem turn_move {s s' : Server} {t t' : Thread} {e : Event} {new : List Thread}
    (h : turn s t e = some (s', t', new)) :
    Move (publishes t e) (parts s) (profile t) (parts s') (profile t') ∧
      ∀ u ∈ new, profile u = plain := by
  cases t with
  | idle => exact begin_move h
  | returned n => exact begin_move h
  | stop began pc resume =>
    obtain ⟨r, hr, he⟩ := Option.map_eq_some_iff.mp h
    cases he
    exact ⟨stopTurn_move hr, fun _ hu => absurd hu List.not_mem_nil⟩
  | start name pc => exact startTurn_move h
  | server listener pin => exact serverTurn_move h
  | gone => cases h

/-! How many threads hold what. -/

/-- One if `o` is the stream `v`. -/
def here (o : Option Nat) (v : Nat) : Nat := if o = some v then 1 else 0

def binding (ts : List Profile) : Nat := ts.countP (·.binds)

def pinning (ts : List Profile) : Nat := ts.countP (·.pin.isSome)

def stops (ts : List Profile) : Nat := ts.countP (·.stop.isSome)

def holding (ts : List Profile) (v : Nat) : Nat := ts.countP (·.holds = some v)

@[simp] theorem here_none (v : Nat) : here none v = 0 := rfl

theorem count_cons_here (x v : Nat) (l : List Nat) :
    (x :: l).count v = here (some x) v + l.count v := by
  unfold here
  rw [List.count_cons]
  by_cases hx : x = v
  · simp [hx, Nat.add_comm]
  · simp [hx]

theorem lt_succ_here (n v : Nat) :
    (if v < n + 1 then 1 else 0) = (if v < n then 1 else 0) + here (some n) v := by
  unfold here
  rcases Nat.lt_trichotomy v n with hlt | rfl | hgt
  · rw [if_pos (by omega), if_pos hlt, if_neg (by simp; omega)]
  · simp
  · rw [if_neg (by omega), if_neg (by omega), if_neg (by simp; omega)]

theorem count_toList (o : Option Nat) (v : Nat) (l : List Nat) :
    (o.toList ++ l).count v = here o v + l.count v := by
  cases o with
  | none => simp
  | some x => exact count_cons_here x v l

section

variable {pub : Bool} {p : Pool Parts Profile} {g' : Parts} {t t' : Profile} {new : List Profile}
  {i : Nat}

/-- How a step changes a count that new threads do not enter. -/
theorem count_step (P : Profile → Bool) (hP : P plain = false) (ht : p.threads[i]? = some t)
    (t' : Profile) (hnew : ∀ u ∈ new, u = plain) :
    (p.threads.set i t' ++ new).countP P + (P t).toNat = p.threads.countP P + (P t').toNat := by
  have h := countP_step P t' new ht
  have hzero : new.countP P = 0 := by
    rw [List.countP_eq_zero]
    intro u hu
    rw [hnew u hu, hP]
    exact Bool.false_ne_true
  have hbool : ∀ b : Bool, (if b = true then 1 else 0) = b.toNat := by decide
  rw [hzero, hbool, hbool] at h
  exact h

theorem holding_step (ht : p.threads[i]? = some t) (t' : Profile) (hnew : ∀ u ∈ new, u = plain)
    (v : Nat) : holding (p.threads.set i t' ++ new) v + here t.holds v =
      holding p.threads v + here t'.holds v := by
  have hbool : ∀ o : Option Nat, (decide (o = some v)).toNat = here o v := by
    intro o
    unfold here
    by_cases ho : o = some v <;> simp [ho]
  have h := count_step (fun u => u.holds = some v) (by simp [plain]) ht t' hnew
  rw [hbool, hbool] at h
  exact h

/-- Every opened stream is in one place: current, held by a start, or closed. -/
structure Inv (g : Parts) (ts : List Profile) : Prop where
  port : binding ts + g.listenFd.toNat = g.port.toNat
  refs : g.vsRefs = pinning ts
  pins : ∀ t ∈ ts, ∀ v, t.pin = some v → g.vs = some v
  current : g.vs ≠ none → 0 < g.listenFd.toNat + stops ts
  began : ∀ t ∈ ts, ∀ b, t.stop = some b → g.vs = none ∨ g.vs = b
  once : ∀ v, g.closed.count v + here g.vs v + holding ts v = if v < g.opened then 1 else 0

/-- Where a start is about to publish and no stop is under way, no session is current. -/
theorem Inv.idle (h : Inv p.shared p.threads) (ht : p.threads[i]? = some t)
    (hbinds : t.binds = true) (hg : ∀ u ∈ p.threads, u.stop = none) :
    p.shared.vs = none ∧ p.shared.port.toNat = 1 ∧ p.shared.listenFd.toNat = 0 := by
  have hpos : 0 < binding p.threads :=
    List.countP_pos_iff.mpr ⟨t, List.mem_of_getElem? ht, hbinds⟩
  have hstops : stops p.threads = 0 := by
    unfold stops
    rw [List.countP_eq_zero]
    intro u hu
    rw [hg u hu]
    exact Bool.false_ne_true
  have hport := h.port
  have hone : p.shared.port.toNat ≤ 1 := Bool.toNat_le _
  refine ⟨?_, by omega, by omega⟩
  by_contra hvs
  have hcurrent := h.current hvs
  omega

/-- Where no session is current, no request is in flight. -/
theorem Inv.refs_of_none (h : Inv p.shared p.threads) (hvs : p.shared.vs = none) :
    p.shared.vsRefs = 0 := by
  rw [h.refs]
  unfold pinning
  rw [List.countP_eq_zero]
  intro u hu hpin
  obtain ⟨v, hv⟩ := Option.isSome_iff_exists.mp hpin
  have hcurrent := h.pins u hu v hv
  rw [hvs] at hcurrent
  cases hcurrent

theorem Inv.unpinned (h : Inv p.shared p.threads) (hz : p.shared.vsRefs = 0) :
    ∀ u ∈ p.threads, u.pin = none := by
  intro u hu
  have hcount := h.refs.symm.trans hz
  simpa using List.countP_eq_zero.mp hcount u hu

theorem pins_step (h : Inv p.shared p.threads) (ht : p.threads[i]? = some t)
    (hnew : ∀ u ∈ new, u = plain) (hmove : ∀ v, t'.pin = some v → g'.vs = some v)
    (hkeep : (∀ u ∈ p.threads, u.pin = none) ∨ g'.vs = p.shared.vs) :
    ∀ u ∈ p.threads.set i t' ++ new, ∀ v, u.pin = some v → g'.vs = some v := by
  refine forall_step ht hmove (fun u hu v hv => ?_) fun u hu v hv => ?_
  · rcases hkeep with hnone | hsame
    · rw [hnone u hu] at hv
      cases hv
    · rw [hsame]
      exact h.pins u hu v hv
  · rw [hnew u hu] at hv
    cases hv

theorem began_step (h : Inv p.shared p.threads) (ht : p.threads[i]? = some t)
    (hnew : ∀ u ∈ new, u = plain) (hmove : ∀ b, t'.stop = some b → g'.vs = none ∨ g'.vs = b)
    (hkeep : (∀ u ∈ p.threads, u.stop = none) ∨ g'.vs = none ∨ g'.vs = p.shared.vs) :
    ∀ u ∈ p.threads.set i t' ++ new, ∀ b, u.stop = some b → g'.vs = none ∨ g'.vs = b := by
  refine forall_step ht hmove (fun u hu b hb => ?_) fun u hu b hb => ?_
  · rcases hkeep with hnone | hnone | hsame
    · rw [hnone u hu] at hb
      cases hb
    · exact .inl hnone
    · rw [hsame]
      exact h.began u hu b hb
  · rw [hnew u hu] at hb
    cases hb

theorem inv_step (h : Inv p.shared p.threads) (ht : p.threads[i]? = some t)
    (hm : Move pub p.shared t g' t') (hnew : ∀ u ∈ new, u = plain)
    (hg : pub = true → ∀ u ∈ p.threads, u.stop = none) :
    Inv g' (p.threads.set i t' ++ new) := by
  have hmem := List.mem_of_getElem? ht
  have hport := h.port
  have hrefs := h.refs
  have honce := h.once
  have hcurrent := h.current
  have hb : binding _ + _ = binding _ + _ := count_step (·.binds) rfl ht t' hnew
  have hp : pinning _ + _ = pinning _ + _ := count_step (·.pin.isSome) rfl ht t' hnew
  have hs : stops _ + _ = stops _ + _ := count_step (·.stop.isSome) rfl ht t' hnew
  have ho := holding_step ht t' hnew
  cases hm with
  | quiet =>
    refine ⟨by omega, by omega, pins_step h ht hnew (h.pins _ hmem) (.inr rfl), fun hvs => ?_,
      began_step h ht hnew (h.began _ hmem) (.inr (.inr rfl)), fun v => ?_⟩
    · have := hcurrent hvs
      omega
    · have := honce v
      have := ho v
      omega
  | begins hplain =>
    subst hplain
    simp only [plain_binds, plain_pin, plain_holds, plain_stop, Option.isSome_none,
      Option.isSome_some, Bool.toNat_false, Bool.toNat_true, here_none] at hb hp hs ho
    refine ⟨?_, ?_, pins_step h ht hnew nofun (.inr rfl), fun _ => ?_,
      began_step h ht hnew (fun b hb => .inr (Option.some.inj hb)) (.inr (.inr rfl)), fun v => ?_⟩
    · dsimp only [Bool.toNat_false]
      omega
    · dsimp only
      omega
    · omega
    · have := honce v
      have := ho v
      dsimp only
      omega
  | closes hstop =>
    subst hstop
    simp only [Option.isSome_none, Option.isSome_some, Bool.toNat_false, Bool.toNat_true,
      here_none] at hb hp hs ho
    have hone : p.shared.port.toNat ≤ 1 := Bool.toNat_le _
    refine ⟨?_, ?_, pins_step h ht hnew nofun (.inr rfl), fun _ => ?_,
      began_step h ht hnew (fun b hb => h.began _ hmem b hb) (.inr (.inr rfl)), fun v => ?_⟩
    · dsimp only [Bool.toNat_false]
      omega
    · dsimp only
      omega
    · dsimp only
      have hpos : 0 < stops p.threads := List.countP_pos_iff.mpr ⟨_, hmem, rfl⟩
      omega
    · have := honce v
      have := ho v
      dsimp only
      omega
  | tears hstop hz =>
    subst hstop
    simp only [plain_binds, plain_pin, plain_holds, plain_stop, Option.isSome_none,
      Option.isSome_some, Bool.toNat_false, Bool.toNat_true, here_none] at hb hp hs ho
    refine ⟨?_, ?_, pins_step h ht hnew nofun (.inl (h.unpinned hz)), fun hvs => absurd rfl hvs,
      began_step h ht hnew nofun (.inr (.inl rfl)), fun v => ?_⟩
    · dsimp only
      omega
    · dsimp only
      omega
    · have := honce v
      have := ho v
      dsimp only
      rw [count_toList, here_none]
      omega
  | opens hplain =>
    subst hplain
    simp only [plain_binds, plain_pin, plain_holds, plain_stop, Option.isSome_none,
      Bool.toNat_false, here_none] at hb hp hs ho
    refine ⟨?_, ?_, pins_step h ht hnew nofun (.inr rfl), fun hvs => ?_,
      began_step h ht hnew nofun (.inr (.inr rfl)), fun v => ?_⟩
    · dsimp only
      omega
    · dsimp only
      omega
    · have := hcurrent hvs
      dsimp only
      omega
    · have := honce v
      have := ho v
      dsimp only
      rw [lt_succ_here]
      omega
  | binds hheld hport' =>
    subst hheld
    simp only [Option.isSome_none, Bool.toNat_false, Bool.toNat_true] at hb hp hs ho
    rw [hport', Bool.toNat_false] at hport
    refine ⟨?_, ?_, pins_step h ht hnew nofun (.inr rfl), fun hvs => ?_,
      began_step h ht hnew nofun (.inr (.inr rfl)), fun v => ?_⟩
    · dsimp only [Bool.toNat_true]
      omega
    · dsimp only
      omega
    · have := hcurrent hvs
      dsimp only
      omega
    · have := honce v
      have := ho v
      dsimp only
      omega
  | discards hheld =>
    subst hheld
    simp only [plain_binds, plain_pin, plain_holds, plain_stop, Option.isSome_none,
      Bool.toNat_false, here_none] at hb hp hs ho
    refine ⟨?_, ?_, pins_step h ht hnew nofun (.inr rfl), fun hvs => ?_,
      began_step h ht hnew nofun (.inr (.inr rfl)), fun v => ?_⟩
    · dsimp only
      omega
    · dsimp only
      omega
    · have := hcurrent hvs
      dsimp only
      omega
    · have := honce v
      have := ho v
      dsimp only
      rw [count_cons_here]
      omega
  | publishes hpub hheld =>
    subst hheld
    obtain ⟨hvs, hport', hlisten⟩ := h.idle ht rfl (hg hpub)
    have hz := h.refs_of_none hvs
    simp only [plain_binds, plain_pin, plain_holds, plain_stop, Option.isSome_none,
      Bool.toNat_false, Bool.toNat_true, here_none] at hb hp hs ho
    refine ⟨?_, ?_, pins_step h ht hnew nofun (.inl (h.unpinned hz)), fun _ => ?_,
      began_step h ht hnew nofun (.inl (hg hpub)), fun v => ?_⟩
    · dsimp only [Bool.toNat_true]
      omega
    · dsimp only
      omega
    · dsimp only [Bool.toNat_true]
      omega
    · have h1 := honce v
      have := ho v
      rw [hvs, here_none] at h1
      dsimp only
      omega
  | publishFails hpub hheld =>
    subst hheld
    obtain ⟨hvs, hport', hlisten⟩ := h.idle ht rfl (hg hpub)
    have hz := h.refs_of_none hvs
    simp only [plain_binds, plain_pin, plain_holds, plain_stop, Option.isSome_none,
      Bool.toNat_false, Bool.toNat_true, here_none] at hb hp hs ho
    refine ⟨?_, ?_, pins_step h ht hnew nofun (.inl (h.unpinned hz)), fun hne => absurd rfl hne,
      began_step h ht hnew nofun (.inl (hg hpub)), fun v => ?_⟩
    · dsimp only [Bool.toNat_false]
      omega
    · dsimp only
      omega
    · have h1 := honce v
      have := ho v
      rw [hvs, here_none] at h1
      dsimp only
      rw [count_cons_here, here_none]
      omega
  | acquires hplain hvs =>
    subst hplain
    simp only [plain_binds, plain_pin, plain_holds, plain_stop, Option.isSome_none,
      Option.isSome_some, Bool.toNat_false, Bool.toNat_true, here_none] at hb hp hs ho
    refine ⟨?_, ?_, pins_step h ht hnew (fun v hv => ?_) (.inr rfl), fun hne => ?_,
      began_step h ht hnew nofun (.inr (.inr rfl)), fun v => ?_⟩
    · dsimp only
      omega
    · dsimp only
      omega
    · rw [← hv]
      exact hvs
    · have := hcurrent hne
      dsimp only
      omega
    · have := honce v
      have := ho v
      dsimp only
      omega
  | releases hpin =>
    subst hpin
    simp only [plain_binds, plain_pin, plain_holds, plain_stop, Option.isSome_none,
      Option.isSome_some, Bool.toNat_false, Bool.toNat_true, here_none] at hb hp hs ho
    refine ⟨?_, ?_, pins_step h ht hnew nofun (.inr rfl), fun hne => ?_,
      began_step h ht hnew nofun (.inr (.inr rfl)), fun v => ?_⟩
    · dsimp only
      omega
    · dsimp only
      omega
    · have := hcurrent hne
      dsimp only
      omega
    · have := honce v
      have := ho v
      dsimp only
      omega

end

theorem inv_start (n : Nat) : Inv (parts (start n).shared) ((start n).threads.map profile) := by
  have hplain : ∀ t ∈ (start n).threads.map profile, t = plain := by
    intro t ht
    obtain ⟨u, hu, rfl⟩ := List.mem_map.mp ht
    rw [List.eq_of_mem_replicate hu]
    rfl
  have hzero : ∀ P : Profile → Bool, P plain = false →
      ((start n).threads.map profile).countP P = 0 := by
    intro P hP
    rw [List.countP_eq_zero]
    intro t ht
    rw [hplain t ht, hP]
    exact Bool.false_ne_true
  refine ⟨hzero _ rfl, (hzero _ rfl).symm, fun t ht v hv => ?_, fun hvs => absurd rfl hvs,
    fun t ht b hb => .inl rfl, fun v => ?_⟩
  · rw [hplain t ht] at hv
    cases hv
  · have h : holding _ v = 0 := hzero (fun u => u.holds = some v) (by simp)
    show 0 + 0 + holding _ v = if v < 0 then 1 else 0
    rw [h, if_neg (Nat.not_lt_zero v)]

theorem inv_turn {p q : Pool Server Thread} {i : Nat} {e : Event}
    (h : Inv (parts p.shared) (p.threads.map profile)) (hg : publishesAlone p i e = true)
    (hs : streams.step p i e = some q) : Inv (parts q.shared) (q.threads.map profile) := by
  obtain ⟨t, s', t', new, ht, hact, rfl⟩ := step_eq_some hs
  obtain ⟨hm, hnew⟩ := turn_move hact
  have halone : publishes t e = true → ∀ u ∈ p.threads.map profile, u.stop = none := by
    intro hpub u hu
    obtain ⟨v, hv, rfl⟩ := List.mem_map.mp hu
    simp only [publishesAlone, ht, hpub, Bool.not_true, Bool.false_or] at hg
    have hv' := List.all_eq_true.mp hg v hv
    cases v with
    | stop began pc resume => cases hv'
    | start name pc => cases pc <;> rfl
    | _ => rfl
  have hnew' : ∀ u ∈ new.map profile, u = plain := by
    intro u hu
    obtain ⟨v, hv, rfl⟩ := List.mem_map.mp hu
    exact hnew v hv
  have ht' : (p.threads.map profile)[i]? = some (profile t) := by
    rw [List.getElem?_map, ht]
    rfl
  have hinv := inv_step (p := ⟨parts p.shared, p.threads.map profile⟩) h ht' hm hnew' halone
  rw [List.map_append, List.map_set]
  exact hinv

theorem profile_stop (began : Option Nat) (pc : StopPc) (resume : Option Path) :
    (profile (.stop began pc resume)).stop = some began := by
  cases pc <;> rfl

theorem profile_holds (t : Thread) : (profile t).holds = held t := by
  cases t with
  | stop began pc resume => cases pc <;> rfl
  | start name pc => cases pc <;> rfl
  | _ => rfl

theorem holding_pos {ts : List Thread} {v : Nat} :
    0 < holding (ts.map profile) v ↔ ∃ t ∈ ts, held t = some v := by
  unfold holding
  rw [List.countP_pos_iff]
  constructor
  · rintro ⟨u, hu, hv⟩
    obtain ⟨t, ht, rfl⟩ := List.mem_map.mp hu
    exact ⟨t, ht, by rw [← profile_holds]; simpa using hv⟩
  · rintro ⟨t, ht, hv⟩
    exact ⟨profile t, List.mem_map.mpr ⟨t, ht, rfl⟩, by simp [profile_holds, hv]⟩

/-- In every run in which no session becomes current while a stop is under way, every
session is torn down by its own stop, once, and not while a request has its stream. -/
theorem sessions_owned (n : Nat) (p : Pool Server Thread)
    (h : Reach streams (fun p i e => publishesAlone p i e = true) (start n) p) : Owned p := by
  have hinv : Inv (parts p.shared) (p.threads.map profile) :=
    h.invariant (fun p => Inv (parts p.shared) (p.threads.map profile)) (inv_start n)
      fun p i e q hp hg hs => inv_turn hp hg hs
  have hhere : ∀ v, here p.shared.vs v = 1 ↔ p.shared.vs = some v := by
    intro v
    unfold here
    split <;> simp_all
  have hle : ∀ v, here p.shared.vs v ≤ 1 := by
    intro v
    unfold here
    split <;> omega
  refine ⟨fun i e q began pc resume ht hs vs hvs hne => ?_, fun vs hvs => ?_,
    fun listener vs hmem => ?_⟩
  · have hstop := hinv.began _ (List.mem_map.mpr ⟨_, List.mem_of_getElem? ht, rfl⟩) began
      (profile_stop began pc resume)
    have hcur : p.shared.vs = none ∨ p.shared.vs = began := hstop
    rw [hvs] at hcur
    rcases hcur with hnone | hsame
    · cases hnone
    · exact absurd hsame.symm hne
  · have honce : p.shared.closed.count vs + here p.shared.vs vs +
        holding (p.threads.map profile) vs = 1 := (hinv.once vs).trans (if_pos hvs)
    have h1 := hle vs
    refine ⟨by omega, ?_⟩
    rw [← hhere, ← holding_pos]
    omega
  · have hcur : p.shared.vs = some vs := hinv.pins _ (List.mem_map.mpr ⟨_, hmem, rfl⟩) vs rfl
    have honce : p.shared.closed.count vs + here p.shared.vs vs +
        holding (p.threads.map profile) vs = if vs < p.shared.opened then 1 else 0 := hinv.once vs
    rw [(hhere vs).mpr hcur] at honce
    rw [← List.count_eq_zero]
    split at honce <;> omega

/-- A session is started, read and stopped. -/
theorem sessions_owned_stopped : ∃ p,
    Reach streams (fun p i e => publishesAlone p i e = true) (start 2) p ∧
      p.shared.opened = 1 ∧ p.shared.closed = [0] ∧ Owned p := by
  have hrun : (streams.exec (fun p i e => publishesAlone p i e = true)
      (pinEvents ++ stopEvents ++ [(3, .release 0), (0, .go)]) (start 2)).map
        (fun p => (p.shared.opened, p.shared.closed)) = some (1, [0]) := by rfl
  obtain ⟨p, hp, hobs⟩ := Option.map_eq_some_iff.mp hrun
  obtain ⟨hopened, hclosed⟩ := Prod.mk.inj hobs
  exact ⟨p, .of_exec hp, hopened, hclosed, sessions_owned 2 p (.of_exec hp)⟩

/-- The session a stop found that now waits for its listener. -/
def drainedBy : Thread → Option (Option Nat)
  | .stop began .drain none => some began
  | _ => none

theorem eq_of_drainedBy {t : Thread} {began : Option Nat} (h : drainedBy t = some began) :
    t = .stop began .drain none := by
  unfold drainedBy at h
  split at h
  · cases h
    rfl
  · cases h

/-- A stop closes the session that was started while it waited for the listener. -/
theorem sessions_owned_fails :
    ¬∀ n p, Reach streams (fun _ _ _ => True) (start n) p → Owned p := by
  intro hall
  have hrun : (streams.exec (fun _ _ _ => True)
      (startEvents 0 ++ stopEvents ++ startEvents 1) (start 2)).map (fun p =>
        (p.threads[0]?.bind drainedBy, p.shared.vs,
          (streams.step p 0 .go).map fun q => q.shared.vs)) =
      some (some (some 0), some 1, some none) := by rfl
  obtain ⟨p, hp, hobs⟩ := Option.map_eq_some_iff.mp hrun
  obtain ⟨hthread, hobs⟩ := Prod.mk.inj hobs
  obtain ⟨hvs, hq⟩ := Prod.mk.inj hobs
  obtain ⟨t, ht, hbegan⟩ := Option.bind_eq_some_iff.mp hthread
  obtain ⟨q, hq, hnone⟩ := Option.map_eq_some_iff.mp hq
  obtain rfl := eq_of_drainedBy hbegan
  have hsame := ((hall 2 p (.of_exec hp)).own 0 .go q _ _ _ ht hq 1 hvs (by decide)).vs
  rw [hnone, hvs] at hsame
  cases hsame

end PkgManager.StreamSessions
