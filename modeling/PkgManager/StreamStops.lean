import PkgManager.StreamServer

namespace PkgManager.StreamStops

open Interleaving Machine ConditionVariable Installer StreamServer

/-- The step makes the thread wait for the requests in flight. -/
def waits (s : Server) (t : Thread) (e : Event) : Bool :=
  match t, e with
  | .stop _ .drain _, .go => 0 < s.vsRefs
  | .stop _ (.waiting ticket) _, .go => !s.vsCond.blocked.contains ticket && 0 < s.vsRefs
  | _, _ => false

/-- At most one stop waits, while `stopping` is set, and no session becomes current
meanwhile. -/
def oneWaits (p : Pool Server Thread) (i : Nat) (e : Event) : Bool :=
  let s := p.shared
  match p.threads[i]? with
  | some t =>
    (!waits s t e || (s.vsCond.blocked = [] && s.stopping)) &&
      (!publishes t e || s.vsCond.blocked = [])
  | none => true

/-- What follows a stop. -/
def afterStop : Option Path → Thread
  | some name => .start name .opening
  | none => .returned 0

/-- Without requests in flight, a stop that waits has its wake-up and goes on. -/
def Proceeds (p : Pool Server Thread) : Prop :=
  p.shared.vsRefs = 0 → ∀ (i : Nat) (began : Option Nat) (ticket : Nat) (resume : Option Path),
    p.threads[i]? = some (.stop began (.waiting ticket) resume) →
      ticket ∉ p.shared.vsCond.blocked ∧
        ∃ q, streams.step p i .go = some q ∧ q.threads[i]? = some (afterStop resume)

/-- Whoever is blocked is alone, and is going to be signalled. -/
structure Signalled (s : Server) : Prop where
  one : s.vsCond.blocked.length ≤ 1
  due : s.vsCond.blocked ≠ [] → s.stopping = true ∧ 0 < s.vsRefs

theorem Signalled.congr {s s' : Server} (h : Signalled s) (hb : s'.vsCond = s.vsCond)
    (hs : s.stopping = true → s'.stopping = true) (hr : s.vsRefs ≤ s'.vsRefs) : Signalled s' := by
  refine ⟨by rw [hb]; exact h.one, fun hne => ?_⟩
  rw [hb] at hne
  obtain ⟨hstop, hpos⟩ := h.due hne
  exact ⟨hs hstop, Nat.lt_of_lt_of_le hpos hr⟩

theorem signalled_of_none {s : Server} (h : s.vsCond.blocked = []) : Signalled s :=
  ⟨by rw [h]; exact Nat.zero_le 1, fun hne => absurd h hne⟩

/-- No one is blocked without requests in flight. -/
theorem Signalled.none_blocked {s : Server} (h : Signalled s) (hz : s.vsRefs = 0) :
    s.vsCond.blocked = [] := by
  by_contra hne
  have hpos := (h.due hne).2
  omega

theorem Signalled.erase {s : Server} {c : Cond} {k : Nat} (h : Signalled s)
    (hc : c.blocked = s.vsCond.blocked.erase k) : Signalled { s with vsCond := c } := by
  refine ⟨?_, fun hne => h.due fun hnone => hne ?_⟩
  · show c.blocked.length ≤ 1
    rw [hc]
    exact Nat.le_trans (List.length_erase_le) h.one
  · show c.blocked = []
    rw [hc, hnone]
    rfl

theorem drain_signalled {s : Server} {began : Option Nat} {resume : Option Path}
    (h : Signalled s)
    (hg : 0 < s.vsRefs → s.vsCond.blocked = [] ∧ s.stopping = true) :
    Signalled (drain s began resume).1 := by
  unfold drain
  split
  · rename_i hpos
    obtain ⟨hnone, hstop⟩ := hg hpos
    refine ⟨?_, fun _ => ⟨hstop, hpos⟩⟩
    show (s.vsCond.next :: s.vsCond.blocked).length ≤ 1
    rw [hnone]
    exact Nat.le_refl 1
  · exact signalled_of_none (h.none_blocked (by omega))

theorem release_signalled {s s' : Server} {wake : Nat} (h : Signalled s)
    (hr : streamVsRelease s wake = some s') : Signalled s' := by
  unfold streamVsRelease at hr
  simp only at hr
  split at hr
  · obtain ⟨c, hc, rfl⟩ := Option.map_eq_some_iff.mp hr
    exact signalled_of_none (Cond.signal_last hc h.one)
  · rename_i hno
    cases hr
    refine ⟨h.one, fun hne => ?_⟩
    obtain ⟨hstop, hpos⟩ := h.due hne
    refine ⟨hstop, ?_⟩
    show 0 < s.vsRefs - 1
    have hz : s.vsRefs - 1 ≠ 0 := fun hz => hno ⟨hstop, hz⟩
    omega

theorem stopTurn_signalled {s s' : Server} {began : Option Nat} {resume : Option Path}
    {pc : StopPc} {e : Event} {t' : Thread} (h : Signalled s)
    (hg : waits s (.stop began pc resume) e = true → s.vsCond.blocked = [] ∧ s.stopping = true)
    (ht : stopTurn s began resume pc e = some (s', t')) : Signalled s' := by
  unfold stopTurn at ht
  split at ht
  · cases ht
    exact h.congr rfl id (Nat.le_refl _)
  · cases ht
    exact h
  · split at ht <;> cases ht
    exact h
  · have hs : s' = (drain s began resume).1 := (congrArg Prod.fst (Option.some.inj ht)).symm
    rw [hs]
    exact drain_signalled h fun hpos => hg (by simp [waits, hpos])
  · split at ht
    · cases ht
    · rename_i hwoken
      have hs : s' = (drain s began resume).1 := (congrArg Prod.fst (Option.some.inj ht)).symm
      rw [hs]
      refine drain_signalled h fun hpos => hg ?_
      simp only [waits, hwoken, hpos]
      rfl
  · obtain ⟨c, hc, he⟩ := Option.map_eq_some_iff.mp ht
    cases he
    exact h.erase (Cond.spurious_some hc)
  · cases ht

theorem beginStop_signalled {s : Server} (resume : Option Path) (h : Signalled s) :
    Signalled (beginStop s resume).1 := by
  refine h.congr rfl (fun hstop => ?_) (Nat.le_refl _)
  show (if _ then true else s.stopping) = true
  split
  · rfl
  · exact hstop

theorem startTurn_signalled {s s' : Server} {name : Path} {pc : StartPc} {e : Event} {t' : Thread}
    {new : List Thread} (h : Signalled s)
    (hg : publishes (.start name pc) e = true → s.vsCond.blocked = [])
    (ht : startTurn s name pc e = some (s', t', new)) : Signalled s' := by
  unfold startTurn at ht
  split at ht
  · cases ht
    exact h
  · have hs : s' = (beginStop s (some name)).1 := (congrArg Prod.fst (Option.some.inj ht)).symm
    rw [hs]
    exact beginStop_signalled _ h
  · split at ht <;> cases ht
    · exact h.congr rfl id (Nat.le_refl _)
    · exact h
  · split at ht
    · split at ht <;> cases ht
      exact h.congr rfl id (Nat.le_refl _)
    · cases ht
      exact h.congr rfl id (Nat.le_refl _)
  · rename_i vs size created
    have hs : s' = (publishSession s name vs size created).1 :=
      (congrArg Prod.fst (Option.some.inj ht)).symm
    have hnone := hg rfl
    rw [hs]
    unfold publishSession
    split <;> exact signalled_of_none hnone
  · cases ht

theorem serverTurn_signalled {s s' : Server} {listener pin : Option Nat} {e : Event} {t' : Thread}
    {new : List Thread} (h : Signalled s)
    (ht : serverTurn s listener pin e = some (s', t', new)) : Signalled s' := by
  unfold serverTurn at ht
  split at ht
  · split at ht <;> cases ht
    exact h
  · split at ht
    · have hs : s' = (streamVsAcquire s).1 := (congrArg Prod.fst (Option.some.inj ht)).symm
      rw [hs]
      unfold streamVsAcquire
      split
      · split
        · exact h.congr rfl id (Nat.le_succ _)
        · exact h
      · exact h
    · cases ht
  · split at ht
    · cases ht
    · obtain ⟨s₁, hr, he⟩ := Option.map_eq_some_iff.mp ht
      cases he
      exact release_signalled h hr
  · split at ht
    · cases ht
      exact h
    · split at ht <;> cases ht
      exact h.congr rfl id (Nat.le_refl _)
    · cases ht
  · cases ht

theorem begin_signalled {s s' : Server} {e : Event} {t' : Thread} {new : List Thread}
    (h : Signalled s) (ht : begin s e = some (s', t', new)) : Signalled s' := by
  cases e with
  | stop =>
    have hs : s' = (beginStop s none).1 := (congrArg Prod.fst (Option.some.inj ht)).symm
    rw [hs]
    exact beginStop_signalled _ h
  | start path name =>
    cases ht
    exact h
  | setIcon data name allocOk =>
    have hs : s' = setIcon s data name allocOk := (congrArg Prod.fst (Option.some.inj ht)).symm
    rw [hs]
    unfold setIcon
    split <;> exact h.congr rfl id (Nat.le_refl _)
  | setName name =>
    cases ht
    exact h.congr rfl id (Nat.le_refl _)
  | _ => cases ht

theorem signalled_step {p q : Pool Server Thread} {i : Nat} {e : Event} (h : Signalled p.shared)
    (hg : oneWaits p i e = true) (hs : streams.step p i e = some q) : Signalled q.shared := by
  obtain ⟨t, s', t', new, ht, hact, rfl⟩ := step_eq_some hs
  simp only [oneWaits, ht, Bool.and_eq_true, Bool.or_eq_true, Bool.not_eq_true',
    decide_eq_true_eq] at hg
  obtain ⟨hwaits, hpublishes⟩ := hg
  have hturn : turn p.shared t e = some (s', t', new) := hact
  unfold turn at hturn
  split at hturn
  · exact begin_signalled h hturn
  · exact begin_signalled h hturn
  · obtain ⟨r, hr, he⟩ := Option.map_eq_some_iff.mp hturn
    cases he
    refine stopTurn_signalled h (fun hw => ?_) hr
    rcases hwaits with hno | hyes
    · exact absurd (hno.symm.trans hw) Bool.false_ne_true
    · exact hyes
  · refine startTurn_signalled h (fun hw => ?_) hturn
    rcases hpublishes with hno | hyes
    · exact absurd (hno.symm.trans hw) Bool.false_ne_true
    · exact hyes
  · exact serverTurn_signalled h hturn
  · cases hturn

/-- In every run in which at most one stop waits, while it is to be signalled, and no
session becomes current meanwhile, no stop misses its wake-up. -/
theorem stops_proceed (n : Nat) (p : Pool Server Thread)
    (h : Reach streams (fun p i e => oneWaits p i e = true) (start n) p) : Proceeds p := by
  have hinv : Signalled p.shared :=
    h.invariant (fun p => Signalled p.shared) (signalled_of_none rfl)
      fun p i e q hp hg hs => signalled_step hp hg hs
  intro hz i began ticket resume ht
  have hnone := hinv.none_blocked hz
  refine ⟨by rw [hnone]; exact List.not_mem_nil, ?_⟩
  have hdrain : drain p.shared began resume = (teardown p.shared, afterStop resume) := by
    unfold drain
    rw [if_neg (by omega)]
    cases resume <;> rfl
  have hstep : streams.step p i .go =
      some ⟨teardown p.shared, p.threads.set i (afterStop resume) ++ []⟩ := by
    simp [Machine.step, ht, streams, turn, stopTurn, hnone, hdrain]
  exact ⟨_, hstep, getElem?_step ht⟩

/-- What a run shows of the stop of thread `i`: its ticket, the requests in flight and
who is blocked. -/
def observed (p : Pool Server Thread) (i : Nat) : Option Nat × Nat × List Nat :=
  (p.threads[i]?.bind fun t => match t with
    | .stop _ (.waiting ticket) none => some ticket
    | _ => none, p.shared.vsRefs, p.shared.vsCond.blocked)

theorem observed_waits {p : Pool Server Thread} {i ticket refs : Nat} {blocked : List Nat}
    (h : observed p i = (some ticket, refs, blocked)) :
    (∃ began, p.threads[i]? = some (.stop began (.waiting ticket) none)) ∧
      p.shared.vsRefs = refs ∧ p.shared.vsCond.blocked = blocked := by
  obtain ⟨hthread, hrest⟩ := Prod.mk.inj h
  obtain ⟨hrefs, hblocked⟩ := Prod.mk.inj hrest
  refine ⟨?_, hrefs, hblocked⟩
  obtain ⟨t, ht, hticket⟩ := Option.bind_eq_some_iff.mp hthread
  rw [ht]
  split at hticket
  · cases hticket
    exact ⟨_, rfl⟩
  · cases hticket

/-- A stop waits for the request in flight and proceeds once it is over. -/
theorem stops_proceed_released : ∃ p q, Reach streams (fun p i e => oneWaits p i e = true) (start 2) p ∧
      (∃ began, p.threads[0]? = some (.stop began (.waiting 0) none)) ∧ p.shared.vsRefs = 0 ∧
      streams.step p 0 .go = some q ∧ q.threads[0]? = some (.returned 0) := by
  have hrun : (streams.exec (fun p i e => oneWaits p i e = true)
      (pinEvents ++ stopEvents ++ [(0, .go), (3, .release 0)]) (start 2)).map (observed · 0) =
      some (some 0, 0, []) := by rfl
  obtain ⟨p, hp, hobs⟩ := Option.map_eq_some_iff.mp hrun
  obtain ⟨⟨began, ht⟩, hrefs, _⟩ := observed_waits hobs
  obtain ⟨_, q, hq, hq'⟩ := stops_proceed 2 p (.of_exec hp) hrefs 0 began 0 none ht
  exact ⟨p, q, .of_exec hp, ⟨began, ht⟩, hrefs, hq, hq'⟩

/-- Two stops wait; the last release wakes one of them. -/
theorem stops_proceed_fails :
    ¬∀ n p, Reach streams (fun _ _ _ => True) (start n) p → Proceeds p := by
  intro hall
  have hrun : (streams.exec (fun _ _ _ => True)
      (pinEvents ++ stopEvents ++ [(1, .stop), (1, .go), (0, .go), (1, .go), (3, .release 0)])
      (start 2)).map (observed · 1) = some (some 1, 0, [1]) := by rfl
  obtain ⟨p, hp, hobs⟩ := Option.map_eq_some_iff.mp hrun
  obtain ⟨⟨began, ht⟩, hrefs, hblocked⟩ := observed_waits hobs
  have hfree := (hall 2 p (.of_exec hp) hrefs 1 began 1 none ht).1
  rw [hblocked] at hfree
  exact hfree (List.mem_singleton.mpr rfl)

end PkgManager.StreamStops
