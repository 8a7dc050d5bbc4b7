import PkgManager.SegmentsKept

namespace PkgManager.SegmentSender

open InsertionOrder

variable {β : Type} {s s' : Sender β} {e : Event β} {n m : Nat}

namespace Sender

/-- While a pump waits for a read its flight has not been sent. -/
def Unsent (s : Sender β) : Prop :=
  s.stopped = false → ∀ n r, s.pumping = some (n, r) → s.flights.get n = some ⟨r, false⟩

/-- What turns leave alone that neither take an answer nor end a read. -/
structure Frame (s s' : Sender β) : Prop where
  totalSegments : s'.totalSegments = s.totalSegments
  shouldStop : s'.shouldStop = s.shouldStop
  stopped : s'.stopped = false → s.stopped = false
  acknowledged : ∀ n ∈ s'.acknowledged, n ∈ s.acknowledged
  reads : ∀ c ∈ s'.reads, c ∈ s.reads ∨ c.result = none

theorem Frame.trans {s'' : Sender β} (h : s.Frame s') (k : s'.Frame s'') : s.Frame s'' :=
  ⟨k.totalSegments.trans h.totalSegments, k.shouldStop.trans h.shouldStop,
    fun hs => h.stopped (k.stopped hs), fun n hn => h.acknowledged n (k.acknowledged n hn),
    fun c hc => (k.reads c hc).elim (h.reads c) .inr⟩

theorem Frame.refl (s : Sender β) : s.Frame s := ⟨rfl, rfl, id, fun _ => id, fun _ => .inl⟩

theorem reads_of_oneMore {reads : List (Call β)} (h : OneMore s.reads reads) :
    ∀ c ∈ reads, c ∈ s.reads ∨ c.result = none := by
  intro c hc
  rcases h with heq | ⟨n, heq⟩
  · exact .inl (heq ▸ hc)
  · rw [heq] at hc
    rcases List.mem_append.mp hc with hc | hc
    · exact .inl hc
    · rw [List.mem_singleton.mp hc]
      exact .inr rfl

/-- A turn that sends nothing and takes no answer. -/
structure Same (s s' : Sender β) : Prop extends Frame s s' where
  sent : s'.sent = s.sent
  inTransit : ∀ m, s'.inTransit m = s.inTransit m

theorem Same.trans {s'' : Sender β} (h : s.Same s') (k : s'.Same s'') : s.Same s'' :=
  ⟨h.toFrame.trans k.toFrame, k.sent.trans h.sent,
    fun m => (k.inTransit m).trans (h.inTransit m)⟩

theorem same_of_eq (hf : s.Frame s') (hs : s'.sent = s.sent) (hflights : s'.flights = s.flights) :
    s.Same s' :=
  ⟨hf, hs, fun m => by unfold inTransit; rw [hflights]⟩

theorem inTransit_of_not_mem (h : n ∉ s.flights) : s.inTransit n = false := by
  unfold inTransit
  rw [OrderedMap.not_mem_iff.mp h]

theorem nextSegment_same (s : Sender β) :
    s.nextSegment.1.flights = s.flights ∧ s.Same s.nextSegment.1 := by
  obtain ⟨_, _, heq, -⟩ := s.nextSegment_spec
  rw [heq]
  exact ⟨rfl, same_of_eq ⟨rfl, rfl, id, fun _ => id, fun _ => .inl⟩ rfl rfl⟩

theorem nextSegment_free {t : Sender β} (h : s.nextSegment = (t, some n)) : n ∉ t.flights := by
  obtain ⟨_, _, -, -, hsome, -⟩ := s.nextSegment_spec
  have hflights := s.nextSegment_same.1
  rw [h] at hsome hflights
  have hflights : t.flights = s.flights := hflights
  rw [hflights]
  exact (hsome n rfl).1

/-- A launched segment is in flight but not yet in transit. -/
theorem launch_same (h : n ∉ s.flights) : s.Same (s.launch n) := by
  obtain ⟨read, prepared, reads, hmore, heq⟩ := s.launch_spec n
  rw [heq]
  refine ⟨⟨rfl, rfl, id, fun _ => id, reads_of_oneMore hmore⟩, rfl, fun m => ?_⟩
  by_cases hm : m = n
  · subst hm
    rw [inTransit_of_not_mem h]
    simp only [inTransit, OrderedMap.get_set, ↓reduceIte]
  · simp only [inTransit, OrderedMap.get_set, if_neg hm]

theorem launch_unsent (s : Sender β) (n : Nat) : (s.launch n).Unsent := by
  obtain ⟨read, prepared, reads, -, heq⟩ := s.launch_spec n
  rw [heq]
  intro _ m r hp
  cases hp
  simp only [OrderedMap.get_set, ↓reduceIte]

theorem same_rest (s : Sender β) : s.Same { s with pumping := none } :=
  same_of_eq ⟨rfl, rfl, id, fun _ => id, fun _ => .inl⟩ rfl rfl

theorem pumpLoop_same (s : Sender β) : s.Same s.pumpLoop := by
  have hnext := s.nextSegment_same.2
  unfold pumpLoop
  split
  · exact s.same_rest
  · cases hn : s.nextSegment with
    | mk t next =>
      rw [hn] at hnext
      cases next with
      | some n => exact hnext.trans (launch_same (nextSegment_free hn))
      | none => exact hnext.trans t.same_rest

theorem pumpLoop_unsent (s : Sender β) : s.pumpLoop.Unsent := by
  unfold pumpLoop
  split
  · exact fun _ _ _ => nofun
  · cases hn : s.nextSegment with
    | mk t next =>
      cases next with
      | some n => exact t.launch_unsent n
      | none => exact fun _ _ _ => nofun

theorem pump_same (s : Sender β) : s.Same s.pump := by
  have hs : s.Same { s with pumped := true } := same_of_eq ⟨rfl, rfl, id, fun _ => id, fun _ => .inl⟩ rfl rfl
  unfold pump
  dsimp only
  split
  · exact hs
  · exact hs.trans (pumpLoop_same _)

theorem same_pump {t : Sender β} (h : s.Same t) : s.Same t.pump := h.trans (pump_same t)

theorem pump_unsent (h : s.Unsent) : s.pump.Unsent := by
  unfold pump
  dsimp only
  split
  · exact h
  · exact pumpLoop_unsent _

theorem request_same (s : Sender β) (n : Nat) : s.Same (s.request n) := by
  unfold request
  split
  · exact same_of_eq ⟨rfl, rfl, id, fun _ => id, fun _ => .inl⟩ rfl rfl
  · exact same_pump (same_of_eq ⟨rfl, rfl, id, fun _ => id, fun _ => .inl⟩ rfl rfl)

theorem request_unsent (h : s.Unsent) (n : Nat) : (s.request n).Unsent := by
  unfold request
  split
  · exact h
  · exact pump_unsent h

/-- An answer takes its own segment out of transit, and no other. -/
structure Answers (n : Nat) (s s' : Sender β) : Prop extends Frame s s' where
  sent : s'.sent = s.sent
  others : ∀ m, m ≠ n → s'.inTransit m = s.inTransit m
  unsent : s.Unsent → s'.Unsent

theorem answers_refl (n : Nat) (s : Sender β) : s.Answers n s :=
  ⟨.refl s, rfl, fun _ _ => rfl, id⟩

theorem answers_pump {t : Sender β} (hframe : s.Frame t) (hs : t.sent = s.sent)
    (hp : t.pumping = s.pumping) (hstop : t.stopped = s.stopped)
    (hf : t.flights = s.flights.delete n) (hn : s.inTransit n = true) : Answers n s t.pump := by
  have hpump := pump_same t
  refine ⟨hframe.trans hpump.toFrame, hpump.sent.trans hs, fun m hm => ?_,
    fun h => pump_unsent fun hlive p r hread => ?_⟩
  · rw [hpump.inTransit]
    simp only [inTransit, hf, OrderedMap.get_delete, if_neg hm]
  · have hflight := h (hstop ▸ hlive) p r (hp ▸ hread)
    have hne : p ≠ n := by
      rintro rfl
      rw [inTransit, hflight] at hn
      cases hn
    rw [hf, OrderedMap.get_delete, if_neg hne]
    exact hflight

/-- The caller has added the segment to the shared set before. -/
theorem ack_answers (h : n ∈ s.acknowledged) : Answers n s (s.ack n) := by
  unfold ack
  split
  · exact s.answers_refl n
  · rename_i hguard
    simp only [Bool.or_eq_true, Bool.not_eq_true', not_or, Bool.not_eq_false] at hguard
    refine answers_pump ⟨rfl, rfl, id, fun m hm => ?_, fun _ => .inl⟩ rfl rfl rfl rfl hguard.2
    rcases OrderedSet.mem_add.mp hm with hm | rfl
    · exact hm
    · exact h

theorem busy_answers (s : Sender β) (n : Nat) : Answers n s (s.busy n) := by
  unfold busy
  split
  · exact s.answers_refl n
  · rename_i flight hflight
    split
    · exact s.answers_refl n
    · rename_i hguard
      simp only [Bool.or_eq_true, Bool.not_eq_true', not_or, Bool.not_eq_false] at hguard
      refine answers_pump ⟨rfl, rfl, id, fun _ => id, fun _ => .inl⟩ rfl rfl rfl rfl ?_
      unfold inTransit
      rw [hflight]
      exact hguard.2

theorem readAhead_same (s : Sender β) : s.Same s.readAhead := by
  have hnext := s.nextSegment_same.2
  unfold readAhead
  cases hn : s.nextSegment with
  | mk t next =>
    rw [hn] at hnext
    cases next with
    | some n =>
      obtain ⟨_, _, heq, hmore⟩ := t.prepare_spec n
      dsimp only
      rw [heq]
      exact hnext.trans (same_of_eq ⟨rfl, rfl, id, fun _ => id, reads_of_oneMore hmore⟩ rfl rfl)
    | none => exact hnext

/-- A turn of the sender leaves what is in transit alone, or sends one segment. -/
inductive Sends (s s' : Sender β) : Prop
  | nothing (h : s.Same s')
  | one (m : Sent β) (hframe : s.Frame s') (hsent : s'.sent = s.sent ++ [m])
      (hbefore : s.inTransit m.segment = false) (hafter : s'.inTransit m.segment = true)
      (hothers : ∀ n, n ≠ m.segment → s'.inTransit n = s.inTransit n) : Sends s s'
  | stopped (hframe : s.Frame s') (hsent : s'.sent = s.sent) (h : s'.stopped = true)

theorem resume_sends (h : s.Unsent) {r : Read} (thrown : Bool) {x : Except Unit β}
    (hp : s.pumping = some (n, r)) : s.Sends (s.resume n r thrown x) ∧
      (s.resume n r thrown x).Unsent := by
  have hrest : ∀ {t : Sender β}, t.pumping = none → t.Unsent := by
    intro t hnone _ m r hm
    rw [hnone] at hm
    cases hm
  unfold resume
  cases x with
  | error _ =>
    dsimp only
    split
    · exact ⟨.nothing s.same_rest, hrest rfl⟩
    · exact ⟨.stopped ⟨rfl, rfl, nofun, fun _ => id, fun _ => .inl⟩ rfl rfl, hrest rfl⟩
  | ok buffer =>
    dsimp only
    split
    · exact ⟨.nothing s.same_rest, hrest rfl⟩
    · rename_i hactive
      split
      · exact ⟨.stopped ⟨rfl, rfl, nofun, fun _ => id, fun _ => .inl⟩ rfl rfl, hrest rfl⟩
      · refine ⟨?_, pumpLoop_unsent _⟩
        have hlive : s.stopped = false := by
          simp only [inactive, Bool.or_eq_true, not_or, Bool.not_eq_true] at hactive
          exact hactive.1
        have hflight := h hlive n r hp
        have hsame := (s.sendSegment n buffer r).readAhead_same.trans
          (pumpLoop_same (s.sendSegment n buffer r).readAhead)
        have hframe : s.Frame (s.sendSegment n buffer r) := ⟨rfl, rfl, id, fun _ => id, fun _ => .inl⟩
        have hget : ∀ m, (s.sendSegment n buffer r).flights.get m =
            if m = n then (s.flights.get m).map fun flight => { flight with sentAt := true }
            else s.flights.get m := fun m => OrderedMap.get_modify
        refine .one ⟨n, buffer, r.result⟩ (hframe.trans hsame.toFrame) hsame.sent ?_ ?_ fun m hm => ?_
        · unfold inTransit
          rw [hflight]
        · rw [hsame.inTransit]
          unfold inTransit
          rw [hget, if_pos rfl, hflight]
          rfl
        · rw [hsame.inTransit]
          unfold inTransit
          rw [hget, if_neg hm]

/-- The segment will be sent or has been. -/
def Wanted (s : Sender β) (n : Nat) : Prop := n ∈ s.demands ∨ n ∈ s.flights

theorem pumpLoop_wanted (h : s.Wanted n) : s.pumpLoop.Wanted n := by
  have hnext : s.nextSegment.1.Wanted n := by
    obtain ⟨_, _, heq, -⟩ := s.nextSegment_spec
    rw [heq]
    exact h
  unfold pumpLoop
  split
  · exact h
  · cases hs : s.nextSegment with
    | mk t next =>
      rw [hs] at hnext
      cases next with
      | some m =>
        obtain ⟨_, _, _, -, heq⟩ := t.launch_spec m
        dsimp only
        rw [heq]
        by_cases hnm : n = m
        · exact .inr (OrderedMap.mem_set.mpr (.inr hnm))
        · exact hnext.imp (fun hd => OrderedSet.mem_delete.mpr ⟨hd, hnm⟩)
            fun hf => OrderedMap.mem_set.mpr (.inl hf)
      | none => exact hnext

theorem pump_wanted (h : s.Wanted n) : s.pump.Wanted n := by
  unfold pump
  dsimp only
  split
  · exact h
  · exact pumpLoop_wanted h

theorem request_wanted (hactive : s.inactive = false) (hn : n < s.totalSegments) :
    (s.request n).Wanted n := by
  unfold request
  rw [if_neg (by simp [hactive, hn])]
  apply pump_wanted
  by_cases hf : n ∈ s.flights
  · exact .inr hf
  · refine .inl ?_
    dsimp only
    rw [if_neg hf]
    exact OrderedSet.mem_add.mpr (.inr rfl)

theorem busy_wanted (hactive : s.inactive = false) (hn : s.inTransit n = true) :
    (s.busy n).Wanted n := by
  unfold busy
  cases hf : s.flights.get n with
  | none =>
    rw [inTransit, hf] at hn
    cases hn
  | some flight =>
    have hsent : flight.sentAt = true := by
      rw [inTransit, hf] at hn
      exact hn
    dsimp only
    rw [if_neg (by simp [hactive, hsent])]
    exact pump_wanted (.inl (OrderedSet.mem_add.mpr (.inr rfl)))

end Sender

end PkgManager.SegmentSender
