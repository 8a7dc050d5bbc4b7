import PkgManager.SegmentSender

namespace PkgManager.SegmentSender

open InsertionOrder

variable {β : Type} {s s' : Sender β} {e : Event β} {o : Options} {n : Nat}

namespace Sender

/-- A segment that may be sent next: one that is demanded and does not back off or,
while none backs off, one read ahead of a seek or left of the baseline. -/
def Sendable (s : Sender β) (n : Nat) : Prop :=
  n ∉ s.flights ∧ (n ∈ s.demands ∧ s.waitsForTimer n = false ∨
    s.retries.size = 0 ∧ n ∉ s.acknowledged ∧
      if 0 < s.demandWindow then n ∈ s.ahead else s.baseline ≤ n ∧ n < s.totalSegments)

/-- A read is of the segment that it says and that `readSegment` was called for. -/
def IsRead (s : Sender β) (n : Nat) (r : Read) : Prop :=
  r.segment = n ∧ s.reads[r.result]?.map Call.segment = some n

/-- Where the buffers come from that are, were or will be sent. -/
structure Reading (s : Sender β) : Prop where
  flight : ∀ {n f}, s.flights.get n = some f → s.IsRead n f.read
  retry : ∀ {n r}, s.retries.get n = some r → s.IsRead n r.read
  prepared : ∀ {r}, s.prepared = some r → s.IsRead r.segment r
  pumping : ∀ {n r}, s.pumping = some (n, r) → s.IsRead n r
  sent : ∀ m ∈ s.sent, s.reads[m.read]? = some ⟨m.segment, some (.ok m.buffer)⟩

/-- The window is respected, and no segment is lost before the sender is stopped. -/
structure Lossless (o : Options) (s : Sender β) : Prop where
  limit : s.limit = o.limit
  window : s.flights.size ≤ o.limit
  covered : s.stopped = false → ∀ n, o.startSegment ≤ n → n < s.baseline →
    n ∈ s.acknowledged ∨ n ∈ s.flights ∨ n ∈ s.demands
  asked : s.stopped = false → ∀ n ∈ s.owed, n ∈ s.demands ∨ n ∈ s.flights

/-- No pump is left out that would send something. -/
def Awake (s : Sender β) : Prop :=
  s.inactive = false → s.pumped = true → s.pumping = none →
    s.limit ≤ s.flights.size ∨ ∀ n, ¬ s.Sendable n

theorem settled_iff : s.settled n = true ↔ n ∈ s.acknowledged ∨ n ∈ s.flights := by
  simp [settled]

theorem le_skip (p : Nat → Bool) (left b : Nat) : b ≤ skip p left b := by
  induction left generalizing b with
  | zero => exact Nat.le_refl b
  | succ left ih =>
    unfold skip
    split
    · exact Nat.le_trans (Nat.le_succ b) (ih (b + 1))
    · exact Nat.le_refl b

theorem skip_passes (p : Nat → Bool) {left b n : Nat} (hb : b ≤ n) (hn : n < skip p left b) :
    p n = true := by
  induction left generalizing b with
  | zero => exact absurd hn (Nat.not_lt.mpr hb)
  | succ left ih =>
    unfold skip at hn
    split at hn
    · rcases Nat.eq_or_lt_of_le hb with rfl | hlt
      · assumption
      · exact ih hlt hn
    · exact absurd hn (Nat.not_lt.mpr hb)

theorem skip_stops (p : Nat → Bool) {left b : Nat} (h : skip p left b < b + left) :
    p (skip p left b) = false := by
  induction left generalizing b with
  | zero => exact absurd (le_skip p 0 b) (Nat.not_le.mpr h)
  | succ left ih =>
    by_cases hp : p b = true
    · have hskip : skip p (left + 1) b = skip p left (b + 1) := by rw [skip, if_pos hp]
      rw [hskip] at h ⊢
      exact ih (by omega)
    · have hskip : skip p (left + 1) b = b := by rw [skip, if_neg hp]
      rw [hskip]
      exact Bool.eq_false_iff.mpr hp

theorem demanded_none (h : s.demanded = none) (hn : n ∈ s.demands) (hf : n ∉ s.flights) :
    s.waitsForTimer n = true := by
  have hall := List.find?_eq_none.mp h n hn
  simpa [hf] using hall

theorem demanded_some (h : s.demanded = some n) : s.Sendable n := by
  have hp := List.find?_some h
  have hmem : n ∈ s.demands := List.mem_of_find?_eq_some h
  simp only [Bool.and_eq_true, decide_eq_true_eq, Bool.not_eq_true'] at hp
  exact ⟨hp.1, .inl ⟨hmem, hp.2⟩⟩

theorem not_sendable (hwait : ∀ n, n ∈ s.demands → n ∉ s.flights → s.waitsForTimer n = true)
    (hrest : s.retries.size = 0 → ¬ if 0 < s.demandWindow then n ∈ s.ahead
      else s.baseline ≤ n ∧ n < s.totalSegments) : ¬ s.Sendable n := by
  rintro ⟨hf, ⟨hdem, hnot⟩ | ⟨hsize, -, hin⟩⟩
  · rw [hwait n hdem hf] at hnot
    cases hnot
  · exact hrest hsize hin

theorem sendable_of_not_settled (hset : s.settled n = false) (hsize : s.retries.size = 0)
    (hin : if 0 < s.demandWindow then n ∈ s.ahead else s.baseline ≤ n ∧ n < s.totalSegments) :
    s.Sendable n := by
  have hout := (not_congr settled_iff).mp (Bool.eq_false_iff.mp hset)
  rw [not_or] at hout
  exact ⟨hout.2, .inr ⟨hsize, hout.1, hin⟩⟩

/-- All that `nextSegment` does: it may forget segments read ahead and move the
baseline over settled ones, and returns a segment that may be sent, if there is one. -/
theorem nextSegment_spec (s : Sender β) :
    ∃ ahead baseline, s.nextSegment.1 = { s with ahead := ahead, baseline := baseline } ∧
      (∀ n, s.baseline ≤ n → n < baseline → s.settled n = true) ∧
      (∀ n, s.nextSegment.2 = some n → s.Sendable n) ∧
      (s.nextSegment.2 = none → ∀ n, ¬ s.nextSegment.1.Sendable n) := by
  have hstay : ∀ n, s.baseline ≤ n → n < s.baseline → s.settled n = true :=
    fun n h h' => absurd h' (Nat.not_lt.mpr h)
  unfold nextSegment
  cases hd : s.demanded with
  | some m =>
    refine ⟨s.ahead, s.baseline, rfl, hstay, fun n hn => ?_, nofun⟩
    cases hn
    exact demanded_some hd
  | none =>
    have hwait : ∀ n, n ∈ s.demands → n ∉ s.flights → s.waitsForTimer n = true :=
      fun n => demanded_none hd
    by_cases hretries : 0 < s.retries.size
    · simp only [if_pos hretries]
      exact ⟨s.ahead, s.baseline, rfl, hstay, nofun,
        fun _ n => not_sendable hwait fun hsize => absurd hretries (by omega)⟩
    · have hsize : s.retries.size = 0 := by omega
      simp only [if_neg hretries]
      by_cases hwindow : 0 < s.demandWindow
      · simp only [if_pos hwindow]
        refine ⟨s.ahead.dropWhile s.settled, s.baseline, rfl, hstay, fun n hn => ?_,
          fun hnone n => not_sendable hwait fun _ => ?_⟩
        · have hhead := List.head?_dropWhile_not s.settled s.ahead.items
          rw [show (s.ahead.items.dropWhile s.settled).head? = some n from hn] at hhead
          refine sendable_of_not_settled (by simpa using hhead) hsize ?_
          rw [if_pos hwindow]
          exact OrderedSet.mem_of_dropWhile (List.mem_of_head? hn)
        · have hnil : (s.ahead.dropWhile s.settled).items = [] := List.head?_eq_none_iff.mp hnone
          rw [if_pos hwindow]
          exact fun hin => List.not_mem_nil (hnil ▸ OrderedSet.mem_items.mpr hin)
      · simp only [if_neg hwindow]
        have hle := le_skip s.settled (s.totalSegments - s.baseline) s.baseline
        refine ⟨s.ahead, skip s.settled (s.totalSegments - s.baseline) s.baseline, rfl,
          fun n => skip_passes s.settled, fun n hn => ?_,
          fun hnone n => not_sendable hwait fun _ => ?_⟩
        · split at hn <;> cases hn
          rename_i hlt
          refine sendable_of_not_settled (skip_stops s.settled (by omega)) hsize ?_
          rw [if_neg hwindow]
          exact ⟨hle, hlt⟩
        · rw [if_neg hwindow]
          dsimp only
          split at hnone
          · cases hnone
          · omega

/-- `readSegment` may be called once more. -/
def OneMore (reads reads' : List (Call β)) : Prop :=
  reads' = reads ∨ ∃ n, reads' = reads ++ [⟨n, none⟩]

theorem prepare_spec (s : Sender β) (n : Nat) :
    ∃ prepared reads, (s.prepare n).1 = { s with prepared := prepared, reads := reads } ∧
      OneMore s.reads reads := by
  unfold prepare
  split
  · split
    · exact ⟨s.prepared, s.reads, rfl, .inl rfl⟩
    · exact ⟨_, _, rfl, .inr ⟨n, rfl⟩⟩
  · exact ⟨_, _, rfl, .inr ⟨n, rfl⟩⟩

theorem readFor_spec (s : Sender β) (n : Nat) :
    ∃ prepared reads, (s.readFor n).1 = { s with prepared := prepared, reads := reads } ∧
      OneMore s.reads reads := by
  unfold readFor
  split
  · exact ⟨s.prepared, s.reads, rfl, .inl rfl⟩
  · exact s.prepare_spec n

theorem launch_spec (s : Sender β) (n : Nat) :
    ∃ read prepared reads, OneMore s.reads reads ∧ s.launch n = { s with
      demands := s.demands.delete n
      ahead := s.ahead.delete n
      baseline := if n = s.baseline then s.baseline + 1 else s.baseline
      retries := s.retries.delete n
      prepared := prepared
      flights := s.flights.set n ⟨read, false⟩
      pumping := some (n, read)
      reads := reads } := by
  obtain ⟨prepared, reads, heq, hmore⟩ := (s.take n).readFor_spec n
  unfold launch
  rw [heq]
  exact ⟨_, _, reads, hmore, rfl⟩

theorem reading_call (h : s.Reading) (n : Nat) :
    (prepare.call s n).1.Reading ∧ (prepare.call s n).1.IsRead n (prepare.call s n).2 := by
  have hold : ∀ {i : Nat} {c : Call β}, s.reads[i]? = some c →
      (s.reads ++ [⟨n, none⟩])[i]? = some c := by
    intro i c hi
    rw [List.getElem?_append_left (List.getElem?_eq_some_iff.mp hi).1]
    exact hi
  have hread : ∀ {m : Nat} {r : Read}, s.IsRead m r → (prepare.call s n).1.IsRead m r := by
    rintro m r ⟨hseg, hcall⟩
    obtain ⟨c, hc, hm⟩ := Option.map_eq_some_iff.mp hcall
    exact ⟨hseg, Option.map_eq_some_iff.mpr ⟨c, hold hc, hm⟩⟩
  have hnew : (prepare.call s n).1.IsRead n (prepare.call s n).2 :=
    ⟨rfl, by simp [prepare.call]⟩
  refine ⟨⟨fun hf => hread (h.flight hf), fun hr => hread (h.retry hr), fun hp => ?_,
    fun hp => hread (h.pumping hp), fun m hm => hold (h.sent m hm)⟩, hnew⟩
  cases hp
  exact hnew

theorem reading_prepare (h : s.Reading) (n : Nat) :
    (s.prepare n).1.Reading ∧ (s.prepare n).1.IsRead n (s.prepare n).2 := by
  unfold prepare
  split
  · rename_i read hprep
    split
    · rename_i hseg
      exact ⟨h, hseg ▸ h.prepared hprep⟩
    · exact reading_call h n
  · exact reading_call h n

theorem reading_readFor (h : s.Reading) (n : Nat) :
    (s.readFor n).1.Reading ∧ (s.readFor n).1.IsRead n (s.readFor n).2 := by
  unfold readFor
  split
  · rename_i retry hretry
    exact ⟨h, h.retry hretry⟩
  · exact reading_prepare h n

theorem reading_fly (h : s.Reading) {r : Read} (hr : s.IsRead n r) : (s.fly n r).Reading := by
  constructor
  · intro m f hf
    rw [show (s.fly n r).flights = s.flights.set n ⟨r, false⟩ from rfl, OrderedMap.get_set] at hf
    split at hf
    · rename_i hm
      cases hf
      exact hm ▸ hr
    · exact h.flight hf
  · intro m retry hm
    rw [show (s.fly n r).retries = s.retries.delete n from rfl, OrderedMap.get_delete] at hm
    split at hm
    · cases hm
    · exact h.retry hm
  · intro p hp
    dsimp only [fly] at hp
    split at hp
    · cases hp
    · exact h.prepared hp
  · intro m p hp
    cases hp
    exact hr
  · exact h.sent

theorem reading_launch (h : s.Reading) (n : Nat) : (s.launch n).Reading := by
  have hs : (s.take n).Reading := ⟨h.flight, h.retry, h.prepared, h.pumping, h.sent⟩
  exact reading_fly (reading_readFor hs n).1 (reading_readFor hs n).2

theorem reading_nextSegment (h : s.Reading) : s.nextSegment.1.Reading := by
  obtain ⟨ahead, baseline, heq, -⟩ := s.nextSegment_spec
  rw [heq]
  exact ⟨h.flight, h.retry, h.prepared, h.pumping, h.sent⟩

theorem reading_rest (h : s.Reading) : Reading { s with pumping := none } :=
  ⟨h.flight, h.retry, h.prepared, nofun, h.sent⟩

theorem reading_pumpLoop (h : s.Reading) : s.pumpLoop.Reading := by
  have hnext := reading_nextSegment h
  unfold pumpLoop
  split
  · exact reading_rest h
  · cases hn : s.nextSegment with
    | mk t next =>
      rw [hn] at hnext
      cases next with
      | some n => exact reading_launch hnext n
      | none => exact reading_rest hnext

theorem reading_pump (h : s.Reading) : s.pump.Reading := by
  have hs : Reading { s with pumped := true } :=
    ⟨h.flight, h.retry, h.prepared, h.pumping, h.sent⟩
  unfold pump
  dsimp only
  split
  · exact hs
  · exact reading_pumpLoop hs

theorem reading_stop (h : s.Reading) : s.stop.Reading :=
  ⟨nofun, nofun, nofun, h.pumping, h.sent⟩

theorem reading_request (h : s.Reading) (n : Nat) : (s.request n).Reading := by
  unfold request
  split
  · exact h
  · exact reading_pump ⟨h.flight, h.retry, h.prepared, h.pumping, h.sent⟩

theorem reading_ack (h : s.Reading) (n : Nat) : (s.ack n).Reading := by
  unfold ack
  split
  · exact h
  · refine reading_pump ⟨fun hf => ?_, h.retry, h.prepared, h.pumping, h.sent⟩
    rw [OrderedMap.get_delete] at hf
    split at hf
    · cases hf
    · exact h.flight hf

theorem reading_busy (h : s.Reading) (n : Nat) : (s.busy n).Reading := by
  unfold busy
  split
  · exact h
  · rename_i flight hflight
    split
    · exact h
    · refine reading_pump ⟨fun hf => ?_, fun hr => ?_, h.prepared, h.pumping, h.sent⟩
      · rw [OrderedMap.get_delete] at hf
        split at hf
        · cases hf
        · exact h.flight hf
      · rw [OrderedMap.get_set] at hr
        split at hr
        · rename_i hm
          subst hm
          cases hr
          exact h.flight hflight
        · exact h.retry hr

theorem reading_timer (h : s.Reading) (n : Nat) :
    Reading { s with retries := s.retries.modify n fun r => { r with timer := false } } := by
  refine ⟨h.flight, fun hr => ?_, h.prepared, h.pumping, h.sent⟩
  rw [OrderedMap.get_modify] at hr
  split at hr
  · obtain ⟨retry, hretry, rfl⟩ := Option.map_eq_some_iff.mp hr
    have hread : s.IsRead _ retry.read := h.retry hretry
    exact hread
  · exact h.retry hr

theorem reading_sendSegment (h : s.Reading) {r : Read} {buffer : β}
    (hp : s.pumping = some (n, r))
    (hr : s.reads[r.result]?.bind Call.result = some (.ok buffer)) :
    (s.sendSegment n buffer r).Reading := by
  refine ⟨fun hf => ?_, h.retry, h.prepared, h.pumping, fun m hm => ?_⟩
  · rw [show (s.sendSegment n buffer r).flights = s.flights.modify n fun flight =>
      { flight with sentAt := true } from rfl, OrderedMap.get_modify] at hf
    split at hf
    · obtain ⟨flight, hflight, rfl⟩ := Option.map_eq_some_iff.mp hf
      have hread : s.IsRead _ flight.read := h.flight hflight
      exact hread
    · exact h.flight hf
  · rcases List.mem_append.mp hm with hm | hm
    · exact h.sent m hm
    · cases List.mem_singleton.mp hm
      obtain ⟨⟨segment, result⟩, hc, hresult⟩ := Option.bind_eq_some_iff.mp hr
      have hseg := (h.pumping hp).2
      rw [hc] at hseg
      cases hseg
      cases hresult
      exact hc

theorem reading_readAhead (h : s.Reading) : s.readAhead.Reading := by
  have hnext := reading_nextSegment h
  unfold readAhead
  cases hn : s.nextSegment with
  | mk t next =>
    rw [hn] at hnext
    cases next with
    | some n => exact (reading_prepare hnext n).1
    | none => exact hnext

theorem reading_resume (h : s.Reading) {r : Read} (thrown : Bool) {result : Except Unit β}
    (hp : s.pumping = some (n, r)) (hr : s.reads[r.result]?.bind Call.result = some result) :
    (s.resume n r thrown result).Reading := by
  unfold resume
  cases result with
  | error _ =>
    dsimp only
    split
    · exact reading_rest h
    · exact reading_rest (reading_stop h)
  | ok buffer =>
    dsimp only
    split
    · exact reading_rest h
    · split
      · exact reading_rest (reading_stop h)
      · exact reading_pumpLoop (reading_readAhead (reading_sendSegment h hp hr))

/-- A promise settles once, so what a read has come to stays. -/
theorem reading_readDone (h : s.Reading) {i : Nat} {result : Except Unit β}
    (hi : s.reads[i]? = some ⟨n, none⟩) :
    Reading { s with reads := s.reads.set i ⟨n, some result⟩ } := by
  have hread : ∀ {m : Nat} {r : Read}, s.IsRead m r →
      IsRead { s with reads := s.reads.set i ⟨n, some result⟩ } m r := by
    rintro m r ⟨hseg, hcall⟩
    refine ⟨hseg, ?_⟩
    rw [List.getElem?_set]
    split
    · rename_i hir
      rw [← hir, hi] at hcall
      cases hcall
      rw [if_pos (List.getElem?_eq_some_iff.mp hi).1]
      rfl
    · exact hcall
  refine ⟨fun hf => hread (h.flight hf), fun hr => hread (h.retry hr),
    fun hp => hread (h.prepared hp), fun hp => hread (h.pumping hp), fun m hm => ?_⟩
  have hold := h.sent m hm
  rw [List.getElem?_set_ne]
  · exact hold
  · rintro rfl
    rw [hi] at hold
    cases hold

theorem reading_turn (h : s.Reading) (ht : turn s e = some s') : s'.Reading := by
  cases e with
  | pump => cases ht; exact reading_pump h
  | request segment =>
    cases ht
    split
    · exact h
    · exact reading_request h _
  | ack segment => cases ht; exact reading_ack h segment
  | busy segment => cases ht; exact reading_busy h segment
  | timer segment =>
    dsimp only [turn] at ht
    split at ht <;> cases ht
    exact reading_pump (reading_timer h segment)
  | readDone i result =>
    dsimp only [turn] at ht
    split at ht <;> cases ht
    rename_i hi
    exact reading_readDone h hi
  | resume thrown =>
    obtain ⟨⟨n, r⟩, hp, hresume⟩ := Option.bind_eq_some_iff.mp ht
    obtain ⟨result, hr, rfl⟩ := Option.map_eq_some_iff.mp hresume
    exact reading_resume h thrown hp hr
  | stop => cases ht; exact reading_stop h
  | halt => cases ht; exact ⟨h.flight, h.retry, h.prepared, h.pumping, h.sent⟩
  | acknowledge segment => cases ht; exact ⟨h.flight, h.retry, h.prepared, h.pumping, h.sent⟩

theorem lossless_nextSegment (h : s.Lossless o) : s.nextSegment.1.Lossless o := by
  obtain ⟨ahead, baseline, heq, hskip, -⟩ := s.nextSegment_spec
  rw [heq]
  refine ⟨h.limit, h.window, fun hs n hstart hn => ?_, h.asked⟩
  by_cases hold : n < s.baseline
  · exact h.covered hs n hstart hold
  · have hset := settled_iff.mp (hskip n (Nat.not_lt.mp hold) hn)
    exact hset.imp_right .inl

/-- A segment that is launched leaves the demands for the flights. -/
theorem lossless_launch (h : s.Lossless o) (hroom : s.flights.size < o.limit) (n : Nat) :
    (s.launch n).Lossless o := by
  obtain ⟨read, prepared, reads, -, heq⟩ := s.launch_spec n
  rw [heq]
  have hfly : ∀ m, m ∈ s.flights ∨ m = n → m ∈ s.flights.set n ⟨read, false⟩ :=
    fun m hm => OrderedMap.mem_set.mpr hm
  have hmoved : ∀ m, m ∈ s.demands → m ∈ s.demands.delete n ∨ m ∈ s.flights.set n ⟨read, false⟩ := by
    intro m hm
    by_cases hmn : m = n
    · exact .inr (hfly m (.inr hmn))
    · exact .inl (OrderedSet.mem_delete.mpr ⟨hm, hmn⟩)
  refine ⟨h.limit, Nat.le_trans OrderedMap.size_set_le hroom, fun hs m hstart hm => ?_,
    fun hs m hm => ?_⟩
  · by_cases hold : m < s.baseline
    · rcases h.covered hs m hstart hold with ha | hf | hd
      · exact .inl ha
      · exact .inr (.inl (hfly m (.inl hf)))
      · exact .inr (hmoved m hd).symm
    · have hmn : m = n := by
        dsimp only at hm
        split at hm <;> omega
      exact .inr (.inl (hfly m (.inr hmn)))
  · rcases h.asked hs m hm with hd | hf
    · exact hmoved m hd
    · exact .inr (hfly m (.inl hf))

theorem lossless_rest (h : s.Lossless o) : Lossless o { s with pumping := none } :=
  ⟨h.limit, h.window, h.covered, h.asked⟩

theorem lossless_pumpLoop (h : s.Lossless o) : s.pumpLoop.Lossless o := by
  have hnext := lossless_nextSegment h
  have hflights : s.nextSegment.1.flights = s.flights := by
    obtain ⟨ahead, baseline, heq, -⟩ := s.nextSegment_spec
    rw [heq]
  unfold pumpLoop
  split
  · exact lossless_rest h
  · rename_i hguard
    have hroom : s.flights.size < o.limit := by
      simp only [Bool.or_eq_true, decide_eq_true_eq, not_or, not_le, h.limit] at hguard
      exact hguard.2
    cases hn : s.nextSegment with
    | mk t next =>
      rw [hn] at hnext hflights
      cases next with
      | some n => exact lossless_launch hnext (hflights ▸ hroom) n
      | none => exact lossless_rest hnext

theorem lossless_pump (h : s.Lossless o) : s.pump.Lossless o := by
  have hs : Lossless o { s with pumped := true } := ⟨h.limit, h.window, h.covered, h.asked⟩
  unfold pump
  dsimp only
  split
  · exact hs
  · exact lossless_pumpLoop hs

theorem lossless_stop (h : s.Lossless o) : s.stop.Lossless o :=
  ⟨h.limit, Nat.zero_le _, nofun, nofun⟩

theorem lossless_request (h : s.Lossless o) (n : Nat) : (s.request n).Lossless o := by
  unfold request
  split
  · exact h
  · have hdem : ∀ m, m ∈ s.demands →
        m ∈ (if n ∈ s.flights then s.demands else s.demands.add n) := by
      intro m hm
      split
      · exact hm
      · exact OrderedSet.mem_add.mpr (.inl hm)
    refine lossless_pump ⟨h.limit, h.window, fun hs m hstart hm => ?_, fun hs m hm => ?_⟩
    · exact (h.covered hs m hstart hm).imp_right (Or.imp_right (hdem m))
    · rcases List.mem_cons.mp hm with rfl | hm
      · by_cases hf : m ∈ s.flights
        · exact .inr hf
        · dsimp only
          rw [if_neg hf]
          exact .inl (OrderedSet.mem_add.mpr (.inr rfl))
      · exact (h.asked hs m hm).imp_left (hdem m)

theorem lossless_ack (h : s.Lossless o) (n : Nat) : (s.ack n).Lossless o := by
  unfold ack
  split
  · exact h
  · refine lossless_pump ⟨h.limit, Nat.le_trans OrderedMap.size_delete_le h.window,
      fun hs m hstart hm => ?_, fun hs m hm => ?_⟩
    · by_cases hmn : m = n
      · exact .inl (OrderedSet.mem_add.mpr (.inr hmn))
      · rcases h.covered hs m hstart hm with ha | hf | hd
        · exact .inl (OrderedSet.mem_add.mpr (.inl ha))
        · exact .inr (.inl (OrderedMap.mem_delete.mpr ⟨hf, hmn⟩))
        · exact .inr (.inr (OrderedSet.mem_delete.mpr ⟨hd, hmn⟩))
    · obtain ⟨howed, hmn⟩ := List.mem_filter.mp hm
      have hmn : m ≠ n := of_decide_eq_true hmn
      rcases h.asked hs m howed with hd | hf
      · exact .inl (OrderedSet.mem_delete.mpr ⟨hd, hmn⟩)
      · exact .inr (OrderedMap.mem_delete.mpr ⟨hf, hmn⟩)

/-- A rejected segment leaves the flights for the demands. -/
theorem lossless_busy (h : s.Lossless o) (n : Nat) : (s.busy n).Lossless o := by
  unfold busy
  split
  · exact h
  · split
    · exact h
    · have hmoved : ∀ m, m ∈ s.flights → m ∈ s.flights.delete n ∨ m ∈ s.demands.add n := by
        intro m hm
        by_cases hmn : m = n
        · exact .inr (OrderedSet.mem_add.mpr (.inr hmn))
        · exact .inl (OrderedMap.mem_delete.mpr ⟨hm, hmn⟩)
      refine lossless_pump ⟨h.limit, Nat.le_trans OrderedMap.size_delete_le h.window,
        fun hs m hstart hm => ?_, fun hs m hm => ?_⟩
      · rcases h.covered hs m hstart hm with ha | hf | hd
        · exact .inl ha
        · exact .inr (hmoved m hf)
        · exact .inr (.inr (OrderedSet.mem_add.mpr (.inl hd)))
      · rcases h.asked hs m hm with hd | hf
        · exact .inl (OrderedSet.mem_add.mpr (.inl hd))
        · exact (hmoved m hf).symm

theorem lossless_sendSegment (h : s.Lossless o) (r : Read) (buffer : β) :
    (s.sendSegment n buffer r).Lossless o := by
  have hin : ∀ m, m ∈ s.flights → m ∈ (s.sendSegment n buffer r).flights :=
    fun m hm => OrderedMap.mem_modify.mpr hm
  refine ⟨h.limit, OrderedMap.size_modify.trans_le h.window, fun hs m hstart hm => ?_,
    fun hs m hm => (h.asked hs m hm).imp_right (hin m)⟩
  exact (h.covered hs m hstart hm).imp_right (Or.imp_left (hin m))

theorem lossless_readAhead (h : s.Lossless o) : s.readAhead.Lossless o := by
  have hnext := lossless_nextSegment h
  unfold readAhead
  cases hn : s.nextSegment with
  | mk t next =>
    rw [hn] at hnext
    cases next with
    | some n =>
      obtain ⟨prepared, reads, heq, -⟩ := t.prepare_spec n
      dsimp only
      rw [heq]
      exact ⟨hnext.limit, hnext.window, hnext.covered, hnext.asked⟩
    | none => exact hnext

theorem lossless_resume (h : s.Lossless o) (r : Read) (thrown : Bool) (result : Except Unit β) :
    (s.resume n r thrown result).Lossless o := by
  unfold resume
  cases result with
  | error _ =>
    dsimp only
    split
    · exact lossless_rest h
    · exact lossless_rest (lossless_stop h)
  | ok buffer =>
    dsimp only
    split
    · exact lossless_rest h
    · split
      · exact lossless_rest (lossless_stop h)
      · exact lossless_pumpLoop (lossless_readAhead (lossless_sendSegment h r buffer))

theorem lossless_turn (h : s.Lossless o) (ht : turn s e = some s') : s'.Lossless o := by
  cases e with
  | pump => cases ht; exact lossless_pump h
  | request segment =>
    cases ht
    split
    · exact h
    · exact lossless_request h _
  | ack segment => cases ht; exact lossless_ack h segment
  | busy segment => cases ht; exact lossless_busy h segment
  | timer segment =>
    dsimp only [turn] at ht
    split at ht <;> cases ht
    exact lossless_pump ⟨h.limit, h.window, h.covered, h.asked⟩
  | readDone i result =>
    dsimp only [turn] at ht
    split at ht <;> cases ht
    exact ⟨h.limit, h.window, h.covered, h.asked⟩
  | resume thrown =>
    obtain ⟨⟨n, r⟩, hp, hresume⟩ := Option.bind_eq_some_iff.mp ht
    obtain ⟨result, hr, rfl⟩ := Option.map_eq_some_iff.mp hresume
    exact lossless_resume h r thrown result
  | stop => cases ht; exact lossless_stop h
  | halt => cases ht; exact ⟨h.limit, h.window, h.covered, h.asked⟩
  | acknowledge segment =>
    cases ht
    refine ⟨h.limit, h.window, fun hs m hstart hm => ?_, h.asked⟩
    exact (h.covered hs m hstart hm).imp_left fun ha => OrderedSet.mem_add.mpr (.inl ha)

theorem awake_of_inactive (h : s.inactive = true) : s.Awake := by
  intro hactive
  rw [h] at hactive
  cases hactive

theorem awake_pumpLoop (s : Sender β) : s.pumpLoop.Awake := by
  obtain ⟨ahead, baseline, heq, -, -, hnone⟩ := s.nextSegment_spec
  unfold pumpLoop
  split
  · rename_i hguard
    rcases Bool.or_eq_true_iff.mp hguard with hin | hfull
    · exact awake_of_inactive hin
    · exact fun _ _ _ => .inl (of_decide_eq_true hfull)
  · cases hn : s.nextSegment with
    | mk t next =>
      rw [hn] at hnone
      cases next with
      | some n =>
        obtain ⟨_, _, _, -, hlaunch⟩ := t.launch_spec n
        dsimp only
        rw [hlaunch]
        exact fun _ _ => nofun
      | none => exact fun _ _ _ => .inr (hnone rfl)

theorem awake_pump (s : Sender β) : s.pump.Awake := by
  unfold pump
  dsimp only
  split
  · rename_i hguard
    rcases Bool.or_eq_true_iff.mp hguard with hin | hpumping
    · exact awake_of_inactive hin
    · exact fun _ _ hnone => absurd hpumping (by rw [hnone]; decide)
  · exact awake_pumpLoop _

theorem awake_resume (s : Sender β) (n : Nat) (r : Read) (thrown : Bool) (result : Except Unit β) :
    (s.resume n r thrown result).Awake := by
  unfold resume
  cases result with
  | error _ =>
    dsimp only
    split
    · rename_i hin
      exact awake_of_inactive hin
    · exact awake_of_inactive rfl
  | ok buffer =>
    dsimp only
    split
    · rename_i hin
      exact awake_of_inactive hin
    · split
      · exact awake_of_inactive rfl
      · exact awake_pumpLoop _

theorem awake_turn (h : s.Awake) (ht : turn s e = some s') : s'.Awake := by
  cases e with
  | pump => cases ht; exact awake_pump s
  | request segment =>
    cases ht
    split
    · exact h
    · unfold request
      split
      · exact h
      · exact awake_pump _
  | ack segment =>
    cases ht
    unfold ack
    split
    · exact h
    · exact awake_pump _
  | busy segment =>
    cases ht
    unfold busy
    split
    · exact h
    · split
      · exact h
      · exact awake_pump _
  | timer segment =>
    dsimp only [turn] at ht
    split at ht <;> cases ht
    exact awake_pump _
  | readDone i result =>
    dsimp only [turn] at ht
    split at ht <;> cases ht
    exact h
  | resume thrown =>
    obtain ⟨⟨n, r⟩, hp, hresume⟩ := Option.bind_eq_some_iff.mp ht
    obtain ⟨result, hr, rfl⟩ := Option.map_eq_some_iff.mp hresume
    exact awake_resume s n r thrown result
  | stop => cases ht; exact awake_of_inactive rfl
  | halt => cases ht; exact awake_of_inactive (Bool.or_true _)
  | acknowledge segment =>
    cases ht
    intro hactive hpumped hpumping
    refine (h hactive hpumped hpumping).imp_right fun hno n hn => hno n ?_
    refine ⟨hn.1, hn.2.imp_right fun hrest => ⟨hrest.1, fun ha => hrest.2.1 ?_, hrest.2.2⟩⟩
    exact OrderedSet.mem_add.mpr (.inl ha)

/-- A sender that is stopped, by itself or by its caller, stays so and sends nothing. -/
theorem silent_turn (h : s.inactive = true) (ht : turn s e = some s') :
    s'.inactive = true ∧ s'.sent = s.sent := by
  have hpump : ∀ {t : Sender β}, t.inactive = true → t.pump.inactive = true ∧ t.pump.sent = t.sent := by
    intro t hin
    have hguard : (Sender.inactive { t with pumped := true } || t.pumping.isSome) = true :=
      Bool.or_eq_true_iff.mpr (.inl hin)
    unfold pump
    dsimp only
    rw [if_pos hguard]
    exact ⟨hin, rfl⟩
  cases e with
  | pump => cases ht; exact hpump h
  | request segment =>
    cases ht
    split
    · exact ⟨h, rfl⟩
    · unfold request
      rw [if_pos (by rw [h]; rfl)]
      exact ⟨h, rfl⟩
  | ack segment =>
    cases ht
    unfold ack
    rw [if_pos (by rw [h]; rfl)]
    exact ⟨h, rfl⟩
  | busy segment =>
    cases ht
    unfold busy
    split
    · exact ⟨h, rfl⟩
    · rw [if_pos (by rw [h]; rfl)]
      exact ⟨h, rfl⟩
  | timer segment =>
    dsimp only [turn] at ht
    split at ht <;> cases ht
    exact hpump (t := { s with retries := _ }) h
  | readDone i result =>
    dsimp only [turn] at ht
    split at ht <;> cases ht
    exact ⟨h, rfl⟩
  | resume thrown =>
    obtain ⟨⟨n, r⟩, hp, hresume⟩ := Option.bind_eq_some_iff.mp ht
    obtain ⟨result, hr, rfl⟩ := Option.map_eq_some_iff.mp hresume
    unfold resume
    cases result <;> dsimp only <;> rw [if_pos h] <;> exact ⟨h, rfl⟩
  | stop => cases ht; exact ⟨rfl, rfl⟩
  | halt => cases ht; exact ⟨Bool.or_true _, rfl⟩
  | acknowledge segment => cases ht; exact ⟨h, rfl⟩

end Sender

open Sender

theorem run_cons {es : List (Event β)} :
    run s (e :: es) = some s' ↔ ∃ t, turn s e = some t ∧ run t es = some s' :=
  Option.bind_eq_some_iff

/-- What holds of a new sender and survives every event holds after every run. -/
theorem run_invariant (P : Sender β → Prop) {es : List (Event β)} (h0 : P s)
    (hturn : ∀ s e s', P s → turn s e = some s' → P s') (h : run s es = some s') : P s' := by
  induction es generalizing s with
  | nil => exact Option.some.inj h ▸ h0
  | cons e es ih =>
    obtain ⟨t, ht, hrun⟩ := run_cons.mp h
    exact ih (hturn s e t h0 ht) hrun

theorem silent_run {es : List (Event β)} (h : s.inactive = true) (hrun : run s es = some s') :
    s'.sent = s.sent :=
  (run_invariant (fun t => t.inactive = true ∧ t.sent = s.sent) ⟨h, rfl⟩
    (fun _ _ _ hs ht => ⟨(silent_turn hs.1 ht).1, (silent_turn hs.1 ht).2.trans hs.2⟩) hrun).2

theorem reading_create (o : Options) : (createSegmentSender o : Sender β).Reading :=
  ⟨nofun, nofun, nofun, nofun, nofun⟩

theorem lossless_create (o : Options) : (createSegmentSender o : Sender β).Lossless o :=
  ⟨rfl, Nat.zero_le _, fun _ _ hstart hn => absurd hn (Nat.not_lt.mpr hstart), fun _ => nofun⟩

theorem awake_create (o : Options) : (createSegmentSender o : Sender β).Awake :=
  fun _ hpumped => Bool.noConfusion hpumped

/-- What a sender keeps; whether no segment is lost depends on a condition. -/
structure Kept (o : Options) (lossless : Prop) (s : Sender β) : Prop where
  window : s.flights.size ≤ o.limit
  once : s.flights.keys.Nodup
  own : ∀ m ∈ s.sent, s.reads[m.read]? = some ⟨m.segment, some (.ok m.buffer)⟩
  covered : lossless → ∀ n, o.startSegment ≤ n → n < s.baseline →
    n ∈ s.acknowledged ∨ n ∈ s.flights ∨ n ∈ s.demands
  asked : lossless → ∀ n ∈ s.owed, n ∈ s.demands ∨ n ∈ s.flights
  awake : s.inactive = false → s.pumped = true → s.pumping = none →
    s.flights.size = o.limit ∨ ∀ n, ¬ s.Sendable n
  silent : s.inactive = true → ∀ es s', run s es = some s' → s'.sent = s.sent

/-- Whatever the order of events, the sender keeps its window, sends each buffer as the
segment it was read for, loses no segment before it is stopped, pumps whenever there is
something to send, and is silent afterwards. -/
theorem segments_kept (o : Options) (es : List (Event β)) (s : Sender β)
    (h : run (createSegmentSender o) es = some s) : Kept o (s.stopped = false) s := by
  have hreading : s.Reading :=
    run_invariant Reading (reading_create o) (fun _ _ _ => reading_turn) h
  have hlossless : s.Lossless o :=
    run_invariant (Lossless o) (lossless_create o) (fun _ _ _ => lossless_turn) h
  have hawake : s.Awake := run_invariant Awake (awake_create o) (fun _ _ _ => awake_turn) h
  refine ⟨hlossless.window, s.flights.nodup, hreading.sent, hlossless.covered, hlossless.asked,
    fun hactive hpumped hpumping => ?_, fun hin es s' => silent_run hin⟩
  rcases hawake hactive hpumped hpumping with hfull | hnone
  · exact .inl (Nat.le_antisymm hlossless.window (hlossless.limit ▸ hfull))
  · exact .inr hnone

/-- A package of two segments. -/
def twoSegments : Options := ⟨2, 0, 0, 1, .empty⟩

/-- Segment 0 is rejected, and 1 requested while it backs off. -/
def busyEvents : List (Event Nat) :=
  [.pump, .readDone 0 (.ok 7), .resume false, .busy 0, .request 1]

theorem segments_kept_busy :
    ∃ s : Sender Nat, run (createSegmentSender twoSegments) busyEvents = some s ∧
      Kept twoSegments (s.stopped = false) s :=
  ⟨_, rfl, segments_kept twoSegments busyEvents _ rfl⟩

/-- A sender that is stopped forgets its flights. -/
theorem segments_kept_fails :
    ¬ ∀ (o : Options) (es : List (Event Nat)) (s : Sender Nat),
      run (createSegmentSender o) es = some s → Kept o True s := by
  intro h
  have hkept := h twoSegments [.pump, .stop] (createSegmentSender twoSegments).pump.stop rfl
  rcases hkept.covered trivial 0 (Nat.le_refl _) (by decide) with hack | hflight | hdem
  · exact absurd hack (by decide)
  · exact absurd hflight (by decide)
  · exact absurd hdem (by decide)

end PkgManager.SegmentSender
