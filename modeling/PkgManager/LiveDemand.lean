import PkgManager.LiveStamps

namespace PkgManager.LiveDemand

open Interleaving Memory LiveSession LiveCalls LiveSlots LiveReads LiveThreads LiveSound LiveReaders
open LiveEviction LiveWaited LiveStamps

/-! The delivery of one segment. -/

/-- The segment was stored under the newest stamp; what had to go for it was the
pick of the eviction scan in a full table. -/
structure Delivered (lv lv' : Live) (seg : Nat) : Prop where
  frame_eq : frame lv' = frame lv
  present : lv'.present seg = true
  stamp_seg : stamp lv' seg = lv.tick + 1
  tick : lv'.tick = lv.tick + 1
  absent : ∀ s, s ≠ seg → lv.present s = false → lv'.present s = false
  others : ∀ s < lv.nsegs, s ≠ seg → lv.present s = true →
    (lv'.present s = true ∧ stamp lv' s = stamp lv s) ∨
      (lv'.present s = false ∧ oldestSeg lv seg = some s ∧ ∀ k < lv.nslots, 0 ≤ lv.slotSeg k)

theorem fill_free {lv : Live} (h : SlotTable lv) {seg k : Nat} (hs : seg < lv.nsegs)
    (hk : k < lv.nslots) (hfree : lv.slotSeg k < 0) (resident : Bool) (data : Bytes) (len : Nat) :
    Delivered lv (fillSlot (claim lv seg k) seg k resident data 0 len) seg := by
  have hc : claim lv seg k = { lv with
      slotOf := Function.update lv.slotOf seg k
      slotSeg := Function.update lv.slotSeg k seg } := if_pos hs
  rw [hc]
  refine ⟨rfl, by simp [fillSlot], by simp [stamp, fillSlot], rfl, ?_, ?_⟩
  · intro s hne hab
    simp [fillSlot, hne, hab]
  · intro s hlt hne hp
    obtain ⟨j, hj, hsj, hseg⟩ := h.slot hlt hp
    have hjk : j ≠ k := by
      rintro rfl
      omega
    refine .inl ⟨by simp [fillSlot, hne, hp], ?_⟩
    simp [stamp, fillSlot, hne, hsj, hjk]

theorem fill_evicted {lv : Live} (h : SlotTable lv) {seg old k : Nat} (hs : seg < lv.nsegs)
    (hv : Victim lv seg old) (ho : oldestSeg lv seg = some old) (hk : lv.slotOf old = (k : Int))
    (hmiss : lv.present seg = false) (hfull : ∀ k < lv.nslots, 0 ≤ lv.slotSeg k) (resident : Bool)
    (data : Bytes) (len : Nat) :
    Delivered lv (fillSlot (claim (evict lv old) seg k) seg k resident data 0 len) seg := by
  have hold : old ≠ seg := by
    rintro rfl
    rw [hv.present] at hmiss
    cases hmiss
  have hclaim : claim (evict lv old) seg k = { evict lv old with
      slotOf := Function.update (evict lv old).slotOf seg k
      slotSeg := Function.update lv.slotSeg k seg } := if_pos hs
  rw [hclaim]
  clear hclaim
  refine ⟨rfl, by simp [fillSlot], by simp [stamp, fillSlot, evict], rfl, ?_, ?_⟩
  · intro s hne hab
    by_cases hso : s = old
    · subst hso
      simp [fillSlot, evict, hne]
    · simp [fillSlot, evict, hne, hso, hab]
  · intro s hlt hne hp
    by_cases hso : s = old
    · subst hso
      exact .inr ⟨by simp [fillSlot, evict, hne], ho, hfull⟩
    · obtain ⟨j, _, hsj, _⟩ := h.slot hlt hp
      have hj : j ≠ k := by
        rintro rfl
        exact hso (h.slot_inj hlt hv.lt hp (hsj.trans hk.symm))
      refine .inl ⟨by simp [fillSlot, evict, hne, hso, hp], ?_⟩
      simp [stamp, fillSlot, evict, hne, hso, hsj, hj]

/-- A missing segment that finds a slot is delivered. -/
theorem tryWrite_delivered {lv : Live} (h : Session lv) (ha : lv.active = true)
    (hab : lv.aborted = false) {seg : Nat} (hs : seg < lv.nsegs) (hmiss : lv.present seg = false)
    (hslot : 0 ≤ (allocSlotLocked lv seg).2) (data : Bytes) :
    (wsLiveTryWrite lv (seg * SEG) data (segLenLocked lv seg)).2 = 0 ∧
      Delivered lv (wsLiveTryWrite lv (seg * SEG) data (segLenLocked lv seg)).1 seg := by
  have ht := h.toSlotTable
  have habsent : lv.slotOf seg < 0 := by
    have hiff := ht.present_iff seg hs
    rw [hmiss] at hiff
    simpa using hiff
  rw [tryWrite_whole h ha hab hs, if_neg (by omega)]
  refine ⟨rfl, ?_⟩
  simp only
  generalize lv.present seg = resident
  generalize segLenLocked lv seg = len
  unfold allocSlotLocked at hslot ⊢
  rw [if_neg (by omega)] at hslot ⊢
  cases hf : freeSlot lv with
  | some i =>
    obtain ⟨hi, hfree⟩ := freeSlot_some hf
    simp only [Int.toNat_natCast]
    exact fill_free ht hs hi hfree resident data len
  | none =>
    rw [hf] at hslot
    cases ho : oldestSeg lv seg with
    | none =>
      simp only [ho] at hslot
      omega
    | some old =>
      have hv := oldestSeg_victim ho
      simp only [Int.toNat_natCast]
      exact fill_evicted ht hs hv ho (Int.toNat_of_nonneg hv.slot).symm hmiss (freeSlot_none hf)
        resident data len

/-! One read and what was delivered for it. -/

/-- The segments of the file a read of `count` bytes at `off` touches. -/
def spanSegs (lv : Live) (off count : Nat) : Finset Nat :=
  (Finset.range lv.nsegs).filter fun s =>
    s * SEG < off + min count (lv.total - off) ∧ off < (s + 1) * SEG

/-- While a read waits, the segments delivered for it since the clock stood at
`since` are there and newer than all others. -/
structure Demand (lv : Live) (since : Nat) (ds : List Nat) : Prop where
  clock : since ≤ lv.tick
  here : ∀ s ∈ ds, s < lv.nsegs ∧ lv.present s = true ∧ since < stamp lv s
  older : ∀ s < lv.nsegs, lv.present s = true → s ∉ ds → stamp lv s ≤ since

theorem Demand.congr {lv lv' : Live} {since : Nat} {ds : List Nat} (h : Demand lv since ds)
    (ht : lv'.tick = lv.tick) (hn : lv'.nsegs = lv.nsegs) (hp : lv'.present = lv.present)
    (hs : ∀ s, stamp lv' s = stamp lv s) : Demand lv' since ds := by
  refine ⟨ht ▸ h.clock, fun s hmem => ?_, fun s hlt hpres hmem => ?_⟩
  · rw [hn, hp, hs]
    exact h.here s hmem
  · rw [hs]
    exact h.older s (hn ▸ hlt) (hp ▸ hpres) hmem

/-- The pick of the scan is not among the delivered segments: a full table of them
would be as large as the read. -/
theorem pick_not_delivered {lv : Live} (h : SlotTable lv) {since : Nat} {ds : List Nat}
    (hd : Demand lv since ds) {span : Finset Nat} (hspan : span.card < lv.nslots)
    (hds : ∀ s ∈ ds, s ∈ span) {seg old : Nat} (hs : seg < lv.nsegs) (hseg : seg ∈ span)
    (hmiss : lv.present seg = false) (hwaited : 0 < lv.waiters seg)
    (hlone : ∀ s < lv.nsegs, s ≠ seg → lv.waiters s = 0)
    (hfull : ∀ k < lv.nslots, 0 ≤ lv.slotSeg k) (ho : oldestSeg lv seg = some old) : old ∉ ds := by
  intro hold
  have hdelivered : ∀ s < lv.nsegs, 0 < s → lv.present s = true → s ∈ ds := by
    intro s hlt hpos hp
    have hne : s ≠ seg := by
      rintro rfl
      rw [hmiss] at hp
      cases hp
    have hacked := h.acked s hlt hp
    have hrule : evictable lv seg s = true := by simp [evictable, hs, hwaited, hacked]
    have hvictim : Victim lv seg s :=
      ⟨hpos, hlt, hp, (h.present_iff s hlt).mp hp, hlone s hlt hne, hrule⟩
    by_contra hnot
    have hleast := oldestSeg_least ho hvictim
    have hnew := (hd.here old hold).2.2
    have hstale := hd.older s hlt hp hnot
    omega
  have hslots : lv.nslots ≤ (insert 0 (span.erase seg)).card := by
    rw [← Finset.card_range lv.nslots]
    refine Finset.card_le_card_of_injOn (fun k => (lv.slotSeg k).toNat) ?_ ?_
    · intro k hk
      obtain ⟨s, hlt, hkseg, _, hp⟩ := slot_holds h (by simpa using hk) (hfull k (by simpa using hk))
      simp only [hkseg, Int.toNat_natCast, Finset.coe_insert, Set.mem_insert_iff, Finset.mem_coe]
      by_cases h0 : s = 0
      · exact .inl h0
      · refine .inr (Finset.mem_erase.mpr ⟨?_, hds s (hdelivered s hlt (by omega) hp)⟩)
        rintro rfl
        rw [hmiss] at hp
        cases hp
    · intro k hk k' hk' he
      obtain ⟨s, _, hkseg, hslot, _⟩ := slot_holds h (by simpa using hk) (hfull k (by simpa using hk))
      obtain ⟨s', _, hkseg', hslot', _⟩ :=
        slot_holds h (by simpa using hk') (hfull k' (by simpa using hk'))
      simp only [hkseg, hkseg', Int.toNat_natCast] at he
      rw [he] at hslot
      omega
  have hinsert := Finset.card_insert_le 0 (span.erase seg)
  rw [Finset.card_erase_of_mem hseg] at hinsert
  have hpos := Finset.card_pos.mpr ⟨seg, hseg⟩
  omega

theorem Demand.delivered {lv lv' : Live} {since : Nat} {ds : List Nat} (hd : Demand lv since ds) {seg : Nat} (hs : seg < lv.nsegs) (hdel : Delivered lv lv' seg)
    (hkept : ∀ old, (∀ k < lv.nslots, 0 ≤ lv.slotSeg k) → oldestSeg lv seg = some old → old ∉ ds) :
    Demand lv' since (seg :: ds) := by
  have hn : lv'.nsegs = lv.nsegs := (congrArg Live.nsegs hdel.frame_eq :)
  have hclock := hd.clock
  refine ⟨?_, fun s hmem => ?_, fun s hlt hp hmem => ?_⟩
  · rw [hdel.tick]
    omega
  · by_cases he : s = seg
    · rw [he, hn, hdel.stamp_seg]
      exact ⟨hs, hdel.present, by omega⟩
    · have hold : s ∈ ds := (List.mem_cons.mp hmem).resolve_left he
      obtain ⟨hlt, hp, hstamp⟩ := hd.here s hold
      rcases hdel.others s hlt he hp with ⟨hp', hstamp'⟩ | ⟨_, ho, hfull⟩
      · rw [hn, hstamp']
        exact ⟨hlt, hp', hstamp⟩
      · exact absurd hold (hkept s hfull ho)
  · have hne : s ≠ seg := fun he => hmem (he ▸ List.mem_cons_self)
    have hlt' : s < lv.nsegs := hn ▸ hlt
    have hp' : lv.present s = true := by
      by_contra hab
      rw [hdel.absent s hne (by simpa using hab)] at hp
      cases hp
    rcases hdel.others s hlt' hne hp' with ⟨_, hstamp⟩ | ⟨hgone, _⟩
    · rw [hstamp]
      exact hd.older s hlt' hp' fun hold => hmem (List.mem_cons_of_mem _ hold)
    · rw [hgone] at hp
      cases hp

/-- What a thread makes of a read: it waits for a segment of the span, or it has
returned every byte there is. -/
inductive Pager (lv : Live) (off count since : Nat) (ds : List Nat) : Thread → Prop
  | seeking {r : ReadCall} {need : Nat} (hd : Demand lv since ds) (hn : need ∈ spanSegs lv off count)
      (ho : r.readStart = off) (hc : r.asked = count) : Pager lv off count since ds (.seeking r need)
  | waiting {r : ReadCall} {need : Nat} (hd : Demand lv since ds) (hn : need ∈ spanSegs lv off count)
      (ho : r.readStart = off) (hc : r.asked = count) : Pager lv off count since ds (.waiting r need)
  | returned {r : ReadCall} :
      Pager lv off count since ds (.returned r (min count (lv.total - off) : Nat))

/-- The read is over, or waits for a segment that is missing. -/
def Asks (lv : Live) (off count : Nat) (t : Thread) : Prop :=
  (∃ r, t = .returned r (min count (lv.total - off) : Nat)) ∨
    ∃ need ∈ spanSegs lv off count, t.parkedOn need = true ∧ lv.present need = false

theorem spanSegs_congr {lv lv' : Live} (hn : lv'.nsegs = lv.nsegs) (ht : lv'.total = lv.total)
    (off count : Nat) : spanSegs lv' off count = spanSegs lv off count := by
  unfold spanSegs
  rw [hn, ht]

theorem demand_of_parkFrame {lv lv' : Live} {since : Nat} {ds : List Nat} (h : Demand lv since ds)
    (hf : parkFrame lv' = parkFrame lv) : Demand lv' since ds := by
  have hslot : lv'.slotOf = lv.slotOf := (congrArg Live.slotOf hf :)
  have huse : lv'.lastUse = lv.lastUse := (congrArg Live.lastUse hf :)
  refine h.congr (congrArg Live.tick hf :) (congrArg Live.nsegs hf :) (congrArg Live.present hf :) ?_
  intro s
  unfold stamp
  rw [hslot, huse]

theorem parked_span {lv lv' : Live} {r : ReadCall} {need : Nat} (h : Parked lv r lv' need)
    (hr : Reading lv r) :
    need ∈ spanSegs lv' r.readStart r.asked ∧ lv'.present need = false := by
  have hn : lv'.nsegs = lv.nsegs := (congrArg Live.nsegs h.frame_eq :)
  have ht : lv'.total = lv.total := (congrArg Live.total h.frame_eq :)
  have hp : lv'.present = lv.present := (congrArg Live.present h.frame_eq :)
  rw [spanSegs_congr hn ht, hp]
  refine ⟨Finset.mem_filter.mpr ⟨Finset.mem_range.mpr h.lt, ?_, h.above⟩, h.missing⟩
  rw [← hr.count_eq]
  exact h.below

/-- A turn of the scan ends the read or parks it on what is missing. -/
theorem scanFrom_pager {lv : Live} (h : Session lv) (hab : lv.aborted = false) {r : ReadCall}
    (hr : Reading lv r) {since : Nat} {ds : List Nat} (hd : Demand lv since ds) (now : Nat) :
    Pager (scanFrom lv r now).1 r.readStart r.asked since ds (scanFrom lv r now).2 ∧
      Asks (scanFrom lv r now).1 r.readStart r.asked (scanFrom lv r now).2 := by
  have hc := readTurn_cases (fun _ => h) (fun _ => hr) now
  unfold scanFrom
  generalize (readTurn lv r now).1 = lv' at hc ⊢
  generalize (readTurn lv r now).2 = turn at hc ⊢
  cases hc with
  | aborted hx =>
    rw [hab] at hx
    cases hx
  | @served lv₁ r' _ hcp =>
    have ht : (deliver lv₁ r').total = lv.total := (congrArg Live.total hcp.frame_eq :)
    have hcount : r.count = min r.asked ((deliver lv₁ r').total - r.readStart) := by
      rw [ht, hr.count_eq]
    rw [hcount]
    exact ⟨.returned, .inl ⟨r', rfl⟩⟩
  | seek hp =>
    obtain ⟨hspan, hmiss⟩ := parked_span hp hr
    exact ⟨.seeking (demand_of_parkFrame hd hp.frame_eq) hspan rfl rfl,
      .inr ⟨_, hspan, beq_self_eq_true _, hmiss⟩⟩
  | wait hp =>
    obtain ⟨hspan, hmiss⟩ := parked_span hp hr
    exact ⟨.waiting (demand_of_parkFrame hd hp.frame_eq) hspan rfl rfl,
      .inr ⟨_, hspan, beq_self_eq_true _, hmiss⟩⟩

/-! The run. -/

/-- A call that moves no data and ends no session. -/
def Calm : Event → Prop
  | .create _ => True
  | .setSeekFn _ => True
  | .attach => True
  | .detach => True
  | .finish => True
  | _ => False

/-- The reader goes on, not at its deadline. -/
def Wakes : Event → Prop
  | .rescan _ => True
  | .seekReturn _ => True
  | .readWake expired _ => expired = false
  | _ => False

/-- A run in which the only write is the delivery, by another thread, of the missing
segment that thread `i` is parked on; the newest delivery is first. -/
inductive Paging (i : Nat) (p : Pool Live Thread) : List Nat → Pool Live Thread → Prop
  | start : Paging i p [] p
  | woken {ds : List Nat} {q r : Pool Live Thread} {e : Event} (h : Paging i p ds q) (he : Wakes e)
      (hs : live.step q i e = some r) : Paging i p ds r
  | calm {ds : List Nat} {q r : Pool Live Thread} {j : Nat} {e : Event} (h : Paging i p ds q)
      (hj : j ≠ i) (he : Calm e) (hg : AttachDiscipline q j e) (hs : live.step q j e = some r) :
      Paging i p ds r
  | delivered {ds : List Nat} {q r : Pool Live Thread} {j need : Nat} {t : Thread} {data : Bytes}
      (h : Paging i p ds q) (hj : j ≠ i) (ht : q.threads[i]? = some t)
      (hneed : t.parkedOn need = true) (hmiss : q.shared.present need = false)
      (hs : live.step q j (.tryWrite (need * SEG) data (segLenLocked q.shared need)) = some r) :
      Paging i p (need :: ds) r

theorem calm_call {lv : Live} (ha : lv.active = true) {e : Event} (he : Calm e) {st : Live × Thread}
    (hc : call lv e = some st) :
    quietFrame st.1 = quietFrame lv ∧ st.1.aborted = lv.aborted ∧ st.2.reading = false := by
  cases e with
  | create c =>
    cases hc
    obtain ⟨n, hn⟩ | ⟨hna, _⟩ := create_cases lv c
    · rw [hn]
      exact ⟨rfl, rfl, rfl⟩
    · rw [ha] at hna
      cases hna
  | setSeekFn on => cases hc; exact ⟨rfl, rfl, rfl⟩
  | attach =>
    cases hc
    unfold wsLiveAttach
    split_ifs <;> exact ⟨rfl, rfl, rfl⟩
  | detach =>
    cases hc
    unfold wsLiveDetach
    dsimp only
    split_ifs <;> exact ⟨rfl, rfl, rfl⟩
  | finish =>
    cases hc
    unfold wsLiveFinish
    dsimp only
    split_ifs <;> exact ⟨rfl, rfl, rfl⟩
  | _ => cases he

theorem calm_turn {lv lv' : Live} (ha : lv.active = true) {t t' : Thread} {e : Event} (he : Calm e)
    (ht : turn lv t e = some (lv', t')) :
    quietFrame lv' = quietFrame lv ∧ lv'.aborted = lv.aborted ∧ t'.reading = false := by
  obtain ⟨_, hc⟩ | ⟨_, _, _, rfl, _⟩ | ⟨_, _, _, rfl, _⟩ | ⟨_, _, _, _, rfl, _⟩ |
    ⟨_, _, _, _, _, rfl, _⟩ := turn_cases ht
  · exact calm_call ha he hc
  all_goals cases he

theorem demand_of_quietFrame {lv lv' : Live} {since : Nat} {ds : List Nat} (h : Demand lv since ds)
    (hf : quietFrame lv' = quietFrame lv) : Demand lv' since ds := by
  have hslot : lv'.slotOf = lv.slotOf := (congrArg Live.slotOf hf :)
  have huse : lv'.lastUse = lv.lastUse := (congrArg Live.lastUse hf :)
  refine h.congr (congrArg Live.tick hf :) (congrArg Live.nsegs hf :) (congrArg Live.present hf :) ?_
  intro s
  unfold stamp
  rw [hslot, huse]

/-- The reader's place is kept by what keeps the demand and the file. -/
theorem Pager.congr {lv lv' : Live} {off count since : Nat} {ds ds' : List Nat} {t : Thread}
    (h : Pager lv off count since ds t) (hn : lv'.nsegs = lv.nsegs) (ht : lv'.total = lv.total)
    (hd : Demand lv since ds → Demand lv' since ds') : Pager lv' off count since ds' t := by
  cases h with
  | seeking hd₀ hneed ho hc => exact .seeking (hd hd₀) (spanSegs_congr hn ht off count ▸ hneed) ho hc
  | waiting hd₀ hneed ho hc => exact .waiting (hd hd₀) (spanSegs_congr hn ht off count ▸ hneed) ho hc
  | returned =>
    rw [← ht]
    exact .returned

theorem unpark_reading {lv : Live} {r : ReadCall} (need : Nat) (h : Reading lv r) :
    Reading (unpark lv need) r := by
  have ht : (unpark lv need).total = lv.total := (congrArg Live.total (unpark_frame lv need) :)
  exact ⟨h.start, h.got, h.count_pos, ht ▸ h.count_eq, ht ▸ h.inside, h.stop⟩

/-- Leaving the wait and scanning again. -/
theorem unpark_pager {lv : Live} (h : Session lv) (hab : lv.aborted = false) {r : ReadCall}
    (hr : Reading lv r) {since : Nat} {ds : List Nat} (hd : Demand lv since ds) (need now : Nat) :
    Pager (scanFrom (unpark lv need) r now).1 r.readStart r.asked since ds
        (scanFrom (unpark lv need) r now).2 ∧
      Asks (scanFrom (unpark lv need) r now).1 r.readStart r.asked
        (scanFrom (unpark lv need) r now).2 := by
  have hf := unpark_frame lv need
  have hab' : (unpark lv need).aborted = false := (congrArg Live.aborted hf :).trans hab
  exact scanFrom_pager (Session.of_readFrame (readFrame_of_park hf) h) hab' (unpark_reading need hr)
    (demand_of_parkFrame hd hf) now

theorem wake_frame {lv lv' : Live} {t t' : Thread} {e : Event} (he : Wakes e)
    (ht : turn lv t e = some (lv', t')) : readFrame lv' = readFrame lv := by
  obtain ⟨_, hc⟩ | ⟨_, _, _, rfl, _⟩ | ⟨r, _, now, _, heq⟩ | ⟨r, need, _, now, _, heq⟩ |
    ⟨r, need, _, expired, now, _, heq⟩ := turn_cases ht
  · cases e with
    | rescan _ => cases hc
    | seekReturn _ => cases hc
    | readWake _ _ => cases hc
    | _ => exact he.elim
  · exact he.elim
  · obtain rfl : lv' = _ := congrArg Prod.fst heq
    exact scanFrom_frame lv r now
  · obtain rfl : lv' = _ := congrArg Prod.fst heq
    exact seekReturn_frame lv r need now
  · obtain rfl : lv' = _ := congrArg Prod.fst heq
    exact readWake_frame lv r need expired now

theorem wake_pager {lv lv' : Live} (h : Session lv) (ha : lv.active = true) (hab : lv.aborted = false)
    {off count since : Nat} {ds : List Nat} {t t' : Thread} (hr : ReaderAlive lv t)
    (hp : Pager lv off count since ds t) {e : Event} (he : Wakes e)
    (ht : turn lv t e = some (lv', t')) :
    Pager lv' off count since ds t' ∧
      ((∃ need, t.parkedOn need = true ∧ lv.present need = true) → Asks lv' off count t') := by
  cases hp with
  | @seeking r need hd hn ho hc =>
    cases e with
    | seekReturn now =>
      have hturn : seekReturn lv r need now = (lv', t') := Option.some.inj ht
      have hlt := hr.2 ha
      have hread := hr.1.2 ha
      unfold seekReturn at hturn
      rw [if_neg (by simp [ha, hab])] at hturn
      by_cases hpres : lv.present need = true
      · rw [if_pos ⟨hlt, hpres⟩] at hturn
        obtain ⟨h1, h2⟩ := unpark_pager h hab hread hd need now
        rw [hturn, ho, hc] at h1 h2
        exact ⟨h1, fun _ => h2⟩
      · rw [if_neg fun hx => hpres hx.2] at hturn
        obtain ⟨rfl, rfl⟩ := Prod.mk.inj hturn
        refine ⟨.waiting hd hn ho hc, ?_⟩
        rintro ⟨s, hs, hx⟩
        exact absurd (beq_iff_eq.mp hs ▸ hx) hpres
    | _ => cases ht
  | @waiting r need hd hn ho hc =>
    cases e with
    | readWake expired now =>
      have hturn : readWake lv r need expired now = (lv', t') := Option.some.inj ht
      obtain rfl : expired = false := he
      have hread := hr.1.2 ha
      unfold readWake at hturn
      rw [if_neg Bool.false_ne_true] at hturn
      obtain ⟨h1, h2⟩ := unpark_pager h hab hread hd need now
      rw [hturn, ho, hc] at h1 h2
      exact ⟨h1, fun _ => h2⟩
    | _ => cases ht
  | returned =>
    cases e with
    | rescan _ => cases ht
    | seekReturn _ => cases ht
    | readWake _ _ => cases ht
    | _ => cases he

/-- What holds of the pool in every state of such a run. -/
structure Paged (lv : Live) (i off count since : Nat) (ds : List Nat) (q : Pool Live Thread) : Prop
    extends ReaderInv q where
  active : q.shared.active = true
  running : q.shared.aborted = false
  nsegs : q.shared.nsegs = lv.nsegs
  total : q.shared.total = lv.total
  room : (spanSegs q.shared off count).card ≤ q.shared.nslots - 1
  alone : ∀ j u, j ≠ i → q.threads[j]? = some u → u.reading = false
  nodup : ds.Nodup
  within : ∀ s ∈ ds, s ∈ spanSegs q.shared off count
  here : ∀ s ∈ ds, q.shared.present s = true
  pager : ∃ t, q.threads[i]? = some t ∧ Pager q.shared off count since ds t

theorem Pager.parked {lv : Live} {off count since : Nat} {ds : List Nat} {t : Thread}
    (h : Pager lv off count since ds t) {need : Nat} (hn : t.parkedOn need = true) :
    Demand lv since ds ∧ need ∈ spanSegs lv off count := by
  cases h with
  | seeking hd hs _ _ => exact ⟨hd, beq_iff_eq.mp hn ▸ hs⟩
  | waiting hd hs _ _ => exact ⟨hd, beq_iff_eq.mp hn ▸ hs⟩
  | returned => cases hn

/-- What only thread `i` may do at most one thread does. -/
theorem countP_alone {p : Pool Live Thread} {i : Nat} {t : Thread} (ht : p.threads[i]? = some t)
    (P : Thread → Bool) (hidle : P .idle = false)
    (halone : ∀ j u, j ≠ i → p.threads[j]? = some u → P u = false) :
    p.threads.countP P = if P t then 1 else 0 := by
  have hcount := countP_step P .idle [] ht
  have hzero : (p.threads.set i .idle ++ []).countP P = 0 := by
    rw [List.countP_eq_zero]
    intro u hu
    rcases mem_step ht hu with rfl | ⟨j, hj, hu⟩ | hn
    · simp [hidle]
    · simp [halone j u hj hu]
    · cases hn
  rw [hzero, hidle] at hcount
  simpa using hcount.symm

theorem Paged.lone_waiter {lv : Live} {i off count since : Nat} {ds : List Nat} {q : Pool Live Thread}
    (h : Paged lv i off count since ds q) {t : Thread} (ht : q.threads[i]? = some t) {need : Nat}
    (hn : t.parkedOn need = true) : ∀ s < q.shared.nsegs, s ≠ need → q.shared.waiters s = 0 := by
  intro s hs hne
  rw [h.waiters h.active s hs, countP_alone ht _ rfl, if_neg]
  · exact fun hp => hne (parkedOn_unique hp hn)
  · exact fun j u hj hu => parkedOn_of_not_reading (h.alone j u hj hu) s

/-- The segment the reader is parked on finds a slot. -/
theorem Paged.slot {lv : Live} {i off count since : Nat} {ds : List Nat} {q : Pool Live Thread}
    (h : Paged lv i off count since ds q) {t : Thread} (ht : q.threads[i]? = some t) {need : Nat}
    (hn : t.parkedOn need = true) : 0 ≤ (allocSlotLocked q.shared need).2 := by
  obtain ⟨t', ht', hp⟩ := h.pager
  obtain rfl : t = t' := Option.some.inj (ht.symm.trans ht')
  obtain ⟨hlt, hw⟩ := parkedOn_lt h.toReaderInv h.active (List.mem_of_getElem? ht) hn
  have hpos := Finset.card_pos.mpr ⟨need, (hp.parked hn).2⟩
  have hroom := h.room
  have hreaders : q.threads.countP Thread.reading < q.shared.nslots := by
    rw [countP_alone ht _ rfl h.alone]
    split_ifs <;> omega
  exact alloc_waited h.toReaderInv h.active hreaders hlt hw

theorem Paged.woken {lv : Live} {i off count since : Nat} {ds : List Nat} {q r : Pool Live Thread} {e : Event}
    (h : Paged lv i off count since ds q) (he : Wakes e) (hs : live.step q i e = some r) :
    Paged lv i off count since ds r := by
  have hg : AttachDiscipline q i e := by cases e <;> trivial
  have hinv := readerInv_step h.toReaderInv hg hs
  obtain ⟨u, lv', u', hu, hturn, rfl⟩ := live_step hs
  obtain ⟨t, ht, hp⟩ := h.pager
  obtain rfl : t = u := Option.some.inj (ht.symm.trans hu)
  have hr := h.readers t (List.mem_of_getElem? ht)
  obtain ⟨hp', _⟩ := wake_pager (h.session h.active) h.active h.running hr hp he hturn
  have hf := wake_frame he hturn
  have hspan : spanSegs lv' off count = spanSegs q.shared off count :=
    spanSegs_congr (congrArg Live.nsegs hf :) (congrArg Live.total hf :) off count
  have hpres : lv'.present = q.shared.present := (congrArg Live.present hf :)
  have hslots : lv'.nslots = q.shared.nslots := (congrArg Live.nslots hf :)
  refine ⟨hinv, (congrArg Live.active hf :).trans h.active, (congrArg Live.aborted hf :).trans h.running,
    (congrArg Live.nsegs hf :).trans h.nsegs, (congrArg Live.total hf :).trans h.total, ?_, ?_, h.nodup,
    ?_, ?_, u', getElem?_step ht, hp'⟩
  · rw [hspan, hslots]
    exact h.room
  · intro j w hj hw
    rw [List.append_nil, List.getElem?_set_ne (Ne.symm hj)] at hw
    exact h.alone j w hj hw
  · rw [hspan]
    exact h.within
  · rw [hpres]
    exact h.here

/-- The step of another thread that keeps the file and the delivered segments. -/
theorem Paged.other {lv : Live} {i off count since : Nat} {ds ds' : List Nat} {q r : Pool Live Thread} {j : Nat}
    {e : Event} (h : Paged lv i off count since ds q) (hj : j ≠ i) (hg : AttachDiscipline q j e)
    (hs : live.step q j e = some r) (hquiet : ∀ u, r.threads[j]? = some u → u.reading = false)
    (ha : r.shared.active = true) (hab : r.shared.aborted = false)
    (hn : r.shared.nsegs = q.shared.nsegs) (ht : r.shared.total = q.shared.total)
    (hslots : r.shared.nslots = q.shared.nslots) (hnodup : ds'.Nodup)
    (hwithin : ∀ s ∈ ds', s ∈ spanSegs q.shared off count)
    (hhere : ∀ s ∈ ds', r.shared.present s = true)
    (hd : Demand q.shared since ds → Demand r.shared since ds') : Paged lv i off count since ds' r := by
  have hinv := readerInv_step h.toReaderInv hg hs
  have hspan := spanSegs_congr hn ht off count
  obtain ⟨t, hti, hp⟩ := h.pager
  obtain ⟨u, lv', u', hu, hturn, rfl⟩ := live_step hs
  refine ⟨hinv, ha, hab, hn.trans h.nsegs, ht.trans h.total, ?_, ?_, hnodup, ?_, hhere, t, getElem?_other (Ne.symm hj) hti,
    hp.congr hn ht hd⟩
  · rw [hspan, hslots]
    exact h.room
  · intro k w hk hw
    by_cases hkj : k = j
    · exact hquiet w (hkj ▸ hw)
    · rw [List.append_nil, List.getElem?_set_ne (Ne.symm hkj)] at hw
      exact h.alone k w hk hw
  · rw [hspan]
    exact hwithin

theorem Paged.calm {lv : Live} {i off count since : Nat} {ds : List Nat} {q r : Pool Live Thread} {j : Nat}
    {e : Event} (h : Paged lv i off count since ds q) (hj : j ≠ i) (he : Calm e)
    (hg : AttachDiscipline q j e) (hs : live.step q j e = some r) : Paged lv i off count since ds r := by
  obtain ⟨u, lv', u', hu, hturn, hr⟩ := live_step hs
  obtain ⟨hf, hab, hquiet⟩ := calm_turn h.active he hturn
  have hpres : lv'.present = q.shared.present := (congrArg Live.present hf :)
  refine h.other hj hg hs ?_ ?_ ?_ ?_ ?_ ?_ h.nodup h.within ?_ fun hd => ?_
  all_goals subst hr
  · intro w hw
    rw [getElem?_step hu] at hw
    exact Option.some.inj hw ▸ hquiet
  · exact (congrArg Live.active hf :).trans h.active
  · exact hab.trans h.running
  · exact (congrArg Live.nsegs hf :)
  · exact (congrArg Live.total hf :)
  · exact (congrArg Live.nslots hf :)
  · show ∀ s ∈ ds, lv'.present s = true
    rw [hpres]
    exact h.here
  · exact demand_of_quietFrame hd hf

theorem Paged.delivered {lv : Live} {i off count since : Nat} {ds : List Nat} {q r : Pool Live Thread}
    {j need : Nat} {t : Thread} {data : Bytes} (h : Paged lv i off count since ds q) (hj : j ≠ i)
    (ht : q.threads[i]? = some t) (hneed : t.parkedOn need = true)
    (hmiss : q.shared.present need = false)
    (hs : live.step q j (.tryWrite (need * SEG) data (segLenLocked q.shared need)) = some r) :
    Paged lv i off count since (need :: ds) r := by
  obtain ⟨t', ht', hp⟩ := h.pager
  obtain rfl : t = t' := Option.some.inj (ht.symm.trans ht')
  obtain ⟨hd, hspan⟩ := hp.parked hneed
  obtain ⟨hlt, hw⟩ := parkedOn_lt h.toReaderInv h.active (List.mem_of_getElem? ht) hneed
  have hsession := h.session h.active
  obtain ⟨hzero, hdel⟩ := tryWrite_delivered hsession h.active h.running hlt hmiss (h.slot ht hneed) data
  have hfresh : need ∉ ds := by
    intro hmem
    rw [h.here need hmem] at hmiss
    cases hmiss
  have hroom := h.room
  have hpos := Finset.card_pos.mpr ⟨need, hspan⟩
  have hkept : ∀ old, (∀ k < q.shared.nslots, 0 ≤ q.shared.slotSeg k) →
      oldestSeg q.shared need = some old → old ∉ ds := fun old hfull ho =>
    pick_not_delivered hsession.toSlotTable hd (by omega) h.within hlt hspan hmiss hw
      (h.lone_waiter ht hneed) hfull ho
  have hd' := hd.delivered hlt hdel hkept
  obtain ⟨u, lv', u', hu, hturn, hr⟩ := live_step hs
  obtain ⟨_, hc⟩ | ⟨_, _, _, hx, _⟩ | ⟨_, _, _, hx, _⟩ | ⟨_, _, _, _, hx, _⟩ |
    ⟨_, _, _, _, _, hx, _⟩ := turn_cases hturn
  · have hst := Option.some.inj hc
    unfold afterWrite at hst
    rw [hzero] at hst
    obtain ⟨rfl, rfl⟩ := Prod.mk.inj hst
    have hf := (accept_quiet (wsLiveTryWrite q.shared (need * SEG) data
      (segLenLocked q.shared need)).1 (need * SEG) data (segLenLocked q.shared need) 0).frame_eq
    have hdf := hdel.frame_eq
    have hd'' := demand_of_quietFrame hd' hf
    have hg : AttachDiscipline q j
        (.tryWrite (need * SEG) data (segLenLocked q.shared need)) := trivial
    refine h.other hj hg hs ?_ ?_ ?_ ?_ ?_ ?_ (List.nodup_cons.mpr ⟨hfresh, h.nodup⟩) ?_ ?_
      fun _ => ?_
    all_goals subst hr
    · intro w hw
      rw [getElem?_step hu] at hw
      exact Option.some.inj hw ▸ rfl
    · exact (congrArg Live.active hf :).trans ((congrArg Live.active hdf :).trans h.active)
    · exact (congrArg Live.aborted hdf :).trans h.running
    · exact (congrArg Live.nsegs hf :).trans (congrArg Live.nsegs hdf :)
    · exact (congrArg Live.total hf :).trans (congrArg Live.total hdf :)
    · exact (congrArg Live.nslots hf :).trans (congrArg Live.nslots hdf :)
    · intro s hmem
      rcases List.mem_cons.mp hmem with rfl | hold
      · exact hspan
      · exact h.within s hold
    · exact fun s hmem => (hd''.here s hmem).2.1
    · exact hd''
  all_goals cases hx

theorem Paging.paged {lv : Live} {i off count since : Nat} {p q : Pool Live Thread} {ds : List Nat}
    (h : Paging i p ds q) (hp : Paged lv i off count since [] p) : Paged lv i off count since ds q := by
  induction h with
  | start => exact hp
  | woken _ he hs ih => exact ih.woken he hs
  | calm _ hj he hg hs ih => exact ih.calm hj he hg hs
  | delivered _ hj ht hneed hmiss hs ih => exact ih.delivered hj ht hneed hmiss hs

/-- The read enters with an empty list of deliveries. -/
theorem read_paged {p p₁ : Pool Live Thread} {i off count now : Nat} {buf : Bytes} (hp : ReaderInv p)
    (hst : Stamped p.shared) (ha : p.shared.active = true) (hab : p.shared.aborted = false)
    (halone : ∀ t ∈ p.threads, t.reading = false) (hrefs : 0 < p.shared.refs)
    (hread : live.step p i (.read off buf count now) = some p₁)
    (hroom : (spanSegs p.shared off count).card ≤ p.shared.nslots - 1) :
    Paged p.shared i off count p.shared.tick [] p₁ := by
  have hg : AttachDiscipline p i (.read off buf count now) := hrefs
  have hinv := readerInv_step hp hg hread
  obtain ⟨u, lv', u', hu, hturn, rfl⟩ := live_step hread
  obtain ⟨_, hc⟩ | ⟨_, _, _, hx, _⟩ | ⟨_, _, _, hx, _⟩ | ⟨_, _, _, _, hx, _⟩ |
    ⟨_, _, _, _, _, hx, _⟩ := turn_cases hturn
  · have hcall : wsLiveRead p.shared off buf count now = (lv', u') := Option.some.inj hc
    have hf : readFrame lv' = readFrame p.shared := by
      have hf := wsLiveRead_frame p.shared off buf count now
      rwa [hcall] at hf
    have hspan : spanSegs lv' off count = spanSegs p.shared off count :=
      spanSegs_congr (congrArg Live.nsegs hf :) (congrArg Live.total hf :) off count
    have hslots : lv'.nslots = p.shared.nslots := (congrArg Live.nslots hf :)
    have hd : Demand p.shared p.shared.tick [] :=
      ⟨Nat.le_refl _, fun _ hs => absurd hs List.not_mem_nil, fun s _ _ _ => hst _⟩
    refine ⟨hinv, (congrArg Live.active hf :).trans ha, (congrArg Live.aborted hf :).trans hab,
      (congrArg Live.nsegs hf :), (congrArg Live.total hf :), ?_, ?_, List.nodup_nil,
      fun _ hs => absurd hs List.not_mem_nil, fun _ hs => absurd hs List.not_mem_nil, u',
      getElem?_step hu, ?_⟩
    · rw [hspan, hslots]
      exact hroom
    · intro j w hj hw
      rw [List.append_nil, List.getElem?_set_ne (Ne.symm hj)] at hw
      exact halone w (List.mem_of_getElem? hw)
    · show Pager lv' off count p.shared.tick [] u'
      unfold wsLiveRead at hcall
      by_cases h1 : count = 0
      · rw [if_pos h1] at hcall
        obtain ⟨rfl, rfl⟩ := Prod.mk.inj hcall
        have hzero : ((0 : Int)) = (min count (p.shared.total - off) : Nat) := by
          rw [h1, Nat.zero_min]
          rfl
        rw [hzero]
        exact .returned
      · rw [if_neg h1, if_neg (by simp [ha])] at hcall
        by_cases h3 : p.shared.total ≤ off
        · rw [if_pos h3] at hcall
          obtain ⟨rfl, rfl⟩ := Prod.mk.inj hcall
          have hzero : ((0 : Int)) = (min count (p.shared.total - off) : Nat) := by
            rw [Nat.sub_eq_zero_of_le h3, Nat.min_zero]
            rfl
          rw [hzero]
          exact .returned
        · rw [if_neg h3] at hcall
          have hr := (@wsLiveRead_inside p.shared off count buf h1 ha h3).2 ha
          have hscan := (scanFrom_pager (hp.session ha) hab hr hd now).1
          have he := congrArg Prod.fst hcall
          have he' := congrArg Prod.snd hcall
          rw [he, he'] at hscan
          exact hscan
  all_goals cases hx

/-- Thread `i` gave `n` back. -/
def Returned (q : Pool Live Thread) (i n : Nat) : Prop :=
  ∃ r, q.threads[i]? = some (.returned r n)

/-- Thread `i` is parked on a segment. -/
def ParkedAt (q : Pool Live Thread) (i need : Nat) : Prop :=
  ∃ t, q.threads[i]? = some t ∧ t.parkedOn need = true

theorem Paged.length_le {lv : Live} {i off count since : Nat} {ds : List Nat} {q : Pool Live Thread}
    (h : Paged lv i off count since ds q) : ds.length ≤ (spanSegs q.shared off count).card := by
  rw [← List.toFinset_card_of_nodup h.nodup]
  exact Finset.card_le_card fun s hs => h.within s (List.mem_toFinset.mp hs)

theorem Paged.length_lt {lv : Live} {i off count since : Nat} {ds : List Nat} {q : Pool Live Thread}
    (h : Paged lv i off count since ds q) {need : Nat} (hspan : need ∈ spanSegs q.shared off count)
    (hmiss : q.shared.present need = false) : ds.length < (spanSegs q.shared off count).card := by
  rw [← List.toFinset_card_of_nodup h.nodup]
  refine Finset.card_lt_card (Finset.ssubset_iff_of_subset ?_ |>.mpr ⟨need, hspan, ?_⟩)
  · exact fun s hs => h.within s (List.mem_toFinset.mp hs)
  · intro hmem
    rw [h.here need (List.mem_toFinset.mp hmem)] at hmiss
    cases hmiss

theorem parked_wakes {q : Pool Live Thread} {i need : Nat} (h : ParkedAt q i need) :
    ∃ e r, Wakes e ∧ live.step q i e = some r := by
  obtain ⟨t, ht, hn⟩ := h
  cases t with
  | seeking c s => exact ⟨.seekReturn 0, _, trivial, by simp [Machine.step, ht, live, turn]; rfl⟩
  | waiting c s => exact ⟨.readWake false 0, _, rfl, by simp [Machine.step, ht, live, turn]; rfl⟩
  | _ => cases hn

/-- A read that touches fewer segments than there are slots, and for which the segment
it is parked on is delivered each time, gets all it asked for: no delivery is busy,
none is undone, none is made twice, and after each the read ends or asks for another. -/
theorem demand_paging_ends {seekFn : Bool} {n : Nat} {p p₁ : Pool Live Thread}
    (h : live.Reach AttachDiscipline (start seekFn n) p) (ha : p.shared.active = true)
    (hab : p.shared.aborted = false) (halone : ∀ t ∈ p.threads, t.reading = false)
    (hrefs : 0 < p.shared.refs) {i off count now : Nat} {buf : Bytes}
    (hread : live.step p i (.read off buf count now) = some p₁)
    (hroom : (spanSegs p.shared off count).card ≤ p.shared.nslots - 1) {ds : List Nat}
    {q : Pool Live Thread} (hq : Paging i p₁ ds q) :
    ds.Nodup ∧ (∀ s ∈ ds, s ∈ spanSegs p.shared off count ∧ q.shared.present s = true) ∧
    ds.length ≤ (spanSegs p.shared off count).card ∧
    (Returned q i (min count (p.shared.total - off)) ∨
      ∃ need ∈ spanSegs p.shared off count, ParkedAt q i need ∧
        (∀ data, (wsLiveTryWrite q.shared (need * SEG) data (segLenLocked q.shared need)).2 = 0) ∧
        (q.shared.present need = false → ds.length < (spanSegs p.shared off count).card) ∧
        (∃ e r, Wakes e ∧ live.step q i e = some r) ∧
        (q.shared.present need = true → ∀ e r, Wakes e → live.step q i e = some r →
          Returned r i (min count (p.shared.total - off)) ∨
            ∃ need' ∈ spanSegs p.shared off count, ParkedAt r i need' ∧
              r.shared.present need' = false ∧
              ds.length < (spanSegs p.shared off count).card)) := by
  have hpaged := hq.paged (read_paged (readerInv_reach h) (stamped_reach h) ha hab halone hrefs hread hroom)
  have hspan := spanSegs_congr hpaged.nsegs hpaged.total off count
  have hle := hpaged.length_le
  rw [hspan] at hle
  refine ⟨hpaged.nodup, fun s hs => ⟨hspan ▸ hpaged.within s hs, hpaged.here s hs⟩, hle, ?_⟩
  obtain ⟨t, ht, hp⟩ := hpaged.pager
  by_cases hparked : ∃ need, t.parkedOn need = true
  · obtain ⟨need, hneed⟩ := hparked
    have hmem := (hp.parked hneed).2
    obtain ⟨hlt, _⟩ := parkedOn_lt hpaged.toReaderInv hpaged.active (List.mem_of_getElem? ht) hneed
    refine .inr ⟨need, hspan ▸ hmem, ⟨t, ht, hneed⟩, fun data => ?_, fun hmiss => ?_,
      parked_wakes ⟨t, ht, hneed⟩, fun hpres e r he hs => ?_⟩
    · have hslot := hpaged.slot ht hneed
      rw [tryWrite_whole (hpaged.session hpaged.active) hpaged.active hpaged.running hlt,
        if_neg (by omega)]
    · exact hspan ▸ hpaged.length_lt hmem hmiss
    · have hpaged' := hpaged.woken he hs
      have hspan' := spanSegs_congr hpaged'.nsegs hpaged'.total off count
      obtain ⟨u, lv', t', hu, hturn, rfl⟩ := live_step hs
      obtain rfl : t = u := Option.some.inj (ht.symm.trans hu)
      have hr := hpaged.readers t (List.mem_of_getElem? ht)
      obtain ⟨_, hasks⟩ :=
        wake_pager (hpaged.session hpaged.active) hpaged.active hpaged.running hr hp he hturn
      rcases hasks ⟨need, hneed, hpres⟩ with ⟨c, rfl⟩ | ⟨need', hmem', hneed', hmiss'⟩
      · have htotal : lv'.total = p.shared.total := hpaged'.total
        rw [← htotal]
        exact .inl ⟨c, getElem?_step ht⟩
      · have hmem₁ : need' ∈ spanSegs p.shared off count := hspan' ▸ hmem'
        exact .inr ⟨need', hmem₁, ⟨t', getElem?_step ht, hneed'⟩, hmiss',
          hspan' ▸ hpaged'.length_lt hmem' hmiss'⟩
  · cases hp with
    | seeking => exact absurd ⟨_, beq_self_eq_true _⟩ hparked
    | waiting => exact absurd ⟨_, beq_self_eq_true _⟩ hparked
    | @returned r =>
      rw [hpaged.total] at ht
      exact .inl ⟨r, ht⟩

/-- A read of the last two of six segments over a ring of four that is full: the
first of them was delivered and stays. -/
theorem demand_paging_ends_second :
    ∃ q : Pool Live Thread, q.shared.present 4 = true ∧
      (Returned q 1 (2 * SEG) ∨ ∃ need, ParkedAt q 1 need) := by
  have hv : ((live.exec AttachDiscipline [(0, .create sixSegments),
      (0, .tryWrite 0 (fun _ => 7) (4 * SEG)), (0, .attach)] (start true 2)).bind fun p =>
        (live.step p 1 (.read (4 * SEG) (fun _ => 0) (2 * SEG) 3000)).bind fun p₁ =>
          (live.step p₁ 0 (.tryWrite (4 * SEG) (fun _ => 8) (segLenLocked p₁.shared 4))).map fun q =>
            ((p.shared.active, p.shared.aborted, p.threads.all fun t => !t.reading),
              (decide (0 < p.shared.refs), p.shared.total - 4 * SEG,
                decide ((spanSegs p.shared (4 * SEG) (2 * SEG)).card ≤ p.shared.nslots - 1)),
              (p₁.threads[1]?.any (Thread.parkedOn 4), p₁.shared.present 4))) =
        some ((true, false, true), (true, 2 * SEG, true), (true, false)) := by
    decide
  obtain ⟨p, hp, hv⟩ := Option.bind_eq_some_iff.mp hv
  obtain ⟨p₁, hp₁, hv⟩ := Option.bind_eq_some_iff.mp hv
  obtain ⟨q, hq, hv⟩ := Option.map_eq_some_iff.mp hv
  simp only [Prod.mk.injEq, decide_eq_true_eq, List.all_eq_true, Bool.not_eq_true'] at hv
  obtain ⟨⟨ha, hab, halone⟩, ⟨hrefs, htotal, hroom⟩, hparked, hmiss⟩ := hv
  have hrun : Paging 1 p₁ [4] q := by
    cases ht : p₁.threads[1]? with
    | none => simp [ht] at hparked
    | some t =>
      rw [ht] at hparked
      exact .delivered .start (by decide) ht hparked hmiss hq
  have hr : live.Reach AttachDiscipline (start true 2) p := .of_exec hp
  obtain ⟨_, hhere, _, hends⟩ := demand_paging_ends hr ha hab halone hrefs hp₁ hroom hrun
  refine ⟨q, (hhere 4 List.mem_cons_self).2, ?_⟩
  rw [htotal, Nat.min_self] at hends
  exact hends.imp id fun ⟨need, _, hat, _⟩ => ⟨need, hat⟩

end PkgManager.LiveDemand
