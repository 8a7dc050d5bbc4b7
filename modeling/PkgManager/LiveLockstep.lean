import PkgManager.LiveReaders

namespace PkgManager.LiveLockstep

open Interleaving Memory LiveSession LiveCalls LiveSlots LiveReads LiveThreads LiveSound LiveReaders

/-- Some read of the session has returned the byte at this position. -/
def Delivered (lv : Live) (pos : Nat) : Prop :=
  ∃ d ∈ lv.history.delivered, d.1 ≤ pos ∧ pos < d.2

/-- `run_hi` is a true boundary: the reader has passed everything below it. -/
def Lockstep (lv : Live) : Prop := ∀ pos < lv.runHi, Delivered lv pos

/-- A scan that is served now from above `run_hi`, but within one segment of
it, jumps over nothing the reader still needs. -/
def NoJump (lv : Live) (start count : Nat) : Prop :=
  lv.active = true → lv.aborted = false → lv.runHi < start → start ≤ lv.runHi + SEG →
    Resident lv start (start + count) → ∀ pos, lv.runHi ≤ pos → pos < start → Delivered lv pos

/-- The scan a thread is about to make, if it makes one, does not jump. -/
def NoJumpTurn (lv : Live) : Thread → Event → Prop
  | .scan r, .rescan _ => NoJump lv r.readStart r.count
  | .seeking r _, .seekReturn _ => NoJump lv r.readStart r.count
  | .waiting r _, .readWake false _ => NoJump lv r.readStart r.count
  | _, .read off _ count _ => NoJump lv off (min count (lv.total - off))
  | _, _ => True

def GapsDelivered (p : Pool Live Thread) (i : Nat) (e : Event) : Prop :=
  AttachDiscipline p i e ∧ ∀ t, p.threads[i]? = some t → NoJumpTurn p.shared t e

/-- The fields the boundary depends on. -/
def boundary (lv : Live) : Nat × List (Nat × Nat) := (lv.runHi, lv.history.delivered)

theorem Lockstep.congr {lv lv' : Live} (h : Lockstep lv) (he : boundary lv' = boundary lv) :
    Lockstep lv' := by
  obtain ⟨h1, h2⟩ := Prod.mk.inj he
  unfold Lockstep Delivered
  rw [h1, h2]
  exact h

theorem deliver_lockstep {lv lv' : Live} {r r' : ReadCall} (h : Lockstep lv)
    (hcp : Copied lv r lv' r')
    (hjump : lv.runHi < r.readStart → r.readStart ≤ lv.runHi + SEG →
      ∀ pos, lv.runHi ≤ pos → pos < r.readStart → Delivered lv pos) :
    Lockstep (deliver lv' r') := by
  have h1 : lv'.runHi = lv.runHi := (congrArg Live.runHi hcp.frame_eq :)
  have h2 : lv'.history = lv.history := (congrArg Live.history hcp.frame_eq :)
  have hlift : ∀ pos, Delivered lv pos → Delivered (deliver lv' r') pos := by
    rintro pos ⟨d, hd, hlo, hhi⟩
    refine ⟨d, List.mem_cons_of_mem _ ?_, hlo, hhi⟩
    rw [h2]
    exact hd
  intro pos hpos
  have hhi : (deliver lv' r').runHi = advanceRunHi lv' r' := rfl
  rw [hhi] at hpos
  unfold advanceRunHi at hpos
  rw [h1, hcp.readStart, hcp.servedEnd] at hpos
  by_cases hadv : r.readStart ≤ lv.runHi + SEG ∧ lv.runHi < r.servedEnd
  · rw [if_pos hadv] at hpos
    by_cases hin : r.readStart ≤ pos
    · refine ⟨(r'.readStart, r'.servedEnd), List.mem_cons_self, ?_, ?_⟩
      · rw [hcp.readStart]
        exact hin
      · rw [hcp.servedEnd]
        exact hpos
    · by_cases hlow : pos < lv.runHi
      · exact hlift pos (h pos hlow)
      · exact hlift pos (hjump (by omega) hadv.1 pos (by omega) (by omega))
  · rw [if_neg hadv] at hpos
    exact hlift pos (h pos hpos)

theorem scanFrom_lockstep {lv : Live} {r : ReadCall} (h : lv.active = true → Session lv)
    (hi : Inside lv r) (hl : lv.active = true → Lockstep lv) (hj : NoJump lv r.readStart r.count)
    (now : Nat) : lv.active = true → Lockstep (scanFrom lv r now).1 := by
  intro ha
  have hlive : lv.aborted = false → lv.active = true := fun _ => ha
  have hc := readTurn_cases (fun hab => h (hlive hab)) (fun hab => hi.2 (hlive hab)) now
  unfold scanFrom
  generalize (readTurn lv r now).1 = lv' at hc ⊢
  generalize (readTurn lv r now).2 = turn at hc
  cases hc with
  | aborted _ => exact hl ha
  | served hab hcp hres =>
    exact deliver_lockstep (hl ha) hcp fun h1 h2 => hj ha hab h1 h2 hres
  | seek hp => exact (hl ha).congr (congrArg boundary hp.frame_eq :)
  | wait hp => exact (hl ha).congr (congrArg boundary hp.frame_eq :)

theorem NoJump.congr {lv lv' : Live} {start count : Nat} (h : NoJump lv start count)
    (he : parkFrame lv' = parkFrame lv) : NoJump lv' start count := by
  have hj : NoJump (parkFrame lv) start count := h
  rw [← he] at hj
  exact hj

theorem unpark_lockstep {lv : Live} {r : ReadCall} {need : Nat} (h : lv.active = true → Session lv)
    (hi : Inside lv r) (hl : lv.active = true → Lockstep lv) (hj : NoJump lv r.readStart r.count)
    (now : Nat) : lv.active = true → Lockstep (scanFrom (unpark lv need) r now).1 := by
  intro ha
  have hf := unpark_frame lv need
  have hact : (unpark lv need).active = lv.active := (congrArg Live.active hf :)
  have hlock : Lockstep (unpark lv need) := (hl ha).congr (congrArg boundary hf :)
  exact scanFrom_lockstep (unpark_session need h) (unpark_inside need hi) (fun _ => hlock)
    (hj.congr hf) now (hact.trans ha)

theorem wsLiveRead_lockstep {lv : Live} (h : lv.active = true → Session lv)
    (hl : lv.active = true → Lockstep lv) {off count now : Nat} {buf : Bytes}
    (hj : NoJump lv off (min count (lv.total - off))) :
    lv.active = true → Lockstep (wsLiveRead lv off buf count now).1 := by
  intro ha
  unfold wsLiveRead
  simp only
  by_cases h1 : count = 0
  · rw [if_pos h1]
    exact hl ha
  · rw [if_neg h1, if_neg (by simp [ha])]
    by_cases h3 : lv.total ≤ off
    · rw [if_pos h3]
      exact hl ha
    · rw [if_neg h3]
      have hmin : (if lv.total - off < count then lv.total - off else count) =
          min count (lv.total - off) := by split <;> omega
      exact scanFrom_lockstep h (wsLiveRead_inside h1 ha h3) hl (by rw [hmin]; exact hj) now ha

theorem noJumpTurn_read {lv : Live} {t : Thread} (ht : t.reading = false) {off count now : Nat}
    {buf : Bytes} (h : NoJumpTurn lv t (.read off buf count now)) :
    NoJump lv off (min count (lv.total - off)) := by
  cases t with
  | scan r => cases ht
  | seeking r need => cases ht
  | waiting r need => cases ht
  | _ => exact h

theorem writeStep_lockstep {lv lv' : Live} {t' : Thread} {data : Bytes} {offset len : Nat}
    (h : WriteStep lv lv' t' data offset len) (hl : Lockstep lv) : Lockstep lv' := by
  obtain ⟨lv₁, hw, hq⟩ := h.stored
  have h1 : boundary lv₁ = boundary lv := (congrArg boundary hw.frame_eq :)
  have h2 : boundary lv' = boundary lv₁ := (congrArg boundary hq.frame_eq :)
  exact hl.congr (h2.trans h1)

theorem called_lockstep {lv lv' : Live} {e : Event} {t t' : Thread} (hc : Called lv e lv' t')
    (h : lv.active = true → Session lv) (ht : t.reading = false)
    (hl : lv.active = true → Lockstep lv) (hj : NoJumpTurn lv t e) :
    lv'.active = true → Lockstep lv' := by
  intro ha'
  cases hc with
  | fresh =>
    intro pos hpos
    cases hpos
  | quiet hq _ => exact (hl (hq.active ▸ ha')).congr (congrArg boundary hq.frame_eq :)
  | destroyed ha => simp [(destroy_inactive lv ha).1] at ha'
  | wrote ha hw => exact writeStep_lockstep hw (hl ha)
  | @read off buf count now =>
    have hact : (wsLiveRead lv off buf count now).1.active = lv.active :=
      (congrArg Live.active (wsLiveRead_frame lv off buf count now) :)
    exact wsLiveRead_lockstep h hl (noJumpTurn_read ht hj) (hact ▸ ha')

theorem seekReturn_lockstep {lv : Live} {r : ReadCall} (h : lv.active = true → Session lv)
    (hi : Inside lv r) (hl : lv.active = true → Lockstep lv) (hj : NoJump lv r.readStart r.count)
    (need now : Nat) :
    lv.active = true → Lockstep (seekReturn lv r need now).1 := by
  intro ha
  unfold seekReturn
  split
  · exact (hl ha).congr (congrArg boundary (unpark_frame lv need) :)
  · split
    · exact unpark_lockstep h hi hl hj now ha
    · exact hl ha

theorem readWake_lockstep {lv : Live} {r : ReadCall} (h : lv.active = true → Session lv)
    (hi : Inside lv r) (hl : lv.active = true → Lockstep lv) (expired : Bool)
    (hj : expired = false → NoJump lv r.readStart r.count) (need now : Nat) :
    lv.active = true → Lockstep (readWake lv r need expired now).1 := by
  intro ha
  unfold readWake
  cases expired with
  | true => exact (hl ha).congr (congrArg boundary (unpark_frame lv need) :)
  | false => exact unpark_lockstep h hi hl (hj rfl) now ha

theorem turn_lockstep {lv lv' : Live} {t t' : Thread} {e : Event} (h : lv.active = true → Session lv)
    (hw : WriterAlive lv t) (hr : ReaderAlive lv t) (hl : lv.active = true → Lockstep lv)
    (hj : NoJumpTurn lv t e) (ht : turn lv t e = some (lv', t')) :
    lv'.active = true → Lockstep lv' := by
  obtain ⟨hfree, hc⟩ | ⟨w, expired, rfl, rfl, he⟩ | ⟨r, rfl, now, rfl, he⟩ |
    ⟨r, need, rfl, now, rfl, he⟩ | ⟨r, need, rfl, expired, now, rfl, he⟩ := turn_cases ht
  · exact called_lockstep (call_cases h hc) h hfree hl hj
  · intro ha'
    obtain ⟨n, hn⟩ | ⟨ha, hn⟩ := writeWake_cases (hw w rfl) expired
    · rw [hn] at he
      have hq : Quiet lv lv' := by
        cases he
        exact accept_quiet _ _ _ _ _
      exact (hl (hq.active ▸ ha')).congr (congrArg boundary hq.frame_eq :)
    · rw [hn] at he
      have hs := write_step (h ha) w w.left w.seg
      rw [← he] at hs
      exact writeStep_lockstep hs (hl ha)
  · have hst := scanFrom_lockstep h hr hl hj now
    have hact : (scanFrom lv r now).1.active = lv.active :=
      (congrArg Live.active (scanFrom_frame lv r now) :)
    rw [← he] at hst hact
    exact fun ha' => hst (hact ▸ ha')
  · have hst := seekReturn_lockstep h hr.1 hl hj need now
    have hact : (seekReturn lv r need now).1.active = lv.active :=
      (congrArg Live.active (seekReturn_frame lv r need now) :)
    rw [← he] at hst hact
    exact fun ha' => hst (hact ▸ ha')
  · have hst := readWake_lockstep h hr.1 hl expired
      (fun hex => by subst hex; exact hj) need now
    have hact : (readWake lv r need expired now).1.active = lv.active :=
      (congrArg Live.active (readWake_frame lv r need expired now) :)
    rw [← he] at hst hact
    exact fun ha' => hst (hact ▸ ha')

theorem lockstep_reach {seekFn : Bool} {n : Nat} {p : Pool Live Thread}
    (h : live.Reach GapsDelivered (start seekFn n) p) :
    p.shared.active = true → Lockstep p.shared := by
  have hinv := h.invariant
    (fun p => ReaderInv p ∧ (p.shared.active = true → Lockstep p.shared))
    ⟨start_readerInv seekFn n, nofun⟩ fun p i e q hp hg hs => by
      refine ⟨readerInv_step hp.1 hg.1 hs, ?_⟩
      obtain ⟨t, lv', t', ht, hturn, rfl⟩ := live_step hs
      have hm := List.mem_of_getElem? ht
      exact turn_lockstep hp.1.session (hp.1.writers t hm) (hp.1.readers t hm) hp.2 (hg.2 t ht) hturn
  exact hinv.2

/-- In sequential mode, with no reader parked on the incoming segment, an
allocation evicts by rule A alone. -/
theorem evicted_below_mark {lv : Live} {seg s : Nat} (hpeak : lv.peakSeg = 0)
    (hseg : seg < lv.nsegs) (hwait : lv.waiters seg = 0) (hp : lv.present s = true)
    (hev : (allocSlotLocked lv seg).1.present s = false) : (s + 1) * SEG ≤ lv.runHi := by
  have hc := alloc_cases lv hseg
  generalize (allocSlotLocked lv seg).1 = lv' at hc hev
  generalize (allocSlotLocked lv seg).2 = slot at hc
  have hclaim : ∀ (lv₁ : Live) (k : Nat), (claim lv₁ seg k).present = lv₁.present := by
    intro lv₁ k
    unfold claim
    split <;> rfl
  cases hc with
  | resident _ => simp [hp] at hev
  | free _ _ _ => simp [hclaim, hp] at hev
  | full _ _ _ => simp [hp] at hev
  | @evicted k old _ hv _ _ =>
    rw [hclaim] at hev
    have hold : s = old := by
      by_contra hne
      simp [evict, hne, hp] at hev
    subst hold
    have hrule := hv.rule
    unfold evictable at hrule
    simp only [hpeak, hwait, Nat.lt_irrefl, and_false, false_and, decide_false] at hrule
    by_contra hlt
    simp [hlt] at hrule

/-- If no read jumps over bytes the reader still needs, `run_hi` stays a true
boundary, and a write in sequential mode evicts delivered segments only. -/
theorem lockstep_of_gaps_delivered {seekFn : Bool} {m : Nat} {p : Pool Live Thread}
    (h : live.Reach GapsDelivered (start seekFn m) p) (ha : p.shared.active = true) :
    (∀ pos < p.shared.runHi, Delivered p.shared pos) ∧
      ∀ data offset len lv seg s, Wrote data offset len p.shared lv → p.shared.peakSeg = 0 →
        seg < p.shared.nsegs → (∀ t ∈ p.threads, t.parkedOn seg = false) →
        lv.present s = true → (allocSlotLocked lv seg).1.present s = false →
        ∀ pos, pos / SEG = s → Delivered p.shared pos := by
  have hl := lockstep_reach h ha
  refine ⟨hl, ?_⟩
  intro data offset len lv seg s hw hpeak hseg hpark hp hev pos hpos
  have hr := readerInv_reach (h.mono fun _ _ _ hg => hg.1)
  have hwait : p.shared.waiters seg = 0 := by
    rw [hr.waiters ha seg hseg, List.countP_eq_zero]
    intro t ht
    rw [hpark t ht]
    exact Bool.false_ne_true
  have h1 : lv.peakSeg = p.shared.peakSeg := (congrArg Live.peakSeg hw.frame_eq :)
  have h2 : lv.nsegs = p.shared.nsegs := (congrArg Live.nsegs hw.frame_eq :)
  have h3 : lv.waiters = p.shared.waiters := (congrArg Live.waiters hw.frame_eq :)
  have h4 : lv.runHi = p.shared.runHi := (congrArg Live.runHi hw.frame_eq :)
  have hmark := evicted_below_mark (h1.trans hpeak) (by rw [h2]; exact hseg)
    (by rw [h3]; exact hwait) hp hev
  apply hl pos
  have hb := seg_bounds pos
  rw [hpos] at hb
  omega

/-- The event makes no scan, or a read starts one at or below the mark. -/
def startsBelow (lv : Live) : Event → Bool
  | .read off _ _ _ => off ≤ lv.runHi
  | .rescan _ => false
  | .seekReturn _ => false
  | .readWake _ _ => false
  | _ => true

theorem gaps_of_startsBelow {p : Pool Live Thread} {i : Nat} {e : Event}
    (h : AttachDiscipline p i e ∧ startsBelow p.shared e = true) : GapsDelivered p i e := by
  refine ⟨h.1, fun t _ => ?_⟩
  cases e with
  | read off buf count now =>
    have hoff : off ≤ p.shared.runHi := by simpa [startsBelow] using h.2
    have hj : NoJump p.shared off (min count (p.shared.total - off)) :=
      fun _ _ hlt => absurd hoff (Nat.not_le_of_gt hlt)
    cases t <;> exact hj
  | rescan now => cases h.2
  | seekReturn now => cases h.2
  | readWake expired now => cases h.2
  | _ => cases t <;> trivial

theorem lockstep_of_gaps_delivered_sequential :
    ∃ p, live.Reach GapsDelivered (start false 1) p ∧ p.shared.runHi = 16 ∧
      Delivered p.shared 15 := by
  have hv : ((live.exec (fun p i e => AttachDiscipline p i e ∧ startsBelow p.shared e = true)
      [(0, .create sixSegments), (0, .tryWrite 0 (fun _ => 7) (4 * SEG)), (0, .attach),
        (0, .read 0 (fun _ => 0) 8 0), (0, .read 8 (fun _ => 0) 8 0)] (start false 1)).map fun p =>
        (p.shared.active, p.shared.runHi)) = some (true, 16) := by
    decide
  obtain ⟨p, hp, hv⟩ := Option.map_eq_some_iff.mp hv
  simp only [Prod.mk.injEq] at hv
  have hr : live.Reach GapsDelivered (start false 1) p :=
    (Machine.Reach.of_exec hp).mono fun _ _ _ => gaps_of_startsBelow
  exact ⟨p, hr, hv.2, (lockstep_of_gaps_delivered hr hv.1).1 15 (by omega)⟩

/-- Two reads of one byte, each a segment and a byte further on, carry `run_hi`
past segment 1, which is then evicted with its rest undelivered. -/
theorem lockstep_fails : ¬ ∀ (seekFn : Bool) (m : Nat) (p : Pool Live Thread),
    live.Reach AttachDiscipline (start seekFn m) p → p.shared.active = true →
      (∀ pos < p.shared.runHi, Delivered p.shared pos) ∧
        ∀ data offset len lv seg s, Wrote data offset len p.shared lv → p.shared.peakSeg = 0 →
          seg < p.shared.nsegs → (∀ t ∈ p.threads, t.parkedOn seg = false) →
          lv.present s = true → (allocSlotLocked lv seg).1.present s = false →
          ∀ pos, pos / SEG = s → Delivered p.shared pos := by
  intro h
  have hv : ((live.exec AttachDiscipline [(0, .create sixSegments),
      (0, .tryWrite 0 (fun _ => 7) (4 * SEG)), (0, .attach), (0, .read SEG (fun _ => 0) 1 0),
      (0, .read (2 * SEG + 1) (fun _ => 0) 1 0)] (start false 1)).map fun p =>
        ((p.shared.active, p.shared.peakSeg, p.shared.nsegs), p.threads.any (Thread.parkedOn 4),
          p.shared.present 1, (allocSlotLocked p.shared 4).1.present 1,
          p.shared.history.delivered.any fun d => d.1 ≤ SEG + 1 ∧ SEG + 1 < d.2)) =
      some ((true, 0, 6), false, true, false, false) := by
    decide
  obtain ⟨p, hp, hv⟩ := Option.map_eq_some_iff.mp hv
  simp only [Prod.mk.injEq, List.any_eq_false, Bool.not_eq_true, decide_eq_false_iff_not] at hv
  obtain ⟨⟨ha, hpeak, hn⟩, hpark, hpres, hev, hdel⟩ := hv
  obtain ⟨_, hevict⟩ := h false 1 p (.of_exec hp) ha
  obtain ⟨d, hd, hlo, hhi⟩ := hevict (fun _ => 0) 0 0 p.shared 4 1 .refl hpeak (by omega) hpark
    hpres hev (SEG + 1) (by decide)
  exact hdel d hd ⟨hlo, hhi⟩

end PkgManager.LiveLockstep
