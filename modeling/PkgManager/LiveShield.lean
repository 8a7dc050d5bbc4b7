import PkgManager.LiveReaders

namespace PkgManager.LiveShield

open Interleaving Memory LiveSession LiveCalls LiveSlots LiveReads LiveThreads LiveSound LiveReaders

/-- An allocation leaves the pinned header and every waited-for segment where they are. -/
theorem alloc_shields {lv : Live} (h : SlotTable lv) {seg s : Nat} (hs : s < lv.nsegs)
    (hp : lv.present s = true) (hsh : s = 0 ∨ 0 < lv.waiters s) :
    (allocSlotLocked lv seg).1.present s = true ∧
      (allocSlotLocked lv seg).1.slotOf s = lv.slotOf s := by
  have h0 := (h.present_iff s hs).mp hp
  have hclaim : ∀ (lv₁ : Live) (k : Nat), lv₁.present s = true → lv₁.slotOf s = lv.slotOf s →
      (seg < lv₁.nsegs → s ≠ seg) →
      (claim lv₁ seg k).present s = true ∧ (claim lv₁ seg k).slotOf s = lv.slotOf s := by
    intro lv₁ k h1 h2 h3
    unfold claim
    split
    · rename_i hlt
      exact ⟨h1, by simp only [Function.update_of_ne (h3 hlt)]; exact h2⟩
    · exact ⟨h1, h2⟩
  unfold allocSlotLocked
  by_cases hres : seg < lv.nsegs ∧ 0 ≤ lv.slotOf seg
  · rw [if_pos hres]
    exact ⟨hp, rfl⟩
  · rw [if_neg hres]
    have hne : seg < lv.nsegs → s ≠ seg := by
      rintro hlt rfl
      exact hres ⟨hlt, h0⟩
    cases freeSlot lv with
    | some i => exact hclaim lv i hp rfl hne
    | none =>
      cases ho : oldestSeg lv seg with
      | none => exact ⟨hp, rfl⟩
      | some old =>
        have hv := oldestSeg_victim ho
        have hold : s ≠ old := by
          rintro rfl
          have h1 := hv.pos
          have h2 := hv.unshielded
          omega
        exact hclaim (evict lv old) _ (by simp [evict, hold, hp]) (by simp [evict, hold]) hne

theorem store_keeps_header {lv lv' : Live} {seg k : Nat} {data : Bytes} {offset len : Nat}
    (_ : Session lv) (hp : lv.present 0 = true) (h : Store lv lv' seg k data offset len) :
    lv'.present 0 = true := by
  by_cases h0 : seg = 0
  · exact h0 ▸ h.present_seg
  · have hlt := h.seg_lt
    obtain ⟨hp', _⟩ | ⟨_, hv, _⟩ := h.others 0 (by omega) (Ne.symm h0)
    · exact hp'.trans hp
    · have hpos := hv.pos
      omega

/-- Once segment 0 was stored in the session it stays resident. -/
def HeaderKept (lv : Live) : Prop :=
  (∃ st ∈ lv.history.stores, st.seg = 0) → lv.present 0 = true

theorem store_headerKept {lv lv' : Live} {seg k : Nat} {data : Bytes} {offset len : Nat}
    (hs : Session lv) (hk : HeaderKept lv) (h : Store lv lv' seg k data offset len) :
    HeaderKept lv' := by
  rintro ⟨st, hst, h0⟩
  rw [h.stores] at hst
  cases hst with
  | head => exact h0 ▸ h.present_seg
  | tail _ hst => exact store_keeps_header hs (hk ⟨st, hst, h0⟩) h

theorem change_headerKept {lv lv' : Live} {e : Event} (h : Change lv e lv')
    (hs : lv.active = true → Session lv) (hk : lv.active = true → HeaderKept lv) :
    lv'.active = true → HeaderKept lv' := by
  intro ha'
  cases h with
  | fresh =>
    rintro ⟨st, hst, _⟩
    cases hst
  | quiet hq _ =>
    have hold := hk (hq.active ▸ ha')
    have h1 : lv'.history.stores = lv.history.stores := (congrArg (·.history.stores) hq.frame_eq :)
    have h2 : lv'.present = lv.present := (congrArg Live.present hq.frame_eq :)
    unfold HeaderKept
    rwa [h1, h2]
  | destroyed ha => simp [(destroy_inactive lv ha).1] at ha'
  | @wrote _ lv₁ _ _ _ _ ha hw hq _ =>
    have hold := (hw.preserves (hs ha) (hk ha) fun _ _ _ _ => store_headerKept).2
    have h1 : lv'.history.stores = lv₁.history.stores := (congrArg (·.history.stores) hq.frame_eq :)
    have h2 : lv'.present = lv₁.present := (congrArg Live.present hq.frame_eq :)
    unfold HeaderKept
    rwa [h1, h2]
  | read hf =>
    have hold := hk ((congrArg Live.active hf :) ▸ ha')
    have h1 : lv'.history.stores = lv.history.stores := (congrArg (·.history.stores) hf :)
    have h2 : lv'.present = lv.present := (congrArg Live.present hf :)
    unfold HeaderKept
    rwa [h1, h2]

theorem headerKept_reach {G : Pool Live Thread → Nat → Event → Prop} {seekFn : Bool} {n : Nat}
    {p : Pool Live Thread} (h : live.Reach G (start seekFn n) p) :
    p.shared.active = true → HeaderKept p.shared := by
  have hinv := h.invariant
    (fun p => SessionInv p ∧ (p.shared.active = true → HeaderKept p.shared))
    ⟨start_sessionInv seekFn n, nofun⟩ fun p i e q hp _ hs => by
      obtain ⟨hq, hch⟩ := sessionInv_step hp.1 hs
      exact ⟨hq, change_headerKept hch hp.1.session hp.2⟩
  exact hinv.2

/-- The session is not torn down. -/
def Undestroyed (p : Pool Live Thread) (i : Nat) (e : Event) : Prop :=
  AttachDiscipline p i e ∧ e ≠ .destroy

/-- An active session with a resident header. -/
def HeaderReady (lv : Live) : Prop := lv.active = true ∧ lv.present 0 = true

theorem change_headerReady {lv lv' : Live} {e : Event} (h : Change lv e lv') (he : e ≠ .destroy)
    (hs : lv.active = true → Session lv) (hr : HeaderReady lv) : HeaderReady lv' := by
  obtain ⟨ha, hp⟩ := hr
  cases h with
  | fresh hna => simp [ha] at hna
  | quiet hq _ =>
    have h2 : lv'.present = lv.present := (congrArg Live.present hq.frame_eq :)
    exact ⟨hq.active.trans ha, by rw [h2]; exact hp⟩
  | destroyed _ => exact absurd rfl he
  | @wrote _ lv₁ _ _ _ _ _ hw hq _ =>
    have hold := (hw.preserves (hs ha) hp fun _ _ _ _ => store_keeps_header).2
    have h1 : lv₁.active = lv.active := (congrArg Live.active hw.frame_eq :)
    have h2 : lv'.present = lv₁.present := (congrArg Live.present hq.frame_eq :)
    exact ⟨hq.active.trans (h1.trans ha), by rw [h2]; exact hold⟩
  | read hf =>
    have h1 : lv'.active = lv.active := (congrArg Live.active hf :)
    have h2 : lv'.present = lv.present := (congrArg Live.present hf :)
    exact ⟨h1.trans ha, by rw [h2]; exact hp⟩

theorem headerReady_reach {p q : Pool Live Thread} (h : live.Reach Undestroyed p q)
    (hp : SessionInv p) (hr : HeaderReady p.shared) : SessionInv q ∧ HeaderReady q.shared := by
  refine h.invariant (fun q => SessionInv q ∧ HeaderReady q.shared) ⟨hp, hr⟩ ?_
  intro p i e q hp hg hs
  obtain ⟨hq, hch⟩ := sessionInv_step hp.1 hs
  exact ⟨hq, change_headerReady hch hg.2 hp.1.session hp.2⟩

theorem header_served {lv : Live} (hs : Session lv) (hr : HeaderReady lv) (out : Bytes) {len : Nat}
    (hlen : 0 < len) : 0 < (wsLiveGetHeader lv out len).1 ∧
      (wsLiveGetHeader lv out len).1 = min len (segLenLocked lv 0) := by
  have hn : 0 < lv.nsegs := by
    have h1 := hs.total_pos
    have h2 := hs.covers
    unfold SEG at h2
    omega
  have hfull : 0 < segLenLocked lv 0 := by
    have h1 := hs.total_pos
    simp only [segLenLocked, Nat.zero_mul, Nat.sub_zero]
    unfold SEG
    split_ifs <;> omega
  unfold wsLiveGetHeader
  rw [if_neg (by omega), if_pos ⟨hr.1, hn, hr.2⟩]
  constructor
  · simp only
    split <;> omega
  · simp only
    split <;> omega

/-- The waiter counters are exact, what they shield is never evicted, and so a
stored header stays readable for the rest of the session. -/
theorem eviction_shield {seekFn : Bool} {m : Nat} {p : Pool Live Thread}
    (h : live.Reach AttachDiscipline (start seekFn m) p) (ha : p.shared.active = true) :
    (∀ s < p.shared.nsegs, p.shared.waiters s = p.threads.countP (Thread.parkedOn s)) ∧
      (∀ seg, ∀ s < p.shared.nsegs, p.shared.present s = true → s = 0 ∨ 0 < p.shared.waiters s →
        (allocSlotLocked p.shared seg).1.present s = true ∧
          (allocSlotLocked p.shared seg).1.slotOf s = p.shared.slotOf s) ∧
      ((∃ st ∈ p.shared.history.stores, st.seg = 0) → ∀ q, live.Reach Undestroyed p q →
        ∀ out len, 0 < len → 0 < (wsLiveGetHeader q.shared out len).1 ∧
          (wsLiveGetHeader q.shared out len).1 = min len (segLenLocked q.shared 0)) := by
  have hp := readerInv_reach h
  have hs := hp.session ha
  refine ⟨hp.waiters ha, fun seg s hlt hpr hsh => alloc_shields hs.toSlotTable hlt hpr hsh, ?_⟩
  intro h0 q hq out len hlen
  obtain ⟨hsess, hr⟩ := headerReady_reach hq hp.toSessionInv ⟨ha, headerKept_reach h ha h0⟩
  exact header_served (hsess.session hr.1) hr out hlen

theorem eviction_shield_parked :
    ∃ p, live.Reach AttachDiscipline (start true 2) p ∧ p.shared.waiters 5 = 1 ∧
      p.threads.countP (Thread.parkedOn 5) = 1 ∧
      0 < (wsLiveGetHeader p.shared (fun _ => 0) 16).1 := by
  have hv : ((live.exec AttachDiscipline [(0, .create sixSegments),
      (0, .tryWrite 0 (fun _ => 7) (4 * SEG)), (1, .attach),
      (1, .read (5 * SEG) (fun _ => 0) 16 3000)] (start true 2)).map fun p =>
        (p.shared.active, p.shared.nsegs, p.shared.waiters 5,
          p.shared.history.stores.any (·.seg = 0))) = some (true, 6, 1, true) := by
    decide
  obtain ⟨p, hp, hv⟩ := Option.map_eq_some_iff.mp hv
  simp only [Prod.mk.injEq] at hv
  obtain ⟨ha, hn, hw, h0⟩ := hv
  have hr : live.Reach AttachDiscipline (start true 2) p := .of_exec hp
  obtain ⟨hcount, _, hhead⟩ := eviction_shield hr ha
  have hst : ∃ st ∈ p.shared.history.stores, st.seg = 0 := by simpa using h0
  exact ⟨p, hr, hw, (hcount 5 (by omega)).symm.trans hw, (hhead hst p .refl _ 16 (by decide)).1⟩

end PkgManager.LiveShield
