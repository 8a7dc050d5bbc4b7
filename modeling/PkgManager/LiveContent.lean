import PkgManager.LiveReaders

namespace PkgManager.LiveContent

open Interleaving Memory LiveSession LiveCalls LiveSlots LiveReads LiveThreads LiveSound LiveReaders

/-- Byte `o` of segment `seg` as the newest of the stores left it. -/
def storedByte (stores : List Stored) (seg o : Nat) : Option UInt8 :=
  (stores.find? fun st => st.seg = seg).map fun st => st.data o

/-- The byte last stored for a file position of the session. -/
def storedAt (lv : Live) (pos : Nat) : Option UInt8 :=
  storedByte lv.history.stores (pos / SEG) (pos % SEG)

/-- Every segment stored in the session carries the bytes of `F`. -/
def Carries (F : Bytes) (lv : Live) : Prop :=
  ∀ st ∈ lv.history.stores, ∀ o, st.seg * SEG + o < lv.total → st.data o = F (st.seg * SEG + o)

/-- A resident segment holds what was last stored for it. -/
def Content (lv : Live) : Prop :=
  ∀ s < lv.nsegs, lv.present s = true → ∀ o < segLenLocked lv s,
    storedByte lv.history.stores s o = some (lv.slots (lv.slotOf s).toNat o)

theorem storedByte_cons_self (seg o : Nat) (data : Bytes) (stores : List Stored) :
    storedByte (⟨seg, data⟩ :: stores) seg o = some (data o) := by
  simp [storedByte]

theorem storedByte_cons_ne {seg s : Nat} (h : seg ≠ s) (o : Nat) (data : Bytes)
    (stores : List Stored) :
    storedByte (⟨seg, data⟩ :: stores) s o = storedByte stores s o := by
  simp [storedByte, h]

/-- The fields the content of the cache depends on. -/
def contentOf (lv : Live) : Live :=
  { Live.init false with
    total := lv.total
    nsegs := lv.nsegs
    present := lv.present
    slotOf := lv.slotOf
    slots := lv.slots
    history := ⟨lv.history.stores, [], []⟩ }

theorem Content.congr {lv lv' : Live} (h : Content lv) (he : contentOf lv' = contentOf lv) :
    Content lv' := by
  have hc : Content (contentOf lv) := h
  rw [← he] at hc
  exact hc

theorem store_content {lv lv' : Live} {seg k : Nat} {data : Bytes} {offset len : Nat}
    (hs : Session lv) (hc : Content lv) (h : Store lv lv' seg k data offset len) :
    Content lv' := by
  intro s hlt hp o ho
  rw [h.nsegs] at hlt
  have hlen : segLenLocked lv' s = segLenLocked lv s := by
    unfold segLenLocked
    rw [h.total]
  rw [hlen] at ho
  rw [h.stores]
  by_cases he : s = seg
  · subst he
    rw [storedByte_cons_self, h.slotOf_seg, Int.toNat_natCast, h.bytes,
      blit_inside (Nat.zero_le o) (by omega), Nat.sub_zero]
  · rw [storedByte_cons_ne (Ne.symm he)]
    obtain ⟨hp', ho', hne⟩ | ⟨_, _, _, hp', _⟩ := h.others s hlt he
    · rw [hp'] at hp
      have h0 := (hs.present_iff s hlt).mp hp
      rw [hc s hlt hp o ho, ho', (h.otherSlots (lv.slotOf s).toNat (by omega)).2]
    · rw [hp'] at hp
      cases hp

theorem change_content {lv lv' : Live} {e : Event} (h : Change lv e lv')
    (hs : lv.active = true → Session lv) (hc : lv.active = true → Content lv) :
    lv'.active = true → Content lv' := by
  intro ha'
  cases h with
  | fresh =>
    intro s _ hp
    cases hp
  | quiet hq _ => exact (hc (hq.active ▸ ha')).congr (congrArg contentOf hq.frame_eq :)
  | destroyed ha => simp [(destroy_inactive lv ha).1] at ha'
  | wrote ha hw hq _ =>
    have hstored := (hw.preserves (hs ha) (hc ha) fun _ _ _ _ => store_content).2
    exact hstored.congr (congrArg contentOf hq.frame_eq :)
  | read hf =>
    exact (hc ((congrArg Live.active hf :) ▸ ha')).congr (congrArg contentOf hf :)

theorem content_reach {G : Pool Live Thread → Nat → Event → Prop} {seekFn : Bool} {n : Nat}
    {p : Pool Live Thread} (h : live.Reach G (start seekFn n) p) :
    p.shared.active = true → Content p.shared := by
  have hinv := h.invariant (fun p => SessionInv p ∧ (p.shared.active = true → Content p.shared))
    ⟨start_sessionInv seekFn n, nofun⟩ fun p i e q hp _ hs => by
      obtain ⟨hq, hch⟩ := sessionInv_step hp.1 hs
      exact ⟨hq, change_content hch hp.1.session hp.2⟩
  exact hinv.2

/-! Answers. -/

/-- The buffer of an answered read is what the cache holds for its range. -/
structure Served (lv : Live) (r : ReadCall) (n : Int) : Prop where
  active : lv.active = true
  count : n = r.count
  clamped : r.count = min r.asked (lv.total - r.readStart)
  resident : Resident lv r.readStart (r.readStart + r.count)
  bytes : ∀ k < r.count, r.dst k = cell lv (r.readStart + k)

/-- What `ws_live_read` may answer. -/
def Answer (lv : Live) (r : ReadCall) (n : Int) : Prop :=
  n = -1 ∨ (n = 0 ∧ (r.asked = 0 ∨ lv.total ≤ r.readStart)) ∨ Served lv r n

theorem scanFrom_answer {lv : Live} {r r' : ReadCall} {n : Int} (h : lv.active = true → Session lv)
    (hi : Inside lv r) (now : Nat) (ht : (scanFrom lv r now).2 = .returned r' n) :
    Answer (scanFrom lv r now).1 r' n := by
  have hlive : lv.aborted = false → lv.active = true := fun ha => by simpa [ha] using hi.1
  have hc := readTurn_cases (fun ha => h (hlive ha)) (fun ha => hi.2 (hlive ha)) now
  unfold scanFrom at ht ⊢
  generalize (readTurn lv r now).1 = lv' at hc ⊢
  generalize hst : (readTurn lv r now).2 = turn at hc ht
  cases hc with
  | aborted _ =>
    cases ht
    exact .inl rfl
  | @served lv₁ r₁ hab hcp hres =>
    cases ht
    have ha := hlive hab
    have hr := hi.2 ha
    have h1 : lv₁.active = lv.active := (congrArg Live.active hcp.frame_eq :)
    have h2 : lv₁.total = lv.total := (congrArg Live.total hcp.frame_eq :)
    have h3 : lv₁.present = lv.present := (congrArg Live.present hcp.frame_eq :)
    refine .inr (.inr ⟨h1.trans ha, by rw [hcp.count], ?_, ?_, fun k hk => ?_⟩)
    · rw [hcp.count, hcp.asked, hcp.readStart, hr.count_eq]
      exact congrArg (fun total => min r.asked (total - r.readStart)) h2.symm
    · rw [hcp.readStart, hcp.count]
      intro pos hlo hhi
      have hp := hres pos hlo hhi
      rw [← h3] at hp
      exact hp
    · rw [hcp.count] at hk
      rw [hcp.bytes k hk, hcp.readStart, ← cell_frame hcp.frame_eq]
      rfl
  | seek hp => cases ht
  | wait hp => cases ht

theorem wsLiveRead_answer {lv : Live} {r : ReadCall} {n : Int} (h : lv.active = true → Session lv)
    {off count now : Nat} {buf : Bytes} (ht : (wsLiveRead lv off buf count now).2 = .returned r n) :
    Answer (wsLiveRead lv off buf count now).1 r n := by
  unfold wsLiveRead at ht ⊢
  simp only at ht ⊢
  by_cases h1 : count = 0
  · rw [if_pos h1] at ht ⊢
    cases ht
    exact .inr (.inl ⟨rfl, .inl h1⟩)
  · rw [if_neg h1] at ht ⊢
    by_cases h2 : lv.active = true
    · rw [if_neg (by simp [h2])] at ht ⊢
      by_cases h3 : lv.total ≤ off
      · rw [if_pos h3] at ht ⊢
        cases ht
        exact .inr (.inl ⟨rfl, .inr h3⟩)
      · rw [if_neg h3] at ht ⊢
        exact scanFrom_answer h (wsLiveRead_inside h1 h2 h3) now ht
    · rw [if_pos (by simp [h2])] at ht ⊢
      cases ht
      exact .inl rfl

theorem seekReturn_answer {lv : Live} {r r' : ReadCall} {n : Int} {need : Nat}
    (h : lv.active = true → Session lv) (hi : Inside lv r) (now : Nat)
    (ht : (seekReturn lv r need now).2 = .returned r' n) :
    Answer (seekReturn lv r need now).1 r' n := by
  unfold seekReturn at ht ⊢
  by_cases h1 : (!lv.active) = true ∨ lv.aborted = true
  · rw [if_pos h1] at ht ⊢
    cases ht
    exact .inl rfl
  · rw [if_neg h1] at ht ⊢
    by_cases h2 : need < lv.nsegs ∧ lv.present need = true
    · rw [if_pos h2] at ht ⊢
      exact scanFrom_answer (unpark_session need h) (unpark_inside need hi) now ht
    · rw [if_neg h2] at ht
      cases ht

theorem readWake_answer {lv : Live} {r r' : ReadCall} {n : Int} {need : Nat}
    (h : lv.active = true → Session lv) (hi : Inside lv r) (expired : Bool) (now : Nat)
    (ht : (readWake lv r need expired now).2 = .returned r' n) :
    Answer (readWake lv r need expired now).1 r' n := by
  unfold readWake at ht ⊢
  cases expired with
  | true =>
    cases ht
    exact .inl rfl
  | false => exact scanFrom_answer (unpark_session need h) (unpark_inside need hi) now ht

theorem called_answer {lv lv' : Live} {e : Event} {r : ReadCall} {n : Int}
    (h : lv.active = true → Session lv) (hc : Called lv e lv' (.returned r n)) :
    Answer lv' r n := by
  generalize ht : Thread.returned r n = t' at hc
  cases hc with
  | wrote _ hw => obtain ⟨m, rfl⟩ | ⟨w, rfl⟩ := hw.thread <;> cases ht
  | read => exact wsLiveRead_answer h ht.symm
  | _ => cases ht

/-- Whatever a read waited for, its answer is about the session of its last step. -/
theorem turn_answer {lv lv' : Live} {t : Thread} {e : Event} {r : ReadCall} {n : Int}
    (h : lv.active = true → Session lv) (hr : ReaderAlive lv t)
    (ht : turn lv t e = some (lv', .returned r n)) : Answer lv' r n := by
  obtain ⟨hfree, hc⟩ | ⟨w, expired, rfl, rfl, he⟩ | ⟨r', rfl, now, rfl, he⟩ |
    ⟨r', need, rfl, now, rfl, he⟩ | ⟨r', need, rfl, expired, now, rfl, he⟩ := turn_cases ht
  · exact called_answer h (call_cases h hc)
  · cases hw : (writeWake lv w expired).2 <;> simp [hw, afterWrite] at he
  · have hs := scanFrom_answer h hr now (congrArg Prod.snd he).symm
    rwa [← he] at hs
  · have hs := seekReturn_answer h hr.1 now (congrArg Prod.snd he).symm
    rwa [← he] at hs
  · have hs := readWake_answer h hr.1 expired now (congrArg Prod.snd he).symm
    rwa [← he] at hs

theorem Served.stored {lv : Live} {r : ReadCall} {n : Int} (h : Served lv r n) (hs : Session lv)
    (hc : Content lv) {k : Nat} (hk : k < r.count) :
    storedAt lv (r.readStart + k) = some (r.dst k) := by
  have hcl := h.clamped
  have hlt := seg_lt hs (r.readStart + k) (by omega)
  have hp := h.resident (r.readStart + k) (by omega) (by omega)
  have hlen : (r.readStart + k) % SEG < segLenLocked lv ((r.readStart + k) / SEG) := by
    simp only [segLenLocked]
    unfold SEG
    split_ifs <;> omega
  rw [h.bytes k hk]
  exact hc _ hlt hp _ hlen

theorem Carries.stored {F : Bytes} {lv : Live} (h : Carries F lv) {pos : Nat} {b : UInt8}
    (hpos : pos < lv.total) (hb : storedAt lv pos = some b) : b = F pos := by
  unfold storedAt storedByte at hb
  obtain ⟨st, hst, rfl⟩ := Option.map_eq_some_iff.mp hb
  have hm := List.mem_of_find?_eq_some hst
  have hseg : st.seg = pos / SEG := by simpa using List.find?_some hst
  have hpos' : st.seg * SEG + pos % SEG = pos := by
    rw [hseg]
    unfold SEG
    omega
  have hF := h st hm (pos % SEG) (by omega)
  rwa [hpos'] at hF

/-- What a read call that has ended was, and what it returned. -/
def returnOf : Thread → Option (ReadCall × Int)
  | .returned r n => some (r, n)
  | _ => none

theorem eq_of_returnOf {t : Thread} {r : ReadCall} {n : Int} (h : returnOf t = some (r, n)) :
    t = .returned r n := by
  cases t with
  | returned r' n' =>
    cases h
    rfl
  | _ => cases h

end PkgManager.LiveContent
