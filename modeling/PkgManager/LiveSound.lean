import PkgManager.LiveThreads

namespace PkgManager.LiveSound

open Interleaving Memory LiveSession LiveCalls LiveSlots LiveReads LiveThreads

/-- The state without what the calls that move no data may change. -/
def quietFrame (lv : Live) : Live :=
  { lv with
    uploadComplete := false
    aborted := false
    refs := 0
    freePending := false
    allocated := false
    seekFn := false
    history := { lv.history with accepted := [] } }

/-- The state changed outside the cache, and an abort was not undone. -/
structure Quiet (lv lv' : Live) : Prop where
  frame_eq : quietFrame lv' = quietFrame lv
  aborted : lv.aborted = true → lv'.aborted = true

theorem Quiet.refl (lv : Live) : Quiet lv lv := ⟨rfl, id⟩

theorem Quiet.active {lv lv' : Live} (h : Quiet lv lv') : lv'.active = lv.active :=
  (congrArg Live.active h.frame_eq :)

theorem accept_quiet (lv : Live) (offset : Nat) (data : Bytes) (len : Nat) (r : Int) :
    Quiet lv (accept lv offset data len r) := by
  unfold accept
  split
  · exact ⟨rfl, id⟩
  · exact .refl lv

theorem accept_refs (lv : Live) (offset : Nat) (data : Bytes) (len : Nat) (r : Int) :
    (accept lv offset data len r).refs = lv.refs := by
  unfold accept
  split <;> rfl

theorem writeRefused_none {lv : Live} {offset len : Nat} (h : writeRefused lv offset len = none) :
    lv.active = true ∧ lv.aborted = false := by
  unfold writeRefused at h
  split at h
  · cases h
  · rename_i hn
    simpa using hn

/-- A write call, or the part of one after a wait, seen from outside. -/
structure WriteStep (lv lv' : Live) (t' : Thread) (data : Bytes) (offset len : Nat) : Prop where
  stored : ∃ lv₁, Wrote data offset len lv lv₁ ∧ Quiet lv₁ lv'
  refs : lv'.refs = lv.refs
  thread : (∃ n, t' = .done n) ∨ ∃ w, t' = .writing w

theorem WriteStep.not_reading {lv lv' : Live} {t' : Thread} {data : Bytes} {offset len : Nat}
    (h : WriteStep lv lv' t' data offset len) : t'.reading = false := by
  obtain ⟨n, rfl⟩ | ⟨w, rfl⟩ := h.thread <;> rfl

/-- What a call does to the session in its first critical section. -/
inductive Called (lv : Live) : Event → Live → Thread → Prop
  | fresh {c : CreateCall} (ha : lv.active = false) (hr : lv.refs = 0) (hpos : 0 < c.totalSize)
      (hle : c.totalSize ≤ maxTotal) : Called lv (.create c) (freshSession lv c) (.done 0)
  | quiet {e : Event} {lv' : Live} {n : Int} (h : Quiet lv lv')
      (hr : lv.refs ≤ lv'.refs ∨ e = .detach ∧ lv'.refs = lv.refs - 1) :
      Called lv e lv' (.done n)
  | destroyed (ha : lv.active = true) : Called lv .destroy (wsLiveDestroy lv) (.done 0)
  | wrote {e : Event} {lv' : Live} {t' : Thread} {data : Bytes} {offset len : Nat}
      (ha : lv.active = true) (h : WriteStep lv lv' t' data offset len) : Called lv e lv' t'
  | read {off : Nat} {buf : Bytes} {count now : Nat} :
      Called lv (.read off buf count now) (wsLiveRead lv off buf count now).1
        (wsLiveRead lv off buf count now).2

/-- A creation is refused, finds its session already there, or builds one. -/
theorem create_cases (lv : Live) (c : CreateCall) :
    (∃ n, wsDirectInitSession lv c = (lv, n)) ∨
      (lv.active = false ∧ lv.refs = 0 ∧ 0 < c.totalSize ∧ c.totalSize ≤ maxTotal ∧
        wsDirectInitSession lv c = (freshSession lv c, 0)) := by
  unfold wsDirectInitSession
  split
  · exact .inl ⟨_, rfl⟩
  · rename_i h1
    simp only [not_or, Nat.not_lt] at h1
    unfold wsLiveCreate
    generalize baseName c.filename = base
    by_cases h2 : c.filename = [] ∨ c.totalSize = 0
    · exact .inl ⟨-1, by simp [h2]⟩
    · by_cases h3 : base = [] ∨ base = [46] ∨ base = [46, 46]
      · exact .inl ⟨-1, by simp [h2, h3]⟩
      · by_cases h4 : lv.active = true
        · by_cases h5 : (!lv.aborted) = true ∧ lv.filename = base ∧ lv.total = c.totalSize
          · exact .inl ⟨0, by simp only [if_neg h2, if_neg h3, if_pos h4, if_pos h5]⟩
          · exact .inl ⟨-2, by simp only [if_neg h2, if_neg h3, if_pos h4, if_neg h5]⟩
        · simp only [if_neg h2, if_neg h3, if_neg h4]
          split
          · exact .inl ⟨_, rfl⟩
          · split
            · exact .inl ⟨_, rfl⟩
            · exact .inr ⟨by simpa using h4, by omega, by omega, h1.2.2, rfl⟩

theorem create_called (lv : Live) (c : CreateCall) :
    Called lv (.create c) (wsDirectInitSession lv c).1 (.done (wsDirectInitSession lv c).2) := by
  obtain ⟨n, h⟩ | ⟨ha, hr, hpos, hle, h⟩ := create_cases lv c
  · rw [h]
    exact .quiet (.refl lv) (.inl (Nat.le_refl _))
  · rw [h]
    exact .fresh ha hr hpos hle

theorem afterWrite_step {lv lv₁ : Live} {offset len : Nat} {data : Bytes} {wt : WriteTurn}
    (h : Wrote data offset len lv lv₁) :
    WriteStep lv (afterWrite offset data len lv₁ wt).1 (afterWrite offset data len lv₁ wt).2
      data offset len := by
  have hrefs : lv₁.refs = lv.refs := (congrArg Live.refs h.frame_eq :)
  cases wt with
  | done r =>
    exact ⟨⟨lv₁, h, accept_quiet _ _ _ _ _⟩, (accept_refs _ _ _ _ _).trans hrefs, .inl ⟨r, rfl⟩⟩
  | wait w => exact ⟨⟨lv₁, h, .refl _⟩, hrefs, .inr ⟨w, rfl⟩⟩

theorem write_step {lv : Live} (hs : Session lv) (w : WriteCall) (n s : Nat) :
    WriteStep lv (afterWrite w.offset w.data w.len (writeLoop w n s lv).1 (writeLoop w n s lv).2).1
      (afterWrite w.offset w.data w.len (writeLoop w n s lv).1 (writeLoop w n s lv).2).2
      w.data w.offset w.len :=
  afterWrite_step (writeLoop_wrote hs w n s)

theorem tryWrite_called {lv : Live} (h : lv.active = true → Session lv) (e : Event) (offset : Nat)
    (data : Bytes) (len : Nat) :
    Called lv e (afterWrite offset data len (wsLiveTryWrite lv offset data len).1
        (.done (wsLiveTryWrite lv offset data len).2)).1
      (afterWrite offset data len (wsLiveTryWrite lv offset data len).1
        (.done (wsLiveTryWrite lv offset data len).2)).2 := by
  unfold wsLiveTryWrite
  cases hr : writeRefused lv offset len with
  | some r =>
    exact .quiet (accept_quiet lv offset data len r) (.inl (Nat.le_of_eq (accept_refs _ _ _ _ _).symm))
  | none =>
    obtain ⟨ha, _⟩ := writeRefused_none hr
    have hw := tryWriteLoop_wrote (h ha) data offset len
      (lastSeg offset len + 1 - firstSeg offset) (firstSeg offset)
    exact .wrote ha (afterWrite_step hw)

theorem write_called {lv : Live} (h : lv.active = true → Session lv) (e : Event) (offset : Nat)
    (data : Bytes) (len : Nat) :
    Called lv e (afterWrite offset data len (wsLiveWrite lv offset data len).1
        (wsLiveWrite lv offset data len).2).1
      (afterWrite offset data len (wsLiveWrite lv offset data len).1
        (wsLiveWrite lv offset data len).2).2 := by
  unfold wsLiveWrite
  cases hr : writeRefused lv offset len with
  | some r =>
    exact .quiet (accept_quiet lv offset data len r) (.inl (Nat.le_of_eq (accept_refs _ _ _ _ _).symm))
  | none =>
    obtain ⟨ha, _⟩ := writeRefused_none hr
    exact .wrote ha (write_step (h ha)
      ⟨offset, len, data, firstSeg offset, lastSeg offset len + 1 - firstSeg offset⟩ _ _)

theorem detach_quiet (lv : Live) : Quiet lv (wsLiveDetach lv) := by
  unfold wsLiveDetach
  simp only
  split
  · exact ⟨rfl, id⟩
  · exact ⟨rfl, id⟩

theorem detach_refs (lv : Live) : (wsLiveDetach lv).refs = lv.refs - 1 := by
  unfold wsLiveDetach
  simp only
  split <;> rfl

theorem call_cases {lv : Live} {e : Event} {st : Live × Thread} (h : lv.active = true → Session lv)
    (hc : call lv e = some st) : Called lv e st.1 st.2 := by
  cases e with
  | create c => cases hc; exact create_called lv c
  | setSeekFn on => cases hc; exact .quiet ⟨rfl, id⟩ (.inl (Nat.le_refl _))
  | attach =>
    cases hc
    unfold wsLiveAttach
    split
    · exact .quiet (.refl lv) (.inl (Nat.le_refl _))
    · exact .quiet ⟨rfl, id⟩ (.inl (Nat.le_succ _))
  | detach => cases hc; exact .quiet (detach_quiet lv) (.inr ⟨rfl, detach_refs lv⟩)
  | tryWrite offset data len => cases hc; exact tryWrite_called h _ offset data len
  | write offset data len => cases hc; exact write_called h _ offset data len
  | read off buf count now => cases hc; exact .read
  | finish =>
    cases hc
    unfold wsLiveFinish
    simp only
    split
    · exact .quiet (.refl lv) (.inl (Nat.le_refl _))
    · exact .quiet ⟨rfl, id⟩ (.inl (Nat.le_refl _))
  | abort =>
    cases hc
    unfold wsLiveAbort
    split
    · exact .quiet ⟨rfl, fun _ => rfl⟩ (.inl (Nat.le_refl _))
    · exact .quiet (.refl lv) (.inl (Nat.le_refl _))
  | destroy =>
    cases hc
    by_cases ha : lv.active = true
    · exact .destroyed ha
    · have he : wsLiveDestroy lv = lv := by
        unfold wsLiveDestroy
        simp [ha]
      rw [he]
      exact .quiet (.refl lv) (.inl (Nat.le_refl _))
  | writeWake expired => cases hc
  | rescan now => cases hc
  | seekReturn now => cases hc
  | readWake expired now => cases hc

/-! What a read leaves alone. -/

/-- The state without what a read may change. -/
def readFrame (lv : Live) : Live :=
  { lv with
    lastUse := fun _ => 0
    slotRead := fun _ => false
    tick := 0
    served := 0
    waiters := fun _ => 0
    peakSeg := 0
    seekSent := fun _ => 0
    runHi := 0
    history := { lv.history with delivered := [] } }

theorem copyLoop_frame (n : Nat) (lv : Live) (r : ReadCall) :
    copyFrame (copyLoop n lv r).1 = copyFrame lv := by
  induction n generalizing lv r with
  | zero => rfl
  | succ n ih =>
    simp only [copyLoop]
    generalize (if r.off / SEG < lv.nsegs then lv.slotOf (r.off / SEG) else -1) = slot
    generalize (if segLenLocked lv (r.off / SEG) < _ then _ else _) = m
    split
    · split
      · rfl
      · split
        · rfl
        · exact ih _ _
    · rfl

theorem park_frame (lv : Live) (need : Nat) : parkFrame (park lv need) = parkFrame lv := by
  unfold park
  simp only
  split_ifs <;> rfl

theorem emitSeek_frame (lv : Live) (need now : Nat) :
    parkFrame (emitSeekLocked lv need now).1 = parkFrame lv := by
  unfold emitSeekLocked
  split <;> rfl

theorem unpark_frame (lv : Live) (need : Nat) : parkFrame (unpark lv need) = parkFrame lv := by
  unfold unpark
  split <;> rfl

theorem readFrame_of_copy {lv lv' : Live} (h : copyFrame lv' = copyFrame lv) :
    readFrame lv' = readFrame lv :=
  (congrArg readFrame h :)

theorem readFrame_of_park {lv lv' : Live} (h : parkFrame lv' = parkFrame lv) :
    readFrame lv' = readFrame lv :=
  (congrArg readFrame h :)

theorem readTurn_frame (lv : Live) (r : ReadCall) (now : Nat) :
    readFrame (readTurn lv r now).1 = readFrame lv := by
  unfold readTurn
  split
  · rfl
  · simp only
    split
    · have hc := copyLoop_frame (r.count - r.got) lv r
      cases hst : copyLoop (r.count - r.got) lv r with
      | mk lv' r' =>
        rw [hst] at hc
        have hf := readFrame_of_copy hc
        simp only
        split
        · exact hf
        · exact hf
    · generalize firstMissing lv _ _ _ / SEG = need
      have hp := park_frame lv need
      split
      · have he := emitSeek_frame (park lv need) need now
        cases hem : emitSeekLocked (park lv need) need now with
        | mk lv' fn =>
          rw [hem] at he
          cases fn <;> exact readFrame_of_park (he.trans hp)
      · exact readFrame_of_park hp

theorem scanFrom_frame (lv : Live) (r : ReadCall) (now : Nat) :
    readFrame (scanFrom lv r now).1 = readFrame lv := readTurn_frame lv r now

theorem wsLiveRead_frame (lv : Live) (off : Nat) (buf : Bytes) (count now : Nat) :
    readFrame (wsLiveRead lv off buf count now).1 = readFrame lv := by
  unfold wsLiveRead
  simp only
  split_ifs
  · rfl
  · rfl
  · rfl
  · exact scanFrom_frame _ _ _
  · exact scanFrom_frame _ _ _

theorem seekReturn_frame (lv : Live) (r : ReadCall) (need now : Nat) :
    readFrame (seekReturn lv r need now).1 = readFrame lv := by
  have hu := readFrame_of_park (unpark_frame lv need)
  unfold seekReturn
  split
  · exact hu
  · split
    · exact (scanFrom_frame _ _ _).trans hu
    · rfl

theorem readWake_frame (lv : Live) (r : ReadCall) (need : Nat) (expired : Bool) (now : Nat) :
    readFrame (readWake lv r need expired now).1 = readFrame lv := by
  have hu := readFrame_of_park (unpark_frame lv need)
  unfold readWake
  split
  · exact hu
  · exact (scanFrom_frame _ _ _).trans hu

/-! The session invariant. -/

theorem freshSession_session (lv : Live) {c : CreateCall} (hpos : 0 < c.totalSize)
    (hle : c.totalSize ≤ maxTotal) : Session (freshSession lv c) := by
  have hn : (freshSession lv c).nsegs = (c.totalSize + SEG - 1) / SEG := by
    show u64 (c.totalSize + SEG - 1) / SEG = _
    rw [u64_of_lt]
    unfold SEG maxTotal at *
    omega
  have ht : (freshSession lv c).total = c.totalSize := rfl
  refine ⟨freshSession_slotTable lv c, ?_, ?_, ?_, ?_⟩
  · rwa [ht]
  · rwa [ht]
  · rw [ht, hn]
    unfold SEG
    omega
  · rw [ht, hn]
    unfold SEG
    omega

theorem destroy_inactive (lv : Live) (ha : lv.active = true) :
    (wsLiveDestroy lv).active = false ∧ (wsLiveDestroy lv).aborted = true ∧
      (wsLiveDestroy lv).refs = lv.refs := by
  unfold wsLiveDestroy
  simp only [ha, Bool.not_true, Bool.false_eq_true, ↓reduceIte]
  split <;> exact ⟨rfl, rfl, rfl⟩

theorem Quiet.session {lv lv' : Live} (h : Quiet lv lv') (hs : Session lv) : Session lv' :=
  hs.congr (congrArg tableOf h.frame_eq :)

theorem Session.of_readFrame {lv lv' : Live} (h : readFrame lv' = readFrame lv) (hs : Session lv) :
    Session lv' :=
  hs.congr (congrArg tableOf h :)

/-- What one step of a thread does to the session. -/
inductive Change (lv : Live) : Event → Live → Prop
  | fresh {c : CreateCall} (ha : lv.active = false) (hr : lv.refs = 0) (hpos : 0 < c.totalSize)
      (hle : c.totalSize ≤ maxTotal) : Change lv (.create c) (freshSession lv c)
  | quiet {e : Event} {lv' : Live} (h : Quiet lv lv')
      (hr : lv.refs ≤ lv'.refs ∨ e = .detach ∧ lv'.refs = lv.refs - 1) : Change lv e lv'
  | destroyed (ha : lv.active = true) : Change lv .destroy (wsLiveDestroy lv)
  | wrote {e : Event} {lv₁ lv' : Live} {data : Bytes} {offset len : Nat} (ha : lv.active = true)
      (h : Wrote data offset len lv lv₁) (hq : Quiet lv₁ lv') (hr : lv'.refs = lv.refs) :
      Change lv e lv'
  | read {e : Event} {lv' : Live} (h : readFrame lv' = readFrame lv) : Change lv e lv'

/-- A parked writer belongs to a session that is active, or was torn down since. -/
def WriterAlive (lv : Live) (t : Thread) : Prop :=
  ∀ w, t = .writing w → lv.active = true ∨ lv.aborted = true

theorem writeWake_cases {lv : Live} {w : WriteCall} (hw : lv.active = true ∨ lv.aborted = true)
    (expired : Bool) :
    (∃ r, writeWake lv w expired = (lv, .done r)) ∨
      lv.active = true ∧ writeWake lv w expired = writeLoop w w.left w.seg lv := by
  unfold writeWake
  cases expired with
  | true => exact .inl ⟨-1, rfl⟩
  | false =>
    cases ha : lv.aborted with
    | false => exact .inr ⟨by simpa [ha] using hw, rfl⟩
    | true =>
      cases hl : w.left with
      | zero => exact .inl ⟨0, rfl⟩
      | succ n =>
        refine .inl ⟨-1, ?_⟩
        simp only [Bool.false_eq_true, ↓reduceIte]
        rw [writeLoop_succ, if_pos ha]

theorem WriteStep.change {lv lv' : Live} {t' : Thread} {data : Bytes} {offset len : Nat}
    (h : WriteStep lv lv' t' data offset len) (ha : lv.active = true) (e : Event) :
    Change lv e lv' ∧ WriterAlive lv' t' := by
  obtain ⟨lv₁, hw, hq⟩ := h.stored
  have hact : lv₁.active = lv.active := (congrArg Live.active hw.frame_eq :)
  exact ⟨.wrote ha hw hq h.refs, fun w _ => .inl (hq.active.trans (hact.trans ha))⟩

theorem scanFrom_alive (lv lv' : Live) (r : ReadCall) (now : Nat) :
    WriterAlive lv' (scanFrom lv r now).2 := by
  intro w hw
  unfold scanFrom at hw
  cases ht : (readTurn lv r now).2 <;> simp [ht, afterTurn] at hw

theorem wsLiveRead_alive (lv lv' : Live) (off : Nat) (buf : Bytes) (count now : Nat) :
    WriterAlive lv' (wsLiveRead lv off buf count now).2 := by
  unfold wsLiveRead
  simp only
  split_ifs
  · exact nofun
  · exact nofun
  · exact nofun
  · exact scanFrom_alive _ _ _ _
  · exact scanFrom_alive _ _ _ _

theorem seekReturn_alive (lv lv' : Live) (r : ReadCall) (need now : Nat) :
    WriterAlive lv' (seekReturn lv r need now).2 := by
  unfold seekReturn
  split_ifs
  · exact nofun
  · exact scanFrom_alive _ _ _ _
  · exact nofun

theorem readWake_alive (lv lv' : Live) (r : ReadCall) (need : Nat) (expired : Bool) (now : Nat) :
    WriterAlive lv' (readWake lv r need expired now).2 := by
  unfold readWake
  split
  · exact nofun
  · exact scanFrom_alive _ _ _ _

theorem Called.change {lv lv' : Live} {e : Event} {t' : Thread} (h : Called lv e lv' t') :
    Change lv e lv' ∧ WriterAlive lv' t' := by
  cases h with
  | fresh ha hr hpos hle => exact ⟨.fresh ha hr hpos hle, nofun⟩
  | quiet hq hr => exact ⟨.quiet hq hr, nofun⟩
  | destroyed ha => exact ⟨.destroyed ha, nofun⟩
  | wrote ha hw => exact hw.change ha e
  | read => exact ⟨.read (wsLiveRead_frame _ _ _ _ _), wsLiveRead_alive _ _ _ _ _ _⟩

theorem turn_change {lv lv' : Live} {t t' : Thread} {e : Event} (h : lv.active = true → Session lv)
    (hw : WriterAlive lv t) (ht : turn lv t e = some (lv', t')) :
    Change lv e lv' ∧ WriterAlive lv' t' := by
  obtain ⟨_, hc⟩ | ⟨w, expired, rfl, rfl, he⟩ | ⟨r, rfl, now, rfl, he⟩ |
    ⟨r, need, rfl, now, rfl, he⟩ | ⟨r, need, rfl, expired, now, rfl, he⟩ := turn_cases ht
  · exact (call_cases h hc).change
  · obtain ⟨n, hn⟩ | ⟨ha, hn⟩ := writeWake_cases (hw w rfl) expired
    · rw [hn] at he
      cases he
      exact ⟨.quiet (accept_quiet _ _ _ _ _) (.inl (Nat.le_of_eq (accept_refs _ _ _ _ _).symm)),
        nofun⟩
    · rw [hn] at he
      have hs := write_step (h ha) w w.left w.seg
      rw [← he] at hs
      exact hs.change ha _
  · have h1 := congrArg Prod.fst he
    have h2 := congrArg Prod.snd he
    subst h1 h2
    exact ⟨.read (scanFrom_frame _ _ _), scanFrom_alive _ _ _ _⟩
  · have h1 := congrArg Prod.fst he
    have h2 := congrArg Prod.snd he
    subst h1 h2
    exact ⟨.read (seekReturn_frame _ _ _ _), seekReturn_alive _ _ _ _ _⟩
  · have h1 := congrArg Prod.fst he
    have h2 := congrArg Prod.snd he
    subst h1 h2
    exact ⟨.read (readWake_frame _ _ _ _ _), readWake_alive _ _ _ _ _ _⟩

theorem Change.session {lv lv' : Live} {e : Event} (h : Change lv e lv')
    (hs : lv.active = true → Session lv) : lv'.active = true → Session lv' := by
  intro ha'
  cases h with
  | fresh _ _ hpos hle => exact freshSession_session lv hpos hle
  | quiet hq _ => exact hq.session (hs (hq.active ▸ ha'))
  | destroyed ha => simp [(destroy_inactive lv ha).1] at ha'
  | wrote ha hw hq _ => exact hq.session (hw.session (hs ha))
  | read hf => exact Session.of_readFrame hf (hs ((congrArg Live.active hf :) ▸ ha'))

theorem Change.alive {lv lv' : Live} {e : Event} (h : Change lv e lv') {t : Thread}
    (ht : WriterAlive lv t) : WriterAlive lv' t := by
  intro w hw
  have hold := ht w hw
  cases h with
  | fresh => exact .inl rfl
  | quiet hq _ => exact hold.imp (hq.active.trans ·) hq.aborted
  | destroyed ha => exact .inr (destroy_inactive lv ha).2.1
  | wrote ha hw hq _ =>
    have hact := (congrArg Live.active hw.frame_eq :)
    exact .inl (hq.active.trans (hact.trans ha))
  | read hf =>
    have h1 : lv'.active = lv.active := (congrArg Live.active hf :)
    have h2 : lv'.aborted = lv.aborted := (congrArg Live.aborted hf :)
    rwa [h1, h2]

/-- While a session is active its slot table is sound. -/
structure SessionInv (p : Pool Live Thread) : Prop where
  session : p.shared.active = true → Session p.shared
  writers : ∀ t ∈ p.threads, WriterAlive p.shared t

theorem start_sessionInv (seekFn : Bool) (n : Nat) : SessionInv (start seekFn n) where
  session := nofun
  writers := by
    intro t ht w hw
    rw [List.eq_of_mem_replicate ht] at hw
    cases hw

theorem sessionInv_step {p q : Pool Live Thread} {i : Nat} {e : Event} (h : SessionInv p)
    (hs : live.step p i e = some q) : SessionInv q ∧ Change p.shared e q.shared := by
  obtain ⟨t, lv', t', ht, hturn, rfl⟩ := live_step hs
  have hm := List.mem_of_getElem? ht
  obtain ⟨hc, ha⟩ := turn_change h.session (h.writers t hm) hturn
  refine ⟨⟨hc.session h.session, ?_⟩, hc⟩
  exact threads_step ht h.writers ha (fun u _ hu => hc.alive hu) (by simp)

theorem sessionInv_reach {G : Pool Live Thread → Nat → Event → Prop} {seekFn : Bool} {n : Nat}
    {p : Pool Live Thread} (h : live.Reach G (start seekFn n) p) : SessionInv p :=
  h.invariant SessionInv (start_sessionInv seekFn n)
    fun _ _ _ _ hp _ hs => (sessionInv_step hp hs).1

/-- In every state of a session, whatever calls led there, its slot table is
sound and holds no more segments than there are slots. -/
theorem slot_table_sound {G : Pool Live Thread → Nat → Event → Prop} {seekFn : Bool} {n : Nat}
    {p : Pool Live Thread} (h : live.Reach G (start seekFn n) p) (ha : p.shared.active = true) :
    SlotTable p.shared ∧
      (List.range p.shared.nsegs).countP p.shared.present ≤ p.shared.nslots := by
  have hs := (sessionInv_reach h).session ha
  exact ⟨hs.toSlotTable, hs.present_le⟩

/-- A file of six segments over a ring of four slots. -/
def sixSegments : CreateCall := ⟨[97], 6 * SEG, 4, 24, [49], true⟩

theorem slot_table_sound_evicted :
    ∃ p, live.Reach AttachDiscipline (start false 1) p ∧ p.shared.present 1 = false ∧
      p.shared.ackedEver 1 = true ∧ SlotTable p.shared := by
  have hv : ((live.exec AttachDiscipline [(0, .create sixSegments),
      (0, .tryWrite 0 (fun _ => 7) (4 * SEG)), (0, .attach), (0, .read 0 (fun _ => 0) (2 * SEG) 0),
      (0, .tryWrite (4 * SEG) (fun _ => 8) (2 * SEG))] (start false 1)).map fun p =>
        (p.shared.active, p.shared.present 1, p.shared.ackedEver 1)) = some (true, false, true) := by
    rfl
  obtain ⟨p, hp, hv⟩ := Option.map_eq_some_iff.mp hv
  simp only [Prod.mk.injEq] at hv
  have hr : live.Reach AttachDiscipline (start false 1) p := .of_exec hp
  exact ⟨p, hr, hv.2.1, hv.2.2, (slot_table_sound hr hv.1).1⟩

end PkgManager.LiveSound
