import PkgManager.LiveSound

namespace PkgManager.LiveReaders

open Interleaving Memory LiveSession LiveCalls LiveSlots LiveReads LiveThreads LiveSound

/-- A reader inside the call belongs to a session that is active, or was
aborted or torn down since, and its request lies inside that session's file. -/
def Inside (lv : Live) (r : ReadCall) : Prop :=
  (lv.active = true ∨ lv.aborted = true) ∧ (lv.active = true → Reading lv r)

def ReaderAlive (lv : Live) : Thread → Prop
  | .scan r => Inside lv r
  | .seeking r need => Inside lv r ∧ (lv.active = true → need < lv.nsegs)
  | .waiting r need => Inside lv r ∧ (lv.active = true → need < lv.nsegs)
  | _ => True

/-- The session went on, or it ended. -/
structure Keeps (lv lv' : Live) : Prop where
  alive : lv.active = true ∨ lv.aborted = true → lv'.active = true ∨ lv'.aborted = true
  active : lv'.active = true → lv.active = true
  total : lv'.active = true → lv'.total = lv.total
  nsegs : lv'.active = true → lv'.nsegs = lv.nsegs

theorem quiet_keeps {lv lv' : Live} (h : Quiet lv lv') : Keeps lv lv' where
  alive := Or.imp (h.active.trans ·) h.aborted
  active := fun ha => h.active ▸ ha
  total := fun _ => (congrArg Live.total h.frame_eq :)
  nsegs := fun _ => (congrArg Live.nsegs h.frame_eq :)

theorem keeps_of_readFrame {lv lv' : Live} (h : readFrame lv' = readFrame lv) : Keeps lv lv' where
  alive := by
    have h1 : lv'.active = lv.active := (congrArg Live.active h :)
    have h2 : lv'.aborted = lv.aborted := (congrArg Live.aborted h :)
    rw [h1, h2]
    exact id
  active := by
    have h1 : lv'.active = lv.active := (congrArg Live.active h :)
    rw [h1]
    exact id
  total := fun _ => (congrArg Live.total h :)
  nsegs := fun _ => (congrArg Live.nsegs h :)

theorem Keeps.trans {a b c : Live} (h : Keeps a b) (k : Keeps b c) : Keeps a c where
  alive := fun ha => k.alive (h.alive ha)
  active := fun hc => h.active (k.active hc)
  total := fun hc => (k.total hc).trans (h.total (k.active hc))
  nsegs := fun hc => (k.nsegs hc).trans (h.nsegs (k.active hc))

theorem keeps_of_wrote {lv lv' : Live} {data : Bytes} {offset len : Nat}
    (h : Wrote data offset len lv lv') : Keeps lv lv' where
  alive := by
    have h1 : lv'.active = lv.active := (congrArg Live.active h.frame_eq :)
    have h2 : lv'.aborted = lv.aborted := (congrArg Live.aborted h.frame_eq :)
    rw [h1, h2]
    exact id
  active := by
    have h1 : lv'.active = lv.active := (congrArg Live.active h.frame_eq :)
    rw [h1]
    exact id
  total := fun _ => (congrArg Live.total h.frame_eq :)
  nsegs := fun _ => (congrArg Live.nsegs h.frame_eq :)

theorem change_keeps {lv lv' : Live} {e : Event} (h : Change lv e lv') :
    Keeps lv lv' ∨ ∃ c, e = .create c ∧ lv.active = false ∧ lv.refs = 0 ∧ lv' = freshSession lv c := by
  cases h with
  | fresh ha hr _ _ => exact .inr ⟨_, rfl, ha, hr, rfl⟩
  | quiet hq _ => exact .inl (quiet_keeps hq)
  | destroyed ha =>
    obtain ⟨h1, h2, _⟩ := destroy_inactive lv ha
    refine .inl ⟨fun _ => .inr h2, ?_, ?_, ?_⟩ <;> simp [h1]
  | wrote _ hw hq _ => exact .inl ((keeps_of_wrote hw).trans (quiet_keeps hq))
  | read hf => exact .inl (keeps_of_readFrame hf)

theorem Inside.keeps {lv lv' : Live} {r : ReadCall} (h : Inside lv r) (hk : Keeps lv lv') :
    Inside lv' r := by
  refine ⟨hk.alive h.1, fun ha => ?_⟩
  have hr := h.2 (hk.active ha)
  have ht := hk.total ha
  exact ⟨hr.start, hr.got, hr.count_pos, ht ▸ hr.count_eq, ht ▸ hr.inside, hr.stop⟩

theorem ReaderAlive.keeps {lv lv' : Live} {t : Thread} (h : ReaderAlive lv t) (hk : Keeps lv lv') :
    ReaderAlive lv' t := by
  cases t with
  | scan r => exact Inside.keeps h hk
  | seeking r need =>
    exact ⟨h.1.keeps hk, fun ha => hk.nsegs ha ▸ h.2 (hk.active ha)⟩
  | waiting r need =>
    exact ⟨h.1.keeps hk, fun ha => hk.nsegs ha ▸ h.2 (hk.active ha)⟩
  | _ => trivial

theorem readerAlive_of_not_reading {lv : Live} {t : Thread} (h : t.reading = false) :
    ReaderAlive lv t := by
  cases t with
  | scan r => cases h
  | seeking r need => cases h
  | waiting r need => cases h
  | _ => trivial

/-! References. -/

theorem turn_reading {lv lv' : Live} {t t' : Thread} {e : Event} (h : lv.active = true → Session lv)
    (hw : WriterAlive lv t) (ht : turn lv t e = some (lv', t')) (hr : t'.reading = true) :
    t.reading = true ∨ ∃ off buf count now, e = .read off buf count now := by
  obtain ⟨_, hc⟩ | ⟨w, expired, rfl, rfl, he⟩ | ⟨r, rfl, _⟩ | ⟨r, need, rfl, _⟩ |
    ⟨r, need, rfl, _⟩ := turn_cases ht
  · generalize hst : (lv', t') = st at hc
    have hcall := call_cases h hc
    subst hst
    cases hcall with
    | wrote _ hs => simp [hs.not_reading] at hr
    | read => exact .inr ⟨_, _, _, _, rfl⟩
    | _ => cases hr
  · obtain ⟨n, hn⟩ | ⟨ha, hn⟩ := writeWake_cases (hw w rfl) expired
    · rw [hn] at he
      cases he
      cases hr
    · rw [hn] at he
      have hs := (write_step (h ha) w w.left w.seg).not_reading
      rw [← he] at hs
      simp [hs] at hr
  · exact .inl rfl
  · exact .inl rfl
  · exact .inl rfl

theorem change_refs {lv lv' : Live} {e : Event} (h : Change lv e lv') :
    lv.refs ≤ lv'.refs ∨ e = .detach ∧ lv'.refs = lv.refs - 1 := by
  cases h with
  | fresh _ hr _ _ => exact .inl (by omega)
  | quiet _ hr => exact hr
  | destroyed ha => exact .inl (Nat.le_of_eq (destroy_inactive lv ha).2.2.symm)
  | wrote _ _ _ hr => exact .inl (Nat.le_of_eq hr.symm)
  | read hf => exact .inl (Nat.le_of_eq (congrArg Live.refs hf :).symm)

/-- A reader is never without a reference. -/
def Referenced (p : Pool Live Thread) : Prop :=
  ∀ t ∈ p.threads, t.reading = true → 0 < p.shared.refs

theorem referenced_step {p q : Pool Live Thread} {i : Nat} {e : Event} (h : SessionInv p)
    (hr : Referenced p) (hg : AttachDiscipline p i e) (hs : live.step p i e = some q) :
    Referenced q := by
  obtain ⟨t, lv', t', ht, hturn, rfl⟩ := live_step hs
  have hm := List.mem_of_getElem? ht
  have hw := h.writers t hm
  obtain ⟨hc, _⟩ := turn_change h.session hw hturn
  have hpos : (∃ u ∈ p.threads, u.reading = true) → 0 < lv'.refs := by
    intro ⟨u, hu, hru⟩
    have h0 := hr u hu hru
    obtain hle | ⟨rfl, heq⟩ := change_refs hc
    · omega
    · have hlast : ¬ p.shared.refs ≤ 1 := fun hle => by simp [hg hle u hu] at hru
      omega
  intro u hu hru
  rcases mem_step ht hu with rfl | ⟨j, _, hj⟩ | hn
  · obtain hr₀ | ⟨off, buf, count, now, rfl⟩ := turn_reading h.session hw hturn hru
    · exact hpos ⟨t, hm, hr₀⟩
    · have hle := change_refs hc
      simp only [reduceCtorEq, false_and, or_false] at hle
      exact Nat.lt_of_lt_of_le hg hle
  · exact hpos ⟨u, List.mem_of_getElem? hj, hru⟩
  · simp at hn

/-! The waiter counters. -/

theorem parkedOn_of_not_reading {t : Thread} (h : t.reading = false) (s : Nat) :
    t.parkedOn s = false := by
  cases t with
  | scan r => cases h
  | seeking r need => cases h
  | waiting r need => cases h
  | _ => rfl

def parked (s : Nat) (t : Thread) : Nat := if t.parkedOn s then 1 else 0

theorem parked_of_not_reading {t : Thread} (h : t.reading = false) (s : Nat) : parked s t = 0 := by
  unfold parked
  rw [parkedOn_of_not_reading h]
  rfl

/-- A step of a thread from `t` to `t'` keeps the books of the waiter counters. -/
def Balanced (lv : Live) (t : Thread) (lv' : Live) (t' : Thread) : Prop :=
  lv.active = true → ∀ s, lv'.waiters s + parked s t = lv.waiters s + parked s t'

theorem scanFrom_reader {lv : Live} {r : ReadCall} (h : lv.active = true → Session lv)
    (hi : Inside lv r) (now : Nat) :
    ReaderAlive (scanFrom lv r now).1 (scanFrom lv r now).2 ∧
      ∀ s, (scanFrom lv r now).1.waiters s = lv.waiters s + parked s (scanFrom lv r now).2 := by
  have hlive : lv.aborted = false → lv.active = true := fun ha => by simpa [ha] using hi.1
  have hk := keeps_of_readFrame (scanFrom_frame lv r now)
  have hc := readTurn_cases (fun ha => h (hlive ha)) (fun ha => hi.2 (hlive ha)) now
  unfold scanFrom at hk ⊢
  generalize (readTurn lv r now).1 = lv' at hk hc ⊢
  generalize (readTurn lv r now).2 = turn at hk hc ⊢
  have hpark : ∀ need, Parked lv r lv' need →
      (Inside lv' r ∧ (lv'.active = true → need < lv'.nsegs)) ∧
        ∀ s, lv'.waiters s = lv.waiters s + if need == s then 1 else 0 := by
    intro need hp
    refine ⟨⟨hi.keeps hk, fun ha => hk.nsegs ha ▸ hp.lt⟩, fun s => ?_⟩
    rw [hp.waiters]
    by_cases hs : need = s
    · subst hs
      simp
    · simp [hs, Function.update_of_ne (Ne.symm hs)]
  cases hc with
  | aborted _ => exact ⟨trivial, fun s => rfl⟩
  | @served lv₁ r' _ hcp =>
    have hf : lv₁.waiters = lv.waiters := (congrArg Live.waiters hcp.frame_eq :)
    exact ⟨trivial, fun s => congrFun hf s⟩
  | seek hp => exact hpark _ hp
  | wait hp => exact hpark _ hp

/-- A read that passed the checks at its entry. -/
theorem wsLiveRead_inside {lv : Live} {off count : Nat} {buf : Bytes} (h1 : ¬count = 0)
    (h2 : lv.active = true) (h3 : ¬lv.total ≤ off) :
    Inside lv ⟨count, off, buf, 0, if lv.total - off < count then lv.total - off else count, off,
      off + if lv.total - off < count then lv.total - off else count⟩ := by
  refine ⟨.inl h2, fun _ => ⟨rfl, rfl, ?_, ?_, ?_, rfl⟩⟩
  · simp only
    split <;> omega
  · simp only
    split <;> omega
  · simp only
    omega

theorem wsLiveRead_reader {lv : Live} (h : lv.active = true → Session lv) (off : Nat) (buf : Bytes)
    (count now : Nat) :
    ReaderAlive (wsLiveRead lv off buf count now).1 (wsLiveRead lv off buf count now).2 ∧
      ∀ s, (wsLiveRead lv off buf count now).1.waiters s =
        lv.waiters s + parked s (wsLiveRead lv off buf count now).2 := by
  unfold wsLiveRead
  simp only
  by_cases h1 : count = 0
  · rw [if_pos h1]
    exact ⟨trivial, fun s => rfl⟩
  · rw [if_neg h1]
    by_cases h2 : lv.active = true
    · rw [if_neg (by simp [h2])]
      by_cases h3 : lv.total ≤ off
      · rw [if_pos h3]
        exact ⟨trivial, fun s => rfl⟩
      · rw [if_neg h3]
        exact scanFrom_reader h (wsLiveRead_inside h1 h2 h3) now
    · rw [if_pos (by simp [h2])]
      exact ⟨trivial, fun s => rfl⟩

theorem unpark_waiters {lv : Live} {need : Nat} (hlt : need < lv.nsegs)
    (hpos : 0 < lv.waiters need) (s : Nat) :
    (unpark lv need).waiters s + (if need == s then 1 else 0) = lv.waiters s := by
  unfold unpark
  rw [if_pos ⟨hlt, hpos⟩]
  by_cases hs : need = s
  · subst hs
    simp
    omega
  · simp [hs, Function.update_of_ne (Ne.symm hs)]

theorem unpark_inside {lv : Live} {r : ReadCall} (need : Nat) (h : Inside lv r) :
    Inside (unpark lv need) r :=
  h.keeps (keeps_of_readFrame (readFrame_of_park (unpark_frame lv need)))

theorem unpark_session {lv : Live} (need : Nat) (h : lv.active = true → Session lv) :
    (unpark lv need).active = true → Session (unpark lv need) := by
  have hf := readFrame_of_park (unpark_frame lv need)
  have ha : (unpark lv need).active = lv.active := (congrArg Live.active hf :)
  rw [ha]
  exact fun hact => Session.of_readFrame hf (h hact)

/-- Leaving the wait and scanning again. -/
theorem unpark_scan {lv : Live} {r : ReadCall} {need : Nat} (h : lv.active = true → Session lv)
    (hi : Inside lv r) (hlt : lv.active = true → need < lv.nsegs)
    (hpos : lv.active = true → 0 < lv.waiters need) (now : Nat) :
    ReaderAlive (scanFrom (unpark lv need) r now).1 (scanFrom (unpark lv need) r now).2 ∧
      (lv.active = true → ∀ s, (scanFrom (unpark lv need) r now).1.waiters s +
        (if need == s then 1 else 0) =
          lv.waiters s + parked s (scanFrom (unpark lv need) r now).2) := by
  obtain ⟨hr, hw⟩ := scanFrom_reader (unpark_session need h) (unpark_inside need hi) now
  refine ⟨hr, fun ha s => ?_⟩
  have hu := unpark_waiters (hlt ha) (hpos ha) s
  rw [hw s]
  omega

theorem unpark_return {lv : Live} {r : ReadCall} {need : Nat} {n : Int}
    (hlt : lv.active = true → need < lv.nsegs) (hpos : lv.active = true → 0 < lv.waiters need) :
    lv.active = true → ∀ s, (unpark lv need).waiters s + (if need == s then 1 else 0) =
      lv.waiters s + parked s (.returned r n) :=
  fun ha s => unpark_waiters (hlt ha) (hpos ha) s

theorem seekReturn_reader {lv : Live} {r : ReadCall} {need : Nat} (h : lv.active = true → Session lv)
    (hi : Inside lv r) (hlt : lv.active = true → need < lv.nsegs)
    (hpos : lv.active = true → 0 < lv.waiters need) (now : Nat) :
    ReaderAlive (seekReturn lv r need now).1 (seekReturn lv r need now).2 ∧
      Balanced lv (.seeking r need) (seekReturn lv r need now).1 (seekReturn lv r need now).2 := by
  unfold seekReturn
  split
  · exact ⟨trivial, unpark_return hlt hpos⟩
  · split
    · exact unpark_scan h hi hlt hpos now
    · exact ⟨⟨hi, hlt⟩, fun _ _ => rfl⟩

theorem readWake_reader {lv : Live} {r : ReadCall} {need : Nat} (h : lv.active = true → Session lv)
    (hi : Inside lv r) (hlt : lv.active = true → need < lv.nsegs)
    (hpos : lv.active = true → 0 < lv.waiters need) (expired : Bool) (now : Nat) :
    ReaderAlive (readWake lv r need expired now).1 (readWake lv r need expired now).2 ∧
      Balanced lv (.waiting r need) (readWake lv r need expired now).1
        (readWake lv r need expired now).2 := by
  unfold readWake
  split
  · exact ⟨trivial, unpark_return hlt hpos⟩
  · exact unpark_scan h hi hlt hpos now

theorem writeStep_balanced {lv lv' : Live} {t t' : Thread} {data : Bytes} {offset len : Nat}
    (h : WriteStep lv lv' t' data offset len) (ht : t.reading = false) :
    ReaderAlive lv' t' ∧ Balanced lv t lv' t' := by
  refine ⟨readerAlive_of_not_reading h.not_reading, fun _ s => ?_⟩
  obtain ⟨lv₁, hw, hq⟩ := h.stored
  have h1 : lv₁.waiters = lv.waiters := (congrArg Live.waiters hw.frame_eq :)
  have h2 : lv'.waiters = lv₁.waiters := (congrArg Live.waiters hq.frame_eq :)
  rw [h2, h1, parked_of_not_reading ht, parked_of_not_reading h.not_reading]

theorem quiet_balanced {lv lv' : Live} {t : Thread} {n : Int} (h : Quiet lv lv')
    (ht : t.reading = false) :
    ReaderAlive lv' (.done n) ∧ Balanced lv t lv' (.done n) := by
  refine ⟨trivial, fun _ s => ?_⟩
  have hw : lv'.waiters = lv.waiters := (congrArg Live.waiters h.frame_eq :)
  rw [hw, parked_of_not_reading ht, parked_of_not_reading rfl]

theorem destroy_waiters (lv : Live) : (wsLiveDestroy lv).waiters = lv.waiters := by
  unfold wsLiveDestroy
  simp only
  split_ifs <;> rfl

theorem called_balanced {lv lv' : Live} {e : Event} {t t' : Thread} (hc : Called lv e lv' t')
    (h : lv.active = true → Session lv) (ht : t.reading = false) :
    ReaderAlive lv' t' ∧ Balanced lv t lv' t' := by
  cases hc with
  | fresh ha _ _ _ => exact ⟨trivial, fun hact => by simp [ha] at hact⟩
  | quiet hq _ => exact quiet_balanced hq ht
  | destroyed ha =>
    refine ⟨trivial, fun _ s => ?_⟩
    rw [destroy_waiters, parked_of_not_reading ht, parked_of_not_reading rfl]
  | wrote _ hw => exact writeStep_balanced hw ht
  | @read off buf count now =>
    obtain ⟨hr, hw⟩ := wsLiveRead_reader h off buf count now
    refine ⟨hr, fun _ s => ?_⟩
    rw [hw s, parked_of_not_reading ht]
    rfl

/-- What a step of a thread owes to the other readers. -/
theorem turn_reader {lv lv' : Live} {t t' : Thread} {e : Event} (h : lv.active = true → Session lv)
    (hw : WriterAlive lv t) (hr : ReaderAlive lv t)
    (hpos : lv.active = true → ∀ s, t.parkedOn s = true → 0 < lv.waiters s)
    (ht : turn lv t e = some (lv', t')) : ReaderAlive lv' t' ∧ Balanced lv t lv' t' := by
  obtain ⟨hfree, hc⟩ | ⟨w, expired, rfl, rfl, he⟩ | ⟨r, rfl, now, rfl, he⟩ |
    ⟨r, need, rfl, now, rfl, he⟩ | ⟨r, need, rfl, expired, now, rfl, he⟩ := turn_cases ht
  · exact called_balanced (call_cases h hc) h hfree
  · obtain ⟨n, hn⟩ | ⟨ha, hn⟩ := writeWake_cases (hw w rfl) expired
    · rw [hn] at he
      cases he
      exact quiet_balanced (accept_quiet _ _ _ _ _) rfl
    · rw [hn] at he
      have hs := write_step (h ha) w w.left w.seg
      rw [← he] at hs
      exact writeStep_balanced hs rfl
  · obtain ⟨hr', hw'⟩ := scanFrom_reader h hr now
    rw [← he] at hr' hw'
    exact ⟨hr', fun _ s => hw' s⟩
  · have hst := seekReturn_reader h hr.1 hr.2 (fun ha => hpos ha need (beq_self_eq_true need)) now
    rw [← he] at hst
    exact hst
  · have hst := readWake_reader h hr.1 hr.2 (fun ha => hpos ha need (beq_self_eq_true need))
      expired now
    rw [← he] at hst
    exact hst

/-- The waiter counters of the active session count the parked readers. -/
structure ReaderInv (p : Pool Live Thread) : Prop extends SessionInv p where
  referenced : Referenced p
  readers : ∀ t ∈ p.threads, ReaderAlive p.shared t
  waiters : p.shared.active = true → ∀ s < p.shared.nsegs,
    p.shared.waiters s = p.threads.countP (Thread.parkedOn s)

theorem start_readerInv (seekFn : Bool) (n : Nat) : ReaderInv (start seekFn n) where
  toSessionInv := start_sessionInv seekFn n
  referenced := by
    intro t ht hr
    rw [List.eq_of_mem_replicate ht] at hr
    cases hr
  readers := by
    intro t ht
    rw [List.eq_of_mem_replicate ht]
    trivial
  waiters := nofun

theorem ReaderInv.waiters_pos {p : Pool Live Thread} (h : ReaderInv p) {t : Thread}
    (ht : t ∈ p.threads) (ha : p.shared.active = true) (s : Nat) (hp : t.parkedOn s = true) :
    0 < p.shared.waiters s := by
  have hs : s < p.shared.nsegs := by
    have hr := h.readers t ht
    cases t with
    | seeking r need =>
      have hn : need = s := beq_iff_eq.mp hp
      exact hn ▸ hr.2 ha
    | waiting r need =>
      have hn : need = s := beq_iff_eq.mp hp
      exact hn ▸ hr.2 ha
    | _ => cases hp
  rw [h.waiters ha s hs]
  exact List.countP_pos_iff.mpr ⟨t, ht, hp⟩

theorem readerInv_step {p q : Pool Live Thread} {i : Nat} {e : Event} (h : ReaderInv p)
    (hg : AttachDiscipline p i e) (hs : live.step p i e = some q) : ReaderInv q := by
  obtain ⟨hq, hc⟩ := sessionInv_step h.toSessionInv hs
  have href := referenced_step h.toSessionInv h.referenced hg hs
  obtain ⟨t, lv', t', ht, hturn, rfl⟩ := live_step hs
  have hm := List.mem_of_getElem? ht
  obtain ⟨hr, hb⟩ := turn_reader h.session (h.writers t hm) (h.readers t hm)
    (h.waiters_pos hm) hturn
  obtain hk | ⟨c, rfl, ha, hrefs, rfl⟩ := change_keeps hc
  · refine ⟨hq, href, ?_, fun ha' s hs' => ?_⟩
    · exact threads_step ht h.readers hr (fun u _ hu => ReaderAlive.keeps hu hk) (by simp)
    · have ha := hk.active ha'
      have hold := h.waiters ha s (hk.nsegs ha' ▸ hs')
      have hbal := hb ha s
      have hcount := countP_step (Thread.parkedOn s) t' [] ht
      simp only [List.countP_nil] at hcount
      unfold parked at hbal
      show lv'.waiters s = (p.threads.set i t' ++ []).countP (Thread.parkedOn s)
      omega
  · have hnone : ∀ u ∈ p.threads.set i t' ++ [], u.reading = false := by
      intro u hu
      by_contra hur
      have hpos := href u hu (by simpa using hur)
      exact Nat.lt_irrefl 0 hpos
    refine ⟨hq, href, fun u hu => readerAlive_of_not_reading (hnone u hu), fun _ s _ => ?_⟩
    have hzero : (p.threads.set i t' ++ []).countP (Thread.parkedOn s) = 0 := by
      rw [List.countP_eq_zero]
      intro u hu
      rw [parkedOn_of_not_reading (hnone u hu)]
      exact Bool.false_ne_true
    exact hzero.symm

theorem readerInv_reach {seekFn : Bool} {n : Nat} {p : Pool Live Thread}
    (h : live.Reach AttachDiscipline (start seekFn n) p) : ReaderInv p :=
  h.invariant ReaderInv (start_readerInv seekFn n) fun _ _ _ _ hp hg hs => readerInv_step hp hg hs

end PkgManager.LiveReaders
