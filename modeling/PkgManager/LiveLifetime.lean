import PkgManager.LiveSound

namespace PkgManager.LiveLifetime

open Interleaving Memory LiveSession LiveCalls LiveThreads LiveSound

/-! Which critical sections index an array of `g_lv`. -/

/-- `store_seg_locked` gets past its checks to `g_lv.present[seg]`. -/
def storeIndexes (lv : Live) (seg offset len : Nat) : Bool :=
  let sStart := seg * SEG
  let sLen := segLenLocked lv seg
  let lastEnd := u64 (offset + len)
  let wStart := if sStart < offset then offset else sStart
  let wEnd := if lastEnd < sStart + sLen then lastEnd else sStart + sLen
  !(wEnd ≤ wStart) && wEnd - wStart == sLen

def tryWriteIndexes (data : Bytes) (offset len : Nat) : Nat → Nat → Live → Bool
  | 0, _, _ => false
  | n + 1, s, lv =>
    storeIndexes lv s offset len ||
      ((storeSegLocked lv s data offset len).2 == 1 &&
        tryWriteIndexes data offset len n (s + 1) (storeSegLocked lv s data offset len).1)

def writeIndexes (w : WriteCall) : Nat → Nat → Live → Bool
  | 0, _, _ => false
  | n + 1, s, lv =>
    !lv.aborted &&
      (storeIndexes lv s w.offset w.len ||
        ((storeSegLocked lv s w.data w.offset w.len).2 == 1 &&
          writeIndexes w n (s + 1) (storeSegLocked lv s w.data w.offset w.len).1))

/-- One turn of the read loop: the scan for a missing segment, the copy, or
the bookkeeping before the wait. -/
def readIndexes (lv : Live) (r : ReadCall) : Bool :=
  let stop := r.off + (r.count - r.got)
  let miss := firstMissing lv stop (stop - r.off) r.off
  !lv.aborted &&
    ((decide (r.off < stop) && decide (r.off / SEG < lv.nsegs)) ||
      if stop ≤ miss then decide (r.got < r.count) && decide (r.off / SEG < lv.nsegs)
      else decide (miss / SEG < lv.nsegs))

/-- A call in its first critical section. -/
def callIndexes (lv : Live) : Event → Bool
  | .tryWrite offset data len =>
    (writeRefused lv offset len).isNone &&
      tryWriteIndexes data offset len (lastSeg offset len + 1 - firstSeg offset)
        (firstSeg offset) lv
  | .write offset data len =>
    let n := lastSeg offset len + 1 - firstSeg offset
    (writeRefused lv offset len).isNone &&
      writeIndexes ⟨offset, len, data, firstSeg offset, n⟩ n (firstSeg offset) lv
  | .read off buf count _ =>
    let clamped := if lv.total - off < count then lv.total - off else count
    count != 0 && lv.active && !(lv.total ≤ off) &&
      readIndexes lv ⟨count, off, buf, 0, clamped, off, off + clamped⟩
  | .finish => decide (0 < lv.nsegs)
  | .abort => lv.active && !lv.aborted && !lv.uploadComplete && decide (0 < lv.nsegs)
  | _ => false

/-- What a thread runs for an event indexes an array. A parked writer that goes
on may first report the waiters of every segment. -/
def indexes (lv : Live) : Thread → Event → Bool
  | .writing w, .writeWake expired =>
    !expired && (decide (0 < lv.nsegs) || writeIndexes w w.left w.seg lv)
  | .scan r, .rescan _ => readIndexes lv r
  | .seeking _ need, .seekReturn _ => decide (need < lv.nsegs)
  | .waiting r need, .readWake expired _ =>
    decide (need < lv.nsegs) || (!expired && readIndexes (unpark lv need) r)
  | .writing _, _ => false
  | .scan _, _ => false
  | .seeking _ _, _ => false
  | .waiting _ _, _ => false
  | _, e => callIndexes lv e

/-! The sessions and their owners. -/

/-- What the callers know: how many references they hold, how many sessions
were built (the current one has the number `built`), and the sessions whose
buffers were freed, newest first. -/
structure Ledger where
  held : Nat
  built : Nat
  freed : List Nat

/-- The call runs `free_locked`. -/
def frees (lv : Live) : Event → Bool
  | .destroy => lv.active && lv.refs == 0
  | .detach => lv.refs - 1 == 0 && lv.freePending
  | _ => false

/-- The call builds a session. -/
def builds (lv lv' : Live) : Event → Bool
  | .create _ => !lv.active && lv'.active
  | _ => false

def heldAfter (lv : Live) (held : Nat) : Event → Nat
  | .attach => if (wsLiveAttach lv).2 = 0 then held + 1 else held
  | .detach => held - 1
  | _ => held

def Ledger.after (g : Ledger) (lv lv' : Live) (e : Event) : Ledger where
  held := heldAfter lv g.held e
  built := if builds lv lv' e then g.built + 1 else g.built
  freed := if frees lv e then g.built :: g.freed else g.freed

structure Owned where
  live : Live
  ledger : Ledger

/-- The live session, with a ledger of its sessions that no call reads. -/
def lifetime : Machine Owned Thread Event where
  act e s t := (turn s.live t e).map fun st => (⟨st.1, s.ledger.after s.live st.1 e⟩, st.2, [])

def opening (seekFn : Bool) (n : Nat) : Pool Owned Thread :=
  ⟨⟨Live.init seekFn, ⟨0, 0, []⟩⟩, List.replicate n .idle⟩

/-- Each detach undoes an attach that succeeded. -/
def Matched (p : Pool Owned Thread) (_ : Nat) (e : Event) : Prop :=
  e = .detach → 0 < p.shared.ledger.held

theorem lifetime_step {p q : Pool Owned Thread} {i : Nat} {e : Event}
    (h : lifetime.step p i e = some q) :
    ∃ t lv' t', p.threads[i]? = some t ∧ turn p.shared.live t e = some (lv', t') ∧
      q = ⟨⟨lv', p.shared.ledger.after p.shared.live lv' e⟩, p.threads.set i t' ++ []⟩ := by
  obtain ⟨t, s', t', new, ht, hact, rfl⟩ := step_eq_some h
  obtain ⟨⟨lv₁, t₁⟩, hturn, he⟩ := Option.map_eq_some_iff.mp hact
  cases he
  exact ⟨t, lv₁, t₁, ht, hturn, rfl⟩

/-! What a step does to the life of the session. -/

/-- The fields that say whether the session lives. -/
def lifeOf (lv : Live) : Bool × Nat × Bool × Bool × Nat × Nat :=
  (lv.active, lv.refs, lv.freePending, lv.allocated, lv.total, lv.nsegs)

theorem life_total {lv lv' : Live} (h : lifeOf lv' = lifeOf lv) : lv'.total = lv.total :=
  congrArg (fun l => l.2.2.2.2.1) h

theorem claim_life (lv : Live) (seg slot : Nat) : lifeOf (claim lv seg slot) = lifeOf lv := by
  unfold claim
  split <;> rfl

theorem allocSlot_life (lv : Live) (seg : Nat) : lifeOf (allocSlotLocked lv seg).1 = lifeOf lv := by
  unfold allocSlotLocked
  split
  · rfl
  · cases freeSlot lv with
    | some i => exact claim_life lv seg i
    | none =>
      cases oldestSeg lv seg with
      | none => rfl
      | some old => exact claim_life (evict lv old) seg _

theorem storeSeg_life (lv : Live) (seg : Nat) (data : Bytes) (offset len : Nat) :
    lifeOf (storeSegLocked lv seg data offset len).1 = lifeOf lv := by
  have hal := allocSlot_life lv seg
  unfold storeSegLocked
  simp only
  generalize (if u64 (offset + len) < seg * SEG + segLenLocked lv seg then u64 (offset + len)
    else seg * SEG + segLenLocked lv seg) = wEnd
  generalize (if seg * SEG < offset then offset else seg * SEG) = wStart
  split
  · rfl
  · split
    · rfl
    · cases ha : allocSlotLocked lv seg with
      | mk lv' slot =>
        rw [ha] at hal
        simp only
        split
        · exact hal
        · exact hal

theorem tryWriteLoop_life (data : Bytes) (offset len n s : Nat) (lv : Live) :
    lifeOf (tryWriteLoop data offset len n s lv).1 = lifeOf lv := by
  induction n generalizing s lv with
  | zero => rfl
  | succ n ih =>
    have hst := storeSeg_life lv s data offset len
    rw [tryWriteLoop_succ]
    cases h : storeSegLocked lv s data offset len with
    | mk lv' r =>
      rw [h] at hst
      have hn := (ih (s + 1) lv').trans hst
      split_ifs
      · exact hn
      · exact hst
      · exact hst
      · exact hn

theorem writeLoop_life (w : WriteCall) (n s : Nat) (lv : Live) :
    lifeOf (writeLoop w n s lv).1 = lifeOf lv := by
  induction n generalizing s lv with
  | zero => rfl
  | succ n ih =>
    have hst := storeSeg_life lv s w.data w.offset w.len
    rw [writeLoop_succ]
    cases h : storeSegLocked lv s w.data w.offset w.len with
    | mk lv' r =>
      rw [h] at hst
      have hn := (ih (s + 1) lv').trans hst
      split_ifs
      · rfl
      · exact hn
      · exact hst
      · exact hn
      · exact hst

theorem afterWrite_life (offset : Nat) (data : Bytes) (len : Nat) (lv : Live) (wt : WriteTurn) :
    lifeOf (afterWrite offset data len lv wt).1 = lifeOf lv := by
  cases wt with
  | done r =>
    show lifeOf (accept lv offset data len r) = lifeOf lv
    unfold accept
    split <;> rfl
  | wait w => rfl

theorem tryWrite_life (lv : Live) (offset : Nat) (data : Bytes) (len : Nat) :
    lifeOf (wsLiveTryWrite lv offset data len).1 = lifeOf lv := by
  unfold wsLiveTryWrite
  cases writeRefused lv offset len with
  | some r => rfl
  | none => exact tryWriteLoop_life data offset len _ _ lv

theorem write_life (lv : Live) (offset : Nat) (data : Bytes) (len : Nat) :
    lifeOf (wsLiveWrite lv offset data len).1 = lifeOf lv := by
  unfold wsLiveWrite
  cases writeRefused lv offset len with
  | some r => rfl
  | none => exact writeLoop_life _ _ _ lv

theorem writeWake_life (lv : Live) (w : WriteCall) (expired : Bool) :
    lifeOf (writeWake lv w expired).1 = lifeOf lv := by
  unfold writeWake
  split
  · rfl
  · exact writeLoop_life w w.left w.seg lv

theorem life_of_readFrame {lv lv' : Live} (h : readFrame lv' = readFrame lv) :
    lifeOf lv' = lifeOf lv :=
  (congrArg lifeOf h :)

/-- How a step changes the life of the session. -/
inductive Life (lv : Live) : Event → Live → Prop
  | same {e : Event} {lv' : Live} (h : lifeOf lv' = lifeOf lv) (hd : e ≠ .detach)
      (hat : e = .attach → lv.active = false) (hde : e = .destroy → lv.active = false) :
      Life lv e lv'
  | fresh (c : CreateCall) (ha : lv.active = false) (hr : lv.refs = 0) :
      Life lv (.create c) (freshSession lv c)
  | attached (ha : lv.active = true) : Life lv .attach { lv with refs := lv.refs + 1 }
  | detached : Life lv .detach (wsLiveDetach lv)
  | destroyed (ha : lv.active = true) : Life lv .destroy (wsLiveDestroy lv)

theorem create_life (lv : Live) (c : CreateCall) :
    Life lv (.create c) (wsDirectInitSession lv c).1 := by
  obtain ⟨n, h⟩ | ⟨ha, hr, _, _, h⟩ := create_cases lv c
  · rw [h]
    exact .same rfl nofun nofun nofun
  · rw [h]
    exact .fresh c ha hr

theorem call_life {lv lv' : Live} {t' : Thread} {e : Event} (h : call lv e = some (lv', t')) :
    Life lv e lv' := by
  cases e with
  | create c => cases h; exact create_life lv c
  | setSeekFn on => cases h; exact .same rfl nofun nofun nofun
  | attach =>
    cases h
    unfold wsLiveAttach
    split
    · rename_i ha
      exact .same rfl nofun (fun _ => by simpa using ha) nofun
    · rename_i ha
      exact .attached (by simpa using ha)
  | detach => cases h; exact .detached
  | tryWrite offset data len =>
    obtain rfl := congrArg Prod.fst (Option.some.inj h)
    exact .same ((afterWrite_life _ _ _ _ _).trans (tryWrite_life _ _ _ _)) nofun nofun nofun
  | write offset data len =>
    obtain rfl := congrArg Prod.fst (Option.some.inj h)
    exact .same ((afterWrite_life _ _ _ _ _).trans (write_life _ _ _ _)) nofun nofun nofun
  | read off buf count now =>
    obtain rfl := congrArg Prod.fst (Option.some.inj h)
    exact .same (life_of_readFrame (wsLiveRead_frame _ _ _ _ _)) nofun nofun nofun
  | finish =>
    cases h
    unfold wsLiveFinish
    simp only
    split
    · exact .same rfl nofun nofun nofun
    · exact .same rfl nofun nofun nofun
  | abort =>
    cases h
    unfold wsLiveAbort
    split
    · exact .same rfl nofun nofun nofun
    · exact .same rfl nofun nofun nofun
  | destroy =>
    cases h
    by_cases ha : lv.active = true
    · exact .destroyed ha
    · have he : wsLiveDestroy lv = lv := by
        unfold wsLiveDestroy
        simp [ha]
      rw [he]
      exact .same rfl nofun nofun (fun _ => by simpa using ha)
  | writeWake expired => cases h
  | rescan now => cases h
  | seekReturn now => cases h
  | readWake expired now => cases h

theorem turn_life {lv lv' : Live} {t t' : Thread} {e : Event} (h : turn lv t e = some (lv', t')) :
    Life lv e lv' := by
  obtain ⟨_, hc⟩ | ⟨w, expired, rfl, rfl, he⟩ | ⟨r, rfl, now, rfl, he⟩ |
    ⟨r, need, rfl, now, rfl, he⟩ | ⟨r, need, rfl, expired, now, rfl, he⟩ := turn_cases h
  · exact call_life hc
  · obtain rfl := congrArg Prod.fst he
    exact .same ((afterWrite_life _ _ _ _ _).trans (writeWake_life _ _ _)) nofun nofun nofun
  · obtain rfl := congrArg Prod.fst he
    exact .same (life_of_readFrame (scanFrom_frame _ _ _)) nofun nofun nofun
  · obtain rfl := congrArg Prod.fst he
    exact .same (life_of_readFrame (seekReturn_frame _ _ _ _)) nofun nofun nofun
  · obtain rfl := congrArg Prod.fst he
    exact .same (life_of_readFrame (readWake_frame _ _ _ _ _)) nofun nofun nofun

/-! The buffers of every session. -/

/-- Session `k` was built and its buffers are gone. -/
def Gone (s : Owned) (k : Nat) : Prop :=
  0 < k ∧ k ≤ s.ledger.built ∧ ¬(k = s.ledger.built ∧ s.live.allocated = true)

instance (s : Owned) (k : Nat) : Decidable (Gone s k) :=
  inferInstanceAs (Decidable (0 < k ∧ k ≤ s.ledger.built ∧
    ¬(k = s.ledger.built ∧ s.live.allocated = true)))

theorem gone_congr {lv lv' : Live} {g g' : Ledger} (ha : lv.allocated = lv'.allocated)
    (hb : g.built = g'.built) (k : Nat) : Gone ⟨lv, g⟩ k ↔ Gone ⟨lv', g'⟩ k := by
  simp only [Gone, ha, hb]

/-- The buffers live as long as the session or a reference to it. -/
structure Kept (s : Owned) : Prop where
  refs : s.live.refs = s.ledger.held
  allocated : s.live.allocated = true ↔ s.live.active = true ∨ 0 < s.live.refs
  pending : s.live.freePending = true ↔ s.live.active = false ∧ 0 < s.live.refs
  empty : s.live.active = false → s.live.total = 0 ∧ s.live.nsegs = 0
  built : s.live.allocated = true → 0 < s.ledger.built
  freed : ∀ k, s.ledger.freed.count k = if Gone s k then 1 else 0

theorem opening_kept (seekFn : Bool) (n : Nat) : Kept (opening seekFn n).shared where
  refs := rfl
  allocated := ⟨nofun, nofun⟩
  pending := ⟨nofun, fun h => absurd h.2 (Nat.lt_irrefl 0)⟩
  empty := fun _ => ⟨rfl, rfl⟩
  built := nofun
  freed := by
    intro k
    rw [if_neg (fun h => Nat.lt_irrefl 0 (Nat.lt_of_lt_of_le h.1 h.2.1))]
    rfl

theorem Kept.congr {s s' : Owned} (h : Kept s) (hl : lifeOf s'.live = lifeOf s.live)
    (hg : s'.ledger = s.ledger) : Kept s' := by
  obtain ⟨lv, g⟩ := s
  obtain ⟨lv', g'⟩ := s'
  simp only [lifeOf, Prod.mk.injEq] at hl hg
  obtain ⟨h1, h2, h3, h4, h5, h6⟩ := hl
  subst hg
  refine ⟨?_, ?_, ?_, ?_, ?_, fun k => ?_⟩
  · exact h2.trans h.refs
  · simpa only [h1, h2, h4] using h.allocated
  · simpa only [h1, h2, h3] using h.pending
  · simpa only [h1, h5, h6] using h.empty
  · simpa only [h4] using h.built
  · exact (h.freed k).trans (if_congr (gone_congr h4.symm rfl k) rfl rfl)

theorem same_ledger {lv lv' : Live} (g : Ledger) {e : Event} (h : lifeOf lv' = lifeOf lv)
    (hd : e ≠ .detach) (hat : e = .attach → lv.active = false)
    (hde : e = .destroy → lv.active = false) : g.after lv lv' e = g := by
  have ha : lv'.active = lv.active := congrArg Prod.fst h
  cases e with
  | create c => simp [Ledger.after, heldAfter, builds, frees, ha]
  | attach => simp [Ledger.after, heldAfter, builds, frees, wsLiveAttach, hat rfl]
  | detach => exact absurd rfl hd
  | destroy => simp [Ledger.after, heldAfter, builds, frees, hde rfl]
  | _ => rfl

theorem fresh_kept {lv : Live} {g : Ledger} (hk : Kept ⟨lv, g⟩) (c : CreateCall)
    (ha : lv.active = false) (hr : lv.refs = 0) :
    Kept ⟨freshSession lv c, { g with built := g.built + 1 }⟩ := by
  have hal : ¬lv.allocated = true := by
    intro h
    rcases hk.allocated.mp h with h | h
    · simp [ha] at h
    · exact Nat.lt_irrefl 0 (hr ▸ h)
  refine ⟨?_, ?_, ?_, nofun, fun _ => Nat.succ_pos _, fun k => ?_⟩
  · exact hr.symm.trans hk.refs
  · exact ⟨fun _ => .inl rfl, fun _ => rfl⟩
  · exact ⟨nofun, fun h => absurd h.1 Bool.true_eq_false_eq_False⟩
  · rw [hk.freed k]
    refine if_congr ?_ rfl rfl
    simp only [Gone, freshSession, hal, and_true, and_false, not_false_eq_true, Bool.false_eq_true]
    omega

theorem attached_kept {lv : Live} {g : Ledger} (hk : Kept ⟨lv, g⟩) (ha : lv.active = true) :
    Kept ⟨{ lv with refs := lv.refs + 1 }, { g with held := g.held + 1 }⟩ := by
  have hal : lv.allocated = true := hk.allocated.mpr (.inl ha)
  refine ⟨congrArg (· + 1) hk.refs, ?_, ?_, hk.empty, hk.built, hk.freed⟩
  · exact ⟨fun _ => .inl ha, fun _ => hal⟩
  · have hp : ¬lv.freePending = true := fun h => by simpa [ha] using (hk.pending.mp h).1
    exact ⟨fun h => absurd h hp, fun h => absurd (ha.symm.trans h.1) (by decide)⟩

/-- Freeing the buffers of the current session settles it. -/
theorem freed_once {lv lv' : Live} {g : Ledger} (hk : Kept ⟨lv, g⟩) (hal : lv.allocated = true)
    (hal' : lv'.allocated = false) (held k : Nat) :
    (g.built :: g.freed).count k =
      if Gone ⟨lv', ⟨held, g.built, g.built :: g.freed⟩⟩ k then 1 else 0 := by
  have hpos : 0 < g.built := hk.built hal
  have hold := hk.freed k
  simp only [Gone, hal, hal', and_true, and_false, not_false_eq_true, Bool.false_eq_true] at hold ⊢
  by_cases hkb : k = g.built
  · subst hkb
    rw [if_neg (by simp)] at hold
    rw [List.count_cons_self, hold, if_pos ⟨hpos, Nat.le_refl _⟩]
  · rw [List.count_cons_of_ne (Ne.symm hkb), hold]
    exact if_congr (by simp [hkb]) rfl rfl

theorem detach_life (lv : Live) : lifeOf (wsLiveDetach lv) =
    if frees lv .detach then (lv.active, lv.refs - 1, false, false, lv.total, lv.nsegs)
    else (lv.active, lv.refs - 1, lv.freePending, lv.allocated, lv.total, lv.nsegs) := by
  by_cases hf : lv.refs - 1 = 0 ∧ lv.freePending = true
  · have he : wsLiveDetach lv = freeLocked { lv with refs := lv.refs - 1 } := if_pos hf
    rw [he, if_pos (by simp [frees, hf])]
    rfl
  · have he : wsLiveDetach lv = { lv with refs := lv.refs - 1 } := if_neg hf
    rw [he, if_neg (by simpa [frees] using hf)]
    rfl

theorem detached_kept {lv : Live} {g : Ledger} (hk : Kept ⟨lv, g⟩) (hm : 0 < g.held) :
    Kept ⟨wsLiveDetach lv, g.after lv (wsLiveDetach lv) .detach⟩ := by
  have hpos : 0 < lv.refs := Nat.lt_of_lt_of_eq hm hk.refs.symm
  have hal : lv.allocated = true := hk.allocated.mpr (.inr hpos)
  have hrefs : lv.refs - 1 = g.held - 1 := congrArg (· - 1) hk.refs
  have hpend : lv.freePending = true ↔ lv.active = false ∧ 0 < lv.refs := hk.pending
  have hempty : lv.active = false → lv.total = 0 ∧ lv.nsegs = 0 := hk.empty
  have hl := detach_life lv
  generalize wsLiveDetach lv = lv' at hl
  cases hf : frees lv .detach with
  | true =>
    have hz : lv.refs - 1 = 0 ∧ lv.freePending = true := by simpa [frees] using hf
    have hact := (hpend.mp hz.2).1
    have hg : g.after lv lv' .detach = ⟨g.held - 1, g.built, g.built :: g.freed⟩ := by
      simp [Ledger.after, heldAfter, builds, hf]
    simp only [hf, if_true, lifeOf, Prod.mk.injEq] at hl
    obtain ⟨h1, h2, h3, h4, h5, h6⟩ := hl
    rw [hg]
    refine ⟨h2.trans hrefs, ?_, ?_, ?_, ?_, freed_once hk hal h4 _⟩
    · simp [h1, h2, h4, hact, hz.1]
    · simp [h2, h3, hz.1]
    · simpa [h1, h5, h6] using hempty
    · simp [h4]
  | false =>
    have hz : lv.refs - 1 = 0 → ¬lv.freePending = true := by simpa [frees] using hf
    have hg : g.after lv lv' .detach = { g with held := g.held - 1 } := by
      simp [Ledger.after, heldAfter, builds, hf]
    simp only [hf, Bool.false_eq_true, if_false, lifeOf, Prod.mk.injEq] at hl
    obtain ⟨h1, h2, h3, h4, h5, h6⟩ := hl
    have hlive : lv.active = true ∨ 0 < lv.refs - 1 := by
      by_contra hn
      simp only [not_or, Bool.not_eq_true, Nat.not_lt] at hn
      exact hz (Nat.le_zero.mp hn.2) (hpend.mpr ⟨hn.1, hpos⟩)
    rw [hg]
    refine ⟨h2.trans hrefs, ?_, ?_, ?_, fun _ => hk.built hal, fun k => ?_⟩
    · simpa [h1, h2, h4, hal] using hlive
    · simp only [h1, h2, h3]
      refine hpend.trans ⟨fun h => ⟨h.1, ?_⟩, fun h => ⟨h.1, hpos⟩⟩
      exact hlive.resolve_left (by simp [h.1])
    · simpa [h1, h5, h6] using hempty
    · exact (hk.freed k).trans (if_congr (gone_congr h4.symm rfl k) rfl rfl)

theorem destroy_life {lv : Live} (ha : lv.active = true) : lifeOf (wsLiveDestroy lv) =
    if lv.refs = 0 then (false, lv.refs, false, false, 0, 0)
    else (false, lv.refs, true, lv.allocated, 0, 0) := by
  unfold wsLiveDestroy
  simp only [ha, Bool.not_true, Bool.false_eq_true, if_false]
  split <;> rfl

theorem destroyed_kept {lv : Live} {g : Ledger} (hk : Kept ⟨lv, g⟩) (ha : lv.active = true) :
    Kept ⟨wsLiveDestroy lv, g.after lv (wsLiveDestroy lv) .destroy⟩ := by
  have hal : lv.allocated = true := hk.allocated.mpr (.inl ha)
  have hl := destroy_life ha
  generalize wsLiveDestroy lv = lv' at hl
  by_cases hr : lv.refs = 0
  · have hg : g.after lv lv' .destroy = ⟨g.held, g.built, g.built :: g.freed⟩ := by
      simp [Ledger.after, heldAfter, builds, frees, ha, hr]
    simp only [if_pos hr, lifeOf, Prod.mk.injEq] at hl
    obtain ⟨h1, h2, h3, h4, h5, h6⟩ := hl
    rw [hg]
    refine ⟨h2.trans hk.refs, ?_, ?_, fun _ => ⟨h5, h6⟩, ?_, freed_once hk hal h4 _⟩
    · simp [h1, h2, h4, hr]
    · simp [h2, h3, hr]
    · simp [h4]
  · have hg : g.after lv lv' .destroy = g := by
      simp [Ledger.after, heldAfter, builds, frees, hr]
    simp only [if_neg hr, lifeOf, Prod.mk.injEq] at hl
    obtain ⟨h1, h2, h3, h4, h5, h6⟩ := hl
    rw [hg]
    refine ⟨h2.trans hk.refs, ?_, ?_, fun _ => ⟨h5, h6⟩, fun _ => hk.built hal, fun k => ?_⟩
    · simpa [h1, h2, h4, hal] using Nat.pos_of_ne_zero hr
    · simpa [h1, h2, h3] using Nat.pos_of_ne_zero hr
    · exact (hk.freed k).trans (if_congr (gone_congr h4.symm rfl k) rfl rfl)

theorem life_kept {lv lv' : Live} {g : Ledger} {e : Event} (hk : Kept ⟨lv, g⟩)
    (hm : e = .detach → 0 < g.held) (h : Life lv e lv') : Kept ⟨lv', g.after lv lv' e⟩ := by
  cases h with
  | same h hd hat hde => exact hk.congr h (same_ledger g h hd hat hde)
  | fresh c ha hr =>
    have hg : g.after lv (freshSession lv c) (.create c) = { g with built := g.built + 1 } := by
      simp [Ledger.after, heldAfter, builds, frees, ha, freshSession]
    rw [hg]
    exact fresh_kept hk c ha hr
  | attached ha =>
    have hg : g.after lv { lv with refs := lv.refs + 1 } .attach = { g with held := g.held + 1 } := by
      simp [Ledger.after, heldAfter, builds, frees, wsLiveAttach, ha]
    rw [hg]
    exact attached_kept hk ha
  | detached => exact detached_kept hk (hm rfl)
  | destroyed ha => exact destroyed_kept hk ha

theorem kept_step {p q : Pool Owned Thread} {i : Nat} {e : Event} (h : Kept p.shared)
    (hm : Matched p i e) (hs : lifetime.step p i e = some q) : Kept q.shared := by
  obtain ⟨t, lv', t', _, hturn, rfl⟩ := lifetime_step hs
  exact life_kept h hm (turn_life hturn)

theorem kept_reach {seekFn : Bool} {n : Nat} {p : Pool Owned Thread}
    (h : lifetime.Reach Matched (opening seekFn n) p) : Kept p.shared :=
  h.invariant (fun p => Kept p.shared) (opening_kept seekFn n)
    fun _ _ _ _ hp hg hs => kept_step hp hg hs

/-! Without buffers nothing is indexed. -/

theorem storeIndexes_empty {lv : Live} (h : lv.total = 0) (seg offset len : Nat) :
    storeIndexes lv seg offset len = false := by
  have hlen : segLenLocked lv seg = 0 := by simp [segLenLocked, h]
  unfold storeIndexes
  simp only [hlen, Nat.add_zero]
  split_ifs <;> simp <;> omega

theorem storeSeg_total (lv : Live) (seg : Nat) (data : Bytes) (offset len : Nat) :
    (storeSegLocked lv seg data offset len).1.total = lv.total :=
  life_total (storeSeg_life lv seg data offset len)

theorem tryWriteIndexes_empty {lv : Live} (h : lv.total = 0) (data : Bytes) (offset len n s : Nat) :
    tryWriteIndexes data offset len n s lv = false := by
  induction n generalizing s lv with
  | zero => rfl
  | succ n ih =>
    rw [tryWriteIndexes, storeIndexes_empty h, ih ((storeSeg_total lv s data offset len).trans h)]
    simp

theorem writeIndexes_empty {lv : Live} (h : lv.total = 0) (w : WriteCall) (n s : Nat) :
    writeIndexes w n s lv = false := by
  induction n generalizing s lv with
  | zero => rfl
  | succ n ih =>
    rw [writeIndexes, storeIndexes_empty h, ih ((storeSeg_total lv s w.data w.offset w.len).trans h)]
    simp

theorem readIndexes_empty {lv : Live} (h : lv.nsegs = 0) (r : ReadCall) :
    readIndexes lv r = false := by
  simp [readIndexes, h]

theorem callIndexes_empty {lv : Live} (ht : lv.total = 0) (hn : lv.nsegs = 0) (e : Event) :
    callIndexes lv e = false := by
  cases e with
  | tryWrite offset data len => simp [callIndexes, tryWriteIndexes_empty ht]
  | write offset data len => simp [callIndexes, writeIndexes_empty ht]
  | read off buf count now => simp [callIndexes, readIndexes_empty hn]
  | finish => simp [callIndexes, hn]
  | abort => simp [callIndexes, hn]
  | _ => rfl

theorem indexes_empty {lv : Live} (ht : lv.total = 0) (hn : lv.nsegs = 0) (t : Thread) (e : Event) :
    indexes lv t e = false := by
  unfold indexes
  split
  · simp [hn, writeIndexes_empty ht]
  · exact readIndexes_empty hn _
  · simp [hn]
  · rename_i r need _ _
    have hu : (unpark lv need).nsegs = 0 := (congrArg Live.nsegs (unpark_frame lv need) :).trans hn
    simp [hn, readIndexes_empty hu]
  · rfl
  · rfl
  · rfl
  · rfl
  · exact callIndexes_empty ht hn e

/-- Sessions are freed once each, when nothing uses them any more: session `k`
was freed exactly once unless it is the current one and active or referenced. -/
structure FreedOnce (s : Owned) : Prop where
  once : ∀ k, 0 < k → k ≤ s.ledger.built → s.ledger.freed.count k =
    if k = s.ledger.built ∧ (s.live.active = true ∨ 0 < s.ledger.held) then 0 else 1
  others : ∀ k ∈ s.ledger.freed, 0 < k ∧ k ≤ s.ledger.built

/-- What a step may do with the buffers. -/
structure SafeStep (s s' : Owned) (t : Thread) (e : Event) : Prop where
  freed : frees s.live e = true → s.live.allocated = true ∧
    s'.live.active = false ∧ s'.ledger.held = 0
  indexed : indexes s.live t e = true →
    s.live.allocated = true ∧ s.ledger.built ∉ s.ledger.freed
  built : s'.ledger.built ≠ s.ledger.built → s.ledger.held = 0

theorem Kept.freedOnce {s : Owned} (h : Kept s) : FreedOnce s where
  once := by
    intro k hpos hle
    have hl : s.live.allocated = true ↔ s.live.active = true ∨ 0 < s.ledger.held :=
      h.refs ▸ h.allocated
    rw [h.freed k, ← ite_not]
    refine if_congr ?_ rfl rfl
    simp only [Gone, hpos, hle, true_and, ← hl, not_not]
  others := by
    intro k hk
    have hc : 0 < s.ledger.freed.count k := List.count_pos_iff.mpr hk
    rw [h.freed k] at hc
    by_contra hn
    rw [if_neg fun hg => hn ⟨hg.1, hg.2.1⟩] at hc
    exact Nat.lt_irrefl 0 hc

theorem frees_idle {lv lv' : Live} {g : Ledger} {e : Event} (hk : Kept ⟨lv, g⟩)
    (hm : e = .detach → 0 < g.held) (h : Life lv e lv') (hf : frees lv e = true) :
    lv.allocated = true ∧ lv'.active = false ∧ (g.after lv lv' e).held = 0 := by
  have href : lv.refs = g.held := hk.refs
  cases h with
  | same h hd hat hde =>
    cases e with
    | detach => exact absurd rfl hd
    | destroy => simp [frees, hde rfl] at hf
    | _ => cases hf
  | fresh => cases hf
  | attached => cases hf
  | detached =>
    have hz : lv.refs - 1 = 0 ∧ lv.freePending = true := by simpa [frees] using hf
    have hl := detach_life lv
    rw [if_pos hf] at hl
    refine ⟨hk.allocated.mpr (.inr (Nat.lt_of_lt_of_eq (hm rfl) href.symm)), ?_, ?_⟩
    · exact (congrArg Prod.fst hl).trans (hk.pending.mp hz.2).1
    · show g.held - 1 = 0
      rw [← href]
      exact hz.1
  | destroyed ha =>
    have hz : lv.active = true ∧ lv.refs = 0 := by simpa [frees] using hf
    exact ⟨hk.allocated.mpr (.inl ha), (destroy_inactive lv ha).1, href.symm.trans hz.2⟩

theorem builds_unheld {lv lv' : Live} {g : Ledger} {e : Event} (hk : Kept ⟨lv, g⟩)
    (h : Life lv e lv') (hb : builds lv lv' e = true) : g.held = 0 := by
  cases h with
  | same h =>
    have ha : lv'.active = lv.active := congrArg Prod.fst h
    cases e with
    | create c => simp [builds, ha] at hb
    | _ => cases hb
  | fresh c ha hr => exact hk.refs.symm.trans hr
  | attached => cases hb
  | detached => cases hb
  | destroyed => cases hb

theorem indexes_allocated {lv : Live} {g : Ledger} {t : Thread} {e : Event} (hk : Kept ⟨lv, g⟩)
    (h : indexes lv t e = true) : lv.allocated = true ∧ g.built ∉ g.freed := by
  have hal : lv.allocated = true := by
    by_contra hn
    have hact : lv.active = false := by
      by_contra ha
      exact hn (hk.allocated.mpr (.inl (by simpa using ha)))
    obtain ⟨ht, hs⟩ := hk.empty hact
    rw [indexes_empty ht hs] at h
    cases h
  refine ⟨hal, fun hmem => ?_⟩
  have hc := hk.freed g.built
  rw [if_neg fun hg => hg.2.2 ⟨rfl, hal⟩] at hc
  exact List.count_eq_zero.mp hc hmem

theorem safe_step {p q : Pool Owned Thread} {i : Nat} {e : Event} {t : Thread}
    (hk : Kept p.shared) (hm : Matched p i e) (ht : p.threads[i]? = some t)
    (hs : lifetime.step p i e = some q) : SafeStep p.shared q.shared t e := by
  obtain ⟨t₁, lv', t', ht₁, hturn, rfl⟩ := lifetime_step hs
  obtain rfl : t₁ = t := Option.some.inj (ht₁.symm.trans ht)
  have hl := turn_life hturn
  refine ⟨frees_idle hk hm hl, indexes_allocated hk, fun hb => builds_unheld hk hl ?_⟩
  by_contra hn
  exact hb (if_neg hn)

/-- Whatever the threads do, as long as each detach undoes an attach: the
buffers of every session are freed exactly once, when it is inactive and no
reference is left, nothing is indexed after that, and no session is built over
a reference to the one before. -/
theorem buffers_freed_once {seekFn : Bool} {n : Nat} {p : Pool Owned Thread}
    (h : lifetime.Reach Matched (opening seekFn n) p) :
    FreedOnce p.shared ∧ ∀ i e t q, Matched p i e → p.threads[i]? = some t →
      lifetime.step p i e = some q → SafeStep p.shared q.shared t e := by
  have hk := kept_reach h
  exact ⟨hk.freedOnce, fun i e t q hm ht hs => safe_step hk hm ht hs⟩

instance (p : Pool Owned Thread) (i : Nat) : (e : Event) → Decidable (Matched p i e)
  | .detach => decidable_of_iff (0 < p.shared.ledger.held) ⟨fun h _ => h, fun h => h rfl⟩
  | .create _ => isTrue nofun
  | .setSeekFn _ => isTrue nofun
  | .attach => isTrue nofun
  | .tryWrite _ _ _ => isTrue nofun
  | .write _ _ _ => isTrue nofun
  | .writeWake _ => isTrue nofun
  | .read _ _ _ _ => isTrue nofun
  | .rescan _ => isTrue nofun
  | .seekReturn _ => isTrue nofun
  | .readWake _ _ => isTrue nofun
  | .finish => isTrue nofun
  | .abort => isTrue nofun
  | .destroy => isTrue nofun

/-- The session is destroyed under a parked reader and freed by its detach; the
next one is built after that. -/
theorem buffers_freed_once_deferred :
    ∃ p, lifetime.Reach Matched (opening false 2) p ∧ p.shared.ledger.built = 2 ∧
      p.shared.ledger.freed.count 1 = 1 ∧ p.shared.ledger.freed.count 2 = 0 := by
  have hv : ((lifetime.exec Matched [(0, .create sixSegments), (1, .attach),
      (1, .read 0 (fun _ => 0) 10 0), (0, .destroy), (0, .create sixSegments),
      (1, .readWake false 0), (1, .detach), (0, .create sixSegments)] (opening false 2)).map fun p =>
        (p.shared.ledger.built, p.shared.live.active)) = some (2, true) := by
    rfl
  obtain ⟨p, hp, hv⟩ := Option.map_eq_some_iff.mp hv
  simp only [Prod.mk.injEq] at hv
  have hr : lifetime.Reach Matched (opening false 2) p := .of_exec hp
  have hf := (buffers_freed_once hr).1
  have h1 := hf.once 1 (by decide) (by omega)
  have h2 := hf.once 2 (by decide) (by omega)
  rw [if_neg (by omega)] at h1
  rw [if_pos ⟨hv.1.symm, .inl hv.2⟩] at h2
  exact ⟨p, hr, hv.1, h1, h2⟩

end PkgManager.LiveLifetime
