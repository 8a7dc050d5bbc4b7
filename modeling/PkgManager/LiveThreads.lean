import PkgManager.Interleaving
import PkgManager.LiveReads

namespace PkgManager.LiveThreads

open Interleaving Memory LiveSession LiveCalls LiveSlots LiveReads

/-- Where a thread stands between two critical sections. A thread that is idle
or has returned may start any call. -/
inductive Thread where
  | idle
  | done (n : Int)
  | returned (r : ReadCall) (n : Int)
  | writing (w : WriteCall)
  | scan (r : ReadCall)
  | seeking (r : ReadCall) (need : Nat)
  | waiting (r : ReadCall) (need : Nat)

/-- The thread is inside `ws_live_read`. -/
def Thread.reading : Thread → Bool
  | .scan _ => true
  | .seeking _ _ => true
  | .waiting _ _ => true
  | _ => false

/-- The thread is parked on segment `s`, in the seek callback or on the condition. -/
def Thread.parkedOn (s : Nat) : Thread → Bool
  | .seeking _ need => need == s
  | .waiting _ need => need == s
  | _ => false

inductive Event where
  | create (c : CreateCall)
  | setSeekFn (on : Bool)
  | attach
  | detach
  | tryWrite (offset : Nat) (data : Bytes) (len : Nat)
  | write (offset : Nat) (data : Bytes) (len : Nat)
  | writeWake (expired : Bool)
  | read (off : Nat) (buf : Bytes) (count now : Nat)
  | rescan (now : Nat)
  | seekReturn (now : Nat)
  | readWake (expired : Bool) (now : Nat)
  | finish
  | abort
  | destroy

def afterTurn : ReadTurn → Thread
  | .ret r n => .returned r n
  | .again r => .scan r
  | .seek r need => .seeking r need
  | .wait r need => .waiting r need

def scanFrom (lv : Live) (r : ReadCall) (now : Nat) : Live × Thread :=
  ((readTurn lv r now).1, afterTurn (readTurn lv r now).2)

def wsLiveRead (lv : Live) (off : Nat) (buf : Bytes) (count now : Nat) : Live × Thread :=
  let r : ReadCall := ⟨count, off, buf, 0, count, off, off + count⟩
  if count = 0 then (lv, .returned r 0)
  else if !lv.active then (lv, .returned r (-1))
  else if lv.total ≤ off then (lv, .returned r 0)
  else
    let clamped := if lv.total - off < count then lv.total - off else count
    scanFrom lv { r with count := clamped, servedEnd := off + clamped } now

/-- `ws_live_read` after the seek function returned and the lock is held again. -/
def seekReturn (lv : Live) (r : ReadCall) (need now : Nat) : Live × Thread :=
  if !lv.active ∨ lv.aborted then (unpark lv need, .returned r (-1))
  else if need < lv.nsegs ∧ lv.present need then scanFrom (unpark lv need) r now
  else (lv, .waiting r need)

def readWake (lv : Live) (r : ReadCall) (need : Nat) (expired : Bool) (now : Nat) : Live × Thread :=
  if expired then (unpark lv need, .returned r (-1)) else scanFrom (unpark lv need) r now

/-- Record a write that was answered with 0. -/
def accept (lv : Live) (offset : Nat) (data : Bytes) (len : Nat) (r : Int) : Live :=
  if r = 0 then
    { lv with history := { lv.history with accepted := ⟨offset, len, data⟩ :: lv.history.accepted } }
  else lv

def afterWrite (offset : Nat) (data : Bytes) (len : Nat) (lv : Live) : WriteTurn → Live × Thread
  | .done r => (accept lv offset data len r, .done r)
  | .wait w => (lv, .writing w)

/-- A thread that is in no call starts one. -/
def call (lv : Live) : Event → Option (Live × Thread)
  | .create c => some ((wsDirectInitSession lv c).1, .done (wsDirectInitSession lv c).2)
  | .setSeekFn on => some ({ lv with seekFn := on }, .done 0)
  | .attach => some ((wsLiveAttach lv).1, .done (wsLiveAttach lv).2)
  | .detach => some (wsLiveDetach lv, .done 0)
  | .tryWrite offset data len =>
    some (afterWrite offset data len (wsLiveTryWrite lv offset data len).1
      (.done (wsLiveTryWrite lv offset data len).2))
  | .write offset data len =>
    some (afterWrite offset data len (wsLiveWrite lv offset data len).1
      (wsLiveWrite lv offset data len).2)
  | .read off buf count now => some (wsLiveRead lv off buf count now)
  | .finish => some ((wsLiveFinish lv).1, .done (wsLiveFinish lv).2)
  | .abort => some (wsLiveAbort lv, .done 0)
  | .destroy => some (wsLiveDestroy lv, .done 0)
  | .writeWake _ => none
  | .rescan _ => none
  | .seekReturn _ => none
  | .readWake _ _ => none

def turn (lv : Live) : Thread → Event → Option (Live × Thread)
  | .idle, e => call lv e
  | .done _, e => call lv e
  | .returned _ _, e => call lv e
  | .writing w, .writeWake expired =>
    some (afterWrite w.offset w.data w.len (writeWake lv w expired).1 (writeWake lv w expired).2)
  | .scan r, .rescan now => some (scanFrom lv r now)
  | .seeking r need, .seekReturn now => some (seekReturn lv r need now)
  | .waiting r need, .readWake expired now => some (readWake lv r need expired now)
  | _, _ => none

/-- The live session under any number of threads: an event is one critical
section of `g_lv.mu`. -/
def live : Machine Live Thread Event where
  act e lv t := (turn lv t e).map fun st => (st.1, st.2, [])

def start (seekFn : Bool) (n : Nat) : Pool Live Thread :=
  ⟨Live.init seekFn, List.replicate n .idle⟩

/-- Each reader holds a reference from before its read to after it: a read
starts only while one is held, and the last one is not dropped under a reader. -/
def AttachDiscipline (p : Pool Live Thread) (_ : Nat) : Event → Prop
  | .read _ _ _ _ => 0 < p.shared.refs
  | .detach => p.shared.refs ≤ 1 → ∀ t ∈ p.threads, t.reading = false
  | _ => True

instance (p : Pool Live Thread) (i : Nat) : (e : Event) → Decidable (AttachDiscipline p i e)
  | .read _ _ _ _ => inferInstanceAs (Decidable (0 < p.shared.refs))
  | .detach =>
    inferInstanceAs (Decidable (p.shared.refs ≤ 1 → ∀ t ∈ p.threads, t.reading = false))
  | .create _ => isTrue trivial
  | .setSeekFn _ => isTrue trivial
  | .attach => isTrue trivial
  | .tryWrite _ _ _ => isTrue trivial
  | .write _ _ _ => isTrue trivial
  | .writeWake _ => isTrue trivial
  | .rescan _ => isTrue trivial
  | .seekReturn _ => isTrue trivial
  | .readWake _ _ => isTrue trivial
  | .finish => isTrue trivial
  | .abort => isTrue trivial
  | .destroy => isTrue trivial

/-- The ways a step of a thread comes about. -/
theorem turn_cases {lv lv' : Live} {t t' : Thread} {e : Event} (h : turn lv t e = some (lv', t')) :
    (t.reading = false ∧ call lv e = some (lv', t')) ∨
      (∃ w expired, t = .writing w ∧ e = .writeWake expired ∧
        (lv', t') = afterWrite w.offset w.data w.len (writeWake lv w expired).1
          (writeWake lv w expired).2) ∨
      (∃ r, t = .scan r ∧ ∃ now, e = .rescan now ∧ (lv', t') = scanFrom lv r now) ∨
      (∃ r need, t = .seeking r need ∧ ∃ now, e = .seekReturn now ∧
        (lv', t') = seekReturn lv r need now) ∨
      (∃ r need, t = .waiting r need ∧ ∃ expired now, e = .readWake expired now ∧
        (lv', t') = readWake lv r need expired now) := by
  unfold turn at h
  split at h
  · exact .inl ⟨rfl, h⟩
  · exact .inl ⟨rfl, h⟩
  · exact .inl ⟨rfl, h⟩
  · exact .inr (.inl ⟨_, _, rfl, rfl, (Option.some.inj h).symm⟩)
  · exact .inr (.inr (.inl ⟨_, rfl, _, rfl, (Option.some.inj h).symm⟩))
  · exact .inr (.inr (.inr (.inl ⟨_, _, rfl, _, rfl, (Option.some.inj h).symm⟩)))
  · exact .inr (.inr (.inr (.inr ⟨_, _, rfl, _, _, rfl, (Option.some.inj h).symm⟩)))
  · cases h

theorem live_step {p q : Pool Live Thread} {i : Nat} {e : Event} (h : live.step p i e = some q) :
    ∃ t lv' t', p.threads[i]? = some t ∧ turn p.shared t e = some (lv', t') ∧
      q = ⟨lv', p.threads.set i t' ++ []⟩ := by
  obtain ⟨t, lv', t', new, ht, hact, rfl⟩ := step_eq_some h
  obtain ⟨⟨lv₁, t₁⟩, hturn, he⟩ := Option.map_eq_some_iff.mp hact
  obtain ⟨rfl, rfl, rfl⟩ : lv₁ = lv' ∧ t₁ = t' ∧ [] = new := by simpa using he
  exact ⟨t, lv₁, t₁, ht, hturn, rfl⟩

end PkgManager.LiveThreads
