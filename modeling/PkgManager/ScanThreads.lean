import PkgManager.BlurhashUpdates
import PkgManager.FullScan

namespace PkgManager.ScanThreads

open Interleaving Machine CText ScannerState QuickScan FullScan
open PkgMetadata (Text)
open BlurhashUpdates (Job setBlurhash)

/-! The threads that ask for scans, and the scan that was admitted. -/

/-- A scan that was admitted. -/
inductive Pass where
  | full (j : FullJob)
  | quick (jobs : List Job)

/-- What an admitted scan has still to do. -/
inductive Work where
  | full (todo : List Step) (r : Regs)
  | quick (todo : List Job) (changed : Bool)
  | parsing (scan : Scan) (parse : Parser) (todo : List Job)
  | leaving

/-- `g_scan_active`, `g_scan_status` and what they guard. `passes` is history: the scans that
were admitted. `overrun` tells of a write behind the end of `g_packages`. -/
structure Scanner where
  active : Bool
  status : Status
  catalog : Catalog
  passes : List Pass
  overrun : Bool

/-- `scan_claim`, where no scan is active. -/
def Scanner.claim (s : Scanner) (currentDrive : Text) : Scanner :=
  { s with active := true, status := ⟨true, 0, 0, 0, .of 64 currentDrive, .of 256 []⟩ }

/-- `scan_release`. -/
def Scanner.release (s : Scanner) : Scanner :=
  { s with active := false, status := { s.status with isScanning := false } }

def Scanner.enlist (s : Scanner) (p : Pass) : Scanner := { s with passes := s.passes ++ [p] }

def Pass.work : Pass → Work
  | .full j => .full (fullSteps j) ⟨0, 0, none⟩
  | .quick jobs => .quick jobs false

/-- The catalog behind the next piece of the work; none where only the release is left. -/
def Work.step (c : Catalog) : Work → Option (Catalog × Work)
  | .full (k :: todo) r => some ((k.catalog c r).1, .full todo (k.catalog c r).2)
  | .full [] _ => none
  | .quick (.source src media parse :: todo) changed =>
    match beginScan c.library src media with
    | (library, .returned ch) => some ({ c with library }, .quick todo (changed || ch))
    | (library, .parsing scan) => some ({ c with library }, .parsing scan parse todo)
  | .quick (.browseOnly share sourcePath :: todo) changed =>
    let hidden := hideShare c.library share sourcePath
    some ({ c with library := hidden.1 }, .quick todo (changed || hidden.2))
  | .quick [] changed =>
    some (if changed then ⟨c.library.sorted, some c.library.sorted⟩ else c, .leaving)
  | .parsing scan parse todo =>
    some ({ c with library := commitScan c.library scan parse }, .quick todo true)
  | .leaving => none

def Work.status (st : Status) : Work → Status
  | .full (k :: _) _ => k.status st
  | _ => st

def Work.overruns (c : Catalog) : Work → Bool
  | .full (k :: _) r => k.overruns c r
  | _ => false

inductive Thread where
  | free
  | creating (j : FullJob)
  | working (w : Work)
  | counting
  | returned (n : Int)
  | told (st : Status)

/-- Where a scan is behind its release: the quick one asks for the count. -/
def Work.left : Work → Thread
  | .full _ r => .returned r.count
  | _ => .counting

inductive Event where
  | scan (j : FullJob)
  | startScan (j : FullJob)
  | created (ok : Bool)
  | scanQuick (jobs : List Job)
  | setBlurhash (path blurhash : Text)
  | getStatus
  | go

/-- The calls of the other parts of the program. -/
def ask (s : Scanner) : Event → Option (Scanner × Thread × List Thread)
  | .scan j =>
    if s.active then some (s, .counting, [])
    else
      some ((s.claim (ascii "Counting packages...")).enlist (.full j), .working (Pass.full j).work, [])
  | .startScan j =>
    if s.active then some (s, .returned 0, [])
    else some (s.claim (ascii "Counting packages..."), .creating j, [])
  | .scanQuick jobs =>
    if s.active then some (s, .counting, [])
    else
      some ((s.claim (ascii "Checking for changed packages...")).enlist (.quick jobs),
        .working (Pass.quick jobs).work, [])
  | .setBlurhash path blurhash =>
    match setBlurhash s.catalog.library path blurhash with
    | some library => some ({ s with catalog := { s.catalog with library } }, .returned 0, [])
    | none => some (s, .returned (-1), [])
  | .getStatus => some (s, .told s.status, [])
  | _ => none

/-- A piece of an admitted scan, or its release. -/
def workOn (s : Scanner) (w : Work) : Scanner × Thread × List Thread :=
  match w.step s.catalog with
  | some (c, w') =>
    ({ s with
        status := w.status s.status
        catalog := c
        overrun := s.overrun || w.overruns s.catalog }, .working w', [])
  | none => (s.release, w.left, [])

/-- What a thread does between taking a lock and giving it up. -/
def turn (s : Scanner) (t : Thread) (e : Event) : Option (Scanner × Thread × List Thread) :=
  match t, e with
  | .free, e => ask s e
  | .creating j, .created true =>
    some (s.enlist (.full j), .returned 1, [.working (Pass.full j).work])
  | .creating _, .created false => some (s.release, .returned (-1), [])
  | .working w, .go => some (workOn s w)
  | .counting, .go => some (s, .returned s.catalog.library.packages.length, [])
  | _, _ => none

def scanner : Machine Scanner Thread Event where
  act e s t := turn s t e

def idleStatus : Status := ⟨false, 0, 0, 0, .of 64 [], .of 256 []⟩

/-- `n` threads at a scanner with this library. -/
def start (catalog : Catalog) (n : Nat) : Pool Scanner Thread :=
  ⟨⟨false, idleStatus, catalog, [], false⟩, List.replicate n .free⟩

/-! What a turn does. -/

/-- The thread was admitted, and has not released the scanner. -/
def Thread.owns : Thread → Bool
  | .creating _ => true
  | .working _ => true
  | _ => false

/-- The status a call has returned. -/
def Thread.answer : Thread → Option Status
  | .told st => some st
  | _ => none

def Event.job : Event → Option FullJob
  | .scan j => some j
  | .startScan j => some j
  | _ => none

def Pass.job : Pass → Option FullJob
  | .full j => some j
  | .quick _ => none

/-- The turns, where full scans are only asked for with jobs that satisfy `P`. -/
inductive Move (P : FullJob → Prop) (s : Scanner) :
    Thread → Scanner → Thread → List Thread → Prop
  | look {t t' : Thread} (ht : t.owns = false) (ht' : t'.owns = false)
      (htold : t'.answer = none ∨ t'.answer = some s.status) : Move P s t s t' []
  | hash {path blurhash : Text} {library : State}
      (h : setBlurhash s.catalog.library path blurhash = some library) :
      Move P s .free { s with catalog := { s.catalog with library } } (.returned 0) []
  | reserve {j : FullJob} (drive : Text) (hfree : s.active = false) (hj : P j) :
      Move P s .free (s.claim drive) (.creating j) []
  | enter {p : Pass} (drive : Text) (hfree : s.active = false) (hp : ∀ j, p.job = some j → P j) :
      Move P s .free ((s.claim drive).enlist p) (.working p.work) []
  | create (j : FullJob) :
      Move P s (.creating j) (s.enlist (.full j)) (.returned 1) [.working (Pass.full j).work]
  | abandon (j : FullJob) : Move P s (.creating j) s.release (.returned (-1)) []
  | work {w w' : Work} {c : Catalog} (h : w.step s.catalog = some (c, w')) :
      Move P s (.working w)
        { s with
          status := w.status s.status
          catalog := c
          overrun := s.overrun || w.overruns s.catalog } (.working w') []
  | leave {w : Work} (h : w.step s.catalog = none) : Move P s (.working w) s.release w.left []

theorem ask_move {P : FullJob → Prop} {s s' : Scanner} {t' : Thread} {new : List Thread} {e : Event}
    (h : ask s e = some (s', t', new)) (hP : ∀ j, e.job = some j → P j) :
    Move P s .free s' t' new := by
  cases e with
  | scan j =>
    simp only [ask] at h
    cases hactive : s.active with
    | true =>
      rw [if_pos hactive] at h
      cases h
      exact .look rfl rfl (.inl rfl)
    | false =>
      rw [if_neg (Bool.not_eq_true _ ▸ hactive)] at h
      cases h
      exact .enter _ hactive hP
  | startScan j =>
    simp only [ask] at h
    cases hactive : s.active with
    | true =>
      rw [if_pos hactive] at h
      cases h
      exact .look rfl rfl (.inl rfl)
    | false =>
      rw [if_neg (Bool.not_eq_true _ ▸ hactive)] at h
      cases h
      exact .reserve _ hactive (hP j rfl)
  | scanQuick jobs =>
    simp only [ask] at h
    cases hactive : s.active with
    | true =>
      rw [if_pos hactive] at h
      cases h
      exact .look rfl rfl (.inl rfl)
    | false =>
      rw [if_neg (Bool.not_eq_true _ ▸ hactive)] at h
      cases h
      exact .enter _ hactive hP
  | setBlurhash path blurhash =>
    simp only [ask] at h
    cases hset : setBlurhash s.catalog.library path blurhash with
    | none =>
      simp only [hset] at h
      cases h
      exact .look rfl rfl (.inl rfl)
    | some library =>
      simp only [hset] at h
      cases h
      exact .hash hset
  | getStatus =>
    cases h
    exact .look rfl rfl (.inr rfl)
  | created ok => cases h
  | go => cases h

theorem left_owns (w : Work) : w.left.owns = false := by
  cases w <;> rfl

theorem left_answer (w : Work) : w.left.answer = none := by
  cases w <;> rfl

theorem turn_move {P : FullJob → Prop} {s s' : Scanner} {t t' : Thread} {new : List Thread} {e : Event}
    (h : turn s t e = some (s', t', new)) (hP : ∀ j, e.job = some j → P j) :
    Move P s t s' t' new := by
  cases t with
  | free => exact ask_move h hP
  | creating j =>
    cases e with
    | created ok =>
      cases ok with
      | true =>
        cases h
        exact .create j
      | false =>
        cases h
        exact .abandon j
    | _ => cases h
  | working w =>
    cases e with
    | go =>
      have hgo : workOn s w = (s', t', new) := Option.some.inj h
      unfold workOn at hgo
      cases hstep : w.step s.catalog with
      | none =>
        simp only [hstep] at hgo
        cases hgo
        exact .leave hstep
      | some r =>
        simp only [hstep] at hgo
        cases hgo
        exact .work hstep
    | _ => cases h
  | counting =>
    cases e with
    | go =>
      cases h
      exact .look rfl rfl (.inl rfl)
    | _ => cases h
  | returned n => cases h
  | told st => cases h

/-! One scan at most is admitted. -/

/-- The scanner is active as long as one thread, and no other one, has a scan. -/
def Alone (p : Pool Scanner Thread) : Prop :=
  p.threads.countP Thread.owns = if p.shared.active then 1 else 0

variable {P : FullJob → Prop} {p : Pool Scanner Thread} {i : Nat} {t t' : Thread} {s' : Scanner}
  {new : List Thread}

/-- The thread that moves and the new ones account for the claim and the release. -/
theorem alone_step (h : Alone p) (ht : p.threads[i]? = some t)
    (hmove : t'.owns.toNat + new.countP Thread.owns + p.shared.active.toNat =
      s'.active.toNat + t.owns.toNat) : Alone ⟨s', p.threads.set i t' ++ new⟩ := by
  have hone : ∀ b : Bool, (if b = true then 1 else 0) = b.toNat := fun b => by cases b <;> rfl
  have hcount := countP_step Thread.owns t' new ht
  unfold Alone at h ⊢
  rw [h, hone, hone, hone] at hcount
  rw [hone]
  dsimp only
  omega

theorem Alone.free (h : Alone p) (hfree : p.shared.active = false) (ht : t ∈ p.threads) :
    t.owns = false := by
  have hnone : p.threads.countP Thread.owns = 0 := by
    rw [h, hfree]
    rfl
  exact Bool.not_eq_true _ ▸ List.countP_eq_zero.mp hnone t ht

theorem Alone.active (h : Alone p) (ht : t ∈ p.threads) (howns : t.owns = true) :
    p.shared.active = true := by
  by_contra hfree
  have hnot := h.free (Bool.not_eq_true _ ▸ hfree) ht
  rw [howns] at hnot
  exact Bool.noConfusion hnot

theorem Alone.other (h : Alone p) (ht : p.threads[i]? = some t) (howns : t.owns = true) {k : Nat}
    {u : Thread} (hk : p.threads[k]? = some u) (hki : k ≠ i) : u.owns = false := by
  refine only_of_countP ?_ ht howns hk hki
  rw [h]
  split <;> omega

theorem alone_move (h : Alone p) (ht : p.threads[i]? = some t)
    (hmove : Move P p.shared t s' t' new) : Alone ⟨s', p.threads.set i t' ++ new⟩ := by
  have hmem : t ∈ p.threads := List.mem_of_getElem? ht
  cases hmove with
  | look hown hown' _ =>
    refine alone_step h ht ?_
    rw [hown, hown']
    exact Nat.zero_add _
  | hash _ => exact alone_step h ht (Nat.zero_add _)
  | reserve _ hfree _ =>
    refine alone_step h ht ?_
    rw [hfree]
    rfl
  | enter _ hfree _ =>
    refine alone_step h ht ?_
    rw [hfree]
    rfl
  | create j => exact alone_step h ht (Nat.add_comm _ _)
  | abandon j =>
    refine alone_step h ht ?_
    rw [h.active hmem rfl]
    rfl
  | work _ => exact alone_step h ht (Nat.add_comm _ _)
  | leave _ =>
    refine alone_step h ht ?_
    rw [h.active hmem rfl, left_owns]
    rfl

theorem alone_start (catalog : Catalog) (n : Nat) : Alone (start catalog n) :=
  List.countP_replicate

end PkgManager.ScanThreads
