import PkgManager.Interleaving
import PkgManager.StreamResponse

namespace PkgManager.StreamProgress

open Interleaving Machine StreamResponse

/-! The progress of a streamed install. -/

/-- The counters of `g_status`, and the positions of the package that went out. -/
structure Status where
  isInstalling : Bool
  totalBytes : Nat
  downloadedBytes : Nat
  streamServedBytes : Nat
  sent : Finset Nat

/-- `installer_notify_bytes_streamed`. -/
def notifyBytesStreamed (n : Nat) (s : Status) : Status :=
  if s.isInstalling then
    let downloaded := (s.downloadedBytes + n) % 2 ^ 64
    { s with
      downloadedBytes :=
        if 0 < s.totalBytes ∧ s.totalBytes < downloaded then s.totalBytes else downloaded
      streamServedBytes := (s.streamServedBytes + n) % 2 ^ 64 }
  else s

/-- What the monitor takes over of the size the system reports. -/
def adopted (downloadedSize : Nat) (s : Status) : Nat :=
  if s.streamServedBytes < downloadedSize then s.streamServedBytes else downloadedSize

def adopt (downloadedSize : Nat) (s : Status) : Status :=
  if s.downloadedBytes < adopted downloadedSize s then
    { s with downloadedBytes := adopted downloadedSize s }
  else s

def Status.send (s : Status) (off n : Nat) : Status :=
  { s with sent := s.sent ∪ Finset.Ico off (off + n) }

/-- A connection: between two requests, in the body loop, or with a chunk that
was sent and is not counted yet. -/
inductive Conn where
  | idle
  | body (off last : Nat)
  | counting (off last n : Nat)
  | closed

inductive MonitorPc where
  | top
  | polled
  | reported
  | exited

/-- The monitor loop of `stream_installer_worker` with its copies of the counters. -/
structure Monitor where
  pc : MonitorPc
  down : Nat
  total : Nat
  streamDone : Bool

inductive Thread where
  | listener
  | user
  | conn (c : Conn)
  | monitor (m : Monitor)

inductive Event where
  | accept
  | cancel
  /-- A GET of the package. -/
  | request (req : Text)
  /-- A chunk is read and sent. -/
  | chunk (n : Nat)
  /-- The send fails behind so many bytes of the chunk. -/
  | cut (n : Nat)
  | count
  | finish (keep : Bool)
  | poll
  /-- The status of the system, with what it says was downloaded. -/
  | report (downloadedSize : Nat)
  | check
  /-- The package is found installed; an update may be queued behind it. -/
  | complete (pending : Bool)
  | leave (failed : Bool)

/-- The body of the answer to a request. -/
def bodyOf (size : Nat) (req : Text) : Conn :=
  match findRange req size with
  | .absent => .body 0 (size - 1)
  | .bytes start last => .body start last
  | .unsatisfiable => .idle

/-- A connection that serves a package of `size` bytes. -/
def connTurn (size : Nat) (s : Status) : Conn → Event → Option (Status × Conn)
  | .idle, .request req => some (s, bodyOf size req)
  | .body off last, .chunk n =>
    if 0 < n ∧ n ≤ min (last + 1 - off) sendChunk ∧ off + n ≤ size then
      some (s.send off n, .counting off last n)
    else none
  | .body off last, .cut n =>
    if n ≤ min (last + 1 - off) sendChunk ∧ off + n ≤ size then some (s.send off n, .closed)
    else none
  | .counting off last n, .count => some (notifyBytesStreamed n s, .body (off + n) last)
  | .body off last, .finish keep => some (s, if last < off ∧ keep then .idle else .closed)
  | _, _ => none

def monitorTurn (s : Status) (m : Monitor) : MonitorPc → Event → Option (Status × Monitor)
  | .top, .poll =>
    if s.isInstalling then
      some (s, { m with pc := .polled, down := s.downloadedBytes, total := s.totalBytes })
    else some (s, { m with pc := .exited })
  | .polled, .report downloadedSize =>
    if m.down < downloadedSize then
      some (adopt downloadedSize s, { m with pc := .reported, down := max m.down (adopted downloadedSize s) })
    else some (s, { m with pc := .reported })
  | .reported, .check =>
    some (s, { m with pc := .top, streamDone := m.streamDone || decide (0 < m.total ∧ m.total ≤ m.down) })
  | .top, .complete pending =>
    if m.streamDone then
      some ({ s with downloadedBytes := s.totalBytes, isInstalling := pending }, { m with pc := .exited })
    else none
  | .exited, _ => none
  | _, .leave failed =>
    some ({ s with isInstalling := s.isInstalling && !failed }, { m with pc := .exited })
  | _, _ => none

def turn (size : Nat) (s : Status) : Thread → Event → Option (Status × Thread × List Thread)
  | .listener, .accept => some (s, .listener, [.conn .idle])
  | .user, .cancel => some ({ s with isInstalling := false }, .user, [])
  | .conn c, e => (connTurn size s c e).map fun r => (r.1, .conn r.2, [])
  | .monitor m, e => (monitorTurn s m m.pc e).map fun r => (r.1, .monitor r.2, [])
  | _, _ => none

def streaming (size : Nat) : Machine Status Thread Event where
  act e s t := turn size s t e

/-- The start of an install whose size is taken to be `total`. -/
def start (total : Nat) : Pool Status Thread :=
  ⟨⟨true, total, 0, 0, ∅⟩, [.listener, .user, .monitor ⟨.top, 0, total, false⟩]⟩

/-- Every byte of the package went out. -/
def Delivered (size : Nat) (s : Status) : Prop := ∀ j < size, j ∈ s.sent

instance (size : Nat) (s : Status) : Decidable (Delivered size s) :=
  inferInstanceAs (Decidable (∀ j < size, j ∈ s.sent))

/-- The counter is full, and the monitor takes the stream for done, only where
every byte of the package went out. -/
structure Honest (size : Nat) (p : Pool Status Thread) : Prop where
  full : 0 < p.shared.totalBytes → p.shared.totalBytes ≤ p.shared.downloadedBytes →
    Delivered size p.shared
  done : ∀ m, .monitor m ∈ p.threads → m.streamDone = true → Delivered size p.shared

/-- No byte goes out again as long as others have not gone out at all. -/
def fresh (size : Nat) (p : Pool Status Thread) (i : Nat) (e : Event) : Bool :=
  match p.threads[i]?, e with
  | some (.conn (.body off _)), .chunk n =>
    decide (Disjoint p.shared.sent (Finset.Ico off (off + n)) ∨ Delivered size p.shared)
  | _, _ => true

/-! What a step does to the counters. -/

/-- What a connection has sent and not counted. -/
def Conn.owed : Conn → Nat
  | .counting _ _ n => n
  | _ => 0

def Thread.owed : Thread → Nat
  | .conn c => c.owed
  | _ => 0

/-- The bytes that are counted, or still to be counted, grow by no more than the
positions that went out. -/
structure Accounts (size : Nat) (s s' : Status) (before after : Nat) : Prop where
  total : s'.totalBytes = s.totalBytes
  grows : s.sent ⊆ s'.sent
  inside : s.sent ⊆ Finset.range size → s'.sent ⊆ Finset.range size
  downloaded : s'.downloadedBytes + after + s.sent.card ≤ s.downloadedBytes + before + s'.sent.card
  served : s'.streamServedBytes + after + s.sent.card ≤ s.streamServedBytes + before + s'.sent.card

theorem Accounts.same (size : Nat) (s : Status) (n : Nat) : Accounts size s s n n :=
  ⟨rfl, Finset.Subset.refl _, id, Nat.le_refl _, Nat.le_refl _⟩

theorem send_grows (s : Status) (off n : Nat) : s.sent ⊆ (s.send off n).sent :=
  Finset.subset_union_left

theorem send_inside {size : Nat} {s : Status} {off n : Nat} (hn : off + n ≤ size)
    (h : s.sent ⊆ Finset.range size) : (s.send off n).sent ⊆ Finset.range size := by
  refine Finset.union_subset h fun j hj => ?_
  have hj' := Finset.mem_Ico.mp hj
  exact Finset.mem_range.mpr (by omega)

theorem accounts_chunk {size : Nat} {s : Status} {off n : Nat} (hn : off + n ≤ size)
    (hfresh : Disjoint s.sent (Finset.Ico off (off + n))) : Accounts size s (s.send off n) 0 n := by
  have hcard : (s.send off n).sent.card = s.sent.card + n := by
    show (s.sent ∪ Finset.Ico off (off + n)).card = s.sent.card + n
    rw [Finset.card_union_of_disjoint hfresh, Nat.card_Ico, Nat.add_sub_cancel_left]
  refine ⟨rfl, send_grows s off n, send_inside hn, ?_, ?_⟩
  · show s.downloadedBytes + n + s.sent.card ≤ s.downloadedBytes + 0 + (s.send off n).sent.card
    omega
  · show s.streamServedBytes + n + s.sent.card ≤ s.streamServedBytes + 0 + (s.send off n).sent.card
    omega

theorem accounts_cut {size : Nat} {s : Status} {off n : Nat} (hn : off + n ≤ size) :
    Accounts size s (s.send off n) 0 0 := by
  have hcard := Finset.card_le_card (send_grows s off n)
  refine ⟨rfl, send_grows s off n, send_inside hn, ?_, ?_⟩
  · show s.downloadedBytes + 0 + s.sent.card ≤ s.downloadedBytes + 0 + (s.send off n).sent.card
    omega
  · show s.streamServedBytes + 0 + s.sent.card ≤ s.streamServedBytes + 0 + (s.send off n).sent.card
    omega

theorem accounts_count (size : Nat) (s : Status) (n : Nat) :
    Accounts size s (notifyBytesStreamed n s) n 0 := by
  unfold notifyBytesStreamed
  by_cases hrun : s.isInstalling = true
  · rw [if_pos hrun]
    have hd := Nat.mod_le (s.downloadedBytes + n) (2 ^ 64)
    have hs := Nat.mod_le (s.streamServedBytes + n) (2 ^ 64)
    refine ⟨rfl, Finset.Subset.refl _, id, ?_, ?_⟩
    · dsimp only
      split_ifs <;> omega
    · dsimp only
      omega
  · rw [if_neg hrun]
    exact ⟨rfl, Finset.Subset.refl _, id, by omega, by omega⟩

theorem conn_accounts {size : Nat} {s s' : Status} {c c' : Conn} {e : Event}
    (h : connTurn size s c e = some (s', c'))
    (hfresh : ∀ off last n, c = .body off last → e = .chunk n →
      Disjoint s.sent (Finset.Ico off (off + n))) :
    Accounts size s s' c.owed c'.owed := by
  cases c with
  | idle =>
    cases e with
    | request req =>
      cases h
      have howed : (bodyOf size req).owed = 0 := by
        unfold bodyOf
        split <;> rfl
      rw [howed]
      exact .same size s 0
    | _ => cases h
  | body off last =>
    cases e with
    | chunk n =>
      dsimp only [connTurn] at h
      split_ifs at h with hn
      cases h
      exact accounts_chunk hn.2.2 (hfresh off last n rfl rfl)
    | cut n =>
      dsimp only [connTurn] at h
      split_ifs at h with hn
      cases h
      exact accounts_cut hn.2
    | finish keep =>
      cases h
      split_ifs
      · exact .same size s 0
      · exact .same size s 0
    | _ => cases h
  | counting off last n =>
    cases e with
    | count =>
      cases h
      exact accounts_count size s n
    | _ => cases h
  | closed => cases e <;> cases h

/-- A connection sends and never takes back, and leaves the size alone. -/
theorem conn_grows {size : Nat} {s s' : Status} {c c' : Conn} {e : Event}
    (h : connTurn size s c e = some (s', c')) :
    s.sent ⊆ s'.sent ∧ s'.totalBytes = s.totalBytes ∧
      (s.sent ⊆ Finset.range size → s'.sent ⊆ Finset.range size) := by
  cases c with
  | body off last =>
    cases e with
    | chunk n =>
      dsimp only [connTurn] at h
      split_ifs at h with hn
      cases h
      exact ⟨send_grows s off n, rfl, send_inside hn.2.2⟩
    | _ =>
      have ha := conn_accounts h fun _ _ _ _ hchunk => by cases hchunk
      exact ⟨ha.grows, ha.total, ha.inside⟩
  | _ =>
    have ha := conn_accounts h fun _ _ _ hbody => by cases hbody
    exact ⟨ha.grows, ha.total, ha.inside⟩

theorem adopted_le (d : Nat) (s : Status) : adopted d s ≤ s.streamServedBytes := by
  unfold adopted
  split_ifs <;> omega

theorem adopt_spec (d : Nat) (s : Status) :
    (adopt d s).sent = s.sent ∧ (adopt d s).totalBytes = s.totalBytes ∧
      (adopt d s).streamServedBytes = s.streamServedBytes ∧
      (adopt d s).downloadedBytes ≤ max s.downloadedBytes s.streamServedBytes := by
  unfold adopt
  split_ifs
  · exact ⟨rfl, rfl, rfl, Nat.le_trans (adopted_le d s) (Nat.le_max_right _ _)⟩
  · exact ⟨rfl, rfl, rfl, Nat.le_max_left _ _⟩

theorem monitor_keeps {s s' : Status} {m m' : Monitor} {e : Event}
    (h : monitorTurn s m m.pc e = some (s', m')) : s'.sent = s.sent ∧ s'.totalBytes = s.totalBytes := by
  generalize m.pc = pc at h
  unfold monitorTurn at h
  split at h
  · split_ifs at h <;> cases h <;> exact ⟨rfl, rfl⟩
  · split_ifs at h
    · cases h
      exact ⟨(adopt_spec _ s).1, (adopt_spec _ s).2.1⟩
    · cases h
      exact ⟨rfl, rfl⟩
  · cases h
    exact ⟨rfl, rfl⟩
  · split_ifs at h
    cases h
    exact ⟨rfl, rfl⟩
  · cases h
  · cases h
    exact ⟨rfl, rfl⟩
  · cases h

/-- What the monitor knows while something has not gone out. -/
structure Modest (total : Nat) (s : Status) (m : Monitor) : Prop where
  total : m.total = total
  down : m.down ≤ s.sent.card
  open' : m.streamDone = false

/-- The monitor takes over no more than was counted. -/
theorem monitor_modest {size total : Nat} {s s' : Status} {m m' : Monitor} {e : Event}
    (hsize : size ≤ total) (hcard : s.sent.card < size) (htotal : s.totalBytes = total)
    (hm : Modest total s m) (hdown : s.downloadedBytes ≤ s.sent.card)
    (hserved : s.streamServedBytes ≤ s.sent.card) (h : monitorTurn s m m.pc e = some (s', m')) :
    Modest total s m' ∧ s'.streamServedBytes = s.streamServedBytes ∧
      s'.downloadedBytes ≤ max s.downloadedBytes s.streamServedBytes := by
  have hleave : ∀ failed, some ({ s with isInstalling := s.isInstalling && !failed },
      ({ m with pc := .exited } : Monitor)) = some (s', m') →
      Modest total s m' ∧ s'.streamServedBytes = s.streamServedBytes ∧
        s'.downloadedBytes ≤ max s.downloadedBytes s.streamServedBytes := by
    intro failed h
    cases h
    exact ⟨⟨hm.total, hm.down, hm.open'⟩, rfl, Nat.le_max_left _ _⟩
  generalize m.pc = pc at h
  cases pc with
  | top =>
    cases e with
    | poll =>
      dsimp only [monitorTurn] at h
      split_ifs at h with hrun
      · cases h
        exact ⟨⟨htotal, hdown, hm.open'⟩, rfl, Nat.le_max_left _ _⟩
      · cases h
        exact ⟨⟨hm.total, hm.down, hm.open'⟩, rfl, Nat.le_max_left _ _⟩
    | complete pending =>
      dsimp only [monitorTurn] at h
      rw [hm.open'] at h
      cases h
    | leave failed => exact hleave failed h
    | _ => cases h
  | polled =>
    cases e with
    | report d =>
      dsimp only [monitorTurn] at h
      have hle := adopted_le d s
      split_ifs at h with hd
      · cases h
        obtain ⟨-, -, hserved', hdown'⟩ := adopt_spec d s
        exact ⟨⟨hm.total, Nat.max_le.mpr ⟨hm.down, by omega⟩, hm.open'⟩, hserved', hdown'⟩
      · cases h
        exact ⟨⟨hm.total, hm.down, hm.open'⟩, rfl, Nat.le_max_left _ _⟩
    | leave failed => exact hleave failed h
    | _ => cases h
  | reported =>
    cases e with
    | check =>
      cases h
      have hnot : decide (0 < m.total ∧ m.total ≤ m.down) = false := by
        refine decide_eq_false fun hfull => ?_
        have hle := hm.down
        rw [hm.total] at hfull
        omega
      refine ⟨⟨hm.total, hm.down, ?_⟩, rfl, Nat.le_max_left _ _⟩
      show (m.streamDone || decide (0 < m.total ∧ m.total ≤ m.down)) = false
      rw [hm.open', hnot]
      rfl
    | leave failed => exact hleave failed h
    | _ => cases h
  | exited => cases e <;> cases h

/-! Runs. -/

theorem card_lt {size : Nat} {s : Status} (hinside : s.sent ⊆ Finset.range size)
    (hnot : ¬Delivered size s) : s.sent.card < size := by
  have hproper : s.sent ⊂ Finset.range size := by
    refine hinside.ssubset_of_ne fun hall => hnot fun j hj => ?_
    rw [hall]
    exact Finset.mem_range.mpr hj
  have hcard := Finset.card_lt_card hproper
  rwa [Finset.card_range] at hcard

/-- As long as something has not gone out no more is counted than positions went out. -/
structure Counted (size total : Nat) (p : Pool Status Thread) : Prop where
  inside : p.shared.sent ⊆ Finset.range size
  taken : p.shared.totalBytes = total
  counts : ¬Delivered size p.shared →
    p.shared.downloadedBytes + (p.threads.map Thread.owed).sum ≤ p.shared.sent.card ∧
    p.shared.streamServedBytes + (p.threads.map Thread.owed).sum ≤ p.shared.sent.card ∧
    ∀ m, .monitor m ∈ p.threads → Modest total p.shared m

theorem counted_start (size total : Nat) : Counted size total (start total) := by
  refine ⟨Finset.empty_subset _, rfl, fun _ => ⟨Nat.le_refl _, Nat.le_refl _, fun m hm => ?_⟩⟩
  rcases hm with _ | ⟨_, _ | ⟨_, _ | ⟨_, hm⟩⟩⟩
  · exact ⟨rfl, Nat.le_refl _, rfl⟩
  · cases hm

/-- What every step keeps. -/
theorem turn_keeps {size : Nat} {s s' : Status} {t t' : Thread} {new : List Thread} {e : Event}
    (h : turn size s t e = some (s', t', new)) :
    s.sent ⊆ s'.sent ∧ s'.totalBytes = s.totalBytes ∧
      (s.sent ⊆ Finset.range size → s'.sent ⊆ Finset.range size) := by
  cases t with
  | conn c =>
    obtain ⟨⟨s1, c1⟩, hconn, heq⟩ := Option.map_eq_some_iff.mp h
    cases heq
    exact conn_grows hconn
  | monitor m =>
    obtain ⟨⟨s1, m1⟩, hmonitor, heq⟩ := Option.map_eq_some_iff.mp h
    cases heq
    obtain ⟨hsent, htotal⟩ := monitor_keeps hmonitor
    exact ⟨hsent ▸ Finset.Subset.refl _, htotal, fun hin => hsent ▸ hin⟩
  | listener =>
    cases e with
    | accept =>
      cases h
      exact ⟨Finset.Subset.refl _, rfl, id⟩
    | _ => cases h
  | user =>
    cases e with
    | cancel =>
      cases h
      exact ⟨Finset.Subset.refl _, rfl, id⟩
    | _ => cases h

theorem Modest.mono {total : Nat} {s s' : Status} {m : Monitor} (h : Modest total s m)
    (hgrows : s.sent ⊆ s'.sent) : Modest total s' m :=
  ⟨h.total, Nat.le_trans h.down (Finset.card_le_card hgrows), h.open'⟩

theorem counted_step {size total : Nat} (hsize : size ≤ total) {p q : Pool Status Thread} {i : Nat}
    {e : Event} (hp : Counted size total p) (hfresh : fresh size p i e = true)
    (hs : (streaming size).step p i e = some q) : Counted size total q := by
  obtain ⟨t, s', t', new, ht, hact, rfl⟩ := step_eq_some hs
  have hact' : turn size p.shared t e = some (s', t', new) := hact
  obtain ⟨hgrows, htotal, hinside⟩ := turn_keeps hact'
  refine ⟨hinside hp.inside, htotal.trans hp.taken, fun hnot => ?_⟩
  have hnot' : ¬Delivered size p.shared := fun h => hnot fun j hj => hgrows (h j hj)
  obtain ⟨hdown, hserved, hmodest⟩ := hp.counts hnot'
  have hcard := card_lt hp.inside hnot'
  have hsum := sum_step Thread.owed t' new ht
  have hmem := List.mem_of_getElem? ht
  have hold : ∀ m, Thread.monitor m ∈ p.threads → Modest total s' m := fun m hm =>
    (hmodest m hm).mono hgrows
  show s'.downloadedBytes + ((p.threads.set i t' ++ new).map Thread.owed).sum ≤ s'.sent.card ∧
    s'.streamServedBytes + ((p.threads.set i t' ++ new).map Thread.owed).sum ≤ s'.sent.card ∧
    ∀ m, Thread.monitor m ∈ p.threads.set i t' ++ new → Modest total s' m
  cases t with
  | conn c =>
    obtain ⟨⟨s1, c1⟩, hconn, heq⟩ := Option.map_eq_some_iff.mp hact'
    cases heq
    have ha := conn_accounts hconn fun off last n hbody hchunk => by
      subst hbody hchunk
      unfold fresh at hfresh
      rw [ht] at hfresh
      exact (of_decide_eq_true hfresh).resolve_right hnot'
    have hd := ha.downloaded
    have hsv := ha.served
    dsimp only
    simp only [Thread.owed, List.map_nil, List.sum_nil] at hsum
    refine ⟨by omega, by omega, fun m hm => ?_⟩
    rcases mem_step ht hm with hm | ⟨j, _, hj⟩ | hm
    · cases hm
    · exact hold m (List.mem_of_getElem? hj)
    · cases hm
  | monitor m =>
    obtain ⟨⟨s1, m1⟩, hmonitor, heq⟩ := Option.map_eq_some_iff.mp hact'
    cases heq
    obtain ⟨hsent, -⟩ := monitor_keeps hmonitor
    obtain ⟨hm1, hserved', hdown'⟩ :=
      monitor_modest hsize hcard hp.taken (hmodest m hmem) (by omega) (by omega) hmonitor
    simp only [Thread.owed, List.map_nil, List.sum_nil] at hsum
    dsimp only
    rw [hsent, hserved']
    refine ⟨by omega, by omega, fun m2 hm2 => ?_⟩
    rcases mem_step ht hm2 with hm2 | ⟨j, _, hj⟩ | hm2
    · cases hm2
      exact hm1.mono hgrows
    · exact hold m2 (List.mem_of_getElem? hj)
    · cases hm2
  | listener =>
    cases e with
    | accept =>
      cases hact'
      simp only [Thread.owed, Conn.owed, List.map_cons, List.map_nil, List.sum_cons, List.sum_nil] at hsum
      refine ⟨by omega, by omega, fun m hm => ?_⟩
      rcases mem_step ht hm with hm | ⟨j, _, hj⟩ | hm
      · cases hm
      · exact hold m (List.mem_of_getElem? hj)
      · cases List.mem_singleton.mp hm
    | _ => cases hact'
  | user =>
    cases e with
    | cancel =>
      cases hact'
      simp only [Thread.owed, List.map_nil, List.sum_nil] at hsum
      refine ⟨by simp only; omega, by simp only; omega, fun m hm => ?_⟩
      rcases mem_step ht hm with hm | ⟨j, _, hj⟩ | hm
      · cases hm
      · exact hold m (List.mem_of_getElem? hj)
      · cases hm
    | _ => cases hact'

theorem Counted.honest {size total : Nat} (hsize : size ≤ total) {p : Pool Status Thread}
    (h : Counted size total p) : Honest size p := by
  refine ⟨fun hpos hfull => ?_, fun m hm hdone => ?_⟩
  · by_contra hnot
    have hcard := card_lt h.inside hnot
    have hcount := (h.counts hnot).1
    rw [h.taken] at hfull
    omega
  · by_contra hnot
    rw [((h.counts hnot).2.2 m hm).open'] at hdone
    cases hdone

/-- In a run in which no byte goes out again before all have gone out, the
progress is honest. -/
theorem progress_honest {size total : Nat} (hsize : size ≤ total) {q : Pool Status Thread}
    (h : Reach (streaming size) (fun p i e => fresh size p i e = true) (start total) q) :
    Honest size q :=
  (h.invariant (Counted size total) (counted_start size total) fun _ _ _ _ hp hg hs =>
    counted_step hsize hp hg hs).honest hsize

def halfRequest (half : String) : Text :=
  CText.ascii "GET /stream/a.pkg HTTP/1.1\r\nRange: bytes=" ++ CText.ascii half ++ crlf ++ crlf

/-- A request for two bytes on the first connection. -/
def halfEvents (half : String) : List (Nat × Event) :=
  [(3, .request (halfRequest half)), (3, .chunk 2), (3, .count), (3, .finish true)]

def pollEvents : List (Nat × Event) := [(2, .poll), (2, .report 0), (2, .check)]

/-- Both halves of a package of four bytes. -/
theorem progress_honest_halves : ∃ q,
    Reach (streaming 4) (fun p i e => fresh 4 p i e = true) (start 4) q ∧
      q.shared.downloadedBytes = 4 ∧ Honest 4 q := by
  have hrun : ((streaming 4).exec (fun p i e => fresh 4 p i e = true)
      ((0, .accept) :: (halfEvents "0-1" ++ halfEvents "2-3" ++ pollEvents)) (start 4)).map
        (fun p => p.shared.downloadedBytes) = some 4 := by decide
  obtain ⟨q, hq, hdown⟩ := Option.map_eq_some_iff.mp hrun
  exact ⟨q, .of_exec hq, hdown, progress_honest (by decide) (.of_exec hq)⟩

/-- The first half twice. -/
theorem progress_honest_fails :
    ¬∀ (size total : Nat) (q : Pool Status Thread), size ≤ total →
      Reach (streaming size) (fun _ _ _ => True) (start total) q → Honest size q := by
  intro hall
  have hrun : ((streaming 4).exec (fun _ _ _ => True)
      ((0, .accept) :: (halfEvents "0-1" ++ halfEvents "0-1" ++ pollEvents)) (start 4)).map
        (fun p => (p.shared.totalBytes, p.shared.downloadedBytes, decide (Delivered 4 p.shared))) =
      some (4, 4, false) := by decide
  obtain ⟨q, hq, hobs⟩ := Option.map_eq_some_iff.mp hrun
  obtain ⟨htotal, hobs⟩ := Prod.mk.inj hobs
  obtain ⟨hdown, hnot⟩ := Prod.mk.inj hobs
  have hfull := (hall 4 4 q (by decide) (.of_exec hq)).full (by omega) (by omega)
  exact of_decide_eq_false hnot hfull

end PkgManager.StreamProgress
