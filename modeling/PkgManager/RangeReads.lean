import PkgManager.Interleaving
import PkgManager.MultipartStream

namespace PkgManager.RangeReads

open Interleaving Machine MultipartHeader MultipartStream

/-- What a descriptor stands for: the file of one `open`, by the stream or by
another part of the program. `serial` tells the opens apart. -/
structure OpenFile where
  serial : Nat
  byStream : Bool
  content : List UInt8

/-- `virtual_part_info_t` with its descriptor; `none` is -1. -/
structure Part where
  path : Path
  startPkgOffset : Nat
  partDataSize : Nat
  dataOffset : Nat
  fd : Option Nat

/-- The fields of `virtual_stream_t` that reads of a local package use. Sizes and
offsets stay below 2^63, the range of `off_t`. -/
structure Stream where
  currentPart : Nat
  totalParts : Nat
  totalPkgSize : Nat
  pkgFilename : List UInt8
  packageUuid : List UInt8
  parts : Nat → Part

/-- The stream and the descriptors of the process. -/
structure Process where
  stream : Stream
  fds : Nat → Option OpenFile
  opens : Nat

structure Call where
  off : Nat
  count : Nat

/-- The `pread` loop of a call: `part` and `file` are what the call resolved
under the lock, for the record. -/
structure Transfer where
  part : Nat
  file : OpenFile
  fd : Nat
  pos : Nat
  left : Nat
  got : List UInt8

inductive Thread where
  | idle
  | resolving (c : Call)
  | waiting (c : Call) (part : Nat)
  | reading (x : Transfer)
  | returned (r : ReadResult)

/-- A thread outside the stream opens and closes its own files. `fd` is the
number the system hands out, where the step opens a file. -/
inductive Event where
  | read (off count : Nat)
  | resolve (files : Files) (fd : Nat)
  | found (path : Option Path) (later : Files) (fd : Nat)
  | pread (short : Option Nat)
  | openOther (content : List UInt8) (fd : Nat)
  | closeOther (fd : Nat)

def Stream.setFd (s : Stream) (i : Nat) (fd : Option Nat) : Stream :=
  { s with parts := Function.update s.parts i { s.parts i with fd := fd } }

def covers (s : Stream) (off i : Nat) : Bool :=
  (s.parts i).startPkgOffset ≤ off ∧
    off < (s.parts i).startPkgOffset + (s.parts i).partDataSize

def partAt (s : Stream) (off : Nat) : Option Nat :=
  (List.range s.totalParts).find? (covers s off)

/-- `open`: the system hands out a number that is free. -/
def openFile (p : Process) (content : List UInt8) (byStream : Bool) (fd : Nat) : Option Process :=
  if p.fds fd = none then
    some { p with
      fds := Function.update p.fds fd (some ⟨p.opens, byStream, content⟩)
      opens := p.opens + 1 }
  else none

/-- The range of part `i` for a call, once its file is open. -/
def resolved (p : Process) (c : Call) (i fd : Nat) : Thread :=
  let part := p.stream.parts i
  let toRead := if p.stream.totalPkgSize < c.off + c.count then p.stream.totalPkgSize - c.off
    else c.count
  if c.off < part.startPkgOffset then .returned .error
  else
    let inPart := c.off - part.startPkgOffset
    if part.partDataSize ≤ inPart then .returned .error
    else
      let remaining := part.partDataSize - inPart
      let chunk := if toRead < remaining then toRead else remaining
      if chunk = 0 then .returned (.data [])
      else
        match p.fds fd with
        | none => .returned .error
        | some file => .reading ⟨i, file, fd, part.dataOffset + inPart, chunk, []⟩

/-- The part of `virtual_stream_read` up to the transfer or the disc wait, under
the lock of the stream. -/
def resolve (p : Process) (c : Call) (files : Files) (fd : Nat) : Option (Process × Thread) :=
  match partAt p.stream c.off with
  | none => some (p, .returned .error)
  | some i =>
    let p := { p with stream := { p.stream with currentPart := i + 1 } }
    let part := p.stream.parts i
    match part.fd with
    | some n => some (p, resolved p c i n)
    | none =>
      match if part.path = [] then none else files part.path with
      | none => some (p, .waiting c i)
      | some content =>
        (openFile p content true fd).map fun p =>
          let p := { p with stream := p.stream.setFd i (some fd) }
          (p, resolved p c i fd)

/-- The descriptor is one of another part than `i`. -/
def otherParts (s : Stream) (i fd : Nat) : Bool :=
  (List.range s.totalParts).any fun k => k ≠ i ∧ (s.parts k).fd = some fd

/-- Close the descriptors of all parts but `i`. -/
def closeOthers (p : Process) (i : Nat) : Process :=
  { p with
    fds := fun n => if otherParts p.stream i n then none else p.fds n
    stream := { p.stream with
      parts := fun k =>
        if k < p.stream.totalParts ∧ k ≠ i then { p.stream.parts k with fd := none }
        else p.stream.parts k } }

/-- Behind the disc wait: close the previous discs, take over the header of the
part that was found and open it. -/
def discFound (p : Process) (c : Call) (i : Nat) (path : Path) (later : Files) (fd : Nat) :
    Option (Process × Thread) :=
  let p := closeOthers p i
  match readHeader (later (localPath path)) with
  | .error _ => some (p, .returned .error)
  | .ok h =>
    let start := if 0 < h.partOffset then h.partOffset else (p.stream.parts i).startPkgOffset
    let take (fd : Option Nat) (p : Process) : Process :=
      { p with stream := { p.stream with
          parts := Function.update p.stream.parts i ⟨path, start, h.partDataSize, dataStart h, fd⟩ } }
    match later path with
    | none => some (take none p, .returned .error)
    | some content =>
      (openFile p content true fd).map fun p => (take (some fd) p, .resolving c)

/-- One turn of the `pread` loop; `short` is `none` for EINTR. -/
def pread (p : Process) (x : Transfer) : Option Nat → Thread
  | none => .reading x
  | some short =>
    match p.fds x.fd with
    | none => .returned .error
    | some file =>
      let got := (file.content.drop x.pos).take (min x.left (max 1 short))
      if got = [] then .returned .error
      else if got.length = x.left then .returned (.data (x.got ++ got))
      else .reading { x with
        pos := x.pos + got.length
        left := x.left - got.length
        got := x.got ++ got }

def startRead (s : Stream) (off count : Nat) : Thread :=
  if count = 0 ∨ s.totalPkgSize ≤ off then .returned (.data []) else .resolving ⟨off, count⟩

def turn (p : Process) : Thread → Event → Option (Process × Thread)
  | .idle, .read off count => some (p, startRead p.stream off count)
  | .returned _, .read off count => some (p, startRead p.stream off count)
  | .resolving c, .resolve files fd => resolve p c files fd
  | .waiting _ _, .found none _ _ => some (p, .returned .error)
  | .waiting c i, .found (some path) later fd => discFound p c i path later fd
  | .reading x, .pread short => some (p, pread p x short)
  | .idle, .openOther content fd => (openFile p content false fd).map (·, .idle)
  | .idle, .closeOther fd =>
    match p.fds fd with
    | some file =>
      if file.byStream then none
      else some ({ p with fds := Function.update p.fds fd none }, .idle)
    | none => none
  | _, _ => none

/-- Any number of threads in `virtual_stream_read` on one stream. A lock section
is one event, and so is each `pread`, which runs without the lock. -/
def reads : Machine Process Thread Event where
  act e p t := (turn p t e).map fun r => (r.1, r.2, [])

/-- A stream as `virtual_stream_open` leaves it: no file is open. -/
structure Opened (s : Stream) : Prop where
  closed : ∀ k, (s.parts k).fd = none

def start (s : Stream) (n : Nat) : Pool Process Thread :=
  ⟨⟨s, fun _ => none, 0⟩, List.replicate n .idle⟩

/-- The transfer is from a descriptor that stays when all parts but `i` are closed. -/
def spared (s : Stream) (i : Nat) : Thread → Bool
  | .reading x => !otherParts s i x.fd
  | _ => true

/-- When a disc was found for a call, no other call is between its resolution and
its last `pread` with the descriptor of another part. -/
def spares (p : Pool Process Thread) (j : Nat) : Event → Bool
  | .found (some _) _ _ =>
    match p.threads[j]? with
    | some (.waiting _ i) => p.threads.all (spared p.shared.stream i)
    | _ => true
  | _ => true

def Spares (p : Pool Process Thread) (j : Nat) (e : Event) : Prop := spares p j e = true

instance (p : Pool Process Thread) (j : Nat) (e : Event) : Decidable (Spares p j e) :=
  inferInstanceAs (Decidable (_ = true))

def Anyhow (_ : Pool Process Thread) (_ : Nat) (_ : Event) : Prop := True

instance (p : Pool Process Thread) (j : Nat) (e : Event) : Decidable (Anyhow p j e) := isTrue trivial

/-- Every transfer under way reads the file its call resolved. -/
def Steady (p : Pool Process Thread) : Prop :=
  ∀ x, .reading x ∈ p.threads → p.shared.fds x.fd = some x.file

theorem reads_step {p q : Pool Process Thread} {j : Nat} {e : Event}
    (h : reads.step p j e = some q) :
    ∃ t s' t', p.threads[j]? = some t ∧ turn p.shared t e = some (s', t') ∧
      q = ⟨s', p.threads.set j t' ++ []⟩ := by
  obtain ⟨t, s', t', new, ht, hact, rfl⟩ := step_eq_some h
  obtain ⟨⟨s₁, t₁⟩, hturn, he⟩ := Option.map_eq_some_iff.mp hact
  cases he
  exact ⟨t, s₁, t₁, ht, hturn, rfl⟩

/-- The descriptors of the parts are open files of the stream, one for each part. -/
structure Table (p : Process) : Prop where
  file : ∀ k n, (p.stream.parts k).fd = some n → ∃ f, p.fds n = some f ∧ f.byStream = true
  distinct : ∀ k k' n, (p.stream.parts k).fd = some n → (p.stream.parts k').fd = some n → k = k'

/-- A transfer reads the open file it resolved. -/
def Reading (p : Process) (t : Thread) : Prop :=
  ∀ x, t = .reading x → p.fds x.fd = some x.file ∧ x.file.byStream = true

/-- The files of the stream that were open still are. -/
def Keeps (p p' : Process) : Prop :=
  ∀ n f, p.fds n = some f → f.byStream = true → p'.fds n = some f

theorem Reading.keeps {p p' : Process} {t : Thread} (h : Reading p t) (hk : Keeps p p') :
    Reading p' t :=
  fun x hx => ⟨hk _ _ (h x hx).1 (h x hx).2, (h x hx).2⟩

theorem reading_of_not {p : Process} {t : Thread} (h : ∀ x, t ≠ .reading x) : Reading p t :=
  fun x hx => absurd hx (h x)

theorem Keeps.refl (p : Process) : Keeps p p := fun _ _ h _ => h

theorem openFile_some {p p' : Process} {content : List UInt8} {byStream : Bool} {fd : Nat}
    (h : openFile p content byStream fd = some p') :
    p.fds fd = none ∧ p'.stream = p.stream ∧
      p'.fds = Function.update p.fds fd (some ⟨p.opens, byStream, content⟩) := by
  unfold openFile at h
  split at h
  · cases h
    exact ⟨‹_›, rfl, rfl⟩
  · cases h

theorem openFile_keeps {p p' : Process} {content : List UInt8} {byStream : Bool} {fd : Nat}
    (h : openFile p content byStream fd = some p') : Keeps p p' := by
  obtain ⟨hfree, _, hfds⟩ := openFile_some h
  intro n f hn _
  have hne : n ≠ fd := by
    rintro rfl
    rw [hfree] at hn
    cases hn
  rw [hfds, Function.update_of_ne hne]
  exact hn

/-- Parts that keep their descriptors while the open files of the stream stay. -/
theorem Table.keeps {p p' : Process} (h : Table p) (hk : Keeps p p')
    (hfd : ∀ k n, (p'.stream.parts k).fd = some n → (p.stream.parts k).fd = some n) : Table p' where
  file := by
    intro k n hn
    obtain ⟨f, hf, hs⟩ := h.file k n (hfd k n hn)
    exact ⟨f, hk n f hf hs, hs⟩
  distinct := fun k k' n hn hn' => h.distinct k k' n (hfd k n hn) (hfd k' n hn')

/-- A part gets the descriptor of a file that was just opened. -/
theorem openFile_table {p p' : Process} {content : List UInt8} {fd i : Nat} {q : Part}
    (h : Table p) (ho : openFile p content true fd = some p') (hpart : q.fd = some fd) :
    Table { p' with stream := { p'.stream with
      parts := Function.update p'.stream.parts i q } } := by
  obtain ⟨hfree, hstream, hfds⟩ := openFile_some ho
  have hother : ∀ k n, k ≠ i → (Function.update p'.stream.parts i q k).fd = some n →
      (p.stream.parts k).fd = some n := by
    intro k n hk hn
    rw [Function.update_of_ne hk, hstream] at hn
    exact hn
  have hself : ∀ n, (Function.update p'.stream.parts i q i).fd = some n → n = fd := by
    intro n hn
    rw [Function.update_self, hpart] at hn
    exact (Option.some.inj hn).symm
  have hfresh : ∀ k, (p.stream.parts k).fd ≠ some fd := by
    intro k hk
    obtain ⟨f, hf, _⟩ := h.file k fd hk
    rw [hfree] at hf
    cases hf
  refine ⟨fun k n hn => ?_, fun k k' n hn hn' => ?_⟩
  · by_cases hk : k = i
    · subst hk
      obtain rfl := hself n hn
      exact ⟨_, by rw [hfds, Function.update_self], rfl⟩
    · obtain ⟨f, hf, hs⟩ := h.file k n (hother k n hk hn)
      exact ⟨f, openFile_keeps ho n f hf hs, hs⟩
  · by_cases hk : k = i
    · by_cases hk' : k' = i
      · rw [hk, hk']
      · subst hk
        obtain rfl := hself n hn
        exact absurd (hother k' n hk' hn') (hfresh k')
    · by_cases hk' : k' = i
      · subst hk'
        obtain rfl := hself n hn'
        exact absurd (hother k n hk hn) (hfresh k)
      · exact h.distinct k k' n (hother k n hk hn) (hother k' n hk' hn')

theorem resolved_reading {p : Process} {c : Call} {i fd : Nat}
    (h : ∃ f, p.fds fd = some f ∧ f.byStream = true) : Reading p (resolved p c i fd) := by
  obtain ⟨f, hf, hs⟩ := h
  intro x hx
  unfold resolved at hx
  simp only [hf] at hx
  split_ifs at hx
  all_goals
    cases hx
    exact ⟨hf, hs⟩

/-- What a step keeps: the table of the parts, and the files of the transfers. -/
structure Kept (p p' : Process) (t' : Thread) : Prop where
  table : Table p'
  keeps : Keeps p p'
  moved : Reading p' t'

theorem resolve_kept {p p' : Process} {c : Call} {files : Files} {fd : Nat} {t' : Thread}
    (h : Table p) (hs : resolve p c files fd = some (p', t')) : Kept p p' t' := by
  unfold resolve at hs
  cases hat : partAt p.stream c.off with
  | none =>
    rw [hat] at hs
    cases hs
    exact ⟨h, .refl p, reading_of_not nofun⟩
  | some i =>
    rw [hat] at hs
    simp only at hs
    have h' : Table { p with stream := { p.stream with currentPart := i + 1 } } := ⟨h.file, h.distinct⟩
    generalize hp₁ : { p with stream := { p.stream with currentPart := i + 1 } } = p₁ at hs h'
    have hfds : p₁.fds = p.fds := hp₁ ▸ rfl
    have hparts : p₁.stream.parts = p.stream.parts := hp₁ ▸ rfl
    have hk₁ : Keeps p p₁ := fun n f hn _ => by rwa [hfds]
    rw [← hparts] at hs
    cases hfd : (p₁.stream.parts i).fd with
    | some n =>
      rw [hfd] at hs
      cases hs
      exact ⟨h', hk₁, resolved_reading (h'.file i n hfd)⟩
    | none =>
      rw [hfd] at hs
      simp only at hs
      cases hopen : (if (p₁.stream.parts i).path = [] then none
          else files (p₁.stream.parts i).path) with
      | none =>
        rw [hopen] at hs
        cases hs
        exact ⟨h', hk₁, reading_of_not nofun⟩
      | some content =>
        rw [hopen] at hs
        obtain ⟨p₂, ho, he⟩ := Option.map_eq_some_iff.mp hs
        cases he
        have ht := openFile_table (i := i) (q := { p₂.stream.parts i with fd := some fd }) h' ho rfl
        refine ⟨ht, fun n f hn hf => openFile_keeps ho n f (hk₁ n f hn hf) hf, ?_⟩
        refine resolved_reading (ht.file i fd ?_)
        simp

theorem otherParts_iff (s : Stream) (i fd : Nat) :
    otherParts s i fd = true ↔ ∃ k < s.totalParts, k ≠ i ∧ (s.parts k).fd = some fd := by
  simp [otherParts, List.any_eq_true]

/-- Closing the other parts keeps the table. -/
theorem closeOthers_table {p : Process} (h : Table p) (i : Nat) : Table (closeOthers p i) := by
  have hold : ∀ k n, ((closeOthers p i).stream.parts k).fd = some n →
      ¬(k < p.stream.totalParts ∧ k ≠ i) ∧ (p.stream.parts k).fd = some n := by
    intro k n hn
    by_cases hk : k < p.stream.totalParts ∧ k ≠ i
    · simp only [closeOthers, if_pos hk] at hn
      cases hn
    · simp only [closeOthers, if_neg hk] at hn
      exact ⟨hk, hn⟩
  refine ⟨fun k n hn => ?_, fun k k' n hn hn' => ?_⟩
  · obtain ⟨hk, hn⟩ := hold k n hn
    obtain ⟨f, hf, hs⟩ := h.file k n hn
    refine ⟨f, ?_, hs⟩
    have hno : ¬otherParts p.stream i n = true := by
      rw [otherParts_iff]
      rintro ⟨k', hlt, hne, hn'⟩
      obtain rfl := h.distinct k k' n hn hn'
      exact hk ⟨hlt, hne⟩
    show (if otherParts p.stream i n then none else p.fds n) = some f
    rw [if_neg hno]
    exact hf
  · exact h.distinct k k' n (hold k n hn).2 (hold k' n hn').2

theorem closeOthers_reading {p : Process} {t : Thread} {i : Nat} (h : Reading p t)
    (hsp : spared p.stream i t = true) : Reading (closeOthers p i) t := by
  intro x hx
  obtain ⟨hf, hs⟩ := h x hx
  subst hx
  have hno : ¬otherParts p.stream i x.fd = true := by simpa [spared] using hsp
  refine ⟨?_, hs⟩
  show (if otherParts p.stream i x.fd then none else p.fds x.fd) = some x.file
  rw [if_neg hno]
  exact hf

/-- A part that is taken over without an open file. -/
theorem withoutFile_table {p : Process} (h : Table p) {i : Nat} {part : Part}
    (hpart : part.fd = none) :
    Table { p with stream := { p.stream with parts := Function.update p.stream.parts i part } } := by
  refine h.keeps (.refl p) fun k n hn => ?_
  by_cases hk : k = i
  · subst hk
    simp [hpart] at hn
  · simpa [Function.update_of_ne hk] using hn

/-- Behind the disc wait everything but the closing keeps what is open. -/
theorem discFound_kept {p p' : Process} {c : Call} {i : Nat} {path : Path} {later : Files} {fd : Nat}
    {t' : Thread} (h : Table p) (hs : discFound p c i path later fd = some (p', t')) :
    Kept (closeOthers p i) p' t' := by
  have hc := closeOthers_table h i
  unfold discFound at hs
  simp only at hs
  generalize closeOthers p i = p₁ at hs hc
  cases hh : readHeader (later (localPath path)) with
  | error e =>
    rw [hh] at hs
    cases hs
    exact ⟨hc, .refl _, reading_of_not nofun⟩
  | ok hdr =>
    rw [hh] at hs
    simp only at hs
    cases hl : later path with
    | none =>
      rw [hl] at hs
      cases hs
      exact ⟨withoutFile_table hc rfl, .refl _, reading_of_not nofun⟩
    | some content =>
      rw [hl] at hs
      obtain ⟨p₂, ho, he⟩ := Option.map_eq_some_iff.mp hs
      cases he
      have hk := openFile_keeps ho
      exact ⟨openFile_table hc ho rfl, fun n f hn hf => hk n f hn hf, reading_of_not nofun⟩

theorem pread_reading {p : Process} {x : Transfer} (h : Reading p (.reading x))
    (short : Option Nat) : Reading p (pread p x short) := by
  cases short with
  | none => exact h
  | some k =>
    unfold pread
    cases hf : p.fds x.fd with
    | none => exact reading_of_not nofun
    | some file =>
      simp only
      split
      · exact reading_of_not nofun
      · split
        · exact reading_of_not nofun
        · rintro y hy
          cases hy
          exact h x rfl

/-- A step keeps what is open, except that a disc that was found closes the
other parts first. -/
theorem turn_kept {p p' : Process} {t t' : Thread} {e : Event} (h : Table p) (ht : Reading p t)
    (hs : turn p t e = some (p', t')) :
    Kept p p' t' ∨ ∃ c i path later fd, t = .waiting c i ∧ e = .found (some path) later fd ∧
      Kept (closeOthers p i) p' t' := by
  have hstart : ∀ off count, Reading p (startRead p.stream off count) := fun off count => by
    unfold startRead
    split <;> exact reading_of_not nofun
  cases e with
  | read off count =>
    cases t with
    | idle =>
      cases hs
      exact .inl ⟨h, .refl p, hstart off count⟩
    | returned r =>
      cases hs
      exact .inl ⟨h, .refl p, hstart off count⟩
    | _ => cases hs
  | resolve files fd =>
    cases t with
    | resolving c => exact .inl (resolve_kept h hs)
    | _ => cases hs
  | found path later fd =>
    cases t with
    | waiting c i =>
      cases path with
      | none =>
        cases hs
        exact .inl ⟨h, .refl p, reading_of_not nofun⟩
      | some path => exact .inr ⟨c, i, path, later, fd, rfl, rfl, discFound_kept h hs⟩
    | _ => cases path <;> cases hs
  | pread short =>
    cases t with
    | reading x =>
      cases hs
      exact .inl ⟨h, .refl p, pread_reading ht short⟩
    | _ => cases hs
  | openOther content fd =>
    cases t with
    | idle =>
      obtain ⟨p₁, ho, he⟩ := Option.map_eq_some_iff.mp hs
      cases he
      have hk := openFile_keeps ho
      refine .inl ⟨h.keeps hk fun k n hn => ?_, hk, reading_of_not nofun⟩
      rwa [(openFile_some ho).2.1] at hn
    | _ => cases hs
  | closeOther fd =>
    cases t with
    | idle =>
      dsimp only [turn] at hs
      cases hf : p.fds fd with
      | none =>
        rw [hf] at hs
        cases hs
      | some file =>
        rw [hf] at hs
        simp only at hs
        split at hs
        · cases hs
        · rename_i hby
          cases hs
          have hk : Keeps p { p with fds := Function.update p.fds fd none } := by
            intro n f hn hs
            have hne : n ≠ fd := by
              rintro rfl
              obtain rfl := Option.some.inj (hf.symm.trans hn)
              exact hby hs
            exact (Function.update_of_ne hne _ _).trans hn
          exact .inl ⟨h.keeps hk fun k n hn => hn, hk, reading_of_not nofun⟩
    | _ => cases hs

/-- The table is sound and every transfer reads the file it resolved. -/
structure Inv (p : Pool Process Thread) : Prop where
  table : Table p.shared
  readers : ∀ t ∈ p.threads, Reading p.shared t

theorem start_inv {s : Stream} (h : Opened s) (n : Nat) : Inv (start s n) where
  table := by
    refine ⟨fun k n hn => ?_, fun k k' n hn => ?_⟩
    · exact absurd ((h.closed k).symm.trans hn) nofun
    · exact absurd ((h.closed k).symm.trans hn) nofun
  readers := by
    intro t ht
    rw [List.eq_of_mem_replicate ht]
    exact reading_of_not nofun

theorem inv_step {p q : Pool Process Thread} {j : Nat} {e : Event} (h : Inv p)
    (hg : Spares p j e) (hs : reads.step p j e = some q) : Inv q := by
  obtain ⟨t, p', t', ht, hturn, rfl⟩ := reads_step hs
  have hm := List.mem_of_getElem? ht
  obtain hk | ⟨c, i, path, later, fd, rfl, rfl, hk⟩ := turn_kept h.table (h.readers t hm) hturn
  · refine ⟨hk.table, ?_⟩
    exact forall_step ht hk.moved (fun u hu => (h.readers u hu).keeps hk.keeps) (by simp)
  · have hsp : ∀ u ∈ p.threads, spared p.shared.stream i u = true := by
      unfold Spares spares at hg
      simpa only [ht, List.all_eq_true] using hg
    refine ⟨hk.table, forall_step ht hk.moved (fun u hu => ?_) (by simp)⟩
    exact (closeOthers_reading (h.readers u hu) (hsp u hu)).keeps hk.keeps

/-- As long as a found disc closes no descriptor a transfer is using, every
`pread` reads the file its call resolved under the lock. -/
theorem transfers_steady {s : Stream} (ho : Opened s) {n : Nat} {p : Pool Process Thread}
    (h : reads.Reach Spares (start s n) p) : Steady p := by
  have hinv := h.invariant Inv (start_inv ho n) fun _ _ _ _ hp hg hs => inv_step hp hg hs
  exact fun x hx => (hinv.readers _ hx x rfl).1

/-- A package of eight bytes in two parts, the second of which is not mounted. -/
def twoParts : Stream where
  currentPart := 1
  totalParts := 2
  totalPkgSize := 8
  pkgFilename := [97]
  packageUuid := [1]
  parts := fun k => if k = 0 then ⟨[49], 0, 4, 0, none⟩ else ⟨[], 4, 4, 4096, none⟩

theorem twoParts_opened : Opened twoParts where
  closed := by
    intro k
    unfold twoParts
    simp only
    split <;> rfl

def firstDisc : Files := fun path => if path = [49] then some [10, 11, 12, 13] else none

def transferOf : Thread → Option Transfer
  | .reading x => some x
  | _ => none

theorem eq_of_transferOf {t : Thread} {x : Transfer} (h : transferOf t = some x) : t = .reading x := by
  cases t with
  | reading x' =>
    cases h
    rfl
  | _ => cases h

theorem transfers_steady_twoParts :
    ∃ p x, reads.Reach Spares (start twoParts 2) p ∧ .reading x ∈ p.threads ∧ x.fd = 3 ∧
      p.shared.fds 3 = some x.file := by
  have hv : ((reads.exec Spares [(0, .read 0 4), (0, .resolve firstDisc 3), (1, .read 4 4),
      (1, .resolve firstDisc 4), (0, .pread (some 4)), (1, .found (some [50]) (fun _ => none) 4),
      (0, .read 0 4), (0, .resolve firstDisc 3), (0, .pread (some 2))]
        (start twoParts 2)).map fun p => (p.threads[0]?.bind transferOf).map (·.fd)) =
      some (some 3) := by
    rfl
  obtain ⟨p, hp, hv⟩ := Option.map_eq_some_iff.mp hv
  have hr : reads.Reach Spares (start twoParts 2) p := .of_exec hp
  obtain ⟨x, hx, hfd⟩ := Option.map_eq_some_iff.mp hv
  obtain ⟨t, ht, hx⟩ := Option.bind_eq_some_iff.mp hx
  have hm : .reading x ∈ p.threads := eq_of_transferOf hx ▸ List.mem_of_getElem? ht
  exact ⟨p, x, hr, hm, hfd, hfd ▸ transfers_steady twoParts_opened hr x hm⟩

/-- The disc wait of one call closes the descriptor another call is reading from,
and the system gives its number to a file of somebody else. -/
theorem transfers_steady_fails : ¬ ∀ (s : Stream), Opened s → ∀ (n : Nat)
    (p : Pool Process Thread), reads.Reach Anyhow (start s n) p → Steady p := by
  intro h
  have hv : ((reads.exec Anyhow [(0, .read 0 4), (0, .resolve firstDisc 3), (1, .read 4 4),
      (1, .resolve firstDisc 4), (1, .found (some [50]) (fun _ => none) 4),
      (2, .openOther [99, 99, 99, 99] 3)] (start twoParts 3)).map fun p =>
        (p.threads[0]?.bind transferOf).map fun x =>
          (x.file.serial, (p.shared.fds x.fd).map OpenFile.serial)) = some (some (0, some 1)) := by
    rfl
  obtain ⟨p, hp, hv⟩ := Option.map_eq_some_iff.mp hv
  obtain ⟨x, hx, hv⟩ := Option.map_eq_some_iff.mp hv
  obtain ⟨t, ht, hx⟩ := Option.bind_eq_some_iff.mp hx
  have hm : .reading x ∈ p.threads := eq_of_transferOf hx ▸ List.mem_of_getElem? ht
  have hs := h twoParts twoParts_opened 3 p (.of_exec hp) x hm
  rw [hs] at hv
  simp only [Prod.mk.injEq, Option.map_some, Option.some.injEq] at hv
  omega

end PkgManager.RangeReads
