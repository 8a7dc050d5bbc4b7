import PkgManager.MultipartStream
import PkgManager.PkgSplit

namespace PkgManager.MultipartReads

open MultipartHeader MultipartStream PkgSplit Tiling

/-- A package in parts, counted from 0: the slices, and for each part its file
and the header in it. -/
structure Split where
  pkg : List UInt8
  pieces : List (List UInt8)
  file : Nat → List UInt8
  header : Nat → Header
  uuid : List UInt8
  name : List UInt8
  flatten : pieces.flatten = pkg
  count_pos : 0 < pieces.length
  count_le : pieces.length ≤ maxParts
  small : pkg.length < 2 ^ 64
  filled : 1 < pieces.length → ∀ i < pieces.length, 0 < (piece pieces i).length
  read : ∀ i < pieces.length, readHeader (some (file i)) = .ok (header i)
  index : ∀ i < pieces.length, (header i).partIndex = i + 1
  total : ∀ i < pieces.length, (header i).totalParts = pieces.length
  pkgSize : ∀ i < pieces.length, (header i).totalPkgSize = pkg.length
  dataSize : ∀ i < pieces.length, (header i).partDataSize = (piece pieces i).length
  offset : ∀ i < pieces.length, (header i).partOffset = startOf pieces i
  packageUuid : ∀ i < pieces.length, (header i).packageUuid = uuid
  pkgFilename : ∀ i < pieces.length, cString (header i).pkgFilename = name
  slice : ∀ i < pieces.length, ∀ k,
    (file i).drop (dataStart (header i) + k) = (piece pieces i).drop k

/-- A path that is named after a part holds that part, whenever it can be opened. -/
def Genuine (S : Split) (label : Path → Option Nat) (files : Files) : Prop :=
  ∀ path i f, label path = some i → files path = some f → f = S.file i

/-- The stream is opened on part `o` while the parts in `present` are mounted. -/
structure Opened (S : Split) (label : Path → Option Nat) (present : Nat → Bool) (o : Nat)
    (files : Files) (find : Nat → Option Path) (initial : Path) : Prop where
  initial_ne : initial ≠ []
  initial_label : label initial = some o
  initial_file : files (localPath initial) = some (S.file o)
  found : ∀ i < S.pieces.length, i ≠ o → present i = true → ∃ path, find (i + 1) = some path ∧
    path ≠ [] ∧ label path = some i ∧ files (localPath path) = some (S.file i)
  missing : ∀ i < S.pieces.length, i ≠ o → present i = false → find (i + 1) = none

/-- On a pass of the read loop the disc waiter supplies the part it is asked for. -/
structure GenuineTurn (S : Split) (label : Path → Option Nat) (t : Turn) : Prop where
  files : Genuine S label t.files
  supplies : ∀ i < S.pieces.length, ∃ path,
    t.waitDisc S.uuid S.name (i + 1) S.pieces.length = some path ∧ path ≠ [] ∧
      label path = some i ∧ t.later (localPath path) = some (S.file i) ∧
      t.later path = some (S.file i)

/-- A read with fuel for the passes it can need. -/
def GenuineRequest (S : Split) (label : Path → Option Nat) (r : Request) : Prop :=
  2 ≤ r.fuel ∧ ∀ k, GenuineTurn S label (r.turns k)

/-- The read returned bytes of the package at its offset, and asked only for the
part that holds the offset. -/
structure Good (S : Split) (r : Request) (out : Read) : Prop where
  bytes : ∃ bs, out.result = some (.data bs) ∧ bs ≠ [] ∧ bs.length ≤ r.count ∧
    bs = (S.pkg.drop r.off).take bs.length
  asked : ∀ p ∈ out.asked, startOf S.pieces (p - 1) ≤ r.off ∧
    r.off < startOf S.pieces (p - 1) + (piece S.pieces (p - 1)).length

/-- Whatever is read in whatever order, every read inside the package is good. -/
def ReadsAgree (S : Split) (present : Nat → Bool) (o : Nat) : Prop :=
  ∀ label files find initial, Opened S label present o files find initial →
    ∃ s, virtualStreamOpen files find initial = .ok s ∧
      ∀ (rs : List Request) (r : Request), (∀ r' ∈ rs, GenuineRequest S label r') →
        GenuineRequest S label r → 0 < r.count → r.off < S.pkg.length →
          Good S r (virtualStreamRead (afterReads s rs) r)

/-! The transfer. -/

theorem preadLoop_eq_take (file : List UInt8) (short : Nat → Nat) (n pos left : Nat)
    (hn : left ≤ n) (hlen : left ≤ (file.drop pos).length) :
    preadLoop file short n pos left = some ((file.drop pos).take left) := by
  induction n generalizing pos left with
  | zero =>
    have h0 : left = 0 := Nat.le_zero.mp hn
    simp [preadLoop, h0]
  | succ n ih =>
    unfold preadLoop
    by_cases h0 : left = 0
    · simp [h0]
    · rw [if_neg h0]
      simp only
      generalize hk : min left (max 1 (short pos)) = k
      have hkpos : 0 < k := by omega
      have hgot : ((file.drop pos).take k).length = k := by
        rw [List.length_take]
        omega
      have hne : (file.drop pos).take k ≠ [] := List.length_pos_iff.mp (by omega)
      have hdrop : file.drop (pos + k) = (file.drop pos).drop k := by rw [List.drop_drop]
      rw [if_neg hne, hgot, ih (pos + k) (left - k) (by omega)
        (by rw [hdrop, List.length_drop]; omega), Option.map_some, hdrop]
      have hadd : left = k + (left - k) := by omega
      conv_rhs => rw [hadd]
      rw [List.take_add]

/-- The place of a part in the table is the right one. -/
structure Placed (S : Split) (s : VirtualStream) (i : Nat) : Prop where
  start : (s.parts i).startPkgOffset = startOf S.pieces i
  size : (s.parts i).partDataSize = (piece S.pieces i).length

/-- What the table says about the file of a part is right. -/
structure Backed (S : Split) (label : Path → Option Nat) (s : VirtualStream) (i : Nat) : Prop where
  data : (s.parts i).path ≠ [] → (s.parts i).dataOffset = dataStart (S.header i)
  named : (s.parts i).path ≠ [] → label (s.parts i).path = some i
  fd : ∀ f, (s.parts i).fd = some f → f = S.file i ∧ (s.parts i).path ≠ []

/-- A stream over the package, whatever its table says. -/
structure Over (S : Split) (s : VirtualStream) : Prop where
  totalParts : s.totalParts = S.pieces.length
  totalPkgSize : s.totalPkgSize = S.pkg.length
  packageUuid : s.packageUuid = S.uuid
  pkgFilename : s.pkgFilename = S.name

structure Exact (S : Split) (label : Path → Option Nat) (s : VirtualStream) : Prop extends Over S s where
  placed : ∀ i < S.pieces.length, Placed S s i
  backed : ∀ i < S.pieces.length, Backed S label s i

theorem transfer_good {S : Split} {label : Path → Option Nat} {s : VirtualStream} {i off count : Nat}
    (h : Exact S label s) (hi : i < S.pieces.length) (hpath : (s.parts i).path ≠ [])
    (hlo : startOf S.pieces i ≤ off) (hhi : off < startOf S.pieces i + (piece S.pieces i).length)
    (hcount : 0 < count) (t : Turn) :
    ∃ bs, transfer s i off count (S.file i) t = .data bs ∧ bs ≠ [] ∧ bs.length ≤ count ∧
      bs = (S.pkg.drop off).take bs.length := by
  obtain ⟨hstart, hsize⟩ := h.placed i hi
  have hdata := (h.backed i hi).data hpath
  generalize hk : off - startOf S.pieces i = k
  have hoff : off = startOf S.pieces i + k := by omega
  have htotal : startOf S.pieces i + (piece S.pieces i).length ≤ S.pkg.length := by
    rw [← startOf_succ, ← S.flatten, ← startOf_length]
    exact startOf_mono _ (by omega)
  generalize hto : (if s.totalPkgSize < off + count then s.totalPkgSize - off else count) = toRead
  have hto' : 0 < toRead ∧ toRead ≤ count := by
    have hp := h.totalPkgSize
    split at hto <;> omega
  generalize hc : (if toRead < (piece S.pieces i).length - k then toRead
    else (piece S.pieces i).length - k) = chunk
  have hc' : 0 < chunk ∧ chunk ≤ count ∧ chunk ≤ (piece S.pieces i).length - k := by
    split at hc <;> omega
  have hread := preadLoop_eq_take (S.file i) t.short chunk (dataStart (S.header i) + k) chunk
    (Nat.le_refl _) (by rw [S.slice i hi, List.length_drop]; omega)
  rw [S.slice i hi] at hread
  obtain ⟨rest, hrest⟩ := drop_flatten S.pieces (i := i) (k := k) (by omega)
  have hlen : ((piece S.pieces i).drop k).length = (piece S.pieces i).length - k :=
    List.length_drop
  refine ⟨((piece S.pieces i).drop k).take chunk, ?_, ?_, ?_, ?_⟩
  · unfold transfer
    simp only [hstart, hsize, hk, hto, hc, hdata, hread]
    rw [if_neg (by omega), if_neg (by omega)]
  · apply List.length_pos_iff.mp
    rw [List.length_take]
    omega
  · rw [List.length_take]
    omega
  · rw [← S.flatten, hoff, hrest, List.length_take, hlen, Nat.min_eq_left hc'.2.2]
    rw [List.take_append_of_le_length (by omega)]

/-! One pass of the loop over an exact table. -/

theorem covers_placed {S : Split} {s : VirtualStream} {i off : Nat} (h : Placed S s i) :
    covers s off i = true ↔
      startOf S.pieces i ≤ off ∧ off < startOf S.pieces i + (piece S.pieces i).length := by
  unfold covers
  rw [h.start, h.size]
  exact decide_eq_true_iff

/-- The part that holds an offset of the package. -/
theorem holder (S : Split) {off : Nat} (hoff : off < S.pkg.length) :
    ∃ i < S.pieces.length, startOf S.pieces i ≤ off ∧
      off < startOf S.pieces i + (piece S.pieces i).length :=
  exists_piece S.pieces (by rw [S.flatten]; exact hoff)

theorem partAt_exact {S : Split} {label : Path → Option Nat} {s : VirtualStream} {i off : Nat}
    (h : Exact S label s) (hi : i < S.pieces.length) (hlo : startOf S.pieces i ≤ off)
    (hhi : off < startOf S.pieces i + (piece S.pieces i).length) : partAt s off = some i := by
  unfold partAt
  rw [h.totalParts]
  cases hf : (List.range S.pieces.length).find? (covers s off) with
  | none =>
    have hn := List.find?_eq_none.mp hf i (List.mem_range.mpr hi)
    exact absurd ((covers_placed (h.placed i hi)).mpr ⟨hlo, hhi⟩) hn
  | some j =>
    have hj := List.mem_range.mp (List.mem_of_find?_eq_some hf)
    obtain ⟨h1, h2⟩ := (covers_placed (h.placed j hj)).mp (List.find?_some hf)
    rw [piece_unique S.pieces h1 h2 hlo hhi]

/-- Opening the file of a part changes its descriptor only. -/
def withFd (s : VirtualStream) (i : Nat) (fd : Option (List UInt8)) : VirtualStream :=
  { s.setPart i { s.parts i with fd := fd } with currentPart := i + 1 }

theorem withFd_parts (s : VirtualStream) (i j : Nat) (fd : Option (List UInt8)) :
    (withFd s i fd).parts j = if j = i then { s.parts i with fd := fd } else s.parts j := by
  unfold withFd VirtualStream.setPart
  by_cases hj : j = i
  · subst hj
    simp
  · simp [hj]

theorem withFd_exact {S : Split} {label : Path → Option Nat} {s : VirtualStream} {i : Nat}
    {fd : Option (List UInt8)} (h : Exact S label s) (hi : i < S.pieces.length)
    (hfd : ∀ f, fd = some f → f = S.file i ∧ (s.parts i).path ≠ []) :
    Exact S label (withFd s i fd) := by
  refine ⟨⟨h.totalParts, h.totalPkgSize, h.packageUuid, h.pkgFilename⟩, ?_, ?_⟩
  · intro j hj
    have hp := h.placed j hj
    constructor
    · rw [withFd_parts]
      split
      · rename_i he
        exact he ▸ hp.start
      · exact hp.start
    · rw [withFd_parts]
      split
      · rename_i he
        exact he ▸ hp.size
      · exact hp.size
  · intro j hj
    have hb := h.backed j hj
    by_cases he : j = i
    · subst he
      have hpart : (withFd s j fd).parts j = { s.parts j with fd := fd } := by
        rw [withFd_parts, if_pos rfl]
      refine ⟨?_, ?_, ?_⟩ <;> rw [hpart]
      · exact hb.data
      · exact hb.named
      · exact hfd
    · have hpart : (withFd s i fd).parts j = s.parts j := by rw [withFd_parts, if_neg he]
      refine ⟨?_, ?_, ?_⟩ <;> rw [hpart]
      · exact hb.data
      · exact hb.named
      · exact hb.fd

theorem dataStart_offset {S : Split} {i : Nat} (hi : i < S.pieces.length) :
    (if 0 < (S.header i).partOffset then (S.header i).partOffset else startOf S.pieces i) =
      startOf S.pieces i := by
  rw [S.offset i hi]
  split <;> rfl

theorem waitForPart_exact {S : Split} {label : Path → Option Nat} {s : VirtualStream} {i : Nat}
    {t : Turn} (h : Exact S label s) (hi : i < S.pieces.length) (ht : GenuineTurn S label t) :
    (waitForPart s i t).2 = true ∧ Exact S label (waitForPart s i t).1 ∧
      ((waitForPart s i t).1.parts i).fd = some (S.file i) := by
  obtain ⟨path, hask, hne, hlabel, hlocal, hlater⟩ := ht.supplies i hi
  have hstart := (h.placed i hi).start
  unfold waitForPart
  rw [h.packageUuid, h.pkgFilename, h.totalParts, hask]
  simp only [hlocal, S.read i hi, hlater, Option.isSome_some, hstart, dataStart_offset hi,
    true_and]
  refine ⟨⟨⟨rfl, h.totalPkgSize, rfl, rfl⟩, ?_, ?_⟩, ?_⟩
  · intro j hj
    unfold VirtualStream.setPart
    by_cases he : j = i
    · subst he
      constructor
      · simp
      · simp [S.dataSize j hj]
    · constructor
      · simp [he, (h.placed j hj).start]
      · simp [he, (h.placed j hj).size]
  · intro j hj
    unfold VirtualStream.setPart
    by_cases he : j = i
    · subst he
      refine ⟨?_, ?_, ?_⟩
      · simp
      · simp [hlabel]
      · simp [hne]
    · have hb := h.backed j hj
      refine ⟨?_, ?_, ?_⟩
      · simpa [he] using hb.data
      · simpa [he] using hb.named
      · simp [he]
  · simp [VirtualStream.setPart]

theorem readPass_eq {s : VirtualStream} {off count i : Nat} {t : Turn} (h : partAt s off = some i) :
    readPass s off count t =
      match if (s.parts i).fd = none ∧ (s.parts i).path ≠ [] then t.files (s.parts i).path
          else (s.parts i).fd with
      | some file => ⟨withFd s i (some file), some (transfer (withFd s i (some file)) i off count file t),
          none⟩
      | none => ⟨(waitForPart (withFd s i none) i t).1,
          if (waitForPart (withFd s i none) i t).2 then none else some .error, some (i + 1)⟩ := by
  unfold readPass
  rw [h]
  simp only
  split <;> rename_i hfd <;> simp only [hfd] <;> rfl

/-- A pass answers well, or it asked for the right part and opened its file. -/
theorem readPass_cases {S : Split} {label : Path → Option Nat} {s : VirtualStream}
    {i off count : Nat} {t : Turn} (h : Exact S label s) (ht : GenuineTurn S label t)
    (hi : i < S.pieces.length) (hlo : startOf S.pieces i ≤ off)
    (hhi : off < startOf S.pieces i + (piece S.pieces i).length) (hcount : 0 < count) :
    Exact S label (readPass s off count t).stream ∧
      (((readPass s off count t).asked = none ∧ ∃ bs, (readPass s off count t).result = some (.data bs) ∧
          bs ≠ [] ∧ bs.length ≤ count ∧ bs = (S.pkg.drop off).take bs.length) ∨
        ((s.parts i).fd = none ∧ (readPass s off count t).asked = some (i + 1) ∧
          (readPass s off count t).result = none ∧
          ((readPass s off count t).stream.parts i).fd = some (S.file i))) := by
  rw [readPass_eq (partAt_exact h hi hlo hhi)]
  have hb := h.backed i hi
  generalize hfd : (if (s.parts i).fd = none ∧ (s.parts i).path ≠ [] then t.files (s.parts i).path
    else (s.parts i).fd) = fd
  have hok : ∀ f, fd = some f → f = S.file i ∧ (s.parts i).path ≠ [] := by
    intro f hf
    rw [hf] at hfd
    split at hfd
    · rename_i hopen
      exact ⟨ht.files _ i f (hb.named hopen.2) hfd, hopen.2⟩
    · exact hb.fd f hfd
  cases fd with
  | some file =>
    obtain ⟨rfl, hpath⟩ := hok file rfl
    have he := withFd_exact h hi hok
    have hpath' : ((withFd s i (some (S.file i))).parts i).path ≠ [] := by
      rw [withFd_parts, if_pos rfl]
      exact hpath
    obtain ⟨bs, hbs, hrest⟩ := transfer_good he hi hpath' hlo hhi hcount t
    exact ⟨he, .inl ⟨rfl, bs, congrArg some hbs, hrest⟩⟩
  | none =>
    have he := withFd_exact h hi hok
    obtain ⟨h1, h2, h3⟩ := waitForPart_exact he hi ht
    have hnone : (s.parts i).fd = none := by
      split at hfd
      · rename_i hopen
        exact hopen.1
      · exact hfd
    exact ⟨h2, .inr ⟨hnone, rfl, by simp only [h1, ↓reduceIte], h3⟩⟩

/-- A read inside the package over an exact table needs two passes at most. -/
theorem readLoop_good {S : Split} {label : Path → Option Nat} {s : VirtualStream} {r : Request}
    (h : Exact S label s) (hr : GenuineRequest S label r) (hcount : 0 < r.count)
    (hoff : r.off < S.pkg.length) :
    Good S r (readLoop r.off r.count r.turns r.fuel 0 s) ∧
      Exact S label (readLoop r.off r.count r.turns r.fuel 0 s).stream := by
  obtain ⟨i, hi, hlo, hhi⟩ := holder S hoff
  obtain ⟨n, hn⟩ : ∃ n, r.fuel = n + 2 := ⟨r.fuel - 2, by have := hr.1; omega⟩
  have hsecond : ∀ s' k, Exact S label s' → (s'.parts i).fd = some (S.file i) →
      ∃ bs, (readLoop r.off r.count r.turns (n + 1) k s').result = some (.data bs) ∧
        (readLoop r.off r.count r.turns (n + 1) k s').asked = [] ∧
        Exact S label (readLoop r.off r.count r.turns (n + 1) k s').stream ∧
        bs ≠ [] ∧ bs.length ≤ r.count ∧ bs = (S.pkg.drop r.off).take bs.length := by
    intro s' k he hfd
    obtain ⟨hex, ⟨ha, bs, hbs, hrest⟩ | ⟨hnone, _⟩⟩ := readPass_cases he (hr.2 k) hi hlo hhi hcount
    · refine ⟨bs, ?_, ?_, ?_, hrest⟩ <;> simp only [readLoop, hbs, ha]
      · rfl
      · exact hex
    · rw [hfd] at hnone
      cases hnone
  rw [hn]
  obtain ⟨hex, ⟨ha, bs, hbs, h1, h2, h3⟩ | ⟨_, ha, hres, hfd⟩⟩ :=
    readPass_cases h (hr.2 0) hi hlo hhi hcount
  · rw [readLoop]
    simp only [hbs, ha]
    exact ⟨⟨⟨bs, rfl, h1, h2, h3⟩, by simp⟩, hex⟩
  · obtain ⟨bs, hbs, hnil, hex', h1, h2, h3⟩ := hsecond _ 1 hex hfd
    rw [readLoop]
    simp only [hres, ha, hnil]
    refine ⟨⟨⟨bs, hbs, h1, h2, h3⟩, ?_⟩, hex'⟩
    intro p hp
    obtain rfl : p = i + 1 := by simpa using hp
    exact ⟨hlo, hhi⟩

theorem virtualStreamRead_exact {S : Split} {label : Path → Option Nat} {s : VirtualStream}
    {r : Request} (h : Exact S label s) (hr : GenuineRequest S label r) :
    Exact S label (virtualStreamRead s r).stream ∧
      (0 < r.count → r.off < S.pkg.length → Good S r (virtualStreamRead s r)) := by
  unfold virtualStreamRead
  by_cases hz : r.count = 0 ∨ s.totalPkgSize ≤ r.off
  · rw [if_pos hz]
    refine ⟨h, fun hcount hoff => ?_⟩
    have hp := h.totalPkgSize
    omega
  · rw [if_neg hz]
    have hp := h.totalPkgSize
    have hgood := readLoop_good h hr (by omega) (by omega)
    exact ⟨hgood.2, fun _ _ => hgood.1⟩

theorem afterReads_exact {S : Split} {label : Path → Option Nat} {s : VirtualStream}
    (rs : List Request) (h : Exact S label s) (hr : ∀ r ∈ rs, GenuineRequest S label r) :
    Exact S label (afterReads s rs) := by
  induction rs generalizing s with
  | nil => exact h
  | cons r rs ih =>
    have hnext := (virtualStreamRead_exact h (hr r List.mem_cons_self)).1
    exact ih hnext fun r' hr' => hr r' (List.mem_cons_of_mem _ hr')

/-! The table of a fresh stream. -/

/-- Part `i` of the table when the stream was opened on part `o`: read from its
header where it is mounted, estimated from part `o` otherwise. -/
structure Resolved (S : Split) (label : Path → Option Nat) (present : Nat → Bool) (o : Nat)
    (s : VirtualStream) (i : Nat) : Prop where
  fd : (s.parts i).fd = none
  mounted : i = o ∨ present i = true → Placed S s i ∧ (s.parts i).path ≠ [] ∧
    label (s.parts i).path = some i ∧ (s.parts i).dataOffset = dataStart (S.header i)
  path_missing : i ≠ o → present i = false → (s.parts i).path = []
  start_missing : i ≠ o → present i = false → (s.parts i).startPkgOffset =
    if i = 0 then 0 else (s.parts (i - 1)).startPkgOffset + (s.parts (i - 1)).partDataSize
  size_missing : i ≠ o → present i = false → (s.parts i).partDataSize =
    if i + 1 = S.pieces.length then (S.pkg.length + 2 ^ 64 - (s.parts i).startPkgOffset) % 2 ^ 64
    else (piece S.pieces o).length

theorem startOf_pos {S : Split} {i : Nat} (h0 : 0 < i) (hi : i < S.pieces.length) :
    0 < startOf S.pieces i := by
  have hfirst := S.filled (by omega) 0 (by omega)
  have hm := startOf_mono S.pieces (show 1 ≤ i from h0)
  have h1 : startOf S.pieces 1 = startOf S.pieces 0 + _ := startOf_succ S.pieces 0
  omega

/-- What resolving part `i + 1` stores. -/
theorem resolvePart_ok {S : Split} {label : Path → Option Nat} {present : Nat → Bool} {o i : Nat}
    {files : Files} {find : Nat → Option Path} {initial : Path} {s : VirtualStream}
    (hop : Opened S label present o files find initial) (hov : Over S s) (ho : o < S.pieces.length)
    (hi : i < S.pieces.length) (hzero : (s.parts i).startPkgOffset = 0) :
    ∃ part, resolvePart files find (S.header o) initial s (i + 1) = .ok (s.setPart i part) ∧
      Resolved S label present o (s.setPart i part) i := by
  have hself : ∀ part, (s.setPart i part).parts i = part := fun part => by simp [VirtualStream.setPart]
  have hprev : ∀ part, i ≠ 0 → (s.setPart i part).parts (i - 1) = s.parts (i - 1) := by
    intro part h0
    have hne : i - 1 ≠ i := by omega
    simp [VirtualStream.setPart, hne]
  have hmount : ∀ path, path ≠ [] → label path = some i →
      files (localPath path) = some (S.file i) →
      (if i + 1 = (S.header o).partIndex then some initial else find (i + 1)) = some path →
      (i = o ∨ present i = true) →
      ∃ part, resolvePart files find (S.header o) initial s (i + 1) = .ok (s.setPart i part) ∧
        Resolved S label present o (s.setPart i part) i := by
    intro path hne hlabel hfile hfound hm
    generalize hstart : (if i + 1 = 1 then 0 else if 0 < (S.header i).partOffset then
      (S.header i).partOffset else (s.parts (i + 1 - 2)).startPkgOffset +
        (s.parts (i + 1 - 2)).partDataSize) = start
    have hexact : start = startOf S.pieces i := by
      rw [S.offset i hi] at hstart
      by_cases h0 : i = 0
      · subst h0
        simpa [startOf_zero] using hstart.symm
      · rw [if_neg (by omega), if_pos (startOf_pos (by omega) hi)] at hstart
        exact hstart.symm
    refine ⟨⟨path, start, (S.header i).partDataSize, dataStart (S.header i), none⟩, ?_, ?_⟩
    · unfold resolvePart
      simp only [hfound, hfile, S.read i hi, hstart, Nat.add_sub_cancel]
    · refine ⟨by rw [hself], fun _ => ⟨⟨?_, ?_⟩, ?_, ?_, ?_⟩, ?_, ?_, ?_⟩
      · rw [hself]
        exact hexact
      · rw [hself]
        exact S.dataSize i hi
      · rw [hself]
        exact hne
      · rw [hself]
        exact hlabel
      · rw [hself]
      · intro h1 h2
        simp [h1, h2] at hm
      · intro h1 h2
        simp [h1, h2] at hm
      · intro h1 h2
        simp [h1, h2] at hm
  have hidx : (S.header o).partIndex = o + 1 := S.index o ho
  by_cases heq : i = o
  · subst heq
    exact hmount initial hop.initial_ne hop.initial_label hop.initial_file
      (if_pos hidx.symm) (.inl rfl)
  · have hne : ¬i + 1 = (S.header o).partIndex := by omega
    cases hp : present i with
    | true =>
      obtain ⟨path, hfind, hpath, hlabel, hfile⟩ := hop.found i hi heq hp
      exact hmount path hpath hlabel hfile (by rw [if_neg hne, hfind]) (.inr hp)
    | false =>
      have hfind := hop.missing i hi heq hp
      generalize hstart : (if 1 < i + 1 then (s.parts (i + 1 - 2)).startPkgOffset +
        (s.parts (i + 1 - 2)).partDataSize else (s.parts i).startPkgOffset) = start
      generalize hsize : (if i + 1 = s.totalParts then (s.totalPkgSize + 2 ^ 64 - start) % 2 ^ 64
        else (S.header o).partDataSize) = size
      refine ⟨⟨[], start, size, headerSize, none⟩, ?_, ?_⟩
      · unfold resolvePart
        simp only [if_neg hne, hfind, Nat.add_sub_cancel, hstart, hsize]
      · refine ⟨by rw [hself], ?_, fun _ _ => by rw [hself], fun _ _ => ?_, fun _ _ => ?_⟩
        · intro hm
          simp [heq, hp] at hm
        · rw [hself]
          show start = _
          rw [← hstart]
          by_cases h0 : i = 0
          · rw [if_pos h0, if_neg (by omega), hzero]
          · rw [if_neg h0, if_pos (by omega), hprev _ h0]
            rfl
        · rw [hself]
          show size = _
          rw [← hsize, hov.totalParts, hov.totalPkgSize, S.dataSize o ho]

theorem setPart_over {S : Split} {s : VirtualStream} (h : Over S s) (i : Nat) (part : VirtualPart) :
    Over S (s.setPart i part) :=
  ⟨h.totalParts, h.totalPkgSize, h.packageUuid, h.pkgFilename⟩

theorem Resolved.congr {S : Split} {label : Path → Option Nat} {present : Nat → Bool} {o : Nat}
    {s s' : VirtualStream} {i : Nat} (h : Resolved S label present o s i)
    (h1 : s'.parts i = s.parts i) (h2 : s'.parts (i - 1) = s.parts (i - 1)) :
    Resolved S label present o s' i := by
  refine ⟨?_, fun hm => ⟨⟨?_, ?_⟩, ?_⟩, ?_, ?_, ?_⟩
  · rw [h1]
    exact h.fd
  · rw [h1]
    exact (h.mounted hm).1.start
  · rw [h1]
    exact (h.mounted hm).1.size
  · rw [h1]
    exact (h.mounted hm).2
  · rw [h1]
    exact h.path_missing
  · rw [h1, h2]
    exact h.start_missing
  · rw [h1]
    exact h.size_missing

/-- The loop over the parts, from part `k + 1` on. -/
theorem resolveParts_ok {S : Split} {label : Path → Option Nat} {present : Nat → Bool} {o : Nat}
    {files : Files} {find : Nat → Option Path} {initial : Path}
    (hop : Opened S label present o files find initial) (ho : o < S.pieces.length) (n k : Nat)
    (s : VirtualStream) (hk : k + n = S.pieces.length) (hov : Over S s)
    (hdone : ∀ i < k, Resolved S label present o s i)
    (hzero : ∀ i, k ≤ i → (s.parts i).startPkgOffset = 0) :
    ∃ s', resolveParts files find (S.header o) initial n (k + 1) s = .ok s' ∧ Over S s' ∧
      ∀ i < S.pieces.length, Resolved S label present o s' i := by
  induction n generalizing k s with
  | zero => exact ⟨s, rfl, hov, fun i hi => hdone i (by omega)⟩
  | succ n ih =>
    obtain ⟨part, hok, hres⟩ := resolvePart_ok hop hov ho (by omega : k < S.pieces.length)
      (hzero k (Nat.le_refl k))
    have hother : ∀ i, i ≠ k → (s.setPart k part).parts i = s.parts i := fun i hi => by
      simp [VirtualStream.setPart, hi]
    rw [resolveParts]
    simp only [hok]
    refine ih (k + 1) _ (by omega) (setPart_over hov k part) ?_ ?_
    · intro i hi
      by_cases he : i = k
      · exact he ▸ hres
      · exact (hdone i (by omega)).congr (hother i he) (hother (i - 1) (by omega))
    · intro i hi
      rw [hother i (by omega)]
      exact hzero i (by omega)

theorem virtualStreamOpen_ok {S : Split} {label : Path → Option Nat} {present : Nat → Bool} {o : Nat}
    {files : Files} {find : Nat → Option Path} {initial : Path}
    (hop : Opened S label present o files find initial) (ho : o < S.pieces.length) :
    ∃ s, virtualStreamOpen files find initial = .ok s ∧ Over S s ∧
      ∀ i < S.pieces.length, Resolved S label present o s i := by
  have hpos := S.count_pos
  have hle := S.count_le
  have hvalid : ¬((S.header o).totalParts = 0 ∨ maxParts < (S.header o).totalParts) := by
    rw [S.total o ho]
    omega
  unfold virtualStreamOpen
  simp only [hop.initial_file, S.read o ho]
  rw [if_neg hvalid, S.total o ho]
  exact resolveParts_ok hop ho _ 0 _ (Nat.zero_add _)
    ⟨rfl, S.pkgSize o ho, S.packageUuid o ho, S.pkgFilename o ho⟩ (fun i hi => by omega)
    (fun i _ => rfl)

/-- A part that is not mounted, has a successor and is not of the size of the opened one. -/
def Misjudged (S : Split) (present : Nat → Bool) (o i : Nat) : Prop :=
  i ≠ o ∧ present i = false ∧ i + 1 < S.pieces.length ∧
    (piece S.pieces i).length ≠ (piece S.pieces o).length

theorem start_of_placed {S : Split} {label : Path → Option Nat} {present : Nat → Bool} {o : Nat}
    {s : VirtualStream} {i : Nat} (h : Resolved S label present o s i)
    (hprev : i ≠ 0 → Placed S s (i - 1)) : (s.parts i).startPkgOffset = startOf S.pieces i := by
  by_cases hm : i = o ∨ present i = true
  · exact (h.mounted hm).1.start
  · simp only [not_or, Bool.not_eq_true] at hm
    rw [h.start_missing hm.1 hm.2]
    cases i with
    | zero => rw [startOf_zero, if_pos rfl]
    | succ i =>
      have hp := hprev (Nat.succ_ne_zero i)
      rw [if_neg (Nat.succ_ne_zero i), startOf_succ, hp.start, hp.size]
      rfl

theorem placed_step {S : Split} {label : Path → Option Nat} {present : Nat → Bool} {o : Nat}
    {s : VirtualStream} {i : Nat} (h : Resolved S label present o s i) (hi : i < S.pieces.length)
    (hprev : i ≠ 0 → Placed S s (i - 1)) (hok : ¬Misjudged S present o i) : Placed S s i := by
  have hstart := start_of_placed h hprev
  refine ⟨hstart, ?_⟩
  by_cases hm : i = o ∨ present i = true
  · exact (h.mounted hm).1.size
  · simp only [not_or, Bool.not_eq_true] at hm
    rw [h.size_missing hm.1 hm.2, hstart]
    by_cases hlast : i + 1 = S.pieces.length
    · have hsmall := S.small
      have htotal : S.pkg.length = startOf S.pieces i + (piece S.pieces i).length := by
        rw [← S.flatten, ← startOf_length, ← hlast, startOf_succ]
      rw [if_pos hlast]
      omega
    · rw [if_neg hlast]
      by_contra hne
      exact hok ⟨hm.1, hm.2, by omega, fun he => hne he.symm⟩

/-- The table is right up to the first misjudged part. -/
theorem placed_below {S : Split} {label : Path → Option Nat} {present : Nat → Bool} {o : Nat}
    {s : VirtualStream} (h : ∀ i < S.pieces.length, Resolved S label present o s i) (k : Nat)
    (hk : k ≤ S.pieces.length) (hok : ∀ i < k, ¬Misjudged S present o i) :
    ∀ i < k, Placed S s i := by
  induction k with
  | zero => exact fun i hi => absurd hi (Nat.not_lt_zero i)
  | succ k ih =>
    have hlow := ih (by omega) fun i hi => hok i (by omega)
    intro i hi
    by_cases he : i = k
    · subst he
      exact placed_step (h i (by omega)) (by omega) (fun h0 => hlow (i - 1) (by omega)) (hok i hi)
    · exact hlow i (by omega)

theorem reads_agree_of_uniform {S : Split} {present : Nat → Bool} {o : Nat}
    (ho : o < S.pieces.length) (hok : ∀ i, ¬Misjudged S present o i) : ReadsAgree S present o := by
  intro label files find initial hop
  obtain ⟨s, hs, hov, hres⟩ := virtualStreamOpen_ok hop ho
  have hexact : Exact S label s := by
    refine ⟨hov, placed_below hres _ (Nat.le_refl _) fun i _ => hok i, fun i hi => ?_⟩
    have hr := hres i hi
    have hmounted : (s.parts i).path ≠ [] → i = o ∨ present i = true := by
      intro hne
      by_contra hm
      simp only [not_or, Bool.not_eq_true] at hm
      exact hne (hr.path_missing hm.1 hm.2)
    refine ⟨fun hne => (hr.mounted (hmounted hne)).2.2.2, fun hne => (hr.mounted (hmounted hne)).2.2.1,
      fun f hf => ?_⟩
    rw [hr.fd] at hf
    cases hf
  refine ⟨s, hs, fun rs r hrs hr hcount hoff => ?_⟩
  exact (virtualStreamRead_exact (afterReads_exact rs hexact hrs) hr).2 hcount hoff

/-! A misjudged part. -/

/-- The path of part `i` on its own disc. -/
def discPath (i : Nat) : Path := List.replicate (i + 1) 97

def discLabel (path : Path) : Option Nat := some (path.length - 1)

/-- No file of the table can be opened, and the disc waiter supplies every part. -/
def discTurn (S : Split) : Turn where
  files := fun _ => none
  waitDisc := fun _ _ p _ => some (discPath (p - 1))
  later := fun path => some (S.file (path.length - 1))
  short := fun _ => 0

def discFiles (S : Split) : Files := fun path => some (S.file (path.length - 1))

theorem localPath_discPath (i : Nat) : localPath (discPath i) = discPath i := by
  unfold localPath
  rw [if_neg]
  unfold discPath
  rw [List.replicate_succ, List.take_succ_cons]
  intro h
  have hhead := List.head_eq_of_cons_eq h
  exact absurd hhead (by decide)

theorem discPath_length (i : Nat) : (discPath i).length - 1 = i := by simp [discPath]

theorem discTurn_genuine (S : Split) : GenuineTurn S discLabel (discTurn S) := by
  refine ⟨nofun, fun i hi => ⟨discPath i, rfl, List.cons_ne_nil _ _, ?_, ?_, ?_⟩⟩
  · unfold discLabel
    rw [discPath_length]
  · rw [localPath_discPath]
    unfold discTurn
    simp only [discPath_length]
  · unfold discTurn
    simp only [discPath_length]

theorem disc_opened (S : Split) (present : Nat → Bool) (o : Nat) :
    Opened S discLabel present o (discFiles S)
      (fun p => if present (p - 1) then some (discPath (p - 1)) else none) (discPath o) := by
  have hfile : ∀ i, discFiles S (localPath (discPath i)) = some (S.file i) := by
    intro i
    rw [localPath_discPath]
    unfold discFiles
    rw [discPath_length]
  have hlabel : ∀ i, discLabel (discPath i) = some i := by
    intro i
    unfold discLabel
    rw [discPath_length]
  refine ⟨List.cons_ne_nil _ _, hlabel o, hfile o, fun i _ _ hp => ?_, fun i _ _ hp => ?_⟩
  · exact ⟨discPath i, by simp [hp], List.cons_ne_nil _ _, hlabel i, hfile i⟩
  · simp [hp]

/-- A fresh read that has to wait for another part than the one it needs is not good. -/
theorem not_good_of_partAt {S : Split} {s : VirtualStream} {i off : Nat} (hov : Over S s)
    (hoff : off < S.pkg.length) (hfresh : ∀ j < S.pieces.length, (s.parts j).fd = none)
    (hlo : startOf S.pieces i ≤ off) (hhi : off < startOf S.pieces i + (piece S.pieces i).length)
    (hne : partAt s off ≠ some i) :
    ¬Good S ⟨off, 1, fun _ => discTurn S, 2⟩
      (virtualStreamRead s ⟨off, 1, fun _ => discTurn S, 2⟩) := by
  intro hgood
  have hsize := hov.totalPkgSize
  unfold virtualStreamRead at hgood
  rw [if_neg (by simp only; omega)] at hgood
  cases hat : partAt s off with
  | none =>
    obtain ⟨bs, hbs, _⟩ := hgood.bytes
    simp [readLoop, readPass, hat] at hbs
  | some j =>
    have hj : j < S.pieces.length := by
      unfold partAt at hat
      rw [hov.totalParts] at hat
      exact List.mem_range.mp (List.mem_of_find?_eq_some hat)
    have hpass : (readPass s off 1 (discTurn S)).asked = some (j + 1) := by
      rw [readPass_eq hat, hfresh j hj]
      have hnone : (if (none : Option (List UInt8)) = none ∧ (s.parts j).path ≠ [] then
          (discTurn S).files (s.parts j).path else none) = none := by
        split <;> rfl
      rw [hnone]
    have hasked : j + 1 ∈ (readLoop off 1 (fun _ => discTurn S) 2 0 s).asked := by
      rw [readLoop]
      simp only [hpass]
      cases (readPass s off 1 (discTurn S)).result <;> simp
    obtain ⟨h1, h2⟩ := hgood.asked (j + 1) hasked
    have he := piece_unique S.pieces h1 h2 hlo hhi
    exact hne (by rw [hat, ← he]; rfl)

/-- The first misjudged part draws a read to the wrong part, or to none. -/
theorem not_reads_agree {S : Split} {present : Nat → Bool} {o i : Nat} (ho : o < S.pieces.length)
    (hbad : Misjudged S present o i) : ¬ReadsAgree S present o := by
  intro hag
  induction i using Nat.strongRecOn with
  | ind i ih =>
    have hfirst : ∀ j < i, ¬Misjudged S present o j := fun j hj hb => ih j hj hb
    obtain ⟨hne, hp, hnext, hsize⟩ := hbad
    have hi : i < S.pieces.length := by omega
    obtain ⟨s, hs, hov, hres⟩ := virtualStreamOpen_ok (disc_opened S present o) ho
    have hstart := start_of_placed (hres i hi) fun h0 =>
      placed_below hres i (by omega) hfirst (i - 1) (by omega)
    have hest : (s.parts i).partDataSize = (piece S.pieces o).length := by
      rw [(hres i hi).size_missing hne hp, if_neg (by omega)]
    have hlast := startOf_succ S.pieces i
    -- the read of one byte of part `j` on the fresh stream
    have hread : ∀ j off, j < S.pieces.length → startOf S.pieces j ≤ off →
        off < startOf S.pieces j + (piece S.pieces j).length → partAt s off = some j := by
      intro j off hj hlo hhi
      have hoff : off < S.pkg.length := by
        have hm := startOf_mono S.pieces (show j + 1 ≤ S.pieces.length from hj)
        rw [startOf_succ, startOf_length, S.flatten] at hm
        omega
      by_contra hat
      refine not_good_of_partAt hov hoff (fun k hk => (hres k hk).fd) hlo hhi hat ?_
      obtain ⟨s', hs', hgood⟩ := hag _ _ _ _ (disc_opened S present o)
      obtain rfl : s = s' := Except.ok.inj (hs.symm.trans hs')
      exact hgood [] _ nofun ⟨Nat.le_refl 2, fun _ => discTurn_genuine S⟩ Nat.one_pos hoff
    rcases Nat.lt_or_gt_of_ne hsize with hlt | hgt
    · -- the estimate reaches into the next part
      have hfilled := S.filled (by omega) (i + 1) hnext
      have hat := hread (i + 1) (startOf S.pieces (i + 1)) hnext (Nat.le_refl _) (by omega)
      have hcov : covers s (startOf S.pieces (i + 1)) i = true := by
        unfold covers
        rw [hstart, hest]
        exact decide_eq_true (by omega)
      have hskip := (List.find?_range_eq_some.mp hat).2.2 i (Nat.lt_succ_self i)
      rw [hcov] at hskip
      cases hskip
    · -- the estimate ends before the part does
      have hat := hread i (startOf S.pieces i + (piece S.pieces o).length) hi (by omega) (by omega)
      have hcov := List.find?_some hat
      unfold covers at hcov
      rw [hstart, hest] at hcov
      have hlt := (of_decide_eq_true hcov).2
      omega

end PkgManager.MultipartReads
