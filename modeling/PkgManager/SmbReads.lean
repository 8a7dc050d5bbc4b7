import PkgManager.SmbPipeline

namespace PkgManager.SmbReads

open Memory RingBuffer SmbPipeline

/-- The requests in flight, oldest first. -/
def queue (depth : Nat) (p : Pipe) : List Slot := window p.slots depth p.head p.inFlight

/-- The slots take consecutive stretches of the buffer, from `a` to `b`. -/
def Tiled : Nat → List Slot → Nat → Prop
  | a, [], b => a = b
  | a, s :: ss, b => s.bufPos = a ∧ Tiled (a + s.size) ss b

/-- `n` bytes of the buffer from `pos` on are those of the file at `off`. -/
def Holds (F : File) (off : Nat) (buf : Bytes) (pos n : Nat) : Prop :=
  ∀ k < n, F.content[off + k]? = some (buf (pos + k))

/-- What an answered slot promises. -/
def Answered (F : File) (c : Call) (buf : Bytes) (s : Slot) : Prop :=
  s.done = true → 0 ≤ s.result → s.result ≤ s.size ∧
    Holds F (u64 (c.offset + s.bufPos)) buf s.bufPos s.result.toNat

/-- The invariant of the read: the bytes that count are those of the file, the
stretches behind them are handed out in order, and libsmb2 works only on slots
of the queue that are not answered. -/
structure Sound (F : File) (c : Call) (depth : Nat) (p : Pipe) : Prop where
  tail : p.tail = p.head + p.inFlight
  room : p.inFlight ≤ depth
  tiled : ∃ a, p.totalRead ≤ a ∧ (p.discardInflight = false → a = p.totalRead) ∧
    Tiled a (queue depth p) (issued c p)
  issueOff_lt : p.issueOff < 2 ^ 64
  issued_le : issued c p ≤ c.count
  answered : ∀ s ∈ queue depth p, Answered F c p.buf s
  pending : ∀ r ∈ p.pending, ∃ k s, (queue depth p)[k]? = some s ∧ s.done = false ∧
    r = ⟨(p.head + k) % depth, s.bufPos, s.size, u64 (c.offset + s.bufPos)⟩
  distinct : (p.pending.map (·.slot)).Nodup
  counted : Holds F c.offset p.buf 0 p.totalRead
  error : p.readError ≤ 0

/-- What the caller gets. -/
structure Delivered (F : File) (c : Call) (p : Pipe) : Prop where
  le_count : p.totalRead ≤ c.count
  counted : Holds F c.offset p.buf 0 p.totalRead
  error : p.readError ≤ 0

variable {F : File} {c : Call} {depth : Nat} {p : Pipe}

/-! Stretches of the buffer. -/

theorem tiled_le {a b : Nat} {ss : List Slot} (h : Tiled a ss b) : a ≤ b := by
  induction ss generalizing a with
  | nil => exact Nat.le_of_eq h
  | cons s ss ih =>
    have hb := ih h.2
    omega

theorem tiled_bounds {a b i : Nat} {ss : List Slot} {s : Slot} (h : Tiled a ss b)
    (hs : ss[i]? = some s) : a ≤ s.bufPos ∧ s.bufPos + s.size ≤ b := by
  induction ss generalizing a i with
  | nil => simp at hs
  | cons t ss ih =>
    obtain ⟨hpos, htail⟩ := h
    cases i with
    | zero =>
      obtain rfl := Option.some.inj hs
      have hle := tiled_le htail
      omega
    | succ i =>
      have hb := ih htail hs
      omega

theorem tiled_append {a b : Nat} {ss : List Slot} {s : Slot} (h : Tiled a ss b)
    (hs : s.bufPos = b) : Tiled a (ss ++ [s]) (b + s.size) := by
  induction ss generalizing a with
  | nil =>
    have hab : a = b := h
    exact ⟨hab ▸ hs, hab ▸ rfl⟩
  | cons t ss ih => exact ⟨h.1, ih h.2⟩

theorem tiled_set {a b i : Nat} {ss : List Slot} {s s' : Slot} (h : Tiled a ss b)
    (hs : ss[i]? = some s) (hpos : s'.bufPos = s.bufPos) (hsize : s'.size = s.size) :
    Tiled a (ss.set i s') b := by
  induction ss generalizing a i with
  | nil => simp at hs
  | cons t ss ih =>
    cases i with
    | zero =>
      obtain rfl := Option.some.inj hs
      exact ⟨hpos.trans h.1, hsize ▸ h.2⟩
    | succ i => exact ⟨h.1, ih h.2 hs⟩

theorem tiled_lt {a b i j : Nat} {ss : List Slot} {s t : Slot} (h : Tiled a ss b) (hij : i < j)
    (hs : ss[i]? = some s) (ht : ss[j]? = some t) : s.bufPos + s.size ≤ t.bufPos := by
  induction ss generalizing a i j with
  | nil => simp at hs
  | cons u ss ih =>
    cases j with
    | zero => omega
    | succ j =>
      cases i with
      | zero =>
        obtain rfl := Option.some.inj hs
        have hb := tiled_bounds h.2 ht
        rw [h.1]
        exact hb.1
      | succ i => exact ih h.2 (by omega) hs ht

theorem tiled_apart {a b i j : Nat} {ss : List Slot} {s t : Slot} (h : Tiled a ss b) (hij : i ≠ j)
    (hs : ss[i]? = some s) (ht : ss[j]? = some t) :
    s.bufPos + s.size ≤ t.bufPos ∨ t.bufPos + t.size ≤ s.bufPos := by
  rcases Nat.lt_or_gt_of_ne hij with hlt | hgt
  · exact .inl (tiled_lt h hlt hs ht)
  · exact .inr (tiled_lt h hgt ht hs)

theorem holds_blit {off pos n at' len start : Nat} {buf src : Bytes} (h : Holds F off buf pos n)
    (hapart : pos + n ≤ at' ∨ at' + len ≤ pos) : Holds F off (blit buf at' src start len) pos n := by
  intro k hk
  rw [blit_outside (by omega)]
  exact h k hk

/-- What was copied from the file is right. -/
theorem holds_file {off n : Nat} (buf : Bytes) (pos : Nat) (hn : off + n ≤ F.content.length ∨ n = 0) :
    Holds F off (blit buf pos (F.content.getD · 0) off n) pos n := by
  intro k hk
  have hlt : off + k < F.content.length := by omega
  rw [blit_inside (by omega) (by omega), Nat.add_sub_cancel_left, List.getD_eq_getElem?_getD,
    List.getElem?_eq_getElem hlt]
  rfl

theorem queue_entry {i : Nat} {s : Slot} (h : (queue depth p)[i]? = some s) :
    i < p.inFlight ∧ p.slots ((p.head + i) % depth) = s := by
  have hi : i < p.inFlight := by
    obtain ⟨hlt, _⟩ := List.getElem?_eq_some_iff.mp h
    rwa [queue, length_window] at hlt
  refine ⟨hi, ?_⟩
  rw [queue, getElem?_window _ _ hi] at h
  exact Option.some.inj h

/-! Replies. -/

/-- Data for an unanswered request leaves everything that is promised alone. -/
theorem Sound.write {r : Request} (h : Sound F c depth p) (hr : r ∈ p.pending) {len : Nat}
    (hlen : len ≤ r.size) (src : Bytes) (start : Nat) :
    Sound F c depth { p with buf := blit p.buf r.bufPos src start len } := by
  obtain ⟨k, s, hk, hopen, rfl⟩ := h.pending r hr
  obtain ⟨a, hcounted, hfree, htiled⟩ := h.tiled
  refine ⟨h.tail, h.room, ⟨a, hcounted, hfree, htiled⟩, h.issueOff_lt, h.issued_le, ?_, h.pending,
    h.distinct, ?_, h.error⟩
  · intro t ht hdone hres
    obtain ⟨j, hj⟩ := List.mem_iff_getElem?.mp ht
    have hne : k ≠ j := by
      rintro rfl
      obtain rfl := Option.some.inj (hk.symm.trans hj)
      rw [hopen] at hdone
      cases hdone
    obtain ⟨hle, hholds⟩ := h.answered t ht hdone hres
    refine ⟨hle, holds_blit hholds ?_⟩
    have hle' : len ≤ s.size := hlen
    rcases tiled_apart htiled hne hk hj with hlow | hhigh
    · exact .inr (by show s.bufPos + len ≤ _; omega)
    · exact .inl (by show _ ≤ s.bufPos; omega)
  · apply holds_blit h.counted
    have hb := (tiled_bounds htiled hk).1
    exact .inl (by show _ ≤ s.bufPos; omega)

/-- The callback of a request whose data, if it succeeded, is in the buffer. -/
theorem Sound.callback {i : Nat} {r : Request} {status : Int} (h : Sound F c depth p)
    (hr : p.pending[i]? = some r)
    (hdata : 0 ≤ status → status ≤ r.size ∧ Holds F r.off p.buf r.bufPos status.toNat) :
    Sound F c depth (pipelineCb { p with pending := p.pending.eraseIdx i } r.slot status) := by
  obtain ⟨k, s, hk, hopen, rfl⟩ := h.pending r (List.mem_of_getElem? hr)
  obtain ⟨hlt, hslot⟩ := queue_entry hk
  obtain ⟨a, hcounted, hfree, htiled⟩ := h.tiled
  generalize hans : { s with result := status, done := true } = s'
  have hpos : s'.bufPos = s.bufPos := by rw [← hans]
  have hsize : s'.size = s.size := by rw [← hans]
  have hqueue : queue depth (pipelineCb { p with pending := p.pending.eraseIdx i }
      ((p.head + k) % depth) status) = (queue depth p).set k s' := by
    unfold queue pipelineCb
    simp only [hslot, hans]
    exact window_set _ _ hlt h.room s'
  refine ⟨h.tail, h.room, ⟨a, hcounted, hfree, ?_⟩, h.issueOff_lt, h.issued_le, ?_, ?_, ?_, h.counted,
    h.error⟩
  · rw [hqueue]
    exact tiled_set htiled hk hpos hsize
  · rw [hqueue]
    intro t ht
    rcases List.mem_or_eq_of_mem_set ht with hold | rfl
    · exact h.answered t hold
    · intro _ hres
      rw [← hans] at hres ⊢
      exact hdata hres
  · intro r' hr'
    obtain ⟨j, hne, hj⟩ := List.mem_eraseIdx_iff_getElem?.mp hr'
    obtain ⟨k', t, hk', hopen', rfl⟩ := h.pending r' (List.mem_of_getElem? hj)
    have hkk : k ≠ k' := by
      rintro rfl
      have hslots : ∀ (n : Nat) (q : Request), p.pending[n]? = some q →
          (p.pending.map (·.slot))[n]? = some q.slot := by
        intro n q hq
        rw [List.getElem?_map, hq]
        rfl
      have hi := hslots i _ hr
      have hj := hslots j _ hj
      obtain ⟨hlen, _⟩ := List.getElem?_eq_some_iff.mp hj
      exact hne ((List.getElem?_inj hlen h.distinct).mp (hj.trans hi.symm))
    refine ⟨k', t, ?_, hopen', rfl⟩
    rw [hqueue, List.getElem?_set_ne hkk]
    exact hk'
  · exact h.distinct.sublist ((List.eraseIdx_sublist p.pending i).map _)

theorem Sound.answer (h : Sound F c depth p) (reply : Reply) :
    Sound F c depth (answer F p reply) := by
  cases reply with
  | fragment i bytes =>
    simp only [SmbPipeline.answer]
    cases hr : p.pending[i]? with
    | none => exact h
    | some r => exact h.write (List.mem_of_getElem? hr) (Nat.min_le_right _ _) _ _
  | complete i n =>
    simp only [SmbPipeline.answer]
    cases hr : p.pending[i]? with
    | none => exact h
    | some r =>
      have hlen : min (min n r.size) (F.content.length - r.off) ≤ r.size := by omega
      have hw := h.write (List.mem_of_getElem? hr) hlen (F.content.getD · 0) r.off
      exact hw.callback (i := i) hr fun _ => ⟨by omega, holds_file _ _ (by omega)⟩
  | fail i errno =>
    simp only [SmbPipeline.answer]
    cases hr : p.pending[i]? with
    | none => exact h
    | some r => exact h.callback hr fun hneg => absurd hneg (by simp)

theorem Sound.service (h : Sound F c depth p) (replies : List Reply) :
    Sound F c depth (service F replies p) := by
  induction replies generalizing p with
  | nil => exact h
  | cons reply replies ih => exact ih (h.answer reply)

/-! Issuing. -/

theorem u64_issued (h : Sound F c depth p) : u64 (c.offset + issued c p) = p.issueOff := by
  have hoff := c.offset_lt
  have hlt := h.issueOff_lt
  unfold issued u64 u64Sub
  omega

theorem Sound.issue {toReq : Nat} (h : Sound F c depth p) (hroom : p.inFlight < depth)
    (hle : issued c p + toReq ≤ c.count) (rc : Int) :
    Sound F c depth (issue depth c rc p toReq) := by
  obtain ⟨a, hcounted, hfree, htiled⟩ := h.tiled
  have hoff := u64_issued h
  unfold SmbPipeline.issue
  simp only [h.tail]
  by_cases hrc : rc < 0
  · rw [if_pos hrc]
    have hqueue := window_behind p.slots p.head hroom ⟨false, 0, issued c p, toReq⟩
    refine ⟨rfl, h.room, ⟨a, hcounted, hfree, ?_⟩, h.issueOff_lt, h.issued_le, ?_, ?_, h.distinct,
      h.counted, Int.le_of_lt hrc⟩ <;> unfold queue <;> simp only [hqueue]
    · exact htiled
    · exact h.answered
    · exact h.pending
  · rw [if_neg hrc]
    have hqueue := window_push p.slots p.head hroom ⟨false, 0, issued c p, toReq⟩
    have hcount := c.count_lt
    have hstart := c.offset_lt
    have hissued : u64Sub (u64 (p.issueOff + toReq)) c.offset = issued c p + toReq := by
      have hlt := h.issueOff_lt
      unfold issued u64Sub at hle ⊢
      unfold u64
      omega
    refine ⟨?_, hroom, ⟨a, hcounted, hfree, ?_⟩, u64_lt _, ?_, ?_, ?_, ?_, h.counted,
      h.error⟩
    · show p.head + p.inFlight + 1 = p.head + (p.inFlight + 1)
      rw [Nat.add_assoc]
    · show Tiled a (window _ depth p.head (p.inFlight + 1)) (u64Sub (u64 (p.issueOff + toReq)) c.offset)
      rw [hqueue, hissued]
      exact tiled_append (s := ⟨false, 0, issued c p, toReq⟩) htiled rfl
    · show u64Sub (u64 (p.issueOff + toReq)) c.offset ≤ c.count
      rw [hissued]
      exact hle
    · unfold queue
      simp only [hqueue]
      intro s hs
      rcases List.mem_append.mp hs with hold | hnew
      · exact h.answered s hold
      · obtain rfl := List.mem_singleton.mp hnew
        intro hdone
        cases hdone
    · unfold queue
      simp only [hqueue]
      intro r hr
      rcases List.mem_append.mp hr with hold | hnew
      · obtain ⟨k, s, hk, hrest⟩ := h.pending r hold
        obtain ⟨hlt, _⟩ := List.getElem?_eq_some_iff.mp hk
        exact ⟨k, s, (List.getElem?_append_left hlt).trans hk, hrest⟩
      · obtain rfl := List.mem_singleton.mp hnew
        refine ⟨p.inFlight, ⟨false, 0, issued c p, toReq⟩, ?_, rfl, ?_⟩
        · rw [List.getElem?_append_right (by rw [length_window]), length_window, Nat.sub_self]
          rfl
        · simp only [hoff]
    · rw [List.map_append, List.nodup_append]
      refine ⟨h.distinct, by simp, ?_⟩
      intro x hx y hy he
      obtain ⟨r, hr, rfl⟩ := List.mem_map.mp hx
      obtain rfl := List.mem_singleton.mp hy
      obtain ⟨k, s, hk, _, rfl⟩ := h.pending r hr
      have hlt := (queue_entry hk).1
      have hk' := index_inj p.head (by omega) hroom he
      omega

theorem toRequest_le {s : Session} {cr : Credits} {left n : Nat}
    (h : toRequest s cr left = some n) : n ≤ left := by
  unfold toRequest at h
  simp only at h
  split at h
  · split at h
    · cases h
    · split at h
      · cases h
      · obtain rfl := Option.some.inj h
        omega
  · split at h
    · cases h
    · obtain rfl := Option.some.inj h
      omega

theorem targetCount_le (s : Session) (c : Call) : targetCount s c ≤ c.count := by
  unfold targetCount
  split
  · split
    · exact Nat.zero_le _
    · split <;> omega
  · exact Nat.le_refl _

theorem Sound.issueLoop {s : Session} {env : Env} (h : Sound F c depth p) (n : Nat) :
    Sound F c depth (issueLoop depth s c env n p) := by
  induction n generalizing p with
  | zero => exact h
  | succ n ih =>
    rw [SmbPipeline.issueLoop]
    split
    · rename_i hgo
      cases hreq : toRequest s (env.credits p.looked) (targetCount s c - issued c p) with
      | none =>
        exact ⟨h.tail, h.room, h.tiled, h.issueOff_lt, h.issued_le, h.answered, h.pending, h.distinct,
          h.counted, h.error⟩
      | some toReq =>
        have hle := toRequest_le hreq
        have htarget := targetCount_le s c
        exact ih (h.issue hgo.2.1 (by omega) (env.submit p.looked))
    · exact h

/-! The event loop. -/

theorem Sound.delivered (h : Sound F c depth p) : Delivered F c p := by
  obtain ⟨a, hcounted, _, htiled⟩ := h.tiled
  have hle := tiled_le htiled
  have hissued := h.issued_le
  exact ⟨by omega, h.counted, h.error⟩

/-- What the event loop leaves: the invariant, or an aborted read. -/
def Driven (F : File) (c : Call) (depth : Nat) (p : Pipe) : Prop :=
  Sound F c depth p ∨ p.readError ≠ 0 ∧ p.connected = false ∧ Delivered F c p

theorem Sound.abort (h : Sound F c depth p) : Driven F c depth (abortTransport p) :=
  .inr ⟨show (-1 : Int) ≠ 0 by decide, rfl, h.delivered.le_count, h.counted, show (-1 : Int) ≤ 0 by decide⟩

theorem Sound.drive {env : Env} {q : Pipe} (h : Sound env.file c depth p) (n : Nat)
    (hq : drive depth env n p = some q) : Driven env.file c depth q := by
  induction n generalizing p with
  | zero => cases hq
  | succ n ih =>
    have hp : Sound env.file c depth { p with polled := p.polled + 1 } :=
      ⟨h.tail, h.room, h.tiled, h.issueOff_lt, h.issued_le, h.answered, h.pending, h.distinct,
        h.counted, h.error⟩
    rw [SmbPipeline.drive] at hq
    split at hq
    · obtain rfl := Option.some.inj hq
      exact .inl h
    · have hserve : ∀ replies (ok : Bool),
          (if ok then SmbPipeline.drive depth env n
              (SmbPipeline.service env.file replies { p with polled := p.polled + 1 })
            else some (abortTransport
              (SmbPipeline.service env.file replies { p with polled := p.polled + 1 }))) = some q →
          Driven env.file c depth q := by
        intro replies ok hs
        have hserved := hp.service replies
        cases ok with
        | true => exact ih hserved hs
        | false =>
          obtain rfl := Option.some.inj hs
          exact hserved.abort
      cases hpoll : env.poll p.polled with
      | interrupted =>
        simp only [hpoll] at hq
        exact ih hp hq
      | failed =>
        simp only [hpoll] at hq
        obtain rfl := Option.some.inj hq
        exact hp.abort
      | timeout replies ok =>
        simp only [hpoll] at hq
        exact hserve replies ok hq
      | invalid =>
        simp only [hpoll] at hq
        obtain rfl := Option.some.inj hq
        exact hp.abort
      | ready replies ok =>
        simp only [hpoll] at hq
        exact hserve replies ok hq

/-! Consuming. -/

/-- Positions that count stay below 2^64: the file holds a byte before each. -/
theorem u64_counted (h : Holds F c.offset p.buf 0 p.totalRead) :
    u64 (c.offset + p.totalRead) = c.offset + p.totalRead := by
  apply u64_of_lt
  have hoff := c.offset_lt
  cases hn : p.totalRead with
  | zero => exact hoff
  | succ n =>
    obtain ⟨hlt, _⟩ := List.getElem?_eq_some_iff.mp (h n (by omega))
    have hsmall := F.small
    omega

theorem holds_append {off m n : Nat} {buf : Bytes} (hm : Holds F off buf 0 m)
    (hn : Holds F (off + m) buf m n) : Holds F off buf 0 (m + n) := by
  intro k hk
  by_cases hlt : k < m
  · exact hm k hlt
  · have hnew := hn (k - m) (by omega)
    have hpos : m + (k - m) = k := by omega
    rw [Nat.add_assoc, hpos] at hnew
    rw [Nat.zero_add]
    exact hnew

/-- The oldest slot leaves the queue and, unless the rest is discarded, counts. -/
theorem Sound.account {n : Nat} (h : Sound F c depth p) (hn : p.inFlight = n + 1)
    (hdone : (p.slots (p.head % depth)).done = true) :
    Sound F c depth (account (p.slots (p.head % depth))
      { p with inFlight := p.inFlight - 1, head := p.head + 1 }) := by
  generalize hs : p.slots (p.head % depth) = s at hdone ⊢
  have hqueue : queue depth p = s :: window p.slots depth (p.head + 1) n := by
    unfold queue
    rw [hn, window_pop, hs]
  obtain ⟨a, hcounted, hfree, htiled⟩ := h.tiled
  have hanswered := h.answered
  have hpending := h.pending
  rw [hqueue] at htiled hanswered hpending
  have htail := h.tail
  have hroom := h.room
  obtain ⟨hpos, hrest⟩ := htiled
  -- what is left of the queue, whatever counts
  have hleft : ∀ p' : Pipe, p'.tail = p.tail → p'.inFlight = n → p'.head = p.head + 1 →
      p'.slots = p.slots → p'.issueOff = p.issueOff → p'.buf = p.buf → p'.pending = p.pending →
      p'.totalRead ≤ a + s.size → (p'.discardInflight = false → a + s.size = p'.totalRead) →
      Holds F c.offset p'.buf 0 p'.totalRead → p'.readError ≤ 0 → Sound F c depth p' := by
    intro p' h1 h2 h3 h4 h5 h6 h7 htotal hfree' hholds herror
    have hq' : queue depth p' = window p.slots depth (p.head + 1) n := by
      unfold queue
      rw [h2, h3, h4]
    have hissued : issued c p' = issued c p := by
      unfold issued
      rw [h5]
    refine ⟨by omega, by omega, ⟨a + s.size, htotal, hfree', ?_⟩, ?_, ?_, ?_, ?_, ?_, hholds, herror⟩
    · rw [hq', hissued]
      exact hrest
    · rw [h5]
      exact h.issueOff_lt
    · rw [hissued]
      exact h.issued_le
    · rw [hq', h6]
      exact fun t ht => hanswered t (List.mem_cons_of_mem _ ht)
    · rw [h7, hq', h3]
      intro r hr
      obtain ⟨k, t, hk, hopen, hreq⟩ := hpending r hr
      cases k with
      | zero =>
        obtain rfl := Option.some.inj hk
        rw [hdone] at hopen
        cases hopen
      | succ k =>
        refine ⟨k, t, hk, hopen, ?_⟩
        rw [hreq, Nat.add_assoc, Nat.add_comm 1 k]
    · rw [h7]
      exact h.distinct
  unfold SmbPipeline.account
  split
  · rename_i hdiscard
    refine hleft _ rfl (by simp only; omega) rfl rfl rfl rfl rfl (by simp only; omega) ?_ h.counted
      h.error
    intro hd
    rw [hd] at hdiscard
    cases hdiscard
  · rename_i hdiscard
    have ha := hfree (Bool.eq_false_iff.mpr hdiscard)
    split
    · rename_i hneg
      exact hleft _ rfl (by simp only; omega) rfl rfl rfl rfl rfl (by simp only; omega) nofun h.counted
        (Int.le_of_lt hneg)
    · rename_i hneg
      obtain ⟨hle, hdata⟩ := hanswered s List.mem_cons_self hdone (by omega)
      rw [hpos, ha, u64_counted h.counted] at hdata
      have hmore := holds_append h.counted hdata
      split
      · exact hleft _ rfl (by simp only; omega) rfl rfl rfl rfl rfl (by simp only; omega) nofun h.counted
          h.error
      · simp only
        split
        · exact hleft _ rfl (by simp only; omega) rfl rfl rfl rfl rfl (by simp only; omega) nofun hmore
            h.error
        · exact hleft _ rfl (by simp only; omega) rfl rfl rfl rfl rfl (by simp only; omega)
            (fun _ => by simp only; omega) hmore h.error

theorem account_inFlight (slot : Slot) (p : Pipe) : (SmbPipeline.account slot p).inFlight = p.inFlight := by
  unfold SmbPipeline.account
  split
  · rfl
  · split
    · rfl
    · split
      · rfl
      · simp only
        split <;> rfl

theorem Sound.consume (h : Sound F c depth p) (n : Nat) (hn : p.inFlight = n) :
    Sound F c depth (consume depth n p) := by
  induction n generalizing p with
  | zero => exact h
  | succ n ih =>
    rw [SmbPipeline.consume]
    by_cases hdone : (p.slots (p.head % depth)).done = true
    · simp only [hdone, ↓reduceIte]
      refine ih (h.account hn hdone) ?_
      rw [account_inFlight]
      exact Nat.sub_eq_of_eq_add hn
    · simp only [hdone]
      exact h

theorem start_sound (F : File) (c : Call) (depth : Nat) (buf : Bytes) :
    Sound F c depth (start c buf) := by
  have hzero : issued c (start c buf) = 0 := by
    have hoff := c.offset_lt
    simp only [issued, start, u64Sub]
    omega
  refine ⟨rfl, Nat.zero_le _, ⟨0, Nat.le_refl 0, fun _ => rfl, hzero.symm⟩, c.offset_lt, ?_, nofun,
    nofun, List.nodup_nil, nofun, Int.le_refl 0⟩
  rw [hzero]
  exact Nat.zero_le _

theorem pipelineLoop_delivered {s : Session} {env : Env} {q : Pipe} (n : Nat)
    (h : Sound env.file c depth p) (hq : pipelineLoop depth s c env n p = some q) :
    Delivered env.file c q := by
  induction n generalizing p with
  | zero => cases hq
  | succ n ih =>
    rw [pipelineLoop] at hq
    have hissued : Sound env.file c depth (SmbPipeline.issueLoop depth s c env depth p) :=
      h.issueLoop depth
    split at hq
    · simp only at hq
      split at hq
      · obtain rfl := Option.some.inj hq
        exact hissued.delivered
      · cases hdrive : drive depth env n (SmbPipeline.issueLoop depth s c env depth p) with
        | none =>
          rw [hdrive] at hq
          cases hq
        | some r =>
          rw [hdrive] at hq
          simp only at hq
          have hdriven := hissued.drive n hdrive
          split at hq
          · obtain rfl := Option.some.inj hq
            rcases hdriven with hsound | ⟨_, _, hdelivered⟩
            · exact hsound.delivered
            · exact hdelivered
          · rename_i hlive
            rcases hdriven with hsound | ⟨herror, hclosed, _⟩
            · exact ih (hsound.consume _ rfl) hq
            · exact absurd ⟨herror, by rw [hclosed]; exact Bool.false_ne_true⟩ hlive
    · obtain rfl := Option.some.inj hq
      exact h.delivered

theorem preadLocal_agrees {env : Env} {n : Nat} {buf buf' : Bytes} (hn : 0 < n)
    (h : preadLocal c env buf = ((n : Int), buf')) :
    n ≤ c.count ∧ ∀ k < n, env.file.content[c.offset + k]? = some (buf' k) := by
  unfold preadLocal at h
  cases hshort : env.pread with
  | none =>
    rw [hshort] at h
    have hneg := congrArg Prod.fst h
    simp only at hneg
    omega
  | some short =>
    rw [hshort] at h
    simp only at h
    split at h
    · have hneg := congrArg Prod.fst h
      simp only at hneg
      omega
    · obtain ⟨hlen, rfl⟩ := Prod.mk.inj h
      obtain rfl := Int.ofNat.inj hlen
      refine ⟨by omega, fun k hk => ?_⟩
      have hfits : c.offset + min (min c.count short) (env.file.content.length - c.offset) ≤
          env.file.content.length ∨ min (min c.count short) (env.file.content.length - c.offset) = 0 := by
        omega
      have hholds := holds_file buf 0 hfits k hk
      rwa [Nat.zero_add] at hholds

/-- Whatever libsmb2 does, a positive value of the read counts bytes of the file. -/
theorem file_session_read_agrees (depth : Nat) (s : Session) (c : Call) (env : Env) (fuel n : Nat)
    (buf buf' : Bytes) (hn : 0 < n)
    (hread : fileSessionRead depth s c env fuel buf = some ((n : Int), buf')) :
    n ≤ c.count ∧ ∀ k < n, env.file.content[c.offset + k]? = some (buf' k) := by
  unfold fileSessionRead at hread
  split at hread
  · have hzero := congrArg Prod.fst (Option.some.inj hread)
    simp only at hzero
    omega
  · split at hread
    · exact preadLocal_agrees hn (Option.some.inj hread)
    · split at hread
      · have hneg := congrArg Prod.fst (Option.some.inj hread)
        simp only at hneg
        omega
      · obtain ⟨p, hloop, hout⟩ := Option.map_eq_some_iff.mp hread
        obtain ⟨hvalue, rfl⟩ := Prod.mk.inj hout
        obtain ⟨hle, hholds, herror⟩ := pipelineLoop_delivered fuel (start_sound env.file c depth buf) hloop
        split at hvalue
        · obtain rfl := Int.ofNat.inj hvalue
          refine ⟨hle, fun k hk => ?_⟩
          have h := hholds k hk
          rwa [Nat.zero_add] at h
        · omega

/-- Six bytes over a server that reads two at a time. -/
def sixBytes : File := ⟨[10, 11, 12, 13, 14, 15], by decide⟩

def sixSession : Session := ⟨false, true, 6, 0x0311, 2⟩

def sixCall : Call := ⟨1, 5, by decide, by decide⟩

/-- The requests complete last to first, and the second one short. -/
def sixEnv : Env :=
  ⟨sixBytes, fun _ => ⟨8, [[1]]⟩, fun _ => 0,
    fun _ => .ready [.complete 2 2, .complete 1 1, .complete 0 2] true, none⟩

theorem file_session_read_agrees_short : ∃ buf,
    fileSessionRead pipelineDepth sixSession sixCall sixEnv 3 (fun _ => 0) = some (3, buf) ∧
      3 ≤ sixCall.count ∧ ∀ k < 3, sixBytes.content[sixCall.offset + k]? = some (buf k) := by
  have hvalue : (fileSessionRead pipelineDepth sixSession sixCall sixEnv 3 (fun _ => 0)).map
      (fun r => r.1) = some 3 := by decide
  obtain ⟨⟨value, buf⟩, hread, hv⟩ := Option.map_eq_some_iff.mp hvalue
  obtain rfl : value = 3 := hv
  exact ⟨buf, hread, file_session_read_agrees _ _ _ sixEnv 3 3 _ _ (by decide) hread⟩

end PkgManager.SmbReads
