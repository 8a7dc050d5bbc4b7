import PkgManager.LiveResume
import PkgManager.LiveWaited

namespace PkgManager.LiveAccepted

open Interleaving Memory LiveSession LiveCalls LiveSlots LiveReads LiveThreads LiveSound
open LiveResume LiveWaited

/-- What the cache keeps of segment `seg` of a message. -/
def slice (data : Bytes) (offset seg : Nat) : Stored := ⟨seg, fun o => data (seg * SEG - offset + o)⟩

/-- The message lies in the package, and each segment it touches was stored and acknowledged. -/
structure Covered (lv : Live) (new : List Stored) (offset : Nat) (data : Bytes) (len : Nat) : Prop where
  inside : offset + len ≤ lv.total
  stored : ∀ seg, seg * SEG < offset + len → offset < (seg + 1) * SEG →
    lv.ackedEver seg = true ∧ slice data offset seg ∈ new

/-- The sum of offset and length wraps around to a position in the package. -/
structure Wraps (lv : Live) (offset len : Nat) : Prop where
  active : lv.active = true
  aborted : lv.aborted = false
  aligned : offset % SEG = 0
  past : 2 ^ 64 ≤ offset + len
  fits : u64 (offset + len) ≤ lv.total

/-! A message that lies in the package. -/

structure Inside (lv : Live) (offset len : Nat) : Prop where
  pos : 0 < len
  aligned : offset % SEG = 0
  le : offset + len ≤ lv.total

theorem Inside.lastSeg {lv : Live} {offset len : Nat} (h : Inside lv offset len) (hs : Session lv) :
    LiveCalls.lastSeg offset len = (offset + len - 1) / SEG := by
  have hpos := h.pos
  have htotal := hs.total_le
  have hle := h.le
  unfold maxTotal at htotal
  unfold LiveCalls.lastSeg
  rw [u64_total hs h.le, u64Sub_of_le (by omega) (by omega)]

theorem alloc_history (lv : Live) (seg : Nat) : (allocSlotLocked lv seg).1.history = lv.history := by
  have hclaim (l : Live) (k : Nat) : (claim l seg k).history = l.history := by
    unfold claim
    split_ifs <;> rfl
  unfold allocSlotLocked
  split_ifs
  · rfl
  · cases freeSlot lv with
    | some i => exact hclaim lv i
    | none =>
      cases oldestSeg lv seg with
      | none => rfl
      | some old => exact hclaim _ _

/-- A segment the message touches is not passed over. -/
theorem storeSeg_not_skip {lv : Live} (h : Session lv) {offset len seg : Nat} (data : Bytes)
    (hin : Inside lv offset len) (hlo : offset ≤ seg * SEG) (hhi : seg * SEG < offset + len) :
    storeSegLocked lv seg data offset len ≠ (lv, 1) := by
  intro heq
  have hpos : 0 < segLenLocked lv seg := by
    have hle := hin.le
    have hseg : 0 < SEG := by decide
    simp only [segLenLocked]
    split_ifs <;> omega
  unfold storeSegLocked at heq
  simp only [u64_total h hin.le] at heq
  generalize hstart : (if seg * SEG < offset then offset else seg * SEG) = wStart at heq
  generalize hstop : (if offset + len < seg * SEG + segLenLocked lv seg then offset + len
    else seg * SEG + segLenLocked lv seg) = wEnd at heq
  have hlt : wStart < wEnd := by
    rw [← hstart, ← hstop]
    split_ifs <;> omega
  rw [if_neg (Nat.not_le.mpr hlt)] at heq
  by_cases hfit : wEnd - wStart ≠ segLenLocked lv seg
  · rw [if_pos hfit] at heq
    exact absurd (congrArg Prod.snd heq) (by simp)
  · rw [if_neg hfit] at heq
    by_cases hneg : (allocSlotLocked lv seg).2 < 0
    · rw [if_pos hneg] at heq
      exact absurd (congrArg Prod.snd heq) (by simp)
    · rw [if_neg hneg] at heq
      have hst := congrArg (fun r => r.1.history.stores.length) heq
      simp only [fillSlot, alloc_history, List.length_cons] at hst
      omega

/-- Segments `a` up to `b` of the message were stored. -/
structure Puts (data : Bytes) (offset : Nat) (a b : Nat) (lv lv' : Live) (new : List Stored) : Prop where
  stores : lv'.history.stores = new ++ lv.history.stores
  acked : ∀ s, lv.ackedEver s = true → lv'.ackedEver s = true
  covers : ∀ seg, a ≤ seg → seg < b → lv'.ackedEver seg = true ∧ slice data offset seg ∈ new

theorem Puts.refl (data : Bytes) (offset a : Nat) (lv : Live) : Puts data offset a a lv lv [] :=
  ⟨rfl, fun _ h => h, fun _ h1 h2 => absurd h2 (Nat.not_lt.mpr h1)⟩

theorem Puts.trans {data : Bytes} {offset a b c : Nat} {l₁ l₂ l₃ : Live} {n₁ n₂ : List Stored}
    (h : Puts data offset a b l₁ l₂ n₁) (k : Puts data offset b c l₂ l₃ n₂) :
    Puts data offset a c l₁ l₃ (n₂ ++ n₁) := by
  refine ⟨by rw [k.stores, h.stores, List.append_assoc], fun s hs => k.acked s (h.acked s hs), ?_⟩
  intro seg ha hc
  by_cases hb : seg < b
  · obtain ⟨hack, hmem⟩ := h.covers seg ha hb
    exact ⟨k.acked seg hack, List.mem_append_right n₂ hmem⟩
  · obtain ⟨hack, hmem⟩ := k.covers seg (Nat.not_lt.mp hb) hc
    exact ⟨hack, List.mem_append_left n₁ hmem⟩

theorem store_puts {lv lv' : Live} {seg k : Nat} {data : Bytes} {offset len : Nat}
    (h : Store lv lv' seg k data offset len) :
    Puts data offset seg (seg + 1) lv lv' [slice data offset seg] := by
  refine ⟨h.stores, fun s hs => ?_, fun s h1 h2 => ?_⟩
  · rw [h.ackedEver, Function.update_apply]
    split_ifs
    · rfl
    · exact hs
  · obtain rfl : s = seg := by omega
    rw [h.ackedEver]
    exact ⟨Function.update_self _ _ _, List.mem_singleton_self _⟩

/-- The ways a segment that the message touches is dealt with. -/
theorem storeSeg_inside {lv : Live} (h : Session lv) {offset len seg : Nat} (data : Bytes)
    (hin : Inside lv offset len) (hlo : offset ≤ seg * SEG) (hhi : seg * SEG < offset + len) :
    (storeSegLocked lv seg data offset len = (lv, -1) ∨ storeSegLocked lv seg data offset len = (lv, -2)) ∨
      ∃ lv' k, storeSegLocked lv seg data offset len = (lv', ((k : Nat) : Int)) ∧
        Store lv lv' seg k data offset len := by
  have hnot := storeSeg_not_skip h data hin hlo hhi
  have hc := store_cases h seg data offset len
  generalize storeSegLocked lv seg data offset len = st at hnot hc
  obtain ⟨lv', r⟩ := st
  cases hc with
  | skip => exact absurd rfl hnot
  | misfit => exact .inl (.inl rfl)
  | busy => exact .inl (.inr rfl)
  | @stored _ k hst => exact .inr ⟨lv', k, rfl, hst⟩

theorem inside_store {lv lv' : Live} {seg k : Nat} {data : Bytes} {offset len o l : Nat}
    (h : Inside lv o l) (hst : Store lv lv' seg k data offset len) : Inside lv' o l :=
  ⟨h.pos, h.aligned, hst.total ▸ h.le⟩

theorem tryWriteLoop_puts {lv : Live} (h : Session lv) {offset len : Nat} (data : Bytes)
    (hin : Inside lv offset len) (n s : Nat) (hlo : offset ≤ s * SEG)
    (hhi : ∀ t, t < s + n → t * SEG < offset + len)
    (hret : (tryWriteLoop data offset len n s lv).2 = 0) :
    ∃ new, Puts data offset s (s + n) lv (tryWriteLoop data offset len n s lv).1 new := by
  induction n generalizing s lv with
  | zero => exact ⟨[], .refl _ _ _ _⟩
  | succ n ih =>
    rw [tryWriteLoop_succ] at hret ⊢
    have hsucc : offset ≤ (s + 1) * SEG := by
      rw [Nat.succ_mul]
      omega
    have hmore : ∀ t, t < s + 1 + n → t * SEG < offset + len := fun t ht => hhi t (by omega)
    rcases storeSeg_inside h data hin hlo (hhi s (by omega)) with (he | he) | ⟨lv', k, he, hst⟩
    · rw [he] at hret
      exact absurd hret (by simp)
    · rw [he] at hret
      exact absurd hret (by simp)
    · have hnext : (if ((k : Nat) : Int) = 1 then tryWriteLoop data offset len n (s + 1) lv'
          else if ((k : Nat) : Int) = -1 then (lv', -1)
          else if ((k : Nat) : Int) = -2 then (lv', -2)
          else tryWriteLoop data offset len n (s + 1) lv') =
          tryWriteLoop data offset len n (s + 1) lv' := by
        split_ifs <;> first | rfl | contradiction
      simp only [he] at hret ⊢
      rw [hnext] at hret ⊢
      obtain ⟨new, hputs⟩ := ih (hst.session h) (inside_store hin hst) (s + 1) hsucc hmore hret
      have hwhole := (store_puts hst).trans hputs
      rw [Nat.add_assoc, Nat.add_comm 1 n] at hwhole
      exact ⟨_, hwhole⟩

/-- How `ws_live_write` gives up the lock: with an answer, or in front of a segment. -/
def LoopEnds (data : Bytes) (offset s n : Nat) (lv lv' : Live) (w : WriteCall) (new : List Stored) :
    WriteTurn → Prop
  | .done r => r = 0 → Puts data offset s (s + n) lv lv' new
  | .wait w' => w'.offset = w.offset ∧ w'.len = w.len ∧ w'.data = w.data ∧ s ≤ w'.seg ∧
      w'.seg + w'.left = s + n ∧ 0 < w'.left ∧ Puts data offset s w'.seg lv lv' new

theorem writeLoop_ends {lv : Live} (h : Session lv) (w : WriteCall) (hin : Inside lv w.offset w.len)
    (n s : Nat) (hlo : w.offset ≤ s * SEG) (hhi : ∀ t, t < s + n → t * SEG < w.offset + w.len) :
    ∃ new, (writeLoop w n s lv).1.history.stores = new ++ lv.history.stores ∧
      LoopEnds w.data w.offset s n lv (writeLoop w n s lv).1 w new (writeLoop w n s lv).2 := by
  induction n generalizing s lv with
  | zero => exact ⟨[], rfl, fun _ => .refl _ _ _ _⟩
  | succ n ih =>
    rw [writeLoop_succ]
    by_cases hab : lv.aborted = true
    · rw [if_pos hab]
      exact ⟨[], rfl, fun h0 => absurd h0 (by decide)⟩
    · rw [if_neg hab]
      rcases storeSeg_inside h w.data hin hlo (hhi s (by omega)) with (he | he) | ⟨lv', k, he, hst⟩
      · rw [he]
        exact ⟨[], rfl, fun h0 => absurd h0 (by decide)⟩
      · rw [he]
        exact ⟨[], rfl, rfl, rfl, rfl, Nat.le_refl s, rfl, Nat.succ_pos n, .refl _ _ _ _⟩
      · have hnext : (if ((k : Nat) : Int) = 1 then writeLoop w n (s + 1) lv'
            else if ((k : Nat) : Int) = -1 then (lv', WriteTurn.done (-1))
            else if 0 ≤ ((k : Nat) : Int) then writeLoop w n (s + 1) lv'
            else (lv', .wait { w with seg := s, left := n + 1 })) = writeLoop w n (s + 1) lv' := by
          split_ifs <;> first | rfl | contradiction | omega
        simp only [he]
        rw [hnext]
        have hsucc : w.offset ≤ (s + 1) * SEG := by
          rw [Nat.succ_mul]
          omega
        obtain ⟨new, hstores, hends⟩ := ih (hst.session h) (inside_store hin hst) (s + 1) hsucc
          fun t ht => hhi t (by omega)
        refine ⟨new ++ [slice w.data w.offset s], ?_, ?_⟩
        · rw [hstores, hst.stores]
          simp [slice]
        · generalize (writeLoop w n (s + 1) lv').2 = turn at hends
          cases turn with
          | done r =>
            intro h0
            have hwhole := (store_puts hst).trans (hends h0)
            rwa [Nat.add_assoc, Nat.add_comm 1 n] at hwhole
          | wait w' =>
            obtain ⟨h1, h2, h3, h4, h5, h6, h7⟩ := hends
            exact ⟨h1, h2, h3, by omega, by omega, h6, (store_puts hst).trans h7⟩

/-! Answers. -/

theorem inside_of_refused {lv : Live} {offset len : Nat} (h : writeRefused lv offset len = none)
    (hover : offset + len < 2 ^ 64) : Inside lv offset len := by
  unfold writeRefused at h
  rw [u64_of_lt hover] at h
  split_ifs at h with h1 h2 h3
  rw [not_or, not_not] at h3
  exact ⟨by omega, h3.2, by omega⟩

/-- The segments of a message are those between the first and the last. -/
theorem range_of_inside {lv : Live} (hs : Session lv) {offset len : Nat} (h : Inside lv offset len) :
    firstSeg offset ≤ lastSeg offset len + 1 ∧ offset ≤ firstSeg offset * SEG ∧
      (∀ t, t < lastSeg offset len + 1 → t * SEG < offset + len) ∧
      (∀ t, t * SEG < offset + len → t < lastSeg offset len + 1) ∧
      ∀ t, offset < (t + 1) * SEG → firstSeg offset ≤ t := by
  have hpos := h.pos
  have halign := h.aligned
  rw [h.lastSeg hs]
  unfold firstSeg
  have hdiv := Nat.div_add_mod offset SEG
  have hlast := Nat.div_add_mod (offset + len - 1) SEG
  have hmod := Nat.mod_lt (offset + len - 1) (show 0 < SEG by decide)
  rw [halign, Nat.add_zero, Nat.mul_comm] at hdiv
  rw [Nat.mul_comm] at hlast
  refine ⟨?_, by omega, fun t ht => ?_, fun t ht => ?_, fun t ht => ?_⟩
  · exact Nat.le_succ_of_le (Nat.div_le_div_right (by omega))
  · have hmul := Nat.mul_le_mul_right SEG (Nat.le_of_lt_succ ht)
    omega
  · rw [Nat.lt_succ_iff, Nat.le_div_iff_mul_le (by decide)]
    omega
  · rw [← hdiv] at ht
    exact Nat.le_of_lt_succ (Nat.lt_of_mul_lt_mul_right ht)

theorem covered_of_puts {lv lv' : Live} (hs : Session lv) {offset len : Nat} {data : Bytes}
    {new : List Stored} (h : Inside lv offset len) (htotal : lv'.total = lv.total)
    (hputs : ∀ seg, firstSeg offset ≤ seg → seg < lastSeg offset len + 1 →
      lv'.ackedEver seg = true ∧ slice data offset seg ∈ new) : Covered lv' new offset data len := by
  obtain ⟨_, _, _, hlast, hfirst⟩ := range_of_inside hs h
  exact ⟨htotal ▸ h.le, fun seg h1 h2 => hputs seg (hfirst seg h2) (hlast seg h1)⟩

/-- What the stores of a step are: those in front of what was stored before. -/
def added (lv lv' : Live) : List Stored :=
  lv'.history.stores.take (lv'.history.stores.length - lv.history.stores.length)

theorem added_eq {lv lv' : Live} {new : List Stored}
    (h : lv'.history.stores = new ++ lv.history.stores) : added lv lv' = new := by
  unfold added
  rw [h, List.length_append, Nat.add_sub_cancel, List.take_left]

theorem tryWrite_total {lv : Live} (hs : Session lv) (data : Bytes) (offset len n s : Nat) :
    (tryWriteLoop data offset len n s lv).1.total = lv.total :=
  (congrArg Live.total (tryWriteLoop_wrote hs data offset len n s).frame_eq :)

theorem tryWrite_covered {lv : Live} (h : lv.active = true → Session lv) {offset len : Nat}
    (data : Bytes) (hpos : 0 < len) (hover : offset + len < 2 ^ 64)
    (hret : (wsLiveTryWrite lv offset data len).2 = 0) :
    Covered (wsLiveTryWrite lv offset data len).1 (added lv (wsLiveTryWrite lv offset data len).1)
      offset data len := by
  cases hr : writeRefused lv offset len with
  | some r =>
    rw [tryWrite_refused hr] at hret
    rcases writeRefused_some hr with h1 | h1
    · simp only at hret
      omega
    · omega
  | none =>
    have hs := h (writeRefused_none hr).1
    have hin := inside_of_refused hr hover
    obtain ⟨hle, hlo, hhi, _, _⟩ := range_of_inside hs hin
    rw [tryWrite_loop hr] at hret ⊢
    have hn : firstSeg offset + (lastSeg offset len + 1 - firstSeg offset) = lastSeg offset len + 1 :=
      Nat.add_sub_cancel' hle
    obtain ⟨new, hputs⟩ := tryWriteLoop_puts hs data hin _ _ hlo
      (fun t ht => hhi t (Nat.lt_of_lt_of_eq ht hn)) hret
    rw [added_eq hputs.stores]
    rw [hn] at hputs
    exact covered_of_puts hs hin (tryWrite_total hs data offset len _ _) hputs.covers

/-! Wrapping around. -/

/-- Where the end of the message wraps to 0 every segment is passed over. -/
theorem storeSeg_wrapped {lv : Live} {offset len : Nat} (data : Bytes) (hend : u64 (offset + len) = 0)
    (s : Nat) : storeSegLocked lv s data offset len = (lv, 1) := by
  unfold storeSegLocked
  simp only [hend]
  rw [if_pos (by split_ifs <;> omega)]

theorem tryWriteLoop_wrapped {lv : Live} {offset len : Nat} (data : Bytes)
    (hend : u64 (offset + len) = 0) (n s : Nat) : tryWriteLoop data offset len n s lv = (lv, 0) := by
  induction n generalizing s with
  | zero => rfl
  | succ n ih =>
    rw [tryWriteLoop_succ, storeSeg_wrapped data hend, if_pos rfl]
    exact ih (s + 1)

theorem writeLoop_wrapped {lv : Live} (hab : lv.aborted = false) (w : WriteCall)
    (hend : u64 (w.offset + w.len) = 0) (n s : Nat) : writeLoop w n s lv = (lv, .done 0) := by
  induction n generalizing s with
  | zero => rfl
  | succ n ih =>
    rw [writeLoop_succ, if_neg (by simp [hab]), storeSeg_wrapped w.data hend, if_pos rfl]
    exact ih (s + 1)

/-- Where it wraps to a position behind 0 there is no segment between first and last. -/
theorem no_segs_wrapped {offset len : Nat} (ho : offset < 2 ^ 64) (hl : len < 2 ^ 64)
    (haligned : offset % SEG = 0) (hover : 2 ^ 64 ≤ offset + len) (hend : u64 (offset + len) ≠ 0) :
    lastSeg offset len + 1 - firstSeg offset = 0 := by
  have hmod : u64 (offset + len) = offset + len - 2 ^ 64 := by
    unfold u64
    omega
  unfold lastSeg firstSeg
  rw [u64Sub_of_le (by omega) (u64_lt _), hmod]
  have hlt : offset + len - 2 ^ 64 - 1 < offset / SEG * SEG := by
    have hdiv := Nat.div_add_mod offset SEG
    rw [haligned, Nat.add_zero, Nat.mul_comm] at hdiv
    omega
  exact Nat.sub_eq_zero_of_le ((Nat.div_lt_iff_lt_mul (by decide)).mpr hlt)

theorem Wraps.refused {lv : Live} {offset len : Nat} (h : Wraps lv offset len) (hl : 0 < len) :
    writeRefused lv offset len = none := by
  unfold writeRefused
  rw [if_neg (by simp [h.active, h.aborted]), if_neg (by omega), if_neg]
  rw [not_or, not_not]
  exact ⟨Nat.not_lt.mpr h.fits, h.aligned⟩

theorem Wraps.tryWrite {lv : Live} {offset len : Nat} (h : Wraps lv offset len) (data : Bytes)
    (hl : 0 < len) (ho : offset < 2 ^ 64) (hl' : len < 2 ^ 64) :
    wsLiveTryWrite lv offset data len = (lv, 0) := by
  rw [tryWrite_loop (h.refused hl)]
  by_cases hend : u64 (offset + len) = 0
  · exact tryWriteLoop_wrapped data hend _ _
  · rw [no_segs_wrapped ho hl' h.aligned h.past hend]
    rfl

theorem Wraps.write {lv : Live} {offset len : Nat} (h : Wraps lv offset len) (data : Bytes)
    (hl : 0 < len) (ho : offset < 2 ^ 64) (hl' : len < 2 ^ 64) :
    wsLiveWrite lv offset data len = (lv, .done 0) := by
  unfold wsLiveWrite
  rw [h.refused hl]
  simp only
  by_cases hend : u64 (offset + len) = 0
  · exact writeLoop_wrapped h.aborted _ hend _ _
  · rw [no_segs_wrapped ho hl' h.aligned h.past hend]
    rfl

theorem refused_of_over {lv : Live} {offset len : Nat} (hover : 2 ^ 64 ≤ offset + len) (hl : 0 < len)
    (h : ¬Wraps lv offset len) : writeRefused lv offset len = some (-1) := by
  unfold writeRefused
  by_cases h1 : (!lv.active) = true ∨ lv.aborted = true
  · rw [if_pos h1]
  · rw [if_neg h1, if_neg (by omega), if_pos]
    by_contra hn
    rw [not_or, Nat.not_lt, not_not] at hn
    rw [not_or] at h1
    exact h ⟨by simpa using h1.1, by simpa using h1.2, hn.2, hover, hn.1⟩

theorem Wraps.outside {lv : Live} (hs : lv.active = true → Session lv) {offset len : Nat}
    (h : Wraps lv offset len) : ¬offset + len ≤ lv.total := by
  intro hle
  have hover := h.past
  have htotal := (hs h.active).total_le
  unfold maxTotal at htotal
  omega

theorem tryWrite_iff {lv : Live} (hs : lv.active = true → Session lv) {offset len : Nat} (data : Bytes)
    (ho : offset < 2 ^ 64) (hl : 0 < len) (hl' : len < 2 ^ 64) :
    ((wsLiveTryWrite lv offset data len).2 = 0 → Covered (wsLiveTryWrite lv offset data len).1
      (added lv (wsLiveTryWrite lv offset data len).1) offset data len) ↔ ¬Wraps lv offset len := by
  constructor
  · intro h hw
    rw [hw.tryWrite data hl ho hl'] at h
    exact hw.outside hs (h rfl).inside
  · intro hw hret
    by_cases hover : offset + len < 2 ^ 64
    · exact tryWrite_covered hs data hl hover hret
    · rw [tryWrite_refused (refused_of_over (Nat.not_lt.mp hover) hl hw)] at hret
      exact absurd hret (by simp)

/-! A blocking write and the other threads. -/

/-- The write call of thread `i`, entered in `p`, with what its own sections have
stored; no new session begins while it waits. -/
inductive Writing (i offset : Nat) (data : Bytes) (len : Nat) (p : Pool Live Thread) :
    List Stored → Pool Live Thread → Prop
  | enter {q : Pool Live Thread} (hs : live.step p i (.write offset data len) = some q) :
      Writing i offset data len p (added p.shared q.shared) q
  | other {new : List Stored} {q r : Pool Live Thread} {j : Nat} {e : Event} {w : WriteCall}
      (h : Writing i offset data len p new q) (hw : q.threads[i]? = some (.writing w)) (hj : j ≠ i)
      (hs : live.step q j e = some r) (hold : r.shared.active = true → q.shared.active = true) :
      Writing i offset data len p new r
  | wake {new : List Stored} {q r : Pool Live Thread} {expired : Bool}
      (h : Writing i offset data len p new q) (hs : live.step q i (.writeWake expired) = some r) :
      Writing i offset data len p (added q.shared r.shared ++ new) r

/-- What the thread of the call holds on to. -/
structure Halfway (lv : Live) (new : List Stored) (offset : Nat) (data : Bytes) (len : Nat)
    (w : WriteCall) : Prop where
  offset_eq : w.offset = offset
  len_eq : w.len = len
  data_eq : w.data = data
  left : 0 < w.left
  inside : lv.active = true → Inside lv offset len
  place : lv.active = true → firstSeg offset ≤ w.seg ∧ w.seg + w.left = lastSeg offset len + 1
  covers : lv.active = true → ∀ seg, firstSeg offset ≤ seg → seg < w.seg →
    lv.ackedEver seg = true ∧ slice data offset seg ∈ new

def InCall (lv : Live) (new : List Stored) (offset : Nat) (data : Bytes) (len : Nat) : Thread → Prop
  | .writing w => Halfway lv new offset data len w
  | .done r => r = 0 → Covered lv new offset data len
  | _ => True

theorem Halfway.continues {lv lv' : Live} {new : List Stored} {offset len : Nat} {data : Bytes}
    {w : WriteCall} (h : Halfway lv new offset data len w) (hold : lv'.active = true → lv.active = true)
    (hc : lv.active = true → lv'.active = true → Continues lv lv') :
    Halfway lv' new offset data len w := by
  refine ⟨h.offset_eq, h.len_eq, h.data_eq, h.left, fun ha => ?_, fun ha => h.place (hold ha), fun ha => ?_⟩
  · have hin := h.inside (hold ha)
    exact ⟨hin.pos, hin.aligned, (hc (hold ha) ha).total ▸ hin.le⟩
  · intro seg h1 h2
    obtain ⟨hack, hmem⟩ := h.covers (hold ha) seg h1 h2
    exact ⟨(hc (hold ha) ha).acked seg hack, hmem⟩

theorem accept_stores (lv : Live) (offset : Nat) (data : Bytes) (len : Nat) (r : Int) :
    (accept lv offset data len r).history.stores = lv.history.stores := by
  unfold accept
  split_ifs <;> rfl

theorem accept_covered {lv : Live} {new : List Stored} {offset len : Nat} {data : Bytes} {r : Int}
    {o : Nat} {d : Bytes} {l : Nat} (h : Covered lv new offset data len) :
    Covered (accept lv o d l r) new offset data len := by
  have hq := accept_quiet lv o d l r
  have hacked : (accept lv o d l r).ackedEver = lv.ackedEver := (congrArg Live.ackedEver hq.frame_eq :)
  have htotal : (accept lv o d l r).total = lv.total := (congrArg Live.total hq.frame_eq :)
  exact ⟨htotal ▸ h.inside, fun seg h1 h2 => by rw [hacked]; exact h.stored seg h1 h2⟩

/-- A section of the call from segment `s` on, where what lies in front of it is stored. -/
theorem section_inCall {lv : Live} (hs : Session lv) (new : List Stored) {offset len : Nat}
    {data : Bytes} (w : WriteCall) (h1 : w.offset = offset) (h2 : w.len = len) (h3 : w.data = data)
    (hin : Inside lv offset len) {n s : Nat} (hlo : firstSeg offset ≤ s)
    (hn : s + n = lastSeg offset len + 1)
    (hcov : ∀ seg, firstSeg offset ≤ seg → seg < s → lv.ackedEver seg = true ∧ slice data offset seg ∈ new) :
    InCall (afterWrite offset data len (writeLoop w n s lv).1 (writeLoop w n s lv).2).1
      (added lv (afterWrite offset data len (writeLoop w n s lv).1 (writeLoop w n s lv).2).1 ++ new)
      offset data len (afterWrite offset data len (writeLoop w n s lv).1 (writeLoop w n s lv).2).2 := by
  subst h1 h2 h3
  obtain ⟨_, hfirst, hhi, _, _⟩ := range_of_inside hs hin
  have hmul := Nat.mul_le_mul_right SEG hlo
  obtain ⟨more, hstores, hends⟩ := writeLoop_ends hs w hin n s (by omega)
    (fun t ht => hhi t (Nat.lt_of_lt_of_eq ht hn))
  have htotal : (writeLoop w n s lv).1.total = lv.total :=
    (congrArg Live.total (writeLoop_wrote hs w n s).frame_eq :)
  generalize (writeLoop w n s lv).1 = lv' at hstores hends htotal ⊢
  generalize (writeLoop w n s lv).2 = turn at hends ⊢
  have hupto {b : Nat} (hputs : Puts w.data w.offset s b lv lv' more) :
      ∀ seg, firstSeg w.offset ≤ seg → seg < b →
        lv'.ackedEver seg = true ∧ slice w.data w.offset seg ∈ more ++ new := by
    intro seg hseg hb
    by_cases hlt : seg < s
    · obtain ⟨hack, hmem⟩ := hcov seg hseg hlt
      exact ⟨hputs.acked seg hack, List.mem_append_right more hmem⟩
    · obtain ⟨hack, hmem⟩ := hputs.covers seg (Nat.not_lt.mp hlt) hb
      exact ⟨hack, List.mem_append_left new hmem⟩
  cases turn with
  | done r =>
    intro h0
    have hadded := added_eq ((accept_stores lv' w.offset w.data w.len r).trans hstores)
    simp only [afterWrite]
    rw [hadded]
    exact accept_covered (covered_of_puts hs hin htotal fun seg h1 h2 =>
      hupto (hends h0) seg h1 (Nat.lt_of_lt_of_eq h2 hn.symm))
  | wait w' =>
    obtain ⟨h1, h2, h3, h4, h5, h6, h7⟩ := hends
    simp only [afterWrite]
    rw [added_eq hstores]
    exact ⟨h1, h2, h3, h6, fun _ => ⟨hin.pos, hin.aligned, htotal ▸ hin.le⟩,
      fun _ => ⟨Nat.le_trans hlo h4, h5.trans hn⟩, fun _ => hupto h7⟩

theorem refused_inCall {lv : Live} {offset len : Nat} {data : Bytes} {r : Int} {new : List Stored}
    (h : r ≠ 0) (o : Nat) (d : Bytes) (l : Nat) :
    InCall (afterWrite o d l lv (.done r)).1 new offset data len (afterWrite o d l lv (.done r)).2 :=
  fun h0 => absurd h0 h

theorem write_inCall {lv : Live} (hs : lv.active = true → Session lv) {offset len : Nat} (data : Bytes)
    (hl : 0 < len) (hw : ¬Wraps lv offset len) :
    InCall (afterWrite offset data len (wsLiveWrite lv offset data len).1 (wsLiveWrite lv offset data len).2).1
      (added lv (afterWrite offset data len (wsLiveWrite lv offset data len).1
        (wsLiveWrite lv offset data len).2).1) offset data len
      (afterWrite offset data len (wsLiveWrite lv offset data len).1 (wsLiveWrite lv offset data len).2).2 := by
  unfold wsLiveWrite
  cases hr : writeRefused lv offset len with
  | some r =>
    have hne : r ≠ 0 := by
      rcases writeRefused_some hr with h1 | h1
      · omega
      · omega
    exact refused_inCall hne _ _ _
  | none =>
    have hover : offset + len < 2 ^ 64 := by
      by_contra hover
      rw [refused_of_over (Nat.not_lt.mp hover) hl hw] at hr
      cases hr
    have hs := hs (writeRefused_none hr).1
    have hin := inside_of_refused hr hover
    obtain ⟨hle, _, _, _, _⟩ := range_of_inside hs hin
    have hsec := section_inCall hs []
      ⟨offset, len, data, firstSeg offset, lastSeg offset len + 1 - firstSeg offset⟩ rfl rfl rfl hin
      (Nat.le_refl _) (Nat.add_sub_cancel' hle) (fun _ h1 h2 => absurd h2 (Nat.not_lt.mpr h1))
    rwa [List.append_nil] at hsec

theorem wake_inCall {lv : Live} (hs : lv.active = true → Session lv) {offset len : Nat} {data : Bytes}
    {new : List Stored} {w : WriteCall} (h : Halfway lv new offset data len w)
    (halive : lv.active = true ∨ lv.aborted = true) (expired : Bool) :
    InCall (afterWrite w.offset w.data w.len (writeWake lv w expired).1 (writeWake lv w expired).2).1
      (added lv (afterWrite w.offset w.data w.len (writeWake lv w expired).1
        (writeWake lv w expired).2).1 ++ new) offset data len
      (afterWrite w.offset w.data w.len (writeWake lv w expired).1 (writeWake lv w expired).2).2 := by
  unfold writeWake
  cases expired with
  | true => exact refused_inCall (by decide) _ _ _
  | false =>
    simp only [Bool.false_eq_true, if_false]
    cases ha : lv.active with
    | true =>
      obtain ⟨hlo, hn⟩ := h.place ha
      rw [h.offset_eq, h.data_eq, h.len_eq]
      exact section_inCall (hs ha) new w h.offset_eq h.len_eq h.data_eq (h.inside ha) hlo hn (h.covers ha)
    | false =>
      have hab : lv.aborted = true := by simpa [ha] using halive
      have hleft := h.left
      cases hn : w.left with
      | zero => omega
      | succ n =>
        rw [writeLoop_succ, if_pos hab]
        exact refused_inCall (by decide) _ _ _

theorem writing_inCall {i offset len : Nat} {data : Bytes} {p q : Pool Live Thread} {new : List Stored}
    (hp : SessionInv p) (hl : 0 < len) (hw : ¬Wraps p.shared offset len)
    (h : Writing i offset data len p new q) :
    SessionInv q ∧ ∀ t, q.threads[i]? = some t → InCall q.shared new offset data len t := by
  induction h with
  | @enter q hs =>
    refine ⟨(sessionInv_step hp hs).1, ?_⟩
    obtain ⟨t, lv', t', ht, hturn, rfl⟩ := live_step hs
    intro u hu
    rw [getElem?_step ht] at hu
    obtain rfl := Option.some.inj hu
    obtain ⟨_, hc⟩ | ⟨_, _, _, he, _⟩ | ⟨_, _, _, he, _⟩ | ⟨_, _, _, _, he, _⟩ | ⟨_, _, _, _, _, he, _⟩ :=
      turn_cases hturn
    · obtain ⟨rfl, rfl⟩ := Prod.mk.inj (Option.some.inj hc)
      exact write_inCall hp.session data hl hw
    · cases he
    · cases he
    · cases he
    · cases he
  | @other new q r j e w _ hwt hj hs hold ih =>
    obtain ⟨hq, hin⟩ := ih
    obtain ⟨hr, hc⟩ := sessionInv_step hq hs
    refine ⟨hr, ?_⟩
    obtain ⟨t, lv', t', ht, hturn, rfl⟩ := live_step hs
    intro u hu
    rw [getElem?_other (Ne.symm hj) hwt] at hu
    obtain rfl := Option.some.inj hu
    exact Halfway.continues (hin _ hwt) hold fun ha ha' => change_continues hc hq.session ha ha'
  | @wake new q r expired _ hs ih =>
    obtain ⟨hq, hin⟩ := ih
    refine ⟨(sessionInv_step hq hs).1, ?_⟩
    obtain ⟨t, lv', t', ht, hturn, rfl⟩ := live_step hs
    intro u hu
    rw [getElem?_step ht] at hu
    obtain rfl := Option.some.inj hu
    obtain ⟨_, hc⟩ | ⟨w, _, rfl, he, hwake⟩ | ⟨_, _, _, he, _⟩ | ⟨_, _, _, _, he, _⟩ |
      ⟨_, _, _, _, _, he, _⟩ := turn_cases hturn
    · cases hc
    · cases he
      obtain ⟨rfl, rfl⟩ := Prod.mk.inj hwake
      exact wake_inCall hq.session (hin _ ht) (hq.writers _ (List.mem_of_getElem? ht) w rfl) expired
    · cases he
    · cases he
    · cases he

/-- A call that wraps around is answered at once. -/
theorem enter_wraps {p q : Pool Live Thread} {i offset len : Nat} {data : Bytes}
    (h : Wraps p.shared offset len) (hl : 0 < len) (ho : offset < 2 ^ 64) (hl' : len < 2 ^ 64)
    (hs : live.step p i (.write offset data len) = some q) :
    q.threads[i]? = some (.done 0) ∧ q.shared = accept p.shared offset data len 0 := by
  obtain ⟨t, lv', t', ht, hturn, rfl⟩ := live_step hs
  obtain ⟨_, hc⟩ | ⟨_, _, _, he, _⟩ | ⟨_, _, _, he, _⟩ | ⟨_, _, _, _, he, _⟩ | ⟨_, _, _, _, _, he, _⟩ :=
    turn_cases hturn
  · have hcall := Option.some.inj hc
    rw [h.write data hl ho hl'] at hcall
    obtain ⟨rfl, rfl⟩ := Prod.mk.inj hcall
    exact ⟨getElem?_step ht, rfl⟩
  · cases he
  · cases he
  · cases he
  · cases he

/-- A write that is answered with 0 stored its whole message, exactly where the sum
of its offset and its length does not wrap into the package. -/
theorem accepted_means_stored {G : Pool Live Thread → Nat → Event → Prop} {seekFn : Bool} {m : Nat}
    {p : Pool Live Thread} (h : live.Reach G (start seekFn m) p) {offset len : Nat} (data : Bytes)
    (ho : offset < 2 ^ 64) (hl : 0 < len) (hl' : len < 2 ^ 64) :
    (((wsLiveTryWrite p.shared offset data len).2 = 0 →
        Covered (wsLiveTryWrite p.shared offset data len).1
          (added p.shared (wsLiveTryWrite p.shared offset data len).1) offset data len) ↔
      ¬Wraps p.shared offset len) ∧
    ∀ i q₀, live.step p i (.write offset data len) = some q₀ →
      ((∀ new q, Writing i offset data len p new q → q.threads[i]? = some (.done 0) →
        Covered q.shared new offset data len) ↔ ¬Wraps p.shared offset len) := by
  have hp := sessionInv_reach h
  refine ⟨tryWrite_iff hp.session data ho hl hl', fun i q₀ hs => ⟨fun hall hw => ?_, ?_⟩⟩
  · obtain ⟨hret, hq⟩ := enter_wraps hw hl ho hl' hs
    have hcov := (hall _ q₀ (.enter hs) hret).inside
    have htotal : (accept p.shared offset data len 0).total = p.shared.total :=
      (congrArg Live.total (accept_quiet p.shared offset data len 0).frame_eq :)
    rw [hq, htotal] at hcov
    exact hw.outside hp.session hcov
  · intro hw new q hwriting hret
    exact (writing_inCall hp hl hw hwriting).2 _ hret rfl

theorem accepted_means_stored_two :
    ∃ p, live.Reach AttachDiscipline (start false 1) p ∧
      Covered (wsLiveTryWrite p.shared 0 (fun _ => 7) (2 * SEG)).1
        (added p.shared (wsLiveTryWrite p.shared 0 (fun _ => 7) (2 * SEG)).1) 0 (fun _ => 7) (2 * SEG) := by
  have hv : ((live.exec AttachDiscipline [(0, .create sixSegments)] (start false 1)).map fun p =>
      (wsLiveTryWrite p.shared 0 (fun _ => 7) (2 * SEG)).2) = some 0 := by
    decide
  obtain ⟨p, hp, hret⟩ := Option.map_eq_some_iff.mp hv
  have hr : live.Reach AttachDiscipline (start false 1) p := .of_exec hp
  have hcov := (accepted_means_stored hr (fun _ => 7) (by decide) (by decide) (by decide)).1.mpr
    (fun hw => absurd hw.past (by decide)) hret
  exact ⟨p, hr, hcov⟩

/-- A write at the last segment start below `2 ^ 64` is answered with 0. -/
theorem accepted_means_stored_fails : ¬∀ (seekFn : Bool) (m : Nat) (p : Pool Live Thread)
    (offset len : Nat) (data : Bytes), live.Reach AttachDiscipline (start seekFn m) p →
      offset < 2 ^ 64 → 0 < len → len < 2 ^ 64 →
        (wsLiveTryWrite p.shared offset data len).2 = 0 →
          Covered (wsLiveTryWrite p.shared offset data len).1
            (added p.shared (wsLiveTryWrite p.shared offset data len).1) offset data len := by
  intro h
  have hv : ((live.exec AttachDiscipline [(0, .create sixSegments)] (start false 1)).map fun p =>
      ((wsLiveTryWrite p.shared (2 ^ 64 - SEG) (fun _ => 7) (SEG + 10)).2,
        (wsLiveTryWrite p.shared (2 ^ 64 - SEG) (fun _ => 7) (SEG + 10)).1.total)) =
          some (0, 6 * SEG) := by
    decide
  obtain ⟨p, hp, hv⟩ := Option.map_eq_some_iff.mp hv
  obtain ⟨hret, htotal⟩ := Prod.mk.inj hv
  have hcov := h false 1 p (2 ^ 64 - SEG) (SEG + 10) (fun _ => 7) (.of_exec hp) (by decide) (by decide)
    (by decide) hret
  have hin := hcov.inside
  rw [htotal] at hin
  exact absurd hin (by decide)

end PkgManager.LiveAccepted
