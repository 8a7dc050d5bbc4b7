import PkgManager.CText
import PkgManager.LiveLifetime

namespace PkgManager.LiveResume

open CText Interleaving Memory LiveSession LiveCalls LiveSlots LiveReads LiveThreads LiveSound
open LiveLifetime

/-! `ws_live_get_status`. -/

/-- What the status of an active session says. -/
structure Status where
  active : Bool
  aborted : Bool
  sessionId : List UInt8
  filename : List UInt8
  total : Nat
  received : Nat
  served : Nat
  complete : Bool
  headerReady : Bool
  resident : Nat
  slotsUsed : Nat
  slots : Nat

/-- The bytes of the segments that are flagged. -/
def flaggedBytes (lv : Live) (flag : Nat → Bool) : Nat :=
  ((List.range lv.nsegs).map fun s => if flag s then segLenLocked lv s else 0).sum

def liveStatus (lv : Live) : Status where
  active := lv.active
  aborted := lv.aborted
  sessionId := lv.sessionId
  filename := lv.filename
  total := lv.total
  received := flaggedBytes lv lv.ackedEver
  served := lv.served
  complete := lv.active && lv.uploadComplete
  headerReady := lv.active && !lv.aborted && decide (0 < lv.nsegs) && lv.present 0
  resident := flaggedBytes lv lv.present
  slotsUsed := (List.range lv.nslots).countP fun i => 0 ≤ lv.slotSeg i
  slots := lv.nslots

def hexDigit (n : Nat) : UInt8 := if n < 10 then UInt8.ofNat (48 + n) else UInt8.ofNat (87 + n)

def filenameByte (b : UInt8) : List UInt8 :=
  if b = 34 ∨ b = 92 then [92, b]
  else if b < 32 then ascii "\\u00" ++ [hexDigit (b.toNat / 16), hexDigit (b.toNat % 16)]
  else [b]

/-- `json_filename` with `n` bytes of the buffer written. -/
def jsonFilename (cap : Nat) : Nat → List UInt8 → List UInt8
  | _, [] => []
  | n, b :: s =>
    if b ≠ 0 ∧ n + 7 < cap then filenameByte b ++ jsonFilename cap (n + (filenameByte b).length) s
    else []

def flagText (b : Bool) : List UInt8 := if b then ascii "true" else ascii "false"

def statusText (st : Status) : List UInt8 :=
  ascii "\x7b\"active\":" ++ flagText st.active ++ ascii ",\"aborted\":" ++ flagText st.aborted ++
  ascii ",\"session_id\":\"" ++ st.sessionId ++ ascii "\",\"filename\":\"" ++
  jsonFilename 512 0 st.filename ++ ascii "\",\"total\":" ++ decimal st.total ++
  ascii ",\"received\":" ++ decimal st.received ++ ascii ",\"served\":" ++ decimal st.served ++
  ascii ",\"complete\":" ++ flagText st.complete ++ ascii ",\"header_ready\":" ++
  flagText st.headerReady ++ ascii ",\"resident\":" ++ decimal st.resident ++
  ascii ",\"slots_used\":" ++ decimal st.slotsUsed ++ ascii ",\"slots\":" ++ decimal st.slots ++
  ascii "\x7d"

def idleText (aborted : Bool) : List UInt8 :=
  ascii "\x7b\"active\":false,\"aborted\":" ++ flagText aborted ++
  ascii ",\"session_id\":\"\",\"filename\":\"\",\"total\":0,\"received\":0,\"served\":0,\"complete\":false,\"header_ready\":false,\"slots_used\":0,\"slots\":0" ++
  ascii "\x7d"

/-- `ws_live_get_status` into a buffer of `max` bytes. -/
def wsLiveGetStatus (lv : Live) (max : Nat) : Int × List UInt8 :=
  if max = 0 then (-1, [])
  else if !lv.active then (0, bounded max (idleText lv.aborted))
  else
    let text := statusText (liveStatus lv)
    (if text.length < max then 0 else -1, bounded max text)

/-! Bytes of segments. -/

/-- The first `n` segments hold the first `n * SEG` bytes. -/
theorem sum_segLen (lv : Live) (n : Nat) :
    ((List.range n).map (segLenLocked lv)).sum = min (n * SEG) lv.total := by
  induction n with
  | zero => simp
  | succ n ih =>
    rw [List.range_succ, List.map_append, List.sum_append, ih, List.map_singleton, List.sum_singleton,
      Nat.succ_mul]
    simp only [segLenLocked]
    split_ifs <;> omega

theorem sum_all {lv : Live} (h : Session lv) :
    ((List.range lv.nsegs).map (segLenLocked lv)).sum = lv.total := by
  rw [sum_segLen]
  exact Nat.min_eq_right h.covers

/-- All bytes are there exactly where all segments are. -/
theorem flaggedBytes_eq_total {lv : Live} (h : Session lv) (flag : Nat → Bool) :
    flaggedBytes lv flag = lv.total ↔ ∀ s < lv.nsegs, flag s = true := by
  unfold flaggedBytes
  constructor
  · intro heq s hs
    by_contra hflag
    have hlt : ((List.range lv.nsegs).map fun s => if flag s then segLenLocked lv s else 0).sum <
        ((List.range lv.nsegs).map (segLenLocked lv)).sum := by
      refine List.sum_lt_sum _ _ (fun s' _ => ?_) ⟨s, List.mem_range.mpr hs, ?_⟩
      · split_ifs
        · exact Nat.le_refl _
        · exact Nat.zero_le _
      · rw [if_neg hflag]
        exact (segLen_bounds h hs).1
    rw [heq, sum_all h] at hlt
    exact Nat.lt_irrefl _ hlt
  · intro hall
    rw [← sum_all h]
    congr 1
    refine List.map_congr_left fun s hs => ?_
    rw [if_pos (hall s (List.mem_range.mp hs))]

/-! The longest prefix of stored segments. -/

def prefixLen (lv : Live) : Nat := ((List.range lv.nsegs).takeWhile lv.ackedEver).length

theorem prefix_eq (lv : Live) :
    (List.range lv.nsegs).takeWhile lv.ackedEver = List.range (prefixLen lv) := by
  have hpre := List.prefix_iff_eq_take.mp (List.takeWhile_prefix lv.ackedEver (l := List.range lv.nsegs))
  rw [hpre, List.take_range]
  congr 1
  have hle := (List.takeWhile_prefix lv.ackedEver (l := List.range lv.nsegs)).length_le
  rw [List.length_range] at hle
  exact Nat.min_eq_left hle

theorem prefixLen_le (lv : Live) : prefixLen lv ≤ lv.nsegs := by
  have hle := (List.takeWhile_prefix lv.ackedEver (l := List.range lv.nsegs)).length_le
  rwa [List.length_range] at hle

theorem acked_of_lt_prefixLen {lv : Live} {s : Nat} (hs : s < prefixLen lv) : lv.ackedEver s = true := by
  refine List.mem_takeWhile_imp (l := List.range lv.nsegs) ?_
  rw [prefix_eq]
  exact List.mem_range.mpr hs

theorem not_acked_prefixLen {lv : Live} (h : prefixLen lv < lv.nsegs) :
    lv.ackedEver (prefixLen lv) = false := by
  have hsplit := List.takeWhile_append_dropWhile (p := lv.ackedEver) (l := List.range lv.nsegs)
  have hget : ((List.range lv.nsegs).dropWhile lv.ackedEver).head? = some (prefixLen lv) := by
    have hat : (List.range lv.nsegs)[prefixLen lv]? = some (prefixLen lv) := by
      rw [List.getElem?_range h]
    have hle : ((List.range lv.nsegs).takeWhile lv.ackedEver).length ≤ prefixLen lv := Nat.le_refl _
    rw [← hsplit, List.getElem?_append_right hle] at hat
    rw [List.head?_eq_getElem?]
    simpa [prefixLen] using hat
  have hnot := List.head?_dropWhile_not lv.ackedEver (List.range lv.nsegs)
  rw [hget] at hnot
  simpa using hnot

/-- The whole prefix is stored exactly where every segment is. -/
theorem prefixLen_eq (lv : Live) : prefixLen lv = lv.nsegs ↔ ∀ s < lv.nsegs, lv.ackedEver s = true := by
  constructor
  · intro h s hs
    exact acked_of_lt_prefixLen (h ▸ hs)
  · intro h
    by_contra hne
    have hlt := Nat.lt_of_le_of_ne (prefixLen_le lv) hne
    have hnot := not_acked_prefixLen hlt
    rw [h _ hlt] at hnot
    cases hnot

theorem prefixLen_mono {lv lv' : Live} (hn : lv'.nsegs = lv.nsegs)
    (h : ∀ s, lv.ackedEver s = true → lv'.ackedEver s = true) : prefixLen lv ≤ prefixLen lv' := by
  by_contra hlt
  have hle := prefixLen_le lv
  have hnot : lv'.ackedEver (prefixLen lv') = false := not_acked_prefixLen (by omega)
  rw [h _ (acked_of_lt_prefixLen (Nat.not_le.mp hlt))] at hnot
  cases hnot

theorem resumeOffset_eq {lv : Live} (ha : lv.active = true) (hal : lv.allocated = true) :
    wsLiveGetResumeOffset lv = min (prefixLen lv * SEG) lv.total := by
  unfold wsLiveGetResumeOffset
  simp only [ha, hal, and_self, if_true]
  show (if lv.total < prefixLen lv * SEG then lv.total else prefixLen lv * SEG) = _
  split_ifs <;> omega

theorem resumeOffset_eq_total {lv : Live} (h : Session lv) (ha : lv.active = true)
    (hal : lv.allocated = true) :
    wsLiveGetResumeOffset lv = lv.total ↔ ∀ s < lv.nsegs, lv.ackedEver s = true := by
  rw [resumeOffset_eq ha hal, ← prefixLen_eq]
  constructor
  · intro heq
    by_contra hne
    have hlt := seg_start_lt h (Nat.lt_of_le_of_ne (prefixLen_le lv) hne)
    omega
  · intro heq
    rw [heq]
    exact Nat.min_eq_right h.covers

theorem finish_succeeds {lv : Live} (ha : lv.active = true) (hab : lv.aborted = false) :
    (wsLiveFinish lv).2 = 0 ↔ ∀ s < lv.nsegs, lv.ackedEver s = true := by
  have hcount : (List.range lv.nsegs).countP lv.ackedEver = lv.nsegs ↔
      ∀ s < lv.nsegs, lv.ackedEver s = true := by
    have hall := List.countP_eq_length (p := lv.ackedEver) (l := List.range lv.nsegs)
    rw [List.length_range] at hall
    rw [hall]
    exact ⟨fun h s hs => h s (List.mem_range.mpr hs), fun h s hs => h s (List.mem_range.mp hs)⟩
  unfold wsLiveFinish
  simp only [ha, hab, Bool.not_true, Bool.false_eq_true, false_or]
  rw [← hcount]
  split_ifs with hne
  · exact iff_of_false (by simp) hne
  · exact iff_of_true rfl (not_not.mp hne)

/-! Runs. -/

/-- The segment was stored in this session. -/
def Landed (lv : Live) (s : Nat) : Prop := ∃ st ∈ lv.history.stores, st.seg = s

/-- The acknowledgement flags say what was stored. -/
def Acknowledges (lv : Live) : Prop := ∀ s < lv.nsegs, lv.ackedEver s = true ↔ Landed lv s

theorem store_acknowledges {lv lv' : Live} {seg k : Nat} {data : Bytes} {offset len : Nat}
    (_ : Session lv) (ha : Acknowledges lv) (h : Store lv lv' seg k data offset len) :
    Acknowledges lv' := by
  intro s hs
  rw [h.nsegs] at hs
  unfold Landed
  rw [h.ackedEver, h.stores]
  by_cases he : s = seg
  · subst he
    simp
  · rw [Function.update_of_ne he, ha s hs]
    constructor
    · rintro ⟨st, hst, hseg⟩
      exact ⟨st, List.mem_cons_of_mem _ hst, hseg⟩
    · rintro ⟨st, hst, hseg⟩
      rcases List.mem_cons.mp hst with rfl | hst
      · exact absurd hseg.symm he
      · exact ⟨st, hst, hseg⟩

theorem Acknowledges.congr {lv lv' : Live} (h : Acknowledges lv) (hn : lv'.nsegs = lv.nsegs)
    (hacked : lv'.ackedEver = lv.ackedEver) (hst : lv'.history.stores = lv.history.stores) :
    Acknowledges lv' := by
  unfold Acknowledges Landed
  rw [hn, hacked, hst]
  exact h

theorem change_acknowledges {lv lv' : Live} {e : Event} (h : Change lv e lv')
    (hs : lv.active = true → Session lv) (hk : lv.active = true → Acknowledges lv) :
    lv'.active = true → Acknowledges lv' := by
  intro ha'
  cases h with
  | fresh =>
    intro s _
    refine iff_of_false (by simp [freshSession]) ?_
    rintro ⟨st, hst, _⟩
    cases hst
  | quiet hq _ =>
    exact (hk (hq.active ▸ ha')).congr (congrArg Live.nsegs hq.frame_eq :)
      (congrArg Live.ackedEver hq.frame_eq :) (congrArg (·.history.stores) hq.frame_eq :)
  | destroyed ha => simp [(destroy_inactive lv ha).1] at ha'
  | @wrote _ lv₁ _ _ _ _ ha hw hq _ =>
    have hold := (hw.preserves (hs ha) (hk ha) fun _ _ _ _ => store_acknowledges).2
    exact hold.congr (congrArg Live.nsegs hq.frame_eq :) (congrArg Live.ackedEver hq.frame_eq :)
      (congrArg (·.history.stores) hq.frame_eq :)
  | read hf =>
    exact (hk ((congrArg Live.active hf :) ▸ ha')).congr (congrArg Live.nsegs hf :)
      (congrArg Live.ackedEver hf :) (congrArg (·.history.stores) hf :)

/-- The arrays of an active session are there. -/
def Allocated (lv : Live) : Prop := lv.active = true → lv.allocated = true ∧ lv.freePending = false

theorem life_allocated {lv lv' : Live} {e : Event} (h : Life lv e lv') (hk : Allocated lv) :
    Allocated lv' := by
  cases h with
  | same hl _ _ _ =>
    simp only [lifeOf, Prod.mk.injEq] at hl
    unfold Allocated
    rw [hl.1, hl.2.2.1, hl.2.2.2.1]
    exact hk
  | fresh => exact fun _ => ⟨rfl, rfl⟩
  | attached => exact hk
  | detached =>
    have hl := detach_life lv
    intro ha'
    split_ifs at hl with hfrees
    · simp only [lifeOf, Prod.mk.injEq] at hl
      have hpend : lv.freePending = true := by simpa [frees] using (Bool.and_eq_true_iff.mp hfrees).2
      rw [(hk (hl.1 ▸ ha')).2] at hpend
      cases hpend
    · simp only [lifeOf, Prod.mk.injEq] at hl
      rw [hl.2.2.1, hl.2.2.2.1]
      exact hk (hl.1 ▸ ha')
  | destroyed ha =>
    intro ha'
    simp [(destroy_inactive lv ha).1] at ha'

/-- What holds of the session in every state of a run. -/
structure ResumeInv (p : Pool Live Thread) : Prop extends SessionInv p where
  acknowledges : p.shared.active = true → Acknowledges p.shared
  allocated : Allocated p.shared

theorem resumeInv_step {p q : Pool Live Thread} {i : Nat} {e : Event} (h : ResumeInv p)
    (hs : live.step p i e = some q) : ResumeInv q := by
  obtain ⟨hq, hc⟩ := sessionInv_step h.toSessionInv hs
  obtain ⟨t, lv', t', _, hturn, rfl⟩ := live_step hs
  exact ⟨hq, change_acknowledges hc h.session h.acknowledges, life_allocated (turn_life hturn) h.allocated⟩

theorem resumeInv_reach {G : Pool Live Thread → Nat → Event → Prop} {p q : Pool Live Thread}
    (h : live.Reach G p q) (hp : ResumeInv p) : ResumeInv q :=
  h.invariant ResumeInv hp fun _ _ _ _ hr _ hs => resumeInv_step hr hs

theorem start_resumeInv (seekFn : Bool) (n : Nat) : ResumeInv (start seekFn n) :=
  ⟨start_sessionInv seekFn n, nofun, nofun⟩

/-- The session goes on: what was acknowledged stays so. -/
structure Continues (lv lv' : Live) : Prop where
  active : lv'.active = true
  nsegs : lv'.nsegs = lv.nsegs
  total : lv'.total = lv.total
  acked : ∀ s, lv.ackedEver s = true → lv'.ackedEver s = true

theorem change_active {lv lv' : Live} {e : Event} (h : Change lv e lv') (he : e ≠ .destroy)
    (ha : lv.active = true) : lv'.active = true := by
  cases h with
  | fresh => rfl
  | quiet hq _ => exact hq.active.trans ha
  | destroyed _ => exact absurd rfl he
  | wrote _ hw hq _ => exact hq.active.trans ((congrArg Live.active hw.frame_eq :).trans ha)
  | read hf => exact (congrArg Live.active hf :).trans ha

theorem change_continues {lv lv' : Live} {e : Event} (h : Change lv e lv')
    (hs : lv.active = true → Session lv) (ha : lv.active = true) (ha' : lv'.active = true) :
    Continues lv lv' := by
  cases h with
  | fresh hna => simp [ha] at hna
  | quiet hq _ =>
    have hacked : lv'.ackedEver = lv.ackedEver := (congrArg Live.ackedEver hq.frame_eq :)
    exact ⟨ha', (congrArg Live.nsegs hq.frame_eq :), (congrArg Live.total hq.frame_eq :),
      fun s h => hacked ▸ h⟩
  | destroyed _ => simp [(destroy_inactive lv ha).1] at ha'
  | @wrote _ lv₁ _ _ _ _ _ hw hq _ =>
    have hold := (hw.preserves (P := fun l => ∀ s, lv.ackedEver s = true → l.ackedEver s = true)
      (hs ha) (fun _ h => h) fun a b seg k _ hP hst s h => by
        rw [hst.ackedEver, Function.update_apply]
        split_ifs
        · rfl
        · exact hP s h).2
    have hacked : lv'.ackedEver = lv₁.ackedEver := (congrArg Live.ackedEver hq.frame_eq :)
    refine ⟨ha', ?_, ?_, fun s h => hacked ▸ hold s h⟩
    · exact (congrArg Live.nsegs hq.frame_eq :).trans (congrArg Live.nsegs hw.frame_eq :)
    · exact (congrArg Live.total hq.frame_eq :).trans (congrArg Live.total hw.frame_eq :)
  | read hf =>
    have hacked : lv'.ackedEver = lv.ackedEver := (congrArg Live.ackedEver hf :)
    exact ⟨ha', (congrArg Live.nsegs hf :), (congrArg Live.total hf :), fun s h => hacked ▸ h⟩

theorem Continues.trans {a b c : Live} (h : Continues a b) (k : Continues b c) : Continues a c :=
  ⟨k.active, k.nsegs.trans h.nsegs, k.total.trans h.total, fun s hs => k.acked s (h.acked s hs)⟩

theorem continues_reach {p q : Pool Live Thread} (h : live.Reach (fun _ _ e => e ≠ .destroy) p q)
    (hp : ResumeInv p) (ha : p.shared.active = true) :
    ResumeInv q ∧ Continues p.shared q.shared := by
  refine h.invariant (fun q => ResumeInv q ∧ Continues p.shared q.shared)
    ⟨hp, ha, rfl, rfl, fun _ h => h⟩ ?_
  intro r i e q hr hg hs
  have hc := (sessionInv_step hr.1.toSessionInv hs).2
  exact ⟨resumeInv_step hr.1 hs, hr.2.trans
    (change_continues hc hr.1.session hr.2.active (change_active hc hg hr.2.active))⟩

theorem Continues.resumeOffset_le {lv lv' : Live} (h : Continues lv lv') (ha : lv.active = true)
    (hk : Allocated lv) (hk' : Allocated lv') :
    wsLiveGetResumeOffset lv ≤ wsLiveGetResumeOffset lv' := by
  rw [resumeOffset_eq ha (hk ha).1, resumeOffset_eq h.active (hk' h.active).1, h.total]
  have hle := Nat.mul_le_mul_right SEG (prefixLen_mono h.nsegs h.acked)
  omega

/-- In every state of an active session the resume offset is the length of the
longest prefix of stored segments and only grows, and it reaches the end of the
package exactly when the status does and when the upload can be finished. -/
theorem resume_agrees {G : Pool Live Thread → Nat → Event → Prop} {seekFn : Bool} {n : Nat}
    {p : Pool Live Thread} (h : live.Reach G (start seekFn n) p) (ha : p.shared.active = true) :
    (∃ k ≤ p.shared.nsegs, (∀ s < k, Landed p.shared s) ∧ (k < p.shared.nsegs → ¬Landed p.shared k) ∧
      wsLiveGetResumeOffset p.shared = ((List.range k).map (segLenLocked p.shared)).sum) ∧
    (∀ q, live.Reach (fun _ _ e => e ≠ .destroy) p q →
      wsLiveGetResumeOffset p.shared ≤ wsLiveGetResumeOffset q.shared) ∧
    (wsLiveGetResumeOffset p.shared = p.shared.total ↔ (liveStatus p.shared).received = p.shared.total) ∧
    (p.shared.aborted = false →
      ((wsLiveFinish p.shared).2 = 0 ↔ wsLiveGetResumeOffset p.shared = p.shared.total)) := by
  have hp := resumeInv_reach h (start_resumeInv seekFn n)
  have hs := hp.session ha
  have hal := (hp.allocated ha).1
  have hack := hp.acknowledges ha
  refine ⟨⟨prefixLen p.shared, prefixLen_le _, fun s hlt => ?_, fun hlt => ?_, ?_⟩, ?_, ?_, ?_⟩
  · exact (hack s (Nat.lt_of_lt_of_le hlt (prefixLen_le _))).mp (acked_of_lt_prefixLen hlt)
  · rw [← hack _ hlt, not_acked_prefixLen hlt]
    exact Bool.false_ne_true
  · rw [resumeOffset_eq ha hal, sum_segLen]
  · intro q hq
    obtain ⟨hqi, hc⟩ := continues_reach hq hp ha
    exact hc.resumeOffset_le ha hp.allocated hqi.allocated
  · rw [resumeOffset_eq_total hs ha hal]
    exact (flaggedBytes_eq_total hs p.shared.ackedEver).symm
  · intro hab
    rw [finish_succeeds ha hab, resumeOffset_eq_total hs ha hal]

/-- All six segments were stored, and segment 1 was evicted since. -/
theorem resume_agrees_evicted :
    ∃ p, live.Reach AttachDiscipline (start false 1) p ∧ p.shared.present 1 = false ∧
      wsLiveGetResumeOffset p.shared = p.shared.total ∧ (wsLiveFinish p.shared).2 = 0 := by
  have hv : ((live.exec AttachDiscipline [(0, .create sixSegments),
      (0, .tryWrite 0 (fun _ => 7) (4 * SEG)), (0, .attach), (0, .read 0 (fun _ => 0) (3 * SEG) 0),
      (0, .tryWrite (4 * SEG) (fun _ => 8) (2 * SEG))] (start false 1)).map fun p =>
        (p.shared.active, p.shared.aborted, p.shared.present 1,
          decide ((liveStatus p.shared).received = p.shared.total))) =
        some (true, false, false, true) := by
    decide +kernel
  obtain ⟨p, hp, hv⟩ := Option.map_eq_some_iff.mp hv
  simp only [Prod.mk.injEq, decide_eq_true_eq] at hv
  obtain ⟨ha, hab, hpresent, hreceived⟩ := hv
  have hr : live.Reach AttachDiscipline (start false 1) p := .of_exec hp
  obtain ⟨_, _, hstatus, hfinish⟩ := resume_agrees hr ha
  have htotal := hstatus.mpr hreceived
  exact ⟨p, hr, hpresent, htotal, (hfinish hab).mpr htotal⟩

end PkgManager.LiveResume
