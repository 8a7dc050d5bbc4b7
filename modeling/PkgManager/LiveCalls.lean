import PkgManager.LiveSession

namespace PkgManager.LiveCalls

open Memory LiveSession

/-- The loop of `ws_live_try_write` over `n` segments from `s` on. -/
def tryWriteLoop (data : Bytes) (offset len : Nat) : Nat → Nat → Live → Live × Int
  | 0, _, lv => (lv, 0)
  | n + 1, s, lv =>
    let st := storeSegLocked lv s data offset len
    if st.2 = 1 then tryWriteLoop data offset len n (s + 1) st.1
    else if st.2 = -1 then (st.1, -1)
    else if st.2 = -2 then (st.1, -2)
    else tryWriteLoop data offset len n (s + 1) st.1

theorem tryWriteLoop_succ (data : Bytes) (offset len n s : Nat) (lv : Live) :
    tryWriteLoop data offset len (n + 1) s lv =
      if (storeSegLocked lv s data offset len).2 = 1 then
        tryWriteLoop data offset len n (s + 1) (storeSegLocked lv s data offset len).1
      else if (storeSegLocked lv s data offset len).2 = -1 then
        ((storeSegLocked lv s data offset len).1, -1)
      else if (storeSegLocked lv s data offset len).2 = -2 then
        ((storeSegLocked lv s data offset len).1, -2)
      else tryWriteLoop data offset len n (s + 1) (storeSegLocked lv s data offset len).1 := by
  rw [tryWriteLoop]

def firstSeg (offset : Nat) : Nat := offset / SEG

def lastSeg (offset len : Nat) : Nat := u64Sub (u64 (offset + len)) 1 / SEG

/-- The checks both writers make before they store anything. -/
def writeRefused (lv : Live) (offset len : Nat) : Option Int :=
  if !lv.active ∨ lv.aborted then some (-1)
  else if len = 0 then some 0
  else if lv.total < u64 (offset + len) ∨ offset % SEG ≠ 0 then some (-1)
  else none

def wsLiveTryWrite (lv : Live) (offset : Nat) (data : Bytes) (len : Nat) : Live × Int :=
  match writeRefused lv offset len with
  | some r => (lv, r)
  | none =>
    tryWriteLoop data offset len (lastSeg offset len + 1 - firstSeg offset) (firstSeg offset) lv

/-- A blocking write that still has `left` segments to store, from `seg` on. -/
structure WriteCall where
  offset : Nat
  len : Nat
  data : Bytes
  seg : Nat
  left : Nat

inductive WriteTurn where
  | done (r : Int)
  | wait (w : WriteCall)

/-- `ws_live_write` from the top of its segment loop up to the next wait. -/
def writeLoop (w : WriteCall) : Nat → Nat → Live → Live × WriteTurn
  | 0, _, lv => (lv, .done 0)
  | n + 1, s, lv =>
    if lv.aborted then (lv, .done (-1))
    else
      let st := storeSegLocked lv s w.data w.offset w.len
      if st.2 = 1 then writeLoop w n (s + 1) st.1
      else if st.2 = -1 then (st.1, .done (-1))
      else if 0 ≤ st.2 then writeLoop w n (s + 1) st.1
      else (st.1, .wait { w with seg := s, left := n + 1 })

theorem writeLoop_succ (w : WriteCall) (n s : Nat) (lv : Live) :
    writeLoop w (n + 1) s lv =
      if lv.aborted then (lv, .done (-1))
      else if (storeSegLocked lv s w.data w.offset w.len).2 = 1 then
        writeLoop w n (s + 1) (storeSegLocked lv s w.data w.offset w.len).1
      else if (storeSegLocked lv s w.data w.offset w.len).2 = -1 then
        ((storeSegLocked lv s w.data w.offset w.len).1, .done (-1))
      else if 0 ≤ (storeSegLocked lv s w.data w.offset w.len).2 then
        writeLoop w n (s + 1) (storeSegLocked lv s w.data w.offset w.len).1
      else ((storeSegLocked lv s w.data w.offset w.len).1,
        .wait { w with seg := s, left := n + 1 }) := by
  rw [writeLoop]

def wsLiveWrite (lv : Live) (offset : Nat) (data : Bytes) (len : Nat) : Live × WriteTurn :=
  match writeRefused lv offset len with
  | some r => (lv, .done r)
  | none =>
    let n := lastSeg offset len + 1 - firstSeg offset
    writeLoop ⟨offset, len, data, firstSeg offset, n⟩ n (firstSeg offset) lv

/-- A parked writer wakes: its deadline has passed, or it tries the segment again. -/
def writeWake (lv : Live) (w : WriteCall) (expired : Bool) : Live × WriteTurn :=
  if expired then (lv, .done (-1)) else writeLoop w w.left w.seg lv

/-- `ws_live_finish`: every segment was stored at least once. -/
def wsLiveFinish (lv : Live) : Live × Int :=
  let acked := (List.range lv.nsegs).countP lv.ackedEver
  if !lv.active ∨ lv.aborted ∨ acked ≠ lv.nsegs then (lv, -1)
  else ({ lv with uploadComplete := true }, 0)

def wsLiveAbort (lv : Live) : Live :=
  if lv.active ∧ !lv.aborted then { lv with aborted := true } else lv

def wsLiveDestroy (lv : Live) : Live :=
  if !lv.active then lv
  else
    let lv := { lv with active := false, aborted := true }
    let lv := if lv.refs = 0 then freeLocked lv else { lv with freePending := true }
    { lv with
      uploadComplete := false
      sessionId := []
      filename := []
      total := 0
      nsegs := 0
      presentCount := 0
      served := 0 }

/-- `ws_live_get_total`. -/
def wsLiveGetTotal (lv : Live) : Nat := if lv.active then lv.total else 0

/-- `ws_live_get_resume_offset`: where the first segment that was never stored starts. -/
def wsLiveGetResumeOffset (lv : Live) : Nat :=
  let s := if lv.active ∧ lv.allocated then ((List.range lv.nsegs).takeWhile lv.ackedEver).length else 0
  if lv.total < s * SEG then lv.total else s * SEG

def wsLiveAttach (lv : Live) : Live × Int :=
  if !lv.active then (lv, -1) else ({ lv with refs := lv.refs + 1 }, 0)

def wsLiveDetach (lv : Live) : Live :=
  let lv := { lv with refs := lv.refs - 1 }
  if lv.refs = 0 ∧ lv.freePending then freeLocked lv else lv

/-- `ws_live_get_header`: the number of bytes copied and the buffer. -/
def wsLiveGetHeader (lv : Live) (out : Bytes) (len : Nat) : Nat × Bytes :=
  if len = 0 then (0, out)
  else if lv.active ∧ 0 < lv.nsegs ∧ lv.present 0 then
    let full := segLenLocked lv 0
    let got := if len < full then len else full
    (got, blit out 0 (lv.slots (lv.slotOf 0).toNat) 0 got)
  else (0, out)

/-- The locals of a `ws_live_read` call; `asked` is its original `count`. -/
structure ReadCall where
  asked : Nat
  off : Nat
  dst : Bytes
  got : Nat
  count : Nat
  readStart : Nat
  servedEnd : Nat

/-- The first offset in `[o, stop)` whose segment is missing, or `stop`. -/
def firstMissing (lv : Live) (stop : Nat) : Nat → Nat → Nat
  | 0, _ => stop
  | n + 1, o =>
    if o < stop then
      let s := o / SEG
      if lv.nsegs ≤ s ∨ !lv.present s then o
      else
        let sEnd := if lv.total < (s + 1) * SEG then lv.total else (s + 1) * SEG
        firstMissing lv stop n (if o < sEnd then sEnd else o + 1)
    else stop

/-- The copy loop of `ws_live_read`, segment by segment. -/
def copyLoop : Nat → Live → ReadCall → Live × ReadCall
  | 0, lv, r => (lv, r)
  | n + 1, lv, r =>
    if r.got < r.count then
      let s := r.off / SEG
      let slot := if s < lv.nsegs then lv.slotOf s else -1
      if slot < 0 then (lv, r)
      else
        let so := r.off - s * SEG
        let m := if r.count - r.got < SEG - so then r.count - r.got else SEG - so
        let segLeft := segLenLocked lv s
        let m := if segLeft < so + m then segLeft - so else m
        if m = 0 then (lv, r)
        else
          copyLoop n
            { lv with
              lastUse := Function.update lv.lastUse slot.toNat (lv.tick + 1)
              tick := lv.tick + 1
              slotRead := Function.update lv.slotRead slot.toNat true
              served := lv.served + m }
            { r with
              dst := blit r.dst r.got (lv.slots slot.toNat) so m
              off := r.off + m
              got := r.got + m }
    else (lv, r)

/-- The eviction high-water mark after a read that ended. -/
def advanceRunHi (lv : Live) (r : ReadCall) : Nat :=
  if r.readStart ≤ lv.runHi + SEG ∧ lv.runHi < r.servedEnd then r.servedEnd else lv.runHi

def deliver (lv : Live) (r : ReadCall) : Live :=
  { lv with
    runHi := advanceRunHi lv r
    history := { lv.history with
      delivered := (r.readStart, r.servedEnd) :: lv.history.delivered } }

def unpark (lv : Live) (need : Nat) : Live :=
  if need < lv.nsegs ∧ 0 < lv.waiters need then
    { lv with waiters := Function.update lv.waiters need (lv.waiters need - 1) }
  else lv

/-- Record the wanted segment and shield it while the reader waits. -/
def park (lv : Live) (need : Nat) : Live :=
  let lv := if lv.peakSeg < need ∧ need < lv.nsegs then { lv with peakSeg := need } else lv
  if need < lv.nsegs then
    { lv with waiters := Function.update lv.waiters need (lv.waiters need + 1) }
  else lv

/-- `emit_seek_locked`, at most one request per segment in two seconds: the new
state and whether there is a seek function to call. -/
def emitSeekLocked (lv : Live) (seg now : Nat) : Live × Bool :=
  if seg < lv.nsegs ∧ 2000 < u64Sub now (lv.seekSent seg) then
    ({ lv with seekSent := Function.update lv.seekSent seg now }, lv.seekFn)
  else (lv, false)

inductive ReadTurn where
  | ret (r : ReadCall) (n : Int)
  | again (r : ReadCall)
  | seek (r : ReadCall) (need : Nat)
  | wait (r : ReadCall) (need : Nat)

/-- One turn of the `for (;;)` of `ws_live_read`, up to where it returns or
gives up the lock. -/
def readTurn (lv : Live) (r : ReadCall) (now : Nat) : Live × ReadTurn :=
  if lv.aborted then (lv, .ret r (-1))
  else
    let stop := r.off + (r.count - r.got)
    let miss := firstMissing lv stop (stop - r.off) r.off
    if stop ≤ miss then
      let (lv', r') := copyLoop (r.count - r.got) lv r
      if r'.count ≤ r'.got then (deliver lv' r', .ret r' r'.got)
      else (lv', .again r')
    else
      let need := miss / SEG
      let lv' := park lv need
      if 0 < need then
        match emitSeekLocked lv' need now with
        | (lv'', true) => (lv'', .seek r need)
        | (lv'', false) => (lv'', .wait r need)
      else (lv', .wait r need)

end PkgManager.LiveCalls
