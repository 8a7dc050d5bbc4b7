import PkgManager.Memory

namespace PkgManager.LiveSession

open Memory

/-- `WS_LIVE_SEG_SIZE`. -/
def SEG : Nat := 1024 * 1024

/-- `WS_DIRECT_MAX_TOTAL`, the cap `ws_direct_init_session` puts on a package. -/
def maxTotal : Nat := 256 * 1024 * 1024 * 1024

/-- One segment as the cache stored it. -/
structure Stored where
  seg : Nat
  data : Bytes

/-- A write call that was answered with 0. -/
structure Accepted where
  offset : Nat
  len : Nat
  data : Bytes

/-- History of the current session, newest first. No function reads it: it says
what was stored, which writes were accepted and which ranges were delivered. -/
structure History where
  stores : List Stored
  accepted : List Accepted
  delivered : List (Nat × Nat)

def History.empty : History := ⟨[], [], []⟩

/-- `g_lv`. Arrays are functions of their index; `allocated` is false while
the array pointers are NULL. -/
structure Live where
  active : Bool
  uploadComplete : Bool
  aborted : Bool
  refs : Nat
  freePending : Bool
  sessionId : List UInt8
  filename : List UInt8
  total : Nat
  nsegs : Nat
  allocated : Bool
  present : Nat → Bool
  slotOf : Nat → Int
  slots : Nat → Bytes
  nslots : Nat
  lastUse : Nat → Nat
  slotRead : Nat → Bool
  slotSeg : Nat → Int
  waiters : Nat → Nat
  ackedEver : Nat → Bool
  seekSent : Nat → Nat
  presentCount : Nat
  served : Nat
  runHi : Nat
  peakSeg : Nat
  tick : Nat
  seekFn : Bool
  history : History

/-- The zero-initialised `g_lv` of a fresh process. -/
def Live.init (seekFn : Bool) : Live where
  active := false
  uploadComplete := false
  aborted := false
  refs := 0
  freePending := false
  sessionId := []
  filename := []
  total := 0
  nsegs := 0
  allocated := false
  present := fun _ => false
  slotOf := fun _ => 0
  slots := fun _ _ => 0
  nslots := 0
  lastUse := fun _ => 0
  slotRead := fun _ => false
  slotSeg := fun _ => 0
  waiters := fun _ => 0
  ackedEver := fun _ => false
  seekSent := fun _ => 0
  presentCount := 0
  served := 0
  runHi := 0
  peakSeg := 0
  tick := 0
  seekFn := seekFn
  history := History.empty

def freeLocked (lv : Live) : Live := { lv with allocated := false, freePending := false }

/-- The part of a file name after its last `/`. -/
def baseName (filename : List UInt8) : List UInt8 :=
  (filename.reverse.takeWhile (· ≠ 47)).reverse

/-- Slots for a ring of `ringMb` MB, or `cfgSlots` (environment or setting). -/
def ringSlots (ringMb : Int) (cfgSlots nsegs : Nat) : Nat :=
  let n := if 0 < ringMb then min (max ringMb.toNat 4) 4096 else cfgSlots
  max (min n (nsegs + 4)) 4

/-- What `ws_live_create` is called with, and what the environment supplies:
the configured slot count, the new session id and whether `malloc` succeeds. -/
structure CreateCall where
  filename : List UInt8
  totalSize : Nat
  ringMb : Int
  cfgSlots : Nat
  sid : List UInt8
  allocOk : Bool

def freshSession (lv : Live) (c : CreateCall) : Live :=
  let nsegs := u64 (c.totalSize + SEG - 1) / SEG
  { lv with
    active := true
    uploadComplete := false
    aborted := false
    refs := 0
    freePending := false
    sessionId := c.sid
    filename := (baseName c.filename).take 255
    total := c.totalSize
    nsegs := nsegs
    allocated := true
    present := fun _ => false
    slotOf := fun _ => -1
    nslots := ringSlots c.ringMb c.cfgSlots nsegs
    lastUse := fun _ => 0
    slotRead := fun _ => false
    slotSeg := fun _ => -1
    waiters := fun _ => 0
    ackedEver := fun _ => false
    seekSent := fun _ => 0
    presentCount := 0
    served := 0
    runHi := 0
    peakSeg := 0
    history := History.empty }

/-- The session id handed out with result 0 is the one of the resulting state. -/
def wsLiveCreate (lv : Live) (c : CreateCall) : Live × Int :=
  let base := baseName c.filename
  if c.filename = [] ∨ c.totalSize = 0 then (lv, -1)
  else if base = [] ∨ base = [46] ∨ base = [46, 46] then (lv, -1)
  else if lv.active then
    if !lv.aborted ∧ lv.filename = base ∧ lv.total = c.totalSize then (lv, 0) else (lv, -2)
  else if 0 < lv.refs then (lv, -2)
  else if !c.allocOk then (lv, -1)
  else (freshSession lv c, 0)

/-- `ws_direct_init_session`, the only caller of `ws_live_create`. -/
def wsDirectInitSession (lv : Live) (c : CreateCall) : Live × Int :=
  if c.filename = [] ∨ c.totalSize = 0 ∨ maxTotal < c.totalSize then (lv, -1)
  else wsLiveCreate lv c

def wsLiveCheckId (lv : Live) (sid : List UInt8) : Bool :=
  sid ≠ [] ∧ lv.active ∧ lv.sessionId = sid

def segLenLocked (lv : Live) (seg : Nat) : Nat :=
  let start := seg * SEG
  if lv.total ≤ start then 0
  else
    let left := lv.total - start
    if left < SEG then left else SEG

def freeSlot (lv : Live) : Option Nat := (List.range lv.nslots).find? (fun i => lv.slotSeg i < 0)

/-- Rules A (served-past), B (urgent read) and C (demand page). -/
def evictable (lv : Live) (seg s : Nat) : Bool :=
  let incomingWaited := seg < lv.nsegs ∧ 0 < lv.waiters seg
  let far := lv.peakSeg ≤ seg
  if (s + 1) * SEG ≤ lv.runHi then true
  else if incomingWaited ∧ lv.ackedEver s then true
  else 0 < lv.peakSeg ∧ lv.ackedEver s ∧ (far ∨ s ≠ seg)

/-- One turn of the eviction scan; `best` is the oldest stamp and its segment. -/
def evictScan (lv : Live) (seg : Nat) (best : Option (Nat × Nat)) (s : Nat) : Option (Nat × Nat) :=
  if !lv.present s ∨ lv.slotOf s < 0 then best
  else if 0 < lv.waiters s then best
  else if !evictable lv seg s then best
  else
    let stamp := lv.lastUse (lv.slotOf s).toNat
    match best with
    | none => some (stamp, s)
    | some (oldest, old) => if stamp < oldest then some (stamp, s) else some (oldest, old)

def oldestSeg (lv : Live) (seg : Nat) : Option Nat :=
  ((List.range' 1 (lv.nsegs - 1)).foldl (evictScan lv seg) none).map (·.2)

def evict (lv : Live) (old : Nat) : Live :=
  { lv with
    slotRead := Function.update lv.slotRead (lv.slotOf old).toNat false
    present := Function.update lv.present old false
    slotOf := Function.update lv.slotOf old (-1) }

def claim (lv : Live) (seg slot : Nat) : Live :=
  if seg < lv.nsegs then
    { lv with
      slotOf := Function.update lv.slotOf seg slot
      slotSeg := Function.update lv.slotSeg slot seg }
  else lv

def allocSlotLocked (lv : Live) (seg : Nat) : Live × Int :=
  if seg < lv.nsegs ∧ 0 ≤ lv.slotOf seg then (lv, lv.slotOf seg)
  else
    match freeSlot lv with
    | some i => (claim lv seg i, i)
    | none =>
      match oldestSeg lv seg with
      | none => (lv, -1)
      | some old =>
        let slot := (lv.slotOf old).toNat
        (claim (evict lv old) seg slot, slot)

/-- The bookkeeping `store_seg_locked` does once a slot was found. -/
def fillSlot (lv : Live) (seg slot : Nat) (resident : Bool) (data : Bytes) (start len : Nat) : Live :=
  { lv with
    slotRead := if resident then lv.slotRead else Function.update lv.slotRead slot false
    slots := Function.update lv.slots slot (blit (lv.slots slot) 0 data start len)
    present := Function.update lv.present seg true
    presentCount := if lv.present seg then lv.presentCount else lv.presentCount + 1
    ackedEver := Function.update lv.ackedEver seg true
    lastUse := Function.update lv.lastUse slot (lv.tick + 1)
    tick := lv.tick + 1
    history := { lv.history with
      stores := ⟨seg, fun o => data (start + o)⟩ :: lv.history.stores } }

def storeSegLocked (lv : Live) (seg : Nat) (data : Bytes) (offset len : Nat) : Live × Int :=
  let sStart := seg * SEG
  let sLen := segLenLocked lv seg
  let lastEnd := u64 (offset + len)
  let wStart := if sStart < offset then offset else sStart
  let wEnd := if lastEnd < sStart + sLen then lastEnd else sStart + sLen
  if wEnd ≤ wStart then (lv, 1)
  else if wEnd - wStart ≠ sLen then (lv, -1)
  else
    let resident := lv.present seg
    let (lv', slot) := allocSlotLocked lv seg
    if slot < 0 then (lv', -2)
    else (fillSlot lv' seg slot.toNat resident data (wStart - offset) sLen, slot)

end PkgManager.LiveSession
