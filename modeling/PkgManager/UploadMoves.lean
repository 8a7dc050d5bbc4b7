import PkgManager.LiveSound
import PkgManager.UploadThreads

namespace PkgManager.UploadMoves

open Interleaving Memory LiveSession LiveCalls Installer InstallWorker UploadServer UploadThreads

/-- The session goes on or ends; none was created. -/
structure SameSession (lv lv' : Live) : Prop where
  active : lv'.active = true → lv.active = true
  sid : lv'.active = true → lv'.sessionId = lv.sessionId

theorem SameSession.refl (lv : Live) : SameSession lv lv := ⟨id, fun _ => rfl⟩

theorem sameSession_of_eq {lv lv' : Live} (ha : lv'.active = lv.active)
    (hs : lv'.sessionId = lv.sessionId) : SameSession lv lv' := ⟨fun h => ha ▸ h, fun _ => hs⟩

theorem SameSession.trans {a b c : Live} (h : SameSession a b) (k : SameSession b c) :
    SameSession a c :=
  ⟨fun hc => h.active (k.active hc), fun hc => (k.sid hc).trans (h.sid (k.active hc))⟩

theorem abort_same (lv : Live) : SameSession lv (wsLiveAbort lv) := by
  unfold wsLiveAbort
  split <;> exact sameSession_of_eq rfl rfl

theorem destroy_same (lv : Live) : SameSession lv (wsLiveDestroy lv) := by
  unfold wsLiveDestroy
  split
  · exact .refl lv
  · refine ⟨fun h => ?_, fun h => ?_⟩
    · simp only at h
      split at h <;> cases h
    · simp only at h
      split at h <;> cases h

theorem finish_same (lv : Live) : SameSession lv (wsLiveFinish lv).1 := by
  unfold wsLiveFinish
  simp only
  split <;> exact sameSession_of_eq rfl rfl

theorem attach_same (lv : Live) : SameSession lv (wsLiveAttach lv).1 := by
  unfold wsLiveAttach
  split <;> exact sameSession_of_eq rfl rfl

theorem detach_same (lv : Live) : SameSession lv (wsLiveDetach lv) := by
  unfold wsLiveDetach
  simp only
  split <;> exact sameSession_of_eq rfl rfl

theorem alloc_same (lv : Live) (seg : Nat) : SameSession lv (allocSlotLocked lv seg).1 := by
  have hclaim : ∀ lv slot, SameSession lv (claim lv seg slot) := by
    intro lv slot
    unfold claim
    split <;> exact sameSession_of_eq rfl rfl
  unfold allocSlotLocked
  split
  · exact .refl lv
  · split
    · exact hclaim lv _
    · split
      · exact .refl lv
      · rename_i old _
        have hevict : SameSession lv (evict lv old) := sameSession_of_eq rfl rfl
        exact hevict.trans (hclaim _ _)

theorem store_same (lv : Live) (seg : Nat) (data : Bytes) (offset len : Nat) :
    SameSession lv (storeSegLocked lv seg data offset len).1 := by
  unfold storeSegLocked
  simp only
  generalize (if seg * SEG < offset then offset else seg * SEG) = wStart
  generalize (if u64 (offset + len) < seg * SEG + segLenLocked lv seg then u64 (offset + len)
    else seg * SEG + segLenLocked lv seg) = wEnd
  have halloc := alloc_same lv seg
  split
  · exact .refl lv
  · split
    · exact .refl lv
    · split
      · exact halloc
      · exact halloc.trans (sameSession_of_eq rfl rfl)

theorem tryWriteLoop_same (data : Bytes) (offset len n s : Nat) (lv : Live) :
    SameSession lv (tryWriteLoop data offset len n s lv).1 := by
  induction n generalizing s lv with
  | zero => exact .refl lv
  | succ n ih =>
    have hstore := store_same lv s data offset len
    rw [tryWriteLoop_succ]
    cases hst : storeSegLocked lv s data offset len with
    | mk lv' r =>
      rw [hst] at hstore
      have hnext := hstore.trans (ih (s + 1) lv')
      split_ifs
      · exact hnext
      · exact hstore
      · exact hstore
      · exact hnext

theorem tryWrite_same (lv : Live) (offset : Nat) (data : Bytes) (len : Nat) :
    SameSession lv (wsLiveTryWrite lv offset data len).1 := by
  unfold wsLiveTryWrite
  cases hr : writeRefused lv offset len with
  | some r => exact .refl lv
  | none =>
    exact tryWriteLoop_same data offset len (lastSeg offset len + 1 - firstSeg offset)
      (firstSeg offset) lv

theorem same_of_readFrame {lv lv' : Live} (h : LiveSound.readFrame lv' = LiveSound.readFrame lv) :
    SameSession lv lv' :=
  sameSession_of_eq (congrArg Live.active h :) (congrArg Live.sessionId h :)

/-- The stream server reads the session, it makes none. -/
theorem reader_same {lv lv' : Live} {t t' : LiveThreads.Thread} {e : LiveThreads.Event}
    (hr : mayRead e = true) (h : LiveThreads.turn lv t e = some (lv', t')) : SameSession lv lv' := by
  rcases LiveThreads.turn_cases h with ⟨_, hc⟩ | ⟨w, expired, rfl, rfl, _⟩ | ⟨r, rfl, now, rfl, he⟩ |
    ⟨r, need, rfl, now, rfl, he⟩ | ⟨r, need, rfl, expired, now, rfl, he⟩
  · cases e with
    | attach =>
      cases hc
      exact attach_same lv
    | detach =>
      cases hc
      exact detach_same lv
    | read off buf count now =>
      obtain rfl := congrArg Prod.fst (Option.some.inj hc)
      exact same_of_readFrame (LiveSound.wsLiveRead_frame _ _ _ _ _)
    | rescan now => cases hc
    | seekReturn now => cases hc
    | readWake expired now => cases hc
    | _ => cases hr
  · cases hr
  · obtain rfl := congrArg Prod.fst he
    exact same_of_readFrame (LiveSound.scanFrom_frame _ _ _)
  · obtain rfl := congrArg Prod.fst he
    exact same_of_readFrame (LiveSound.seekReturn_frame _ _ _ _)
  · obtain rfl := congrArg Prod.fst he
    exact same_of_readFrame (LiveSound.readWake_frame _ _ _ _ _)

theorem init_cases (lv : Live) (c : CreateCall) :
    (∃ r, wsDirectInitSession lv c = (lv, r) ∧ (r = 0 → lv.active = true)) ∨
      (lv.active = false ∧ wsDirectInitSession lv c = (freshSession lv c, 0)) := by
  unfold wsDirectInitSession
  split
  · exact .inl ⟨-1, rfl, nofun⟩
  · unfold wsLiveCreate
    simp only
    split
    · exact .inl ⟨-1, rfl, nofun⟩
    · split
      · exact .inl ⟨-1, rfl, nofun⟩
      · split
        · rename_i hact
          left
          split
          · exact ⟨0, rfl, fun _ => hact⟩
          · exact ⟨-2, rfl, nofun⟩
        · rename_i hact
          split
          · exact .inl ⟨-2, rfl, nofun⟩
          · split
            · exact .inl ⟨-1, rfl, nofun⟩
            · exact .inr ⟨Bool.eq_false_iff.mpr hact, rfl⟩

/-- A call for a session leaves the one there is, or creates one. -/
theorem initSession_cases (s : World) (c : CreateCall) :
    ((initSession s c).1 = s ∧ ((initSession s c).2 = 0 → s.live.active = true)) ∨
      (s.live.active = false ∧ (initSession s c).2 = 0 ∧
        (initSession s c).1 =
          { s.setLive (freshSession s.live c) with created := c.sid :: s.created }) := by
  unfold initSession
  rcases init_cases s.live c with ⟨r, hr, hz⟩ | ⟨hact, hr⟩
  · left
    rw [hr]
    refine ⟨?_, hz⟩
    have hif : ¬(r = 0 ∧ (!s.live.active) = true) := by
      rintro ⟨h0, hn⟩
      rw [hz h0] at hn
      cases hn
    simp only [if_neg hif]
    rfl
  · right
    rw [hr, hact]
    exact ⟨rfl, rfl, rfl⟩

theorem worker_live {s s' : Site} {w w' : Worker} {new : List Worker} {e : WorkerEvent}
    (h : workerTurn s w e = some (s', w', new)) :
    s'.live = s.live ∨ ∃ t, e = .go ∧ (w.pc = .release t ∨ w.pc = .leave t) ∧
      s'.live = (teardown w.filesystem s t).1.live := by
  cases e with
  | go =>
    simp only [workerTurn] at h
    cases hpc : w.pc with
    | release t =>
      refine .inr ⟨t, rfl, .inl rfl, ?_⟩
      simp only [hpc] at h
      cases htear : teardown w.filesystem s t with
      | mk s₁ next =>
        rw [htear] at h
        cases next with
        | some t' =>
          cases h
          rfl
        | none =>
          simp only at h
          split at h <;> cases h <;> rfl
    | leave t =>
      refine .inr ⟨t, rfl, .inr rfl, ?_⟩
      simp only [hpc] at h
      cases htear : teardown w.filesystem s t with
      | mk s₁ next =>
        rw [htear] at h
        cases next with
        | some t' =>
          cases h
          rfl
        | none =>
          cases h
          rfl
    | starting pc =>
      left
      simp only [hpc] at h
      cases pc with
      | check =>
        simp only at h
        split at h <;> cases h <;> rfl
      | join =>
        simp only at h
        split at h <;> cases h <;> rfl
      | _ => cases h
    | _ =>
      left
      simp only [hpc] at h
      first
        | (cases h; done)
        | (cases h; rfl)
        | (split at h <;> cases h <;> rfl)
  | _ =>
    left
    simp only [workerTurn] at h
    (repeat' split at h) <;> cases h <;> rfl
theorem teardown_same (filesystem : Bool) (s : Site) (t : Teardown) :
    SameSession s.live (teardown filesystem s t).1.live := by
  cases t with
  | abort => exact abort_same s.live
  | stop =>
    unfold teardown
    simp only
    split <;> exact .refl _
  | destroy => exact destroy_same s.live

theorem call_live {s s' : Site} {t t' : InstallThreads.Thread} {e : InstallThreads.CallEvent}
    {new : List InstallThreads.Thread} (h : InstallThreads.callTurn s t e = some (s', t', new)) :
    s'.live = s.live ∨ (t = .shutting .abort ∧ s'.live = wsLiveAbort s.live) ∨
      ∃ pc, t = .canceling pc ∧ s'.live = (teardown false s pc).1.live := by
  have hbegin : ∀ {t'}, InstallThreads.begin s e = some (s', t', new) → s'.live = s.live := by
    intro t' hb
    cases e <;> cases hb <;> rfl
  cases t with
  | idle => exact .inl (hbegin h)
  | returned n => exact .inl (hbegin h)
  | starting c pc =>
    left
    simp only [InstallThreads.callTurn, InstallThreads.startTurn] at h
    (repeat' split at h) <;> cases h <;> rfl
  | canceling pc =>
    refine .inr (.inr ⟨pc, rfl, ?_⟩)
    cases e with
    | go =>
      simp only [InstallThreads.callTurn] at h
      cases htear : teardown false s pc with
      | mk s₁ next =>
        rw [htear] at h
        cases next <;> cases h <;> rfl
    | _ => cases h
  | shutting pc =>
    cases e with
    | go =>
      simp only [InstallThreads.callTurn] at h
      cases pc with
      | abort =>
        cases h
        exact .inr (.inl ⟨rfl, rfl⟩)
      | join old =>
        left
        simp only [InstallThreads.shutdownTurn] at h
        split at h <;> cases h
        rfl
      | _ =>
        cases h
        exact .inl rfl
    | _ => cases h
  | waitingForPart =>
    left
    simp only [InstallThreads.callTurn, InstallThreads.waiterTurn] at h
    (repeat' split at h) <;> cases h <;> rfl
  | worker w => cases h

theorem install_same {s s' : Site} {t t' : InstallThreads.Thread} {e : InstallThreads.Event}
    {new : List InstallThreads.Thread} (h : InstallThreads.turn s t e = some (s', t', new)) :
    SameSession s.live s'.live := by
  cases e with
  | work e =>
    cases t with
    | worker w =>
      obtain ⟨⟨s₁, w', new'⟩, hturn, he⟩ := Option.map_eq_some_iff.mp h
      cases he
      rcases worker_live hturn with hl | ⟨t, _, _, hl⟩
      · exact sameSession_of_eq (by rw [hl]) (by rw [hl])
      · rw [hl]
        exact teardown_same _ s t
    | _ => cases h
  | call e =>
    rcases call_live h with hl | ⟨_, hl⟩ | ⟨pc, _, hl⟩
    · exact sameSession_of_eq (by rw [hl]) (by rw [hl])
    · rw [hl]
      exact abort_same s.live
    · rw [hl]
      exact teardown_same _ s pc

/-- The event creates a session. -/
def creates (s : World) (t : Thread) (e : Event) : Bool :=
  match t, e with
  | .rest (.create c _), .rest (.create cfgSlots sid allocOk) =>
    !s.live.active && (initSession s ⟨c.filename, c.total, 0, cfgSlots, sid, allocOk⟩).2 = 0
  | .conn ⟨_, .unowned m, _, _, _, _, _, _⟩, .conn (.create cfgSlots sid allocOk) =>
    !s.live.active && (initSession s ⟨m.filename, m.total, 0, cfgSlots, sid, allocOk⟩).2 = 0
  | _, _ => false

theorem cancelSession_same (s : World) (e : SessionEnd) :
    SameSession s.live (cancelSession s e).1.live := by
  cases e with
  | uplink => exact .refl _
  | abort => exact abort_same _
  | destroy => exact destroy_same _

theorem endUpload_same (onlyActive : Bool) (s : World) (pc : EndPc) :
    SameSession s.live (endUpload onlyActive s pc).1.live := by
  cases pc with
  | cancel => exact .refl _
  | release canceled t => exact teardown_same false s.site t
  | probe => exact .refl _
  | session e => exact cancelSession_same s e

/-- The owner and the sessions so far are as they were. -/
structure OwnerKept (s s' : World) : Prop where
  live : SameSession s.live s'.live
  owner : s'.owner = s.owner
  ownerSid : s'.ownerSid = s.ownerSid
  created : s'.created = s.created
  owned : s'.owned = s.owned

theorem OwnerKept.refl (s : World) : OwnerKept s s := ⟨.refl _, rfl, rfl, rfl, rfl⟩

theorem cancelSession_kept (s : World) (e : SessionEnd) : OwnerKept s (cancelSession s e).1 := by
  refine ⟨cancelSession_same s e, ?_, ?_, ?_, ?_⟩ <;> cases e <;> rfl

theorem endUpload_kept (onlyActive : Bool) (s : World) (pc : EndPc) :
    OwnerKept s (endUpload onlyActive s pc).1 := by
  refine ⟨endUpload_same onlyActive s pc, ?_, ?_, ?_, ?_⟩ <;> cases pc with
  | session e => cases e <;> rfl
  | _ => rfl

/-- A request leaves the owner and the session alone, unless it creates one. -/
theorem rest_cases {s s' : World} {pc pc' : RestPc} {e : RestEvent}
    (h : restTurn s pc e = some (s', pc')) :
    OwnerKept s s' ∨
      ∃ c resuming cfgSlots sid allocOk, pc = .create c resuming ∧
        e = .create cfgSlots sid allocOk ∧ (s', pc') = createOwned s c resuming cfgSlots sid allocOk := by
  have hrequest : ∀ {e}, request s e = some (s', pc') → OwnerKept s s' := by
    intro e hr
    cases e with
    | init c =>
      cases hr
      exact .refl s
    | cancel owner sid =>
      cases hr
      exact .refl s
    | finish =>
      cases hr
      exact ⟨finish_same s.live, rfl, rfl, rfl, rfl⟩
    | _ => cases hr
  unfold restTurn at h
  split at h
  · exact .inl (hrequest h)
  · exact .inl (hrequest h)
  · left
    split at h
    · cases h
    · cases h
      exact ⟨.refl _, rfl, rfl, rfl, rfl⟩
  · cases h
    exact .inl ⟨.refl _, rfl, rfl, rfl, rfl⟩
  · exact .inr ⟨_, _, _, _, _, rfl, rfl, (Option.some.inj h).symm⟩
  · cases h
    exact .inl (.refl s)
  · rename_i e
    left
    have hk := cancelSession_kept s e
    cases hc : cancelSession s e with
    | mk s₁ next =>
      rw [hc] at h hk
      cases next <;> cases h <;> exact hk
  · left
    split at h
    · cases h
    · split at h <;> cases h
      · exact ⟨.refl _, rfl, rfl, rfl, rfl⟩
      · exact .refl s
  · rename_i sid pc
    left
    have hk := endUpload_kept false s pc
    cases hc : endUpload false s pc with
    | mk s₁ next =>
      rw [hc] at h hk
      cases next with
      | some pc' =>
        cases h
        exact hk
      | none =>
        cases h
        exact ⟨hk.live, hk.owner, hk.ownerSid, hk.created, hk.owned⟩
  · cases h

theorem connGo_kept {s s' : World} {c c' : Conn} (h : connGo s c = some (s', c')) :
    OwnerKept s s' := by
  unfold connGo at h
  split at h
  · split at h <;> cases h
    exact .refl s
  · split at h
    · cases h
    · split at h <;> cases h <;> exact .refl s
  · split at h <;> cases h
    exact .refl s
  · split at h <;> cases h
    · exact .refl s
    · exact ⟨.refl _, rfl, rfl, rfl, rfl⟩
  · cases h
    exact .refl s
  · cases h
    exact ⟨finish_same s.live, rfl, rfl, rfl, rfl⟩
  · rename_i e _
    have hk := cancelSession_kept s e
    cases hc : cancelSession s e with
    | mk s₁ next =>
      rw [hc] at h hk
      cases next <;> cases h <;> exact hk
  · cases h
    exact .refl s
  · cases h
    exact .refl s
  · cases h
    exact .refl s
  · cases h
    exact ⟨tryWrite_same _ _ _ _, rfl, rfl, rfl, rfl⟩
  · split at h <;> cases h
    · exact ⟨.refl _, rfl, rfl, rfl, rfl⟩
    · exact .refl s
  · rename_i pc _
    have hk := endUpload_kept true s pc
    cases hc : endUpload true s pc with
    | mk s₁ next =>
      rw [hc] at h hk
      cases next <;> cases h <;> exact hk
  · cases h

/-- A connection leaves the owner and the session alone, unless it asks for one. -/
theorem conn_cases {s s' : World} {c c' : Conn} {e : ConnEvent}
    (h : connTurn s c e = some (s', c')) :
    (OwnerKept s s' ∧ ∀ cfgSlots sid allocOk, e ≠ .create cfgSlots sid allocOk) ∨
      ∃ m cfgSlots sid allocOk, c.pc = .unowned m ∧ e = .create cfgSlots sid allocOk ∧
        s' = (initSession s ⟨m.filename, m.total, 0, cfgSlots, sid, allocOk⟩).1 ∧
        c' = if (initSession s ⟨m.filename, m.total, 0, cfgSlots, sid, allocOk⟩).2 = 0 then
            c.at (.uplink s'.live.sessionId)
          else c.reply (.error
            (if (initSession s ⟨m.filename, m.total, 0, cfgSlots, sid, allocOk⟩).2 = -2 then .busy
              else .initFailed)) := by
  cases e with
  | go => exact .inl ⟨connGo_kept h, nofun⟩
  | create cfgSlots sid allocOk =>
    simp only [connTurn] at h
    split at h
    · rename_i m hpc
      cases h
      exact .inr ⟨m, cfgSlots, sid, allocOk, hpc, rfl, rfl, rfl⟩
    · cases h
  | _ =>
    left
    simp only [connTurn] at h
    split at h <;> cases h
    exact ⟨.refl s, nofun⟩

/-- What is said of connections, as a predicate of threads. -/
def OnConn (P : Conn → Prop) : Thread → Prop
  | .conn c => P c
  | _ => True

theorem onConns_mono {P Q : Conn → Prop} {ts : List Thread} (h : ∀ t ∈ ts, OnConn P t)
    (hw : ∀ c, P c → Q c) : ∀ t ∈ ts, OnConn Q t := by
  intro t ht
  have h' := h t ht
  cases t with
  | conn c => exact hw c h'
  | _ => trivial

theorem onConns_start {P : Conn → Prop} (seekFn : Bool) (installs requests readers : Nat) :
    ∀ t ∈ (start seekFn installs requests readers).threads, OnConn P t := by
  intro t ht
  simp only [start, List.mem_append, List.mem_replicate, List.mem_singleton] at ht
  rcases ht with ((⟨_, rfl⟩ | ⟨_, rfl⟩) | ⟨_, rfl⟩) | rfl <;> trivial

/-- A step of a thread that is neither a request nor a connection. -/
structure Elsewhere (s s' : World) (t t' : Thread) (new : List Thread) : Prop where
  kept : OwnerKept s s'
  before : ∀ P, OnConn P t
  after : ∀ P, OnConn P t'
  new : ∀ P : Conn → Prop, P (newConn s.accepted) → ∀ u ∈ new, OnConn P u

/-- The ways a step of a thread comes about. -/
theorem turn_cases {s s' : World} {t t' : Thread} {e : Event} {new : List Thread}
    (h : turn s t e = some (s', t', new)) :
    Elsewhere s s' t t' new ∨ (∃ pc pc' re, t = .rest pc ∧ t' = .rest pc' ∧ e = .rest re ∧ new = [] ∧
        restTurn s pc re = some (s', pc')) ∨
      ∃ c c' ce, t = .conn c ∧ t' = .conn c' ∧ e = .conn ce ∧ new = [] ∧
        connTurn s c ce = some (s', c') := by
  cases e with
  | install e =>
    cases t with
    | install t canceled =>
      obtain ⟨⟨site, t₁, new₁⟩, hturn, he⟩ := Option.map_eq_some_iff.mp h
      cases he
      refine .inl ⟨⟨install_same hturn, rfl, rfl, rfl, rfl⟩, fun _ => trivial, fun _ => trivial, ?_⟩
      intro P _ u hu
      obtain ⟨_, _, rfl⟩ := List.mem_map.mp hu
      trivial
    | _ => cases h
  | rest e =>
    cases t with
    | rest pc =>
      obtain ⟨⟨s₁, pc'⟩, hturn, he⟩ := Option.map_eq_some_iff.mp h
      cases he
      exact .inr (.inl ⟨pc, pc', e, rfl, rfl, rfl, rfl, hturn⟩)
    | _ => cases h
  | conn e =>
    cases t with
    | conn c =>
      obtain ⟨⟨s₁, c'⟩, hturn, he⟩ := Option.map_eq_some_iff.mp h
      cases he
      exact .inr (.inr ⟨c, c', e, rfl, rfl, rfl, rfl, hturn⟩)
    | _ => cases h
  | accept =>
    cases t with
    | listener =>
      cases h
      refine .inl ⟨⟨.refl _, rfl, rfl, rfl, rfl⟩, fun _ => trivial, fun _ => trivial, ?_⟩
      intro P hP u hu
      obtain rfl := List.mem_singleton.mp hu
      exact hP
    | _ => cases h
  | reader e =>
    cases t with
    | reader t =>
      simp only [turn] at h
      split at h
      · rename_i hr
        obtain ⟨⟨lv, t₁⟩, hturn, he⟩ := Option.map_eq_some_iff.mp h
        cases he
        refine .inl ⟨⟨reader_same hr hturn, rfl, rfl, rfl, rfl⟩, fun _ => trivial, fun _ => trivial, ?_⟩
        exact fun _ _ _ hu => absurd hu List.not_mem_nil
      · cases h
    | _ => cases h

theorem createOwned_live (s : World) (c : InitOwned) (resuming : Bool) (cfgSlots : Nat)
    (sid : ControlMessages.Text) (allocOk : Bool) :
    (createOwned s c resuming cfgSlots sid allocOk).1.live =
      (initSession s ⟨c.filename, c.total, 0, cfgSlots, sid, allocOk⟩).1.live := by
  unfold createOwned
  simp only
  split <;> rfl

theorem initSession_same {s : World} {c : CreateCall}
    (h : (!s.live.active && (initSession s c).2 = 0) = false) :
    SameSession s.live (initSession s c).1.live := by
  rcases initSession_cases s c with ⟨hs, _⟩ | ⟨hact, hz, _⟩
  · rw [hs]
    exact .refl _
  · simp [hact, hz] at h

theorem turn_same {s s' : World} {t t' : Thread} {e : Event} {new : List Thread}
    (h : turn s t e = some (s', t', new)) (hc : creates s t e = false) :
    SameSession s.live s'.live := by
  rcases turn_cases h with hk | ⟨pc, pc', re, rfl, rfl, rfl, rfl, hr⟩ |
      ⟨c, c', ce, rfl, rfl, rfl, rfl, hr⟩
  · exact hk.kept.live
  · rcases rest_cases hr with hk | ⟨r, resuming, cfgSlots, sid, allocOk, rfl, rfl, hcreate⟩
    · exact hk.live
    · have hs : s' = (createOwned s r resuming cfgSlots sid allocOk).1 := congrArg Prod.fst hcreate
      rw [hs, createOwned_live]
      exact initSession_same hc
  · rcases conn_cases hr with ⟨hk, _⟩ | ⟨m, cfgSlots, sid, allocOk, hpc, rfl, hs, _⟩
    · exact hk.live
    · rw [hs]
      obtain ⟨fd, pc, pending, authorized, asid, finish, replies, presented⟩ := c
      cases hpc
      exact initSession_same hc

theorem uploads_step {p q : Pool World Thread} {i : Nat} {e : Event}
    (h : uploads.step p i e = some q) :
    ∃ t t' new, p.threads[i]? = some t ∧ turn p.shared t e = some (q.shared, t', new) ∧
      q.threads = p.threads.set i t' ++ new := by
  obtain ⟨t, s', t', new, ht, hact, rfl⟩ := step_eq_some h
  exact ⟨t, t', new, ht, hact, rfl⟩

end PkgManager.UploadMoves
