import PkgManager.UploadMoves

namespace PkgManager.UploadChanges

open Interleaving Machine Memory LiveSession LiveCalls LiveSlots LiveSound Installer InstallWorker
open UploadServer UploadThreads UploadMoves

/-- Some step of the live session. -/
def Changes (lv lv' : Live) : Prop := ∃ e, Change lv e lv'

theorem Changes.of_quiet {lv lv' : Live} (h : Quiet lv lv') (hr : lv'.refs = lv.refs) :
    Changes lv lv' :=
  ⟨.abort, .quiet h (.inl (Nat.le_of_eq hr.symm))⟩

theorem Changes.refl (lv : Live) : Changes lv lv := .of_quiet (.refl lv) rfl

theorem abort_changes (lv : Live) : Changes lv (wsLiveAbort lv) := by
  unfold wsLiveAbort
  split
  · exact .of_quiet ⟨rfl, fun _ => rfl⟩ rfl
  · exact .refl lv

theorem finish_changes (lv : Live) : Changes lv (wsLiveFinish lv).1 := by
  unfold wsLiveFinish
  simp only
  split
  · exact .refl lv
  · exact .of_quiet ⟨rfl, id⟩ rfl

theorem destroy_changes (lv : Live) : Changes lv (wsLiveDestroy lv) := by
  cases ha : lv.active with
  | true => exact ⟨.destroy, .destroyed ha⟩
  | false =>
    unfold wsLiveDestroy
    rw [ha]
    exact .refl lv

theorem wrote_changes {lv lv' : Live} {data : Bytes} {offset len : Nat} (ha : lv.active = true)
    (h : Wrote data offset len lv lv') : Changes lv lv' :=
  ⟨.tryWrite offset data len, .wrote ha h (.refl _) (congrArg Live.refs h.frame_eq :)⟩

theorem tryWrite_changes {lv : Live} (h : lv.active = true → Session lv) (offset : Nat)
    (data : Bytes) (len : Nat) : Changes lv (wsLiveTryWrite lv offset data len).1 := by
  unfold wsLiveTryWrite
  cases hr : writeRefused lv offset len with
  | some r => exact .refl lv
  | none =>
    have ha := (writeRefused_none hr).1
    exact wrote_changes ha (tryWriteLoop_wrote (h ha) data offset len
      (lastSeg offset len + 1 - firstSeg offset) (firstSeg offset))

theorem init_changes (lv : Live) (c : CreateCall) : Changes lv (wsDirectInitSession lv c).1 :=
  ⟨.create c, (create_called lv c).change.1⟩

theorem initSession_changes (s : World) (c : CreateCall) : Changes s.live (initSession s c).1.live :=
  init_changes s.live c

theorem reader_changes {lv lv' : Live} {t t' : LiveThreads.Thread} {e : LiveThreads.Event}
    (hs : lv.active = true → Session lv) (hr : mayRead e = true)
    (h : LiveThreads.turn lv t e = some (lv', t')) : Changes lv lv' := by
  refine ⟨e, ?_⟩
  rcases LiveThreads.turn_cases h with ⟨_, hc⟩ | ⟨w, expired, rfl, rfl, _⟩ | ⟨r, rfl, now, rfl, he⟩ |
    ⟨r, need, rfl, now, rfl, he⟩ | ⟨r, need, rfl, expired, now, rfl, he⟩
  · exact (call_cases hs hc).change.1
  · cases hr
  · obtain rfl := congrArg Prod.fst he
    exact .read (scanFrom_frame _ _ _)
  · obtain rfl := congrArg Prod.fst he
    exact .read (seekReturn_frame _ _ _ _)
  · obtain rfl := congrArg Prod.fst he
    exact .read (readWake_frame _ _ _ _ _)

theorem teardown_changes (filesystem : Bool) (s : Site) (t : Teardown) :
    Changes s.live (teardown filesystem s t).1.live := by
  cases t with
  | abort => exact abort_changes s.live
  | stop =>
    unfold teardown
    simp only
    split <;> exact .refl _
  | destroy => exact destroy_changes s.live

theorem install_changes {s s' : Site} {t t' : InstallThreads.Thread} {e : InstallThreads.Event}
    {new : List InstallThreads.Thread} (h : InstallThreads.turn s t e = some (s', t', new)) :
    Changes s.live s'.live := by
  cases e with
  | work e =>
    cases t with
    | worker w =>
      obtain ⟨⟨s₁, w', new'⟩, hturn, he⟩ := Option.map_eq_some_iff.mp h
      cases he
      rcases worker_live hturn with hl | ⟨t, _, _, hl⟩ <;> rw [hl]
      · exact .refl _
      · exact teardown_changes _ s t
    | _ => cases h
  | call e =>
    rcases call_live h with hl | ⟨_, hl⟩ | ⟨pc, _, hl⟩ <;> rw [hl]
    · exact .refl _
    · exact abort_changes s.live
    · exact teardown_changes _ s pc

theorem cancelSession_changes (s : World) (e : SessionEnd) :
    Changes s.live (cancelSession s e).1.live := by
  cases e with
  | uplink => exact .refl _
  | abort => exact abort_changes _
  | destroy => exact destroy_changes _

theorem endUpload_changes (onlyActive : Bool) (s : World) (pc : EndPc) :
    Changes s.live (endUpload onlyActive s pc).1.live := by
  cases pc with
  | cancel => exact .refl _
  | release canceled t => exact teardown_changes false s.site t
  | probe => exact .refl _
  | session e => exact cancelSession_changes s e

theorem rest_changes {s s' : World} {pc pc' : RestPc} {e : RestEvent}
    (h : restTurn s pc e = some (s', pc')) : Changes s.live s'.live := by
  have hrequest : ∀ {e}, request s e = some (s', pc') → Changes s.live s'.live := by
    intro e hr
    cases e with
    | init c => cases hr; exact .refl _
    | cancel owner sid => cases hr; exact .refl _
    | finish => cases hr; exact finish_changes s.live
    | _ => cases hr
  unfold restTurn at h
  split at h
  · exact hrequest h
  · exact hrequest h
  · split at h <;> cases h
    exact .refl _
  · cases h
    exact .refl _
  · rename_i c resuming cfgSlots sid allocOk
    have hlive := createOwned_live s c resuming cfgSlots sid allocOk
    rw [show s' = (createOwned s c resuming cfgSlots sid allocOk).1 from
      (congrArg Prod.fst (Option.some.inj h)).symm, hlive]
    exact initSession_changes s _
  · cases h
    exact .refl _
  · rename_i e
    have hk := cancelSession_changes s e
    cases hc : cancelSession s e with
    | mk s₁ next =>
      rw [hc] at h hk
      cases next <;> cases h <;> exact hk
  · split at h
    · cases h
    · split at h <;> cases h <;> exact .refl _
  · rename_i sid pc
    have hk := endUpload_changes false s pc
    cases hc : endUpload false s pc with
    | mk s₁ next =>
      rw [hc] at h hk
      cases next <;> cases h <;> exact hk
  · cases h

theorem connGo_changes {s s' : World} {c c' : Conn} (hs : s.live.active = true → Session s.live)
    (h : connGo s c = some (s', c')) : Changes s.live s'.live := by
  unfold connGo at h
  split at h
  · split at h <;> cases h
    exact .refl _
  · split at h
    · cases h
    · split at h <;> cases h <;> exact .refl _
  · split at h <;> cases h
    exact .refl _
  · split at h <;> cases h <;> exact .refl _
  · cases h
    exact .refl _
  · cases h
    exact finish_changes s.live
  · rename_i e _
    have hk := cancelSession_changes s e
    cases hc : cancelSession s e with
    | mk s₁ next =>
      rw [hc] at h hk
      cases next <;> cases h <;> exact hk
  · cases h
    exact .refl _
  · cases h
    exact .refl _
  · cases h
    exact .refl _
  · cases h
    exact tryWrite_changes hs _ _ _
  · split at h <;> cases h <;> exact .refl _
  · rename_i pc _
    have hk := endUpload_changes true s pc
    cases hc : endUpload true s pc with
    | mk s₁ next =>
      rw [hc] at h hk
      cases next <;> cases h <;> exact hk
  · cases h

theorem conn_changes {s s' : World} {c c' : Conn} {e : ConnEvent}
    (hs : s.live.active = true → Session s.live) (h : connTurn s c e = some (s', c')) :
    Changes s.live s'.live := by
  cases e with
  | go => exact connGo_changes hs h
  | create cfgSlots sid allocOk =>
    simp only [connTurn] at h
    split at h <;> cases h
    exact initSession_changes s _
  | _ =>
    simp only [connTurn] at h
    split at h <;> cases h
    exact .refl _

/-- Whatever a thread of the program does, the live session takes one of its own steps. -/
theorem turn_changes {s s' : World} {t t' : Thread} {e : Event} {new : List Thread}
    (hs : s.live.active = true → Session s.live) (h : turn s t e = some (s', t', new)) :
    Changes s.live s'.live := by
  cases e with
  | install e =>
    cases t with
    | install t canceled =>
      obtain ⟨⟨site, t₁, new₁⟩, hturn, he⟩ := Option.map_eq_some_iff.mp h
      cases he
      exact install_changes hturn
    | _ => cases h
  | rest e =>
    cases t with
    | rest pc =>
      obtain ⟨⟨s₁, pc'⟩, hturn, he⟩ := Option.map_eq_some_iff.mp h
      cases he
      exact rest_changes hturn
    | _ => cases h
  | conn e =>
    cases t with
    | conn c =>
      obtain ⟨⟨s₁, c'⟩, hturn, he⟩ := Option.map_eq_some_iff.mp h
      cases he
      exact conn_changes hs hturn
    | _ => cases h
  | accept =>
    cases t with
    | listener => cases h; exact .refl _
    | _ => cases h
  | reader e =>
    cases t with
    | reader t =>
      simp only [turn] at h
      split at h
      · rename_i hr
        obtain ⟨⟨lv, t₁⟩, hturn, he⟩ := Option.map_eq_some_iff.mp h
        cases he
        exact reader_changes hs hr hturn
      · cases h
    | _ => cases h

/-- An active session is sound. -/
def SoundSession (p : Pool World Thread) : Prop := p.shared.live.active = true → Session p.shared.live

theorem sound_step {p q : Pool World Thread} {i : Nat} {e : Event} (h : SoundSession p)
    (hs : uploads.step p i e = some q) : SoundSession q := by
  obtain ⟨t, t', new, _, hturn, _⟩ := uploads_step hs
  obtain ⟨e, hc⟩ := turn_changes h hturn
  exact hc.session h

/-- A session that ended has no segments. -/
def Emptied (lv : Live) : Prop := lv.active = false → lv.nsegs = 0

theorem emptied_of_changes {lv lv' : Live} (h : Changes lv lv') (he : Emptied lv) : Emptied lv' := by
  obtain ⟨e, h⟩ := h
  intro hact
  cases h with
  | fresh => cases hact
  | quiet hq _ =>
    have hnsegs : lv'.nsegs = lv.nsegs := (congrArg Live.nsegs hq.frame_eq :)
    exact hnsegs.trans (he (hq.active ▸ hact))
  | destroyed ha =>
    unfold wsLiveDestroy
    simp only [ha, Bool.not_true, Bool.false_eq_true, ↓reduceIte]
  | wrote ha hw hq _ =>
    have hactive : lv'.active = true := hq.active.trans ((congrArg Live.active hw.frame_eq :).trans ha)
    rw [hactive] at hact
    cases hact
  | read hf =>
    have hnsegs : lv'.nsegs = lv.nsegs := (congrArg Live.nsegs hf :)
    have hactive : lv'.active = lv.active := (congrArg Live.active hf :)
    exact hnsegs.trans (he (hactive ▸ hact))

/-- A session is created only while no one holds a reference to the last one. -/
theorem init_refs {lv : Live} {c : CreateCall} (ha : lv.active = false)
    (h : (wsDirectInitSession lv c).2 = 0) : lv.refs = 0 := by
  unfold wsDirectInitSession wsLiveCreate at h
  simp only [ha, Bool.false_eq_true, ↓reduceIte] at h
  split at h
  · cases h
  · split at h
    · cases h
    · split at h
      · cases h
      · split at h
        · cases h
        · omega

theorem creates_refs {s : World} {t : Thread} {e : Event} (h : creates s t e = true) :
    s.live.refs = 0 := by
  have hinit : ∀ {c : CreateCall}, (!s.live.active && decide ((initSession s c).2 = 0)) = true →
      s.live.refs = 0 := by
    intro c hc
    obtain ⟨hact, hz⟩ := Bool.and_eq_true_iff.mp hc
    exact init_refs (by simpa using hact) (of_decide_eq_true hz)
  unfold creates at h
  split at h
  · exact hinit h
  · exact hinit h
  · cases h

/-- The session goes on or ends, and what it has stored stays stored. -/
structure Lasting (lv lv' : Live) : Prop where
  session : SameSession lv lv'
  acked : ∀ n, lv.ackedEver n = true → lv'.ackedEver n = true
  stores : ∀ st ∈ lv.history.stores, st ∈ lv'.history.stores
  size : lv'.active = true → lv'.total = lv.total ∧ lv'.nsegs = lv.nsegs

theorem Lasting.refl (lv : Live) : Lasting lv lv :=
  ⟨.refl lv, fun _ => id, fun _ => id, fun _ => ⟨rfl, rfl⟩⟩

theorem Lasting.trans {a b c : Live} (h : Lasting a b) (k : Lasting b c) : Lasting a c :=
  ⟨h.session.trans k.session, fun n hn => k.acked n (h.acked n hn),
    fun st hst => k.stores st (h.stores st hst), fun hc =>
      ⟨(k.size hc).1.trans (h.size (k.session.active hc)).1,
        (k.size hc).2.trans (h.size (k.session.active hc)).2⟩⟩

theorem lasting_of_wrote {lv lv' : Live} {data : Bytes} {offset len : Nat}
    (h : Wrote data offset len lv lv') :
    (∀ n, lv.ackedEver n = true → lv'.ackedEver n = true) ∧
      ∀ st ∈ lv.history.stores, st ∈ lv'.history.stores := by
  induction h with
  | refl => exact ⟨fun _ => id, fun _ => id⟩
  | tail _ hst ih =>
    obtain ⟨seg, k, hst⟩ := hst
    refine ⟨fun n hn => ?_, fun st hmem => ?_⟩
    · rw [hst.ackedEver, Function.update_apply]
      split
      · rfl
      · exact ih.1 n hn
    · rw [hst.stores]
      exact List.mem_cons_of_mem _ (ih.2 st hmem)

/-- Only the creation of a session forgets what was stored. -/
theorem lasting_of_changes {lv lv' : Live} (h : Changes lv lv') (hs : SameSession lv lv') :
    Lasting lv lv' := by
  obtain ⟨e, h⟩ := h
  cases h with
  | fresh ha =>
    have hact : lv.active = true := hs.active rfl
    rw [ha] at hact
    cases hact
  | quiet hq _ =>
    have hacked : lv'.ackedEver = lv.ackedEver := (congrArg Live.ackedEver hq.frame_eq :)
    have hstores : lv'.history.stores = lv.history.stores :=
      (congrArg (fun lv => lv.history.stores) hq.frame_eq :)
    exact ⟨hs, fun n hn => hacked ▸ hn, fun st hst => hstores ▸ hst,
      fun _ => ⟨(congrArg Live.total hq.frame_eq :), (congrArg Live.nsegs hq.frame_eq :)⟩⟩
  | destroyed ha =>
    refine ⟨hs, fun n hn => ?_, fun st hst => ?_, fun hact => ?_⟩
    · unfold wsLiveDestroy
      simp only [ha, Bool.not_true, Bool.false_eq_true, ↓reduceIte]
      split <;> exact hn
    · unfold wsLiveDestroy
      simp only [ha, Bool.not_true, Bool.false_eq_true, ↓reduceIte]
      split <;> exact hst
    · rw [(destroy_inactive lv ha).1] at hact
      cases hact
  | wrote ha hw hq _ =>
    have hlast := lasting_of_wrote hw
    have hacked := (congrArg Live.ackedEver hq.frame_eq :)
    have hstores := (congrArg (fun lv => lv.history.stores) hq.frame_eq :)
    have htotal := (congrArg Live.total hq.frame_eq :)
    have hnsegs := (congrArg Live.nsegs hq.frame_eq :)
    exact ⟨hs, fun n hn => (congrFun hacked n).trans (hlast.1 n hn),
      fun st hst => hstores.symm ▸ hlast.2 st hst,
      fun _ => ⟨htotal.trans (congrArg Live.total hw.frame_eq :),
        hnsegs.trans (congrArg Live.nsegs hw.frame_eq :)⟩⟩
  | read hf =>
    have hacked : lv'.ackedEver = lv.ackedEver := (congrArg Live.ackedEver hf :)
    have hstores : lv'.history.stores = lv.history.stores :=
      (congrArg (fun lv => lv.history.stores) hf :)
    exact ⟨hs, fun n hn => hacked ▸ hn, fun st hst => hstores ▸ hst,
      fun _ => ⟨(congrArg Live.total hf :), (congrArg Live.nsegs hf :)⟩⟩

theorem turn_lasting {s s' : World} {t t' : Thread} {e : Event} {new : List Thread}
    (hs : s.live.active = true → Session s.live) (h : turn s t e = some (s', t', new))
    (hc : creates s t e = false) : Lasting s.live s'.live :=
  lasting_of_changes (turn_changes hs h) (turn_same h hc)

theorem segLen_bounds {lv : Live} (hs : Session lv) {n : Nat} (hn : n < lv.nsegs) :
    0 < segLenLocked lv n ∧ segLenLocked lv n ≤ SEG ∧
      n * SEG + segLenLocked lv n < 2 ^ 64 := by
  have htight := hs.tight
  have hmax := hs.total_le
  unfold maxTotal at hmax
  unfold segLenLocked SEG at *
  dsimp only
  split
  · omega
  · split <;> omega

/-- A whole segment is stored, unless there is no slot for it. -/
theorem store_whole {lv : Live} (hs : Session lv) {n len : Nat} {b : Bytes}
    (hn : n < lv.nsegs) (hlen : len = segLenLocked lv n) :
    (storeSegLocked lv n b (n * SEG) len).2 = -2 ∨
      ∃ k : Nat, (storeSegLocked lv n b (n * SEG) len).2 = k ∧
        Store lv (storeSegLocked lv n b (n * SEG) len).1 n k b (n * SEG) len := by
  obtain ⟨hpos, _, hend⟩ := segLen_bounds hs hn
  subst hlen
  have hu : u64 (n * SEG + segLenLocked lv n) = n * SEG + segLenLocked lv n := u64_of_lt hend
  have hskip : ¬ n * SEG + segLenLocked lv n ≤ n * SEG := by omega
  have hfit : ¬ (n * SEG + segLenLocked lv n - n * SEG ≠ segLenLocked lv n) := by omega
  have ha := alloc_cases lv hn
  unfold storeSegLocked
  simp only [lt_irrefl, ↓reduceIte, hu, if_neg hskip, if_neg hfit]
  by_cases hneg : (allocSlotLocked lv n).2 < 0
  · rw [if_pos hneg]
    exact .inl rfl
  · rw [if_neg hneg]
    have hk : ((allocSlotLocked lv n).2.toNat : Int) = (allocSlotLocked lv n).2 :=
      Int.toNat_of_nonneg (by omega)
    rw [← hk] at ha ⊢
    exact .inr ⟨_, rfl, store_of_alloc hs hn (Nat.le_refl _) (Nat.le_of_eq hu.symm) ha⟩

/-- A whole segment that `ws_live_try_write` accepts is in the cache. -/
theorem tryWrite_stored {lv : Live} (hs : Session lv) {n len : Nat} {data : Bytes}
    (hn : n < lv.nsegs) (hlen : len = segLenLocked lv n)
    (h : (wsLiveTryWrite lv (n * SEG) data len).2 = 0) :
    ∃ k, Store lv (wsLiveTryWrite lv (n * SEG) data len).1 n k data (n * SEG) len := by
  obtain ⟨hpos, hle, hend⟩ := segLen_bounds hs hn
  have hbig : n * SEG + len < 2 ^ 64 := by omega
  have hfirst : firstSeg (n * SEG) = n := Nat.mul_div_cancel n (Nat.succ_pos _)
  have hlast : lastSeg (n * SEG) len = n := by
    unfold lastSeg
    rw [u64_of_lt hbig, u64Sub_of_le (by omega) hbig]
    unfold SEG at *
    omega
  have hstore := store_whole hs hn hlen (b := data)
  revert h
  unfold wsLiveTryWrite
  cases hr : writeRefused lv (n * SEG) len with
  | some r =>
    intro h
    exfalso
    have h : r = 0 := h
    subst h
    unfold writeRefused at hr
    split at hr
    · cases hr
    · split at hr
      · omega
      · split at hr <;> cases hr
  | none =>
    simp only
    rw [hfirst, hlast, Nat.add_sub_cancel_left, tryWriteLoop_succ]
    cases hst : storeSegLocked lv n data (n * SEG) len with
    | mk lv' r =>
      rw [hst] at hstore
      rcases hstore with hfull | ⟨k, hk, hstored⟩
      · obtain rfl : r = -2 := hfull
        exact nofun
      · obtain rfl : r = k := hk
        intro _
        refine ⟨k, ?_⟩
        have hnot : ¬ (k : Int) = -1 := by omega
        have hnot' : ¬ (k : Int) = -2 := by omega
        simp only [hnot, hnot', ↓reduceIte, ite_self]
        exact hstored

end PkgManager.UploadChanges
