import PkgManager.LiveContent
import PkgManager.PageRuns

namespace PkgManager.UploadPage

open Interleaving Machine Memory LiveSession LiveCalls LiveSlots LiveSound LiveReaders LiveContent
open Installer InstallWorker UploadServer UploadThreads UploadMoves UploadChanges SegmentSender

/-! What stores. -/

/-- Nothing is stored; a session that is created starts without any. -/
def Unstored (lv lv' : Live) : Prop := ∀ st ∈ lv'.history.stores, st ∈ lv.history.stores

theorem Unstored.refl (lv : Live) : Unstored lv lv := fun _ h => h

theorem unstored_of_eq {lv lv' : Live} (h : lv'.history.stores = lv.history.stores) :
    Unstored lv lv' := fun _ hst => h ▸ hst

theorem abort_unstored (lv : Live) : Unstored lv (wsLiveAbort lv) := by
  unfold wsLiveAbort
  split <;> exact .refl lv

theorem finish_unstored (lv : Live) : Unstored lv (wsLiveFinish lv).1 := by
  unfold wsLiveFinish
  simp only
  split <;> exact .refl lv

theorem destroy_unstored (lv : Live) : Unstored lv (wsLiveDestroy lv) := by
  unfold wsLiveDestroy
  simp only
  split_ifs <;> exact .refl lv

theorem init_unstored (s : World) (c : CreateCall) : Unstored s.live (initSession s c).1.live := by
  show Unstored s.live (wsDirectInitSession s.live c).1
  obtain ⟨n, h⟩ | ⟨_, _, _, _, h⟩ := create_cases s.live c
  · rw [h]
    exact .refl _
  · rw [h]
    exact fun st hst => absurd hst List.not_mem_nil

theorem unstored_of_readFrame {lv lv' : Live} (h : readFrame lv' = readFrame lv) : Unstored lv lv' :=
  unstored_of_eq (congrArg (fun lv => lv.history.stores) h :)

theorem reader_unstored {lv lv' : Live} {t t' : LiveThreads.Thread} {e : LiveThreads.Event}
    (he : mayRead e = true) (h : LiveThreads.turn lv t e = some (lv', t')) : Unstored lv lv' := by
  rcases LiveThreads.turn_cases h with ⟨_, hc⟩ | ⟨w, expired, rfl, rfl, _⟩ | ⟨r, rfl, now, rfl, hs⟩ |
    ⟨r, need, rfl, now, rfl, hs⟩ | ⟨r, need, rfl, expired, now, rfl, hs⟩
  · cases e with
    | attach =>
      cases hc
      unfold wsLiveAttach
      split <;> exact .refl lv
    | detach =>
      cases hc
      unfold wsLiveDetach
      simp only
      split <;> exact .refl lv
    | read off buf count now =>
      have hl : (LiveThreads.wsLiveRead lv off buf count now).1 = lv' :=
        congrArg Prod.fst (Option.some.inj hc)
      exact hl ▸ unstored_of_readFrame (wsLiveRead_frame lv off buf count now)
    | rescan now => cases hc
    | seekReturn now => cases hc
    | readWake expired now => cases hc
    | _ => cases he
  · cases he
  · obtain rfl := congrArg Prod.fst hs
    exact unstored_of_readFrame (scanFrom_frame _ _ _)
  · obtain rfl := congrArg Prod.fst hs
    exact unstored_of_readFrame (seekReturn_frame _ _ _ _)
  · obtain rfl := congrArg Prod.fst hs
    exact unstored_of_readFrame (readWake_frame _ _ _ _ _)

theorem teardown_unstored (filesystem : Bool) (s : Site) (t : Teardown) :
    Unstored s.live (teardown filesystem s t).1.live := by
  cases t with
  | abort => exact abort_unstored s.live
  | stop =>
    unfold teardown
    simp only
    split <;> exact .refl _
  | destroy => exact destroy_unstored s.live

theorem install_unstored {s s' : Site} {t t' : InstallThreads.Thread} {e : InstallThreads.Event}
    {new : List InstallThreads.Thread} (h : InstallThreads.turn s t e = some (s', t', new)) :
    Unstored s.live s'.live := by
  cases e with
  | work e =>
    cases t with
    | worker w =>
      obtain ⟨⟨s₁, w', new'⟩, hturn, he⟩ := Option.map_eq_some_iff.mp h
      cases he
      rcases worker_live hturn with hl | ⟨t, _, _, hl⟩ <;> rw [hl]
      · exact .refl _
      · exact teardown_unstored _ s t
    | _ => cases h
  | call e =>
    rcases call_live h with hl | ⟨_, hl⟩ | ⟨pc, _, hl⟩ <;> rw [hl]
    · exact .refl _
    · exact abort_unstored s.live
    · exact teardown_unstored _ s pc

theorem cancelSession_unstored (s : World) (e : SessionEnd) :
    Unstored s.live (cancelSession s e).1.live := by
  cases e with
  | uplink => exact .refl _
  | abort => exact abort_unstored _
  | destroy => exact destroy_unstored _

theorem endUpload_unstored (onlyActive : Bool) (s : World) (pc : EndPc) :
    Unstored s.live (endUpload onlyActive s pc).1.live := by
  cases pc with
  | cancel => exact .refl _
  | release canceled t => exact teardown_unstored false s.site t
  | probe => exact .refl _
  | session e => exact cancelSession_unstored s e

theorem rest_unstored {s s' : World} {pc pc' : RestPc} {e : RestEvent}
    (h : restTurn s pc e = some (s', pc')) : Unstored s.live s'.live := by
  have hrequest : ∀ {e}, request s e = some (s', pc') → Unstored s.live s'.live := by
    intro e hr
    cases e with
    | init c => cases hr; exact .refl _
    | cancel owner sid => cases hr; exact .refl _
    | finish => cases hr; exact finish_unstored s.live
    | _ => cases hr
  unfold restTurn at h
  split at h
  · exact hrequest h
  · exact hrequest h
  · split at h <;> cases h
    exact .refl _
  · cases h
    exact .refl _
  · rename_i c resuming cfgSlots sid allocOk
    have hlive := createOwned_live s c resuming cfgSlots sid allocOk
    rw [show s' = (createOwned s c resuming cfgSlots sid allocOk).1 from
      (congrArg Prod.fst (Option.some.inj h)).symm, hlive]
    exact init_unstored s _
  · cases h
    exact .refl _
  · rename_i e
    have hk := cancelSession_unstored s e
    cases hc : cancelSession s e with
    | mk s₁ next =>
      rw [hc] at h hk
      cases next <;> cases h <;> exact hk
  · split at h
    · cases h
    · split at h <;> cases h <;> exact .refl _
  · rename_i sid pc
    have hk := endUpload_unstored false s pc
    cases hc : endUpload false s pc with
    | mk s₁ next =>
      rw [hc] at h hk
      cases next <;> cases h <;> exact hk
  · cases h

/-- The message a step of a connection stores. -/
def storedBy (c : Conn) : ConnEvent → Option Message
  | .go =>
    match c.pc with
    | .store m => some m
    | _ => none
  | _ => none

theorem connGo_stores {s s' : World} {c c' : Conn} (h : connGo s c = some (s', c')) :
    Unstored s.live s'.live ∨ ∃ m, storedBy c .go = some m ∧
      s'.live = (wsLiveTryWrite s.live (m.seg * SEG) m.data m.len).1 := by
  unfold connGo at h
  split at h <;> rename_i hpc
  · split at h <;> cases h
    exact .inl (.refl _)
  · split at h
    · cases h
    · split at h <;> cases h <;> exact .inl (.refl _)
  · split at h <;> cases h
    exact .inl (.refl _)
  · split at h <;> cases h <;> exact .inl (.refl _)
  · cases h
    exact .inl (.refl _)
  · cases h
    exact .inl (finish_unstored s.live)
  · rename_i e
    have hk := cancelSession_unstored s e
    cases hc : cancelSession s e with
    | mk s₁ next =>
      rw [hc] at h hk
      cases next <;> cases h <;> exact .inl hk
  · cases h
    exact .inl (.refl _)
  · cases h
    exact .inl (.refl _)
  · cases h
    exact .inl (.refl _)
  · rename_i m
    cases h
    refine .inr ⟨m, ?_, rfl⟩
    unfold storedBy
    rw [hpc]
  · split at h <;> cases h <;> exact .inl (.refl _)
  · rename_i pc
    have hk := endUpload_unstored true s pc
    cases hc : endUpload true s pc with
    | mk s₁ next =>
      rw [hc] at h hk
      cases next <;> cases h <;> exact .inl hk
  · cases h

theorem conn_stores {s s' : World} {c c' : Conn} {e : ConnEvent}
    (h : connTurn s c e = some (s', c')) :
    Unstored s.live s'.live ∨ ∃ m, storedBy c e = some m ∧
      s'.live = (wsLiveTryWrite s.live (m.seg * SEG) m.data m.len).1 := by
  cases e with
  | go => exact connGo_stores h
  | create cfgSlots sid allocOk =>
    simp only [connTurn] at h
    split at h <;> cases h
    exact .inl (init_unstored s _)
  | _ =>
    simp only [connTurn] at h
    split at h <;> cases h
    exact .inl (.refl _)

/-- The message a step of the program stores. -/
def storing (p : Pool World Thread) (i : Nat) : UploadThreads.Event → Option Message
  | .conn e => (connOf p i).bind (storedBy · e)
  | _ => none

/-- Only a connection stores anything. -/
theorem step_stores {p q : Pool World Thread} {i : Nat} {e : UploadThreads.Event}
    (hs : uploads.step p i e = some q) :
    Unstored p.shared.live q.shared.live ∨ ∃ m, storing p i e = some m ∧
      q.shared.live = (wsLiveTryWrite p.shared.live (m.seg * SEG) m.data m.len).1 := by
  obtain ⟨t, t', new, ht, h, _⟩ := uploads_step hs
  cases e with
  | install e =>
    cases t with
    | install t canceled =>
      obtain ⟨⟨site, t₁, new₁⟩, hturn, he⟩ := Option.map_eq_some_iff.mp h
      obtain ⟨hq, _⟩ := Prod.mk.inj he
      refine .inl ?_
      rw [← hq]
      exact install_unstored hturn
    | _ => cases h
  | rest e =>
    cases t with
    | rest pc =>
      obtain ⟨⟨s₁, pc'⟩, hturn, he⟩ := Option.map_eq_some_iff.mp h
      cases he
      exact .inl (rest_unstored hturn)
    | _ => cases h
  | conn e =>
    cases t with
    | conn c =>
      obtain ⟨⟨s₁, c'⟩, hturn, he⟩ := Option.map_eq_some_iff.mp h
      cases he
      refine (conn_stores hturn).imp_right fun ⟨m, hm, hlive⟩ => ⟨m, ?_, hlive⟩
      unfold storing
      rw [connOf_eq_some.mpr ht]
      exact hm
    | _ => cases h
  | accept =>
    cases t with
    | listener =>
      obtain ⟨hq, _⟩ := Prod.mk.inj (Option.some.inj h)
      refine .inl ?_
      rw [← hq]
      exact .refl _
    | _ => cases h
  | reader e =>
    cases t with
    | reader t =>
      simp only [UploadThreads.turn] at h
      split at h
      · rename_i hr
        obtain ⟨⟨lv, t₁⟩, hturn, he⟩ := Option.map_eq_some_iff.mp h
        obtain ⟨hq, _⟩ := Prod.mk.inj he
        refine .inl ?_
        rw [← hq]
        exact reader_unstored hr hturn
      · cases h
    | _ => cases h

/-! What is stored of the package. -/

/-- What the session holds of the package are its own bytes. -/
def Genuine (u : Upload) (lv : Live) : Prop :=
  ∀ st ∈ lv.history.stores, ∀ o < (u.slice st.seg).len, st.data o = u.file (st.seg * SEG + o)

theorem genuine_wrote {u : Upload} {lv lv' : Live} {data : Bytes} {offset len : Nat}
    (hlive : OfUpload u lv) (ha : lv.active = true) (hg : Genuine u lv)
    (hdata : ∀ o < len, data o = u.file (offset + o)) (h : Wrote data offset len lv lv') :
    Genuine u lv' := by
  have hsize : ∀ {a b : Live} {seg k : Nat}, Store a b seg k data offset len →
      frame b = frame a := fun h => h.frame_eq
  refine (h.preserves (P := fun b => frame b = frame lv ∧ Genuine u b) (hlive.session ha)
    ⟨rfl, hg⟩ fun a b seg k hsession ⟨hframe, hga⟩ hst => ⟨hst.frame_eq.trans hframe, ?_⟩).2.2
  intro st hmem o ho
  rw [hst.stores] at hmem
  rcases List.mem_cons.mp hmem with rfl | hmem
  · have htotal : a.total = lv.total := (congrArg Live.total hframe :)
    have hactive : a.active = true := (congrArg Live.active hframe :).trans ha
    have hof : OfUpload u a := ⟨fun _ => hsession, fun _ => htotal.trans (hlive.size ha),
      fun hno => absurd hactive (by rw [hno]; decide)⟩
    have hlen := slice_len hof hactive hst.seg_lt
    have hstop := hst.stop
    have hstart := hst.start
    have hmod : u64 (offset + len) ≤ offset + len := Nat.mod_le _ _
    show data (seg * SEG - offset + o) = u.file (seg * SEG + o)
    have ho : o < segLenLocked a seg := hlen ▸ ho
    rw [hdata _ (by omega)]
    congr 1
    omega
  · exact hga st hmem o ho

/-! Readers. -/

def Alive (lv : Live) : Thread → Prop
  | .reader t => ReaderAlive lv t
  | _ => True

theorem scan_alive {lv : Live} {r : ReadCall} (h : lv.active = true → Session lv)
    (hi : Inside lv r) (need now : Nat) :
    ReaderAlive (LiveThreads.scanFrom (unpark lv need) r now).1
      (LiveThreads.scanFrom (unpark lv need) r now).2 :=
  (scanFrom_reader (unpark_session need h) (unpark_inside need hi) now).1

theorem reader_alive {lv lv' : Live} {t t' : LiveThreads.Thread} {e : LiveThreads.Event}
    (hs : lv.active = true → Session lv) (he : mayRead e = true) (ht : ReaderAlive lv t)
    (h : LiveThreads.turn lv t e = some (lv', t')) : ReaderAlive lv' t' := by
  rcases LiveThreads.turn_cases h with ⟨hfree, hc⟩ | ⟨w, expired, rfl, rfl, _⟩ |
    ⟨r, rfl, now, rfl, hstep⟩ | ⟨r, need, rfl, now, rfl, hstep⟩ |
    ⟨r, need, rfl, expired, now, rfl, hstep⟩
  · exact (called_balanced (call_cases hs hc) hs hfree).1
  · cases he
  · have hr := (scanFrom_reader hs ht now).1
    rwa [← hstep] at hr
  · rw [show lv' = _ from congrArg Prod.fst hstep, show t' = _ from congrArg Prod.snd hstep]
    unfold LiveThreads.seekReturn
    split_ifs
    · trivial
    · exact scan_alive hs ht.1 need now
    · exact ht
  · rw [show lv' = _ from congrArg Prod.fst hstep, show t' = _ from congrArg Prod.snd hstep]
    unfold LiveThreads.readWake
    split
    · trivial
    · exact scan_alive hs ht.1 need now

theorem keeps_of_changes {lv lv' : Live} (h : Changes lv lv') (hsame : SameSession lv lv') :
    Keeps lv lv' := by
  obtain ⟨e, h⟩ := h
  rcases change_keeps h with hk | ⟨c, _, ha, _, rfl⟩
  · exact hk
  · rw [hsame.active rfl] at ha
    cases ha

/-- What a step makes of the thread that takes it, and of the new threads. -/
theorem turn_alive {s s' : World} {t t' : Thread} {e : UploadThreads.Event} {new : List Thread}
    (hs : s.live.active = true → Session s.live) (ht : Alive s.live t)
    (h : UploadThreads.turn s t e = some (s', t', new)) :
    Alive s'.live t' ∧ ∀ u ∈ new, Alive s'.live u := by
  have hnil : ∀ u ∈ ([] : List Thread), Alive s'.live u := fun u hu => absurd hu List.not_mem_nil
  cases e with
  | install e =>
    cases t with
    | install t canceled =>
      obtain ⟨⟨site, t₁, new₁⟩, hturn, he⟩ := Option.map_eq_some_iff.mp h
      cases he
      refine ⟨trivial, fun u hu => ?_⟩
      obtain ⟨_, _, rfl⟩ := List.mem_map.mp hu
      trivial
    | _ => cases h
  | rest e =>
    cases t with
    | rest pc =>
      obtain ⟨⟨s₁, pc'⟩, hturn, he⟩ := Option.map_eq_some_iff.mp h
      cases he
      exact ⟨trivial, hnil⟩
    | _ => cases h
  | conn e =>
    cases t with
    | conn c =>
      obtain ⟨⟨s₁, c'⟩, hturn, he⟩ := Option.map_eq_some_iff.mp h
      cases he
      exact ⟨trivial, hnil⟩
    | _ => cases h
  | accept =>
    cases t with
    | listener =>
      cases h
      refine ⟨trivial, fun u hu => ?_⟩
      obtain rfl := List.mem_singleton.mp hu
      trivial
    | _ => cases h
  | reader e =>
    cases t with
    | reader t =>
      simp only [UploadThreads.turn] at h
      split at h
      · rename_i hr
        obtain ⟨⟨lv, t₁⟩, hturn, he⟩ := Option.map_eq_some_iff.mp h
        cases he
        exact ⟨reader_alive hs hr ht hturn, hnil⟩
      · cases h
    | _ => cases h

/-- The cache holds what was stored last, and no reader is left behind by a session. -/
structure Cached (p : Pool World Thread) : Prop where
  sound : SoundSession p
  content : p.shared.live.active = true → Content p.shared.live
  readers : ∀ t ∈ p.threads, Alive p.shared.live t

theorem cached_start (seekFn : Bool) (installs requests readers : Nat) :
    Cached (start seekFn installs requests readers) := by
  refine ⟨nofun, nofun, fun t ht => ?_⟩
  unfold start at ht
  simp only [List.mem_append, List.mem_singleton] at ht
  rcases ht with ((ht | ht) | ht) | rfl
  · rw [List.eq_of_mem_replicate ht]
    trivial
  · rw [List.eq_of_mem_replicate ht]
    trivial
  · rw [List.eq_of_mem_replicate ht]
    trivial
  · trivial

/-- Where nothing refers to the last session, no reader is inside it. -/
theorem idle_alive {p : Pool World Thread} (h : attached p = true) (hr : p.shared.live.refs = 0)
    (lv : Live) : ∀ t ∈ p.threads, Alive lv t := by
  intro t ht
  unfold attached at h
  simp only [hr, lt_irrefl, decide_false, Bool.false_or, List.all_eq_true] at h
  have hnot := h t ht
  cases t with
  | reader t => exact readerAlive_of_not_reading (by simpa using hnot)
  | _ => trivial

theorem cached_step {p q : Pool World Thread} {i : Nat} {e : UploadThreads.Event} (h : Cached p)
    (hatt : creating p i e = true → attached p = true) (hs : uploads.step p i e = some q) :
    Cached q := by
  obtain ⟨t, t', new, ht, hturn, hthreads⟩ := uploads_step hs
  have hchanges := turn_changes h.sound hturn
  obtain ⟨hmoved, hnew⟩ := turn_alive h.sound (h.readers t (List.mem_of_getElem? ht)) hturn
  refine ⟨sound_step h.sound hs, ?_, ?_⟩
  · obtain ⟨e, hc⟩ := hchanges
    exact change_content hc h.sound h.content
  · rw [hthreads]
    refine forall_step ht hmoved (fun u hu => ?_) hnew
    cases hc : creates p.shared t e with
    | false =>
      have hk := keeps_of_changes hchanges (turn_same hturn hc)
      have hold := h.readers u hu
      cases u with
      | reader t => exact ReaderAlive.keeps hold hk
      | _ => trivial
    | true =>
      have hcreating : creating p i e = true := by
        unfold creating
        rw [ht]
        exact hc
      exact idle_alive (hatt hcreating) (creates_refs hc) _ u hu

theorem cached_opened {u : Upload} {p₀ p : Pool World Thread} {c : Conn} (h : Opened u p₀ p c) :
    Cached p := by
  obtain ⟨seekFn, installs, requests, readers, hreach⟩ := h.reach
  have hcached := hreach.invariant Cached (cached_start seekFn installs requests readers)
    fun _ _ _ _ hp hg hs => cached_step hp (fun _ => hg) hs
  refine h.later.invariant Cached hcached fun _ _ _ _ hp hg hs => cached_step hp (fun hc => ?_) hs
  rw [hg] at hc
  cases hc

/-! Runs of a page. -/

/-- A message that another connection stores has the bytes of the package. -/
def Agrees (u : Upload) (p : Page) : Event → Prop
  | .server i e => ∀ m, storing p.pool i e = some m →
      i = u.conn ∨ ∀ o < m.len, m.data o = u.file (m.seg * SEG + o)
  | _ => True

/-- What the page keeps, next to its own transfer. -/
structure Kept (u : Upload) (base : Nat) (p : Page) : Prop where
  inv : Inv u base p
  cached : Cached p.pool
  genuine : Genuine u p.pool.shared.live

theorem own_message {u : Upload} {base : Nat} {p : Page} (h : Inv u base p)
    {e : UploadThreads.Event} {m : Message} (hm : storing p.pool u.conn e = some m) :
    m.data = (u.slice m.seg).data := by
  obtain ⟨c, hl⟩ := h.linked
  unfold storing at hm
  split at hm
  · rw [hl.conn, Option.bind_some] at hm
    unfold storedBy at hm
    split at hm
    · split at hm
      · rename_i hpc
        cases hm
        have hmessage := hl.message
        unfold OnMessage at hmessage
        rw [hpc] at hmessage
        exact hmessage.1.data
      · cases hm
    · cases hm
  · cases hm

theorem genuine_server {u : Upload} {base : Nat} {p : Page} {pool : Pool World Thread} {i : Nat}
    {e : UploadThreads.Event} (h : Kept u base p) (hg : Agrees u p (.server i e))
    (hs : uploads.step p.pool i e = some pool) : Genuine u pool.shared.live := by
  rcases step_stores hs with hnone | ⟨m, hm, hlive⟩
  · exact fun st hst => h.genuine st (hnone st hst)
  · rw [hlive]
    unfold wsLiveTryWrite
    cases hr : writeRefused p.pool.shared.live (m.seg * SEG) m.len with
    | some r => exact h.genuine
    | none =>
      have ha := (writeRefused_none hr).1
      refine genuine_wrote h.inv.serves.live ha h.genuine ?_
        (tryWriteLoop_wrote (h.inv.serves.live.session ha) m.data (m.seg * SEG) m.len _ _)
      rcases hg m hm with rfl | hdata
      · intro o _
        rw [own_message h.inv hm]
        rfl
      · exact hdata

theorem setSender_pool (p : Page) (s : Sender Buffer) : (p.setSender s).pool = p.pool := by
  unfold Page.setSender
  dsimp only
  split <;> rfl

theorem onMessage_pool (p : Page) (m : Notice) : (p.onMessage m).pool = p.pool := by
  unfold Page.onMessage
  split
  · exact setSender_pool p _
  · exact setSender_pool p _
  · exact setSender_pool p _
  · split <;> rfl
  · split <;> rfl
  · rfl

theorem deliver_pool {p q : Page} (h : p.deliver = some q) : q.pool = p.pool := by
  unfold Page.deliver at h
  split at h
  · cases h
  · cases h
    split
    · rfl
    · exact onMessage_pool _ _

theorem seek_pool {u : Upload} {p q : Page} {i : Nat} (h : p.seek u i = some q) : q.pool = p.pool := by
  unfold Page.seek at h
  split at h
  · cases h
    split <;> rfl
  · cases h

/-- The program takes a step of its own, or its connection takes a message, or it waits. -/
theorem turn_pool {u : Upload} {p q : Page} {e : Event} (h : turn u p e = some q) :
    q.pool = p.pool ∨ ∃ i e', uploads.step p.pool i e' = some q.pool ∧
      (e = .server i e' ∨ takesMessage e' = true) := by
  have hserver : ∀ (p' : Page) {i e'}, p'.pool = p.pool → Page.serverTurn u p' i e' = some q →
      uploads.step p.pool i e' = some q.pool := by
    intro p' i e' hp ht
    obtain ⟨pool, hs, rfl⟩ := Option.map_eq_some_iff.mp ht
    exact hp ▸ hs
  cases e with
  | server i e =>
    simp only [turn] at h
    split at h
    · cases h
    · exact .inr ⟨i, e, hserver p rfl h, .inl rfl⟩
  | receive =>
    simp only [turn] at h
    unfold Page.receive at h
    split at h
    · cases h
    · rename_i n buffer rest hup
      exact .inr ⟨_, _, hserver { p with up := .buffer buffer :: rest } rfl h, .inr rfl⟩
    · rename_i buffer rest hup
      exact .inr ⟨_, _, hserver { p with up := rest } rfl h, .inr rfl⟩
    · rename_i msg rest hup
      exact .inr ⟨_, _, hserver { p with up := rest } rfl h, .inr rfl⟩
  | seek i => exact .inl (seek_pool h)
  | sender e =>
    obtain ⟨s', _, rfl⟩ := Option.map_eq_some_iff.mp h
    exact .inl (setSender_pool p s')
  | deliver => exact .inl (deliver_pool h)
  | finish =>
    simp only [turn] at h
    split at h <;> cases h
    exact .inl rfl
  | _ =>
    cases h
    exact .inl rfl

theorem storing_message {p : Pool World Thread} {i : Nat} {e : UploadThreads.Event}
    (h : takesMessage e = true) : storing p i e = none := by
  unfold takesMessage at h
  split at h
  · exact Option.bind_eq_none_iff.mpr fun _ _ => rfl
  · exact Option.bind_eq_none_iff.mpr fun _ _ => rfl
  · cases h

theorem kept_turn {u : Upload} {base : Nat} {p q : Page} {e : Event} (h : Kept u base p)
    (hu : Undisturbed p e) (hg : Agrees u p e) (ht : turn u p e = some q) : Kept u base q := by
  refine ⟨inv_turn h.inv hu ht, ?_, ?_⟩
  · rcases turn_pool ht with hpool | ⟨i, e', hs, rfl | hm⟩
    · exact hpool ▸ h.cached
    · refine cached_step h.cached (fun hc => ?_) hs
      have hno : creating p.pool i e' = false := hu
      rw [hno] at hc
      cases hc
    · refine cached_step h.cached (fun hc => ?_) hs
      rw [creating_message hm] at hc
      cases hc
  · rcases turn_pool ht with hpool | ⟨i, e', hs, rfl | hm⟩
    · exact hpool ▸ h.genuine
    · exact genuine_server h hg hs
    · refine genuine_server (i := i) (e := e') h (fun m hmsg => ?_) hs
      rw [storing_message hm] at hmsg
      cases hmsg

theorem kept_reaches {u : Upload} {base : Nat} {p q : Page} (h : Kept u base p)
    (hr : Reaches u (fun p e => Undisturbed p e ∧ Agrees u p e) p q) : Kept u base q := by
  induction hr with
  | refl => exact h
  | tail _ hstep ih =>
    obtain ⟨e, ⟨hu, hg⟩, ht⟩ := hstep
    exact kept_turn ih hu hg ht

/-- The byte a session stored last for a position of the package is the package's. -/
theorem Genuine.stored {u : Upload} {lv : Live} (h : Genuine u lv) {pos : Nat} {b : UInt8}
    (hpos : pos < u.size) (hb : storedAt lv pos = some b) : b = u.file pos := by
  unfold storedAt storedByte at hb
  obtain ⟨st, hst, rfl⟩ := Option.map_eq_some_iff.mp hb
  have hm := List.mem_of_find?_eq_some hst
  have hseg : st.seg = pos / SEG := by simpa using List.find?_some hst
  have hin : pos % SEG < (u.slice st.seg).len := by
    rw [hseg]
    unfold Upload.slice SEG
    dsimp only
    omega
  have hsame : st.seg * SEG + pos % SEG = pos := by
    rw [hseg]
    unfold SEG
    omega
  rw [h st hm _ hin, hsame]

theorem reader_step {p q : Pool World Thread} {i : Nat} {e : UploadThreads.Event}
    {t' : LiveThreads.Thread} (hs : uploads.step p i e = some q)
    (hread : q.threads[i]? = some (.reader t')) :
    ∃ t re, p.threads[i]? = some (.reader t) ∧ e = .reader re ∧
      LiveThreads.turn p.shared.live t re = some (q.shared.live, t') := by
  obtain ⟨t, t₁, new, ht, h, hthreads⟩ := uploads_step hs
  rw [hthreads, getElem?_step ht] at hread
  obtain rfl := Option.some.inj hread
  cases e with
  | reader re =>
    cases t with
    | reader t =>
      simp only [UploadThreads.turn] at h
      split at h
      · obtain ⟨⟨lv, t₁⟩, hturn, he⟩ := Option.map_eq_some_iff.mp h
        obtain ⟨hq, hrest⟩ := Prod.mk.inj he
        cases hrest
        refine ⟨t, re, ht, rfl, ?_⟩
        rw [hturn, ← hq]
        rfl
      · cases h
    | _ => cases h
  | install e =>
    cases t with
    | install t canceled =>
      obtain ⟨_, _, he⟩ := Option.map_eq_some_iff.mp h
      cases congrArg (fun r => r.2.1) he
    | _ => cases h
  | rest e =>
    cases t with
    | rest pc =>
      obtain ⟨_, _, he⟩ := Option.map_eq_some_iff.mp h
      cases congrArg (fun r => r.2.1) he
    | _ => cases h
  | conn e =>
    cases t with
    | conn c =>
      obtain ⟨_, _, he⟩ := Option.map_eq_some_iff.mp h
      cases congrArg (fun r => r.2.1) he
    | _ => cases h
  | accept =>
    cases t with
    | listener => cases congrArg (fun r => r.2.1) (Option.some.inj h)
    | _ => cases h

/-- In every run of a page during which other connections store nothing but the bytes of
the same package, a read that is answered with a count returns its whole request with
the bytes of the package, whatever the session was resumed from. -/
theorem reads_package (u : Upload) (p₀ p : Pool World Thread) (c : Conn) (demandWindow : Nat)
    (maxInFlight : Int) (q q' : Page) (i : Nat) (e : UploadThreads.Event) (r : ReadCall) (n : Int)
    (h : Opened u p₀ p c) (hheld : Genuine u p.shared.live)
    (hr : Reaches u (fun p e => Undisturbed p e ∧ Agrees u p e)
      (openPage (options u (resumeBase p₀.shared.live) demandWindow maxInFlight) p) q)
    (ht : turn u q (.server i e) = some q')
    (hread : q'.pool.threads[i]? = some (.reader (.returned r n))) (hn : 0 ≤ n)
    (hin : r.readStart < q'.pool.shared.live.total) :
    n = ((min r.asked (u.size - r.readStart) : Nat) : Int) ∧
      ∀ k : Nat, k < n → r.dst k = u.file (r.readStart + k) := by
  have hkept : Kept u (resumeBase p₀.shared.live) q :=
    kept_reaches ⟨inv_open demandWindow maxInFlight h, cached_opened h, hheld⟩ hr
  have hs : uploads.step q.pool i e = some q'.pool := by
    have hserver := ht
    simp only [turn] at hserver
    split at hserver
    · cases hserver
    · obtain ⟨pool, hs, rfl⟩ := Option.map_eq_some_iff.mp hserver
      exact hs
  obtain ⟨t, re, hti, rfl, hturn⟩ := reader_step hs hread
  have hcreates : creating q.pool i (.reader re) = false := by
    unfold creating
    rw [hti]
    rfl
  have hnext : Kept u (resumeBase p₀.shared.live) q' := by
    refine kept_turn hkept (e := .server i (.reader re)) hcreates (fun m hm => ?_) ht
    cases hm
  have halive : ReaderAlive q.pool.shared.live t := hkept.cached.readers _ (List.mem_of_getElem? hti)
  rcases turn_answer hkept.cached.sound halive hturn with rfl | ⟨rfl, hnone⟩ | hserved
  · cases hn
  · have hasked : r.asked = 0 := hnone.resolve_right (Nat.not_le_of_gt hin)
    refine ⟨by rw [hasked, Nat.zero_min]; rfl, fun k hk => ?_⟩
    omega
  · have hsize := hnext.inv.serves.live.size hserved.active
    have hclamped := hserved.clamped
    rw [hsize] at hclamped hin
    refine ⟨by rw [hserved.count, hclamped], fun k hk => ?_⟩
    have hk : k < r.count := by
      have hcount := hserved.count
      omega
    have hstored := hserved.stored (hnext.cached.sound hserved.active)
      (hnext.cached.content hserved.active) hk
    exact hnext.genuine.stored (by omega) hstored

instance (u : Upload) (p : Page) : (e : Event) → Decidable (Agrees u p e)
  | .server i e =>
    decidable_of_iff (∀ m ∈ storing p.pool i e,
      i = u.conn ∨ ∀ o < m.len, m.data o = u.file (m.seg * SEG + o)) Iff.rfl
  | .receive => isTrue trivial
  | .seek _ => isTrue trivial
  | .sender _ => isTrue trivial
  | .deliver => isTrue trivial
  | .ping => isTrue trivial
  | .stats _ => isTrue trivial
  | .finish => isTrue trivial
  | .fail => isTrue trivial

/-- A package of one byte, uploaded while there is a reader. -/
def readUpload : Upload := ⟨fun _ => 7, 1, 4⟩

/-- The page sends its only segment, and the reader attaches to the session. -/
def readEvents : List Event :=
  [.sender .pump, .sender (.readDone 0 true), .sender (.resume false), .receive, .receive] ++
    List.replicate 4 (.server 4 (.conn .go)) ++ [.server 2 (.reader .attach)]

/-- What a read call that has ended was, and what it returned. -/
def readOf : Thread → Option (ReadCall × Int)
  | .reader t => returnOf t
  | _ => none

theorem eq_of_readOf {t : Thread} {r : ReadCall} {n : Int} (h : readOf t = some (r, n)) :
    t = .reader (.returned r n) := by
  cases t with
  | reader t => rw [eq_of_returnOf h]
  | _ => cases h

/-- The session of the package, its connection, and the page before and after the read. -/
def pageRead : Option (Pool World Thread × Pool World Thread × Conn × Page × Page) :=
  (uploads.exec (fun p _ _ => attached p = true) (openEvents 0 [97] [49] ++ [(3, .accept)])
    (start true 0 2 1)).bind fun p₀ =>
      (uploads.exec (fun p i e => creating p i e = false) (joinEvents 4 [97] [49]) p₀).bind fun p =>
        (connOf p 4).bind fun c =>
          (exec readUpload (fun p e => Undisturbed p e ∧ Agrees readUpload p e) readEvents
            (openPage (options readUpload (resumeBase p₀.shared.live) 0 1) p)).bind fun q =>
              (turn readUpload q (.server 2 (.reader (.read 0 (fun _ => 0) 5 0)))).map fun q' =>
                (p₀, p, c, q, q')

theorem opened_of_opens {p₀ p : Pool World Thread} {c : Conn} {readers : Nat}
    (hreach : Reach uploads (fun p _ _ => attached p = true) (start true 0 2 readers) p₀)
    (hlater : Reach uploads (fun p i e => creating p i e = false) p₀ p)
    (hconn : connOf p readUpload.conn = some c) (h : opens p₀ c = true) : Opened readUpload p₀ p c := by
  simp only [opens, Bool.and_eq_true, decide_eq_true_eq] at h
  obtain ⟨⟨⟨⟨hsession, hsize⟩, hauthorized⟩, hpending⟩, hpc⟩ := h
  have hreading : c.pc = .reading := by
    split at hpc
    · assumption
    · cases hpc
  exact ⟨⟨true, 0, 2, readers, hreach⟩, hlater, hsession, hsize, hconn, hreading, hauthorized, hpending⟩

theorem reads_package_byte : ∃ (q : Page) (r : ReadCall), q.pool.threads[2]? = some (.reader (.returned r 1)) ∧
    r.asked = 5 ∧ r.dst 0 = 7 := by
  have hrun : pageRead.map (fun x => (opens x.1 x.2.2.1, x.2.1.shared.live.history.stores.length,
      (x.2.2.2.2.pool.threads[2]?.bind readOf).map fun y => (y.1.asked, y.1.readStart, y.2),
      x.2.2.2.2.pool.shared.live.total)) = some (true, 0, some (5, 0, 1), 1) := by rfl
  obtain ⟨⟨p₀, p, c, q, q'⟩, hpage, he⟩ := Option.map_eq_some_iff.mp hrun
  obtain ⟨r₀, hr₀, hpage⟩ := Option.bind_eq_some_iff.mp hpage
  obtain ⟨r₁, hr₁, hpage⟩ := Option.bind_eq_some_iff.mp hpage
  obtain ⟨d, hd, hpage⟩ := Option.bind_eq_some_iff.mp hpage
  obtain ⟨r₂, hr₂, hpage⟩ := Option.bind_eq_some_iff.mp hpage
  obtain ⟨r₃, hr₃, hsame⟩ := Option.map_eq_some_iff.mp hpage
  cases hsame
  obtain ⟨hopens, hrest⟩ := Prod.mk.inj he
  obtain ⟨hstores, hrest⟩ := Prod.mk.inj hrest
  obtain ⟨hread, htotal⟩ := Prod.mk.inj hrest
  obtain ⟨⟨r, n⟩, hx, hobs⟩ := Option.map_eq_some_iff.mp hread
  obtain ⟨t, hthread, hx⟩ := Option.bind_eq_some_iff.mp hx
  obtain ⟨hasked, hobs⟩ := Prod.mk.inj hobs
  obtain ⟨hstart, hn⟩ := Prod.mk.inj hobs
  have hn : n = 1 := hn
  subst hn
  have hret : q'.pool.threads[2]? = some (.reader (.returned r 1)) := by
    rw [hthread, eq_of_readOf hx]
  have hheld : Genuine readUpload p.shared.live := by
    intro st hst
    rw [List.eq_nil_of_length_eq_zero hstores] at hst
    cases hst
  have hopened : Opened readUpload p₀ p c := opened_of_opens (.of_exec hr₀) (.of_exec hr₁) hd hopens
  have hres := reads_package readUpload p₀ p c 0 1 q q' 2 _ r 1 hopened hheld (reaches_of_exec hr₂)
    hr₃ hret (by decide) (by rw [htotal]; show r.readStart < 1; rw [show r.readStart = 0 from hstart]; decide)
  exact ⟨q', r, hret, hasked, hres.2 0 (by decide)⟩

end PkgManager.UploadPage
