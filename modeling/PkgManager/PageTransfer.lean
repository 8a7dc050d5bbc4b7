import PkgManager.PageConnection
import PkgManager.SegmentAnswers
import PkgManager.UploadBytes

namespace PkgManager.UploadPage

open Interleaving Machine Memory LiveSession LiveCalls LiveSlots ControlMessages UploadServer
open UploadThreads UploadMoves UploadChanges InsertionOrder SegmentSender

/-! What readers ask for. -/

theorem park_nsegs (lv : Live) (need : Nat) : (park lv need).nsegs = lv.nsegs := by
  unfold park
  simp only
  split_ifs <;> rfl

theorem readTurn_seek {lv : Live} {r r' : ReadCall} {now need : Nat}
    (h : (readTurn lv r now).2 = .seek r' need) : need < lv.nsegs := by
  unfold readTurn at h
  split at h
  · cases h
  · simp only at h
    split at h
    · cases hc : copyLoop (r.count - r.got) lv r with
      | mk lv' r₁ =>
        rw [hc] at h
        simp only at h
        split at h <;> cases h
    · split at h
      · revert h
        generalize firstMissing lv _ _ _ / SEG = n
        intro h
        cases hem : emitSeekLocked (park lv n) n now with
        | mk lv' fn =>
          rw [hem] at h
          cases fn <;> cases h
          unfold emitSeekLocked at hem
          split at hem
          · rename_i hguard
            exact park_nsegs lv need ▸ hguard.1
          · cases hem
      · cases h

theorem scanFrom_seek {lv : Live} {r r' : ReadCall} {now need : Nat}
    (h : (LiveThreads.scanFrom lv r now).2 = .seeking r' need) : need < lv.nsegs := by
  unfold LiveThreads.scanFrom at h
  cases ht : (readTurn lv r now).2 with
  | seek r₁ n =>
    rw [ht] at h
    cases h
    exact readTurn_seek ht
  | _ =>
    rw [ht] at h
    cases h

/-- A reader only asks for segments of the session. -/
theorem turn_seek {lv lv' : Live} {t : LiveThreads.Thread} {e : LiveThreads.Event} {r : ReadCall}
    {need : Nat} (he : mayRead e = true)
    (h : LiveThreads.turn lv t e = some (lv', .seeking r need)) : need < lv.nsegs := by
  rcases LiveThreads.turn_cases h with ⟨_, hc⟩ | ⟨w, expired, rfl, rfl, _⟩ | ⟨r, rfl, now, rfl, hs⟩ |
    ⟨r, n, rfl, now, rfl, hs⟩ | ⟨r, n, rfl, expired, now, rfl, hs⟩
  · cases e with
    | read off buf count now =>
      have hs : (LiveThreads.wsLiveRead lv off buf count now).2 = .seeking r need :=
        congrArg Prod.snd (Option.some.inj hc)
      unfold LiveThreads.wsLiveRead at hs
      simp only at hs
      split_ifs at hs
      · exact scanFrom_seek hs
      · exact scanFrom_seek hs
    | attach => cases hc
    | detach => cases hc
    | rescan now => cases hc
    | seekReturn now => cases hc
    | readWake expired now => cases hc
    | _ => cases he
  · cases he
  · exact scanFrom_seek (congrArg Prod.snd hs).symm
  · have hs := (congrArg Prod.snd hs).symm
    unfold LiveThreads.seekReturn at hs
    have hnsegs : (unpark lv n).nsegs = lv.nsegs := by
      unfold unpark
      split <;> rfl
    split_ifs at hs
    exact hnsegs ▸ scanFrom_seek hs
  · have hs := (congrArg Prod.snd hs).symm
    unfold LiveThreads.readWake at hs
    have hnsegs : (unpark lv n).nsegs = lv.nsegs := by
      unfold unpark
      split <;> rfl
    split_ifs at hs
    exact hnsegs ▸ scanFrom_seek hs

/-- The thread has asked for nothing but segments below the bound. -/
def SeeksBelow (bound : Nat) : Thread → Prop
  | .reader (.seeking _ need) => need < bound
  | _ => True

theorem turn_seeks {s s' : World} {t t' : Thread} {e : UploadThreads.Event} {new : List Thread}
    (h : UploadThreads.turn s t e = some (s', t', new)) :
    (SeeksBelow s.live.nsegs t' ∧ (creates s t e = true → ∀ n, SeeksBelow n t')) ∧
      ∀ u ∈ new, ∀ n, SeeksBelow n u := by
  have hnil : ∀ u ∈ ([] : List Thread), ∀ n, SeeksBelow n u :=
    fun u hu => absurd hu List.not_mem_nil
  cases e with
  | install e =>
    cases t with
    | install t canceled =>
      obtain ⟨⟨site, t₁, new₁⟩, hturn, he⟩ := Option.map_eq_some_iff.mp h
      cases he
      refine ⟨⟨trivial, fun _ _ => trivial⟩, fun u hu n => ?_⟩
      obtain ⟨_, _, rfl⟩ := List.mem_map.mp hu
      trivial
    | _ => cases h
  | rest e =>
    cases t with
    | rest pc =>
      obtain ⟨⟨s₁, pc'⟩, hturn, he⟩ := Option.map_eq_some_iff.mp h
      cases he
      exact ⟨⟨trivial, fun _ _ => trivial⟩, hnil⟩
    | _ => cases h
  | conn e =>
    cases t with
    | conn c =>
      obtain ⟨⟨s₁, c'⟩, hturn, he⟩ := Option.map_eq_some_iff.mp h
      cases he
      exact ⟨⟨trivial, fun _ _ => trivial⟩, hnil⟩
    | _ => cases h
  | accept =>
    cases t with
    | listener =>
      cases h
      refine ⟨⟨trivial, fun _ _ => trivial⟩, fun u hu n => ?_⟩
      obtain rfl := List.mem_singleton.mp hu
      trivial
    | _ => cases h
  | reader e =>
    cases t with
    | reader t =>
      simp only [UploadThreads.turn] at h
      split at h
      · rename_i hr
        obtain ⟨⟨lv, t₁⟩, hturn, he⟩ := Option.map_eq_some_iff.mp h
        cases he
        refine ⟨⟨?_, fun hc => by cases hc⟩, hnil⟩
        cases t₁ with
        | seeking r need => exact turn_seek hr hturn
        | _ => trivial
      · cases h
    | _ => cases h

theorem seeksBelow_mono {m n : Nat} (h : m ≤ n) {t : Thread} (ht : SeeksBelow m t) : SeeksBelow n t := by
  cases t with
  | reader t =>
    cases t with
    | seeking r need => exact Nat.lt_of_lt_of_le ht h
    | _ => trivial
  | _ => trivial

/-- Every reader asks for segments of the session there is. -/
structure Asked (p : Pool World Thread) : Prop where
  sound : SoundSession p
  emptied : Emptied p.shared.live
  seeks : p.shared.live.active = true → ∀ t ∈ p.threads, SeeksBelow p.shared.live.nsegs t

theorem asked_start (seekFn : Bool) (installs requests readers : Nat) :
    Asked (start seekFn installs requests readers) :=
  ⟨nofun, fun _ => rfl, nofun⟩

theorem seeks_attached {p : Pool World Thread} (h : attached p = true)
    (hr : p.shared.live.refs = 0) (n : Nat) : ∀ t ∈ p.threads, SeeksBelow n t := by
  intro t ht
  unfold attached at h
  simp only [hr, lt_irrefl, decide_false, Bool.false_or, List.all_eq_true] at h
  have hnot := h t ht
  cases t with
  | reader t =>
    cases t with
    | seeking r need => cases hnot
    | _ => trivial
  | _ => trivial

theorem asked_step {p q : Pool World Thread} {i : Nat} {e : UploadThreads.Event} (h : Asked p)
    (hatt : attached p = true) (hs : uploads.step p i e = some q) : Asked q := by
  have hsound := sound_step h.sound hs
  obtain ⟨t, t', new, ht, hturn, hthreads⟩ := uploads_step hs
  refine ⟨hsound, emptied_of_changes (turn_changes h.sound hturn) h.emptied, fun hact => ?_⟩
  obtain ⟨⟨hmoved, hcreated⟩, hnew⟩ := turn_seeks hturn
  rw [hthreads]
  cases hc : creates p.shared t e with
  | true =>
    exact forall_step ht (hcreated hc _) (seeks_attached hatt (creates_refs hc) _)
      fun u hu => hnew u hu _
  | false =>
    have hlast := turn_lasting h.sound hturn hc
    rw [(hlast.size hact).2]
    exact forall_step ht hmoved (h.seeks (hlast.session.active hact)) fun u hu => hnew u hu _

/-! Messages and their answers. -/

/-- The message the connection works on is the one the page sent. -/
structure Own (u : Upload) (c : Conn) (m : Message) : Prop where
  pending : c.pendingSeg = m.seg
  data : m.data = (u.slice m.seg).data
  len : m.len = (u.slice m.seg).len

def OnMessage (u : Upload) (c : Conn) : Prop :=
  match c.pc with
  | .sized m => Own u c m
  | .checkId m segs _ => Own u c m ∧ segs ≤ u.segments
  | .active m segs _ => Own u c m ∧ segs ≤ u.segments
  | .store m => Own u c m ∧ m.seg < u.segments
  | _ => True

/-- The only session there may be is one for the package. -/
structure OfUpload (u : Upload) (lv : Live) : Prop where
  session : lv.active = true → Session lv
  size : lv.active = true → lv.total = u.size
  emptied : Emptied lv

theorem nsegs_of_upload {u : Upload} {lv : Live} (h : OfUpload u lv) (ha : lv.active = true) :
    lv.nsegs = u.segments := by
  have hpos := (h.session ha).total_pos
  have hcovers := (h.session ha).covers
  have htight := (h.session ha).tight
  rw [h.size ha] at hpos hcovers htight
  unfold Upload.segments SEG at *
  omega

theorem segCount_le {u : Upload} {lv : Live} (h : OfUpload u lv) :
    segCount (wsLiveGetTotal lv) ≤ u.segments := by
  unfold wsLiveGetTotal segCount
  by_cases ha : lv.active = true
  · have hmax := (h.session ha).total_le
    rw [if_pos ha, h.size ha] at *
    split
    · exact Nat.zero_le _
    · rw [u64_of_lt (by unfold maxTotal SEG at *; omega)]
      exact Nat.le_max_right _ _
  · rw [if_neg ha]
    exact Nat.zero_le _

theorem slice_len {u : Upload} {lv : Live} (h : OfUpload u lv) (ha : lv.active = true) {n : Nat}
    (hn : n < lv.nsegs) : (u.slice n).len = segLenLocked lv n := by
  have htight := (h.session ha).tight
  rw [h.size ha] at htight
  unfold Upload.slice segLenLocked
  rw [h.size ha]
  unfold SEG at *
  dsimp only
  split
  · omega
  · split <;> omega

theorem onMessage_of_off {u : Upload} {c : Conn} (h : offMessage c.pc = true) : OnMessage u c := by
  unfold OnMessage
  cases hpc : c.pc with
  | sized m => rw [hpc] at h; cases h
  | checkId m segs len => rw [hpc] at h; cases h
  | active m segs len => rw [hpc] at h; cases h
  | store m => rw [hpc] at h; cases h
  | _ => trivial

/-- A connection works on its message until it answers or rejects it. -/
theorem onMessage_step {u : Upload} {s s' : World} {c c' : Conn} {e : ConnEvent}
    (hlive : OfUpload u s.live) (h : OnMessage u c) (hm : takesMessage (.conn e) = false)
    (hs : connTurn s c e = some (s', c')) : OnMessage u c' := by
  cases conn_move hm hs with
  | stored m hpc _ hc => rw [hc]; exact onMessage_of_off rfl
  | rejected _ hc => rw [hc]; exact onMessage_of_off rfl
  | kept _ hoff =>
    by_cases hon : offMessage c.pc = true
    · exact onMessage_of_off (hoff ▸ hon)
    · cases e with
      | go =>
        unfold OnMessage at h
        cases hpc : c.pc with
        | sized m =>
          simp only [connTurn, connGo, hpc] at hs h
          cases hs
          exact ⟨⟨h.pending, h.data, h.len⟩, segCount_le hlive⟩
        | checkId m segs len =>
          simp only [connTurn, connGo, hpc] at hs h
          cases hs
          split
          · exact ⟨⟨h.1.pending, h.1.data, h.1.len⟩, h.2⟩
          · exact onMessage_of_off rfl
        | active m segs len =>
          simp only [connTurn, connGo, hpc] at hs h
          cases hs
          split
          · rename_i hguard
            exact ⟨⟨h.1.pending, h.1.data, h.1.len⟩, Nat.lt_of_lt_of_le hguard.2.1 h.2⟩
          · exact onMessage_of_off rfl
        | store m =>
          simp only [connTurn, connGo, hpc] at hs
          cases hs
          exact onMessage_of_off rfl
        | _ =>
          rw [hpc] at hon
          exact absurd rfl hon
      | text msg => cases hm
      | binary data len => cases hm
      | create cfgSlots sid allocOk =>
        simp only [connTurn] at hs
        split at hs
        · rename_i m hpc
          rw [hpc] at hon
          exact absurd rfl hon
        · cases hs
      | disconnect =>
        simp only [connTurn] at hs
        split at hs <;> cases hs
        exact onMessage_of_off rfl

theorem pendingOf_own {u : Upload} {c : Conn} {m : Message} (h : Own u c m) :
    pendingOf c = [m.seg] := by
  unfold pendingOf
  rw [h.pending, if_pos (Int.natCast_nonneg _), Int.toNat_natCast]

theorem said_same {c c' : Conn} (h : c'.replies = c.replies) : said c c' = [] := by
  unfold said
  rw [h, Nat.sub_self]
  rfl

theorem said_reply {c d : Conn} {r : Reply} (h : d.replies = r :: c.replies) :
    said c d = [r] := by
  unfold said
  rw [h, List.length_cons, Nat.add_sub_cancel_left]
  rfl

theorem said_answerless {c c' : Conn} (h : Answerless c c') :
    (said c c').filterMap answered = [] ∧ pendingOf c' = pendingOf c := by
  refine ⟨?_, by unfold pendingOf; rw [h.pendingSeg]⟩
  rcases h.replies with hsame | ⟨r, hr, hreply⟩
  · rw [said_same hsame]
    rfl
  · rw [said_reply hreply, List.filterMap_cons, hr]
    rfl

/-- The segment a connection has is answered at most once, and no other is. -/
theorem said_sublist {u : Upload} {s s' : World} {c c' : Conn} (h : OnMessage u c)
    (hmove : ConnMove s s' c c') :
    List.Sublist ((said c c').filterMap answered ++ pendingOf c') (pendingOf c) := by
  cases hmove with
  | stored m hpc hs hc =>
    have hown : Own u c m := by
      unfold OnMessage at h
      rw [hpc] at h
      exact h.1
    rw [pendingOf_own hown, said_reply (d := c') (by rw [hc]; rfl), hc]
    split
    · exact .refl _
    · split
      · exact .refl _
      · exact List.nil_sublist _
  | rejected _ hc =>
    rw [said_reply (d := c') (r := .error .badSegment) (by rw [hc]; rfl), hc]
    exact List.nil_sublist _
  | kept hkept _ =>
    rw [(said_answerless hkept).1, (said_answerless hkept).2]
    exact .refl _

theorem nsegs_le {u : Upload} {lv : Live} (h : OfUpload u lv) : lv.nsegs ≤ u.segments := by
  cases ha : lv.active with
  | true => exact Nat.le_of_eq (nsegs_of_upload h ha)
  | false =>
    rw [h.emptied ha]
    exact Nat.zero_le _

/-- The segment is in the session as the page has read it. -/
structure InSession (u : Upload) (lv : Live) (n : Nat) : Prop where
  lt : n < u.segments
  acked : lv.ackedEver n = true
  stored : ∃ st ∈ lv.history.stores, st.seg = n ∧
    ∀ o < (u.slice n).len, st.data o = (u.slice n).data o

theorem InSession.last {u : Upload} {lv lv' : Live} {n : Nat} (h : InSession u lv n)
    (hlast : Lasting lv lv') : InSession u lv' n := by
  obtain ⟨st, hst, hseg, hdata⟩ := h.stored
  exact ⟨h.lt, hlast.acked n h.acked, st, hlast.stores st hst, hseg, hdata⟩

/-- A message that is stored puts its segment into the session. -/
theorem inSession_stored {u : Upload} {lv : Live} {c : Conn} {m : Message} (hlive : OfUpload u lv)
    (h : OnMessage u c) (hpc : c.pc = .store m)
    (hr : (wsLiveTryWrite lv (m.seg * SEG) m.data m.len).2 = 0) :
    InSession u (wsLiveTryWrite lv (m.seg * SEG) m.data m.len).1 m.seg := by
  unfold OnMessage at h
  rw [hpc] at h
  obtain ⟨hown, hlt⟩ := h
  have ha := UploadBytes.tryWrite_active hr
  have hn : m.seg < lv.nsegs := nsegs_of_upload hlive ha ▸ hlt
  have hlen : m.len = segLenLocked lv m.seg := hown.len.trans (slice_len hlive ha hn)
  obtain ⟨k, hstore⟩ := tryWrite_stored (hlive.session ha) hn hlen hr
  refine ⟨hlt, ?_, ⟨m.seg, fun o => m.data (m.seg * SEG - m.seg * SEG + o)⟩, ?_, rfl,
    fun o _ => ?_⟩
  · rw [hstore.ackedEver, Function.update_self]
  · rw [hstore.stores]
    exact List.mem_cons_self
  · rw [hown.data]
    dsimp only
    rw [Nat.sub_self, Nat.zero_add]

/-! Steps of the program. -/

theorem connOf_eq_some {p : Pool World Thread} {i : Nat} {c : Conn} :
    connOf p i = some c ↔ p.threads[i]? = some (.conn c) := by
  unfold connOf
  split
  · rename_i c' h
    rw [h]
    simp
  · rename_i h
    exact ⟨nofun, fun hc => absurd hc (h c)⟩

theorem conn_step {p q : Pool World Thread} {i : Nat} {c : Conn} {e : UploadThreads.Event}
    (hc : connOf p i = some c) (hs : uploads.step p i e = some q) :
    ∃ ce c', e = .conn ce ∧ connTurn p.shared c ce = some (q.shared, c') ∧
      connOf q i = some c' := by
  obtain ⟨t, t', new, ht, hturn, hthreads⟩ := uploads_step hs
  rw [connOf_eq_some] at hc
  obtain rfl : t = .conn c := Option.some.inj (ht.symm.trans hc)
  cases e with
  | conn ce =>
    obtain ⟨⟨s', c'⟩, hconn, he⟩ := Option.map_eq_some_iff.mp hturn
    cases he
    refine ⟨ce, c', rfl, hconn, connOf_eq_some.mpr ?_⟩
    rw [hthreads]
    exact getElem?_step ht
  | _ => cases hturn

theorem other_step {p q : Pool World Thread} {i k : Nat} {c : Conn} {e : UploadThreads.Event}
    (hc : connOf p k = some c) (hik : k ≠ i) (hs : uploads.step p i e = some q) :
    connOf q k = some c := by
  obtain ⟨t, t', new, ht, hturn, hthreads⟩ := uploads_step hs
  rw [connOf_eq_some] at hc ⊢
  rw [hthreads]
  exact getElem?_other hik hc

/-- The program, as far as it concerns the package. -/
structure Serves (u : Upload) (p : Pool World Thread) : Prop where
  live : OfUpload u p.shared.live
  seeks : ∀ t ∈ p.threads, SeeksBelow u.segments t

theorem serves_step {u : Upload} {p q : Pool World Thread} {i : Nat} {e : UploadThreads.Event}
    (h : Serves u p) (hc : creating p i e = false) (hs : uploads.step p i e = some q) :
    Serves u q ∧ Lasting p.shared.live q.shared.live := by
  have hsound := sound_step (p := p) h.live.session hs
  obtain ⟨t, t', new, ht, hturn, hthreads⟩ := uploads_step hs
  have hcreates : creates p.shared t e = false := by
    unfold creating at hc
    rw [ht] at hc
    exact hc
  have hlast := turn_lasting h.live.session hturn hcreates
  obtain ⟨⟨hmoved, -⟩, hnew⟩ := turn_seeks hturn
  refine ⟨⟨⟨hsound, fun hact => ?_,
    emptied_of_changes (turn_changes h.live.session hturn) h.live.emptied⟩, ?_⟩, hlast⟩
  · exact (hlast.size hact).1.trans (h.live.size (hlast.session.active hact))
  · rw [hthreads]
    exact forall_step ht (seeksBelow_mono (nsegs_le h.live) hmoved) h.seeks fun u hu => hnew u hu _

end PkgManager.UploadPage
