import PkgManager.PageTransfer

namespace PkgManager.UploadPage

open Interleaving Machine Memory LiveSession LiveCalls LiveSlots ControlMessages UploadServer
open UploadThreads UploadMoves UploadChanges InsertionOrder SegmentSender

def answeredNotice : Notice → Option Nat
  | .reply r => answered r
  | .seek _ => none

def announced : Outgoing → Option Nat
  | .segment n _ => some n
  | _ => none

/-- The segments on their way, from the answers back to what the page has sent last. -/
def underWay (c : Conn) (down : List Notice) (up : List Outgoing) : List Nat :=
  down.filterMap answeredNotice ++ (pendingOf c ++ up.filterMap announced)

/-- A segment is announced with its own bytes, and no other text announces one. -/
def Honest (u : Upload) : Outgoing → Prop
  | .segment n b => b = u.slice n
  | .buffer _ => False
  | .text msg => Plain msg

/-- What the connection receives next fits what it waits for. -/
def Upcoming (u : Upload) (c : Conn) : List Outgoing → Prop
  | .buffer b :: rest =>
    (0 ≤ c.pendingSeg → b = u.slice c.pendingSeg.toNat) ∧ ∀ x ∈ rest, Honest u x
  | up => (offMessage c.pc = true → c.pendingSeg < 0) ∧ ∀ x ∈ up, Honest u x

theorem upcoming_cons {u : Upload} {c : Conn} {x : Outgoing} {rest : List Outgoing}
    (hoff : offMessage c.pc = true → c.pendingSeg < 0) (hx : Honest u x)
    (hrest : ∀ y ∈ rest, Honest u y) : Upcoming u c (x :: rest) := by
  have hall : ∀ y ∈ x :: rest, Honest u y := List.forall_mem_cons.mpr ⟨hx, hrest⟩
  cases x with
  | segment n b => exact ⟨hoff, hall⟩
  | buffer b => cases hx
  | text msg => exact ⟨hoff, hall⟩

theorem upcoming_honest {u : Upload} {c : Conn} {up : List Outgoing}
    (hoff : offMessage c.pc = true → c.pendingSeg < 0) (h : ∀ x ∈ up, Honest u x) :
    Upcoming u c up := by
  cases up with
  | nil => exact ⟨hoff, h⟩
  | cons x rest =>
    obtain ⟨hx, hrest⟩ := List.forall_mem_cons.mp h
    exact upcoming_cons hoff hx hrest

theorem upcoming_append {u : Upload} {c : Conn} {up : List Outgoing} {x : Outgoing}
    (h : Upcoming u c up) (hx : Honest u x) : Upcoming u c (up ++ [x]) := by
  have hlast : ∀ {l : List Outgoing}, (∀ y ∈ l, Honest u y) → ∀ y ∈ l ++ [x], Honest u y := by
    intro l hl y hy
    rcases List.mem_append.mp hy with hy | hy
    · exact hl y hy
    · rw [List.mem_singleton.mp hy]
      exact hx
  cases up with
  | nil => exact upcoming_honest h.1 (hlast h.2)
  | cons y rest =>
    cases y with
    | buffer b => exact ⟨h.1, hlast h.2⟩
    | segment n b => exact upcoming_honest h.1 (hlast h.2)
    | text msg => exact upcoming_honest h.1 (hlast h.2)

/-- A step that takes no message leaves what is to come as it is. -/
theorem upcoming_step {u : Upload} {s s' : World} {c c' : Conn} {up : List Outgoing}
    (h : Upcoming u c up) (hmove : ConnMove s s' c c') : Upcoming u c' up := by
  have hnone : c'.pendingSeg = -1 → Upcoming u c' up := by
    intro hpend
    have hneg : c'.pendingSeg < 0 := by omega
    cases up with
    | nil => exact upcoming_honest (fun _ => hneg) h.2
    | cons x rest =>
      cases x with
      | buffer b => exact ⟨fun hpos => by omega, h.2⟩
      | segment n b => exact upcoming_honest (fun _ => hneg) h.2
      | text msg => exact upcoming_honest (fun _ => hneg) h.2
  cases hmove with
  | stored m hpc hs hc => exact hnone (by rw [hc]; rfl)
  | rejected _ hc => exact hnone (by rw [hc]; rfl)
  | kept hkept hoff =>
    have hsame : (offMessage c.pc = true → c.pendingSeg < 0) →
        offMessage c'.pc = true → c'.pendingSeg < 0 := by
      intro hold hoff'
      rw [hkept.pendingSeg]
      exact hold (hoff ▸ hoff')
    cases up with
    | nil => exact upcoming_honest (hsame h.1) h.2
    | cons x rest =>
      cases x with
      | buffer b =>
        refine ⟨fun hpos => ?_, h.2⟩
        rw [hkept.pendingSeg] at hpos ⊢
        exact h.1 hpos
      | segment n b => exact upcoming_honest (hsame h.1) h.2
      | text msg => exact upcoming_honest (hsame h.1) h.2

/-- The connection and its channels. -/
structure Linked (u : Upload) (p : Page) (c : Conn) : Prop where
  conn : connOf p.pool u.conn = some c
  message : OnMessage u c
  upcoming : Upcoming u c p.up
  once : p.sender.stopped = false → (underWay c p.down p.up).Nodup
  inTransit : p.sender.stopped = false → ∀ n ∈ underWay c p.down p.up, p.sender.inTransit n = true

/-- A segment that was there when the page opened. -/
def Resumed (u : Upload) (base : Nat) (lv : Live) (n : Nat) : Prop :=
  n < base ∧ n < u.segments ∧ lv.ackedEver n = true

structure Inv (u : Upload) (base : Nat) (p : Page) : Prop where
  serves : Serves u p.pool
  linked : ∃ c, Linked u p c
  seeks : ∀ n, .seek n ∈ p.down → n < u.segments
  acks : ∀ n, .reply (.ack n) ∈ p.down → InSession u p.pool.shared.live n
  acknowledged : ∀ n ∈ p.sender.acknowledged,
    InSession u p.pool.shared.live n ∨ Resumed u base p.pool.shared.live n
  segments : p.sender.totalSegments = u.segments
  reads : ∀ call ∈ p.sender.reads, ∀ b, call.result = some (.ok b) → b = u.slice call.segment
  reading : p.sender.Reading
  unsent : p.sender.Unsent
  ended : p.done = true → p.sender.shouldStop = true

variable {u : Upload} {base : Nat} {p q : Page}

/-- A step of the program: what its connection says and takes is accounted for. -/
theorem inv_pool {pool : Pool World Thread} {up : List Outgoing} {i : Nat}
    {e : UploadThreads.Event} {c c' : Conn} (h : Inv u base p) (hl : Linked u p c)
    (hs : uploads.step p.pool i e = some pool) (hcreates : creating p.pool i e = false)
    (hconn : connOf pool u.conn = some c') (hmessage : OnMessage u c') (hup : Upcoming u c' up)
    (hsub : List.Sublist ((said c c').filterMap answered ++ (pendingOf c' ++ up.filterMap announced))
      (pendingOf c ++ p.up.filterMap announced))
    (hacks : ∀ n, .ack n ∈ said c c' → InSession u pool.shared.live n) :
    Inv u base { p with pool := pool, up := up, down := p.down ++ notices u p.pool pool } := by
  obtain ⟨hserves, hlast⟩ := serves_step h.serves hcreates hs
  have hnotices : notices u p.pool pool = (said c c').map .reply := by
    unfold notices
    rw [hl.conn, hconn]
  have hway : List.Sublist (underWay c' (p.down ++ notices u p.pool pool) up)
      (underWay c p.down p.up) := by
    unfold underWay
    rw [hnotices, List.filterMap_append, List.filterMap_map, List.append_assoc]
    exact List.Sublist.append (.refl _) hsub
  refine ⟨hserves, ⟨c', hconn, hmessage, hup, fun hlive => (hl.once hlive).sublist hway,
    fun hlive n hn => hl.inTransit hlive n (hway.subset hn)⟩, fun n hn => ?_, fun n hn => ?_,
    fun n hn => ?_, h.segments, h.reads, h.reading, h.unsent, h.ended⟩
  · rw [hnotices] at hn
    rcases List.mem_append.mp hn with hn | hn
    · exact h.seeks n hn
    · obtain ⟨_, _, hr⟩ := List.mem_map.mp hn
      cases hr
  · rw [hnotices] at hn
    rcases List.mem_append.mp hn with hn | hn
    · exact (h.acks n hn).last hlast
    · obtain ⟨r, hr, he⟩ := List.mem_map.mp hn
      cases he
      exact hacks n hr
  · rcases h.acknowledged n hn with hin | ⟨hbase, hlt, hacked⟩
    · exact .inl (hin.last hlast)
    · exact .inr ⟨hbase, hlt, hlast.acked n hacked⟩

theorem not_ack {l : List Reply} {n : Nat} (h : l.filterMap answered = []) (hn : .ack n ∈ l) :
    False := by
  have hmem : n ∈ l.filterMap answered := List.mem_filterMap.mpr ⟨.ack n, hn, rfl⟩
  rw [h] at hmem
  exact List.not_mem_nil hmem

theorem inv_server {i : Nat} {e : UploadThreads.Event} (h : Inv u base p)
    (hm : ¬(i = u.conn ∧ takesMessage e = true)) (hcreates : creating p.pool i e = false)
    (ht : p.serverTurn u i e = some q) : Inv u base q := by
  obtain ⟨pool, hs, rfl⟩ := Option.map_eq_some_iff.mp ht
  obtain ⟨c, hl⟩ := h.linked
  by_cases hi : i = u.conn
  · subst hi
    have hm : takesMessage e = false := by simpa using hm
    obtain ⟨ce, c', rfl, hturn, hconn⟩ := conn_step hl.conn hs
    have hmove := conn_move hm hturn
    refine inv_pool h hl hs hcreates hconn (onMessage_step h.serves.live hl.message hm hturn)
      (upcoming_step hl.upcoming hmove) ?_ fun n hn => ?_
    · rw [← List.append_assoc]
      exact (said_sublist hl.message hmove).append (.refl _)
    · cases hmove with
      | stored m hpc hsh hc =>
        rw [said_reply (d := c') (by rw [hc]; rfl)] at hn
        have hack := List.mem_singleton.mp hn
        split at hack
        · rename_i hzero
          cases hack
          rw [hsh]
          exact inSession_stored h.serves.live hl.message hpc hzero
        · split at hack <;> cases hack
      | rejected _ hc =>
        rw [said_reply (d := c') (r := .error .badSegment) (by rw [hc]; rfl)] at hn
        cases List.mem_singleton.mp hn
      | kept hkept _ =>
        exact (not_ack (said_answerless hkept).1 hn).elim
  · have hconn := other_step hl.conn (Ne.symm hi) hs
    have hsaid : said c c = [] := said_same rfl
    refine inv_pool h hl hs hcreates hconn hl.message hl.upcoming ?_ fun n hn => ?_
    · rw [hsaid]
      exact .refl _
    · rw [hsaid] at hn
      cases hn

theorem creating_message {pool : Pool World Thread} {i : Nat} {e : UploadThreads.Event}
    (h : takesMessage e = true) : creating pool i e = false := by
  unfold creating
  split
  · unfold creates
    split
    · cases h
    · cases h
    · rfl
  · rfl

/-- The connection takes the header of a segment, and nothing else is on its way there. -/
theorem inv_receive_segment {n : Nat} {b : Buffer} {rest : List Outgoing} (h : Inv u base p)
    (hup : p.up = .segment n b :: rest)
    (ht : Page.serverTurn u { p with up := .buffer b :: rest } u.conn (.conn (.text (segText n))) =
      some q) : Inv u base q := by
  obtain ⟨pool, hs, rfl⟩ := Option.map_eq_some_iff.mp ht
  obtain ⟨c, hl⟩ := h.linked
  obtain ⟨ce, c', he, hturn, hconn⟩ := conn_step hl.conn hs
  cases he
  have hcoming := hl.upcoming
  rw [hup] at hcoming
  obtain ⟨hb, hrest⟩ := List.forall_mem_cons.mp hcoming.2
  simp only [connTurn] at hturn
  split at hturn
  · rename_i hpc
    have hneg : c.pendingSeg < 0 := hcoming.1 (by rw [hpc]; rfl)
    have hnone : pendingOf c = [] := if_neg (by omega)
    have hc' := congrArg Prod.snd (Option.some.inj hturn)
    dsimp only at hc'
    rw [handle_segText, segOf_segText] at hc'
    have hcases : (c'.pendingSeg = n ∨ c'.pendingSeg < 0) ∧ offMessage c'.pc = true ∧
        (said c c').filterMap answered = [] := by
      rw [← hc']
      split
      · refine ⟨?_, by rw [hpc]; rfl, congrArg (List.filterMap answered) (said_same rfl)⟩
        split
        · exact .inl rfl
        · exact .inr (Int.negSucc_lt_zero 0)
      · refine ⟨.inr hneg, rfl, ?_⟩
        exact congrArg (List.filterMap answered) (said_reply (r := .error .unauthorized) rfl)
    obtain ⟨hpend, hoff, hsaid⟩ := hcases
    refine inv_pool (p := p) h hl hs (creating_message rfl) hconn (onMessage_of_off hoff) ⟨fun hpos => ?_, hrest⟩ ?_
      fun m hm => ?_
    · rcases hpend with hpend | hpend
      · rw [hpend, Int.toNat_natCast]
        exact hb
      · omega
    · rw [hsaid, hnone, hup]
      have hfilter : (Outgoing.segment n b :: rest).filterMap announced =
          [n] ++ rest.filterMap announced := rfl
      rw [List.nil_append, List.nil_append, hfilter]
      refine List.Sublist.append ?_ (.refl _)
      unfold pendingOf
      rcases hpend with hpend | hpend
      · rw [hpend, if_pos (Int.natCast_nonneg n), Int.toNat_natCast]
      · rw [if_neg (by omega)]
        exact List.nil_sublist _
    · exact (not_ack hsaid hm).elim
  · cases hturn

theorem inv_receive_buffer {b : Buffer} {rest : List Outgoing} (h : Inv u base p)
    (hup : p.up = .buffer b :: rest)
    (ht : Page.serverTurn u { p with up := rest } u.conn (.conn (.binary b.data b.len)) = some q) :
    Inv u base q := by
  obtain ⟨pool, hs, rfl⟩ := Option.map_eq_some_iff.mp ht
  obtain ⟨c, hl⟩ := h.linked
  obtain ⟨ce, c', he, hturn, hconn⟩ := conn_step hl.conn hs
  cases he
  have hcoming := hl.upcoming
  rw [hup] at hcoming
  simp only [connTurn] at hturn
  split at hturn
  · have hc' := congrArg Prod.snd (Option.some.inj hturn)
    dsimp only at hc'
    have hpend : c'.pendingSeg = c.pendingSeg := by rw [← hc']; rfl
    have hsaid : said c c' = [] := said_same (by rw [← hc']; rfl)
    refine inv_pool (p := p) h hl hs (creating_message rfl) hconn ?_ (upcoming_honest (fun hoff => ?_) hcoming.2) ?_
      fun m hm => ?_
    · rw [← hc']
      split
      · exact onMessage_of_off rfl
      · rename_i hneg
        have hnat : (c.pendingSeg.toNat : Int) = c.pendingSeg := Int.toNat_of_nonneg (by omega)
        have hbuf := hcoming.1 (by omega)
        exact ⟨hnat.symm, by rw [hbuf], by rw [hbuf]⟩
    · rw [← hc'] at hoff
      split at hoff
      · rename_i hneg
        rw [hpend]
        exact hneg
      · cases hoff
    · have hsame : pendingOf c' = pendingOf c := by unfold pendingOf; rw [hpend]
      rw [hsaid, hsame, hup]
      exact .refl _
    · rw [hsaid] at hm
      cases hm
  · cases hturn

theorem inv_receive_text {msg : Text} {rest : List Outgoing} (h : Inv u base p)
    (hup : p.up = .text msg :: rest)
    (ht : Page.serverTurn u { p with up := rest } u.conn (.conn (.text msg)) = some q) :
    Inv u base q := by
  obtain ⟨pool, hs, rfl⟩ := Option.map_eq_some_iff.mp ht
  obtain ⟨c, hl⟩ := h.linked
  obtain ⟨ce, c', he, hturn, hconn⟩ := conn_step hl.conn hs
  cases he
  have hcoming := hl.upcoming
  rw [hup] at hcoming
  obtain ⟨hplain, hrest⟩ := List.forall_mem_cons.mp hcoming.2
  simp only [connTurn] at hturn
  split at hturn
  · rename_i hpc
    have hneg : c.pendingSeg < 0 := hcoming.1 (by rw [hpc]; rfl)
    have hc' := congrArg Prod.snd (Option.some.inj hturn)
    dsimp only at hc'
    obtain ⟨hless, hoff⟩ := handle_plain hplain p.pool.shared c hpc
    rw [hc'] at hless hoff
    obtain ⟨hsaid, hsame⟩ := said_answerless hless
    refine inv_pool (p := p) h hl hs (creating_message rfl) hconn (onMessage_of_off hoff)
      (upcoming_honest (fun _ => hless.pendingSeg ▸ hneg) hrest) ?_ fun m hm => ?_
    · rw [hsaid, hsame, hup]
      exact .refl _
    · exact (not_ack hsaid hm).elim
  · cases hturn

theorem inv_receive (h : Inv u base p) (ht : p.receive u = some q) : Inv u base q := by
  unfold Page.receive at ht
  split at ht
  · cases ht
  · rename_i hup
    exact inv_receive_segment h hup ht
  · rename_i hup
    exact inv_receive_buffer h hup ht
  · rename_i hup
    exact inv_receive_text h hup ht

theorem inv_seek {i : Nat} (h : Inv u base p) (ht : p.seek u i = some q) : Inv u base q := by
  unfold Page.seek at ht
  split at ht
  · rename_i r need c hthread hconn
    cases ht
    split
    · obtain ⟨c', hl⟩ := h.linked
      have hway : ∀ c, underWay c (p.down ++ [.seek need]) p.up = underWay c p.down p.up := by
        intro c
        have hnone : [Notice.seek need].filterMap answeredNotice = [] := rfl
        unfold underWay
        rw [List.filterMap_append, hnone, List.append_nil]
      refine ⟨h.serves, ⟨c', hl.conn, hl.message, hl.upcoming, ?_, ?_⟩, fun n hn => ?_,
        fun n hn => ?_, h.acknowledged, h.segments, h.reads, h.reading, h.unsent, h.ended⟩
      · rw [hway]
        exact hl.once
      · rw [hway]
        exact hl.inTransit
      · rcases List.mem_append.mp hn with hn | hn
        · exact h.seeks n hn
        · cases List.mem_singleton.mp hn
          exact h.serves.seeks _ (List.mem_of_getElem? hthread)
      · rcases List.mem_append.mp hn with hn | hn
        · exact h.acks n hn
        · cases List.mem_singleton.mp hn
    · exact h
  · cases ht

/-- Whether the page listens matters to none of this. -/
theorem inv_halt {d f : Bool} (h : Inv u base p) :
    Inv u base { p with
      done := d, finished := f, sender := { p.sender with shouldStop := true } } := by
  obtain ⟨c, hl⟩ := h.linked
  exact ⟨h.serves, ⟨c, hl.conn, hl.message, hl.upcoming, hl.once, hl.inTransit⟩, h.seeks, h.acks,
    h.acknowledged, h.segments, h.reads,
    ⟨h.reading.flight, h.reading.retry, h.reading.prepared, h.reading.pumping, h.reading.sent⟩,
    h.unsent, fun _ => rfl⟩

theorem inv_fail (h : Inv u base p) : Inv u base p.fail := inv_halt (f := p.finished) h

/-- A message of the page that announces no segment. -/
theorem inv_say {msg : Text} (h : Inv u base p) (hplain : Plain msg) : Inv u base (p.say msg) := by
  obtain ⟨c, hl⟩ := h.linked
  have hway : underWay c p.down (p.up ++ [.text msg]) = underWay c p.down p.up := by
    have hnone : [Outgoing.text msg].filterMap announced = [] := rfl
    unfold underWay
    rw [List.filterMap_append, hnone, List.append_nil]
  refine ⟨h.serves, ⟨c, hl.conn, hl.message, upcoming_append hl.upcoming hplain, ?_, ?_⟩, h.seeks,
    h.acks, h.acknowledged, h.segments, h.reads, h.reading, h.unsent, h.ended⟩
  · intro hlive
    exact hway ▸ hl.once hlive
  · intro hlive n hn
    exact hl.inTransit hlive n (hway ▸ hn)

theorem inv_stopped {s : Sender Buffer} (h : Inv u base { p with sender := s }) :
    Inv u base (if s.stopped then ({ p with sender := s } : Page).fail else { p with sender := s }) := by
  split
  · exact inv_fail h
  · exact h

/-- What a sender reads stays what the file has. -/
theorem reads_frame {s s' : Sender Buffer} (hframe : s.Frame s')
    (h : ∀ call ∈ s.reads, ∀ b, call.result = some (.ok b) → b = u.slice call.segment) :
    ∀ call ∈ s'.reads, ∀ b, call.result = some (.ok b) → b = u.slice call.segment := by
  intro call hcall b hb
  rcases hframe.reads call hcall with hold | hnone
  · exact h call hold b hb
  · rw [hnone] at hb
    cases hb

/-- A turn of the sender, whose sends join what is on its way. -/
theorem inv_sends {s' : Sender Buffer} (h : Inv u base p) (hsends : p.sender.Sends s')
    (hreading : s'.Reading) (hunsent : s'.Unsent) : Inv u base (p.setSender s') := by
  obtain ⟨c, hl⟩ := h.linked
  cases hsends with
  | nothing hsame =>
    have hdrop : s'.sent.drop p.sender.sent.length = [] := by rw [hsame.sent, List.drop_length]
    unfold Page.setSender
    rw [hdrop, List.map_nil, List.append_nil]
    refine inv_stopped ⟨h.serves, ⟨c, hl.conn, hl.message, hl.upcoming, fun hlive =>
      hl.once (hsame.stopped hlive), fun hlive n hn => ?_⟩, h.seeks, h.acks,
      fun n hn => h.acknowledged n (hsame.acknowledged n hn), hsame.totalSegments.trans h.segments,
      reads_frame hsame.toFrame h.reads, hreading, hunsent,
      fun hd => hsame.shouldStop.trans (h.ended hd)⟩
    exact (hsame.inTransit n).trans (hl.inTransit (hsame.stopped hlive) n hn)
  | stopped hframe hsent hstop =>
    have hdrop : s'.sent.drop p.sender.sent.length = [] := by rw [hsent, List.drop_length]
    have hnot : ¬ s'.stopped = false := by rw [hstop]; decide
    unfold Page.setSender
    rw [hdrop, List.map_nil, List.append_nil]
    exact inv_stopped ⟨h.serves, ⟨c, hl.conn, hl.message, hl.upcoming,
      fun hlive => absurd hlive hnot, fun hlive => absurd hlive hnot⟩, h.seeks, h.acks,
      fun n hn => h.acknowledged n (hframe.acknowledged n hn), hframe.totalSegments.trans h.segments,
      reads_frame hframe h.reads, hreading, hunsent,
      fun hd => hframe.shouldStop.trans (h.ended hd)⟩
  | one m hframe hsent hbefore hafter hothers =>
    have hdrop : s'.sent.drop p.sender.sent.length = [m] := by rw [hsent, List.drop_left]
    have hreads := reads_frame hframe h.reads
    have hm : m.buffer = u.slice m.segment := by
      have hcall := hreading.sent m (by rw [hsent]; exact List.mem_append_right _ List.mem_cons_self)
      exact hreads _ (List.mem_of_getElem? hcall) m.buffer rfl
    have hway : underWay c p.down (p.up ++ [.segment m.segment m.buffer]) =
        underWay c p.down p.up ++ [m.segment] := by
      unfold underWay
      rw [List.filterMap_append, ← List.append_assoc, ← List.append_assoc, ← List.append_assoc]
      rfl
    unfold Page.setSender
    rw [hdrop]
    refine inv_stopped (p := { p with up := p.up ++ [.segment m.segment m.buffer] })
      ⟨h.serves, ⟨c, hl.conn, hl.message, upcoming_append hl.upcoming hm, fun hlive => ?_,
        fun hlive n hn => ?_⟩, h.seeks, h.acks,
      fun n hn => h.acknowledged n (hframe.acknowledged n hn),
      hframe.totalSegments.trans h.segments, hreads, hreading, hunsent,
      fun hd => hframe.shouldStop.trans (h.ended hd)⟩
    · rw [hway]
      refine List.nodup_append'.mpr ⟨hl.once (hframe.stopped hlive), List.nodup_singleton _, ?_⟩
      refine List.disjoint_singleton.mpr fun hmem => ?_
      have htransit := hl.inTransit (hframe.stopped hlive) _ hmem
      rw [hbefore] at htransit
      cases htransit
    · rw [hway] at hn
      rcases List.mem_append.mp hn with hn | hn
      · have hold := hl.inTransit (hframe.stopped hlive) n hn
        have hne : n ≠ m.segment := by
          rintro rfl
          rw [hbefore] at hold
          cases hold
        exact (hothers n hne).trans hold
      · rw [List.mem_singleton.mp hn]
        exact hafter

theorem inv_drop {m : Notice} {rest : List Notice} (h : Inv u base p) (hdown : p.down = m :: rest) :
    Inv u base { p with down := rest } := by
  obtain ⟨c, hl⟩ := h.linked
  have hsub : List.Sublist (underWay c rest p.up) (underWay c p.down p.up) := by
    unfold underWay
    rw [hdown]
    exact ((List.sublist_cons_self m rest).filterMap _).append (.refl _)
  have hmem : ∀ x ∈ rest, x ∈ p.down := fun x hx => hdown ▸ List.mem_cons_of_mem m hx
  exact ⟨h.serves, ⟨c, hl.conn, hl.message, hl.upcoming, fun hlive => (hl.once hlive).sublist hsub,
    fun hlive n hn => hl.inTransit hlive n (hsub.subset hn)⟩, fun n hn => h.seeks n (hmem _ hn),
    fun n hn => h.acks n (hmem _ hn), h.acknowledged, h.segments, h.reads, h.reading, h.unsent,
    h.ended⟩

/-- An answer ends the way of its segment. -/
theorem inv_answer {m : Notice} {rest : List Notice} {n : Nat} {a : OrderedSet Nat}
    {s' : Sender Buffer} (h : Inv u base p) (hdown : p.down = m :: rest)
    (hn : answeredNotice m = some n)
    (ha : ∀ k ∈ a, InSession u p.pool.shared.live k ∨ Resumed u base p.pool.shared.live k)
    (hans : Sender.Answers n { p.sender with acknowledged := a } s') (hreading : s'.Reading) :
    Inv u base (({ p with down := rest } : Page).setSender s') := by
  have hrest := inv_drop h hdown
  obtain ⟨c, hl⟩ := h.linked
  have hway : underWay c p.down p.up = n :: underWay c rest p.up := by
    unfold underWay
    rw [hdown, List.filterMap_cons_some hn]
    rfl
  have hdrop : s'.sent.drop p.sender.sent.length = [] := by
    rw [hans.sent]
    exact List.drop_length
  unfold Page.setSender
  dsimp only
  rw [hdrop, List.map_nil, List.append_nil]
  refine inv_stopped (p := { p with down := rest }) ⟨h.serves, ⟨c, hl.conn, hl.message, hl.upcoming,
    fun hlive => ?_, fun hlive k hk => ?_⟩, hrest.seeks, hrest.acks,
    fun k hk => ha k (hans.acknowledged k hk), hans.totalSegments.trans h.segments,
    reads_frame hans.toFrame h.reads, hreading, hans.unsent h.unsent,
    fun hd => hans.shouldStop.trans (h.ended hd)⟩
  · have honce := hl.once (hans.stopped hlive)
    rw [hway] at honce
    exact (List.nodup_cons.mp honce).2
  · have honce := hl.once (hans.stopped hlive)
    have htransit := hl.inTransit (hans.stopped hlive) k
    rw [hway] at honce htransit
    have hne : k ≠ n := by
      rintro rfl
      exact (List.nodup_cons.mp honce).1 hk
    exact (hans.others k hne).trans (htransit (List.mem_cons_of_mem n hk))

theorem inv_deliver (h : Inv u base p) (ht : p.deliver = some q) : Inv u base q := by
  unfold Page.deliver at ht
  split at ht
  · cases ht
  · rename_i m rest hdown
    cases ht
    have hdropped := inv_drop h hdown
    split
    · exact hdropped
    · cases m with
      | seek n =>
        exact inv_sends hdropped (.nothing (Sender.request_same p.sender n))
          (Sender.reading_request h.reading n) (Sender.request_unsent h.unsent n)
      | reply r =>
        cases r with
        | ack n =>
          have hin := h.acks n (hdown ▸ List.mem_cons_self)
          have hadded : Sender.Reading { p.sender with
              acknowledged := p.sender.acknowledged.add n } :=
            ⟨h.reading.flight, h.reading.retry, h.reading.prepared, h.reading.pumping, h.reading.sent⟩
          refine inv_answer h hdown rfl (a := p.sender.acknowledged.add n) (fun k hk => ?_)
            (Sender.ack_answers (OrderedSet.mem_add.mpr (.inr rfl))) (Sender.reading_ack hadded n)
          rcases OrderedSet.mem_add.mp hk with hk | rfl
          · exact h.acknowledged k hk
          · exact .inl hin
        | busy n =>
          exact inv_answer h hdown rfl (a := p.sender.acknowledged) h.acknowledged
            (Sender.busy_answers p.sender n) (Sender.reading_busy h.reading n)
        | pong =>
          show Inv u base (if _ then _ else _)
          split
          · exact hdropped
          · exact inv_fail hdropped
        | error e =>
          show Inv u base (if _ then _ else _)
          split
          · exact hdropped
          · exact inv_fail hdropped
        | _ => exact inv_fail hdropped

/-- What the page does by itself. -/
theorem inv_sender {e : SenderEvent} {s' : Sender Buffer} (h : Inv u base p)
    (ht : Page.senderTurn u p.sender e = some s') : Inv u base (p.setSender s') := by
  cases e with
  | pump =>
    cases ht
    exact inv_sends h (.nothing (Sender.pump_same _)) (Sender.reading_pump h.reading)
      (Sender.pump_unsent h.unsent)
  | timer n =>
    have hreading := Sender.reading_turn (e := .timer n) h.reading ht
    dsimp only [Page.senderTurn, SegmentSender.turn] at ht
    split at ht <;> cases ht
    refine inv_sends h (.nothing (Sender.same_pump (Sender.same_of_eq
      ⟨rfl, rfl, id, fun _ => id, fun _ => .inl⟩ rfl rfl))) hreading (Sender.pump_unsent h.unsent)
  | resume thrown =>
    have hreading := Sender.reading_turn (e := .resume thrown) h.reading ht
    obtain ⟨⟨n, r⟩, hp, hresume⟩ := Option.bind_eq_some_iff.mp ht
    obtain ⟨result, hr, rfl⟩ := Option.map_eq_some_iff.mp hresume
    obtain ⟨hsends, hunsent⟩ := Sender.resume_sends h.unsent thrown (x := result) hp
    exact inv_sends h hsends hreading hunsent
  | stop =>
    cases ht
    exact inv_sends h (.stopped ⟨rfl, rfl, nofun, fun _ => id, fun _ => .inl⟩ rfl rfl)
      (Sender.reading_stop h.reading) nofun
  | readDone i ok =>
    obtain ⟨call, hcall, hturn⟩ := Option.bind_eq_some_iff.mp ht
    have hreading := Sender.reading_turn h.reading hturn
    dsimp only [SegmentSender.turn] at hturn
    split at hturn <;> cases hturn
    rename_i segment hi
    have hsegment : call.segment = segment := by
      rw [hi] at hcall
      cases hcall
      rfl
    -- the sender keeps all but the result, which is what the file has
    obtain ⟨c, hl⟩ := h.linked
    have hdrop : p.sender.sent.drop p.sender.sent.length = [] := List.drop_length
    unfold Page.setSender
    dsimp only
    rw [hdrop, List.map_nil, List.append_nil]
    refine inv_stopped (p := p) (s := { p.sender with reads := p.sender.reads.set i _ })
      ⟨h.serves, ⟨c, hl.conn, hl.message, hl.upcoming, hl.once, hl.inTransit⟩,
      h.seeks, h.acks, h.acknowledged, h.segments, fun k hk b hb => ?_, hreading, h.unsent, h.ended⟩
    rcases List.mem_or_eq_of_mem_set hk with hk | rfl
    · exact h.reads k hk b hb
    · cases ok with
      | true =>
        cases hb
        rw [hsegment]
      | false => cases hb

theorem inv_turn {e : Event} (h : Inv u base p) (hg : Undisturbed p e) (ht : turn u p e = some q) :
    Inv u base q := by
  cases e with
  | server i e =>
    simp only [turn] at ht
    split at ht
    · cases ht
    · rename_i hm
      exact inv_server h hm hg ht
  | receive => exact inv_receive h ht
  | seek i => exact inv_seek h ht
  | sender e =>
    obtain ⟨s', hs, rfl⟩ := Option.map_eq_some_iff.mp ht
    exact inv_sender h hs
  | deliver => exact inv_deliver h ht
  | ping => cases ht; exact inv_say h plain_ping
  | stats stats => cases ht; exact inv_say h (plain_stats stats)
  | finish =>
    simp only [turn] at ht
    split at ht <;> cases ht
    exact inv_say (inv_halt h) plain_finish
  | fail => cases ht; exact inv_fail h

end PkgManager.UploadPage
