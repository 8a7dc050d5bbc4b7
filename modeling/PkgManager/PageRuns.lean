import PkgManager.PageAnswers

namespace PkgManager.UploadPage

open Interleaving Machine Memory LiveSession LiveCalls LiveSlots UploadServer
open UploadThreads UploadMoves UploadChanges InsertionOrder SegmentSender

/-- `Math.ceil(init.offset / SEG)`. -/
def resumeBase (lv : Live) : Nat := (wsLiveGetResumeOffset lv + SEG - 1) / SEG

/-- A page opens: it has asked for the session while the program was as in `p₀`, and in
`p` its connection has just been granted the same one. -/
structure Opened (u : Upload) (p₀ p : Pool World Thread) (c : Conn) : Prop where
  reach : ∃ seekFn installs requests readers,
    Reach uploads (fun p _ _ => attached p = true) (start seekFn installs requests readers) p₀
  later : Reach uploads (fun p i e => creating p i e = false) p₀ p
  session : wsLiveCheckId p₀.shared.live c.authorizedSid = true
  size : p₀.shared.live.total = u.size
  conn : connOf p u.conn = some c
  granted : c.pc = .reading ∧ c.authorized = true ∧ c.pendingSeg = -1

theorem resumeBase_acked {lv : Live} {n : Nat} (h : n < resumeBase lv) :
    n < lv.nsegs ∧ lv.ackedEver n = true := by
  unfold resumeBase wsLiveGetResumeOffset at h
  generalize hk : (if lv.active = true ∧ lv.allocated = true then
    ((List.range lv.nsegs).takeWhile lv.ackedEver).length else 0) = k at h
  have hlt : n < k := by
    unfold SEG at h
    dsimp only at h
    split at h <;> omega
  split at hk
  · rw [← hk] at hlt
    have hget : ((List.range lv.nsegs).takeWhile lv.ackedEver)[n] = n := by
      have hsame := (List.takeWhile_prefix lv.ackedEver (l := List.range lv.nsegs)).getElem hlt
      rw [hsame, List.getElem_range]
    have hmem := List.getElem_mem hlt
    rw [hget] at hmem
    exact ⟨List.mem_range.mp ((List.takeWhile_prefix _).subset hmem), List.mem_takeWhile_imp hmem⟩
  · omega

theorem serves_opened {u : Upload} {p₀ p : Pool World Thread} {c : Conn} (h : Opened u p₀ p c) :
    Serves u p₀ ∧ Serves u p ∧ Lasting p₀.shared.live p.shared.live := by
  obtain ⟨seekFn, installs, requests, readers, hreach⟩ := h.reach
  have hasked : Asked p₀ := hreach.invariant Asked (asked_start seekFn installs requests readers)
    fun _ _ _ _ hp hg hs => asked_step hp hg hs
  have hact : p₀.shared.live.active = true := (of_decide_eq_true h.session).2.1
  have hlive : OfUpload u p₀.shared.live := ⟨hasked.sound, fun _ => h.size, hasked.emptied⟩
  have hserves : Serves u p₀ :=
    ⟨hlive, fun t ht => seeksBelow_mono (nsegs_le hlive) (hasked.seeks hact t ht)⟩
  refine ⟨hserves, h.later.invariant
    (fun q => Serves u q ∧ Lasting p₀.shared.live q.shared.live) ⟨hserves, .refl _⟩ ?_⟩
  intro q i e r hq hg hs
  obtain ⟨hr, hlast⟩ := serves_step hq.1 hg hs
  exact ⟨hr, hq.2.trans hlast⟩

theorem inv_open {u : Upload} {p₀ p : Pool World Thread} {c : Conn} (demandWindow : Nat)
    (maxInFlight : Int) (h : Opened u p₀ p c) :
    Inv u (resumeBase p₀.shared.live)
      (openPage (options u (resumeBase p₀.shared.live) demandWindow maxInFlight) p) := by
  obtain ⟨hserves₀, hserves, hlast⟩ := serves_opened h
  have hnone : pendingOf c = [] := by
    unfold pendingOf
    rw [h.granted.2.2]
    rfl
  have hneg : c.pendingSeg < 0 := by
    rw [h.granted.2.2]
    decide
  have hway : underWay c [] [] = [] := by
    unfold underWay
    rw [hnone]
    rfl
  refine ⟨hserves, ⟨c, h.conn, onMessage_of_off (by rw [h.granted.1]; rfl),
    upcoming_honest (fun _ => hneg) nofun, fun _ => ?_, fun _ n hn => ?_⟩, nofun, nofun,
    fun n hn => ?_, rfl, nofun, reading_create _, nofun, nofun⟩
  · show (underWay c [] []).Nodup
    rw [hway]
    exact List.nodup_nil
  · have hn : n ∈ underWay c [] [] := hn
    rw [hway] at hn
    exact absurd hn List.not_mem_nil
  · have hlt : n < resumeBase p₀.shared.live := List.mem_range.mp hn
    obtain ⟨hseg, hacked⟩ := resumeBase_acked hlt
    exact .inr ⟨hlt, Nat.lt_of_lt_of_le hseg (nsegs_le hserves₀.live), hlast.acked n hacked⟩

/-- Where every segment was stored, `ws_live_finish` finds it so. -/
theorem finish_complete {u : Upload} {base : Nat} {p : Page} (h : Inv u base p)
    (hact : p.pool.shared.live.active = true) (hgo : p.pool.shared.live.aborted = false)
    (hall : p.allAcknowledged = true) : (wsLiveFinish p.pool.shared.live).2 = 0 := by
  have hacked : ∀ n ∈ p.sender.acknowledged,
      n < u.segments ∧ p.pool.shared.live.ackedEver n = true := by
    intro n hn
    rcases h.acknowledged n hn with hin | ⟨_, hlt, hacked⟩
    · exact ⟨hin.lt, hin.acked⟩
    · exact ⟨hlt, hacked⟩
  have hsize : u.segments ≤ p.sender.acknowledged.items.length := by
    have := of_decide_eq_true hall
    rw [h.segments] at this
    exact this
  have hcover : ∀ n < u.segments, n ∈ p.sender.acknowledged := by
    intro n hn
    have hsub : p.sender.acknowledged.items.toFinset ⊆ Finset.range u.segments := by
      intro k hk
      exact Finset.mem_range.mpr (hacked k (List.mem_toFinset.mp hk)).1
    have hcard : (Finset.range u.segments).card ≤ p.sender.acknowledged.items.toFinset.card := by
      rw [Finset.card_range, List.toFinset_card_of_nodup p.sender.acknowledged.nodup]
      exact hsize
    have heq := Finset.eq_of_subset_of_card_le hsub hcard
    exact List.mem_toFinset.mp (heq ▸ Finset.mem_range.mpr hn)
  have hcount : (List.range p.pool.shared.live.nsegs).countP p.pool.shared.live.ackedEver =
      p.pool.shared.live.nsegs := by
    rw [nsegs_of_upload h.serves.live hact]
    refine (List.countP_eq_length.mpr fun n hn => ?_).trans List.length_range
    exact (hacked n (hcover n (List.mem_range.mp hn))).2
  unfold wsLiveFinish
  simp only [hact, hgo, hcount]
  rw [if_neg (by simp)]

/-- What an upload keeps. `always` asks for more: that the sender listens to what
arrives after it stopped, and that a session that ended or was aborted is finished. -/
structure Transfer (u : Upload) (base : Nat) (always : Prop) (p : Page) : Prop where
  acknowledged : ∀ n ∈ p.sender.acknowledged, p.pool.shared.live.ackedEver n = true ∧
    (base ≤ n → InSession u p.pool.shared.live n)
  acks : ∀ n, .reply (.ack n) ∈ p.down → InSession u p.pool.shared.live n
  busy : ∀ n rest, p.down = .reply (.busy n) :: rest → p.sender.inactive = false ∨ always →
    ∃ q, p.deliver = some q ∧ (n ∈ q.sender.demands ∨ n ∈ q.sender.flights)
  seek : ∀ n rest, p.down = .seek n :: rest → p.sender.inactive = false ∨ always →
    ∃ q, p.deliver = some q ∧ (n ∈ q.sender.demands ∨ n ∈ q.sender.flights)
  finish : p.allAcknowledged = true →
    (p.pool.shared.live.active = true ∧ p.pool.shared.live.aborted = false) ∨ always →
    (wsLiveFinish p.pool.shared.live).2 = 0

theorem setSender_wanted {p : Page} {s : Sender Buffer} {n : Nat} (h : s.Wanted n) :
    (p.setSender s).sender.Wanted n := by
  unfold Page.setSender
  dsimp only
  split <;> exact h

theorem inv_reaches {u : Upload} {base : Nat} {p q : Page} (h : Inv u base p)
    (hr : Reaches u Undisturbed p q) : Inv u base q := by
  induction hr with
  | refl => exact h
  | tail _ hstep ih =>
    obtain ⟨e, hg, ht⟩ := hstep
    exact inv_turn ih hg ht

/-- In every run of the page, its connection and the program in which no other session is
created, what the sender counts as acknowledged is in the session as the page read it, no
busy reply and no seek is lost on an active sender, and a session that is neither aborted
nor ended can be finished once all segments are acknowledged. -/
theorem transfer_sound (u : Upload) (p₀ p : Pool World Thread) (c : Conn) (demandWindow : Nat)
    (maxInFlight : Int) (q : Page) (h : Opened u p₀ p c)
    (hr : Reaches u Undisturbed
      (openPage (options u (resumeBase p₀.shared.live) demandWindow maxInFlight) p) q) :
    Transfer u (resumeBase p₀.shared.live) False q := by
  have hinv := inv_reaches (inv_open demandWindow maxInFlight h) hr
  have hlistens : q.sender.inactive = false → q.sender.stopped = false ∧ q.done = false := by
    intro hactive
    obtain ⟨hstop, hshould⟩ := Bool.or_eq_false_iff.mp hactive
    refine ⟨hstop, Bool.eq_false_iff.mpr fun hdone => ?_⟩
    rw [hinv.ended hdone] at hshould
    cases hshould
  refine ⟨fun n hn => ?_, hinv.acks, fun n rest hdown hactive => ?_,
    fun n rest hdown hactive => ?_, fun hall hlive => ?_⟩
  · rcases hinv.acknowledged n hn with hin | ⟨hbase, _, hacked⟩
    · exact ⟨hin.acked, fun _ => hin⟩
    · exact ⟨hacked, fun hle => absurd hbase (Nat.not_lt.mpr hle)⟩
  · have hactive : q.sender.inactive = false := hactive.resolve_right id
    obtain ⟨hstop, hdone⟩ := hlistens hactive
    obtain ⟨c, hl⟩ := hinv.linked
    have hway : n ∈ underWay c q.down q.up := by
      unfold underWay
      rw [hdown]
      exact List.mem_cons_self
    refine ⟨_, by unfold Page.deliver; rw [hdown], ?_⟩
    rw [hdone, if_neg Bool.false_ne_true]
    exact setSender_wanted (Sender.busy_wanted hactive (hl.inTransit hstop n hway))
  · have hactive : q.sender.inactive = false := hactive.resolve_right id
    have hlt : n < q.sender.totalSegments :=
      hinv.segments ▸ hinv.seeks n (hdown ▸ List.mem_cons_self)
    refine ⟨_, by unfold Page.deliver; rw [hdown], ?_⟩
    rw [(hlistens hactive).2, if_neg Bool.false_ne_true]
    exact setSender_wanted (Sender.request_wanted hactive hlt)
  · obtain ⟨hact, hgo⟩ := hlive.resolve_right id
    exact finish_complete hinv hact hgo hall

/-- Run a list of events; none if a guard fails or an event cannot happen. -/
def exec (u : Upload) (G : Page → Event → Prop) [∀ p e, Decidable (G p e)] :
    List Event → Page → Option Page
  | [], p => some p
  | e :: es, p => if G p e then (turn u p e).bind (exec u G es) else none

theorem reaches_of_exec {u : Upload} {G : Page → Event → Prop} [∀ p e, Decidable (G p e)]
    {es : List Event} {p q : Page} (h : exec u G es p = some q) : Reaches u G p q := by
  induction es generalizing p with
  | nil => exact Option.some.inj h ▸ .refl
  | cons e es ih =>
    unfold exec at h
    split at h
    · rename_i hg
      obtain ⟨r, ht, hr⟩ := Option.bind_eq_some_iff.mp h
      exact .head ⟨e, hg, ht⟩ (ih hr)
    · cases h

instance (p : Page) : (e : Event) → Decidable (Undisturbed p e)
  | .server i e => inferInstanceAs (Decidable (creating p.pool i e = false))
  | .receive => isTrue trivial
  | .seek _ => isTrue trivial
  | .sender _ => isTrue trivial
  | .deliver => isTrue trivial
  | .ping => isTrue trivial
  | .stats _ => isTrue trivial
  | .finish => isTrue trivial
  | .fail => isTrue trivial

/-- A package of one byte. -/
def byteUpload : Upload := ⟨fun _ => 7, 1, 3⟩

/-- The page sends its only segment and has the answer delivered. -/
def uploadEvents : List Event :=
  [.sender .pump, .sender (.readDone 0 true), .sender (.resume false), .receive, .receive] ++
    List.replicate 4 (.server 3 (.conn .go)) ++ [.deliver]

/-- A page that has opened, after the given events of its own. -/
def pageAfter (G : Page → Event → Prop) [∀ p e, Decidable (G p e)] (es : List Event) :
    Option (Pool World Thread × Pool World Thread × Conn × Page) :=
  (uploads.exec (fun p _ _ => attached p = true) (openEvents 0 [97] [49] ++ [(2, .accept)])
    (start true 0 2 0)).bind fun p₀ =>
      (uploads.exec (fun p i e => creating p i e = false) (joinEvents 3 [97] [49]) p₀).bind fun p =>
        (connOf p 3).bind fun c =>
          (exec byteUpload G es
            (openPage (options byteUpload (resumeBase p₀.shared.live) 0 1) p)).map fun q => (p₀, p, c, q)

/-- Whether the connection was granted the session that the page had asked for. -/
def opens (p₀ : Pool World Thread) (c : Conn) : Bool :=
  wsLiveCheckId p₀.shared.live c.authorizedSid && decide (p₀.shared.live.total = 1) &&
    c.authorized && decide (c.pendingSeg = -1) && match c.pc with
      | .reading => true
      | _ => false

/-- What the events come to: whether the page opened, whether it counts all segments as
acknowledged and what `ws_live_finish` then returns. -/
def outcome (G : Page → Event → Prop) [∀ p e, Decidable (G p e)] (es : List Event) :
    Option (Bool × Bool × Int) :=
  (pageAfter G es).map fun r =>
    (opens r.1 r.2.2.1, r.2.2.2.allAcknowledged, (wsLiveFinish r.2.2.2.pool.shared.live).2)

theorem opened_of_outcome {G : Page → Event → Prop} [∀ p e, Decidable (G p e)] {es : List Event}
    {all : Bool} {r : Int} (h : outcome G es = some (true, all, r)) :
    ∃ p₀ p c q, Opened byteUpload p₀ p c ∧
      Reaches byteUpload G (openPage (options byteUpload (resumeBase p₀.shared.live) 0 1) p) q ∧
        q.allAcknowledged = all ∧ (wsLiveFinish q.pool.shared.live).2 = r := by
  obtain ⟨⟨p₀, p, c, q⟩, hrun, he⟩ := Option.map_eq_some_iff.mp h
  obtain ⟨r₀, hr₀, hrun⟩ := Option.bind_eq_some_iff.mp hrun
  obtain ⟨r₁, hr₁, hrun⟩ := Option.bind_eq_some_iff.mp hrun
  obtain ⟨d, hd, hrun⟩ := Option.bind_eq_some_iff.mp hrun
  obtain ⟨r₂, hr₂, hsame⟩ := Option.map_eq_some_iff.mp hrun
  cases hsame
  have hopens : opens p₀ c = true := congrArg Prod.fst he
  have hrest := congrArg Prod.snd he
  simp only [opens, Bool.and_eq_true, decide_eq_true_eq] at hopens
  obtain ⟨⟨⟨⟨hsession, hsize⟩, hauthorized⟩, hpending⟩, hpc⟩ := hopens
  have hreading : c.pc = .reading := by
    split at hpc
    · assumption
    · cases hpc
  exact ⟨p₀, p, c, q, ⟨⟨true, 0, 2, 0, .of_exec hr₀⟩, .of_exec hr₁, hsession, hsize, hd, hreading,
    hauthorized, hpending⟩, reaches_of_exec hr₂, congrArg Prod.fst hrest, congrArg Prod.snd hrest⟩

theorem transfer_sound_byte : ∃ p₀ q, q.allAcknowledged = true ∧
    Transfer byteUpload (resumeBase p₀) False q := by
  have hrun : outcome Undisturbed uploadEvents = some (true, true, 0) := by rfl
  obtain ⟨p₀, p, c, q, hopened, hreaches, hall, _⟩ := opened_of_outcome hrun
  exact ⟨p₀.shared.live, q, hall, transfer_sound byteUpload p₀ p c 0 1 q hopened hreaches⟩

/-- The owner cancels the upload behind the last acknowledgement. -/
theorem transfer_sound_fails : ¬ ∀ (u : Upload) (p₀ p : Pool World Thread) (c : Conn)
    (demandWindow : Nat) (maxInFlight : Int) (q : Page), Opened u p₀ p c →
    Reaches u (fun _ _ => True)
      (openPage (options u (resumeBase p₀.shared.live) demandWindow maxInFlight) p) q →
    Transfer u (resumeBase p₀.shared.live) True q := by
  intro h
  have hrun : outcome (fun _ _ => True) (uploadEvents ++
      (cancelEvents 1 [49]).map fun e => .server e.1 e.2) = some (true, true, -1) := by rfl
  obtain ⟨p₀, p, c, q, hopened, hreaches, hall, hfails⟩ := opened_of_outcome hrun
  have hfinish := (h byteUpload p₀ p c 0 1 q hopened hreaches).finish hall (.inr trivial)
  rw [hfinish] at hfails
  cases hfails

end PkgManager.UploadPage
