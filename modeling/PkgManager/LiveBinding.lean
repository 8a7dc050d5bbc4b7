import PkgManager.LiveContent
import PkgManager.LiveLifetime

namespace PkgManager.LiveBinding

open Interleaving Machine Memory LiveSession LiveCalls LiveThreads LiveSound LiveReaders LiveContent
open LiveLifetime

/-- A `virtual_stream_t` over the live session: `total` is its `total_pkg_size`.
The other two are for the record: the session whose id was checked, and the one
the reference was taken on. -/
structure LiveStream where
  asked : Nat
  total : Nat
  held : Nat

/-- How far `virtual_stream_open("live:<id>")` has come. -/
inductive Phase where
  | closed
  | checked (asked : Nat)
  | sized (asked total : Nat)
  | opened (stream : LiveStream)

/-- Between the id check and the attach. -/
def Phase.opening : Phase → Bool
  | .checked _ => true
  | .sized _ _ => true
  | _ => false

def Phase.isOpen : Phase → Bool
  | .opened _ => true
  | _ => false

/-- A thread with its stream; `thread` is where it stands in a call of its own
into the live session. -/
structure Opener where
  thread : Thread
  phase : Phase

/-- The session, how many were built, and the size of each. -/
structure Sessions where
  live : Live
  built : Nat
  totals : Nat → Nat

inductive Event where
  | live (e : LiveThreads.Event)
  | checkId (sid : List UInt8)
  | getTotal
  | attach
  | close

/-- The calls made into the session from outside a stream. -/
def mayCall : LiveThreads.Event → Bool
  | .create _ => true
  | .setSeekFn _ => true
  | .tryWrite _ _ _ => true
  | .write _ _ _ => true
  | .writeWake _ => true
  | .finish => true
  | .abort => true
  | .destroy => true
  | _ => false

/-- The thread is in no call. -/
def free : Thread → Bool
  | .idle => true
  | .done _ => true
  | .returned _ _ => true
  | _ => false

/-- What `virtual_stream_read` asks `ws_live_read` for; 0 where it returns 0 itself. -/
def streamCount (total off count : Nat) : Nat :=
  if count = 0 ∨ total ≤ off then 0
  else if total < u64 (off + count) then total - off else count

/-- A read through the stream, as a call of `ws_live_read`. -/
def readThrough (st : LiveStream) : LiveThreads.Event → Option LiveThreads.Event
  | .read off buf count now => some (.read off buf (streamCount st.total off count) now)
  | .rescan now => some (.rescan now)
  | .seekReturn now => some (.seekReturn now)
  | .readWake expired now => some (.readWake expired now)
  | _ => none

def Sessions.after (s : Sessions) (lv' : Live) (e : LiveThreads.Event) : Sessions :=
  if builds s.live lv' e then ⟨lv', s.built + 1, Function.update s.totals (s.built + 1) lv'.total⟩
  else { s with live := lv' }

def callTurn (s : Sessions) (o : Opener) (e : LiveThreads.Event) : Option (Sessions × Opener) :=
  (turn s.live o.thread e).map fun st => (s.after st.1 e, { o with thread := st.2 })

/-- `ws_live_get_total`, which `virtual_stream_open` takes for the package size. -/
def openSized (s : Sessions) (asked : Nat) : Phase :=
  if wsLiveGetTotal s.live = 0 then .closed else .sized asked (wsLiveGetTotal s.live)

def openAttached (s : Sessions) (asked total : Nat) : Phase :=
  if (wsLiveAttach s.live).2 ≠ 0 then .closed else .opened ⟨asked, total, s.built⟩

def openerTurn (s : Sessions) (o : Opener) : Event → Option (Sessions × Opener)
  | .live e =>
    match o.phase with
    | .closed => if mayCall e then callTurn s o e else none
    | .opened st => (readThrough st e).bind (callTurn s o)
    | _ => none
  | .checkId sid =>
    match o.phase with
    | .closed =>
      if free o.thread then
        some (s, { o with phase := if wsLiveCheckId s.live sid then .checked s.built else .closed })
      else none
    | _ => none
  | .getTotal =>
    match o.phase with
    | .checked asked => some (s, { o with phase := openSized s asked })
    | _ => none
  | .attach =>
    match o.phase with
    | .sized asked total =>
      some ({ s with live := (wsLiveAttach s.live).1 },
        ⟨.done (wsLiveAttach s.live).2, openAttached s asked total⟩)
    | _ => none
  | .close =>
    match o.phase with
    | .opened _ =>
      if free o.thread then some ({ s with live := wsLiveDetach s.live }, ⟨.done 0, .closed⟩)
      else none
    | _ => none

/-- Streams that are opened, read and closed beside the threads that create,
fill, abort and destroy sessions; each critical section is an event. -/
def binding : Machine Sessions Opener Event where
  act e s o := (openerTurn s o e).map fun r => (r.1, r.2, [])

def start (seekFn : Bool) (n : Nat) : Pool Sessions Opener :=
  ⟨⟨Live.init seekFn, 0, fun _ => 0⟩, List.replicate n ⟨.idle, .closed⟩⟩

/-- The step is a creation that builds a session. -/
def buildsNow (lv : Live) : Event → Bool
  | .live (.create c) => builds lv (wsDirectInitSession lv c).1 (.create c)
  | _ => false

/-- No session is built between the id check and the attach of an open. -/
def Unraced (p : Pool Sessions Opener) (_ : Nat) (e : Event) : Prop :=
  buildsNow p.shared.live e = true → ∀ o ∈ p.threads, o.phase.opening = false

instance (p : Pool Sessions Opener) (i : Nat) (e : Event) : Decidable (Unraced p i e) :=
  inferInstanceAs (Decidable (_ → _))

def Anyhow (_ : Pool Sessions Opener) (_ : Nat) (_ : Event) : Prop := True

instance (p : Pool Sessions Opener) (i : Nat) (e : Event) : Decidable (Anyhow p i e) := isTrue trivial

/-- The stream has the size of the session that was asked for and keeps that
session alive. -/
structure BoundTo (s : Sessions) (st : LiveStream) : Prop where
  total : st.total = s.totals st.asked
  held : st.held = st.asked

/-- A read through the stream failed, or its bytes are those stored in the session
that was asked for. -/
def Serves (s : Sessions) (st : LiveStream) (r : ReadCall) (n : Int) : Prop :=
  n = -1 ∨ s.built = st.asked ∧
    ∀ k : Nat, (k : Int) < n → storedAt s.live (r.readStart + k) = some (r.dst k)

theorem binding_step {p q : Pool Sessions Opener} {i : Nat} {e : Event}
    (h : binding.step p i e = some q) :
    ∃ o s' o', p.threads[i]? = some o ∧ openerTurn p.shared o e = some (s', o') ∧
      q = ⟨s', p.threads.set i o' ++ []⟩ := by
  obtain ⟨o, s', o', new, ho, hact, rfl⟩ := step_eq_some h
  obtain ⟨⟨s₁, o₁⟩, hturn, he⟩ := Option.map_eq_some_iff.mp hact
  cases he
  exact ⟨o, s₁, o₁, ho, hturn, rfl⟩

/-! The threads of the streams are threads of the live session. -/

def view (p : Pool Sessions Opener) : Pool Live Thread :=
  ⟨p.shared.live, p.threads.map Opener.thread⟩

theorem turn_free {t : Thread} (h : free t = true) (lv : Live) (e : LiveThreads.Event) :
    turn lv t e = call lv e := by
  cases t with
  | idle => rfl
  | done n => rfl
  | returned r n => rfl
  | _ => cases h

theorem view_step {p : Pool Sessions Opener} {i : Nat} {o : Opener} {e : LiveThreads.Event}
    {q : Sessions} {t' : Thread} (ho : p.threads[i]? = some o)
    (ht : turn p.shared.live o.thread e = some (q.live, t')) (ph : Phase) :
    live.step (view p) i e = some (view ⟨q, p.threads.set i ⟨t', ph⟩ ++ []⟩) := by
  have hv : (view p).threads[i]? = some o.thread := by simp [view, ho]
  unfold step
  rw [hv]
  simp only [live, view, ht, Option.map_some, List.append_nil, List.map_set]

/-- What holds whether or not sessions are built at a bad moment. -/
structure Tied (p : Pool Sessions Opener) : Prop where
  size : p.shared.live.active = true → p.shared.live.total = p.shared.totals p.shared.built
  refs : p.shared.live.refs = p.threads.countP fun o => o.phase.isOpen
  free : ∀ o ∈ p.threads, o.phase.opening = true → free o.thread = true
  reading : ∀ o ∈ p.threads, o.thread.reading = true → o.phase.isOpen = true

theorem create_turn {lv lv' : Live} {t t' : Thread} {c : CreateCall}
    (h : turn lv t (.create c) = some (lv', t')) :
    lv' = (wsDirectInitSession lv c).1 ∧ t' = .done (wsDirectInitSession lv c).2 := by
  obtain ⟨_, hc⟩ | ⟨w, _, _, hx, _⟩ | ⟨r, _, _, hx, _⟩ | ⟨r, need, _, _, hx, _⟩ |
    ⟨r, need, _, _, _, hx, _⟩ := turn_cases h
  · cases hc
    exact ⟨rfl, rfl⟩
  · cases hx
  · cases hx
  · cases hx
  · cases hx

/-- What an open has learned is about the session there is. -/
def Agrees (s : Sessions) : Phase → Prop
  | .closed => True
  | .checked asked => asked = s.built
  | .sized asked total => asked = s.built ∧ total = s.totals s.built
  | .opened st => st.asked = s.built ∧ st.held = s.built ∧ st.total = s.totals s.built

/-- A call other than attach and detach leaves the session and its references
as they are, ends the session, or builds one that nobody refers to. -/
theorem after_cases {s : Sessions} {t t' : Thread} {e : LiveThreads.Event} {lv' : Live}
    (h : turn s.live t e = some (lv', t')) (hat : e ≠ .attach) (hde : e ≠ .detach) :
    (s.after lv' e = { s with live := lv' } ∧ lv'.refs = s.live.refs ∧
        (lv'.active = true → s.live.active = true ∧ lv'.total = s.live.total)) ∨
      ∃ c, e = .create c ∧ s.live.refs = 0 ∧ lv'.refs = 0 ∧ builds s.live lv' e = true := by
  cases turn_life h with
  | same hl =>
    simp only [lifeOf, Prod.mk.injEq] at hl
    obtain ⟨h1, h2, _, _, h5, _⟩ := hl
    refine .inl ⟨if_neg ?_, h2, fun ha => ⟨h1 ▸ ha, h5⟩⟩
    cases e with
    | create c => simp [builds, h1]
    | _ => exact Bool.false_ne_true
  | fresh c ha hr => exact .inr ⟨c, rfl, hr, rfl, by simp [builds, ha, freshSession]⟩
  | attached => exact absurd rfl hat
  | detached => exact absurd rfl hde
  | destroyed ha =>
    obtain ⟨hna, _, hr⟩ := destroy_inactive s.live ha
    exact .inl ⟨if_neg Bool.false_ne_true, hr, fun h => absurd (hna.symm.trans h) (by decide)⟩

theorem attach_active {lv : Live} (h : lv.active = true) :
    wsLiveAttach lv = ({ lv with refs := lv.refs + 1 }, 0) :=
  if_neg (by simp [h])

theorem attach_inactive {lv : Live} (h : lv.active = false) : wsLiveAttach lv = (lv, -1) :=
  if_pos (by simp [h])

/-- The ways a step comes about. -/
inductive Move (s : Sessions) (o : Opener) : Event → Sessions → Opener → Prop
  | called {e e' : LiveThreads.Event} {lv' : Live} {t' : Thread}
      (h : turn s.live o.thread e' = some (lv', t')) (hat : e' ≠ .attach) (hde : e' ≠ .detach)
      (hop : o.phase.opening = false)
      (hrd : mayCall e' = false → o.phase.isOpen = true)
      (he : ∀ c, e' = .create c → e = e') :
      Move s o (.live e) (s.after lv' e') ⟨t', o.phase⟩
  | checkId (sid : List UInt8) (hc : o.phase = .closed) (hf : LiveBinding.free o.thread = true) :
      Move s o (.checkId sid) s
        ⟨o.thread, if wsLiveCheckId s.live sid then .checked s.built else .closed⟩
  | getTotal (asked : Nat) (hc : o.phase = .checked asked) :
      Move s o .getTotal s ⟨o.thread, openSized s asked⟩
  | attached (asked total : Nat) (hc : o.phase = .sized asked total) (ha : s.live.active = true) :
      Move s o .attach { s with live := { s.live with refs := s.live.refs + 1 } }
        ⟨.done 0, .opened ⟨asked, total, s.built⟩⟩
  | unattached (asked total : Nat) (hc : o.phase = .sized asked total)
      (ha : s.live.active = false) : Move s o .attach s ⟨.done (-1), .closed⟩
  | close (st : LiveStream) (hc : o.phase = .opened st) (hf : LiveBinding.free o.thread = true) :
      Move s o .close { s with live := wsLiveDetach s.live } ⟨.done 0, .closed⟩

theorem called_move {s s' : Sessions} {o o' : Opener} {e e' : LiveThreads.Event}
    (h : callTurn s o e' = some (s', o')) (hat : e' ≠ .attach) (hde : e' ≠ .detach)
    (hop : o.phase.opening = false) (hrd : mayCall e' = false → o.phase.isOpen = true)
    (he : ∀ c, e' = .create c → e = e') : Move s o (.live e) s' o' := by
  obtain ⟨⟨lv', t'⟩, ht, hr⟩ := Option.map_eq_some_iff.mp h
  cases hr
  exact .called ht hat hde hop hrd he

theorem openerTurn_move {s s' : Sessions} {o o' : Opener} {e : Event}
    (h : openerTurn s o e = some (s', o')) : Move s o e s' o' := by
  obtain ⟨t, ph⟩ := o
  cases e with
  | live e =>
    cases ph with
    | closed =>
      dsimp only [openerTurn] at h
      split at h
      · rename_i hm
        refine called_move h ?_ ?_ rfl (fun hn => ?_) fun _ _ => rfl
        · rintro rfl; cases hm
        · rintro rfl; cases hm
        · rw [hm] at hn; cases hn
      · cases h
    | checked asked => cases h
    | sized asked total => cases h
    | opened st =>
      dsimp only [openerTurn] at h
      obtain ⟨e', he, hc⟩ := Option.bind_eq_some_iff.mp h
      refine called_move hc ?_ ?_ rfl (fun _ => rfl) ?_
      · rintro rfl; cases e <;> cases he
      · rintro rfl; cases e <;> cases he
      · rintro c rfl; cases e <;> cases he
  | checkId sid =>
    cases ph with
    | closed =>
      dsimp only [openerTurn] at h
      split at h
      · rename_i hf
        cases h
        exact .checkId sid rfl hf
      · cases h
    | _ => cases h
  | getTotal =>
    cases ph with
    | checked asked => cases h; exact .getTotal asked rfl
    | _ => cases h
  | attach =>
    cases ph with
    | sized asked total =>
      cases ha : s.live.active with
      | false =>
        simp only [openerTurn, openAttached, attach_inactive ha] at h
        cases h
        exact .unattached asked total rfl ha
      | true =>
        simp only [openerTurn, openAttached, attach_active ha] at h
        cases h
        exact .attached asked total rfl ha
    | _ => cases h
  | close =>
    cases ph with
    | opened st =>
      dsimp only [openerTurn] at h
      split at h
      · rename_i hf
        cases h
        exact .close st rfl hf
      · cases h
    | _ => cases h

/-- One step, seen from the live session: nothing, or a step of one of its threads. -/
def Follows (p q : Pool Sessions Opener) (i : Nat) : Prop :=
  view q = view p ∨ ∃ e', AttachDiscipline (view p) i e' ∧ live.step (view p) i e' = some (view q)

theorem Follows.reach {p q : Pool Sessions Opener} {i : Nat} {r : Pool Live Thread}
    (h : Follows p q i) (hp : live.Reach AttachDiscipline r (view p)) :
    live.Reach AttachDiscipline r (view q) := by
  obtain hv | ⟨e', hg, hs⟩ := h
  · exact hv ▸ hp
  · exact hp.tail hg hs

theorem Tied.refs_pos {p : Pool Sessions Opener} (h : Tied p) {o : Opener} (ho : o ∈ p.threads)
    (hop : o.phase.isOpen = true) : 0 < p.shared.live.refs := by
  rw [h.refs]
  exact List.countP_pos_iff.mpr ⟨o, ho, hop⟩

theorem called_discipline {p : Pool Sessions Opener} (h : Tied p) {i : Nat} {o : Opener}
    (ho : o ∈ p.threads) {e : LiveThreads.Event} (hde : e ≠ .detach)
    (hrd : mayCall e = false → o.phase.isOpen = true) : AttachDiscipline (view p) i e := by
  cases e with
  | read off buf count now => exact h.refs_pos ho (hrd rfl)
  | detach => exact absurd rfl hde
  | _ => trivial

theorem view_stutter {p : Pool Sessions Opener} {i : Nat} {o : Opener}
    (ho : p.threads[i]? = some o) (ph : Phase) :
    view ⟨p.shared, p.threads.set i ⟨o.thread, ph⟩ ++ []⟩ = view p := by
  obtain ⟨hlt, rfl⟩ := List.getElem?_eq_some_iff.mp ho
  simp only [view, List.append_nil, List.map_set]
  congr 1
  refine List.ext_getElem (by simp) fun k h1 h2 => ?_
  rw [List.getElem_set]
  split
  · rename_i he
    simp [he]
  · rfl

theorem close_discipline {p : Pool Sessions Opener} (h : Tied p) {i : Nat} {o : Opener}
    {st : LiveStream} (ho : p.threads[i]? = some o) (hc : o.phase = .opened st)
    (hf : LiveBinding.free o.thread = true) : AttachDiscipline (view p) i .detach := by
  intro hle t ht
  obtain ⟨o', ho', rfl⟩ := List.mem_map.mp ht
  obtain ⟨j, hj⟩ := List.mem_iff_getElem?.mp ho'
  by_cases hji : j = i
  · subst hji
    obtain rfl : o = o' := Option.some.inj (ho.symm.trans hj)
    cases hth : o.thread <;> simp_all [LiveBinding.free, Thread.reading]
  · have hle' : p.threads.countP (fun o => o.phase.isOpen) ≤ 1 := h.refs ▸ hle
    have hno := only_of_countP hle' ho (by simp [hc, Phase.isOpen]) hj hji
    by_contra hr
    rw [h.reading o' ho' (by simpa using hr)] at hno
    cases hno

theorem after_live (s : Sessions) (lv' : Live) (e : LiveThreads.Event) :
    (s.after lv' e).live = lv' := by
  unfold Sessions.after
  split <;> rfl

theorem called_tied {p : Pool Sessions Opener} {i : Nat} {o : Opener} {e : LiveThreads.Event}
    {lv' : Live} {t' : Thread} (h : Tied p) (hv : SessionInv (view p))
    (ho : p.threads[i]? = some o) (ht : turn p.shared.live o.thread e = some (lv', t'))
    (hat : e ≠ .attach) (hde : e ≠ .detach) (hop : o.phase.opening = false)
    (hrd : mayCall e = false → o.phase.isOpen = true) :
    Tied ⟨p.shared.after lv' e, p.threads.set i ⟨t', o.phase⟩ ++ []⟩ := by
  have hm := List.mem_of_getElem? ho
  have hcount := countP_step (fun o : Opener => o.phase.isOpen) ⟨t', o.phase⟩ [] ho
  simp only [List.countP_nil, Nat.add_zero, Nat.add_right_cancel_iff] at hcount
  refine ⟨?_, ?_, ?_, ?_⟩
  · rw [after_live]
    intro ha'
    obtain ⟨he, _, hk⟩ | ⟨c, _, _, _, hb⟩ := after_cases ht hat hde
    · rw [he]
      exact (hk ha').2.trans (h.size (hk ha').1)
    · unfold Sessions.after
      rw [if_pos hb]
      simp
  · show (p.shared.after lv' e).live.refs = _
    rw [after_live, hcount, ← h.refs]
    obtain ⟨_, hr, _⟩ | ⟨c, _, h0, h0', _⟩ := after_cases ht hat hde
    · exact hr
    · rw [h0, h0']
  · exact forall_step ho (fun hx => by simp [hop] at hx) h.free (by simp)
  · refine forall_step ho (fun hr => ?_) h.reading (by simp)
    have hw := hv.writers o.thread (List.mem_map_of_mem hm)
    obtain hr₀ | ⟨off, buf, count, now, rfl⟩ := turn_reading hv.session hw ht hr
    · exact h.reading o hm hr₀
    · exact hrd rfl

/-- The thread stays where it is and its stream is not open, before and after. -/
theorem stutter_tied {p : Pool Sessions Opener} {i : Nat} {o : Opener} {ph : Phase} (h : Tied p)
    (ho : p.threads[i]? = some o) (hc : o.phase.isOpen = false) (hc' : ph.isOpen = false)
    (hf : ph.opening = true → LiveBinding.free o.thread = true) :
    Tied ⟨p.shared, p.threads.set i ⟨o.thread, ph⟩ ++ []⟩ := by
  have hm := List.mem_of_getElem? ho
  have hcount := countP_step (fun o : Opener => o.phase.isOpen) ⟨o.thread, ph⟩ [] ho
  simp only [List.countP_nil, Nat.add_zero, hc, hc', Bool.false_eq_true, if_false] at hcount
  refine ⟨h.size, h.refs.trans hcount.symm, ?_, ?_⟩
  · exact forall_step ho hf h.free (by simp)
  · refine forall_step ho (fun hr => ?_) h.reading (by simp)
    exact absurd (hc.symm.trans (h.reading o hm hr)) (by decide)

theorem tied_step {p q : Pool Sessions Opener} {i : Nat} {e : Event} (h : Tied p)
    (hv : SessionInv (view p)) (hs : binding.step p i e = some q) : Tied q ∧ Follows p q i := by
  obtain ⟨o, s', o', ho, hturn, rfl⟩ := binding_step hs
  have hm := List.mem_of_getElem? ho
  have hcount := countP_step (fun o : Opener => o.phase.isOpen) o' [] ho
  simp only [List.countP_nil, Nat.add_zero] at hcount
  cases openerTurn_move hturn with
  | @called e e' lv' t' ht hat hde hop hrd he =>
    have hfollow := view_step (q := p.shared.after lv' e') ho (by rw [after_live]; exact ht) o.phase
    exact ⟨called_tied h hv ho ht hat hde hop hrd,
      .inr ⟨e', called_discipline h hm hde hrd, hfollow⟩⟩
  | checkId sid hc hf =>
    refine ⟨stutter_tied h ho (by simp [hc, Phase.isOpen]) ?_ fun _ => hf, .inl (view_stutter ho _)⟩
    split <;> rfl
  | getTotal asked hc =>
    refine ⟨stutter_tied h ho (by simp [hc, Phase.isOpen]) ?_ fun _ => ?_, .inl (view_stutter ho _)⟩
    · unfold openSized
      split <;> rfl
    · exact h.free o hm (by simp [hc, Phase.opening])
  | attached asked total hc ha =>
    have hf := h.free o hm (by simp [hc, Phase.opening])
    have ht : turn p.shared.live o.thread .attach =
        some ({ p.shared.live with refs := p.shared.live.refs + 1 }, .done 0) := by
      rw [turn_free hf]
      simp only [call, attach_active ha]
    refine ⟨⟨h.size, ?_, ?_, ?_⟩, .inr ⟨.attach, trivial,
      view_step (q := { p.shared with live := _ }) ho ht _⟩⟩
    · simp only [hc, Phase.isOpen, if_true, Bool.false_eq_true, if_false] at hcount
      exact (congrArg (· + 1) h.refs).trans hcount.symm
    · exact forall_step ho nofun h.free (by simp)
    · exact forall_step ho nofun h.reading (by simp)
  | unattached asked total hc ha =>
    have hf := h.free o hm (by simp [hc, Phase.opening])
    have ht : turn p.shared.live o.thread .attach = some (p.shared.live, .done (-1)) := by
      rw [turn_free hf]
      simp only [call, attach_inactive ha]
    refine ⟨⟨h.size, ?_, ?_, ?_⟩, .inr ⟨.attach, trivial, view_step ho ht _⟩⟩
    · simp only [hc, Phase.isOpen, Bool.false_eq_true, if_false] at hcount
      exact h.refs.trans hcount.symm
    · exact forall_step ho nofun h.free (by simp)
    · exact forall_step ho nofun h.reading (by simp)
  | close st hc hf =>
    have ht : turn p.shared.live o.thread .detach = some (wsLiveDetach p.shared.live, .done 0) :=
      turn_free hf _ _
    refine ⟨⟨?_, ?_, ?_, ?_⟩, .inr ⟨.detach, close_discipline h ho hc hf,
      view_step (q := { p.shared with live := _ }) ho ht _⟩⟩
    · have hq := detach_quiet p.shared.live
      intro ha
      have htot : (wsLiveDetach p.shared.live).total = p.shared.live.total :=
        (congrArg Live.total hq.frame_eq :)
      exact htot.trans (h.size (hq.active.symm.trans ha))
    · have hr := detach_refs p.shared.live
      have hold := h.refs
      have hopen : o.phase.isOpen = true := by
        rw [hc]
        rfl
      rw [if_pos hopen, if_neg (show ¬Phase.closed.isOpen = true from nofun)] at hcount
      show (wsLiveDetach p.shared.live).refs =
        (p.threads.set i ⟨.done 0, .closed⟩ ++ []).countP fun o : Opener => o.phase.isOpen
      omega
    · exact forall_step ho nofun h.free (by simp)
    · exact forall_step ho nofun h.reading (by simp)

theorem start_tied (seekFn : Bool) (n : Nat) : Tied (start seekFn n) where
  size := nofun
  refs := by
    refine (List.countP_eq_zero.mpr fun o ho => ?_).symm
    rw [List.eq_of_mem_replicate ho]
    exact Bool.false_ne_true
  free := by
    intro o ho hop
    rw [List.eq_of_mem_replicate ho]
    rfl
  reading := by
    intro o ho hr
    rw [List.eq_of_mem_replicate ho] at hr
    cases hr

theorem tied_reach {G : Pool Sessions Opener → Nat → Event → Prop} {seekFn : Bool} {n : Nat}
    {p : Pool Sessions Opener} (h : binding.Reach G (start seekFn n) p) :
    Tied p ∧ live.Reach AttachDiscipline (LiveThreads.start seekFn n) (view p) := by
  refine h.invariant (fun p => Tied p ∧
    live.Reach AttachDiscipline (LiveThreads.start seekFn n) (view p)) ⟨start_tied seekFn n, ?_⟩ ?_
  · have he : view (start seekFn n) = LiveThreads.start seekFn n := by
      simp [view, start, LiveThreads.start]
    rw [he]
    exact .refl
  · intro p i e q hp _ hs
    obtain ⟨hq, hf⟩ := tied_step hp.1 (sessionInv_reach hp.2) hs
    exact ⟨hq, hf.reach hp.2⟩

/-- What the opens have learned survives every step that does not replace the
session under them. -/
theorem agrees_step {p q : Pool Sessions Opener} {i : Nat} {e : Event} (h : Tied p)
    (ha : ∀ o ∈ p.threads, Agrees p.shared o.phase) (hg : Unraced p i e)
    (hs : binding.step p i e = some q) : ∀ o ∈ q.threads, Agrees q.shared o.phase := by
  obtain ⟨o, s', o', ho, hturn, rfl⟩ := binding_step hs
  have hm := List.mem_of_getElem? ho
  have hold := ha o hm
  cases openerTurn_move hturn with
  | @called e e' lv' t' ht hat hde hop hrd he =>
    obtain ⟨hs', _, _⟩ | ⟨c, rfl, hr, _, hb⟩ := after_cases ht hat hde
    · rw [hs']
      exact forall_step ho hold ha (by simp)
    · obtain rfl := he c rfl
      have hlv := (create_turn ht).1
      have hnone : ∀ u ∈ p.threads, u.phase = .closed := by
        intro u hu
        have h1 := hg (by rwa [hlv] at hb) u hu
        have h2 : ¬u.phase.isOpen = true := fun hx => by
          have hpos := h.refs_pos hu hx
          omega
        cases hph : u.phase with
        | closed => rfl
        | opened st => simp [hph, Phase.isOpen] at h2
        | _ => simp [hph, Phase.opening] at h1
      have hclosed : ∀ u ∈ p.threads, ∀ s, Agrees s u.phase := fun u hu s => by
        rw [hnone u hu]
        trivial
      exact forall_step ho (hclosed o hm _) (fun u hu => hclosed u hu _) (by simp)
  | checkId sid hc hf =>
    refine forall_step ho ?_ ha (by simp)
    show Agrees p.shared (if wsLiveCheckId p.shared.live sid then _ else _)
    split
    · rfl
    · trivial
  | getTotal asked hc =>
    refine forall_step ho ?_ ha (by simp)
    show Agrees p.shared (openSized p.shared asked)
    rw [hc] at hold
    unfold openSized
    split
    · trivial
    · rename_i hne
      refine ⟨hold, ?_⟩
      unfold wsLiveGetTotal at hne ⊢
      cases hact : p.shared.live.active with
      | false => simp [hact] at hne
      | true => exact h.size hact
  | attached asked total hc hact =>
    rw [hc] at hold
    exact forall_step ho ⟨hold.1, rfl, hold.2⟩ ha (by simp)
  | unattached asked total hc hact => exact forall_step ho trivial ha (by simp)
  | close st hc hf => exact forall_step ho trivial ha (by simp)

/-- The stream of every open that succeeded belongs to the session that was asked
for, and so does everything read through it. -/
def Binds (p : Pool Sessions Opener) : Prop :=
  (∀ o ∈ p.threads, ∀ st, o.phase = .opened st → BoundTo p.shared st) ∧
    ∀ i e q o st r n, binding.step p i e = some q → q.threads[i]? = some o →
      o.phase = .opened st → o.thread = .returned r n → Serves q.shared st r n

theorem answer_serves {p q : Pool Sessions Opener} {i : Nat} {e : Event} {o : Opener}
    {st : LiveStream} {r : ReadCall} {n : Int} (hr : ReaderInv (view p))
    (hq : SessionInv (view q)) (hc : q.shared.live.active = true → Content q.shared.live)
    (ha : ∀ o ∈ p.threads, Agrees p.shared o.phase) (hs : binding.step p i e = some q)
    (ho : q.threads[i]? = some o) (hph : o.phase = .opened st) (hth : o.thread = .returned r n) :
    Serves q.shared st r n := by
  obtain ⟨o₁, s', o', ho₁, hturn, rfl⟩ := binding_step hs
  have hm := List.mem_of_getElem? ho₁
  have hag := ha o₁ hm
  rw [getElem?_step ho₁] at ho
  obtain rfl := Option.some.inj ho
  cases openerTurn_move hturn with
  | @called e e' lv' t' ht hat hde hop hrd he =>
    obtain rfl : t' = .returned r n := hth
    have hph' : o₁.phase = .opened st := hph
    have hbuilt : (p.shared.after lv' e').built = st.asked := by
      rw [hph'] at hag
      obtain ⟨hs', _, _⟩ | ⟨c, rfl, _⟩ := after_cases ht hat hde
      · rw [hs']
        exact hag.1.symm
      · cases (create_turn ht).2
    have hans := turn_answer hr.session (hr.readers _ (List.mem_map_of_mem hm)) ht
    rw [← after_live p.shared lv' e'] at hans
    obtain hn | ⟨hn, _⟩ | hsv := hans
    · exact .inl hn
    · exact .inr ⟨hbuilt, fun k hk => by omega⟩
    · refine .inr ⟨hbuilt, fun k hk => ?_⟩
      have hcount := hsv.count
      exact hsv.stored (hq.session hsv.active) (hc hsv.active) (by omega)
  | checkId sid hcl hf =>
    simp only at hph
    split at hph <;> cases hph
  | getTotal asked hcl =>
    simp only [openSized] at hph
    split at hph <;> cases hph
  | attached => cases hth
  | unattached => cases hph
  | close => cases hph

theorem agrees_reach {seekFn : Bool} {n : Nat} {p : Pool Sessions Opener}
    (h : binding.Reach Unraced (start seekFn n) p) : ∀ o ∈ p.threads, Agrees p.shared o.phase := by
  refine (h.invariant (fun p => (Tied p ∧
    live.Reach AttachDiscipline (LiveThreads.start seekFn n) (view p)) ∧
      ∀ o ∈ p.threads, Agrees p.shared o.phase) ?_ ?_).2
  · refine ⟨tied_reach (G := Unraced) .refl, fun o ho => ?_⟩
    rw [List.eq_of_mem_replicate ho]
    trivial
  · intro p i e q ⟨⟨ht, hl⟩, ha⟩ hg hs
    obtain ⟨hq, hf⟩ := tied_step ht (sessionInv_reach hl) hs
    exact ⟨⟨hq, hf.reach hl⟩, agrees_step ht ha hg hs⟩

/-- As long as no session is built between the id check and the attach of an
open, every stream is bound to the session it was opened for. -/
theorem stream_bound {seekFn : Bool} {n : Nat} {p : Pool Sessions Opener}
    (h : binding.Reach Unraced (start seekFn n) p) : Binds p := by
  obtain ⟨ht, hl⟩ := tied_reach h
  have ha := agrees_reach h
  refine ⟨fun o ho st hph => ?_, fun i e q o st r n hs ho hph hth => ?_⟩
  · have hag := ha o ho
    rw [hph] at hag
    exact ⟨by rw [hag.2.2, hag.1], hag.2.1.trans hag.1.symm⟩
  · obtain ⟨_, hf⟩ := tied_step ht (sessionInv_reach hl) hs
    have hl' := hf.reach hl
    exact answer_serves (readerInv_reach hl) (sessionInv_reach hl') (content_reach hl') ha hs ho
      hph hth

/-- Two files, the second with the id `2`. -/
def firstFile : CreateCall := ⟨[97], 6 * SEG, 4, 24, [49], true⟩
def secondFile : CreateCall := ⟨[98], 3 * SEG, 4, 24, [50], true⟩

def Phase.stream : Phase → Option LiveStream
  | .opened st => some st
  | _ => none

theorem Phase.eq_of_stream {ph : Phase} {st : LiveStream} (h : ph.stream = some st) :
    ph = .opened st := by
  cases ph with
  | opened st' =>
    cases h
    rfl
  | _ => cases h

/-- The first open fails, its session was destroyed under it; the second succeeds
and a read through it serves its session. -/
theorem stream_bound_first :
    ∃ (p q : Pool Sessions Opener) (st : LiveStream) (r : ReadCall),
      binding.Reach Unraced (start false 2) p ∧
      binding.step p 1 (.live (.read 0 (fun _ => 0) 2 0)) = some q ∧ BoundTo p.shared st ∧
      st.total = 6 * SEG ∧ storedAt q.shared.live 1 = some (r.dst 1) := by
  have hv : ((binding.exec Unraced [(0, .live (.create firstFile)),
      (0, .live (.tryWrite 0 (fun k => UInt8.ofNat k) SEG)), (1, .checkId [49]), (1, .getTotal),
      (0, .live .abort), (0, .live .destroy), (1, .attach), (0, .live (.create firstFile)),
      (0, .live (.tryWrite 0 (fun k => UInt8.ofNat k) SEG)), (1, .checkId [49]), (1, .getTotal),
      (1, .attach)] (start false 2)).bind fun p =>
        (binding.step p 1 (.live (.read 0 (fun _ => 0) 2 0))).bind fun q =>
          (p.threads[1]?).bind fun o₀ => (q.threads[1]?).bind fun o =>
            o₀.phase.stream.bind fun st₀ => o.phase.stream.bind fun st =>
              (returnOf o.thread).map fun x =>
                (st₀.total, st₀.asked, st.asked, x.1.readStart, x.2)) =
      some (6 * SEG, 2, 2, 0, 2) := by
    rfl
  obtain ⟨p, hp, hv⟩ := Option.bind_eq_some_iff.mp hv
  obtain ⟨q, hq, hv⟩ := Option.bind_eq_some_iff.mp hv
  obtain ⟨o₀, ho₀, hv⟩ := Option.bind_eq_some_iff.mp hv
  obtain ⟨o, ho, hv⟩ := Option.bind_eq_some_iff.mp hv
  have hr : binding.Reach Unraced (start false 2) p := .of_exec hp
  have hb := stream_bound hr
  obtain ⟨st₀, h₀, hv⟩ := Option.bind_eq_some_iff.mp hv
  obtain ⟨st, h₁, hv⟩ := Option.bind_eq_some_iff.mp hv
  obtain ⟨⟨r, n⟩, h₂, hv⟩ := Option.map_eq_some_iff.mp hv
  simp only [Prod.mk.injEq] at hv
  obtain ⟨htotal, _, _, hstart, rfl⟩ := hv
  refine ⟨p, q, st₀, r, hr, hq, hb.1 o₀ (List.mem_of_getElem? ho₀) st₀ (Phase.eq_of_stream h₀), htotal,
    ?_⟩
  have hs := (hb.2 1 _ q o st r 2 hq ho (Phase.eq_of_stream h₁) (eq_of_returnOf h₂)).resolve_left
    (by decide)
  have h1 := hs.2 1 (by decide)
  rwa [hstart] at h1

/-- The session is replaced between the id check and the attach: the stream has
the size of the second file and keeps it alive under the id of the first. -/
theorem stream_bound_fails : ¬ ∀ (seekFn : Bool) (n : Nat) (p : Pool Sessions Opener),
    binding.Reach Anyhow (start seekFn n) p → Binds p := by
  intro h
  have hv : ((binding.exec Anyhow [(0, .live (.create firstFile)), (1, .checkId [49]),
      (0, .live .destroy), (0, .live (.create secondFile)), (1, .getTotal), (1, .attach)]
        (start false 2)).bind fun p => (p.threads[1]?).bind fun o =>
          o.phase.stream.map fun st => (st.asked, st.held, st.total, p.shared.totals st.asked)) =
      some (1, 2, 3 * SEG, 6 * SEG) := by
    rfl
  obtain ⟨p, hp, hv⟩ := Option.bind_eq_some_iff.mp hv
  obtain ⟨o, ho, hv⟩ := Option.bind_eq_some_iff.mp hv
  obtain ⟨st, hst, hv⟩ := Option.map_eq_some_iff.mp hv
  simp only [Prod.mk.injEq] at hv
  have hb := (h false 2 p (.of_exec hp)).1 o (List.mem_of_getElem? ho) st (Phase.eq_of_stream hst)
  have hheld := hb.held
  omega

end PkgManager.LiveBinding
