import PkgManager.UploadMoves

namespace PkgManager.UploadDisconnect

open Interleaving Machine Memory LiveSession LiveCalls InstallWorker ControlMessages UploadServer
  UploadThreads UploadMoves

/-- The session a connection joined last; its replies are newest first. -/
def lastReady : List Reply → Option Text
  | [] => none
  | .ready sid _ :: _ => some sid
  | _ :: replies => lastReady replies

/-- A finish message of the session was accepted on the connection. -/
def finished (sid : Text) : List Reply → Bool
  | [] => false
  | .complete :: replies => lastReady replies = some sid || finished sid replies
  | _ :: replies => finished sid replies

/-- A connection on which a finish message was accepted joins no other session. -/
def joinsOnce (p : Pool World Thread) (i : Nat) (e : Event) : Bool :=
  match p.threads[i]?, e with
  | some (.conn ⟨_, .granted sid, _, _, _, _, replies, _⟩), .conn .go =>
    !replies.contains .complete || finished sid replies
  | _, _ => true

/-! The steps a thread that ends the session has in front of it. -/

def teardownLeft : Teardown → Nat
  | .abort => 3
  | .stop => 2
  | .destroy => 1

def sessionLeft : SessionEnd → Nat
  | .uplink => 3
  | .abort => 2
  | .destroy => 1

def uploadLeft : EndPc → Nat
  | .cancel => 5
  | .probe => 4
  | .release _ t => teardownLeft t
  | .session e => sessionLeft e

def endsIn (s : World) : Thread → Option Nat
  | .conn c =>
    match c.pc with
    | .done => if s.uplink = some c.fd ∧ c.authorized ∧ !c.finishReceived then some 6 else none
    | .cancel e => some (sessionLeft e)
    | .ending pc => some (uploadLeft pc)
    | _ => none
  | .rest (.drop e) => some (sessionLeft e)
  | .rest (.ending _ pc) => some (uploadLeft pc)
  | _ => none

/-- Until the session is gone a thread is ending it, and can go on: after each of its own
steps the session is gone or the thread has fewer steps to go. -/
def Canceling (p : Pool World Thread) : Prop :=
  p.shared.live.active = true → ∃ i t n, p.threads[i]? = some t ∧ endsIn p.shared t = some n ∧
    (∃ e q, uploads.step p i e = some q) ∧
    ∀ e q, uploads.step p i e = some q → q.shared.live.active = true →
      ∃ t' m, q.threads[i]? = some t' ∧ endsIn q.shared t' = some m ∧ m < n

/-- In every run that goes on while the session is active, the session is being canceled. -/
def Canceled (p : Pool World Thread) : Prop :=
  ∀ q, Reach uploads (fun r _ _ => r.shared.live.active = true) p q → Canceling q

/-! What a connection remembers. -/

structure Logged (c : Conn) : Prop where
  ready : c.authorized = true → lastReady c.replies = some c.authorizedSid
  finish : c.finishReceived = true → finished c.authorizedSid c.replies = true
  asked : c.pc = .finish → c.authorized = true

theorem complete_of_finished {sid : Text} {replies : List Reply}
    (h : finished sid replies = true) : .complete ∈ replies := by
  induction replies with
  | nil => cases h
  | cons r replies ih =>
    cases r with
    | complete => exact List.mem_cons_self
    | _ => exact List.mem_cons_of_mem _ (ih h)

/-- A reply that neither joins nor completes a session. -/
def plain : Reply → Bool
  | .ready _ _ => false
  | .complete => false
  | _ => true

theorem lastReady_plain {r : Reply} (h : plain r = true) (replies : List Reply) :
    lastReady (r :: replies) = lastReady replies := by
  cases r with
  | ready => cases h
  | complete => cases h
  | _ => rfl

theorem finished_plain {r : Reply} (h : plain r = true) (sid : Text) (replies : List Reply) :
    finished sid (r :: replies) = finished sid replies := by
  cases r with
  | ready => cases h
  | complete => cases h
  | _ => rfl

/-- The connection goes on with what it remembers. -/
theorem Logged.same {c c' : Conn} (h : Logged c) (ha : c'.authorized = c.authorized)
    (hs : c'.authorizedSid = c.authorizedSid) (hf : c'.finishReceived = c.finishReceived)
    (hr : c'.replies = c.replies) (hp : c'.pc = .finish → c.authorized = true) : Logged c' := by
  refine ⟨?_, ?_, ?_⟩
  · rw [ha, hs, hr]
    exact h.ready
  · rw [hf, hs, hr]
    exact h.finish
  · rw [ha]
    exact hp

theorem Logged.at {c : Conn} (h : Logged c) {pc : ConnPc} (hp : pc = .finish → c.authorized = true) :
    Logged (c.at pc) := h.same rfl rfl rfl rfl hp

theorem Logged.reply {c : Conn} (h : Logged c) {r : Reply} (hr : plain r = true) :
    Logged (c.reply r) := by
  refine ⟨fun ha => ?_, fun hf => ?_, nofun⟩
  · exact (lastReady_plain hr c.replies).trans (h.ready ha)
  · exact (finished_plain hr c.authorizedSid c.replies).trans (h.finish hf)

theorem Logged.present {c : Conn} (h : Logged c) (m : Init) : Logged ((c.present m).at (.init m)) := by
  unfold Conn.present
  split <;> exact h.same rfl rfl rfl rfl nofun

theorem handleTextMsg_logged (s : World) {c : Conn} (h : Logged c) (hpc : c.pc = .reading)
    (msg : Text) : Logged (handleTextMsg s c msg) := by
  unfold handleTextMsg
  split
  · exact h.reply rfl
  · split
    · split
      · exact h.reply rfl
      · exact h.present _
    · split
      · exact h
      · exact h.reply rfl
    · split <;> exact h.reply rfl
    · exact h.reply rfl
    · split
      · rename_i hmay
        exact h.at fun _ => (Bool.and_eq_true_iff.mp hmay).1
      · exact h.reply rfl
    · split
      · exact h.at nofun
      · exact h.reply rfl
    · split
      · refine h.same rfl rfl rfl rfl fun hfin => ?_
        exact absurd (hpc.symm.trans hfin) nofun
      · exact h.reply rfl
    · exact h.reply rfl

theorem answer_logged {c : Conn} (h : Logged c) (seg : Nat) (r : Int) : Logged (answer c seg r) := by
  have hplain : plain (if r = 0 then .ack seg else if r = -2 then .busy seg else .error .rejected)
      = true := by
    split
    · rfl
    · split <;> rfl
  exact (h.reply hplain).same rfl rfl rfl rfl nofun

theorem rejectSegment_logged {c : Conn} (h : Logged c) : Logged (rejectSegment c) :=
  (h.reply (r := .error .badSegment) rfl).same rfl rfl rfl rfl nofun

theorem granted_logged {c : Conn} (h : Logged c) {sid : Text} (offset : Nat)
    (hjoin : .complete ∈ c.replies → finished sid c.replies = true) :
    Logged { c.reply (.ready sid offset) with authorized := true, authorizedSid := sid } :=
  ⟨fun _ => rfl, fun hf => hjoin (complete_of_finished (h.finish hf)), nofun⟩

theorem complete_logged {c : Conn} (h : Logged c) (hpc : c.pc = .finish) :
    Logged { c.reply .complete with finishReceived := true } := by
  have hready := h.ready (h.asked hpc)
  refine ⟨fun _ => hready, fun _ => ?_, nofun⟩
  show (decide (lastReady c.replies = some c.authorizedSid) || _) = true
  rw [hready, decide_eq_true rfl, Bool.true_or]

theorem connGo_logged {s s' : World} {c c' : Conn} (h : Logged c)
    (hjoin : ∀ sid, c.pc = .granted sid → .complete ∈ c.replies → finished sid c.replies = true)
    (hgo : connGo s c = some (s', c')) : Logged c' := by
  unfold connGo at hgo
  split at hgo
  · split at hgo <;> cases hgo
    refine h.at ?_
    split <;> exact nofun
  · split at hgo
    · cases hgo
    · split at hgo <;> cases hgo
      · split
        · exact h.at nofun
        · exact h.reply rfl
      · exact h.reply rfl
  · split at hgo <;> cases hgo
    split
    · exact h.at nofun
    · exact h.reply rfl
  · split at hgo <;> cases hgo
    · exact h.reply rfl
    · exact h.at nofun
  · rename_i sid hpc
    cases hgo
    exact granted_logged h _ (hjoin sid hpc)
  · rename_i hpc
    cases hgo
    split
    · exact complete_logged h hpc
    · exact h.reply rfl
  · rename_i e _
    cases hs : cancelSession s e with
    | mk s₁ next =>
      rw [hs] at hgo
      cases next <;> cases hgo
      · exact h.reply rfl
      · exact h.at nofun
  · cases hgo
    exact h.at nofun
  · cases hgo
    split
    · exact h.at nofun
    · exact rejectSegment_logged h
  · cases hgo
    split
    · exact h.at nofun
    · exact rejectSegment_logged h
  · cases hgo
    exact answer_logged h _ _
  · split at hgo <;> cases hgo
    · refine h.at ?_
      split <;> exact nofun
    · exact h.at nofun
  · rename_i pc _
    cases hs : endUpload true s pc with
    | mk s₁ next =>
      rw [hs] at hgo
      cases next <;> cases hgo <;> exact h.at nofun
  · cases hgo

theorem connTurn_logged {s s' : World} {c c' : Conn} {e : ConnEvent} (h : Logged c)
    (hjoin : ∀ sid, e = .go → c.pc = .granted sid → .complete ∈ c.replies →
      finished sid c.replies = true)
    (ht : connTurn s c e = some (s', c')) : Logged c' := by
  cases e with
  | go => exact connGo_logged h (fun sid => hjoin sid rfl) ht
  | text msg =>
    simp only [connTurn] at ht
    split at ht <;> cases ht
    exact handleTextMsg_logged s h (by assumption) msg
  | binary data len =>
    simp only [connTurn] at ht
    split at ht <;> cases ht
    refine h.at ?_
    split <;> (intro hpc; cases hpc)
  | create cfgSlots sid allocOk =>
    simp only [connTurn] at ht
    split at ht <;> cases ht
    split
    · exact h.at fun hpc => by cases hpc
    · split <;> exact h.reply rfl
  | disconnect =>
    simp only [connTurn] at ht
    split at ht <;> cases ht
    exact h.at fun hpc => by cases hpc

theorem logged_step {p q : Pool World Thread} {i : Nat} {e : Event}
    (h : ∀ t ∈ p.threads, OnConn Logged t) (hg : joinsOnce p i e = true)
    (hs : uploads.step p i e = some q) : ∀ t ∈ q.threads, OnConn Logged t := by
  obtain ⟨t, t', new, ht, hturn, hthreads⟩ := uploads_step hs
  have hnone : ∀ u ∈ ([] : List Thread), OnConn Logged u := fun _ hu => absurd hu List.not_mem_nil
  rw [hthreads]
  rcases turn_cases hturn with hk | ⟨pc, pc', re, rfl, rfl, rfl, rfl, hr⟩ |
      ⟨c, c', ce, rfl, rfl, rfl, rfl, hc⟩
  · exact forall_step ht (hk.after _) h (hk.new _ ⟨nofun, nofun, nofun⟩)
  · exact forall_step ht trivial h hnone
  · have hown : Logged c := h _ (List.mem_of_getElem? ht)
    refine forall_step ht (connTurn_logged hown (fun sid hgo hpc hmem => ?_) hc) h hnone
    obtain ⟨fd, pc, pending, authorized, asid, finish, replies, presented⟩ := c
    cases hpc
    cases hgo
    simp only [joinsOnce, ht, Bool.or_eq_true, Bool.not_eq_true', List.contains_eq_mem,
      decide_eq_false_iff_not] at hg
    exact hg.resolve_left fun hno => hno hmem

/-! Sockets are told apart. -/

def connFd : Thread → Option Nat
  | .conn c => some c.fd
  | _ => none

structure Sockets (p : Pool World Thread) : Prop where
  accepted : ∀ t ∈ p.threads, ∀ fd, connFd t = some fd → fd < p.shared.accepted
  distinct : p.threads.Pairwise fun t u => ∀ fd, connFd t = some fd → connFd u ≠ some fd

theorem connGo_fd {s s' : World} {c c' : Conn} (h : connGo s c = some (s', c')) :
    c'.fd = c.fd ∧ s'.accepted = s.accepted := by
  unfold connGo at h
  split at h
  · split at h <;> cases h
    exact ⟨rfl, rfl⟩
  · split at h
    · cases h
    · split at h <;> cases h
      · split <;> exact ⟨rfl, rfl⟩
      · exact ⟨rfl, rfl⟩
  · split at h <;> cases h
    split <;> exact ⟨rfl, rfl⟩
  · split at h <;> cases h <;> exact ⟨rfl, rfl⟩
  · cases h
    exact ⟨rfl, rfl⟩
  · cases h
    split <;> exact ⟨rfl, rfl⟩
  · rename_i e _
    cases e <;> cases h <;> exact ⟨rfl, rfl⟩
  · cases h
    exact ⟨rfl, rfl⟩
  · cases h
    split <;> exact ⟨rfl, rfl⟩
  · cases h
    split <;> exact ⟨rfl, rfl⟩
  · cases h
    exact ⟨rfl, rfl⟩
  · split at h <;> cases h <;> exact ⟨rfl, rfl⟩
  · rename_i pc _
    have hacc : (endUpload true s pc).1.accepted = s.accepted := by
      cases pc with
      | session e => cases e <;> rfl
      | _ => rfl
    cases hs : endUpload true s pc with
    | mk s₁ next =>
      rw [hs] at h hacc
      cases next <;> cases h <;> exact ⟨rfl, hacc⟩
  · cases h

theorem handleTextMsg_fd (s : World) (c : Conn) (msg : Text) : (handleTextMsg s c msg).fd = c.fd := by
  unfold handleTextMsg Conn.present
  (repeat' split) <;> rfl

theorem initSession_accepted (s : World) (c : CreateCall) :
    (initSession s c).1.accepted = s.accepted := rfl

theorem connTurn_fd {s s' : World} {c c' : Conn} {e : ConnEvent}
    (h : connTurn s c e = some (s', c')) : c'.fd = c.fd ∧ s'.accepted = s.accepted := by
  cases e with
  | go => exact connGo_fd h
  | text msg =>
    simp only [connTurn] at h
    split at h <;> cases h
    exact ⟨handleTextMsg_fd s c msg, rfl⟩
  | create cfgSlots sid allocOk =>
    simp only [connTurn] at h
    split at h <;> cases h
    refine ⟨?_, initSession_accepted _ _⟩
    split <;> rfl
  | _ =>
    simp only [connTurn] at h
    split at h <;> cases h
    exact ⟨rfl, rfl⟩

theorem cancelSession_accepted (s : World) (e : SessionEnd) :
    (cancelSession s e).1.accepted = s.accepted := by
  cases e <;> rfl

theorem endUpload_accepted (onlyActive : Bool) (s : World) (pc : EndPc) :
    (endUpload onlyActive s pc).1.accepted = s.accepted := by
  cases pc with
  | session e => exact cancelSession_accepted s e
  | _ => rfl

theorem restTurn_accepted {s s' : World} {pc pc' : RestPc} {e : RestEvent}
    (h : restTurn s pc e = some (s', pc')) : s'.accepted = s.accepted := by
  have hrequest : ∀ {e}, request s e = some (s', pc') → s'.accepted = s.accepted := by
    intro e hr
    cases e <;> cases hr <;> rfl
  unfold restTurn at h
  split at h
  · exact hrequest h
  · exact hrequest h
  · split at h <;> cases h
    rfl
  · cases h
    rfl
  · rename_i c resuming cfgSlots sid allocOk
    have hacc : (createOwned s c resuming cfgSlots sid allocOk).1.accepted = s.accepted := by
      unfold createOwned
      simp only
      split <;> rfl
    rw [Option.some.inj h] at hacc
    exact hacc
  · cases h
    rfl
  · rename_i e
    have hacc := cancelSession_accepted s e
    cases hc : cancelSession s e with
    | mk s₁ next =>
      rw [hc] at h hacc
      cases next <;> cases h <;> exact hacc
  · split at h
    · cases h
    · split at h <;> cases h <;> rfl
  · rename_i sid pc
    have hacc := endUpload_accepted false s pc
    cases hc : endUpload false s pc with
    | mk s₁ next =>
      rw [hc] at h hacc
      cases next <;> cases h <;> exact hacc
  · cases h

/-- A connection keeps its socket; the only new one comes from the listener. -/
theorem turn_fd {s s' : World} {t t' : Thread} {e : Event} {new : List Thread}
    (h : turn s t e = some (s', t', new)) :
    connFd t' = connFd t ∧ ((s'.accepted = s.accepted ∧ ∀ u ∈ new, connFd u = none) ∨
      (s'.accepted = s.accepted + 1 ∧ new = [.conn (newConn s.accepted)])) := by
  have hnone : ∀ u ∈ ([] : List Thread), connFd u = none := fun _ hu => absurd hu List.not_mem_nil
  cases e with
  | install e =>
    cases t with
    | install t canceled =>
      obtain ⟨⟨site, t₁, new₁⟩, hturn, he⟩ := Option.map_eq_some_iff.mp h
      cases he
      refine ⟨rfl, .inl ⟨rfl, fun u hu => ?_⟩⟩
      obtain ⟨_, _, rfl⟩ := List.mem_map.mp hu
      rfl
    | _ => cases h
  | rest e =>
    cases t with
    | rest pc =>
      obtain ⟨⟨s₁, pc'⟩, hturn, he⟩ := Option.map_eq_some_iff.mp h
      cases he
      exact ⟨rfl, .inl ⟨restTurn_accepted hturn, hnone⟩⟩
    | _ => cases h
  | conn e =>
    cases t with
    | conn c =>
      obtain ⟨⟨s₁, c'⟩, hturn, he⟩ := Option.map_eq_some_iff.mp h
      cases he
      obtain ⟨hfd, hacc⟩ := connTurn_fd hturn
      exact ⟨congrArg some hfd, .inl ⟨hacc, hnone⟩⟩
    | _ => cases h
  | accept =>
    cases t with
    | listener =>
      cases h
      exact ⟨rfl, .inr ⟨rfl, rfl⟩⟩
    | _ => cases h
  | reader e =>
    cases t with
    | reader t =>
      simp only [turn] at h
      split at h
      · obtain ⟨⟨lv, t₁⟩, hturn, he⟩ := Option.map_eq_some_iff.mp h
        cases he
        exact ⟨rfl, .inl ⟨rfl, hnone⟩⟩
      · cases h
    | _ => cases h

theorem sockets_start (seekFn : Bool) (installs requests readers : Nat) :
    Sockets (start seekFn installs requests readers) := by
  have hnone : ∀ t ∈ (start seekFn installs requests readers).threads, connFd t = none := by
    intro t ht
    simp only [start, List.mem_append, List.mem_replicate, List.mem_singleton] at ht
    rcases ht with ((⟨_, rfl⟩ | ⟨_, rfl⟩) | ⟨_, rfl⟩) | rfl <;> rfl
  refine ⟨fun t ht fd hfd => ?_, List.pairwise_of_forall_mem_list fun t ht u _ fd hfd => ?_⟩
  · rw [hnone t ht] at hfd
    cases hfd
  · rw [hnone t ht] at hfd
    cases hfd

theorem sockets_step {p q : Pool World Thread} {i : Nat} {e : Event} (h : Sockets p)
    (hs : uploads.step p i e = some q) : Sockets q := by
  obtain ⟨t, t', new, ht, hturn, hthreads⟩ := uploads_step hs
  obtain ⟨hfd, hnew⟩ := turn_fd hturn
  have hle : p.shared.accepted ≤ q.shared.accepted := by
    rcases hnew with ⟨hacc, _⟩ | ⟨hacc, _⟩
    · exact hacc.ge
    · exact hacc ▸ Nat.le_succ _
  have hold : ∀ u ∈ p.threads.set i t', ∀ fd, connFd u = some fd → fd < p.shared.accepted := by
    intro u hu fd hu'
    rcases List.mem_or_eq_of_mem_set hu with hu | rfl
    · exact h.accepted u hu fd hu'
    · exact h.accepted t (List.mem_of_getElem? ht) fd (hfd ▸ hu')
  have hset : (p.threads.set i t').Pairwise fun t u => ∀ fd, connFd t = some fd → connFd u ≠ some fd := by
    have hmap : (p.threads.set i t').map connFd = p.threads.map connFd := by
      rw [List.map_set, hfd]
      obtain ⟨hlt, rfl⟩ := List.getElem?_eq_some_iff.mp ht
      rw [← List.getElem_map connFd (h := by simpa using hlt), List.set_getElem_self]
    have hpair := (List.pairwise_map (f := connFd)
      (R := fun a b => ∀ fd, a = some fd → b ≠ some fd)).mpr h.distinct
    rw [← hmap] at hpair
    exact List.pairwise_map.mp hpair
  refine ⟨fun u hu fd hu' => ?_, ?_⟩
  · rw [hthreads] at hu
    rcases List.mem_append.mp hu with hu | hu
    · exact (hold u hu fd hu').trans_le hle
    · rcases hnew with ⟨_, hno⟩ | ⟨hacc, rfl⟩
      · rw [hno u hu] at hu'
        cases hu'
      · obtain rfl := List.mem_singleton.mp hu
        obtain rfl := Option.some.inj hu'
        exact hacc ▸ Nat.lt_succ_self _
  · rw [hthreads]
    refine List.pairwise_append.mpr ⟨hset, ?_, fun u hu v hv fd hu' => ?_⟩
    · rcases hnew with ⟨_, hno⟩ | ⟨_, rfl⟩
      · refine List.pairwise_of_forall_mem_list fun u hu v _ fd hu' => ?_
        rw [hno u hu] at hu'
        cases hu'
      · exact List.pairwise_singleton _ _
    · rcases hnew with ⟨_, hno⟩ | ⟨_, rfl⟩
      · rw [hno v hv]
        exact nofun
      · obtain rfl := List.mem_singleton.mp hv
        intro hv'
        obtain rfl := Option.some.inj hv'
        exact absurd (hold u hu _ hu') (Nat.lt_irrefl _)

/-! What a step does to a thread that ends the session. -/

theorem destroy_idle (lv : Live) : (wsLiveDestroy lv).active = false := by
  cases ha : lv.active with
  | false => simp only [wsLiveDestroy, ha, Bool.not_false, if_true]
  | true => exact (LiveSound.destroy_inactive lv ha).1

theorem cancelSession_left {s s' : World} {e : SessionEnd} {next : Option SessionEnd}
    (h : cancelSession s e = (s', next)) (hact : s'.live.active = true) :
    ∃ e', next = some e' ∧ sessionLeft e' < sessionLeft e := by
  cases e with
  | uplink =>
    cases h
    exact ⟨.abort, rfl, by decide⟩
  | abort =>
    cases h
    exact ⟨.destroy, rfl, by decide⟩
  | destroy =>
    cases h
    exact absurd ((destroy_idle s.live).symm.trans hact) Bool.false_ne_true

theorem endUpload_left {onlyActive : Bool} {s s' : World} {pc : EndPc} {next : Option EndPc}
    (h : endUpload onlyActive s pc = (s', next)) (hact : s'.live.active = true) :
    ∃ pc', next = some pc' ∧ uploadLeft pc' < uploadLeft pc := by
  cases pc with
  | cancel =>
    cases h
    refine ⟨_, rfl, ?_⟩
    split
    · show 3 < 5
      decide
    · split
      · show 4 < 5
        decide
      · show 3 < 5
        decide
  | release canceled t =>
    cases t with
    | abort =>
      cases h
      exact ⟨.release canceled .stop, rfl, Nat.lt_succ_self 2⟩
    | stop =>
      cases h
      exact ⟨.release canceled .destroy, rfl, Nat.lt_succ_self 1⟩
    | destroy =>
      cases h
      exact absurd ((destroy_idle s.live).symm.trans hact) Bool.false_ne_true
  | probe =>
    cases h
    exact ⟨.session .uplink, if_pos hact, by decide⟩
  | session e =>
    cases hc : cancelSession s e with
    | mk s₁ next₁ =>
      simp only [endUpload, hc] at h
      cases h
      obtain ⟨e', rfl, hlt⟩ := cancelSession_left hc hact
      exact ⟨.session e', rfl, hlt⟩

theorem restTurn_ends {s s' : World} {pc pc' : RestPc} {e : RestEvent} {n : Nat}
    (hn : endsIn s (.rest pc) = some n) (h : restTurn s pc e = some (s', pc'))
    (hact : s'.live.active = true) : ∃ m, endsIn s' (.rest pc') = some m ∧ m < n := by
  cases pc with
  | drop pc =>
    obtain rfl := Option.some.inj hn
    cases e with
    | go =>
      simp only [restTurn] at h
      cases hc : cancelSession s pc with
      | mk s₁ next =>
        rw [hc] at h
        cases next <;> cases h <;> obtain ⟨_, ⟨⟩, hlt⟩ := cancelSession_left hc hact
        exact ⟨_, rfl, hlt⟩
    | _ => cases h
  | ending sid pc =>
    obtain rfl := Option.some.inj hn
    cases e with
    | go =>
      simp only [restTurn] at h
      cases hc : endUpload false s pc with
      | mk s₁ next =>
        rw [hc] at h
        cases next <;> cases h <;> obtain ⟨_, ⟨⟩, hlt⟩ := endUpload_left hc hact
        exact ⟨_, rfl, hlt⟩
    | _ => cases h
  | _ => cases hn

theorem connTurn_ends {s s' : World} {c c' : Conn} {e : ConnEvent} {n : Nat}
    (hn : endsIn s (.conn c) = some n) (h : connTurn s c e = some (s', c'))
    (hact : s'.live.active = true) : ∃ m, endsIn s' (.conn c') = some m ∧ m < n := by
  obtain ⟨fd, pc, pending, authorized, sid, finish, replies, presented⟩ := c
  cases pc with
  | done =>
    simp only [endsIn] at hn
    split at hn
    · rename_i hup
      cases hn
      cases e with
      | go =>
        simp only [connTurn, connGo] at h
        rw [if_pos hup.1, if_pos (Bool.and_eq_true_iff.mpr hup.2)] at h
        cases h
        exact ⟨5, rfl, by decide⟩
      | _ => cases h
    · cases hn
  | cancel pc =>
    obtain rfl := Option.some.inj hn
    cases e with
    | go =>
      simp only [connTurn, connGo] at h
      cases hc : cancelSession s pc with
      | mk s₁ next =>
        rw [hc] at h
        cases next <;> cases h <;> obtain ⟨_, ⟨⟩, hlt⟩ := cancelSession_left hc hact
        exact ⟨_, rfl, hlt⟩
    | _ => cases h
  | ending pc =>
    obtain rfl := Option.some.inj hn
    cases e with
    | go =>
      simp only [connTurn, connGo] at h
      cases hc : endUpload true s pc with
      | mk s₁ next =>
        rw [hc] at h
        cases next <;> cases h <;> obtain ⟨_, ⟨⟩, hlt⟩ := endUpload_left hc hact
        exact ⟨_, rfl, hlt⟩
    | _ => cases h
  | _ => cases hn

/-- A thread that ends the session goes on ending it until it is gone. -/
theorem own_ends {s s' : World} {t t' : Thread} {e : Event} {new : List Thread} {n : Nat}
    (hn : endsIn s t = some n) (h : turn s t e = some (s', t', new)) (hact : s'.live.active = true) :
    ∃ m, endsIn s' t' = some m ∧ m < n := by
  cases t with
  | rest pc =>
    cases e with
    | rest e =>
      obtain ⟨⟨s₁, pc'⟩, hturn, he⟩ := Option.map_eq_some_iff.mp h
      cases he
      exact restTurn_ends hn hturn hact
    | _ => cases h
  | conn c =>
    cases e with
    | conn e =>
      obtain ⟨⟨s₁, c'⟩, hturn, he⟩ := Option.map_eq_some_iff.mp h
      cases he
      exact connTurn_ends hn hturn hact
    | _ => cases h
  | _ => cases hn

/-- It waits for nothing. -/
theorem ends_enabled {p : Pool World Thread} {i : Nat} {t : Thread} {n : Nat}
    (ht : p.threads[i]? = some t) (hn : endsIn p.shared t = some n) :
    ∃ e q, uploads.step p i e = some q := by
  have henabled : ∀ e r, turn p.shared t e = some r → ∃ e q, uploads.step p i e = some q := by
    intro e r hturn
    refine ⟨e, ⟨r.1, p.threads.set i r.2.1 ++ r.2.2⟩, ?_⟩
    simp only [step, ht, uploads, hturn, Option.map_some]
  have hsome : ∀ {s : World} {pc : RestPc} {r}, restTurn s pc .go = some r →
      turn s (.rest pc) (.rest .go) = some (r.1, .rest r.2, []) := by
    intro s pc r h
    simp only [turn, h, Option.map_some]
  have hconn : ∀ {s : World} {c : Conn} {r}, connGo s c = some r →
      turn s (.conn c) (.conn .go) = some (r.1, .conn r.2, []) := by
    intro s c r h
    simp only [turn, connTurn, h, Option.map_some]
  cases t with
  | rest pc =>
    cases pc with
    | drop pc => cases pc <;> exact henabled _ _ (hsome rfl)
    | ending sid pc =>
      cases hc : endUpload false p.shared pc with
      | mk s₁ next =>
        cases next with
        | some pc' =>
          refine henabled _ _ (hsome (r := (s₁, .ending sid pc')) ?_)
          simp only [restTurn, hc]
        | none =>
          refine henabled _ _ (hsome (r := ({ s₁ with ownerMu := false }, .returned 0)) ?_)
          simp only [restTurn, hc]
    | _ => cases hn
  | conn c =>
    obtain ⟨fd, pc, pending, authorized, sid, finish, replies, presented⟩ := c
    cases pc with
    | done =>
      by_cases hup : p.shared.uplink = some fd
      · exact henabled _ _ (hconn (if_pos hup))
      · exact henabled _ _ (hconn (if_neg hup))
    | cancel pc => cases pc <;> exact henabled _ _ (hconn rfl)
    | ending pc =>
      cases hc : endUpload true p.shared pc with
      | mk s₁ next =>
        cases next with
        | some pc' =>
          refine henabled _ _ (hconn (r := (s₁, ⟨fd, .ending pc', pending, authorized, sid, finish,
            replies, presented⟩)) ?_)
          simp only [connGo, hc, Conn.at]
        | none =>
          refine henabled _ _ (hconn (r := (s₁, ⟨fd, .closed, pending, authorized, sid, finish,
            replies, presented⟩)) ?_)
          simp only [connGo, hc, Conn.at]
    | _ => cases hn
  | _ => cases hn

theorem cancelSession_uplink (s : World) (e : SessionEnd) :
    (cancelSession s e).1.uplink = s.uplink ∨ (cancelSession s e).2 = some .abort := by
  cases e with
  | uplink => exact .inr rfl
  | _ => exact .inl rfl

theorem endUpload_uplink (onlyActive : Bool) (s : World) (pc : EndPc) :
    (endUpload onlyActive s pc).1.uplink = s.uplink ∨
      (endUpload onlyActive s pc).2 = some (.session .abort) := by
  cases pc with
  | session e =>
    rcases cancelSession_uplink s e with hup | hnext
    · exact .inl hup
    · refine .inr ?_
      show (cancelSession s e).2.map EndPc.session = _
      rw [hnext]
      rfl
  | _ => exact .inl rfl

theorem restTurn_uplink {s s' : World} {pc pc' : RestPc} {e : RestEvent}
    (h : restTurn s pc e = some (s', pc')) :
    s'.uplink = s.uplink ∨ ∃ n, endsIn s' (.rest pc') = some n := by
  have hrequest : ∀ {e}, request s e = some (s', pc') → s'.uplink = s.uplink := by
    intro e hr
    cases e <;> cases hr <;> rfl
  unfold restTurn at h
  split at h
  · exact .inl (hrequest h)
  · exact .inl (hrequest h)
  · split at h <;> cases h
    exact .inl rfl
  · cases h
    exact .inl rfl
  · rename_i c resuming cfgSlots sid allocOk
    left
    have hup : (createOwned s c resuming cfgSlots sid allocOk).1.uplink = s.uplink := by
      unfold createOwned
      simp only
      split <;> rfl
    rw [Option.some.inj h] at hup
    exact hup
  · cases h
    exact .inl rfl
  · rename_i e
    have hup := cancelSession_uplink s e
    cases hc : cancelSession s e with
    | mk s₁ next =>
      rw [hc] at h hup
      cases next with
      | some e' =>
        cases h
        exact .inr ⟨_, rfl⟩
      | none =>
        cases h
        exact .inl (hup.resolve_right nofun)
  · split at h
    · cases h
    · split at h <;> cases h <;> exact .inl rfl
  · rename_i sid pc
    have hup := endUpload_uplink false s pc
    cases hc : endUpload false s pc with
    | mk s₁ next =>
      rw [hc] at h hup
      cases next with
      | some pc' =>
        cases h
        exact .inr ⟨_, rfl⟩
      | none =>
        cases h
        exact .inl (hup.resolve_right nofun)
  · cases h

theorem connGo_uplink {s s' : World} {c c' : Conn} {fd : Nat} (hup : s.uplink = some fd)
    (hfd : c.fd ≠ fd) (h : connGo s c = some (s', c')) :
    s'.uplink = s.uplink ∨ ∃ n, endsIn s' (.conn c') = some n := by
  unfold connGo at h
  split at h
  · split at h <;> cases h
    exact .inl rfl
  · split at h
    · cases h
    · split at h <;> cases h <;> exact .inl rfl
  · split at h <;> cases h
    exact .inl rfl
  · split at h
    · cases h
      exact .inl rfl
    · rename_i htaken
      exact absurd ⟨by rw [hup]; exact nofun, fun he => hfd (Option.some.inj (he.symm.trans hup))⟩ htaken
  · cases h
    exact .inl rfl
  · cases h
    exact .inl rfl
  · rename_i e _
    have hkept := cancelSession_uplink s e
    cases hc : cancelSession s e with
    | mk s₁ next =>
      rw [hc] at h hkept
      cases next with
      | some e' =>
        cases h
        exact .inr ⟨_, rfl⟩
      | none =>
        cases h
        exact .inl (hkept.resolve_right nofun)
  · cases h
    exact .inl rfl
  · cases h
    exact .inl rfl
  · cases h
    exact .inl rfl
  · cases h
    exact .inl rfl
  · split at h
    · rename_i hmine
      exact absurd (Option.some.inj (hmine.symm.trans hup)) hfd
    · cases h
      exact .inl rfl
  · rename_i pc _
    have hkept := endUpload_uplink true s pc
    cases hc : endUpload true s pc with
    | mk s₁ next =>
      rw [hc] at h hkept
      cases next with
      | some pc' =>
        cases h
        exact .inr ⟨_, rfl⟩
      | none =>
        cases h
        exact .inl (hkept.resolve_right nofun)
  · cases h

/-- The uplink is taken from its socket by a thread that ends the session. -/
theorem turn_uplink {s s' : World} {t t' : Thread} {e : Event} {new : List Thread} {fd : Nat}
    (hup : s.uplink = some fd) (hfd : connFd t ≠ some fd) (h : turn s t e = some (s', t', new)) :
    s'.uplink = some fd ∨ ∃ n, endsIn s' t' = some n := by
  rw [← hup]
  cases e with
  | install e =>
    cases t with
    | install t canceled =>
      obtain ⟨⟨site, t₁, new₁⟩, _, he⟩ := Option.map_eq_some_iff.mp h
      cases he
      exact .inl rfl
    | _ => cases h
  | rest e =>
    cases t with
    | rest pc =>
      obtain ⟨⟨s₁, pc'⟩, hturn, he⟩ := Option.map_eq_some_iff.mp h
      cases he
      exact restTurn_uplink hturn
    | _ => cases h
  | conn e =>
    cases t with
    | conn c =>
      obtain ⟨⟨s₁, c'⟩, hturn, he⟩ := Option.map_eq_some_iff.mp h
      cases he
      cases e with
      | go => exact connGo_uplink hup (fun he => hfd (congrArg some he)) hturn
      | _ =>
        simp only [connTurn] at hturn
        split at hturn <;> cases hturn
        exact .inl rfl
    | _ => cases h
  | accept =>
    cases t with
    | listener =>
      cases h
      exact .inl rfl
    | _ => cases h
  | reader e =>
    cases t with
    | reader t =>
      simp only [turn] at h
      split at h
      · obtain ⟨⟨lv, t₁⟩, _, he⟩ := Option.map_eq_some_iff.mp h
        cases he
        exact .inl rfl
      · cases h
    | _ => cases h

/-- A thread that ends the session is kept from it only by another one that does. -/
theorem ends_other {s s' : World} {t t' u : Thread} {e : Event} {new : List Thread} {n : Nat}
    (hn : endsIn s u = some n) (hfd : ∀ fd, connFd u = some fd → connFd t ≠ some fd)
    (h : turn s t e = some (s', t', new)) :
    endsIn s' u = some n ∨ ∃ m, endsIn s' t' = some m := by
  cases u with
  | conn c =>
    obtain ⟨fd, pc, pending, authorized, sid, finish, replies, presented⟩ := c
    cases pc with
    | done =>
      simp only [endsIn] at hn
      split at hn
      · rename_i hup
        rcases turn_uplink hup.1 (hfd fd rfl) h with hup' | hother
        · left
          rw [← hn]
          exact if_pos ⟨hup', hup.2⟩
        · exact .inr hother
      · cases hn
    | _ => exact .inl hn
  | rest pc =>
    left
    cases pc with
    | drop e => exact hn
    | ending sid pc => exact hn
    | _ => cases hn
  | _ => cases hn

/-- The session is gone or some thread ends it. -/
def Ending (p : Pool World Thread) : Prop :=
  p.shared.live.active = true → ∃ t ∈ p.threads, ∃ n, endsIn p.shared t = some n

theorem ending_step {p q : Pool World Thread} {i : Nat} {e : Event} (hf : Sockets p)
    (hp : Ending p) (hact : p.shared.live.active = true) (hs : uploads.step p i e = some q) :
    Ending q := by
  intro hq
  obtain ⟨t, t', new, ht, hturn, hthreads⟩ := uploads_step hs
  obtain ⟨u, hu, n, hn⟩ := hp hact
  obtain ⟨j, hj⟩ := List.mem_iff_getElem?.mp hu
  have hmoved : t' ∈ q.threads := List.mem_of_getElem? (hthreads ▸ getElem?_step ht)
  by_cases hji : j = i
  · subst hji
    obtain rfl := Option.some.inj (ht.symm.trans hj)
    obtain ⟨m, hm, _⟩ := own_ends hn hturn hq
    exact ⟨t', hmoved, m, hm⟩
  · have hfd : ∀ fd, connFd u = some fd → connFd t ≠ some fd := by
      intro fd hu' ht'
      obtain ⟨hjlt, rfl⟩ := List.getElem?_eq_some_iff.mp hj
      obtain ⟨hilt, rfl⟩ := List.getElem?_eq_some_iff.mp ht
      rcases Nat.lt_or_gt_of_ne hji with hlt | hgt
      · exact List.pairwise_iff_getElem.mp hf.distinct j i hjlt hilt hlt fd hu' ht'
      · exact List.pairwise_iff_getElem.mp hf.distinct i j hilt hjlt hgt fd ht' hu'
    rcases ends_other hn hfd hturn with hn' | ⟨m, hm⟩
    · exact ⟨u, List.mem_of_getElem? (hthreads ▸ getElem?_other hji hj), n, hn'⟩
    · exact ⟨t', hmoved, m, hm⟩

theorem canceling_of_ending {p : Pool World Thread} (h : Ending p) : Canceling p := by
  intro hact
  obtain ⟨t, ht, n, hn⟩ := h hact
  obtain ⟨i, hi⟩ := List.mem_iff_getElem?.mp ht
  refine ⟨i, t, n, hi, hn, ends_enabled hi hn, fun e q hs hq => ?_⟩
  obtain ⟨u, t', new, hu, hturn, hthreads⟩ := uploads_step hs
  obtain rfl := Option.some.inj (hu.symm.trans hi)
  obtain ⟨m, hm, hlt⟩ := own_ends hn hturn hq
  exact ⟨t', m, hthreads ▸ getElem?_step hi, hm, hlt⟩

/-- The socket that is the uplink of the session closes before a finish message of the
session was accepted on it. -/
structure Disconnects (p : Pool World Thread) (c : Conn) : Prop where
  thread : .conn c ∈ p.threads
  closed : c.pc = .done
  uplink : p.shared.uplink = some c.fd
  session : mayControl p.shared c = true
  unfinished : finished c.authorizedSid c.replies = false

/-- In every run in which no connection joins another session behind a finish message,
a disconnect cancels an unfinished upload. -/
theorem disconnect_cancels (seekFn : Bool) (installs requests readers : Nat)
    (p : Pool World Thread) (c : Conn)
    (h : Reach uploads (fun p i e => joinsOnce p i e = true)
      (start seekFn installs requests readers) p) (hc : Disconnects p c) : Canceled p := by
  have hlog : ∀ t ∈ p.threads, OnConn Logged t :=
    h.invariant (fun p => ∀ t ∈ p.threads, OnConn Logged t)
      (onConns_start seekFn installs requests readers) fun p i e q hp hg hs => logged_step hp hg hs
  have hsockets : Sockets p :=
    h.invariant Sockets (sockets_start seekFn installs requests readers)
      fun p i e q hp _ hs => sockets_step hp hs
  have hown : Logged c := hlog _ hc.thread
  have hfinish : c.finishReceived = false := by
    rw [Bool.eq_false_iff]
    intro hf
    exact absurd (hc.unfinished.symm.trans (hown.finish hf)) Bool.false_ne_true
  have hending : Ending p := by
    refine fun _ => ⟨.conn c, hc.thread, 6, ?_⟩
    have hauth := (Bool.and_eq_true_iff.mp hc.session).1
    simp only [endsIn, hc.closed, hc.uplink, hauth, hfinish, Bool.not_false, and_self, if_true]
  intro q hq
  suffices Sockets q ∧ Ending q from canceling_of_ending this.2
  exact hq.invariant (fun q => Sockets q ∧ Ending q) ⟨hsockets, hending⟩
    fun p i e q hp hact hs => ⟨sockets_step hp.1 hs, ending_step hp.1 hp.2 hact hs⟩

/-! Events of the runs below. -/

/-- A connection joins a session without an owner. -/
def joinFreeEvents (i : Nat) (filename sid : Text) : List (Nat × Event) :=
  [(i, .conn (.text (initMessage filename []))), (i, .conn .go), (i, .conn (.create 8 sid true)),
    (i, .conn .go), (i, .conn .go)]

def opMessage (op : Text) : Text := [123] ++ jsonField opKey (quoted op) ++ [125]

def finishEvents (i : Nat) : List (Nat × Event) :=
  [(i, .conn (.text (opMessage [102, 105, 110, 105, 115, 104]))), (i, .conn .go)]

def cancelMessageEvents (i : Nat) : List (Nat × Event) :=
  [(i, .conn (.text (opMessage [99, 97, 110, 99, 101, 108]))), (i, .conn .go), (i, .conn .go),
    (i, .conn .go)]

/-- One session is finished and canceled, another one is left unfinished. -/
def reuseEvents : List (Nat × Event) :=
  [(0, .accept)] ++ joinFreeEvents 1 [97] [49] ++ sendEvents 1 ++ [(1, .conn .go)] ++
    finishEvents 1 ++ cancelMessageEvents 1 ++ joinFreeEvents 1 [98] [50] ++ [(1, .conn .disconnect)]

def disconnected (p : Pool World Thread) : Bool :=
  match p.threads[1]? with
  | some (Thread.conn c) =>
    (match c.pc with | .done => true | _ => false) && p.shared.uplink = some c.fd &&
      mayControl p.shared c && !finished c.authorizedSid c.replies
  | _ => false

theorem disconnects_of_disconnected {p : Pool World Thread} (h : disconnected p = true) :
    ∃ c, p.threads[1]? = some (.conn c) ∧ Disconnects p c := by
  unfold disconnected at h
  split at h
  · rename_i c hc
    simp only [Bool.and_eq_true_iff, decide_eq_true_eq, Bool.not_eq_true'] at h
    obtain ⟨⟨⟨hpc, hup⟩, hmay⟩, hfin⟩ := h
    refine ⟨c, hc, List.mem_of_getElem? hc, ?_, hup, hmay, hfin⟩
    split at hpc
    · assumption
    · cases hpc
  · cases h

/-- A connection that closes in its first session. -/
theorem disconnect_cancels_first : ∃ p, Canceled p ∧ p.shared.live.active = true := by
  have hrun : (uploads.exec (fun p i e => joinsOnce p i e = true)
      ([(0, .accept)] ++ joinFreeEvents 1 [97] [49] ++ [(1, .conn .disconnect)])
      (start true 0 0 0)).map (fun p => (disconnected p, p.shared.live.active)) =
        some (true, true) := by rfl
  obtain ⟨p, hp, hboth⟩ := Option.map_eq_some_iff.mp hrun
  obtain ⟨hdone, hact⟩ := Prod.mk.inj hboth
  obtain ⟨c, _, hc⟩ := disconnects_of_disconnected hdone
  exact ⟨p, disconnect_cancels _ _ _ _ p c (.of_exec hp) hc, hact⟩

/-- The flag of the first session keeps the second one from being canceled. -/
theorem disconnect_cancels_fails :
    ¬∀ seekFn installs requests readers p c, Reach uploads (fun _ _ _ => True)
      (start seekFn installs requests readers) p → Disconnects p c → Canceled p := by
  intro hall
  have hrun : (uploads.exec (fun _ _ _ => True) reuseEvents (start true 0 0 0)).map (fun p =>
      (disconnected p, p.shared.live.active, (uploads.step p 1 (.conn .go)).map fun q =>
        (q.shared.live.active, q.threads.all fun t => (endsIn q.shared t).isNone))) =
          some (true, true, some (true, true)) := by rfl
  obtain ⟨p, hp, hparts⟩ := Option.map_eq_some_iff.mp hrun
  obtain ⟨hdone, hrest⟩ := Prod.mk.inj hparts
  obtain ⟨hact, hnext⟩ := Prod.mk.inj hrest
  obtain ⟨q, hq, hboth⟩ := Option.map_eq_some_iff.mp hnext
  obtain ⟨hact', hnone⟩ := Prod.mk.inj hboth
  obtain ⟨c, _, hc⟩ := disconnects_of_disconnected hdone
  have hcanceled := hall _ _ _ _ p c (.of_exec hp) hc
  obtain ⟨i, t, n, ht, hn, _⟩ := hcanceled q (.tail .refl hact hq) hact'
  have hidle := List.all_eq_true.mp hnone t (List.mem_of_getElem? ht)
  rw [hn] at hidle
  cases hidle

end PkgManager.UploadDisconnect
