import PkgManager.UploadMoves

namespace PkgManager.UploadAuthorization

open Interleaving Machine Memory LiveSession LiveCalls ControlMessages UploadServer UploadThreads
  UploadMoves

/-- A session is created under a new id, and a request or a connection that has seen
no session joins none that belongs to an owner. -/
def joinsOwn (p : Pool World Thread) (i : Nat) (e : Event) : Bool :=
  let s := p.shared
  match p.threads[i]?, e with
  | some (.rest (.create c _)), .rest (.create cfgSlots sid allocOk) =>
    (initSession s ⟨c.filename, c.total, 0, cfgSlots, sid, allocOk⟩).2 ≠ 0 ||
      (!s.live.active && !s.created.contains sid)
  | some (.conn ⟨_, .unowned m, _, _, _, _, _, _⟩), .conn (.create cfgSlots sid allocOk) =>
    (initSession s ⟨m.filename, m.total, 0, cfgSlots, sid, allocOk⟩).2 ≠ 0 ||
      (if s.live.active then !(s.owned.map Prod.fst).contains s.live.sessionId
        else !s.created.contains sid)
  | _, _ => true

/-- The connection has presented the owner of the session, if it has one. -/
def Proven (s : World) (c : Conn) (sid : Text) : Prop :=
  ∀ owner, (sid, owner) ∈ s.owned → (owner, sid) ∈ c.presented

/-- A connection that is the uplink of a session, or authorized for it, has presented
its owner and its id. -/
structure Authorized (s : World) (c : Conn) : Prop where
  uplink : ∀ sid, c.pc = .granted sid → Proven s c sid
  authorized : c.authorized = true → Proven s c c.authorizedSid

def joiningSid : ConnPc → Option Text
  | .sameFile _ sid => some sid
  | .uplink sid => some sid
  | .granted sid => some sid
  | _ => none

def askedInit : ConnPc → Option Init
  | .init m => some m
  | .owned m => some m
  | .unowned m => some m
  | _ => none

def Joins (s : World) (c : Conn) (sid : Text) : Prop := sid ∈ s.created ∧ Proven s c sid

/-- What a connection knows about the sessions it names. -/
structure Honest (s : World) (c : Conn) : Prop where
  authorized : c.authorized = true → Joins s c c.authorizedSid
  joining : ∀ sid, joiningSid c.pc = some sid → Joins s c sid
  asked : ∀ m, askedInit c.pc = some m → ∀ owner sid, m.owner = some owner → m.sid = some sid →
    (owner, sid) ∈ c.presented

/-- An owned session has one owner, and the owner at hand is that of its session. -/
structure Owners (s : World) : Prop where
  current : s.owner ≠ [] → (s.ownerSid, s.owner) ∈ s.owned
  created : ∀ sid owner, (sid, owner) ∈ s.owned → sid ∈ s.created
  unique : ∀ sid o o', (sid, o) ∈ s.owned → (sid, o') ∈ s.owned → o = o'
  live : s.live.active = true → s.live.sessionId ∈ s.created

theorem Owners.kept {s s' : World} (h : Owners s) (hk : OwnerKept s s') : Owners s' := by
  refine ⟨?_, ?_, ?_, fun ha => ?_⟩
  · rw [hk.owner, hk.ownerSid, hk.owned]
    exact h.current
  · rw [hk.owned, hk.created]
    exact h.created
  · rw [hk.owned]
    exact h.unique
  · rw [hk.live.sid ha, hk.created]
    exact h.live (hk.live.active ha)

theorem Joins.kept {s s' : World} {c : Conn} {sid : Text} (h : Joins s c sid)
    (hk : OwnerKept s s') : Joins s' c sid := by
  refine ⟨hk.created ▸ h.1, fun owner hm => ?_⟩
  rw [hk.owned] at hm
  exact h.2 owner hm

theorem Honest.kept {s s' : World} {c : Conn} (h : Honest s c) (hk : OwnerKept s s') :
    Honest s' c :=
  ⟨fun ha => (h.authorized ha).kept hk, fun sid hj => (h.joining sid hj).kept hk, h.asked⟩

/-- A step of the connection on which it names no other session. -/
theorem Honest.same {s : World} {c c' : Conn} (h : Honest s c)
    (ha : c'.authorized = c.authorized) (hs : c'.authorizedSid = c.authorizedSid)
    (hp : c'.presented = c.presented)
    (hj : joiningSid c'.pc = none ∨ joiningSid c'.pc = joiningSid c.pc)
    (hi : askedInit c'.pc = none ∨ askedInit c'.pc = askedInit c.pc) : Honest s c' := by
  have hjoins : ∀ sid, Joins s c sid → Joins s c' sid := by
    intro sid hold
    refine ⟨hold.1, fun owner hm => ?_⟩
    rw [hp]
    exact hold.2 owner hm
  refine ⟨?_, fun sid hsid => ?_, fun m hm => ?_⟩
  · rw [ha, hs]
    exact fun hauth => hjoins _ (h.authorized hauth)
  · rcases hj with hj | hj
    · rw [hj] at hsid
      cases hsid
    · exact hjoins sid (h.joining sid (hj ▸ hsid))
  · rw [hp]
    rcases hi with hi | hi
    · rw [hi] at hm
      cases hm
    · exact h.asked m (hi ▸ hm)

theorem Honest.reply {s : World} {c : Conn} (h : Honest s c) (r : Reply) : Honest s (c.reply r) :=
  h.same rfl rfl rfl (.inl rfl) (.inl rfl)

theorem Honest.present {s : World} {c : Conn} (h : Honest s c) (m : Init) :
    Honest s ((c.present m).at (.init m)) := by
  have hsub : ∀ x ∈ c.presented, x ∈ (c.present m).presented := by
    intro x hx
    unfold Conn.present
    split
    · exact List.mem_cons_of_mem _ hx
    · exact hx
  have hsame : (c.present m).authorized = c.authorized ∧
      (c.present m).authorizedSid = c.authorizedSid := by
    unfold Conn.present
    split <;> exact ⟨rfl, rfl⟩
  refine ⟨fun ha => ?_, nofun, fun m' hm owner sid ho hs => ?_⟩
  · have hold := h.authorized (hsame.1 ▸ ha)
    show Joins s _ (c.present m).authorizedSid
    rw [hsame.2]
    exact ⟨hold.1, fun owner hm => hsub _ (hold.2 owner hm)⟩
  · obtain rfl := Option.some.inj hm
    show (owner, sid) ∈ (c.present m).presented
    unfold Conn.present
    rw [ho, hs]
    exact List.mem_cons_self

theorem handleTextMsg_honest {s : World} {c : Conn} (h : Honest s c) (msg : Text) :
    Honest s (handleTextMsg s c msg) := by
  unfold handleTextMsg
  split
  · exact h.reply _
  · split
    · split
      · exact h.reply _
      · exact h.present _
    · split
      · exact h
      · exact h.reply _
    · exact h.reply _
    · exact h.reply _
    · split
      · exact h.same rfl rfl rfl (.inl rfl) (.inl rfl)
      · exact h.reply _
    · split
      · exact h.same rfl rfl rfl (.inl rfl) (.inl rfl)
      · exact h.reply _
    · split
      · exact h.same rfl rfl rfl (.inr rfl) (.inr rfl)
      · exact h.reply _
    · exact h.reply _

/-- A presented owner that matches proves the session. -/
theorem joins_of_matches {s : World} {c : Conn} {owner sid : Text} (ho : Owners s)
    (hp : (owner, sid) ∈ c.presented) (hm : ownerMatches s owner sid = true) : Joins s c sid := by
  unfold ownerMatches at hm
  simp only [Bool.and_eq_true_iff, decide_eq_true_eq] at hm
  obtain ⟨⟨⟨⟨hne, _⟩, rfl⟩, rfl⟩, _⟩ := hm
  have hcur := ho.current hne
  refine ⟨ho.created _ _ hcur, fun o hmem => ?_⟩
  rw [ho.unique _ _ _ hmem hcur]
  exact hp

theorem connGo_honest {s s' : World} {c c' : Conn} (ho : Owners s) (h : Honest s c)
    (hgo : connGo s c = some (s', c')) : Honest s c' := by
  have hidle : ∀ pc, joiningSid pc = none → askedInit pc = none → Honest s (c.at pc) :=
    fun pc hj hi => h.same rfl rfl rfl (.inl hj) (.inl hi)
  unfold connGo at hgo
  split at hgo
  · rename_i m hpc
    split at hgo <;> cases hgo
    refine h.same rfl rfl rfl (.inl ?_) (.inr ?_)
    · show joiningSid (if _ then _ else _) = none
      split <;> rfl
    · rw [hpc]
      show askedInit (if _ then _ else _) = some m
      split <;> rfl
  · rename_i m hpc
    split at hgo
    · cases hgo
    · split at hgo <;> cases hgo
      · rename_i owner sid howner hsid
        split
        · rename_i hmatch
          have hj := joins_of_matches ho (h.asked m (by rw [hpc]; rfl) owner sid howner hsid) hmatch
          refine ⟨fun ha => h.authorized ha, fun sid' hj' => ?_, nofun⟩
          obtain rfl := Option.some.inj hj'
          exact hj
        · exact h.reply _
      · exact h.reply _
  · rename_i m sid hpc
    split at hgo <;> cases hgo
    split
    · exact h.same rfl rfl rfl (.inr (by rw [hpc]; rfl)) (.inl rfl)
    · exact h.reply _
  · rename_i sid hpc
    split at hgo <;> cases hgo
    · exact h.reply _
    · exact h.same rfl rfl rfl (.inr (by rw [hpc]; rfl)) (.inl rfl)
  · rename_i sid hpc
    cases hgo
    exact ⟨fun _ => h.joining sid (by rw [hpc]; rfl), nofun, nofun⟩
  · cases hgo
    split
    · exact h.same rfl rfl rfl (.inl rfl) (.inl rfl)
    · exact h.reply _
  · rename_i e _
    cases hs : cancelSession s e with
    | mk s₁ next =>
      rw [hs] at hgo
      cases next <;> cases hgo
      · exact h.reply _
      · exact hidle _ rfl rfl
  · cases hgo
    exact hidle _ rfl rfl
  · cases hgo
    split
    · exact hidle _ rfl rfl
    · exact h.same rfl rfl rfl (.inl rfl) (.inl rfl)
  · cases hgo
    split
    · exact hidle _ rfl rfl
    · exact h.same rfl rfl rfl (.inl rfl) (.inl rfl)
  · cases hgo
    exact h.same rfl rfl rfl (.inl rfl) (.inl rfl)
  · split at hgo <;> cases hgo
    · refine hidle _ ?_ ?_ <;> split <;> rfl
    · exact hidle _ rfl rfl
  · rename_i pc _
    cases hs : endUpload true s pc with
    | mk s₁ next =>
      rw [hs] at hgo
      cases next <;> cases hgo <;> exact hidle _ rfl rfl
  · cases hgo

theorem connTurn_honest {s s' : World} {c c' : Conn} {e : ConnEvent} (ho : Owners s)
    (h : Honest s c) (hk : OwnerKept s s') (ht : connTurn s c e = some (s', c'))
    (hc : ∀ cfgSlots sid allocOk, e ≠ .create cfgSlots sid allocOk) : Honest s' c' := by
  suffices Honest s c' from this.kept hk
  cases e with
  | go => exact connGo_honest ho h ht
  | text msg =>
    simp only [connTurn] at ht
    split at ht <;> cases ht
    exact handleTextMsg_honest h msg
  | binary data len =>
    simp only [connTurn] at ht
    split at ht <;> cases ht
    refine h.same rfl rfl rfl (.inl ?_) (.inl ?_)
    · show joiningSid (if _ then _ else _) = none
      split <;> rfl
    · show askedInit (if _ then _ else _) = none
      split <;> rfl
  | create cfgSlots sid allocOk => exact absurd rfl (hc cfgSlots sid allocOk)
  | disconnect =>
    simp only [connTurn] at ht
    split at ht <;> cases ht
    exact h.same rfl rfl rfl (.inl rfl) (.inl rfl)

/-- A session under a new id, without an owner yet. -/
theorem Owners.fresh {s : World} (h : Owners s) (c : CreateCall) :
    Owners { s.setLive (freshSession s.live c) with created := c.sid :: s.created } :=
  ⟨h.current, fun sid o hm => List.mem_cons_of_mem _ (h.created sid o hm), h.unique,
    fun _ => List.mem_cons_self⟩

theorem Joins.fresh {s : World} {c : Conn} {sid : Text} (h : Joins s c sid) (call : CreateCall) :
    Joins { s.setLive (freshSession s.live call) with created := call.sid :: s.created } c sid :=
  ⟨List.mem_cons_of_mem _ h.1, h.2⟩

theorem Honest.fresh {s : World} {c : Conn} (h : Honest s c) (call : CreateCall) :
    Honest { s.setLive (freshSession s.live call) with created := call.sid :: s.created } c :=
  ⟨fun ha => (h.authorized ha).fresh call, fun sid hj => (h.joining sid hj).fresh call, h.asked⟩

structure AuthInv (p : Pool World Thread) : Prop where
  owners : Owners p.shared
  honest : ∀ t ∈ p.threads, OnConn (Honest p.shared) t

theorem createOwned_inv {s : World} {ts : List Thread} (ho : Owners s)
    (hts : ∀ t ∈ ts, OnConn (Honest s) t) (c : InitOwned) (resuming : Bool) (cfgSlots : Nat)
    (sid : Text) (allocOk : Bool)
    (hg : (initSession s ⟨c.filename, c.total, 0, cfgSlots, sid, allocOk⟩).2 = 0 →
      s.live.active = false ∧ sid ∉ s.created) :
    Owners (createOwned s c resuming cfgSlots sid allocOk).1 ∧
      ∀ t ∈ ts, OnConn (Honest (createOwned s c resuming cfgSlots sid allocOk).1) t := by
  unfold createOwned
  simp only
  rcases initSession_cases s ⟨c.filename, c.total, 0, cfgSlots, sid, allocOk⟩ with
    ⟨hs, hact⟩ | ⟨hidle, hz, hs⟩
  · have hne : (initSession s ⟨c.filename, c.total, 0, cfgSlots, sid, allocOk⟩).2 ≠ 0 := by
      intro hz
      exact absurd ((hg hz).1.symm.trans (hact hz)) Bool.false_ne_true
    have hk : OwnerKept s { s with ownerMu := false } := ⟨.refl _, rfl, rfl, rfl, rfl⟩
    rw [if_neg hne, hs]
    exact ⟨ho.kept hk, onConns_mono hts fun _ hc => hc.kept hk⟩
  · have hnew := (hg hz).2
    rw [if_pos hz, hs]
    have hother : ∀ sid' o, (sid', o) ∈ (sid, c.owner) :: s.owned → sid' ∈ s.created →
        (sid', o) ∈ s.owned := by
      intro sid' o hm hc
      rcases List.mem_cons.mp hm with he | hm
      · cases he
        exact absurd hc hnew
      · exact hm
    constructor
    · refine ⟨fun _ => List.mem_cons_self, fun sid' o hm => ?_, fun sid' o o' hm hm' => ?_,
        fun _ => List.mem_cons_self⟩
      · rcases List.mem_cons.mp hm with he | hm
        · cases he
          exact List.mem_cons_self
        · exact List.mem_cons_of_mem _ (ho.created sid' o hm)
      · rcases List.mem_cons.mp hm with he | hm
        · cases he
          rcases List.mem_cons.mp hm' with he' | hm'
          · cases he'
            rfl
          · exact absurd (ho.created _ _ hm') hnew
        · have hc := ho.created sid' o hm
          exact ho.unique sid' o o' hm (hother sid' o' hm' hc)
    · refine onConns_mono hts fun conn hconn => ?_
      have hjoins : ∀ s', s'.created = sid :: s.created → s'.owned = (sid, c.owner) :: s.owned →
          ∀ sid', Joins s conn sid' → Joins s' conn sid' := by
        intro s' hcreated howned sid' hj
        refine ⟨hcreated ▸ List.mem_cons_of_mem _ hj.1, fun o hm => ?_⟩
        rw [howned] at hm
        exact hj.2 o (hother sid' o hm hj.1)
      exact ⟨fun ha => hjoins _ rfl rfl _ (hconn.authorized ha),
        fun sid' hj => hjoins _ rfl rfl _ (hconn.joining sid' hj), hconn.asked⟩

/-- A session without an owner, joined or created by a connection. -/
theorem initSession_inv {s : World} {ts : List Thread} (ho : Owners s)
    (hts : ∀ t ∈ ts, OnConn (Honest s) t) (call : CreateCall)
    (hg : (initSession s call).2 = 0 →
      if s.live.active then s.live.sessionId ∉ s.owned.map Prod.fst else call.sid ∉ s.created) :
    Owners (initSession s call).1 ∧ (∀ t ∈ ts, OnConn (Honest (initSession s call).1) t) ∧
      ((initSession s call).2 = 0 →
        ∀ c, Joins (initSession s call).1 c (initSession s call).1.live.sessionId) := by
  rcases initSession_cases s call with ⟨hs, hact⟩ | ⟨hidle, hz, hs⟩
  · rw [hs]
    refine ⟨ho, hts, fun hz c => ⟨ho.live (hact hz), fun o hm => ?_⟩⟩
    have hnot := hg hz
    rw [if_pos (hact hz)] at hnot
    exact absurd (List.mem_map.mpr ⟨_, hm, rfl⟩) hnot
  · have hnot := hg hz
    rw [if_neg (by rw [hidle]; decide)] at hnot
    rw [hs]
    refine ⟨ho.fresh call, onConns_mono hts fun _ hc => hc.fresh call, fun _ c => ?_⟩
    exact ⟨List.mem_cons_self, fun o hm => absurd (ho.created _ o hm) hnot⟩

theorem authInv_step {p q : Pool World Thread} {i : Nat} {e : Event} (h : AuthInv p)
    (hg : joinsOwn p i e = true) (hs : uploads.step p i e = some q) : AuthInv q := by
  obtain ⟨t, t', new, ht, hturn, hthreads⟩ := uploads_step hs
  have hnone : ∀ u ∈ ([] : List Thread), OnConn (Honest q.shared) u :=
    fun _ hu => absurd hu List.not_mem_nil
  rcases turn_cases hturn with hk | ⟨pc, pc', re, rfl, rfl, rfl, rfl, hr⟩ |
      ⟨c, c', ce, rfl, rfl, rfl, rfl, hc⟩
  · refine ⟨h.owners.kept hk.kept, ?_⟩
    rw [hthreads]
    exact forall_step ht (hk.after _) (onConns_mono h.honest fun _ hv => hv.kept hk.kept)
      (hk.new _ ⟨nofun, nofun, nofun⟩)
  · rcases rest_cases hr with hk | ⟨r, resuming, cfgSlots, sid, allocOk, rfl, rfl, hcreate⟩
    · refine ⟨h.owners.kept hk, ?_⟩
      rw [hthreads]
      exact forall_step ht trivial (onConns_mono h.honest fun _ hv => hv.kept hk) hnone
    · have hshared : q.shared = (createOwned p.shared r resuming cfgSlots sid allocOk).1 :=
        congrArg Prod.fst hcreate
      have hjoins : (initSession p.shared ⟨r.filename, r.total, 0, cfgSlots, sid, allocOk⟩).2 = 0 →
          p.shared.live.active = false ∧ sid ∉ p.shared.created := by
        intro hz
        simpa [joinsOwn, ht, hz] using hg
      obtain ⟨ho, hts⟩ := createOwned_inv h.owners h.honest r resuming cfgSlots sid allocOk hjoins
      rw [← hshared] at ho hts
      refine ⟨ho, ?_⟩
      rw [hthreads]
      exact forall_step ht trivial hts hnone
  · have hown : Honest p.shared c := h.honest _ (List.mem_of_getElem? ht)
    rcases conn_cases hc with ⟨hk, hne⟩ | ⟨m, cfgSlots, sid, allocOk, hpc, rfl, hshared, hc'⟩
    · refine ⟨h.owners.kept hk, ?_⟩
      rw [hthreads]
      exact forall_step ht (connTurn_honest h.owners hown hk hc hne)
        (onConns_mono h.honest fun _ hv => hv.kept hk) hnone
    · have hjoins : (initSession p.shared ⟨m.filename, m.total, 0, cfgSlots, sid, allocOk⟩).2 = 0 →
          if p.shared.live.active then p.shared.live.sessionId ∉ p.shared.owned.map Prod.fst
          else sid ∉ p.shared.created := by
        intro hz
        obtain ⟨fd, pc, pending, authorized, asid, finish, replies, presented⟩ := c
        cases hpc
        simp only [joinsOwn, ht, hz] at hg
        split
        · rename_i hact
          simpa [hact] using hg
        · rename_i hact
          simpa [hact] using hg
      obtain ⟨ho, hts, hjoin⟩ := initSession_inv h.owners h.honest
        ⟨m.filename, m.total, 0, cfgSlots, sid, allocOk⟩ hjoins
      rw [← hshared] at ho hts hjoin
      refine ⟨ho, ?_⟩
      rw [hthreads, hc']
      refine forall_step ht ?_ hts hnone
      have hown' : Honest q.shared c := hts _ (List.mem_of_getElem? ht)
      split
      · rename_i hz
        refine ⟨hown'.authorized, fun sid' hsid => ?_, nofun⟩
        obtain rfl := Option.some.inj hsid
        exact hjoin hz c
      · exact hown'.reply _

/-- In every run in which no one joins a session of another owner unseen, a connection
is the uplink of an owned session, or authorized for it, only with its owner and id. -/
theorem authorized_by_owner (seekFn : Bool) (installs requests readers : Nat)
    (p : Pool World Thread) (h : Reach uploads (fun p i e => joinsOwn p i e = true)
      (start seekFn installs requests readers) p) :
    ∀ c, .conn c ∈ p.threads → Authorized p.shared c := by
  have hinv : AuthInv p := by
    refine h.invariant AuthInv ⟨⟨fun hne => absurd rfl hne, nofun, nofun, nofun⟩, ?_⟩
      fun p i e q hp hg hs => authInv_step hp hg hs
    exact onConns_start seekFn installs requests readers
  intro c hc
  have hown : Honest p.shared c := hinv.honest _ hc
  exact ⟨fun sid hpc => (hown.joining sid (by rw [hpc]; rfl)).2, fun ha => (hown.authorized ha).2⟩

/-- A connection that presents the owner of the session. -/
theorem authorized_by_owner_presented : ∃ p,
    Reach uploads (fun p i e => joinsOwn p i e = true) (start true 0 2 0) p ∧
      (∃ c, .conn c ∈ p.threads ∧ c.authorized = true ∧ Authorized p.shared c) := by
  have hrun : (uploads.exec (fun p i e => joinsOwn p i e = true)
      (openEvents 0 [97] [49] ++ [(2, .accept)] ++ joinEvents 3 [97] [49])
      (start true 0 2 0)).map (fun p => p.threads.any (connIs (·.authorized))) = some true := by rfl
  obtain ⟨p, hp, hc⟩ := Option.map_eq_some_iff.mp hrun
  obtain ⟨t, ht, hauth⟩ := List.any_eq_true.mp hc
  cases t with
  | conn c =>
    exact ⟨p, .of_exec hp, c, ht, hauth, authorized_by_owner _ _ _ _ p (.of_exec hp) c ht⟩
  | _ => cases hauth

/-- A connection that saw no owner joins the session that was created meanwhile. -/
theorem authorized_by_owner_fails :
    ¬∀ seekFn installs requests readers p, Reach uploads (fun _ _ _ => True)
      (start seekFn installs requests readers) p →
        ∀ c, .conn c ∈ p.threads → Authorized p.shared c := by
  intro hall
  have hrun : (uploads.exec (fun _ _ _ => True)
      ([(2, .accept), (3, .conn (.text (initMessage [97] []))), (3, .conn .go)] ++
        openEvents 0 [97] [49] ++
        [(3, .conn (.create 8 [50] true)), (3, .conn .go), (3, .conn .go)])
      (start true 0 2 0)).map (fun p => (p.shared.owned, p.threads.any (connIs fun c =>
        c.authorized && c.authorizedSid = [49] && c.presented = []))) =
      some ([([49], someOwner)], true) := by rfl
  obtain ⟨p, hp, hc⟩ := Option.map_eq_some_iff.mp hrun
  obtain ⟨howned, hany⟩ := Prod.mk.inj hc
  obtain ⟨t, ht, hboth⟩ := List.any_eq_true.mp hany
  cases t with
  | conn c =>
    simp only [connIs, Bool.and_eq_true_iff, decide_eq_true_eq] at hboth
    obtain ⟨⟨hauth, hsid⟩, hnone⟩ := hboth
    have hproven := (hall _ _ _ _ p (.of_exec hp) c ht).authorized hauth someOwner
      (by rw [howned, hsid]; exact List.mem_singleton.mpr rfl)
    rw [hnone] at hproven
    cases hproven
  | _ => cases hboth

end PkgManager.UploadAuthorization
