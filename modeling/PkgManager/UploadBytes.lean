import PkgManager.UploadMoves

namespace PkgManager.UploadBytes

open Interleaving Machine Memory LiveSession LiveCalls UploadServer UploadThreads UploadMoves

/-- The connection has checked the session of its message and not yet stored it. -/
def checked (c : Conn) : Bool :=
  match c.pc with
  | .active _ _ _ => true
  | .store _ => true
  | _ => false

def checkedThread : Thread → Bool
  | .conn c => checked c
  | _ => false

/-- No session is created between the check and the store of a message. -/
def createsApart (p : Pool World Thread) (i : Nat) (e : Event) : Bool :=
  match p.threads[i]? with
  | some t => !creates p.shared t e || p.threads.all fun u => !checkedThread u
  | none => true

/-- A message that is stored is stored in the session its connection is authorized for. -/
def StoresOwn (p : Pool World Thread) : Prop :=
  ∀ c, .conn c ∈ p.threads → ∀ m, c.pc = .store m →
    (wsLiveTryWrite p.shared.live (m.seg * SEG) m.data m.len).2 = 0 →
      p.shared.live.active = true ∧ p.shared.live.sessionId = c.authorizedSid

/-- The check still holds, or the session is gone. -/
def Checked (s : World) (c : Conn) : Prop :=
  checked c = true → s.live.active = true → s.live.sessionId = c.authorizedSid

theorem Checked.same {s s' : World} {c : Conn} (h : Checked s c)
    (hk : SameSession s.live s'.live) : Checked s' c := by
  intro hc ha
  rw [hk.sid ha]
  exact h hc (hk.active ha)

theorem handleTextMsg_checked {s : World} {c : Conn} (hpc : c.pc = .reading) (msg : ControlMessages.Text) :
    checked (handleTextMsg s c msg) = false := by
  have hread : checked c = false := by simp only [checked, hpc]
  unfold handleTextMsg
  split
  · rfl
  · split
    · split
      · rfl
      · rfl
    · split
      · exact hread
      · rfl
    · rfl
    · rfl
    · split <;> rfl
    · split <;> rfl
    · split
      · exact hread
      · rfl
    · rfl

/-- Only the check itself brings a connection in front of the store. -/
theorem connGo_checked {s s' : World} {c c' : Conn} (h : connGo s c = some (s', c'))
    (hc : checked c' = true) : s'.live = s.live ∧ c'.authorizedSid = c.authorizedSid ∧
      (checked c = true ∨ wsLiveCheckId s.live c.authorizedSid = true) := by
  unfold connGo at h
  split at h
  · split at h <;> cases h
    revert hc
    split <;> exact nofun
  · split at h
    · cases h
    · split at h <;> cases h
      · revert hc
        split <;> exact nofun
      · cases hc
  · split at h <;> cases h
    revert hc
    split <;> exact nofun
  · split at h <;> cases h <;> cases hc
  · cases h
    cases hc
  · cases h
    revert hc
    split <;> exact nofun
  · rename_i e _
    cases hs : cancelSession s e with
    | mk s₁ next =>
      rw [hs] at h
      cases next <;> cases h <;> cases hc
  · cases h
    cases hc
  · cases h
    revert hc
    split
    · rename_i hmay
      exact fun _ => ⟨rfl, rfl, .inr (Bool.and_eq_true_iff.mp hmay).2⟩
    · exact nofun
  · rename_i hpc
    cases h
    revert hc
    split
    · exact fun _ => ⟨rfl, rfl, .inl (by simp only [checked, hpc])⟩
    · exact nofun
  · cases h
    cases hc
  · split at h <;> cases h
    · revert hc
      show checked (c.at _) = true → _
      split <;> exact nofun
    · cases hc
  · rename_i pc _
    cases hs : endUpload true s pc with
    | mk s₁ next =>
      rw [hs] at h
      cases next <;> cases h <;> cases hc
  · cases h

theorem checked_turn {s s' : World} {c c' : Conn} {e : ConnEvent}
    (h : connTurn s c e = some (s', c')) (hc : checked c' = true) :
    s'.live = s.live ∧ c'.authorizedSid = c.authorizedSid ∧
      (checked c = true ∨ wsLiveCheckId s.live c.authorizedSid = true) := by
  cases e with
  | go => exact connGo_checked h hc
  | text msg =>
    simp only [connTurn] at h
    split at h
    · rename_i hpc
      cases h
      rw [handleTextMsg_checked hpc] at hc
      cases hc
    · cases h
  | binary data len =>
    simp only [connTurn] at h
    split at h
    · cases h
      revert hc
      show checked (c.at _) = true → _
      split <;> (intro hc; cases hc)
    · cases h
  | create cfgSlots sid allocOk =>
    simp only [connTurn] at h
    split at h
    · cases h
      revert hc
      split <;> (intro hc; cases hc)
    · cases h
  | disconnect =>
    simp only [connTurn] at h
    split at h <;> cases h
    cases hc

/-- A step that creates no session, or meets no checked message, keeps the checks. -/
theorem checked_step {p q : Pool World Thread} {i : Nat} {e : Event}
    (h : ∀ t ∈ p.threads, OnConn (Checked p.shared) t) (hg : createsApart p i e = true)
    (hs : uploads.step p i e = some q) : ∀ t ∈ q.threads, OnConn (Checked q.shared) t := by
  obtain ⟨t, t', new, ht, hturn, hthreads⟩ := uploads_step hs
  rw [hthreads]
  have hold : ∀ u ∈ p.threads, OnConn (Checked q.shared) u := by
    cases hcreates : creates p.shared t e with
    | false => exact onConns_mono h fun _ hv => hv.same (turn_same hturn hcreates)
    | true =>
      have hall : (p.threads.all fun u => !checkedThread u) = true := by
        simpa [createsApart, ht, hcreates] using hg
      intro u hu
      have hidle : checkedThread u = false := by
        simpa using List.all_eq_true.mp hall u hu
      cases u with
      | conn c => exact fun hc => absurd (hidle.symm.trans hc) Bool.false_ne_true
      | _ => trivial
  have hnone : ∀ u ∈ ([] : List Thread), OnConn (Checked q.shared) u :=
    fun _ hu => absurd hu List.not_mem_nil
  rcases turn_cases hturn with hk | ⟨pc, pc', re, rfl, rfl, rfl, rfl, _⟩ |
      ⟨c, c', ce, rfl, rfl, rfl, rfl, hc⟩
  · exact forall_step ht (hk.after _) hold (hk.new _ nofun)
  · exact forall_step ht trivial hold hnone
  · refine forall_step ht ?_ hold hnone
    intro hchecked ha
    obtain ⟨hlive, hsid, hbefore⟩ := checked_turn hc hchecked
    have hc' : Checked p.shared c := h _ (List.mem_of_getElem? ht)
    rw [hlive] at ha ⊢
    rw [hsid]
    rcases hbefore with hbefore | hbefore
    · exact hc' hbefore ha
    · exact (of_decide_eq_true hbefore).2.2

theorem tryWrite_active {lv : Live} {offset len : Nat} {data : Bytes}
    (h : (wsLiveTryWrite lv offset data len).2 = 0) : lv.active = true := by
  by_contra hact
  have hrefused : writeRefused lv offset len = some (-1) := if_pos (.inl (by simp [hact]))
  unfold wsLiveTryWrite at h
  rw [hrefused] at h
  cases h

/-- In every run in which no session is created between the check and the store of a
message, a message is stored in the session of its connection only. -/
theorem stores_own (seekFn : Bool) (installs requests readers : Nat) (p : Pool World Thread)
    (h : Reach uploads (fun p i e => createsApart p i e = true)
      (start seekFn installs requests readers) p) : StoresOwn p := by
  have hinv : ∀ t ∈ p.threads, OnConn (Checked p.shared) t :=
    h.invariant (fun p => ∀ t ∈ p.threads, OnConn (Checked p.shared) t)
      (onConns_start seekFn installs requests readers)
      fun p i e q hp hg hs => checked_step hp hg hs
  intro c hc m hpc hstored
  have hact := tryWrite_active hstored
  have hchecked : Checked p.shared c := hinv _ hc
  exact ⟨hact, hchecked (by simp only [checked, hpc]) hact⟩

/-- The segment a thread is about to store, and whether the store would succeed. -/
def storing (p : Pool World Thread) : Thread → Bool
  | .conn ⟨_, .store m, _, _, _, _, _, _⟩ =>
    (wsLiveTryWrite p.shared.live (m.seg * SEG) m.data m.len).2 = 0
  | _ => false

/-- A message of the only session. -/
theorem stores_own_segment : ∃ p,
    Reach uploads (fun p i e => createsApart p i e = true) (start true 0 2 0) p ∧
      p.threads.any (storing p) = true ∧ StoresOwn p := by
  have hrun : (uploads.exec (fun p i e => createsApart p i e = true)
      (openEvents 0 [97] [49] ++ [(2, .accept)] ++ joinEvents 3 [97] [49] ++ sendEvents 3)
      (start true 0 2 0)).map (fun p => p.threads.any (storing p)) = some true := by rfl
  obtain ⟨p, hp, hc⟩ := Option.map_eq_some_iff.mp hrun
  exact ⟨p, .of_exec hp, hc, stores_own _ _ _ _ p (.of_exec hp)⟩

/-- The owner cancels the upload behind the check and opens another one. -/
theorem stores_own_fails :
    ¬∀ seekFn installs requests readers p, Reach uploads (fun _ _ _ => True)
      (start seekFn installs requests readers) p → StoresOwn p := by
  intro hall
  have hrun : (uploads.exec (fun _ _ _ => True)
      (openEvents 0 [97] [49] ++ [(2, .accept)] ++ joinEvents 3 [97] [49] ++ sendEvents 3 ++
        cancelEvents 1 [49] ++ openEvents 0 [98] [50])
      (start true 0 2 0)).map (fun p => p.threads.any (connIs fun c =>
        storing p (.conn c) && c.authorizedSid ≠ p.shared.live.sessionId)) = some true := by rfl
  obtain ⟨p, hp, hc⟩ := Option.map_eq_some_iff.mp hrun
  obtain ⟨t, ht, hboth⟩ := List.any_eq_true.mp hc
  cases t with
  | conn c =>
    obtain ⟨hstoring, hother⟩ := Bool.and_eq_true_iff.mp hboth
    have hown := hall _ _ _ _ p (.of_exec hp) c ht
    obtain ⟨fd, pc, pending, authorized, asid, finish, replies, presented⟩ := c
    cases pc with
    | store m => exact of_decide_eq_true hother (hown m rfl (of_decide_eq_true hstoring)).2.symm
    | _ => cases hstoring
  | _ => cases hboth

end PkgManager.UploadBytes
