import PkgManager.UploadChanges
import PkgManager.UploadPage

namespace PkgManager.UploadPage

open Interleaving Memory LiveSession LiveCalls LiveSlots ControlMessages UploadServer
open UploadThreads UploadMoves UploadChanges

/-- The segment a reply answers. -/
def answered : Reply → Option Nat
  | .ack n => some n
  | .busy n => some n
  | _ => none

/-- The segment the connection has the header of. -/
def pendingOf (c : Conn) : List Nat := if 0 ≤ c.pendingSeg then [c.pendingSeg.toNat] else []

theorem strstr_segText (n : Nat) : strstr [34, 115, 101, 103, 34, 58] (segText n) =
    some ([34, 115, 101, 103, 34, 58] ++ (decimal n ++ [125])) := by rfl

theorem op_segText (n : Nat) : wsjString (segText n) opKey 32 = some [115, 101, 103] := by rfl

theorem op_pingText : wsjString pingText opKey 32 = some [112, 105, 110, 103] := by rfl

theorem op_finishText : wsjString finishText opKey 32 = some [102, 105, 110, 105, 115, 104] := by rfl

theorem op_statsText (stats : Text) : wsjString (statsText stats) opKey 32 =
    some [115, 101, 110, 100, 101, 114, 95, 115, 116, 97, 116, 115] := by rfl

/-- The connection reads the segment the page wrote; it has no use for large numbers. -/
theorem segOf_segText (n : Nat) : segOf (segText n) = if n ≤ 0x7fffffff then (n : Int) else -1 := by
  have hdrop : (([34, 115, 101, 103, 34, 58] : Text) ++ (decimal n ++ [125])).drop 6 =
      decimal n ++ [125] := rfl
  unfold segOf
  rw [strstr_segText]
  simp only [hdrop, strtoull_decimal n (r := [125]) (by decide +kernel)]
  split_ifs <;> omega

theorem handle_segText (s : World) (c : Conn) (n : Nat) :
    handleTextMsg s c (segText n) =
      if mayControl s c then { c with pendingSeg := segOf (segText n) }
      else c.reply (.error .unauthorized) := by
  unfold handleTextMsg
  rw [op_segText]
  rfl

/-- A message that announces no segment. -/
def Plain (msg : Text) : Prop := ∀ op, wsjString msg opKey 32 = some op → opOf op ≠ .seg

theorem plain_ping : Plain pingText := by
  intro op hop
  rw [op_pingText] at hop
  cases hop
  decide

theorem plain_finish : Plain finishText := by
  intro op hop
  rw [op_finishText] at hop
  cases hop
  decide

theorem plain_stats (stats : Text) : Plain (statsText stats) := by
  intro op hop
  rw [op_statsText] at hop
  cases hop
  decide

/-- A step that answers no segment. -/
structure Answerless (c c' : Conn) : Prop where
  pendingSeg : c'.pendingSeg = c.pendingSeg
  replies : c'.replies = c.replies ∨ ∃ r, answered r = none ∧ c'.replies = r :: c.replies

theorem answerless_at (c : Conn) (pc : ConnPc) : Answerless c (c.at pc) := ⟨rfl, .inl rfl⟩

theorem answerless_reply (c : Conn) {r : Reply} (h : answered r = none) : Answerless c (c.reply r) :=
  ⟨rfl, .inr ⟨r, h, rfl⟩⟩

/-- The connection is between two binary messages. -/
def offMessage : ConnPc → Bool
  | .sized _ => false
  | .checkId _ _ _ => false
  | .active _ _ _ => false
  | .store _ => false
  | _ => true

theorem handle_plain {msg : Text} (h : Plain msg) (s : World) (c : Conn) (hpc : c.pc = .reading) :
    Answerless c (handleTextMsg s c msg) ∧ offMessage (handleTextMsg s c msg).pc = true := by
  have hsame : Answerless c c := ⟨rfl, .inl rfl⟩
  have hread : offMessage c.pc = true := by rw [hpc]; rfl
  unfold handleTextMsg
  cases hop : wsjString msg opKey 32 with
  | none => exact ⟨answerless_reply c rfl, rfl⟩
  | some op =>
    have hseg := h op hop
    dsimp only
    split
    · split
      · exact ⟨answerless_reply c rfl, rfl⟩
      · rename_i m hm
        refine ⟨⟨?_, .inl ?_⟩, rfl⟩ <;> (unfold Conn.present; split <;> rfl)
    · split
      · exact ⟨hsame, hread⟩
      · exact ⟨answerless_reply c rfl, rfl⟩
    · refine ⟨answerless_reply c ?_, rfl⟩
      split <;> rfl
    · exact ⟨answerless_reply c rfl, rfl⟩
    · split
      · exact ⟨answerless_at c _, rfl⟩
      · exact ⟨answerless_reply c rfl, rfl⟩
    · split
      · exact ⟨answerless_at c _, rfl⟩
      · exact ⟨answerless_reply c rfl, rfl⟩
    · rename_i hop'
      exact absurd hop' hseg
    · exact ⟨answerless_reply c rfl, rfl⟩

/-- What a step of a connection that takes no message does to the segment it has: it
answers it after trying to store it, rejects it, or leaves it alone. -/
inductive ConnMove (s s' : World) (c c' : Conn) : Prop
  | stored (m : Message) (hpc : c.pc = .store m)
      (hs : s' = s.setLive (wsLiveTryWrite s.live (m.seg * SEG) m.data m.len).1)
      (hc : c' = answer c m.seg (wsLiveTryWrite s.live (m.seg * SEG) m.data m.len).2)
  | rejected (hpc : offMessage c.pc = false) (hc : c' = rejectSegment c)
  | kept (h : Answerless c c') (hoff : offMessage c.pc = offMessage c'.pc)

theorem connGo_move {s s' : World} {c c' : Conn} (h : connGo s c = some (s', c')) :
    ConnMove s s' c c' := by
  unfold connGo at h
  split at h <;> rename_i hpc
  · split at h <;> cases h
    refine .kept (answerless_at c _) ?_
    rw [hpc]
    show true = offMessage (if _ then _ else _)
    split <;> rfl
  · split at h
    · cases h
    · split at h <;> cases h
      · split
        · exact .kept (answerless_at c _) (by rw [hpc]; rfl)
        · exact .kept (answerless_reply c rfl) (by rw [hpc]; rfl)
      · exact .kept (answerless_reply c rfl) (by rw [hpc]; rfl)
  · split at h <;> cases h
    split
    · exact .kept (answerless_at c _) (by rw [hpc]; rfl)
    · exact .kept (answerless_reply c rfl) (by rw [hpc]; rfl)
  · split at h <;> cases h
    · exact .kept (answerless_reply c rfl) (by rw [hpc]; rfl)
    · exact .kept (answerless_at c _) (by rw [hpc]; rfl)
  · cases h
    exact .kept ⟨rfl, .inr ⟨_, rfl, rfl⟩⟩ (by rw [hpc]; rfl)
  · cases h
    split
    · exact .kept ⟨rfl, .inr ⟨_, rfl, rfl⟩⟩ (by rw [hpc]; rfl)
    · exact .kept (answerless_reply c rfl) (by rw [hpc]; rfl)
  · rename_i e
    cases hs : cancelSession s e with
    | mk s₁ next =>
      rw [hs] at h
      cases next with
      | some e' =>
        cases h
        exact .kept (answerless_at c _) (by rw [hpc]; rfl)
      | none =>
        cases h
        exact .kept (answerless_reply c rfl) (by rw [hpc]; rfl)
  · cases h
    exact .kept (answerless_at c _) (by rw [hpc]; rfl)
  · cases h
    split
    · exact .kept (answerless_at c _) (by rw [hpc]; rfl)
    · exact .rejected (by rw [hpc]; rfl) rfl
  · cases h
    split
    · exact .kept (answerless_at c _) (by rw [hpc]; rfl)
    · exact .rejected (by rw [hpc]; rfl) rfl
  · cases h
    exact .stored _ hpc rfl rfl
  · split at h <;> cases h
    · refine .kept (answerless_at c _) ?_
      rw [hpc]
      show true = offMessage (if _ then _ else _)
      split <;> rfl
    · exact .kept (answerless_at c _) (by rw [hpc]; rfl)
  · rename_i pc
    cases hs : endUpload true s pc with
    | mk s₁ next =>
      rw [hs] at h
      cases next with
      | some pc' =>
        cases h
        exact .kept (answerless_at c _) (by rw [hpc]; rfl)
      | none =>
        cases h
        exact .kept (answerless_at c _) (by rw [hpc]; rfl)
  · cases h

theorem conn_move {s s' : World} {c c' : Conn} {e : ConnEvent}
    (hm : takesMessage (.conn e) = false) (h : connTurn s c e = some (s', c')) :
    ConnMove s s' c c' := by
  cases e with
  | go => exact connGo_move h
  | text msg => cases hm
  | binary data len => cases hm
  | create cfgSlots sid allocOk =>
    simp only [connTurn] at h
    split at h
    · rename_i m hpc
      cases h
      split
      · exact .kept (answerless_at c _) (by rw [hpc]; rfl)
      · exact .kept (answerless_reply c rfl) (by rw [hpc]; rfl)
    · cases h
  | disconnect =>
    simp only [connTurn] at h
    split at h
    · rename_i hpc
      cases h
      exact .kept (answerless_at c _) (by rw [hpc]; rfl)
    · cases h

end PkgManager.UploadPage
