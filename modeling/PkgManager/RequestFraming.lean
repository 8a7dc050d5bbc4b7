import PkgManager.StreamConnection

namespace PkgManager.RequestFraming

open CText StreamResponse StreamConnection

/-! Requests on one connection, however they are cut into pieces. -/

/-- A header block: its first blank line is its end. -/
structure HeaderBlock (b : Text) : Prop where
  ends : headerEnd b = some (b.length - 4)
  fits : b.length ≤ reqMax

/-- What `recv` gives before the end or an error. -/
def delivered : List RecvAnswer → Text
  | [] => []
  | .data bs :: rest => if bs = [] then [] else bs ++ delivered rest
  | .interrupted :: rest => delivered rest
  | .failed :: _ => []

/-- The blocks are answered one by one, until one response is not kept or the
server stops. -/
def answerBlocks (total : Nat) (running : Nat → Bool) (conds : Nat → Conditions) :
    Nat → Nat → List Text → List Served
  | 0, _, _ => []
  | _ + 1, _, [] => []
  | n + 1, k, b :: bs =>
    if running k = false then []
    else
      let served := serveOneRequest total (conds k) b
      if served.keep = false then [served]
      else served :: answerBlocks total running conds n (k + 1) bs

/-! One header block. -/

theorem HeaderBlock.length {b : Text} (hb : HeaderBlock b) : 4 ≤ b.length := by
  have hle := strstr_le hb.ends
  have hpat : (crlf ++ crlf).length = 4 := rfl
  omega

/-- A text with the block in front ends its first block there. -/
theorem HeaderBlock.headerEnd {b : Text} (hb : HeaderBlock b) (more : Text) :
    headerEnd (b ++ more) = some (b.length - 4) :=
  strstr_append (List.cons_ne_nil _ _) more hb.ends

/-- A beginning of the stream that has a blank line has the whole block. -/
theorem HeaderBlock.whole {b more req rest : Text} (hb : HeaderBlock b) (h : req ++ rest = b ++ more)
    (hend : StreamConnection.headerEnd req ≠ none) : b <+: req := by
  refine List.prefix_of_prefix_length_le (List.prefix_append b more) ⟨rest, h⟩ ?_
  obtain ⟨j, hj⟩ := Option.ne_none_iff_exists'.mp hend
  by_contra hshort
  have hreq : req <+: b :=
    List.prefix_of_prefix_length_le ⟨rest, h⟩ (List.prefix_append b more) (by omega)
  obtain ⟨more', rfl⟩ := hreq
  have hfound : StreamConnection.headerEnd (req ++ more') = some j :=
    strstr_append (List.cons_ne_nil _ _) more' hj
  have hle := strstr_le hj
  have hj' := Option.some.inj (hfound.symm.trans hb.ends)
  have hpat : (crlf ++ crlf).length = 4 := rfl
  omega

/-- A beginning without a blank line has not the whole block. -/
theorem HeaderBlock.short {b more req rest : Text} (hb : HeaderBlock b) (h : req ++ rest = b ++ more)
    (hend : StreamConnection.headerEnd req = none) : req.length < b.length := by
  by_contra hlong
  have hpre : b <+: req :=
    List.prefix_of_prefix_length_le (List.prefix_append b more) ⟨rest, h⟩ (by omega)
  obtain ⟨more', rfl⟩ := hpre
  rw [hb.headerEnd more'] at hend
  cases hend

/-! One request is received. -/

/-- The request holds the block, and what is behind it is still to come. -/
structure Holds (b more : Text) (got : Received) : Prop where
  block : b <+: got.req
  ok : got.failed = false
  fits : got.req.length ≤ reqMax
  rest : got.req ++ delivered got.rest = b ++ more

theorem recvLoop_holds {b more : Text} (hb : HeaderBlock b) {answers : List RecvAnswer} {req : Text}
    (hfits : req.length ≤ reqMax) (hnone : headerEnd req = none)
    (h : req ++ delivered answers = b ++ more) : Holds b more (recvLoop answers req) := by
  -- as long as the block is not whole there is room, and neither an end nor an error
  induction answers generalizing req with
  | nil =>
    have hshort := hb.short h hnone
    have hlen := congrArg List.length h
    simp [delivered] at hlen
    omega
  | cons a rest ih =>
    have hshort := hb.short h hnone
    have hroom : ¬reqMax ≤ req.length := by
      have hle := hb.fits
      omega
    have hmore : delivered (a :: rest) ≠ [] := by
      intro hnil
      rw [hnil, List.append_nil] at h
      have hlen := congrArg List.length h
      rw [List.length_append] at hlen
      omega
    unfold recvLoop
    rw [if_neg hroom]
    cases a with
    | interrupted => exact ih hfits hnone h
    | failed => exact absurd rfl hmore
    | data bs =>
      have hbs : bs ≠ [] := fun hnil => hmore (if_pos hnil)
      have hall : (req ++ bs) ++ delivered rest = b ++ more := by
        rw [List.append_assoc, ← h, delivered, if_neg hbs]
      simp only
      rw [if_neg hbs]
      by_cases hbig : reqMax - req.length < bs.length
      · rw [if_pos hbig]
        have hrest : bs.drop (reqMax - req.length) ≠ [] := by
          intro hnil
          have hlen := congrArg List.length hnil
          rw [List.length_drop, List.length_nil] at hlen
          omega
        have hsame : (req ++ bs.take (reqMax - req.length)) ++
            delivered (.data (bs.drop (reqMax - req.length)) :: rest) = b ++ more := by
          rw [delivered, if_neg hrest, ← hall, List.append_assoc, List.append_assoc,
            ← List.append_assoc (bs.take _), List.take_append_drop]
        have hlen : (req ++ bs.take (reqMax - req.length)).length = reqMax := by
          rw [List.length_append, List.length_take]
          omega
        refine ⟨?_, rfl, by simp only [hlen]; exact Nat.le_refl _, hsame⟩
        refine List.prefix_of_prefix_length_le (List.prefix_append b more) ⟨_, hsame⟩ ?_
        rw [hlen]
        exact hb.fits
      · rw [if_neg hbig]
        have hfits' : (req ++ bs).length ≤ reqMax := by
          rw [List.length_append]
          omega
        by_cases hend : headerEnd (req ++ bs) ≠ none
        · rw [if_pos hend]
          exact ⟨hb.whole hall hend, rfl, hfits', hall⟩
        · rw [if_neg hend]
          exact ih hfits' (not_not.mp hend) hall

theorem nextRequest_holds {b more carry : Text} (hb : HeaderBlock b) {answers : List RecvAnswer}
    (hfits : carry.length ≤ reqMax) (h : carry ++ delivered answers = b ++ more) :
    Holds b more (nextRequest carry answers) := by
  unfold nextRequest
  by_cases hrecv : carry = [] ∨ headerEnd carry = none
  · rw [if_pos hrecv]
    have hnone : headerEnd carry = none := by
      rcases hrecv with rfl | hnone
      · rfl
      · exact hnone
    exact recvLoop_holds hb hfits hnone h
  · rw [if_neg hrecv]
    rw [not_or] at hrecv
    exact ⟨hb.whole h hrecv.2, rfl, hfits, h⟩

theorem recvLoop_nothing {answers : List RecvAnswer} (h : delivered answers = []) :
    (recvLoop answers []).req = [] := by
  induction answers with
  | nil => rfl
  | cons a rest ih =>
    unfold recvLoop
    rw [if_neg (by decide)]
    cases a with
    | interrupted => exact ih h
    | failed => rfl
    | data bs =>
      rw [delivered] at h
      by_cases hbs : bs = []
      · simp only
        rw [if_pos hbs]
      · rw [if_neg hbs] at h
        exact absurd (List.append_eq_nil_iff.mp h).1 hbs

/-! The loop. -/

theorem serveLoop_blocks (total : Nat) (running : Nat → Bool) (conds : Nat → Conditions) (n k : Nat)
    {blocks : List Text} (hblocks : ∀ b ∈ blocks, HeaderBlock b) {carry : Text}
    {answers : List RecvAnswer} (hfits : carry.length ≤ reqMax)
    (h : carry ++ delivered answers = blocks.flatten) :
    serveLoop total running conds n k carry answers = answerBlocks total running conds n k blocks := by
  induction n generalizing k blocks carry answers with
  | zero => rfl
  | succ n ih =>
    unfold serveLoop
    cases blocks with
    | nil =>
      obtain ⟨hcarry, hnothing⟩ := List.append_eq_nil_iff.mp h
      have hreq : (nextRequest carry answers).req = [] := by
        unfold nextRequest
        rw [if_pos (.inl hcarry), hcarry]
        exact recvLoop_nothing hnothing
      simp only [hreq, true_or, if_true, ite_self]
      rfl
    | cons b bs =>
      have hb := hblocks b List.mem_cons_self
      have hgot := nextRequest_holds hb hfits (h.trans List.flatten_cons)
      obtain ⟨more, hmore⟩ := hgot.block
      have hend : headerEnd (nextRequest carry answers).req = some (b.length - 4) := by
        rw [← hmore]
        exact hb.headerEnd more
      have hlen := hb.length
      have hcut : b.length - 4 + 4 = b.length := by omega
      have htake : (nextRequest carry answers).req.take b.length = b := by
        rw [← hmore, List.take_left]
      have hdrop : (nextRequest carry answers).req.drop b.length ++
          delivered (nextRequest carry answers).rest = bs.flatten := by
        have hrest := hgot.rest
        rw [← hmore, List.append_assoc, List.append_cancel_left_eq] at hrest
        rw [← hmore, List.drop_left]
        exact hrest
      have hgo : ¬((nextRequest carry answers).req = [] ∨
          (nextRequest carry answers).failed = true) := by
        rw [hgot.ok]
        rintro (hnil | hfail)
        · rw [hnil] at htake
          rw [← htake, List.take_nil] at hlen
          exact absurd hlen (by decide)
        · cases hfail
      dsimp only
      rw [if_neg hgo, hend]
      dsimp only
      rw [hcut, htake, answerBlocks]
      rw [ih (k + 1) (fun c hc => hblocks c (List.mem_cons_of_mem b hc)) ?_ hdrop]
      have hle := hgot.fits
      rw [List.length_drop]
      omega

/-- Why no more than `m` of the blocks were answered. -/
def Stopped (running : Nat → Bool) (limit m : Nat) (rs : List Served) : Prop :=
  m = limit ∨ running m = false ∨ ∃ r, rs.getLast? = some r ∧ r.keep = false

theorem answerBlocks_spec (total : Nat) (running : Nat → Bool) (conds : Nat → Conditions) (n k : Nat)
    (blocks : List Text) :
    ∃ m ≤ min n blocks.length,
      answerBlocks total running conds n k blocks =
        (blocks.take m).mapIdx (fun j b => serveOneRequest total (conds (k + j)) b) ∧
      (∀ j < m, running (k + j) = true) ∧
      (∀ r ∈ (answerBlocks total running conds n k blocks).dropLast, r.keep = true) ∧
      Stopped (fun j => running (k + j)) (min n blocks.length) m
        (answerBlocks total running conds n k blocks) := by
  induction n generalizing k blocks with
  | zero => exact ⟨0, Nat.zero_le _, rfl, nofun, nofun, .inl (Nat.zero_min _).symm⟩
  | succ n ih =>
    cases blocks with
    | nil => exact ⟨0, Nat.zero_le _, rfl, nofun, nofun, .inl (Nat.min_zero _).symm⟩
    | cons b bs =>
      unfold answerBlocks
      by_cases hrun : running k = false
      · rw [if_pos hrun]
        exact ⟨0, Nat.zero_le _, rfl, nofun, nofun, .inr (.inl hrun)⟩
      · rw [if_neg hrun]
        simp only
        have hone : 1 ≤ min (n + 1) (b :: bs).length := by
          rw [List.length_cons]
          omega
        cases hkeep : (serveOneRequest total (conds k) b).keep with
        | false =>
          rw [if_pos rfl]
          refine ⟨1, hone, rfl, fun j hj => ?_, nofun, .inr (.inr ⟨_, rfl, hkeep⟩)⟩
          obtain rfl : j = 0 := by omega
          exact eq_true_of_ne_false hrun
        | true =>
          rw [if_neg nofun]
          obtain ⟨m, hm, heq, hrunning, hkept, hstop⟩ := ih (k + 1) bs
          generalize answerBlocks total running conds n (k + 1) bs = rs at heq hkept hstop
          refine ⟨m + 1, ?_, ?_, ?_, ?_, ?_⟩
          · rw [List.length_cons]
            omega
          · have hshift : (fun j c => serveOneRequest total (conds (k + 1 + j)) c) =
                fun j c => serveOneRequest total (conds (k + (j + 1))) c := by
              funext j c
              rw [Nat.add_right_comm, Nat.add_assoc]
            rw [heq, hshift, List.take_succ_cons, List.mapIdx_cons, Nat.add_zero]
          · intro j hj
            cases j with
            | zero => exact eq_true_of_ne_false hrun
            | succ j =>
              have hrun' := hrunning j (by omega)
              rwa [Nat.add_right_comm, Nat.add_assoc] at hrun'
          · intro r hr
            cases rs with
            | nil => cases hr
            | cons r2 rs =>
              cases hr with
              | head => exact hkeep
              | tail _ hr => exact hkept r hr
          · rcases hstop with hall | hdown | ⟨r, hlast, hclosed⟩
            · refine .inl ?_
              rw [List.length_cons]
              omega
            · have hdown' : running (k + 1 + m) = false := hdown
              rw [Nat.add_right_comm, Nat.add_assoc] at hdown'
              exact .inr (.inl hdown')
            · refine .inr (.inr ⟨r, ?_, hclosed⟩)
              cases rs with
              | nil => cases hlast
              | cons r2 rs => exact hlast

/-- The requests of a stream of header blocks are answered in order, each once and
with its own block, until the cap is reached, a response is not kept or the server stops. -/
theorem requests_framed (total : Nat) (running : Nat → Bool) (conds : Nat → Conditions)
    {blocks : List Text} {answers : List RecvAnswer} (hblocks : ∀ b ∈ blocks, HeaderBlock b)
    (hsent : delivered answers = blocks.flatten) :
    ∃ m ≤ min maxReqPerConn blocks.length,
      serveConnection total running conds answers =
        (blocks.take m).mapIdx (fun k b => serveOneRequest total (conds k) b) ∧
      (∀ k < m, running k = true) ∧
      (∀ r ∈ (serveConnection total running conds answers).dropLast, r.keep = true) ∧
      Stopped running (min maxReqPerConn blocks.length) m
        (serveConnection total running conds answers) := by
  have hloop : serveConnection total running conds answers =
      answerBlocks total running conds maxReqPerConn 0 blocks :=
    serveLoop_blocks total running conds maxReqPerConn 0 hblocks (Nat.zero_le _) hsent
  rw [hloop]
  have hspec := answerBlocks_spec total running conds maxReqPerConn 0 blocks
  simpa only [Nat.zero_add] using hspec

def closingRequest : Text := ascii "GET /stream/a.pkg HTTP/1.1\r\nConnection: close\r\n\r\n"

theorem requests_framed_two :
    ∃ m ≤ min maxReqPerConn 2,
      serveConnection 3 (fun _ => true) (fun _ => smooth [1, 2, 3])
          [.data (rangeRequest ++ iconRequest.take 9), .interrupted, .data (iconRequest.drop 9)] =
        ([rangeRequest, iconRequest].take m).mapIdx
          (fun _ b => serveOneRequest 3 (smooth [1, 2, 3]) b) := by
  have hblocks : ∀ b ∈ [rangeRequest, iconRequest], HeaderBlock b := by
    intro b hb
    rcases List.mem_pair.mp hb with rfl | rfl
    · exact ⟨by decide, by decide⟩
    · exact ⟨by decide, by decide⟩
  have hsent : delivered [.data (rangeRequest ++ iconRequest.take 9), .interrupted,
      .data (iconRequest.drop 9)] = [rangeRequest, iconRequest].flatten := by decide
  obtain ⟨m, hm, heq, -⟩ :=
    requests_framed 3 (fun _ => true) (fun _ => smooth [1, 2, 3]) hblocks hsent
  exact ⟨m, hm, heq⟩

/-- A request behind one that asks for the connection to be closed is not answered. -/
theorem requests_framed_fails :
    ¬∀ (total : Nat) (conds : Nat → Conditions) (blocks : List Text) (answers : List RecvAnswer),
      (∀ b ∈ blocks, HeaderBlock b ∧ isGet b = true) → delivered answers = blocks.flatten →
        serveConnection total (fun _ => true) conds answers =
          (blocks.take maxReqPerConn).mapIdx (fun k b => serveOneRequest total (conds k) b) := by
  intro hall
  have hblocks : ∀ b ∈ [closingRequest, iconRequest], HeaderBlock b ∧ isGet b = true := by
    intro b hb
    rcases List.mem_pair.mp hb with rfl | rfl
    · exact ⟨⟨by decide, by decide⟩, by decide⟩
    · exact ⟨⟨by decide, by decide⟩, by decide⟩
  have heq := hall 3 (fun _ => smooth [1, 2, 3]) [closingRequest, iconRequest]
    [.data (closingRequest ++ iconRequest), .data []] hblocks (by decide)
  have hlen := congrArg List.length heq
  revert hlen
  decide +kernel

end PkgManager.RequestFraming
