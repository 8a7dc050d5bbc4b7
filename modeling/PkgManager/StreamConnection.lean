import PkgManager.StreamResponse

namespace PkgManager.StreamConnection

open CText StreamResponse

/-- `STREAM_REQ_MAX`. -/
def reqMax : Nat := 16 * 1024

/-- `STREAM_MAX_REQ_PER_CONN`. -/
def maxReqPerConn : Nat := 100

/-- What `recv` answers: the next bytes of the client, none of them at the end,
an interruption or an error. -/
inductive RecvAnswer where
  | data (bs : Text)
  | interrupted
  | failed

def headerEnd (req : Text) : Option Nat := strstr (crlf ++ crlf) req

/-- The request as far as it was received, whether `recv` failed, and what the
client sends after it. -/
structure Received where
  req : Text
  failed : Bool
  rest : List RecvAnswer

/-- The receive loop. A list that is used up stands for the receive timeout. -/
def recvLoop : List RecvAnswer → Text → Received
  | [], req => ⟨req, decide (req.length < reqMax), []⟩
  | a :: rest, req =>
    if reqMax ≤ req.length then ⟨req, false, a :: rest⟩
    else
      match a with
      | .interrupted => recvLoop rest req
      | .failed => ⟨req, true, rest⟩
      | .data bs =>
        let room := reqMax - req.length
        if bs = [] then ⟨req, false, rest⟩
        else if room < bs.length then ⟨req ++ bs.take room, false, .data (bs.drop room) :: rest⟩
        else if headerEnd (req ++ bs) ≠ none then ⟨req ++ bs, false, rest⟩
        else recvLoop rest (req ++ bs)

/-- The next request: the bytes carried over, and what has to be received. -/
def nextRequest (carry : Text) (answers : List RecvAnswer) : Received :=
  if carry = [] ∨ headerEnd carry = none then recvLoop answers carry else ⟨carry, false, answers⟩

/-- The loop of `serve_connection`: the requests it serves before it returns and
the connection is closed. -/
def serveLoop (total : Nat) (running : Nat → Bool) (conds : Nat → Conditions) :
    Nat → Nat → Text → List RecvAnswer → List Served
  | 0, _, _, _ => []
  | n + 1, k, carry, answers =>
    if running k = false then []
    else
      let got := nextRequest carry answers
      if got.req = [] ∨ got.failed then []
      else
        match headerEnd got.req with
        | none => [{ serveOneRequest total (conds k) got.req with keep := false }]
        | some i =>
          let served := serveOneRequest total (conds k) (got.req.take (i + 4))
          if served.keep = false then [served]
          else served :: serveLoop total running conds n (k + 1) (got.req.drop (i + 4)) got.rest

/-- `serve_connection` on a stream of `total` bytes. -/
def serveConnection (total : Nat) (running : Nat → Bool) (conds : Nat → Conditions)
    (answers : List RecvAnswer) : List Served :=
  serveLoop total running conds maxReqPerConn 0 [] answers

/-- The bytes that go out on a connection. -/
def wire (rs : List Served) : Text := (rs.map Served.sent).flatten

/-- Every response is sent as it should be, and after one that is not kept, which
may be cut off, nothing is sent any more. -/
structure Framed (pkg : Text) (rs : List Served) : Prop where
  exact : ∀ r ∈ rs, Exact pkg r
  kept : ∀ r ∈ rs.dropLast, r.keep = true
  wire : wire rs <+: (rs.map (Served.full pkg)).flatten
  whole : (∀ r ∈ rs, r.keep = true) → StreamConnection.wire rs = (rs.map (Served.full pkg)).flatten

theorem framed_nil (pkg : Text) : Framed pkg [] :=
  ⟨nofun, nofun, List.nil_prefix, fun _ => rfl⟩

theorem framed_last {pkg : Text} {r : Served} (h : Exact pkg r) : Framed pkg [r] := by
  refine ⟨fun r' hr' => ?_, nofun, ?_, fun hall => ?_⟩
  · obtain rfl := List.mem_singleton.mp hr'
    exact h
  · simpa [StreamConnection.wire] using h.sent
  · simpa [StreamConnection.wire] using h.kept (hall r (List.mem_singleton.mpr rfl))

theorem framed_cons {pkg : Text} {r : Served} {rs : List Served} (h : Exact pkg r)
    (hk : r.keep = true) (hrs : Framed pkg rs) : Framed pkg (r :: rs) := by
  have hwire : StreamConnection.wire (r :: rs) = r.full pkg ++ StreamConnection.wire rs := by
    rw [← h.kept hk]
    rfl
  have hfull : ((r :: rs).map (Served.full pkg)).flatten =
      r.full pkg ++ (rs.map (Served.full pkg)).flatten := rfl
  refine ⟨fun r' hr' => ?_, fun r' hr' => ?_, ?_, fun hall => ?_⟩
  · cases hr' with
    | head => exact h
    | tail _ hr' => exact hrs.exact r' hr'
  · cases rs with
    | nil => cases hr'
    | cons r2 rs =>
      cases hr' with
      | head => exact hk
      | tail _ hr' => exact hrs.kept r' hr'
  · rw [hwire, hfull]
    exact (List.prefix_append_right_inj _).mpr hrs.wire
  · rw [hwire, hfull, hrs.whole fun r' hr' => hall r' (List.mem_cons_of_mem r hr')]

theorem serveLoop_framed {pkg : Text} {running : Nat → Bool} {conds : Nat → Conditions}
    (hr : ∀ k, Reads pkg (conds k)) (n k : Nat) (carry : Text) (answers : List RecvAnswer) :
    Framed pkg (serveLoop pkg.length running conds n k carry answers) := by
  induction n generalizing k carry answers with
  | zero => exact framed_nil pkg
  | succ n ih =>
    unfold serveLoop
    simp only
    by_cases hrun : running k = false
    · rw [if_pos hrun]
      exact framed_nil pkg
    · rw [if_neg hrun]
      by_cases hend : (nextRequest carry answers).req = [] ∨ (nextRequest carry answers).failed = true
      · rw [if_pos hend]
        exact framed_nil pkg
      · rw [if_neg hend]
        cases hat : headerEnd (nextRequest carry answers).req with
        | none =>
          have he := serveOneRequest_exact (hr k) (nextRequest carry answers).req
          exact framed_last ⟨he.sent, nofun, he.length⟩
        | some i =>
          have he := serveOneRequest_exact (hr k) ((nextRequest carry answers).req.take (i + 4))
          simp only
          cases hkeep : (serveOneRequest pkg.length (conds k)
            ((nextRequest carry answers).req.take (i + 4))).keep with
          | false =>
            rw [if_pos rfl]
            exact framed_last he
          | true =>
            rw [if_neg nofun]
            exact framed_cons he hkeep (ih _ _ _)

/-- On every connection the responses follow each other whole: a GET that was
answered with a part of the package or all of it is followed by exactly these
bytes, as many as its head says, and one for the icon by the icon; other
responses have no body; and only the last response can be cut off. -/
theorem connection_framed {pkg : Text} {conds : Nat → Conditions} (hr : ∀ k, Reads pkg (conds k))
    (running : Nat → Bool) (answers : List RecvAnswer) :
    Framed pkg (serveConnection pkg.length running conds answers) :=
  serveLoop_framed hr maxReqPerConn 0 [] answers

/-- A read that gives as many bytes as it can. -/
def readAll (pkg : Text) (off want : Nat) : Option Text :=
  if ((pkg.drop off).take want) = [] then none else some ((pkg.drop off).take want)

/-- A session with an icon in which everything succeeds. -/
def smooth (pkg : Text) : Conditions where
  sessionName := ascii "a.pkg"
  iconName := ascii "i.png"
  iconData := [7]
  iconCopied := true
  date := []
  headSends := [.sent 1024]
  iconSends := [.sent 1]
  bufferOk := true
  acquired := true
  steps _ := ⟨true, readAll pkg, [.sent sendChunk]⟩

theorem smooth_reads (pkg : Text) : Reads pkg (smooth pkg) := by
  intro k off want bs h
  have h' : readAll pkg off want = some bs := h
  unfold readAll at h'
  split_ifs at h' with hnil
  obtain rfl := Option.some.inj h'
  refine ⟨List.length_pos_iff.mpr hnil, List.length_take_le _ _, ?_⟩
  rw [List.length_take, List.take_eq_take_min]

def rangeRequest : Text := ascii "GET /stream/a.pkg HTTP/1.1\r\nRange: bytes=1-2\r\n\r\n"

def iconRequest : Text := ascii "GET /stream/i.png HTTP/1.1\r\n\r\n"

/-- Two requests in one piece. -/
theorem connection_framed_two :
    Framed [1, 2, 3] (serveConnection 3 (fun _ => true) (fun _ => smooth [1, 2, 3])
        [.data (rangeRequest ++ iconRequest), .data []]) ∧
      (serveConnection 3 (fun _ => true) (fun _ => smooth [1, 2, 3])
        [.data (rangeRequest ++ iconRequest), .data []]).map (fun r => (r.answer.status, r.keep)) =
          [(206, true), (200, true)] :=
  ⟨connection_framed (fun _ => smooth_reads [1, 2, 3]) _ _, by decide +kernel⟩

/-- What a GET answered with 200 or 206 is followed by is not always of the package. -/
theorem connection_framed_fails :
    ¬∀ (pkg : Text) (conds : Nat → Conditions), (∀ k, Reads pkg (conds k)) →
      ∀ running answers, ∀ r ∈ serveConnection pkg.length running conds answers,
        r.get = true → r.answer.status = 200 ∨ r.answer.status = 206 → r.keep = true →
          ∃ start last, r.answer.contentLength = last + 1 - start ∧
            r.sent = r.head ++ (pkg.drop start).take (last + 1 - start) := by
  intro hall
  have hgood := hall [1, 2, 3] (fun _ => smooth [1, 2, 3]) (fun _ => smooth_reads [1, 2, 3])
    (fun _ => true) [.data iconRequest, .data []]
  have hicon : (serveConnection 3 (fun _ => true) (fun _ => smooth [1, 2, 3])
      [.data iconRequest, .data []]).map
        (fun r => (r.get, r.answer.status, r.keep, r.sent.drop r.head.length)) =
      [(true, 200, true, [7])] := by decide
  have hlen : [(1 : UInt8), 2, 3].length = 3 := rfl
  rw [hlen] at hgood
  generalize serveConnection 3 (fun _ => true) (fun _ => smooth [1, 2, 3])
    [.data iconRequest, .data []] = rs at hgood hicon
  cases rs with
  | nil => cases hicon
  | cons r rs =>
    obtain ⟨hfacts, _⟩ := List.cons_eq_cons.mp hicon
    simp only [Prod.mk.injEq] at hfacts
    obtain ⟨hget, hstatus, hkeep, hbody⟩ := hfacts
    obtain ⟨start, last, _, hsent⟩ := hgood r List.mem_cons_self hget (.inl hstatus) hkeep
    rw [hsent, List.drop_left] at hbody
    have hmem : (7 : UInt8) ∈ ([1, 2, 3] : Text) := by
      refine List.mem_of_mem_drop (i := start) (List.mem_of_mem_take (i := last + 1 - start) ?_)
      rw [hbody]
      exact List.mem_singleton.mpr rfl
    revert hmem
    decide

end PkgManager.StreamConnection
