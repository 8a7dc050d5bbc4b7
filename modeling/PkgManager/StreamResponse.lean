import PkgManager.CText

namespace PkgManager.StreamResponse

open CText

abbrev Text := List UInt8

def blank (b : UInt8) : Bool := b = 32 ∨ b = 9

def crlf : Text := [13, 10]

/-! Reading a request. -/

/-- The lines `stream_header_value` looks at, from `p` on. -/
def headerLines (name : Text) (size : Nat) : Nat → Text → Option Text
  | 0, _ => none
  | n + 1, p =>
    if p = [] then none
    else
      let eol := match strstr crlf p with
        | some i => i
        | none => (strchr 10 p).getD p.length
      let line := p.take eol
      if name.length + 1 < eol ∧ sameText (line.take name.length) name ∧
          (line)[name.length]? = some 58 then
        let value := ((line.drop (name.length + 1)).dropWhile blank).take (size - 1)
        some (value.reverse.dropWhile fun b => blank b || b = 13 || b = 10).reverse
      else
        let rest := p.drop eol
        let next := rest.drop (if rest.take 2 = crlf then 2 else 1)
        if rest = [] ∨ next = [] ∨ next.head? = some 13 ∨ next.head? = some 10 then none
        else headerLines name size n next

/-- `stream_header_value`. -/
def headerValue (req name : Text) (size : Nat) : Option Text :=
  headerLines name size (upToNul req).length (upToNul req)

/-- Where the first line that names "Range:" begins. -/
def rangeLine : Text → Option Text
  | [] => none
  | b :: s =>
    if b = 10 ∧ sameText ((s.dropWhile blank).take 6) (ascii "range:") then some (s.dropWhile blank)
    else rangeLine s

/-- What `find_range` says: no range was asked for, its first and last byte, or
that it cannot be satisfied. -/
inductive Range where
  | absent
  | bytes (start last : Nat)
  | unsatisfiable

/-- The last `suffix` bytes. -/
def suffixRange (total suffix : Nat) : Range :=
  if total = 0 ∨ min suffix total = 0 then .unsatisfiable
  else .bytes (total - min suffix total) (total - 1)

def spanRange (total start last : Nat) : Range :=
  if total = 0 ∨ last < start ∨ total ≤ start then .unsatisfiable
  else .bytes start (min last (total - 1))

/-- `find_range`. -/
def findRange (request : Text) (total : Nat) : Range :=
  let req := upToNul request
  let plain := ([ascii "Range:", ascii "range:", ascii "RANGE:"].filterMap (strstr · req)).min?
  match (rangeLine req).or (plain.map req.drop) with
  | none => .absent
  | some rl =>
    let le := strstr crlf rl
    match strstr (ascii "bytes=") rl with
    | none => .absent
    | some at' =>
      if le.any (· < at') then .absent
      else
        let b := rl.drop (at' + 6)
        match strchr 45 b with
        | none => .absent
        | some dash =>
          if le.any (· < at' + 6 + dash) then .absent
          else if dash = 0 then suffixRange total (strtoul (b.drop 1)).1
          else
            let after := b.drop (dash + 1)
            spanRange total (strtoul b).1
              (if le.all (at' + 6 + dash + 1 < ·) ∧ after.head?.any isDigit then (strtoul after).1
              else total - 1)

/-- A word of `sscanf`, of at most `n` bytes, and what follows it. -/
def word (n : Nat) (s : Text) : Text × Text :=
  let t := s.dropWhile isSpace
  let w := (t.takeWhile fun b => !isSpace b).take n
  (w, t.drop w.length)

structure RequestLine where
  method : Text
  path : Text
  version : Text

def requestLine (req : Text) : RequestLine :=
  let line := upToNul ((req.takeWhile fun b => b ≠ 13 ∧ b ≠ 10).take 511)
  let method := word 15 line
  let path := word 511 method.2
  let version := word 15 path.2
  ⟨method.1, path.1, version.1⟩

def hasText (pat s : Text) : Bool := (strstr pat (s.map toLower)).isSome

/-- `keep_wanted`: HTTP/1.1 keeps the connection unless it is told otherwise. -/
def keepWanted (req : Text) : Bool :=
  let value := headerValue req (ascii "Connection") 96
  let close := value.any (hasText (ascii "close"))
  let keep := value.any (hasText (ascii "keep-alive"))
  !close && (keep || (requestLine req).version = ascii "HTTP/1.1")

/-! The answers. -/

/-- What the server decides to answer: an icon, the package as a whole of
`total` bytes, or its bytes from `start` to `last`. -/
inductive Answer where
  | methodNotAllowed
  | notFound
  | icon (data : Text)
  | notSatisfiable (total : Nat)
  | whole (total : Nat)
  | part (start last total : Nat)

def Answer.status : Answer → Nat
  | .methodNotAllowed => 405
  | .notFound => 404
  | .icon _ => 200
  | .notSatisfiable _ => 416
  | .whole _ => 200
  | .part _ _ _ => 206

/-- The number behind "Content-Length:". -/
def Answer.contentLength : Answer → Nat
  | .methodNotAllowed => 0
  | .notFound => 0
  | .icon data => data.length
  | .notSatisfiable _ => 0
  | .whole total => total
  | .part start last _ => last - start + 1

def headerLine (name : String) (value : Text) : Text := ascii name ++ ascii ": " ++ value ++ crlf

/-- The head of the response. -/
def Answer.head (a : Answer) (date connTok : Text) : Text :=
  let length := headerLine "Content-Length" (decimal a.contentLength)
  let connection := headerLine "Connection" connTok ++ crlf
  let validators := headerLine "Date" date ++
    headerLine "Last-Modified" (ascii "Wed, 01 Jan 2025 00:00:00 GMT") ++
    headerLine "Content-Type" (ascii "application/octet-stream") ++
    headerLine "Accept-Ranges" (ascii "bytes")
  let disposition :=
    headerLine "Content-Disposition" (ascii "attachment; filename=\"package.pkg\"") ++
      headerLine "Access-Control-Allow-Origin" (ascii "*")
  match a with
  | .methodNotAllowed =>
    ascii "HTTP/1.1 405 Method Not Allowed" ++ crlf ++ headerLine "Allow" (ascii "GET, HEAD") ++
      length ++ connection
  | .notFound => ascii "HTTP/1.1 404 Not Found" ++ crlf ++ length ++ connection
  | .icon _ =>
    ascii "HTTP/1.1 200 OK" ++ crlf ++ headerLine "Content-Type" (ascii "image/png") ++ length ++
      connection
  | .notSatisfiable total =>
    ascii "HTTP/1.1 416 Range Not Satisfiable" ++ crlf ++
      headerLine "Content-Range" (ascii "bytes */" ++ decimal total) ++
      headerLine "Accept-Ranges" (ascii "bytes") ++ length ++ connection
  | .whole _ =>
    ascii "HTTP/1.1 200 OK" ++ crlf ++ validators ++ length ++ disposition ++ connection
  | .part start last total =>
    ascii "HTTP/1.1 206 Partial Content" ++ crlf ++ validators ++ length ++
      headerLine "Content-Range" (ascii "bytes " ++ decimal start ++ ascii "-" ++ decimal last ++
        ascii "/" ++ decimal total) ++ disposition ++ connection

/-! Sending. -/

/-- What `send` answers: how many bytes it took, an interruption or an error. -/
inductive SendAnswer where
  | sent (n : Nat)
  | interrupted
  | failed

/-- `send_all`: the bytes that went out, and whether all did. A list that is used
up stands for the send timeout. -/
def sendAll : List SendAnswer → Text → Text × Bool
  | _, [] => ([], true)
  | [], _ :: _ => ([], false)
  | .interrupted :: rest, b :: buf => sendAll rest (b :: buf)
  | .failed :: _, _ :: _ => ([], false)
  | .sent n :: rest, b :: buf =>
    if n = 0 then ([], false)
    else
      let r := sendAll rest ((b :: buf).drop n)
      ((b :: buf).take n ++ r.1, r.2)

/-- What one pass of the body loop meets: whether the server runs, what
`virtual_stream_read` gives for an offset and a count, none for an error or the
end, and how the chunk is sent. -/
structure Step where
  running : Bool
  read : Nat → Nat → Option Text
  sends : List SendAnswer

/-- `STREAM_SEND_CHUNK`. -/
def sendChunk : Nat := 2048 * 1024

/-- The body loop: what went out, and the offset it stopped at. -/
def bodyLoop (steps : Nat → Step) (last : Nat) : Nat → Nat → Nat → Text × Nat
  | 0, _, off => ([], off)
  | n + 1, k, off =>
    if last < off ∨ (steps k).running = false then ([], off)
    else
      match (steps k).read off (min (last - off + 1) sendChunk) with
      | none => ([], off)
      | some bs =>
        let r := sendAll (steps k).sends bs
        if r.2 = false then (r.1, off)
        else
          let rest := bodyLoop steps last n (k + 1) (off + bs.length)
          (r.1 ++ rest.1, rest.2)

/-! Serving. -/

/-- What serving a request meets: the pinned name, the icon, whether the icon and
the send buffer could be allocated, the date, how the head and the icon are sent,
whether the stream could be pinned and the passes of the body loop. -/
structure Conditions where
  sessionName : Text
  iconName : Text
  iconData : Text
  iconCopied : Bool
  date : Text
  headSends : List SendAnswer
  iconSends : List SendAnswer
  bufferOk : Bool
  acquired : Bool
  steps : Nat → Step

/-- A `*.pkg` name. -/
def isPkgName (base : Text) : Bool :=
  4 < base.length && sameText (base.drop (base.length - 4)) (ascii ".pkg")

def isGet (req : Text) : Bool := (requestLine req).method = ascii "GET"

def isHead (req : Text) : Bool := (requestLine req).method = ascii "HEAD"

/-- The routing of `serve_one_request`. -/
def answerTo (total : Nat) (c : Conditions) (req : Text) : Answer :=
  let route := (requestLine req).path.takeWhile (· ≠ 63)
  let base := baseName route
  if isGet req = false ∧ isHead req = false then .methodNotAllowed
  else if route.take 8 ≠ ascii "/stream/" then .notFound
  else if c.iconName ≠ [] ∧ base = c.iconName ∧ c.iconData ≠ [] ∧ c.iconCopied then .icon c.iconData
  else if c.sessionName ≠ [] ∧ base ≠ c.sessionName then .notFound
  else if c.sessionName = [] ∧ isPkgName base = false then .notFound
  else
    match findRange req total with
    | .unsatisfiable => .notSatisfiable total
    | .absent => .whole total
    | .bytes start last => .part start last total

/-- A request that was served: the answer and its head, what went out on the
socket, and whether the connection is kept. -/
structure Served where
  answer : Answer
  head : Text
  get : Bool
  sent : Text
  keep : Bool

/-- The body of a package response, from `start` to `last`, behind its head. -/
def servePackage (c : Conditions) (get keep : Bool) (head : Text) (start last : Nat) : Text × Bool :=
  if 1024 ≤ head.length then ([], false)
  else
    let h := sendAll c.headSends head
    if h.2 = false then (h.1, false)
    else if get = false then (h.1, keep)
    else if c.bufferOk = false ∨ c.acquired = false then (h.1, false)
    else
      let b := bodyLoop c.steps last (last + 1 - start) 0 start
      (h.1 ++ b.1, decide (last < b.2) && keep)

/-- `serve_one_request` on a stream of `total` bytes. -/
def serveOneRequest (total : Nat) (c : Conditions) (req : Text) : Served :=
  let keep := keepWanted req
  let get := isGet req
  let answer := answerTo total c req
  let head := answer.head c.date (if keep then ascii "keep-alive" else ascii "close")
  let plain := sendAll c.headSends head
  match answer with
  | .whole total =>
    let r := servePackage c get keep head 0 (total - 1)
    ⟨answer, head, get, r.1, r.2⟩
  | .part start last _ =>
    let r := servePackage c get keep head start last
    ⟨answer, head, get, r.1, r.2⟩
  | .icon data =>
    if plain.2 = false ∨ get = false then ⟨answer, head, get, plain.1, plain.2 && keep⟩
    else
      let r := sendAll c.iconSends data
      ⟨answer, head, get, plain.1 ++ r.1, r.2 && keep⟩
  | _ => ⟨answer, head, get, plain.1, plain.2 && keep⟩

/-! What goes out. -/

theorem sendAll_begins (answers : List SendAnswer) (buf : Text) : (sendAll answers buf).1 <+: buf := by
  induction answers generalizing buf with
  | nil => cases buf <;> exact List.nil_prefix
  | cons a rest ih =>
    cases buf with
    | nil => exact List.nil_prefix
    | cons b buf =>
      cases a with
      | interrupted => exact ih (b :: buf)
      | failed => exact List.nil_prefix
      | sent n =>
        unfold sendAll
        by_cases hn : n = 0
        · rw [if_pos hn]
          exact List.nil_prefix
        · rw [if_neg hn]
          have h := (List.prefix_append_right_inj ((b :: buf).take n)).mpr (ih ((b :: buf).drop n))
          rwa [List.take_append_drop] at h

theorem sendAll_complete {answers : List SendAnswer} {buf : Text}
    (h : (sendAll answers buf).2 = true) : (sendAll answers buf).1 = buf := by
  induction answers generalizing buf with
  | nil =>
    cases buf with
    | nil => rfl
    | cons b buf => cases h
  | cons a rest ih =>
    cases buf with
    | nil => rfl
    | cons b buf =>
      cases a with
      | interrupted => exact ih h
      | failed => cases h
      | sent n =>
        unfold sendAll at h ⊢
        by_cases hn : n = 0
        · rw [if_pos hn] at h
          cases h
        · rw [if_neg hn] at h ⊢
          simp only at h ⊢
          rw [ih h, List.take_append_drop]

/-- `virtual_stream_read` gives from one to the asked number of bytes of the
package at the asked offset, or nothing. -/
def Reads (pkg : Text) (c : Conditions) : Prop :=
  ∀ k off want bs, (c.steps k).read off want = some bs →
    0 < bs.length ∧ bs.length ≤ want ∧ bs = (pkg.drop off).take bs.length

theorem bodyLoop_exact {pkg : Text} {c : Conditions} (hr : Reads pkg c) (last n k off : Nat) :
    (bodyLoop c.steps last n k off).1 <+: (pkg.drop off).take (last + 1 - off) ∧
      (last < (bodyLoop c.steps last n k off).2 →
        (bodyLoop c.steps last n k off).1 = (pkg.drop off).take (last + 1 - off)) := by
  induction n generalizing k off with
  | zero =>
    refine ⟨List.nil_prefix, fun hlt => ?_⟩
    have hlt' : last < off := hlt
    have h0 : last + 1 - off = 0 := by omega
    rw [h0]
    rfl
  | succ n ih =>
    unfold bodyLoop
    by_cases hstop : last < off ∨ (c.steps k).running = false
    · rw [if_pos hstop]
      refine ⟨List.nil_prefix, fun hlt => ?_⟩
      have hlt' : last < off := hlt
      have h0 : last + 1 - off = 0 := by omega
      rw [h0]
      rfl
    · rw [if_neg hstop]
      have hle : ¬last < off := fun h => hstop (.inl h)
      cases hread : (c.steps k).read off (min (last - off + 1) sendChunk) with
      | none => exact ⟨List.nil_prefix, fun hlt => absurd hlt hle⟩
      | some bs =>
        obtain ⟨hpos, hmax, hbs⟩ := hr k _ _ bs hread
        have hsplit : last + 1 - off = bs.length + (last + 1 - (off + bs.length)) := by
          have hmin := Nat.min_le_left (last - off + 1) sendChunk
          omega
        have htake : (pkg.drop off).take (last + 1 - off) =
            bs ++ (pkg.drop (off + bs.length)).take (last + 1 - (off + bs.length)) := by
          rw [hsplit, List.take_add, ← hbs, List.drop_drop]
        simp only
        cases hsent : (sendAll (c.steps k).sends bs).2 with
        | false =>
          rw [if_pos rfl, htake]
          refine ⟨?_, fun hlt => absurd hlt hle⟩
          exact (sendAll_begins _ _).trans (List.prefix_append _ _)
        | true =>
          rw [if_neg nofun, htake, sendAll_complete hsent]
          obtain ⟨hbegins, hall⟩ := ih (k + 1) (off + bs.length)
          refine ⟨(List.prefix_append_right_inj bs).mpr hbegins, fun hlt => ?_⟩
          rw [hall hlt]

theorem suffixRange_bytes {total suffix start last : Nat}
    (h : suffixRange total suffix = .bytes start last) : start ≤ last ∧ last < total := by
  unfold suffixRange at h
  split_ifs at h
  cases h
  omega

theorem spanRange_bytes {total first final start last : Nat}
    (h : spanRange total first final = .bytes start last) : start ≤ last ∧ last < total := by
  unfold spanRange at h
  split_ifs at h
  cases h
  omega

theorem findRange_bytes {req : Text} {total start last : Nat}
    (h : findRange req total = .bytes start last) : start ≤ last ∧ last < total := by
  unfold findRange at h
  simp only at h
  generalize (rangeLine (upToNul req)).or _ = found at h
  cases found with
  | none => cases h
  | some rl =>
    simp only at h
    cases hb : strstr (ascii "bytes=") rl with
    | none => simp [hb] at h
    | some at' =>
      simp only [hb] at h
      by_cases hline : (strstr crlf rl).any (· < at') = true
      · rw [if_pos hline] at h
        cases h
      · rw [if_neg hline] at h
        cases hd : strchr 45 (rl.drop (at' + 6)) with
        | none => simp [hd] at h
        | some dash =>
          simp only [hd] at h
          by_cases hdash : (strstr crlf rl).any (· < at' + 6 + dash) = true
          · rw [if_pos hdash] at h
            cases h
          · rw [if_neg hdash] at h
            by_cases h0 : dash = 0
            · rw [if_pos h0] at h
              exact suffixRange_bytes h
            · rw [if_neg h0] at h
              exact spanRange_bytes h

/-! What a response carries. -/

/-- The bytes behind the head of the answer to a GET. -/
def Answer.body (pkg : Text) : Answer → Text
  | .icon data => data
  | .whole _ => pkg
  | .part start last _ => (pkg.drop start).take (last + 1 - start)
  | _ => []

/-- The whole response. -/
def Served.full (pkg : Text) (r : Served) : Text :=
  r.head ++ if r.get then r.answer.body pkg else []

/-- What went out is the response or a beginning of it, and where the connection
is kept it is the response. -/
structure Exact (pkg : Text) (r : Served) : Prop where
  sent : r.sent <+: r.full pkg
  kept : r.keep = true → r.sent = r.full pkg
  length : (r.answer.body pkg).length = r.answer.contentLength

theorem answerTo_length (pkg : Text) (c : Conditions) (req : Text) :
    ((answerTo pkg.length c req).body pkg).length = (answerTo pkg.length c req).contentLength := by
  unfold answerTo
  simp only
  by_cases hmethod : isGet req = false ∧ isHead req = false
  · rw [if_pos hmethod]
    rfl
  · rw [if_neg hmethod]
    split_ifs
    · rfl
    · rfl
    · rfl
    · rfl
    · cases hf : findRange req pkg.length with
      | absent => rfl
      | unsatisfiable => rfl
      | bytes start last =>
        obtain ⟨hle, hlt⟩ := findRange_bytes hf
        show ((pkg.drop start).take (last + 1 - start)).length = last - start + 1
        rw [List.length_take, List.length_drop]
        omega

theorem servePackage_exact {pkg : Text} {c : Conditions} (hr : Reads pkg c) (get keep : Bool)
    (head : Text) (start last : Nat) :
    (servePackage c get keep head start last).1 <+:
        head ++ (if get then (pkg.drop start).take (last + 1 - start) else []) ∧
      ((servePackage c get keep head start last).2 = true →
        (servePackage c get keep head start last).1 =
          head ++ if get then (pkg.drop start).take (last + 1 - start) else []) := by
  unfold servePackage
  by_cases hlong : 1024 ≤ head.length
  · rw [if_pos hlong]
    exact ⟨List.nil_prefix, nofun⟩
  · rw [if_neg hlong]
    simp only
    cases hh : (sendAll c.headSends head).2 with
    | false =>
      rw [if_pos rfl]
      exact ⟨(sendAll_begins _ _).trans (List.prefix_append _ _), nofun⟩
    | true =>
      rw [if_neg nofun, sendAll_complete hh]
      cases get with
      | false =>
        simp only [if_true]
        exact ⟨List.prefix_append _ _, fun _ => (List.append_nil head).symm⟩
      | true =>
        rw [if_neg nofun]
        by_cases hno : c.bufferOk = false ∨ c.acquired = false
        · rw [if_pos hno]
          exact ⟨List.prefix_append _ _, nofun⟩
        · rw [if_neg hno]
          obtain ⟨hbegins, hall⟩ := bodyLoop_exact hr last (last + 1 - start) 0 start
          refine ⟨(List.prefix_append_right_inj head).mpr hbegins, fun hkeep => ?_⟩
          have hdone : last < (bodyLoop c.steps last (last + 1 - start) 0 start).2 :=
            of_decide_eq_true (Bool.and_eq_true_iff.mp hkeep).1
          simp only [if_true, hall hdone]

/-- A response whose head is all there is. -/
theorem plain_exact (c : Conditions) (keep : Bool) (head : Text) :
    (sendAll c.headSends head).1 <+: head ∧
      (((sendAll c.headSends head).2 && keep) = true → (sendAll c.headSends head).1 = head) :=
  ⟨sendAll_begins _ _, fun h => sendAll_complete (Bool.and_eq_true_iff.mp h).1⟩

theorem serveOneRequest_exact {pkg : Text} {c : Conditions} (hr : Reads pkg c) (req : Text) :
    Exact pkg (serveOneRequest pkg.length c req) := by
  have hlength := answerTo_length pkg c req
  have hempty : ∀ (head : Text) (get : Bool), head ++ (if get then [] else []) = head := by
    intro head get
    cases get <;> exact List.append_nil head
  unfold serveOneRequest
  generalize answerTo pkg.length c req = answer at hlength ⊢
  generalize isGet req = get
  generalize keepWanted req = keep
  simp only
  generalize answer.head c.date (if keep then ascii "keep-alive" else ascii "close") = head
  cases answer with
  | methodNotAllowed | notFound | notSatisfiable =>
    obtain ⟨hsent, hkept⟩ := plain_exact c keep head
    refine ⟨?_, fun hk => ?_, hlength⟩
    · simpa only [Served.full, Answer.body, hempty] using hsent
    · simpa only [Served.full, Answer.body, hempty] using hkept hk
  | whole total =>
    have hall : (pkg.drop 0).take (total - 1 + 1 - 0) = pkg := by
      have htotal : pkg.length = total := hlength
      rw [List.drop_zero]
      exact List.take_of_length_le (by omega)
    obtain ⟨hsent, hkept⟩ := servePackage_exact hr get keep head 0 (total - 1)
    rw [hall] at hsent hkept
    exact ⟨hsent, hkept, hlength⟩
  | part start last total =>
    obtain ⟨hsent, hkept⟩ := servePackage_exact hr get keep head start last
    exact ⟨hsent, hkept, hlength⟩
  | icon data =>
    simp only
    cases hh : (sendAll c.headSends head).2 with
    | false =>
      rw [if_pos (.inl rfl)]
      exact ⟨(sendAll_begins _ _).trans (List.prefix_append _ _), nofun, hlength⟩
    | true =>
      have hhead := sendAll_complete hh
      cases get with
      | false =>
        rw [if_pos (.inr rfl), hhead]
        exact ⟨List.prefix_append _ _, fun _ => (List.append_nil head).symm, hlength⟩
      | true =>
        rw [if_neg (by simp), hhead]
        refine ⟨(List.prefix_append_right_inj head).mpr (sendAll_begins _ _), fun hk => ?_, hlength⟩
        have hdata := sendAll_complete (Bool.and_eq_true_iff.mp hk).1
        exact congrArg (head ++ ·) hdata

end PkgManager.StreamResponse
