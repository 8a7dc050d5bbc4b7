import PkgManager.QuotedText
import PkgManager.StreamConnection

namespace PkgManager.WsHandshake

open CText StreamResponse StreamConnection QuotedText

/-! The HTTP request in front of the frames. `has_header` is the function
`stream_header_value` of the stream server. -/

/-- What `hs` holds apart from its NUL. -/
def hsMax : Nat := 8191

/-- What a `recv` of `room` bytes yields: as many as the cut says, one at least
while there are any. -/
def recvBytes (cut room : Nat) (input : Text) : Text := input.take (max 1 (min cut room))

/-- The bytes in `hs`, those that the client sends after them, and how often
`recv` was called. -/
structure Shaken where
  hs : Text
  input : Text
  recvs : Nat

/-- The loop that reads the handshake; `cut` says how the bytes are split. -/
def readHandshake (cut : Nat → Nat) : Nat → Shaken → Shaken
  | 0, s => s
  | n + 1, s =>
    if hsMax ≤ s.hs.length then s
    else
      let got := recvBytes (cut s.recvs) (hsMax - s.hs.length) s.input
      if got = [] then s
      else
        let s := ⟨s.hs ++ got, s.input.drop got.length, s.recvs + 1⟩
        if headerEnd s.hs ≠ none then s else readHandshake cut n s

/-- `ws_direct_handshake_accept_key`, with SHA-1 and Base64 as one function. -/
def acceptKey (digest : Text → Text) (clientKey : Text) : Option Text :=
  if clientKey = [] then none
  else
    let key := (((clientKey.dropWhile blank).take 255).reverse.dropWhile
      fun b => blank b || b = 13 || b = 10).reverse
    if key = [] then none else some (digest (key ++ ascii "258EAFA5-E914-47DA-95CA-C5AB0DC85B11"))

/-- The checks of the handshake, and the key for the answer where it passes. -/
def handshake (digest : Text → Text) (hs : Text) : Option Text :=
  let method := word 15 (upToNul hs)
  let path := word 511 method.2
  match headerValue hs (ascii "Upgrade") 64, headerValue hs (ascii "Sec-WebSocket-Key") 256 with
  | some up, some key =>
    if headerEnd hs ≠ none ∧ method.1 = ascii "GET" ∧ ascii "/ws/upload" <+: path.1 ∧
        hasText (ascii "websocket") up then
      acceptKey digest key
    else none
  | _, _ => none

/-! What is read of the client's bytes. -/

theorem recvBytes_prefix (cut room : Nat) (input : Text) :
    recvBytes cut room input ++ input.drop (recvBytes cut room input).length = input := by
  unfold recvBytes
  generalize max 1 (min cut room) = n
  rw [List.length_take]
  by_cases h : n ≤ input.length
  · rw [Nat.min_eq_left h, List.take_append_drop]
  · rw [Nat.min_eq_right (by omega), List.drop_length, List.append_nil,
      List.take_of_length_le (by omega)]

theorem recvBytes_nil {cut room : Nat} {input : Text} (h : recvBytes cut room input = []) :
    input = [] := by
  unfold recvBytes at h
  rcases List.take_eq_nil_iff.mp h with h | h
  · omega
  · exact h

theorem length_recvBytes_le (cut : Nat) {room : Nat} (hroom : 0 < room) (input : Text) :
    (recvBytes cut room input).length ≤ room := by
  unfold recvBytes
  rw [List.length_take]
  omega

/-- What was read of the bytes `S`. -/
structure ReadOf (S : Text) (s : Shaken) : Prop where
  bytes : s.hs ++ s.input = S
  length : s.hs.length ≤ hsMax

theorem readHandshake_reads {S : Text} (cut : Nat → Nat) (n : Nat) {s : Shaken} (h : ReadOf S s)
    (hn : hsMax ≤ s.hs.length + n) :
    ReadOf S (readHandshake cut n s) ∧ (headerEnd (readHandshake cut n s).hs ≠ none ∨
      (readHandshake cut n s).hs = S.take hsMax) := by
  have hfull {s : Shaken} (h : ReadOf S s) (hle : hsMax ≤ s.hs.length) : s.hs = S.take hsMax := by
    rw [← h.bytes, Nat.le_antisymm hle h.length, List.take_left]
  induction n generalizing s with
  | zero => exact ⟨h, .inr (hfull h hn)⟩
  | succ n ih =>
    unfold readHandshake
    by_cases hle : hsMax ≤ s.hs.length
    · rw [if_pos hle]
      exact ⟨h, .inr (hfull h hle)⟩
    · rw [if_neg hle]
      dsimp only
      by_cases hgot : recvBytes (cut s.recvs) (hsMax - s.hs.length) s.input = []
      · rw [if_pos hgot]
        refine ⟨h, .inr ?_⟩
        have hS : s.hs = S := by
          rw [← h.bytes, recvBytes_nil hgot, List.append_nil]
        rw [← hS, List.take_of_length_le h.length]
      · rw [if_neg hgot]
        have hpre := recvBytes_prefix (cut s.recvs) (hsMax - s.hs.length) s.input
        have hlen := length_recvBytes_le (cut s.recvs) (show 0 < hsMax - s.hs.length by omega) s.input
        have hpos := List.length_pos_iff.mpr hgot
        generalize recvBytes (cut s.recvs) (hsMax - s.hs.length) s.input = got at hpre hlen hpos
        have hread : ReadOf S ⟨s.hs ++ got, s.input.drop got.length, s.recvs + 1⟩ := by
          refine ⟨?_, ?_⟩
          · rw [List.append_assoc, hpre]
            exact h.bytes
          · rw [List.length_append]
            omega
        by_cases hend : headerEnd (s.hs ++ got) ≠ none
        · rw [if_pos hend]
          exact ⟨hread, .inl hend⟩
        · rw [if_neg hend]
          exact ih hread (by rw [List.length_append]; omega)

/-! The checks look at nothing behind the blank line. -/

/-- The next line of a text with a blank line behind `w` ends at or before that line. -/
theorem line_end {w : Text} (h0 : 0 ∉ w) (x : Text) :
    ∃ e, strstr crlf (w ++ (crlf ++ crlf ++ x)) = some e ∧
      (e = w.length ∨ e + 2 ≤ w.length) := by
  have hhere : crlf <+: (w ++ (crlf ++ crlf ++ x)).drop w.length := by
    rw [List.drop_left, List.append_assoc]
    exact List.prefix_append _ _
  obtain ⟨e, hle, hfound, hdrop⟩ := strstr_of_prefix_drop hhere (by rw [List.take_left]; exact h0)
  refine ⟨e, hfound, ?_⟩
  by_contra hnot
  rw [not_or] at hnot
  have he : e + 1 = w.length := by omega
  obtain ⟨more, hmore⟩ := hdrop
  -- the second byte of the line end would be the first one of the next
  have hsecond : (w ++ (crlf ++ crlf ++ x))[e + 1]? = some 13 := by
    rw [he, List.getElem?_append_right (Nat.le_refl _), Nat.sub_self]
    rfl
  have hother : ((w ++ (crlf ++ crlf ++ x)).drop e)[1]? = some 10 := by
    rw [← hmore]
    rfl
  rw [List.getElem?_drop, hsecond] at hother
  cases hother

theorem take_found {pat s : Text} {i : Nat} (hpat : pat ≠ []) (h : strstr pat s = some i) :
    s.drop i ≠ [] ∧ (s.drop i).take pat.length = pat := by
  obtain ⟨more, hmore⟩ := (strstr_found h).1
  rw [← hmore]
  exact ⟨by simp [hpat], List.take_left⟩

theorem headerLines_append (name : Text) (size : Nat) (x : Text) (n m : Nat) (w : Text) (h0 : 0 ∉ w)
    (hn : w.length < n) (hm : w.length < m) :
    headerLines name size n (w ++ (crlf ++ crlf ++ x)) =
      headerLines name size m (w ++ (crlf ++ crlf ++ [])) := by
  induction n generalizing m w with
  | zero => omega
  | succ n ih =>
    cases m with
    | zero => omega
    | succ m =>
      obtain ⟨e, hfound, hend⟩ := line_end h0 x
      have hshort : strstr crlf (w ++ (crlf ++ crlf ++ [])) = some e := by
        have hlong : strstr crlf ((w ++ (crlf ++ crlf ++ [])) ++ x) = some e := by simpa using hfound
        refine strstr_of_append (List.cons_ne_nil _ _) hlong ?_
        simp [crlf]
        omega
      have hle : e ≤ w.length := by omega
      have hne (y : Text) : w ++ (crlf ++ crlf ++ y) ≠ [] := by simp [crlf]
      unfold headerLines
      rw [if_neg (hne x), if_neg (hne []), hfound, hshort]
      dsimp only
      rw [List.take_append_of_le_length hle, List.take_append_of_le_length hle]
      by_cases hline : name.length + 1 < e ∧
          sameText ((w.take e).take name.length) name = true ∧ (w.take e)[name.length]? = some 58
      · rw [if_pos hline, if_pos hline]
      · rw [if_neg hline, if_neg hline]
        obtain ⟨hrest, htake⟩ := take_found (List.cons_ne_nil _ _) hfound
        obtain ⟨hrest', htake'⟩ := take_found (List.cons_ne_nil _ _) hshort
        have htwo : ((w ++ (crlf ++ crlf ++ x)).drop e).take 2 = crlf := htake
        have htwo' : ((w ++ (crlf ++ crlf ++ [])).drop e).take 2 = crlf := htake'
        rw [if_pos htwo, if_pos htwo', List.drop_drop, List.drop_drop]
        rcases hend with rfl | hend
        · have hhead (y : Text) : ((w ++ (crlf ++ crlf ++ y)).drop (w.length + 2)).head? = some 13 := by
            rw [← List.drop_drop, List.drop_left]
            rfl
          rw [if_pos (.inr (.inr (.inl (hhead x)))), if_pos (.inr (.inr (.inl (hhead []))))]
        · have hnext (y : Text) : (w ++ (crlf ++ crlf ++ y)).drop (e + 2) =
              w.drop (e + 2) ++ (crlf ++ crlf ++ y) := List.drop_append_of_le_length hend
          have hhead : (w.drop (e + 2) ++ (crlf ++ crlf ++ x)).head? =
              (w.drop (e + 2) ++ (crlf ++ crlf ++ [])).head? := by
            cases w.drop (e + 2) <;> rfl
          have hmore (y : Text) : w.drop (e + 2) ++ (crlf ++ crlf ++ y) ≠ [] := by simp [crlf]
          rw [hnext, hnext, hhead]
          simp only [hrest, hrest', hmore, false_or]
          have hlen : (w.drop (e + 2)).length = w.length - (e + 2) := List.length_drop
          by_cases hstop : (w.drop (e + 2) ++ (crlf ++ crlf ++ [])).head? = some 13 ∨
              (w.drop (e + 2) ++ (crlf ++ crlf ++ [])).head? = some 10
          · rw [if_pos hstop, if_pos hstop]
          · rw [if_neg hstop, if_neg hstop]
            exact ih m (w.drop (e + 2)) (fun h => h0 (List.mem_of_mem_drop h)) (by omega) (by omega)

/-- A header that was found names a byte of the text. -/
theorem headerLines_mem {name : Text} (hname : name ≠ []) (size n : Nat) {p v : Text}
    (h : headerLines name size n p = some v) : ∃ b ∈ p, ∃ c ∈ name.head?, toLower b = toLower c := by
  induction n generalizing p with
  | zero => cases h
  | succ n ih =>
    have hbody : ∃ eol next value, headerLines name size (n + 1) p =
        (if p = [] then none
        else if name.length + 1 < eol ∧ sameText ((p.take eol).take name.length) name = true ∧
          (p.take eol)[name.length]? = some 58 then some value
        else if p.drop eol = [] ∨ (p.drop eol).drop next = [] ∨
          ((p.drop eol).drop next).head? = some 13 ∨ ((p.drop eol).drop next).head? = some 10 then none
        else headerLines name size n ((p.drop eol).drop next)) := ⟨_, _, _, rfl⟩
    obtain ⟨eol, next, value, hbody⟩ := hbody
    rw [hbody] at h
    by_cases hp : p = []
    · rw [if_pos hp] at h
      cases h
    · rw [if_neg hp] at h
      by_cases hline : name.length + 1 < eol ∧
          sameText ((p.take eol).take name.length) name = true ∧ (p.take eol)[name.length]? = some 58
      · have hsame := of_decide_eq_true hline.2.1
        cases name with
        | nil => exact absurd rfl hname
        | cons c name =>
          cases hq : (p.take eol).take (c :: name).length with
          | nil =>
            rw [hq] at hsame
            cases hsame
          | cons b q =>
            rw [hq] at hsame
            have hb : b ∈ (p.take eol).take (c :: name).length := by
              rw [hq]
              exact List.mem_cons_self
            exact ⟨b, List.mem_of_mem_take (List.mem_of_mem_take hb), c, rfl,
              (List.cons.inj hsame).1⟩
      · rw [if_neg hline] at h
        by_cases hstop : p.drop eol = [] ∨ (p.drop eol).drop next = [] ∨
            ((p.drop eol).drop next).head? = some 13 ∨ ((p.drop eol).drop next).head? = some 10
        · rw [if_pos hstop] at h
          cases h
        · rw [if_neg hstop] at h
          obtain ⟨b, hb, hc⟩ := ih h
          exact ⟨b, List.mem_of_mem_drop (List.mem_of_mem_drop hb), hc⟩

/-- A word that begins in front of a space is read as it is, whatever stands behind. -/
theorem word_append {s : Text} (hs : ∃ b ∈ s, isSpace b = false) (hlast : ∃ b ∈ s.getLast?, isSpace b = true)
    (n : Nat) (x : Text) : word n (s ++ x) = ((word n s).1, (word n s).2 ++ x) := by
  obtain ⟨b, hb, hbs⟩ := hs
  have hdrop : (s ++ x).dropWhile isSpace = s.dropWhile isSpace ++ x := by
    rw [List.dropWhile_append, if_neg]
    intro hnil
    rw [List.isEmpty_iff, List.dropWhile_eq_nil_iff] at hnil
    rw [hnil b hb] at hbs
    cases hbs
  have hspace : ∃ c ∈ s.dropWhile isSpace, isSpace c = true := by
    obtain ⟨c, hc, hcs⟩ := hlast
    have hne : s.dropWhile isSpace ≠ [] := by
      intro hnil
      rw [List.dropWhile_eq_nil_iff] at hnil
      rw [hnil b hb] at hbs
      cases hbs
    have hsplit : s.takeWhile isSpace ++ s.dropWhile isSpace = s := List.takeWhile_append_dropWhile
    rw [← hsplit, List.getLast?_append_of_ne_nil _ hne] at hc
    exact ⟨c, List.mem_of_getLast? hc, hcs⟩
  unfold word
  dsimp only
  rw [hdrop]
  generalize s.dropWhile isSpace = t at hspace
  have hword : (t ++ x).takeWhile (fun b => !isSpace b) = t.takeWhile (fun b => !isSpace b) := by
    rw [List.takeWhile_append, if_neg]
    intro hall
    obtain ⟨c, hc, hcs⟩ := hspace
    have hself := List.takeWhile_eq_self_iff.mp
      ((List.takeWhile_prefix (fun b => !isSpace b)).eq_of_length hall) c hc
    rw [hcs] at hself
    cases hself
  rw [hword, List.drop_append_of_le_length]
  rw [List.length_take]
  exact Nat.le_trans (Nat.min_le_right _ _) (List.takeWhile_prefix _).length_le

theorem upToNul_head {w : Text} (h0 : 0 ∉ w) (x : Text) :
    upToNul (w ++ (crlf ++ crlf ++ x)) = w ++ (crlf ++ crlf ++ upToNul x) := by
  unfold upToNul
  rw [List.takeWhile_append_of_pos, List.append_assoc, List.append_assoc]
  · rfl
  · intro b hb
    exact decide_eq_true fun h => h0 (h ▸ hb)

theorem headerValue_head {w : Text} (h0 : 0 ∉ w) (name : Text) (size : Nat) (x : Text) :
    headerValue (w ++ (crlf ++ crlf ++ x)) name size =
      headerValue (w ++ (crlf ++ crlf ++ [])) name size := by
  unfold headerValue
  rw [upToNul_head h0, upToNul_head h0]
  refine headerLines_append name size _ _ _ w h0 ?_ ?_
  · simp [crlf]
  · simp [crlf]

theorem toLower_space {b : UInt8} (h : isSpace b = true) : toLower b = b := by
  refine if_neg fun hletter => ?_
  rcases of_decide_eq_true h with rfl | hle
  · exact absurd hletter.1 (by decide)
  · exact absurd (UInt8.le_trans hletter.1 hle.2) (by decide)

/-- A word and what follows it are what stands behind the spaces. -/
theorem word_split (n : Nat) (s : Text) :
    s.takeWhile isSpace ++ ((word n s).1 ++ (word n s).2) = s := by
  have hpre : (word n s).1 <+: s.dropWhile isSpace :=
    (List.take_prefix _ _).trans (List.takeWhile_prefix _)
  have hword : (word n s).1 ++ (word n s).2 = s.dropWhile isSpace :=
    (List.prefix_iff_eq_append.mp hpre)
  rw [hword, List.takeWhile_append_dropWhile]

/-- The method and the path of a head that names the upgrade. -/
theorem words_head {u y : Text} {up : Text} (hlast : ∃ b ∈ u.getLast?, isSpace b = true) {n : Nat}
    (hup : headerLines (ascii "Upgrade") 64 n u = some up) :
    (word 15 (u ++ y)).1 = (word 15 u).1 ∧ ((word 15 u).1 = ascii "GET" →
      (word 511 (word 15 (u ++ y)).2).1 = (word 511 (word 15 u).2).1) := by
  obtain ⟨b, hb, c, hc, hlower⟩ := headerLines_mem (List.cons_ne_nil _ _) 64 n hup
  obtain rfl := Option.some.inj hc
  have hbs : isSpace b = false := by
    by_contra hspace
    rw [Bool.not_eq_false] at hspace
    rw [toLower_space hspace] at hlower
    rw [hlower] at hspace
    exact absurd hspace (by decide)
  have hfirst := word_append ⟨b, hb, hbs⟩ hlast 15 y
  rw [hfirst]
  refine ⟨rfl, fun hget => ?_⟩
  have hsplit := word_split 15 u
  rw [hget] at hsplit
  have hrest : b ∈ (word 15 u).2 := by
    rw [← hsplit] at hb
    rcases List.mem_append.mp hb with hb | hb
    · rw [List.mem_takeWhile_imp hb] at hbs
      cases hbs
    · rcases List.mem_append.mp hb with hb | hb
      · -- none of the method's letters
        have hletter : b = 71 ∨ b = 69 ∨ b = 84 := by simpa [ascii] using hb
        rcases hletter with rfl | rfl | rfl <;> exact absurd hlower (by decide)
      · exact hb
  have hne : (word 15 u).2 ≠ [] := List.ne_nil_of_mem hrest
  rw [← hsplit, ← List.append_assoc, List.getLast?_append_of_ne_nil _ hne] at hlast
  rw [word_append ⟨b, hrest, hbs⟩ hlast]

/-- The handshake passes or fails by what stands in front of the blank line. -/
theorem handshake_head (digest : Text → Text) {w : Text} (h0 : 0 ∉ w) (x : Text) :
    handshake digest (w ++ (crlf ++ crlf ++ x)) = handshake digest (w ++ (crlf ++ crlf ++ [])) := by
  have hend (y : Text) : headerEnd (w ++ (crlf ++ crlf ++ y)) ≠ none := by
    have hhere : crlf ++ crlf <+: (w ++ (crlf ++ crlf ++ y)).drop w.length := by
      rw [List.drop_left]
      exact List.prefix_append _ _
    obtain ⟨i, -, hfound, -⟩ := strstr_of_prefix_drop hhere (by rw [List.take_left]; exact h0)
    exact fun h => Option.some_ne_none i (hfound.symm.trans h)
  unfold handshake
  dsimp only
  rw [headerValue_head h0 _ _ x, headerValue_head h0 _ _ x, upToNul_head h0, upToNul_head h0]
  cases hup : headerValue (w ++ (crlf ++ crlf ++ [])) (ascii "Upgrade") 64 with
  | none => rfl
  | some up =>
    cases hkey : headerValue (w ++ (crlf ++ crlf ++ [])) (ascii "Sec-WebSocket-Key") 256 with
    | none => rfl
    | some key =>
      dsimp only
      have hlines := hup
      unfold headerValue at hlines
      rw [upToNul_head h0] at hlines
      have hlast : ∃ b ∈ (w ++ (crlf ++ crlf ++ upToNul [])).getLast?, isSpace b = true := by
        refine ⟨10, ?_, rfl⟩
        simp [crlf, upToNul]
      obtain ⟨hmethod, hpath⟩ := words_head (y := upToNul x) hlast hlines
      have htext : w ++ (crlf ++ crlf ++ upToNul []) ++ upToNul x =
          w ++ (crlf ++ crlf ++ upToNul x) := by simp [upToNul]
      rw [htext] at hmethod hpath
      rw [hmethod]
      by_cases hget : (word 15 (w ++ (crlf ++ crlf ++ upToNul []))).1 = ascii "GET"
      · rw [hpath hget]
        simp only [hend, ne_eq, not_false_eq_true]
      · simp only [hget, false_and, and_false, if_false]

end PkgManager.WsHandshake
