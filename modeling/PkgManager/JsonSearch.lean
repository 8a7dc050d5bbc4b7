import PkgManager.SfoBounds

namespace PkgManager.JsonSearch

open CText (ascii isSpace)
open BoundedMemory
open PkgMetadata (Text quoted jsonExtractLoop jsonExtractKey)
open SfoBounds (Fits)

/-! The JSON helpers of `pkg_parser.c` on checked memory. A text of `n` bytes stands at
the pointer, and memory may go on behind it. -/

/-- The key between quotes, printed into an array of 128 bytes. -/
def pattern (key : String) : Checked Text := do
  let p ← print (fresh 128) 0 128 (quoted (ascii key))
  cstring p

/-- Behind the white space at `q`: how many bytes of the text are left, and where. -/
def skipSpace : Nat → Region → Checked (Nat × Region)
  | 0, q => .ok (0, q)
  | n + 1, some b :: q => if isSpace b then skipSpace n q else .ok (n + 1, some b :: q)
  | _, _ => .error .read

/-- `out[idx++]` takes a byte where there is room. -/
def put (out : Region) (idx : Nat) (c : UInt8) : Checked (Region × Nat) :=
  if idx + 1 < out.length then (write out idx [c]).map (·, idx + 1) else .ok (out, idx)

/-- The loop that copies a string from behind its opening quote. -/
def copyLoop (out : Region) (idx : Nat) : Nat → Region → Checked (Region × Nat)
  | 0, _ => .ok (out, idx)
  | 1, some b :: _ => if b = 34 then .ok (out, idx) else put out idx b
  | n + 2, some b :: q =>
    if b = 34 then .ok (out, idx)
    else if b = 92 then
      load q 0 >>= fun c => put out idx c >>= fun r => copyLoop r.1 r.2 n (q.drop 1)
    else put out idx b >>= fun r => copyLoop r.1 r.2 (n + 1) q
  | _, _ => .error .read

/-- The string value that stands behind a colon. -/
def valueAt (out : Region) (n : Nat) (q : Region) : Checked (Option Region) := do
  let r ← skipSpace n q
  if r.1 = 0 then return none
  else if (← load r.2 0) = 34 then
    let s ← copyLoop out 0 (r.1 - 1) (r.2.drop 1)
    let out ← write s.1 s.2 [0]
    return some out
  else return none

/-- The loop of `json_extract_key`; the buffer is none where no value was found. -/
def extractLoop (pat : Text) (out : Region) : Nat → Nat → Region → Checked (Option Region)
  | 0, _, _ => .ok none
  | fuel + 1, n, p =>
    if n = 0 then .ok none
    else do
      match ← strstr pat p with
      | none => return none
      | some found =>
        if n ≤ found then return none
        else
          match ← strchr 58 (p.drop (found + pat.length)) with
          | none => return none
          | some colon =>
            if n ≤ found + pat.length + colon then return none
            else
              let behind := found + pat.length + colon + 1
              match ← valueAt out (n - behind) (p.drop behind) with
              | some out => return some out
              | none => extractLoop pat out fuel (n - (found + pat.length)) (p.drop (found + pat.length))

/-- `json_extract_key`. -/
def extractKey (json : Region) (n : Nat) (key : String) (out : Region) : Checked (Option Region) := do
  let pat ← pattern key
  extractLoop pat out n n json

def hasKeyLoop (pat : Text) : Nat → Region → Checked Bool
  | 0, _ => .ok false
  | n + 1, p =>
    if n + 1 < pat.length then .ok false
    else do
      if (← readBytes p pat.length) = pat then return true else hasKeyLoop pat n (p.drop 1)

/-- `json_has_key`. -/
def hasKey (json : Region) (n : Nat) (key : String) : Checked Bool :=
  if 128 ≤ (quoted (ascii key)).length then .ok false
  else do
    let pat ← pattern key
    hasKeyLoop pat n json

/-! Searching what a buffer holds. -/

variable {pat s : Text} {c : UInt8}

theorem strstr_ofBytes (hpat : 0 ∉ pat) (hne : pat ≠ []) (h : pat <:+: s ∨ 0 ∈ s) :
    strstr pat (ofBytes s) = .ok (CText.strstr pat s) := by
  induction s with
  | nil =>
    rcases h with h | h
    · exact absurd (List.infix_nil.mp h) hne
    · cases h
  | cons b s ih =>
    have hbegins : begins (ofBytes (b :: s)) pat = .ok (pat.isPrefixOf (b :: s)) :=
      begins_ofBytes hpat (h.imp_left List.IsInfix.length_le)
    show strstr pat (some b :: ofBytes s) = _
    rw [strstr, CText.strstr]
    change begins (some b :: ofBytes s) pat = _ at hbegins
    rw [hbegins]
    show (if pat.isPrefixOf (b :: s) = true then _ else _) = _
    by_cases hpre : pat.isPrefixOf (b :: s) = true
    · rw [if_pos hpre, if_pos hpre]
      rfl
    rw [if_neg hpre, if_neg hpre]
    by_cases hb : b = 0
    · rw [if_pos (by rw [hb]), if_pos hb]
      rfl
    have hs : pat <:+: s ∨ 0 ∈ s := by
      rcases h with h | h
      · exact .inl ((List.infix_cons_iff.mp h).resolve_left fun hp =>
          hpre (List.isPrefixOf_iff_prefix.mpr hp))
      · exact .inr ((List.mem_cons.mp h).resolve_left fun h0 => hb h0.symm)
    rw [if_neg (fun h0 => hb (Option.some.inj h0)), if_neg hb, ih hs]
    rfl

theorem strstr_faults (hpat : 0 ∉ pat) (hkey : ¬pat <:+: s) (hnul : 0 ∉ s) :
    strstr pat (ofBytes s) = .error .read := by
  induction s with
  | nil => rfl
  | cons b s ih =>
    have hb : ¬some b = some (0 : UInt8) := fun h0 =>
      hnul (Option.some.inj h0 ▸ List.mem_cons_self)
    have hrest : strstr pat (ofBytes s) = .error .read :=
      ih (fun h => hkey (h.trans (List.suffix_cons b s).isInfix)) fun h =>
        hnul (List.mem_cons_of_mem b h)
    have hbegins : begins (ofBytes (b :: s)) pat = .ok false ∨
        begins (ofBytes (b :: s)) pat = .error .read := by
      by_cases hlen : pat.length ≤ (b :: s).length
      · refine .inl ?_
        rw [begins_ofBytes hpat (.inl hlen)]
        congr 1
        by_contra hpre
        exact hkey (List.isPrefixOf_iff_prefix.mp (by simpa using hpre)).isInfix
      · exact begins_short (Nat.lt_of_not_le hlen)
    show strstr pat (some b :: ofBytes s) = _
    rw [strstr]
    change begins (some b :: ofBytes s) pat = _ ∨ begins (some b :: ofBytes s) pat = _ at hbegins
    rcases hbegins with hbegins | hbegins
    · rw [hbegins]
      change (if some b = some (0 : UInt8) then Except.ok none else
        (strstr pat (ofBytes s)).map (·.map (· + 1))) = _
      rw [if_neg hb, hrest]
      rfl
    · rw [hbegins]
      rfl

theorem strchr_ofBytes (h : c ∈ s ∨ 0 ∈ s) : strchr c (ofBytes s) = .ok (CText.strchr c s) := by
  unfold CText.strchr
  induction s with
  | nil => rcases h with h | h <;> cases h
  | cons b s ih =>
    show strchr c (some b :: ofBytes s) = _
    rw [strchr, CText.strstr]
    by_cases hbc : b = c
    · have hpre : [c].isPrefixOf (b :: s) = true := by
        simp [List.isPrefixOf, hbc]
      rw [if_pos hbc, if_pos hpre]
    have hpre : ¬[c].isPrefixOf (b :: s) = true := by
      simpa [List.isPrefixOf] using fun h => hbc h.symm
    rw [if_neg hbc, if_neg hpre]
    by_cases hb : b = 0
    · rw [if_pos hb, if_pos hb]
    have hs : c ∈ s ∨ 0 ∈ s := by
      rcases h with h | h
      · exact .inl ((List.mem_cons.mp h).resolve_left fun h0 => hbc h0.symm)
      · exact .inr ((List.mem_cons.mp h).resolve_left fun h0 => hb h0.symm)
    rw [if_neg hb, if_neg hb, ih hs]
    rfl

/-! A value. -/

theorem skipSpace_ofBytes {n : Nat} (h : n ≤ s.length) :
    Safe (skipSpace n (ofBytes s)) fun r =>
      ∃ t, r.2 = ofBytes t ∧ r.1 ≤ t.length ∧ t.take r.1 = (s.take n).dropWhile isSpace := by
  induction n generalizing s with
  | zero => exact ⟨(0, ofBytes s), by cases s <;> rfl, s, rfl, Nat.zero_le _, rfl⟩
  | succ n ih =>
    cases s with
    | nil => cases h
    | cons b s =>
      show Safe (skipSpace (n + 1) (some b :: ofBytes s)) _
      rw [skipSpace, List.take_succ_cons, List.dropWhile_cons]
      by_cases hb : isSpace b = true
      · rw [if_pos hb, if_pos hb]
        exact ih (Nat.le_of_succ_le_succ h)
      · rw [if_neg hb, if_neg hb]
        exact .pure ⟨b :: s, rfl, h, List.take_succ_cons⟩

variable {out : Region} {idx n : Nat}

/-- The bytes a string was copied to, with room for its end. -/
structure Copied (out : Region) (r : Region × Nat) : Prop where
  length : r.1.length = out.length
  written : Written r.1 r.2
  room : r.2 < r.1.length

theorem put_copied (h : Written out idx) (hroom : idx < out.length) :
    Safe (put out idx c) (Copied out) := by
  unfold put
  split
  · rename_i hfree
    refine (write_more [c] h (by rw [List.length_singleton]; omega)).map fun r hr => ?_
    exact ⟨hr.1, hr.2, by rw [hr.1]; exact hfree⟩
  · exact .pure ⟨rfl, h, hroom⟩

theorem copyLoop_copied {q : Region} (hq : Written q n) (h : Written out idx)
    (hroom : idx < out.length) : Safe (copyLoop out idx n q) (Copied out) := by
  induction n using Nat.twoStepInduction generalizing q out idx with
  | zero => exact ⟨(out, idx), by cases q <;> rfl, rfl, h, hroom⟩
  | one =>
    cases q with
    | nil => exact absurd hq.length_le (by decide)
    | cons b q =>
      obtain ⟨⟨b, rfl⟩, -⟩ := hq.tail
      rw [copyLoop]
      split
      · exact .pure ⟨rfl, h, hroom⟩
      · exact put_copied h hroom
  | more n ih ih' =>
    cases q with
    | nil => exact absurd hq.length_le (Nat.not_succ_le_zero _)
    | cons b q =>
      obtain ⟨⟨b, rfl⟩, htail⟩ := hq.tail
      rw [copyLoop]
      split
      · exact .pure ⟨rfl, h, hroom⟩
      split
      · obtain ⟨c, hc⟩ := htail 0 (Nat.succ_pos n)
        rw [load_ok hc]
        refine Safe.bind (.pure (P := fun _ => True) trivial) fun c _ => ?_
        refine (put_copied h hroom).bind fun r hr => ?_
        have hrest : Written (q.drop 1) n := Written.drop (htail.mono (by omega))
        exact (ih hrest hr.written hr.room).imp fun r' hr' =>
          ⟨hr'.length.trans hr.length, hr'.written, hr'.room⟩
      · refine (put_copied h hroom).bind fun r hr => ?_
        exact (ih' htail hr.written hr.room).imp fun r' hr' =>
          ⟨hr'.length.trans hr.length, hr'.written, hr'.room⟩

/-- The byte behind the white space is the quote of a string. -/
def IsString (s : Text) : Prop := (s.dropWhile isSpace).head? = some 34

theorem valueAt_ofBytes (hs : n ≤ s.length) (hout : 0 < out.length) :
    Safe (valueAt out n (ofBytes s)) fun v =>
      (∀ r ∈ v, Fits out r) ∧ (v.isSome ↔ IsString (s.take n)) := by
  unfold valueAt IsString
  refine (skipSpace_ofBytes hs).bind fun r hr => ?_
  obtain ⟨m, q⟩ := r
  obtain ⟨t, rfl, hm, htake⟩ := hr
  dsimp only at hm htake ⊢
  rw [← htake]
  cases m with
  | zero =>
    rw [if_pos rfl]
    refine .pure ⟨(fun r hr => nomatch hr), ?_⟩
    simp
  | succ m =>
    rw [if_neg (Nat.succ_ne_zero m)]
    cases t with
    | nil => cases hm
    | cons b t =>
      have hload : load (ofBytes (b :: t)) 0 = .ok b := rfl
      rw [hload]
      refine Safe.bind (.pure (P := (· = b)) rfl) fun b' hb' => ?_
      obtain rfl := hb'
      rw [List.take_succ_cons, List.head?_cons]
      by_cases hb : b' = 34
      · rw [if_pos hb]
        have hq : Written ((ofBytes (b' :: t)).drop 1) m :=
          Written.drop ((written_ofBytes (b' :: t)).mono (by omega))
        have hempty : Written out 0 := fun i hi => absurd hi (Nat.not_lt_zero i)
        refine (copyLoop_copied hq hempty hout).bind fun r hr => ?_
        refine (write_nul hr.written hr.room).bind fun r' hr' => .pure ⟨?_, ?_⟩
        · rintro r'' ⟨⟩
          exact ⟨hr'.1.trans hr.length, hr'.2⟩
        · simp [hb]
      · rw [if_neg hb]
        refine .pure ⟨(fun r hr => nomatch hr), ?_⟩
        simp [hb]

/-! The search for a key. -/

/-- The search for a key in the first `n` bytes leaves the memory: neither the key nor a
NUL follows, or neither a colon nor a NUL behind the key, or what stands behind the
colon is no string and the search behind the key leaves it. -/
inductive Overruns (pat : Text) : Text → Nat → Prop
  | key {p : Text} {n : Nat} (hn : 0 < n) (hkey : ¬pat <:+: p) (hnul : 0 ∉ p) : Overruns pat p n
  | colon {p : Text} {n found : Nat} (hfound : CText.strstr pat p = some found) (hn : found < n)
      (hcolon : 58 ∉ p.drop (found + pat.length)) (hnul : 0 ∉ p.drop (found + pat.length)) :
      Overruns pat p n
  | next {p : Text} {n found colon : Nat} (hfound : CText.strstr pat p = some found)
      (hcolon : CText.strchr 58 (p.drop (found + pat.length)) = some colon)
      (hn : found + pat.length + colon < n)
      (hvalue : ¬IsString ((p.take n).drop (found + pat.length + colon + 1)))
      (h : Overruns pat (p.drop (found + pat.length)) (n - (found + pat.length))) : Overruns pat p n

theorem extractLoop_inside (hpat : 0 ∉ pat) (hne : pat ≠ []) (hout : 0 < out.length) (max : Nat)
    {fuel : Nat} {p : Text} (hfuel : n ≤ fuel) (hn : n ≤ p.length) (h : ¬Overruns pat p n) :
    Safe (extractLoop pat out fuel n (ofBytes p)) fun v => (∀ r ∈ v, Fits out r) ∧
      v.isSome = (jsonExtractLoop (p.drop n) pat max fuel (p.take n)).isSome := by
  have hstop : Safe (.ok none : Checked (Option Region)) fun v => (∀ r ∈ v, Fits out r) ∧
      v.isSome = (none : Option Text).isSome := .pure ⟨(fun r hr => nomatch hr), rfl⟩
  induction fuel generalizing n p with
  | zero => exact hstop
  | succ fuel ih =>
    rw [extractLoop, jsonExtractLoop]
    by_cases hzero : n = 0
    · rw [if_pos hzero, if_pos (by rw [hzero]; rfl)]
      exact hstop
    have hlen : (p.take n).length = n := List.length_take_of_le hn
    have htake : p.take n ≠ [] := fun h0 => hzero (by rw [← hlen, h0]; rfl)
    rw [if_neg hzero, if_neg htake, List.take_append_drop, hlen]
    have hkey : pat <:+: p ∨ 0 ∈ p := by
      by_contra hnot
      rw [not_or] at hnot
      exact h (.key (Nat.pos_of_ne_zero hzero) hnot.1 hnot.2)
    rw [strstr_ofBytes hpat hne hkey]
    cases hfound : CText.strstr pat p with
    | none => exact hstop
    | some found =>
      refine Safe.bind (.pure (P := (· = some found)) rfl) fun r hr => ?_
      subst hr
      dsimp only
      by_cases hin : n ≤ found
      · rw [if_pos hin, if_pos hin]
        exact hstop
      rw [if_neg hin, if_neg hin]
      have hbehind : 58 ∈ p.drop (found + pat.length) ∨ 0 ∈ p.drop (found + pat.length) := by
        by_contra hnot
        rw [not_or] at hnot
        exact h (.colon hfound (Nat.lt_of_not_le hin) hnot.1 hnot.2)
      rw [drop_ofBytes, strchr_ofBytes hbehind]
      cases hcolon : CText.strchr 58 (p.drop (found + pat.length)) with
      | none => exact hstop
      | some colon =>
        refine Safe.bind (.pure (P := (· = some colon)) rfl) fun r hr => ?_
        subst hr
        dsimp only
        by_cases hend : n ≤ found + pat.length + colon
        · rw [if_pos hend, if_pos hend]
          exact hstop
        rw [if_neg hend, if_neg hend, drop_ofBytes]
        have hdrop : ∀ k, (p.take n).drop k = (p.drop k).take (n - k) := fun k => List.drop_take ..
        have hvalue : Safe (valueAt out (n - (found + pat.length + colon + 1))
            (ofBytes (p.drop (found + pat.length + colon + 1)))) fun v => (∀ r ∈ v, Fits out r) ∧
              (v.isSome ↔ IsString ((p.take n).drop (found + pat.length + colon + 1))) := by
          rw [hdrop]
          exact valueAt_ofBytes (by rw [List.length_drop]; omega) hout
        refine hvalue.bind fun v hv => ?_
        cases v with
        | some r =>
          have hstring := hv.2.mp rfl
          unfold IsString at hstring
          rw [if_pos hstring]
          exact .pure ⟨hv.1, rfl⟩
        | none =>
          have hnot : ¬IsString ((p.take n).drop (found + pat.length + colon + 1)) := fun hs =>
            absurd (hv.2.mpr hs) (by decide)
          have hrest : p.drop n = (p.drop (found + pat.length)).drop (n - (found + pat.length)) := by
            rw [List.drop_drop]
            congr 1
            omega
          unfold IsString at hnot
          rw [if_neg hnot, hdrop, hrest]
          have hpos := List.length_pos_iff.mpr hne
          refine ih (by omega) (by rw [List.length_drop]; omega) fun hover => ?_
          exact h (.next hfound hcolon (Nat.lt_of_not_le hend) hnot hover)

theorem infix_of_strstr {p : Text} {i : Nat} (h : CText.strstr pat p = some i) : pat <:+: p :=
  (CText.strstr_found h).1.isInfix.trans (List.drop_suffix i p).isInfix

theorem extractLoop_overruns (hpat : 0 ∉ pat) (hne : pat ≠ []) (hout : 0 < out.length) {p : Text}
    (h : Overruns pat p n) {fuel : Nat} (hfuel : n ≤ fuel) (hn : n ≤ p.length) :
    extractLoop pat out fuel n (ofBytes p) = .error .read := by
  induction h generalizing fuel with
  | @key p n hpos hkey hnul =>
    obtain ⟨fuel, rfl⟩ : ∃ m, fuel = m + 1 := ⟨fuel - 1, by omega⟩
    rw [extractLoop, if_neg (Nat.ne_of_gt hpos), strstr_faults hpat hkey hnul]
    rfl
  | @colon p n found hfound hin hcolon hnul =>
    obtain ⟨fuel, rfl⟩ : ∃ m, fuel = m + 1 := ⟨fuel - 1, by omega⟩
    rw [extractLoop, if_neg (Nat.ne_of_gt (by omega)),
      strstr_ofBytes hpat hne (.inl (infix_of_strstr hfound)), hfound]
    change (if n ≤ found then _ else _) = _
    rw [if_neg (Nat.not_le.mpr hin), drop_ofBytes, strchr_faults hcolon hnul]
    rfl
  | @next p n found colon hfound hcolon hin hvalue _ ih =>
    obtain ⟨fuel, rfl⟩ : ∃ m, fuel = m + 1 := ⟨fuel - 1, by omega⟩
    have hbehind : 58 ∈ p.drop (found + pat.length) :=
      (infix_of_strstr hcolon).subset (List.mem_singleton_self 58)
    rw [extractLoop, if_neg (Nat.ne_of_gt (by omega)),
      strstr_ofBytes hpat hne (.inl (infix_of_strstr hfound)), hfound]
    change (if n ≤ found then _ else _) = _
    rw [if_neg (by omega), drop_ofBytes, strchr_ofBytes (.inl hbehind), hcolon]
    change (if n ≤ found + pat.length + colon then _ else _) = _
    rw [if_neg (by omega), drop_ofBytes]
    have hvalueAt : Safe (valueAt out (n - (found + pat.length + colon + 1))
        (ofBytes (p.drop (found + pat.length + colon + 1)))) fun v => (∀ r ∈ v, Fits out r) ∧
          (v.isSome ↔ IsString ((p.take n).drop (found + pat.length + colon + 1))) := by
      rw [List.drop_take]
      exact valueAt_ofBytes (by rw [List.length_drop]; omega) hout
    obtain ⟨v, hv, -, hstring⟩ := hvalueAt
    obtain rfl : v = none := by
      cases v with
      | none => rfl
      | some r => exact absurd (hstring.mp rfl) hvalue
    rw [hv]
    have hpos := List.length_pos_iff.mpr hne
    exact ih (by omega) (by rw [List.length_drop]; omega)

/-! The helpers. -/

/-- A key without a NUL that fits its array. -/
def Fitting (key : String) : Prop := 0 ∉ ascii key ∧ (ascii key).length ≤ 125

instance (key : String) : Decidable (Fitting key) := inferInstanceAs (Decidable (_ ∧ _))

variable {key : String}

theorem quoted_noNul (h : Fitting key) : 0 ∉ quoted (ascii key) := by
  unfold quoted
  simp [h.1]

theorem quoted_ne (key : Text) : quoted key ≠ [] := by simp [quoted]

theorem length_quoted (key : Text) : (quoted key).length = key.length + 2 := by
  unfold quoted
  simp

theorem pattern_fitting (h : Fitting key) : pattern key = .ok (quoted (ascii key)) := by
  have hlen : (quoted (ascii key)).length ≤ 127 := by
    rw [length_quoted]
    exact Nat.add_le_add_right h.2 2
  have hprint : print (fresh 128) 0 128 (quoted (ascii key)) =
      .ok (literal (quoted (ascii key)) ++ (fresh 128).drop ((quoted (ascii key)).length + 1)) := by
    unfold print write literal
    rw [if_neg (by decide), List.take_of_length_le hlen, if_neg (by simp), if_pos]
    · rw [List.take_zero, List.nil_append, Nat.zero_add, List.length_append, List.length_singleton]
    · rw [List.length_append, List.length_singleton, fresh, List.length_replicate]
      omega
  unfold pattern
  rw [hprint]
  exact cstring_literal_append (quoted_noNul h) _

theorem extractKey_inside (hkey : Fitting key) (hout : 0 < out.length) (max : Nat) {p : Text}
    (hn : n ≤ p.length) (h : ¬Overruns (quoted (ascii key)) p n) :
    Safe (extractKey (ofBytes p) n key out) fun v => (∀ r ∈ v, Fits out r) ∧
      v.isSome = (jsonExtractKey (p.take n) (p.drop n) key max).isSome := by
  unfold extractKey jsonExtractKey
  rw [pattern_fitting hkey, List.length_take_of_le hn]
  exact extractLoop_inside (quoted_noNul hkey) (quoted_ne _) hout max (Nat.le_refl n) hn h

theorem extractKey_overruns (hkey : Fitting key) (hout : 0 < out.length) {p : Text}
    (hn : n ≤ p.length) (h : Overruns (quoted (ascii key)) p n) :
    extractKey (ofBytes p) n key out = .error .read := by
  unfold extractKey
  rw [pattern_fitting hkey]
  exact extractLoop_overruns (quoted_noNul hkey) (quoted_ne _) hout h (Nat.le_refl n) hn

theorem hasKeyLoop_safe (pat : Text) {p : Region} (h : Written p n) :
    Safe (hasKeyLoop pat n p) fun _ => True := by
  induction n generalizing p with
  | zero => exact ⟨false, by cases p <;> rfl, trivial⟩
  | succ n ih =>
    rw [hasKeyLoop]
    split
    · exact .pure trivial
    · rename_i hlen
      refine (readBytes_written (h.mono (Nat.le_of_not_lt hlen))).bind fun s _ => ?_
      split
      · exact .pure trivial
      · exact ih (Written.drop (h.mono (by omega)))

theorem hasKey_safe {p : Region} (h : Written p n) (hkey : Fitting key) :
    Safe (hasKey p n key) fun _ => True := by
  unfold hasKey
  split
  · exact .pure trivial
  · rw [pattern_fitting hkey]
    exact hasKeyLoop_safe _ h

/-- With a NUL behind the text no search leaves the memory. -/
theorem not_overruns_of_nul (hpat : 0 ∉ pat) {p : Text} (h : 0 ∈ p) : ¬Overruns pat p n := by
  intro hover
  have hbehind : ∀ {p : Text} {found : Nat}, CText.strstr pat p = some found → 0 ∈ p →
      0 ∈ p.drop (found + pat.length) := by
    intro p found hfound hp
    obtain ⟨hat, hfree⟩ := CText.strstr_found hfound
    obtain ⟨rest, hrest⟩ := hat
    have hsplit : p = p.take found ++ (pat ++ rest) := by rw [hrest, List.take_append_drop]
    have hmem : 0 ∈ rest := by
      rw [hsplit] at hp
      rcases List.mem_append.mp hp with hp | hp
      · exact absurd hp hfree
      · exact (List.mem_append.mp hp).resolve_left hpat
    rw [← List.drop_drop, ← hrest, List.drop_left]
    exact hmem
  induction hover with
  | key _ _ hnul => exact hnul h
  | colon hfound _ _ hnul => exact hnul (hbehind hfound h)
  | next hfound _ _ _ _ ih => exact ih (hbehind hfound h)

end PkgManager.JsonSearch
