import PkgManager.JsonDepth

namespace PkgManager.JsonText

/-! How many items an array has: the commas one bracket deep. -/

def comma (p : State × Int) (b : UInt8) : Nat := if b = 44 ∧ p = (.outside, 1) then 1 else 0

def commas : State × Int → Text → Nat
  | _, [] => 0
  | p, b :: t =>
    comma p b + match walkStep p b with
      | some q => commas q t
      | none => 0

theorem commas_cons {p q : State × Int} {b : UInt8} (h : walkStep p b = some q) (t : Text) :
    commas p (b :: t) = comma p b + commas q t := by
  rw [commas, h]

theorem commas_append {p q : State × Int} {s : Text} (h : walk p s = some q) (t : Text) :
    commas p (s ++ t) = commas p s + commas q t := by
  induction s generalizing p with
  | nil =>
    obtain rfl := Option.some.inj h
    exact (Nat.zero_add _).symm
  | cons b s ih =>
    rw [walk_cons] at h
    obtain ⟨p', hp', hrest⟩ := Option.bind_eq_some_iff.mp h
    rw [List.cons_append, commas_cons hp', commas_cons hp', ih hrest, Nat.add_assoc]

theorem comma_other {b : UInt8} (h : b ≠ 44) (p : State × Int) : comma p b = 0 := if_neg fun hb => h hb.1

theorem comma_deep {p : State × Int} (h : p ≠ (.outside, 1)) (b : UInt8) : comma p b = 0 :=
  if_neg fun hp => h hp.2

theorem commas_none {t : Text} (h : 44 ∉ t) (p : State × Int) : commas p t = 0 := by
  induction t generalizing p with
  | nil => rfl
  | cons b t ih =>
    rw [List.mem_cons, not_or] at h
    rw [commas, comma_other (Ne.symm h.1), Nat.zero_add]
    cases walkStep p b with
    | none => rfl
    | some q => exact ih h.2 q

theorem commas_ws {w : Text} (h : Ws w) (p : State × Int) : commas p w = 0 :=
  commas_none (fun h44 => absurd (h 44 h44) (by decide)) p

theorem commas_number {t : Text} (h : IsNumber t) (p : State × Int) : commas p t = 0 := by
  apply commas_none
  intro h44
  rcases number_bytes h 44 h44 with hd | hmem
  · exact absurd hd (by decide)
  · exact absurd hmem (by decide)

/-- Commas within a string are not counted. -/
theorem commas_body {s t : Text} (h : Body s t) (n : Int) : commas (.inside, n) t = 0 := by
  have hstep {q q' : State} {b : UInt8} (hq : q ≠ .outside) (hs : step q b = some q') (t : Text) :
      commas (q, n) (b :: t) = commas (q', n) t := by
    rw [commas_cons (walkStep_inside hq hs n), comma_deep (fun hp => hq (congrArg Prod.fst hp)), Nat.zero_add]
  induction h with
  | nil => rfl
  | plain b hb hquote hslash _ ih =>
    have hplain : step .inside b = some .inside := by
      rw [step, if_neg hquote, if_neg hslash, if_neg (UInt8.not_lt.mpr hb)]
    rw [hstep (by decide) hplain]
    exact ih
  | @short s t c b hc _ ih =>
    have hu : c ≠ 117 := by
      rintro rfl
      cases hc
    have hescape : step .escape c = some .inside := by
      rw [step, if_neg hu, if_pos (by rw [hc]; rfl)]
    rw [hstep (by decide) (show step .inside 92 = some .escape from rfl), hstep (by decide) hescape]
    exact ih
  | unicode ha hb hc hd _ ih =>
    rw [hstep (by decide) (show step .inside 92 = some .escape from rfl),
      hstep (by decide) (show step .escape 117 = some (.hex 3) from rfl),
      hstep (by decide) (show step (.hex 3) _ = some (.hex 2) from if_pos ha),
      hstep (by decide) (show step (.hex 2) _ = some (.hex 1) from if_pos hb),
      hstep (by decide) (show step (.hex 1) _ = some (.hex 0) from if_pos hc),
      hstep (by decide) (show step (.hex 0) _ = some .inside from if_pos hd)]
    exact ih

theorem commas_byte {b : UInt8} (hquote : b ≠ 34) (hslash : b ≠ 92) (n : Int) (t : Text) :
    commas (.outside, n) (b :: t) = comma (.outside, n) b + commas (.outside, n + weight b) t :=
  commas_cons (walkStep_outside hquote hslash n) t

theorem commas_quoted {s t : Text} (h : Body s t) (n : Int) : commas (.outside, n) (quoted t) = 0 := by
  have hopen : walkStep (.outside, n) 34 = some (.inside, n) := by
    have hzero : weight 34 = 0 := by decide
    have hstep : step .outside 34 = some .inside := rfl
    unfold walkStep
    rw [hstep, Option.map_some, if_pos rfl, hzero, Int.add_zero]
  rw [quoted, commas_cons hopen, comma_other (by decide), commas_append (walk_body h n), commas_body h,
    commas_none (by decide)]

/-- What is between two brackets. -/
theorem commas_between {t : Text} {a b : UInt8} {n : Int} (ha : a = 91 ∨ a = 123) (hb : b = 93 ∨ b = 125)
    (h : walk (.outside, n + 1) t = some (.outside, n + 1)) :
    commas (.outside, n) (a :: (t ++ [b])) = commas (.outside, n + 1) t := by
  have hopen : (a ≠ 34 ∧ a ≠ 92) ∧ a ≠ 44 ∧ weight a = 1 := by
    rcases ha with rfl | rfl <;> decide
  have hclose : b ≠ 44 := by
    rcases hb with rfl | rfl <;> decide
  rw [commas_byte hopen.1.1 hopen.1.2, comma_other hopen.2.1, hopen.2.2, commas_append h,
    commas_none (t := [b]) (by simpa using hclose.symm), Nat.zero_add, Nat.add_zero]

/-- The commas of a part, one bracket deep. -/
def partCommas (n : Int) : Part → Nat
  | .value _ => 0
  | .items vs => if n = 1 then vs.length - 1 else 0
  | .members ms => if n = 1 then ms.length - 1 else 0

theorem commas_writes {p : Part} {t : Text} (h : Writes p t) :
    ∀ n, 1 ≤ n → commas (.outside, n) t = partCommas n p := by
  have hcolon : weight 58 = 0 := by decide
  have hcomma : weight 44 = 0 := by decide
  have hdeep {n : Int} (hn : 1 ≤ n) : ¬n + 1 = 1 := by omega
  have hone (n : Int) : comma (.outside, n) 44 = if n = 1 then 1 else 0 := by
    unfold comma
    simp
  induction h with
  | null => exact fun n _ => commas_none (by decide) _
  | true => exact fun n _ => commas_none (by decide) _
  | false => exact fun n _ => commas_none (by decide) _
  | number h => exact fun n _ => commas_number h _
  | string h => exact fun n _ => commas_quoted h n
  | emptyArray h =>
    intro n _
    rw [commas_between (.inl rfl) (.inl rfl) (walk_ws h _), commas_ws h]
    rfl
  | array h ih =>
    intro n hn
    rw [commas_between (.inl rfl) (.inl rfl) (walk_writes h _), ih (n + 1) (by omega)]
    exact if_neg (hdeep hn)
  | emptyObject h =>
    intro n _
    rw [commas_between (.inr rfl) (.inr rfl) (walk_ws h _), commas_ws h]
    rfl
  | object h ih =>
    intro n hn
    rw [commas_between (.inr rfl) (.inr rfl) (walk_writes h _), ih (n + 1) (by omega)]
    exact if_neg (hdeep hn)
  | item ha h hb ih =>
    intro n hn
    rw [List.append_assoc, commas_append (walk_ws ha n), commas_ws ha, commas_append (walk_writes h n),
      ih n hn, commas_ws hb]
    simp [partCommas]
  | @items v vs a t b r ha h hb hr ih ihr =>
    intro n hn
    have hlen : 1 ≤ vs.length := by
      cases hr <;> exact Nat.succ_le_succ (Nat.zero_le _)
    rw [List.append_assoc, List.append_assoc, commas_append (walk_ws ha n), commas_ws ha,
      commas_append (walk_writes h n), ih n hn, commas_append (walk_ws hb n), commas_ws hb,
      commas_byte (by decide) (by decide), hone, hcomma, Int.add_zero, ihr n hn]
    simp only [partCommas, List.length_cons]
    split_ifs <;> omega
  | member ha hk hb hc h hd ih =>
    intro n hn
    rw [List.append_assoc, List.append_assoc, commas_append (walk_ws ha n), commas_ws ha,
      commas_append (walk_quoted hk n), commas_quoted hk, commas_append (walk_ws hb n), commas_ws hb,
      commas_byte (by decide) (by decide), comma_other (by decide), hcolon, Int.add_zero, List.append_assoc,
      commas_append (walk_ws hc n), commas_ws hc, commas_append (walk_writes h n), ih n hn, commas_ws hd]
    simp [partCommas]
  | @members s k v ms a b c d t r ha hk hb hc h hd hr ih ihr =>
    intro n hn
    have hlen : 1 ≤ ms.length := by
      cases hr <;> exact Nat.succ_le_succ (Nat.zero_le _)
    rw [List.append_assoc, List.append_assoc, List.append_assoc, commas_append (walk_ws ha n), commas_ws ha,
      commas_append (walk_quoted hk n), commas_quoted hk, commas_append (walk_ws hb n), commas_ws hb,
      List.cons_append, commas_byte (by decide) (by decide), comma_other (by decide), hcolon, Int.add_zero,
      List.append_assoc, List.append_assoc, commas_append (walk_ws hc n), commas_ws hc,
      commas_append (walk_writes h n), ih n hn, commas_append (walk_ws hd n), commas_ws hd,
      commas_byte (by decide) (by decide), hone, hcomma, Int.add_zero, ihr n hn]
    simp only [partCommas, List.length_cons]
    split_ifs <;> omega

/-- An array has one item more than commas, or none at all. -/
theorem commas_array {vs : List Json} {t : Text} (h : IsJson (.array vs) t) :
    commas (.outside, 0) t = vs.length - 1 := by
  obtain ⟨a, body, b, rfl, ha, hbody, hb⟩ := h
  rw [List.append_assoc, commas_append (walk_ws ha 0), commas_ws ha,
    commas_append (walk_writes hbody 0), commas_ws hb, Nat.zero_add, Nat.add_zero]
  cases hbody with
  | emptyArray h => rw [commas_between (.inl rfl) (.inl rfl) (walk_ws h _), commas_ws h]; rfl
  | array h =>
    rw [commas_between (.inl rfl) (.inl rfl) (walk_writes h _), commas_writes h _ (by decide)]
    simp [partCommas]

theorem writes_ne_nil {p : Part} {t : Text} (h : Writes p t) : t ≠ [] := by
  induction h with
  | null | true | false => decide
  | number h =>
    obtain ⟨sign, int, frac, exp, rfl, -, hint, -, -⟩ := h
    have hne : int ≠ [] := by
      rcases hint with rfl | ⟨hne, -⟩
      · exact List.cons_ne_nil _ _
      · exact hne
    simp [hne]
  | string | emptyArray | array | emptyObject | object => exact List.cons_ne_nil _ _
  | item _ _ _ ih => simp [ih]
  | items _ _ _ _ ih _ => simp
  | member => simp
  | members => simp

/-- Two brackets hold nothing. -/
theorem array_brackets {vs : List Json} (h : IsJson (.array vs) [91, 93]) : vs = [] := by
  obtain ⟨a, body, b, htext, ha, hbody, hb⟩ := h
  cases hbody with
  | emptyArray => rfl
  | @array vs t h =>
    have hlen := congrArg List.length htext
    have hpos := List.length_pos_iff.mpr (writes_ne_nil h)
    simp only [List.length_append, List.length_cons, List.length_nil] at hlen
    omega

end PkgManager.JsonText
