import PkgManager.JsonText

namespace PkgManager.JsonText

/-! How many brackets are open behind a text. -/

def weight (b : UInt8) : Int :=
  if b = 91 ∨ b = 123 then 1 else if b = 93 ∨ b = 125 then -1 else 0

/-- The reader of strings, which counts the open brackets outside of them. -/
def walkStep (p : State × Int) (b : UInt8) : Option (State × Int) :=
  (step p.1 b).map fun q => (q, if p.1 = .outside then p.2 + weight b else p.2)

def walk (p : State × Int) (t : Text) : Option (State × Int) := t.foldlM walkStep p

theorem walk_append (p : State × Int) (s t : Text) :
    walk p (s ++ t) = (walk p s).bind fun p => walk p t := by
  unfold walk
  rw [List.foldlM_append]
  rfl

theorem walk_cons (p : State × Int) (b : UInt8) (t : Text) :
    walk p (b :: t) = (walkStep p b).bind fun p => walk p t := by
  unfold walk
  rw [List.foldlM_cons]
  rfl

theorem walkStep_outside {b : UInt8} (hquote : b ≠ 34) (hslash : b ≠ 92) (n : Int) :
    walkStep (.outside, n) b = some (.outside, n + weight b) := by
  have hstep : step .outside b = some .outside := by
    rw [step, if_neg hquote, if_neg hslash]
  unfold walkStep
  rw [hstep, Option.map_some, if_pos rfl]

theorem walkStep_inside {q q' : State} {b : UInt8} (hq : q ≠ .outside) (h : step q b = some q') (n : Int) :
    walkStep (q, n) b = some (q', n) := by
  unfold walkStep
  rw [h, Option.map_some, if_neg hq]

theorem walk_outside {t : Text} (h : ∀ b ∈ t, (b ≠ 34 ∧ b ≠ 92) ∧ weight b = 0) (n : Int) :
    walk (.outside, n) t = some (.outside, n) := by
  induction t with
  | nil => rfl
  | cons b t ih =>
    obtain ⟨⟨hquote, hslash⟩, hweight⟩ := h b List.mem_cons_self
    rw [walk_cons, walkStep_outside hquote hslash, hweight, Int.add_zero]
    exact ih fun c hc => h c (List.mem_cons_of_mem b hc)

theorem walk_ws {w : Text} (h : Ws w) (n : Int) : walk (.outside, n) w = some (.outside, n) := by
  apply walk_outside
  intro b hb
  have hw := h b hb
  unfold isWs at hw
  simp only [Bool.or_eq_true, decide_eq_true_eq] at hw
  rcases hw with ((rfl | rfl) | rfl) | rfl <;> decide

theorem walk_number {t : Text} (h : IsNumber t) (n : Int) : walk (.outside, n) t = some (.outside, n) := by
  have hmarks : ∀ b ∈ [43, 45, 46, 69, 101], weight b = 0 := by decide +kernel
  apply walk_outside
  intro b hb
  refine ⟨plain_number h b hb, ?_⟩
  rcases number_bytes h b hb with hd | hmem
  · unfold weight
    rw [if_neg, if_neg]
    · rintro (rfl | rfl) <;> exact absurd hd (by decide)
    · rintro (rfl | rfl) <;> exact absurd hd (by decide)
  · exact hmarks b hmem

/-- Brackets in a string are not counted. -/
theorem walk_body {s t : Text} (h : Body s t) (n : Int) : walk (.inside, n) t = some (.inside, n) := by
  induction h with
  | nil => rfl
  | plain b hb hquote hslash _ ih =>
    have hstep : step .inside b = some .inside := by
      rw [step, if_neg hquote, if_neg hslash, if_neg (UInt8.not_lt.mpr hb)]
    rw [walk_cons, walkStep_inside (by decide) hstep]
    exact ih
  | @short s t c b hc _ ih =>
    have hu : c ≠ 117 := by
      rintro rfl
      cases hc
    have hstep : step .escape c = some .inside := by
      rw [step, if_neg hu, if_pos (by rw [hc]; rfl)]
    rw [walk_cons, walkStep_inside (by decide) (show step .inside 92 = some .escape from rfl),
      Option.bind_some, walk_cons, walkStep_inside (by decide) hstep]
    exact ih
  | unicode ha hb hc hd _ ih =>
    simp only [walk_cons]
    simpa [walkStep, step, afterHex, ha, hb, hc, hd] using ih

theorem walk_quoted {s t : Text} (h : Body s t) (n : Int) :
    walk (.outside, n) (quoted t) = some (.outside, n) := by
  have hopen : walkStep (.outside, n) 34 = some (.inside, n) := by
    have hzero : weight 34 = 0 := by decide
    have hstep : step .outside 34 = some .inside := rfl
    unfold walkStep
    rw [hstep, Option.map_some, if_pos rfl, hzero, Int.add_zero]
  rw [quoted, walk_cons, hopen, Option.bind_some, walk_append, walk_body h, Option.bind_some, walk_cons,
    walkStep_inside (by decide) (show step .inside 34 = some .outside from rfl)]
  rfl

theorem walk_byte {b : UInt8} (hquote : b ≠ 34) (hslash : b ≠ 92) (n : Int) (t : Text) :
    walk (.outside, n) (b :: t) = walk (.outside, n + weight b) t := by
  rw [walk_cons, walkStep_outside hquote hslash]
  rfl

theorem walk_between {t : Text} {a b : UInt8} (ha : a ≠ 34 ∧ a ≠ 92) (hb : b ≠ 34 ∧ b ≠ 92)
    (hab : weight a + weight b = 0) (h : ∀ n, walk (.outside, n) t = some (.outside, n)) (n : Int) :
    walk (.outside, n) (a :: (t ++ [b])) = some (.outside, n) := by
  rw [walk_byte ha.1 ha.2, walk_append, h, Option.bind_some, walk_byte hb.1 hb.2, Int.add_assoc, hab,
    Int.add_zero]
  rfl

/-- A JSON text closes what it opens. -/
theorem walk_writes {p : Part} {t : Text} (h : Writes p t) :
    ∀ n, walk (.outside, n) t = some (.outside, n) := by
  have hcolon : weight 58 = 0 := by decide
  have hcomma : weight 44 = 0 := by decide
  induction h with
  | null => exact walk_outside (by decide +kernel)
  | true => exact walk_outside (by decide +kernel)
  | false => exact walk_outside (by decide +kernel)
  | number h => exact walk_number h
  | string h => exact walk_quoted h
  | emptyArray h => exact walk_between (by decide) (by decide) (by decide) (walk_ws h)
  | array _ ih => exact walk_between (by decide) (by decide) (by decide) ih
  | emptyObject h => exact walk_between (by decide) (by decide) (by decide) (walk_ws h)
  | object _ ih => exact walk_between (by decide) (by decide) (by decide) ih
  | item ha _ hb ih =>
    intro n
    simp [walk_append, walk_ws ha, ih, walk_ws hb]
  | items ha _ hb _ ih ihr =>
    intro n
    simp [walk_append, walk_byte, hcomma, walk_ws ha, ih, walk_ws hb, ihr]
  | member ha hk hb hc _ hd ih =>
    intro n
    simp [walk_append, walk_byte, hcolon, walk_ws ha, walk_quoted hk, walk_ws hb, walk_ws hc, ih, walk_ws hd]
  | members ha hk hb hc _ hd _ ih ihr =>
    intro n
    simp [walk_append, walk_byte, hcolon, hcomma, walk_ws ha, walk_quoted hk, walk_ws hb, walk_ws hc, ih,
      walk_ws hd, ihr]

theorem walk_isJson {v : Json} {t : Text} (h : IsJson v t) (n : Int) :
    walk (.outside, n) t = some (.outside, n) := by
  obtain ⟨a, body, b, rfl, ha, hbody, hb⟩ := h
  rw [walk_append, walk_append, walk_ws ha, Option.bind_some, walk_writes hbody, Option.bind_some,
    walk_ws hb]

/-- What leaves a bracket open is no JSON text. -/
theorem not_isJson {t : Text} {d : Int} (h : walk (.outside, 0) t = some (.outside, d)) (hd : d ≠ 0)
    (v : Json) : ¬IsJson v t := by
  intro hv
  rw [walk_isJson hv] at h
  exact hd (congrArg Prod.snd (Option.some.inj h)).symm

end PkgManager.JsonText
