import PkgManager.CText

namespace PkgManager.JsonText

open CText

/-! JSON texts byte by byte; what stands above 127 in a string is taken as it is. -/

abbrev Text := List UInt8

inductive Json where
  | null
  | bool (b : Bool)
  | number (t : Text)
  | string (s : Text)
  | array (vs : List Json)
  | object (ms : List (Text × Json))

def isWs (b : UInt8) : Bool := b = 32 || b = 9 || b = 10 || b = 13

def Ws (t : Text) : Prop := ∀ b ∈ t, isWs b = true

def isHex (b : UInt8) : Bool := isDigit b || (97 ≤ b && b ≤ 102) || (65 ≤ b && b ≤ 70)

def hexValue (b : UInt8) : Nat :=
  if isDigit b then b.toNat - 48 else if 97 ≤ b then b.toNat - 87 else b.toNat - 55

/-- The byte a short escape stands for. -/
def shortEscape (c : UInt8) : Option UInt8 :=
  if c = 34 ∨ c = 92 ∨ c = 47 then some c
  else if c = 98 then some 8
  else if c = 102 then some 12
  else if c = 110 then some 10
  else if c = 114 then some 13
  else if c = 116 then some 9
  else none

/-- A code unit in UTF-8. -/
def utf8 (n : Nat) : Text :=
  if n < 128 then [UInt8.ofNat n]
  else if n < 2048 then [UInt8.ofNat (192 + n / 64), UInt8.ofNat (128 + n % 64)]
  else [UInt8.ofNat (224 + n / 4096), UInt8.ofNat (128 + n / 64 % 64), UInt8.ofNat (128 + n % 64)]

/-- What stands between the quotes of a string. -/
inductive Body : Text → Text → Prop
  | nil : Body [] []
  | plain {s t : Text} (b : UInt8) : 32 ≤ b → b ≠ 34 → b ≠ 92 → Body s t → Body (b :: s) (b :: t)
  | short {s t : Text} {c b : UInt8} : shortEscape c = some b → Body s t → Body (b :: s) (92 :: c :: t)
  | unicode {s t : Text} {a b c d : UInt8} :
      isHex a = true → isHex b = true → isHex c = true → isHex d = true → Body s t →
        Body (utf8 (hexValue a * 4096 + hexValue b * 256 + hexValue c * 16 + hexValue d) ++ s)
          (92 :: 117 :: a :: b :: c :: d :: t)

/-- The digits in front of the point of a number. -/
def IsInteger (t : Text) : Prop := t = [48] ∨ (t ≠ [] ∧ t.head? ≠ some 48 ∧ ∀ b ∈ t, isDigit b = true)

def IsFraction (t : Text) : Prop :=
  t = [] ∨ ∃ ds, t = 46 :: ds ∧ ds ≠ [] ∧ ∀ b ∈ ds, isDigit b = true

def IsExponent (t : Text) : Prop :=
  t = [] ∨ ∃ e sign ds, t = e :: (sign ++ ds) ∧ (e = 101 ∨ e = 69) ∧
    (sign = [] ∨ sign = [43] ∨ sign = [45]) ∧ ds ≠ [] ∧ ∀ b ∈ ds, isDigit b = true

def IsNumber (t : Text) : Prop :=
  ∃ sign int frac exp, t = sign ++ int ++ frac ++ exp ∧ (sign = [] ∨ sign = [45]) ∧ IsInteger int ∧
    IsFraction frac ∧ IsExponent exp

/-- A value, or what stands between the brackets of an array or an object. -/
inductive Part where
  | value (v : Json)
  | items (vs : List Json)
  | members (ms : List (Text × Json))

def quoted (t : Text) : Text := 34 :: (t ++ [34])

/-- The texts of a part. -/
inductive Writes : Part → Text → Prop
  | null : Writes (.value .null) (ascii "null")
  | true : Writes (.value (.bool true)) (ascii "true")
  | false : Writes (.value (.bool false)) (ascii "false")
  | number {t : Text} : IsNumber t → Writes (.value (.number t)) t
  | string {s t : Text} : Body s t → Writes (.value (.string s)) (quoted t)
  | emptyArray {w : Text} : Ws w → Writes (.value (.array [])) (91 :: (w ++ [93]))
  | array {vs : List Json} {t : Text} : Writes (.items vs) t → Writes (.value (.array vs)) (91 :: (t ++ [93]))
  | emptyObject {w : Text} : Ws w → Writes (.value (.object [])) (123 :: (w ++ [125]))
  | object {ms : List (Text × Json)} {t : Text} :
      Writes (.members ms) t → Writes (.value (.object ms)) (123 :: (t ++ [125]))
  | item {v : Json} {a t b : Text} : Ws a → Writes (.value v) t → Ws b → Writes (.items [v]) (a ++ t ++ b)
  | items {v : Json} {vs : List Json} {a t b r : Text} : Ws a → Writes (.value v) t → Ws b →
      Writes (.items vs) r → Writes (.items (v :: vs)) (a ++ t ++ b ++ 44 :: r)
  | member {s k : Text} {v : Json} {a b c d t : Text} : Ws a → Body s k → Ws b → Ws c →
      Writes (.value v) t → Ws d →
        Writes (.members [(s, v)]) (a ++ quoted k ++ b ++ 58 :: (c ++ t ++ d))
  | members {s k : Text} {v : Json} {ms : List (Text × Json)} {a b c d t r : Text} : Ws a → Body s k →
      Ws b → Ws c → Writes (.value v) t → Ws d → Writes (.members ms) r →
        Writes (.members ((s, v) :: ms)) (a ++ quoted k ++ b ++ 58 :: (c ++ t ++ d) ++ 44 :: r)

/-- The text is a whole JSON text of the value. -/
def IsJson (v : Json) (t : Text) : Prop :=
  ∃ a body b, t = a ++ body ++ b ∧ Ws a ∧ Writes (.value v) body ∧ Ws b

/-! Texts without blanks. -/

theorem ws_nil : Ws [] := fun _ h => absurd h List.not_mem_nil

theorem isJson_of_writes {v : Json} {t : Text} (h : Writes (.value v) t) : IsJson v t :=
  ⟨[], t, [], by simp, ws_nil, h, ws_nil⟩

theorem intercalate_concat (sep : Text) (texts : List Text) (t : Text) :
    List.intercalate sep (texts ++ [t]) =
      List.intercalate sep texts ++ ((if 0 < texts.length then sep else []) ++ t) := by
  induction texts with
  | nil => simp
  | cons u texts ih =>
    cases texts with
    | nil => simp
    | cons w texts =>
      rw [List.cons_append, List.cons_append, List.intercalate_cons_cons, ← List.cons_append, ih,
        List.intercalate_cons_cons]
      simp

theorem writes_items {texts : List Text} {vs : List Json} (hne : vs ≠ [])
    (h : List.Forall₂ (fun v t => Writes (.value v) t) vs texts) :
    Writes (.items vs) (List.intercalate [44] texts) := by
  induction h with
  | nil => exact absurd rfl hne
  | @cons v t vs texts hv hrest ih =>
    cases hrest with
    | nil =>
      have hone := Writes.item ws_nil hv ws_nil
      simpa using hone
    | cons hv' hrest' =>
      have hmore := Writes.items ws_nil hv ws_nil (ih (List.cons_ne_nil _ _))
      simpa using hmore

/-- The members of an object, each with its key and its value. -/
theorem writes_members {texts : List Text} {ms : List (Text × Json)} (hne : ms ≠ [])
    (h : List.Forall₂ (fun m t => ∃ k v, t = quoted k ++ 58 :: v ∧ Body m.1 k ∧ Writes (.value m.2) v)
      ms texts) : Writes (.members ms) (List.intercalate [44] texts) := by
  induction h with
  | nil => exact absurd rfl hne
  | @cons m t ms texts hm hrest ih =>
    obtain ⟨k, v, rfl, hk, hv⟩ := hm
    cases hrest with
    | nil =>
      have hone := Writes.member ws_nil hk ws_nil ws_nil hv ws_nil
      simpa using hone
    | cons hm' hrest' =>
      have hmore := Writes.members ws_nil hk ws_nil ws_nil hv ws_nil (ih (List.cons_ne_nil _ _))
      simpa using hmore

/-! Going through a text byte by byte. -/

/-- Where a reader of strings stands: outside of them, within one, behind a backslash,
in front of so many more hexadecimal digits. -/
inductive State where
  | outside
  | inside
  | escape
  | hex (n : Nat)
deriving DecidableEq

def afterHex : Nat → State
  | 0 => .inside
  | n + 1 => .hex n

def step : State → UInt8 → Option State
  | .outside, b => if b = 34 then some .inside else if b = 92 then none else some .outside
  | .inside, b =>
    if b = 34 then some .outside else if b = 92 then some .escape else if b < 32 then none else some .inside
  | .escape, b => if b = 117 then some (.hex 3) else if (shortEscape b).isSome then some .inside else none
  | .hex n, b => if isHex b then some (afterHex n) else none

def run (q : State) (t : Text) : Option State := t.foldlM step q

theorem run_append (q : State) (s t : Text) : run q (s ++ t) = (run q s).bind fun q => run q t := by
  unfold run
  rw [List.foldlM_append]
  rfl

theorem run_cons (q : State) (b : UInt8) (t : Text) : run q (b :: t) = (step q b).bind fun q => run q t := by
  unfold run
  rw [List.foldlM_cons]
  rfl

theorem run_outside {t : Text} (h : ∀ b ∈ t, b ≠ 34 ∧ b ≠ 92) : run .outside t = some .outside := by
  induction t with
  | nil => rfl
  | cons b t ih =>
    have hb := h b List.mem_cons_self
    rw [run_cons, step, if_neg hb.1, if_neg hb.2]
    exact ih fun c hc => h c (List.mem_cons_of_mem b hc)

/-- The text of a string leads back into it. -/
theorem run_body {s t : Text} (h : Body s t) : run .inside t = some .inside := by
  induction h with
  | nil => rfl
  | plain b hb hquote hslash _ ih =>
    rw [run_cons, step, if_neg hquote, if_neg hslash, if_neg (UInt8.not_lt.mpr hb)]
    exact ih
  | @short s t c b hc _ ih =>
    have hu : c ≠ 117 := by
      rintro rfl
      exact nomatch hc
    simp only [run_cons]
    simpa [step, hu, hc] using ih
  | unicode ha hb hc hd _ ih =>
    simp only [run_cons]
    simpa [step, afterHex, ha, hb, hc, hd] using ih

theorem run_quoted {s t : Text} (h : Body s t) : run .outside (quoted t) = some .outside := by
  rw [quoted, run_cons, step, if_pos rfl, Option.bind_some, run_append, run_body h]
  rfl

theorem plain_digits {t : Text} (h : ∀ b ∈ t, isDigit b = true) : ∀ b ∈ t, b ≠ 34 ∧ b ≠ 92 := by
  intro b hb
  have hd := h b hb
  constructor <;> rintro rfl <;> exact absurd hd (by decide)

/-- The bytes of a number. -/
theorem number_bytes {t : Text} (h : IsNumber t) :
    ∀ b ∈ t, isDigit b = true ∨ b ∈ [43, 45, 46, 69, 101] := by
  obtain ⟨sign, int, frac, exp, rfl, hsign, hint, hfrac, hexp⟩ := h
  have hs : ∀ b ∈ sign, isDigit b = true ∨ b ∈ [43, 45, 46, 69, 101] := by
    rcases hsign with rfl | rfl <;> decide +kernel
  have hi : ∀ b ∈ int, isDigit b = true ∨ b ∈ [43, 45, 46, 69, 101] := by
    rcases hint with rfl | ⟨-, -, hint⟩
    · decide +kernel
    · exact fun b hb => .inl (hint b hb)
  have hf : ∀ b ∈ frac, isDigit b = true ∨ b ∈ [43, 45, 46, 69, 101] := by
    rcases hfrac with rfl | ⟨ds, rfl, -, hds⟩
    · decide +kernel
    · exact List.forall_mem_cons.mpr ⟨by decide, fun b hb => .inl (hds b hb)⟩
  have he : ∀ b ∈ exp, isDigit b = true ∨ b ∈ [43, 45, 46, 69, 101] := by
    rcases hexp with rfl | ⟨e, sign, ds, rfl, he, hsign, -, hds⟩
    · decide +kernel
    · refine List.forall_mem_cons.mpr ⟨?_, List.forall_mem_append.mpr ⟨?_, fun b hb => .inl (hds b hb)⟩⟩
      · rcases he with rfl | rfl <;> decide
      · rcases hsign with rfl | rfl | rfl <;> decide +kernel
  exact List.forall_mem_append.mpr
    ⟨List.forall_mem_append.mpr ⟨List.forall_mem_append.mpr ⟨hs, hi⟩, hf⟩, he⟩

theorem plain_number {t : Text} (h : IsNumber t) : ∀ b ∈ t, b ≠ 34 ∧ b ≠ 92 := by
  have hmarks : ∀ b ∈ [43, 45, 46, 69, 101], (b : UInt8) ≠ 34 ∧ b ≠ 92 := by decide +kernel
  intro b hb
  rcases number_bytes h b hb with hd | hmem
  · constructor <;> rintro rfl <;> exact absurd hd (by decide)
  · exact hmarks b hmem

theorem run_ws {w : Text} (h : Ws w) : run .outside w = some .outside := by
  refine run_outside fun b hb => ?_
  have hw := h b hb
  constructor <;> rintro rfl <;> exact absurd hw (by decide)

theorem run_between {t : Text} (a b : UInt8) (ha : step .outside a = some .outside)
    (hb : step .outside b = some .outside) (h : run .outside t = some .outside) :
    run .outside (a :: (t ++ [b])) = some .outside := by
  rw [run_cons, ha, Option.bind_some, run_append, h, Option.bind_some, run_cons, hb]
  rfl

/-- A JSON text opens as many strings as it closes. -/
theorem run_writes {p : Part} {t : Text} (h : Writes p t) : run .outside t = some .outside := by
  induction h with
  | null => decide
  | true => decide
  | false => decide
  | number h => exact run_outside (plain_number h)
  | string h => exact run_quoted h
  | emptyArray h => exact run_between 91 93 rfl rfl (run_ws h)
  | array _ ih => exact run_between 91 93 rfl rfl ih
  | emptyObject h => exact run_between 123 125 rfl rfl (run_ws h)
  | object _ ih => exact run_between 123 125 rfl rfl ih
  | item ha _ hb ih => simp [run_append, run_ws ha, ih, run_ws hb]
  | items ha _ hb _ ih ihr => simp [run_append, run_cons, step, run_ws ha, ih, run_ws hb, ihr]
  | member ha hk hb hc _ hd ih =>
    simp [run_append, run_cons, step, run_ws ha, run_quoted hk, run_ws hb, run_ws hc, ih, run_ws hd]
  | members ha hk hb hc _ hd _ ih ihr =>
    simp [run_append, run_cons, step, run_ws ha, run_quoted hk, run_ws hb, run_ws hc, ih, run_ws hd, ihr]

theorem run_isJson {v : Json} {t : Text} (h : IsJson v t) : run .outside t = some .outside := by
  obtain ⟨a, body, b, rfl, ha, hbody, hb⟩ := h
  rw [run_append, run_append, run_ws ha, Option.bind_some, run_writes hbody, Option.bind_some, run_ws hb]

theorem run_hex {n : Nat} {t : Text} (h : run (.hex n) t = some .inside) :
    ∃ a rest, t = a :: rest ∧ isHex a = true ∧ run (afterHex n) rest = some .inside := by
  cases t with
  | nil => cases h
  | cons a rest =>
    rw [run_cons, step] at h
    split_ifs at h with ha
    · exact ⟨a, rest, rfl, ha, h⟩
    · cases h

/-- A text without a quote that leads back into the string is the text of one. -/
theorem body_of_run {t : Text} (hquote : 34 ∉ t) (h : run .inside t = some .inside) : ∃ s, Body s t := by
  induction hn : t.length using Nat.strong_induction_on generalizing t with
  | _ n ih =>
    subst hn
    cases t with
    | nil => exact ⟨[], .nil⟩
    | cons b t =>
      have hb : b ≠ 34 := fun hb => hquote (hb ▸ List.mem_cons_self)
      have hrest : 34 ∉ t := fun ht => hquote (List.mem_cons_of_mem b ht)
      rw [run_cons, step, if_neg hb] at h
      split_ifs at h with hslash hcontrol
      · subst hslash
        cases t with
        | nil => cases h
        | cons c t =>
          have hrest : 34 ∉ t := fun ht => hrest (List.mem_cons_of_mem c ht)
          rw [Option.bind_some, run_cons, step] at h
          split_ifs at h with hu hshort
          · obtain rfl := hu
            obtain ⟨a, t₁, rfl, ha, h⟩ := run_hex h
            obtain ⟨b, t₂, rfl, hb, h⟩ := run_hex h
            obtain ⟨c, t₃, rfl, hc, h⟩ := run_hex h
            obtain ⟨d, t, rfl, hd, h⟩ := run_hex h
            obtain ⟨s, hs⟩ := ih t.length (by simp only [List.length_cons]; omega)
              (fun ht => hrest (by simp [ht])) h rfl
            exact ⟨_, .unicode ha hb hc hd hs⟩
          · obtain ⟨e, he⟩ := Option.isSome_iff_exists.mp hshort
            obtain ⟨s, hs⟩ := ih t.length (by simp only [List.length_cons]; omega) hrest h rfl
            exact ⟨_, .short he hs⟩
          · cases h
      · cases h
      · obtain ⟨s, hs⟩ := ih t.length (Nat.lt_succ_self _) hrest h rfl
        exact ⟨_, .plain b (UInt8.not_lt.mp hcontrol) hb hslash hs⟩

end PkgManager.JsonText
