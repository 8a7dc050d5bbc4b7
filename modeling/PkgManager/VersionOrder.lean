import PkgManager.ScannerState

namespace PkgManager.VersionOrder

open CText ScannerState
open PkgMetadata (Text showInt showTwo)

/-! The order of the version strings. -/

/-- What the loop in front of the number skips. -/
def isSkipped (b : UInt8) : Bool := b = 118 ∨ b = 86 ∨ isSpace b

/-- The number in front of the first dot has two digits, or begins with a zero. -/
def wideMajor (s : Text) : Prop :=
  s.getD 0 0 = 48 ∨ (s.getD 1 0 ≠ 46 ∧ s.getD 1 0 ≠ 0 ∧ s.getD 2 0 = 46)

instance (s : Text) : Decidable (wideMajor s) := inferInstanceAs (Decidable (_ ∨ _))

/-- `app_info_normalize_version` with a buffer of `maxOut` bytes. -/
def normalizeVersion (inp : Text) (maxOut : Nat) : Text :=
  if inp = [] then []
  else
    let s := inp.dropWhile isSkipped
    bounded maxOut <|
      if s = [] then ascii "v1.00"
      else
        match scanInt s with
        | none => 118 :: s
        | some (major, r) =>
          match scanDotInt r with
          | none => 118 :: (showInt major.toInt ++ ascii ".00")
          | some (minor, r) =>
            match scanDotInt r with
            | none =>
              if wideMajor s then 118 :: (showTwo major.toInt ++ 46 :: showTwo minor.toInt)
              else 118 :: (showInt major.toInt ++ 46 :: showTwo minor.toInt)
            | some (patch, _) =>
              if minor = 0 ∧ 0 < patch then 118 :: (showInt major.toInt ++ 46 :: showTwo patch.toInt)
              else if patch = 0 then 118 :: (showInt major.toInt ++ 46 :: showTwo minor.toInt)
              else
                118 :: (showInt major.toInt ++ 46 :: (showInt minor.toInt ++ 46 :: showInt patch.toInt))

/-- A number of a version as it is written, with zeros in front or without. -/
structure Component where
  text : Text
  nonempty : text ≠ []
  digits : ∀ b ∈ text, isDigit b = true
  small : digitsValue text < 2 ^ 30

def Component.value (c : Component) : Nat := digitsValue c.text

theorem Component.value_lt (c : Component) : c.value < 2 ^ 30 := c.small

/-- A version `major.minor` or `major.minor.patch`, perhaps with a `v` in front. -/
structure Version where
  v : Bool
  major : Component
  minor : Component
  patch : Option Component

/-- What stands behind the second number. -/
def Version.tail (ver : Version) : Text :=
  match ver.patch with
  | none => []
  | some p => 46 :: p.text

def Version.numbers (ver : Version) : Text := ver.major.text ++ 46 :: (ver.minor.text ++ ver.tail)

def Version.text (ver : Version) : Text := if ver.v then 118 :: ver.numbers else ver.numbers

/-- The three numbers; a missing patch is zero. -/
def Version.triple (ver : Version) : Nat × Nat × Nat :=
  (ver.major.value, ver.minor.value, ((ver.patch.map (·.value)).getD 0))

/-- How a version is read: `1.0.3` is `1.3`. -/
def reading (t : Nat × Nat × Nat) : Nat × Nat × Nat :=
  if t.2.1 = 0 ∧ 0 < t.2.2 then (t.1, t.2.2, 0) else t

/-- The numbers one after the other. -/
def order (t : Nat × Nat × Nat) : Nat ×ₗ Nat ×ₗ Nat := toLex (t.1, toLex t.2)

/-- A patch without a minor number that is at or above the minor number of another version. -/
def Overtakes (a b : Nat × Nat × Nat) : Prop :=
  a.1 = b.1 ∧ a.2.1 = 0 ∧ 0 < b.2.1 ∧ (b.2.1 < a.2.2 ∨ (b.2.1 = a.2.2 ∧ b.2.2 = 0))

/-- The sign of a comparison is that of the keys. -/
def Agrees {κ : Type} [LT κ] (x : Int32) (a b : κ) : Prop := (x < 0 ↔ a < b) ∧ (0 < x ↔ b < a)

section

variable {a b : Nat × Nat × Nat}

theorem order_lt_iff :
    order a < order b ↔ a.1 < b.1 ∨ (a.1 = b.1 ∧ (a.2.1 < b.2.1 ∨ (a.2.1 = b.2.1 ∧ a.2.2 < b.2.2))) := by
  unfold order
  rw [Prod.Lex.toLex_lt_toLex, Prod.Lex.toLex_lt_toLex]

/-- The reading keeps the order but where one version overtakes the other. -/
theorem reading_order_iff :
    ((order (reading a) < order (reading b) ↔ order a < order b) ∧
      (order (reading b) < order (reading a) ↔ order b < order a)) ↔
        ¬(Overtakes a b ∨ Overtakes b a) := by
  obtain ⟨x, y, z⟩ := a
  obtain ⟨x', y', z'⟩ := b
  unfold Overtakes reading
  simp only [order_lt_iff]
  by_cases hmerged : y = 0 ∧ 0 < z
  · rw [if_pos hmerged]
    by_cases hmerged' : y' = 0 ∧ 0 < z'
    · rw [if_pos hmerged']
      dsimp only
      omega
    · rw [if_neg hmerged']
      dsimp only
      omega
  · rw [if_neg hmerged]
    by_cases hmerged' : y' = 0 ∧ 0 < z'
    · rw [if_pos hmerged']
      dsimp only
      omega
    · rw [if_neg hmerged']
      dsimp only
      omega

end

/-! What the strings are read as. -/

/-- A text that no digit goes on with. -/
def Stops (r : Text) : Prop := ∀ c ∈ r.head?, isDigit c = false

theorem scanInt_component (c : Component) {r : Text} (hr : Stops r) :
    scanInt (c.text ++ r) = some (Int32.ofNat c.value, r) := by
  obtain ⟨text, hne, hdigits, hsmall⟩ := c
  unfold Component.value
  dsimp only
  have htake : (text ++ r).takeWhile isDigit = text := by
    rw [List.takeWhile_append_of_pos hdigits]
    cases r with
    | nil => rw [List.takeWhile_nil, List.append_nil]
    | cons b r =>
      have hb := hr b rfl
      rw [List.takeWhile_cons_of_neg (by rw [hb]; decide), List.append_nil]
  have hdrop : (text ++ r).dropWhile isDigit = r := by
    rw [List.dropWhile_append_of_pos hdigits]
    cases r with
    | nil => rfl
    | cons b r =>
      have hb := hr b rfl
      rw [List.dropWhile_cons_of_neg (by rw [hb]; decide)]
  have hmin : min (digitsValue text) (2 ^ 63 - 1) = digitsValue text := by omega
  have hhead : ∃ d, (text ++ r).head? = some d ∧ isDigit d = true ∧
      (text ++ r).dropWhile isSpace = text ++ r := by
    obtain ⟨d, rest, rfl⟩ := List.exists_cons_of_ne_nil hne
    have hd : isDigit d = true := hdigits d List.mem_cons_self
    have hspace : ¬isSpace d = true := by
      intro h
      rw [not_isDigit_of_isSpace h] at hd
      cases hd
    exact ⟨d, rfl, hd, List.dropWhile_cons_of_neg hspace⟩
  obtain ⟨d, hhead, hd, hfirst⟩ := hhead
  have h45 : (text ++ r).head? ≠ some 45 := by
    rw [hhead]
    rintro h
    rw [Option.some.inj h] at hd
    exact absurd hd (by decide)
  have h43 : (text ++ r).head? ≠ some 43 := by
    rw [hhead]
    rintro h
    rw [Option.some.inj h] at hd
    exact absurd hd (by decide)
  unfold scanInt
  simp only [hfirst, h45, h43, or_self, if_false, htake, hdrop, hne, hmin]
  rfl

theorem scanDotInt_component (c : Component) {r : Text} (hr : Stops r) :
    scanDotInt (46 :: (c.text ++ r)) = some (Int32.ofNat c.value, r) := by
  unfold scanDotInt
  rw [List.head?_cons, if_pos rfl, List.drop_succ_cons, List.drop_zero, scanInt_component c hr]

theorem stops_tail (ver : Version) : Stops ver.tail := by
  unfold Version.tail
  intro c hc
  cases hp : ver.patch with
  | none =>
    rw [hp] at hc
    cases hc
  | some p =>
    rw [hp] at hc
    obtain rfl := Option.some.inj hc
    rfl

theorem stops_dot (r : Text) : Stops (46 :: r) := by
  intro c hc
  obtain rfl := Option.some.inj hc
  rfl

/-- In front of the numbers there is nothing left to skip. -/
theorem front_skipped (ver : Version) : ver.text.dropWhile isSkipped = ver.numbers := by
  have hnumbers : ver.numbers.dropWhile isSkipped = ver.numbers := by
    obtain ⟨d, rest, heq⟩ := List.exists_cons_of_ne_nil ver.major.nonempty
    have hd : isDigit d = true := ver.major.digits d (heq ▸ List.mem_cons_self)
    have hnot : ¬isSkipped d = true := by
      intro h
      unfold isSkipped at h
      rcases of_decide_eq_true h with rfl | rfl | hspace
      · exact absurd hd (by decide)
      · exact absurd hd (by decide)
      · rw [not_isDigit_of_isSpace hspace] at hd
        cases hd
    unfold Version.numbers
    rw [heq, List.cons_append, List.dropWhile_cons_of_neg hnot]
  unfold Version.text
  cases ver.v with
  | false => exact hnumbers
  | true =>
    rw [if_pos rfl, List.dropWhile_cons_of_pos rfl]
    exact hnumbers

theorem toInt_ofNat {n : Nat} (h : n < 2 ^ 30) : (Int32.ofNat n).toInt = n :=
  Int32.toInt_ofNat_of_lt (by omega)

theorem ofNat_zero_iff {n : Nat} (h : n < 2 ^ 30) : Int32.ofNat n = 0 ↔ n = 0 := by
  rw [← Int32.toInt_inj, toInt_ofNat h, Int32.toInt_zero]
  omega

theorem ofNat_pos_iff {n : Nat} (h : n < 2 ^ 30) : 0 < Int32.ofNat n ↔ 0 < n := by
  rw [Int32.lt_iff_toInt_lt, toInt_ofNat h, Int32.toInt_zero]
  omega

def words (t : Nat × Nat × Nat) : Int32 × Int32 × Int32 :=
  (Int32.ofNat t.1, Int32.ofNat t.2.1, Int32.ofNat t.2.2)

/-- The first two numbers, with what stands behind them. -/
theorem scan_numbers (ver : Version) :
    scanInt ver.numbers = some (Int32.ofNat ver.major.value, 46 :: (ver.minor.text ++ ver.tail)) ∧
      scanDotInt (46 :: (ver.minor.text ++ ver.tail)) = some (Int32.ofNat ver.minor.value, ver.tail) := by
  unfold Version.numbers
  exact ⟨scanInt_component _ (stops_dot _), scanDotInt_component _ (stops_tail ver)⟩

theorem scan_tail (ver : Version) :
    scanDotInt ver.tail = ver.patch.map fun p => (Int32.ofNat p.value, []) := by
  unfold Version.tail
  cases ver.patch with
  | none => rfl
  | some p =>
    have hscan := scanDotInt_component p (r := []) nofun
    rw [List.append_nil] at hscan
    exact hscan

theorem parse_text (ver : Version) : parseVersionParts ver.text = words (reading ver.triple) := by
  have hskip : ver.text.dropWhile (fun b => b = 118 ∨ b = 86 ∨ isSpace b) = ver.numbers :=
    front_skipped ver
  obtain ⟨hmajor, hminor⟩ := scan_numbers ver
  have hzero : Int32.ofNat ver.minor.value = 0 ↔ ver.minor.value = 0 := ofNat_zero_iff ver.minor.value_lt
  unfold parseVersionParts Version.triple
  rw [hskip, hmajor]
  simp only [hminor, scan_tail]
  cases ver.patch with
  | none =>
    unfold reading
    rw [Option.map_none, Option.map_none, Option.getD_none, if_neg fun h => Nat.lt_irrefl 0 h.2]
    rfl
  | some p =>
    have hpos : 0 < Int32.ofNat p.value ↔ 0 < p.value := ofNat_pos_iff p.value_lt
    unfold reading
    rw [Option.map_some, Option.map_some, Option.getD_some]
    by_cases hmerged : ver.minor.value = 0 ∧ 0 < p.value
    · have hcode : Int32.ofNat ver.minor.value = 0 ∧ 0 < Int32.ofNat p.value :=
        ⟨hzero.mpr hmerged.1, hpos.mpr hmerged.2⟩
      rw [if_pos hmerged]
      exact if_pos hcode
    · have hcode : ¬(Int32.ofNat ver.minor.value = 0 ∧ 0 < Int32.ofNat p.value) :=
        fun h => hmerged ⟨hzero.mp h.1, hpos.mp h.2⟩
      rw [if_neg hmerged]
      exact if_neg hcode

theorem difference_sign {m n : Nat} (hm : m < 2 ^ 30) (hn : n < 2 ^ 30) :
    Agrees (Int32.ofNat m - Int32.ofNat n) m n := by
  have hdiff : (Int32.ofNat m - Int32.ofNat n).toInt = (m : Int) - n := by
    rw [Int32.toInt_sub, toInt_ofNat hm, toInt_ofNat hn]
    exact Int.bmod_eq_of_le (by omega) (by omega)
  unfold Agrees
  rw [Int32.lt_iff_toInt_lt, Int32.lt_iff_toInt_lt, hdiff, Int32.toInt_zero]
  omega

/-- The three numbers are small. -/
def Small (t : Nat × Nat × Nat) : Prop := t.1 < 2 ^ 30 ∧ t.2.1 < 2 ^ 30 ∧ t.2.2 < 2 ^ 30

theorem small_reading (ver : Version) : Small (reading ver.triple) := by
  have hpatch : (ver.patch.map (·.value)).getD 0 < 2 ^ 30 := by
    cases ver.patch with
    | none => decide
    | some p => exact p.small
  unfold reading Version.triple
  dsimp only
  by_cases hmerged : ver.minor.value = 0 ∧ 0 < (ver.patch.map (·.value)).getD 0
  · rw [if_pos hmerged]
    exact ⟨ver.major.small, hpatch, Nat.two_pow_pos 30⟩
  · rw [if_neg hmerged]
    exact ⟨ver.major.small, ver.minor.small, hpatch⟩

/-- The comparison of two readings. -/
theorem compare_readings (a b : Version) :
    Agrees (compareVersions a.text b.text) (order (reading a.triple)) (order (reading b.triple)) := by
  have hcode : compareVersions a.text b.text =
      if (parseVersionParts a.text).1 ≠ (parseVersionParts b.text).1 then
        (parseVersionParts a.text).1 - (parseVersionParts b.text).1
      else if (parseVersionParts a.text).2.1 ≠ (parseVersionParts b.text).2.1 then
        (parseVersionParts a.text).2.1 - (parseVersionParts b.text).2.1
      else (parseVersionParts a.text).2.2 - (parseVersionParts b.text).2.2 := rfl
  obtain ⟨ha1, ha2, ha3⟩ := small_reading a
  obtain ⟨hb1, hb2, hb3⟩ := small_reading b
  rw [hcode, parse_text, parse_text]
  generalize reading a.triple = t at *
  generalize reading b.triple = u at *
  have hword : ∀ {m n : Nat}, m < 2 ^ 30 → n < 2 ^ 30 → (Int32.ofNat m ≠ Int32.ofNat n ↔ m ≠ n) := by
    intro m n hm hn
    rw [ne_eq, ← Int32.toInt_inj, toInt_ofNat hm, toInt_ofNat hn]
    omega
  unfold words Agrees
  rw [order_lt_iff, order_lt_iff]
  dsimp only
  by_cases h1 : t.1 = u.1
  · rw [if_neg (mt (hword ha1 hb1).mp (not_not_intro h1))]
    by_cases h2 : t.2.1 = u.2.1
    · obtain ⟨hlt, hgt⟩ := difference_sign ha3 hb3
      rw [if_neg (mt (hword ha2 hb2).mp (not_not_intro h2)), hlt, hgt]
      omega
    · obtain ⟨hlt, hgt⟩ := difference_sign ha2 hb2
      rw [if_pos ((hword ha2 hb2).mpr h2), hlt, hgt]
      omega
  · obtain ⟨hlt, hgt⟩ := difference_sign ha1 hb1
    rw [if_pos ((hword ha1 hb1).mpr h1), hlt, hgt]
    omega

/-! The normalized strings. -/

/-- A number without zeros in front. -/
def Component.plain (c : Component) : Component where
  text := decimal c.value
  nonempty := decimal_ne_nil _
  digits := isDigit_decimal _
  small := (digitsValue_decimal _).trans_lt c.small

/-- The digits of a number, two at least. -/
def twoDigits (n : Nat) : Text := if n < 10 then 48 :: decimal n else decimal n

theorem twoDigits_ne_nil (n : Nat) : twoDigits n ≠ [] := by
  unfold twoDigits
  by_cases h : n < 10
  · rw [if_pos h]
    exact List.cons_ne_nil _ _
  · rw [if_neg h]
    exact decimal_ne_nil n

theorem isDigit_twoDigits (n : Nat) : ∀ b ∈ twoDigits n, isDigit b = true := by
  unfold twoDigits
  by_cases h : n < 10
  · rw [if_pos h]
    intro b hb
    rcases List.mem_cons.mp hb with rfl | hb
    · rfl
    · exact isDigit_decimal n b hb
  · rw [if_neg h]
    exact isDigit_decimal n

theorem digitsValue_twoDigits (n : Nat) : digitsValue (twoDigits n) = n := by
  unfold twoDigits
  by_cases h : n < 10
  · rw [if_pos h]
    exact digitsValue_decimal n
  · rw [if_neg h]
    exact digitsValue_decimal n

def Component.two (c : Component) : Component where
  text := twoDigits c.value
  nonempty := twoDigits_ne_nil _
  digits := isDigit_twoDigits _
  small := (digitsValue_twoDigits _).trans_lt c.small

theorem value_plain (c : Component) : c.plain.value = c.value := digitsValue_decimal _

theorem value_two (c : Component) : c.two.value = c.value := digitsValue_twoDigits _

/-- The version that a normalized string is. -/
def Version.normal (ver : Version) : Version :=
  match ver.patch with
  | none =>
    ⟨true, if wideMajor ver.numbers then ver.major.two else ver.major.plain, ver.minor.two, none⟩
  | some p =>
    if ver.minor.value = 0 ∧ 0 < p.value then ⟨true, ver.major.plain, p.two, none⟩
    else if p.value = 0 then ⟨true, ver.major.plain, ver.minor.two, none⟩
    else ⟨true, ver.major.plain, ver.minor.plain, some p.plain⟩

theorem reading_normal (ver : Version) : reading ver.normal.triple = reading ver.triple := by
  have hnone : ∀ m n : Nat, reading (m, n, 0) = (m, n, 0) := fun m n => if_neg fun h => Nat.lt_irrefl 0 h.2
  unfold Version.normal Version.triple
  cases ver.patch with
  | none =>
    dsimp only
    by_cases hwide : wideMajor ver.numbers
    · rw [if_pos hwide, value_two, value_two]
    · rw [if_neg hwide, value_plain, value_two]
  | some p =>
    dsimp only
    by_cases hmerged : ver.minor.value = 0 ∧ 0 < p.value
    · rw [if_pos hmerged]
      simp only [value_plain, value_two, Option.map_none, Option.getD_none, Option.map_some,
        Option.getD_some, hnone]
      exact (if_pos hmerged).symm
    · rw [if_neg hmerged]
      by_cases hzero : p.value = 0
      · rw [if_pos hzero]
        simp only [value_plain, value_two, Option.map_none, Option.getD_none, Option.map_some,
          Option.getD_some, hzero]
      · rw [if_neg hzero]
        simp only [value_plain, Option.map_some, Option.getD_some]

theorem showInt_component (c : Component) : showInt (Int32.ofNat c.value).toInt = c.plain.text := by
  have hnot : ¬((c.value : Int) < 0) := by omega
  unfold showInt
  rw [toInt_ofNat c.value_lt, if_neg hnot, Int.natAbs_natCast]
  rfl

theorem showTwo_component (c : Component) : showTwo (Int32.ofNat c.value).toInt = c.two.text := by
  have hshow := showInt_component c
  have hsmall : (0 ≤ (c.value : Int) ∧ (c.value : Int) < 10) ↔ c.value < 10 := by omega
  unfold showTwo
  rw [hshow, toInt_ofNat c.value_lt]
  have htext : c.two.text = twoDigits c.value := rfl
  rw [htext]
  unfold twoDigits
  by_cases h : c.value < 10
  · rw [if_pos (hsmall.mpr h), if_pos h]
    rfl
  · rw [if_neg (mt hsmall.mp h), if_neg h]
    rfl

theorem text_pair (c d : Component) :
    Version.text ⟨true, c, d, none⟩ = 118 :: (c.text ++ 46 :: d.text) := by
  unfold Version.text Version.numbers Version.tail
  rw [if_pos rfl, List.append_nil]

theorem text_triple (c d p : Component) :
    Version.text ⟨true, c, d, some p⟩ = 118 :: (c.text ++ 46 :: (d.text ++ 46 :: p.text)) :=
  rfl

theorem normalize_text (ver : Version) (maxOut : Nat) :
    normalizeVersion ver.text maxOut = bounded maxOut ver.normal.text := by
  obtain ⟨hmajor, hminor⟩ := scan_numbers ver
  have hne : ver.text ≠ [] := by
    unfold Version.text Version.numbers
    cases ver.v with
    | true => exact List.cons_ne_nil _ _
    | false => simp
  have hnumbers : ver.numbers ≠ [] := by
    unfold Version.numbers
    simp
  unfold normalizeVersion
  rw [if_neg hne]
  simp only [front_skipped, if_neg hnumbers, hmajor, hminor, scan_tail, showInt_component,
    showTwo_component]
  congr 1
  unfold Version.normal
  cases ver.patch with
  | none =>
    dsimp only [Option.map_none]
    by_cases hwide : wideMajor ver.numbers
    · rw [if_pos hwide, if_pos hwide, text_pair]
    · rw [if_neg hwide, if_neg hwide, text_pair]
  | some p =>
    have hzero := ofNat_zero_iff ver.minor.value_lt
    have hpos := ofNat_pos_iff p.value_lt
    have hzero' := ofNat_zero_iff p.value_lt
    dsimp only [Option.map_some]
    by_cases hmerged : ver.minor.value = 0 ∧ 0 < p.value
    · rw [if_pos hmerged, if_pos ⟨hzero.mpr hmerged.1, hpos.mpr hmerged.2⟩, showTwo_component, text_pair]
    · rw [if_neg hmerged, if_neg fun h => hmerged ⟨hzero.mp h.1, hpos.mp h.2⟩]
      by_cases hp : p.value = 0
      · rw [if_pos hp, if_pos (hzero'.mpr hp), text_pair]
      · rw [if_neg hp, if_neg (mt hzero'.mp hp), showInt_component, text_triple]

/-- The order of the versions by the numbers as they are read, and when it is that of the numbers. -/
theorem version_order (a b : Version) :
    Agrees (compareVersions a.text b.text) (order (reading a.triple)) (order (reading b.triple)) ∧
      (Agrees (compareVersions a.text b.text) (order a.triple) (order b.triple) ↔
        ¬(Overtakes a.triple b.triple ∨ Overtakes b.triple a.triple)) ∧
      ∀ maxOut, a.normal.text.length < maxOut → b.normal.text.length < maxOut →
        compareVersions (normalizeVersion a.text maxOut) (normalizeVersion b.text maxOut) =
          compareVersions a.text b.text := by
  have hsign := compare_readings a b
  refine ⟨hsign, ?_, ?_⟩
  · rw [← reading_order_iff]
    unfold Agrees at hsign ⊢
    rw [hsign.1, hsign.2]
  · intro maxOut ha hb
    have hwhole : ∀ ver : Version, ver.normal.text.length < maxOut →
        normalizeVersion ver.text maxOut = ver.normal.text := by
      intro ver hver
      rw [normalize_text]
      exact List.take_of_length_le (by omega)
    have hparse : ∀ ver : Version,
        parseVersionParts ver.normal.text = parseVersionParts ver.text := by
      intro ver
      rw [parse_text, parse_text, reading_normal]
    rw [hwhole a ha, hwhole b hb]
    unfold compareVersions
    rw [hparse, hparse]

/-- `01.000.005`. -/
def installedVersion : Version :=
  ⟨false, ⟨ascii "01", by decide, by decide +kernel, by decide⟩, ⟨ascii "000", by decide, by decide +kernel, by decide⟩,
    some ⟨ascii "005", by decide, by decide +kernel, by decide⟩⟩

/-- `01.001.000`. -/
def updateVersion : Version :=
  ⟨false, ⟨ascii "01", by decide, by decide +kernel, by decide⟩, ⟨ascii "001", by decide, by decide +kernel, by decide⟩,
    some ⟨ascii "000", by decide, by decide +kernel, by decide⟩⟩

theorem version_order_normalized :
    compareVersions (normalizeVersion installedVersion.text 32) (normalizeVersion updateVersion.text 32) =
      compareVersions installedVersion.text updateVersion.text :=
  (version_order installedVersion updateVersion).2.2 32 (by decide) (by decide)

theorem version_order_fails :
    ¬Agrees (compareVersions installedVersion.text updateVersion.text) (order installedVersion.triple)
      (order updateVersion.triple) := by
  intro h
  have hlt : order installedVersion.triple < order updateVersion.triple := by
    rw [order_lt_iff]
    decide
  exact absurd (h.1.mpr hlt) (by decide)

end PkgManager.VersionOrder
