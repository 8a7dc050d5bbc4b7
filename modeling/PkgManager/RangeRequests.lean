import PkgManager.QuotedText
import PkgManager.StreamResponse

namespace PkgManager.RangeRequests

open CText QuotedText StreamResponse

/-! Requests for a range. -/

/-- A number as it is written, of any size. -/
structure Digits where
  text : Text
  nonempty : text ≠ []
  digits : ∀ b ∈ text, isDigit b = true

def Digits.value (ds : Digits) : Nat := digitsValue ds.text

/-- The bytes from one place to another, those from a place on, or the last ones. -/
inductive Spec where
  | between (first last : Digits) (ordered : first.value ≤ last.value)
  | onwards (first : Digits)
  | final (count : Digits)

def Spec.text : Spec → Text
  | .between first last _ => first.text ++ 45 :: last.text
  | .onwards first => first.text ++ [45]
  | .final count => 45 :: count.text

/-- The positions that are asked for in a package of `total` bytes. -/
def Spec.Asks (total : Nat) : Spec → Nat → Prop
  | .between first last _, i => first.value ≤ i ∧ i ≤ last.value
  | .onwards first, i => first.value ≤ i
  | .final count, i => total ≤ i + count.value

/-- The answer names the positions of the package that are asked for. -/
def Answers (total : Nat) (spec : Spec) : Range → Prop
  | .absent => False
  | .bytes start last => ∀ i, (start ≤ i ∧ i ≤ last) ↔ (i < total ∧ spec.Asks total i)
  | .unsatisfiable => ∀ i < total, ¬spec.Asks total i

/-- A line that could stand in front of the one that names the range. -/
structure OtherLine (line : Text) : Prop where
  whole : 10 ∉ line ∧ 0 ∉ line
  unfolded : ∀ b ∈ line.head?, blank b = false
  other : sameText (line.take 6) (ascii "range:") = false

/-- A request whose first line named Range asks for `spec`; anything may follow that line. -/
structure RangeRequest where
  line : Text
  before : List Text
  name : Text
  left : Text
  spec : Spec
  right : Text
  rest : Text
  line_whole : 10 ∉ line ∧ 0 ∉ line
  before_other : ∀ l ∈ before, OtherLine l
  named : sameText name (ascii "range") = true
  left_blank : ∀ b ∈ left, blank b = true
  right_blank : ∀ b ∈ right, blank b = true

/-- The line that names the range. -/
def RangeRequest.field (r : RangeRequest) : Text :=
  r.name ++ 58 :: (r.left ++ (ascii "bytes=" ++ (r.spec.text ++ r.right)))

def RangeRequest.text (r : RangeRequest) : Text :=
  r.line ++ (crlf ++ (r.before.flatMap (· ++ crlf) ++ (r.field ++ (crlf ++ r.rest))))

/-! The line is found. -/

theorem rangeLine_append {t : Text} (h : 10 ∉ t) (rest : Text) :
    rangeLine (t ++ rest) = rangeLine rest := by
  induction t with
  | nil => rfl
  | cons b t ih =>
    rw [List.mem_cons, not_or] at h
    rw [List.cons_append, rangeLine, if_neg fun hb => h.1 hb.1.symm]
    exact ih h.2

theorem sameText_mem {s t : Text} (h : sameText s t = true) {b : UInt8} (hb : b ∈ s) :
    toLower b ∈ t.map toLower := by
  rw [← of_decide_eq_true h]
  exact List.mem_map_of_mem hb

theorem OtherLine.next {l : Text} (hl : OtherLine l) (more : Text) :
    rangeLine (10 :: (l ++ (crlf ++ more))) = rangeLine (10 :: more) := by
  have hblank : (l ++ (crlf ++ more)).dropWhile blank = l ++ (crlf ++ more) := by
    have hhead : ∀ b ∈ (l ++ (crlf ++ more)).head?, blank b = false := by
      intro b hb
      cases l with
      | nil =>
        obtain rfl := Option.some.inj hb
        rfl
      | cons c l => exact hl.unfolded b hb
    generalize l ++ (crlf ++ more) = t at hhead
    cases t with
    | nil => rfl
    | cons b t => exact List.dropWhile_cons_of_neg (by rw [hhead b rfl]; decide)
  have hnot : sameText ((l ++ (crlf ++ more)).take 6) (ascii "range:") ≠ true := by
    intro hsame
    by_cases hlong : 6 ≤ l.length
    · rw [List.take_append_of_le_length hlong, hl.other] at hsame
      cases hsame
    · -- the end of a short line is no part of the name
      have hmem : (13 : UInt8) ∈ (l ++ (crlf ++ more)).take 6 := by
        refine List.mem_of_getElem? (i := l.length) ?_
        rw [List.getElem?_take_of_lt (by omega), List.getElem?_append_right (Nat.le_refl _), Nat.sub_self]
        rfl
      exact absurd (sameText_mem hsame hmem) (by decide)
  rw [rangeLine, if_neg]
  · rw [rangeLine_append hl.whole.1]
    rfl
  · rw [hblank]
    exact fun h => hnot h.2

theorem rangeLine_before {ls : List Text} (h : ∀ l ∈ ls, OtherLine l) (more : Text) :
    rangeLine (10 :: (ls.flatMap (· ++ crlf) ++ more)) = rangeLine (10 :: more) := by
  induction ls with
  | nil => rfl
  | cons l ls ih =>
    rw [List.flatMap_cons, List.append_assoc, List.append_assoc,
      (h l List.mem_cons_self).next, ih fun k hk => h k (List.mem_cons_of_mem l hk)]

theorem rangeLine_named {name : Text} (h : sameText name (ascii "range") = true) (more : Text) :
    rangeLine (10 :: (name ++ 58 :: more)) = some (name ++ 58 :: more) := by
  have hlen : name.length = 5 := by
    have hmap := congrArg List.length (of_decide_eq_true h)
    rw [List.length_map, List.length_map] at hmap
    exact hmap
  have hblank : (name ++ 58 :: more).dropWhile blank = name ++ 58 :: more := by
    cases name with
    | nil => cases hlen
    | cons b t =>
      refine List.dropWhile_cons_of_neg fun hb => ?_
      have hmem := sameText_mem h (List.mem_cons_self : b ∈ b :: t)
      rcases of_decide_eq_true hb with rfl | rfl
      · exact absurd hmem (by decide)
      · exact absurd hmem (by decide)
  rw [rangeLine, hblank, if_pos]
  refine ⟨rfl, ?_⟩
  rw [List.take_append, List.take_of_length_le (by omega), hlen]
  refine decide_eq_true ?_
  rw [List.map_append, of_decide_eq_true h]
  rfl

theorem findLine (r : RangeRequest) (rest : Text) :
    rangeLine (r.line ++ (crlf ++ (r.before.flatMap (· ++ crlf) ++ (r.field ++ rest)))) =
      some (r.field ++ rest) := by
  rw [rangeLine_append r.line_whole.1]
  show rangeLine (10 :: (r.before.flatMap (· ++ crlf) ++ (r.field ++ rest))) = _
  rw [rangeLine_before r.before_other, RangeRequest.field, List.append_assoc]
  exact rangeLine_named r.named _

/-! The numbers are read. -/

theorem strtoul_digits (ds : Digits) {r : Text} (hr : ∀ c ∈ r.head?, isDigit c = false) :
    (strtoul (ds.text ++ r)).1 = min ds.value (2 ^ 64 - 1) := by
  rw [strtoul_append ds.nonempty ds.digits hr]
  rfl

theorem Digits.not_mem (ds : Digits) {b : UInt8} (hb : isDigit b = false) : b ∉ ds.text := by
  intro hmem
  rw [ds.digits b hmem] at hb
  cases hb

theorem not_mem_blank {s : Text} (hs : ∀ b ∈ s, blank b = true) {b : UInt8} (hb : blank b = false) :
    b ∉ s := by
  intro hmem
  rw [hs b hmem] at hb
  cases hb

theorem Spec.not_mem (spec : Spec) {b : UInt8} (hb : isDigit b = false) (hdash : b ≠ 45) :
    b ∉ spec.text := by
  cases spec with
  | between first last ordered =>
    simp [Spec.text, first.not_mem hb, last.not_mem hb, hdash]
  | onwards first => simp [Spec.text, first.not_mem hb, hdash]
  | final count => simp [Spec.text, count.not_mem hb, hdash]

theorem RangeRequest.not_mem_name (r : RangeRequest) {b : UInt8}
    (hb : toLower b ∉ (ascii "range").map toLower) : b ∉ r.name :=
  fun hmem => hb (sameText_mem r.named hmem)

/-- No byte of the field ends it. -/
theorem RangeRequest.not_mem_field (r : RangeRequest) {b : UInt8} (hb : b = 13 ∨ b = 0) :
    b ∉ r.field := by
  have hparts : b ∉ r.name ∧ b ≠ 58 ∧ b ∉ r.left ∧ b ∉ ascii "bytes=" ∧ b ∉ r.spec.text ∧
      b ∉ r.right := by
    rcases hb with rfl | rfl
    · exact ⟨r.not_mem_name (by decide), by decide, not_mem_blank r.left_blank rfl, by decide,
        r.spec.not_mem rfl (by decide), not_mem_blank r.right_blank rfl⟩
    · exact ⟨r.not_mem_name (by decide), by decide, not_mem_blank r.left_blank rfl, by decide,
        r.spec.not_mem rfl (by decide), not_mem_blank r.right_blank rfl⟩
  unfold RangeRequest.field
  simp only [List.mem_append, List.mem_cons, not_or]
  exact hparts

theorem RangeRequest.line_end (r : RangeRequest) (rest : Text) :
    strstr crlf (r.field ++ (crlf ++ rest)) = some r.field.length := by
  rw [crlf, strstr_passes (passes_plain [10] _ (r.not_mem_field (.inl rfl)))
    (r.not_mem_field (.inr rfl)), strstr_here (List.prefix_append [13, 10] rest)]
  simp

/-- Where the unit begins in the field. -/
def RangeRequest.unitAt (r : RangeRequest) : Nat := (r.name ++ 58 :: r.left).length

theorem RangeRequest.unit_found (r : RangeRequest) (rest : Text) :
    strstr (ascii "bytes=") (r.field ++ rest) = some r.unitAt := by
  have hsplit : r.field ++ rest =
      (r.name ++ 58 :: r.left) ++ (ascii "bytes=" ++ (r.spec.text ++ r.right ++ rest)) := by
    simp [RangeRequest.field]
  have hfree : ∀ b, b = 98 ∨ b = 0 → b ∉ r.name ++ 58 :: r.left := by
    rintro b (rfl | rfl)
    · simp [r.not_mem_name (b := 98) (by decide), not_mem_blank r.left_blank (b := 98) rfl]
    · simp [r.not_mem_name (b := 0) (by decide), not_mem_blank r.left_blank (b := 0) rfl]
  have hpasses : Passes (ascii "bytes=") (r.name ++ 58 :: r.left)
      (ascii "bytes=" ++ (r.spec.text ++ r.right ++ rest)) :=
    passes_plain (ascii "ytes=") _ (hfree 98 (.inl rfl))
  rw [hsplit, strstr_passes hpasses (hfree 0 (.inr rfl)), strstr_here (List.prefix_append _ _)]
  simp [RangeRequest.unitAt]

theorem RangeRequest.behind_unit (r : RangeRequest) (rest : Text) :
    (r.field ++ rest).drop (r.unitAt + 6) = r.spec.text ++ (r.right ++ rest) := by
  have hsplit : r.field ++ rest =
      (r.name ++ 58 :: r.left ++ ascii "bytes=") ++ (r.spec.text ++ (r.right ++ rest)) := by
    simp [RangeRequest.field]
  have hlen : r.unitAt + 6 = (r.name ++ 58 :: r.left ++ ascii "bytes=").length := by
    rw [List.length_append]
    rfl
  rw [hsplit, hlen, List.drop_left]

theorem RangeRequest.length_field (r : RangeRequest) :
    r.field.length = r.unitAt + 6 + r.spec.text.length + r.right.length := by
  have hunit : (ascii "bytes=").length = 6 := rfl
  simp only [RangeRequest.field, RangeRequest.unitAt, List.length_append, List.length_cons, hunit]
  omega

/-- What is made of a range whose dash stands behind so many bytes. -/
theorem findRange_dash (r : RangeRequest) (total : Nat) {dash : Nat}
    (hdash : strchr 45 (r.spec.text ++ (r.right ++ (crlf ++ upToNul r.rest))) = some dash)
    (hin : dash < r.spec.text.length) :
    findRange r.text total =
      if dash = 0 then
        suffixRange total
          (strtoul ((r.spec.text ++ (r.right ++ (crlf ++ upToNul r.rest))).drop 1)).1
      else
        spanRange total (strtoul (r.spec.text ++ (r.right ++ (crlf ++ upToNul r.rest)))).1
          (if dash + 1 < r.spec.text.length + r.right.length ∧
              ((r.spec.text ++ (r.right ++ (crlf ++ upToNul r.rest))).drop (dash + 1)).head?.any
                isDigit then
            (strtoul ((r.spec.text ++ (r.right ++ (crlf ++ upToNul r.rest))).drop (dash + 1))).1
          else total - 1) := by
  have hreq : upToNul r.text = r.line ++ (crlf ++ (r.before.flatMap (· ++ crlf) ++
      (r.field ++ (crlf ++ upToNul r.rest)))) := by
    have hbefore : 0 ∉ r.before.flatMap (· ++ crlf) := by
      intro hmem
      obtain ⟨l, hl, hin⟩ := List.mem_flatMap.mp hmem
      rcases List.mem_append.mp hin with h | h
      · exact (r.before_other l hl).whole.2 h
      · exact absurd h (by decide)
    have hall : ∀ s : Text, 0 ∉ s → ∀ x, upToNul (s ++ x) = s ++ upToNul x := fun s hs x =>
      List.takeWhile_append_of_pos fun b hb => decide_eq_true fun h => hs (h ▸ hb)
    rw [RangeRequest.text, hall _ r.line_whole.2, hall _ (by decide), hall _ hbefore,
      hall _ (r.not_mem_field (.inr rfl)), hall _ (by decide)]
  have hlen := r.length_field
  unfold findRange
  dsimp only
  rw [hreq, findLine]
  simp only [Option.or]
  rw [r.line_end, r.unit_found]
  simp only [Option.any_some, Option.all_some, decide_eq_true_eq]
  rw [if_neg (by omega), r.behind_unit, hdash]
  simp only
  rw [if_neg (by omega), hlen]
  by_cases h0 : dash = 0
  · rw [if_pos h0, if_pos h0]
  · rw [if_neg h0, if_neg h0]
    congr 2
    simp only [eq_iff_iff, and_congr_left_iff]
    intro _
    omega

/-- The number in front of the end of the field stops there. -/
theorem RangeRequest.tail_no_digit (r : RangeRequest) (x : Text) :
    ∀ c ∈ (r.right ++ (crlf ++ x)).head?, isDigit c = false := by
  intro c hc
  cases hright : r.right with
  | nil =>
    rw [hright] at hc
    obtain rfl := Option.some.inj hc
    rfl
  | cons b t =>
    rw [hright] at hc
    obtain rfl := Option.some.inj hc
    rcases of_decide_eq_true (r.right_blank b (hright ▸ List.mem_cons_self)) with rfl | rfl
    · rfl
    · rfl

theorem answers_between {total : Nat} (htotal : total < 2 ^ 64) (first last : Digits)
    (ordered : first.value ≤ last.value) :
    Answers total (.between first last ordered)
      (spanRange total (min first.value (2 ^ 64 - 1)) (min last.value (2 ^ 64 - 1))) := by
  unfold spanRange
  split_ifs with h
  · intro i hi hasks
    have hasks' : first.value ≤ i ∧ i ≤ last.value := hasks
    omega
  · intro i
    show _ ↔ i < total ∧ (first.value ≤ i ∧ i ≤ last.value)
    omega

theorem answers_onwards {total : Nat} (htotal : total < 2 ^ 64) (first : Digits) :
    Answers total (.onwards first) (spanRange total (min first.value (2 ^ 64 - 1)) (total - 1)) := by
  unfold spanRange
  split_ifs with h
  · intro i hi hasks
    have hasks' : first.value ≤ i := hasks
    omega
  · intro i
    show _ ↔ i < total ∧ first.value ≤ i
    omega

theorem answers_final {total : Nat} (htotal : total < 2 ^ 64) (count : Digits) :
    Answers total (.final count) (suffixRange total (min count.value (2 ^ 64 - 1))) := by
  unfold suffixRange
  split_ifs with h
  · intro i hi hasks
    have hasks' : total ≤ i + count.value := hasks
    omega
  · intro i
    show _ ↔ i < total ∧ total ≤ i + count.value
    omega

theorem findRange_answers (r : RangeRequest) {total : Nat} (htotal : total < 2 ^ 64) :
    Answers total r.spec (findRange r.text total) := by
  have htail := r.tail_no_digit (upToNul r.rest)
  cases hspec : r.spec with
  | between first last ordered =>
    have hbehind : (first.text ++ 45 :: last.text ++ (r.right ++ (crlf ++ upToNul r.rest))) =
        first.text ++ 45 :: (last.text ++ (r.right ++ (crlf ++ upToNul r.rest))) := by
      rw [List.append_assoc, List.cons_append]
    have hfirst := List.length_pos_iff.mpr first.nonempty
    have hlast := List.length_pos_iff.mpr last.nonempty
    have hdash : strchr 45 (r.spec.text ++ (r.right ++ (crlf ++ upToNul r.rest))) =
        some first.text.length := by
      rw [hspec, Spec.text, hbehind]
      exact strchr_here _ (first.not_mem rfl) (first.not_mem rfl)
    rw [findRange_dash r total hdash (by rw [hspec, Spec.text]; simp), if_neg (by omega), hspec,
      Spec.text, hbehind, ← List.drop_drop, List.drop_left, List.drop_succ_cons, List.drop_zero,
      strtoul_digits first (fun c hc => by obtain rfl := Option.some.inj hc; rfl),
      strtoul_digits last htail, if_pos]
    · exact answers_between htotal first last ordered
    · refine ⟨by simp; omega, ?_⟩
      cases hdigits : last.text with
      | nil => exact absurd hdigits last.nonempty
      | cons d ds => exact last.digits d (hdigits ▸ List.mem_cons_self)
  | onwards first =>
    have hbehind : (first.text ++ [45] ++ (r.right ++ (crlf ++ upToNul r.rest))) =
        first.text ++ 45 :: (r.right ++ (crlf ++ upToNul r.rest)) := by
      rw [List.append_assoc, List.cons_append, List.nil_append]
    have hfirst := List.length_pos_iff.mpr first.nonempty
    have hdash : strchr 45 (r.spec.text ++ (r.right ++ (crlf ++ upToNul r.rest))) =
        some first.text.length := by
      rw [hspec, Spec.text, hbehind]
      exact strchr_here _ (first.not_mem rfl) (first.not_mem rfl)
    rw [findRange_dash r total hdash (by rw [hspec, Spec.text]; simp), if_neg (by omega), hspec,
      Spec.text, hbehind, ← List.drop_drop, List.drop_left, List.drop_succ_cons, List.drop_zero,
      strtoul_digits first (fun c hc => by obtain rfl := Option.some.inj hc; rfl), if_neg]
    · exact answers_onwards htotal first
    · rintro ⟨-, hdigit⟩
      obtain ⟨c, hc, hd⟩ := (Option.any_eq_true _ _).mp hdigit
      rw [htail c hc] at hd
      cases hd
  | final count =>
    have hdash : strchr 45 (r.spec.text ++ (r.right ++ (crlf ++ upToNul r.rest))) = some 0 := by
      rw [hspec, Spec.text]
      exact @strchr_here 45 [] _ List.not_mem_nil List.not_mem_nil
    rw [findRange_dash r total hdash (by rw [hspec, Spec.text]; simp), if_pos rfl, hspec, Spec.text,
      List.cons_append, List.drop_succ_cons, List.drop_zero, strtoul_digits count htail]
    exact answers_final htotal count

/-- The range of a request is the one that RFC 9110 gives it. -/
theorem find_range_rfc (total : Nat) :
    (∀ req start last, findRange req total = .bytes start last → start ≤ last ∧ last < total) ∧
      (total < 2 ^ 64 → ∀ r : RangeRequest, Answers total r.spec (findRange r.text total)) :=
  ⟨fun _ _ _ h => findRange_bytes h, fun htotal r => findRange_answers r htotal⟩

def sampleRequest : RangeRequest where
  line := ascii "GET /stream/a.pkg HTTP/1.1"
  before := [ascii "Host: console"]
  name := ascii "rANGE"
  left := [32]
  spec := .between ⟨ascii "0", by decide, by decide +kernel⟩ ⟨ascii "100", by decide, by decide +kernel⟩ (by decide)
  right := []
  rest := crlf
  line_whole := by decide
  before_other := by
    intro l hl
    obtain rfl := List.mem_singleton.mp hl
    exact ⟨by decide, by decide +kernel, by decide⟩
  named := by decide
  left_blank := by decide +kernel
  right_blank := by decide +kernel

theorem find_range_rfc_sample :
    Answers 100 sampleRequest.spec (findRange sampleRequest.text 100) :=
  (find_range_rfc 100).2 (by decide) sampleRequest

end PkgManager.RangeRequests
