import PkgManager.QuotedText

namespace PkgManager.KeySearch

open CText QuotedText

/-! Searching an object of strings for its keys: patterns that begin with a quote (34). -/

/-- A word that is no part of what stands between two strings. -/
structure Word (w : List UInt8) : Prop where
  ne_nil : w ≠ []
  bytes : ∀ b ∈ w, b ≠ 34 ∧ b ≠ 92 ∧ b ≠ 44 ∧ b ≠ 58 ∧ b ≠ 125 ∧ b ≠ 0

theorem Word.plain {w : List UInt8} (h : Word w) : Plain w :=
  fun b hb => ⟨(h.bytes b hb).1, (h.bytes b hb).2.1⟩

theorem Word.quote_eq {w : List UInt8} (h : Word w) : quote w = 34 :: w ++ [34] := by
  rw [quote, escape_plain h.plain]

/-- A word is not at the start of what begins with another byte. -/
theorem Word.not_prefix {w : List UInt8} (h : Word w) {b : UInt8} (hb : b = 44 ∨ b = 58 ∨ b = 125)
    (more rest : List UInt8) : ¬w ++ more <+: b :: rest := by
  obtain ⟨c, w, rfl⟩ := List.exists_cons_of_ne_nil h.ne_nil
  have hc := h.bytes c List.mem_cons_self
  intro hpre
  obtain rfl := (List.cons_prefix_cons.mp hpre).1
  rcases hb with rfl | rfl | rfl
  · exact hc.2.2.1 rfl
  · exact hc.2.2.2.1 rfl
  · exact hc.2.2.2.2.1 rfl

/-! A quote and a word, in a quoted string. -/

theorem plain_prefix_escape {u s rest : List UInt8} (hu : Plain u) (h : u <+: escape s ++ 34 :: rest) :
    u <+: s := by
  induction s generalizing u with
  | nil =>
    cases u with
    | nil => exact List.nil_prefix
    | cons b u => exact absurd (List.cons_prefix_cons.mp h).1 (hu b List.mem_cons_self).1
  | cons c s ih =>
    cases u with
    | nil => exact List.nil_prefix
    | cons b u =>
      have hb := hu b List.mem_cons_self
      rw [escape_cons] at h
      by_cases hc : c = 34 ∨ c = 92
      · rw [escapeByte_special hc] at h
        exact absurd (List.cons_prefix_cons.mp h).1 hb.2
      · rw [escapeByte_plain hc] at h
        obtain ⟨rfl, hmore⟩ := List.cons_prefix_cons.mp h
        exact List.cons_prefix_cons.mpr ⟨rfl, ih (fun d hd => hu d (List.mem_cons_of_mem b hd)) hmore⟩

theorem infix_of_prefix_drop {u s rest : List UInt8} (hu : Plain u) {i : Nat} (hi : i < (escape s).length)
    (h : 34 :: u <+: (escape s ++ 34 :: rest).drop i) : 34 :: u <:+: s := by
  induction s generalizing i with
  | nil => exact absurd hi (Nat.not_lt_zero i)
  | cons c s ih =>
    have hmore {j : Nat} (hj : j < (escape s).length) (h : 34 :: u <+: (escape s ++ 34 :: rest).drop j) :
        34 :: u <:+: c :: s := (ih hj h).trans (List.suffix_cons c s).isInfix
    rw [escape_cons] at h hi
    by_cases hc : c = 34 ∨ c = 92
    · rw [escapeByte_special hc] at h hi
      match i with
      | 0 => exact absurd (List.cons_prefix_cons.mp h).1 (by decide)
      | 1 =>
        -- the escaped quote
        obtain ⟨rfl, hu'⟩ := List.cons_prefix_cons.mp h
        exact (List.cons_prefix_cons.mpr ⟨rfl, plain_prefix_escape hu hu'⟩).isInfix
      | j + 2 => exact hmore (by simpa using hi) h
    · rw [escapeByte_plain hc] at h hi
      cases i with
      | zero => exact absurd (List.cons_prefix_cons.mp h).1 fun h34 => hc (.inl h34.symm)
      | succ j => exact hmore (by simpa using hi) h

/-- A quote and a word begin nowhere in a string where the string itself has them nowhere. -/
theorem passes_start {u s rest : List UInt8} (hu : Plain u) (hs : ¬34 :: u <:+: 34 :: s)
    (hrest : ¬u <+: rest) : Passes (34 :: u) (quote s) rest := by
  intro i hi h
  rw [quote_append] at h
  cases i with
  | zero =>
    have hpre := plain_prefix_escape hu (List.cons_prefix_cons.mp h).2
    exact hs (List.cons_prefix_cons.mpr ⟨rfl, hpre⟩).isInfix
  | succ j =>
    rw [List.drop_succ_cons] at h
    by_cases hj : j < (escape s).length
    · exact hs ((infix_of_prefix_drop hu hj h).trans (List.suffix_cons 34 s).isInfix)
    · have hlast : j = (escape s).length := by
        simp only [quote, List.length_append, List.length_cons, List.length_nil] at hi
        omega
      rw [hlast, List.drop_left] at h
      exact hrest (List.cons_prefix_cons.mp h).2

/-! Objects. -/

def member (e : List UInt8 × List UInt8) : List UInt8 := quote e.1 ++ 58 :: quote e.2

/-- The members behind others, and the bracket. -/
def more (es : List (List UInt8 × List UInt8)) : List UInt8 := es.flatMap (fun e => 44 :: member e) ++ [125]

def object : List (List UInt8 × List UInt8) → List UInt8
  | [] => [123, 125]
  | e :: es => 123 :: (member e ++ more es)

theorem more_cons (e : List UInt8 × List UInt8) (es : List (List UInt8 × List UInt8)) :
    more (e :: es) = 44 :: (member e ++ more es) := by
  unfold more
  rw [List.flatMap_cons, List.cons_append, List.cons_append, List.append_assoc]

theorem more_head (es : List (List UInt8 × List UInt8)) :
    ∃ b rest, more es = b :: rest ∧ (b = 44 ∨ b = 125) := by
  cases es with
  | nil => exact ⟨125, [], rfl, .inr rfl⟩
  | cons e es => exact ⟨44, _, more_cons e es, .inl rfl⟩

/-- The pattern begins nowhere in a member of an object. -/
def Skips (pat : List UInt8) (e : List UInt8 × List UInt8) : Prop :=
  0 ∉ member e ∧ ∀ es, Passes pat (member e) (more es)

theorem strstr_skips {u : List UInt8} {e : List UInt8 × List UInt8} (h : Skips (34 :: u) e)
    (es : List (List UInt8 × List UInt8)) :
    strstr (34 :: u) (member e ++ more es) = (strstr (34 :: u) (more es)).map (· + (member e).length) :=
  strstr_passes (h.2 es) h.1

theorem strstr_byte {u : List UInt8} {b : UInt8} (hb : b ≠ 34) (h0 : b ≠ 0) (t : List UInt8) :
    strstr (34 :: u) (b :: t) = (strstr (34 :: u) t).map (· + 1) := by
  have hnot : ¬(34 :: u).isPrefixOf (b :: t) = true := by
    intro hpre
    exact hb (List.cons_prefix_cons.mp (List.isPrefixOf_iff_prefix.mp hpre)).1.symm
  rw [strstr, if_neg hnot, if_neg h0]

theorem strstr_more_none {u : List UInt8} {es : List (List UInt8 × List UInt8)}
    (h : ∀ e ∈ es, Skips (34 :: u) e) : strstr (34 :: u) (more es) = none := by
  induction es with
  | nil =>
    show strstr (34 :: u) [125] = none
    rw [strstr_byte (by decide) (by decide)]
    rfl
  | cons e es ih =>
    rw [more_cons, strstr_byte (by decide) (by decide), strstr_skips (h e List.mem_cons_self),
      ih fun e' he' => h e' (List.mem_cons_of_mem e he')]
    rfl

theorem strstr_object_none {u : List UInt8} {es : List (List UInt8 × List UInt8)}
    (h : ∀ e ∈ es, Skips (34 :: u) e) : strstr (34 :: u) (object es) = none := by
  cases es with
  | nil =>
    show strstr (34 :: u) [123, 125] = none
    rw [strstr_byte (by decide) (by decide), strstr_byte (by decide) (by decide)]
    rfl
  | cons e es =>
    rw [object, strstr_byte (by decide) (by decide), strstr_skips (h e List.mem_cons_self),
      strstr_more_none fun e' he' => h e' (List.mem_cons_of_mem e he')]
    rfl

/-- The pattern is found in the first member it begins. -/
theorem strstr_more_found {u : List UInt8} {front back : List (List UInt8 × List UInt8)}
    {e : List UInt8 × List UInt8} (hfront : ∀ g ∈ front, Skips (34 :: u) g)
    (h : 34 :: u <+: member e ++ more back) :
    ∃ n, strstr (34 :: u) (more (front ++ e :: back)) = some n ∧
      (more (front ++ e :: back)).drop n = member e ++ more back := by
  induction front with
  | nil =>
    refine ⟨1, ?_, ?_⟩
    · rw [List.nil_append, more_cons, strstr_byte (by decide) (by decide), strstr_here h]
      rfl
    · rw [List.nil_append, more_cons]
      rfl
  | cons g front ih =>
    obtain ⟨n, hn, hdrop⟩ := ih fun g' hg' => hfront g' (List.mem_cons_of_mem g hg')
    refine ⟨n + (member g).length + 1, ?_, ?_⟩
    · rw [List.cons_append, more_cons, strstr_byte (by decide) (by decide),
        strstr_skips (hfront g List.mem_cons_self), hn]
      rfl
    · rw [List.cons_append, more_cons, List.drop_succ_cons, Nat.add_comm n, ← List.drop_drop,
        List.drop_left, hdrop]

theorem strstr_object_found {u : List UInt8} {front back : List (List UInt8 × List UInt8)}
    {e : List UInt8 × List UInt8} (hfront : ∀ g ∈ front, Skips (34 :: u) g)
    (h : 34 :: u <+: member e ++ more back) :
    ∃ n, strstr (34 :: u) (object (front ++ e :: back)) = some n ∧
      (object (front ++ e :: back)).drop n = member e ++ more back := by
  cases front with
  | nil =>
    refine ⟨1, ?_, rfl⟩
    rw [List.nil_append, object, strstr_byte (by decide) (by decide), strstr_here h]
    rfl
  | cons g front =>
    obtain ⟨n, hn, hdrop⟩ := strstr_more_found (fun g' hg' => hfront g' (List.mem_cons_of_mem g hg')) h
    refine ⟨n + (member g).length + 1, ?_, ?_⟩
    · rw [List.cons_append, object, strstr_byte (by decide) (by decide),
        strstr_skips (hfront g List.mem_cons_self), hn]
      rfl
    · rw [List.cons_append, object, List.drop_succ_cons, Nat.add_comm n, ← List.drop_drop,
        List.drop_left, hdrop]

/-! What a member is passed by. -/

/-- A member of words and texts. -/
structure Keyed (e : List UInt8 × List UInt8) : Prop where
  key : Word e.1
  value : 0 ∉ e.2

theorem Keyed.zero_not_mem {e : List UInt8 × List UInt8} (h : Keyed e) : 0 ∉ member e := by
  unfold member
  rw [List.mem_append, List.mem_cons, not_or, not_or]
  exact ⟨zero_not_mem_quote fun h0 => (h.key.bytes 0 h0).2.2.2.2.2 rfl, by decide,
    zero_not_mem_quote h.value⟩

theorem passes_colon {u rest : List UInt8} : Passes (34 :: u) [58] rest := passes_plain u rest (by decide)

theorem member_append (e : List UInt8 × List UInt8) : member e = quote e.1 ++ ([58] ++ quote e.2) := rfl

theorem readsAs_word {w s : List UInt8} (hs : Word s) (h : ReadsAs w s) : w = s := by
  obtain ⟨t, ht⟩ := h
  cases t with
  | nil => exact List.tail_eq_of_cons_eq ht
  | cons c t =>
    have h34 : 34 ∈ s := by
      rw [← List.tail_eq_of_cons_eq ht]
      simp
    exact absurd rfl (hs.bytes 34 h34).1

/-- Another key. -/
theorem skips_key {w tail : List UInt8} (hw : Word w) {e : List UInt8 × List UInt8} (he : Keyed e)
    (hne : e.1 ≠ w) : Skips (34 :: (w ++ 34 :: 58 :: tail)) e := by
  refine ⟨he.zero_not_mem, fun es => ?_⟩
  obtain ⟨b, rest, hrest, hb⟩ := more_head es
  rw [member_append]
  refine Passes.append ?_ (passes_colon.append ?_)
  · refine passes_quote hw.plain (fun h => hne (readsAs_word he.key h.1).symm) ?_
    exact hw.not_prefix (.inr (.inl rfl)) _ _
  · rw [hrest]
    refine passes_quote hw.plain (fun h => ?_) (hw.not_prefix ?_ _ _)
    · have hcolon := (List.cons_prefix_cons.mp h.2).1
      rcases hb with rfl | rfl
      · exact absurd hcolon (by decide)
      · exact absurd hcolon (by decide)
    · rcases hb with rfl | rfl
      · exact .inl rfl
      · exact .inr (.inr rfl)

/-- A key that begins otherwise, and a value that has no quote and word in it. -/
theorem skips_start {u : List UInt8} (hu : Word u) {e : List UInt8 × List UInt8} (he : Keyed e)
    (hkey : ¬u <+: e.1) (hvalue : ¬34 :: u <:+: 34 :: e.2) : Skips (34 :: u) e := by
  refine ⟨he.zero_not_mem, fun es => ?_⟩
  obtain ⟨b, rest, hrest, hb⟩ := more_head es
  have hstop {c : UInt8} (hc : c = 44 ∨ c = 58 ∨ c = 125) (t : List UInt8) : ¬u <+: c :: t := by
    have hnot := hu.not_prefix hc [] t
    rwa [List.append_nil] at hnot
  rw [member_append]
  refine Passes.append ?_ (passes_colon.append ?_)
  · refine passes_start hu.plain (fun h => ?_) (hstop (.inr (.inl rfl)) _)
    obtain ⟨s, t, ht⟩ := h
    cases s with
    | nil =>
      refine hkey ⟨t, ?_⟩
      exact List.tail_eq_of_cons_eq ht
    | cons c s =>
      have h34 : 34 ∈ e.1 := by
        rw [← List.tail_eq_of_cons_eq ht]
        simp
      exact absurd rfl (he.key.bytes 34 h34).1
  · rw [hrest]
    refine passes_start hu.plain hvalue (hstop ?_ _)
    rcases hb with rfl | rfl
    · exact .inl rfl
    · exact .inr (.inr rfl)

/-! Looking up. -/

/-- An object of these members, or one without its bracket. -/
def Holds (json : List UInt8) (es : List (List UInt8 × List UInt8)) : Prop :=
  json = object es ∨ json ++ [125] = object es

theorem Holds.none {pat json : List UInt8} {es : List (List UInt8 × List UInt8)} (h : Holds json es)
    (hpat : pat ≠ []) (hnone : strstr pat (object es) = none) : strstr pat json = none := by
  rcases h with rfl | hlong
  · exact hnone
  · cases hfound : strstr pat json with
    | none => rfl
    | some n =>
      rw [← hlong, strstr_append hpat [125] hfound] at hnone
      cases hnone

/-- A part of a member that is found is found without the bracket. -/
theorem Holds.found {pat json : List UInt8} {es back : List (List UInt8 × List UInt8)}
    {e : List UInt8 × List UInt8} {n : Nat} (h : Holds json es) (hpat : pat ≠ [])
    (hlen : pat.length ≤ (member e).length) (hfound : strstr pat (object es) = some n)
    (hdrop : (object es).drop n = member e ++ more back) :
    ∃ rest, strstr pat json = some n ∧ json.drop n = member e ++ rest := by
  rcases h with rfl | hlong
  · exact ⟨more back, hfound, hdrop⟩
  · obtain ⟨b, rest, hmore, -⟩ := more_head back
    rw [← hlong] at hfound hdrop
    have hlength := congrArg List.length hdrop
    have hle := strstr_le hfound
    simp only [hmore, List.length_drop, List.length_append, List.length_cons, List.length_nil] at hlength
    have hin : n + (member e).length ≤ json.length := by omega
    refine ⟨(b :: rest).dropLast, strstr_of_append hpat hfound (by omega), ?_⟩
    rw [List.drop_append_of_le_length (by omega), hmore] at hdrop
    have hlast := congrArg List.dropLast hdrop
    rw [List.dropLast_concat, List.dropLast_append_of_ne_nil (List.cons_ne_nil b rest)] at hlast
    exact hlast

theorem Holds.cons {json : List UInt8} {es : List (List UInt8 × List UInt8)} {e : List UInt8 × List UInt8}
    (h : Holds json (e :: es)) : ∃ rest, json = 123 :: (member e ++ rest) := by
  rcases h with rfl | hlong
  · exact ⟨more es, rfl⟩
  · obtain ⟨b, rest, hmore, -⟩ := more_head es
    refine ⟨(b :: rest).dropLast, ?_⟩
    rw [object, hmore, ← List.cons_append] at hlong
    have hlast := congrArg List.dropLast hlong
    rw [List.dropLast_concat, List.dropLast_append_of_ne_nil (List.cons_ne_nil b rest)] at hlast
    exact hlast

theorem Holds.head {json : List UInt8} {es : List (List UInt8 × List UInt8)} (h : Holds json es) :
    json.head? = some 123 := by
  cases es with
  | nil =>
    rcases h with rfl | hlong
    · rfl
    · have hlast := congrArg List.dropLast hlong
      rw [List.dropLast_concat] at hlast
      rw [hlast]
      rfl
  | cons e es =>
    obtain ⟨rest, rfl⟩ := h.cons
    rfl

/-- A value with a quote and the word in it is one behind a key that begins with the word. -/
def Guarded (u : List UInt8) (es : List (List UInt8 × List UInt8)) : Prop :=
  ∀ front e back, es = front ++ e :: back → 34 :: u <:+: 34 :: e.2 → ∃ g ∈ front ++ [e], u <+: g.1

section Lookup

variable {es : List (List UInt8 × List UInt8)} (hes : ∀ e ∈ es, Keyed e)
variable {json : List UInt8} (hjson : Holds json es)

include hes hjson

/-- A whole key is found in the first member that has it. -/
theorem strstr_key {w : List UInt8} (hw : Word w) {tail : List UInt8} (htail : tail <+: [34]) :
    match es.find? fun e => e.1 = w with
    | none => strstr (34 :: (w ++ 34 :: 58 :: tail)) json = none
    | some e => ∃ n rest, strstr (34 :: (w ++ 34 :: 58 :: tail)) json = some n ∧
        json.drop n = member e ++ rest := by
  have hpat : 34 :: (w ++ 34 :: 58 :: tail) ≠ [] := List.cons_ne_nil _ _
  cases hfind : es.find? fun e => e.1 = w with
  | none =>
    apply hjson.none hpat
    apply strstr_object_none
    intro e he
    have hne := List.find?_eq_none.mp hfind e he
    exact skips_key hw (hes e he) (by simpa using hne)
  | some e =>
    obtain ⟨hkey, front, back, rfl, hfront⟩ := List.find?_eq_some_iff_append.mp hfind
    have hkey : e.1 = w := of_decide_eq_true hkey
    have hmember : 34 :: (w ++ 34 :: 58 :: tail) <+: member e := by
      obtain ⟨t, ht⟩ := htail
      have hvalue : tail ++ (t ++ (escape e.2 ++ [34])) = quote e.2 := by
        rw [← List.append_assoc, ht]
        rfl
      refine ⟨t ++ (escape e.2 ++ [34]), ?_⟩
      rw [member, hkey, hw.quote_eq, ← hvalue]
      simp only [List.append_assoc, List.cons_append, List.nil_append]
    obtain ⟨n, hn, hdrop⟩ := strstr_object_found (fun g hg => skips_key hw
      (hes g (List.mem_append_left _ hg)) (by simpa using hfront g hg))
      (hmember.trans (List.prefix_append _ (more back)))
    obtain ⟨rest, hfound⟩ := hjson.found hpat hmember.length_le hn hdrop
    exact ⟨n, rest, hfound⟩

/-- The start of a key is found in the first member whose key begins so. -/
theorem strstr_start {u : List UInt8} (hu : Word u) (hguarded : Guarded u es) :
    match es.find? fun e => u.isPrefixOf e.1 with
    | none => strstr (34 :: u) json = none
    | some e => ∃ n rest, strstr (34 :: u) json = some n ∧ json.drop n = member e ++ rest := by
  have hpat : 34 :: u ≠ [] := List.cons_ne_nil _ _
  -- a member is passed where neither it nor one in front of it has the key
  have hskips : ∀ front g back, es = front ++ g :: back → (∀ k ∈ front ++ [g], ¬u <+: k.1) →
      Skips (34 :: u) g := by
    intro front g back hsplit hkeys
    refine skips_start hu (hes g (by rw [hsplit]; simp)) (hkeys g (by simp)) fun hvalue => ?_
    obtain ⟨k, hk, hpre⟩ := hguarded front g back hsplit hvalue
    exact hkeys k hk hpre
  cases hfind : es.find? fun e => u.isPrefixOf e.1 with
  | none =>
    apply hjson.none hpat
    apply strstr_object_none
    intro g hg
    obtain ⟨front, back, hsplit⟩ := List.append_of_mem hg
    refine hskips front g back hsplit fun k hk hpre => ?_
    have hmem : k ∈ es := by
      rw [hsplit, List.append_cons]
      exact List.mem_append_left _ hk
    exact List.find?_eq_none.mp hfind k hmem (List.isPrefixOf_iff_prefix.mpr hpre)
  | some e =>
    obtain ⟨hkey, front, back, hes', hfront⟩ := List.find?_eq_some_iff_append.mp hfind
    have hmember : 34 :: u <+: member e := by
      have hkeyed := hes e (by rw [hes']; simp)
      obtain ⟨t, ht⟩ := List.isPrefixOf_iff_prefix.mp hkey
      refine ⟨t ++ 34 :: 58 :: quote e.2, ?_⟩
      rw [member, hkeyed.key.quote_eq, ← ht]
      simp
    have hpassed : ∀ g ∈ front, Skips (34 :: u) g := by
      intro g hg
      obtain ⟨before, behind, hsplit⟩ := List.append_of_mem hg
      refine hskips before g (behind ++ e :: back) (by rw [hes', hsplit]; simp) fun k hk hpre => ?_
      have hmem : k ∈ front := by
        rw [hsplit, List.append_cons]
        exact List.mem_append_left _ hk
      have hnot := hfront k hmem
      rw [List.isPrefixOf_iff_prefix.mpr hpre] at hnot
      cases hnot
    obtain ⟨n, hn, hdrop⟩ := strstr_object_found hpassed
      (hmember.trans (List.prefix_append _ (more back)))
    rw [← hes'] at hn hdrop
    obtain ⟨rest, hfound⟩ := hjson.found hpat hmember.length_le hn hdrop
    exact ⟨n, rest, hfound⟩

end Lookup

end PkgManager.KeySearch
