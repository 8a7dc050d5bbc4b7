import Mathlib

namespace PkgManager.Comparison

/-! Comparisons by the sign of a number, and when they order the elements of a set. -/

variable {α κ : Type}

/-- A total order with ties, as a sort needs it. -/
structure OrdersOn (c : α → α → Int) (s : Set α) : Prop where
  refl : ∀ a ∈ s, c a a = 0
  antisymm : ∀ a ∈ s, ∀ b ∈ s, (c a b < 0 ↔ 0 < c b a)
  trans : ∀ a ∈ s, ∀ b ∈ s, ∀ d ∈ s, c a b ≤ 0 → c b d ≤ 0 → c a d ≤ 0

/-- The second comparison where the first one finds no difference. -/
def thenBy (c₁ c₂ : α → α → Int) (a b : α) : Int := if c₁ a b ≠ 0 then c₁ a b else c₂ a b

/-- The comparison of keys. -/
def onKey (k : α → κ) (f : κ → κ → Int) (a b : α) : Int := f (k a) (k b)

section

variable {c c₁ c₂ : α → α → Int} {s t : Set α}

theorem OrdersOn.mono (h : OrdersOn c t) (hst : s ⊆ t) : OrdersOn c s where
  refl := fun a ha => h.refl a (hst ha)
  antisymm := fun a ha b hb => h.antisymm a (hst ha) b (hst hb)
  trans := fun a ha b hb d hd => h.trans a (hst ha) b (hst hb) d (hst hd)

theorem OrdersOn.congr (h : OrdersOn c₁ s) (heq : ∀ a ∈ s, ∀ b ∈ s, c₁ a b = c₂ a b) :
    OrdersOn c₂ s where
  refl := by
    intro a ha
    rw [← heq a ha a ha]
    exact h.refl a ha
  antisymm := by
    intro a ha b hb
    rw [← heq a ha b hb, ← heq b hb a ha]
    exact h.antisymm a ha b hb
  trans := by
    intro a ha b hb d hd
    rw [← heq a ha b hb, ← heq b hb d hd, ← heq a ha d hd]
    exact h.trans a ha b hb d hd

/-- What compares keys of an order is an order. -/
theorem ordersOn_of_key [LinearOrder κ] {k : α → κ}
    (h : ∀ a ∈ s, ∀ b ∈ s, (c a b < 0 ↔ k a < k b) ∧ (c a b = 0 ↔ k a = k b)) : OrdersOn c s where
  refl := fun a ha => (h a ha a ha).2.mpr rfl
  antisymm := by
    intro a ha b hb
    obtain ⟨hlt, heq⟩ := h a ha b hb
    obtain ⟨hlt', heq'⟩ := h b hb a ha
    rw [hlt]
    constructor
    · intro hab
      have hnot : ¬c b a < 0 := fun h => lt_asymm hab (hlt'.mp h)
      have hne : c b a ≠ 0 := fun h => hab.ne' (heq'.mp h)
      omega
    · intro hba
      have hnot : ¬k b < k a := fun h => absurd (hlt'.mpr h) (by omega)
      have hne : k a ≠ k b := fun h => absurd (heq'.mpr h.symm) (by omega)
      exact lt_of_le_of_ne (not_lt.mp hnot) hne
  trans := by
    intro a ha b hb d hd hab hbd
    have hle : ∀ x ∈ s, ∀ y ∈ s, c x y ≤ 0 ↔ k x ≤ k y := by
      intro x hx y hy
      rw [le_iff_lt_or_eq, le_iff_lt_or_eq, (h x hx y hy).1, (h x hx y hy).2]
    rw [hle _ ha _ hb] at hab
    rw [hle _ hb _ hd] at hbd
    rw [hle _ ha _ hd]
    exact hab.trans hbd

theorem thenBy_assoc (c₃ : α → α → Int) :
    thenBy (thenBy c₁ c₂) c₃ = thenBy c₁ (thenBy c₂ c₃) := by
  funext a b
  unfold thenBy
  by_cases h : c₁ a b = 0
  · simp only [h, ne_eq, not_true_eq_false, if_false]
  · simp only [h, ne_eq, not_false_eq_true, if_true]

theorem thenBy_zero_iff {a b : α} : thenBy c₁ c₂ a b = 0 ↔ c₁ a b = 0 ∧ c₂ a b = 0 := by
  unfold thenBy
  by_cases h : c₁ a b = 0
  · rw [if_neg (not_not_intro h)]
    exact (and_iff_right h).symm
  · rw [if_pos h]
    exact iff_of_false h fun hboth => h hboth.1

/-- The least of finitely many. -/
theorem OrdersOn.exists_least (h : OrdersOn c s) (hfin : s.Finite) (hne : s.Nonempty) :
    ∃ m ∈ s, ∀ a ∈ s, c m a ≤ 0 := by
  induction s, hfin using Set.Finite.induction_on with
  | empty => exact absurd hne Set.not_nonempty_empty
  | @insert x s _ _ ih =>
    have hx : x ∈ insert x s := Set.mem_insert x s
    have hsub : s ⊆ insert x s := Set.subset_insert x s
    have hself : c x x ≤ 0 := le_of_eq (h.refl x hx)
    by_cases hs : s.Nonempty
    · obtain ⟨m, hm, hleast⟩ := ih (h.mono hsub) hs
      by_cases hle : c x m ≤ 0
      · refine ⟨x, hx, ?_⟩
        intro a ha
        rcases Set.mem_insert_iff.mp ha with rfl | ha
        · exact hself
        · exact h.trans x hx m (hsub hm) a (hsub ha) hle (hleast a ha)
      · refine ⟨m, hsub hm, ?_⟩
        intro a ha
        rcases Set.mem_insert_iff.mp ha with rfl | ha
        · exact le_of_lt ((h.antisymm m (hsub hm) a hx).mpr (by omega))
        · exact hleast a ha
    · refine ⟨x, hx, ?_⟩
      intro a ha
      rcases Set.mem_insert_iff.mp ha with rfl | ha
      · exact hself
      · exact absurd ⟨a, ha⟩ hs

end

section

variable {k : α → κ} {f : κ → κ → Int} {c : α → α → Int} {s : Set α}

theorem thenBy_ne {a b : α} (h : onKey k f a b ≠ 0) : thenBy (onKey k f) c a b = onKey k f a b :=
  if_pos h

theorem thenBy_key_ne (hf : ∀ x y, f x y = 0 ↔ x = y) {a b : α} (h : k a ≠ k b) :
    thenBy (onKey k f) c a b = f (k a) (k b) :=
  thenBy_ne (mt (hf _ _).mp h)

theorem thenBy_key (hf : ∀ x y, f x y = 0 ↔ x = y) {a b : α} (h : k a = k b) :
    thenBy (onKey k f) c a b = c a b :=
  if_neg (not_not_intro ((hf _ _).mpr h))

/-- The keys are in order, and so are the elements of each key. -/
theorem thenBy_ordersOn_iff (hf : ∀ x y, f x y = 0 ↔ x = y) :
    OrdersOn (thenBy (onKey k f) c) s ↔
      OrdersOn (onKey k f) s ∧ ∀ a ∈ s, OrdersOn c {b | b ∈ s ∧ k b = k a} := by
  have hzero : ∀ a b, onKey k f a b = 0 ↔ k a = k b := fun a b => hf _ _
  constructor
  · intro h
    have hanti : ∀ a ∈ s, ∀ b ∈ s, onKey k f a b < 0 ↔ 0 < onKey k f b a := by
      intro a ha b hb
      by_cases heq : k a = k b
      · have hab := (hzero a b).mpr heq
        have hba := (hzero b a).mpr heq.symm
        omega
      · have hab : onKey k f a b ≠ 0 := mt (hzero a b).mp heq
        have hba : onKey k f b a ≠ 0 := mt (hzero b a).mp (Ne.symm heq)
        have hsign := h.antisymm a ha b hb
        rwa [thenBy_ne hab, thenBy_ne hba] at hsign
    refine ⟨⟨fun a _ => (hzero a a).mpr rfl, hanti, ?_⟩, ?_⟩
    · intro a ha b hb d hd hab hbd
      by_cases heq : k a = k b
      · unfold onKey at hbd ⊢
        rw [heq]
        exact hbd
      by_cases heq' : k b = k d
      · unfold onKey at hab ⊢
        rw [← heq']
        exact hab
      by_cases hends : k a = k d
      · exact le_of_eq ((hzero a d).mpr hends)
      have hres := h.trans a ha b hb d hd
      rw [thenBy_ne (mt (hzero a b).mp heq), thenBy_ne (mt (hzero b d).mp heq'),
        thenBy_ne (mt (hzero a d).mp hends)] at hres
      exact hres hab hbd
    · intro a _
      have hsub : {b | b ∈ s ∧ k b = k a} ⊆ s := fun b hb => hb.1
      refine (h.mono hsub).congr ?_
      intro b hb d hd
      exact thenBy_key hf (hb.2.trans hd.2.symm)
  · rintro ⟨hkey, hfibre⟩
    have hin : ∀ a ∈ s, ∀ b ∈ s, k b = k a → b ∈ {b | b ∈ s ∧ k b = k a} :=
      fun a _ b hb heq => ⟨hb, heq⟩
    refine ⟨?_, ?_, ?_⟩
    · intro a ha
      rw [thenBy_key hf rfl]
      exact (hfibre a ha).refl a (hin a ha a ha rfl)
    · intro a ha b hb
      by_cases heq : k a = k b
      · rw [thenBy_key hf heq, thenBy_key hf heq.symm]
        exact (hfibre a ha).antisymm a (hin a ha a ha rfl) b (hin a ha b hb heq.symm)
      · rw [thenBy_ne (mt (hzero a b).mp heq), thenBy_ne (mt (hzero b a).mp (Ne.symm heq))]
        exact hkey.antisymm a ha b hb
    · intro a ha b hb d hd hab hbd
      by_cases heq : k a = k b
      · by_cases heq' : k b = k d
        · rw [thenBy_key hf heq] at hab
          rw [thenBy_key hf heq'] at hbd
          rw [thenBy_key hf (heq.trans heq')]
          exact (hfibre a ha).trans a (hin a ha a ha rfl) b (hin a ha b hb heq.symm) d
            (hin a ha d hd (heq.trans heq').symm) hab hbd
        · have hne : k a ≠ k d := fun h => heq' (heq.symm.trans h)
          rw [thenBy_ne (mt (hzero b d).mp heq')] at hbd
          rw [thenBy_ne (mt (hzero a d).mp hne)]
          unfold onKey at hbd ⊢
          rw [heq]
          exact hbd
      · rw [thenBy_ne (mt (hzero a b).mp heq)] at hab
        have hneg : onKey k f a b < 0 := lt_of_le_of_ne hab (mt (hzero a b).mp heq)
        by_cases heq' : k b = k d
        · have hne : k a ≠ k d := fun h => heq (h.trans heq'.symm)
          rw [thenBy_ne (mt (hzero a d).mp hne)]
          unfold onKey at hab ⊢
          rw [← heq']
          exact hab
        · rw [thenBy_ne (mt (hzero b d).mp heq')] at hbd
          have hle := hkey.trans a ha b hb d hd hab hbd
          -- the ends differ, or the first step would be undone by the second
          have hne : k a ≠ k d := by
            intro hends
            have hba : onKey k f b a = onKey k f b d := congrArg (f (k b)) hends
            have hpos := (hkey.antisymm a ha b hb).mp hneg
            omega
          rw [thenBy_ne (mt (hzero a d).mp hne)]
          exact hle

/-- One comparison in front of the other where both elements have what it compares. -/
def mixed (v : α → Prop) [DecidablePred v] (c₁ c₂ : α → α → Int) (a b : α) : Int :=
  if v a ∧ v b then thenBy c₁ c₂ a b else c₂ a b

end

section

variable {v : α → Prop} [DecidablePred v] {c₁ c₂ : α → α → Int} {s : Set α}

theorem mixed_both {a b : α} (ha : v a) (hb : v b) : mixed v c₁ c₂ a b = thenBy c₁ c₂ a b :=
  if_pos ⟨ha, hb⟩

theorem mixed_left {a : α} (ha : ¬v a) (b : α) : mixed v c₁ c₂ a b = c₂ a b :=
  if_neg fun h => ha h.1

theorem mixed_right (a : α) {b : α} (hb : ¬v b) : mixed v c₁ c₂ a b = c₂ a b :=
  if_neg fun h => hb h.2

/-- It is an order when the elements that have it are in order, and no other one stands between two of
them the other way around. -/
theorem mixed_ordersOn_iff (hzero : ∀ a b, c₁ a b = 0 ↔ c₁ b a = 0) (h₂ : OrdersOn c₂ s) :
    OrdersOn (mixed v c₁ c₂) s ↔
      OrdersOn (thenBy c₁ c₂) {a | a ∈ s ∧ v a} ∧
        ∀ a ∈ s, ∀ b ∈ s, ∀ d ∈ s, v a → v b → ¬v d → c₁ a b < 0 → ¬(c₂ b d ≤ 0 ∧ c₂ d a ≤ 0) := by
  constructor
  · intro h
    constructor
    · have hsub : {a | a ∈ s ∧ v a} ⊆ s := fun a ha => ha.1
      refine (h.mono hsub).congr ?_
      intro a ha b hb
      exact mixed_both ha.2 hb.2
    · rintro a ha b hb d hd hva hvb hvd hneg ⟨hbd, hda⟩
      have hab : mixed v c₁ c₂ a b = c₁ a b := (mixed_both hva hvb).trans (if_pos (by omega))
      have hpos := (h.antisymm a ha b hb).mp (hab ▸ hneg)
      have hbd' : mixed v c₁ c₂ b d ≤ 0 := (mixed_right b hvd).trans_le hbd
      have hda' : mixed v c₁ c₂ d a ≤ 0 := (mixed_left hvd a).trans_le hda
      exact absurd (h.trans b hb d hd a ha hbd' hda') (by omega)
  · rintro ⟨h₁, hbetween⟩
    have hsign : ∀ a ∈ s, ∀ b ∈ s, v a → v b → 0 < c₁ a b → c₁ b a < 0 := by
      intro a ha b hb hva hvb hpos
      have hne : c₁ a b ≠ 0 := by omega
      have hback := (h₁.antisymm b ⟨hb, hvb⟩ a ⟨ha, hva⟩).mpr
      unfold thenBy at hback
      rw [if_pos hne, if_pos (mt (hzero a b).mpr hne)] at hback
      exact hback hpos
    -- one without it between two others
    have hstep : ∀ a ∈ s, ∀ b ∈ s, ∀ d ∈ s, v a → v b → ¬v d → c₂ b d ≤ 0 → c₂ d a ≤ 0 →
        thenBy c₁ c₂ b a ≤ 0 := by
      intro a ha b hb d hd hva hvb hvd hbd hda
      unfold thenBy
      by_cases hne : c₁ b a ≠ 0
      · rw [if_pos hne]
        by_contra hpos
        exact hbetween a ha b hb d hd hva hvb hvd (hsign b hb a ha hvb hva (by omega)) ⟨hbd, hda⟩
      · rw [if_neg hne]
        exact h₂.trans b hb d hd a ha hbd hda
    have htie : ∀ a ∈ s, ∀ b ∈ s, v a → v b → thenBy c₁ c₂ a b ≤ 0 → thenBy c₁ c₂ b a ≤ 0 →
        c₂ a b ≤ 0 := by
      intro a ha b hb hva hvb hab hba
      have heq : thenBy c₁ c₂ a b = 0 := by
        have hiff := h₁.antisymm a ⟨ha, hva⟩ b ⟨hb, hvb⟩
        omega
      unfold thenBy at heq
      by_cases hne : c₁ a b ≠ 0
      · rw [if_pos hne] at heq
        exact absurd heq hne
      · rw [if_neg hne] at heq
        exact le_of_eq heq
    refine ⟨?_, ?_, ?_⟩
    · intro a ha
      by_cases hva : v a
      · rw [mixed_both hva hva]
        exact h₁.refl a ⟨ha, hva⟩
      · rw [mixed_left hva]
        exact h₂.refl a ha
    · intro a ha b hb
      by_cases hva : v a
      · by_cases hvb : v b
        · rw [mixed_both hva hvb, mixed_both hvb hva]
          exact h₁.antisymm a ⟨ha, hva⟩ b ⟨hb, hvb⟩
        · rw [mixed_right a hvb, mixed_left hvb]
          exact h₂.antisymm a ha b hb
      · rw [mixed_left hva, mixed_right b hva]
        exact h₂.antisymm a ha b hb
    · intro a ha b hb d hd hab hbd
      by_cases hva : v a
      · by_cases hvb : v b
        · rw [mixed_both hva hvb] at hab
          by_cases hvd : v d
          · rw [mixed_both hvb hvd] at hbd
            rw [mixed_both hva hvd]
            exact h₁.trans a ⟨ha, hva⟩ b ⟨hb, hvb⟩ d ⟨hd, hvd⟩ hab hbd
          · rw [mixed_right b hvd] at hbd
            rw [mixed_right a hvd]
            by_contra hpos
            have hda : c₂ d a < 0 := (h₂.antisymm d hd a ha).mpr (by omega)
            have hba := hstep a ha b hb d hd hva hvb hvd hbd hda.le
            exact hpos (h₂.trans a ha b hb d hd (htie a ha b hb hva hvb hab hba) hbd)
        · rw [mixed_right a hvb] at hab
          rw [mixed_left hvb] at hbd
          by_cases hvd : v d
          · rw [mixed_both hva hvd]
            exact hstep d hd a ha b hb hvd hva hvb hab hbd
          · rw [mixed_right a hvd]
            exact h₂.trans a ha b hb d hd hab hbd
      · rw [mixed_left hva] at hab ⊢
        by_cases hboth : v b ∧ v d
        · obtain ⟨hvb, hvd⟩ := hboth
          rw [mixed_both hvb hvd] at hbd
          by_contra hpos
          have hda : c₂ d a < 0 := (h₂.antisymm d hd a ha).mpr (by omega)
          have hdb := hstep b hb d hd a ha hvb hvd hva hda.le hab
          exact hpos (h₂.trans a ha b hb d hd hab (htie b hb d hd hvb hvd hbd hdb))
        · have hplain : mixed v c₁ c₂ b d = c₂ b d := if_neg hboth
          rw [hplain] at hbd
          exact h₂.trans a ha b hb d hd hab hbd

end

/-! The difference of two machine integers as a comparison. -/

def difference (x y : Int32) : Int := (x - y).toInt

theorem difference_zero_iff (x y : Int32) : difference x y = 0 ↔ x = y := by
  unfold difference
  rw [← Int32.toInt_zero, Int32.toInt_inj]
  grind

/-- The keys of a set are within half of the range, counted upwards from one of them. -/
def Near (k : α → Int32) (s : Set α) : Prop := ∃ m ∈ s, ∀ a ∈ s, 0 ≤ k a - k m

theorem difference_of_near {x y m : Int32} (hx : 0 ≤ x - m) (hy : 0 ≤ y - m) :
    difference x y = (x - m).toInt - (y - m).toInt := by
  have hsum : x - y = (x - m) - (y - m) := by grind
  rw [Int32.le_iff_toInt_le, Int32.toInt_zero] at hx hy
  have hxlt := (x - m).toInt_lt
  have hylt := (y - m).toInt_lt
  unfold difference
  rw [hsum, Int32.toInt_sub]
  exact Int.bmod_eq_of_le (by omega) (by omega)

theorem difference_ordersOn_iff {k : α → Int32} {s : Set α} (hfin : s.Finite) :
    OrdersOn (onKey k difference) s ↔ (s.Nonempty → Near k s) := by
  constructor
  · intro h hne
    obtain ⟨m, hm, hleast⟩ := h.exists_least hfin hne
    refine ⟨m, hm, ?_⟩
    intro a ha
    have hle : onKey k difference m a ≤ 0 := hleast a ha
    have hnon : 0 ≤ onKey k difference a m := by
      rcases lt_or_eq_of_le hle with hlt | heq
      · exact ((h.antisymm m hm a ha).mp hlt).le
      · have hkey : k m = k a := (difference_zero_iff _ _).mp heq
        exact le_of_eq ((difference_zero_iff _ _).mpr hkey.symm).symm
    rw [Int32.le_iff_toInt_le, Int32.toInt_zero]
    exact hnon
  · intro h
    by_cases hne : s.Nonempty
    · obtain ⟨m, _, hnear⟩ := h hne
      apply ordersOn_of_key (k := fun a => (k a - k m).toInt)
      intro a ha b hb
      have hdiff : onKey k difference a b = (k a - k m).toInt - (k b - k m).toInt :=
        difference_of_near (hnear a ha) (hnear b hb)
      rw [hdiff]
      exact ⟨by omega, by omega⟩
    · rw [Set.not_nonempty_iff_eq_empty.mp hne]
      exact ⟨nofun, nofun, nofun⟩

end PkgManager.Comparison
