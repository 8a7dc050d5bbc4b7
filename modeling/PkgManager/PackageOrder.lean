import PkgManager.Comparison
import PkgManager.SmbBrowse

namespace PkgManager.PackageOrder

open Comparison ScannerState PkgParser CText
open PkgMetadata (Text)
open SmbBrowse (bytes strcmp_sign zero_not_mem_lower)

/-! When the order of the manifest is an order. -/

/-- The title a package is sorted by. -/
def shownTitle (p : Package) : Text :=
  if p.titleName.text = [] then ascii "Unknown Package" else p.titleName.text

def Versioned (p : Package) : Prop := p.appVersion.text ≠ []

instance : DecidablePred Versioned := fun _ => inferInstanceAs (Decidable (_ ≠ _))

def major (p : Package) : Int32 := (parseVersionParts p.appVersion.text).1

def minor (p : Package) : Int32 := (parseVersionParts p.appVersion.text).2.1

def patch (p : Package) : Int32 := (parseVersionParts p.appVersion.text).2.2

/-- Packages that title and type leave together. -/
def SameGroup (a b : Package) : Prop :=
  strcasecmp (shownTitle b) (shownTitle a) = 0 ∧ b.pkgType = a.pkgType

def group (packages : List Package) (a : Package) : Set Package := {b | b ∈ packages ∧ SameGroup a b}

/-- Those of a group that have a version. -/
def peers (packages : List Package) (a : Package) : Set Package :=
  {b | b ∈ group packages a ∧ Versioned b}

/-- No difference of two version numbers that are compared wraps around into another order. -/
structure VersionsNear (packages : List Package) : Prop where
  major : ∀ a ∈ packages, Versioned a → Near major (peers packages a)
  minor : ∀ a ∈ packages, Versioned a →
    Near minor {b | b ∈ peers packages a ∧ PackageOrder.major b = PackageOrder.major a}
  patch : ∀ a ∈ packages, Versioned a →
    Near patch {b | b ∈ peers packages a ∧ PackageOrder.major b = PackageOrder.major a ∧
      PackageOrder.minor b = PackageOrder.minor a}

/-- No package without a version has a path from that of a newer one up to that of an older one. -/
def NoneBetween (packages : List Package) : Prop :=
  ∀ a ∈ packages, ∀ b ∈ packages, ∀ d ∈ packages, SameGroup a b → SameGroup a d →
    Versioned a → Versioned b → ¬Versioned d →
    compareVersions a.appVersion.text b.appVersion.text < 0 →
    ¬(strcmp b.path.text d.path.text ≤ 0 ∧ strcmp d.path.text a.path.text ≤ 0)

/-! The comparison level by level. -/

/-- Texts without a zero byte. -/
abbrev Title := {t : Text // 0 ∉ t}

theorem zero_not_mem_shown (p : Package) : 0 ∉ shownTitle p := by
  unfold shownTitle
  by_cases h : p.titleName.text = []
  · rw [if_pos h]
    decide
  · rw [if_neg h]
    exact p.titleName.noNul

def titleKey (p : Package) : Title :=
  ⟨(shownTitle p).map toLower, zero_not_mem_lower (zero_not_mem_shown p)⟩

def titleDifference (s t : Title) : Int := (strcmp s.1 t.1).toInt

def typeDifference (t u : PkgType) : Int :=
  (Int32.ofNat (typeCode t) - Int32.ofNat (typeCode u)).toInt

def versionOrder : Package → Package → Int :=
  thenBy (onKey major difference) (thenBy (onKey minor difference) (onKey patch difference))

def pathOrder (a b : Package) : Int := (strcmp a.path.text b.path.text).toInt

theorem strcmp_zero_iff {s t : Text} (hs : 0 ∉ s) (ht : 0 ∉ t) : strcmp s t = 0 ↔ s = t := by
  rw [(strcmp_sign hs ht).2, SmbBrowse.bytes_inj]

theorem titleDifference_zero_iff (s t : Title) : titleDifference s t = 0 ↔ s = t := by
  unfold titleDifference
  rw [← SmbBrowse.zero_iff, strcmp_zero_iff s.2 t.2]
  exact Subtype.ext_iff.symm

theorem typeDifference_zero_iff (t u : PkgType) : typeDifference t u = 0 ↔ t = u := by
  cases t <;> cases u <;> decide

theorem typeDifference_neg_iff (t u : PkgType) : typeDifference t u < 0 ↔ typeCode t < typeCode u := by
  cases t <;> cases u <;> decide

theorem typeCode_inj {t u : PkgType} : typeCode t = typeCode u ↔ t = u := by
  cases t <;> cases u <;> decide

theorem sameGroup_iff (a b : Package) :
    SameGroup a b ↔ titleKey b = titleKey a ∧ b.pkgType = a.pkgType := by
  have hkey : strcasecmp (shownTitle b) (shownTitle a) = 0 ↔ titleKey b = titleKey a := by
    have hzero : strcmp (titleKey b).1 (titleKey a).1 = 0 ↔ (titleKey b).1 = (titleKey a).1 :=
      strcmp_zero_iff (titleKey b).2 (titleKey a).2
    exact hzero.trans Subtype.ext_iff.symm
  unfold SameGroup
  rw [hkey]

theorem compareVersions_order (a b : Package) :
    (compareVersions a.appVersion.text b.appVersion.text).toInt = versionOrder a b := by
  have hcode : compareVersions a.appVersion.text b.appVersion.text =
      if major a ≠ major b then major a - major b
      else if minor a ≠ minor b then minor a - minor b else patch a - patch b := rfl
  rw [hcode]
  unfold versionOrder
  by_cases hmajor : major a = major b
  · rw [if_neg (not_not_intro hmajor), thenBy_key difference_zero_iff hmajor]
    by_cases hminor : minor a = minor b
    · rw [if_neg (not_not_intro hminor), thenBy_key difference_zero_iff hminor]
      rfl
    · rw [if_pos hminor, thenBy_key_ne difference_zero_iff hminor]
      rfl
  · rw [if_pos hmajor, thenBy_key_ne difference_zero_iff hmajor]
    rfl

theorem versionOrder_zero (a b : Package) : versionOrder a b = 0 ↔ versionOrder b a = 0 := by
  unfold versionOrder
  rw [thenBy_zero_iff, thenBy_zero_iff, thenBy_zero_iff, thenBy_zero_iff]
  unfold onKey
  simp only [difference_zero_iff]
  exact and_congr eq_comm (and_congr eq_comm eq_comm)

theorem mixed_eq (a b : Package) :
    mixed Versioned versionOrder pathOrder a b =
      (let vcmp := if a.appVersion.text ≠ [] ∧ b.appVersion.text ≠ [] then
        compareVersions a.appVersion.text b.appVersion.text else 0
      if vcmp ≠ 0 then vcmp else strcmp a.path.text b.path.text).toInt := by
  unfold mixed thenBy
  dsimp only
  by_cases hboth : Versioned a ∧ Versioned b
  · have hboth' : a.appVersion.text ≠ [] ∧ b.appVersion.text ≠ [] := hboth
    rw [if_pos hboth, if_pos hboth', ← compareVersions_order]
    by_cases hzero : compareVersions a.appVersion.text b.appVersion.text = 0
    · rw [if_neg (not_not_intro ((SmbBrowse.zero_iff _).mp hzero)), if_neg (not_not_intro hzero)]
      rfl
    · rw [if_pos (mt (SmbBrowse.zero_iff _).mpr hzero), if_pos hzero]
  · have hboth' : ¬(a.appVersion.text ≠ [] ∧ b.appVersion.text ≠ []) := hboth
    rw [if_neg hboth, if_neg hboth', if_neg (not_not_intro rfl)]
    rfl

theorem compare_order (a b : Package) :
    (comparePkgByTitleName a b).toInt =
      thenBy (onKey titleKey titleDifference)
        (thenBy (onKey (·.pkgType) typeDifference) (mixed Versioned versionOrder pathOrder)) a b := by
  unfold comparePkgByTitleName
  dsimp only
  by_cases htitle : titleKey a = titleKey b
  · have hcmp : strcasecmp (shownTitle a) (shownTitle b) = 0 :=
      (SmbBrowse.zero_iff _).mpr ((titleDifference_zero_iff _ _).mpr htitle)
    rw [thenBy_key titleDifference_zero_iff htitle]
    unfold shownTitle at hcmp
    rw [if_neg (not_not_intro hcmp)]
    by_cases htype : a.pkgType = b.pkgType
    · rw [if_neg (not_not_intro htype), thenBy_key typeDifference_zero_iff htype, mixed_eq]
    · rw [if_pos htype, thenBy_key_ne typeDifference_zero_iff htype]
      rfl
  · have hdiff := mt (titleDifference_zero_iff _ _).mp htitle
    have hcmp : strcasecmp (shownTitle a) (shownTitle b) ≠ 0 := mt (SmbBrowse.zero_iff _).mp hdiff
    rw [thenBy_key_ne titleDifference_zero_iff htitle]
    unfold shownTitle at hcmp
    rw [if_pos hcmp]
    rfl

theorem pathOrder_orders (s : Set Package) : OrdersOn pathOrder s := by
  apply ordersOn_of_key (k := fun p : Package => bytes p.path.text)
  intro a _ b _
  obtain ⟨hlt, heq⟩ := strcmp_sign a.path.noNul b.path.noNul
  unfold pathOrder
  rw [← SmbBrowse.negative_iff, ← SmbBrowse.zero_iff]
  exact ⟨hlt, heq⟩

theorem titleOrder_orders (s : Set Package) : OrdersOn (onKey titleKey titleDifference) s := by
  apply ordersOn_of_key (k := fun p => bytes (titleKey p).1)
  intro a _ b _
  obtain ⟨hlt, heq⟩ := strcmp_sign (titleKey a).2 (titleKey b).2
  unfold onKey titleDifference
  rw [← SmbBrowse.negative_iff, ← SmbBrowse.zero_iff]
  exact ⟨hlt, heq⟩

theorem typeOrder_orders (s : Set Package) :
    OrdersOn (onKey (·.pkgType) typeDifference : Package → Package → Int) s := by
  apply ordersOn_of_key (k := fun p : Package => typeCode p.pkgType)
  intro a _ b _
  exact ⟨typeDifference_neg_iff _ _, (typeDifference_zero_iff _ _).trans typeCode_inj.symm⟩

/-- All that matters happens inside the groups. -/
theorem orders_groups (packages : List Package) :
    OrdersOn (fun a b => (comparePkgByTitleName a b).toInt) {p | p ∈ packages} ↔
      ∀ a ∈ packages, OrdersOn (mixed Versioned versionOrder pathOrder) (group packages a) := by
  have hcmp : (fun a b => (comparePkgByTitleName a b).toInt) =
      thenBy (onKey titleKey titleDifference)
        (thenBy (onKey (·.pkgType) typeDifference) (mixed Versioned versionOrder pathOrder)) := by
    funext a b
    exact compare_order a b
  have hgroup : ∀ a b : Package, titleKey b = titleKey a →
      {d | d ∈ {d | d ∈ {p | p ∈ packages} ∧ titleKey d = titleKey a} ∧ d.pkgType = b.pkgType} =
        group packages b := by
    intro a b hab
    ext d
    unfold group
    simp only [Set.mem_ofPred_eq, sameGroup_iff, hab, and_assoc]
  rw [hcmp, thenBy_ordersOn_iff titleDifference_zero_iff]
  simp only [thenBy_ordersOn_iff typeDifference_zero_iff]
  constructor
  · rintro ⟨_, h⟩ a ha
    have hres := (h a ha).2 a ⟨ha, rfl⟩
    rwa [hgroup a a rfl] at hres
  · intro h
    refine ⟨titleOrder_orders _, ?_⟩
    intro a ha
    refine ⟨typeOrder_orders _, ?_⟩
    intro b hb
    rw [hgroup a b hb.2]
    exact h b hb.1

/-- The versions of a set in order. -/
theorem versions_orders {s : Set Package} (hfin : s.Finite) :
    OrdersOn (thenBy versionOrder pathOrder) s ↔
      ∀ a ∈ s, Near major s ∧ Near minor {b | b ∈ s ∧ major b = major a} ∧
        Near patch {b | b ∈ s ∧ major b = major a ∧ minor b = minor a} := by
  have hcmp : thenBy versionOrder pathOrder =
      thenBy (onKey major difference)
        (thenBy (onKey minor difference) (thenBy (onKey patch difference) pathOrder)) := by
    unfold versionOrder
    rw [thenBy_assoc, thenBy_assoc]
  have hpart : ∀ q : Package → Prop, {b | b ∈ s ∧ q b}.Finite :=
    fun q => hfin.subset fun b hb => hb.1
  have hflat : ∀ a b : Package,
      {d | d ∈ {d | d ∈ s ∧ major d = major a} ∧ minor d = minor b} =
        {d | d ∈ s ∧ major d = major a ∧ minor d = minor b} := by
    intro a b
    ext d
    exact and_assoc
  rw [hcmp, thenBy_ordersOn_iff difference_zero_iff, difference_ordersOn_iff hfin]
  simp only [thenBy_ordersOn_iff difference_zero_iff, hflat, difference_ordersOn_iff (hpart _),
    pathOrder_orders, implies_true, and_true]
  constructor
  · rintro ⟨hmajor, h⟩ a ha
    obtain ⟨hminor, hpatch⟩ := h a ha
    exact ⟨hmajor ⟨a, ha⟩, hminor ⟨a, ha, rfl⟩, hpatch a ⟨ha, rfl⟩ ⟨a, ha, rfl, rfl⟩⟩
  · intro h
    refine ⟨?_, ?_⟩
    · rintro ⟨a, ha⟩
      exact (h a ha).1
    · intro a ha
      refine ⟨fun _ => (h a ha).2.1, ?_⟩
      rintro b ⟨hb, hba⟩ _
      have hres := (h b hb).2.2
      rwa [hba] at hres

theorem sameGroup_rfl (a : Package) : SameGroup a a := (sameGroup_iff a a).mpr ⟨rfl, rfl⟩

theorem group_eq {packages : List Package} {a b : Package} (h : SameGroup a b) :
    group packages b = group packages a := by
  obtain ⟨htitle, htype⟩ := (sameGroup_iff a b).mp h
  ext d
  unfold group
  simp only [Set.mem_ofPred_eq, sameGroup_iff, htitle, htype]

theorem between_iff (a b d : Package) :
    (versionOrder a b < 0 → ¬(pathOrder b d ≤ 0 ∧ pathOrder d a ≤ 0)) ↔
      (compareVersions a.appVersion.text b.appVersion.text < 0 →
        ¬(strcmp b.path.text d.path.text ≤ 0 ∧ strcmp d.path.text a.path.text ≤ 0)) := by
  have hpath : ∀ x y : Package, pathOrder x y ≤ 0 ↔ strcmp x.path.text y.path.text ≤ 0 := by
    intro x y
    rw [Int32.le_iff_toInt_le]
    rfl
  rw [← compareVersions_order, ← SmbBrowse.negative_iff, hpath, hpath]

/-- The order of the packages is one exactly on these lists. -/
theorem compare_orders_iff (packages : List Package) :
    OrdersOn (fun a b => (comparePkgByTitleName a b).toInt) {p | p ∈ packages} ↔
      VersionsNear packages ∧ NoneBetween packages := by
  have hfin : ∀ a, {b | b ∈ group packages a ∧ Versioned b}.Finite := by
    intro a
    exact (List.finite_toSet packages).subset fun b hb => hb.1.1
  rw [orders_groups]
  simp only [mixed_ordersOn_iff versionOrder_zero (pathOrder_orders _), versions_orders (hfin _)]
  constructor
  · intro h
    refine ⟨⟨?_, ?_, ?_⟩, ?_⟩
    · intro a ha hva
      exact ((h a ha).1 a ⟨⟨ha, sameGroup_rfl a⟩, hva⟩).1
    · intro a ha hva
      exact ((h a ha).1 a ⟨⟨ha, sameGroup_rfl a⟩, hva⟩).2.1
    · intro a ha hva
      exact ((h a ha).1 a ⟨⟨ha, sameGroup_rfl a⟩, hva⟩).2.2
    · intro a ha b hb d hd hab had hva hvb hvd
      rw [← between_iff]
      exact (h a ha).2 a ⟨ha, sameGroup_rfl a⟩ b ⟨hb, hab⟩ d ⟨hd, had⟩ hva hvb hvd
  · rintro ⟨hnear, hnone⟩ a ha
    refine ⟨?_, ?_⟩
    · rintro b ⟨⟨hb, hab⟩, hvb⟩
      have hmajor := hnear.major b hb hvb
      have hminor := hnear.minor b hb hvb
      have hpatch := hnear.patch b hb hvb
      unfold peers at hmajor hminor hpatch
      rw [group_eq hab] at hmajor hminor hpatch
      exact ⟨hmajor, hminor, hpatch⟩
    · intro b hb d hd e he hvb hvd hve
      rw [← group_eq hb.2] at hd he
      rw [between_iff]
      exact hnone b hb.1 d hd.1 e he.1 hd.2 he.2 hvb hvd hve

/-- A package of no title, with this version at this path. -/
def named (version path : Text) : Package where
  path := .of 512 path
  filename := .of 256 []
  titleId := .of 32 []
  titleName := .of 256 []
  localizedTitles := .of 2048 []
  defaultLanguage := .of 32 []
  contentId := .of 64 []
  appVersion := .of 32 version
  fileSize := 0
  totalPkgSize := 0
  iconOffset := 0
  iconSize := 0
  hasIcon := false
  isValid := true
  isMultipart := false
  partIndex := 0
  totalParts := 0
  pkgType := .base
  pkgTypeStr := .of 16 []
  category := .of 16 []
  mtime := 0
  blurhash := .of 64 []

/-- The one without a version stands between the two others the other way around. -/
def threePackages : List Package :=
  [named (ascii "1.0") (ascii "/c.pkg"), named [] (ascii "/b.pkg"), named (ascii "2.0") (ascii "/a.pkg")]

theorem compare_orders_fails :
    ¬OrdersOn (fun a b => (comparePkgByTitleName a b).toInt) {p | p ∈ threePackages} := by
  intro h
  have hback := h.trans (named (ascii "2.0") (ascii "/a.pkg")) (by simp [threePackages])
    (named [] (ascii "/b.pkg")) (by simp [threePackages])
    (named (ascii "1.0") (ascii "/c.pkg")) (by simp [threePackages])
  revert hback
  decide

end PkgManager.PackageOrder
