import PkgManager.Leftovers

namespace PkgManager.CacheClear

open CText Leftovers
open FileTree (FileSystem Place Name Entry IsName)
open FileTree.FileSystem
open PkgMetadata (Text)

/-! `remove_dir_contents` of `pkg_cache.c`. -/

def direct (l : Place) : Text := l.flatMap (47 :: ·)

variable {fs fs' s : FileSystem} {d l : Place} {n : Name} {e : Entry} {S : Finset Place}

theorem isDirAt_iff : fs.isDirAt l = true ↔ ∃ opens size, fs.entryAt l = some ⟨.dir opens, size⟩ := by
  unfold isDirAt
  rw [Option.any_eq_true]
  constructor
  · rintro ⟨⟨kind, size⟩, he, hkind⟩
    cases kind with
    | file => cases hkind
    | link target => cases hkind
    | dir opens => exact ⟨opens, size, he⟩
  · rintro ⟨opens, size, he⟩
    exact ⟨_, he, rfl⟩

/-- What stands below an entry stands in a directory there. -/
theorem isDirAt_of_below {m : Place} (h : fs.entryAt (l ++ m) = some e) (hm : m ≠ []) :
    fs.isDirAt l = true := by
  induction m using List.reverseRecOn generalizing e with
  | nil => exact absurd rfl hm
  | append_singleton m n ih =>
    rw [← List.append_assoc] at h
    have hdir := isDirAt_of_entryAt h
    by_cases hnil : m = []
    · rwa [hnil, List.append_nil] at hdir
    · obtain ⟨opens, size, he⟩ := isDirAt_iff.mp hdir
      exact ih he hnil

def fileSize (fs : FileSystem) (l : Place) : Nat :=
  match fs.entryAt l with
  | some ⟨.file, size⟩ => size.toNat
  | _ => 0

theorem fileSize_of_none (h : fs.entryAt l = none) : fileSize fs l = 0 := by
  unfold fileSize
  rw [h]

/-- The bytes of the files at the places of `P`; `S` has all places. -/
def bytes (S : Finset Place) (fs : FileSystem) (P : Place → Bool) : Nat :=
  ∑ l ∈ S, if P l then fileSize fs l else 0

structure Emptied (S : Finset Place) (P : Place → Bool) (fs fs' : FileSystem) (freed : Int64) : Prop where
  gone : ∀ l, P l = true → fs'.entryAt l = none
  kept : ∀ l, P l = false → fs'.entryAt l = fs.entryAt l
  counted : freed = .ofNat (bytes S fs P)

variable {P Q : Place → Bool} {freed freed' : Int64}

theorem Emptied.below (h : Emptied S P fs fs' freed) : Below fs' fs := by
  intro l e he
  cases hP : P l with
  | false => rwa [h.kept l hP] at he
  | true => cases (h.gone l hP).symm.trans he

/-- Places without an entry do not matter. -/
theorem Emptied.congr (h : Emptied S P fs fs' freed) (hsame : ∀ l e, fs.entryAt l = some e → P l = Q l) :
    Emptied S Q fs fs' freed := by
  have hnone : ∀ l, fs.entryAt l = none → fs'.entryAt l = none := by
    intro l hl
    by_contra hne
    obtain ⟨e, he⟩ := Option.ne_none_iff_exists'.mp hne
    cases hl.symm.trans (h.below l e he)
  refine ⟨fun l hl => ?_, fun l hl => ?_, ?_⟩
  · cases he : fs.entryAt l with
    | none => exact hnone l he
    | some e => exact h.gone l ((hsame l e he).trans hl)
  · cases he : fs.entryAt l with
    | none => exact hnone l he
    | some e => exact (h.kept l ((hsame l e he).trans hl)).trans he
  · rw [h.counted]
    congr 1
    apply Finset.sum_congr rfl
    intro l hl
    cases he : fs.entryAt l with
    | none => rw [fileSize_of_none he, ite_self, ite_self]
    | some e => rw [hsame l e he]

theorem Emptied.nothing (S : Finset Place) (fs : FileSystem) : Emptied S (fun _ => false) fs fs 0 := by
  refine ⟨fun l hl => absurd hl Bool.false_ne_true, fun l hl => rfl, ?_⟩
  have hzero : bytes S fs (fun _ => false) = 0 := Finset.sum_eq_zero fun l hl => rfl
  rw [hzero]
  rfl

theorem Emptied.trans {fs'' : FileSystem} (h : Emptied S P fs fs' freed) (h' : Emptied S Q fs' fs'' freed') :
    Emptied S (fun l => P l || Q l) fs fs'' (freed + freed') := by
  refine ⟨fun l hl => ?_, fun l hl => ?_, ?_⟩
  · cases hQ : Q l with
    | true => exact h'.gone l hQ
    | false =>
      rw [hQ, Bool.or_false] at hl
      rw [h'.kept l hQ, h.gone l hl]
  · obtain ⟨hP, hQ⟩ := Bool.or_eq_false_iff.mp hl
    rw [h'.kept l hQ, h.kept l hP]
  · rw [h.counted, h'.counted, ← Int64.ofNat_add]
    congr 1
    unfold bytes
    rw [← Finset.sum_add_distrib]
    apply Finset.sum_congr rfl
    intro l hl
    cases hP : P l with
    | true => simp [hP, fileSize_of_none (h.gone l hP)]
    | false =>
      have hsame : fileSize fs' l = fileSize fs l := by
        unfold fileSize
        rw [h.kept l hP]
      simp [hP, hsame]

/-- What `remove_dir_contents` can clear: its paths fit, and all directories open. -/
structure Clearable (levels : Nat) (fs : FileSystem) (d : Place) : Prop where
  opens : ∀ l, d <+: l → fs.isDirAt l = true → ∃ size, fs.entryAt l = some ⟨.dir true, size⟩
  fits : ∀ l e, d <+: l → fs.entryAt l = some e → (direct l).length ≤ 1023
  depth : ∀ l, d <+: l → fs.isDirAt l = true → l.length < d.length + levels

variable {levels : Nat}

theorem Clearable.mono (h : Clearable levels fs d) (hs : Below s fs) : Clearable levels s d := by
  refine ⟨fun l hl hdir => ?_, fun l e hl he => h.fits l e hl (hs l e he),
    fun l hl hdir => h.depth l hl (hs.isDirAt hdir)⟩
  obtain ⟨opens, size, he⟩ := isDirAt_iff.mp hdir
  obtain ⟨size', he'⟩ := h.opens l hl (hs.isDirAt hdir)
  exact ⟨size', (he.trans ((hs l _ he).symm.trans he')).trans rfl⟩

theorem Clearable.child (h : Clearable (levels + 1) fs d) : Clearable levels fs (d ++ [n]) := by
  have hbelow : ∀ l, d ++ [n] <+: l → d <+: l := fun l hl => (List.prefix_append d [n]).trans hl
  refine ⟨fun l hl => h.opens l (hbelow l hl), fun l e hl => h.fits l e (hbelow l hl), fun l hl hdir => ?_⟩
  have hlen := h.depth l (hbelow l hl) hdir
  rw [List.length_append, List.length_singleton]
  omega

/-- Only one place is emptied where no entry stands behind it. -/
theorem Emptied.alone (h : Emptied S (fun l => decide (l = d ++ [n])) fs fs' freed)
    (hdir : fs.isDirAt (d ++ [n]) = false) :
    Emptied S (fun l => (d ++ [n]).isPrefixOf l) fs fs' freed := by
  apply h.congr
  intro l e he
  rw [Bool.eq_iff_iff, decide_eq_true_iff, List.isPrefixOf_iff_prefix]
  constructor
  · rintro rfl
    exact List.prefix_refl _
  · rintro ⟨m, rfl⟩
    by_cases hm : m = []
    · rw [hm, List.append_nil]
    · exact absurd (hdir.symm.trans (isDirAt_of_below he hm)) Bool.false_ne_true

def places (fs : FileSystem) : Finset Place := (fs.entries.map (·.1)).toFinset

end PkgManager.CacheClear
