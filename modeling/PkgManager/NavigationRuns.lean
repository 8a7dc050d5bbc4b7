import PkgManager.Navigation

namespace PkgManager.NavigationRuns

open Routes Navigation

variable {s s' : Page} {r : Route}

/-! The views. -/

@[simp] theorem view_directInstall : getActiveViewType s = .directInstall ↔ s.showDirectInstall := by
  unfold getActiveViewType
  split_ifs <;> simp_all

@[simp] theorem view_smb :
    getActiveViewType s = .smb ↔ s.showDirectInstall = false ∧ s.showSmbPage := by
  unfold getActiveViewType
  split_ifs <;> simp_all

@[simp] theorem view_settings :
    getActiveViewType s = .settings ↔
      s.showDirectInstall = false ∧ s.showSmbPage = false ∧ s.showSettings := by
  unfold getActiveViewType
  split_ifs <;> simp_all

/-- None of the pages that stand before the packages. -/
def Plain (s : Page) : Prop :=
  s.showDirectInstall = false ∧ s.showSmbPage = false ∧ s.showSettings = false

@[simp] theorem view_title : getActiveViewType s = .title ↔ Plain s ∧ s.title.isSome := by
  unfold getActiveViewType Plain
  split_ifs <;> simp_all

@[simp] theorem view_drive :
    getActiveViewType s = .drive ↔ Plain s ∧ s.title = none ∧ s.drive.isSome := by
  unfold getActiveViewType Plain
  split_ifs <;> simp_all [Option.isSome_iff_ne_none]

@[simp] theorem view_drives :
    getActiveViewType s = .drives ↔ Plain s ∧ s.title = none ∧ s.drive = none := by
  unfold getActiveViewType Plain
  split_ifs <;> simp_all [Option.isSome_iff_ne_none]

/-- The view is that of the route. The list of drives gives way to all sources where the
settings say so, and a title without an id to what is behind it. -/
def Shows (s : Page) : Route → Prop
  | .drives =>
    getActiveViewType s = .drives ∨
      getActiveViewType s = .drive ∧ s.drive = some allSourcesDrive
  | .drive _ => getActiveViewType s = .drive
  | .title id =>
    s.titleId = some id ∧
      (getActiveViewType s = .title ∨ id = "" ∧ getActiveViewType s ∈ [.drive, .drives])
  | .settings => getActiveViewType s = .settings
  | .smb => getActiveViewType s = .smb
  | .directInstall => getActiveViewType s = .directInstall

/-- Every entry is the hash of a route. -/
structure Named (s : Page) : Prop where
  index : s.index < s.entries.length
  entries : ∀ e ∈ s.entries, ∃ r, e = formatHash r

structure Inv (s : Page) : Prop where
  named : Named s
  shows : Shows s s.currentRoute
  here : s.leaving = false → s.hash = formatHash s.currentRoute
  /-- The page for files hides no other. -/
  pages : s.showDirectInstall → s.showSmbPage = false ∧ s.showSettings = false

/-! What is shown depends on these fields alone. -/

structure SameView (s s' : Page) : Prop where
  drive : s'.drive = s.drive
  titleId : s'.titleId = s.titleId
  showSettings : s'.showSettings = s.showSettings
  showSmbPage : s'.showSmbPage = s.showSmbPage
  showDirectInstall : s'.showDirectInstall = s.showDirectInstall

theorem SameView.trans {t : Page} (h : SameView s s') (k : SameView s' t) : SameView s t :=
  ⟨k.1.trans h.1, k.2.trans h.2, k.3.trans h.3, k.4.trans h.4, k.5.trans h.5⟩

theorem SameView.view (h : SameView s s') : getActiveViewType s' = getActiveViewType s := by
  have htitle : s'.title = s.title := by rw [Page.title, Page.title, h.titleId]
  simp only [getActiveViewType, htitle, h.drive, h.showSettings, h.showSmbPage,
    h.showDirectInstall]

theorem SameView.shows (h : SameView s s') (hs : Shows s r) : Shows s' r := by
  cases r <;> simpa only [Shows, h.view, h.drive, h.titleId] using hs

theorem SameView.pages (h : SameView s s')
    (hs : s.showDirectInstall → s.showSmbPage = false ∧ s.showSettings = false) :
    s'.showDirectInstall → s'.showSmbPage = false ∧ s'.showSettings = false := by
  rwa [h.showDirectInstall, h.showSmbPage, h.showSettings]

/-! The history. -/

theorem pushState_sameView (s : Page) (hash : Text) : SameView s (pushState s hash) :=
  ⟨rfl, rfl, rfl, rfl, rfl⟩

theorem replaceState_sameView (s : Page) (hash : Text) : SameView s (replaceState s hash) :=
  ⟨rfl, rfl, rfl, rfl, rfl⟩

theorem pushState_hash (h : s.index < s.entries.length) (hash : Text) :
    (pushState s hash).hash = hash := by
  have hlen : (s.entries.take (s.index + 1)).length = s.index + 1 := by
    rw [List.length_take]
    omega
  simp [Page.hash, pushState, hlen]

theorem replaceState_hash (h : s.index < s.entries.length) (hash : Text) :
    (replaceState s hash).hash = hash := by
  simp [Page.hash, replaceState, h]

theorem pushState_named (h : Named s) (r : Route) : Named (pushState s (formatHash r)) := by
  refine ⟨?_, ?_⟩
  · have hindex := h.index
    simp only [pushState, List.length_append, List.length_take, List.length_singleton]
    omega
  · intro e he
    simp only [pushState, List.mem_append, List.mem_singleton] at he
    rcases he with he | rfl
    · exact h.entries e (List.mem_of_mem_take he)
    · exact ⟨r, rfl⟩

theorem replaceState_named (h : Named s) (r : Route) : Named (replaceState s (formatHash r)) := by
  refine ⟨?_, ?_⟩
  · simpa only [replaceState, List.length_set] using h.index
  · intro e he
    rcases List.mem_or_eq_of_mem_set he with he | rfl
    · exact h.entries e he
    · exact ⟨r, rfl⟩

theorem writeHistory_sameView (s : Page) (r : Route) (replace : Bool) :
    SameView s (writeHistory s r replace) := by
  unfold writeHistory
  split_ifs <;> exact ⟨rfl, rfl, rfl, rfl, rfl⟩

theorem writeHistory_currentRoute (s : Page) (r : Route) (replace : Bool) :
    (writeHistory s r replace).currentRoute = s.currentRoute := by
  unfold writeHistory
  split_ifs <;> rfl

theorem writeHistory_named (h : Named s) (r : Route) (replace : Bool) :
    Named (writeHistory s r replace) := by
  have h' : Named (stay s) := ⟨h.index, h.entries⟩
  unfold writeHistory
  split_ifs
  · exact h'
  · exact replaceState_named h' r
  · exact pushState_named h' r

theorem writeHistory_hash (h : Named s) (r : Route) (replace : Bool) :
    (writeHistory s r replace).hash = formatHash r := by
  unfold writeHistory
  split_ifs with hsame
  · exact hsame
  · exact replaceState_hash (s := stay s) h.index _
  · exact pushState_hash (s := stay s) h.index _

/-- The current route is written, and shown. -/
theorem inv_writeHistory (h : Named s) (hshows : Shows s s.currentRoute)
    (hpages : s.showDirectInstall → s.showSmbPage = false ∧ s.showSettings = false)
    (replace : Bool) : Inv (writeHistory s s.currentRoute replace) where
  named := writeHistory_named h _ replace
  shows := by
    rw [writeHistory_currentRoute]
    exact (writeHistory_sameView s _ replace).shows hshows
  here := by
    intro _
    rw [writeHistory_currentRoute]
    exact writeHistory_hash h _ replace
  pages := (writeHistory_sameView s _ replace).pages hpages

theorem inv_navigate (h : Named s) (hshows : Shows s r)
    (hpages : s.showDirectInstall → s.showSmbPage = false ∧ s.showSettings = false)
    (replace : Bool) : Inv (navigate s r replace) := by
  have hsame : SameView s { s with currentRoute := r } := ⟨rfl, rfl, rfl, rfl, rfl⟩
  exact inv_writeHistory (s := { s with currentRoute := r }) ⟨h.index, h.entries⟩
    (hsame.shows hshows) hpages replace

/-! The first render. -/

theorem seedHistory_sameView (s : Page) (r : Route) : SameView s (seedHistory s r) := by
  have hfold : ∀ (rest : List Route) (s : Page),
      SameView s (rest.foldl (fun s r => pushState s (formatHash r)) s) := by
    intro rest
    induction rest with
    | nil => exact fun s => ⟨rfl, rfl, rfl, rfl, rfl⟩
    | cons r rest ih => exact fun s => (pushState_sameView s _).trans (ih _)
  unfold seedHistory
  split
  · exact ⟨rfl, rfl, rfl, rfl, rfl⟩
  · exact (replaceState_sameView s _).trans (hfold _ _)

theorem seedHistory_named (h : Named (replaceState s (formatHash .drives))) (r : Route) :
    Named (seedHistory s r) ∧ (seedHistory s r).hash = formatHash r := by
  have hindex : s.index < s.entries.length := by
    simpa only [replaceState, List.length_set] using h.index
  have hpush : ∀ r, Named (pushState (replaceState s (formatHash .drives)) (formatHash r)) :=
    fun r => pushState_named h r
  cases r with
  | drives => exact ⟨h, replaceState_hash hindex _⟩
  | settings => exact ⟨hpush _, pushState_hash h.index _⟩
  | directInstall => exact ⟨hpush _, pushState_hash h.index _⟩
  | drive id => exact ⟨hpush _, pushState_hash h.index _⟩
  | smb => exact ⟨pushState_named (hpush _) _, pushState_hash (hpush .settings).index _⟩
  | title id =>
    exact ⟨pushState_named (hpush _) _, pushState_hash (hpush (.drive "__all__")).index _⟩

end PkgManager.NavigationRuns
