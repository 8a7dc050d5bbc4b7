import PkgManager.Interleaving
import PkgManager.SettingsApi

namespace PkgManager.SettingsUpdates

open Interleaving Machine CText Settings SettingsApi
open PkgMetadata (Text quoted)

/-! Concurrent requests. -/

/-- `g_settings`. The list is history: the bodies of the requests that stored their
settings, newest first. -/
structure Store where
  settings : AppSettings
  stored : List (Option Text)

/-- Where a `POST /api/settings` with the body stands: in front of its copy of the
settings, between the copy and the edit of the shares, in front of its store, and
behind its answer. -/
inductive Request where
  | waiting (data : Option Text)
  | copied (data : Option Text) (s : AppSettings)
  | edited (data : Option Text) (s : AppSettings)
  | answered (data : Option Text)

/-- The edit of the copy; the shares are edited against a second copy, taken later. -/
def edit (data : Option Text) (old s : AppSettings) : AppSettings :=
  match data with
  | none => s
  | some data =>
    let body := upToNul data
    if listsShares body then editShares body old (editFlags body s) else editFlags body s

/-- What a request does between two critical sections, or in one. -/
def turn (s : Store) : Request → Option (Store × Request × List Request)
  | .waiting data => some (s, .copied data s.settings, [])
  | .copied data c => some (s, .edited data (edit data s.settings c), [])
  | .edited data c => some (⟨c, data :: s.stored⟩, .answered data, [])
  | .answered _ => none

def updates : Machine Store Request Unit where
  act _ s t := turn s t

def start (s : AppSettings) (datas : List (Option Text)) : Pool Store Request :=
  ⟨⟨s, []⟩, datas.map .waiting⟩

def inFlight : Request → Bool
  | .copied _ _ => true
  | .edited _ _ => true
  | _ => false

def isAnswered : Request → Bool
  | .answered _ => true
  | _ => false

/-- No request takes its copy while another one has not stored its own. -/
def copiesAlone (p : Pool Store Request) (i : Nat) : Bool :=
  match p.threads[i]? with
  | some (Request.waiting _) => p.threads.all fun t => !inFlight t
  | _ => true

/-! What a request changes. -/

inductive Flag where
  | move
  | fade
  | sources
  | debug

def flagOf (s : AppSettings) : Flag → Bool
  | .move => s.moveInstalledToEnd
  | .fade => s.fadeInstalledPackages
  | .sources => s.allSourcesMode
  | .debug => s.pkgInstallDebug

/-- The value a request sets a flag to. -/
def sets (data : Option Text) (f : Flag) : Option Bool :=
  match data with
  | none => none
  | some data =>
    let value (key : String) : Option Bool := (behindKey (upToNul data) key).bind fun p =>
      if wordHere "true" p then some true else if wordHere "false" p then some false else none
    match f with
    | .move => value moveKey
    | .fade => value fadeKey
    | .sources => value sourcesKey
    | .debug => value debugKey

def setsShares : Option Text → Bool
  | none => false
  | some data => listsShares (upToNul data)

/-- The requests set different keys. -/
structure Different (a b : Option Text) : Prop where
  flags : ∀ f, sets a f = none ∨ sets b f = none
  shares : setsShares a = false ∨ setsShares b = false

/-- The settings have what the request changes: its flags, and the shares as it stores
them when it comes first. -/
structure Contains (data : Option Text) (s₀ s : AppSettings) : Prop where
  flags : ∀ f v, sets data f = some v → flagOf s f = v
  shares : setsShares data = true → s.smbShares = (postSettings data s₀).smbShares

/-- Not both words stand at the same place. -/
theorem wordHere_exclusive {p : Text} (h : wordHere "true" p = true) : wordHere "false" p = false := by
  rcases Bool.or_eq_true_iff.mp h with hp | hp
  · obtain ⟨t, rfl⟩ := List.isPrefixOf_iff_prefix.mp hp
    rfl
  · obtain ⟨t, ht⟩ := List.isPrefixOf_iff_prefix.mp hp
    cases p with
    | nil => cases ht
    | cons c p =>
      obtain rfl : ascii "true" ++ t = p := ht
      have hsecond : (ascii "false").isPrefixOf (c :: (ascii "true" ++ t)) = false :=
        Bool.and_eq_false_iff.mpr (.inr rfl)
      rw [wordHere, hsecond]
      rfl

theorem offFlag_eq (body : Text) (key : String) (old : Bool) :
    offFlag body key old = ((behindKey body key).bind fun p =>
      if wordHere "true" p then some true else if wordHere "false" p then some false else none).getD
        old := by
  unfold offFlag
  cases behindKey body key with
  | none => rfl
  | some p =>
    rw [Option.bind_some]
    by_cases ht : wordHere "true" p = true
    · simp only [wordHere_exclusive ht, ht, Bool.false_eq_true, if_false, if_true, Option.getD_some]
    · by_cases hf : wordHere "false" p = true
      · simp only [if_neg ht, if_pos hf, Option.getD_some]
      · simp only [if_neg ht, if_neg hf, Option.getD_none]

theorem onFlag_eq (body : Text) (key : String) (old : Bool) :
    onFlag body key old = ((behindKey body key).bind fun p =>
      if wordHere "true" p then some true else if wordHere "false" p then some false else none).getD
        old := by
  unfold onFlag
  cases behindKey body key with
  | none => rfl
  | some p =>
    rw [Option.bind_some]
    by_cases ht : wordHere "true" p = true
    · simp only [if_pos ht, Option.getD_some]
    · by_cases hf : wordHere "false" p = true
      · simp only [if_neg ht, if_pos hf, Option.getD_some]
      · simp only [if_neg ht, if_neg hf, Option.getD_none]

theorem flagOf_editFlags (data : Text) (s : AppSettings) (f : Flag) :
    flagOf (editFlags (upToNul data) s) f = (sets (some data) f).getD (flagOf s f) := by
  cases f with
  | move => exact offFlag_eq _ _ _
  | fade => exact offFlag_eq _ _ _
  | sources => exact onFlag_eq _ _ _
  | debug => exact onFlag_eq _ _ _

/-- A request leaves the flags it does not set. -/
theorem flagOf_edit (data : Option Text) (old s : AppSettings) (f : Flag) :
    flagOf (edit data old s) f = (sets data f).getD (flagOf s f) := by
  cases data with
  | none => rfl
  | some data =>
    rw [← flagOf_editFlags]
    unfold edit
    simp only
    split
    · cases f <;> rfl
    · rfl

/-- It leaves the shares, or sets them whatever flags it finds. -/
theorem shares_edit (data : Option Text) {old old' : AppSettings} (s s' : AppSettings)
    (hold : old.smbShares = old'.smbShares) :
    (setsShares data = false → (edit data old s).smbShares = s.smbShares) ∧
      (setsShares data = true → (edit data old s).smbShares = (edit data old' s').smbShares) := by
  cases data with
  | none => exact ⟨fun _ => rfl, nofun⟩
  | some data =>
    unfold edit setsShares
    simp only
    constructor
    · intro h
      rw [if_neg (by rw [h]; exact Bool.false_ne_true)]
      rfl
    · intro h
      rw [if_pos h, if_pos h]
      simp only [editShares, hold]

theorem postSettings_eq (data : Option Text) (s : AppSettings) : postSettings data s = edit data s s := by
  cases data <;> rfl

/-- One request behind another one that sets different keys. -/
theorem contains_of_serial {a b : Option Text} (h : Different a b) (s₀ : AppSettings) :
    Contains a s₀ (postSettings b (postSettings a s₀)) ∧
      Contains b s₀ (postSettings b (postSettings a s₀)) := by
  rw [postSettings_eq b, postSettings_eq a]
  refine ⟨⟨fun f v hv => ?_, fun hs => ?_⟩, ⟨fun f v hv => ?_, fun hs => ?_⟩⟩
  · have hb : sets b f = none := (h.flags f).resolve_left (by rw [hv]; exact nofun)
    rw [flagOf_edit, hb, Option.getD_none, flagOf_edit, hv, Option.getD_some]
  · have hb : setsShares b = false := h.shares.resolve_left (by rw [hs]; exact nofun)
    rw [postSettings_eq]
    exact (shares_edit b _ (edit a s₀ s₀) rfl).1 hb
  · rw [flagOf_edit, hv, Option.getD_some]
  · have ha : setsShares a = false := h.shares.resolve_right (by rw [hs]; exact nofun)
    have hkept : (edit a s₀ s₀).smbShares = s₀.smbShares := (shares_edit a s₀ s₀ rfl).1 ha
    rw [postSettings_eq]
    exact (shares_edit b _ s₀ hkept).2 hs

/-! Runs in which requests copy alone. -/

def dataOf : Request → Option Text
  | .waiting data => data
  | .copied data _ => data
  | .edited data _ => data
  | .answered data => data

/-- What a request holds is what it makes of the settings that are stored. -/
def Current (s : AppSettings) : Request → Prop
  | .copied _ c => c = s
  | .edited data c => c = postSettings data s
  | _ => True

def answeredWith (data : Option Text) (t : Request) : Bool := isAnswered t && dataOf t = data

/-- The settings are those of one request behind the other, in the order of their stores. -/
structure Serial (s₀ : AppSettings) (datas : List (Option Text)) (p : Pool Store Request) : Prop where
  datas : p.threads.map dataOf = datas
  settings : p.shared.settings = p.shared.stored.foldr postSettings s₀
  stored : ∀ data, p.shared.stored.count data = p.threads.countP (answeredWith data)
  alone : p.threads.countP inFlight ≤ 1
  current : ∀ t ∈ p.threads, Current p.shared.settings t

theorem serial_start (s₀ : AppSettings) (datas : List (Option Text)) :
    Serial s₀ datas (start s₀ datas) := by
  have hwaiting : ∀ t ∈ datas.map Request.waiting, inFlight t = false ∧ isAnswered t = false ∧
      Current s₀ t := by
    intro t ht
    obtain ⟨_, -, rfl⟩ := List.mem_map.mp ht
    exact ⟨rfl, rfl, trivial⟩
  refine ⟨?_, rfl, fun data => ?_, ?_, fun t ht => (hwaiting t ht).2.2⟩
  · simp only [start, List.map_map]
    exact List.map_id datas
  · symm
    refine List.countP_eq_zero.mpr fun t ht => ?_
    rw [answeredWith, (hwaiting t ht).2.1]
    exact Bool.false_ne_true
  · refine le_of_eq_of_le (List.countP_eq_zero.mpr fun t ht => ?_) (Nat.zero_le 1)
    rw [(hwaiting t ht).1]
    exact Bool.false_ne_true

theorem current_of_idle {s : AppSettings} {t : Request} (h : inFlight t = false) : Current s t := by
  cases t with
  | copied data c => cases h
  | edited data c => cases h
  | _ => trivial

theorem serial_step {s₀ : AppSettings} {datas : List (Option Text)} {p q : Pool Store Request}
    {i : Nat} {e : Unit} (h : Serial s₀ datas p) (hg : copiesAlone p i = true)
    (hs : updates.step p i e = some q) : Serial s₀ datas q := by
  obtain ⟨t, s', t', new, ht, hturn, rfl⟩ := step_eq_some hs
  have hcount (P : Request → Bool) := countP_step P t' new ht
  have hlive := hcount inFlight
  have hown := h.current t (List.mem_of_getElem? ht)
  have hmap (hdata : dataOf t' = dataOf t) : (p.threads.set i t' ++ []).map dataOf = datas := by
    obtain ⟨hlt, rfl⟩ := List.getElem?_eq_some_iff.mp ht
    rw [List.append_nil, List.map_set, hdata, ← List.getElem_map dataOf (h := by simpa using hlt),
      List.set_getElem_self]
    exact h.datas
  cases t with
  | waiting data =>
    cases hturn
    have hidle : p.threads.countP inFlight = 0 := by
      simp only [copiesAlone, ht] at hg
      refine List.countP_eq_zero.mpr fun u hu => ?_
      simpa using List.all_eq_true.mp hg u hu
    refine ⟨hmap rfl, h.settings, fun d => ?_, ?_, forall_step ht rfl h.current (by simp)⟩
    · have hd := hcount (answeredWith d)
      simp only [answeredWith, isAnswered, Bool.false_and, Bool.false_eq_true, if_false,
        List.countP_nil, Nat.add_zero] at hd
      exact (h.stored d).trans hd.symm
    · simp only [inFlight, Bool.false_eq_true, if_false, if_true, List.countP_nil, Nat.add_zero,
        hidle] at hlive
      exact hlive.le
  | copied data c =>
    cases hturn
    obtain rfl : c = p.shared.settings := hown
    refine ⟨hmap rfl, h.settings, fun d => ?_, ?_,
      forall_step ht (postSettings_eq data _).symm h.current (by simp)⟩
    · have hd := hcount (answeredWith d)
      simp only [answeredWith, isAnswered, Bool.false_and, Bool.false_eq_true, if_false,
        List.countP_nil, Nat.add_zero] at hd
      exact (h.stored d).trans hd.symm
    · simp only [inFlight, if_true, List.countP_nil, Nat.add_zero] at hlive
      have halone := h.alone
      show (p.threads.set i _ ++ []).countP inFlight ≤ 1
      omega
  | edited data c =>
    cases hturn
    obtain rfl : c = postSettings data p.shared.settings := hown
    have hafter : (p.threads.set i (.answered data) ++ []).countP inFlight = 0 := by
      have halone := h.alone
      simp only [inFlight, Bool.false_eq_true, if_false, if_true, List.countP_nil,
        Nat.add_zero] at hlive
      omega
    refine ⟨hmap rfl, ?_, fun d => ?_, hafter.trans_le (Nat.zero_le 1), fun u hu => ?_⟩
    · show postSettings data p.shared.settings = _
      rw [List.foldr_cons, ← h.settings]
    · have hd := hcount (answeredWith d)
      simp only [answeredWith, isAnswered, dataOf, Bool.false_and, Bool.true_and, Bool.false_eq_true,
        if_false, List.countP_nil, Nat.add_zero] at hd
      show (data :: p.shared.stored).count d = (p.threads.set i _ ++ []).countP (answeredWith d)
      rw [List.count_cons, h.stored d, hd]
      by_cases hdata : data = d <;> simp [hdata]
    · refine current_of_idle ?_
      simpa using List.countP_eq_zero.mp hafter u hu
  | answered data => cases hturn

/-- In every run in which no request takes its copy while another one has not stored its
own, requests that set different keys lose nothing: when both are answered, the settings
are those of one behind the other, with the changes of both. -/
theorem no_lost_update (s₀ : AppSettings) (a b : Option Text) (hd : Different a b)
    (p : Pool Store Request)
    (h : Reach updates (fun p i _ => copiesAlone p i = true) (start s₀ [a, b]) p)
    (hdone : ∀ t ∈ p.threads, isAnswered t = true) :
    (p.shared.settings = postSettings b (postSettings a s₀) ∨
        p.shared.settings = postSettings a (postSettings b s₀)) ∧
      Contains a s₀ p.shared.settings ∧ Contains b s₀ p.shared.settings := by
  have hinv : Serial s₀ [a, b] p :=
    h.invariant (Serial s₀ [a, b]) (serial_start s₀ [a, b])
      fun p i e q hp hg hs => serial_step hp hg hs
  have hperm : p.shared.stored.Perm [a, b] := by
    refine List.perm_iff_count.mpr fun d => ?_
    rw [hinv.stored d, ← hinv.datas, List.count_eq_countP, List.countP_map]
    refine List.countP_congr fun t ht => ?_
    simp [answeredWith, hdone t ht]
  have hserial := contains_of_serial hd s₀
  have hserial' := contains_of_serial (a := b) (b := a) ⟨fun f => (hd.flags f).symm, hd.shares.symm⟩ s₀
  have hsettings := hinv.settings
  rcases List.perm_pair.mp hperm with horder | horder
  · rw [horder] at hsettings
    rw [hsettings]
    exact ⟨.inr rfl, hserial'.2, hserial'.1⟩
  · rw [horder] at hsettings
    rw [hsettings]
    exact ⟨.inl rfl, hserial⟩

/-! Two requests: `{"fade_installed_packages":false}` and `{"all_sources_mode":true}`. -/

def fadeOff : Option Text := some (ascii "\x7b\"fade_installed_packages\":false\x7d")

def sourcesOn : Option Text := some (ascii "\x7b\"all_sources_mode\":true\x7d")

theorem fadeOff_different : Different fadeOff sourcesOn :=
  ⟨fun f => by cases f <;> decide, .inl (by decide)⟩

theorem no_lost_update_serial : ∃ p, Contains fadeOff .initial p ∧ Contains sourcesOn .initial p := by
  have hrun : ((updates.exec (fun p i _ => copiesAlone p i = true)
      (List.replicate 3 (0, ()) ++ List.replicate 3 (1, ())) (start .initial [fadeOff, sourcesOn])).map
        fun p => p.threads.all isAnswered) = some true := by decide
  obtain ⟨p, hp, hall⟩ := Option.map_eq_some_iff.mp hrun
  exact ⟨_, (no_lost_update .initial fadeOff sourcesOn fadeOff_different p (.of_exec hp)
    (List.all_eq_true.mp hall)).2⟩

/-- Both copy the settings before one of them stores its own. -/
theorem no_lost_update_fails : ¬∀ s₀ a b, Different a b → ∀ p,
    Reach updates (fun _ _ _ => True) (start s₀ [a, b]) p → (∀ t ∈ p.threads, isAnswered t = true) →
      (p.shared.settings = postSettings b (postSettings a s₀) ∨
          p.shared.settings = postSettings a (postSettings b s₀)) ∧
        Contains a s₀ p.shared.settings ∧ Contains b s₀ p.shared.settings := by
  intro hall
  have hrun : ((updates.exec (fun _ _ _ => True)
      [(0, ()), (1, ()), (0, ()), (1, ()), (0, ()), (1, ())]
      (start .initial [fadeOff, sourcesOn])).map fun p =>
        (p.threads.all isAnswered, p.shared.settings.fadeInstalledPackages)) = some (true, true) := by
    decide
  obtain ⟨p, hp, hboth⟩ := Option.map_eq_some_iff.mp hrun
  obtain ⟨hdone, hfade⟩ := Prod.mk.inj hboth
  have hcontains := (hall .initial fadeOff sourcesOn fadeOff_different p (.of_exec hp)
    (List.all_eq_true.mp hdone)).2.1
  have hoff : p.shared.settings.fadeInstalledPackages = false :=
    hcontains.flags .fade false (by decide)
  exact absurd (hfade.symm.trans hoff) (by decide)

end PkgManager.SettingsUpdates
