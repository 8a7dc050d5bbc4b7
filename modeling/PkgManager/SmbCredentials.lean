import PkgManager.ShareSlots

namespace PkgManager.SmbCredentials

open CText SmbShare Settings ShareSlots
open ScannerState (CString)
open PkgMetadata (Text)
open SettingsApi (sameShare keepPassword postSettings)

/-! The saved passwords that requests are filled in with. -/

/-- The rule of `smb_inherit_saved_credentials`: a blank share stands for any. -/
def sameAccount (s old : ShareConfig) : Bool :=
  s.id.text ≠ [] && old.id.text ≠ [] && s.id.text = old.id.text ||
    old.server.text ≠ [] && sameText s.server.text old.server.text &&
      sameText s.username.text old.username.text &&
      (s.share.text = [] || old.share.text = [] || sameText s.share.text old.share.text)

/-- A text, or the saved one where it is blank. -/
def fillBlank {n : Nat} (s saved : CString n) : CString n := if s.text = [] then saved else s

/-- The password and the workgroup of the first saved share that is the same. -/
def inheritFrom (same : ShareConfig → ShareConfig → Bool) (saved : List ShareConfig)
    (cfg : ShareConfig) : ShareConfig :=
  if cfg.password.text ≠ [] ∧ cfg.workgroup.text ≠ [] then cfg
  else
    match saved.find? fun o => same cfg (sanitizeConfig o) with
    | none => cfg
    | some o =>
      { cfg with
        password := fillBlank cfg.password o.password
        workgroup := fillBlank cfg.workgroup o.workgroup }

/-- `smb_inherit_saved_credentials`. -/
def smbInheritSavedCredentials : List ShareConfig → ShareConfig → ShareConfig := inheritFrom sameAccount

/-- The same in `POST /api/smb/test`, with the share in the rule. -/
def testInheritSaved : List ShareConfig → ShareConfig → ShareConfig := inheritFrom sameShare

/-- The configuration `POST /api/smb/test` connects with. -/
def smbTestRequest (saved : AppSettings) (parsed : ShareConfig) (data : Option Text) :
    Option ShareConfig :=
  (smbTestConfig parsed data).map fun cfg => testInheritSaved saved.smbShares (sanitizeConfig cfg)

/-- The configuration `POST /api/smb/shares` and the browse handler connect with. -/
def smbBrowseRequest (saved : AppSettings) (parsed : ShareConfig) (data : Text) : Option ShareConfig :=
  (smbCfgFromBody parsed data).map fun cfg =>
    smbInheritSavedCredentials saved.smbShares (sanitizeConfig cfg)

/-- The same server and user, ignoring case. -/
def SameUser (cfg o : ShareConfig) : Prop :=
  sameText cfg.server.text (sanitizeConfig o).server.text = true ∧
    sameText cfg.username.text (sanitizeConfig o).username.text = true

def SameId (cfg o : ShareConfig) : Prop := cfg.id.text ≠ [] ∧ cfg.id.text = o.id.text

/-- The password of a configuration is its own, or that of a saved share that is related to it. -/
def FilledFrom (related : ShareConfig → ShareConfig → Prop) (saved : List ShareConfig)
    (cfg filled : ShareConfig) : Prop :=
  filled.id = cfg.id ∧ filled.server = cfg.server ∧ filled.username = cfg.username ∧
    (filled.password = cfg.password ∨
      cfg.password.text = [] ∧ ∃ o ∈ saved, filled.password = o.password ∧ related filled o)

/-- Every configuration that a request leads to is filled in this way. -/
structure FillsIn (related : ShareConfig → ShareConfig → Prop) (saved : AppSettings) (data : Text) :
    Prop where
  test : ∀ parsed, ∀ filled ∈ smbTestRequest saved parsed (some data),
    ∃ cfg ∈ smbTestConfig parsed (some data),
      FilledFrom related saved.smbShares (sanitizeConfig cfg) filled
  browse : ∀ parsed, ∀ filled ∈ smbBrowseRequest saved parsed data,
    ∃ cfg ∈ smbCfgFromBody parsed data, FilledFrom related saved.smbShares (sanitizeConfig cfg) filled
  settings : ∀ filled ∈ (postSettings (some data) saved).smbShares, filled ∈ saved.smbShares ∨
    ∃ cfg ∈ parseSmbShares (upToNul data), FilledFrom related saved.smbShares (sanitizeConfig cfg) filled

theorem sanitize_id (o : ShareConfig) : (sanitizeConfig o).id = o.id := rfl

/-- Both rules ask for the id, or for server and user. -/
theorem sameAccount_related {s o : ShareConfig} (h : sameAccount s (sanitizeConfig o) = true) :
    SameId s o ∨ SameUser s o := by
  unfold sameAccount at h
  simp only [Bool.or_eq_true, Bool.and_eq_true, decide_eq_true_eq] at h
  rcases h with ⟨⟨hne, _⟩, heq⟩ | ⟨⟨⟨_, hserver⟩, huser⟩, _⟩
  · exact .inl ⟨hne, heq⟩
  · exact .inr ⟨hserver, huser⟩

theorem sameShare_related {s o : ShareConfig} (h : sameShare s (sanitizeConfig o) = true) :
    SameId s o ∨ SameUser s o := by
  unfold sameShare at h
  simp only [Bool.or_eq_true, Bool.and_eq_true, decide_eq_true_eq] at h
  rcases h with ⟨⟨hne, _⟩, heq⟩ | ⟨⟨⟨_, hserver⟩, _⟩, huser⟩
  · exact .inl ⟨hne, heq⟩
  · exact .inr ⟨hserver, huser⟩

theorem inheritFrom_filled {same : ShareConfig → ShareConfig → Bool}
    (hsame : ∀ {s o}, same s (sanitizeConfig o) = true → SameId s o ∨ SameUser s o)
    (saved : List ShareConfig) (cfg : ShareConfig) :
    FilledFrom (fun s o => SameId s o ∨ SameUser s o) saved cfg (inheritFrom same saved cfg) := by
  unfold inheritFrom
  by_cases hfull : cfg.password.text ≠ [] ∧ cfg.workgroup.text ≠ []
  · rw [if_pos hfull]
    exact ⟨rfl, rfl, rfl, .inl rfl⟩
  · rw [if_neg hfull]
    cases hfind : saved.find? fun o => same cfg (sanitizeConfig o) with
    | none => exact ⟨rfl, rfl, rfl, .inl rfl⟩
    | some o =>
      have hmatch : same cfg (sanitizeConfig o) = true :=
        List.find?_some (p := fun o => same cfg (sanitizeConfig o)) hfind
      have hrelated := hsame hmatch
      refine ⟨rfl, rfl, rfl, ?_⟩
      by_cases hblank : cfg.password.text = []
      · exact .inr ⟨hblank, o, List.mem_of_find?_eq_some hfind, if_pos hblank, hrelated⟩
      · exact .inl (if_neg hblank)

theorem keepPassword_filled (old : List ShareConfig) (s : ShareConfig) :
    FilledFrom (fun s o => SameId s o ∨ SameUser s o) old s (keepPassword old s) := by
  unfold keepPassword
  by_cases hown : s.password.text ≠ []
  · rw [if_pos hown]
    exact ⟨rfl, rfl, rfl, .inl rfl⟩
  · rw [if_neg hown]
    cases hfind : old.find? fun o => sameShare s (sanitizeConfig o) && o.password.text ≠ [] with
    | none => exact ⟨rfl, rfl, rfl, .inl rfl⟩
    | some o =>
      have hmatch := List.find?_some hfind
      rw [Bool.and_eq_true] at hmatch
      exact ⟨rfl, rfl, rfl, .inr ⟨not_not.mp hown, o, List.mem_of_find?_eq_some hfind, rfl,
        sameShare_related hmatch.1⟩⟩

/-- A saved password goes to the share of the same name, or to the same user on the same server. -/
theorem passwords_stay (saved : AppSettings) (data : Text) :
    FillsIn (fun s o => SameId s o ∨ SameUser s o) saved data := by
  refine ⟨?_, ?_, ?_⟩
  · intro parsed filled hfilled
    obtain ⟨cfg, hcfg, rfl⟩ := Option.map_eq_some_iff.mp hfilled
    exact ⟨cfg, hcfg, inheritFrom_filled sameShare_related _ _⟩
  · intro parsed filled hfilled
    obtain ⟨cfg, hcfg, rfl⟩ := Option.map_eq_some_iff.mp hfilled
    exact ⟨cfg, hcfg, inheritFrom_filled sameAccount_related _ _⟩
  · intro filled hfilled
    unfold postSettings at hfilled
    dsimp only at hfilled
    by_cases hlist : SettingsApi.listsShares (upToNul data) = true
    · rw [if_pos hlist] at hfilled
      obtain ⟨cfg, hcfg, rfl⟩ := List.mem_map.mp hfilled
      exact .inr ⟨cfg, hcfg, keepPassword_filled _ _⟩
    · rw [if_neg hlist] at hfilled
      exact .inl hfilled

/-- Settings with one share. -/
def savedShare : AppSettings :=
  { AppSettings.initial with
    smbShares := [{ blankConfig with
      id := .of 32 (ascii "smb0")
      server := .of 128 (ascii "nas")
      share := .of 128 (ascii "pkgs")
      username := .of 64 (ascii "u")
      password := .of 64 (ascii "secret") }]
    shares_le := by decide }

/-- Another server under the same id. -/
def otherServer : Text :=
  ascii "\x7b\"id\":\"smb0\",\"server\":\"other\",\"share\":\"pkgs\",\"username\":\"u\"\x7d"

/-- What the page asks to test. -/
def askedConfig : ShareConfig :=
  { blankConfig with
    id := .of 32 (ascii "smb0")
    server := .of 128 (ascii "other")
    share := .of 128 (ascii "pkgs")
    username := .of 64 (ascii "u") }

theorem passwords_stay_fails : ¬FillsIn SameUser savedShare otherServer := by
  intro h
  have hcfg : smbTestConfig blankConfig (some otherServer) = some askedConfig := by decide +kernel
  have hfilled : testInheritSaved savedShare.smbShares (sanitizeConfig askedConfig) ∈
      smbTestRequest savedShare blankConfig (some otherServer) := by
    unfold smbTestRequest
    rw [hcfg]
    rfl
  obtain ⟨cfg, hcfg', _, _, _, hown | ⟨_, o, ho, _, hserver, _⟩⟩ := h.test blankConfig _ hfilled
  · obtain rfl := Option.some.inj (hcfg.symm.trans hcfg')
    exact absurd hown (by decide)
  · obtain rfl := List.mem_singleton.mp ho
    exact absurd hserver (by decide)

end PkgManager.SmbCredentials
