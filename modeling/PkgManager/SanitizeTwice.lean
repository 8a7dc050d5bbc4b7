import PkgManager.SettingsKept
import PkgManager.ShareSlots

namespace PkgManager.SanitizeTwice

open CText ScannerState SmbShare
open PkgMetadata (Text)
open SettingsKept (sanitizedHost sanitize_eq of_sublist trim_sublist cleanServer_sublist splitPort_sublist)

/-! Sanitizing a configuration that is sanitized already. -/

/-- No byte at either end is one of these. -/
def Trimmed (p q : UInt8 → Bool) (t : Text) : Prop :=
  (∀ b ∈ t.head?, p b = false) ∧ ∀ b ∈ t.getLast?, q b = false

section Trimming

variable {p q : UInt8 → Bool} {t : Text}

theorem dropWhile_fixed_iff : t.dropWhile p = t ↔ ∀ b ∈ t.head?, p b = false := by
  cases t with
  | nil => exact iff_of_true rfl nofun
  | cons b t =>
    rw [List.head?_cons]
    simp only [Option.mem_def, Option.some.injEq, forall_eq']
    constructor
    · intro h
      by_contra hb
      have hb : p b = true := Bool.not_eq_false _ ▸ hb
      rw [List.dropWhile_cons_of_pos hb] at h
      have hlen := congrArg List.length h
      have hle := (List.dropWhile_sublist (l := t) p).length_le
      rw [List.length_cons] at hlen
      omega
    · intro hb
      exact List.dropWhile_cons_of_neg (by rw [hb]; decide)

theorem rdropWhile_fixed_iff : t.rdropWhile q = t ↔ ∀ b ∈ t.getLast?, q b = false := by
  rw [List.rdropWhile_eq_self_iff]
  constructor
  · intro h b hb
    have hne : t ≠ [] := by
      rintro rfl
      cases hb
    have hlast := h hne
    rw [List.getLast?_eq_some_getLast hne] at hb
    obtain rfl := Option.some.inj hb
    exact Bool.not_eq_true _ ▸ hlast
  · intro h hne
    have hb := h _ (List.getLast?_eq_some_getLast hne)
    rw [hb]
    decide

theorem trim_fixed_iff : (t.dropWhile p).rdropWhile q = t ↔ Trimmed p q t := by
  unfold Trimmed
  rw [← dropWhile_fixed_iff, ← rdropWhile_fixed_iff]
  constructor
  · intro h
    have hfront : t.dropWhile p = t := by
      refine (List.dropWhile_sublist p).antisymm ?_
      conv_lhs => rw [← h]
      exact (List.rdropWhile_prefix q _).sublist
    rw [hfront] at h
    exact ⟨hfront, h⟩
  · rintro ⟨hfront, hback⟩
    rw [hfront, hback]

theorem trimmed_trim : Trimmed p q ((t.dropWhile p).rdropWhile q) := by
  have hlast := rdropWhile_fixed_iff.mp (List.rdropWhile_idempotent q (t.dropWhile p))
  refine ⟨?_, hlast⟩
  intro b hb
  obtain ⟨rest, hrest⟩ := List.rdropWhile_prefix q (l := t.dropWhile p)
  have hhead : b ∈ (t.dropWhile p).head? := by
    rw [← hrest, List.head?_append, hb]
    rfl
  exact dropWhile_fixed_iff.mp (List.dropWhile_idempotent p t) b hhead

end Trimming

theorem isEdge_eq (b : UInt8) : isEdge b = (isSpaceByte b || isSlash b) := rfl

/-! The path. -/

/-- No two slashes follow each other. -/
def Single (a b : UInt8) : Prop := ¬(a = 47 ∧ b = 47)

/-- What a cleaned path is: it fits, has single slashes only, and none or a blank at its ends. -/
structure CleanPath (t : Text) : Prop where
  fits : t.length ≤ 255
  forward : 92 ∉ t
  single : t.IsChain Single
  trimmed : Trimmed isEdge isEdge t

theorem joinSlashes_room (room : Nat) (last : UInt8) (t : Text) :
    (joinSlashes room last t).length ≤ room := by
  fun_induction joinSlashes room last t with
  | case1 | case2 => exact Nat.zero_le _
  | case3 room last c s ch hboth ih => exact ih
  | case4 room last c s ch hnot ih => exact Nat.succ_le_succ ih

theorem joinSlashes_single (room : Nat) (last : UInt8) (t : Text) :
    (last :: joinSlashes room last t).IsChain Single ∧ 92 ∉ joinSlashes room last t := by
  fun_induction joinSlashes room last t with
  | case1 | case2 => exact ⟨List.IsChain.singleton _, List.not_mem_nil⟩
  | case3 room last c s ch hboth ih => exact ih
  | case4 room last c s ch hnot ih =>
    refine ⟨List.IsChain.cons_cons (fun h => hnot ⟨h.2, h.1⟩) ih.1, ?_⟩
    intro hmem
    rcases List.mem_cons.mp hmem with h92 | hmem
    · have hch : ch ≠ 92 := by
        by_cases hc : c = 92
        · rw [show ch = 47 from if_pos hc]
          decide
        · rw [show ch = c from if_neg hc]
          exact hc
      exact hch h92.symm
    · exact ih.2 hmem

/-- A text that is joined already stays as it is. -/
theorem joinSlashes_fixed {room : Nat} {last : UInt8} {t : Text} (hfits : t.length ≤ room)
    (h92 : 92 ∉ t) (hsingle : (last :: t).IsChain Single) : joinSlashes room last t = t := by
  induction t generalizing room last with
  | nil =>
    cases room with
    | zero => rfl
    | succ room => rfl
  | cons c t ih =>
    cases room with
    | zero => cases hfits
    | succ room =>
      rw [List.mem_cons, not_or] at h92
      have hc : ¬c = 92 := fun h => h92.1 h.symm
      have hnot : ¬(c = 47 ∧ last = 47) := fun h => (List.isChain_cons_cons.mp hsingle).1 ⟨h.2, h.1⟩
      rw [joinSlashes]
      simp only [if_neg hc, if_neg hnot]
      rw [ih (Nat.le_of_succ_le_succ hfits) h92.2 (List.isChain_cons_cons.mp hsingle).2]

theorem cleanPath_fixed {t : Text} (h : CleanPath t) : cleanPath t = t := by
  unfold cleanPath
  have hstart : (0 :: t).IsChain Single := by
    cases t with
    | nil => exact List.IsChain.singleton _
    | cons c t => exact List.IsChain.cons_cons (fun h => absurd h.1 (by decide)) h.single
  rw [dropWhile_fixed_iff.mpr h.trimmed.1, joinSlashes_fixed h.fits h.forward hstart,
    rdropWhile_fixed_iff.mpr h.trimmed.2]

/-- The first byte of a path is no slash, and stays. -/
theorem joinSlashes_head (room : Nat) {t : Text} (h : ∀ b ∈ t.head?, isEdge b = false) :
    ∀ b ∈ (joinSlashes room 0 t).head?, isEdge b = false := by
  intro b hb
  cases t with
  | nil =>
    cases room with
    | zero => cases hb
    | succ room => cases hb
  | cons c t =>
    cases room with
    | zero => cases hb
    | succ room =>
      have hc : isEdge c = false := h c rfl
      have h92 : ¬c = 92 := by
        rintro rfl
        cases hc
      have hnot : ¬(c = 47 ∧ (0 : UInt8) = 47) := fun h => absurd h.2 (by decide)
      rw [joinSlashes] at hb
      simp only [if_neg h92, if_neg hnot, List.head?_cons, Option.mem_def, Option.some.injEq] at hb
      rw [← hb]
      exact hc

theorem cleanPath_clean (t : Text) : CleanPath (cleanPath t) := by
  have hroom := joinSlashes_room 255 0 (t.dropWhile isEdge)
  obtain ⟨hsingle, h92⟩ := joinSlashes_single 255 0 (t.dropWhile isEdge)
  have hhead := joinSlashes_head 255 (dropWhile_fixed_iff.mp (List.dropWhile_idempotent isEdge t))
  unfold cleanPath
  generalize joinSlashes 255 0 (t.dropWhile isEdge) = joined at *
  have hlast := rdropWhile_fixed_iff.mp (List.rdropWhile_idempotent isEdge joined)
  obtain ⟨rest, hrest⟩ := List.rdropWhile_prefix isEdge (l := joined)
  generalize joined.rdropWhile isEdge = kept at *
  subst hrest
  refine ⟨?_, ?_, ?_, ?_, hlast⟩
  · rw [List.length_append] at hroom
    omega
  · exact fun h => h92 (List.mem_append_left rest h)
  · exact hsingle.tail.left_of_append
  · intro b hb
    refine hhead b ?_
    rw [List.head?_append, hb]
    rfl

/-- The path of the result: two clean paths and a slash, cut where they are too long. -/
theorem joinPaths_clean_iff {sub path : Text} (hsub : CleanPath sub) (hpath : CleanPath path) :
    CleanPath (joinPaths sub path) ↔ ∀ b ∈ (joinPaths sub path).getLast?, isEdge b = false := by
  refine ⟨fun h => h.trimmed.2, fun h => ?_⟩
  unfold joinPaths at h ⊢
  by_cases hnil : sub = []
  · rw [if_pos hnil]
    exact hpath
  by_cases hnil' : path = []
  · rw [if_neg hnil, if_pos hnil']
    exact hsub
  rw [if_neg hnil, if_neg hnil'] at h ⊢
  have hsep : ∀ b, isEdge b = false → b ≠ 47 := by
    rintro b hb rfl
    cases hb
  have hwhole : (sub ++ [47] ++ path).IsChain Single := by
    refine List.IsChain.append (List.IsChain.append hsub.single (List.IsChain.singleton _) ?_) hpath.single ?_
    · intro x hx y _ hxy
      exact hsep x (hsub.trimmed.2 x hx) hxy.1
    · intro x _ y hy hxy
      exact hsep y (hpath.trimmed.1 y hy) hxy.2
  have h92 : 92 ∉ sub ++ [47] ++ path := by
    intro hmem
    rcases List.mem_append.mp hmem with hmem | hmem
    · rcases List.mem_append.mp hmem with hmem | hmem
      · exact hsub.forward hmem
      · exact absurd (List.mem_singleton.mp hmem) (by decide)
    · exact hpath.forward hmem
  obtain ⟨c, rest, rfl⟩ := List.exists_cons_of_ne_nil hnil
  refine ⟨List.length_take_le 255 _, fun hmem => h92 (List.mem_of_mem_take hmem), ?_, ?_, h⟩
  · rw [← List.take_append_drop 255 (c :: rest ++ [47] ++ path)] at hwhole
    exact hwhole.left_of_append
  · intro b hb
    exact hsub.trimmed.1 b hb

/-! The host. -/

/-- A host with a port behind its colon, as it is taken for one. -/
def HasPort (host : Text) : Prop :=
  ∃ colon, portColon host = some colon ∧ 0 < colon ∧ (host.drop (colon + 1)).all isDigit = true ∧
    host.drop (colon + 1) ≠ []

theorem splitPort_fixed_iff (host : Text) (port : Int32) :
    (splitPort host port).1 = host ↔ ¬HasPort host := by
  unfold splitPort HasPort
  cases portColon host with
  | none => exact iff_of_true rfl (by simp)
  | some colon =>
    dsimp only
    by_cases h : 0 < colon ∧ (host.drop (colon + 1)).all isDigit = true ∧ host.drop (colon + 1) ≠ []
    · rw [if_pos h]
      refine iff_of_false ?_ (not_not_intro ⟨colon, rfl, h⟩)
      intro heq
      have hlen := congrArg List.length heq
      have hrest : (host.drop (colon + 1)).length ≠ 0 := fun h0 => h.2.2 (List.length_eq_zero_iff.mp h0)
      rw [List.length_take] at hlen
      rw [List.length_drop] at hrest
      omega
    · rw [if_neg h]
      refine iff_of_true rfl ?_
      rintro ⟨c, hc, hport⟩
      obtain rfl := Option.some.inj hc
      exact h hport

theorem splitPort_port {host : Text} (h : ¬HasPort host) (port : Int32) : (splitPort host port).2 = port := by
  unfold splitPort HasPort at *
  cases hcolon : portColon host with
  | none => rfl
  | some colon =>
    dsimp only
    exact congrArg Prod.snd (if_neg fun hport => h ⟨colon, hcolon, hport⟩)

section Host

variable {host : Text}

theorem cleanServer_fixed_iff (h : ∀ b ∈ host, isSlash b = false) :
    cleanServer host = host ↔ Trimmed isSpaceByte isSpaceByte host := by
  have hedge : (∀ b ∈ host.getLast?, isEdge b = false) ↔ ∀ b ∈ host.getLast?, isSpaceByte b = false := by
    refine forall₂_congr fun b hb => ?_
    rw [isEdge_eq, h b (List.mem_of_mem_getLast? hb), Bool.or_false]
  have hclean : cleanServer host = (host.dropWhile isSpaceByte).rdropWhile isEdge := by
    have hfront : ∀ b ∈ host.dropWhile isSpaceByte, isSlash b = false :=
      fun b hb => h b ((List.dropWhile_sublist isSpaceByte).subset hb)
    unfold cleanServer
    generalize host.dropWhile isSpaceByte = front at hfront
    have hscheme : sameText (front.take 6) (ascii "smb://") = false := by
      apply decide_eq_false
      intro hsame
      have hslash : (47 : UInt8) ∈ (ascii "smb://").map toLower := by decide
      rw [← hsame] at hslash
      obtain ⟨b, hb, hlower⟩ := List.mem_map.mp hslash
      have hnot := hfront b (List.mem_of_mem_take hb)
      rw [eq_of_toLower (by decide) hlower] at hnot
      exact absurd hnot (by decide)
    have hnone : front.dropWhile isSlash = front := by
      apply dropWhile_fixed_iff.mpr
      exact fun b hb => hfront b (List.mem_of_mem_head? hb)
    simp only [hscheme, Bool.false_eq_true, if_false, hnone]
  rw [hclean, trim_fixed_iff]
  unfold Trimmed
  rw [hedge]

theorem extraParts_host (h : ∀ b ∈ host, isSlash b = false) : extraParts host = ([], []) := by
  have hrest : host.dropWhile (! isSlash ·) = [] := by
    apply List.dropWhile_eq_nil_iff.mpr
    intro b hb
    rw [h b hb]
    rfl
  unfold extraParts
  rw [hrest]
  rfl

theorem takeWhile_host (h : ∀ b ∈ host, isSlash b = false) : host.takeWhile (! isSlash ·) = host := by
  apply List.takeWhile_eq_self_iff.mpr
  intro b hb
  rw [h b hb]
  rfl

end Host

/-- The name of the host in a server: what stands in front of its first slash, without the port. -/
def hostName (server : Text) : Text :=
  (splitPort ((cleanServer server).takeWhile (! isSlash ·)) 0).1

/-- The path that stands in a server, and the one of the share. -/
def bothPaths (c : ShareConfig) : Text × Text :=
  (cleanPath (extraParts (cleanServer c.server.text)).2, cleanPath c.path.text)

/-- No blank is around the name of the host and no other port behind it, and where both
paths are too long together they are not cut behind a blank or a slash. -/
structure Settled (c : ShareConfig) : Prop where
  trimmed : Trimmed isSpaceByte isSpaceByte (hostName c.server.text)
  noPort : ¬HasPort (hostName c.server.text)
  path : (bothPaths c).1 ≠ [] → (bothPaths c).2 ≠ [] →
    ∀ b ∈ ((bothPaths c).1 ++ [47] ++ (bothPaths c).2)[254]?, isEdge b = false

theorem sanitizedHost_eq (c : ShareConfig) : (sanitizedHost c).1 = hostName c.server.text := by
  unfold sanitizedHost hostName splitPort
  cases portColon ((cleanServer c.server.text).takeWhile (! isSlash ·)) with
  | none => rfl
  | some colon =>
    dsimp only
    split <;> rfl

theorem slash_not_mem_hostName (server : Text) : ∀ b ∈ hostName server, isSlash b = false := by
  intro b hb
  have hmem := (splitPort_sublist _ _).subset hb
  have hnot := List.mem_takeWhile_imp hmem
  exact Bool.not_eq_true' _ ▸ hnot

/-- What is written of both paths is clean but where it is cut behind an edge. -/
theorem bothPaths_clean_iff (c : ShareConfig) :
    CleanPath (joinPaths (bothPaths c).1 (bothPaths c).2) ↔ ((bothPaths c).1 ≠ [] → (bothPaths c).2 ≠ [] →
      ∀ b ∈ ((bothPaths c).1 ++ [47] ++ (bothPaths c).2)[254]?, isEdge b = false) := by
  have hsub : CleanPath (bothPaths c).1 := cleanPath_clean _
  have hpath : CleanPath (bothPaths c).2 := cleanPath_clean _
  rw [joinPaths_clean_iff hsub hpath]
  generalize (bothPaths c).1 = sub at *
  generalize (bothPaths c).2 = path at *
  unfold joinPaths
  by_cases hnil : sub = []
  · rw [if_pos hnil]
    exact iff_of_true hpath.trimmed.2 fun h => absurd hnil h
  by_cases hnil' : path = []
  · rw [if_neg hnil, if_pos hnil']
    exact iff_of_true hsub.trimmed.2 fun _ h => absurd hnil' h
  rw [if_neg hnil, if_neg hnil']
  have hlast : (sub ++ [47] ++ path).getLast? = path.getLast? := List.getLast?_append_of_ne_nil _ hnil'
  by_cases hfits : (sub ++ [47] ++ path).length ≤ 255
  · rw [List.take_of_length_le hfits, hlast]
    refine iff_of_true hpath.trimmed.2 fun _ _ b hb => ?_
    have hwhole : (sub ++ [47] ++ path).length = 255 := by
      have hlt := (List.getElem?_eq_some_iff.mp hb).1
      omega
    have hat : (sub ++ [47] ++ path).getLast? = some b := by
      rw [List.getLast?_eq_getElem?, hwhole]
      exact hb
    rw [hlast] at hat
    exact hpath.trimmed.2 b hat
  · have hcut : ((sub ++ [47] ++ path).take 255).getLast? = (sub ++ [47] ++ path)[254]? := by
      rw [List.getLast?_eq_getElem?, List.length_take, min_eq_left (by omega),
        List.getElem?_take_of_lt (by decide)]
    rw [hcut]
    exact ⟨fun h _ _ => h, fun h => h hnil hnil'⟩

/-- A text out of a clean one of the record fits where it stood. -/
theorem of_kept {n : Nat} [NeZero n] {s : CString n} {t : Text} (h : t.Sublist s.text) :
    (CString.of n t).text = t :=
  CString.text_of_fits (Nat.lt_of_le_of_lt h.length_le s.fits) fun h0 => s.noNul (h.subset h0)

theorem hostName_sublist (server : Text) : (hostName server).Sublist server :=
  (splitPort_sublist _ _).trans ((List.takeWhile_sublist _).trans (cleanServer_sublist server))

theorem sanitized_server (c : ShareConfig) : (sanitizeConfig c).server.text = hostName c.server.text := by
  rw [sanitize_eq]
  dsimp only
  rw [sanitizedHost_eq]
  exact of_kept (hostName_sublist c.server.text)

/-- A name without a slash is read as a host alone. -/
theorem extraParts_name (server : Text) : extraParts (cleanServer (hostName server)) = ([], []) := by
  apply extraParts_host
  intro b hb
  exact slash_not_mem_hostName server b ((cleanServer_sublist _).subset hb)

theorem hostName_fixed_iff (server : Text) : hostName (hostName server) = hostName server ↔
    Trimmed isSpaceByte isSpaceByte (hostName server) ∧ ¬HasPort (hostName server) := by
  have hslash := slash_not_mem_hostName server
  generalize hostName server = host at hslash
  have hclean := cleanServer_sublist host
  have htake : (cleanServer host).takeWhile (! isSlash ·) = cleanServer host :=
    takeWhile_host fun b hb => hslash b (hclean.subset hb)
  unfold hostName
  rw [htake, ← cleanServer_fixed_iff hslash, ← splitPort_fixed_iff host 0]
  constructor
  · intro h
    have hsub := splitPort_sublist (cleanServer host) 0
    rw [h] at hsub
    have hsame := hclean.antisymm hsub
    rw [hsame] at h
    exact ⟨hsame, h⟩
  · rintro ⟨hsame, hport⟩
    rw [hsame, hport]

theorem zero_not_mem_joinPaths {sub path : Text} (hsub : 0 ∉ sub) (hpath : 0 ∉ path) :
    0 ∉ joinPaths sub path := by
  unfold joinPaths
  split_ifs
  · exact hpath
  · exact hsub
  · intro h0
    rcases List.mem_append.mp (List.mem_of_mem_take h0) with h0 | h0
    · rcases List.mem_append.mp h0 with h0 | h0
      · exact hsub h0
      · exact absurd (List.mem_singleton.mp h0) (by decide)
    · exact hpath h0

theorem zero_not_mem_cleanPath {t : Text} (h : 0 ∉ t) : 0 ∉ cleanPath t := by
  intro h0
  rcases (SettingsKept.cleanPath_spec t).2 0 h0 with h0 | h0
  · exact h h0
  · exact absurd h0 (by decide)

theorem extraParts_sublist (srv : Text) : (extraParts srv).1.Sublist srv ∧ (extraParts srv).2.Sublist srv := by
  have hextra : (((srv.dropWhile (! isSlash ·)).drop 1).dropWhile isSlash).Sublist srv :=
    (List.dropWhile_sublist _).trans ((List.drop_sublist _ _).trans (List.dropWhile_sublist _))
  refine ⟨(List.takeWhile_sublist _).trans hextra, ?_⟩
  exact (List.dropWhile_sublist _).trans ((List.drop_sublist _ _).trans ((List.dropWhile_sublist _).trans hextra))

theorem length_joinPaths {sub path : Text} (hsub : CleanPath sub) (hpath : CleanPath path) :
    (joinPaths sub path).length ≤ 255 := by
  unfold joinPaths
  split_ifs
  · exact hpath.fits
  · exact hsub.fits
  · exact List.length_take_le 255 _

theorem sanitized_path (c : ShareConfig) :
    (sanitizeConfig c).path.text = joinPaths (bothPaths c).1 (bothPaths c).2 := by
  have hlen : (joinPaths (bothPaths c).1 (bothPaths c).2).length ≤ 255 :=
    length_joinPaths (cleanPath_clean _) (cleanPath_clean _)
  have h0 : 0 ∉ joinPaths (bothPaths c).1 (bothPaths c).2 := by
    apply zero_not_mem_joinPaths
    · apply zero_not_mem_cleanPath
      have hsub := (extraParts_sublist (cleanServer c.server.text)).2.trans (cleanServer_sublist _)
      exact fun h0 => c.server.noNul (hsub.subset h0)
    · exact zero_not_mem_cleanPath c.path.noNul
  have hpath : (sanitizeConfig c).path = CString.of 256 (joinPaths (bothPaths c).1 (bothPaths c).2) := by
    rw [sanitize_eq]
    dsimp only [bothPaths]
  rw [hpath, CString.text_of_fits (by omega) h0]

/-- Trimming a text twice, with what is put for an empty one. -/
theorem trim_twice (p q : UInt8 → Bool) (t : Text) :
    (((t.dropWhile p).rdropWhile q).dropWhile p).rdropWhile q = (t.dropWhile p).rdropWhile q :=
  trim_fixed_iff.mpr trimmed_trim

/-- What stands behind the host of a sanitized server is nothing. -/
theorem extraParts_sanitized (c : ShareConfig) :
    extraParts (cleanServer (sanitizeConfig c).server.text) = ([], []) := by
  rw [sanitized_server]
  exact extraParts_name c.server.text

theorem share_twice (c : ShareConfig) : (sanitizeConfig (sanitizeConfig c)).share = (sanitizeConfig c).share := by
  have hshare : (sanitizeConfig c).share.text = ((if c.share.text = [] then
      (extraParts (cleanServer c.server.text)).1 else c.share.text).dropWhile isEdge).rdropWhile isEdge := by
    rw [sanitize_eq]
    dsimp only
    by_cases hnil : c.share.text = []
    · rw [if_pos hnil]
      exact of_kept ((trim_sublist _ _ _).trans ((extraParts_sublist _).1.trans (cleanServer_sublist _)))
    · rw [if_neg hnil]
      exact of_kept (trim_sublist _ _ _)
  have hown : (if (sanitizeConfig c).share.text = [] then
      (extraParts (cleanServer (sanitizeConfig c).server.text)).1 else (sanitizeConfig c).share.text) =
      (sanitizeConfig c).share.text := by
    rw [extraParts_sanitized]
    split
    · rename_i hnil
      exact hnil.symm
    · rfl
  rw [sanitize_eq (sanitizeConfig c)]
  dsimp only
  rw [hown, hshare, trim_twice, ← hshare, CString.of_text]

theorem username_twice (c : ShareConfig) :
    (sanitizeConfig (sanitizeConfig c)).username = (sanitizeConfig c).username := by
  have hname : (sanitizeConfig c).username.text = cleanName c.username.text := by
    rw [sanitize_eq]
    exact of_kept (trim_sublist _ _ _)
  rw [sanitize_eq (sanitizeConfig c)]
  dsimp only
  rw [hname, cleanName, cleanName, trim_twice, ← cleanName, ← hname, CString.of_text]

theorem workgroup_twice (c : ShareConfig) :
    (sanitizeConfig (sanitizeConfig c)).workgroup = (sanitizeConfig c).workgroup := by
  have hdefault : (CString.of 64 (ascii "WORKGROUP")).text = ascii "WORKGROUP" := by decide
  have hname : (sanitizeConfig c).workgroup.text =
      if cleanName c.workgroup.text = [] then ascii "WORKGROUP" else cleanName c.workgroup.text := by
    rw [sanitize_eq]
    dsimp only
    by_cases hnil : cleanName c.workgroup.text = []
    · rw [if_pos hnil, hdefault]
    · rw [if_neg hnil]
      exact of_kept (trim_sublist _ _ _)
  have hclean : cleanName (sanitizeConfig c).workgroup.text = (sanitizeConfig c).workgroup.text := by
    rw [hname]
    by_cases hnil : cleanName c.workgroup.text = []
    · rw [if_pos hnil]
      decide
    · rw [if_neg hnil]
      exact trim_twice _ _ _
  have hne : (sanitizeConfig c).workgroup.text ≠ [] := by
    rw [hname]
    split
    · decide
    · assumption
  rw [sanitize_eq (sanitizeConfig c)]
  dsimp only
  rw [hclean, if_neg hne, CString.of_text]

theorem server_twice_iff (c : ShareConfig) :
    (sanitizeConfig (sanitizeConfig c)).server = (sanitizeConfig c).server ↔
      Trimmed isSpaceByte isSpaceByte (hostName c.server.text) ∧ ¬HasPort (hostName c.server.text) := by
  rw [← hostName_fixed_iff]
  constructor
  · intro h
    have htext := congrArg CString.text h
    rw [sanitized_server, sanitized_server] at htext
    exact htext
  · intro h
    apply CString.ext_text
    rw [sanitized_server, sanitized_server, h]

theorem path_twice_iff (c : ShareConfig) :
    (sanitizeConfig (sanitizeConfig c)).path = (sanitizeConfig c).path ↔ ((bothPaths c).1 ≠ [] →
      (bothPaths c).2 ≠ [] →
        ∀ b ∈ ((bothPaths c).1 ++ [47] ++ (bothPaths c).2)[254]?, isEdge b = false) := by
  have hfirst : (bothPaths (sanitizeConfig c)).1 = [] := by
    unfold bothPaths
    rw [extraParts_sanitized]
    rfl
  have hsecond : (sanitizeConfig (sanitizeConfig c)).path.text = cleanPath (sanitizeConfig c).path.text := by
    have hown : (bothPaths (sanitizeConfig c)).2 = cleanPath (sanitizeConfig c).path.text := by
      rw [bothPaths]
    rw [sanitized_path, joinPaths, if_pos hfirst, hown]
  rw [← bothPaths_clean_iff, ← sanitized_path]
  constructor
  · intro h
    rw [← h, hsecond]
    exact cleanPath_clean _
  · intro h
    apply CString.ext_text
    rw [hsecond, cleanPath_fixed h]

/-- A host that stays as it is holds no other port. -/
theorem port_twice {c : ShareConfig} (h : Settled c) :
    (sanitizeConfig (sanitizeConfig c)).port = (sanitizeConfig c).port := by
  have hslash := slash_not_mem_hostName c.server.text
  have hpos := Int32.lt_iff_toInt_lt.mp (SettingsKept.sanitize_port c)
  have hsame : (cleanServer (sanitizeConfig c).server.text).takeWhile (! isSlash ·) = hostName c.server.text := by
    rw [sanitized_server, (cleanServer_fixed_iff hslash).mpr h.trimmed, takeWhile_host hslash]
  have hport : (sanitizedHost (sanitizeConfig c)).2 = (sanitizeConfig c).port := by
    unfold sanitizedHost
    rw [hsame, splitPort_port h.noPort]
  rw [sanitize_eq (sanitizeConfig c)]
  dsimp only
  rw [hport]
  refine if_neg fun hle => ?_
  exact Int.not_le.mpr hpos (Int32.le_iff_toInt_le.mp hle)

theorem sanitize_idempotent_iff (c : ShareConfig) :
    sanitizeConfig (sanitizeConfig c) = sanitizeConfig c ↔ Settled c := by
  constructor
  · intro h
    obtain ⟨htrimmed, hport⟩ := (server_twice_iff c).mp (congrArg ShareConfig.server h)
    exact ⟨htrimmed, hport, (path_twice_iff c).mp (congrArg ShareConfig.path h)⟩
  · intro h
    have hserver := (server_twice_iff c).mpr ⟨h.trimmed, h.noPort⟩
    have hpath := (path_twice_iff c).mpr h.path
    have hport := port_twice h
    have hshare := share_twice c
    have husername := username_twice c
    have hworkgroup := workgroup_twice c
    generalize sanitizeConfig c = once at *
    rw [sanitize_eq once] at *
    dsimp only at hserver hpath hport hshare husername hworkgroup
    rw [hserver, hpath, hport, hshare, husername, hworkgroup]

theorem sanitize_idempotent_fails :
    ¬∀ c, sanitizeConfig (sanitizeConfig c) = sanitizeConfig c := by
  intro h
  have hhost := congrArg ShareConfig.server
    (h { ShareSlots.blankConfig with server := CString.of 128 (ascii "nas /media") })
  exact absurd hhost (by decide)

end PkgManager.SanitizeTwice
