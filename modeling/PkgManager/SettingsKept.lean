import PkgManager.SettingsAnswer

namespace PkgManager.SettingsKept

open CText ScannerState SmbShare Settings SettingsApi SettingsAnswer ManifestScan
open EscapedText SettingsFields
open JsonText (Json IsJson Writes)
open PkgMetadata (Text quoted)
open Manifest (flagWord)
open SettingsRoundTrip (accept)

/-! What sanitizing leaves of a text. -/

theorem of_sublist {n : Nat} [NeZero n] (t : Text) : (CString.of n t).text.Sublist t :=
  (List.take_sublist _ _).trans (List.takeWhile_sublist _)

theorem trim_sublist (p q : UInt8 → Bool) (t : Text) : ((t.dropWhile p).rdropWhile q).Sublist t :=
  (List.rdropWhile_prefix q _).sublist.trans (List.dropWhile_sublist p)

theorem cleanServer_sublist (t : Text) : (cleanServer t).Sublist t := by
  unfold cleanServer
  refine (trim_sublist _ _ _).trans ?_
  split
  · exact (List.drop_sublist _ _).trans (List.dropWhile_sublist _)
  · exact List.dropWhile_sublist _

theorem splitPort_sublist (host : Text) (port : Int32) : (splitPort host port).1.Sublist host := by
  unfold splitPort
  split
  · exact List.Sublist.refl _
  · dsimp only
    split
    · exact List.take_sublist _ _
    · exact List.Sublist.refl _

/-- Slashes are joined, and backslashes become slashes. -/
theorem joinSlashes_spec (room : Nat) (last : UInt8) (t : Text) :
    (joinSlashes room last t).length ≤ t.length ∧ ∀ b ∈ joinSlashes room last t, b ∈ t ∨ b = 47 := by
  fun_induction joinSlashes room last t with
  | case1 | case2 => exact ⟨Nat.zero_le _, nofun⟩
  | case3 room last c s ch hboth ih =>
    refine ⟨ih.1.trans (Nat.le_succ _), fun b hb => ?_⟩
    exact (ih.2 b hb).imp_left (List.mem_cons_of_mem c)
  | case4 room last c s ch hnot ih =>
    refine ⟨Nat.succ_le_succ ih.1, fun b hb => ?_⟩
    rcases List.mem_cons.mp hb with rfl | hb
    · by_cases h92 : c = 92
      · exact .inr (if_pos h92)
      · exact .inl ((if_neg h92 : ch = c) ▸ List.mem_cons_self)
    · exact (ih.2 b hb).imp_left (List.mem_cons_of_mem c)

theorem cleanPath_spec (t : Text) :
    (cleanPath t).length ≤ t.length ∧ ∀ b ∈ cleanPath t, b ∈ t ∨ b = 47 := by
  have hend := (List.rdropWhile_prefix isEdge (joinSlashes 255 0 (t.dropWhile isEdge))).sublist
  have hstart := List.dropWhile_sublist (l := t) isEdge
  obtain ⟨hlen, hmem⟩ := joinSlashes_spec 255 0 (t.dropWhile isEdge)
  refine ⟨hend.length_le.trans (hlen.trans hstart.length_le), fun b hb => ?_⟩
  exact (hmem b (hend.subset hb)).imp_left fun h => hstart.subset h

/-- The host of a share and its port. -/
def sanitizedHost (c : ShareConfig) : Text × Int32 :=
  splitPort ((cleanServer c.server.text).takeWhile (! isSlash ·)) c.port

theorem sanitize_eq (c : ShareConfig) : sanitizeConfig c = { c with
    server := CString.of 128 (sanitizedHost c).1
    port := if (sanitizedHost c).2 ≤ 0 then smbDefaultPort else (sanitizedHost c).2
    share := CString.of 128 (((if c.share.text = [] then (extraParts (cleanServer c.server.text)).1
      else c.share.text).dropWhile isEdge).rdropWhile isEdge)
    path := CString.of 256 (joinPaths (cleanPath (extraParts (cleanServer c.server.text)).2)
      (cleanPath c.path.text))
    username := CString.of 64 (cleanName c.username.text)
    workgroup := CString.of 64 (if cleanName c.workgroup.text = [] then ascii "WORKGROUP"
      else cleanName c.workgroup.text) } := by
  unfold sanitizeConfig sanitizedHost
  rfl

theorem sanitize_password (c : ShareConfig) (p : CString 64) :
    sanitizeConfig { c with password := p } = { sanitizeConfig c with password := p } := by
  rw [sanitize_eq, sanitize_eq c]
  rfl

/-- What is stored of a share again where it is read back: the answer holds it, it has a
name, a server and a share on it, and it is sanitized. -/
structure Shown (s : ShareConfig) : Prop where
  held : Held s
  named : s.id.text ≠ []
  placed : s.server.text ≠ [] ∧ s.share.text ≠ []
  clean : sanitizeConfig s = s

section Sanitized

variable {r s : ShareConfig}

/-- A server that is kept is a host alone, and was read whole. -/
theorem server_whole (hr : r.server = reread 256 s.server) (h : (sanitizeConfig r).server = s.server) :
    Whole 256 s.server.text ∧ s.server.text.any isSlash = false ∧
      extraParts (cleanServer r.server.text) = ([], []) := by
  have hhost : s.server.text.Sublist
      ((cleanServer r.server.text).takeWhile (! isSlash ·)) := by
    rw [← h, sanitize_eq]
    exact (of_sublist _).trans (splitPort_sublist _ _)
  have hfront := List.takeWhile_sublist (l := cleanServer r.server.text) (! isSlash ·)
  have hclean := cleanServer_sublist r.server.text
  have hwhole : Whole 256 s.server.text := by
    refine whole_of_sublist ?_
    rw [← hr]
    exact (hhost.trans hfront).trans hclean
  rw [hr, reread_whole hwhole] at hhost hfront hclean ⊢
  have hsame : cleanServer s.server.text = s.server.text := hclean.antisymm (hhost.trans hfront)
  rw [hsame] at hhost hfront ⊢
  have hall : ∀ b ∈ s.server.text, (! isSlash b) = true :=
    List.takeWhile_eq_self_iff.mp (hfront.antisymm hhost)
  have hrest : s.server.text.dropWhile (! isSlash ·) = [] := List.dropWhile_eq_nil_iff.mpr hall
  refine ⟨hwhole, List.any_eq_false.mpr fun b hb => by simpa using hall b hb, ?_⟩
  unfold extraParts
  rw [hrest]
  rfl

theorem share_whole (hr : r.share = reread 256 s.share)
    (hextra : extraParts (cleanServer r.server.text) = ([], []))
    (h : (sanitizeConfig r).share = s.share) : Whole 256 s.share.text := by
  have hshare : (if r.share.text = [] then (extraParts (cleanServer r.server.text)).1 else
      r.share.text) = r.share.text := by
    rw [hextra]
    split
    · rename_i hnil
      exact hnil.symm
    · rfl
  rw [sanitize_eq] at h
  dsimp only at h
  rw [hshare] at h
  refine whole_of_sublist ?_
  rw [← hr, ← h]
  exact (of_sublist _).trans (trim_sublist _ _ _)

theorem path_whole (hr : r.path = reread 512 s.path)
    (hextra : extraParts (cleanServer r.server.text) = ([], []))
    (h : (sanitizeConfig r).path = s.path) : Whole 512 s.path.text := by
  have hempty : cleanPath [] = [] := rfl
  rw [sanitize_eq] at h
  dsimp only at h
  rw [hextra, hempty, joinPaths, if_pos rfl] at h
  have hsub : s.path.text.Sublist (cleanPath r.path.text) := by
    rw [← h]
    exact of_sublist _
  obtain ⟨hlen, hmem⟩ := cleanPath_spec r.path.text
  rw [hr] at hlen hmem hsub
  refine whole_of_le (fun b hb => ?_) (hsub.length_le.trans hlen)
  rcases hmem b (hsub.subset hb) with hb | rfl
  · exact reread_printable 512 s.path b hb
  · decide

theorem username_whole (hr : r.username = reread 128 s.username)
    (h : (sanitizeConfig r).username = s.username) : Whole 128 s.username.text := by
  rw [sanitize_eq] at h
  refine whole_of_sublist ?_
  rw [← hr, ← h]
  exact (of_sublist _).trans (trim_sublist _ _ _)

theorem workgroup_whole (hr : r.workgroup = reread 128 s.workgroup)
    (h : (sanitizeConfig r).workgroup = s.workgroup) : Whole 128 s.workgroup.text := by
  rw [sanitize_eq] at h
  dsimp only at h
  by_cases hnil : cleanName r.workgroup.text = []
  · have hdefault : (CString.of 64 (ascii "WORKGROUP")).text = ascii "WORKGROUP" := by decide
    rw [← h, if_pos hnil, hdefault]
    exact ⟨by decide, .inr (by decide)⟩
  · rw [if_neg hnil] at h
    refine whole_of_sublist ?_
    rw [← hr, ← h]
    exact (of_sublist _).trans (trim_sublist _ _ _)

end Sanitized

/-- A share without its password. -/
def blank (s : ShareConfig) : ShareConfig := { s with password := CString.of 64 [] }

theorem sanitize_port (r : ShareConfig) : 0 < (sanitizeConfig r).port := by
  rw [sanitize_eq]
  dsimp only
  split
  · decide
  · rename_i hpos
    rw [Int32.le_iff_toInt_le] at hpos
    rw [Int32.lt_iff_toInt_lt]
    exact Int.not_le.mp hpos

theorem answerShare_held {s : ShareConfig} (h : Held s) (hport : 0 < s.port) : answerShare s = blank s := by
  unfold answerShare blank
  rw [reread_whole h.id, reread_whole h.label, reread_whole h.server, reread_whole h.share,
    reread_whole h.path, reread_whole h.username, reread_whole h.workgroup, if_pos hport]

/-- The share comes back from the answer as it was, without its password. -/
theorem answer_kept_iff (s : ShareConfig) (count : Nat) :
    (accept (answerShare s) count).map sanitizeConfig = some (blank s) ↔ Shown s := by
  constructor
  · intro h
    obtain ⟨r, hr, hsame⟩ := Option.map_eq_some_iff.mp h
    unfold accept at hr
    split at hr
    · rename_i hplaced
      have hread := Option.some.inj hr
      have hfield {β : Type} (f : ShareConfig → β) : f (sanitizeConfig r) = f (blank s) := by rw [hsame]
      have hport : 0 < s.port := by
        have hpos := sanitize_port r
        rw [hfield ShareConfig.port] at hpos
        exact hpos
      obtain ⟨hserver, hslash, hextra⟩ :=
        server_whole (by rw [← hread]; rfl) (hfield ShareConfig.server)
      have hid : (if (reread 64 s.id).text = [] then CString.of 32 (ascii "smb" ++ decimal count)
          else reread 64 s.id) = s.id := by
        have hkept := hfield ShareConfig.id
        rw [sanitize_eq, ← hread] at hkept
        exact hkept
      have hnamed : s.id.text ≠ [] := by
        intro hnil
        have hempty : (reread 64 s.id).text = [] := by
          rw [reread_text, asRead, hnil]
          rfl
        rw [if_pos hempty] at hid
        exact SettingsRoundTrip.named_ne_nil hid (List.map_eq_nil_iff.mpr (by rw [hnil]; rfl))
      rw [if_neg (reread_ne_nil (by decide) (by decide) hnamed)] at hid
      have hlabel : reread 128 s.label = s.label := by
        have hkept := hfield ShareConfig.label
        rw [sanitize_eq, ← hread] at hkept
        exact hkept
      have hheld : Held s := {
        id := whole_of_sublist (hid.symm ▸ List.Sublist.refl _)
        label := whole_of_sublist (hlabel.symm ▸ List.Sublist.refl _)
        server := hserver
        share := share_whole (by rw [← hread]; rfl) hextra (hfield ShareConfig.share)
        path := path_whole (by rw [← hread]; rfl) hextra (hfield ShareConfig.path)
        username := username_whole (by rw [← hread]; rfl) (hfield ShareConfig.username)
        workgroup := workgroup_whole (by rw [← hread]; rfl) (hfield ShareConfig.workgroup) }
      rw [answerShare_held hheld hport] at hread hplaced
      have hsameShare : r = blank s := by
        have hname : ¬(blank s).id.text = [] := hnamed
        rw [← hread, if_neg hname]
      rw [hsameShare] at hsame
      refine ⟨hheld, hnamed, ⟨hplaced.1, ?_⟩, ?_⟩
      · rcases hplaced.2 with hshare | hslash'
        · exact hshare
        · exact absurd (hslash.symm.trans hslash') Bool.false_ne_true
      · have hback := sanitize_password (blank s) s.password
        rw [hsame] at hback
        exact hback
    · cases hr
  · intro h
    have hport : 0 < s.port := h.clean ▸ sanitize_port s
    have hname : ¬(blank s).id.text = [] := h.named
    rw [answerShare_held h.held hport, accept, if_pos ⟨h.placed.1, .inl h.placed.2⟩, if_neg hname,
      Option.map_some]
    have hback := sanitize_password s (CString.of 64 [])
    rw [h.clean] at hback
    exact congrArg some hback

/-! The passwords. -/

/-- The password a stored share gets back. -/
def ownPassword (old : List ShareConfig) (s : ShareConfig) : CString 64 :=
  match old.find? fun o => sameShare s (sanitizeConfig o) && o.password.text ≠ [] with
  | some o => o.password
  | none => CString.of 64 []

theorem keepPassword_blank (old : List ShareConfig) (s : ShareConfig) :
    keepPassword old (blank s) = { s with password := ownPassword old s } := by
  have hblank : ¬(blank s).password.text ≠ [] := not_not_intro rfl
  unfold keepPassword ownPassword
  rw [if_neg hblank]
  show (match old.find? fun o => sameShare s (sanitizeConfig o) && o.password.text ≠ [] with
    | some o => { blank s with password := o.password }
    | none => blank s) = _
  cases old.find? fun o => sameShare s (sanitizeConfig o) && o.password.text ≠ [] <;> rfl

theorem keepPassword_of_blank (old : List ShareConfig) {x : ShareConfig} (h : x.password = CString.of 64 []) :
    ∃ p, keepPassword old x = { x with password := p } := by
  have hx : blank x = x := by
    unfold blank
    rw [← h]
  exact ⟨_, hx ▸ keepPassword_blank old x⟩

/-- A share is stored again as it was, with its own password. -/
theorem posted_kept_iff (old : List ShareConfig) (s : ShareConfig) (count : Nat) :
    (readShare (shareJson s) count).map (fun share => keepPassword old (sanitizeConfig share)) = some s ↔
      Shown s ∧ ownPassword old s = s.password := by
  rw [readShare_answer, ← answer_kept_iff s count]
  have hpassword : ∀ r ∈ accept (answerShare s) count, (sanitizeConfig r).password = CString.of 64 [] := by
    intro r hr
    unfold accept at hr
    split at hr
    · obtain rfl := Option.some.inj hr
      rw [sanitize_eq]
      rfl
    · cases hr
  cases haccept : accept (answerShare s) count with
  | none => simp
  | some r =>
    have hblank := hpassword r haccept
    rw [Option.map_some, Option.map_some, Option.some.injEq, Option.some.injEq]
    constructor
    · intro h
      obtain ⟨p, hp⟩ := keepPassword_of_blank old hblank
      rw [hp] at h
      have hsame : sanitizeConfig r = blank s := by
        rw [← h, blank, ← hblank]
      rw [hsame, keepPassword_blank] at hp
      rw [hsame] at h
      rw [h] at hp
      exact ⟨hsame, congrArg ShareConfig.password hp⟩
    · rintro ⟨hsame, hown⟩
      rw [hsame, keepPassword_blank, hown]

/-! The buffer of the answer. -/

/-- What is put for a share: a comma but in front of the first one, and its object. -/
def blocks : Nat → List ShareConfig → List (Text × Text)
  | _, [] => []
  | i, s :: shares => (if 0 < i then [44] else [], shareJson s) :: blocks (i + 1) shares

def flat (bs : List (Text × Text)) : Text := bs.flatMap fun b => b.1 ++ b.2

theorem length_blocks (i : Nat) (shares : List ShareConfig) : (blocks i shares).length = shares.length := by
  induction shares generalizing i with
  | nil => rfl
  | cons s shares ih => rw [blocks, List.length_cons, ih, List.length_cons]

theorem map_blocks (i : Nat) (shares : List ShareConfig) :
    (blocks i shares).map (·.2) = shares.map shareJson := by
  induction shares generalizing i with
  | nil => rfl
  | cons s shares ih => rw [blocks, List.map_cons, ih, List.map_cons]

theorem flat_blocks_cons (s : ShareConfig) (shares : List ShareConfig) (i : Nat) :
    shareJson s ++ flat (blocks (i + 1) shares) =
      List.intercalate [44] (shareJson s :: shares.map shareJson) := by
  induction shares generalizing s i with
  | nil => simp [blocks, flat]
  | cons s' shares ih =>
    rw [List.map_cons, List.intercalate_cons_cons, ← ih s' (i + 1)]
    simp [blocks, flat]

theorem flat_blocks (shares : List ShareConfig) :
    flat (blocks 0 shares) = List.intercalate [44] (shares.map shareJson) := by
  cases shares with
  | nil => rfl
  | cons s shares => exact flat_blocks_cons s shares 0

theorem item_ne_nil (gap : Text) (s : ShareConfig) : gap ++ shareJson s ≠ [] := by
  have hopen : ascii "\x7b" = [123] := by decide
  simp [shareJson, hopen]

theorem put_cases (b : SharesBuffer) {item : Text} (hne : item ≠ []) :
    (b.written.length + item.length < sharesJsonSize ∧ b.put item = ⟨b.written ++ item, []⟩) ∨
      (sharesJsonSize ≤ b.written.length + item.length ∧
        b.put item = ⟨b.written, item.take (sharesJsonSize - b.written.length - 1)⟩) := by
  unfold SharesBuffer.put
  by_cases hfits : b.written.length + item.length < sharesJsonSize
  · exact .inl ⟨hfits, if_pos ⟨hne, hfits⟩⟩
  · exact .inr ⟨Nat.not_lt.mp hfits, if_neg fun h => hfits h.2⟩

theorem isItem_shareJson (s : ShareConfig) : SettingsRoundTrip.IsItem (shareJson s) := by
  have hopen : ascii "\x7b" = 123 :: [] := by decide
  have hclose : ascii "\x7d" = [] ++ [125] := by decide
  rw [shareJson_eq, answerLayout, hopen, hclose]
  exact SettingsRoundTrip.isItem_layout (inside_bare (by decide +kernel)) (inside_bare (by decide +kernel))
    (inside_bare (by decide +kernel)) (inside_bare (by decide +kernel)) (forall_answerEntries s
      (fun _ _ hk hms => ⟨hk, inside_string hms⟩) fun _ _ hk hw => ⟨hk, inside_word hw⟩)

theorem zero_not_mem_shareJson (s : ShareConfig) : 0 ∉ shareJson s := by
  rw [shareJson_eq]
  unfold layoutText
  rw [List.mem_append, List.mem_append, not_or, not_or]
  exact ⟨by decide, zero_not_mem_entries (by decide) (by decide) (answerEntries_clean s), by decide⟩

/-- How an object begins that did not fit. -/
def Cut (t : Text) : Prop :=
  ∃ gap s, (gap = [] ∨ gap = [44]) ∧ t <+: gap ++ shareJson s ∧ t ≠ gap ++ shareJson s

/-- Where a share does not fit the ones behind it are still put. -/
theorem putShares_spec (i : Nat) {b : SharesBuffer} (hlen : b.written.length < sharesJsonSize)
    (hover : b.spill = [] ∨ Cut b.spill) (shares : List ShareConfig) :
    ∃ bs, bs.Sublist (blocks i shares) ∧ (putShares i b shares).written = b.written ++ flat bs ∧
      (putShares i b shares).written.length < sharesJsonSize ∧
      ((putShares i b shares).spill = [] ∨ Cut (putShares i b shares).spill) ∧
      (b.spill = [] → b.written.length + (flat (blocks i shares)).length < sharesJsonSize →
        bs = blocks i shares ∧ (putShares i b shares).spill = []) := by
  induction shares generalizing i b with
  | nil => exact ⟨[], List.Sublist.refl _, (List.append_nil _).symm, hlen, hover, fun h _ => ⟨rfl, h⟩⟩
  | cons s shares ih =>
    have hgap : (if 0 < i then [44] else [] : Text) = [] ∨ (if 0 < i then [44] else [] : Text) = [44] := by
      split
      · exact .inr rfl
      · exact .inl rfl
    rw [putShares, blocks]
    generalize (if 0 < i then [44] else [] : Text) = gap at hgap ⊢
    have hsplit : flat ((gap, shareJson s) :: blocks (i + 1) shares) =
        (gap ++ shareJson s) ++ flat (blocks (i + 1) shares) := rfl
    rcases put_cases b (item_ne_nil gap s) with ⟨hfits, hput⟩ | ⟨hnot, hput⟩
    · have hnext : (b.written ++ (gap ++ shareJson s)).length < sharesJsonSize := by
        rw [List.length_append]
        exact hfits
      obtain ⟨bs, hsub, hwritten, hmore, hcut, hall⟩ :=
        ih (i + 1) (b := ⟨b.written ++ (gap ++ shareJson s), []⟩) hnext (.inl rfl)
      rw [hput]
      refine ⟨(gap, shareJson s) :: bs, hsub.cons_cons _, ?_, hmore, hcut, fun _ hroom => ?_⟩
      · rw [hwritten, List.append_assoc]
        rfl
      · rw [hsplit, List.length_append] at hroom
        obtain ⟨hbs, hnil⟩ := hall rfl (by
          show (b.written ++ (gap ++ shareJson s)).length + _ < _
          rw [List.length_append]
          omega)
        exact ⟨by rw [hbs], hnil⟩
    · have hcut : Cut ((gap ++ shareJson s).take (sharesJsonSize - b.written.length - 1)) := by
        refine ⟨gap, s, hgap, List.take_prefix _ _, fun hwhole => ?_⟩
        have htake := congrArg List.length hwhole
        rw [List.length_take] at htake
        omega
      obtain ⟨bs, hsub, hwritten, hmore, hrest, -⟩ := ih (i + 1)
        (b := ⟨b.written, (gap ++ shareJson s).take (sharesJsonSize - b.written.length - 1)⟩) hlen
        (.inr hcut)
      rw [hput]
      refine ⟨bs, hsub.cons _, hwritten, hmore, hrest, fun _ hroom => ?_⟩
      rw [hsplit, List.length_append] at hroom
      omega

/-! The list in the answer. -/

theorem objEnd_append {inStr esc : Bool} {p : Text} {k : Nat} (h : objEnd inStr esc p = some k)
    (rest : Text) : k < p.length ∧ objEnd inStr esc (p ++ rest) = some k := by
  induction p generalizing inStr esc k with
  | nil => cases h
  | cons q p ih =>
    have hmore {inStr esc : Bool} (h : (objEnd inStr esc p).map (· + 1) = some k) :
        k < (q :: p).length ∧ (objEnd inStr esc (p ++ rest)).map (· + 1) = some k := by
      obtain ⟨j, hj, rfl⟩ := Option.map_eq_some_iff.mp h
      obtain ⟨hlt, hfound⟩ := ih hj
      exact ⟨Nat.succ_lt_succ hlt, by rw [hfound]; rfl⟩
    rw [objEnd] at h
    rw [List.cons_append, objEnd]
    split_ifs at h ⊢
    · exact hmore h
    · exact hmore h
    · exact hmore h
    · exact ⟨Option.some.inj h ▸ Nat.succ_pos _, h⟩
    · exact hmore h

/-- An object that does not end is not ended by what ends the answer. -/
theorem objEnd_tail {inStr esc : Bool} {p x : Text} (hesc : esc = true → inStr = true)
    (h : objEnd inStr esc p = none) (hx : x <+: [93, 125]) : objEnd inStr esc (p ++ x) = none := by
  induction p generalizing inStr esc with
  | nil =>
    rw [List.nil_append]
    have hcases : x = [] ∨ x = [93] ∨ x = [93, 125] := by
      rcases List.prefix_cons_iff.mp hx with rfl | ⟨y, rfl, hy⟩
      · exact .inl rfl
      · rcases List.prefix_cons_iff.mp hy with rfl | ⟨z, rfl, hz⟩
        · exact .inr (.inl rfl)
        · rw [List.prefix_nil.mp hz]
          exact .inr (.inr rfl)
    cases inStr <;> cases esc
    · rcases hcases with rfl | rfl | rfl <;> rfl
    · exact absurd (hesc rfl) Bool.false_ne_true
    · rcases hcases with rfl | rfl | rfl <;> rfl
    · rcases hcases with rfl | rfl | rfl <;> rfl
  | cons q p ih =>
    have hmore {inStr esc : Bool} (hesc : esc = true → inStr = true)
        (h : (objEnd inStr esc p).map (· + 1) = none) : (objEnd inStr esc (p ++ x)).map (· + 1) = none := by
      rw [ih hesc (Option.map_eq_none_iff.mp h)]
      rfl
    rw [objEnd] at h
    rw [List.cons_append, objEnd]
    split_ifs at h ⊢ with he hslash hquote hbrace hbracket
    · exact hmore (fun h => absurd h Bool.false_ne_true) h
    · exact hmore (fun _ => hslash.2) h
    · exact hmore (fun h => absurd h Bool.false_ne_true) h
    · rfl
    · exact hmore (fun h => absurd h Bool.false_ne_true) h

theorem sharesLoop_cut {t x : Text} (ht : t = [] ∨ Cut t) (hx : x <+: [93, 125]) (fuel : Nat)
    (shares : List ShareConfig) : sharesLoop fuel shares (t ++ x) = shares := by
  have hnone : 123 ∉ x := fun h => absurd (hx.subset h) (by decide)
  by_cases hbrace : 123 ∈ t
  · obtain ⟨gap, s, hgap, hpre, hne⟩ := ht.resolve_left fun hnil => by
      rw [hnil] at hbrace
      cases hbrace
    -- the object begins behind the gap, and was cut
    have hgap123 : 123 ∉ gap := by rcases hgap with rfl | rfl <;> decide
    obtain ⟨o, rfl⟩ : ∃ o, t = gap ++ o := by
      rcases List.prefix_or_prefix_of_prefix hpre (List.prefix_append gap (shareJson s)) with h | h
      · exact absurd (h.subset hbrace) hgap123
      · exact h.imp fun _ h => h.symm
    have ho : o <+: shareJson s := (List.prefix_append_right_inj gap).mp hpre
    have hos : o ≠ shareJson s := fun h => hne (h ▸ rfl)
    have hend : objEnd false false (o ++ x) = none := by
      refine objEnd_tail nofun ?_ hx
      obtain ⟨more, hmore⟩ := ho
      by_contra hsome
      obtain ⟨k, hk⟩ := Option.ne_none_iff_exists'.mp hsome
      obtain ⟨hlt, hwhole⟩ := objEnd_append hk more
      have hitem := SettingsRoundTrip.objEnd_item (isItem_shareJson s) []
      rw [List.append_nil, ← hmore, hwhole] at hitem
      have hlen := Option.some.inj hitem
      rw [List.length_append] at hlen
      have hmoreNil : more ≠ [] := fun h => hos (by rw [← hmore, h, List.append_nil])
      have hpos := List.length_pos_iff.mpr hmoreNil
      omega
    have hfirst : [123] <+: o ++ x := by
      cases o with
      | nil =>
        rw [List.append_nil] at hbrace
        exact absurd hbrace hgap123
      | cons b o =>
        have hopen : ascii "\x7b" = [123] := by decide
        have hhead : shareJson s = 123 :: (shareJson s).tail := by
          simp [shareJson, hopen]
        rw [hhead] at ho
        rw [(List.cons_prefix_cons.mp ho).1]
        exact ⟨o ++ x, rfl⟩
    have hgap0 : 0 ∉ gap := by rcases hgap with rfl | rfl <;> decide
    have hfound : strchr 123 (gap ++ (o ++ x)) = some gap.length := by
      unfold strchr
      rw [QuotedText.strstr_passes (QuotedText.passes_plain [] _ hgap123) hgap0,
        QuotedText.strstr_here hfirst]
      simp
    rw [List.append_assoc]
    cases fuel with
    | zero => rfl
    | succ fuel =>
      rw [sharesLoop, hfound]
      simp only [List.drop_left, hend, ite_self]
  · exact SettingsRoundTrip.sharesLoop_end
      (by rw [List.mem_append, not_or]; exact ⟨hbrace, hnone⟩) fuel shares

theorem blocks_items (i : Nat) (shares : List ShareConfig) :
    ∀ b ∈ blocks i shares, SettingsRoundTrip.Gap b.1 ∧ (SettingsRoundTrip.IsItem b.2 ∧ 0 ∉ b.2) := by
  induction shares generalizing i with
  | nil => exact fun b hb => absurd hb List.not_mem_nil
  | cons s shares ih =>
    refine List.forall_mem_cons.mpr ⟨⟨?_, isItem_shareJson s, zero_not_mem_shareJson s⟩, ih (i + 1)⟩
    show SettingsRoundTrip.Gap (if 0 < i then [44] else [])
    split <;> decide

/-- The loop over what was put for the shares. -/
theorem sharesLoop_flat {bs : List (Text × Text)}
    (hbs : ∀ b ∈ bs, SettingsRoundTrip.Gap b.1 ∧ SettingsRoundTrip.IsItem b.2) {fuel : Nat}
    (hfuel : bs.length ≤ fuel) {rest : Text}
    (hrest : ∀ fuel shares, sharesLoop fuel shares rest = shares) (shares : List ShareConfig) :
    sharesLoop fuel shares (flat bs ++ rest) = (bs.map (·.2)).foldl takeShare shares := by
  induction bs generalizing fuel shares with
  | nil => exact hrest fuel shares
  | cons b bs ih =>
    rw [List.length_cons] at hfuel
    obtain ⟨fuel, rfl⟩ : ∃ m, fuel = m + 1 := ⟨fuel - 1, by omega⟩
    obtain ⟨hgap, hitem⟩ := hbs b List.mem_cons_self
    have hsplit : flat (b :: bs) ++ rest = b.1 ++ (b.2 ++ (flat bs ++ rest)) := by
      simp [flat]
    rw [hsplit, SettingsRoundTrip.sharesLoop_item hgap hitem]
    exact ih (fun b' hb' => hbs b' (List.mem_cons_of_mem b hb')) (by omega) _

/-! The answer posted back. -/

theorem settings_ext {r s : AppSettings} (hmove : r.moveInstalledToEnd = s.moveInstalledToEnd)
    (hfade : r.fadeInstalledPackages = s.fadeInstalledPackages)
    (hsources : r.allSourcesMode = s.allSourcesMode) (hdebug : r.pkgInstallDebug = s.pkgInstallDebug)
    (hshares : r.smbShares = s.smbShares) : r = s := by
  cases r
  cases s
  simp only at hmove hfade hsources hdebug hshares
  subst hmove hfade hsources hdebug hshares
  rfl

/-- What stands in front of the shares. -/
def answerHead (move fade sources debug : Bool) : Text :=
  ascii "\x7b" ++ wordField moveKey (flagWord move) ++ ascii "," ++ wordField fadeKey (flagWord fade) ++
    ascii "," ++ wordField sourcesKey (flagWord sources) ++ ascii "," ++
    wordField debugKey (flagWord debug) ++ ascii "," ++ wordField sharesKey [91]

def headOf (s : AppSettings) : Text :=
  answerHead s.moveInstalledToEnd s.fadeInstalledPackages s.allSourcesMode s.pkgInstallDebug

def buffer (s : AppSettings) : SharesBuffer := putShares 0 ⟨[], []⟩ s.smbShares

theorem buffer_spec (s : AppSettings) : ∃ bs, bs.Sublist (blocks 0 s.smbShares) ∧
    (buffer s).written = flat bs ∧ (buffer s).written.length < sharesJsonSize ∧
    ((buffer s).spill = [] ∨ Cut (buffer s).spill) ∧
    ((flat (blocks 0 s.smbShares)).length < sharesJsonSize →
      bs = blocks 0 s.smbShares ∧ (buffer s).spill = []) := by
  obtain ⟨bs, hsub, hwritten, hlen, hover, hall⟩ :=
    putShares_spec 0 (b := ⟨[], []⟩) (by decide) (.inl rfl) s.smbShares
  exact ⟨bs, hsub, hwritten, hlen, hover, fun h => hall rfl ((Nat.zero_add _).trans_lt h)⟩

open SettingsRoundTrip (flagAt listAt)

theorem head_flags : ∀ move fade sources debug, let t := answerHead move fade sources debug
    (flagAt t moveKey "false" = some (!move) ∧ flagAt t fadeKey "false" = some (!fade) ∧
      flagAt t sourcesKey "true" = some sources ∧ flagAt t debugKey "true" = some debug) ∧
    ∀ key ∈ [moveKey, fadeKey, sourcesKey, debugKey], ∀ p ∈ behindKey t key, 5 < p.length := by
  decide +kernel

theorem head_list : ∀ move fade sources debug, let t := answerHead move fade sources debug
    listAt t = some [] ∧ 8 ≤ t.length ∧ t.length ≤ 200 ∧ 0 ∉ t := by
  decide +kernel

theorem getSettings_eq (s : AppSettings) : getSettings s =
    (headOf s ++ ((buffer s).written ++ ((buffer s).spill ++ [93, 125]))).take
      ((buffer s).written.length + 1023) := by
  have hclose : ascii "\x7d" = [125] := by decide
  unfold getSettings headOf answerHead buffer
  simp only [List.intercalate_cons_cons, List.intercalate_singleton, wordField, List.append_assoc,
    hclose]
  rfl

/-- What stands behind the shares that were put. -/
theorem getSettings_text (s : AppSettings) : ∃ t x, getSettings s =
      headOf s ++ ((buffer s).written ++ (t ++ x)) ∧ (t = [] ∨ Cut t) ∧ x <+: [93, 125] ∧
      ((buffer s).spill = [] → t = [] ∧ x = [93, 125]) := by
  obtain ⟨-, -, hlen, -⟩ := head_list s.moveInstalledToEnd s.fadeInstalledPackages s.allSourcesMode
    s.pkgInstallDebug
  have hhead : (headOf s).length ≤ 200 := hlen
  obtain ⟨-, -, -, -, hover, -⟩ := buffer_spec s
  rw [getSettings_eq]
  generalize headOf s = head at hhead ⊢
  generalize buffer s = b at hover ⊢
  obtain ⟨m, hm⟩ : ∃ m, b.written.length + 1023 = head.length + (b.written.length + m) ∧ 2 ≤ m :=
    ⟨1023 - head.length, by omega, by omega⟩
  refine ⟨b.spill.take m, [93, 125].take (m - b.spill.length), ?_, ?_, List.take_prefix _ _, fun hnil => ?_⟩
  · rw [hm.1, List.take_length_add_append, List.take_length_add_append, List.take_append]
  · rcases hover with hnil | ⟨gap, share, hgap, hpre, hne⟩
    · exact .inl (by rw [hnil, List.take_nil])
    · refine .inr ⟨gap, share, hgap, (List.take_prefix _ _).trans hpre, fun hwhole => hne ?_⟩
      exact hpre.eq_of_length_le (hwhole ▸ (List.take_prefix m b.spill).length_le)
  · rw [hnil, List.take_nil, List.length_nil, Nat.sub_zero, List.take_of_length_le hm.2]
    exact ⟨rfl, rfl⟩

theorem zero_not_mem_getSettings (s : AppSettings) : 0 ∉ getSettings s := by
  obtain ⟨t, x, htext, ht, hx, -⟩ := getSettings_text s
  obtain ⟨bs, hsub, hwritten, -⟩ := buffer_spec s
  have hhead : 0 ∉ headOf s := (head_list _ _ _ _).2.2.2
  have hflat : 0 ∉ flat bs := by
    intro h
    obtain ⟨b, hb, h0⟩ := List.mem_flatMap.mp h
    obtain ⟨hgap, -, hitem⟩ := blocks_items 0 s.smbShares b (hsub.subset hb)
    exact (List.mem_append.mp h0).elim hgap.2.2 hitem
  have hcut : 0 ∉ t := by
    rcases ht with rfl | ⟨gap, share, hgap, hpre, -⟩
    · exact List.not_mem_nil
    · intro h
      rcases List.mem_append.mp (hpre.subset h) with h | h
      · rcases hgap with rfl | rfl <;> exact absurd h (by decide)
      · exact zero_not_mem_shareJson share h
  have htail : 0 ∉ x := fun h => absurd (hx.subset h) (by decide)
  rw [htext, hwritten]
  simp only [List.mem_append, not_or]
  exact ⟨hhead, hflat, hcut, htail⟩

theorem editFlags_answer (s : AppSettings) : editFlags (getSettings s) s = s := by
  obtain ⟨t, x, htext, -⟩ := getSettings_text s
  obtain ⟨⟨hmove, hfade, hsources, hdebug⟩, hlen⟩ := head_flags s.moveInstalledToEnd
    s.fadeInstalledPackages s.allSourcesMode s.pkgInstallDebug
  have hfalse : (ascii "false").length = 5 := by decide
  have htrue : (ascii "true").length < 5 := by decide
  have hflag {key word : String} {b : Bool} (hmem : key ∈ [moveKey, fadeKey, sourcesKey, debugKey])
      (hword : (ascii word).length ≤ 5) (h : flagAt (headOf s) key word = some b) :
      ∃ p, behindKey (getSettings s) key = some p ∧ wordHere word p = b := by
    have hfound := SettingsRoundTrip.flagAt_append h
      (fun p hp => hword.trans_lt (hlen key hmem p hp)) ((buffer s).written ++ (t ++ x))
    rw [← htext] at hfound
    exact Option.map_eq_some_iff.mp hfound
  have hoff {key : String} {b : Bool} (hmem : key ∈ [moveKey, fadeKey, sourcesKey, debugKey])
      (h : flagAt (headOf s) key "false" = some (!b)) : offFlag (getSettings s) key b = b := by
    obtain ⟨p, hp, hpb⟩ := hflag hmem hfalse.le h
    unfold offFlag
    simp only [hp, hpb]
    cases b <;> simp
  have hon {key : String} {b : Bool} (hmem : key ∈ [moveKey, fadeKey, sourcesKey, debugKey])
      (h : flagAt (headOf s) key "true" = some b) : onFlag (getSettings s) key b = b := by
    obtain ⟨p, hp, hpb⟩ := hflag hmem htrue.le h
    unfold onFlag
    simp only [hp, hpb]
    cases b <;> simp
  unfold editFlags
  rw [hoff (by simp) hmove, hoff (by simp) hfade, hon (by simp) hsources, hon (by simp) hdebug]

/-- The answer posted back leaves of the shares those that were put. -/
theorem postSettings_answer (s : AppSettings) : ∃ bs, bs.Sublist (blocks 0 s.smbShares) ∧
    (flat bs).length < sharesJsonSize ∧
    ((flat (blocks 0 s.smbShares)).length < sharesJsonSize → bs = blocks 0 s.smbShares) ∧
    (postSettings (some (getSettings s)) s = s ↔
      ((bs.map (·.2)).foldl takeShare []).map
        (fun share => keepPassword s.smbShares (sanitizeConfig share)) = s.smbShares) := by
  obtain ⟨t, x, htext, ht, hx, -⟩ := getSettings_text s
  obtain ⟨bs, hsub, hwritten, hlen, -, hall⟩ := buffer_spec s
  rw [hwritten] at hlen htext
  have hbody : upToNul (getSettings s) = getSettings s :=
    List.takeWhile_eq_self_iff.mpr fun b hb =>
      decide_eq_true fun h0 => zero_not_mem_getSettings s (h0 ▸ hb)
  obtain ⟨hlist, hhead, -, -⟩ := head_list s.moveInstalledToEnd s.fadeInstalledPackages s.allSourcesMode
    s.pkgInstallDebug
  have hlist : listAt (getSettings s) = some (flat bs ++ (t ++ x)) := by
    rw [htext]
    exact SettingsRoundTrip.listAt_append hlist _
  have hlists : listsShares (getSettings s) = true := by
    obtain ⟨i, hi, -⟩ := Option.bind_eq_some_iff.mp hlist
    unfold listsShares
    rw [hi]
    rfl
  have hcount : bs.length ≤ (getSettings s).length := by
    have hle := hsub.length_le
    have hshares := s.shares_le
    have hhead : 8 ≤ (headOf s).length := hhead
    unfold maxSmbShares at hshares
    rw [length_blocks] at hle
    rw [htext, List.length_append]
    omega
  have hparse : parseSmbShares (getSettings s) = (bs.map (·.2)).foldl takeShare [] := by
    rw [SettingsRoundTrip.parseSmbShares_eq hlist]
    refine sharesLoop_flat (fun b hb => ?_) hcount (sharesLoop_cut ht hx) []
    obtain ⟨hgap, hitem, -⟩ := blocks_items 0 s.smbShares b (hsub.subset hb)
    exact ⟨hgap, hitem⟩
  refine ⟨bs, hsub, hlen, fun h => (hall h).1, ?_⟩
  have hpost : postSettings (some (getSettings s)) s = editShares (getSettings s) s s := by
    show (if listsShares (upToNul (getSettings s)) then
      editShares (upToNul (getSettings s)) s (editFlags (upToNul (getSettings s)) s)
      else editFlags (upToNul (getSettings s)) s) = _
    rw [hbody, if_pos hlists, editFlags_answer]
  rw [hpost, ← hparse]
  constructor
  · exact fun h => congrArg AppSettings.smbShares h
  · intro h
    have hshares : (editShares (getSettings s) s s).smbShares = s.smbShares := h
    generalize hr : editShares (getSettings s) s s = r at hshares
    have hmove : r.moveInstalledToEnd = s.moveInstalledToEnd := by rw [← hr]; rfl
    have hfade : r.fadeInstalledPackages = s.fadeInstalledPackages := by rw [← hr]; rfl
    have hsources : r.allSourcesMode = s.allSourcesMode := by rw [← hr]; rfl
    have hdebug : r.pkgInstallDebug = s.pkgInstallDebug := by rw [← hr]; rfl
    exact settings_ext hmove hfade hsources hdebug hshares

/-! The whole round. -/

/-- What the page reads of the answer. -/
def settingsValue (s : AppSettings) : Json := .object [
  (ascii moveKey, .bool s.moveInstalledToEnd),
  (ascii fadeKey, .bool s.fadeInstalledPackages),
  (ascii sourcesKey, .bool s.allSourcesMode),
  (ascii debugKey, .bool s.pkgInstallDebug),
  (ascii sharesKey, .array (s.smbShares.map shareValue))]

/-- Every share is stored again, all of them fit into the answer, and the first one with a
password that is taken for a share has the password of this one. -/
structure Kept (s : AppSettings) : Prop where
  shown : ∀ share ∈ s.smbShares, Shown share
  fits : (s.smbShares.map shareRoom).sum + (s.smbShares.length - 1) < sharesJsonSize
  password : ∀ share ∈ s.smbShares, ∀ o,
    s.smbShares.find? (fun o => sameShare share o && o.password.text ≠ []) = some o →
      o.password = share.password

theorem length_intercalate (texts : List Text) :
    (List.intercalate [44] texts).length = (texts.map List.length).sum + (texts.length - 1) := by
  induction texts with
  | nil => rfl
  | cons t texts ih =>
    cases texts with
    | nil => simp
    | cons t' texts =>
      rw [List.intercalate_cons_cons, List.length_append, List.length_append, ih]
      simp only [List.map_cons, List.sum_cons, List.length_cons, List.length_nil]
      omega

theorem length_shares {shares : List ShareConfig} (h : ∀ s ∈ shares, Shown s) :
    (flat (blocks 0 shares)).length = (shares.map shareRoom).sum + (shares.length - 1) := by
  have hrooms : (shares.map shareJson).map List.length = shares.map shareRoom := by
    rw [List.map_map]
    exact List.map_congr_left fun s hs => length_shareJson (h s hs).held
  rw [flat_blocks, length_intercalate, hrooms, List.length_map]

theorem ownPassword_iff {shares : List ShareConfig} (hshown : ∀ s ∈ shares, Shown s) {s : ShareConfig}
    (hs : s ∈ shares) : ownPassword shares s = s.password ↔
      ∀ o, shares.find? (fun o => sameShare s o && o.password.text ≠ []) = some o →
        o.password = s.password := by
  have hfind : shares.find? (fun o => sameShare s (sanitizeConfig o) && o.password.text ≠ []) =
      shares.find? (fun o => sameShare s o && o.password.text ≠ []) := by
    clear hs
    induction shares with
    | nil => rfl
    | cons o shares ih =>
      rw [List.find?_cons, List.find?_cons, (hshown o List.mem_cons_self).clean,
        ih fun o' ho' => hshown o' (List.mem_cons_of_mem o ho')]
  unfold ownPassword
  rw [hfind]
  cases hfound : shares.find? (fun o => sameShare s o && o.password.text ≠ []) with
  | some o =>
    constructor
    · rintro h o' ho'
      obtain rfl := Option.some.inj ho'
      exact h
    · exact fun h => h o rfl
  | none =>
    refine iff_of_true ?_ nofun
    have hself := List.find?_eq_none.mp hfound s hs
    have hnamed := (hshown s hs).named
    have hsame : sameShare s s = true := by simp [sameShare, hnamed]
    have hnil : s.password.text = [] := by simpa [hsame] using hself
    exact CString.ext_text hnil.symm

theorem post_kept_iff (s : AppSettings) : postSettings (some (getSettings s)) s = s ↔ Kept s := by
  obtain ⟨bs, hsub, hlen, hwhole, hiff⟩ := postSettings_answer s
  have hback := SettingsRoundTrip.foldl_takeShare_iff
    (fun share count => posted_kept_iff s.smbShares share count) s.smbShares []
    (by simpa using s.shares_le)
  rw [List.map_nil, List.nil_append] at hback
  constructor
  · intro h
    have hshares := hiff.mp h
    -- no share was left out
    have hall : bs = blocks 0 s.smbShares := by
      refine hsub.eq_of_length_le ?_
      have hcount := (SettingsRoundTrip.foldl_takeShare (bs.map (·.2)) []).2
      have hsame := congrArg List.length hshares
      rw [List.length_map] at hsame hcount
      rw [length_blocks]
      rw [List.length_nil] at hcount
      omega
    rw [hall, map_blocks] at hshares
    have hgood := hback.mp hshares
    have hshown : ∀ share ∈ s.smbShares, Shown share := fun share hmem => (hgood share hmem).1
    refine ⟨hshown, ?_, fun share hmem => (ownPassword_iff hshown hmem).mp (hgood share hmem).2⟩
    rw [hall, length_shares hshown] at hlen
    exact hlen
  · intro h
    have hall := hwhole (by rw [length_shares h.shown]; exact h.fits)
    rw [hiff, hall, map_blocks, hback]
    exact fun share hmem =>
      ⟨h.shown share hmem, (ownPassword_iff h.shown hmem).mpr (h.password share hmem)⟩

/-- An answer that holds all shares is JSON. -/
theorem getSettings_isJson {s : AppSettings} (h : Kept s) : IsJson (settingsValue s) (getSettings s) := by
  obtain ⟨t, x, htext, -, -, hend⟩ := getSettings_text s
  obtain ⟨bs, -, hwritten, -, -, hwhole⟩ := buffer_spec s
  obtain ⟨hall, hover⟩ := hwhole (by rw [length_shares h.shown]; exact h.fits)
  obtain ⟨rfl, rfl⟩ := hend hover
  have hshares : Writes (.value (.array (s.smbShares.map shareValue)))
      ([91] ++ flat (blocks 0 s.smbShares) ++ [93]) := by
    rw [flat_blocks]
    by_cases hnil : s.smbShares = []
    · rw [hnil]
      exact .emptyArray JsonText.ws_nil
    · refine .array (JsonText.writes_items (by simpa using hnil) ?_)
      rw [List.forall₂_map_left_iff, List.forall₂_map_right_iff]
      exact List.forall₂_same.mpr fun share hmem => writes_share (h.shown share hmem).held
  have hbody : getSettings s = 123 :: (List.intercalate [44] [
      wordField moveKey (flagWord s.moveInstalledToEnd),
      wordField fadeKey (flagWord s.fadeInstalledPackages),
      wordField sourcesKey (flagWord s.allSourcesMode), wordField debugKey (flagWord s.pkgInstallDebug),
      wordField sharesKey ([91] ++ flat (blocks 0 s.smbShares) ++ [93])] ++ [125]) := by
    have hopen : ascii "\x7b" = [123] := by decide
    have hcomma : ascii "," = [44] := by decide
    rw [htext, hwritten, hall]
    simp [headOf, answerHead, wordField, List.intercalate_cons_cons, hopen, hcomma]
  rw [hbody]
  refine JsonText.isJson_of_writes (.object (JsonText.writes_members (List.cons_ne_nil _ _) ?_))
  exact .cons (isMember_word moveKey (by decide) (writes_flag _)) <|
    .cons (isMember_word fadeKey (by decide) (writes_flag _)) <|
    .cons (isMember_word sourcesKey (by decide) (writes_flag _)) <|
    .cons (isMember_word debugKey (by decide) (writes_flag _)) <|
    .cons (isMember_word sharesKey (by decide) hshares) .nil

/-- The answer lists every share, and posted back it leaves the settings as they were,
exactly where the shares are kept. -/
theorem settings_kept (s : AppSettings) :
    (IsJson (settingsValue s) (getSettings s) ∧ postSettings (some (getSettings s)) s = s) ↔ Kept s :=
  ⟨fun h => (post_kept_iff s).mp h.2, fun h => ⟨getSettings_isJson h, (post_kept_iff s).mpr h⟩⟩

/-- A share as the page adds it: with a name, on a server. -/
def addedShare (name password : Text) : ShareConfig := sanitizeConfig {
  enabled := true
  browseOnly := false
  id := CString.of 32 name
  label := CString.of 64 name
  server := CString.of 128 (ascii "nas")
  port := smbDefaultPort
  share := CString.of 128 (ascii "pkgs")
  path := CString.of 256 []
  username := CString.of 64 []
  password := CString.of 64 password
  workgroup := CString.of 64 []
  isReadOnly := false }

/-- One share is there with a password, and once more without. -/
def sharedTwice : AppSettings :=
  { AppSettings.initial with
    smbShares := [addedShare (ascii "smb0") (ascii "pw"), addedShare (ascii "smb1") []]
    shares_le := by decide }

theorem settings_kept_fails : ¬∀ s : AppSettings, (∀ share ∈ s.smbShares, sanitizeConfig share = share) →
    IsJson (settingsValue s) (getSettings s) ∧ postSettings (some (getSettings s)) s = s := by
  intro hall
  have hclean : ∀ share ∈ sharedTwice.smbShares, sanitizeConfig share = share := by decide
  have hsame := congrArg (fun s => s.smbShares.map (·.password.text)) (hall sharedTwice hclean).2
  have hposted : (postSettings (some (getSettings sharedTwice)) sharedTwice).smbShares.map
      (·.password.text) = [ascii "pw", ascii "pw"] := by decide +kernel
  rw [hposted] at hsame
  exact absurd hsame (by decide)

end PkgManager.SettingsKept
