import PkgManager.CText
import PkgManager.PercentCode

namespace PkgManager.Routes

open CText PercentCode

abbrev Text := List UInt8

def unreserved (b : UInt8) : Bool :=
  (48 ≤ b && b ≤ 57) || (65 ≤ b && b ≤ 90) || (97 ≤ b && b ≤ 122) ||
    (ascii "-_.!~*'()").contains b

def encodeURIComponent (s : String) : Text := encode unreserved s.toByteArray.data.toList

/-- None where it throws. -/
def decodeURIComponent (t : Text) : Option String :=
  (decode t).bind fun bytes => String.fromUTF8? ⟨bytes.toArray⟩

inductive Route where
  | drives
  | settings
  | smb
  | directInstall
  | drive (id : String)
  | title (id : String)
  deriving DecidableEq

def trim (t : Text) : Text := ((t.dropWhile isSpace).reverse.dropWhile isSpace).reverse

/-- Without `#` and a slash behind it. -/
def stripHash : Text → Text
  | 35 :: 47 :: t => t
  | 35 :: t => t
  | t => t

/-- What follows `head`. -/
def behind (head t : Text) : Option Text :=
  if head.isPrefixOf t then some (t.drop head.length) else none

def getRouteFromHash (hash : Text) : Option Route :=
  let clean := trim (stripHash hash)
  if clean = [] then some .drives
  else if clean = ascii "settings" then some .settings
  else if clean = ascii "smb" then some .smb
  else if clean = ascii "direct-install" then some .directInstall
  else
    match behind (ascii "drive/") clean with
    | some id => (decodeURIComponent id).map .drive
    | none =>
      match behind (ascii "title/") clean with
      | some id => (decodeURIComponent id).map .title
      | none => some .drives

def formatHash : Route → Text
  | .drives => ascii "#/"
  | .settings => ascii "#/settings"
  | .smb => ascii "#/smb"
  | .directInstall => ascii "#/direct-install"
  | .drive id => ascii "#/drive/" ++ encodeURIComponent (if id = "" then "__all__" else id)
  | .title id => ascii "#/title/" ++ encodeURIComponent id

def getHistoryChain : Route → List Route
  | .drives => [.drives]
  | .title id => [.drives, .drive "__all__", .title id]
  | .smb => [.drives, .settings, .smb]
  | r => [.drives, r]

/-- As a hash names it. -/
def named : Route → Route
  | .drive id => .drive (if id = "" then "__all__" else id)
  | r => r

theorem formatHash_named (r : Route) : formatHash (named r) = formatHash r := by
  cases r with
  | drive id =>
    by_cases h : id = ""
    · subst h
      rfl
    · simp only [named, formatHash, if_neg h]
  | _ => rfl

theorem decodeURIComponent_encodeURIComponent (s : String) :
    decodeURIComponent (encodeURIComponent s) = some s := by
  have h : decode (encodeURIComponent s) = some s.toByteArray.data.toList :=
    decode_encode (by decide) _
  rw [decodeURIComponent, h, Option.bind_some]
  exact dif_pos s.isValidUTF8

theorem encodeURIComponent_no_space (s : String) :
    ∀ b ∈ encodeURIComponent s, isSpace b = false := by
  apply forall_encode
  · intro b hb
    by_contra h
    have hspace : b = 32 ∨ b = 9 ∨ b = 10 ∨ b = 11 ∨ b = 12 ∨ b = 13 := by
      simp only [isSpace, UInt8.le_iff_toNat_le, ← UInt8.toNat_inj] at h ⊢
      simp at h ⊢
      omega
    rcases hspace with rfl | rfl | rfl | rfl | rfl | rfl <;> exact absurd hb (by decide)
  · rfl
  · intro n hn
    interval_cases n <;> rfl

theorem trim_no_space {t : Text} (h : ∀ b ∈ t, isSpace b = false) : trim t = t := by
  have hdrop : ∀ u : Text, (∀ b ∈ u, isSpace b = false) → u.dropWhile isSpace = u := by
    intro u hu
    cases u with
    | nil => rfl
    | cons b u => exact List.dropWhile_cons_of_neg (by simp [hu b])
  rw [trim, hdrop t h, hdrop t.reverse, List.reverse_reverse]
  intro b hb
  exact h b (List.mem_reverse.mp hb)

theorem behind_append (head t : Text) : behind head (head ++ t) = some t := by
  simp [behind]

theorem ne_of_behind {head t u : Text} (h : behind head u = none) : head ++ t ≠ u := by
  intro heq
  rw [← heq, behind_append] at h
  cases h

/-- A hash whose text behind the slash has no space is that text. -/
theorem clean_hash {head t : Text} (hhead : head.all (fun b => !isSpace b) = true)
    (ht : ∀ b ∈ t, isSpace b = false) :
    trim (stripHash (35 :: 47 :: (head ++ t))) = head ++ t := by
  apply trim_no_space
  intro b hb
  rcases List.mem_append.mp hb with h | h
  · simpa only [Bool.not_eq_true'] using List.all_eq_true.mp hhead b h
  · exact ht b h

/-- The hashes that are a name alone. -/
def plainHashes : List Text := [[], ascii "settings", ascii "smb", ascii "direct-install"]

theorem getRouteFromHash_behind {hash : Text} (h : trim (stripHash hash) ∉ plainHashes) :
    getRouteFromHash hash =
      match behind (ascii "drive/") (trim (stripHash hash)) with
      | some id => (decodeURIComponent id).map .drive
      | none =>
        match behind (ascii "title/") (trim (stripHash hash)) with
        | some id => (decodeURIComponent id).map .title
        | none => some .drives := by
  simp only [plainHashes, List.mem_cons, List.not_mem_nil, or_false, not_or] at h
  simp only [getRouteFromHash, if_neg h.1, if_neg h.2.1, if_neg h.2.2.1, if_neg h.2.2.2]

/-- The hash of a route is read back as the route. -/
theorem getRouteFromHash_formatHash (r : Route) :
    getRouteFromHash (formatHash r) = some (named r) := by
  cases r with
  | drive id =>
    let e := encodeURIComponent (if id = "" then "__all__" else id)
    have hclean : trim (stripHash (ascii "#/drive/" ++ e)) = ascii "drive/" ++ e :=
      clean_hash rfl (encodeURIComponent_no_space _)
    have hplain : ascii "drive/" ++ e ∉ plainHashes := by
      intro h
      have hnone : ∀ u ∈ plainHashes, behind (ascii "drive/") u = none := by decide
      exact ne_of_behind (hnone _ h) rfl
    rw [formatHash, getRouteFromHash_behind (hclean ▸ hplain), hclean]
    simp only [behind_append, e, decodeURIComponent_encodeURIComponent, Option.map_some, named]
  | title id =>
    let e := encodeURIComponent id
    have hclean : trim (stripHash (ascii "#/title/" ++ e)) = ascii "title/" ++ e :=
      clean_hash rfl (encodeURIComponent_no_space _)
    have hplain : ascii "title/" ++ e ∉ plainHashes := by
      intro h
      have hnone : ∀ u ∈ plainHashes, behind (ascii "title/") u = none := by decide
      exact ne_of_behind (hnone _ h) rfl
    have hdrive : behind (ascii "drive/") (ascii "title/" ++ e) = none := rfl
    rw [formatHash, getRouteFromHash_behind (hclean ▸ hplain), hclean]
    simp only [hdrive, behind_append, e, decodeURIComponent_encodeURIComponent, Option.map_some,
      named]
  | _ => rfl

end PkgManager.Routes
