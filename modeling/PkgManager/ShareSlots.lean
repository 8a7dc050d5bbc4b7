import PkgManager.ControlFields

namespace PkgManager.ShareSlots

open CText ScannerState SmbShare Settings
open PkgMetadata (Text quoted)
open Manifest (extractJsonField fieldText atoi)
open ControlFields (extractJsonStringValue)

/-! The parser of the share list with the array its caller provides. -/

/-- The record the fields of an object go into. -/
def readFields (item : Text) : ShareConfig :=
  let enabled := extractJsonField item "enabled" 64
  { enabled := enabled = [] || isTrue enabled
    browseOnly := isTrue (extractJsonField item "browse_only" 64)
    id := fieldText item "id" 32
    label := fieldText item "label" 64
    server := fieldText item "server" 128
    port := readPort (extractJsonField item "port" 64)
    share := fieldText item "share" 128
    path := fieldText item "path" 256
    username := fieldText item "username" 64
    password := fieldText item "password" 64
    workgroup := fieldText item "workgroup" 64
    isReadOnly := isTrue (extractJsonField item "is_read_only" 64) }

/-- The record counts as a share. -/
def Accepted (s : ShareConfig) : Prop :=
  s.server.text ≠ [] ∧ (s.share.text ≠ [] ∨ s.server.text.any isSlash)

instance : DecidablePred Accepted := fun _ => inferInstanceAs (Decidable (_ ∧ _))

/-- The record with a name of its own where the object has none. -/
def withId (count : Nat) (s : ShareConfig) : ShareConfig :=
  { s with id := if s.id.text = [] then CString.of 32 (ascii "smb" ++ decimal count) else s.id }

/-- A write to an element of the array; there is none outside of it. -/
def store (slots : List ShareConfig) (i : Nat) (s : ShareConfig) : Option (List ShareConfig) :=
  if i < slots.length then some (slots.set i s) else none

/-- An object: its fields go into the next record in any case, which counts if it is a share. -/
def takeSlot (st : List ShareConfig × Nat) (item : Text) : Option (List ShareConfig × Nat) :=
  if st.2 < maxSmbShares then
    (store st.1 st.2 (readFields item)).bind fun slots =>
      if Accepted (readFields item) then
        (store slots st.2 (withId st.2 (readFields item))).map fun slots => (slots, st.2 + 1)
      else some (slots, st.2)
  else some st

/-- The loop over the objects of the list, as it writes. -/
def slotsLoop : Nat → List ShareConfig × Nat → Text → Option (List ShareConfig × Nat)
  | 0, st, _ => some st
  | fuel + 1, st, arr =>
    if arr = [] ∨ arr.head? = some 93 then some st
    else
      match strchr 123 arr with
      | none => some st
      | some start =>
        match objEnd false false (arr.drop start) with
        | none => some st
        | some len =>
          (takeSlot st ((arr.drop start).take (len + 1))).bind fun st =>
            slotsLoop fuel st (arr.drop (start + (len + 1)))

/-- `pkg_cache_parse_smb_shares` into the array `slots`: the array and the count behind it. -/
def parseInto (slots : List ShareConfig) (buf : Text) : Option (List ShareConfig × Nat) :=
  match strstr (quoted (ascii sharesKey)) buf with
  | none => some (slots, 0)
  | some i =>
    match strchr 91 (buf.drop i) with
    | none => some (slots, 0)
    | some j => slotsLoop buf.length (slots, 0) (buf.drop (i + (j + 1)))

/-! The callers. -/

/-- The list itself, or the object of the body as a list. -/
def listText (body : Text) : Text :=
  if SettingsApi.listsShares body then body
  else ascii "\x7b\"smb_shares\":[" ++ body ++ ascii "]\x7d"

/-- A configuration with nothing but the defaults. -/
def blankConfig : ShareConfig where
  enabled := true
  browseOnly := false
  id := .of 32 []
  label := .of 64 []
  server := .of 128 []
  port := smbDefaultPort
  share := .of 128 []
  path := .of 256 []
  username := .of 64 []
  password := .of 64 []
  workgroup := .of 64 []
  isReadOnly := false

/-- The port of a body that is no share. -/
def bodyPort (body : Text) : Int32 :=
  match strstr (quoted (ascii "port")) body with
  | none => smbDefaultPort
  | some i =>
    match strchr 58 (body.drop (i + 6)) with
    | none => smbDefaultPort
    | some j =>
      readPort ((body.drop (i + 6 + (j + 1))).dropWhile fun b => b = 32 ∨ b = 9 ∨ b = 34)

/-- The text of a key of the body, empty where there is none. -/
def bodyText (body : Text) (key : String) (n : Nat) [NeZero n] : CString n :=
  .of n ((extractJsonStringValue body (ascii key) n).getD [])

/-- The folder of a body: what it asks to browse, or its path. -/
def bodyPath (body : Text) : CString 256 :=
  if (bodyText body "browse_path" 256).text ≠ [] then bodyText body "browse_path" 256
  else if (bodyText body "subpath" 256).text ≠ [] then bodyText body "subpath" 256
  else bodyText body "path" 256

/-- What the fields of a body say that is no share. -/
def bodyConfig (body : Text) : ShareConfig :=
  { blankConfig with
    id := bodyText body "id" 32
    label := bodyText body "label" 64
    server := bodyText body "server" 128
    share := bodyText body "share" 128
    path := bodyPath body
    username := bodyText body "username" 64
    password := bodyText body "password" 64
    workgroup := bodyText body "workgroup" 64
    port := bodyPort body }

/-- `smb_cfg_from_body`; `parsed` is what is in its array of one record at first. -/
def smbCfgFromBody (parsed : ShareConfig) (data : Text) : Option ShareConfig :=
  let body := upToNul data
  if body = [] then some blankConfig
  else
    (parseInto [parsed] (listText body)).map fun st =>
      if 0 < st.2 then st.1.headD blankConfig else bodyConfig body

/-- The configuration of `POST /api/smb/test`, with such an array. -/
def smbTestConfig (parsed : ShareConfig) (data : Option Text) : Option ShareConfig :=
  match data with
  | none => some blankConfig
  | some data =>
    (parseInto [parsed] (listText (upToNul data))).map fun st =>
      if 0 < st.2 then st.1.headD blankConfig else blankConfig

/-! The objects of a list. -/

def itemsLoop : Nat → Text → List Text
  | 0, _ => []
  | fuel + 1, arr =>
    if arr = [] ∨ arr.head? = some 93 then []
    else
      match strchr 123 arr with
      | none => []
      | some start =>
        match objEnd false false (arr.drop start) with
        | none => []
        | some len =>
          (arr.drop start).take (len + 1) :: itemsLoop fuel (arr.drop (start + (len + 1)))

/-- The objects that the parser finds in a text. -/
def objects (buf : Text) : List Text :=
  match strstr (quoted (ascii sharesKey)) buf with
  | none => []
  | some i =>
    match strchr 91 (buf.drop i) with
    | none => []
    | some j => itemsLoop buf.length (buf.drop (i + (j + 1)))

theorem slotsLoop_items (fuel : Nat) (st : List ShareConfig × Nat) (arr : Text) :
    slotsLoop fuel st arr = (itemsLoop fuel arr).foldlM takeSlot st := by
  induction fuel generalizing st arr with
  | zero => rfl
  | succ fuel ih =>
    rw [slotsLoop, itemsLoop]
    by_cases hend : arr = [] ∨ arr.head? = some 93
    · rw [if_pos hend, if_pos hend]
      rfl
    · rw [if_neg hend, if_neg hend]
      cases strchr 123 arr with
      | none => rfl
      | some start =>
        dsimp only
        cases objEnd false false (arr.drop start) with
        | none => rfl
        | some len =>
          dsimp only
          rw [List.foldlM_cons]
          exact congrArg (Option.bind _) (funext fun st => ih st _)

theorem sharesLoop_items (fuel : Nat) (shares : List ShareConfig) (arr : Text) :
    sharesLoop fuel shares arr = (itemsLoop fuel arr).foldl takeShare shares := by
  induction fuel generalizing shares arr with
  | zero => rfl
  | succ fuel ih =>
    rw [sharesLoop, itemsLoop]
    by_cases hend : arr = [] ∨ arr.head? = some 93
    · rw [if_pos hend, if_pos hend]
      rfl
    · rw [if_neg hend, if_neg hend]
      cases strchr 123 arr with
      | none => rfl
      | some start =>
        dsimp only
        cases objEnd false false (arr.drop start) with
        | none => rfl
        | some len =>
          dsimp only
          rw [List.foldl_cons]
          exact ih _ _

theorem parseInto_objects (slots : List ShareConfig) (buf : Text) :
    parseInto slots buf = (objects buf).foldlM takeSlot (slots, 0) := by
  unfold parseInto objects
  cases strstr (quoted (ascii sharesKey)) buf with
  | none => rfl
  | some i =>
    dsimp only
    cases strchr 91 (buf.drop i) with
    | none => rfl
    | some j => exact slotsLoop_items _ _ _

theorem parseSmbShares_objects (buf : Text) :
    parseSmbShares buf = (objects buf).foldl takeShare [] := by
  unfold parseSmbShares objects
  cases strstr (quoted (ascii sharesKey)) buf with
  | none => rfl
  | some i =>
    dsimp only
    cases strchr 91 (buf.drop i) with
    | none => rfl
    | some j => exact sharesLoop_items _ _ _

/-! One object after the other. -/

theorem readShare_eq (item : Text) (count : Nat) :
    readShare item count =
      if Accepted (readFields item) then some (withId count (readFields item)) else none :=
  rfl

section

variable {slots : List ShareConfig} {count : Nat}

/-- Inside the array an object is taken as it is into the list. -/
theorem takeSlot_inside (hcount : count < maxSmbShares) (hin : count < slots.length) (item : Text) :
    ∃ slots', takeSlot (slots, count) item =
        some (slots', if Accepted (readFields item) then count + 1 else count) ∧
      slots'.length = slots.length ∧
      slots'.take (if Accepted (readFields item) then count + 1 else count) =
        takeShare (slots.take count) item := by
  have hlen : (slots.take count).length = count := by
    rw [List.length_take]
    omega
  have hkept : ∀ s : ShareConfig, (slots.set count s).take count = slots.take count :=
    fun s => List.take_set_of_le (Nat.le_refl count)
  unfold takeSlot takeShare store
  rw [hlen, if_pos hcount, if_pos hcount, if_pos hin, readShare_eq]
  simp only [Option.bind_some]
  by_cases hok : Accepted (readFields item)
  · rw [if_pos hok, if_pos hok, List.length_set, if_pos hin, if_pos hok]
    refine ⟨_, rfl, by rw [List.length_set, List.length_set], ?_⟩
    have hat : count < (slots.set count (readFields item)).length := by
      rw [List.length_set]
      exact hin
    rw [List.take_add_one, List.getElem?_set_self hat, List.take_set_of_le (Nat.le_refl count), hkept]
    rfl
  · rw [if_neg hok, if_neg hok, if_neg hok]
    exact ⟨_, rfl, List.length_set, hkept _⟩

theorem takeSlot_outside (hcount : count < maxSmbShares) (hout : slots.length ≤ count) (item : Text) :
    takeSlot (slots, count) item = none := by
  unfold takeSlot store
  rw [if_pos hcount, if_neg (Nat.not_lt_of_le hout)]
  rfl

theorem takeSlot_full (hfull : maxSmbShares ≤ count) (item : Text) :
    takeSlot (slots, count) item = some (slots, count) :=
  if_neg (Nat.not_lt_of_le hfull)

end

/-- The objects in front of the last one that count as shares. -/
def acceptedBefore (items : List Text) : Nat :=
  items.dropLast.countP fun item => Accepted (readFields item)

/-- A smaller array holds as long as there is an element left for every object. -/
theorem foldlM_takeSlot_iff (items : List Text) {slots : List ShareConfig} {count : Nat}
    (hcap : slots.length < maxSmbShares) (hcount : count ≤ slots.length) :
    (items.foldlM takeSlot (slots, count)).isSome ↔
      items = [] ∨ count + acceptedBefore items < slots.length := by
  induction items generalizing slots count with
  | nil => exact iff_of_true rfl (.inl rfl)
  | cons item items ih =>
    rw [List.foldlM_cons]
    rcases Nat.lt_or_eq_of_le hcount with hin | heq
    · obtain ⟨slots', hstep, hlen, _⟩ := takeSlot_inside (by omega) hin item
      have hcount' : (if Accepted (readFields item) then count + 1 else count) ≤ slots'.length := by
        rw [hlen]
        split_ifs
        · exact hin
        · exact hcount
      rw [hstep]
      refine (ih (hlen ▸ hcap) hcount').trans ?_
      cases items with
      | nil => exact iff_of_true (.inl rfl) (.inr hin)
      | cons next items =>
        have hbefore : acceptedBefore (item :: next :: items) =
            acceptedBefore (next :: items) + if Accepted (readFields item) then 1 else 0 := by
          unfold acceptedBefore
          rw [List.dropLast_cons_of_ne_nil (List.cons_ne_nil _ _), List.countP_cons]
          simp only [decide_eq_true_eq]
        have hnext : next :: items ≠ [] := List.cons_ne_nil _ _
        have hall : item :: next :: items ≠ [] := List.cons_ne_nil _ _
        rw [hbefore, hlen]
        simp only [hnext, hall, false_or]
        split_ifs <;> omega
    · have hroom : count < maxSmbShares := by omega
      rw [takeSlot_outside hroom heq.ge]
      refine iff_of_false (by simp) ?_
      rintro (h | h)
      · exact absurd h (List.cons_ne_nil _ _)
      · omega

/-- The array of the settings has room for all that the parser takes. -/
theorem foldlM_takeSlot_eight (items : List Text) {slots : List ShareConfig} (count : Nat)
    (hcap : maxSmbShares ≤ slots.length) : (items.foldlM takeSlot (slots, count)).isSome := by
  induction items generalizing slots count with
  | nil => rfl
  | cons item items ih =>
    rw [List.foldlM_cons]
    by_cases hcount : count < maxSmbShares
    · have hin : count < slots.length := by omega
      obtain ⟨slots', hstep, hlen, _⟩ := takeSlot_inside hcount hin item
      rw [hstep]
      exact ih _ (hlen ▸ hcap)
    · rw [takeSlot_full (Nat.le_of_not_lt hcount)]
      exact ih count hcap

/-- What is behind the count are the shares of the list. -/
theorem foldlM_takeSlot_shares (items : List Text) {slots : List ShareConfig} {count : Nat}
    (hcount : count ≤ slots.length) {st : List ShareConfig × Nat}
    (h : items.foldlM takeSlot (slots, count) = some st) :
    st.1.take st.2 = items.foldl takeShare (slots.take count) ∧ st.2 ≤ st.1.length := by
  induction items generalizing slots count with
  | nil =>
    obtain rfl := Option.some.inj h
    exact ⟨rfl, hcount⟩
  | cons item items ih =>
    rw [List.foldlM_cons] at h
    rw [List.foldl_cons]
    by_cases hfull : maxSmbShares ≤ count
    · rw [takeSlot_full hfull] at h
      have hlen : (slots.take count).length = count := by
        rw [List.length_take]
        omega
      have hskip : takeShare (slots.take count) item = slots.take count := by
        unfold takeShare
        rw [hlen, if_neg (Nat.not_lt_of_le hfull)]
      rw [hskip]
      exact ih hcount h
    · rcases Nat.lt_or_eq_of_le hcount with hin | heq
      · obtain ⟨slots', hstep, hlen, htake⟩ := takeSlot_inside (by omega) hin item
        rw [hstep] at h
        rw [← htake]
        refine ih ?_ h
        rw [hlen]
        split_ifs
        · exact hin
        · exact hcount
      · rw [takeSlot_outside (Nat.lt_of_not_le hfull) heq.ge] at h
        cases h

theorem parseInto_shares {slots : List ShareConfig} {buf : Text} {st : List ShareConfig × Nat}
    (h : parseInto slots buf = some st) : st.1.take st.2 = parseSmbShares buf := by
  rw [parseInto_objects] at h
  rw [parseSmbShares_objects]
  exact (foldlM_takeSlot_shares _ (Nat.zero_le _) h).1

/-- None of the calls for a body writes outside of the array it has. -/
structure WritesInside (data : Text) : Prop where
  settings : ∀ slots, slots.length = maxSmbShares → (parseInto slots (upToNul data)).isSome
  browse : ∀ parsed, (smbCfgFromBody parsed data).isSome
  test : ∀ parsed, (smbTestConfig parsed (some data)).isSome

/-- Exactly where no object stands behind one that is a share. -/
theorem writesInside_iff (data : Text) :
    WritesInside data ↔
      ∀ item ∈ (objects (listText (upToNul data))).dropLast, ¬Accepted (readFields item) := by
  have hone : ∀ parsed, (parseInto [parsed] (listText (upToNul data))).isSome ↔
      ∀ item ∈ (objects (listText (upToNul data))).dropLast, ¬Accepted (readFields item) := by
    intro parsed
    have hcap : [parsed].length < maxSmbShares := by
      rw [List.length_singleton]
      decide
    have hnone : acceptedBefore (objects (listText (upToNul data))) = 0 ↔
        ∀ item ∈ (objects (listText (upToNul data))).dropLast, ¬Accepted (readFields item) := by
      unfold acceptedBefore
      rw [List.countP_eq_zero]
      simp only [decide_eq_true_eq]
    rw [parseInto_objects, foldlM_takeSlot_iff _ hcap (Nat.zero_le _), ← hnone,
      List.length_singleton, Nat.zero_add, Nat.lt_one_iff]
    refine or_iff_right_of_imp fun hempty => ?_
    rw [hempty]
    rfl
  constructor
  · intro h
    have htest := h.test blankConfig
    unfold smbTestConfig at htest
    rw [Option.isSome_map, hone] at htest
    exact htest
  · intro h
    refine ⟨?_, ?_, ?_⟩
    · intro slots hlen
      rw [parseInto_objects]
      exact foldlM_takeSlot_eight _ 0 hlen.ge
    · intro parsed
      unfold smbCfgFromBody
      by_cases hempty : upToNul data = []
      · rw [if_pos hempty]
        rfl
      · rw [if_neg hempty, Option.isSome_map, hone]
        exact h
    · intro parsed
      unfold smbTestConfig
      rw [Option.isSome_map, hone]
      exact h

/-- A share, and an object behind it. -/
def twoObjects : Text := ascii "\x7b\"server\":\"nas\",\"share\":\"pkgs\"\x7d,\x7b\x7d"

theorem writesInside_fails : ¬WritesInside twoObjects := by
  intro h
  exact absurd (h.test blankConfig) (by decide)

end PkgManager.ShareSlots
