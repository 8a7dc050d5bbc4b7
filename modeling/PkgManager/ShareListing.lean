import PkgManager.JsonDepth
import PkgManager.SettingsAnswer

namespace PkgManager.ShareListing

open CText SettingsApi
open ScannerState (CString)
open PkgMetadata (Text)
open Manifest (flagWord)
open JsonText (Json Body IsJson Writes State walk)
open SettingsAnswer (IsMember isMember_word writes_flag body_name)

/-! The answer of `POST /api/smb/shares`. -/

/-- `smb_share_info_t`. -/
structure ShareInfo where
  name : CString 128
  remark : CString 256
  type : UInt32
  isDisk : Bool
  isHidden : Bool
  isSpecial : Bool

def responseBufferSize : Nat := 65536

/-- The offset of the builder, and the string in the buffer. -/
structure Response where
  off : Nat
  text : Text
  deriving DecidableEq

/-- `off += snprintf(resp_json + off, RESPONSE_BUFFER_SIZE - off, ...)`; there is no such size behind
the end of the buffer. -/
def Response.put (r : Response) (item : Text) : Option Response :=
  if r.off ≤ responseBufferSize then
    some ⟨r.off + item.length, r.text ++ item.take (responseBufferSize - r.off - 1)⟩
  else none

def shareObject (s : ShareInfo) : Text :=
  ascii "\x7b" ++ List.intercalate (ascii ",") [
    strField "name" 512 s.name,
    strField "remark" 1024 s.remark,
    wordField "type" (decimal s.type.toNat),
    wordField "is_disk" (flagWord s.isDisk),
    wordField "is_hidden" (flagWord s.isHidden),
    wordField "is_special" (flagWord s.isSpecial)] ++ ascii "\x7d"

def answerHead : Text := ascii "\x7b\"success\":true,\"shares\":["

def answerTail : Text := ascii "]\x7d"

/-- The loop over the shares, from index `i` on. -/
def listLoop : Nat → Response → List ShareInfo → Option Response
  | _, r, [] => some r
  | i, r, s :: shares =>
    (r.put ((if 0 < i then [44] else []) ++ shareObject s)).bind fun r =>
      if responseBufferSize ≤ r.off + 512 then some r else listLoop (i + 1) r shares

/-- The answer for the shares of a server. -/
def sharesAnswer (shares : List ShareInfo) : Option Response :=
  ((Response.mk 0 []).put answerHead).bind fun r =>
    (listLoop 0 r shares).bind fun r => r.put answerTail

/-- Every remaining size is one, and the answer is a JSON text. -/
def AnswersJson (shares : List ShareInfo) : Prop :=
  ∃ r, sharesAnswer shares = some r ∧ ∃ v, IsJson v r.text

/-- The answer as far as these shares. -/
def listing (shares : List ShareInfo) : Text :=
  answerHead ++ List.intercalate [44] (shares.map shareObject)

/-- A share that is begun 512 bytes or more in front of the end leaves room for the brackets. -/
def Fits (shares : List ShareInfo) : Prop :=
  ∀ k < shares.length, (listing (shares.take k)).length + 512 < responseBufferSize →
    (listing (shares.take (k + 1))).length + 3 ≤ responseBufferSize

/-! The offset behind the loop. -/

/-- How many shares the loop takes of a list behind others. -/
def taken (front : List ShareInfo) : List ShareInfo → Nat
  | [] => 0
  | s :: shares =>
    if responseBufferSize ≤ (listing (front ++ [s])).length + 512 then 1
    else taken (front ++ [s]) shares + 1

theorem listing_concat (front : List ShareInfo) (s : ShareInfo) :
    listing (front ++ [s]) =
      listing front ++ ((if 0 < front.length then [44] else []) ++ shareObject s) := by
  unfold listing
  rw [List.map_append, List.map_singleton, JsonText.intercalate_concat, List.length_map, List.append_assoc]

theorem length_listing_le (front rest : List ShareInfo) :
    (listing front).length ≤ (listing (front ++ rest)).length := by
  induction rest generalizing front with
  | nil => rw [List.append_nil]
  | cons s rest ih =>
    have hnext := ih (front ++ [s])
    rw [listing_concat, List.length_append, List.append_assoc, List.singleton_append] at hnext
    omega

/-- As long as all of it is in the buffer, more is put behind it, cut to the buffer. -/
theorem put_room {t : Text} (h : t.length < responseBufferSize) (item : Text) :
    (Response.mk t.length t).put item =
      some ⟨(t ++ item).length, (t ++ item).take (responseBufferSize - 1)⟩ := by
  have hshort : t.length ≤ responseBufferSize - 1 := by omega
  have hrest : responseBufferSize - t.length - 1 = responseBufferSize - 1 - t.length := by omega
  unfold Response.put
  rw [if_pos (Nat.le_of_lt h), List.length_append, List.take_append, List.take_of_length_le hshort, hrest]

/-- The loop leaves the answer as far as it comes, cut to the buffer. -/
theorem listLoop_taken (front shares : List ShareInfo)
    (hroom : (listing front).length + 512 < responseBufferSize) :
    listLoop front.length ⟨(listing front).length, listing front⟩ shares =
      some ⟨(listing (front ++ shares.take (taken front shares))).length,
        (listing (front ++ shares.take (taken front shares))).take (responseBufferSize - 1)⟩ := by
  induction shares generalizing front with
  | nil =>
    have hshort : (listing front).length ≤ responseBufferSize - 1 := by omega
    rw [listLoop, List.take_nil, List.append_nil, List.take_of_length_le hshort]
  | cons s shares ih =>
    have hput := put_room (t := listing front) (by omega)
      ((if 0 < front.length then [44] else []) ++ shareObject s)
    rw [← listing_concat] at hput
    rw [listLoop, hput, Option.bind_some, taken]
    by_cases hend : responseBufferSize ≤ (listing (front ++ [s])).length + 512
    · rw [if_pos hend, if_pos hend]
      rfl
    · have hshort : (listing (front ++ [s])).length ≤ responseBufferSize - 1 := by omega
      have hlen : (front ++ [s]).length = front.length + 1 := List.length_append
      have hnext := ih (front ++ [s]) (Nat.lt_of_not_le hend)
      rw [if_neg hend, if_neg hend, List.take_of_length_le hshort, ← hlen, hnext, List.take_succ_cons,
        List.append_assoc, List.singleton_append]

/-- The condition is about the one share that the loop ends with. -/
theorem fits_taken (front shares : List ShareInfo)
    (hroom : (listing front).length + 512 < responseBufferSize) :
    (∀ k < shares.length, (listing (front ++ shares.take k)).length + 512 < responseBufferSize →
      (listing (front ++ shares.take (k + 1))).length + 3 ≤ responseBufferSize) ↔
        (listing (front ++ shares.take (taken front shares))).length + 3 ≤ responseBufferSize := by
  induction shares generalizing front with
  | nil =>
    rw [List.take_nil, List.append_nil]
    exact iff_of_true nofun (by omega)
  | cons s shares ih =>
    have hmore : ∀ k, front ++ (s :: shares).take (k + 1) = front ++ [s] ++ shares.take k := by
      intro k
      rw [List.take_succ_cons, List.append_assoc, List.singleton_append]
    rw [taken]
    by_cases hend : responseBufferSize ≤ (listing (front ++ [s])).length + 512
    · rw [if_pos hend]
      constructor
      · intro h
        refine h 0 (Nat.zero_lt_succ _) ?_
        rw [List.take_zero, List.append_nil]
        exact hroom
      · intro h k _ hk
        cases k with
        | zero => exact h
        | succ k =>
          have hlong := length_listing_le (front ++ [s]) (shares.take k)
          rw [hmore] at hk
          omega
    · rw [if_neg hend, hmore, ← ih (front ++ [s]) (Nat.lt_of_not_le hend)]
      constructor
      · intro h k hk hpos
        rw [← hmore] at hpos ⊢
        exact h (k + 1) (Nat.succ_lt_succ hk) hpos
      · intro h k hk hpos
        cases k with
        | zero =>
          rw [hmore, List.take_zero, List.append_nil]
          omega
        | succ k =>
          rw [hmore] at hpos ⊢
          exact h k (Nat.lt_of_succ_lt_succ hk) hpos

/-! The answer as JSON. -/

theorem escapeByte_body {c : UInt8} (h0 : c ≠ 0) {s t : Text} (h : Body s t) :
    ∃ s, Body s (escapeByte c ++ t) := by
  have hhex : ∀ n < 16, JsonText.isHex (hexDigit n) = true := by decide
  unfold escapeByte
  split_ifs with hmark h10 h13 h9 h32
  · rcases hmark with rfl | rfl
    · exact ⟨_, .short rfl h⟩
    · exact ⟨_, .short rfl h⟩
  · exact ⟨_, .short rfl h⟩
  · exact ⟨_, .short rfl h⟩
  · exact ⟨_, .short rfl h⟩
  · have hlt : c.toNat < 32 := UInt8.lt_iff_toNat_lt.mp h32
    exact ⟨_, .unicode (by decide) (by decide) (hhex _ (by omega)) (hhex _ (by omega)) h⟩
  · rw [not_or] at hmark
    exact ⟨_, .plain c (UInt8.not_lt.mp h32) hmark.1 hmark.2 h⟩

/-- What `json_str_esc` writes is the text of a string, wherever it stops. -/
theorem escapeLoop_body (size d : Nat) (s : Text) : ∃ r, Body r (escapeLoop size d s) := by
  induction s generalizing d with
  | nil => exact ⟨[], .nil⟩
  | cons c s ih =>
    rw [escapeLoop]
    split_ifs with h
    · obtain ⟨r, hr⟩ := ih (d + (escapeByte c).length)
      exact escapeByte_body h.1 hr
    · exact ⟨[], .nil⟩

theorem isMember_text {n : Nat} (key : String) (size : Nat) (s : CString n)
    (hk : QuotedText.Name (ascii key)) :
    ∃ v, IsMember (ascii key, v) (strField key size s) := by
  obtain ⟨r, hr⟩ := escapeLoop_body size 0 s.text
  exact ⟨.string r, ascii key, JsonText.quoted (jsonStrEsc size s.text),
    by simp [strField, PkgMetadata.quoted, JsonText.quoted], body_name hk, .string hr⟩

theorem writes_object (s : ShareInfo) : ∃ v, Writes (.value v) (shareObject s) := by
  have hopen : ascii "\x7b" = [123] := by decide
  have hclose : ascii "\x7d" = [125] := by decide
  have hcomma : ascii "," = [44] := by decide
  obtain ⟨name, hname⟩ := isMember_text "name" 512 s.name (by decide)
  obtain ⟨remark, hremark⟩ := isMember_text "remark" 1024 s.remark (by decide)
  have htype : JsonText.IsNumber (decimal s.type.toNat) :=
    ⟨[], decimal s.type.toNat, [], [], by simp, .inl rfl, SettingsAnswer.decimal_isInteger _, .inl rfl,
      .inl rfl⟩
  unfold shareObject
  rw [hopen, hclose, hcomma, List.append_assoc, List.singleton_append]
  refine ⟨.object [(ascii "name", name), (ascii "remark", remark),
    (ascii "type", .number (decimal s.type.toNat)), (ascii "is_disk", .bool s.isDisk),
    (ascii "is_hidden", .bool s.isHidden), (ascii "is_special", .bool s.isSpecial)],
    .object (JsonText.writes_members (List.cons_ne_nil _ _) ?_)⟩
  exact .cons hname <| .cons hremark <|
    .cons (isMember_word "type" (by decide) (.number htype)) <|
    .cons (isMember_word "is_disk" (by decide) (writes_flag s.isDisk)) <|
    .cons (isMember_word "is_hidden" (by decide) (writes_flag s.isHidden)) <|
    .cons (isMember_word "is_special" (by decide) (writes_flag s.isSpecial)) .nil

theorem writes_shares {shares : List ShareInfo} (hne : shares ≠ []) :
    ∃ vs, Writes (.items vs) (List.intercalate [44] (shares.map shareObject)) := by
  have hall : ∀ shares : List ShareInfo,
      ∃ vs, List.Forall₂ (fun v t => Writes (.value v) t) vs (shares.map shareObject) := by
    intro shares
    induction shares with
    | nil => exact ⟨[], .nil⟩
    | cons s shares ih =>
      obtain ⟨vs, hvs⟩ := ih
      obtain ⟨v, hv⟩ := writes_object s
      exact ⟨v :: vs, .cons hv hvs⟩
  obtain ⟨vs, hvs⟩ := hall shares
  refine ⟨vs, JsonText.writes_items ?_ hvs⟩
  rintro rfl
  cases shares with
  | nil => exact hne rfl
  | cons s shares => cases hvs

theorem writes_array (shares : List ShareInfo) :
    ∃ v, Writes (.value v) (91 :: (List.intercalate [44] (shares.map shareObject) ++ [93])) := by
  by_cases hne : shares = []
  · subst hne
    exact ⟨_, .emptyArray JsonText.ws_nil⟩
  · obtain ⟨vs, hvs⟩ := writes_shares hne
    exact ⟨_, .array hvs⟩

theorem listing_isJson (shares : List ShareInfo) : ∃ v, IsJson v (listing shares ++ answerTail) := by
  obtain ⟨v, hv⟩ := writes_array shares
  have hsuccess : IsMember (ascii "success", .bool true) (wordField "success" (ascii "true")) :=
    isMember_word "success" (by decide) .true
  have hshares := isMember_word "shares" (by decide) hv
  have hmembers := JsonText.writes_members (List.cons_ne_nil _ _) (.cons hsuccess (.cons hshares .nil))
  have htext : listing shares ++ answerTail =
      123 :: (List.intercalate [44] [wordField "success" (ascii "true"),
        wordField "shares" (91 :: (List.intercalate [44] (shares.map shareObject) ++ [93]))] ++ [125]) := by
    have hhead : answerHead =
        123 :: (wordField "success" (ascii "true") ++ 44 :: (PkgMetadata.quoted (ascii "shares") ++ [58, 91])) := by
      decide
    have htail : answerTail = [93, 125] := by decide
    unfold listing
    rw [hhead, htail, List.intercalate_cons_cons, List.intercalate_singleton]
    unfold wordField
    simp only [List.append_assoc, List.cons_append, List.nil_append]
  rw [htext]
  exact ⟨_, JsonText.isJson_of_writes (.object hmembers)⟩

theorem walk_listing (shares : List ShareInfo) :
    walk (.outside, 0) (listing shares) = some (.outside, 2) := by
  have hhead : walk (.outside, 0) answerHead = some (.outside, 2) := by decide
  unfold listing
  rw [JsonText.walk_append, hhead, Option.bind_some]
  by_cases hne : shares = []
  · subst hne
    rfl
  · obtain ⟨vs, hvs⟩ := writes_shares hne
    exact JsonText.walk_writes hvs 2

/-- Without its last bracket, one more is open. -/
theorem walk_dropLast {t : JsonText.Text} {d : Int}
    (h : walk (.outside, 0) (t ++ [125]) = some (.outside, d)) :
    walk (.outside, 0) t = some (.outside, d + 1) := by
  rw [JsonText.walk_append] at h
  obtain ⟨⟨q, n⟩, hfront, hlast⟩ := Option.bind_eq_some_iff.mp h
  have hstep : JsonText.walkStep (q, n) 125 = some (.outside, d) := by
    rw [JsonText.walk_cons] at hlast
    obtain ⟨p, hp, hnil⟩ := Option.bind_eq_some_iff.mp hlast
    rw [hp]
    exact hnil
  cases q with
  | outside =>
    have hweight : JsonText.weight 125 = -1 := by decide
    rw [JsonText.walkStep_outside (by decide) (by decide), hweight] at hstep
    have hn : n + -1 = d := congrArg Prod.snd (Option.some.inj hstep)
    have hval : n = d + 1 := by omega
    rw [hfront, hval]
  | inside => cases hstep
  | escape => cases hstep
  | hex k => cases hstep

/-- A share ends with a bracket. -/
theorem listing_ends (shares : List ShareInfo) (h : (listing shares).length ≠ 26) :
    ∃ t, listing shares = t ++ [125] := by
  rcases List.eq_nil_or_concat shares with rfl | ⟨front, s, rfl⟩
  · exact absurd (by decide) h
  · have hclose : ascii "\x7d" = [125] := by decide
    rw [List.concat_eq_append, listing_concat]
    unfold shareObject
    rw [hclose]
    exact ⟨_, by rw [← List.append_assoc, ← List.append_assoc]⟩

/-- The answer is one exactly where the loop ends with room for the brackets. -/
theorem answersJson_iff (shares : List ShareInfo) : AnswersJson shares ↔ Fits shares := by
  have hfront : (listing []).length + 512 < responseBufferSize := by decide
  have hhead : listing [] = answerHead := by decide
  have hfits := fits_taken [] shares hfront
  have hloop := listLoop_taken [] shares hfront
  simp only [List.nil_append] at hfits hloop
  unfold Fits
  rw [hfits]
  generalize shares.take (taken [] shares) = kept at hloop ⊢
  have hput : (Response.mk 0 []).put answerHead = some ⟨(listing []).length, listing []⟩ := by decide
  have hanswer : sharesAnswer shares =
      (Response.mk (listing kept).length ((listing kept).take (responseBufferSize - 1))).put answerTail := by
    unfold sharesAnswer
    rw [hput, Option.bind_some]
    exact (congrArg (Option.bind · fun r => r.put answerTail) hloop).trans (Option.bind_some ..)
  have htail : answerTail = [93, 125] := by decide
  have hopen := walk_listing kept
  unfold AnswersJson
  rw [hanswer]
  unfold Response.put
  dsimp only
  by_cases hlong : (listing kept).length ≤ responseBufferSize
  · rw [if_pos hlong]
    constructor
    · rintro ⟨r, hr, v, hv⟩
      obtain rfl := Option.some.inj hr
      by_contra hroom
      -- two brackets are open behind the loop, and at most one of them is closed
      rcases (by omega : (listing kept).length + 2 = responseBufferSize ∨
        (listing kept).length + 1 = responseBufferSize ∨ (listing kept).length = responseBufferSize)
        with hone | hnone | hcut
      · have hwhole : (listing kept).take (responseBufferSize - 1) = listing kept :=
          List.take_of_length_le (by omega)
        have hrest : responseBufferSize - (listing kept).length - 1 = 1 := by omega
        have hclosed : walk (.outside, 0) (listing kept ++ [93]) = some (.outside, 1) := by
          rw [JsonText.walk_append, hopen]
          decide
        rw [hwhole, hrest, htail] at hv
        exact JsonText.not_isJson hclosed (by decide) v hv
      · have hwhole : (listing kept).take (responseBufferSize - 1) = listing kept :=
          List.take_of_length_le (by omega)
        have hrest : responseBufferSize - (listing kept).length - 1 = 0 := by omega
        rw [hwhole, hrest, List.take_zero, List.append_nil] at hv
        exact JsonText.not_isJson hopen (by decide) v hv
      · have hrest : responseBufferSize - (listing kept).length - 1 = 0 := by omega
        have hlast : (listing kept).take (responseBufferSize - 1) = (listing kept).dropLast := by
          rw [List.dropLast_eq_take, hcut]
        rw [hlast, hrest, List.take_zero, List.append_nil] at hv
        obtain ⟨t, ht⟩ := listing_ends kept (by rw [hcut]; decide)
        rw [ht] at hopen
        rw [ht, List.dropLast_concat] at hv
        exact JsonText.not_isJson (walk_dropLast hopen) (by decide) v hv
    · intro hroom
      obtain ⟨v, hv⟩ := listing_isJson kept
      have hwhole : (listing kept).take (responseBufferSize - 1) = listing kept :=
        List.take_of_length_le (by omega)
      have htwo : answerTail.take (responseBufferSize - (listing kept).length - 1) = answerTail := by
        apply List.take_of_length_le
        rw [htail, List.length_cons, List.length_singleton]
        omega
      refine ⟨_, rfl, v, ?_⟩
      dsimp only
      rw [hwhole, htwo]
      exact hv
  · rw [if_neg hlong]
    refine iff_of_false ?_ (by omega)
    rintro ⟨r, hr, _⟩
    cases hr

/-- A share whose object takes 1599 bytes. -/
def longShare : ShareInfo where
  name := .of 128 (List.replicate 85 1)
  remark := .of 256 (List.replicate 166 1 ++ List.replicate 9 120)
  type := 0
  isDisk := true
  isHidden := false
  isSpecial := false

theorem answersJson_fails : ¬AnswersJson (List.replicate 41 longShare) := by
  have hnone : sharesAnswer (List.replicate 41 longShare) = none := by decide +kernel
  rintro ⟨r, hr, _⟩
  rw [hnone] at hr
  cases hr

end PkgManager.ShareListing
