import PkgManager.MemParser

namespace PkgManager.MemFields

open CText (ascii)
open BoundedMemory MemParser
open PkgMetadata (Text)
open PkgParser (PkgType)
open MultipartHeader (Header)

/-! The fields that are written. -/

/-- A field whose last byte is the NUL that was there from the beginning. -/
structure Field (n : Nat) (r : Region) : Prop where
  length : r.length = n
  written : Written r n
  last : r[n - 1]? = some (some 0)

variable {n : Nat} {dst src : Region}

theorem Field.terminated (h : Field n dst) : Terminated dst :=
  terminated_of (h.written.mono (Nat.sub_le n 1)) h.last

theorem Field.pos (h : Field n dst) : 0 < n := h.length ▸ h.terminated.pos

theorem zeros_field (h : 0 < n) : Field n (zeros n) where
  length := List.length_replicate
  written := fun i hi => ⟨0, by rw [zeros, List.getElem?_replicate, if_pos hi]⟩
  last := by rw [zeros, List.getElem?_replicate, if_pos (by omega)]

/-- The field stays one where what is written ends before its last byte or with a NUL. -/
theorem write_field (h : Field n dst) {off : Nat} {bs : Text} (hle : off + bs.length ≤ n)
    (hlast : off + bs.length = n → bs.getLast? = some 0) : Safe (write dst off bs) (Field n) := by
  have hpos := h.pos
  refine (write_written dst off bs (by rw [h.length]; exact hle)).imp fun r hr => ?_
  obtain ⟨hlen, hin, hout⟩ := hr
  refine ⟨hlen.trans h.length, fun i hi => ?_, ?_⟩
  · by_cases hi' : off ≤ i ∧ i < off + bs.length
    · rw [hin i hi'.1 hi'.2, List.getElem?_eq_getElem (by omega)]
      exact ⟨_, rfl⟩
    · rw [hout i (by omega)]
      exact h.written i hi
  · by_cases hend : off + bs.length = n
    · have hbs := hlast hend
      have hne : 0 < bs.length := List.length_pos_iff.mpr fun h0 => by rw [h0] at hbs; cases hbs
      rw [hin (n - 1) (by omega) (by omega), show n - 1 - off = bs.length - 1 by omega,
        ← List.getLast?_eq_getElem?, hbs]
      rfl
    · rw [hout (n - 1) (by omega)]
      exact h.last

/-- A copy of a string, filled with NULs. -/
theorem strncpy_field (h : Field n dst) (hsrc : Terminated src) {m : Nat} (hm : m < n) :
    Safe (strncpy dst 0 src m) (Field n) := by
  obtain ⟨s, hs⟩ := hsrc
  unfold strncpy
  rw [stringUpTo_cstring hs, ok_bind]
  have hlen : (s.take m ++ List.replicate (m - (s.take m).length) 0).length = m := by
    rw [List.length_append, List.length_replicate, List.length_take]
    omega
  exact write_field h (by omega) (by omega)

theorem copyField_field (h : Field n dst) (hsrc : Terminated src) :
    Safe (copyField dst src) (Field n) := by
  have hpos := h.pos
  unfold copyField
  rw [h.length]
  exact strncpy_field h hsrc (by omega)

theorem printField_field (h : Field n dst) (s : Text) : Safe (printField dst s) (Field n) := by
  have hpos := h.pos
  unfold printField print
  rw [h.length, if_neg (by omega)]
  have hlen : (s.take (n - 1) ++ [0]).length ≤ n := by
    rw [List.length_append, List.length_take, List.length_singleton]
    omega
  exact write_field h (by omega) fun _ => by simp

theorem isEmpty_safe (h : Terminated src) : Safe (isEmpty src) fun _ => True := by
  unfold isEmpty
  exact h.load.bind fun b _ => .pure trivial

theorem copyOr_field {other : Region} (h : Field n dst) (hsrc : Terminated src)
    (hother : Terminated other) : Safe (copyOr dst src other) (Field n) := by
  unfold copyOr
  refine (isEmpty_safe hsrc).bind fun b _ => ?_
  split
  · exact copyField_field h hother
  · exact copyField_field h hsrc

theorem copyGiven_field (h : Field n dst) (hsrc : Terminated src) :
    Safe (copyGiven dst src) (Field n) := by
  unfold copyGiven
  refine (isEmpty_safe hsrc).bind fun b _ => ?_
  split
  · exact .pure h
  · exact copyField_field h hsrc

theorem fillField_field (h : Field n dst) (hsrc : Terminated src) :
    Safe (fillField dst src) (Field n) := by
  unfold fillField
  refine (isEmpty_safe h.terminated).bind fun b _ => ?_
  split
  · exact copyGiven_field h hsrc
  · exact .pure h

theorem fillFrom_field (h : Field n dst) {src : Option Region} (hsrc : ∀ r ∈ src, Terminated r) :
    Safe (fillFrom dst src) (Field n) := by
  cases src with
  | none => exact .pure h
  | some src => exact fillField_field h (hsrc src rfl)

theorem literal_terminated {s : Text} (h : 0 ∉ s) : Terminated (literal s) := ⟨s, cstring_literal h⟩

/-- The fields of the result. -/
structure Sound (d : Detail) : Prop where
  path : Field 512 d.path
  filename : Field 256 d.filename
  titleId : Field 32 d.titleId
  titleName : Field 256 d.titleName
  localizedTitles : Field 2048 d.localizedTitles
  defaultLanguage : Field 32 d.defaultLanguage
  contentId : Field 64 d.contentId
  appVersion : Field 32 d.appVersion
  pkgTypeStr : Field 16 d.pkgTypeStr
  category : Field 16 d.category

theorem cleared_sound : Sound Detail.cleared where
  path := zeros_field (by decide)
  filename := zeros_field (by decide)
  titleId := zeros_field (by decide)
  titleName := zeros_field (by decide)
  localizedTitles := zeros_field (by decide)
  defaultLanguage := zeros_field (by decide)
  contentId := zeros_field (by decide)
  appVersion := zeros_field (by decide)
  pkgTypeStr := zeros_field (by decide)
  category := zeros_field (by decide)

variable {out : Detail}

/-! The name of the file. -/

theorem baseOf_terminated (h : Terminated src) : Safe (baseOf src) Terminated := by
  unfold baseOf
  refine (h.strchr (by decide)).bind fun found hfound => ?_
  cases found with
  | none => exact .pure h
  | some slash => exact .pure (hfound slash rfl)

theorem takeFilename_sound (hname : Terminated src) (h : Sound out) :
    Safe (takeFilename src out) Sound := by
  unfold takeFilename
  refine (baseOf_terminated hname).bind fun base hbase => ?_
  refine (hbase.begins (by decide)).bind fun live _ => ?_
  split
  · obtain ⟨s, hs⟩ := hbase
    rw [stringUpTo_cstring hs, ok_bind]
    refine (printField_field h.filename _).bind fun name hname => ?_
    rw [hs, ok_bind]
    refine (printField_field h.path _).bind fun path hpath => .pure ?_
    exact { h with filename := hname, path := hpath }
  · refine (copyField_field h.filename hbase).bind fun name hfile => ?_
    refine (copyField_field h.path hname).bind fun path hpath => .pure ?_
    exact { h with filename := hfile, path := hpath }

theorem nameFields_sound (h : Sound out) {filename : Option Region}
    (hname : ∀ r ∈ filename, Terminated r) : Safe (nameFields out filename) Sound := by
  cases filename with
  | none => exact .pure h
  | some filename =>
    refine (isEmpty_safe (hname filename rfl)).bind fun b _ => ?_
    split
    · exact .pure h
    · exact takeFilename_sound (hname filename rfl) h

/-! A part of a multi-part package. -/

theorem closed_terminated (field : Text) (h : 0 < field.length) : Safe (closed field) Terminated := by
  unfold closed
  have hwritten : Written (ofBytes field) (field.length - 1) :=
    (written_ofBytes field).mono (Nat.sub_le _ _)
  refine (write_nul hwritten ?_).imp fun r hr => hr.2
  rw [ofBytes, List.length_map]
  omega

theorem multipartType_safe {kind : Region} (h : Terminated kind) :
    Safe (multipartType kind) fun _ => True := by
  unfold multipartType
  refine (h.equals (by decide)).bind fun b _ => ?_
  split
  · exact .pure trivial
  refine (h.equals (by decide)).bind fun b _ => ?_
  split <;> exact .pure trivial

theorem str_terminated (type : PkgType) : Terminated (literal (ascii type.str)) :=
  literal_terminated (by cases type <;> decide)

theorem texts_length {h : Header} (hf : h.Filled) : h.pkgType.length = 16 ∧ h.titleId.length = 32 ∧
    h.titleName.length = 256 ∧ h.contentId.length = 64 ∧ h.appVersion.length = 32 := by
  unfold Header.Filled Header.fields MultipartHeader.widths at hf
  simp only [List.map_cons, List.map_nil, List.cons.injEq, and_true] at hf
  obtain ⟨-, -, -, -, -, -, -, -, -, -, -, hid, hname, hcontent, -, -, -, hversion, hkind, -⟩ := hf
  exact ⟨hkind, hid, hname, hcontent, hversion⟩

theorem multipartFields_sound {h : Header} (hf : h.Filled) (hout : Sound out) :
    Safe (multipartFields h out) Sound := by
  obtain ⟨hkind, hid, hname, hcontent, hversion⟩ := texts_length hf
  unfold multipartFields
  refine (closed_terminated h.pkgType (by omega)).bind fun pkgType hpkgType => ?_
  refine (closed_terminated h.titleId (by omega)).bind fun id hid => ?_
  refine (closed_terminated h.titleName (by omega)).bind fun name hname => ?_
  refine (closed_terminated h.contentId (by omega)).bind fun content hcontent => ?_
  refine (closed_terminated h.appVersion (by omega)).bind fun version hversion => ?_
  refine (multipartType_safe hpkgType).bind fun type _ => ?_
  refine (copyField_field hout.pkgTypeStr (str_terminated type)).bind fun str hstr => ?_
  have hunknown : Terminated (literal (ascii "UNKNOWN")) := literal_terminated (by decide)
  refine (copyOr_field hout.titleId hid hunknown).bind fun titleId htitleId => ?_
  refine (copyOr_field hout.titleName hname htitleId.terminated).bind fun titleName htitleName => ?_
  refine (copyGiven_field hout.appVersion hversion).bind fun appVersion happVersion => ?_
  refine (copyGiven_field hout.contentId hcontent).bind fun contentId hcontentId => .pure ?_
  exact { hout with
    pkgTypeStr := hstr, titleId := htitleId, titleName := htitleName, appVersion := happVersion,
    contentId := hcontentId }

/-! The content id. -/

theorem cutLoop_field (h : Field 64 dst) {is : List Nat} (his : ∀ i ∈ is, i < 48) :
    Safe (cutLoop dst is) (Field 64) := by
  induction is with
  | nil => exact .pure h
  | cons i is ih =>
    have hi : i < 48 := his i List.mem_cons_self
    obtain ⟨b, hb⟩ := h.written i (by omega)
    rw [cutLoop, load_ok hb, ok_bind]
    split
    · exact write_field h (by simp; omega) (by simp)
    · exact ih fun j hj => his j (List.mem_cons_of_mem i hj)

theorem takeContentId_field (h : Field 64 dst) {cid : Region} (hcid : Written cid 48) :
    Safe (takeContentId dst cid) (Field 64) := by
  unfold takeContentId memcpy
  obtain ⟨s, hs, -, hlen⟩ := readBytes_written hcid
  rw [hs, ok_bind]
  refine (write_field h (by omega) (by omega)).bind fun r hr => ?_
  refine (write_field hr (by simp) (by simp)).bind fun r' hr' => ?_
  exact cutLoop_field hr' fun i hi => List.mem_range.mp hi

/-! Behind the walk. -/

theorem hasPrefix_safe (h : Terminated src) {pats : List String} (hpats : ∀ pat ∈ pats, 0 ∉ ascii pat) :
    Safe (hasPrefix src pats) fun _ => True := by
  induction pats with
  | nil => exact .pure trivial
  | cons pat pats ih =>
    refine (h.begins (hpats pat List.mem_cons_self)).bind fun b _ => ?_
    split
    · exact .pure trivial
    · exact ih fun pat hp => hpats pat (List.mem_cons_of_mem _ hp)

theorem isDlcCategory_safe (h : Terminated src) : Safe (isDlcCategory src) fun _ => True := by
  unfold isDlcCategory
  refine (hasPrefix_safe h (by decide)).bind fun b _ => ?_
  split
  · exact .pure trivial
  · exact h.equals (by decide)

theorem classify_safe (typeMagic : Nat) {w : Walk} (h : Terminated w.out.category) :
    Safe (classify typeMagic w) fun _ => True := by
  unfold classify
  dsimp only
  split
  · exact .pure trivial
  refine (hasPrefix_safe h (by decide)).bind fun b _ => ?_
  split
  · exact .pure trivial
  refine (isDlcCategory_safe h).bind fun b _ => ?_
  split
  · exact .pure trivial
  refine (hasPrefix_safe h (by decide)).bind fun b _ => ?_
  split
  · exact .pure trivial
  split <;> exact .pure trivial

theorem idFromContent_field (h : Field n dst) (hsrc : Terminated src) :
    Safe (idFromContent dst src) (Field n) := by
  unfold idFromContent
  refine (hsrc.strchr (by decide)).bind fun dash hdash => ?_
  cases dash with
  | none => exact .pure h
  | some dash =>
    have hbehind := hdash dash rfl
    refine (hbehind.strchr (by decide)).bind fun len _ => ?_
    cases len with
    | none => exact .pure h
    | some len =>
      dsimp only
      rw [h.length]
      split
      · rename_i hlen
        refine (strncpy_field h hbehind hlen).bind fun r hr => ?_
        exact write_field hr (by simp; omega) (by simp)
      · exact .pure h

theorem fallbackId_field (h : Field n dst) (hsrc : Terminated src) :
    Safe (fallbackId dst src) (Field n) := by
  unfold fallbackId
  refine (isEmpty_safe h.terminated).bind fun b _ => ?_
  split
  · refine (isEmpty_safe hsrc).bind fun b _ => ?_
    split
    · exact .pure h
    · exact idFromContent_field h hsrc
  · exact .pure h

theorem fallbackName_field (h : Field n dst) (hsrc : Terminated src) :
    Safe (fallbackName dst src) (Field n) := by
  unfold fallbackName
  refine (isEmpty_safe h.terminated).bind fun b _ => ?_
  split
  · obtain ⟨s, hs⟩ := hsrc
    rw [hs, ok_bind]
    exact printField_field h _
  · exact .pure h

theorem finish_sound (typeMagic : Nat) {w : Walk} (h : Sound w.out) :
    Safe (finish typeMagic w) fun r => Sound r.out := by
  unfold finish
  refine (classify_safe typeMagic h.category.terminated).bind fun type _ => ?_
  refine (copyField_field h.pkgTypeStr (str_terminated type)).bind fun str hstr => ?_
  refine (fallbackId_field h.titleId h.contentId.terminated).bind fun titleId htitleId => ?_
  refine (fallbackName_field h.titleName htitleId.terminated).bind fun titleName htitleName => .pure ?_
  exact { h with pkgTypeStr := hstr, titleId := htitleId, titleName := htitleName }

end PkgManager.MemFields
