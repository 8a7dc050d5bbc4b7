import PkgManager.MultipartReads

namespace PkgManager.MultipartPackage

open MultipartHeader MultipartStream MultipartReads PkgSplit Tiling

variable {m : PkgMeta} {partSize : Nat} {pkg : List UInt8} {files : List (List UInt8)}

/-- The slices of the package, in the order of the parts. -/
def slices (m : PkgMeta) (partSize : Nat) (pkg : List UInt8) : List (List UInt8) :=
  payloads (partsInfo m partSize pkg)

/-- The header in the file of part `i`, counted from 0. -/
def headerAt (m : PkgMeta) (partSize : Nat) (pkg : List UInt8) (i : Nat) : Header :=
  partHeader m pkg.length (partsInfo m partSize pkg)
    ((partsInfo m partSize pkg).getD i ⟨0, 0, 0, []⟩)

theorem splitPkg_eq_some (h : splitPkg m partSize pkg = some files) :
    (∀ p ∈ partsInfo m partSize pkg,
      (partHeader m pkg.length (partsInfo m partSize pkg) p).InRange) ∧
      files = (partsInfo m partSize pkg).map (partFile m pkg.length (partsInfo m partSize pkg)) := by
  unfold splitPkg at h
  simp only at h
  split at h
  · rename_i hr
    exact ⟨hr, (Option.some.inj h).symm⟩
  · cases h

theorem length_slices (h : splitPkg m partSize pkg = some files) :
    (slices m partSize pkg).length = files.length := by
  rw [(splitPkg_eq_some h).2]
  simp [slices, payloads]

/-- The entry of a part: what `split_pkg` put into its file. -/
theorem entry (h : splitPkg m partSize pkg = some files) {i : Nat}
    (hi : i < (slices m partSize pkg).length) :
    ∃ p, (partsInfo m partSize pkg)[i]? = some p ∧
      headerAt m partSize pkg i = partHeader m pkg.length (partsInfo m partSize pkg) p ∧
      files.getD i [] = partFile m pkg.length (partsInfo m partSize pkg) p ∧
      piece (slices m partSize pkg) i = p.payload := by
  have hi' : i < (partsInfo m partSize pkg).length := by
    simpa [slices, payloads] using hi
  have hp := List.getElem?_eq_getElem hi'
  refine ⟨_, hp, ?_, ?_, ?_⟩
  · unfold headerAt
    rw [List.getD_eq_getElem?_getD, hp]
    rfl
  · rw [(splitPkg_eq_some h).2, List.getD_eq_getElem?_getD, List.getElem?_map, hp]
    rfl
  · unfold piece slices payloads
    rw [List.getD_eq_getElem?_getD, List.getElem?_map, hp]
    rfl

theorem length_slices_nil (m : PkgMeta) (partSize : Nat) : (slices m partSize []).length = 1 := rfl

theorem piece_pos {i : Nat} (hmany : 1 < (slices m partSize pkg).length)
    (hi : i < (slices m partSize pkg).length) : 0 < (piece (slices m partSize pkg) i).length := by
  have hne : pkg ≠ [] := by
    intro hnil
    rw [hnil, length_slices_nil] at hmany
    exact Nat.lt_irrefl 1 hmany
  have hi' : i < (partsInfo m partSize pkg).length := by
    simpa [slices, payloads] using hi
  have hp := List.getElem?_eq_getElem hi'
  have hfilled := (partsInfo_cut m partSize pkg).filled hne _ (List.getElem_mem hi')
  unfold piece slices payloads
  rw [List.getD_eq_getElem?_getD, List.getElem?_map, hp]
  exact List.length_pos_iff.mpr hfilled

theorem slices_pos (m : PkgMeta) (partSize : Nat) (pkg : List UInt8) :
    0 < (slices m partSize pkg).length := by
  have hne := List.length_pos_iff.mpr (partsInfo_cut m partSize pkg).nonempty
  simpa [slices, payloads] using hne

theorem header_read (h : splitPkg m partSize pkg = some files) {i : Nat}
    (hi : i < (slices m partSize pkg).length) :
    readHeader (some (files.getD i [])) = .ok (headerAt m partSize pkg i) := by
  obtain ⟨p, hp, hh, hf, _⟩ := entry h hi
  obtain ⟨hidx, _⟩ := (partsInfo_cut m partSize pkg).entry i p hp
  have hlt : i < (partsInfo m partSize pkg).length := by
    simpa [slices, payloads] using hi
  rw [hh, hf]
  exact readHeader_partFile ((splitPkg_eq_some h).1 p (List.mem_of_getElem? hp)) (by omega)
    (by omega)

theorem header_index (h : splitPkg m partSize pkg = some files) {i : Nat}
    (hi : i < (slices m partSize pkg).length) : (headerAt m partSize pkg i).partIndex = i + 1 := by
  obtain ⟨p, hp, hh, _⟩ := entry h hi
  obtain ⟨hidx, _⟩ := (partsInfo_cut m partSize pkg).entry i p hp
  rw [hh]
  show p.index = i + 1
  omega

theorem header_slice (h : splitPkg m partSize pkg = some files) {i : Nat}
    (hi : i < (slices m partSize pkg).length) (k : Nat) :
    ((files.getD i []).drop (dataStart (headerAt m partSize pkg i) + k)) =
      (piece (slices m partSize pkg) i).drop k := by
  obtain ⟨p, hp, hh, hf, hpiece⟩ := entry h hi
  obtain ⟨hidx, _, hdata⟩ := (partsInfo_cut m partSize pkg).entry i p hp
  have hd : p.dataOffset = slicedFrom m p.index := by rw [hdata, hidx]
  have hstart : dataStart (headerAt m partSize pkg i) = p.dataOffset := by
    have hne : p.dataOffset ≠ 0 := by
      rw [hd]
      unfold slicedFrom headerSize
      omega
    rw [hh]
    exact if_neg hne
  rw [hf, hpiece, hstart]
  exact drop_partFile hd k

/-- The parts `split_pkg` wrote. -/
def split (m : PkgMeta) (partSize : Nat) (pkg : List UInt8) (files : List (List UInt8))
    (h : splitPkg m partSize pkg = some files) (hle : files.length ≤ maxParts) : Split where
  pkg := pkg
  pieces := slices m partSize pkg
  file i := files.getD i []
  header := headerAt m partSize pkg
  uuid := ljust 16 (m.pkgUuid.take 16)
  name := cString (text 256 m.filename)
  flatten := (partsInfo_cut m partSize pkg).flatten
  count_pos := slices_pos m partSize pkg
  count_le := by rw [length_slices h]; exact hle
  small := by
    obtain ⟨p, hp⟩ := List.exists_mem_of_ne_nil _ (partsInfo_cut m partSize pkg).nonempty
    exact ((splitPkg_eq_some h).1 p hp).totalPkgSize
  filled := fun hmany i hi => piece_pos hmany hi
  read _ hi := header_read h hi
  index _ hi := header_index h hi
  total i hi := by
    obtain ⟨p, _, hh, _⟩ := entry h hi
    rw [hh]
    exact (List.length_map _).symm
  pkgSize i hi := by
    obtain ⟨p, _, hh, _⟩ := entry h hi
    rw [hh]
    rfl
  dataSize i hi := by
    obtain ⟨p, _, hh, _, hpiece⟩ := entry h hi
    rw [hh, hpiece]
    rfl
  offset i hi := by
    obtain ⟨p, hp, hh, _⟩ := entry h hi
    obtain ⟨_, hoff, _⟩ := (partsInfo_cut m partSize pkg).entry i p hp
    rw [hh]
    exact hoff.trans (Nat.zero_add _)
  packageUuid i hi := by
    obtain ⟨p, _, hh, _⟩ := entry h hi
    rw [hh]
    rfl
  pkgFilename i hi := by
    obtain ⟨p, _, hh, _⟩ := entry h hi
    rw [hh]
    rfl
  slice _ hi k := header_slice h hi k

/-- Every read of a split package is good if and only if the parts that were not
mounted when the stream was opened, the last apart, have slices as long as that
of the part it was opened on. -/
theorem reads_agree_iff (h : splitPkg m partSize pkg = some files) (hle : files.length ≤ maxParts)
    (present : Nat → Bool) (o : Nat) (ho : o < files.length) :
    ReadsAgree (split m partSize pkg files h hle) present o ↔
      ∀ i, i ≠ o → present i = false → i + 1 < files.length →
        (piece (slices m partSize pkg) i).length = (piece (slices m partSize pkg) o).length := by
  have hcount := length_slices h
  have ho' : o < (split m partSize pkg files h hle).pieces.length := hcount ▸ ho
  constructor
  · intro hag i hne hp hi
    by_contra hsize
    exact not_reads_agree ho' ⟨hne, hp, hcount ▸ hi, hsize⟩ hag
  · intro hok
    apply reads_agree_of_uniform ho'
    rintro i ⟨hne, hp, hi, hsize⟩
    exact hsize (hok i hne hp (hcount ▸ hi))

/-- Five bytes in parts of two. -/
def fiveBytes : List UInt8 := [1, 2, 3, 4, 5]

def fiveMeta : PkgMeta := ⟨[], [], [], [], [], [], [], []⟩

def fiveFiles : List (List UInt8) :=
  (partsInfo fiveMeta 4098 fiveBytes).map
    (partFile fiveMeta fiveBytes.length (partsInfo fiveMeta 4098 fiveBytes))

theorem splitPkg_five : splitPkg fiveMeta 4098 fiveBytes = some fiveFiles := by
  have hr : ∀ p ∈ partsInfo fiveMeta 4098 fiveBytes,
      (partHeader fiveMeta fiveBytes.length (partsInfo fiveMeta 4098 fiveBytes) p).InRange := by
    decide
  unfold splitPkg
  exact if_pos hr

theorem length_fiveFiles : fiveFiles.length = 3 := rfl

/-- Opened on the first part, with no other one mounted. -/
theorem reads_agree_iff_five :
    ReadsAgree (split fiveMeta 4098 fiveBytes fiveFiles splitPkg_five (by decide))
      (fun _ => false) 0 := by
  refine (reads_agree_iff splitPkg_five _ _ 0 (by decide)).mpr fun i h0 _ hi => ?_
  rw [length_fiveFiles] at hi
  obtain rfl : i = 1 := by omega
  rfl

/-- Opened on the last part, which is shorter than the ones that are not mounted. -/
theorem reads_agree_fails :
    ¬∀ m partSize pkg files (h : splitPkg m partSize pkg = some files)
      (hle : files.length ≤ maxParts) present o, o < files.length →
        ReadsAgree (split m partSize pkg files h hle) present o := by
  intro hall
  have hag := hall fiveMeta 4098 fiveBytes fiveFiles splitPkg_five (by decide) (fun _ => false) 2
    (by decide)
  have hbad : Misjudged (split fiveMeta 4098 fiveBytes fiveFiles splitPkg_five (by decide))
      (fun _ => false) 2 0 := ⟨by decide, rfl, by decide, by decide⟩
  exact not_reads_agree (by decide) hbad hag

end PkgManager.MultipartPackage
