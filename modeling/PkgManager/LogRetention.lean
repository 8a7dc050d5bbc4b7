import PkgManager.Comparison
import PkgManager.LogNames

namespace PkgManager.LogRetention

open CText Comparison LogNames
open PkgMetadata (Text)
open ScannerState (strcmp)
open SmbBrowse (bytes strcmp_sign negative_iff zero_iff bytes_inj)

/-- What `readdir` and `lstat` say of a directory entry. -/
structure Entry where
  name : Text
  regular : Bool
  noNul : 0 ∉ name
  noSlash : 47 ∉ name

/-- `log_file_t`. -/
structure LogFile where
  name : Text
  isCurrent : Bool

def strncmp (s t : Text) (n : Nat) : Int32 := strcmp (s.take n) (t.take n)

/-- `log_file_cmp`. -/
def logFileCmp (fa fb : LogFile) : Int32 :=
  if fa.isCurrent ≠ fb.isCurrent then
    (if fa.isCurrent then 1 else 0) - (if fb.isCurrent then 1 else 0)
  else
    let la := fa.name.length
    let lb := fb.name.length
    let c := if 20 ≤ la ∧ 20 ≤ lb then
      strncmp (fa.name.drop (la - 20)) (fb.name.drop (lb - 20)) 20 else 0
    if c ≠ 0 then c else strcmp fa.name fb.name

/-- Whether the directory can be opened, and whether there is memory for the n-th log. -/
structure Host where
  opens : Bool
  memory : Nat → Bool

def pathOf (directory name : Text) : Text := directory ++ 47 :: name

/-- The path is not cut off at the end of its buffer. -/
def fits (directory name : Text) : Bool := (pathOf directory name).length < 1024

def isLog (start name : Text) : Bool :=
  start.length + 4 < name.length ∧ start <+: name ∧ name.drop (name.length - 4) = ascii ".txt"

/-- The loop over the directory; none where the memory runs out. -/
def scan (host : Host) (directory start current : Text) : List Entry → List LogFile → Option (List LogFile)
  | [], files => some files
  | e :: entries, files =>
    if isLog start e.name ∧ fits directory e.name ∧ e.regular then
      if host.memory files.length then
        scan host directory start current entries (files ++ [⟨e.name, e.name = current⟩])
      else none
    else scan host directory start current entries files

/-- `debug_log_retain_latest`: the names of the files it unlinks. -/
def debugLogRetainLatest (host : Host) (directory start currentPath : Text) (limit : Nat)
    (entries : List Entry) : List Text :=
  if limit = 0 ∨ !host.opens then []
  else
    match scan host directory start (baseName currentPath) entries [] with
    | none => []
    | some files =>
      if limit < files.length then
        let sorted := files.mergeSort fun a b => logFileCmp a b ≤ 0
        ((sorted.take (files.length - limit)).map LogFile.name).filter (fits directory)
      else []

/-! The order of the files. -/

/-- The current file last, then the ends of the names, then the names. -/
def key (f : LogFile) : Bool ×ₗ (List Nat ×ₗ List Nat) :=
  toLex (f.isCurrent, toLex (bytes (f.name.drop (f.name.length - 20)), bytes f.name))

/-- A name as a directory holds it, with room for the time. -/
structure Named (f : LogFile) : Prop where
  noNul : 0 ∉ f.name
  long : 20 ≤ f.name.length

theorem cmp_sign {a b : LogFile} (ha : Named a) (hb : Named b) :
    (logFileCmp a b < 0 ↔ key a < key b) ∧ (logFileCmp a b = 0 ↔ key a = key b) := by
  have htail : ∀ f : LogFile, Named f →
      (f.name.drop (f.name.length - 20)).take 20 = f.name.drop (f.name.length - 20) := by
    intro f hf
    apply List.take_of_length_le
    rw [List.length_drop]
    omega
  have hlong : 20 ≤ a.name.length ∧ 20 ≤ b.name.length := ⟨ha.long, hb.long⟩
  obtain ⟨hend, hend'⟩ := strcmp_sign (s := a.name.drop (a.name.length - 20))
    (t := b.name.drop (b.name.length - 20)) (fun h => ha.noNul (List.mem_of_mem_drop h))
    (fun h => hb.noNul (List.mem_of_mem_drop h))
  obtain ⟨hname, hname'⟩ := strcmp_sign ha.noNul hb.noNul
  unfold logFileCmp key strncmp
  rw [Prod.Lex.toLex_lt_toLex, Prod.Lex.toLex_lt_toLex, toLex_inj, Prod.mk.injEq, toLex_inj,
    Prod.mk.injEq]
  dsimp only
  by_cases hcur : a.isCurrent = b.isCurrent
  · rw [if_neg (not_not.mpr hcur), if_pos hlong, htail a ha, htail b hb, hcur]
    simp only [lt_irrefl, false_or, true_and]
    by_cases heq : strcmp (a.name.drop (a.name.length - 20)) (b.name.drop (b.name.length - 20)) = 0
    · rw [if_neg (not_not.mpr heq), hname, hname', hend'.mp heq]
      simp
    · have hne : bytes (a.name.drop (a.name.length - 20)) ≠ bytes (b.name.drop (b.name.length - 20)) :=
        mt hend'.mpr heq
      rw [if_pos heq, hend, hend']
      simp [hne]
  · rw [if_pos hcur]
    cases hac : a.isCurrent <;> cases hbc : b.isCurrent
    · exact absurd (hac.trans hbc.symm) hcur
    · exact ⟨iff_of_true (by decide) (.inl (by decide)), iff_of_false (by decide) (by simp)⟩
    · exact ⟨iff_of_false (by decide) (by simp), iff_of_false (by decide) (by simp)⟩
    · exact absurd (hac.trans hbc.symm) hcur

theorem cmp_le {a b : LogFile} (ha : Named a) (hb : Named b) :
    logFileCmp a b ≤ 0 ↔ key a ≤ key b := by
  obtain ⟨hlt, heq⟩ := cmp_sign ha hb
  rw [le_iff_lt_or_eq, ← hlt, ← heq, Int32.le_iff_toInt_le, negative_iff, zero_iff]
  exact Int.le_iff_lt_or_eq

theorem cmp_orders {files : List LogFile} (hfiles : ∀ f ∈ files, Named f) :
    OrdersOn (fun a b => (logFileCmp a b).toInt) {f | f ∈ files} := by
  apply ordersOn_of_key (k := key)
  intro a ha b hb
  obtain ⟨hlt, heq⟩ := cmp_sign (hfiles a ha) (hfiles b hb)
  exact ⟨(negative_iff _).symm.trans hlt, (zero_iff _).symm.trans heq⟩

theorem name_of_key {a b : LogFile} (h : key a = key b) : a.name = b.name :=
  bytes_inj.mp (Prod.mk.inj (toLex_inj.mp (Prod.mk.inj (toLex_inj.mp h)).2)).2

/-- Sorted by the comparison, files of distinct names ascend by their keys. -/
theorem sorted_ascends {files : List LogFile} (hfiles : ∀ f ∈ files, Named f)
    (hnames : (files.map LogFile.name).Nodup) :
    (files.mergeSort fun a b => logFileCmp a b ≤ 0).Pairwise fun a b => key a < key b := by
  have hkeys : (files.mergeSort fun a b => logFileCmp a b ≤ 0).map key =
      (files.map key).mergeSort fun x y => x ≤ y := by
    apply List.map_mergeSort
    intro a ha b hb
    exact decide_eq_decide.mpr (cmp_le (hfiles a ha) (hfiles b hb))
  have hle : (files.mergeSort fun a b => logFileCmp a b ≤ 0).Pairwise fun a b => key a ≤ key b := by
    rw [← List.pairwise_map (R := (· ≤ ·)), hkeys]
    have hsorted : ((files.map key).mergeSort fun x y => decide (x ≤ y)).Pairwise fun x y =>
        decide (x ≤ y) = true := by
      apply List.pairwise_mergeSort
      · intro x y z hxy hyz
        exact decide_eq_true ((of_decide_eq_true hxy).trans (of_decide_eq_true hyz))
      · intro x y
        simpa using le_total x y
    exact hsorted.imp fun h => of_decide_eq_true h
  have hne : (files.mergeSort fun a b => logFileCmp a b ≤ 0).Pairwise fun a b => a.name ≠ b.name := by
    rw [← List.pairwise_map (R := (· ≠ ·))]
    exact ((List.mergeSort_perm files _).map LogFile.name).nodup_iff.mpr hnames
  exact (hle.and hne).imp fun h => lt_of_le_of_ne h.1 fun he => h.2 (name_of_key he)

/-! The files of a scan. -/

/-- The entry is taken up by the scan. -/
def taken (directory start : Text) (e : Entry) : Bool :=
  isLog start e.name ∧ fits directory e.name ∧ e.regular

def found (directory start current : Text) (entries : List Entry) : List LogFile :=
  (entries.filter (taken directory start)).map fun e => ⟨e.name, e.name = current⟩

/-- The directory opens and the memory suffices for that many logs. -/
def Host.Scans (host : Host) (count : Nat) : Prop :=
  host.opens = true ∧ ∀ n < count, host.memory n = true

section

variable {host : Host} {directory start current : Text}

theorem scan_taken {e : Entry} (he : taken directory start e = true) (entries : List Entry)
    (files : List LogFile) :
    scan host directory start current (e :: entries) files =
      if host.memory files.length then
        scan host directory start current entries (files ++ [⟨e.name, e.name = current⟩])
      else none :=
  if_pos (of_decide_eq_true he)

theorem scan_skipped {e : Entry} (he : taken directory start e = false) (entries : List Entry)
    (files : List LogFile) :
    scan host directory start current (e :: entries) files =
      scan host directory start current entries files :=
  if_neg (of_decide_eq_false he)

theorem found_taken {e : Entry} (he : taken directory start e = true) (entries : List Entry) :
    found directory start current (e :: entries) =
      ⟨e.name, e.name = current⟩ :: found directory start current entries := by
  unfold found
  rw [List.filter_cons_of_pos he]
  rfl

theorem found_skipped {e : Entry} (he : taken directory start e = false) (entries : List Entry) :
    found directory start current (e :: entries) = found directory start current entries := by
  unfold found
  rw [List.filter_cons_of_neg (by simp [he])]

theorem scan_some {entries : List Entry} {files : List LogFile}
    (h : ∀ n < files.length + (found directory start current entries).length,
      files.length ≤ n → host.memory n = true) :
    scan host directory start current entries files =
      some (files ++ found directory start current entries) := by
  induction entries generalizing files with
  | nil => simp [scan, found]
  | cons e entries ih =>
    cases he : taken directory start e with
    | false =>
      rw [found_skipped he] at h ⊢
      rw [scan_skipped he, ih h]
    | true =>
      rw [found_taken he] at h ⊢
      rw [List.length_cons] at h
      rw [scan_taken he, if_pos (h _ (by omega) le_rfl), ih, List.append_assoc]
      · rfl
      · intro n hn hle
        rw [List.length_append, List.length_singleton] at hn hle
        exact h n (by omega) (by omega)

theorem scan_none {entries : List Entry} {files : List LogFile} {n : Nat} (hle : files.length ≤ n)
    (hlt : n < files.length + (found directory start current entries).length)
    (h : host.memory n = false) : scan host directory start current entries files = none := by
  induction entries generalizing files with
  | nil =>
    simp only [found, List.filter_nil, List.map_nil, List.length_nil] at hlt
    omega
  | cons e entries ih =>
    cases he : taken directory start e with
    | false =>
      rw [found_skipped he] at hlt
      rw [scan_skipped he]
      exact ih hle hlt
    | true =>
      rw [found_taken he, List.length_cons] at hlt
      rw [scan_taken he]
      by_cases hn : files.length = n
      · rw [hn, h, if_neg Bool.false_ne_true]
      · split
        · apply ih
          · rw [List.length_append, List.length_singleton]
            omega
          · rw [List.length_append, List.length_singleton]
            omega
        · rfl

theorem retain_failed {entries : List Entry} (currentPath : Text) (limit : Nat)
    (h : ¬host.Scans (found directory start (baseName currentPath) entries).length) :
    debugLogRetainLatest host directory start currentPath limit entries = [] := by
  unfold debugLogRetainLatest
  cases hopen : host.opens with
  | false => rw [if_pos (.inr rfl)]
  | true =>
    have hno : ¬∀ n < (found directory start (baseName currentPath) entries).length,
        host.memory n = true := fun hall => h ⟨hopen, hall⟩
    push Not at hno
    obtain ⟨n, hn, hfail⟩ := hno
    rw [scan_none (Nat.zero_le n) (by simpa using hn) (by simpa using hfail)]
    exact ite_self []

theorem retain_scanned {entries : List Entry} (currentPath : Text) {limit : Nat}
    (hlimit : 1 ≤ limit)
    (h : host.Scans (found directory start (baseName currentPath) entries).length) :
    debugLogRetainLatest host directory start currentPath limit entries =
      if limit < (found directory start (baseName currentPath) entries).length then
        ((((found directory start (baseName currentPath) entries).mergeSort fun a b =>
          logFileCmp a b ≤ 0).take ((found directory start (baseName currentPath) entries).length -
            limit)).map LogFile.name).filter (fits directory)
      else [] := by
  have hgo : ¬(limit = 0 ∨ (!host.opens) = true) := by
    rw [h.1]
    simp only [Bool.not_true, Bool.false_eq_true, or_false]
    omega
  unfold debugLogRetainLatest
  rw [if_neg hgo, scan_some fun n hn _ => h.2 n (by simpa using hn)]
  rfl

end

/-! A directory with the logs of a writer. -/

/-- Of the files with the start of the writer and `.txt` at their end, all are logs it
opened there; the other files may be any. -/
structure LogDirectory (w : Writer) (directory : Text) (entries : List Entry) (logs : List Log)
    (current : Log) : Prop where
  writer : ∀ l ∈ logs, l.writer = w
  fit : ∀ l ∈ logs, fits directory l.name = true
  distinct : (logs.map Log.name).Nodup
  names : (entries.map Entry.name).Nodup
  stored : ∀ l ∈ logs, ∃ e ∈ entries, e.name = l.name ∧ e.regular = true
  only : ∀ e ∈ entries, w.start <+: e.name → ascii ".txt" <:+ e.name → ∃ l ∈ logs, l.name = e.name
  current_mem : current ∈ logs

/-- A log as the scan notes it. -/
def fileOf (current l : Log) : LogFile := ⟨l.name, l.name = current.name⟩

/-- The call unlinked all but the newest. -/
structure KeepsLatest (w : Writer) (logs : List Log) (current : Log) (limit : Nat)
    (removed : List Text) : Prop where
  spared : current.name ∉ removed
  count : (logs.countP fun l => l.name ∉ removed) = min limit logs.length
  newest : ∀ a ∈ logs, ∀ b ∈ logs, a.name ≠ current.name → a.name ∉ removed → b.name ∈ removed →
    ¬a.before b
  touched : ∀ name ∈ removed, w.start <+: name ∧ ascii ".txt" <:+ name

/-- Of two other logs the one created first is sorted first. -/
def InOrder (logs : List Log) (current : Log) : Prop :=
  ∀ a ∈ logs, ∀ b ∈ logs, a.name ≠ current.name → b.name ≠ current.name → a.before b → a.Precedes b

section

variable {host : Host} {w : Writer} {directory : Text} {entries : List Entry} {logs : List Log}
  {current : Log}

theorem isLog_name (l : Log) : isLog l.writer.start l.name = true := by
  obtain ⟨front, hname⟩ := l.name_eq
  have hend := l.length_ending
  have htxt : (ascii ".txt").length = 4 := rfl
  refine decide_eq_true ⟨?_, ?_, ?_⟩
  · rw [hname]
    simp only [List.length_append, htxt]
    omega
  · rw [hname, List.append_assoc, List.append_assoc]
    exact List.prefix_append _ _
  · have hlen : l.name.length - 4 = (l.writer.start ++ front ++ l.ending).length := by
      rw [hname, List.length_append, htxt]
      omega
    rw [hlen]
    conv_lhs => rw [hname]
    exact List.drop_left

theorem LogDirectory.entry (h : LogDirectory w directory entries logs current) {l : Log}
    (hl : l ∈ logs) : 0 ∉ l.name ∧ 47 ∉ l.name := by
  obtain ⟨e, _, he, _⟩ := h.stored l hl
  rw [← he]
  exact ⟨e.noNul, e.noSlash⟩

theorem LogDirectory.current_name (h : LogDirectory w directory entries logs current) :
    baseName (pathOf directory current.name) = current.name :=
  baseName_append directory (h.entry h.current_mem).2

theorem suffix_of_drop {s t : Text} {n : Nat} (h : s.drop n = t) : t <:+ s :=
  h ▸ List.drop_suffix n s

/-- The scan finds the logs, each once. -/
theorem LogDirectory.found_perm (h : LogDirectory w directory entries logs current) :
    (found directory w.start current.name entries).Perm (logs.map (fileOf current)) := by
  have hinj : ∀ {f g : LogFile}, f.isCurrent = decide (f.name = current.name) →
      g.isCurrent = decide (g.name = current.name) → f.name = g.name → f = g := by
    rintro ⟨n, c⟩ ⟨n', c'⟩ hf hg rfl
    exact congrArg _ (hf.trans hg.symm)
  apply (List.perm_ext_iff_of_nodup ?_ ?_).mpr
  · intro f
    unfold found
    rw [List.mem_map, List.mem_map]
    constructor
    · rintro ⟨e, he, rfl⟩
      obtain ⟨hmem, htaken⟩ := List.mem_filter.mp he
      obtain ⟨hlog, _, _⟩ := of_decide_eq_true htaken
      obtain ⟨_, hstart, htxt⟩ := of_decide_eq_true hlog
      obtain ⟨l, hl, hname⟩ := h.only e hmem hstart (suffix_of_drop htxt)
      exact ⟨l, hl, hinj rfl rfl hname⟩
    · rintro ⟨l, hl, rfl⟩
      obtain ⟨e, he, hname, hreg⟩ := h.stored l hl
      have htaken : taken directory w.start e = true := by
        refine decide_eq_true ⟨?_, ?_, hreg⟩
        · rw [hname, ← h.writer l hl]
          exact isLog_name l
        · rw [hname]
          exact h.fit l hl
      exact ⟨e, List.mem_filter.mpr ⟨he, htaken⟩, hinj rfl rfl hname⟩
  · apply List.Nodup.of_map LogFile.name
    unfold found
    rw [List.map_map]
    exact h.names.sublist (List.filter_sublist.map _)
  · apply List.Nodup.of_map LogFile.name
    rw [List.map_map]
    exact h.distinct

theorem append_lt_iff {s t : List Nat} (hlen : s.length = t.length) (u : List Nat) :
    s ++ u < t ++ u ↔ s < t := by
  refine ⟨fun h => ?_, fun h => append_lt hlen h u u⟩
  obtain hlt | rfl | hgt := lt_trichotomy s t
  · exact hlt
  · exact absurd h (lt_irrefl _)
  · exact absurd (append_lt hlen.symm hgt u u) (lt_asymm h)

theorem key_lt_iff {a b : Log} (ha : a.name ≠ current.name) (hb : b.name ≠ current.name) :
    key (fileOf current a) < key (fileOf current b) ↔ a.Precedes b := by
  have hlen : (bytes a.sortText).length = (bytes b.sortText).length := by
    rw [length_bytes, length_bytes, a.length_sortText, b.length_sortText]
  unfold key fileOf Log.Precedes
  dsimp only
  rw [decide_eq_false ha, decide_eq_false hb, Prod.Lex.toLex_lt_toLex, Prod.Lex.toLex_lt_toLex,
    a.drop_name, b.drop_name, bytes_append, bytes_append, append_lt_iff hlen, List.append_left_inj,
    bytes_inj]
  simp only [lt_irrefl, false_or, true_and]

theorem key_lt_current {a : Log} (ha : a.name ≠ current.name) :
    key (fileOf current a) < key (fileOf current current) := by
  unfold key fileOf
  dsimp only
  rw [decide_eq_false ha, decide_eq_true rfl, Prod.Lex.toLex_lt_toLex]
  exact .inl Bool.false_lt_true

theorem LogDirectory.named (h : LogDirectory w directory entries logs current) {l : Log}
    (hl : l ∈ logs) : Named (fileOf current l) := by
  refine ⟨(h.entry hl).1, ?_⟩
  have hlen := congrArg List.length l.drop_name
  have htxt : (ascii ".txt").length = 4 := rfl
  rw [List.length_drop, List.length_append, l.length_sortText, htxt] at hlen
  show 20 ≤ l.name.length
  omega

/-- What the call sorts. -/
def sortedFiles (w : Writer) (directory : Text) (entries : List Entry) (current : Log) :
    List LogFile :=
  (found directory w.start current.name entries).mergeSort fun a b => logFileCmp a b ≤ 0

theorem LogDirectory.sorted_perm (h : LogDirectory w directory entries logs current) :
    (sortedFiles w directory entries current).Perm (logs.map (fileOf current)) :=
  (List.mergeSort_perm _ _).trans h.found_perm

theorem LogDirectory.ascends (h : LogDirectory w directory entries logs current) :
    (sortedFiles w directory entries current).Pairwise fun a b => key a < key b := by
  apply sorted_ascends
  · intro f hf
    obtain ⟨l, hl, rfl⟩ := List.mem_map.mp (h.found_perm.mem_iff.mp hf)
    exact h.named hl
  · have hnames := (h.found_perm.map LogFile.name).nodup_iff
    rw [List.map_map] at hnames
    exact hnames.mpr h.distinct

theorem LogDirectory.eq_of_name (h : LogDirectory w directory entries logs current) {a b : Log}
    (ha : a ∈ logs) (hb : b ∈ logs) (hab : a.name = b.name) : a = b :=
  List.inj_on_of_nodup_map h.distinct ha hb hab

/-- Without a scan nothing is unlinked. -/
theorem LogDirectory.kept_all (h : LogDirectory w directory entries logs current)
    (hscan : ¬host.Scans logs.length) (limit : Nat) :
    debugLogRetainLatest host directory w.start (pathOf directory current.name) limit entries = [] := by
  apply retain_failed
  rw [h.current_name, h.found_perm.length_eq, List.length_map]
  exact hscan

/-- The call cuts the sorted files in two and unlinks the front. -/
theorem LogDirectory.cut (h : LogDirectory w directory entries logs current) {limit : Nat}
    (hlimit : 1 ≤ limit) (hscan : host.Scans logs.length) :
    ∃ old kept, old ++ kept = sortedFiles w directory entries current ∧
      kept.length = min limit logs.length ∧
      debugLogRetainLatest host directory w.start (pathOf directory current.name) limit entries =
        old.map LogFile.name := by
  have hfound : (found directory w.start current.name entries).length = logs.length := by
    rw [h.found_perm.length_eq, List.length_map]
  have hlen : (sortedFiles w directory entries current).length = logs.length := by
    rw [h.sorted_perm.length_eq, List.length_map]
  have hcall := retain_scanned (pathOf directory current.name) hlimit
    (by rw [h.current_name, hfound]; exact hscan)
  rw [h.current_name, hfound] at hcall
  by_cases hover : limit < logs.length
  · rw [if_pos hover] at hcall
    refine ⟨_, _, List.take_append_drop (logs.length - limit) _, ?_, hcall.trans ?_⟩
    · rw [List.length_drop, hlen]
      omega
    · apply List.filter_eq_self.mpr
      intro name hname
      obtain ⟨f, hf, rfl⟩ := List.mem_map.mp hname
      obtain ⟨l, hl, rfl⟩ := List.mem_map.mp (h.sorted_perm.mem_iff.mp (List.mem_of_mem_take hf))
      exact h.fit l hl
  · rw [if_neg hover] at hcall
    refine ⟨[], _, List.nil_append _, ?_, hcall⟩
    rw [hlen]
    omega

/-! What a cut of the sorted files keeps. -/

section

variable {old kept : List LogFile}

theorem LogDirectory.mem_front (h : LogDirectory w directory entries logs current)
    (hcut : old ++ kept = sortedFiles w directory entries current) {l : Log} (hl : l ∈ logs) :
    l.name ∈ old.map LogFile.name ↔ fileOf current l ∈ old := by
  constructor
  · intro hname
    obtain ⟨f, hf, hfl⟩ := List.mem_map.mp hname
    have hmem : f ∈ sortedFiles w directory entries current := hcut ▸ List.mem_append_left kept hf
    obtain ⟨l', hl', rfl⟩ := List.mem_map.mp (h.sorted_perm.mem_iff.mp hmem)
    rwa [h.eq_of_name hl' hl hfl] at hf
  · exact fun hf => List.mem_map.mpr ⟨_, hf, rfl⟩

theorem LogDirectory.mem_back (h : LogDirectory w directory entries logs current)
    (hcut : old ++ kept = sortedFiles w directory entries current) {l : Log} (hl : l ∈ logs) :
    l.name ∉ old.map LogFile.name ↔ fileOf current l ∈ kept := by
  have hmem : fileOf current l ∈ old ++ kept := by
    rw [hcut]
    exact h.sorted_perm.mem_iff.mpr (List.mem_map.mpr ⟨l, hl, rfl⟩)
  have hsplit := (List.pairwise_append.mp (hcut ▸ h.ascends)).2.2
  rw [h.mem_front hcut hl]
  constructor
  · exact (List.mem_append.mp hmem).resolve_left
  · intro hkept hold
    exact lt_irrefl _ (hsplit _ hold _ hkept)

theorem LogDirectory.count_kept (h : LogDirectory w directory entries logs current)
    (hcut : old ++ kept = sortedFiles w directory entries current) :
    (logs.countP fun l => l.name ∉ old.map LogFile.name) = kept.length := by
  have hperm := h.sorted_perm
  rw [← hcut] at hperm
  have hcount := hperm.countP_eq fun f => f.name ∉ old.map LogFile.name
  have hlogs : (logs.map (fileOf current)).countP (fun f => f.name ∉ old.map LogFile.name) =
      logs.countP fun l => l.name ∉ old.map LogFile.name := List.countP_map
  have hold : old.countP (fun f => f.name ∉ old.map LogFile.name) = 0 :=
    List.countP_eq_zero.mpr fun f hf => by simpa using ⟨f, hf, rfl⟩
  have hkept : kept.countP (fun f => f.name ∉ old.map LogFile.name) = kept.length := by
    apply List.countP_eq_length.mpr
    intro f hf
    obtain ⟨l, hl, rfl⟩ := List.mem_map.mp (hperm.mem_iff.mp (List.mem_append_right old hf))
    exact decide_eq_true ((h.mem_back hcut hl).mpr hf)
  rw [← hlogs, ← hcount, List.countP_append, hold, hkept, Nat.zero_add]

theorem LogDirectory.current_kept (h : LogDirectory w directory entries logs current)
    (hcut : old ++ kept = sortedFiles w directory entries current) (hkept : kept ≠ []) :
    current.name ∉ old.map LogFile.name := by
  have hsplit := (List.pairwise_append.mp (hcut ▸ h.ascends)).2.2
  intro hmem
  have hcur := (h.mem_front hcut h.current_mem).mp hmem
  obtain ⟨g, hg⟩ := List.exists_mem_of_ne_nil kept hkept
  have hgs : g ∈ sortedFiles w directory entries current := hcut ▸ List.mem_append_right old hg
  obtain ⟨l, hl, rfl⟩ := List.mem_map.mp (h.sorted_perm.mem_iff.mp hgs)
  have hlt := hsplit _ hcur _ hg
  by_cases hname : l.name = current.name
  · rw [h.eq_of_name hl h.current_mem hname] at hlt
    exact lt_irrefl _ hlt
  · exact lt_asymm hlt (key_lt_current hname)

theorem LogDirectory.keeps (h : LogDirectory w directory entries logs current)
    (hcut : old ++ kept = sortedFiles w directory entries current) {limit : Nat}
    (hlen : kept.length = min limit logs.length) (hkept : kept ≠ []) (hord : InOrder logs current) :
    KeepsLatest w logs current limit (old.map LogFile.name) := by
  have hsplit := (List.pairwise_append.mp (hcut ▸ h.ascends)).2.2
  have hcur := h.current_kept hcut hkept
  refine ⟨hcur, (h.count_kept hcut).trans hlen, ?_, ?_⟩
  · intro a ha b hb hac hak hbo hbefore
    have hbc : b.name ≠ current.name := fun he => hcur (he ▸ hbo)
    have hlt := hsplit _ ((h.mem_front hcut hb).mp hbo) _ ((h.mem_back hcut ha).mp hak)
    exact lt_asymm hlt ((key_lt_iff hac hbc).mpr (hord a ha b hb hac hbc hbefore))
  · intro name hname
    obtain ⟨f, hf, rfl⟩ := List.mem_map.mp hname
    have hmem : f ∈ sortedFiles w directory entries current := hcut ▸ List.mem_append_left kept hf
    obtain ⟨l, hl, rfl⟩ := List.mem_map.mp (h.sorted_perm.mem_iff.mp hmem)
    obtain ⟨_, hstart, htxt⟩ := of_decide_eq_true (isLog_name l)
    rw [h.writer l hl] at hstart
    exact ⟨hstart, suffix_of_drop htxt⟩

end

/-- Where every limit keeps the newest, the logs are sorted as they were created. -/
theorem LogDirectory.inOrder (h : LogDirectory w directory entries logs current)
    (hscan : host.Scans logs.length)
    (hall : ∀ limit, 1 ≤ limit → KeepsLatest w logs current limit
      (debugLogRetainLatest host directory w.start (pathOf directory current.name) limit entries)) :
    InOrder logs current := by
  intro a ha b hb hac hbc hbefore
  rw [← key_lt_iff hac hbc]
  by_contra hnot
  have hne : key (fileOf current a) ≠ key (fileOf current b) := by
    intro hkey
    obtain rfl := h.eq_of_name ha hb (name_of_key hkey)
    exact a.not_before_self hbefore
  have hlt : key (fileOf current b) < key (fileOf current a) :=
    lt_of_le_of_ne (not_lt.mp hnot) hne.symm
  have hmem : ∀ l ∈ logs, fileOf current l ∈ sortedFiles w directory entries current :=
    fun l hl => h.sorted_perm.mem_iff.mpr (List.mem_map.mpr ⟨l, hl, rfl⟩)
  obtain ⟨front, back, hsorted⟩ := List.append_of_mem (hmem b hb)
  have hascends := h.ascends
  rw [hsorted] at hascends
  obtain ⟨_, _, hfront⟩ := List.pairwise_append.mp hascends
  -- the earlier log stands behind the later one, so a limit cuts between them
  have hback : fileOf current a ∈ back := by
    have hin := hmem a ha
    rw [hsorted] at hin
    obtain hin | hin := List.mem_append.mp hin
    · exact absurd (hfront _ hin _ List.mem_cons_self) (lt_asymm hlt)
    · obtain heq | hin := List.mem_cons.mp hin
      · exact absurd (congrArg key heq) hne
      · exact hin
  have hlen : front.length + (back.length + 1) = logs.length := by
    have hall := h.sorted_perm.length_eq
    rwa [hsorted, List.length_append, List.length_cons, List.length_map] at hall
  obtain ⟨old, kept, hcut, hkept, hcall⟩ := h.cut (List.length_pos_of_mem hback) hscan
  have hsplit : old ++ kept = (front ++ [fileOf current b]) ++ back := by
    rw [hcut, hsorted, List.append_assoc]
    rfl
  obtain ⟨hold, rfl⟩ := List.append_inj' hsplit (by omega)
  have hcase := hall kept.length (List.length_pos_of_mem hback)
  rw [hcall] at hcase
  refine hcase.newest a ha b hb hac ((h.mem_back hcut ha).mpr hback)
    ((h.mem_front hcut hb).mpr ?_) hbefore
  rw [hold]
  exact List.mem_append_right front (List.mem_singleton_self _)

theorem LogDirectory.inOrder_single (h : LogDirectory w directory entries logs current)
    (hlen : logs.length ≤ 1) : InOrder logs current := by
  intro a ha b _ hac
  have hcur := h.current_mem
  match logs, hlen with
  | [], _ => cases ha
  | [l], _ =>
    rw [List.mem_singleton] at ha hcur
    exact absurd (congrArg Log.name (ha.trans hcur.symm)) hac

/-- Exactly these directories keep the newest logs under every limit. -/
theorem LogDirectory.kept_iff (h : LogDirectory w directory entries logs current) :
    (∀ limit, 1 ≤ limit → KeepsLatest w logs current limit
      (debugLogRetainLatest host directory w.start (pathOf directory current.name) limit entries)) ↔
      InOrder logs current ∧ (host.Scans logs.length ∨ logs.length ≤ 1) := by
  have hpos : 1 ≤ logs.length := List.length_pos_of_mem h.current_mem
  constructor
  · intro hall
    by_cases hscan : host.Scans logs.length
    · exact ⟨h.inOrder hscan hall, .inl hscan⟩
    · have hcount := (hall 1 le_rfl).count
      rw [h.kept_all hscan] at hcount
      have hkept : (logs.countP fun l => l.name ∉ ([] : List Text)) = logs.length :=
        List.countP_eq_length.mpr fun l _ => decide_eq_true List.not_mem_nil
      have hlen : logs.length ≤ 1 := by omega
      exact ⟨h.inOrder_single hlen, .inr hlen⟩
  · rintro ⟨hord, hscan⟩ limit hlimit
    by_cases hscans : host.Scans logs.length
    · obtain ⟨old, kept, hcut, hlen, hcall⟩ := h.cut hlimit hscans
      rw [hcall]
      exact h.keeps hcut hlen (List.ne_nil_of_length_pos (by omega)) hord
    · have hone := hscan.resolve_left hscans
      have hlen := h.sorted_perm.length_eq
      rw [List.length_map] at hlen
      rw [h.kept_all hscans]
      exact h.keeps (List.nil_append _) (by omega) (List.ne_nil_of_length_pos (by omega)) hord

theorem LogDirectory.agrees_iff (h : LogDirectory w directory entries logs current) :
    (∀ a ∈ logs, ∀ b ∈ logs, a.name ≠ current.name → b.name ≠ current.name → a.before b →
      logFileCmp (fileOf current a) (fileOf current b) < 0) ↔ InOrder logs current := by
  have hcmp : ∀ a ∈ logs, ∀ b ∈ logs, a.name ≠ current.name → b.name ≠ current.name →
      (logFileCmp (fileOf current a) (fileOf current b) < 0 ↔ a.Precedes b) := by
    intro a ha b hb hac hbc
    exact (cmp_sign (h.named ha) (h.named hb)).1.trans (key_lt_iff hac hbc)
  constructor
  · intro hall a ha b hb hac hbc hbefore
    exact (hcmp a ha b hb hac hbc).mp (hall a ha b hb hac hbc hbefore)
  · intro hord a ha b hb hac hbc hbefore
    exact (hcmp a ha b hb hac hbc).mpr (hord a ha b hb hac hbc hbefore)

end

/-- What the retention is for: under every limit the current log and the newest of the others
stay, and the comparison is an order that puts the others as they were created. -/
structure RetainsLatest (host : Host) (w : Writer) (directory : Text) (entries : List Entry)
    (logs : List Log) (current : Log) : Prop where
  kept : ∀ limit, 1 ≤ limit → KeepsLatest w logs current limit
    (debugLogRetainLatest host directory w.start (pathOf directory current.name) limit entries)
  orders : OrdersOn (fun a b => (logFileCmp a b).toInt) {f | f ∈ logs.map (fileOf current)}
  agrees : ∀ a ∈ logs, ∀ b ∈ logs, a.name ≠ current.name → b.name ≠ current.name → a.before b →
    logFileCmp (fileOf current a) (fileOf current b) < 0

/-- SMB logs are retained by their age; stream logs where the last sixteen characters of time,
process and sequence number ascend with it. -/
theorem retains_latest_iff {host : Host} {w : Writer} {directory : Text} {entries : List Entry}
    {logs : List Log} {current : Log} (h : LogDirectory w directory entries logs current) :
    RetainsLatest host w directory entries logs current ↔
      (w = .smb ∨ InOrder logs current) ∧ (host.Scans logs.length ∨ logs.length ≤ 1) := by
  have horders : OrdersOn (fun a b => (logFileCmp a b).toInt) {f | f ∈ logs.map (fileOf current)} := by
    apply cmp_orders
    intro f hf
    obtain ⟨l, hl, rfl⟩ := List.mem_map.mp hf
    exact h.named hl
  have hsmb : w = .smb → InOrder logs current := by
    intro hw a ha b _ _ _ hbefore
    exact Log.smb_precedes ((h.writer a ha).trans hw) hbefore
  constructor
  · intro hret
    obtain ⟨hord, hscan⟩ := h.kept_iff.mp hret.kept
    exact ⟨.inr hord, hscan⟩
  · rintro ⟨hord, hscan⟩
    have hord' : InOrder logs current := hord.elim hsmb id
    exact ⟨h.kept_iff.mpr ⟨hord', hscan⟩, horders, h.agrees_iff.mpr hord'⟩

/-! Logs around the turn of a month. -/

def januaryEnd : Stamp :=
  ⟨2026, 1, 31, 23, 59, 59, by decide, by decide, by decide, by decide, by decide, by decide, by decide⟩

def february (second : Nat) (h : second ≤ 60) : Stamp :=
  ⟨2026, 2, 1, 0, 0, second, by decide, by decide, by decide, by decide, by decide, by decide, h⟩

/-- The log of one process with that sequence number. -/
def streamLog (time : Stamp) (sequence : Nat) : Log :=
  .stream (ascii "CUSA00001") (ascii "base") time 1234 sequence

def januaryLog : Log := streamLog januaryEnd 1

def februaryLog : Log := streamLog (february 1 (by decide)) 2

def currentLog : Log := streamLog (february 3 (by decide)) 3

def smbLog (time : Stamp) : Log := .smb (some (ascii "nas")) time

def entryOf (l : Log) (h : 0 ∉ l.name ∧ 47 ∉ l.name) : Entry := ⟨l.name, true, h.1, h.2⟩

def streamEntries : List Entry :=
  [entryOf januaryLog (by decide), entryOf februaryLog (by decide),
    entryOf currentLog (by decide)]

def smbEntries : List Entry :=
  [entryOf (smbLog januaryEnd) (by decide),
    entryOf (smbLog (february 1 (by decide))) (by decide)]

/-- A directory that can be read. -/
def readable : Host := ⟨true, fun _ => true⟩

theorem readable_scans (count : Nat) : readable.Scans count := ⟨rfl, fun _ _ => rfl⟩

theorem smb_directory :
    LogDirectory .smb (ascii "/data/pkgmgr") smbEntries
      [smbLog januaryEnd, smbLog (february 1 (by decide))] (smbLog (february 1 (by decide))) where
  writer := by decide
  fit := by decide
  distinct := by decide
  names := by decide
  stored := by decide
  only := by decide
  current_mem := List.mem_cons_of_mem _ List.mem_cons_self

theorem retains_latest_iff_smb :
    RetainsLatest readable .smb (ascii "/data/pkgmgr") smbEntries
      [smbLog januaryEnd, smbLog (february 1 (by decide))] (smbLog (february 1 (by decide))) :=
  (retains_latest_iff smb_directory).mpr ⟨.inl rfl, .inl (readable_scans 2)⟩

theorem stream_directory :
    LogDirectory .stream (ascii "/data/pkgmgr") streamEntries [januaryLog, februaryLog, currentLog]
      currentLog where
  writer := by decide
  fit := by decide
  distinct := by decide
  names := by decide
  stored := by decide
  only := by decide
  current_mem := List.mem_cons_of_mem _ (List.mem_cons_of_mem _ List.mem_cons_self)

/-- Day 01 is sorted before day 31, whatever the month. -/
theorem february_sorted_first :
    sortedFiles .stream (ascii "/data/pkgmgr") streamEntries currentLog =
      [februaryLog, januaryLog, currentLog].map (fileOf currentLog) := by
  have hjanuary : januaryLog.name ≠ currentLog.name := by decide
  have hfebruary : februaryLog.name ≠ currentLog.name := by decide
  have hfirst : februaryLog.Precedes januaryLog := .inl (by decide)
  have hperm := stream_directory.sorted_perm.trans (List.Perm.swap _ _ _)
  refine List.Perm.eq_of_pairwise (fun _ _ _ _ hab hba => absurd hab (lt_asymm hba))
    stream_directory.ascends ?_ hperm
  refine .cons ?_ (.cons ?_ (List.pairwise_singleton _ _))
  · intro f hf
    obtain rfl | hf := List.mem_cons.mp hf
    · exact (key_lt_iff hfebruary hjanuary).mpr hfirst
    · obtain rfl := List.mem_singleton.mp hf
      exact key_lt_current hfebruary
  · intro f hf
    obtain rfl := List.mem_singleton.mp hf
    exact key_lt_current hjanuary

theorem retains_latest_fails :
    ¬∀ host w directory entries logs current, LogDirectory w directory entries logs current →
      Host.Scans host logs.length → RetainsLatest host w directory entries logs current := by
  intro hall
  have hret := hall readable _ _ _ _ _ stream_directory (readable_scans 3)
  obtain ⟨old, kept, hcut, hlen, hcall⟩ := stream_directory.cut (by decide : 1 ≤ 2) (readable_scans 3)
  have hkeeps := hret.kept 2 (by decide)
  rw [february_sorted_first] at hcut
  have hsplit : old ++ kept = [fileOf currentLog februaryLog] ++
      [fileOf currentLog januaryLog, fileOf currentLog currentLog] := hcut
  obtain ⟨rfl, _⟩ := List.append_inj' hsplit hlen
  rw [hcall] at hkeeps
  refine hkeeps.newest januaryLog List.mem_cons_self februaryLog
    (List.mem_cons_of_mem _ List.mem_cons_self) ?_ ?_ ?_ ?_
  · decide
  · decide
  · decide
  · exact .inl (by decide)

end PkgManager.LogRetention
