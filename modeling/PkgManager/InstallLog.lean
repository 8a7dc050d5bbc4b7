import PkgManager.Interleaving
import PkgManager.RingBuffer
import PkgManager.ScannerState

namespace PkgManager.InstallLog

open Interleaving Machine Function CText RingBuffer
open PkgMetadata (Text)
open ScannerState (CString)

/-! Which messages are kept in the file. -/

def isAlnum (b : UInt8) : Bool := isDigit b || (97 ≤ toLower b && toLower b ≤ 122)

/-- The place of the first match without regard to case. -/
def strcasestr (pat s : Text) : Option Nat := strstr (pat.map toLower) (s.map toLower)

/-- The match at `i` begins a word, and ends one unless `allowPrefix`. -/
def wordAt (msg target : Text) (allowPrefix : Bool) (i : Nat) : Bool :=
  (i = 0 || !(msg[i - 1]?.any isAlnum)) && (allowPrefix || !(msg[i + target.length]?.any isAlnum))

/-- The loop of `is_word_or_prefix` from `p` on. -/
def wordLoop (msg target : Text) (allowPrefix : Bool) : Nat → Nat → Bool
  | 0, _ => false
  | fuel + 1, p =>
    match strcasestr target (msg.drop p) with
    | none => false
    | some k => wordAt msg target allowPrefix (p + k) || wordLoop msg target allowPrefix fuel (p + k + 1)

def isWordOrPrefix (msg target : Text) (allowPrefix : Bool) : Bool :=
  wordLoop msg target allowPrefix (msg.length + 1) 0

def tags : List Text :=
  [ascii "[error]", ascii "error:", ascii "[warn", ascii "warning:", ascii "warn:", ascii "[fail"]

def keywords : List (Text × Bool) :=
  [(ascii "error", false), (ascii "errors", false), (ascii "warn", false), (ascii "warned", false),
    (ascii "warning", false), (ascii "warnings", false), (ascii "fail", true),
    (ascii "timed out", false), (ascii "timeout", false), (ascii "underflow", false),
    (ascii "wrong disc", false), (ascii "wrong part", false), (ascii "reject", true)]

def isLogWarningOrError (msg : Text) : Bool :=
  tags.any (fun tag => (strcasestr tag msg).isSome) ||
    keywords.any fun w => isWordOrPrefix msg w.1 w.2

/-! The log in memory and in its file. -/

def maxLogLines : Nat := 2048

def maxLogFileSize : Nat := 128 * 1024

def defaultLogFilePath : Text := ascii "/data/pkgmgr/install.log"

/-- `s_log_buffer` and `s_log_file_path`, and the files. The rest is history: the lines that
were stored since the last `install_log_clear`, and the lines that were to be written to a
file, those that were written and those whose file could not be opened, with their file. -/
structure Log where
  slots : Nat → Text
  head : Nat
  count : Nat
  path : CString 256
  disk : Text → Option Text
  recent : List Text
  due : List (Text × Text)
  written : List (Text × Text)
  dropped : List (Text × Text)

/-- `PKG_LOG_FILE`, empty where not set, and whether the log file is turned off. -/
structure Env where
  logFile : Text
  noFileLog : Bool

/-- The path that is set; without one the variables decide. -/
def chosenPath (env : Env) : Option Text → Text
  | none =>
    if env.logFile ≠ [] then if env.logFile = ascii "none" then [] else env.logFile
    else if env.noFileLog then []
    else defaultLogFilePath
  | some path => if path = ascii "none" then [] else path

/-- `install_log_set_file_path`. -/
def setFilePath (s : Log) (env : Env) (path : Option Text) : Log :=
  { s with path := .of 256 (chosenPath env path) }

/-- `install_log_clear`. -/
def clear (s : Log) : Log := { s with head := 0, count := 0, recent := [] }

def isLineEnd (b : UInt8) : Bool := b = 10 || b = 13

/-- The message in `buf`. -/
def messageOf (formatted : Text) : Text := (bounded 472 (upToNul formatted)).rdropWhile isLineEnd

def fullLine (time message : Text) : Text := bounded 512 (91 :: time ++ 93 :: 32 :: message)

/-- The critical section of `install_log`. -/
def store (s : Log) (line : Text) (severe : Bool) : Log :=
  { s with
    slots := update s.slots s.head line
    head := (s.head + 1) % maxLogLines
    count := if s.count < maxLogLines then s.count + 1 else s.count
    recent := s.recent ++ [line]
    due := if s.path.text ≠ [] ∧ severe = true then s.due ++ [(s.path.text, line)] else s.due }

def rotated : Text := ascii "[LOG ROTATED: exceeded " ++ decimal maxLogFileSize ++ ascii " bytes]" ++ [10]

/-- The file behind `append_to_log_file`. -/
def appended (file : Option Text) (line : Text) : Text :=
  match file with
  | some content =>
    if maxLogFileSize < content.length then rotated ++ line ++ [10] else content ++ line ++ [10]
  | none => line ++ [10]

def appendToLogFile (s : Log) (path line : Text) (opens : Bool) : Log :=
  if opens then
    { s with
      disk := update s.disk path (some (appended (s.disk path) line))
      written := s.written ++ [(path, line)] }
  else { s with dropped := s.dropped ++ [(path, line)] }

/-- The lines `install_log_get_text` finds in memory, oldest first. -/
def bufferLines (s : Log) : List Text := window s.slots maxLogLines (s.head + maxLogLines - s.count) s.count

def joinLines (lines : List Text) : Text := lines.flatMap (· ++ [10])

/-- What it reads of the file. -/
def diskText (s : Log) (path : Text) (opens : Bool) : Text :=
  match s.disk path with
  | some content =>
    if path ≠ [] ∧ opens = true ∧ content ≠ [] then content.drop (content.length - 256 * 1024)
    else ascii "No logs recorded yet." ++ [10]
  | none => ascii "No logs recorded yet." ++ [10]

/-- Where a thread stands. `got` has the text, and as history the lines there were then. -/
inductive Thread where
  | free
  | appending (path line : Text)
  | reading (path : Text)
  | got (text : Text) (lines : List Text)

inductive Event where
  | log (time formatted : Text)
  | clear
  | setFilePath (env : Env) (path : Option Text)
  | getText
  | file (opens : Bool)
  | back

/-- The calls; each ends where it gives up the first lock. -/
def call (s : Log) : Event → Option (Log × Thread × List Thread)
  | .log time formatted =>
    let message := messageOf formatted
    if message = [] then some (s, .free, [])
    else
      let severe := isLogWarningOrError message
      let line := fullLine time message
      some (store s line severe,
        if s.path.text ≠ [] ∧ severe = true then .appending s.path.text line else .free, [])
  | .clear => some (clear s, .free, [])
  | .setFilePath env path => some (setFilePath s env path, .free, [])
  | .getText =>
    if s.count = 0 then some (s, .reading s.path.text, [])
    else some (s, .got (joinLines (bufferLines s)) s.recent, [])
  | _ => none

def turn (s : Log) (t : Thread) (e : Event) : Option (Log × Thread × List Thread) :=
  match t, e with
  | .free, e => call s e
  | .appending path line, .file opens => some (appendToLogFile s path line opens, .free, [])
  | .reading path, .file opens => some (s, .got (diskText s path opens) [], [])
  | .got _ _, .back => some (s, .free, [])
  | _, _ => none

/-- `n` threads, and these files. -/
def start (disk : Text → Option Text) (n : Nat) : Pool Log Thread :=
  ⟨⟨fun _ => [], 0, 0, .of 256 defaultLogFilePath, disk, [], [], [], []⟩, List.replicate n .free⟩

/-! Which messages these are. -/

/-- The text has the pattern at `i`, in any case. -/
def Occurs (pat s : Text) (i : Nat) : Prop := pat.map toLower <+: (s.map toLower).drop i

/-- It names a tag anywhere, or a keyword as a word. -/
def Mentions (msg : Text) : Prop :=
  (∃ tag ∈ tags, ∃ i, Occurs tag msg i) ∨
    ∃ w ∈ keywords, ∃ i, Occurs w.1 msg i ∧ wordAt msg w.1 w.2 i = true

theorem strstr_first {pat s : Text} (h0 : 0 ∉ s) {i : Nat} (h : pat <+: s.drop i)
    (hi : i ≤ s.length) : ∃ k ≤ i, strstr pat s = some k := by
  induction s generalizing i with
  | nil =>
    refine ⟨0, Nat.zero_le i, ?_⟩
    rw [List.drop_nil, List.prefix_nil] at h
    unfold strstr
    rw [if_pos h]
  | cons b s ih =>
    unfold strstr
    by_cases hpre : pat.isPrefixOf (b :: s) = true
    · exact ⟨0, Nat.zero_le i, if_pos hpre⟩
    · rw [List.mem_cons, not_or] at h0
      rw [if_neg hpre, if_neg (Ne.symm h0.1)]
      cases i with
      | zero => exact absurd (List.isPrefixOf_iff_prefix.mpr h) hpre
      | succ i =>
        obtain ⟨k, hk, hfound⟩ := ih h0.2 h (Nat.le_of_succ_le_succ hi)
        exact ⟨k + 1, Nat.succ_le_succ hk, by rw [hfound]; rfl⟩

theorem toLower_eq_zero {b : UInt8} (h : toLower b = 0) : b = 0 :=
  eq_of_toLower (by decide) h

theorem noNul_toLower {s : Text} (h0 : 0 ∉ s) : 0 ∉ s.map toLower := by
  intro h
  obtain ⟨b, hb, hlow⟩ := List.mem_map.mp h
  exact h0 (toLower_eq_zero hlow ▸ hb)

theorem strcasestr_occurs {pat s : Text} {k : Nat} (h : strcasestr pat s = some k) : Occurs pat s k :=
  (strstr_found h).1

theorem strcasestr_first {pat s : Text} (h0 : 0 ∉ s) {i : Nat} (h : Occurs pat s i)
    (hi : i ≤ s.length) : ∃ k ≤ i, strcasestr pat s = some k :=
  strstr_first (noNul_toLower h0) h (by rw [List.length_map]; exact hi)

theorem occurs_drop {pat s : Text} {p i : Nat} : Occurs pat (s.drop p) i ↔ Occurs pat s (p + i) := by
  unfold Occurs
  rw [List.map_drop, List.drop_drop]

theorem occurs_le {pat s : Text} (hpat : pat ≠ []) {i : Nat} (h : Occurs pat s i) : i < s.length := by
  have hlen := h.length_le
  have hpos := List.length_pos_iff.mpr hpat
  rw [List.length_drop, List.length_map, List.length_map] at hlen
  omega

/-- The loop takes every place of the word into account, overlapping ones too. -/
theorem wordLoop_iff {msg target : Text} {allowPrefix : Bool} (h0 : 0 ∉ msg) (hne : target ≠ [])
    (fuel p : Nat) (hfuel : msg.length < fuel + p) :
    wordLoop msg target allowPrefix fuel p = true ↔
      ∃ i, p ≤ i ∧ Occurs target msg i ∧ wordAt msg target allowPrefix i = true := by
  induction fuel generalizing p with
  | zero =>
    refine ⟨fun h => absurd h Bool.false_ne_true, fun ⟨i, hi, hocc, _⟩ => ?_⟩
    have hlt := occurs_le hne hocc
    omega
  | succ fuel ih =>
    have hdrop : 0 ∉ msg.drop p := fun h => h0 (List.mem_of_mem_drop h)
    rw [wordLoop]
    cases hfind : strcasestr target (msg.drop p) with
    | none =>
      refine ⟨fun h => absurd h Bool.false_ne_true, fun ⟨i, hi, hocc, _⟩ => ?_⟩
      have hlt := occurs_le hne hocc
      have hocc' : Occurs target (msg.drop p) (i - p) := by
        rw [occurs_drop, Nat.add_sub_cancel' hi]
        exact hocc
      obtain ⟨k, -, hk⟩ := strcasestr_first hdrop hocc' (by rw [List.length_drop]; omega)
      rw [hfind] at hk
      cases hk
    | some k =>
      dsimp only
      rw [Bool.or_eq_true, ih (p + k + 1) (by omega)]
      have hfound : Occurs target msg (p + k) := occurs_drop.mp (strcasestr_occurs hfind)
      constructor
      · rintro (hword | ⟨i, hi, hocc, hword⟩)
        · exact ⟨p + k, Nat.le_add_right p k, hfound, hword⟩
        · exact ⟨i, by omega, hocc, hword⟩
      · rintro ⟨i, hi, hocc, hword⟩
        have hlt := occurs_le hne hocc
        have hocc' : Occurs target (msg.drop p) (i - p) := by
          rw [occurs_drop, Nat.add_sub_cancel' hi]
          exact hocc
        obtain ⟨k', hk', hfirst⟩ := strcasestr_first hdrop hocc' (by rw [List.length_drop]; omega)
        obtain rfl : k = k' := Option.some.inj (hfind.symm.trans hfirst)
        by_cases heq : i = p + k
        · exact .inl (heq ▸ hword)
        · exact .inr ⟨i, by omega, hocc, hword⟩

theorem keyword_ne_nil : ∀ w ∈ keywords, w.1 ≠ [] := by decide

theorem isLogWarningOrError_iff {msg : Text} (h0 : 0 ∉ msg) :
    isLogWarningOrError msg = true ↔ Mentions msg := by
  have hword : ∀ w ∈ keywords, isWordOrPrefix msg w.1 w.2 = true ↔
      ∃ i, Occurs w.1 msg i ∧ wordAt msg w.1 w.2 i = true := by
    intro w hw
    unfold isWordOrPrefix
    rw [wordLoop_iff h0 (keyword_ne_nil w hw) _ _ (by omega)]
    simp only [Nat.zero_le, true_and]
  have htag : ∀ tag ∈ tags, (strcasestr tag msg).isSome = true ↔ ∃ i, Occurs tag msg i := by
    intro tag htag
    have hne : tag ≠ [] := by
      have hall : ∀ tag ∈ tags, tag ≠ [] := by decide
      exact hall tag htag
    constructor
    · intro hsome
      obtain ⟨k, hk⟩ := Option.isSome_iff_exists.mp hsome
      exact ⟨k, strcasestr_occurs hk⟩
    · rintro ⟨i, hocc⟩
      obtain ⟨k, -, hk⟩ := strcasestr_first h0 hocc (occurs_le hne hocc).le
      rw [hk]
      rfl
  unfold isLogWarningOrError Mentions
  rw [Bool.or_eq_true, List.any_eq_true, List.any_eq_true]
  refine or_congr ?_ ?_
  · exact exists_congr fun tag => and_congr_right fun hmem => htag tag hmem
  · exact exists_congr fun w => and_congr_right fun hmem => hword w hmem

/-! What the threads keep. -/

/-- The lines written to the file, in the order of their writing. -/
def linesOf (path : Text) (written : List (Text × Text)) : List Text :=
  (written.filter (·.1 = path)).map (·.2)

/-- The file has all lines that were written, behind what it had, or behind the mark of a
rotation the last ones of them. -/
def Page (base now : Option Text) (lines : List Text) : Prop :=
  (lines = [] ∧ now = base) ∨
    ∃ content kept, now = some content ∧ content.length ≤ maxLogFileSize + 512 ∧ kept ≠ [] ∧
      kept <:+ lines ∧
      (content = rotated ++ joinLines kept ∨ kept = lines ∧ content = base.getD [] ++ joinLines kept)

theorem length_rotated : rotated.length ≤ maxLogFileSize := by
  have hdigits : (decimal maxLogFileSize).length ≤ 6 := length_decimal_le (by decide) (by decide)
  have hbegin : (ascii "[LOG ROTATED: exceeded ").length = 23 := rfl
  have hend : (ascii " bytes]").length = 7 := rfl
  have hsize : maxLogFileSize = 131072 := rfl
  unfold rotated
  simp only [List.length_append, List.length_singleton, hbegin, hend]
  omega

theorem joinLines_append (kept : List Text) (line : Text) :
    joinLines (kept ++ [line]) = joinLines kept ++ line ++ [10] := by
  unfold joinLines
  simp only [List.flatMap_append, List.flatMap_cons, List.flatMap_nil, List.append_nil,
    List.append_assoc]

theorem joinLines_singleton (line : Text) : joinLines [line] = line ++ [10] := joinLines_append [] line

theorem page_append {base now : Option Text} {lines : List Text} {line : Text}
    (h : Page base now lines) (hline : line.length < 512) :
    Page base (some (appended now line)) (lines ++ [line]) := by
  have hlength : ∀ content : Text, content.length ≤ maxLogFileSize →
      (content ++ line ++ [10]).length ≤ maxLogFileSize + 512 := by
    intro content hcontent
    rw [List.length_append, List.length_append, List.length_singleton]
    omega
  have hrotated : Page base (some (rotated ++ line ++ [10])) (lines ++ [line]) := by
    refine .inr ⟨_, [line], rfl, hlength _ length_rotated, List.cons_ne_nil _ _,
      List.suffix_append lines [line], .inl ?_⟩
    rw [joinLines_singleton, List.append_assoc]
  rcases h with ⟨rfl, rfl⟩ | ⟨content, kept, rfl, -, hne, hsuffix, hcontent⟩
  · cases now with
    | none =>
      refine .inr ⟨_, [line], rfl, hlength [] (Nat.zero_le _), List.cons_ne_nil _ _,
        List.suffix_refl _, .inr ⟨rfl, ?_⟩⟩
      rw [joinLines_singleton]
      rfl
    | some content =>
      by_cases hfull : maxLogFileSize < content.length
      · simp only [appended, if_pos hfull]
        exact hrotated
      · simp only [appended, if_neg hfull]
        refine .inr ⟨_, [line], rfl, hlength content (Nat.not_lt.mp hfull), List.cons_ne_nil _ _,
          List.suffix_refl _, .inr ⟨rfl, ?_⟩⟩
        rw [joinLines_singleton, List.append_assoc]
        rfl
  · by_cases hfull : maxLogFileSize < content.length
    · simp only [appended, if_pos hfull]
      exact hrotated
    · simp only [appended, if_neg hfull]
      refine .inr ⟨_, kept ++ [line], rfl, hlength content (Nat.not_lt.mp hfull),
        List.append_ne_nil_of_right_ne_nil _ (List.cons_ne_nil _ _), ?_, ?_⟩
      · obtain ⟨before, rfl⟩ := hsuffix
        exact ⟨before, (List.append_assoc _ _ _).symm⟩
      · rw [joinLines_append]
        rcases hcontent with rfl | ⟨rfl, rfl⟩
        · exact .inl (by rw [List.append_assoc, List.append_assoc, List.append_assoc])
        · exact .inr ⟨rfl, by rw [List.append_assoc, List.append_assoc, List.append_assoc]⟩

/-- The line has a message of that kind, and a file was set for it. -/
def Severe (e : Text × Text) : Prop :=
  e.1 ≠ [] ∧ ∃ time message, Mentions message ∧ e.2 = fullLine time message

/-- The lines memory keeps. -/
def lastLines (lines : List Text) : List Text := lines.drop (lines.length - maxLogLines)

def Sound : Thread → Prop
  | .appending _ line => line.length < 512
  | .got text lines => lines ≠ [] → text = joinLines (lastLines lines)
  | _ => True

/-- How often the thread has the line still to write. -/
def pending (e : Text × Text) : Thread → Nat
  | .appending path line => if (path, line) = e then 1 else 0
  | _ => 0

structure Inv (disk : Text → Option Text) (p : Pool Log Thread) : Prop where
  ring : Holds p.shared.slots maxLogLines p.shared.recent
  head : p.shared.head = p.shared.recent.length % maxLogLines
  count : p.shared.count = min p.shared.recent.length maxLogLines
  sound : ∀ t ∈ p.threads, Sound t
  once : ∀ e, p.shared.due.count e = p.shared.written.count e + p.shared.dropped.count e +
    (p.threads.map (pending e)).sum
  severe : ∀ e ∈ p.shared.due, Severe e
  pages : ∀ path, Page (disk path) (p.shared.disk path) (linesOf path p.shared.written)

/-- What memory has is the end of what was stored since it was cleared. -/
theorem bufferLines_eq {s : Log} (hring : Holds s.slots maxLogLines s.recent)
    (hhead : s.head = s.recent.length % maxLogLines)
    (hcount : s.count = min s.recent.length maxLogLines) : bufferLines s = lastLines s.recent := by
  have hpos : 0 < maxLogLines := by decide
  have hstart : (s.head + maxLogLines - s.count) % maxLogLines =
      (s.recent.length - s.count) % maxLogLines := by
    rw [hhead]
    rcases Nat.le_total s.recent.length maxLogLines with hfew | hmany
    · rw [Nat.min_eq_left hfew] at hcount
      rw [hcount, Nat.sub_self, Nat.zero_mod]
      rcases Nat.lt_or_eq_of_le hfew with hlt | heq
      · rw [Nat.mod_eq_of_lt hlt, Nat.add_sub_cancel_left, Nat.mod_self]
      · rw [heq, Nat.mod_self, Nat.zero_add, Nat.sub_self, Nat.zero_mod]
    · rw [Nat.min_eq_right hmany] at hcount
      rw [hcount, Nat.add_sub_cancel, Nat.mod_mod, ← Nat.mod_eq_sub_mod hmany]
  have hwindow := hring.window (n := s.count) (by omega) (by omega) hstart
  unfold bufferLines lastLines
  rw [hwindow]
  rcases Nat.le_total s.recent.length maxLogLines with hfew | hmany
  · rw [Nat.min_eq_left hfew] at hcount
    rw [hcount, Nat.sub_self, Nat.sub_eq_zero_of_le hfew]
  · rw [Nat.min_eq_right hmany] at hcount
    rw [hcount]

theorem messageOf_noNul (formatted : Text) : 0 ∉ messageOf formatted := by
  intro h
  have hmem : (0 : UInt8) ∈ upToNul formatted :=
    List.mem_of_mem_take ((List.rdropWhile_prefix (p := isLineEnd) _).subset h)
  exact absurd (List.mem_takeWhile_imp hmem) (by simp)

theorem fullLine_length (time message : Text) : (fullLine time message).length < 512 := by
  unfold fullLine bounded
  rw [List.length_take]
  omega

/-- A step takes a line from where it was to where it is. -/
theorem once_step {disk : Text → Option Text} {p : Pool Log Thread} (h : Inv disk p) {i : Nat}
    {t t' : Thread} {s' : Log} {e : Text × Text} (ht : p.threads[i]? = some t)
    (hmove : s'.due.count e + (p.shared.written.count e + p.shared.dropped.count e + pending e t) =
      p.shared.due.count e + (s'.written.count e + s'.dropped.count e + pending e t')) :
    s'.due.count e = s'.written.count e + s'.dropped.count e +
      ((p.threads.set i t' ++ []).map (pending e)).sum := by
  have hsum := sum_step (pending e) t' [] ht
  have honce := h.once e
  rw [List.map_nil, List.sum_nil] at hsum
  omega

theorem count_singleton_eq (e e' : Text × Text) (l : List (Text × Text)) :
    (l ++ [e']).count e = l.count e + if e' = e then 1 else 0 := by
  rw [List.count_append, List.count_singleton]
  simp only [beq_iff_eq]

theorem inv_log {disk : Text → Option Text} {p : Pool Log Thread} (h : Inv disk p) {i : Nat}
    (ht : p.threads[i]? = some .free) (time : Text) {message : Text} (h0 : 0 ∉ message) :
    let severe := isLogWarningOrError message
    let line := fullLine time message
    Inv disk ⟨store p.shared line severe, p.threads.set i
      (if p.shared.path.text ≠ [] ∧ severe = true then .appending p.shared.path.text line
        else .free) ++ []⟩ := by
  intro severe line
  have hpos : 0 < maxLogLines := by decide
  have hlength : (p.shared.recent ++ [line]).length = p.shared.recent.length + 1 := by
    rw [List.length_append, List.length_singleton]
  have hring := h.ring.push line
  rw [← h.head] at hring
  have hcount := h.count
  refine ⟨hring, ?_, ?_, ?_, fun e => ?_, ?_, h.pages⟩
  · show (p.shared.head + 1) % maxLogLines = (p.shared.recent ++ [line]).length % maxLogLines
    rw [hlength, h.head, Nat.mod_add_mod]
  · show (if p.shared.count < maxLogLines then p.shared.count + 1 else p.shared.count) =
      min (p.shared.recent ++ [line]).length maxLogLines
    rw [hlength]
    split <;> omega
  · refine forall_step ht ?_ h.sound fun _ hu => absurd hu List.not_mem_nil
    split
    · exact fullLine_length time message
    · trivial
  · refine once_step h ht ?_
    show (if p.shared.path.text ≠ [] ∧ severe = true then p.shared.due ++ [(p.shared.path.text, line)]
      else p.shared.due).count e + _ = _
    by_cases hdue : p.shared.path.text ≠ [] ∧ severe = true
    · rw [if_pos hdue, if_pos hdue, count_singleton_eq]
      show p.shared.due.count e + (if (p.shared.path.text, line) = e then 1 else 0) +
        (p.shared.written.count e + p.shared.dropped.count e + 0) = p.shared.due.count e +
          (p.shared.written.count e + p.shared.dropped.count e +
            if (p.shared.path.text, line) = e then 1 else 0)
      omega
    · rw [if_neg hdue, if_neg hdue]
      rfl
  · intro e he
    have he : e ∈ if p.shared.path.text ≠ [] ∧ severe = true then
      p.shared.due ++ [(p.shared.path.text, line)] else p.shared.due := he
    by_cases hdue : p.shared.path.text ≠ [] ∧ severe = true
    · rw [if_pos hdue] at he
      rcases List.mem_append.mp he with he | he
      · exact h.severe e he
      · rw [List.mem_singleton.mp he]
        exact ⟨hdue.1, time, message, (isLogWarningOrError_iff h0).mp hdue.2, rfl⟩
    · rw [if_neg hdue] at he
      exact h.severe e he

theorem inv_same {disk : Text → Option Text} {p : Pool Log Thread} (h : Inv disk p) {i : Nat}
    {t : Thread} (ht : p.threads[i]? = some t) (t' : Thread) (path : CString 256)
    (hsound : Sound t') (hpending : ∀ e, pending e t = pending e t') :
    Inv disk ⟨{ p.shared with path }, p.threads.set i t' ++ []⟩ := by
  refine ⟨h.ring, h.head, h.count, ?_, fun e => ?_, h.severe, h.pages⟩
  · exact forall_step ht hsound h.sound fun _ hu => absurd hu List.not_mem_nil
  · refine once_step h ht ?_
    rw [hpending e]

theorem inv_clear {disk : Text → Option Text} {p : Pool Log Thread} (h : Inv disk p) {i : Nat}
    (ht : p.threads[i]? = some .free) : Inv disk ⟨clear p.shared, p.threads.set i .free ++ []⟩ := by
  refine ⟨holds_nil, rfl, rfl, ?_, fun e => ?_, h.severe, h.pages⟩
  · exact forall_step ht trivial h.sound fun _ hu => absurd hu List.not_mem_nil
  · exact once_step h ht rfl

theorem linesOf_append (path : Text) (written : List (Text × Text)) (e : Text × Text) :
    linesOf path (written ++ [e]) = linesOf path written ++ if e.1 = path then [e.2] else [] := by
  unfold linesOf
  rw [List.filter_append, List.map_append]
  by_cases h : e.1 = path
  · rw [if_pos h, List.filter_singleton, decide_eq_true h]
    rfl
  · rw [if_neg h, List.filter_singleton, decide_eq_false h]
    rfl

theorem inv_append {disk : Text → Option Text} {p : Pool Log Thread} (h : Inv disk p) {i : Nat}
    {path line : Text} (ht : p.threads[i]? = some (.appending path line)) (opens : Bool) :
    Inv disk ⟨appendToLogFile p.shared path line opens, p.threads.set i .free ++ []⟩ := by
  have hline : line.length < 512 := h.sound _ (List.mem_of_getElem? ht)
  have hthreads : ∀ u ∈ p.threads.set i .free ++ [], Sound u :=
    forall_step ht trivial h.sound fun _ hu => absurd hu List.not_mem_nil
  cases opens with
  | false =>
    refine ⟨h.ring, h.head, h.count, hthreads, fun e => ?_, h.severe, h.pages⟩
    refine once_step h ht ?_
    show p.shared.due.count e + (p.shared.written.count e + p.shared.dropped.count e +
      if (path, line) = e then 1 else 0) = p.shared.due.count e + (p.shared.written.count e +
        (p.shared.dropped ++ [(path, line)]).count e + 0)
    rw [count_singleton_eq]
    omega
  | true =>
    refine ⟨h.ring, h.head, h.count, hthreads, fun e => ?_, h.severe, fun other => ?_⟩
    · refine once_step h ht ?_
      show p.shared.due.count e + (p.shared.written.count e + p.shared.dropped.count e +
        if (path, line) = e then 1 else 0) = p.shared.due.count e +
          ((p.shared.written ++ [(path, line)]).count e + p.shared.dropped.count e + 0)
      rw [count_singleton_eq]
      omega
    · show Page (disk other)
        (update p.shared.disk path (some (appended (p.shared.disk path) line)) other)
        (linesOf other (p.shared.written ++ [(path, line)]))
      rw [linesOf_append]
      by_cases heq : path = other
      · subst heq
        rw [update_self, if_pos rfl]
        exact page_append (h.pages path) hline
      · rw [update_of_ne (Ne.symm heq), if_neg heq, List.append_nil]
        exact h.pages other

theorem inv_turn {disk : Text → Option Text} {p : Pool Log Thread} (h : Inv disk p) {i : Nat}
    {t t' : Thread} {e : Event} {s' : Log} {new : List Thread} (ht : p.threads[i]? = some t)
    (hturn : turn p.shared t e = some (s', t', new)) : Inv disk ⟨s', p.threads.set i t' ++ new⟩ := by
  cases t with
  | free =>
    cases e with
    | log time formatted =>
      simp only [turn, call] at hturn
      split at hturn
      · cases hturn
        exact inv_same h ht .free p.shared.path trivial fun _ => rfl
      · cases hturn
        exact inv_log h ht time (messageOf_noNul formatted)
    | clear =>
      cases hturn
      exact inv_clear h ht
    | setFilePath env path =>
      cases hturn
      exact inv_same h ht .free _ trivial fun _ => rfl
    | getText =>
      simp only [turn, call] at hturn
      split at hturn
      · cases hturn
        exact inv_same h ht (.reading _) p.shared.path trivial fun _ => rfl
      · cases hturn
        refine inv_same h ht (.got _ _) p.shared.path (fun _ => ?_) fun _ => rfl
        exact congrArg joinLines (bufferLines_eq h.ring h.head h.count)
    | file opens => cases hturn
    | back => cases hturn
  | appending path line =>
    cases e with
    | file opens =>
      cases hturn
      exact inv_append h ht opens
    | _ => cases hturn
  | reading path =>
    cases e with
    | file opens =>
      cases hturn
      exact inv_same h ht (.got _ []) p.shared.path (fun hne => absurd rfl hne) fun _ => rfl
    | _ => cases hturn
  | got text lines =>
    cases e with
    | back =>
      cases hturn
      exact inv_same h ht .free p.shared.path trivial fun _ => rfl
    | _ => cases hturn

theorem inv_start (disk : Text → Option Text) (n : Nat) : Inv disk (start disk n) := by
  refine ⟨holds_nil, rfl, rfl, fun t ht => ?_, fun e => ?_, fun e he => absurd he List.not_mem_nil,
    fun path => .inl ⟨rfl, rfl⟩⟩
  · rw [List.eq_of_mem_replicate ht]
    trivial
  · show 0 = 0 + 0 + ((List.replicate n Thread.free).map (pending e)).sum
    rw [List.map_replicate, List.sum_replicate]
    simp [pending]

end PkgManager.InstallLog
