import PkgManager.SmbBrowse

namespace PkgManager.LogNames

open CText
open PkgMetadata (Text)
open SmbBrowse (bytes)

/-! Numbers of a fixed width compare like their digits. -/

/-- The last `k` decimal digits, with zeros in front. -/
def padded : Nat → Nat → Text
  | 0, _ => []
  | k + 1, n => padded k (n / 10) ++ [UInt8.ofNat (48 + n % 10)]

theorem length_padded (k n : Nat) : (padded k n).length = k := by
  induction k generalizing n with
  | zero => rfl
  | succ k ih =>
    show (padded k (n / 10) ++ [_]).length = k + 1
    rw [List.length_append, ih]
    rfl

theorem append_lt {s t : List Nat} (hlen : s.length = t.length) (h : s < t) (u v : List Nat) :
    s ++ u < t ++ v := by
  induction s generalizing t with
  | nil =>
    cases t with
    | nil => exact absurd h (lt_irrefl _)
    | cons b t => cases hlen
  | cons a s ih =>
    cases t with
    | nil => cases hlen
    | cons b t =>
      rw [List.cons_lt_cons_iff] at h
      rw [List.cons_append, List.cons_append, List.cons_lt_cons_iff]
      obtain h | ⟨hab, h⟩ := h
      · exact .inl h
      · exact .inr ⟨hab, ih (Nat.succ.inj hlen) h⟩

theorem bytes_append (s t : Text) : bytes (s ++ t) = bytes s ++ bytes t := List.map_append

theorem length_bytes (s : Text) : (bytes s).length = s.length := List.length_map _

theorem padded_lt (k : Nat) {m n : Nat} (hn : n < 10 ^ k) (h : m < n) :
    bytes (padded k m) < bytes (padded k n) := by
  induction k generalizing m n with
  | zero => omega
  | succ k ih =>
    show bytes (padded k (m / 10) ++ [_]) < bytes (padded k (n / 10) ++ [_])
    rw [bytes_append, bytes_append]
    by_cases hfront : m / 10 < n / 10
    · apply append_lt
      · rw [length_bytes, length_bytes, length_padded, length_padded]
      · exact ih (by rw [Nat.pow_succ] at hn; omega) hfront
    · have heq : m / 10 = n / 10 := by omega
      have hlast : (UInt8.ofNat (48 + m % 10)).toNat < (UInt8.ofNat (48 + n % 10)).toNat := by
        rw [UInt8.toNat_ofNat', UInt8.toNat_ofNat']
        omega
      rw [heq]
      apply List.append_left_lt
      exact List.cons_lt_cons_iff.mpr (.inl hlast)

/-- A field of fixed width in front decides, unless it is the same. -/
theorem field_lt {k m n : Nat} {s t : Text} (hn : n < 10 ^ k)
    (h : m < n ∨ m = n ∧ bytes s < bytes t) :
    bytes (padded k m ++ s) < bytes (padded k n ++ t) := by
  rw [bytes_append, bytes_append]
  obtain h | ⟨rfl, h⟩ := h
  · apply append_lt
    · rw [length_bytes, length_bytes, length_padded, length_padded]
    · exact padded_lt k hn h
  · exact List.append_left_lt h

/-! The names of the logs. -/

/-- The local time a log is opened at, in a year of four digits. -/
structure Stamp where
  year : Nat
  month : Nat
  day : Nat
  hour : Nat
  minute : Nat
  second : Nat
  year_ge : 1000 ≤ year
  year_le : year ≤ 9999
  month_le : month ≤ 12
  day_le : day ≤ 31
  hour_le : hour ≤ 23
  minute_le : minute ≤ 59
  second_le : second ≤ 60

namespace Stamp

/-- `%Y%m%d_%H%M%S`. -/
def text (t : Stamp) : Text :=
  padded 4 t.year ++ (padded 2 t.month ++ (padded 2 t.day ++
    95 :: (padded 2 t.hour ++ (padded 2 t.minute ++ padded 2 t.second))))

def fields (t : Stamp) : List Nat := [t.year, t.month, t.day, t.hour, t.minute, t.second]

theorem length_text (t : Stamp) : t.text.length = 15 := by
  simp [text, length_padded]

/-- The text of an earlier time is the smaller one. -/
theorem text_lt {t u : Stamp} (h : t.fields < u.fields) : bytes t.text < bytes u.text := by
  have hyear := u.year_le
  have hmonth := u.month_le
  have hday := u.day_le
  have hhour := u.hour_le
  have hminute := u.minute_le
  have hsecond := u.second_le
  unfold fields at h
  simp only [List.cons_lt_cons_iff] at h
  apply field_lt (by omega)
  refine h.imp_right (And.imp_right fun h => field_lt (by omega) ?_)
  refine h.imp_right (And.imp_right fun h => field_lt (by omega) ?_)
  refine h.imp_right (And.imp_right fun h => List.cons_lt_cons_iff.mpr (.inr ⟨rfl, ?_⟩))
  refine field_lt (by omega) ?_
  refine h.imp_right (And.imp_right fun h => field_lt (by omega) ?_)
  refine h.imp_right (And.imp_right fun h => ?_)
  refine padded_lt 2 (by omega) (h.resolve_right ?_)
  rintro ⟨_, h⟩
  exact absurd h (lt_irrefl _)

end Stamp

inductive Writer where
  | stream
  | smb
deriving DecidableEq

/-- What the names of a writer start with. -/
def Writer.start : Writer → Text
  | .stream => ascii "stream_debug_"
  | .smb => ascii "smb_debug_"

/-- `srv_safe`. -/
def srvSafe (server : Option Text) : Text :=
  ((server.getD (ascii "unknown")).take 63).map fun c =>
    if c = 47 ∨ c = 92 ∨ c = 58 ∨ c = 32 then 95 else c

/-- A log with what its name is made of. -/
inductive Log where
  | stream (titleId kind : Text) (time : Stamp) (pid sequence : Nat)
  | smb (server : Option Text) (time : Stamp)

namespace Log

def writer : Log → Writer
  | .stream .. => .stream
  | .smb .. => .smb

/-- The file name `stream_debug_log_open` or `smb_debug_log_open` gives the log. -/
def name : Log → Text
  | .stream titleId kind time pid sequence =>
    ascii "stream_debug_" ++ (if titleId = [] then ascii "UNKNOWN" else titleId) ++
      95 :: (if kind = [] then ascii "unknown" else kind) ++ 95 :: time.text ++
      95 :: decimal pid ++ 95 :: decimal sequence ++ ascii ".txt"
  | .smb server time => ascii "smb_debug_" ++ srvSafe server ++ 95 :: time.text ++ ascii ".txt"

/-- The order of creation as far as the names tell it: by the time, and in one second by
the sequence numbers of a process. -/
def before : Log → Log → Prop
  | .stream _ _ time pid sequence, .stream _ _ time' pid' sequence' =>
    time.fields < time'.fields ∨ time.fields = time'.fields ∧ pid = pid' ∧ sequence < sequence'
  | .smb _ time, .smb _ time' => time.fields < time'.fields
  | _, _ => False

theorem not_before_self (l : Log) : ¬l.before l := by
  cases l with
  | stream titleId kind time pid sequence =>
    rintro (h | ⟨_, _, h⟩)
    · exact lt_irrefl _ h
    · exact lt_irrefl _ h
  | smb server time => exact lt_irrefl _

/-- What stands in a name behind the free texts. -/
def ending : Log → Text
  | .stream _ _ time pid sequence => 95 :: time.text ++ 95 :: decimal pid ++ 95 :: decimal sequence
  | .smb _ time => 95 :: time.text

/-- The last sixteen characters of the ending. -/
def sortText (l : Log) : Text := l.ending.drop (l.ending.length - 16)

theorem length_ending (l : Log) : 16 ≤ l.ending.length := by
  cases l with
  | stream titleId kind time pid sequence =>
    simp [ending, Stamp.length_text]
  | smb server time => simp [ending, Stamp.length_text]

theorem length_sortText (l : Log) : l.sortText.length = 16 := by
  have hle := l.length_ending
  unfold sortText
  rw [List.length_drop]
  omega

theorem name_eq (l : Log) :
    ∃ front, l.name = l.writer.start ++ front ++ l.ending ++ ascii ".txt" := by
  cases l with
  | stream titleId kind time pid sequence =>
    refine ⟨(if titleId = [] then ascii "UNKNOWN" else titleId) ++
      95 :: (if kind = [] then ascii "unknown" else kind), ?_⟩
    simp [name, ending, writer, Writer.start]
  | smb server time => exact ⟨srvSafe server, by simp [name, ending, writer, Writer.start]⟩

/-- The last twenty bytes of a name. -/
theorem drop_name (l : Log) : l.name.drop (l.name.length - 20) = l.sortText ++ ascii ".txt" := by
  obtain ⟨front, hname⟩ := l.name_eq
  have hend := l.length_ending
  have htxt : (ascii ".txt").length = 4 := rfl
  have hsplit : l.ending = l.ending.take (l.ending.length - 16) ++ l.sortText :=
    (List.take_append_drop _ _).symm
  have hcut : l.name = (l.writer.start ++ front ++ l.ending.take (l.ending.length - 16)) ++
      (l.sortText ++ ascii ".txt") := by
    rw [hname]
    conv_lhs => rw [hsplit]
    simp only [List.append_assoc]
  have hlen : l.name.length - 20 =
      (l.writer.start ++ front ++ l.ending.take (l.ending.length - 16)).length := by
    have hall := congrArg List.length hcut
    simp only [List.length_append, l.length_sortText, htxt] at hall ⊢
    omega
  rw [hlen]
  conv_lhs => rw [hcut]
  exact List.drop_left

/-- Two logs of one directory in the order the directory is sorted in. -/
def Precedes (a b : Log) : Prop :=
  bytes a.sortText < bytes b.sortText ∨
    a.sortText = b.sortText ∧ bytes a.name < bytes b.name

/-- The names of SMB logs end in their time. -/
theorem smb_precedes {a b : Log} (ha : a.writer = .smb) (h : a.before b) : a.Precedes b := by
  cases a with
  | stream => cases ha
  | smb server time =>
    cases b with
    | stream => cases h
    | smb server' time' =>
      have hall : ∀ (s : Option Text) (t : Stamp), (Log.smb s t).sortText = 95 :: t.text := by
        intro s t
        simp [sortText, ending, Stamp.length_text]
      refine .inl ?_
      rw [hall, hall]
      exact List.cons_lt_cons_iff.mpr (.inr ⟨rfl, Stamp.text_lt h⟩)

end Log

end PkgManager.LogNames
