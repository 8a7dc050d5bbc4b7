import Mathlib

namespace PkgManager.ControlMessages

/-- A C string without its terminator. -/
abbrev Text := List UInt8

/-- The suffix of `s` at the first occurrence of `pat`. -/
def strstr (pat : Text) : Text → Option Text
  | [] => if pat = [] then some [] else none
  | c :: cs => if pat.isPrefixOf (c :: cs) then some (c :: cs) else strstr pat cs

def strchr (c : UInt8) : Text → Option Text
  | [] => none
  | d :: cs => if d = c then some (d :: cs) else strchr c cs

def isDigit (c : UInt8) : Bool := 48 ≤ c && c ≤ 57

def isSpace (c : UInt8) : Bool := c = 32 || 9 ≤ c && c ≤ 13

def digitsValue (ds : Text) : Nat := ds.foldl (fun v d => v * 10 + (d.toNat - 48)) 0

/-- `strtoull(s, NULL, 10)`. -/
def strtoull (s : Text) : Nat :=
  let s := s.dropWhile isSpace
  let negative := s.head? = some 45
  let s := if s.head? = some 45 ∨ s.head? = some 43 then s.tail else s
  let v := digitsValue (s.takeWhile isDigit)
  if 2 ^ 64 ≤ v then 2 ^ 64 - 1
  else if negative then (2 ^ 64 - v) % 2 ^ 64
  else v

def quoted (key : Text) : Text := 34 :: key ++ [34]

/-- The copy loop of `wsj_string`, with room for the given number of bytes. -/
def copyValue : Nat → Text → Text
  | 0, _ => []
  | _ + 1, [] => []
  | n + 1, c :: cs =>
    if c = 34 then []
    else if c = 92 then
      match cs with
      | [] => [92]
      | d :: ds => d :: copyValue n ds
    else c :: copyValue n cs

/-- What follows the colon behind the first occurrence of a key. -/
def afterKey (json key : Text) : Option Text :=
  (strstr (quoted key) json).bind fun p => strchr 58 (p.drop (quoted key).length)

def wsjString (json key : Text) (max : Nat) : Option Text :=
  (afterKey json key).bind fun p => (strchr 34 p).map fun q => copyValue (max - 1) q.tail

def wsjU64 (json key : Text) : Option Nat :=
  (afterKey json key).map fun p =>
    let p := p.tail.dropWhile fun c => c = 32 || c = 9
    strtoull (if p.head? = some 34 then p.tail else p)

/-- `op`, `filename`, `total`, `owner` and `session_id`. -/
def opKey : Text := [111, 112]

def filenameKey : Text := [102, 105, 108, 101, 110, 97, 109, 101]

def totalKey : Text := [116, 111, 116, 97, 108]

def ownerKey : Text := [111, 119, 110, 101, 114]

def sessionIdKey : Text := [115, 101, 115, 115, 105, 111, 110, 95, 105, 100]

/-- The operations of `handle_text_msg`. -/
inductive Op where
  | init
  | senderStats
  | ping
  | status
  | finish
  | cancel
  | seg
  | unknown
deriving DecidableEq

def opOf (op : Text) : Op :=
  if op = [105, 110, 105, 116] then .init
  else if op = [115, 101, 110, 100, 101, 114, 95, 115, 116, 97, 116, 115] then .senderStats
  else if op = [112, 105, 110, 103] then .ping
  else if op = [115, 116, 97, 116, 117, 115] then .status
  else if op = [102, 105, 110, 105, 115, 104] then .finish
  else if op = [99, 97, 110, 99, 101, 108] then .cancel
  else if op = [115, 101, 103] then .seg
  else .unknown

/-- What an `init` message asks for: the owner and the session id are looked at
only while there is an owner. -/
structure Init where
  filename : Text
  total : Nat
  owner : Option Text
  sid : Option Text
deriving DecidableEq

def initOf (msg : Text) : Option Init :=
  match wsjString msg filenameKey 256, wsjU64 msg totalKey with
  | some filename, some total =>
    if total = 0 then none
    else some ⟨filename, total, wsjString msg ownerKey 65, wsjString msg sessionIdKey 64⟩
  | _, _ => none

/-- The segment a `seg` message names, by the text `"seg":` alone. -/
def segOf (msg : Text) : Int :=
  let seg := match strstr [34, 115, 101, 103, 34, 58] msg with
    | some p => strtoull (p.drop 6)
    | none => 0
  if seg ≤ 0x7fffffff then seg else -1

/-! Numbers as the page writes them. -/

def digit (d : Nat) : UInt8 := UInt8.ofNat (48 + d)

/-- A number in decimal, in front of `acc`; the first argument bounds the digits. -/
def decimalOnto : Nat → Nat → Text → Text
  | 0, _, acc => acc
  | fuel + 1, n, acc =>
    if n < 10 then digit n :: acc else decimalOnto fuel (n / 10) (digit (n % 10) :: acc)

def decimal (n : Nat) : Text := decimalOnto (n + 1) n []

theorem digit_toNat {d : Nat} (h : d < 10) : (digit d).toNat = 48 + d := by
  unfold digit
  rw [UInt8.toNat_ofNat']
  omega

theorem isDigit_digit {d : Nat} (h : d < 10) : isDigit (digit d) = true := by
  have hd := digit_toNat h
  simp only [isDigit, Bool.and_eq_true, decide_eq_true_eq, UInt8.le_iff_toNat_le]
  have h48 : (48 : UInt8).toNat = 48 := rfl
  have h57 : (57 : UInt8).toNat = 57 := rfl
  omega

theorem digitsValue_append (ds : Text) (d : UInt8) :
    digitsValue (ds ++ [d]) = digitsValue ds * 10 + (d.toNat - 48) := by
  unfold digitsValue
  rw [List.foldl_append]
  rfl

/-- The digits of a number are digits and say its value. -/
theorem decimalOnto_spec {fuel n : Nat} (h : n < fuel) (acc : Text) :
    ∃ ds, decimalOnto fuel n acc = ds ++ acc ∧ ds ≠ [] ∧ (∀ d ∈ ds, isDigit d = true) ∧
      digitsValue ds = n := by
  induction fuel generalizing n acc with
  | zero => omega
  | succ fuel ih =>
    unfold decimalOnto
    by_cases hn : n < 10
    · rw [if_pos hn]
      refine ⟨[digit n], rfl, List.cons_ne_nil _ _, fun d hd => ?_, ?_⟩
      · rw [List.mem_singleton.mp hd]
        exact isDigit_digit hn
      · have hd := digit_toNat hn
        simp only [digitsValue, List.foldl_cons, List.foldl_nil]
        omega
    · rw [if_neg hn]
      have hmod : n % 10 < 10 := Nat.mod_lt n (by omega)
      obtain ⟨ds, heq, -, hdigits, hvalue⟩ := ih (n := n / 10) (by omega) (digit (n % 10) :: acc)
      refine ⟨ds ++ [digit (n % 10)], ?_, by simp, fun d hd => ?_, ?_⟩
      · rw [heq, List.append_assoc]
        rfl
      · rcases List.mem_append.mp hd with hd | hd
        · exact hdigits d hd
        · rw [List.mem_singleton.mp hd]
          exact isDigit_digit hmod
      · rw [digitsValue_append, hvalue, digit_toNat hmod]
        omega

theorem isDigit_bounds {c : UInt8} (h : isDigit c = true) : 48 ≤ c.toNat ∧ c.toNat ≤ 57 := by
  simp only [isDigit, Bool.and_eq_true, decide_eq_true_eq, UInt8.le_iff_toNat_le] at h
  exact h

theorem isSpace_of_isDigit {c : UInt8} (h : isDigit c = true) : isSpace c = false := by
  have hb := isDigit_bounds h
  have h32 : c ≠ 32 := by
    rintro rfl
    exact absurd hb.1 (by decide)
  have h13 : ¬ c ≤ 13 := by
    rw [UInt8.le_iff_toNat_le]
    have h13 : (13 : UInt8).toNat = 13 := rfl
    omega
  simp [isSpace, h32, h13]

/-- A number is read as far as its digits go, and one that is too large as the largest. -/
theorem strtoull_decimal (n : Nat) {r : Text} (hrest : ∀ c ∈ r.head?, isDigit c = false) :
    strtoull (decimal n ++ r) = if 2 ^ 64 ≤ n then 2 ^ 64 - 1 else n := by
  obtain ⟨ds, heq, hne, hdigits, hvalue⟩ := decimalOnto_spec (Nat.lt_succ_self n) []
  have hdec : decimal n = ds := heq.trans (List.append_nil ds)
  cases ds with
  | nil => exact absurd rfl hne
  | cons d ds =>
    have hd := hdigits d List.mem_cons_self
    have hb := isDigit_bounds hd
    have h45 : d ≠ 45 := by
      rintro rfl
      exact absurd hb.1 (by decide)
    have h43 : d ≠ 43 := by
      rintro rfl
      exact absurd hb.1 (by decide)
    have hskip : (d :: ds ++ r).dropWhile isSpace = d :: ds ++ r :=
      List.dropWhile_cons_of_neg (by rw [isSpace_of_isDigit hd]; decide)
    have htake : (d :: ds ++ r).takeWhile isDigit = d :: ds := by
      rw [List.takeWhile_append_of_pos hdigits]
      cases r with
      | nil => simp
      | cons c cs =>
        rw [List.takeWhile_cons_of_neg (by rw [hrest c rfl]; decide), List.append_nil]
    have hhead : (d :: ds ++ r).head? = some d := rfl
    unfold strtoull
    rw [hdec]
    simp only [hskip, hhead, Option.some.injEq, h45, h43, or_self, ↓reduceIte, htake, hvalue]

end PkgManager.ControlMessages
