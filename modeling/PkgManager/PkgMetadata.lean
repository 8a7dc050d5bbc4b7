import PkgManager.CText
import PkgManager.Records

namespace PkgManager.PkgMetadata

open CText Records

abbrev Text := List UInt8

/-! JSON strings. -/

def quoted (key : Text) : Text := [34] ++ key ++ [34]

/-- A JSON string behind its opening quote, to the closing one or the end; a
backslash stands for the byte after it. -/
def unescape : Text → Text
  | 92 :: c :: s => c :: unescape s
  | b :: s => if b = 34 then [] else b :: unescape s
  | [] => []

/-- The string in a buffer of `n` bytes. -/
def stringIn (n : Nat) (s : Text) : Text := upToNul ((unescape s).take (n - 1))

/-- The loop of `json_extract_key` over what is left of the text; `strstr` and
`strchr` also see the memory `beyond` it. -/
def jsonExtractLoop (beyond pat : Text) (max : Nat) : Nat → Text → Option Text
  | 0, _ => none
  | n + 1, p =>
    if p = [] then none
    else
      match strstr pat (p ++ beyond) with
      | none => none
      | some found =>
        if p.length ≤ found then none
        else
          match strchr 58 ((p ++ beyond).drop (found + pat.length)) with
          | none => none
          | some colon =>
            if p.length ≤ found + pat.length + colon then none
            else
              let q := (p.drop (found + pat.length + colon + 1)).dropWhile isSpace
              if q.head? = some 34 then some (stringIn max (q.drop 1))
              else jsonExtractLoop beyond pat max n (p.drop (found + pat.length))

/-- `json_extract_key`. -/
def jsonExtractKey (json beyond : Text) (key : String) (max : Nat) : Option Text :=
  jsonExtractLoop beyond (quoted (ascii key)) max json.length json

/-- `json_has_key`. -/
def jsonHasKey (json : Text) (key : String) : Bool :=
  json.tails.any fun t => (quoted (ascii key)).isPrefixOf t

/-- The string behind a key, where the text in front of `found` is of no interest. -/
def stringAfter (s pat : Text) (max : Nat) : Option Text :=
  match strstr pat s with
  | none => none
  | some found =>
    match strchr 58 (s.drop (found + pat.length)) with
    | none => none
    | some colon =>
      let q := (s.drop (found + pat.length + colon + 1)).dropWhile isSpace
      if q.head? = some 34 then some (stringIn max (q.drop 1)) else none

/-! Versions. -/

/-- `%d` of `sscanf`: the number and what follows it. -/
def scanInt (s : Text) : Option (Int × Text) :=
  let t := s.dropWhile isSpace
  let u := if t.head? = some 45 ∨ t.head? = some 43 then t.drop 1 else t
  let digits := u.takeWhile isDigit
  if digits = [] then none
  else
    let v : Int := if t.head? = some 45 then -digitsValue digits else digitsValue digits
    some (Int.bmod (max (-2 ^ 63) (min v (2 ^ 63 - 1))) (2 ^ 32), u.dropWhile isDigit)

/-- `sscanf` with `%d.%d.%d`, where all three were read. -/
def scanVersion (s : Text) : Option (Int × Int × Int) := do
  let (major, s) ← scanInt s
  if s.head? ≠ some 46 then none
  let (minor, s) ← scanInt (s.drop 1)
  if s.head? ≠ some 46 then none
  let (patch, _) ← scanInt (s.drop 1)
  some (major, minor, patch)

def showInt (x : Int) : Text := if x < 0 then 45 :: decimal x.natAbs else decimal x.natAbs

/-- `%02d`. -/
def showTwo (x : Int) : Text := if 0 ≤ x ∧ x < 10 then 48 :: showInt x else showInt x

def startsWithV (s : Text) : Bool := s.head? = some 118 ∨ s.head? = some 86

/-- How the parsers write a version that `param.json` gives. -/
def formatVersion (ver : Text) : Text :=
  bounded 32 <|
    match scanVersion ver with
    | some (major, minor, patch) =>
      if minor = 0 ∧ 0 < patch then [118] ++ showInt major ++ [46] ++ showTwo patch
      else if patch = 0 then [118] ++ showInt major ++ [46] ++ showTwo minor
      else [118] ++ showInt major ++ [46] ++ showInt minor ++ [46] ++ showInt patch
    | none => if startsWithV ver then ver else [118] ++ ver.take 29

/-- The first of the three version keys, empty where there is none. -/
def jsonVersion (json beyond : Text) : Text :=
  let ver := ((jsonExtractKey json beyond "contentVersion" 32).or
    ((jsonExtractKey json beyond "appVersion" 32).or (jsonExtractKey json beyond "version" 32))).getD []
  if ver = [] then [] else formatVersion ver

/-! Localized titles. -/

/-- The texts that the metadata entries of a package set. -/
structure Meta where
  titleId : Text
  titleName : Text
  category : Text
  appVersion : Text
  localizedTitles : Text
  defaultLanguage : Text

def Meta.empty : Meta := ⟨[], [], [], [], [], []⟩

/-- How far behind an opening brace its closing one stands. -/
def closingBrace : Text → Nat → Bool → Option Nat
  | [], _, _ => none
  | 92 :: _ :: s, depth, true => (closingBrace s depth true).map (· + 2)
  | b :: s, depth, inStr =>
    if b = 34 then (closingBrace s depth (!inStr)).map (· + 1)
    else if inStr then (closingBrace s depth inStr).map (· + 1)
    else if b = 123 then (closingBrace s (depth + 1) inStr).map (· + 1)
    else if b = 125 then
      if depth ≤ 1 then some 0 else (closingBrace s (depth - 1) inStr).map (· + 1)
    else (closingBrace s depth inStr).map (· + 1)

/-- `lp_start` and `lp_end`: the braces of the object "localizedParameters". -/
def localizedBlock (json : Text) : Option (Nat × Nat) :=
  let pat := quoted (ascii "localizedParameters")
  match strstr pat json with
  | none => none
  | some lp =>
    match strchr 58 (json.drop (lp + pat.length)) with
    | none => none
    | some colon =>
      let behind := lp + pat.length + colon + 1
      match strchr 123 (json.drop behind) with
      | none => none
      | some brace =>
        (closingBrace (json.drop (behind + brace)) 0 false).map fun close =>
          (behind + brace, behind + brace + close)

/-- The first string value of the key outside the block. -/
def globalTitleLoop (json : Text) (block : Option (Nat × Nat)) (pat : Text) : Nat → Nat → Option Text
  | 0, _ => none
  | n + 1, curr =>
    match strstr pat (json.drop curr) with
    | none => none
    | some i =>
      let next := curr + i + pat.length
      let inside := block.any fun b => b.1 ≤ curr + i ∧ curr + i ≤ b.2
      let value :=
        if inside then none
        else
          match strchr 58 (json.drop next) with
          | none => none
          | some colon =>
            let q := (json.drop (next + colon + 1)).dropWhile isSpace
            if q.head? = some 34 then some (stringIn 256 (q.drop 1)) else none
      match value with
      | some title => some title
      | none => globalTitleLoop json block pat n next

def globalTitle (json : Text) (block : Option (Nat × Nat)) : Text :=
  let title := fun key =>
    (globalTitleLoop json block (quoted (ascii key)) json.length 0).getD []
  if title "titleName" ≠ [] then title "titleName" else title "title"

/-- What follows a JSON string behind its opening quote. -/
def afterString : Text → Text
  | 92 :: _ :: s => afterString s
  | b :: s => if b = 34 then s else afterString s
  | [] => []

/-- The language entries of the block, `k` of them at most. -/
def languageEntries : Nat → Nat → Text → List (Text × Text)
  | 0, _, _ => []
  | _ + 1, 0, _ => []
  | n + 1, k + 1, p =>
    let body := (p.dropWhile (· ≠ 34)).drop 1
    let closed := body.dropWhile (· ≠ 34)
    if closed = [] then []
    else
      let key := upToNul ((body.takeWhile (· ≠ 34)).take 63)
      let p := (closed.drop 1).dropWhile isSpace
      if p.head? ≠ some 58 then languageEntries n (k + 1) p
      else
        let p := (p.drop 1).dropWhile isSpace
        if p = [] then []
        else if p.head? = some 34 then languageEntries n (k + 1) (afterString (p.drop 1))
        else if p.head? = some 123 then
          match closingBrace p 0 false with
          | none => []
          | some close =>
            let title := (stringAfter (p.take close) (quoted (ascii "titleName")) 256).getD []
            if title ≠ [] ∧ key ≠ [] then
              (key.take 31, title) :: languageEntries n k (p.drop (close + 1))
            else languageEntries n (k + 1) (p.drop (close + 1))
        else languageEntries n (k + 1) p

def escapeTitle (title : Text) : Text := title.flatMap fun b => if b = 34 ∨ b = 92 then [92, b] else [b]

/-- The loop that writes the titles behind `acc` as long as they fit `max` bytes. -/
def appendTitles (max : Nat) : Text → List (Text × Text) → Text
  | acc, [] => acc
  | acc, (lang, title) :: rest =>
    let item := (if acc = [123] then [] else [44]) ++ quoted lang ++ [58] ++ quoted (escapeTitle title)
    if item.length < max - acc.length then appendTitles max (acc ++ item) rest else acc

def titlesJson (max : Nat) (titles : List (Text × Text)) : Text :=
  let s := appendTitles max [123] titles
  if s.length < max - 1 then s ++ [125] else s

/-- The title of the first entry the test holds for, empty where there is none. -/
def titleWhere (entries : List (Text × Text)) (p : Text → Bool) : Text :=
  ((entries.find? fun e => p e.1).map Prod.snd).getD []

/-- The default title: the global one, else that of the default language, of
English or the first. -/
def bestTitle (global lang : Text) (entries : List (Text × Text)) : Text :=
  let title := if global ≠ [] then global else if lang ≠ [] then titleWhere entries (· = lang) else []
  let title := if title = [] then titleWhere entries fun l => l.take 2 = ascii "en" else title
  if title = [] then titleWhere entries fun _ => true else title

/-- `pkg_parser_parse_param_json` on a text with a NUL behind it. -/
def parseParamJson (json : Text) (m : Meta) : Meta :=
  let orElse := fun old new : Text => if old = [] then new else old
  let titleId := orElse m.titleId ((jsonExtractKey json [0] "titleId" 32).getD [])
  let category := orElse m.category ((jsonExtractKey json [0] "category" 16).getD [])
  let version := orElse m.appVersion (jsonVersion json [0])
  let block := localizedBlock json
  let global := globalTitle json block
  match block with
  | none => ⟨titleId, orElse m.titleName global, category, version, [], []⟩
  | some (start, close) =>
    let region := (json.take close).drop start
    let lang := (stringAfter region (quoted (ascii "defaultLanguage")) 32).getD []
    let entries := languageEntries (region.length + 1) 64 (region.drop 1)
    ⟨titleId, orElse m.titleName (bestTitle global lang entries), category, version,
      if entries = [] then [] else titlesJson 2048 entries, lang⟩

/-! `param.sfo`. -/

/-- `s_sfo_lang_map`. -/
def sfoLangMap : List String :=
  ["ja-JP", "en-US", "fr-FR", "es-ES", "de-DE", "it-IT", "nl-NL", "pt-PT",
    "ru-RU", "ko-KR", "zh-Hant", "zh-Hans", "fi-FI", "sv-SE", "da-DK", "no-NO",
    "pl-PL", "pt-BR", "en-GB", "tr-TR", "es-419", "ar-AE", "fr-CA", "cs-CZ",
    "hu-HU", "el-GR", "ro-RO", "th-TH", "vi-VN", "id-ID"]

/-- What the loop over the entries of a `param.sfo` has found. -/
structure Sfo where
  title : Text
  titleId : Text
  category : Text
  appVer : Text
  version : Text
  loc : List (Text × Text)

def readLe (s : Text) (off width : Nat) : Nat := leValue ((s.drop off).take width)

/-- A value in a buffer of `n` bytes; the NULs at its end fall away with the rest. -/
def sfoField (n : Nat) (data : Text) : Text := upToNul (data.take (n - 1))

/-- The language of a key "TITLE_00" to "TITLE_29". -/
def sfoLanguage (key : Text) : Option Text :=
  let suffix := key.drop 6
  if key.take 6 = ascii "TITLE_" ∧ suffix ≠ [] ∧ suffix.all isDigit then
    let index := Int.bmod (min (digitsValue suffix) (2 ^ 63 - 1)) (2 ^ 32)
    if 0 ≤ index then sfoLangMap[index.toNat]?.map ascii else none
  else none

def sfoValue (found : Sfo) (key data : Text) : Sfo :=
  if key = ascii "TITLE" ∧ found.title = [] then { found with title := sfoField 256 data }
  else if key = ascii "TITLE_ID" ∧ found.titleId = [] then
    { found with titleId := sfoField 32 data }
  else if key.take 6 = ascii "TITLE_" ∧ found.loc.length < 32 then
    match sfoLanguage key with
    | some lang => { found with loc := found.loc ++ [(lang, sfoField 256 data)] }
    | none => found
  else if key = ascii "CATEGORY" ∧ found.category = [] then
    { found with category := sfoField 16 data }
  else if key = ascii "APP_VER" ∧ found.appVer = [] then { found with appVer := sfoField 32 data }
  else if key = ascii "VERSION" ∧ found.version = [] then
    { found with version := sfoField 32 data }
  else found

/-- Entry `i` of the table. -/
def sfoEntry (sfo : Text) (found : Sfo) (i : Nat) : Sfo :=
  let e := 20 + i * 16
  let key := readLe sfo 8 4 + readLe sfo e 2
  let len := readLe sfo (e + 4) 4
  let data := readLe sfo 12 4 + readLe sfo (e + 12) 4
  if sfo.length ≤ key ∨ 0 ∉ sfo.drop key ∨ sfo.length < data + len then found
  else sfoValue found (upToNul (sfo.drop key)) ((sfo.drop data).take len)

def sfoEntries (sfo : Text) : Sfo :=
  ((List.range (readLe sfo 16 4)).takeWhile fun i => 20 + (i + 1) * 16 ≤ sfo.length).foldl
    (sfoEntry sfo) ⟨[], [], [], [], [], []⟩

/-- `pkg_parser_parse_param_sfo` with empty texts for what it sets, and the
localized titles and the default language that were there before. -/
def parseParamSfo (sfo localized lang : Text) : Meta :=
  if sfo.length < 20 ∨ sfo.take 4 ≠ [0, 80, 83, 70] ∨ sfo.length ≤ readLe sfo 8 4 ∨
      sfo.length ≤ readLe sfo 12 4 ∨ 1024 < readLe sfo 16 4 then
    ⟨[], [], [], [], localized, lang⟩
  else
    let found := sfoEntries sfo
    let english := found.loc.find? fun e => e.1 = ascii "en-US"
    let title :=
      if found.title = [] then ((english.or found.loc.head?).map Prod.snd).getD [] else found.title
    let best := if found.appVer ≠ [] then found.appVer else found.version
    let version := if best = [] ∨ startsWithV best then best else bounded 32 ([118] ++ best)
    ⟨found.titleId, title, found.category, version,
      if found.loc = [] then localized else titlesJson 2048 found.loc,
      if found.loc = [] ∨ lang ≠ [] then lang else ascii "en-US"⟩

end PkgManager.PkgMetadata
