import StagedScript.Toml.Scalar

/-!
# Reading configuration documents

A document is read from the front, one character at a time.  Headers open tables, keys with dots
mention the tables on their way, and every key is noted in the order of the text.
-/

namespace StagedScript

namespace Toml

structure Reader where
  rest : List Utf8.Piece
  line : Nat := 1
  afterBreak : Bool := false
  context : List Bytes := []
  /-- The last part of the key whose value is being read. -/
  current : Bytes := []
  keys : List (List Bytes × Nat) := []
  root : Entries := []

abbrev Reading := EStateM TomlError Reader

def Reader.lastKey (r : Reader) : Bytes :=
  if r.current.isEmpty then showKey r.context
  else if r.context.isEmpty then r.current
  else showKey r.context ++ "." ++ r.current

namespace Reading

def failOn {α : Type} (line : Nat) (message : Bytes) : Reading α := do
  throw ⟨some line, (← get).lastKey, message⟩

def fail {α : Type} (message : Bytes) : Reading α := do failOn (← get).line message

/-- Fails after a character was read. At the end of the text this is on its last line. -/
def failAfter {α : Type} (c : Option Nat) (message : Bytes) : Reading α := do
  let r ← get
  failOn (if c.isNone && r.afterBreak then r.line - 1 else r.line) message

def peek : Reading (Option Nat) := do
  match (← get).rest with
  | [] => return none
  | .stray b :: _ => fail ("invalid UTF-8 byte: 0x" ++ Bytes.hexFixed 2 b.toNat)
  | .char code _ :: rest =>
    let followed := match rest with
      | .char 0x0a _ :: _ => true
      | _ => false
    if (code < 0x20 && code ≠ 0x09 && code ≠ 0x0a && code ≠ 0x0d) || code = 0x7f ||
        (code = 0x0d && !followed) then
      fail ("TOML files cannot contain control characters: '0x" ++ Bytes.hexFixed 2 code ++ "'")
    return some code

def skip : Reading Unit :=
  modify fun r => match r.rest with
    | [] => r
    | p :: rest =>
      let isBreak := p.code = 0x0a
      { r with rest, line := if isBreak then r.line + 1 else r.line, afterBreak := isBreak }

def next : Reading (Option Nat) := do
  let c ← peek
  skip
  return c

/-- A character for messages. The end of the text is shown as the null character. -/
def shown (c : Option Nat) : Bytes := Quoted.character (c.getD 0)

def written (c : Option Nat) : Bytes :=
  match c with
  | none => "end of file"
  | some c => "'" ++ Utf8.encode c ++ "'"

def isSpace (c : Nat) : Bool := c = 0x20 || c = 0x09

def isBreak (c : Nat) : Bool := c = 0x0a || c = 0x0d

def takeWhile (p : Nat → Bool) : (fuel : Nat) → Reading Bytes
  | 0 => return []
  | fuel + 1 => do
    match ← peek with
    | some c =>
      if p c then
        skip
        return Utf8.encode c ++ (← takeWhile p fuel)
      return []
    | none => return []

def left : Reading Nat := return (← get).rest.length + 1

def takeAll (p : Nat → Bool) : Reading Bytes := do takeWhile p (← left)

def skipSpaces : Reading Unit := do
  let _ ← takeAll isSpace

def skipGaps : (fuel : Nat) → Reading Unit
  | 0 => return ()
  | fuel + 1 => do
    let _ ← takeAll fun c => isSpace c || isBreak c
    if (← peek) = some 0x23 then
      let _ ← takeAll fun c => !isBreak c
      skipGaps fuel

/-! ### Texts -/

/-- Reads a hexadecimal escape of a number of digits. `sofar` is the text in front of it. -/
def hexEscape (letter words : Bytes) : (digits : Nat) → (sofar : Bytes) → Reading Bytes
  | 0, _ => return []
  | digits + 1, sofar => do
    let c ← next
    let b := Utf8.encode (c.getD 0)
    let isHex := match c, b with
      | some _, [b] => isHexByte b
      | _, _ => false
    if !isHex then
      failAfter c ("expected " ++ words ++ " hexadecimal digits after '\\" ++ letter ++
        "', but got " ++ Quoted.text (sofar ++ (if c.isSome then b else [])) ++ " instead")
    return b ++ (← hexEscape letter words digits (sofar ++ b))

/-- Reads what follows a backslash. The escape is kept as written. -/
def escape (sofar : Bytes) : Reading Bytes := do
  let c ← next
  let b := Utf8.encode (c.getD 0)
  match c with
  | some 0x78 => return b ++ (← hexEscape "x" "two" 2 (sofar ++ b))
  | some 0x75 => return b ++ (← hexEscape "u" "four" 4 (sofar ++ b))
  | some 0x55 => return b ++ (← hexEscape "U" "eight" 8 (sofar ++ b))
  | _ =>
    if [0x65, 0x62, 0x74, 0x6e, 0x66, 0x72, 0x22, 0x20, 0x09, 0x5c].contains (c.getD 0) then
      return b
    failAfter c ("invalid escape in string '\\" ++ b ++ "'")

/-- Reads a text up to its closing quote on the same line, within `fuel` characters. -/
def lineText (quote : Nat) (escapes : Bool) : (fuel : Nat) → (sofar : Bytes) → Reading Bytes
  | 0, sofar => return sofar
  | fuel + 1, sofar => do
    let c ← next
    match c with
    | none =>
      let wanted : Bytes := if quote = 0x22 then "'\"'" else "\"'\""
      failAfter c ("unexpected EOF; expected " ++ wanted)
    | some c =>
      let line := (← get).line
      if isBreak c then
        failOn (if c = 0x0a then line - 1 else line) "strings cannot contain newlines"
      if c = quote then return sofar
      let sofar := sofar ++ Utf8.encode c
      if escapes && c = 0x5c then lineText quote escapes fuel (sofar ++ (← escape sofar))
      else lineText quote escapes fuel sofar

def atTripleQuote (quote : Nat) : Reading Bool := do
  let same : Utf8.Piece → Bool := fun p => p.code = quote
  return match (← get).rest with
    | a :: b :: c :: _ => same a && same b && same c
    | _ => false

/-- Reads a text up to three quotes. One or two quotes may stand directly in front of them. -/
def blockText (quote : Nat) (escapes : Bool) : (fuel : Nat) → (sofar : Bytes) → Reading Bytes
  | 0, sofar => return sofar
  | fuel + 1, sofar => do
    if ← atTripleQuote quote then
      skip; skip; skip
      let extra ← takeWhile (fun c => c = quote) 3
      if extra.length = 3 then
        let six := List.replicate 6 quote.toUInt8
        fail ("unexpected " ++
          (if quote = 0x22 then "'" ++ six ++ "'" else "\"" ++ six ++ "\""))
      return sofar ++ extra
    match ← next with
    | none =>
      let three := List.replicate 3 quote.toUInt8
      failAfter none ("unexpected EOF; expected " ++
        (if quote = 0x22 then "'" ++ three ++ "'" else "\"" ++ three ++ "\""))
    | some c =>
      let sofar := sofar ++ Utf8.encode c
      if escapes && c = 0x5c then
        match ← peek with
        | some d =>
          if isBreak d then
            skip
            blockText quote escapes fuel (sofar ++ Utf8.encode d)
          else blockText quote escapes fuel (sofar ++ (← escape sofar))
        | none => blockText quote escapes fuel sofar
      else blockText quote escapes fuel sofar

def orFail {α : Type} : Except Bytes α → Reading α
  | .ok a => return a
  | .error message => fail message

def unescaped (s : Bytes) : Reading Bytes := orFail (replaceEscapes s.length s)

def text (quote : Nat) : Reading Bytes := do
  let escapes := quote = 0x22
  if ← atTripleQuote quote then
    skip; skip; skip
    let s := dropFirstBreak (← blockText quote escapes (← left) [])
    if escapes then unescaped (joinLines 0 s) else return s
  else
    skip
    let s ← lineText quote escapes (← left) []
    if escapes then unescaped s else return s

/-! ### Keys -/

def keyPart : Reading Bytes := do
  match ← peek with
  | some 0x22 =>
    skip
    unescaped (← lineText 0x22 true (← left) [])
  | some 0x27 =>
    skip
    lineText 0x27 false (← left) []
  | _ => takeAll isBare

def headerParts : (fuel : Nat) → Reading (List Bytes)
  | 0 => return []
  | fuel + 1 => do
    skipSpaces
    let c ← peek
    if c = some 0x5d || c = none then
      fail "unexpected end of table name (table names cannot be empty)"
    if c = some 0x2e then fail "unexpected table separator (table names cannot be empty)"
    let part ← keyPart
    skipSpaces
    match ← next with
    | some 0x2e => return part :: (← headerParts fuel)
    | some 0x5d => return [part]
    | c => failAfter c ("expected '.' or ']' to end table name, but got " ++ shown c ++ " instead")

def keyParts (isFirst : Bool) : (fuel : Nat) → Reading (List Bytes)
  | 0 => return []
  | fuel + 1 => do
    skipSpaces
    let c ← peek
    if c = some 0x3d || c = none then
      fail (if isFirst then "unexpected '=': key name appears blank" else "unexpected '='")
    if c = some 0x2e then
      fail (if isFirst then "unexpected '.': keys cannot start with a '.'" else "unexpected '.'")
    let part ← keyPart
    skipSpaces
    let c ← next
    match c with
    | none => failAfter none "unexpected EOF; expected key separator '='"
    | some 0x2e => return part :: (← keyParts false fuel)
    | some 0x3d => return [part]
    | some code =>
      let line := (← get).line
      failOn (if code = 0x0a then line - 1 else line)
        ("expected '.' or '=', but got " ++ shown c ++ " instead")

/-! ### Values -/

def change (f : Entries → Except Conflict Entries) : Reading Unit := do
  match f (← get).root with
  | .ok root => modify ({ · with root })
  | .error e => fail e.message

def isDigit (c : Nat) : Bool := 0x30 ≤ c && c ≤ 0x39

def real (start : Bytes) : Reading Toml := do
  let s ← takeAll fun c =>
    isDigit c || c = 0x5f || c = 0x2e || c = 0x2d || c = 0x2b || c = 0x65 || c = 0x45
  orFail (checkReal (start ++ s))
  return .real

def decimal (start : Bytes) : Reading Toml := do
  let s := start ++ (← takeAll fun c => isDigit c || c = 0x5f)
  match ← peek with
  | some 0x2e | some 0x65 | some 0x45 => real s
  | _ => return .int (← orFail (readInteger s))

def based (start name : Bytes) (isBaseDigit : Nat → Bool) : Reading Toml := do
  let c ← peek
  if !(c.map isBaseDigit).getD false then
    fail ("not a " ++ name ++ " number: '" ++ start ++ Utf8.encode (c.getD 0) ++ "'")
  let s ← takeAll fun c => isBaseDigit c || c = 0x5f
  return .int (← orFail (readInteger (start ++ s)))

def numberOrDate : Reading Toml := do
  let s ← takeAll isDigit
  let c ← peek
  match s, c with
  | [0x30], some 0x62 =>
    skip
    based "0b" "binary" fun c => c = 0x30 || c = 0x31
  | [0x30], some 0x6f =>
    skip
    based "0o" "octal" fun c => 0x30 ≤ c && c ≤ 0x37
  | [0x30], some 0x78 =>
    skip
    based "0x" "hexadecimal" fun c => c < 0x80 && isHexByte c.toUInt8
  | _, _ =>
    if s ≠ [0x30] && (c = some 0x2d || c = some 0x3a) then
      let rest ← takeAll fun c =>
        isDigit c || [0x2d, 0x3a, 0x54, 0x74, 0x20, 0x2e, 0x5a, 0x7a, 0x2b].contains c
      let whole := Bytes.dropEndWhile (fun c => c = 0x20) (s ++ rest)
      if isMoment whole then return .moment
      fail ("invalid datetime: " ++ Quoted.text whole)
    else decimal s

def signed (sign : UInt8) : Reading Toml := do
  let special (word : Bytes) : Reading Toml := do
    let s ← takeAll fun c => word.contains c.toUInt8 && c < 0x80
    if s = word then return .real
    fail ("invalid float: '" ++ [sign] ++ s ++ "'")
  match ← peek with
  | some 0x69 => special "inf"
  | some 0x6e => special "nan"
  | some 0x2e => fail "floats must start with a digit, not '.'"
  | c =>
    if !(c.map isDigit).getD false then
      skip
      failAfter c ("expected a digit but got " ++ shown c)
    if c = some 0x30 then
      skip
      let d ← peek
      if d = some 0x62 || d = some 0x6f || d = some 0x78 then
        fail ("cannot use sign with non-decimal numbers: '" ++ [sign, 0x30] ++
          Utf8.encode (d.getD 0) ++ "'")
      decimal [sign, 0x30]
    else decimal [sign]

def isLetter (c : Nat) : Bool :=
  (0x41 ≤ c && c ≤ 0x5a) || (0x61 ≤ c && c ≤ 0x7a) || 0x80 ≤ c

def truth : Reading Toml := do
  let s ← takeAll isLetter
  let isTrue : Bool := s = Bytes.ofString "true"
  let isFalse : Bool := s = Bytes.ofString "false"
  if isTrue then return .bool true
  if isFalse then return .bool false
  let special : List Bytes := ["inf", "nan"]
  if special.contains s then return .real
  fail ("expected value but found " ++ Quoted.text s ++ " instead")

/-- Notes a key and mentions the tables on its way. The result is the path of its table and its last
part. -/
def noteKey (base : List Bytes) (key : List Bytes) : Reading (List Bytes × Bytes) := do
  let (path, last) := splitKey key
  modify fun r =>
    { r with context := base ++ path, current := last, keys := (base ++ key, r.line) :: r.keys }
  return (path, last)

/-- Mentions the tables on the way to a key, in a document that starts at a table. -/
def mentionAll (base : List Bytes) : (seen path : List Bytes) → Entries → Except Conflict Entries
  | _, [], root => .ok root
  | seen, k :: rest, root => do
    let root ← mention (base ++ seen ++ [k]) root
    mentionAll base (seen ++ [k]) rest root

mutual

def value : (fuel : Nat) → Reading Toml
  | 0 => fail "unexpected EOF; expected value"
  | fuel + 1 => do
    skipSpaces
    let c ← peek
    match c with
    | some 0x5b =>
      skip
      return .array (← elements fuel)
    | some 0x7b =>
      skip
      let outer ← get
      let base := outer.context ++ [outer.current]
      let entries ← braced base fuel []
      modify ({ · with context := outer.context, current := outer.current })
      return .table false entries
    | some 0x22 => return .text (← text 0x22)
    | some 0x27 => return .text (← text 0x27)
    | some 0x2e => fail "floats must start with a digit, not '.'"
    | some 0x2d =>
      skip
      signed 0x2d
    | some 0x2b =>
      skip
      signed 0x2b
    | some code =>
      if isDigit code then numberOrDate
      else if isLetter code then truth
      else
        let line := (← get).line
        failOn line ("expected value but found " ++ shown c ++ " instead")
    | none => failAfter none "unexpected EOF; expected value"

def elements : (fuel : Nat) → Reading (List Toml)
  | 0 => return []
  | fuel + 1 => do
    skipGaps (← left)
    match ← peek with
    | some 0x2c => fail "unexpected comma"
    | some 0x5d =>
      skip
      return []
    | _ =>
      let v ← value fuel
      skipGaps (← left)
      match ← next with
      | some 0x2c => return v :: (← elements fuel)
      | some 0x5d => return [v]
      | c =>
        failAfter c ("expected a comma (',') or array terminator (']'), but got " ++ written c)

def braced (base : List Bytes) : (fuel : Nat) → Entries → Reading Entries
  | 0, entries => return entries
  | fuel + 1, entries => do
    skipGaps (← left)
    match ← peek with
    | some 0x2c => fail "unexpected comma"
    | some 0x7d =>
      skip
      return entries
    | _ =>
      modify ({ · with context := base, current := [] })
      let key ← keyParts true (← left)
      let (path, last) ← noteKey base key
      let v ← value fuel
      let isBraced := match v with
        | .table .. => true
        | _ => false
      let entries ← match mentionAll [] [] path entries with
        | .ok entries => match define path last v isBraced entries with
          | .ok entries => pure entries
          | .error e => fail e.message
        | .error e => fail e.message
      skipGaps (← left)
      match ← next with
      | some 0x2c => braced base fuel entries
      | some 0x7d => return entries
      | c =>
        failAfter c ("expected a comma or an inline table terminator '\x7d', but got " ++
          written c ++ " instead")

end

/-! ### Documents -/

def header : Reading Unit := do
  let isElement := (← peek) = some 0x5b
  if isElement then skip
  let key ← headerParts (← left)
  if isElement then
    let c ← next
    if c ≠ some 0x5d then
      failAfter c ("expected end of table array name delimiter ']', but got " ++ shown c ++
        " instead")
    change (openElement key)
  else change (openTable key)
  modify fun r => { r with context := key, keys := (key, r.line) :: r.keys }

def keyValue : Reading Unit := do
  let outer := (← get).context
  let key ← keyParts true (← left)
  let (path, last) ← noteKey outer key
  change (mentionAll outer [] path)
  let v ← value (← left)
  let isBraced := match v with
    | .table .. => true
    | _ => false
  change (define (outer ++ path) last v isBraced)
  modify ({ · with context := outer, current := [] })

def lineEnd : Reading Unit := do
  skipSpaces
  match ← peek with
  | none => return ()
  | some 0x23 =>
    let _ ← takeAll fun c => !isBreak c
  | some c =>
    if !isBreak c then
      fail ("expected a top-level item to end with a newline, comment, or EOF, but got " ++
        shown (some c) ++ " instead")

def definitions : (fuel : Nat) → Reading Unit
  | 0 => return ()
  | fuel + 1 => do
    skipGaps (← left)
    match ← peek with
    | none => return ()
    | some 0x5b =>
      skip
      header
      lineEnd
      definitions fuel
    | some _ =>
      keyValue
      lineEnd
      definitions fuel

end Reading

def dropMark : Bytes → Bytes
  | 0xff :: 0xfe :: rest => rest
  | 0xfe :: 0xff :: rest => rest
  | 0xef :: 0xbb :: 0xbf :: rest => rest
  | s => s

/-- Reads a document. The result has its entries, and its keys with their lines in the order of the
text. -/
def document (s : Bytes) : Except TomlError (Entries × List (List Bytes × Nat)) :=
  let s := dropMark s
  if (s.take 6).contains 0 then
    .error ⟨some 1, [],
      "files cannot contain NULL bytes; probably using UTF-16; TOML files must be UTF-8"⟩
  else
    let pieces := Utf8.pieces s
    match EStateM.run (Reading.definitions (pieces.length + 1)) { rest := pieces } with
    | .ok _ r => .ok (r.root, r.keys.reverse)
    | .error e _ => .error e

end Toml

end StagedScript
