import StagedScript.Token.Basic
import StagedScript.Token.KeywordTable
import StagedScript.Token.Literal

/-!
# Reading single tokens

What the next token is depends on its first byte.  All tokens but texts with embedded expressions
can be read without parsing, and the functions of this module read them from the rest of the text.
-/

namespace StagedScript

structure Place where
  rest : Bytes
  line : Nat
  deriving DecidableEq

inductive ScanError where
  | unexpectedByte (c : UInt8)
  | unknownPrefix (word : Bytes)
  | unterminatedText
  | unterminatedEscape
  | unterminatedComment
  | escape (cause : EscapeError)
  | prefixed (word : Bytes) (cause : EscapeError)
  | number (cause : NumberError)
  | noParser

def ScanError.message : ScanError → Bytes
  | .unexpectedByte c => "unexpected character " ++ Quoted.character c.toNat
  | .unknownPrefix word => "unknown string prefix " ++ word
  | .unterminatedText => "unterminated string"
  | .unterminatedEscape => "unterminated escape sequence"
  | .unterminatedComment => "unterminated comment"
  | .escape cause => cause.message
  | .prefixed word cause => word ++ " string: " ++ cause.message
  | .number cause => cause.message
  | .noParser => "string interpolation needs a parser"

/-- A failed scan: the line it is reported for, the cause, and the place where it stopped. -/
structure ScanFailure where
  line : Nat
  cause : ScanError
  place : Place

/-- What stands between two tokens at a point of the text. -/
inductive Gap where
  | blanks
  | lineComment
  | comment (depth : Nat) (opened : Nat)

/-- Drops blanks and comments. The result is the place of the next token. -/
def skipGap : Gap → (line : Nat) → Bytes → Except ScanFailure Place
  | .comment _ opened, line, [] => .error ⟨opened, .unterminatedComment, ⟨[], line⟩⟩
  | .comment depth opened, line, 0x3a :: 0x3c :: rest =>
    skipGap (.comment (depth + 1) opened) line rest
  | .comment 0 _, line, 0x3e :: 0x3a :: rest => skipGap .blanks line rest
  | .comment (depth + 1) opened, line, 0x3e :: 0x3a :: rest =>
    skipGap (.comment depth opened) line rest
  | .comment depth opened, line, c :: rest =>
    skipGap (.comment depth opened) (if c = Bytes.newline then line + 1 else line) rest
  | .lineComment, line, [] => .ok ⟨[], line⟩
  | .lineComment, line, c :: rest =>
    if c = Bytes.newline then .ok ⟨c :: rest, line⟩ else skipGap .lineComment line rest
  | .blanks, line, [] => .ok ⟨[], line⟩
  | .blanks, line, 0x3a :: 0x3c :: rest => skipGap (.comment 0 line) line rest
  | .blanks, line, 0x3a :: 0x3e :: rest => skipGap .lineComment line rest
  | .blanks, line, c :: rest =>
    if CharClass.ofByte c = .space then skipGap .blanks line rest else .ok ⟨c :: rest, line⟩

inductive ChunkEnd where
  | closed
  | brace
  | unfinished
  /-- An escape is wrong, or the text ends inside it. -/
  | badEscape (cause : Option EscapeError)

structure Chunk where
  text : Bytes
  stop : ChunkEnd
  place : Place

def Chunk.prepend (front : Bytes) (c : Chunk) : Chunk := { c with text := front ++ c.text }

/-- Reads a text literal up to its closing quote, or up to an embedded expression if `embeds`. The
first `skip` bytes were already read. -/
def chunk (quote : UInt8) (embeds : Bool) : (skip : Nat) → (line : Nat) → Bytes → Chunk
  | _, line, [] => ⟨[], .unfinished, ⟨[], line⟩⟩
  | k + 1, line, _ :: rest => chunk quote embeds k line rest
  | 0, line, c :: rest =>
    if c = quote then ⟨[], .closed, ⟨rest, line⟩⟩
    else if c = 0x5c then
      match Escape.take rest with
      | .ok (meaning, n) => (chunk quote embeds n line rest).prepend meaning
      | .error cause => ⟨[], .badEscape cause, ⟨c :: rest, line⟩⟩
    else if c = 0x7b && embeds then ⟨[], .brace, ⟨c :: rest, line⟩⟩
    else (chunk quote embeds 0 (if c = Bytes.newline then line + 1 else line) rest).prepend [c]

/-- The failure of a text literal that was opened on a line and ended in the given way. -/
def ChunkEnd.failure? (stop : ChunkEnd) (opened : Nat) (place : Place) : Option ScanFailure :=
  match stop with
  | .closed | .brace => none
  | .unfinished => some ⟨opened, .unterminatedText, place⟩
  | .badEscape cause => some ⟨place.line, cause.elim .unterminatedEscape .escape, place⟩

/-- The raw bytes of a prefixed literal up to its closing quote, and the place after it. `none`
stands for a missing end. -/
def rawText : (escaped : Bool) → (line : Nat) → Bytes → Option Bytes × Place
  | _, line, [] => (none, ⟨[], line⟩)
  | true, line, c :: rest =>
    let (raw, place) := rawText false line rest
    (raw.map (c :: ·), place)
  | false, line, c :: rest =>
    if c = 0x22 then (some [], ⟨rest, line⟩)
    else
      let (raw, place) :=
        rawText (c = 0x5c) (if c = Bytes.newline then line + 1 else line) rest
      (raw.map (c :: ·), place)

structure Tables where
  keywords : KeywordTable
  prefixes : PrefixTable

def Tables.standard : Tables := ⟨KeywordTable.standard, PrefixTable.standard⟩

namespace Scan

def delimiter (c : UInt8) : TokenKind :=
  if c = 0x28 then .leftParen
  else if c = 0x29 then .rightParen
  else if c = 0x5b then .leftBracket
  else if c = 0x5d then .rightBracket
  else if c = 0x7b then .leftBrace
  else if c = 0x7d then .rightBrace
  else if c = 0x2c then .comma
  else .semicolon

def colon : Bytes → TokenKind × Bytes
  | 0x3d :: rest => (.assign, rest)
  | 0x3a :: rest => (.scope, rest)
  | 0x28 :: rest => (.inline, rest)
  | 0x24 :: rest => (.unquote, rest)
  | 0x7b :: rest => (.quote, rest)
  | rest => (.colon, rest)

def prefixed (tables : Tables) (word : Bytes) (line : Nat) (rest : Bytes) :
    Except ScanFailure (Lexeme × Place) :=
  match tables.prefixes.lookup word with
  | none => .error ⟨line, .unknownPrefix word, ⟨rest, line⟩⟩
  | some kind =>
    match rawText false line (rest.drop 1) with
    | (none, place) => .error ⟨place.line, .unterminatedText, place⟩
    | (some raw, place) =>
      match kind.read raw with
      | .ok v => .ok (.value v, place)
      | .error cause => .error ⟨place.line, .prefixed word cause, place⟩

def word (tables : Tables) (line : Nat) (s : Bytes) : Except ScanFailure (Lexeme × Place) :=
  let (name, rest) := s.span CharClass.isWord
  if rest.head? = some 0x22 then prefixed tables name line rest
  else if name = [0x5f] then .ok (.sign .blank, ⟨rest, line⟩)
  else match tables.keywords.lookup name with
    | some k => .ok (.keyword k name, ⟨rest, line⟩)
    | none => .ok (.ident name, ⟨rest, line⟩)

def number (line : Nat) (s : Bytes) : Except ScanFailure (Lexeme × Place) :=
  match Numeral.read s with
  | (.ok v, rest) => .ok (.value v, ⟨rest, line⟩)
  | (.error cause, rest) => .error ⟨line, .number cause, ⟨rest, line⟩⟩

def text (line : Nat) (s : Bytes) : Except ScanFailure (Lexeme × Place) :=
  let c := chunk 0x22 false 0 line s
  match c.stop.failure? line c.place with
  | some failure => .error failure
  | none => .ok (.value (.str c.text), c.place)

end Scan

/-- Reads the token at a place where a gap has been skipped, unless it is a text with embedded
expressions. -/
def scanPlain (tables : Tables) (place : Place) : Except ScanFailure (Lexeme × Place) :=
  let line := place.line
  match place.rest with
  | [] => .ok (.sign .endOfInput, place)
  | c :: rest =>
    match CharClass.ofByte c with
    | .newline => .ok (.sign .endOfLine, ⟨rest, line + 1⟩)
    | .alpha => Scan.word tables line (c :: rest)
    | .digit => Scan.number line (c :: rest)
    | .operator =>
      let (name, rest) := (c :: rest).span CharClass.isOperator
      .ok (.operator name, ⟨rest, line⟩)
    | .delimiter => .ok (.sign (Scan.delimiter c), ⟨rest, line⟩)
    | .colon =>
      let (kind, rest) := Scan.colon rest
      .ok (.sign kind, ⟨rest, line⟩)
    | .doubleQuote => Scan.text line rest
    | .space | .singleQuote | .other => .error ⟨line, .unexpectedByte c, place⟩

end StagedScript
