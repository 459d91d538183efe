import StagedScript.Tree.Parser.Grammar

/-!
# Parsing texts

`parseUnit` parses a whole text as a block.  A `Parser` can also be asked for single expressions,
one after another, and goes on after an error from the place where it stopped.  `tokens` cuts a
text into tokens, and a `Lexer` reads single tokens without any grammar.
-/

namespace StagedScript

namespace Parser

/-- A bound for the depth of nesting and the rounds of loops: more than what is left to read. -/
def bound (s : Parser) : Nat := s.place.rest.length + 3

def run {α : Type} (source : Bytes) (tables : Tables) (rule : Rule α) : ParseAction α := fun s =>
  rule ⟨source, tables, s.bound, Grammar.goal source tables s.bound s.bound⟩ s

def unit : Rule Expr := do
  let body ← Grammar.block 1 false [.endOfInput]
  let _ ← Grammar.expect .endOfInput
  return body

def single (level : Level) : Rule Expr := do
  Grammar.skipLines
  Grammar.expression level

def tokensFrom (scan : ParseAction Token) :
    (fuel : Nat) → Parser → List Token × Option ReadError
  | 0, _ => ([], none)
  | fuel + 1, s =>
    match nextWith scan s with
    | .error e _ => ([], some e)
    | .ok t s =>
      if t.kind = .endOfInput then ([t], none)
      else
        let (rest, e) := tokensFrom scan fuel s
        (t :: rest, e)

end Parser

/-- Parses a text as a block. Its declarations are numbered from `firstDecl` on. -/
def parseUnit (tables : Tables) (source text : Bytes) (firstDecl : Nat) :
    Except SourceError (Expr × Nat) :=
  match Parser.run source tables Parser.unit { Parser.start text with nextDecl := firstDecl } with
  | .ok e s => .ok (e, s.nextDecl)
  | .error e _ => .error (e.toSource source)

def parseSingle (tables : Tables) (source text : Bytes) (firstDecl : Nat) :
    Except SourceError (Expr × Nat) :=
  match Parser.run source tables (Parser.single .full)
      { Parser.start text with nextDecl := firstDecl } with
  | .ok e s => .ok (e, s.nextDecl)
  | .error e _ => .error (e.toSource source)

def tokens (tables : Tables) (source text : Bytes) : List Token × Option SourceError :=
  let s := Parser.start text
  let embedded := Parser.embed (Parser.run source tables Grammar.embedded)
  let scan := Parser.scan source tables (some embedded) s.bound
  let (ts, e) := Parser.tokensFrom scan s.bound s
  (ts, e.map (·.toSource source))

/-- Asks a parser for expressions, one after another: each at a level, or the whole rest. -/
def parseSeries (tables : Tables) (source : Bytes) (s : Parser) :
    List (Option Level) → List (Except SourceError Expr)
  | [] => []
  | request :: rest =>
    let rule := match request with
      | some level => Parser.single level
      | none => Parser.unit
    match Parser.run source tables rule s with
    | .ok e s => .ok e :: parseSeries tables source s rest
    | .error e s => .error (e.toSource source) :: parseSeries tables source s rest

inductive LexerRequest where
  | next
  | peek
  | line

inductive LexerAnswer where
  | token (t : Token)
  | line (n : Nat)
  | failed (e : SourceError)

def lexSeries (tables : Tables) (source : Bytes) (s : Parser) : List LexerRequest → List LexerAnswer
  | [] => []
  | request :: rest =>
    let scan := Parser.scan source tables none s.bound
    let step := match request with
      | .next => some (Parser.nextWith scan s)
      | .peek => some (Parser.peekWith scan s)
      | .line => none
    match step with
    | some (.ok t s) => .token t :: lexSeries tables source s rest
    | some (.error e s) => .failed (e.toSource source) :: lexSeries tables source s rest
    | none => .line s.place.line :: lexSeries tables source s rest

end StagedScript
