import StagedScript.Error
import StagedScript.Token.Scan

/-!
# The state of a parser

A parser reads tokens one at a time and may look one token ahead.  When parsing fails the state
stays at the place of the failure, and parsing can be resumed there.

Unquotes collect their arguments in the quote around them.  The two records `textQuote` and
`braceQuote` stand for the innermost quote outside and inside the braces of an embedded expression.
-/

namespace StagedScript

inductive GrammarError where
  | expected (kind : TokenKind) (found : Token)
  | methodName (found : Token)
  | memberName (found : Token)
  | expression (found : Token)
  | endOfStatement (found : Token)
  | unquoteOutside
  | namedArguments (method : Bytes)
  | exportNameless
  | exportOther (found : Token)
  | tooDeep

def GrammarError.message : GrammarError → Bytes
  | .expected kind found => "expected " ++ kind.name ++ ", not " ++ found.display
  | .methodName found => "expected method name, not " ++ found.display
  | .memberName found => "expected name after ::, not " ++ found.display
  | .expression found => "expected expression, not " ++ found.display
  | .endOfStatement found => "expected end of statement, not " ++ found.display
  | .unquoteOutside => ":$ outside quote"
  | .namedArguments method => "named arguments not allowed in meth " ++ method
  | .exportNameless => "expected declaration after export"
  | .exportOther found => "expected declaration after export, not " ++ found.display
  | .tooDeep => "expression nested too deeply"

inductive ReadError where
  | scan (line : Nat) (cause : ScanError)
  | grammar (line : Nat) (cause : GrammarError)

def ReadError.toSource (source : Bytes) : ReadError → SourceError
  | .scan line cause => .plain .lexical ⟨source, line⟩ cause.message
  | .grammar line cause => .plain .grammatical ⟨source, line⟩ cause.message

structure Parser where
  place : Place
  peeked : Option Token := none
  last : Nat := 0
  pending : Option Expr := none
  /-- The arguments collected by the innermost quote that is not inside braces. -/
  textQuote : Option (List Expr) := none
  /-- The arguments collected by the innermost quote inside the braces of a text. -/
  braceQuote : Option (List Expr) := none
  inBraces : Bool := false
  nextDecl : Nat := 0

namespace Parser

def start (text : Bytes) : Parser := { place := ⟨text, 1⟩ }

end Parser

abbrev ParseAction (α : Type) := EStateM ReadError Parser α

namespace Parser

def scanFailure {α : Type} (f : ScanFailure) : ParseAction α := do
  modify ({ · with place := f.place })
  throw (.scan f.line f.cause)

def textPart (source text : Bytes) (line : Nat) : List Expr :=
  if text.isEmpty then [] else [.value ⟨source, line, line⟩ (.str text)]

/-- Reads the rest of a text in single quotes that was opened on a line, after the given parts.
Without embedded expressions it is a plain literal. -/
def embeddedText (source : Bytes) (embedded : Option (ParseAction Expr)) (opened : Nat) :
    (fuel : Nat) → (parts : List Expr) → ParseAction Lexeme
  | 0, _ => throw (.grammar opened .tooDeep)
  | fuel + 1, parts => do
    let place := (← get).place
    let c := chunk 0x27 true 0 place.line place.rest
    match c.stop.failure? opened c.place with
    | some f => scanFailure f
    | none =>
      let here := c.place.line
      match c.stop with
      | .brace =>
        match embedded with
        | none => scanFailure ⟨here, .noParser, c.place⟩
        | some parse =>
          modify ({ · with place := ⟨c.place.rest.drop 1, here⟩ })
          let e ← parse
          embeddedText source embedded opened fuel (parts ++ textPart source c.text here ++ [e])
      | _ =>
        modify ({ · with place := c.place })
        if parts.isEmpty then return .value (.str c.text)
        else return .string (.string ⟨source, opened, here⟩ (parts ++ textPart source c.text here))

def scan (source : Bytes) (tables : Tables) (embedded : Option (ParseAction Expr)) (fuel : Nat) :
    ParseAction Token := do
  let place := (← get).place
  match skipGap .blanks place.line place.rest with
  | .error f => scanFailure f
  | .ok place =>
    if place.rest.head? = some 0x27 then
      modify ({ · with place := ⟨place.rest.drop 1, place.line⟩ })
      let lexeme ← embeddedText source embedded place.line fuel []
      return ⟨lexeme, place.line⟩
    else match scanPlain tables place with
      | .error f => scanFailure f
      | .ok (lexeme, after) =>
        modify ({ · with place := after })
        return ⟨lexeme, place.line⟩

def peekWith (scan : ParseAction Token) : ParseAction Token := do
  match (← get).peeked with
  | some t => return t
  | none =>
    let t ← scan
    modify ({ · with peeked := some t })
    return t

def nextWith (scan : ParseAction Token) : ParseAction Token := do
  match (← get).peeked with
  | some t =>
    modify ({ · with peeked := none })
    return t
  | none => scan

def embed (parse : ParseAction Expr) : ParseAction Expr := fun outer =>
  let leave (s : Parser) : Parser :=
    { s with
      last := outer.last
      pending := outer.pending
      braceQuote := outer.braceQuote
      inBraces := outer.inBraces }
  match parse { outer with last := 0, pending := none, braceQuote := none, inBraces := true } with
  | .ok e s => .ok e (leave s)
  | .error err s => .error err (leave s)

def quoted {α : Type} (parse : ParseAction α) : ParseAction (α × List Expr) := fun outer =>
  let enter : Parser :=
    if outer.inBraces then { outer with braceQuote := some [] }
    else { outer with textQuote := some [] }
  let args (s : Parser) : List Expr :=
    (if outer.inBraces then s.braceQuote else s.textQuote).getD []
  let leave (s : Parser) : Parser :=
    if outer.inBraces then { s with braceQuote := outer.braceQuote }
    else { s with textQuote := outer.textQuote }
  match parse enter with
  | .ok a s => .ok (a, args s) (leave s)
  | .error err s => .error err (leave s)

def isQuoted : ParseAction Bool := do
  let s ← get
  return s.braceQuote.isSome || s.textQuote.isSome

def addArgument (arg : Expr) : ParseAction Nat := do
  let s ← get
  match s.braceQuote with
  | some args =>
    set { s with braceQuote := some (args ++ [arg]) }
    return args.length
  | none =>
    let args := s.textQuote.getD []
    set { s with textQuote := some (args ++ [arg]) }
    return args.length

def newDecl (name : Bytes) (line : Nat) (exported : Bool) : ParseAction Decl :=
  modifyGet fun s => (⟨s.nextDecl, name, line, exported⟩, { s with nextDecl := s.nextDecl + 1 })

end Parser

end StagedScript
