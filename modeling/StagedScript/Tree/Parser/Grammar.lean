import StagedScript.Tree.Parser.State

/-!
# The grammar

Parsing is by recursive descent, with precedence climbing for binary operators.  The rules below do
not call one another recursively.  Each takes a `Grammar`, whose `parse` field parses a smaller part
of the text, and calls it only after consuming a token.  The rules are tied together by
`Grammar.goal`, which recurses on a bound for the depth of nesting; a bound larger than the length
of the text is never reached.
-/

namespace StagedScript

/-- How much of the following text an expression takes in. Each level includes those before it. -/
inductive Level where
  | simple
  | conj
  | disj
  | generator
  | full
  deriving DecidableEq

namespace Level

def all : List Level := [.simple, .conj, .disj, .generator, .full]

def code : Level → Nat
  | .simple => 0
  | .conj => 1
  | .disj => 2
  | .generator => 3
  | .full => 4

def includes (a b : Level) : Bool := b.code ≤ a.code

end Level

inductive Goal where
  | expression (level : Level)
  | binary (least : Nat)
  | unary
  | term
  /-- Statements up to one of the tokens, followed by handlers if they are allowed. -/
  | block (start : Nat) (handlers : Bool) (stops : List TokenKind)
  | embedded

structure Grammar where
  source : Bytes
  tables : Tables
  rounds : Nat
  parse : Goal → ParseAction Expr

abbrev Rule (α : Type) := ReaderT Grammar (EStateM ReadError Parser) α

namespace Grammar

def sub (goal : Goal) : Rule Expr := fun g => g.parse goal

def peek : Rule Token := fun g =>
  Parser.peekWith (Parser.scan g.source g.tables (some (Parser.embed (g.parse .embedded))) g.rounds)

def next : Rule Token := fun g => do
  let t ← Parser.nextWith
    (Parser.scan g.source g.tables (some (Parser.embed (g.parse .embedded))) g.rounds)
  modify ({ · with last := t.line })
  return t

def failAt {α : Type} (t : Token) (cause : GrammarError) : Rule α :=
  throw (.grammar t.line cause)

def at? (kind : TokenKind) : Rule Bool := do return (← peek).kind = kind

def accept (kind : TokenKind) : Rule Bool := do
  if ← at? kind then
    let _ ← next
    return true
  else return false

def expect (kind : TokenKind) : Rule Token := do
  let t ← peek
  if t.kind = kind then next else failAt t (.expected kind t)

def repeatFor {α β : Type} (step : β → Rule (α ⊕ β)) : (rounds : Nat) → β → Rule α
  | 0, _ => do failAt (← peek) .tooDeep
  | n + 1, b => do
    match ← step b with
    | .inl a => return a
    | .inr b => repeatFor step n b

def repeating {α β : Type} (b : β) (step : β → Rule (α ⊕ β)) : Rule α := do
  repeatFor step (← read).rounds b

def skipLines : Rule Unit :=
  repeating () fun _ => do
    if ← accept .endOfLine then return .inr () else return .inl ()

def spanFrom (first : Nat) : Rule Span := do
  return ⟨(← read).source, first, max (← get).last first⟩

def spanLast : Rule Span := do spanFrom (← get).last

/-- The tokens that cannot begin an operand, so that an optional value before them is absent. -/
def statementEnds : List TokenKind :=
  [.endOfLine, .endOfInput, .semicolon, .keyword .kwEnd, .keyword .kwElse, .keyword .kwElseif,
    .keyword .kwOn, .keyword .kwCase, .keyword .kwIs, .keyword .kwIn, .keyword .kwDo,
    .keyword .kwThen, .rightParen, .rightBracket, .rightBrace, .comma]

def optionalValue : Rule Expr := do
  if statementEnds.contains (← peek).kind then return .absent else sub (.expression .full)

def afterComma : Rule Expr := do
  if ← accept .comma then sub (.expression .full) else return .absent

def isName (t : Token) : Bool :=
  t.kind = .ident || t.kind = .operator || t.kind.isKeyword

/-! ### Lists -/

/-- Expressions separated by commas, up to and including the closing token. -/
def listUntil (close : TokenKind) : Rule (List Expr) := do
  skipLines
  repeating [] fun items => do
    if ← accept close then return .inl items
    let e ← sub (.expression .full)
    skipLines
    let items := items ++ [e]
    if ← accept .comma then
      skipLines
      return .inr items
    skipLines
    let _ ← expect close
    return .inl items

def expressions (level : Level) (acrossLines : Bool) : Rule (List Expr) :=
  repeating [] fun items => do
    let items := items ++ [← sub (.expression level)]
    if ← accept .comma then
      if acrossLines then skipLines
      return .inr items
    return .inl items

def declList (exported : Bool) : Rule (List Decl) :=
  repeating [] fun ds => do
    let t ← expect .ident
    let ds := ds ++ [← Parser.newDecl t.text t.line exported]
    if ← accept .comma then return .inr ds
    let _ ← expect .rightParen
    return .inl ds

/-- One name, or several in parentheses; the flag tells which. -/
def targetNames : Rule (List Decl × Bool) := do
  if ← accept .leftParen then return (← declList false, true)
  let t ← expect .ident
  return ([← Parser.newDecl t.text t.line false], false)

/-- The names of a loop: an optional key, and the names of the element. -/
def loopTarget : Rule (Option Decl × List Decl × Bool) := do
  let (names, unpack) ← targetNames
  if !unpack then
    if ← accept .comma then
      let (elements, unpack) ← targetNames
      return (names.head?, elements, unpack)
  return (none, names, unpack)

/-! ### Operands -/

def blockToEnd (start : Nat) (handlers : Bool) : Rule Expr := do
  let body ← sub (.block start handlers [.keyword .kwEnd])
  let _ ← expect (.keyword .kwEnd)
  return body

def elseBlock : Rule Expr := do
  if ← at? (.keyword .kwElse) then
    let t ← next
    sub (.block t.line false [.keyword .kwEnd])
  else return .absent

def paren (line : Nat) : Rule Expr := do
  skipLines
  if ← accept .rightParen then return .sequence (← spanFrom line) .tuple []
  let first ← sub (.expression .full)
  skipLines
  if ← accept .comma then
    let rest ← listUntil .rightParen
    return .sequence (← spanFrom line) .tuple (first :: rest)
  let _ ← expect .rightParen
  return first

/-- What follows the opening brace of a map. A key without a value maps to nil. -/
def mapEntries (line : Nat) : Rule Expr := do
  skipLines
  let entries ← repeating [] fun (entries : List Expr) => do
    if ← accept .rightBrace then return .inl entries
    let key ← sub (.expression .disj)
    let value ←
      if ← accept (.keyword .kwIs) then sub (.expression .full) else Expr.nil <$> spanLast
    let entries := entries ++ [key, value]
    skipLines
    if ← accept .comma then
      skipLines
      return .inr entries
    skipLines
    let _ ← expect .rightBrace
    return .inl entries
  return .map (← spanFrom line) entries

def guardOf : Rule Guard := do
  let isVar ← at? (.keyword .kwVar)
  if !isVar then
    if !(← at? (.keyword .kwLet)) then return .plain
  let _ ← next
  let name := (← expect .ident).text
  let _ ← expect .assign
  return if isVar then .variable name else .letName name

def conditional (line : Nat) : Rule Expr := do
  let cases ← repeating (([] : List CondCase), line) fun (cases, line) => do
    let guard ← guardOf
    let cond ← sub (.expression .full)
    skipLines
    let _ ← expect (.keyword .kwThen)
    let body ← sub (.block line false [.keyword .kwElseif, .keyword .kwElse, .keyword .kwEnd])
    let cases := cases ++ [⟨line, guard, cond, body⟩]
    if ← at? (.keyword .kwElseif) then
      let t ← next
      return .inr (cases, t.line)
    return .inl cases
  let otherwise ← elseBlock
  let _ ← expect (.keyword .kwEnd)
  return .cond (← spanFrom line) cases otherwise

def forLoop (line : Nat) : Rule Expr := do
  let (key, names, unpack) ← loopTarget
  let _ ← expect (.keyword .kwIn)
  let seq ← sub (.expression .disj)
  skipLines
  let _ ← expect (.keyword .kwDo)
  let body ← sub (.block line false [.keyword .kwElse, .keyword .kwEnd])
  let otherwise ← elseBlock
  let _ ← expect (.keyword .kwEnd)
  return .forIn (← spanFrom line) key names unpack seq body otherwise

def parameterType (typed : Bool) : Rule Expr := do
  if typed then
    if ← accept .colon then sub .term else return .absent
  else return .absent

/-- What follows a parameter: another one, a last one for named arguments, or the closing
parenthesis. -/
def afterParameter (params : List Param) (extra : Bool) :
    Rule ((List Param × Bool × Bool) ⊕ (List Param × Bool)) := do
  skipLines
  if ← accept .comma then
    skipLines
    return .inr (params, extra)
  if ← accept .semicolon then
    skipLines
    let name ← expect .ident
    skipLines
    let _ ← expect .rightParen
    return .inl (params ++ [⟨name.text, name.line, .absent⟩], extra, true)
  let _ ← expect .rightParen
  return .inl (params, extra, false)

/-- Parameters up to and including the closing parenthesis. The flags tell whether the last ones
collect extra and named arguments. -/
def parameters (typed : Bool) : Rule (List Param × Bool × Bool) := do
  skipLines
  if ← accept .rightParen then return ([], false, false)
  repeating (([] : List Param), false) fun (params, extra) => do
    if extra then
      let t ← peek
      failAt t (.expected .rightParen t)
    let name ← expect .ident
    let dots ← peek
    let extra := dots.kind = .operator && dots.text = "..."
    if extra then let _ ← next
    let type ← parameterType typed
    afterParameter (params ++ [⟨name.text, name.line, type⟩]) extra

def functionAt (line : Nat) : Rule Expr := do
  let _ ← expect .leftParen
  let (params, extra, named) ← parameters false
  let body ← blockToEnd line false
  return .function (← spanFrom line) params extra named body

def methodAt (line : Nat) : Rule Expr := do
  let t ← next
  if !isName t then failAt t (.methodName t)
  let _ ← expect .leftParen
  let (params, extra, named) ← parameters true
  if named then failAt t (.namedArguments t.text)
  let body ← blockToEnd line false
  return .method (← spanFrom line) t.text params extra body

def scopedAt (line : Nat) : Rule Expr := do
  let (decls, values) ← repeating (([] : List Decl), ([] : List Expr)) fun (decls, values) => do
    skipLines
    let t ← expect .ident
    let _ ← expect .assign
    let decls := decls ++ [← Parser.newDecl t.text t.line false]
    let values := values ++ [← sub (.expression .full)]
    if ← accept .comma then return .inr (decls, values)
    return .inl (decls, values)
  skipLines
  let _ ← expect (.keyword .kwDo)
  let body ← blockToEnd line false
  return .scoped (← spanFrom line) decls values body

def switchAt (line : Nat) : Rule Expr := do
  let subject ← sub (.expression .full)
  skipLines
  let cases ← repeating [] fun (cases : List Expr) => do
    if ← at? (.keyword .kwCase) then
      let t ← next
      let body ← sub (.block t.line false [.keyword .kwCase, .keyword .kwElse, .keyword .kwEnd])
      return .inr (cases ++ [body])
    return .inl cases
  let otherwise ← elseBlock
  let _ ← expect (.keyword .kwEnd)
  return .switch (← spanFrom line) subject cases otherwise

def selectClause (isIs : Bool) : Rule SelectClause := do
  let t ← next
  let values ← expressions .disj true
  skipLines
  let _ ← expect (.keyword .kwDo)
  let body ← sub (.block t.line false
    [.keyword .kwIs, .keyword .kwIn, .keyword .kwElse, .keyword .kwEnd])
  return ⟨t.line, if isIs then "=" else "in", values, body⟩

def selectAt (line : Nat) : Rule Expr := do
  let subject ← sub (.expression .full)
  skipLines
  let clauses ← repeating [] fun (clauses : List SelectClause) => do
    let isIs ← at? (.keyword .kwIs)
    if !isIs then
      if !(← at? (.keyword .kwIn)) then return .inl clauses
    let clause ← selectClause isIs
    return .inr (clauses ++ [clause])
  let otherwise ← elseBlock
  let _ ← expect (.keyword .kwEnd)
  return .select (← spanFrom line) subject clauses otherwise

/-- A quoted block without declarations and handlers that has one statement is that statement. -/
def unwrapQuoted : Expr → Expr
  | .block _ [] [] [] [e] [] => e
  | e => e

def quotedBody (line : Nat) : Rule Expr := do
  let body ← sub (.block line false [.rightBrace])
  let _ ← expect .rightBrace
  return body

def quoteAt (line : Nat) : Rule Expr := do
  let (body, args) ← fun g => Parser.quoted (quotedBody line g)
  return .quote (← spanFrom line) (unwrapQuoted body) args

def unquoteAt (t : Token) : Rule Expr := do
  if !(← Parser.isQuoted) then failAt t .unquoteOutside
  if ← accept .leftParen then
    let arg ← sub (.expression .full)
    let _ ← expect .rightParen
    let index ← Parser.addArgument arg
    return .unquote (← spanFrom t.line) index []
  else
    let name ← expect .ident
    let index ← Parser.addArgument (.ident (← spanFrom name.line) name.text)
    return .unquote (← spanFrom t.line) index name.text

def wordOperand (t : Token) (k : Keyword) : Rule Expr := do
  let line := t.line
  match k with
  | .kwNil => return .nil (← spanFrom line)
  | .kwOld => return .old (← spanFrom line)
  | .kwNext => return .next (← spanFrom line)
  | .kwRetry => return .retry (← spanFrom line)
  | .kwIf => conditional line
  | .kwLoop =>
    let body ← blockToEnd line false
    return .loop (← spanFrom line) body
  | .kwWhile | .kwUntil =>
    let cond ← sub (.expression .full)
    let value ← afterComma
    let test := if k = .kwUntil then .untilHolds else .whileHolds
    return .exitTest (← spanFrom line) test cond value
  | .kwExit =>
    let value ← optionalValue
    return .exit (← spanFrom line) value
  | .kwRet =>
    let value ← optionalValue
    return .ret (← spanFrom line) value
  | .kwFor => forLoop line
  | .kwEach =>
    let seq ← sub (.expression .disj)
    return .each (← spanFrom line) seq
  | .kwDo => blockToEnd line true
  | .kwFun => functionAt line
  | .kwMeth => methodAt line
  | .kwSusp =>
    let first ← sub (.expression .full)
    let second ← afterComma
    if second.isAbsent then return .suspend (← spanFrom line) .absent first
    else return .suspend (← spanFrom line) first second
  | .kwWith => scopedAt line
  | .kwSwitch => switchAt line
  | .kwWhen => selectAt line
  | .kwNot =>
    let arg ← sub (.binary 0)
    return .not (← spanFrom line) arg
  | _ => failAt t (.expression t)

def freshOperand : Rule Expr := do
  let t ← next
  let line := t.line
  match t.lexeme with
  | .value v => return .value (← spanFrom line) v
  | .string e => return e
  | .ident name => return .ident (← spanFrom line) name
  | .keyword k _ => wordOperand t k
  | .operator _ => failAt t (.expression t)
  | .sign .blank => return .blank (← spanFrom line)
  | .sign .leftParen => paren line
  | .sign .leftBracket =>
    let elems ← listUntil .rightBracket
    return .sequence (← spanFrom line) .list elems
  | .sign .leftBrace => mapEntries line
  | .sign .inline =>
    skipLines
    let value ← sub (.expression .full)
    skipLines
    let _ ← expect .rightParen
    return .inline (← spanFrom line) value
  | .sign .quote => quoteAt line
  | .sign .unquote => unquoteAt t
  | .sign _ => failAt t (.expression t)

def operand : Rule Expr := do
  match (← get).pending with
  | some e =>
    modify ({ · with pending := none })
    return e
  | none => freshOperand

/-! ### Expressions -/

def term : Rule Expr := do
  let start := (← peek).line
  let e ← operand
  repeating e fun e => do
    match (← peek).kind with
    | .leftParen =>
      let _ ← next
      let args ← listUntil .rightParen
      return .inr (.call (← spanFrom start) e args)
    | .leftBracket =>
      let _ ← next
      let args ← listUntil .rightBracket
      return .inr (.constCall (← spanFrom start) (.method "[]") (e :: args))
    | .colon =>
      let _ ← next
      let t ← next
      if !isName t then failAt t (.methodName t)
      let args ← if ← accept .leftParen then listUntil .rightParen else pure []
      return .inr (.constCall (← spanFrom start) (.method t.text) (e :: args))
    | .scope =>
      let _ ← next
      let t ← next
      if !isName t then failAt t (.memberName t)
      return .inr (.resolve (← spanFrom start) e t.text)
    | _ => return .inl e

def isOperatorToken (t : Token) : Bool := t.kind = .operator && t.text ≠ "..."

def unary : Rule Expr := do
  let t ← peek
  if (← get).pending.isNone && isOperatorToken t then
    let _ ← next
    let arg ← sub .unary
    return .constCall (← spanFrom t.line) (.method t.text) [arg]
  else term

/-- Operators of at least a precedence and their operands. Operators of one precedence associate
to the left. -/
def binary (least : Nat) : Rule Expr := do
  let start := (← peek).line
  let left ← unary
  repeating left fun left => do
    let t ← peek
    if !isOperatorToken t || precedence t.text < least then return .inl left
    let _ ← next
    skipLines
    let right ← sub (.binary (precedence t.text + 1))
    return .inr (.constCall (← spanFrom start) (.method t.text) [left, right])

def generator (start : Nat) (value : Expr) : Rule Expr := do
  let clauses ← repeating [] fun (clauses : List GenClause) => do
    if ← at? (.keyword .kwFor) then
      let t ← next
      let (key, names, unpack) ← loopTarget
      let _ ← expect (.keyword .kwIn)
      let seq ← sub (.expression .disj)
      return .inr (clauses ++ [⟨t.line, .absent, key, names, unpack, seq⟩])
    if !clauses.isEmpty then
      if ← at? (.keyword .kwIf) then
        let t ← next
        let filter ← sub (.expression .disj)
        return .inr (clauses ++ [⟨t.line, filter, none, [], false, .absent⟩])
    return .inl clauses
  return .generator (← spanFrom start) value clauses

def connected (k : Keyword) (op : Connective) (start : Nat) (part : Goal) (e : Expr) : Rule Expr :=
  repeating e fun e => do
    if ← accept (.keyword k) then
      skipLines
      let right ← sub part
      return .inr (.logic (← spanFrom start) op e right)
    return .inl e

def assignment (start : Nat) (e : Expr) : Rule Expr := do
  if ← accept .assign then
    skipLines
    let value ← sub (.expression .full)
    return .assign (← spanFrom start) e value
  return e

def expression (level : Level) : Rule Expr := do
  let start := (← peek).line
  let e ← binary 0
  let e ← if level.includes .conj then connected .kwAnd .conj start (.binary 0) e else pure e
  let e ← if level.includes .disj then connected .kwOr .disj start (.expression .conj) e
    else pure e
  let e ← if level.includes .generator then
      if ← at? (.keyword .kwFor) then generator start e else pure e
    else pure e
  if level.includes .full then assignment start e else return e

/-! ### Blocks -/

structure BlockParts where
  vars : List Decl := []
  lets : List Decl := []
  defs : List Decl := []
  body : List Expr := []
  exports : List Decl := []

def BlockParts.add (b : BlockParts) (binder : Binder) (ds : List Decl) (e : Expr) : BlockParts :=
  let b : BlockParts :=
    { b with body := b.body ++ [e], exports := b.exports ++ ds.filter Decl.exported }
  match binder with
  | .variable => { b with vars := b.vars ++ ds }
  | .constant => { b with defs := b.defs ++ ds }
  | .letName | .reference => { b with lets := b.lets ++ ds }

def declarations (b : BlockParts) (binder : Binder) (exported : Bool) : Rule BlockParts :=
  repeating b fun b => do
    let start := (← peek).line
    let (pattern, ds, value) ← (do
      if ← accept .leftParen then
        let ds ← declList exported
        let pattern ← if ← accept (.keyword .kwIn) then pure Pattern.members else do
          let _ ← expect .assign
          pure Pattern.elements
        return (pattern, ds, ← sub (.expression .full))
      let t ← expect .ident
      let ds := [← Parser.newDecl t.text t.line exported]
      if ← accept .assign then return (.single, ds, ← sub (.expression .full))
      if binder ≠ .variable then
        let t ← peek
        failAt t (.expected .assign t)
      return (.single, ds, .absent) : Rule (Pattern × List Decl × Expr))
    let b := b.add binder ds (.bind (← spanFrom start) binder pattern ds value)
    if ← accept .comma then
      skipLines
      return .inr b
    return .inl b

def binderOf? : TokenKind → Option Binder
  | .keyword .kwVar => some .variable
  | .keyword .kwLet => some .letName
  | .keyword .kwDef => some .constant
  | .keyword .kwRef => some .reference
  | _ => none

def statement (b : BlockParts) (exported : Bool) : Rule BlockParts := do
  let t ← peek
  match binderOf? t.kind with
  | some binder =>
    let _ ← next
    declarations b binder exported
  | none =>
    if t.kind = .keyword .kwFun then
      let _ ← next
      if ← at? .ident then
        let name ← next
        let fn ← functionAt t.line
        let d ← Parser.newDecl name.text name.line exported
        return b.add .letName [d] (.bind (← spanFrom t.line) .letName .single [d] fn)
      if exported then failAt t .exportNameless
      let fn ← functionAt t.line
      modify ({ · with pending := some fn })
    else if exported then failAt t (.exportOther t)
    return { b with body := b.body ++ [← expression .full] }

def handlersUntil (stops : List TokenKind) : Rule (List Handler) :=
  repeating [] fun (handlers : List Handler) => do
    if !(← at? (.keyword .kwOn)) then return .inl handlers
    let t ← next
    let name := (← expect .ident).text
    let types ← if ← accept (.keyword .kwIn) then expressions .disj false else pure []
    skipLines
    let _ ← expect (.keyword .kwDo)
    let body ← sub (.block t.line false (.keyword .kwOn :: stops))
    return .inr (handlers ++ [⟨t.line, name, types, body⟩])

def stopped (handlers : Bool) (stops : List TokenKind) : Rule Bool := do
  let kind := (← peek).kind
  return stops.contains kind || (handlers && kind = .keyword .kwOn)

def skipEnds : Rule Unit :=
  repeating () fun _ => do
    if ← accept .endOfLine then return .inr ()
    if ← accept .semicolon then return .inr ()
    return .inl ()

def statements (handlers : Bool) (stops : List TokenKind) : Rule BlockParts :=
  repeating {} fun b => do
    skipEnds
    if ← stopped handlers stops then return .inl b
    let exported ← accept (.keyword .kwExport)
    let b ← statement b exported
    if !(← stopped handlers stops) then
      let t ← peek
      if t.kind ≠ .endOfLine && t.kind ≠ .semicolon then failAt t (.endOfStatement t)
    return .inr b

/-- A block up to, not including, one of the tokens. A block with exported names is passed to the
method `export`. -/
def block (start : Nat) (handlers : Bool) (stops : List TokenKind) : Rule Expr := do
  let b ← statements handlers stops
  let catches ← if handlers then handlersUntil stops else pure []
  let span ← spanFrom start
  if b.exports.isEmpty then return .block span b.vars b.lets b.defs b.body catches
  let values := b.exports.map fun d => Expr.ident ⟨span.source, d.line, d.line⟩ d.name
  let body := b.body ++ [.sequence (← spanLast) .tuple values]
  let names := Value.tuple (b.exports.map fun d => .str d.name)
  return .constCall span (.method "export")
    [.value span names, .block span b.vars b.lets b.defs body catches]

/-! ### The grammar as a whole -/

def embedded : Rule Expr := do
  skipLines
  let e ← expression .full
  skipLines
  let _ ← expect .rightBrace
  return e

def rule : Goal → Rule Expr
  | .expression level => expression level
  | .binary least => binary least
  | .unary => unary
  | .term => term
  | .block start handlers stops => block start handlers stops
  | .embedded => embedded

/-- Parses a goal with at most `depth` nested parts. -/
def goal (source : Bytes) (tables : Tables) (rounds : Nat) : (depth : Nat) → Goal → ParseAction Expr
  | 0, _ => do throw (.grammar (← get).place.line .tooDeep)
  | depth + 1, what => (rule what).run ⟨source, tables, rounds, goal source tables rounds depth⟩

end Grammar

end StagedScript
