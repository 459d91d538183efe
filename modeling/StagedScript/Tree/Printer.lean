import StagedScript.Number.Decimal
import StagedScript.Text.Quoted
import StagedScript.Token.CharClass
import StagedScript.Tree.Kind

/-!
# The written form of values and expressions

`Value.display` shows a value the way listings and the interactive session do.  `Expr.format` writes
an expression as program text in a canonical layout, with parentheses only where reading the text
back needs them.  An expression form is written bare only where the grammar accepts its *rank*,
which orders the forms by how much of the following text they would take in.  The argument of an
unquote without a name is written at the unquote, so the printer carries the written forms of the
arguments of the enclosing quotes.
-/

namespace StagedScript

structure Shown where
  cell : Nat → Bytes
  buffer : Nat → Bytes

namespace Shown

def unset : Bytes := "<uninitialized>"

def plain : Shown := ⟨fun _ => unset, fun _ => []⟩

end Shown

namespace Real64

/-- A real with a point or an exponent, so that it does not look like an integer. -/
def display (x : Real64) : Bytes :=
  let s := Decimal.write x
  if s.any fun c => List.contains (Bytes.ofString ".eEn") c then s else s ++ ".0"

end Real64

/-- A complex number: its imaginary part alone if the real part is zero. -/
def displayComplex (re im : Real64) : Bytes :=
  if re.isZero then Decimal.write im ++ "i"
  else "(" ++ Decimal.write re ++ Decimal.writeSigned im ++ "i)"

def quoteChars (quote : UInt8) (s : Bytes) : Bytes :=
  s.flatMap fun c =>
    if c = 0x5c || c = quote then [0x5c, c]
    else if c = 0x7b && quote = 0x27 then [0x5c, c]
    else if c = 0x0a then "\\n"
    else if c = 0x09 then "\\t"
    else if c = 0x0d then "\\r"
    else if c < 0x20 || c = 0x7f then "\\x" ++ Bytes.hexFixed 2 c.toNat
    else [c]

namespace Printer

def newline (indent : Nat) : Bytes := 0x0a :: List.replicate indent 0x09

def declNames (ds : List Decl) : Bytes := Bytes.join ", " (ds.map (·.name))

/-- How much of the following text a form takes in, from none to all. -/
inductive Rank where
  | term | unary | binary | not | conj | disj | generator | assign | open
  deriving DecidableEq

def Rank.code : Rank → Nat
  | .term => 0
  | .unary => 1
  | .binary => 2
  | .not => 3
  | .conj => 4
  | .disj => 5
  | .generator => 6
  | .assign => 7
  | .open => 8

def rank : Expr → Rank
  | .constCall _ (.method name) [_] => if isOperatorName name then .unary else .term
  | .constCall _ (.method name) [_, _] => if isOperatorName name then .binary else .term
  | .not .. => .not
  | .logic _ .conj .. => .conj
  | .logic _ .disj .. => .disj
  | .generator .. => .generator
  | .assign .. => .assign
  | .exit .. | .ret .. | .suspend .. | .each .. | .exitTest .. | .bind .. => .open
  | _ => .term

def whenPresent (part : Expr) (s : Bytes) : Bytes := if part.isAbsent then [] else s

def parens (s : Bytes) : Bytes := "(" ++ s ++ ")"

/-- The text of a part of the given rank, in parentheses if the rank exceeds the limit. -/
def limited (limit r : Rank) (s : Bytes) : Bytes := if limit.code < r.code then parens s else s

def operatorPrecedence : Expr → Nat
  | .constCall _ (.method name) _ => precedence name
  | _ => 0

/-- The text of an operand of a binary operator. The right operand needs parentheses at equal
precedence, since operators associate to the left. -/
def operand (e : Expr) (prec : Nat) (right : Bool) (s : Bytes) : Bytes :=
  match rank e with
  | .term | .unary => s
  | .binary =>
    let p := operatorPrecedence e
    if prec < p || (p = prec && !right) then s else parens s
  | _ => parens s

def isExported : Expr → Bool
  | .bind _ _ _ decls _ => decls.any (·.exported)
  | _ => false

/-- Whether the arguments of a method are the names and the block of an export. -/
def isExportCall (name : Bytes) : List Expr → Bool
  | .value _ (.tuple _) :: .block _ _ _ _ _ [] :: _ => name = "export"
  | _ => false

/-- Whether an expression is written as bare statements where a body is expected. -/
def isStatements : Expr → Bool
  | .block _ _ _ _ _ [] => true
  | .constCall _ (.method name) args => isExportCall name args
  | _ => false

/-- A body on lines of its own. `inside` writes the statements of the body and `whole` the body as
one expression, both at an indentation. -/
def bodyText (indent : Nat) (body : Expr) (inside whole : Nat → Bytes) : Bytes :=
  (if isStatements body then inside (indent + 1)
    else if body.isAbsent then []
    else newline (indent + 1) ++ whole (indent + 1)) ++ newline indent

def bindHead (binder : Binder) (pattern : Pattern) (decls : List Decl) (hasValue : Bool) : Bytes :=
  let word : Bytes := (Kind.ofBinder binder .single).name ++ " "
  match pattern with
  | .single =>
    let name : Bytes := match decls with
      | d :: _ => d.name
      | [] => []
    if hasValue then word ++ name ++ " := " else word ++ name
  | .elements => word ++ parens (declNames decls) ++ " := "
  | .members => word ++ parens (declNames decls) ++ " in "

def forTarget (key : Option Decl) (names : List Decl) (unpack : Bool) : Bytes :=
  let start : Bytes := match key with
    | some d => d.name ++ ", "
    | none => []
  let target : Bytes := if unpack then parens (declNames names) else match names with
    | d :: _ => d.name
    | [] => []
  start ++ target

/-- What stands before the parameter with an index: nothing, a semicolon before named arguments,
or a comma. -/
def paramSeparator (index count : Nat) (named : Bool) : Bytes :=
  if index = 0 then [] else if named && index + 1 = count then "; " else ", "

/-- The mark of the parameter that collects extra arguments: the last positional one. -/
def extraMark (index count : Nat) (extra named : Bool) : Bytes :=
  if extra && index + 1 + (if named then 1 else 0) = count then "..." else []

def bindings : List Decl → List Bytes → List Bytes
  | [], _ => []
  | d :: ds, [] => (d.name ++ " := nil") :: bindings ds []
  | d :: ds, v :: vs => (d.name ++ " := " ++ v) :: bindings ds vs

/-- Whether a quoted body is written as statements separated by semicolons. -/
def isQuotedBlock : Expr → Bool
  | .block _ [] [] [] [_] [] => false
  | .block .. => true
  | _ => false

/-- A literal in the form the grammar reads: texts are escaped for it, and other values are
written as they are shown. -/
def literalText (v : Value) (shown : Unit → Bytes) : Bytes :=
  match v with
  | .str s => "\"" ++ quoteChars 0x22 s ++ "\""
  | .bytes s => "b\"" ++ quoteChars 0x22 s ++ "\""
  | _ => shown ()

/-- The arguments of the enclosing quotes, innermost first, each as a function of the
indentation. -/
abbrev Quotes := List (List (Nat → Bytes))

end Printer

open Printer

mutual

def Value.display (sh : Shown) : Value → Bytes
  | .nil => "nil"
  | .bool b => if b then "true" else "false"
  | .int n => Bytes.ofInt n.toInt
  | .real x => x.display
  | .complex re im => displayComplex re im
  | .str s => Quoted.text s
  | .bytes s => "b" ++ Quoted.text s
  | .sym name => name
  | .method name => ":" ++ name
  | .tuple elems => parens (Bytes.join ", " (displayEach sh elems))
  | .list elems => "[" ++ Bytes.join ", " (displayEach sh elems) ++ "]"
  | .map entries => "\x7b" ++ Bytes.join ", " (displayEntries sh entries) ++ "\x7d"
  | .error type message => "error(" ++ type ++ ", " ++ message ++ ")"
  | .closure fn _ => "<closure " ++ fn.source ++ ":" ++ Bytes.ofInt fn.startLine ++ ">"
  | .func _ => "<*bytecode.Func>"
  | .builtin name _ => "builtin " ++ name
  | .expander name _ _ => "macro " ++ name
  | .forward _ name => "forward " ++ name
  | .space _ => "<*runtime.Globals>"
  | .expr e =>
    if e.isAbsent then ":\x7b\x7d"
    else if isStatements e then ":\x7b" ++ (formatInside sh 0 [] e).drop 1 ++ "\x7d"
    else ":\x7b" ++ formatExpr sh 0 [] e ++ "\x7d"
  | .cell i => sh.cell i
  | .iterator _ => "<*vm.iterator>"
  | .buffer i => sh.buffer i

def displayEach (sh : Shown) : List Value → List Bytes
  | [] => []
  | v :: vs => v.display sh :: displayEach sh vs

def displayEntries (sh : Shown) : List Entry → List Bytes
  | [] => []
  | ⟨k, v⟩ :: es => (k.display sh ++ " is " ++ v.display sh) :: displayEntries sh es

def formatExpr (sh : Shown) (indent : Nat) (quotes : Quotes) : Expr → Bytes
  | .absent => "nil"
  | .nil _ => "nil"
  | .blank _ => "_"
  | .old _ => "old"
  | .next _ => "next"
  | .retry _ => "retry"
  | .value _ v => literalText v fun _ => v.display sh
  | .ident _ name => name
  | .string _ parts => "'" ++ formatParts sh indent quotes parts ++ "'"
  | .assign _ target value =>
    limited .generator (rank target) (formatExpr sh indent quotes target) ++ " := " ++
      formatExpr sh indent quotes value
  | .call _ fn args =>
    limited .term (rank fn) (formatExpr sh indent quotes fn) ++
      parens (Bytes.join ", " (formatEach sh indent quotes args))
  | .constCall _ (.method name) args =>
    if isExportCall name args then
      "do" ++ formatExport sh (indent + 1) quotes args ++ newline indent ++ "end"
    else formatMethod sh indent quotes name args
  | .constCall _ fn args =>
    ":(" ++ literalText fn (fun _ => fn.display sh) ++ ")" ++
      parens (Bytes.join ", " (formatEach sh indent quotes args))
  | .resolve _ parent name =>
    limited .term (rank parent) (formatExpr sh indent quotes parent) ++ "::" ++ name
  | .logic _ .conj left right =>
    limited .conj (rank left) (formatExpr sh indent quotes left) ++ " and " ++
      limited .not (rank right) (formatExpr sh indent quotes right)
  | .logic _ .disj left right =>
    limited .disj (rank left) (formatExpr sh indent quotes left) ++ " or " ++
      limited .conj (rank right) (formatExpr sh indent quotes right)
  | .not _ arg => "not " ++ limited .binary (rank arg) (formatExpr sh indent quotes arg)
  | .cond _ cases otherwise =>
    formatCases sh indent quotes "if " cases ++
      whenPresent otherwise ("else" ++ bodyText indent otherwise
        (fun i => formatInside sh i quotes otherwise)
        (fun i => formatExpr sh i quotes otherwise)) ++ "end"
  | .loop _ body =>
    "loop" ++ bodyText indent body (fun i => formatInside sh i quotes body)
      (fun i => formatExpr sh i quotes body) ++ "end"
  | .exit _ value =>
    "exit" ++ whenPresent value (" " ++ formatExpr sh indent quotes value)
  | .exitTest _ test cond value =>
    let word : Bytes := match test with
      | .whileHolds => "while "
      | .untilHolds => "until "
    word ++ formatExpr sh indent quotes cond ++
      whenPresent value (", " ++ formatExpr sh indent quotes value)
  | .forIn _ key names unpack seq body otherwise =>
    "for " ++ forTarget key names unpack ++ " in " ++
      limited .disj (rank seq) (formatExpr sh indent quotes seq) ++ " do" ++
      bodyText indent body (fun i => formatInside sh i quotes body)
        (fun i => formatExpr sh i quotes body) ++
      whenPresent otherwise ("else" ++ bodyText indent otherwise
        (fun i => formatInside sh i quotes otherwise)
        (fun i => formatExpr sh i quotes otherwise)) ++ "end"
  | .each _ seq => "each " ++ limited .disj (rank seq) (formatExpr sh indent quotes seq)
  | .block _ _ _ _ body handlers =>
    "do" ++ formatLines sh (indent + 1) quotes body ++ newline indent ++
      formatHandlers sh indent quotes handlers ++ "end"
  | .bind _ binder pattern decls value =>
    if pattern = .single && value.isAbsent then bindHead binder pattern decls false
    else bindHead binder pattern decls true ++ formatExpr sh indent quotes value
  | .function _ params extra named body =>
    "fun(" ++ formatParams sh indent quotes extra named 0 params.length params ++ ")" ++
      bodyText indent body (fun i => formatInside sh i quotes body)
        (fun i => formatExpr sh i quotes body) ++ "end"
  | .method _ name params extra body =>
    "meth " ++ name ++ "(" ++ formatParams sh indent quotes extra false 0 params.length params ++
      ")" ++ bodyText indent body (fun i => formatInside sh i quotes body)
        (fun i => formatExpr sh i quotes body) ++ "end"
  | .ret _ value =>
    "ret" ++ whenPresent value (" " ++ formatExpr sh indent quotes value)
  | .suspend _ key value =>
    "susp " ++ whenPresent key (formatExpr sh indent quotes key ++ ", ") ++
      formatExpr sh indent quotes value
  | .scoped _ decls values body =>
    "with " ++ Bytes.join ", " (bindings decls (formatEach sh indent quotes values)) ++ " do" ++
      bodyText indent body (fun i => formatInside sh i quotes body)
        (fun i => formatExpr sh i quotes body) ++ "end"
  | .switch _ subject cases otherwise =>
    "switch " ++ formatExpr sh indent quotes subject ++
      (if cases.isEmpty then newline indent else formatChoices sh indent quotes cases) ++
      whenPresent otherwise ("else" ++ bodyText indent otherwise
        (fun i => formatInside sh i quotes otherwise)
        (fun i => formatExpr sh i quotes otherwise)) ++ "end"
  | .select _ subject clauses otherwise =>
    "when " ++ formatExpr sh indent quotes subject ++
      (if clauses.isEmpty then newline indent else formatClauses sh indent quotes clauses) ++
      whenPresent otherwise ("else" ++ bodyText indent otherwise
        (fun i => formatInside sh i quotes otherwise)
        (fun i => formatExpr sh i quotes otherwise)) ++ "end"
  | .sequence _ .list elems => "[" ++ Bytes.join ", " (formatEach sh indent quotes elems) ++ "]"
  | .sequence _ .tuple elems =>
    let comma : Bytes := if elems.length = 1 then "," else []
    parens (Bytes.join ", " (formatEach sh indent quotes elems) ++ comma)
  | .map _ entries => "\x7b" ++ Bytes.join ", " (formatPairs sh indent quotes entries) ++ "\x7d"
  | .inline _ value => ":(" ++ formatExpr sh indent quotes value ++ ")"
  | .quote _ body args =>
    let inner := formatDelayed sh quotes args :: quotes
    if isQuotedBlock body then
      ":\x7b" ++ Bytes.join "; " (formatQuoted sh indent inner body) ++ "\x7d"
    else ":\x7b" ++ formatExpr sh indent inner body ++ "\x7d"
  | .unquote _ index name =>
    if !name.isEmpty then ":$" ++ name
    else match quotes with
      | args :: _ => match args[index]? with
        | some arg => ":$(" ++ arg indent ++ ")"
        | none => ":$(nil)"
      | [] => ":$(nil)"
  | .generator _ value clauses =>
    limited .disj (rank value) (formatExpr sh indent quotes value) ++
      formatGenClauses sh indent quotes clauses

def formatEach (sh : Shown) (indent : Nat) (quotes : Quotes) : List Expr → List Bytes
  | [] => []
  | e :: es => formatExpr sh indent quotes e :: formatEach sh indent quotes es

/-- Each of the expressions, in parentheses where it would take in a following `for` or `:=`. -/
def formatOperands (sh : Shown) (indent : Nat) (quotes : Quotes) : List Expr → List Bytes
  | [] => []
  | e :: es =>
    limited .disj (rank e) (formatExpr sh indent quotes e) :: formatOperands sh indent quotes es

/-- The arguments of a quote, each as a function of the indentation of its unquote. -/
def formatDelayed (sh : Shown) (quotes : Quotes) : List Expr → List (Nat → Bytes)
  | [] => []
  | e :: es => (fun indent => formatExpr sh indent quotes e) :: formatDelayed sh quotes es

def formatLines (sh : Shown) (indent : Nat) (quotes : Quotes) : List Expr → Bytes
  | [] => []
  | e :: es =>
    newline indent ++ formatExpr sh indent quotes e ++ formatLines sh indent quotes es

/-- The statements of a block with exported names. The tuple of the names at the end is implied. -/
def formatExported (sh : Shown) (indent : Nat) (quotes : Quotes) : List Expr → Bytes
  | [] => []
  | e :: es =>
    if es.isEmpty && e.kind? = some .tuple then []
    else
      let mark : Bytes := if isExported e then "export " else []
      newline indent ++ mark ++ formatExpr sh indent quotes e ++
        formatExported sh indent quotes es

/-- The statements of the block of an export, given the arguments of the export. -/
def formatExport (sh : Shown) (indent : Nat) (quotes : Quotes) : List Expr → Bytes
  | _ :: .block _ _ _ _ body _ :: _ => formatExported sh indent quotes body
  | _ => []

def formatInside (sh : Shown) (indent : Nat) (quotes : Quotes) : Expr → Bytes
  | .block _ _ _ _ body _ => formatLines sh indent quotes body
  | .constCall _ _ args => formatExport sh indent quotes args
  | _ => []

def formatQuoted (sh : Shown) (indent : Nat) (quotes : Quotes) : Expr → List Bytes
  | .block _ _ _ _ body _ => formatEach sh indent quotes body
  | _ => []

/-- A call of a method: an operator, an index, or a call with the first argument in front. -/
def formatMethod (sh : Shown) (indent : Nat) (quotes : Quotes) (name : Bytes) :
    List Expr → Bytes
  | [] => ":(:" ++ name ++ ")()"
  | [a] =>
    let arg := formatExpr sh indent quotes a
    if isOperatorName name then
      name ++ if rank a = .unary then parens arg else limited .term (rank a) arg
    else if name = "[]" then limited .term (rank a) arg ++ "[]"
    else limited .term (rank a) arg ++ ":" ++ name
  | [a, b] =>
    let first := formatExpr sh indent quotes a
    let second := formatExpr sh indent quotes b
    if isOperatorName name then
      operand a (precedence name) false first ++ " " ++ name ++ " " ++
        operand b (precedence name) true second
    else if name = "[]" then limited .term (rank a) first ++ "[" ++ second ++ "]"
    else limited .term (rank a) first ++ ":" ++ name ++ parens second
  | a :: rest =>
    let first := formatExpr sh indent quotes a
    let others := Bytes.join ", " (formatEach sh indent quotes rest)
    if name = "[]" then limited .term (rank a) first ++ "[" ++ others ++ "]"
    else limited .term (rank a) first ++ ":" ++ name ++ parens others

def formatParts (sh : Shown) (indent : Nat) (quotes : Quotes) : List Expr → Bytes
  | [] => []
  | .value _ (.str s) :: es => quoteChars 0x27 s ++ formatParts sh indent quotes es
  | e :: es =>
    "\x7b" ++ formatExpr sh indent quotes e ++ "\x7d" ++ formatParts sh indent quotes es

def formatPairs (sh : Shown) (indent : Nat) (quotes : Quotes) : List Expr → List Bytes
  | [] => []
  | [k] => [limited .disj (rank k) (formatExpr sh indent quotes k)]
  | k :: v :: es =>
    let key := limited .disj (rank k) (formatExpr sh indent quotes k)
    (if v.kind? = some .nil then key else key ++ " is " ++ formatExpr sh indent quotes v) ::
      formatPairs sh indent quotes es

def formatCases (sh : Shown) (indent : Nat) (quotes : Quotes) (word : Bytes) :
    List CondCase → Bytes
  | [] => []
  | ⟨_, guard, cond, body⟩ :: cs =>
    let binding : Bytes := match guard with
      | .plain => []
      | .variable name => "var " ++ name ++ " := "
      | .letName name => "let " ++ name ++ " := "
    word ++ binding ++ formatExpr sh indent quotes cond ++ " then" ++
      bodyText indent body (fun i => formatInside sh i quotes body)
        (fun i => formatExpr sh i quotes body) ++
      formatCases sh indent quotes "elseif " cs

def formatHandlers (sh : Shown) (indent : Nat) (quotes : Quotes) : List Handler → Bytes
  | [] => []
  | ⟨_, name, types, body⟩ :: hs =>
    let listed := Bytes.join ", " (formatOperands sh indent quotes types)
    let matched : Bytes := if types.isEmpty then [] else " in " ++ listed
    "on " ++ name ++ matched ++ " do" ++
      bodyText indent body (fun i => formatInside sh i quotes body)
        (fun i => formatExpr sh i quotes body) ++
      formatHandlers sh indent quotes hs

def formatChoices (sh : Shown) (indent : Nat) (quotes : Quotes) : List Expr → Bytes
  | [] => []
  | c :: cs =>
    newline indent ++ "case" ++ bodyText indent c (fun i => formatInside sh i quotes c)
      (fun i => formatExpr sh i quotes c) ++ formatChoices sh indent quotes cs

def formatClauses (sh : Shown) (indent : Nat) (quotes : Quotes) : List SelectClause → Bytes
  | [] => []
  | ⟨_, method, values, body⟩ :: cs =>
    newline indent ++ (if method = "in" then "in " else "is ") ++
      Bytes.join ", " (formatOperands sh indent quotes values) ++ " do" ++
      bodyText indent body (fun i => formatInside sh i quotes body)
        (fun i => formatExpr sh i quotes body) ++
      formatClauses sh indent quotes cs

def formatParams (sh : Shown) (indent : Nat) (quotes : Quotes) (extra named : Bool)
    (index count : Nat) : List Param → Bytes
  | [] => []
  | ⟨name, _, type⟩ :: ps =>
    paramSeparator index count named ++ name ++ extraMark index count extra named ++
      whenPresent type (": " ++ limited .term (rank type) (formatExpr sh indent quotes type)) ++
      formatParams sh indent quotes extra named (index + 1) count ps

def formatGenClauses (sh : Shown) (indent : Nat) (quotes : Quotes) : List GenClause → Bytes
  | [] => []
  | ⟨_, filter, key, names, unpack, seq⟩ :: cs =>
    let clause : Bytes :=
      if filter.isAbsent then
        " for " ++ forTarget key names unpack ++ " in " ++
          limited .disj (rank seq) (formatExpr sh indent quotes seq)
      else " if " ++ limited .disj (rank filter) (formatExpr sh indent quotes filter)
    clause ++ formatGenClauses sh indent quotes cs

end

/-- An expression as program text. A block without handlers is written as its bare statements. -/
def Expr.format (sh : Shown) (e : Expr) : Bytes :=
  if e.isAbsent then []
  else if isStatements e then (formatInside sh 0 [] e).drop 1
  else formatExpr sh 0 [] e

def Value.literal (sh : Shown) (v : Value) : Bytes := literalText v fun _ => v.display sh

end StagedScript
