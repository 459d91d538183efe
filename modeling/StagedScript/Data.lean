import StagedScript.Code.Opcode
import StagedScript.Number.Real64

/-!
# Values, expressions and code

The recursive types of the language refer to one another: a *value* can be a quoted expression or a
compiled function, an *expression* can hold a value as a literal, and an *instruction* can hold a
value as a constant and a nested function.

Values are immutable data.  What programs can change lives in the heap of the machine and is
referred to by an index.
-/

namespace StagedScript

structure Span where
  source : Bytes
  first : Nat
  last : Nat
  deriving DecidableEq, Inhabited

/-- A declared name as written. Two declarations are the same one exactly when their identities
agree. -/
structure Decl where
  id : Nat
  name : Bytes
  line : Nat
  exported : Bool
  deriving DecidableEq, Inhabited

inductive Binder where
  | variable
  | letName
  | constant
  | reference
  deriving DecidableEq

inductive Pattern where
  | single
  | elements
  | members
  deriving DecidableEq

inductive Guard where
  | plain
  | variable (name : Bytes)
  | letName (name : Bytes)
  deriving DecidableEq

inductive Connective where
  | conj
  | disj
  deriving DecidableEq

/-- When a conditional exit leaves its loop. -/
inductive ExitTest where
  | whileHolds
  | untilHolds
  deriving DecidableEq

inductive SequenceKind where
  | tuple
  | list
  deriving DecidableEq

/-- A declaration of a compiled function, kept for listings and editors. -/
structure DeclInfo where
  name : Bytes
  line : Int
  slot : Int
  deriving DecidableEq, Inhabited

mutual

inductive Value where
  | nil
  | bool (b : Bool)
  | int (n : Int64)
  | real (x : Real64)
  | complex (re im : Real64)
  | str (s : Bytes)
  | bytes (s : Bytes)
  | sym (name : Bytes)
  | method (name : Bytes)
  | tuple (elems : List Value)
  | list (elems : List Value)
  | map (entries : List Entry)
  | error (type message : Bytes)
  /-- A compiled function with the heap index of its captured values. -/
  | closure (fn : Func) (env : Nat)
  | func (fn : Func)
  | builtin (name : Bytes) (action : Host)
  /-- A function from argument expressions to an expression, called while compiling. A negative
  arity accepts any number of arguments. -/
  | expander (name : Bytes) (fn : Value) (arity : Int64)
  /-- The placeholder of a constant under construction, by heap index. -/
  | forward (index : Nat) (name : Bytes)
  | space (members : List Member)
  | expr (e : Expr)
  /-- A shared variable or the placeholder of an unfinished `let`, by heap index. -/
  | cell (index : Nat)
  | iterator (index : Nat)
  | buffer (index : Nat)

structure Entry where
  key : Value
  value : Value

structure Member where
  name : Bytes
  value : Value

/-- What a function of the host does with its arguments. -/
inductive Host where
  | tuple
  | list
  | string
  | raise
  | error
  | expander
  | give (v : Value)
  | first
  | fail (message : Bytes)

inductive Expr where
  /-- No expression: an optional part that was not written. -/
  | absent
  | nil (span : Span)
  | blank (span : Span)
  | old (span : Span)
  | next (span : Span)
  | retry (span : Span)
  | value (span : Span) (v : Value)
  | ident (span : Span) (name : Bytes)
  | string (span : Span) (parts : List Expr)
  | assign (span : Span) (target value : Expr)
  | call (span : Span) (fn : Expr) (args : List Expr)
  | constCall (span : Span) (fn : Value) (args : List Expr)
  | resolve (span : Span) (parent : Expr) (name : Bytes)
  | logic (span : Span) (op : Connective) (left right : Expr)
  | not (span : Span) (arg : Expr)
  | cond (span : Span) (cases : List CondCase) (otherwise : Expr)
  | loop (span : Span) (body : Expr)
  | exit (span : Span) (value : Expr)
  | exitTest (span : Span) (test : ExitTest) (cond value : Expr)
  | forIn (span : Span) (key : Option Decl) (names : List Decl) (unpack : Bool)
      (seq body otherwise : Expr)
  | each (span : Span) (seq : Expr)
  /-- A scope: declared names, statements, and handlers of errors raised in the statements. -/
  | block (span : Span) (vars lets defs : List Decl) (body : List Expr) (handlers : List Handler)
  | bind (span : Span) (binder : Binder) (pattern : Pattern) (decls : List Decl) (value : Expr)
  | function (span : Span) (params : List Param) (extra named : Bool) (body : Expr)
  | method (span : Span) (name : Bytes) (params : List Param) (extra : Bool) (body : Expr)
  | ret (span : Span) (value : Expr)
  | suspend (span : Span) (key value : Expr)
  | scoped (span : Span) (decls : List Decl) (values : List Expr) (body : Expr)
  | switch (span : Span) (subject : Expr) (cases : List Expr) (otherwise : Expr)
  | select (span : Span) (subject : Expr) (clauses : List SelectClause) (otherwise : Expr)
  | sequence (span : Span) (kind : SequenceKind) (elems : List Expr)
  | map (span : Span) (entries : List Expr)
  | inline (span : Span) (value : Expr)
  | quote (span : Span) (body : Expr) (args : List Expr)
  /-- A hole of a quoted expression, filled by the argument with its index. -/
  | unquote (span : Span) (index : Nat) (name : Bytes)
  | generator (span : Span) (value : Expr) (clauses : List GenClause)

structure CondCase where
  line : Nat
  guard : Guard
  cond : Expr
  body : Expr

/-- A handler of errors of the given types, or of any error when no type is given. -/
structure Handler where
  line : Nat
  name : Bytes
  types : List Expr
  body : Expr

/-- An alternative that is taken when a method accepts the subject and one of the values. -/
structure SelectClause where
  line : Nat
  method : Bytes
  values : List Expr
  body : Expr

/-- A part of a comprehension: a filter if one is present, a loop otherwise. -/
structure GenClause where
  line : Nat
  filter : Expr
  key : Option Decl
  names : List Decl
  unpack : Bool
  seq : Expr

structure Param where
  name : Bytes
  line : Nat
  type : Expr

/-- An instruction. The operation decides which operands are used. -/
structure Inst where
  op : Opcode
  line : Int
  target : Int
  count : Int
  value : Value
  chars : Bytes
  decls : List DeclInfo
  table : List Int
  func : Option Func

/-- Instructions in blocks of one capacity. An address is the number of a block times the capacity
plus an index. -/
structure Code where
  blockSize : Int
  blocks : List (List Inst)

structure Func where
  source : Bytes
  startLine : Int
  endLine : Int
  entry : Int
  /-- The greatest depth of the operand stack. -/
  frameSize : Int
  numParams : Int
  /-- How surplus arguments are accepted. -/
  flags : UInt8
  params : List Bytes
  decls : List DeclInfo
  /-- Where each captured value comes from when a closure is made: a slot of the creating function
  if not negative, and otherwise the captured value `-1 - i` of it. -/
  upvalues : List Int
  code : Option Code

end

instance : Inhabited Value := ⟨.nil⟩
instance : Inhabited Expr := ⟨.absent⟩
instance : Inhabited Code := ⟨⟨0, []⟩⟩
instance : Inhabited Func := ⟨⟨[], 0, 0, 0, 0, 0, 0, [], [], [], none⟩⟩
instance : Inhabited Inst := ⟨⟨default, 0, 0, 0, .nil, [], [], [], none⟩⟩

end StagedScript
