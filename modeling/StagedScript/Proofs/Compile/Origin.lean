import StagedScript.Compile

/-!
# What instructions are emitted for

All instructions of a round of a compilation are emitted for one expression: the one that the round
compiles up to its first part, or the one that a value is given to.  The *journal* of a compilation
has, for every instruction of every function, this expression and the expressions of the same
function around it, which are those that its frames were pushed for.
-/

namespace StagedScript

/-- An expression a part of which is being compiled. -/
structure Construct where
  expr : Expr
  /-- The number of instructions before those of the expression. -/
  start : Nat
  frame : Waiting

/-- An expression that instructions are emitted for. -/
structure Origin where
  expr : Expr
  /-- The number of instructions before those of the expression. -/
  start : Nat
  /-- What has been given the value of a part, unless no part has been compiled. -/
  given : Option Waiting
  /-- The constructs of the same function around it, the innermost first. -/
  around : List Construct

def Expr.hasHandlers : Expr → Bool
  | .block _ _ _ _ _ handlers => !handlers.isEmpty
  | _ => false

def Waiting.isStatements : Waiting → Bool
  | .statements .. => true
  | _ => false

/-- Whether the part is a statement of a block with handlers. -/
def Construct.isTried (c : Construct) : Bool := c.expr.hasHandlers && c.frame.isStatements

/-- The innermost block with handlers that has the expression in its statements. -/
def Origin.handledBy? (o : Origin) : Option Construct := o.around.find? Construct.isTried

/-- The instructions are those with which the statements of a block end. -/
def Origin.EndsStatements (o : Origin) (block : Expr) (start : Nat) : Prop :=
  o.expr = block ∧ o.start = start ∧ ∃ b, o.given = some (.statements b [])

structure Record where
  body : Expr
  /-- The constructs that are being compiled, the innermost first. -/
  constructs : List Construct
  /-- The origins of its instructions. -/
  origins : List Origin

namespace Record

/-- What the next round emits instructions for. -/
def origin (r : Record) (phase : Phase) : Origin :=
  match phase, r.constructs with
  | .compile e, around => ⟨e, r.origins.length, none, around⟩
  | _, c :: around => ⟨c.expr, c.start, some c.frame, around⟩
  | _, [] => ⟨r.body, 0, none, []⟩

/-- The record after a round for an origin.  Frames above those of the constructs around the origin
have been pushed for it; the last frame is that of the function itself. -/
def extend (r : Record) (o : Origin) (waiting : List Waiting) (size : Nat) : Record :=
  { r with
    constructs := (waiting.take (waiting.length - 1 - o.around.length)).map
      (⟨o.expr, o.start, ·⟩) ++ o.around
    origins := r.origins ++ List.replicate (size - r.origins.length) o }

end Record

/-- The records of a compilation. -/
structure Journal where
  /-- Those of the functions being compiled, the innermost first. -/
  current : List Record
  finished : List (Func × Record)

namespace Journal

def start (root : Expr) : Journal := ⟨[⟨root, [], []⟩], []⟩

/-- The journal after a round.  The round may have begun a function, or finished one with a single
instruction. -/
def follow (j : Journal) (phase : Phase) (t : Task) : Journal :=
  match j.current, t.state.functions with
  | r :: rs, fn :: fns =>
    let o := r.origin phase
    if fns.length < rs.length then
      match rs, t.phase with
      | r' :: rs, .give (.func result) =>
        ⟨r'.extend (r'.origin t.phase) fn.waiting fn.builder.insts.size :: rs,
          (result, r.extend o [] (r.origins.length + 1)) :: j.finished⟩
      | _, _ => j
    else if rs.length < fns.length then
      match fns, t.phase with
      | fn :: _, .compile body =>
        ⟨⟨body, [], []⟩ :: r.extend o fn.waiting fn.builder.insts.size :: rs, j.finished⟩
      | _, _ => j
    else
      let r := r.extend o fn.waiting fn.builder.insts.size
      match t.phase with
      | .finish result => ⟨r :: rs, (result, r) :: j.finished⟩
      | _ => ⟨r :: rs, j.finished⟩
  | _, _ => j

end Journal

/-- The journal of the rounds of `Task.run`. -/
def Task.journal (settings : Settings) (ev : Evaluator) :
    (fuel : Nat) → Task → Journal → Journal
  | 0, _, j => j
  | fuel + 1, t, j =>
    if t.active then
      journal settings ev fuel ((t.advance settings).evaluate ev)
        (j.follow t.phase (t.advance settings))
    else j

/-- The functions that the compilation of an expression makes, with their records. -/
def journalTree (globals : Globals) (blockSize : Int) (ev : Evaluator) (heap : Heap)
    (cancellation : Cancellation) (e : Expr) : List (Func × Record) :=
  let root := Task.rootOf e
  let settings : Settings := ⟨globals, blockSize, root.span?.getD ⟨[], 0, 0⟩⟩
  (Task.journal settings ev Task.roundLimit (Task.start settings heap cancellation root)
    (.start root)).finished

/-- The functions that the compilation of a text makes, with their records. -/
def Compiler.journal (c : Compiler) (heap : Heap) (cancellation : Cancellation)
    (source text : Bytes) : List (Func × Record) :=
  match c.parse heap source text with
  | .error _ => []
  | .ok (e, heap) => journalTree c.globals c.blockSize c.evaluator heap cancellation e

/-! ### Parts of expressions -/

def CondCase.parts (arms : List CondCase) : List Expr := arms.flatMap fun a => [a.cond, a.body]

def Handler.parts (handlers : List Handler) : List Expr :=
  handlers.flatMap fun h => h.body :: h.types

def SelectClause.parts (clauses : List SelectClause) : List Expr :=
  clauses.flatMap fun c => c.body :: c.values

def Expr.statements : Expr → List Expr
  | .block _ _ _ _ body _ => body
  | _ => []

/-- The parts of an expression that are code of the same function, except for statements. -/
def Expr.parts : Expr → List Expr
  | .string _ parts => parts
  | .assign _ target v => [target, v]
  | .call _ fn args => fn :: args
  | .constCall _ _ args => args
  | .resolve _ parent _ => [parent]
  | .logic _ _ left right => [left, right]
  | .not _ arg => [arg]
  | .cond _ arms otherwise => otherwise :: CondCase.parts arms
  | .loop _ body => [body]
  | .exit _ v => [v]
  | .exitTest _ _ condition v => [condition, v]
  | .forIn _ _ _ _ seq body otherwise => [seq, body, otherwise]
  | .each _ seq => [seq]
  | .block _ _ _ _ _ handlers => Handler.parts handlers
  | .bind _ _ _ _ v => [v]
  | .method _ _ params _ _ => params.map (·.type)
  | .ret _ v => [v]
  | .suspend _ key v => [key, v]
  | .scoped _ _ values body => body :: values
  | .switch _ subject arms otherwise => subject :: otherwise :: arms
  | .select _ subject clauses otherwise => subject :: otherwise :: SelectClause.parts clauses
  | .sequence _ _ elems => elems
  | .map _ entries => entries
  | .quote _ _ args => args
  | _ => []

def Expr.isCall : Expr → Bool
  | .call .. => true
  | _ => false

/-- The part of a construct whose value its frame waits for.  A part that was left out stands for
nil, and a call may have been replaced by the expression that an expander gave. -/
def Construct.HasPart (c : Construct) (e : Expr) : Prop :=
  match c.frame with
  | .statements .. => e ∈ c.expr.statements
  | .expanded _ => c.expr.isCall = true
  | _ => e ∈ c.expr.parts ∨ ∃ span, e = .nil span

/-- An expression is found inside of constructs of the body of a function. -/
inductive Occurs (body : Expr) : List Construct → Expr → Prop where
  | body : Occurs body [] body
  | part {c : Construct} {around : List Construct} {e : Expr} (outer : Occurs body around c.expr)
      (inner : c.HasPart e) : Occurs body (c :: around) e
  | assigned {around : List Construct} {span blank : Span} {e : Expr}
      (outer : Occurs body around (.assign span (.blank blank) e)) : Occurs body around e

end StagedScript
