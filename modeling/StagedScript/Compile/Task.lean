import StagedScript.Compile.Evaluator
import StagedScript.Compile.Rule

/-!
# A compilation as a sequence of rounds

A compilation goes on in rounds, each of which compiles one expression up to its first part, gives a
value to what waits for it, or reports the result.  When it has made a call, it waits for an answer.
Answers that arrive when none is awaited are ignored.
-/

namespace StagedScript

inductive Phase where
  | compile (e : Expr)
  | give (v : Value)
  | fail (e : SourceError)
  | wait (call : EvalCall)
  | finish (fn : Func)
  | reported
  /-- It cannot go on: a part of the tree is missing, or an answer was stuck. -/
  | stuck

structure Task where
  phase : Phase
  active : Bool
  state : CompileState
  cancellation : Cancellation
  reports : List (Except SourceError Func)

namespace Task

def rootOf (e : Expr) : Expr := e.orNil ⟨[], 0, 0⟩

def cancelledAt (p : Position) : SourceError :=
  (SourceError.plain .compiler p ("compilation cancelled: " ++ cancelledMessage)).because .cancelled

def start (settings : Settings) (heap : Heap) (cancellation : Cancellation) (root : Expr) : Task :=
  { phase := .compile root
    active := true
    state :=
      { functions := [{ builder := .empty settings.blockSize,
                        waiting := [.finish settings.root true] }]
        bindings := #[]
        heap }
    cancellation
    reports := [] }

def traced (functions : List FunctionState) (e : SourceError) : SourceError :=
  functions.foldl
    (fun e fn => fn.waiting.foldl (fun e (w : Waiting) => e.addTrace w.span.position) e) e

def report (t : Task) (result : Except SourceError Func) : Task :=
  { t with phase := .reported, active := false, reports := result :: t.reports }

def afterAction (cancellation : Cancellation) (reports : List (Except SourceError Func)) :
    EStateM.Result Trouble CompileState Next → Task
  | .ok next state =>
    let phase := match next with
      | .compile e => .compile e
      | .give v => .give v
      | .wait call => .wait call
      | .done fn => .finish fn
    ⟨phase, true, state, cancellation, reports⟩
  | .error (.error e) state => ⟨.fail e, true, state, cancellation, reports⟩
  | .error .stuck state => ⟨.stuck, false, state, cancellation, reports⟩

/-- One round. Cancellation is asked for before each expression. -/
def advance (settings : Settings) : Task → Task
  | ⟨.compile e, active, state, cancellation, reports⟩ =>
    match cancellation.ask with
    | (true, cancellation) =>
      let place := ((e.span?).getD settings.root).position
      ⟨.fail (cancelledAt place), active, state, cancellation, reports⟩
    | (false, cancellation) =>
      afterAction cancellation reports (Compiling.dispatch e settings state)
  | ⟨.give v, _, state, cancellation, reports⟩ =>
    afterAction cancellation reports (Compiling.resume v settings state)
  | t@⟨.fail e, _, state, _, _⟩ => t.report (.error (traced state.functions e))
  | t@⟨.finish fn, _, _, _, _⟩ => t.report (.ok fn)
  | t => { t with active := false }

/-- Takes an answer if one is awaited. An error gets the place of the call. -/
def deliver (t : Task) (a : Answer) : Task :=
  match t.phase with
  | .wait call =>
    let resumed (phase : Phase) : Task := { t with phase, active := true }
    match a with
    | .value v => resumed (.give v)
    | .raised e => resumed (.fail (call.failure e.display (.raised e.type e.message)))
    | .cancelled => resumed (.fail (call.failure cancelledMessage .cancelled))
    | .failed message => resumed (.fail (call.failure message (.other message)))
    | .error e => resumed (.fail (e.addTrace call.span.position))
    | .stuck => { t with phase := .stuck, active := false }
  | _ => t

def evaluate (ev : Evaluator) : Task → Task
  | ⟨.wait call, true, state, cancellation, reports⟩ =>
    let r := ev call state.heap cancellation
    let state := { state with heap := r.heap }
    r.answers.foldl deliver ⟨.wait call, true, state, r.cancellation, reports⟩
  | t => t

/-- Rounds and answers until the compilation has reported or waits, within `fuel` rounds. -/
def run (settings : Settings) (ev : Evaluator) : (fuel : Nat) → Task → Task
  | 0, t => t
  | fuel + 1, t => if t.active then run settings ev fuel (evaluate ev (advance settings t)) else t

def roundLimit : Nat := 0x1000000000000000

end Task

inductive CompileOutcome where
  | func (fn : Func)
  | error (e : SourceError)
  | stuck
  | unfinished

structure Compiled where
  outcome : CompileOutcome
  heap : Heap
  cancellation : Cancellation

/-- Compiles an expression and waits for the result. A compilation that never gets an answer ends
when it is cancelled. -/
def compileTree (globals : Globals) (blockSize : Int) (ev : Evaluator) (heap : Heap)
    (cancellation : Cancellation) (e : Expr) : Compiled :=
  let root := Task.rootOf e
  let settings : Settings := ⟨globals, blockSize, root.span?.getD ⟨[], 0, 0⟩⟩
  let t := Task.run settings ev Task.roundLimit (Task.start settings heap cancellation root)
  let outcome : CompileOutcome := match t.phase, t.reports with
    | _, .ok fn :: _ => .func fn
    | _, .error e :: _ => .error e
    | .wait _, [] => .error (Task.cancelledAt settings.root.position)
    | .stuck, [] => .stuck
    | _, [] => .unfinished
  ⟨outcome, t.state.heap, t.cancellation⟩

end StagedScript
