import StagedScript.Machine.Step

/-!
# Running functions

A run is a stack of calls.  A raised error goes to the innermost call with an active handler, and a
call deeper than the limit raises one.  The run asks from time to time whether it was cancelled;
nothing in the program can catch that.
-/

namespace StagedScript

/-- When a computation is cancelled: never, or after having asked a number of times. -/
structure Cancellation where
  left : Option Nat
  deriving DecidableEq

namespace Cancellation

def never : Cancellation := ⟨none⟩

def ask (c : Cancellation) : Bool × Cancellation :=
  match c.left with
  | none => (false, c)
  | some 0 => (true, c)
  | some (n + 1) => (false, ⟨some n⟩)

end Cancellation

inductive Outcome where
  | value (v : Value)
  | raised (e : Raised)
  | cancelled
  | stuck
  | unfinished

structure Machine where
  frames : List Frame
  heap : Heap
  steps : Nat
  cancellation : Cancellation

namespace Machine

def maxCallDepth : Nat := 512

/-- The number of instructions between questions about cancellation. -/
def checkInterval : Nat := 1024

inductive Callee where
  | run (fn : Func) (env : Option Nat) (args : List Value)
  | done (result : Except Raised Value)
  /-- An expander that wraps itself. -/
  | endless

/-- What calling a value amounts to. An expander calls the function it wraps. -/
def callee (h : Heap) : (fuel : Nat) → (fn : Value) → (args : List Value) → Callee
  | 0, _, _ => .endless
  | fuel + 1, fn, args =>
    let args := args.map h.deref
    match h.deref fn with
    | .closure f env => .run f (some env) args
    | .func f =>
      if f.upvalues.isEmpty then .run f none args
      else .done (.error ⟨"CallError", "function at " ++ f.source ++ ":" ++
        Bytes.ofInt f.startLine ++ " needs a closure"⟩)
    | .builtin _ action => .done (action.apply h.shown args)
    | .method name => .done (Method.call name args)
    | .expander _ inner _ => callee h fuel inner args
    | _ => .done (.error ⟨"CallError", fn.display h.shown ++ " is not callable"⟩)

def expanderLimit : Nat := 1000000

def unwind (e : Raised) : List Frame → Except Outcome (List Frame)
  | [] => .error (.raised e)
  | f :: rest =>
    if f.handler = noTarget then unwind e rest
    else match f.stack.cut? f.handlerDepth with
      | none => .error .stuck
      | some s =>
        .ok ({ f with
          stack := s.push (.error e.type e.message), ip := f.handler, handler := noTarget } :: rest)

def deliver (v : Value) : List Frame → Except Outcome (List Frame)
  | [] => .error (.value v)
  | f :: rest => .ok (f.push v :: rest)

def tooDeep : Raised :=
  ⟨"CallError", "call depth exceeds " ++ Bytes.ofNat maxCallDepth⟩

def enter (h : Heap) (fn : Value) (args : List Value) (frames : List Frame) :
    Except Outcome (List Frame) :=
  match callee h expanderLimit fn args with
  | .endless => .error .unfinished
  | .done (.ok v) => deliver v frames
  | .done (.error e) => unwind e frames
  | .run f env args =>
    if maxCallDepth ≤ frames.length then unwind tooDeep frames
    else match Frame.start? f env args with
      | none => .error .stuck
      | some frame => .ok (frame :: frames)

/-- The calls after a step of the innermost one, and the heap. A stuck run leaves nothing behind. -/
def afterStep (step : Option Step) (rest : List Frame) : Except Outcome (List Frame) × Heap :=
  match step with
  | none => (.error .stuck, {})
  | some (.next f h) => (.ok (f :: rest), h)
  | some (.return v h) => (deliver v rest, h)
  | some (.raise e f h) => (unwind e (f :: rest), h)
  | some (.call fn args f h) => (enter h fn args (f :: rest), h)

structure Result where
  outcome : Outcome
  heap : Heap
  cancellation : Cancellation

def run : (fuel : Nat) → Machine → Result
  | 0, m => ⟨.unfinished, m.heap, m.cancellation⟩
  | fuel + 1, ⟨frames, heap, steps, cancellation⟩ =>
    match frames with
    | [] => ⟨.unfinished, heap, cancellation⟩
    | f :: rest =>
      let steps := steps + 1
      let (isCancelled, cancellation) :=
        if steps % checkInterval = 0 then cancellation.ask else (false, cancellation)
      if isCancelled then ⟨.cancelled, heap, cancellation⟩
      else
        match afterStep (f.step heap) rest with
        | (.error outcome, heap) => ⟨outcome, heap, cancellation⟩
        | (.ok frames, heap) => run fuel ⟨frames, heap, steps, cancellation⟩

def stepLimit : Nat := 0x1000000000000000

def callWithin (fuel : Nat) (heap : Heap) (cancellation : Cancellation) (fn : Value)
    (args : List Value) : Result :=
  match enter heap fn args [] with
  | .error outcome => ⟨outcome, heap, cancellation⟩
  | .ok frames => run fuel ⟨frames, heap, 0, cancellation⟩

def call (heap : Heap) (cancellation : Cancellation) (fn : Value) (args : List Value) : Result :=
  callWithin stepLimit heap cancellation fn args

end Machine

end StagedScript
