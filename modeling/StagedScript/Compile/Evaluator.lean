import StagedScript.Compile.State
import StagedScript.Machine.Run

/-!
# Answers to calls of a compilation

A compilation calls constants, inline expressions and expanders while compiling.  An *evaluator*
answers these calls.  It may answer a call any number of times, or not at all.
-/

namespace StagedScript

inductive Answer where
  | value (v : Value)
  | raised (e : Raised)
  | cancelled
  | failed (message : Bytes)
  | error (e : SourceError)
  | stuck

def cancelledMessage : Bytes := "context canceled"

namespace EvalCall

def failure (call : EvalCall) (message : Bytes) (cause : Cause) : SourceError :=
  (SourceError.plain call.category call.span.position message).because cause

end EvalCall

structure Evaluation where
  answers : List Answer
  heap : Heap
  cancellation : Cancellation

abbrev Evaluator := EvalCall → Heap → Cancellation → Evaluation

namespace Evaluator

def always (answers : List Answer) : Evaluator := fun _ heap cancellation =>
  ⟨answers, heap, cancellation⟩

def answerOf : Outcome → Answer
  | .value v => .value v
  | .raised e => .raised e
  | .cancelled => .cancelled
  | .stuck | .unfinished => .stuck

def machine : Evaluator := fun call heap cancellation =>
  let r := Machine.call heap cancellation call.fn call.args
  ⟨[answerOf r.outcome], r.heap, r.cancellation⟩

def andAlso (ev : Evaluator) (a : Answer) : Evaluator := fun call heap cancellation =>
  let r := ev call heap cancellation
  { r with answers := r.answers ++ [a] }

def unavailable : Evaluator := fun call heap cancellation =>
  ⟨[.failed ("no evaluator available to call " ++ call.fn.display heap.shown)], heap, cancellation⟩

end Evaluator

end StagedScript
