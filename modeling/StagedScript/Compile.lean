import StagedScript.Compile.Task
import StagedScript.Tree.Parser

/-!
# Compiling source texts

A compiler has the tables that texts are read with, the globals, the capacity of a block of code,
and the evaluator of compile-time calls.
-/

namespace StagedScript

structure Compiler where
  tables : Tables := .standard
  globals : Globals := .empty
  blockSize : Int := Builder.defaultBlockSize
  evaluator : Evaluator := .unavailable

namespace Compiler

def parse (c : Compiler) (heap : Heap) (source text : Bytes) : Except SourceError (Expr × Heap) :=
  match parseUnit c.tables source text heap.nextDecl with
  | .error e => .error e
  | .ok (e, nextDecl) => .ok (e, { heap with nextDecl })

def compile (c : Compiler) (heap : Heap) (cancellation : Cancellation) (e : Expr) : Compiled :=
  compileTree c.globals c.blockSize c.evaluator heap cancellation e

def compileText (c : Compiler) (heap : Heap) (cancellation : Cancellation) (source text : Bytes) :
    Compiled :=
  match c.parse heap source text with
  | .error e => ⟨.error e, heap, cancellation⟩
  | .ok (e, heap) => c.compile heap cancellation e

end Compiler

end StagedScript
