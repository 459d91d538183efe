import StagedScript.Proofs.Compile.Task
import StagedScript.Proofs.Typing.Paths

/-!
# Compiled functions pass verification

What a text compiles to is sound, so it is typed, and so are all functions nested in it.  Typed
functions pass verification, and all their paths are coherent.
-/

namespace StagedScript

theorem Func.Sound.verify {z : CapturedCounts} {fn : Func} (h : fn.Sound z) : fn.verify = .ok () :=
  Func.verifyEach_eq_ok.2 fun _ hg => (h.of_mem_nested hg).isTyped.verifyAlone

/-- What a text compiles to passes verification, for every capacity of the blocks of code. -/
theorem Compiler.verify_compileText (tables : Tables) (blockSize : Int) {heap : Heap}
    (hheap : heap.Sound) (cancellation : Cancellation) (source text : Bytes) {fn : Func}
    (hfn : (compileText ⟨tables, .prelude, blockSize, .machine⟩ heap cancellation source
      text).outcome = .func fn) :
    fn.verify = .ok () ∧ ∀ g ∈ fn.nested, ∃ code, g.code = some code ∧ g.Coherent code := by
  obtain ⟨-, hsound, -⟩ := compileText_sound Globals.prelude_sound Evaluator.machine_sound hheap
    cancellation source text hfn
  exact ⟨hsound.verify, fun g hg => (hsound.of_mem_nested hg).isTyped.coherent⟩

def CompileOutcome.isFunc : CompileOutcome → Bool
  | .func _ => true
  | _ => false

theorem CompileOutcome.exists_of_isFunc {o : CompileOutcome} (h : o.isFunc = true) :
    ∃ fn, o = .func fn := by
  cases o with
  | func fn => exact ⟨fn, rfl⟩
  | _ => cases h

theorem Heap.empty_sound : Heap.Sound {} := .empty

/-- Some of the reserved words, in a table that is small enough to be evaluated. -/
def KeywordTable.few : KeywordTable where
  seeds := #[6, 11, 0, 5, 2]
  slots := #[("fun", .kwFun), ("until", .kwUntil), ("retry", .kwRetry), ("let", .kwLet),
    ("loop", .kwLoop), ("end", .kwEnd), ("on", .kwOn), ("do", .kwDo)]

theorem Compiler.verify_compileText_of_handled_closure :
    ∃ fn, (compileText ⟨⟨.few, .standard⟩, .prelude, 4, .machine⟩ {} .never "t"
        "let f := fun(x) do x + 1 on e do retry end end; loop until f(2), 3 end").outcome =
          .func fn ∧
      fn.verify = .ok () ∧ ∀ g ∈ fn.nested, ∃ code, g.code = some code ∧ g.Coherent code := by
  have hcompiles : (compileText ⟨⟨.few, .standard⟩, .prelude, 4, .machine⟩ {} .never "t"
      "let f := fun(x) do x + 1 on e do retry end end; loop until f(2), 3 end").outcome.isFunc =
        true := by
    decide +kernel
  obtain ⟨fn, hfn⟩ := CompileOutcome.exists_of_isFunc hcompiles
  exact ⟨fn, hfn, verify_compileText _ _ Heap.empty_sound _ _ _ hfn⟩

end StagedScript
