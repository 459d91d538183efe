import StagedScript.Proofs.Compile.State
import StagedScript.Proofs.Staging.InStep

/-!
# The rules of the compiler in step

Every rule of the compiler does the same for a program and for an inline expression.  Only the end of
the outermost function is different.
-/

namespace StagedScript

namespace Staging

open Compiling

variable {g : Staging}

/-! ### Functions -/

variable {s s' : CompileState} {c : Settings}

theorem modifyCurrent_length (k : FunctionState → FunctionState) :
    Runs c (modifyCurrent k) s fun _ t => t.functions.length = s.functions.length := by
  rintro _ t ⟨⟩
  dsimp only
  split <;> simp_all

theorem declareParams_length (slot : Nat) (params : List Param) :
    Runs c (declareParams slot params) s fun _ t => t.functions.length = s.functions.length := by
  induction params generalizing slot s with
  | nil => exact .pure rfl
  | cons p params ih =>
    have hnew (b : Binding) : Runs c (newBinding b) s fun _ t => t.functions = s.functions := by
      rintro _ t ⟨⟩
      rfl
    refine (hnew _).bind fun id t ht => ?_
    have hbinding : Runs c (Compiling.binding id) t fun _ u => u = t := by
      rintro _ u ⟨⟩
      rfl
    have hdeclare : Runs c (declare id) t fun _ u => u.functions.length = t.functions.length :=
      hbinding.bind fun b u hu => by
        rw [hu]
        exact modifyCurrent_length _
    refine hdeclare.bind fun _ u hu => ?_
    exact (ih (slot + 1)).imp fun _ v hv => hv.trans (hu.trans (congrArg List.length ht))

theorem declareParams_similar (slot : Nat) (params : List Param) :
    g.Similar (declareParams slot params) := by
  induction params generalizing slot with
  | nil => exact .pure trivial
  | cons p params ih =>
    exact (newBinding_similar _).bind fun _ => (declare_similar _).bind fun _ => ih _

theorem push_finish_agree (h : g.InStep s s') (hlength : 1 < s.functions.length) (span : Span) :
    g.Agree (fun _ => True) (push (.finish span false) g.plain s)
      (push (.finish span false) g.inlined s') := by
  obtain ⟨fns, bindings, heap⟩ := s
  obtain ⟨fns', rfl, hfns⟩ := h.exists_functions
  dsimp only at hfns hlength
  cases hfns with
  | body => simp at hlength
  | inner hwaiting hfns =>
    refine .ok trivial ⟨.inner (fun span' hmem => ?_) hfns, rfl, rfl⟩
    obtain hmem | hmem := List.mem_cons.1 hmem
    · cases hmem
    · exact hwaiting span' hmem

theorem beginFunction_similar (span : Span) (params : List Param) (extra named : Bool) (body : Expr)
    (isConstant : Bool) :
    g.Similar (beginFunction span params extra named body isConstant) Next.Continues := by
  intro s s' h
  obtain ⟨fns, rfl, hfns⟩ := h.exists_functions
  cases hrepeated : repeated? [] params with
  | some r =>
    simp only [beginFunction, hrepeated]
    exact .error
  | none =>
    simp only [beginFunction, hrepeated]
    rw [read_bind, read_bind]
    have hinner := fun fn hwaiting => (⟨.inner hwaiting hfns, rfl, rfl⟩ :
      g.InStep { s with functions := fn :: s.functions } { s with functions := fn :: fns })
    refine Similar.bind_at (P := fun _ => True) (.ok trivial (hinner _ fun _ => List.not_mem_nil))
      fun _ t t' ht h => ?_
    cases ht
    refine Similar.bind_at (declareParams_similar _ _ _ _ h) fun _ t t' ht h => ?_
    have hlength := declareParams_length _ _ _ _ ht
    refine Similar.bind_at (push_finish_agree h ?_ span) fun _ _ _ _ h => .ok trivial h
    obtain ⟨fn, rest, _, _, _, hs, -⟩ := hfns.head
    simp [hlength, hs]

/-- Rules that are built from others do the same in both compilations. -/
theorem closed (g : Staging) : Closed fun x P => g.Similar x P where
  pure := .pure
  bind := .bind
  stuck := .stuck
  fail _ _ := .fail
  failShowing _ _ _ _ _ _ := .error
  current_holds := current_similar
  modifyCurrent_holds := modifyCurrent_similar
  push_holds := push_similar
  modifyBinding_holds := modifyBinding_similar
  newBinding_holds := newBinding_similar
  binding_holds := binding_similar
  bindValue_holds := bindValue_similar
  resolve_holds := resolve_similar
  peek?_holds := peek?_similar
  beginFunction_holds := beginFunction_similar

theorem op_length (line : Nat) (o : Opcode) :
    Runs c (op line o) s fun _ t => t.functions.length = s.functions.length := by
  refine (modifyCurrent_length _).bind fun _ t ht => ?_
  have hcurrent : Runs c current t fun _ u => u = t := by
    refine Runs.get.bind fun u u' ⟨hu, hu'⟩ => ?_
    subst hu hu'
    split
    · exact .pure rfl
    · exact .throw
  refine hcurrent.bind fun fn u hu => .ite (fun _ => .throw) fun _ => .pure ?_
  rw [hu, ht]

theorem finishFunction_agree (h : g.InStep s s') (hlength : 1 < s.functions.length) (span : Span) :
    g.Agree Next.Continues (finishFunction span false g.plain s)
      (finishFunction span false g.inlined s') := by
  refine Similar.bind_at (g.closed.op_holds _ _ h) fun _ t t' ht h => ?_
  rw [← op_length _ _ _ _ ht] at hlength
  obtain ⟨fns, rfl, hfns⟩ := h.exists_functions
  obtain ⟨fns', bindings, heap⟩ := t
  dsimp only at hfns hlength
  cases hfns with
  | body => simp at hlength
  | @inner fn rest rest' hwaiting hrest =>
    rw [current_bind rfl, current_bind rfl]
    cases fn.builder.finish with
    | error u => exact .error
    | ok code =>
      have hfinished : g.InStep ⟨rest, bindings, heap⟩ ⟨rest', bindings, heap⟩ := ⟨hrest, rfl, rfl⟩
      exact g.closed.prepareCaptures_holds.bind (fun _ => .pure trivial) _ _ hfinished

/-- A value is given to the innermost frame in the same way, unless it ends the outermost function. -/
theorem resume_agree (h : g.InStep s s') (v : Value)
    (hbody : ∀ fn, s.functions = [fn] → fn.waiting ≠ [.finish g.root true]) :
    g.Agree Next.Continues (resume v g.plain s) (resume v g.inlined s') := by
  obtain ⟨fns, rfl, hfns⟩ := h.exists_functions
  obtain ⟨fns', bindings, heap⟩ := s
  dsimp only at hfns hbody
  unfold resume
  cases hfns with
  | @body fn frames hframes hwaiting hupvalues hcaptured =>
    rw [current_bind rfl, current_bind rfl]
    cases frames with
    -- only the frame that ends the program is left, which was excluded
    | nil => exact absurd hwaiting (hbody fn rfl)
    | cons w frames =>
      obtain ⟨hw, hframes⟩ := List.forall_mem_cons.1 hframes
      have hpopped : g.InStep
          ⟨[{ fn with waiting := frames ++ [.finish g.root true] }], bindings, heap⟩
          ⟨[g.asConstant fn frames, g.around], bindings, heap⟩ :=
        ⟨@Functions.body g { fn with waiting := frames ++ [.finish g.root true] } frames hframes rfl
          hupvalues hcaptured, rfl, rfl⟩
      simp only [hwaiting, asConstant, List.cons_append]
      exact g.closed.resumeWith_holds hw _ _ hpopped
  | @inner fn rest rest' hwaiting hrest =>
    rw [current_bind rfl, current_bind rfl]
    cases hframes : fn.waiting with
    | nil => exact g.closed.failInternal_holds _ _ h
    | cons w frames =>
      have hpopped : g.InStep ⟨{ fn with waiting := frames } :: rest, bindings, heap⟩
          ⟨{ fn with waiting := frames } :: rest', bindings, heap⟩ := by
        refine ⟨.inner (fun span hmem => ?_) hrest, rfl, rfl⟩
        exact hwaiting span (hframes ▸ List.mem_cons_of_mem _ hmem)
      have hinside (hw : w.isFinish = false) := g.closed.resumeWith_holds hw (v := v) _ _ hpopped
      cases w with
      | finish span isRoot =>
        cases isRoot with
        | false =>
          refine finishFunction_agree hpopped ?_ span
          obtain ⟨fn', rest'', _, _, _, hs, -⟩ := hrest.head
          simp [hs]
        | true => exact absurd (hframes ▸ List.mem_cons_self) (hwaiting span)
      | _ => exact hinside rfl

end Staging

end StagedScript
