import StagedScript.Proofs.Compile.Built

/-!
# A program and an inline expression in step

An expression is compiled in two ways: as a whole program, and as an inline expression in a function
around it.  The two compilations go in step.
-/

namespace StagedScript

/-- A program and an inline expression that are compiled with the same globals and capacity. -/
structure Staging where
  globals : Globals
  blockSize : Int
  root : Span
  span : Span

namespace Staging

variable (g : Staging)

def plain : Settings := ⟨g.globals, g.blockSize, g.root⟩

def inlined : Settings := ⟨g.globals, g.blockSize, g.span⟩

def around : FunctionState :=
  { builder := .empty g.blockSize
    waiting := [.constantCode g.span .inline, .finish g.span true] }

/-- The function of the program as that of the inline expression, with the given frames. -/
def asConstant (fn : FunctionState) (frames : List Waiting) : FunctionState :=
  { fn with waiting := frames ++ [.finish g.span false], isConstant := true }

/-- The functions of the two compilations. -/
inductive Functions : List FunctionState → List FunctionState → Prop where
  | body {fn : FunctionState} {frames : List Waiting} (hframes : ∀ w ∈ frames, w.isFinish = false)
      (hwaiting : fn.waiting = frames ++ [.finish g.root true]) (hupvalues : fn.upvalues = [])
      (hcaptured : fn.captured = []) : Functions [fn] [g.asConstant fn frames, g.around]
  | inner {fn : FunctionState} {fns fns' : List FunctionState}
      (hwaiting : ∀ span, .finish span true ∉ fn.waiting) (h : Functions fns fns') :
      Functions (fn :: fns) (fn :: fns')

/-- The states of the two compilations correspond. -/
structure InStep (s s' : CompileState) : Prop where
  functions : g.Functions s.functions s'.functions
  bindings : s'.bindings = s.bindings
  heap : s'.heap = s.heap

/-- The results of two actions correspond, and what they give has a property. -/
inductive Agree {α : Type} (P : α → Prop) :
    EStateM.Result Trouble CompileState α → EStateM.Result Trouble CompileState α → Prop where
  | ok {a : α} {s s' : CompileState} (ha : P a) (h : g.InStep s s') : Agree P (.ok a s) (.ok a s')
  | error {e e' : SourceError} {s s' : CompileState} :
      Agree P (.error (.error e) s) (.error (.error e') s')
  | stuck {s s' : CompileState} : Agree P (.error .stuck s) (.error .stuck s')

/-- An action does the same in both compilations, and what it gives has a property. -/
def Similar {α : Type} (x : Compiling α) (P : α → Prop := fun _ => True) : Prop :=
  ∀ s s', g.InStep s s' → g.Agree P (x g.plain s) (x g.inlined s')

variable {g} {fns fns' : List FunctionState}

/-! ### Rules -/

namespace Similar

variable {α β : Type} {x y : Compiling α} {f : α → Compiling β} {P : α → Prop} {Q : β → Prop}

theorem pure {a : α} (ha : P a) : g.Similar (Pure.pure a : Compiling α) P := fun _ _ h => .ok ha h

theorem bind_at {s s' : CompileState} (hx : g.Agree P (x g.plain s) (x g.inlined s'))
    (hf : ∀ a t t', x g.plain s = .ok a t → g.InStep t t' →
      g.Agree Q (f a g.plain t) (f a g.inlined t')) :
    g.Agree Q ((x >>= f) g.plain s) ((x >>= f) g.inlined s') := by
  change g.Agree Q (EStateM.bind (x g.plain) (fun a => f a g.plain) s)
    (EStateM.bind (x g.inlined) (fun a => f a g.inlined) s')
  unfold EStateM.bind
  generalize x g.plain s = r at hx hf
  generalize x g.inlined s' = r' at hx
  cases hx with
  | ok ha h => exact hf _ _ _ rfl h
  | error => exact .error
  | stuck => exact .stuck

theorem bind (hx : g.Similar x) (hf : ∀ a, g.Similar (f a) Q) : g.Similar (x >>= f) Q :=
  fun s s' h => bind_at (hx s s' h) fun a _ _ _ ht => hf a _ _ ht

theorem stuck : g.Similar (throw .stuck : Compiling α) P := fun _ _ _ => .stuck

theorem fail {e : SourceError} : g.Similar (throw (.error e) : Compiling α) P := fun _ _ _ => .error

theorem ite_at {q : Prop} [Decidable q] {s s' : CompileState}
    (hx : q → g.Agree P (x g.plain s) (x g.inlined s'))
    (hy : ¬q → g.Agree P (y g.plain s) (y g.inlined s')) :
    g.Agree P ((if q then x else y) g.plain s) ((if q then x else y) g.inlined s') := by
  split
  · exact hx ‹_›
  · exact hy ‹_›

theorem ite {q : Prop} [Decidable q] (hx : g.Similar x P) (hy : g.Similar y P) :
    g.Similar (if q then x else y) P := by
  split
  · exact hx
  · exact hy

end Similar

/-! ### The current function -/

theorem Functions.head (h : g.Functions fns fns') :
    ∃ fn rest waiting isConstant rest', fns = fn :: rest ∧
      fns' = { fn with waiting, isConstant } :: rest' := by
  cases h with
  | @body fn frames => exact ⟨fn, [], _, true, _, rfl, rfl⟩
  | @inner fn fns fns' => exact ⟨fn, fns, fn.waiting, fn.isConstant, fns', rfl, rfl⟩

variable {s : CompileState} {c : Settings} (id : BindingId) {k : FunctionState → FunctionState}
  {rest : List FunctionState}

theorem Functions.modify (hk : FunctionState.Keeps k) {fn fn' : FunctionState}
    {rest' : List FunctionState} (h : g.Functions (fn :: rest) (fn' :: rest')) :
    g.Functions (k fn :: rest) (k fn' :: rest') := by
  cases h with
  | @body _ frames hframes hwaiting hupvalues hcaptured =>
    have hbody : k (g.asConstant fn frames) = g.asConstant (k fn) frames := hk.commutes fn _ _
    rw [hbody]
    exact .body hframes ((hk.waiting fn).trans hwaiting) ((hk.upvalues fn).trans hupvalues)
      ((hk.captured fn).trans hcaptured)
  | inner hwaiting h => exact .inner (fun span => by rw [hk.waiting]; exact hwaiting span) h

theorem modifyCurrent_similar (hk : FunctionState.Keeps k) :
    g.Similar (Compiling.modifyCurrent k) := by
  intro s s' h
  obtain ⟨fn, rest, waiting, isConstant, rest', hs, hs'⟩ := h.functions.head
  have hfunctions := h.functions
  rw [hs, hs'] at hfunctions
  refine .ok trivial ⟨?_, ?_, ?_⟩
  · simpa only [hs, hs'] using hfunctions.modify hk
  · simpa only [hs, hs'] using h.bindings
  · simpa only [hs, hs'] using h.heap

theorem get_bind {β : Type} {f : CompileState → Compiling β} :
    ((get : Compiling CompileState) >>= f) c s = f s c s :=
  rfl

theorem current_eq {fn : FunctionState} (hs : s.functions = fn :: rest) :
    Compiling.current c s = .ok fn s := by
  unfold Compiling.current
  rw [get_bind, hs]
  rfl

theorem current_bind {β : Type} {f : FunctionState → Compiling β} {fn : FunctionState}
    (hs : s.functions = fn :: rest) : (Compiling.current >>= f) c s = f fn c s := by
  change EStateM.bind (Compiling.current c) (fun a => f a c) s = _
  simp only [EStateM.bind, current_eq hs]

theorem current_similar {β : Type} {f : FunctionState → Compiling β} {Q : β → Prop}
    (hview : ∀ fn waiting isConstant, f { fn with waiting, isConstant } = f fn)
    (hf : ∀ fn, g.Similar (f fn) Q) : g.Similar (Compiling.current >>= f) Q := by
  intro s s' h
  obtain ⟨fn, rest, waiting, isConstant, rest', hs, hs'⟩ := h.functions.head
  rw [current_bind hs, current_bind hs', hview fn waiting isConstant]
  exact hf fn s s' h

open Compiling

theorem push_similar {w : Waiting} (hw : w.isFinish = false) : g.Similar (push w) := by
  intro s s' h
  obtain ⟨fns, bindings, heap⟩ := s
  obtain ⟨fns', bindings', heap'⟩ := s'
  obtain ⟨hfunctions, hbindings, hheap⟩ := h
  refine .ok trivial ⟨?_, ?_, ?_⟩
  · dsimp only at hfunctions ⊢
    cases hfunctions with
    | @body fn frames hframes hwaiting hupvalues hcaptured =>
      exact @Functions.body g { fn with waiting := w :: fn.waiting } (w :: frames)
        (List.forall_mem_cons.2 ⟨hw, hframes⟩) (congrArg (w :: ·) hwaiting) hupvalues hcaptured
    | inner hwaiting h =>
      refine .inner (fun span hmem => ?_) h
      obtain rfl | hmem := List.mem_cons.1 hmem
      · cases hw
      · exact hwaiting span hmem
  · cases hfunctions <;> exact hbindings
  · cases hfunctions <;> exact hheap

/-! ### Declarations -/

/-- The two states differ in their functions only. -/
theorem InStep.exists_functions {s' : CompileState} (h : g.InStep s s') :
    ∃ fns, s' = { s with functions := fns } ∧ g.Functions s.functions fns := by
  obtain ⟨fns, bindings, heap⟩ := s'
  obtain ⟨hfunctions, hbindings, hheap⟩ := h
  refine ⟨fns, ?_, hfunctions⟩
  rw [← hbindings, ← hheap]

theorem modify_similar {k : CompileState → CompileState}
    (hk : ∀ s fns, k { s with functions := fns } = { k s with functions := fns }) :
    g.Similar (modify k : Compiling PUnit) := by
  intro s s' h
  obtain ⟨fns, rfl, hfns⟩ := h.exists_functions
  have hleft : k s = { k s with functions := s.functions } := hk s s.functions
  have hright : k { s with functions := fns } = { k s with functions := fns } := hk s fns
  refine .ok trivial ⟨?_, ?_, ?_⟩
  · rw [hleft, hright]
    exact hfns
  · rw [hright]
  · rw [hright]

theorem modifyBinding_similar (k : Binding → Binding) : g.Similar (modifyBinding id k) :=
  modify_similar fun _ _ => rfl

theorem newBinding_similar (b : Binding) : g.Similar (newBinding b) := by
  intro s s' h
  obtain ⟨fns, rfl, hfns⟩ := h.exists_functions
  exact .ok trivial ⟨hfns, rfl, rfl⟩

theorem binding_similar : g.Similar (Compiling.binding id) := by
  intro s s' h
  obtain ⟨fns, rfl, hfns⟩ := h.exists_functions
  exact .ok trivial ⟨hfns, rfl, rfl⟩

theorem declare_similar : g.Similar (declare id) :=
  (binding_similar id).bind fun _ => modifyCurrent_similar (by constructor <;> intros <;> rfl)

theorem bindValue_similar (v : Value) : g.Similar (bindValue id v) := by
  refine (binding_similar id).bind fun b => .ite (fun _ _ _ => .error) ?_
  dsimp only
  split
  · exact (modify_similar fun _ _ => rfl).bind fun _ => modifyBinding_similar _ _
  · exact modifyBinding_similar _ _

theorem markForward_similar : g.Similar (markForward id) := by
  refine (binding_similar id).bind fun b => ?_
  split
  · refine .ite ?_ (modifyBinding_similar _ _)
    intro s s' h
    obtain ⟨fns, rfl, hfns⟩ := h.exists_functions
    exact .ok trivial ⟨hfns, rfl, rfl⟩
  · exact .pure trivial
  · exact fun _ _ _ => .error

/-! ### Names -/

/-- A name is found in the same place: the function around the inline expression has no names. -/
theorem Functions.lookupOuter_eq (h : g.Functions fns fns')
    (bindings : Array Binding) (name : Bytes) (level : Nat) (constantOnly : Bool) :
    lookupOuter bindings name level constantOnly fns' =
      lookupOuter bindings name level constantOnly fns := by
  induction h generalizing level constantOnly with
  | @body fn frames =>
    simp only [lookupOuter, asConstant]
    split
    · rfl
    · simp [lookupIn, around]
  | inner hwaiting h ih => simp only [lookupOuter, ih]

theorem level_lt_of_lookupOuter {bindings : Array Binding} {name : Bytes} {level : Nat}
    {constantOnly : Bool} {fns : List FunctionState} {id : BindingId} {found : Nat} {only : Bool}
    (h : lookupOuter bindings name level constantOnly fns = some (id, found, only)) :
    found < level + fns.length := by
  fun_induction lookupOuter bindings name level constantOnly fns with
  | case1 => cases h
  | case2 level constantOnly fn rest id hid =>
    cases h
    simp
  | case3 level constantOnly fn rest hnone ih =>
    have := ih h
    simp only [List.length_cons]
    omega

theorem Functions.captureIn (h : g.Functions fns fns')
    (id : BindingId) (source : Int) {level : Nat} (hlevel : level < fns.length) :
    (Compiling.captureIn id source level fns').1 = (Compiling.captureIn id source level fns).1 ∧
      g.Functions (Compiling.captureIn id source level fns).2
        (Compiling.captureIn id source level fns').2 := by
  induction h generalizing level with
  | body hframes hwaiting hupvalues hcaptured =>
    obtain rfl : level = 0 := by simpa using hlevel
    exact ⟨rfl, .body hframes hwaiting hupvalues hcaptured⟩
  | @inner fn fns fns' hwaiting h ih =>
    cases level with
    | zero => exact ⟨rfl, .inner hwaiting h⟩
    | succ level =>
      obtain ⟨hsource, hrest⟩ := ih (Nat.lt_of_succ_lt_succ hlevel)
      simp only [Compiling.captureIn]
      split
      · exact ⟨rfl, .inner hwaiting hrest⟩
      · rw [hsource]
        exact ⟨rfl, .inner hwaiting hrest⟩

theorem capture_agree {s' : CompileState} (h : g.InStep s s') (id : BindingId) {level : Nat}
    (hlevel : level < s.functions.length) :
    g.Agree (fun _ => True) (capture id level g.plain s) (capture id level g.inlined s') := by
  obtain ⟨fns, rfl, hfns⟩ := h.exists_functions
  obtain ⟨hsource, hrest⟩ := hfns.captureIn id (s.bindings.getD id default).slot hlevel
  change g.Agree _ (.ok (-1 - (captureIn id (s.bindings.getD id default).slot level s.functions).1) _)
    (.ok (-1 - (captureIn id (s.bindings.getD id default).slot level fns).1) _)
  rw [hsource]
  exact .ok trivial ⟨hrest, rfl, rfl⟩

theorem read_bind {β : Type} {f : Settings → Compiling β} :
    ((read : Compiling Settings) >>= f) c s = f c c s :=
  rfl

theorem plain_globals : g.plain.globals = g.globals := rfl

theorem inlined_globals : g.inlined.globals = g.globals := rfl

theorem binding_bind {β : Type} {f : Binding → Compiling β} {id : BindingId} :
    (Compiling.binding id >>= f) c s = f (s.bindings.getD id default) c s :=
  rfl

theorem functions_of_markForward {id : BindingId} {t : CompileState}
    (h : markForward id c s = .ok () t) : t.functions = s.functions := by
  unfold markForward at h
  rw [binding_bind] at h
  generalize s.bindings.getD id default = b at h
  cases hstate : b.state with
  | unbound =>
    simp only [hstate] at h
    split at h <;> cases h <;> rfl
  | forward =>
    simp only [hstate] at h
    cases h
    rfl
  | bound =>
    simp only [hstate] at h
    cases h

theorem resolve_similar (span : Span) (name : Bytes) : g.Similar (resolve span name) := by
  intro s s' h
  obtain ⟨fns, rfl, hfns⟩ := h.exists_functions
  unfold resolve
  rw [get_bind, get_bind, hfns.lookupOuter_eq]
  dsimp only
  generalize hfound : lookupOuter s.bindings name 0 false s.functions = found
  match found with
  | some (id, level, constantOnly) =>
    have hlevel := level_lt_of_lookupOuter hfound
    rw [Nat.zero_add] at hlevel
    refine Similar.bind_at (binding_similar id _ _ h) fun b t t' hb ht => ?_
    cases hb
    refine Similar.ite_at (fun _ => ?_) fun _ => Similar.ite_at (fun _ => ?_) fun _ => ?_
    · exact Similar.ite (.pure trivial) ((markForward_similar id).bind fun _ =>
        (binding_similar id).bind fun _ => .pure trivial) _ _ ht
    · exact Similar.ite (.pure trivial) ((markForward_similar id).bind fun _ => .pure trivial) _ _ ht
    · refine Similar.ite_at (fun _ => .error) fun _ => Similar.ite_at (fun _ => ?_) fun _ => ?_
      · refine Similar.bind_at (markForward_similar id _ _ ht) fun _ t t' hrun ht => ?_
        rw [← functions_of_markForward hrun] at hlevel
        exact Similar.bind_at (capture_agree ht id hlevel) fun _ _ _ _ ht => .ok trivial ht
      · exact Similar.bind_at (capture_agree ht id hlevel) fun _ _ _ _ ht => .ok trivial ht
  | none =>
    dsimp only
    rw [read_bind, read_bind, plain_globals, inlined_globals]
    match g.globals.lookup name with
    | .error message => exact .error
    | .ok none => exact .error
    | .ok (some v) => exact .ok trivial h

theorem peek?_similar (name : Bytes) : g.Similar (peek? name) := by
  intro s s' h
  obtain ⟨fns, rfl, hfns⟩ := h.exists_functions
  unfold peek?
  rw [get_bind, get_bind, hfns.lookupOuter_eq]
  dsimp only
  match lookupOuter s.bindings name 0 false s.functions with
  | some (id, level, constantOnly) => exact (binding_similar id).bind (fun _ => .pure trivial) _ _ h
  | none =>
    dsimp only
    rw [read_bind, read_bind, plain_globals, inlined_globals]
    match g.globals.lookup name with
    | .error message => exact .ok trivial h
    | .ok v => exact .ok trivial h

end Staging

end StagedScript
