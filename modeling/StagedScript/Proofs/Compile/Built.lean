import StagedScript.Compile.Rule

/-!
# What the rules of the compiler are built from

The rules of the compiler are sequences of a few primitive actions, which branch on what these give.
So a property of actions holds of every rule if it holds of the primitive actions and is kept when
actions are put together.
-/

namespace StagedScript

/-- An error that arises in the compiler itself: it has not passed through any place, and no
cancellation has caused it. -/
structure SourceError.IsOwn (e : SourceError) : Prop where
  trace : e.trace = []
  cause : e.cause ≠ some .cancelled

theorem SourceError.IsOwn.plain (category : Category) (position : Position) (message : Bytes) :
    (SourceError.plain category position message).IsOwn :=
  ⟨rfl, nofun⟩

def Waiting.isFinish : Waiting → Bool
  | .finish .. => true
  | _ => false

def Next.Continues : Next → Prop
  | .done _ => False
  | _ => True

/-- A change of a function that has nothing to do with its frames and what it captures. -/
structure FunctionState.Keeps (k : FunctionState → FunctionState) : Prop where
  waiting : ∀ fn, (k fn).waiting = fn.waiting
  upvalues : ∀ fn, (k fn).upvalues = fn.upvalues
  captured : ∀ fn, (k fn).captured = fn.captured
  commutes : ∀ fn waiting isConstant,
    k { fn with waiting, isConstant } = { k fn with waiting, isConstant }

/-- What a frame or a function says of a declaration: that there is one, or that it is in scope. -/
inductive Mention where
  | known (id : BindingId)
  | inScope (id : BindingId)

/-- Which declarations there are, and which of them may be in scope. -/
abbrev World := Mention → Prop

def ConstantUse.mentions : ConstantUse → List Mention
  | .inline => []
  | .define _ ids => ids.map .known

/-- The declarations that a frame goes on with, and those that it brings back into scope. -/
def Waiting.mentions : Waiting → List Mention
  | .statements b _ => b.scope.map .inScope
  | .handlerBody _ scope _ | .scopedBody _ scope _ => scope.map .inScope
  | .binding _ _ _ ids => ids.map .known
  | .constantCode _ use | .constantValue _ use => use.mentions
  | .condTest _ _ _ _ bound => bound.toList.map .known
  | .condBody _ _ _ _ scope => (scope.getD []).map .inScope
  | .forBody f => f.scope.map .inScope
  | .scopedValue _ scope _ id ids _ _ => (id :: ids).map .known ++ scope.map .inScope
  | _ => []

/-- The labels that a frame has to fix, the next one first. -/
def Waiting.labels : Waiting → List Label
  | .statements b _ => b.guarded.toList.map (·.handler)
  | .handlerTypes h _ | .handlerBody h .. => [h.skip, h.done]
  | .logicLeft _ _ _ l | .logicRight _ l | .exitValue _ _ l => [l]
  | .condTest c _ _ next _ | .condBody c _ _ next _ => [next, c.done]
  | .condElse c => [c.done]
  | .loopBody _ l => [l.exit]
  | .forBody f => [f.loop.next, f.loop.exit, f.ended]
  | .forElse f => [f.loop.exit]
  | .switchCase s _ arms labels => labels.take (arms.length + 1) ++ [s.done]
  | .switchElse s => [s.done]
  | .selectSubject s _ | .selectElse s => [s.done]
  | .selectValue c _ => [c.body, c.next, c.select.done]
  | .selectBody c => [c.next, c.select.done]
  | _ => []

/-- The declaration that a frame will bind, if it is in scope already. -/
def Waiting.binds? : Waiting → Option BindingId
  | .constantCode _ (.define .single ids) | .constantValue _ (.define .single ids)
  | .binding _ .letName .single ids => ids.head?
  | _ => none

namespace FunctionState

/-- The declarations in scope, and those that blocks have reserved. -/
def mentions (fn : FunctionState) : List Mention :=
  fn.scope.map .inScope ++ fn.reserved.map (.known ·.2)

variable {fn : FunctionState} {V : World}

theorem forall_scope (h : ∀ m ∈ fn.mentions, V m) : ∀ m ∈ fn.scope.map .inScope, V m :=
  (List.forall_mem_append.1 h).1

theorem known_of_lookup (h : ∀ m ∈ fn.mentions, V m) {n : Nat} {id : BindingId}
    (hid : fn.reserved.lookup n = some id) : V (.known id) := by
  obtain ⟨l₁, l₂, hreserved, -⟩ := List.lookup_eq_some_iff.1 hid
  exact h _ (List.mem_append_right _ (List.mem_map.2 ⟨(n, id), by simp [hreserved], rfl⟩))

end FunctionState

namespace Compiling

open FunctionState (Keeps)

/-- A property of actions, together with one of what they give, that holds of the primitive actions
and is kept when actions are put together. -/
structure Closed (P : {α : Type} → Compiling α → (α → Prop) → Prop) : Prop where
  pure {α : Type} {a : α} {Q : α → Prop} (ha : Q a) : P (Pure.pure a) Q
  bind {α β : Type} {x : Compiling α} {f : α → Compiling β} {Q : β → Prop}
    (hx : P x fun _ => True) (hf : ∀ a, P (f a) Q) : P (x >>= f) Q
  stuck {α : Type} {Q : α → Prop} : P (throw .stuck : Compiling α) Q
  fail {α : Type} {Q : α → Prop} (e : SourceError) (he : e.IsOwn) :
    P (throw (.error e) : Compiling α) Q
  failShowing {α β : Type} {Q : β → Prop} (e : CompileState → SourceError)
    (he : ∀ s, (e s).IsOwn) (f : α → Compiling β) :
    P (get >>= fun s => (throw (.error (e s)) : Compiling α) >>= f) Q
  current_holds {β : Type} {f : FunctionState → Compiling β} {Q : β → Prop}
    (hview : ∀ fn waiting isConstant, f { fn with waiting, isConstant } = f fn)
    (hf : ∀ fn, P (f fn) Q) : P (current >>= f) Q
  modifyCurrent_holds {k : FunctionState → FunctionState} (hk : Keeps k) :
    P (modifyCurrent k) fun _ => True
  push_holds {w : Waiting} (hw : w.isFinish = false) : P (push w) fun _ => True
  modifyBinding_holds (id : BindingId) (k : Binding → Binding) :
    P (modifyBinding id k) fun _ => True
  newBinding_holds (b : Binding) : P (newBinding b) fun _ => True
  binding_holds (id : BindingId) : P (binding id) fun _ => True
  bindValue_holds (id : BindingId) (v : Value) : P (bindValue id v) fun _ => True
  resolve_holds (span : Span) (name : Bytes) : P (resolve span name) fun _ => True
  peek?_holds (name : Bytes) : P (peek? name) fun _ => True
  beginFunction_holds (span : Span) (params : List Param) (extra named : Bool) (body : Expr)
    (isConstant : Bool) : P (beginFunction span params extra named body isConstant) Next.Continues

/-- A property of an action in a world, of the labels to fix before and after it, and of what it
gives. -/
abbrev Judgement : Type 1 :=
  {α : Type} → World → Compiling α → List Label → List Label → (α → Prop) → Prop

/-- A property of actions that is kept when actions are put together, and that may depend on which
declarations are known, and which of them may be in scope.  A new label is one to fix, until it is
fixed or left to a frame. -/
structure Tracking (P : Judgement) : Prop where
  pure {V : World} {L : List Label} {α : Type} {a : α} {Q : α → Prop} (ha : Q a) :
    P V (Pure.pure a) L L Q
  bind {V : World} {L M N : List Label} {α β : Type} {x : Compiling α} {f : α → Compiling β}
    {Q : β → Prop} (hx : P V x L M fun _ => True) (hf : ∀ a, P V (f a) M N Q) :
    P V (x >>= f) L N Q
  owing {V : World} {L K M : List Label} {α : Type} {x : Compiling α} {Q : α → Prop}
    (hx : P V x K M Q) (hl : L ⊆ K) : P V x L M Q
  stuck {V : World} {L M : List Label} {α : Type} {Q : α → Prop} :
    P V (throw .stuck : Compiling α) L M Q
  fail {V : World} {L M : List Label} {α : Type} {Q : α → Prop} (e : SourceError) (he : e.IsOwn) :
    P V (throw (.error e) : Compiling α) L M Q
  failShowing {V : World} {L M : List Label} {α β : Type} {Q : β → Prop}
    (e : CompileState → SourceError) (he : ∀ s, (e s).IsOwn) (f : α → Compiling β) :
    P V (get >>= fun s => (throw (.error (e s)) : Compiling α) >>= f) L M Q
  current_holds {V : World} {L M : List Label} {β : Type} {f : FunctionState → Compiling β}
    {Q : β → Prop} (hview : ∀ fn waiting isConstant, f { fn with waiting, isConstant } = f fn)
    (hf : ∀ fn V', (∀ m, V m → V' m) → (∀ m ∈ fn.mentions, V' m) → P V' (f fn) L M Q) :
    P V (current >>= f) L M Q
  modifyCurrent_holds {V : World} {L : List Label} {k : FunctionState → FunctionState}
    (hk : Keeps k) (ha : ∀ fn, (k fn).builder.aims = fn.builder.aims)
    (hm : ∀ fn, ∀ m ∈ (k fn).mentions, m ∈ fn.mentions ∨ V m) :
    P V (modifyCurrent k) L L fun _ => True
  newLabel_holds {V : World} {L M : List Label} {β : Type} {Q : β → Prop}
    {f : Label → Compiling β} (hf : ∀ l, P V (f l) (l :: L) M Q) : P V (newLabel >>= f) L M Q
  bindLabel_holds {V : World} {L : List Label} {l : Label} {depth : Int} :
    P V (bindLabel l depth) (l :: L) L fun _ => True
  push_holds {V : World} {L : List Label} {w : Waiting} (hw : w.isFinish = false)
    (hm : ∀ m ∈ w.mentions, V m) : P V (push w) (w.labels ++ L) L fun _ => True
  modifyBinding_holds {V : World} {L : List Label} (id : BindingId) {k : Binding → Binding}
    (hk : ∀ b, ∃ isVariable isReference, k b = { b with isVariable, isReference }) :
    P V (modifyBinding id k) L L fun _ => True
  newBinding_holds {V : World} {L M : List Label} {β : Type} {Q : β → Prop} {b : Binding}
    (hb : b.placeholder = none) {f : BindingId → Compiling β}
    (hf : ∀ id V', (∀ m, V m → V' m) → V' (.known id) → (b.state = .bound → V' (.inScope id)) →
      P V' (f id) L M Q) : P V (newBinding b >>= f) L M Q
  binding_holds {V : World} {L : List Label} (id : BindingId) : P V (binding id) L L fun _ => True
  markBound_holds {V : World} {L M : List Label} {β : Type} {Q : β → Prop} {id : BindingId}
    (hid : V (.known id)) {f : Unit → Compiling β}
    (hf : ∀ V', (∀ m, V m → V' m) → V' (.inScope id) → P V' (f ()) L M Q) :
    P V (markBound id >>= f) L M Q
  bindValue_holds {V : World} {L M : List Label} {β : Type} {Q : β → Prop} {id : BindingId}
    (hid : V (.known id)) (v : Value) {f : Unit → Compiling β}
    (hf : ∀ V', (∀ m, V m → V' m) → V' (.inScope id) → P V' (f ()) L M Q) :
    P V (bindValue id v >>= f) L M Q
  resolve_holds {V : World} {L : List Label} (span : Span) (name : Bytes) :
    P V (resolve span name) L L fun _ => True
  peek?_holds {V : World} {L : List Label} (name : Bytes) : P V (peek? name) L L fun _ => True
  /-- A declaration comes into scope together with the frame that will bind it. -/
  declareOwn_holds {V : World} {L M : List Label} {β : Type} {Q : β → Prop} {pattern : Pattern}
    {ids : List BindingId} {w : Waiting} (hw : w.isFinish = false) (hl : w.labels = [])
    (hm : w.mentions = ids.map .known) (hids : ∀ m ∈ ids.map Mention.known, V m)
    (hbinds : pattern = .single → w.binds? = ids.head?)
    {f : Unit → Compiling β} (hf : ∀ u, P V (f u) L M Q) :
    P V (declareOwn pattern ids >>= fun _ => push w >>= f) L M Q
  beginFunction_holds {V : World} (span : Span) (params : List Param) (extra named : Bool)
    (body : Expr) (isConstant : Bool) :
    P V (beginFunction span params extra named body isConstant) [] [] Next.Continues

namespace Closed

variable {P : {α : Type} → Compiling α → (α → Prop) → Prop} (h : Closed P)

include h

theorem tracking : Tracking fun _ x _ _ Q => P x Q where
  pure := h.pure
  bind := h.bind
  owing hx _ := hx
  stuck := h.stuck
  fail := h.fail
  failShowing := h.failShowing
  current_holds hview hf := h.current_holds hview fun fn =>
    hf fn (fun _ => True) (fun _ _ => trivial) fun _ _ => trivial
  modifyCurrent_holds hk _ _ := h.modifyCurrent_holds hk
  newLabel_holds hf := by
    simp only [newLabel, bind_assoc, pure_bind]
    exact h.current_holds (fun _ _ _ => rfl) fun _ =>
      h.bind (h.modifyCurrent_holds (by constructor <;> intros <;> rfl)) fun _ => hf _
  bindLabel_holds := by
    refine h.current_holds (fun _ _ _ => rfl) fun _ => ?_
    split
    · exact h.stuck
    · exact h.modifyCurrent_holds (by constructor <;> intros <;> rfl)
  push_holds hw _ := h.push_holds hw
  modifyBinding_holds id _ _ := h.modifyBinding_holds id _
  newBinding_holds _ _ hf := h.bind (h.newBinding_holds _) fun id =>
    hf id (fun _ => True) (fun _ _ => trivial) trivial fun _ => trivial
  binding_holds := h.binding_holds
  markBound_holds _ _ hf := h.bind (h.modifyBinding_holds _ _) fun _ =>
    hf (fun _ => True) (fun _ _ => trivial) trivial
  bindValue_holds _ v _ hf := h.bind (h.bindValue_holds _ v) fun _ =>
    hf (fun _ => True) (fun _ _ => trivial) trivial
  resolve_holds := h.resolve_holds
  peek?_holds := h.peek?_holds
  declareOwn_holds {_ _ _ _ _ pattern ids _} hw _ _ _ _ _ hf := by
    refine h.bind ?_ fun _ => h.bind (h.push_holds hw) hf
    unfold declareOwn
    split
    · cases ids with
      | nil => exact h.pure trivial
      | cons id ids =>
        exact h.bind (h.binding_holds id) fun _ =>
          h.modifyCurrent_holds (by constructor <;> intros <;> rfl)
    · exact h.pure trivial
  beginFunction_holds := h.beginFunction_holds

end Closed

namespace Tracking

/-- An action that leaves as many labels to fix as there were. -/
abbrev Keeping (P : Judgement) {α : Type} (V : World) (x : Compiling α) (L : List Label) : Prop :=
  P V x L L fun _ => True

/-- A rule that leaves no labels to fix but those of frames. -/
abbrev Ending (P : Judgement) (V : World) (x : Compiling Next) (L : List Label) : Prop :=
  P V x L [] Next.Continues

variable {P : Judgement} {V : World} (h : Tracking P)

include h

/-! ### Putting actions together -/

variable {span : Span} {ids scope : List BindingId} {line count : Nat}
  {value otherwise body e : Expr} {v : Value} {decls names : List Decl}
  {k : FunctionState → FunctionState} {values rest arms : List Expr} {clauses : List SelectClause}
  {β α : Type} {Q : β → Prop} {f : Unit → Compiling β} {id : BindingId} {c : CondScope}
  {w : Waiting} {o : Opcode} {b : BlockScope} {use : Consumer} {l : LoopScope} {done : Label}
  {slot : Int} {n : Bytes} {later : List CondCase} {p : Option Protected} {labels : List Label}
  {pattern : Pattern} {L M : List Label}

theorem giving {x : Compiling α} {k : α → Value} (hx : P V x L M fun _ => True) :
    P V (x >>= fun a => Pure.pure (.give (k a))) L M Next.Continues :=
  h.bind hx fun _ => h.pure trivial

omit h in
theorem ite {x y : Compiling α} {Q : α → Prop} {q : Prop} [Decidable q] (hx : P V x L M Q)
    (hy : P V y L M Q) : P V (if q then x else y) L M Q := by
  split
  · exact hx
  · exact hy

/-- An action that is left out unless a condition holds, and what follows it. -/
theorem when {q : Prop} [Decidable q] {x : Compiling Unit} (hx : Keeping P V x L)
    (hf : ∀ u, P V (f u) L M Q) : P V (if q then x >>= f else f ()) L M Q :=
  ite (h.bind hx hf) (hf ())

theorem mapM {f : α → Compiling β} {as : List α} (hf : ∀ a, Keeping P V (f a) L) :
    Keeping P V (as.mapM f) L := by
  induction as with
  | nil => exact h.pure trivial
  | cons a as ih =>
    rw [List.mapM_cons]
    exact h.bind (hf a) fun _ => h.bind ih fun _ => h.pure trivial

/-! ### The current function -/

/-- A change of the current function that has nothing to do with declarations and labels. -/
theorem quiet_holds (hk : Keeps k)
    (hm : ∀ fn, (k fn).mentions = fn.mentions ∧ (k fn).builder.aims = fn.builder.aims) :
    Keeping P V (modifyCurrent k) L :=
  h.modifyCurrent_holds hk (fun fn => (hm fn).2) fun fn _ hid => .inl ((hm fn).1 ▸ hid)

theorem restore_holds (hscope : ∀ m ∈ scope.map Mention.inScope, V m) (hk : Keeps k)
    (hr : ∀ fn, (k fn).reserved ⊆ fn.reserved)
    (hs : ∀ fn, (k fn).scope = scope ∧ (k fn).builder.aims = fn.builder.aims) :
    Keeping P V (modifyCurrent k) L := by
  refine h.modifyCurrent_holds hk (fun fn => (hs fn).2) fun fn m hm => ?_
  rw [FunctionState.mentions, (hs fn).1, List.mem_append] at hm
  obtain hm | hm := hm
  · exact .inr (hscope m hm)
  · exact .inl (List.mem_append_right _ (List.map_subset _ (hr fn) hm))

/-- The scope of the current function becomes an earlier one, and what blocks have reserved stays. -/
theorem leave_holds (hscope : ∀ m ∈ scope.map Mention.inScope, V m) (hk : Keeps k)
    (hs : ∀ fn, (k fn).reserved = fn.reserved ∧ (k fn).scope = scope ∧
      (k fn).builder.aims = fn.builder.aims) : Keeping P V (modifyCurrent k) L :=
  h.restore_holds hscope hk (fun fn => (hs fn).1 ▸ List.Subset.refl _) fun fn => (hs fn).2

theorem height_holds : Keeping P V height L :=
  h.current_holds (fun _ _ _ => rfl) fun _ _ _ _ => h.pure trivial

theorem isActive_holds : Keeping P V (isActive p) L :=
  h.current_holds (fun _ _ _ => rfl) fun _ _ _ _ => h.pure trivial

theorem setHeight_holds {n : Int} : Keeping P V (setHeight n) L :=
  h.quiet_holds (by constructor <;> intros <;> rfl) fun _ => ⟨rfl, rfl⟩

theorem push_plain (hw : w.isFinish = false) (hm : w.mentions = []) :
    P V (push w) (w.labels ++ L) L fun _ => True :=
  h.push_holds hw (by simp [hm])

theorem andThen_mentions (hw : w.isFinish = false) (hm : ∀ m ∈ w.mentions, V m) :
    Ending P V (andThen e w) w.labels :=
  h.bind (List.append_nil w.labels ▸ h.push_holds hw hm) fun _ => h.pure trivial

theorem andThen_holds (hw : w.isFinish = false) (hm : w.mentions = []) :
    Ending P V (andThen e w) w.labels :=
  h.andThen_mentions hw (by simp [hm])

/-! ### Emission -/

theorem write_holds (hk : Keeps k)
    (hm : ∀ fn, (k fn).mentions = fn.mentions ∧ (k fn).builder.aims = fn.builder.aims) :
    Keeping P V (write k) L :=
  h.bind (h.quiet_holds hk hm) fun _ => h.current_holds (fun _ _ _ => rfl) fun _ _ _ _ =>
    ite h.stuck (h.pure trivial)

theorem emit_holds {i : Inst} : Keeping P V (emit i) L :=
  h.write_holds (by constructor <;> intros <;> rfl) fun _ => ⟨rfl, rfl⟩

theorem op_holds : Keeping P V (op line o) L := h.emit_holds

theorem opCount_holds {count : Int} : Keeping P V (opCount line o count) L :=
  h.emit_holds

theorem constant_holds : Keeping P V (constant line v) L := by
  unfold constant
  split
  · exact h.op_holds
  · exact h.emit_holds

theorem enter_holds {decls : List DeclInfo} : Keeping P V (enter line decls) L :=
  h.emit_holds

theorem newLabels_holds {n : Nat} {f : List Label → Compiling β}
    (hf : ∀ labels, labels.length = n → P V (f labels) (labels ++ L) M Q) :
    P V (newLabels n >>= f) L M Q := by
  induction n generalizing f L with
  | zero => exact hf [] rfl
  | succ n ih =>
    simp only [newLabels, bind_assoc, pure_bind]
    refine h.newLabel_holds fun l => ih fun labels hn => h.owing (hf _ (by simp [hn])) ?_
    simp

theorem jump_holds {l : Label} {count : Int} : Keeping P V (jump line o l count) L :=
  h.write_holds (by constructor <;> intros <;> rfl) fun _ => ⟨rfl, rfl⟩

theorem activate_holds : Keeping P V (activate line p) L := by
  unfold activate
  split
  · exact h.emit_holds
  · exact h.write_holds (by constructor <;> intros <;> rfl) fun _ => ⟨rfl, rfl⟩

theorem spanOf_holds : Keeping P V (spanOf e) L := by
  unfold spanOf
  split
  · exact h.pure trivial
  · exact h.stuck

/-! ### Declarations -/

theorem declare_holds (hid : V (.inScope id)) : Keeping P V (declare id) L := by
  refine h.bind (h.binding_holds id) fun _ =>
    h.modifyCurrent_holds (by constructor <;> intros <;> rfl) (fun _ => rfl) fun fn m hm => ?_
  obtain rfl | hm := List.mem_cons.1 hm
  · exact .inr hid
  · exact .inl hm

theorem declareNew_holds {b : Binding} (hb : b.placeholder = none) (hbound : b.state = .bound)
    (hf : ∀ u V', (∀ m, V m → V' m) → P V' (f u) L M Q) :
    P V (newBinding b >>= fun id => declare id >>= f) L M Q :=
  h.newBinding_holds hb fun _ V' hV _ hid => h.bind (h.declare_holds (hid hbound)) fun u => hf u V' hV

theorem failAt_holds {Q : α → Prop} {category : Category} {message : Bytes} :
    P V (failAt span category message : Compiling α) L M Q :=
  h.fail _ (.plain _ _ _)

theorem failInternal_holds {Q : α → Prop} {message : Bytes} :
    P V (failInternal message : Compiling α) L M Q :=
  h.fail _ (.plain _ _ _)

theorem constantOf?_holds : Keeping P V (constantOf? e) L := by
  fun_induction constantOf? e with
  | case1 => exact h.pure trivial
  | case2 => exact h.peek?_holds _
  | case3 span parent name ih => exact h.bind ih fun _ => h.pure trivial
  | case4 => exact h.pure trivial

/-! ### Functions -/

theorem prepareCapture_holds {source : Int} :
    Keeping P V (prepareCapture line source id) L := by
  refine h.bind (h.binding_holds id) fun b => ite (h.pure trivial) (ite ?_ (ite ?_ (h.pure trivial)))
  · exact h.bind h.opCount_holds fun _ => h.op_holds
  · exact h.opCount_holds

theorem prepareCaptures_holds {sources : List Int} :
    Keeping P V (prepareCaptures line sources ids) L := by
  fun_induction prepareCaptures line sources ids with
  | case1 source sources id ids ih => exact h.bind h.prepareCapture_holds fun _ => ih
  | case2 => exact h.pure trivial

theorem resumeClosure_holds {types : Option Nat} :
    Ending P V (resumeClosure span types v) [] := by
  unfold resumeClosure
  split
  · refine h.bind h.emit_holds fun _ => ?_
    split
    · exact h.giving h.opCount_holds
    · exact h.pure trivial
  · exact h.failInternal_holds

theorem exitLoop_holds {loop : LoopScope} : Keeping P V (exitLoop line loop) L := by
  have hrest : Keeping P V (do
      let d ← height
      jump line .exit loop.exit (d - 1 - loop.exitDepth)
      setHeight d) L :=
    h.bind h.height_holds fun _ => h.bind h.jump_holds fun _ => h.setHeight_holds
  exact h.bind h.isActive_holds fun _ => ite (h.bind h.activate_holds fun _ => hrest) hrest

theorem eachElement_holds : Keeping P V (eachElement line) L :=
  h.bind h.height_holds fun _ => h.newLabel_holds fun _ => h.bind h.jump_holds fun _ =>
    h.newLabel_holds fun _ => h.bind h.bindLabel_holds fun _ =>
    h.bind h.opCount_holds fun _ => h.bind h.opCount_holds fun _ =>
    h.bind h.opCount_holds fun _ => h.bind h.op_holds fun _ =>
    h.bind h.op_holds fun _ => h.bind h.jump_holds fun _ =>
    h.bind h.jump_holds fun _ => h.bind h.bindLabel_holds fun _ => h.op_holds

theorem consume_holds {n : Nat} : Ending P V (consume span use n) [] := by
  unfold consume
  cases use with
  | call => exact h.giving h.opCount_holds
  | constCall fn => exact h.giving h.emit_holds
  | resolve name => exact h.giving h.emit_holds
  | not => exact h.giving h.op_holds
  | sequence kind => cases kind <;> exact h.giving h.opCount_holds
  | map => exact h.giving h.opCount_holds
  | suspend => exact h.bind h.opCount_holds fun _ => h.giving h.op_holds
  | quote body => exact h.giving h.emit_holds
  | ret =>
    exact h.bind h.height_holds fun _ => h.bind h.op_holds fun _ => h.giving h.setHeight_holds
  | exit =>
    refine h.current_holds (fun _ _ _ => rfl) fun fn _ _ _ => ?_
    cases fn.loops with
    | nil => exact h.giving h.stuck
    | cons loop loops => exact h.giving h.exitLoop_holds
  | each => exact h.giving h.eachElement_holds
  | method params extra body =>
    exact h.bind (h.push_plain rfl rfl) fun _ => h.beginFunction_holds _ _ _ _ _ _

theorem operands_holds {items : List Expr} : Ending P V (operands span use items) [] := by
  cases items with
  | nil => exact h.consume_holds
  | cons e rest => exact h.andThen_holds rfl rfl

theorem resumeOperands_holds : Ending P V (resumeOperands span use count rest) [] := by
  cases rest with
  | nil => exact h.consume_holds
  | cons e rest => exact h.andThen_holds rfl rfl

theorem expand_holds {name : Bytes} {fn : Value} {arity : Int64} {args : List Expr} :
    Ending P V (expand span name fn arity args) [] := by
  unfold expand
  exact h.when h.failAt_holds fun _ => h.bind (h.push_plain rfl rfl) fun _ => h.pure trivial

theorem resumeExpansion_holds : Ending P V (resumeExpansion span v) [] := by
  have hrejected : Ending P V (do failAt span .expansion ("macro returned non-expression " ++
      v.display (← get).heap.shown)) [] :=
    h.failShowing _ (fun _ => .plain _ _ _) Pure.pure
  unfold resumeExpansion
  dsimp only
  split
  · exact ite hrejected (h.andThen_holds rfl rfl)
  · exact hrejected

theorem call_holds {fn : Expr} {args : List Expr} : Ending P V (call span fn args) [] := by
  refine h.bind h.constantOf?_holds fun v => ?_
  split
  · exact h.expand_holds
  · exact h.operands_holds

theorem textParts_holds {parts : List Expr} : Ending P V (textParts span parts) [] := by
  fun_induction textParts span parts with
  | case1 => exact h.giving h.op_holds
  | case2 s chars rest ih => exact h.bind h.emit_holds fun _ => ih
  | case3 e rest => exact h.bind h.spanOf_holds fun _ => h.andThen_holds rfl rfl

theorem name_holds : Ending P V (name span n) [] := by
  refine h.bind (h.resolve_holds span n) fun r => ?_
  split
  · exact h.giving h.constant_holds
  · exact h.giving h.opCount_holds

/-! ### Conditionals, loops and choices -/

theorem resumeLogicLeft_holds {o : Connective} {right : Expr} :
    Ending P V (resumeLogicLeft span o right done) [done] :=
  h.bind h.jump_holds fun _ => h.andThen_holds rfl rfl

theorem resumeLogicRight_holds : Ending P V (resumeLogicRight done) [done] :=
  h.bind h.height_holds fun _ => h.giving h.bindLabel_holds

theorem endCond_holds : Ending P V (endCond c) [c.done] :=
  h.giving h.bindLabel_holds

theorem condArms_holds {arms : List CondCase} : Ending P V (condArms c arms) [c.done] := by
  cases arms with
  | nil => exact ite (h.bind h.op_holds fun _ => h.endCond_holds) (h.andThen_holds rfl rfl)
  | cons arm later =>
    refine h.newLabel_holds fun next => ?_
    cases arm.guard with
    | plain => exact h.andThen_holds rfl rfl
    | _ =>
      simp only [bind_assoc, pure_bind]
      exact h.bind h.height_holds fun _ => h.bind h.enter_holds fun _ =>
        h.newBinding_holds rfl fun _ _ _ hid _ =>
          h.andThen_mentions rfl (List.forall_mem_singleton.2 hid)

theorem cond_holds {arms : List CondCase} : Ending P V (cond span arms otherwise) [] :=
  h.newLabel_holds fun _ => h.bind h.height_holds fun _ => h.condArms_holds

theorem resumeCondTest_holds {arm : CondCase} {next : Label} {bound : Option BindingId}
    (hbound : ∀ m ∈ bound.toList.map Mention.known, V m) :
    Ending P V (resumeCondTest c arm later next bound) [next, c.done] := by
  unfold resumeCondTest
  cases bound with
  | none =>
    simp only [pure_bind]
    exact h.bind h.jump_holds fun _ => h.andThen_holds rfl rfl
  | some id =>
    simp only [pure_bind]
    refine h.bind (h.binding_holds id) fun b => h.bind h.opCount_holds fun _ =>
      h.markBound_holds (hbound _ List.mem_cons_self) fun _ _ hid => h.current_holds (fun _ _ _ => rfl)
        fun fn _ hV hfn => ?_
    exact h.bind (h.declare_holds (hV _ hid)) fun _ => h.bind h.jump_holds fun _ =>
      h.andThen_mentions rfl (FunctionState.forall_scope hfn)

theorem resumeCondBody_holds {arm : CondCase} {next : Label} {scope : Option (List BindingId)}
    (hscope : ∀ m ∈ (scope.getD []).map Mention.inScope, V m) :
    Ending P V (resumeCondBody c arm later next scope) [next, c.done] := by
  refine h.bind h.spanOf_holds fun span => ?_
  cases scope with
  | none =>
    exact h.bind h.jump_holds fun _ => h.bind h.bindLabel_holds fun _ => h.condArms_holds
  | some scope =>
    exact h.bind h.opCount_holds fun _ =>
      h.bind (h.leave_holds hscope (by constructor <;> intros <;> rfl) fun _ => ⟨rfl, rfl, rfl⟩) fun _ =>
      h.bind h.jump_holds fun _ => h.bind h.bindLabel_holds fun _ =>
      h.bind h.op_holds fun _ => h.condArms_holds

theorem loop_holds : Ending P V (loop span body) [] :=
  h.newLabel_holds fun _ => h.newLabel_holds fun _ => h.current_holds (fun _ _ _ => rfl) fun _ _ _ _ =>
    h.bind h.bindLabel_holds fun _ => h.bind (h.quiet_holds (by constructor <;> intros <;> rfl)
      fun _ => ⟨rfl, rfl⟩) fun _ => h.andThen_holds rfl rfl

theorem resumeLoopBody_holds : Ending P V (resumeLoopBody span l) [l.exit] :=
  h.bind h.op_holds fun _ => h.bind h.jump_holds fun _ =>
    h.bind (h.quiet_holds (by constructor <;> intros <;> rfl) fun _ => ⟨rfl, rfl⟩) fun _ =>
    h.giving h.bindLabel_holds

theorem nextRound_holds : Ending P V (nextRound span) [] := by
  refine h.current_holds (fun _ _ _ => rfl) fun fn V _ _ => ?_
  cases fn.loops with
  | nil => exact h.failAt_holds
  | cons l loops =>
    have hrest : Ending P V (do
        let d ← height
        jump span.first .goto l.next (d - l.nextDepth)
        setHeight (d + 1)
        return Next.give .nil) [] :=
      h.bind h.height_holds fun _ => h.bind h.jump_holds fun _ => h.giving h.setHeight_holds
    exact h.bind h.isActive_holds fun _ => ite (h.bind h.activate_holds fun _ => hrest) hrest

theorem exitTest_holds {test : ExitTest} {condition : Expr} :
    Ending P V (exitTest span test condition value) [] := by
  refine h.current_holds (fun _ _ _ => rfl) fun fn _ _ _ => ?_
  cases fn.loops with
  | nil => exact h.failAt_holds
  | cons l loops => exact h.andThen_holds rfl rfl

theorem endExitTest_holds {stay : Label} : Ending P V (endExitTest span l stay) [stay] :=
  h.bind h.exitLoop_holds fun _ => h.bind h.height_holds fun _ => h.bind h.bindLabel_holds fun _ =>
    h.giving h.op_holds

theorem resumeExitCond_holds {test : ExitTest} :
    Ending P V (resumeExitCond span test value l) [] :=
  h.newLabel_holds fun _ => h.bind h.jump_holds fun _ =>
    ite (h.bind h.op_holds fun _ => h.endExitTest_holds) (h.andThen_holds rfl rfl)

theorem declareLoopNames_holds : Keeping P V (declareLoopNames slot names) L := by
  induction names generalizing slot V with
  | nil => exact h.pure trivial
  | cons d names ih => exact h.declareNew_holds rfl rfl fun _ _ _ => ih

theorem endFor_holds {f : ForScope} : Ending P V (endFor f) [f.loop.exit] :=
  h.giving h.bindLabel_holds

theorem resumeForSequence_holds {key : Option Decl} {unpack : Bool} :
    Ending P V (resumeForSequence span key names unpack body otherwise) [] := by
  refine h.bind h.height_holds fun _ => h.newLabel_holds fun _ => h.bind h.jump_holds fun _ =>
    h.newLabel_holds fun _ => h.newLabel_holds fun _ =>
      h.current_holds (fun _ _ _ => rfl) fun _ _ _ hfn =>
    h.newLabel_holds fun _ => h.bind h.bindLabel_holds fun _ => h.bind h.height_holds fun _ => ?_
  refine h.when h.opCount_holds fun _ => h.bind h.opCount_holds fun _ =>
    h.when h.opCount_holds fun _ => h.bind h.height_holds fun _ => ?_
  dsimp only
  split
  · exact h.bind h.declareLoopNames_holds fun _ => h.bind h.declareLoopNames_holds fun _ =>
      h.bind (h.quiet_holds (by constructor <;> intros <;> rfl) fun _ => ⟨rfl, rfl⟩) fun _ =>
        h.andThen_mentions rfl (FunctionState.forall_scope hfn)
  · exact h.bind h.declareLoopNames_holds fun _ =>
      h.bind (h.quiet_holds (by constructor <;> intros <;> rfl) fun _ => ⟨rfl, rfl⟩) fun _ =>
      h.andThen_mentions rfl (FunctionState.forall_scope hfn)

theorem resumeForBody_holds {f : ForScope} (hscope : ∀ m ∈ f.scope.map Mention.inScope, V m) :
    Ending P V (resumeForBody f) [f.loop.next, f.loop.exit, f.ended] := by
  have hended : Ending P V (do
      bindLabel f.ended f.depth
      if f.otherwise.isAbsent then
        op f.span.last .nil
        endFor f
      else andThen f.otherwise (.forElse f)) [f.ended, f.loop.exit] :=
    h.bind h.bindLabel_holds fun _ => ite (h.bind h.op_holds fun _ => h.endFor_holds)
      (h.andThen_holds rfl rfl)
  exact h.bind h.op_holds fun _ => h.bind (h.leave_holds hscope (by constructor <;> intros <;> rfl)
    fun _ => ⟨rfl, rfl, rfl⟩) fun _ =>
    h.when h.jump_holds fun _ => h.bind h.bindLabel_holds fun _ =>
    h.bind h.jump_holds fun _ => h.bind h.jump_holds fun _ => h.owing hended (by simp)

theorem endSwitch_holds {c : SwitchScope} : Ending P V (endSwitch c) [c.done] :=
  h.giving h.bindLabel_holds

theorem switchCases_holds {c : SwitchScope} :
    Ending P V (switchCases c arms labels) (labels.take (arms.length + 1) ++ [c.done]) := by
  match arms, labels with
  | _ :: _, _ :: _ =>
    exact h.bind h.bindLabel_holds fun _ => h.bind h.spanOf_holds fun _ => h.andThen_holds rfl rfl
  | [], _ :: _ =>
    exact h.bind h.bindLabel_holds fun _ =>
      ite (h.bind h.op_holds fun _ => h.endSwitch_holds) (h.andThen_holds rfl rfl)
  | [], [] | _ :: _, [] => exact h.stuck

theorem resumeSwitchSubject_holds :
    Ending P V (resumeSwitchSubject span arms otherwise) [] :=
  h.newLabels_holds fun labels hn => h.bind (h.write_holds (by constructor <;> intros <;> rfl)
    fun _ => ⟨rfl, rfl⟩) fun _ => h.bind h.height_holds fun _ =>
    h.newLabel_holds fun _ => h.owing h.switchCases_holds (by simp [← hn])

theorem resumeSwitchCase_holds {c : SwitchScope} : Ending P V (resumeSwitchCase c line arms labels)
    (labels.take (arms.length + 1) ++ [c.done]) :=
  h.bind h.jump_holds fun _ => h.switchCases_holds

theorem endSelect_holds {c : SelectScope} : Ending P V (endSelect c) [c.done] :=
  h.bind h.opCount_holds fun _ => h.giving h.bindLabel_holds

theorem selectValues_holds {c : ClauseScope} :
    Ending P V (selectValues c values) [c.body, c.next, c.select.done] := by
  cases values with
  | nil => exact h.bind h.jump_holds fun _ => h.bind h.bindLabel_holds fun _ => h.andThen_holds rfl rfl
  | cons v rest => exact h.bind h.opCount_holds fun _ => h.andThen_holds rfl rfl

theorem selectClauses_holds {c : SelectScope} :
    Ending P V (selectClauses c clauses) [c.done] := by
  cases clauses with
  | nil => exact ite (h.bind h.op_holds fun _ => h.endSelect_holds) (h.andThen_holds rfl rfl)
  | cons clause later =>
    exact h.newLabel_holds fun _ => h.newLabel_holds fun _ => h.owing h.selectValues_holds (by simp)

theorem select_holds {subject : Expr} :
    Ending P V (select span subject clauses otherwise) [] :=
  h.bind h.height_holds fun _ => h.newLabel_holds fun _ => h.bind h.enter_holds fun _ =>
    (h.andThen_holds rfl rfl)

theorem resumeSelectSubject_holds {c : SelectScope} :
    Ending P V (resumeSelectSubject c clauses) [c.done] :=
  h.bind h.opCount_holds fun _ => h.bind h.op_holds fun _ => h.selectClauses_holds

theorem resumeSelectValue_holds {c : ClauseScope} :
    Ending P V (resumeSelectValue c rest) [c.body, c.next, c.select.done] :=
  h.bind h.emit_holds fun _ => h.bind h.jump_holds fun _ => h.selectValues_holds

theorem resumeSelectBody_holds {c : ClauseScope} :
    Ending P V (resumeSelectBody c) [c.next, c.select.done] :=
  h.bind h.opCount_holds fun _ => h.bind h.jump_holds fun _ => h.bind h.bindLabel_holds fun _ =>
    h.selectClauses_holds

/-! ### Blocks and handlers -/

theorem reserve_holds {source : Bytes} {make : Decl → Int → Binding}
    (hmake : ∀ d slot, (make d slot).placeholder = none) {seen : List (Bytes × Nat)} :
    Keeping P V (reserve source make seen slot decls) L := by
  induction decls generalizing seen slot V with
  | nil => exact h.pure trivial
  | cons d decls ih =>
    have hreserved (id : BindingId) (V' : World) (hid : V' (.known id)) :
        Keeping P V' (modifyCurrent fun fn =>
        { fn with reserved := (d.id, id) :: fn.reserved }) L := by
      refine h.modifyCurrent_holds (by constructor <;> intros <;> rfl) (fun _ => rfl) fun fn m hm => ?_
      simp only [FunctionState.mentions, List.map_cons, List.mem_append, List.mem_cons] at hm ⊢
      obtain hm | rfl | hm := hm
      · exact .inl (.inl hm)
      · exact .inr hid
      · exact .inl (.inr hm)
    simp only [reserve]
    split
    · exact h.fail _ (.plain _ _ _)
    · exact h.newBinding_holds (hmake d slot) fun id V' _ hid _ =>
        h.bind (hreserved id V' hid) fun _ => h.bind ih fun _ => h.pure trivial

theorem handlerBody_holds {scope : HandlerScope} :
    Ending P V (handlerBody scope) [scope.skip, scope.done] := by
  refine h.current_holds (fun _ _ _ => rfl) fun fn V' _ hfn => ?_
  extract_lets body
  have hbody : ∀ u V'', (∀ m, V' m → V'' m) →
      Ending P V'' (body u) [scope.skip, scope.done] := fun _ _ hV =>
    h.bind (h.quiet_holds (by constructor <;> intros <;> rfl) fun _ => ⟨rfl, rfl⟩) fun _ =>
      h.andThen_mentions rfl fun m hm => hV m (FunctionState.forall_scope hfn m hm)
  exact ite (h.declareNew_holds rfl rfl hbody) (hbody () V' fun _ => id)

theorem handlerClauses_holds {guarded : Protected} {clauses : List Handler} :
    Ending P V (handlerClauses span guarded done clauses) [done] := by
  cases clauses with
  | nil => exact h.bind h.op_holds fun _ => h.giving h.bindLabel_holds
  | cons clause later =>
    refine h.newLabel_holds fun _ => ?_
    dsimp only
    split
    · exact h.handlerBody_holds
    · exact h.andThen_holds rfl rfl

theorem resumeHandlerTypes_holds {scope : HandlerScope} :
    Ending P V (resumeHandlerTypes scope rest) [scope.skip, scope.done] := by
  cases rest with
  | nil => exact h.bind h.jump_holds fun _ => h.handlerBody_holds
  | cons e rest => exact h.andThen_holds rfl rfl

theorem resumeHandlerBody_holds {handler : HandlerScope}
    (hscope : ∀ m ∈ scope.map Mention.inScope, V m) {outer : Option Protected} :
    Ending P V (resumeHandlerBody handler scope outer) [handler.skip, handler.done] :=
  h.bind h.opCount_holds fun _ => h.bind (h.leave_holds hscope (by constructor <;> intros <;> rfl)
    fun _ => ⟨rfl, rfl, rfl⟩) fun _ =>
    h.bind h.jump_holds fun _ => h.bind h.bindLabel_holds fun _ =>
    h.handlerClauses_holds

theorem closeBlock_holds (hscope : ∀ m ∈ b.scope.map Mention.inScope, V m) :
    Ending P V (closeBlock b) (b.guarded.toList.map (·.handler)) := by
  refine h.bind (h.restore_holds hscope (by constructor <;> intros <;> rfl)
    (fun _ => List.filter_sublist.subset)
    fun _ => ⟨rfl, rfl⟩) fun _ => ?_
  dsimp only
  split
  · rename_i hguarded
    rw [hguarded]
    exact h.pure trivial
  · rename_i guarded hguarded
    rw [hguarded]
    exact h.bind (h.quiet_holds (by constructor <;> intros <;> rfl) fun _ => ⟨rfl, rfl⟩) fun _ =>
      h.current_holds (fun _ _ _ => rfl) fun _ _ _ _ => h.newLabel_holds fun done =>
      h.bind h.activate_holds fun _ => h.bind h.jump_holds fun _ =>
      h.owing (K := [guarded.handler, done]) (h.bind h.bindLabel_holds fun _ =>
      h.bind h.activate_holds fun _ => h.handlerClauses_holds) (by simp)

theorem endBlock_holds (hscope : ∀ m ∈ b.scope.map Mention.inScope, V m) :
    Ending P V (endBlock b) (b.guarded.toList.map (·.handler)) :=
  h.when h.opCount_holds fun _ => h.closeBlock_holds hscope

theorem block_holds {vars lets defs : List Decl} {body : List Expr} {handlers : List Handler} :
    Ending P V (block span vars lets defs body handlers) [] := by
  refine h.current_holds (fun _ _ _ => rfl) fun fn V' _ hfn => ?_
  extract_lets scope statements
  have hstatements : ∀ guarded : Option Protected, Ending P V' (statements guarded)
      (guarded.toList.map (·.handler)) := fun guarded => by
    refine h.bind h.height_holds fun base => h.bind (h.reserve_holds (fun _ _ => rfl)) fun _ =>
      h.bind (h.reserve_holds (fun _ _ => rfl)) fun _ =>
      h.bind (h.reserve_holds (fun _ _ => rfl)) fun _ => h.when h.enter_holds fun _ => ?_
    cases body with
    | nil =>
      exact h.bind h.op_holds fun _ => h.endBlock_holds (FunctionState.forall_scope hfn)
    | cons e rest => exact h.andThen_mentions rfl (FunctionState.forall_scope hfn)
  refine ite (pure_bind (m := Compiling) none statements ▸ hstatements none) ?_
  simp only [pure_bind]
  exact h.newLabel_holds fun _ => h.newLabel_holds fun _ => h.bind h.height_holds fun _ =>
    h.bind h.bindLabel_holds fun _ => h.bind h.jump_holds fun _ =>
      h.bind (h.quiet_holds (by constructor <;> intros <;> rfl) fun _ => ⟨rfl, rfl⟩) fun _ =>
    hstatements (some _)

theorem resumeStatements_holds (hscope : ∀ m ∈ b.scope.map Mention.inScope, V m) :
    Ending P V (resumeStatements b rest) (b.guarded.toList.map (·.handler)) := by
  cases rest with
  | nil => exact h.endBlock_holds hscope
  | cons e rest =>
    exact h.bind h.spanOf_holds fun _ => h.bind h.op_holds fun _ => h.andThen_mentions rfl hscope

/-! ### Declarations and constants -/

theorem reservedIds_holds {f : List BindingId → Compiling β}
    (hf : ∀ ids V', (∀ m, V m → V' m) → (∀ m ∈ ids.map Mention.known, V' m) →
      P V' (f ids) L M Q) : P V (reservedIds decls >>= f) L M Q := by
  simp only [reservedIds, bind_assoc]
  refine h.current_holds (fun _ _ _ => rfl) fun fn V' hV hfn => ?_
  replace hf := fun ids => hf ids V' hV
  clear hV
  induction decls generalizing f with
  | nil => exact pure_bind (m := Compiling) [] f ▸ hf [] (by simp)
  | cons d decls ih =>
    simp only [List.mapM_cons, bind_assoc, pure_bind]
    split
    · rename_i id hid
      rw [pure_bind]
      exact ih fun ids hids => hf _ (List.forall_mem_cons.2
        ⟨FunctionState.known_of_lookup hfn hid, hids⟩)
    · exact h.failInternal_holds

theorem modifyEach_holds {k : Binding → Binding}
    (hk : ∀ b, ∃ isVariable isReference, k b = { b with isVariable, isReference }) :
    Keeping P V (modifyEach k ids) L := by
  induction ids with
  | nil => exact h.pure trivial
  | cons id ids ih => exact h.bind (h.modifyBinding_holds _ hk) fun _ => ih

theorem bind_holds {binder : Binder} :
    Ending P V (Compiling.bind span binder pattern decls value) [] := by
  refine h.reservedIds_holds fun ids V' _ hids =>
    h.when (h.modifyEach_holds (fun _ => ⟨_, _, rfl⟩)) fun _ => ?_
  cases binder with
  | constant =>
    exact h.declareOwn_holds rfl rfl rfl hids (by rintro rfl; rfl) fun _ =>
      h.beginFunction_holds _ _ _ _ _ _
  | letName => exact h.declareOwn_holds rfl rfl rfl hids (by rintro rfl; rfl) fun _ => h.pure trivial
  | _ => exact h.andThen_mentions rfl hids

theorem storeEach_holds : Keeping P V (storeEach line o ids) L := by
  induction ids with
  | nil => exact h.pure trivial
  | cons id ids ih =>
    exact h.bind (h.binding_holds id) fun _ => h.bind h.opCount_holds fun _ =>
      h.bind h.op_holds fun _ => ih

theorem declareEach_holds (hids : ∀ m ∈ ids.map Mention.known, V m) :
    Keeping P V (declareEach ids) L := by
  induction ids generalizing V with
  | nil => exact h.pure trivial
  | cons id ids ih =>
    obtain ⟨hid, hids⟩ := List.forall_mem_cons.1 hids
    exact h.markBound_holds hid fun _ hV hid => h.bind (h.declare_holds hid) fun _ => ih fun m hm =>
      hV m (hids m hm)

theorem resumeBinding_holds {binder : Binder} (hids : ∀ m ∈ ids.map Mention.known, V m) :
    Ending P V (resumeBinding span binder pattern ids) [] := by
  have hunpack (o : Compiling Unit) (ho : P V o [] [] fun _ => True) : Ending P V (do
      o
      storeEach span.first (storeOp binder) ids.reverse
      declareEach ids
      return Next.give .nil) [] :=
    h.bind ho fun _ => h.bind h.storeEach_holds fun _ => h.giving (h.declareEach_holds hids)
  unfold resumeBinding
  dsimp only
  split
  · have hid := (List.forall_mem_cons.1 hids).1
    exact h.bind (h.binding_holds _) fun _ => ite
      (h.bind h.opCount_holds fun _ => h.bindValue_holds hid _ fun _ _ _ => h.pure trivial)
      (h.bind h.opCount_holds fun _ => h.markBound_holds hid fun _ _ hid =>
        h.giving (h.declare_holds hid))
  · exact h.giving h.stuck
  · refine h.bind h.op_holds fun _ => ite (hunpack _ h.opCount_holds) ?_
    refine h.bind (h.mapM fun id => ?_) fun _ => hunpack _ h.emit_holds
    rw [← bind_pure_comp]
    exact h.bind (h.binding_holds id) fun _ => h.pure trivial

theorem resumeConstantCode_holds {use : ConstantUse} (hids : ∀ m ∈ use.mentions, V m) :
    Ending P V (resumeConstantCode span use v) [] := by
  unfold resumeConstantCode
  split
  · exact h.bind (h.push_holds rfl hids) fun _ => h.pure trivial
  · exact h.failInternal_holds

theorem define_holds (hid : V (.known id))
    (hf : ∀ u V', (∀ m, V m → V' m) → P V' (f u) L M Q) :
    P V (bindValue id v >>= fun _ => declare id >>= f) L M Q :=
  h.bindValue_holds hid v fun V' hV hid => h.bind (h.declare_holds hid) fun u => hf u V' hV

theorem defineEach_holds (hids : ∀ m ∈ ids.map Mention.known, V m) {values : List Value} :
    Keeping P V (defineEach ids values) L := by
  induction ids generalizing values V with
  | nil => exact h.pure trivial
  | cons id ids ih =>
    obtain ⟨hid, hids⟩ := List.forall_mem_cons.1 hids
    exact h.define_holds hid fun _ _ hV => ih fun m hm => hV m (hids m hm)

theorem defineMembers_holds (hids : ∀ m ∈ ids.map Mention.known, V m) :
    Keeping P V (defineMembers span v ids) L := by
  induction ids generalizing V with
  | nil => exact h.pure trivial
  | cons id ids ih =>
    obtain ⟨hid, hids⟩ := List.forall_mem_cons.1 hids
    refine h.bind (h.binding_holds id) fun b => ?_
    dsimp only
    split
    · exact h.failShowing _ (fun _ => .plain _ _ _) Pure.pure
    · exact h.define_holds hid fun _ _ hV => ih fun m hm => hV m (hids m hm)

theorem resumeConstantValue_holds {use : ConstantUse} (hids : ∀ m ∈ use.mentions, V m) :
    Ending P V (resumeConstantValue span use v) [] := by
  have hgive (V : World) : Ending P V (do constant span.first v; return Next.give v) [] :=
    h.giving h.constant_holds
  unfold resumeConstantValue
  dsimp only
  split
  · exact hgive V
  · split
    · exact h.bindValue_holds (List.forall_mem_cons.1 hids).1 _ fun _ _ _ => hgive _
    · exact h.bind h.stuck fun _ => hgive V
  · split
    · exact h.bind (h.defineEach_holds hids) fun _ => hgive V
    · exact h.bind (h.defineEach_holds hids) fun _ => hgive V
    · exact h.failShowing _ (fun _ => .plain _ _ _) fun _ => _
  · exact ite (h.bind (h.defineMembers_holds hids) fun _ => hgive V)
      (h.failShowing _ (fun _ => .plain _ _ _) fun _ => _)

theorem scopedBindings_holds {f : List BindingId × List DeclInfo → Compiling β}
    (hf : ∀ r V', (∀ m, V m → V' m) → (∀ m ∈ r.1.map Mention.known, V' m) → P V' (f r) L M Q) :
    P V (scopedBindings slot decls >>= f) L M Q := by
  induction decls generalizing slot V f with
  | nil => exact hf ([], []) V (fun _ => id) (by simp)
  | cons d decls ih =>
    simp only [scopedBindings, bind_assoc, pure_bind]
    refine h.newBinding_holds rfl fun id V' hV hid _ => ih fun r V'' hV' hr => ?_
    exact hf _ V'' (fun m hm => hV' m (hV m hm)) (List.forall_mem_cons.2 ⟨hV' _ hid, hr⟩)

theorem scopedNext_holds (hm : ∀ m ∈ ids.map Mention.known ++ scope.map Mention.inScope, V m) :
    Ending P V (scopedNext span scope count ids values body) [] := by
  cases ids <;> exact h.andThen_mentions rfl hm

theorem scopedNames_holds : Ending P V (scopedNames span decls values body) [] := by
  refine h.current_holds (fun _ _ _ => rfl) fun fn V' _ hfn => h.scopedBindings_holds
    fun r V'' hV hr => h.when h.enter_holds fun _ => h.scopedNext_holds ?_
  exact List.forall_mem_append.2 ⟨hr, fun m hm => hV m (FunctionState.forall_scope hfn m hm)⟩

theorem resumeScopedValue_holds
    (hm : ∀ m ∈ (id :: ids).map Mention.known ++ scope.map Mention.inScope, V m) :
    Ending P V (resumeScopedValue span scope count id ids values body) [] := by
  obtain ⟨hid, hm⟩ := List.forall_mem_cons.1 hm
  exact h.bind (h.binding_holds id) fun _ => h.bind h.opCount_holds fun _ =>
    h.bind h.op_holds fun _ => h.markBound_holds hid fun _ hV hid =>
    h.bind (h.declare_holds hid) fun _ => h.scopedNext_holds (fun m hm' => hV m (hm m hm'))

theorem resumeScopedBody_holds (hscope : ∀ m ∈ scope.map Mention.inScope, V m) :
    Ending P V (resumeScopedBody span scope count) [] := by
  unfold resumeScopedBody
  exact h.when h.opCount_holds fun _ => h.giving
    (h.leave_holds hscope (by constructor <;> intros <;> rfl) fun _ => ⟨rfl, rfl, rfl⟩)

/-! ### Assignments -/

theorem assignValue_holds {old : OldValue} {store : Opcode} {operand : Int} :
    Ending P V (assignValue span value old store operand) [] :=
  h.bind (h.quiet_holds (by constructor <;> intros <;> rfl) fun _ => ⟨rfl, rfl⟩) fun _ =>
    h.andThen_holds rfl rfl

theorem assignThrough_holds : Ending P V (assignThrough span value) [] :=
  h.bind h.op_holds fun _ => h.bind h.height_holds fun _ => h.assignValue_holds

theorem assignName_holds {target : Span} :
    Ending P V (assignName span target n value) [] := by
  refine h.bind (h.resolve_holds target n) fun r => ?_
  extract_lets store
  have hstore : ∀ isReference, Ending P V (store isReference) [] := fun isReference => by
    refine ite (h.bind h.opCount_holds fun _ => h.assignThrough_holds) ?_
    split
    · exact h.assignValue_holds
    · exact h.assignValue_holds
    · exact h.bind (h.modifyBinding_holds _ fun _ => ⟨_, _, rfl⟩) fun _ => h.assignValue_holds
    · exact h.failAt_holds
    · exact h.bind h.constant_holds fun _ => h.assignThrough_holds
  split
  · exact h.bind (h.binding_holds _) fun _ => h.bind (h.pure trivial) hstore
  · exact h.bind (h.pure trivial) hstore

theorem assign_holds {target : Expr} : Ending P V (assign span target value) [] := by
  unfold assign
  split
  · exact h.pure trivial
  · exact h.assignName_holds
  · exact h.andThen_holds rfl rfl

theorem resumeAssignValue_holds {store : Opcode} {operand : Int} :
    Ending P V (resumeAssignValue span store operand) [] :=
  h.bind (h.quiet_holds (by constructor <;> intros <;> rfl) fun _ => ⟨rfl, rfl⟩) fun _ =>
    h.giving h.opCount_holds

/-! ### Expressions -/

theorem old_holds : Ending P V (old span) [] := by
  refine h.current_holds (fun _ _ _ => rfl) fun fn _ _ _ => ?_
  split
  · exact h.failAt_holds
  · exact h.giving h.opCount_holds

theorem member_holds {parent : Expr} : Ending P V (member span e parent n) [] := by
  refine h.bind h.constantOf?_holds fun v => ?_
  split
  · exact h.giving h.constant_holds
  · exact h.operands_holds

theorem exit_holds : Ending P V (Compiling.exit span value) [] :=
  h.current_holds (fun _ _ _ => rfl) fun _ _ _ _ => h.when h.failAt_holds fun _ => h.operands_holds

theorem retry_holds : Ending P V (retry span) [] := by
  refine h.current_holds (fun _ _ _ => rfl) fun fn _ _ _ => ?_
  split
  · exact h.failAt_holds
  · exact h.bind h.height_holds fun _ => h.bind h.jump_holds fun _ => h.giving h.setHeight_holds

/-- Every expression is compiled in the same way up to its first part. -/
theorem dispatch_holds : Ending P V (dispatch e) [] := by
  unfold dispatch
  match e with
  | .absent | .nil .. | .blank .. => exact h.giving h.op_holds
  | .value .. => exact h.giving h.constant_holds
  | .ident .. => exact h.name_holds
  | .old .. => exact h.old_holds
  | .string .. => exact h.bind h.op_holds fun _ => h.textParts_holds
  | .assign .. => exact h.assign_holds
  | .call .. => exact h.call_holds
  | .resolve .. => exact h.member_holds
  | .logic .. => exact h.newLabel_holds fun _ => h.andThen_holds rfl rfl
  | .cond .. => exact h.cond_holds
  | .loop .. => exact h.loop_holds
  | .exitTest .. => exact h.exitTest_holds
  | .exit .. => exact h.exit_holds
  | .next .. => exact h.nextRound_holds
  | .forIn .. | .switch .. => exact h.andThen_holds rfl rfl
  | .block .. => exact h.block_holds
  | .bind .. => exact h.bind_holds
  | .function .. | .inline .. | .generator .. =>
    exact h.bind (h.push_plain rfl rfl) fun _ => h.beginFunction_holds _ _ _ _ _ _
  | .method .. => exact h.bind h.constant_holds fun _ => h.operands_holds
  | .scoped .. => exact h.scopedNames_holds
  | .select .. => exact h.select_holds
  | .unquote .. => exact h.failAt_holds
  | .retry .. => exact h.retry_holds
  | .constCall .. | .not .. | .each .. | .ret .. | .suspend .. | .sequence .. | .map ..
  | .quote .. => exact h.operands_holds

/-- A frame inside a function goes on in the same way. -/
theorem resumeWith_holds (hw : w.isFinish = false) (hm : ∀ m ∈ w.mentions, V m) :
    Ending P V (resumeWith w v) w.labels := by
  unfold resumeWith
  cases w with
  | operands => exact h.resumeOperands_holds
  | textParts => exact h.bind h.opCount_holds fun _ => h.textParts_holds
  | statements => exact h.resumeStatements_holds hm
  | handlerTypes => exact h.resumeHandlerTypes_holds
  | handlerBody => exact h.resumeHandlerBody_holds hm
  | binding => exact h.resumeBinding_holds hm
  | constantCode => exact h.resumeConstantCode_holds hm
  | constantValue => exact h.resumeConstantValue_holds hm
  | assignTarget => exact h.assignThrough_holds
  | assignValue => exact h.resumeAssignValue_holds
  | logicLeft => exact h.resumeLogicLeft_holds
  | logicRight => exact h.resumeLogicRight_holds
  | condTest => exact h.resumeCondTest_holds hm
  | condBody => exact h.resumeCondBody_holds hm
  | condElse => exact h.endCond_holds
  | loopBody => exact h.resumeLoopBody_holds
  | exitCond => exact h.resumeExitCond_holds
  | exitValue => exact h.endExitTest_holds
  | forSequence => exact h.resumeForSequence_holds
  | forBody => exact h.resumeForBody_holds hm
  | forElse => exact h.endFor_holds
  | switchSubject => exact h.resumeSwitchSubject_holds
  | switchCase => exact h.resumeSwitchCase_holds
  | switchElse => exact h.endSwitch_holds
  | selectSubject => exact h.resumeSelectSubject_holds
  | selectValue => exact h.resumeSelectValue_holds
  | selectBody => exact h.resumeSelectBody_holds
  | selectElse => exact h.endSelect_holds
  | scopedValue => exact h.resumeScopedValue_holds hm
  | scopedBody => exact h.resumeScopedBody_holds hm
  | closure => exact h.resumeClosure_holds
  | expansion => exact h.resumeExpansion_holds
  | expanded => exact h.pure trivial
  | finish => cases hw

end Tracking

namespace Closed

variable {P : {α : Type} → Compiling α → (α → Prop) → Prop} (h : Closed P)

include h

theorem op_holds {line : Nat} {o : Opcode} : P (op line o) fun _ => True :=
  h.tracking.op_holds (V := fun _ => True) (L := [])

theorem failInternal_holds {α : Type} {Q : α → Prop} {message : Bytes} :
    P (failInternal message : Compiling α) Q :=
  h.tracking.failInternal_holds (V := fun _ => True) (L := []) (M := [])

theorem prepareCaptures_holds {line : Nat} {sources : List Int} {ids : List BindingId} :
    P (prepareCaptures line sources ids) fun _ => True :=
  h.tracking.prepareCaptures_holds (V := fun _ => True) (L := [])

theorem dispatch_holds {e : Expr} : P (dispatch e) Next.Continues :=
  h.tracking.dispatch_holds (V := fun _ => True)

theorem resumeWith_holds {w : Waiting} (hw : w.isFinish = false) {v : Value} :
    P (resumeWith w v) Next.Continues :=
  h.tracking.resumeWith_holds (V := fun _ => True) hw fun _ _ => trivial

end Closed

end Compiling

end StagedScript
