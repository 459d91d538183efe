import StagedScript.Proofs.Compile.Block

/-!
# Where the statements of a block end

After a statement of a block with handlers comes another statement, or the statements end with a jump
over the handlers.  The handler is then fixed to the place behind this jump.
-/

namespace StagedScript

/-- Code under construction has grown. -/
structure Builder.Grows (b b' : Builder) : Prop where
  insts : ∀ (k : Nat) i, b.insts[k]? = some i → b'.insts[k]? = some i
  size : b.insts.size ≤ b'.insts.size
  labels : b.aims.size ≤ b'.aims.size
  aims : ∀ (l : Label) a, b.aims[l]? = some (some a) → b'.aims[l]? = some (some a)

namespace Builder.Grows

variable {b b' b'' : Builder}

theorem refl (b : Builder) : b.Grows b := ⟨fun _ _ h => h, le_rfl, le_rfl, fun _ _ h => h⟩

theorem trans (h : b.Grows b') (h' : b'.Grows b'') : b.Grows b'' :=
  ⟨fun k i hi => h'.insts k i (h.insts k i hi), h.size.trans h'.size, h.labels.trans h'.labels,
    fun l a ha => h'.aims l a (h.aims l a ha)⟩

theorem withInst (b : Builder) (i : Inst) (sites : List Site) : b.Grows (b.withInst i sites) where
  insts k j hj := by
    have hk := (Array.getElem?_eq_some_iff.1 hj).1
    rw [Builder.withInst, Array.getElem?_push_lt hk, ← hj, Array.getElem?_eq_getElem hk]
  size := by simp [Builder.withInst]
  labels := le_rfl
  aims _ _ h := h

theorem newLabel (b : Builder) : b.Grows b.newLabel.2 where
  insts _ _ h := h
  size := le_rfl
  labels := by simp [Builder.newLabel]
  aims l a ha := by
    have hl := (Array.getElem?_eq_some_iff.1 ha).1
    rw [Builder.newLabel, Array.getElem?_push_lt hl, ← ha, Array.getElem?_eq_getElem hl]

end Builder.Grows

/-- Frames wait in the current function, and its code has grown. -/
def CompileState.Tops (ws : List Waiting) (b : Builder) (s : CompileState) : Prop :=
  ∃ fn rest, s.functions = fn :: rest ∧ fn.waiting = ws ∧ b.Grows fn.builder

open CompileState

def Next.Compiles (next : Next) : Prop := ∃ e, next = .compile e

open Next

/-- A handler is fixed to the place behind a jump, which comes after some instructions. -/
def Builder.HandlesBehind (b : Builder) (size : Nat) (handler : Label) : Prop :=
  ∃ k i, size ≤ k ∧ b.insts[k]? = some i ∧ i.op = .jump ∧
    b.aims[handler]? = some (some (.place (k + 1)))

namespace Compiling

variable {c : Settings} {s : CompileState} {ws : List Waiting} {b : Builder}

/-! ### Actions that only let code grow -/

variable {block : BlockScope} {f : FunctionState → FunctionState} {p : Protected}

section

variable (h : Tops ws b s)

include h

theorem modifyCurrent_tops
    (hf : ∀ fn, (f fn).waiting = fn.waiting ∧ (f fn).builder = fn.builder) :
    Runs c (modifyCurrent f) s fun _ => Tops ws b := by
  obtain ⟨fn, rest, hs, hws, hb⟩ := h
  refine (modifyCurrent_runs hs).imp ?_
  rintro _ _ rfl
  exact ⟨f fn, rest, rfl, (hf fn).1.trans hws, (hf fn).2 ▸ hb⟩

theorem current_tops : Runs c current s fun _ => Tops ws b := by
  obtain ⟨fn, rest, hs, htops⟩ := h
  refine Runs.get.bind ?_
  rintro _ _ ⟨rfl, rfl⟩
  rw [hs]
  exact .pure ⟨fn, rest, hs, htops⟩

theorem write_tops
    (hf : ∀ fn, (f fn).waiting = fn.waiting ∧ fn.builder.Grows (f fn).builder) :
    Runs c (write f) s fun _ => Tops ws b := by
  obtain ⟨fn, rest, hs, hws, hb⟩ := h
  refine (write_runs hs).imp ?_
  rintro _ _ ⟨-, rfl⟩
  exact ⟨f fn, rest, rfl, (hf fn).1.trans hws, hb.trans (hf fn).2⟩

theorem emit_tops (i : Inst) : Runs c (emit i) s fun _ => Tops ws b := by
  refine write_tops h fun fn => ⟨rfl, ?_⟩
  have := Builder.Grows.withInst fn.builder i []
  simpa [Builder.withInst, Builder.emit, track] using this

theorem activate_tops (line : Nat) (p : Option Protected) :
    Runs c (activate line p) s fun _ => Tops ws b := by
  cases p with
  | none => exact emit_tops h _
  | some p =>
    refine write_tops h fun fn => ⟨rfl, ?_⟩
    have := Builder.Grows.withInst fn.builder { Inst.plain line .install with count := p.depth }
      [⟨fn.builder.insts.size, none, p.handler⟩]
    simpa [Builder.withInst, Builder.emitJump, Builder.emit] using this

theorem newLabel_tops : Runs c newLabel s fun _ => Tops ws b := by
  obtain ⟨fn, rest, hs, hws, hb⟩ := h
  refine current_runs.bind ?_
  rintro _ _ ⟨rfl, _, hs'⟩
  cases hs.symm.trans hs'
  refine (modifyCurrent_runs hs).bind ?_
  rintro _ _ rfl
  exact .pure ⟨_, rest, rfl, hws, hb.trans (.newLabel _)⟩

theorem newBinding_tops (d : Binding) :
    Runs c (newBinding d) s fun _ => Tops ws b := by
  rintro a s' ⟨⟩
  exact h

theorem declare_tops (id : BindingId) :
    Runs c (declare id) s fun _ => Tops ws b := by
  refine Runs.bind (P := fun _ => Tops ws b) ?_ fun d s h => modifyCurrent_tops h fun _ => ⟨rfl, rfl⟩
  refine Runs.get.bind ?_
  rintro _ _ ⟨rfl, rfl⟩
  exact .pure h

theorem andThen_tops (e : Expr) (w : Waiting) :
    Runs c (andThen e w) s fun next s' => Compiles next ∧ Tops (w :: ws) b s' := by
  obtain ⟨fn, rest, hs, hws, hb⟩ := h
  refine (modifyCurrent_runs hs).bind ?_
  rintro _ _ rfl
  exact .pure ⟨⟨e, rfl⟩, _, rest, rfl, congrArg (w :: ·) hws, hb⟩

/-! ### Handlers -/

theorem handlerBody_tops (hs : HandlerScope) :
    Runs c (handlerBody hs) s fun next s' => Compiles next ∧ ∃ w, Tops (w :: ws) b s' := by
  refine (current_tops h).bind fun fn s h => ?_
  have finish : ∀ {s : CompileState}, Tops ws b s → Runs c (do
      modifyCurrent ({ · with handling := some hs.guarded })
      andThen hs.clause.body (.handlerBody hs fn.scope fn.handling)) s
        fun next s' => Compiles next ∧ ∃ w, Tops (w :: ws) b s' := by
    intro s h
    refine Runs.bind (modifyCurrent_tops h ?_) fun _ _ h => ?_
    · exact fun _ => ⟨rfl, rfl⟩
    · exact (andThen_tops h _ _).imp fun _ _ h => ⟨h.1, _, h.2⟩
  refine .ite (fun _ => ?_) fun _ => finish h
  rw [← bind_assoc]
  refine Runs.bind (P := fun _ => Tops ws b) ?_ fun _ _ h => finish h
  exact (newBinding_tops h _).bind fun id _ h => declare_tops h id

theorem handlerClauses_tops (span : Span) (guarded : Protected) (done : Label)
    (clause : Handler) (later : List Handler) :
    Runs c (handlerClauses span guarded done (clause :: later)) s
      fun next s' => Compiles next ∧ ∃ w, Tops (w :: ws) b s' := by
  refine (newLabel_tops h).bind fun skip s h => ?_
  dsimp only
  split
  · exact handlerBody_tops h _
  · exact (andThen_tops h _ _).imp fun _ _ h => ⟨h.1, _, h.2⟩

/-! ### Statements -/

theorem jumpOver_tops (line : Nat) (done : Label) {handler : Label}
    (hhandler : handler < b.aims.size) (depth : Int) :
    Runs c (do jump line .jump done 0; bindLabel handler depth) s fun _ s' =>
      ∃ b', Tops ws b' s' ∧ b'.HandlesBehind b.insts.size handler := by
  obtain ⟨fn, rest, hs, hws, hb⟩ := h
  refine (write_runs hs).bind ?_
  rintro _ _ ⟨-, rfl⟩
  set i : Inst := { Inst.plain line .jump with count := 0 }
  have hgrows := Builder.Grows.withInst fn.builder i [⟨fn.builder.insts.size, none, done⟩]
  refine current_runs.bind ?_
  rintro _ _ ⟨rfl, _, ⟨⟩⟩
  split
  · exact .throw
  · rename_i b' hb'
    refine (modifyCurrent_runs rfl).imp ?_
    rintro _ _ rfl
    have hlt : handler < fn.builder.aims.size := Nat.lt_of_lt_of_le hhandler hb.labels
    refine ⟨b', ⟨_, rest, rfl, hws, .refl _⟩, fn.builder.insts.size, i, hb.size, ?_, rfl, ?_⟩
    · rw [(Builder.bind_same hb').1]
      exact Array.getElem?_push_size
    · have := Builder.bind_place hb' hlt
      simpa [track, Builder.emitJump, Builder.emit] using this

theorem closeBlock_tops (hp : block.guarded = some p)
    (hhandler : p.handler < b.aims.size) (hhandlers : block.handlers ≠ []) :
    Runs c (closeBlock block) s fun next s' => Compiles next ∧ ∃ w b', Tops (w :: ws) b' s' ∧
      b'.HandlesBehind b.insts.size p.handler := by
  unfold closeBlock
  refine Runs.bind (modifyCurrent_tops h ?_) fun _ s h => ?_
  · exact fun _ => ⟨rfl, rfl⟩
  rw [hp]
  refine Runs.bind (modifyCurrent_tops h ?_) fun _ s h => ?_
  · exact fun _ => ⟨rfl, rfl⟩
  refine (current_tops h).bind fun fn s h => ?_
  refine (newLabel_tops h).bind fun done s h => ?_
  refine (activate_tops h _ _).bind fun _ s h => ?_
  rw [← bind_assoc]
  refine (jumpOver_tops h _ done hhandler _).bind ?_
  rintro _ s ⟨b', h, hbehind⟩
  refine (activate_tops h _ _).bind fun _ s h => ?_
  obtain ⟨clause, later, hclauses⟩ := List.exists_cons_of_ne_nil hhandlers
  rw [hclauses]
  refine (handlerClauses_tops h _ p done clause later).imp ?_
  rintro _ s' ⟨hnext, w, h⟩
  exact ⟨hnext, w, b', h, hbehind⟩

/-- After a statement of a block with handlers comes another one, or the statements end. -/
theorem resumeStatements_tops (hp : block.guarded = some p)
    (hhandler : p.handler < b.aims.size) (hhandlers : block.handlers ≠ []) (rest : List Expr) :
    Runs c (resumeStatements block rest) s fun next s' => Compiles next ∧ ∃ w b', Tops (w :: ws) b' s' ∧
      (w.isStatements = true ∨ rest = [] ∧ b'.HandlesBehind b.insts.size p.handler) := by
  cases rest with
  | nil =>
    have hend : Runs c (endBlock block) s fun next s' => Compiles next ∧ ∃ w b', Tops (w :: ws) b' s' ∧
        b'.HandlesBehind b.insts.size p.handler := by
      refine .ite (fun _ => ?_) fun _ => closeBlock_tops h hp hhandler hhandlers
      exact (emit_tops h _).bind fun _ _ h => closeBlock_tops h hp hhandler hhandlers
    refine hend.imp ?_
    rintro _ s' ⟨hnext, w, b', h, hbehind⟩
    exact ⟨hnext, w, b', h, .inr ⟨rfl, hbehind⟩⟩
  | cons e rest =>
    refine (spanOf_runs e).bind ?_
    rintro span _ rfl
    refine (emit_tops h _).bind fun _ s h => ?_
    exact (andThen_tops h _ _).imp fun _ _ h => ⟨h.1, _, b, h.2, .inl rfl⟩

end

theorem resume_tops {rest : List Expr} {fn : FunctionState} {fns : List FunctionState}
    (hs : s.functions = fn :: fns) (hws : fn.waiting = .statements block rest :: ws)
    (hp : block.guarded = some p) (hhandler : p.handler < fn.builder.aims.size)
    (hhandlers : block.handlers ≠ []) (v : Value) :
    Runs c (resume v) s fun next s' => Compiles next ∧ ∃ w b', Tops (w :: ws) b' s' ∧
      (w.isStatements = true ∨ rest = [] ∧ b'.HandlesBehind fn.builder.insts.size p.handler) := by
  refine current_runs.bind ?_
  rintro _ _ ⟨rfl, _, hs'⟩
  cases hs.symm.trans hs'
  rw [hws]
  refine (modifyCurrent_runs hs).bind ?_
  rintro _ _ rfl
  refine resumeStatements_tops ?_ hp hhandler hhandlers rest
  exact ⟨_, fns, rfl, rfl, .refl _⟩

end Compiling

end StagedScript
