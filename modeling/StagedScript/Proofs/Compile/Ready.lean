import StagedScript.Proofs.Compile.Name

/-!
# Where an action leaves the compiler

Every action of the compiler ends by saying how to go on: with an expression to compile, with a
value or an answer for what waits, with a call, or with a finished function.  `Ready` says that the
compiler is at a place of typed code from which it can go on so, after a round that a log describes.
-/

namespace StagedScript

/-- The declarations that an expression may bring into scope: those reserved for the names that a
statement binds. -/
def Expr.own (e : Expr) (reserved : List (Nat × BindingId)) : List BindingId :=
  match e with
  | .bind _ _ _ decls _ => decls.filterMap fun d => reserved.lookup d.id
  | _ => []

/-- What waits goes on from a value on top of a layout.  The frames and the records are those of the
round. -/
structure Inside (L : Log) (E : Env) (ws : List Waiting) (x : Context) (k : Layout) : Prop where
  fits : x.Fits E k
  resumes : Resumes E ws L.pins x k
  frames : ws = L.frames

/-- The records of the compiler agree with a context, and what waits goes on from a value on top of
a layout. -/
structure Around (L : Log) (E : Env) (y : Nesting) (x : Context) (k : Layout) : Prop
    extends Inside L E y.waiting x k where
  describes : x.Describes E y

/-- A frame is pushed that takes a value and goes on to what waited before. -/
structure Pushed (L : Log) (E : Env) (y : Nesting) (w : Waiting) (x : Context) (l : Layout) :
    Prop where
  describes : x.Describes E y
  fits : x.Fits E l
  inside : ∃ x' k, w.Takes E x l x' k ∧ Inside L E y.waiting x' k

/-- The innermost frame awaits an answer, and goes on to what waited before. -/
structure Asks (L : Log) (E : Env) (y : Nesting) (w : Waiting) (x : Context) (l : Layout) :
    Prop where
  describes : x.Describes E y
  waiting : y.waiting = w :: L.frames
  inside : ∃ x' k, w.Awaits x l x' k ∧ Inside L E L.frames x' k

/-- A function may be captured by the closure that a frame makes. -/
def Log.CanClose (L : Log) (E : Env) (l : Layout) (w : Waiting) (v : Value) : Prop :=
  ∀ fn, v = .func fn → ∀ span types, w = .closure span types →
    fn ∈ L.finished ∧ ∀ u ∈ fn.upvalues, l.CanCapture E.captures u

/-- The compiler can go on as an action says, after a round. -/
inductive Ready : Log → Next → CompileState → Prop where
  /-- A part of the expression of the round is compiled. -/
  | compile {L E y w x l s e}
      (h : At L E { y with waiting := w :: y.waiting } (.live ⟨l, x.watch⟩) s)
      (hw : Pushed L E y w x l) (hopens : L.Opens w e) (he : e.Sound E.counts) :
      Ready L (.compile e) s
  /-- A statement of the block of the round is compiled. -/
  | statement {L E y w x l s e vars lets defs}
      (h : At L E { y with waiting := w :: y.waiting } (.live ⟨l, x.watch⟩) s)
      (hw : Pushed L E y w x l) (hopens : L.Opens w e) (hstatements : w.isStatements = true)
      (hlevel : x.Declares vars lets defs) (he : e.SoundStatement E.counts vars lets defs) :
      Ready L (.compile e) s
  /-- A value takes the place of its assignment to a blank. -/
  | assigned {L E y x k s span blank e} (h : At L E y (.live ⟨k, x.watch⟩) s)
      (ha : Around L E y x k) (hown : L.own = [])
      (hexpr : L.origin.expr = .assign span (.blank blank) e) (he : e.Sound E.counts) :
      Ready L (.compile e) s
  /-- A value has been computed, and is on the stack.  A statement may have brought names into scope. -/
  | give {L E y x k s v ids} (h : At L E y (.live ⟨.value :: k, x.watch⟩) s)
      (hin : Inside L E y.waiting x k) (hx : (x.declaring ids).Describes E y)
      (hids : ∀ id ∈ ids, id ∈ L.own) : Ready L (.give v) s
  | wait {L E y w x l s call} (h : At L E y (.live ⟨l, x.watch⟩) s) (hw : Asks L E y w x l)
      (hkeeps : L.Keeps w) (hhead : ∀ span types, w ≠ .closure span types)
      (hfn : call.fn.Sound E.counts) (hargs : ∀ v ∈ call.args, v.Sound E.counts) :
      Ready L (.wait call) s
  /-- A function inside of the current one is begun. -/
  | begin {L E y w x k s new records body span L'}
      (hL' : L' = (L.withMarks new).inner w records body span ⟨x.toRecords, []⟩)
      (h : At L' E y (.live ⟨k, x.watch⟩) s) (ha : Around L' E y x k) (hfresh : L'.Fresh s)
      (hnew : L.Emits new) (hkeeps : L.Keeps w) (hbody : body.Sound E.counts) :
      Ready L (.compile body) s
  /-- A function is finished, and the one around it goes on. -/
  | finish {L E y x l s new o outer fn}
      (h : At (.afterInner o outer (fn :: L.finished)) E y (.live ⟨l, x.watch⟩) s)
      (hw : Asks (.afterInner o outer (fn :: L.finished)) E y o.frame x l)
      (houter : L.outer = o :: outer) (hnew : L.Emits new)
      (hlast : L.IsLast) (hone : (L.past ++ new).length = L.began + 1)
      (hmarked : fn.Marked (L.past ++ new) L.bound L.finished) (hfn : fn.Sound E.counts)
      (hcapture : ∀ u ∈ fn.upvalues, l.CanCapture E.captures u) : Ready L (.give (.func fn)) s
  | done {L E y cur s new fn} (h : At L E y cur s) (hnew : L.Emits new) (hlast : L.IsLast)
      (hsize : (L.withMarks new).Counts s) (hmarked : fn.Marked (L.past ++ new) L.bound L.finished)
      (hfn : fn.Sound E.counts) (hparams : fn.params = []) : Ready L (.done fn) s
  /-- The round went on after some instructions got marks. -/
  | later {L next s new} (hnew : L.Emits new) (h : Ready (L.withMarks new) next s) : Ready L next s

inductive Poised (L : Log) : Next → CompileState → Prop where
  | compile {E y x k s e around} (h : At L E y (.live ⟨k, x.watch⟩) s) (ha : Around L E y x k)
      (hown : L.own = []) (horigin : L.origin = ⟨e, L.past.length, none, around⟩)
      (he : e.Sound E.counts) : Poised L (.compile e) s
  /-- The expression of the round is compiled, which is a statement of the innermost block. -/
  | statement {E y x k s e around vars lets defs} (h : At L E y (.live ⟨k, x.watch⟩) s)
      (ha : Around L E y x k) (hown : L.own = e.own y.reserved)
      (horigin : L.origin = ⟨e, L.past.length, none, around⟩) (hlevel : x.Declares vars lets defs)
      (he : e.SoundStatement E.counts vars lets defs) : Poised L (.compile e) s
  /-- A value is given to a frame of the expression. -/
  | give {E y w ws x x' l k s v} (h : At L E y (.live ⟨.value :: l, x.watch⟩) s)
      (hx : x.Describes E y) (hl : x.floor <:+ l) (hy : y.waiting = w :: ws) (hw : w.Takes E x l x' k)
      (hin : Inside L E ws x' k) (hkeeps : L.Keeps w) (hgiven : L.origin.given = some w) :
      Poised L (.give v) s
  /-- The value of a function is given to its end. -/
  | last {E y x l span s v} (h : At L E y (.live ⟨.value :: l, Context.watch x⟩) s)
      (hx : x.Describes E y) (hl : x.floor <:+ l) (hy : y.waiting = [.finish span E.isRoot])
      (hlast : L.IsLast) :
      Poised L (.give v) s
  /-- An answer is given to a frame of the expression. -/
  | answer {E y w x l s v} (h : At L E y (.live ⟨l, x.watch⟩) s) (hw : Asks L E y w x l)
      (hkeeps : L.Keeps w) (hgiven : L.origin.given = some w) (hv : v.Sound E.counts)
      (hcapture : L.CanClose E l w v) : Poised L (.give v) s
  | wait {E y w x l s call} (h : At L E y (.live ⟨l, x.watch⟩) s) (hw : Asks L E y w x l)
      (hkeeps : L.Keeps w) (hgiven : L.origin.given = some w)
      (hhead : ∀ span types, w ≠ .closure span types)
      (hfn : call.fn.Sound E.counts) (hargs : ∀ v ∈ call.args, v.Sound E.counts) :
      Poised L (.wait call) s

variable {L : Log} {E E' : Env} {y : Nesting} {cur : Cursor} {s : CompileState} {c : Settings}
  {x : Context} {l k : Layout} {ws : List Waiting}

theorem Inside.mono (h : Inside L E ws x k) (hE : E.Extends E') : Inside L E' ws x k :=
  ⟨h.fits.mono hE (List.suffix_refl k), h.resumes.mono hE, h.frames⟩

theorem Inside.pin (h : Inside L E ws x k) : ∃ p, L.pins.head? = some p ∧ p.toRecords = x.toRecords := by
  have hres := h.resumes
  cases ws with
  | nil => exact hres.elim
  | cons w ws =>
    obtain ⟨⟨p, hp, hmatches⟩, -⟩ := hres
    exact ⟨p, hp, hmatches.records⟩

theorem Inside.here (h : Inside L E ws x k) : x.watch = L.here := by
  obtain ⟨p, hp, hrecords⟩ := h.pin
  rw [Context.watch, ← hrecords, Draft.here, hp]
  rfl

theorem Around.mono (h : Around L E y x k) (hE : E.Extends E') : Around L E' y x k :=
  ⟨h.toInside.mono hE, h.describes.mono hE⟩

/-- The records of the current function are those of the context. -/
theorem Around.records (h : Around L E y x k) {fn : FunctionState} (hfn : fn.nesting = y) :
    fn.records = x.toRecords := by
  rw [← h.describes.records, ← hfn]
  rfl

theorem Around.floor_suffix (h : Around L E y x k) (hk : k <:+ l) : x.floor <:+ l :=
  h.fits.floor.trans hk

/-- Errors raised above the layout of a construct are caught, by the handler of the round. -/
theorem Inside.catches (h : Inside L E ws x k) (hk : k <:+ l) :
    ∀ l', some l = some l' → x.watch = L.here ∧ x.watch.Catches (E.labels[·]?) l' := by
  rintro _ ⟨⟩
  exact ⟨h.here, h.fits.catches hk⟩

/-- The innermost loop surrounds the expression. -/
theorem Around.surrounds (ha : Around L E y x k) {fn : FunctionState} (hfn : fn.nesting = y)
    {loop : LoopScope} {loops : List LoopScope} (hloops : fn.loops = loop :: loops) :
    loop.Surrounds E k := by
  refine ha.fits.loops loop ?_
  rw [← ha.records hfn, FunctionState.records, hloops]
  exact List.mem_cons_self

theorem Around.reads_old (ha : Around L E y x k) {o : OldValue} {olds : List OldValue}
    (holds : y.olds = o :: olds) : o.Reads E k := by
  apply ha.fits.olds o
  rw [← ha.describes.records, holds]
  exact List.mem_cons_self

theorem Inside.push (h : Inside L E y.waiting x k) {w : Waiting} {x' : Context}
    (hx' : x'.Describes E y) (hl : x'.Fits E l) (hw : w.Takes E x' l x k) : Pushed L E y w x' l :=
  ⟨hx', hl, x, k, hw, h⟩

theorem Inside.ask (h : Inside L E y.waiting x k) {w : Waiting} {x' : Context}
    (hx' : x'.Describes E y) (hw : w.Awaits x' l x k) :
    Asks L E { y with waiting := w :: y.waiting } w x' l :=
  ⟨hx'.withWaiting _, congrArg (w :: ·) h.frames, x, k, hw, h.frames ▸ h⟩

namespace Compiling

theorem andThen_ready {e : Expr} {w : Waiting} (h : At L E y (.live ⟨l, x.watch⟩) s)
    (hw : Pushed L E y w x l) (hopens : L.Opens w e) (he : e.Sound E.counts) :
    Runs c (andThen e w) s (Ready L) :=
  (push_at h w).bind fun _ _ h => .pure (.compile h hw hopens he)

theorem give_ready {v : Value} (h : At L E y (.live ⟨.value :: k, x.watch⟩) s)
    (ha : Around L E y x k) : Runs c (pure (.give v)) s (Ready L) :=
  have hx : (x.declaring []).Describes E y := ha.describes
  .pure (.give h ha.toInside hx nofun)

/-- A construct ends where its value is on the stack. -/
theorem bindDone_ready (h : At L E y cur s) (ha : Around L E y x k) {done : Label} {depth : Int}
    (hcur : ∀ p, cur = .live p → p = ⟨.value :: k, x.watch⟩) (hdone : x.EndsAt E k done)
    (hdepth : depth = k.length + 1) :
    Runs c (do bindLabel done depth; return .give .nil) s (Ready L) := by
  refine Runs.bind (bindLabel_at h hdone ?_ (by simpa using hdepth)) fun _ _ h => give_ready h ha
  intro p hp
  rw [hcur p hp]

theorem constant_at {p : Point Label} (h : At L E y (.live p) s) (line : Nat) {v : Value}
    (hv : v.Sound E.counts) :
    Runs c (constant line v) s fun _ s' => At L E y (.live ⟨.value :: p.layout, p.watch⟩) s' := by
  unfold constant
  split
  · exact emit_at h (.push _ (.inl rfl)) rfl rfl (.plain rfl rfl) nofun
  · exact emit_at h (.push _ (.inr rfl)) rfl rfl ⟨hv, nofun, nofun⟩ nofun

end Compiling

end StagedScript
