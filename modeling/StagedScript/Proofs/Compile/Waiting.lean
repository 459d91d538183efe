import StagedScript.Proofs.Compile.Context

/-!
# What waits for values

A frame that waits for the value of an expression *takes* it on top of a layout, and the construct
that the frame belongs to ends with its own value on top of another layout.  Frames that wait for an
answer of another kind, the code of a function or the result of a call, *await* it with nothing on
the stack.
-/

namespace StagedScript

/-- The operands of a consumer lie on `l`, and its value will lie on `k`. -/
def Consumer.Consumes (E : Env) (count : Nat) (l k : Layout) : Consumer → Prop
  | .call => 0 < count ∧ l = k
  | .constCall fn => fn.Sound E.counts ∧ l = k
  | .resolve _ | .not | .ret | .exit | .each => count = 1 ∧ l = k
  | .sequence _ | .suspend => l = k
  | .map => count % 2 = 0 ∧ l = k
  | .quote body => body.isAbsent = false ∧ body.Sound E.counts ∧ l = k
  | .method _ _ body => body.Sound E.counts ∧ l = .value :: k

section

variable (E : Env) (x : Context) (k : Layout)

def Context.EndsAt (done : Label) : Prop := E.labels[done]? = some ⟨.value :: k, x.watch⟩

/-- The block of a frame, with the declarations that its statements bind. -/
structure BlockScope.Fits (b : BlockScope) (vars lets defs : List Decl) : Prop where
  decls : b.decls = vars ++ lets ++ defs
  scope : b.scope = x.scope
  handlers : Handler.AllSound E.counts b.handlers
  guarded : ∀ p, b.guarded = some p → E.labels[p.handler]? = some ⟨.value :: k, .off⟩ ∧
    E.labels[p.retry]? = some ⟨k, .unknown⟩ ∧ p.depth = k.length

/-- The handler of a frame. The error is on the stack. -/
structure HandlerScope.Fits (h : HandlerScope) : Prop where
  done : x.EndsAt E k h.done
  skip : x.EndsAt E k h.skip
  retry : E.labels[h.guarded.retry]? = some ⟨k, .unknown⟩
  depth : h.guarded.depth = k.length
  body : h.clause.body.Sound E.counts
  later : Handler.AllSound E.counts h.later

structure CondScope.Fits (c : CondScope) : Prop where
  done : x.EndsAt E k c.done
  depth : c.depth = k.length
  otherwise : c.otherwise.Sound E.counts

structure ForScope.Fits (f : ForScope) : Prop where
  exit : x.EndsAt E k f.loop.exit
  next : E.labels[f.loop.next]? = some ⟨.iterator :: k, x.watch⟩
  start : E.labels[f.start]? = some ⟨.iterator :: k, x.watch⟩
  ended : E.labels[f.ended]? = some ⟨k, x.watch⟩
  depth : f.depth = k.length
  scope : f.scope = x.scope
  otherwise : f.otherwise.Sound E.counts

structure SwitchScope.Fits (s : SwitchScope) : Prop where
  done : x.EndsAt E k s.done
  depth : s.depth = k.length
  otherwise : s.otherwise.Sound E.counts

structure SelectScope.Fits (s : SelectScope) : Prop where
  done : x.EndsAt E k s.done
  slot : s.slot = k.length
  otherwise : s.otherwise.Sound E.counts

/-- The alternative of a frame. The subject is on the stack. -/
structure ClauseScope.Fits (c : ClauseScope) : Prop where
  select : c.select.Fits E x k
  body : x.EndsAt E k c.body
  next : x.EndsAt E k c.next
  expr : c.clause.body.Sound E.counts
  later : SelectClause.AllSound E.counts c.later

end

def Context.inBlock (x : Context) (b : BlockScope) (slotted : List Nat) (l : Layout)
    (own : List BindingId) : Context :=
  { x with
    levels := ⟨b.decls.map (·.id), slotted, l, x.scope, own⟩ :: x.levels
    guards := b.guarded.toList ++ x.guards }

def Context.inHandler (x : Context) (guarded : Protected) (l : Layout) : Context :=
  { x.withNames l [] with handling := some guarded }

def Context.inLoop (x : Context) (s : LoopScope) : Context := { x with loops := s :: x.loops }

def Context.inAssign (x : Context) (o : OldValue) : Context := { x with olds := o :: x.olds }

section

variable {E : Env} {x : Context} {y : Nesting} {l : Layout}

theorem Context.Describes.inLoop (h : x.Describes E y) (s : LoopScope) :
    (x.inLoop s).Describes E { y with loops := s :: y.loops } :=
  ⟨congrArg (fun r : Records => { r with loops := s :: r.loops }) h.records, h.names, h.apart⟩

theorem Context.Describes.ofLoop {s : LoopScope} (h : (x.inLoop s).Describes E y) :
    x.Describes E { y with loops := y.loops.drop 1 } :=
  ⟨congrArg (fun r : Records => { r with loops := r.loops.drop 1 }) h.records, h.names, h.apart⟩

theorem Context.Fits.inLoop (h : x.Fits E l) {s : LoopScope} (hs : s.Surrounds E l) :
    (x.inLoop s).Fits E l :=
  { h with loops := List.forall_mem_cons.2 ⟨hs, h.loops⟩ }

theorem Context.Describes.inAssign (h : x.Describes E y) (o : OldValue) :
    (x.inAssign o).Describes E { y with olds := o :: y.olds } :=
  ⟨congrArg (fun r : Records => { r with olds := o :: r.olds }) h.records, h.names, h.apart⟩

theorem Context.Describes.ofAssign {o : OldValue} (h : (x.inAssign o).Describes E y) :
    x.Describes E { y with olds := y.olds.drop 1 } :=
  ⟨congrArg (fun r : Records => { r with olds := r.olds.drop 1 }) h.records, h.names, h.apart⟩

theorem Context.Fits.inAssign (h : x.Fits E l) {o : OldValue} (ho : o.Reads E l) :
    (x.inAssign o).Fits E l :=
  { h with olds := List.forall_mem_cons.2 ⟨ho, h.olds⟩ }

end

/-- A frame takes a value on top of a layout, and goes on up to a value on top of another.  Names that
its construct has brought into scope are known only inside. -/
inductive Waiting.Takes (E : Env) : Waiting → Context → Layout → Context → Layout → Prop where
  | operands {span use count rest x j l k} (hcount : count = j + 1 + rest.length)
      (huse : use.Consumes E count l k) (hrest : Expr.AllSound E.counts rest) :
      Takes E (.operands span use count rest) x (Layout.values j ++ l) x k
  | textParts {span line rest x k} (hrest : Expr.AllSound E.counts rest) :
      Takes E (.textParts span line rest) x (.buffer :: k) x k
  | statements {b rest x k vars lets defs own ids} (hb : b.Fits E x k vars lets defs)
      (hrest : Expr.StatementsSound E.counts vars lets defs rest) :
      Takes E (.statements b rest)
        ((x.inBlock b ((vars ++ lets).map (·.id)) (Layout.values b.slots ++ k) own).declaring ids)
        (Layout.values b.slots ++ k) x k
  | handlerTypes {h rest x j k} (hh : h.Fits E x k)
      (hcount : h.clause.types.length = j + 1 + rest.length)
      (hrest : Expr.AllSound E.counts rest) :
      Takes E (.handlerTypes h rest) x (Layout.values j ++ .value :: k) x k
  | handlerBody {h ids x k} (hh : h.Fits E x k) :
      Takes E (.handlerBody h x.scope x.handling)
        ((x.inHandler h.guarded (.value :: k)).declaring ids) (.value :: k) x k
  | binding {span binder pattern ids added x k}
      (hids : ∀ id ∈ ids, id ∈ x.own ∧ E.HasSlot x.floor id) (hadded : added ⊆ ids) :
      Takes E (.binding span binder pattern ids) (x.declaring added) k x k
  | assignTarget {span e x k} (he : e.Sound E.counts) : Takes E (.assignTarget span e) x k x k
  | assignLocal {span n o x k} (hslot : k.kindAt? n = some .value) :
      Takes E (.assignValue span .assignLocal n) (x.inAssign o) k x k
  | assignUpvalue {span o x k} {n : Int} (hlower : 0 ≤ n) (hupper : n < E.captures) :
      Takes E (.assignValue span .assignUpvalue n) (x.inAssign o) k x k
  | assignThrough {span o x k} :
      Takes E (.assignValue span .assign 1) (x.inAssign o) (.value :: .value :: k) x k
  | logicLeft {span o e done x k} (he : e.Sound E.counts) (hdone : x.EndsAt E k done) :
      Takes E (.logicLeft span o e done) x k x k
  | logicRight {span done x k} (hdone : x.EndsAt E k done) :
      Takes E (.logicRight span done) x k x k
  | condTest {c arm later next x k} (hc : c.Fits E x k) (harm : arm.body.Sound E.counts)
      (hlater : CondCase.AllSound E.counts later)
      (hnext : E.labels[next]? = some ⟨k, x.watch⟩) :
      Takes E (.condTest c arm later next none) x k x k
  | condTestBound {c arm later next id x k} (hc : c.Fits E x k) (harm : arm.body.Sound E.counts)
      (hlater : CondCase.AllSound E.counts later)
      (hnext : E.labels[next]? = some ⟨.value :: k, x.watch⟩)
      (hslot : E.slots[id]? = some (some (k.length : Int))) :
      Takes E (.condTest c arm later next (some id)) x (.value :: k) x k
  | condBody {c arm later next x k} (hc : c.Fits E x k)
      (hlater : CondCase.AllSound E.counts later)
      (hnext : E.labels[next]? = some ⟨k, x.watch⟩) :
      Takes E (.condBody c arm later next none) x k x k
  | condBodyBound {c arm later next ids x k} (hc : c.Fits E x k)
      (hlater : CondCase.AllSound E.counts later)
      (hnext : E.labels[next]? = some ⟨.value :: k, x.watch⟩) :
      Takes E (.condBody c arm later next (some x.scope))
        ((x.withNames (.value :: k) []).declaring ids) (.value :: k) x k
  | condElse {c x k} (hc : c.Fits E x k) : Takes E (.condElse c) x k x k
  | loopBody {span s x k} (hexit : x.EndsAt E k s.exit)
      (hnext : E.labels[s.next]? = some ⟨k, x.watch⟩) (hdepth : s.exitDepth = k.length) :
      Takes E (.loopBody span s) (x.inLoop s) k x k
  | exitCond {span test e s x k} (hs : s.Surrounds E k) (he : e.Sound E.counts) :
      Takes E (.exitCond span test e s) x k x k
  | exitValue {span s stay x k} (hs : s.Surrounds E k)
      (hstay : E.labels[stay]? = some ⟨k, x.watch⟩) :
      Takes E (.exitValue span s stay) x k x k
  | forSequence {span key names unpack body otherwise x k}
      (hnames : unpack = false → names.length = 1) (hbody : body.Sound E.counts)
      (hotherwise : otherwise.Sound E.counts) :
      Takes E (.forSequence span key names unpack body otherwise) x k x k
  | forBody {f ids x k} (hf : f.Fits E x k) :
      Takes E (.forBody f)
        (((x.withNames (Layout.values f.slots ++ .iterator :: k) []).declaring ids).inLoop f.loop)
        (Layout.values f.slots ++ .iterator :: k) x k
  | forElse {f x k} (hexit : x.EndsAt E k f.loop.exit) (hdepth : f.depth = k.length) :
      Takes E (.forElse f) x k x k
  | switchSubject {span cases otherwise x k} (hcases : Expr.AllSound E.counts cases)
      (hotherwise : otherwise.Sound E.counts) :
      Takes E (.switchSubject span cases otherwise) x k x k
  | switchCase {s line cases labels x k} (hs : s.Fits E x k)
      (hcases : Expr.AllSound E.counts cases)
      (hlabels : ∀ l ∈ labels, E.labels[l]? = some ⟨k, x.watch⟩) :
      Takes E (.switchCase s line cases labels) x k x k
  | switchElse {s x k} (hs : s.Fits E x k) : Takes E (.switchElse s) x k x k
  | selectSubject {s clauses x k} (hs : s.Fits E x k)
      (hclauses : SelectClause.AllSound E.counts clauses) :
      Takes E (.selectSubject s clauses) x (.value :: k) x k
  | selectValue {c rest x k} (hc : c.Fits E x k) (hrest : Expr.AllSound E.counts rest) :
      Takes E (.selectValue c rest) x (.value :: .value :: k) x k
  | selectBody {c x k} (hc : c.Fits E x k) : Takes E (.selectBody c) x (.value :: k) x k
  | selectElse {s x k} (hs : s.Fits E x k) : Takes E (.selectElse s) x (.value :: k) x k
  | scopedValue {span count id own done ids values body x k}
      (hids : ∀ i ∈ id :: ids, i ∈ own ∧ E.HasSlot (Layout.values count ++ k) i)
      (hvalues : Expr.AllSound E.counts values) (hbody : body.Sound E.counts) :
      Takes E (.scopedValue span x.scope count id ids values body)
        ((x.withNames (Layout.values count ++ k) own).declaring done) (Layout.values count ++ k) x k
  | scopedBody {span count own ids x k} :
      Takes E (.scopedBody span x.scope count)
        ((x.withNames (Layout.values count ++ k) own).declaring ids) (Layout.values count ++ k) x k
  | expanded {span x k} : Takes E (.expanded span) x k x k

/-- A frame awaits an answer with a layout, and goes on up to a value on top of another. -/
inductive Waiting.Awaits : Waiting → Context → Layout → Context → Layout → Prop where
  | closure {span x k} : Awaits (.closure span none) x k x k
  | method {span n x k} : Awaits (.closure span (some n)) x (Layout.values n ++ .value :: k) x k
  | constantCode {span use ids x k} (huse : ∀ id ∈ use.ids, id ∈ x.own) (hids : ids ⊆ use.ids) :
      Awaits (.constantCode span use) (x.declaring ids) k x k
  | constantValue {span use ids x k} (huse : ∀ id ∈ use.ids, id ∈ x.own) (hids : ids ⊆ use.ids) :
      Awaits (.constantValue span use) (x.declaring ids) k x k
  | expansion {span x k} : Awaits (.expansion span) x k x k

/-- A frame waits for the value of an expression with these records, which brings names into scope
only if it is a statement. -/
structure Pin.Matches (p : Pin) (w : Waiting) (x : Context) : Prop where
  records : p.toRecords = x.toRecords
  own : p.own ≠ [] → w.isStatements = true

/-- All frames of a function fit together when a value arrives on top of a layout. -/
def Resumes (E : Env) : List Waiting → List Pin → Context → Layout → Prop
  | [], _, _, _ => False
  | w :: ws, ps, x, l =>
    (∃ p ∈ ps.head?, p.Matches w x) ∧
      ((∃ span, w = .finish span E.isRoot ∧ ws = [] ∧ x.guards = []) ∨
        ∃ x' k, w.Takes E x l x' k ∧ x'.Fits E k ∧ Resumes E ws ps.tail x' k)

/-- All frames of a function fit together when an answer arrives. -/
def AwaitsAnswer (E : Env) (ws : List Waiting) (ps : List Pin) (x : Context) (l : Layout) : Prop :=
  ∃ w rest x' k, ws = w :: rest ∧ w.Awaits x l x' k ∧ x'.Fits E k ∧ Resumes E rest ps x' k

theorem Consumer.Consumes.suffix {E : Env} {use : Consumer} {count : Nat} {l k : Layout}
    (h : use.Consumes E count l k) : k <:+ l := by
  cases use with
  | method params extra body =>
    obtain ⟨-, rfl⟩ := h
    exact List.suffix_cons _ _
  | _ => simp only [Consumer.Consumes] at h; simp [h]

section

variable {E E' : Env} (hE : E.Extends E') {x x' : Context} {l k : Layout}

include hE

theorem Consumer.Consumes.mono {use : Consumer} {count : Nat} (h : use.Consumes E count l k) :
    use.Consumes E' count l k := by
  cases use with
  | constCall fn => exact ⟨h.1.mono hE.counts, h.2⟩
  | quote body => exact ⟨h.1, h.2.1.mono hE.counts, h.2.2⟩
  | method params extra body => exact ⟨h.1.mono hE.counts, h.2⟩
  | _ => exact h

theorem Context.EndsAt.mono {done : Label} (h : x.EndsAt E k done) : x.EndsAt E' k done :=
  hE.labels _ _ h

theorem BlockScope.Fits.mono {b : BlockScope} {vars lets defs : List Decl}
    (h : b.Fits E x k vars lets defs) : b.Fits E' x k vars lets defs where
  decls := h.decls
  scope := h.scope
  handlers := h.handlers.mono hE.counts
  guarded p hp :=
    have hg := h.guarded p hp
    ⟨hE.labels _ _ hg.1, hE.labels _ _ hg.2.1, hg.2.2⟩

theorem HandlerScope.Fits.mono {h : HandlerScope} (hh : h.Fits E x k) : h.Fits E' x k :=
  ⟨hh.done.mono hE, hh.skip.mono hE, hE.labels _ _ hh.retry, hh.depth, hh.body.mono hE.counts,
    hh.later.mono hE.counts⟩

theorem CondScope.Fits.mono {c : CondScope} (hc : c.Fits E x k) : c.Fits E' x k :=
  ⟨hc.done.mono hE, hc.depth, hc.otherwise.mono hE.counts⟩

theorem ForScope.Fits.mono {f : ForScope} (hf : f.Fits E x k) : f.Fits E' x k :=
  ⟨hf.exit.mono hE, hE.labels _ _ hf.next, hE.labels _ _ hf.start, hE.labels _ _ hf.ended, hf.depth,
    hf.scope, hf.otherwise.mono hE.counts⟩

theorem SwitchScope.Fits.mono {s : SwitchScope} (hs : s.Fits E x k) : s.Fits E' x k :=
  ⟨hs.done.mono hE, hs.depth, hs.otherwise.mono hE.counts⟩

theorem SelectScope.Fits.mono {s : SelectScope} (hs : s.Fits E x k) : s.Fits E' x k :=
  ⟨hs.done.mono hE, hs.slot, hs.otherwise.mono hE.counts⟩

theorem ClauseScope.Fits.mono {c : ClauseScope} (hc : c.Fits E x k) : c.Fits E' x k :=
  ⟨hc.select.mono hE, hc.body.mono hE, hc.next.mono hE, hc.expr.mono hE.counts,
    hc.later.mono hE.counts⟩

theorem Waiting.Takes.mono {w : Waiting} (h : w.Takes E x l x' k) : w.Takes E' x l x' k := by
  have hz := hE.counts
  have hs : ∀ {e : Expr}, e.Sound E.counts → e.Sound E'.counts := fun he => he.mono hz
  have hall : ∀ {es : List Expr}, Expr.AllSound E.counts es → Expr.AllSound E'.counts es :=
    fun hes => hes.mono hz
  have hown : ∀ {ids own : List BindingId} {l : Layout},
      (∀ id ∈ ids, id ∈ own ∧ E.HasSlot l id) → ∀ id ∈ ids, id ∈ own ∧ E'.HasSlot l id :=
    fun hids id hid => (hids id hid).imp_right (·.mono hE (List.suffix_refl _))
  cases h with
  | operands hcount huse hrest => exact .operands hcount (huse.mono hE) (hall hrest)
  | textParts hrest => exact .textParts (hall hrest)
  | statements hb hrest => exact .statements (hb.mono hE) (hrest.mono hz)
  | handlerTypes hh hcount hrest => exact .handlerTypes (hh.mono hE) hcount (hall hrest)
  | handlerBody hh => exact .handlerBody (hh.mono hE)
  | binding hids hadded => exact .binding (hown hids) hadded
  | assignTarget he => exact .assignTarget (hs he)
  | assignLocal hslot => exact .assignLocal hslot
  | assignUpvalue hlower hupper =>
    have := hE.captures
    exact .assignUpvalue hlower (by omega)
  | assignThrough => exact .assignThrough
  | logicLeft he hdone => exact .logicLeft (hs he) (hdone.mono hE)
  | logicRight hdone => exact .logicRight (hdone.mono hE)
  | condTest hc harm hlater hnext =>
    exact .condTest (hc.mono hE) (hs harm) (hlater.mono hz) (hE.labels _ _ hnext)
  | condTestBound hc harm hlater hnext hslot =>
    exact .condTestBound (hc.mono hE) (hs harm) (hlater.mono hz) (hE.labels _ _ hnext)
      (hE.slots _ _ hslot)
  | condBody hc hlater hnext =>
    exact .condBody (hc.mono hE) (hlater.mono hz) (hE.labels _ _ hnext)
  | condBodyBound hc hlater hnext =>
    exact .condBodyBound (hc.mono hE) (hlater.mono hz) (hE.labels _ _ hnext)
  | condElse hc => exact .condElse (hc.mono hE)
  | loopBody hexit hnext hdepth => exact .loopBody (hexit.mono hE) (hE.labels _ _ hnext) hdepth
  | exitCond hl he => exact .exitCond (hl.mono hE (List.suffix_refl _)) (hs he)
  | exitValue hl hstay =>
    exact .exitValue (hl.mono hE (List.suffix_refl _)) (hE.labels _ _ hstay)
  | forSequence hnames hbody hotherwise => exact .forSequence hnames (hs hbody) (hs hotherwise)
  | forBody hf => exact .forBody (hf.mono hE)
  | forElse hexit hdepth => exact .forElse (hexit.mono hE) hdepth
  | switchSubject hcases hotherwise => exact .switchSubject (hall hcases) (hs hotherwise)
  | switchCase hsw hcases hlabels =>
    exact .switchCase (hsw.mono hE) (hall hcases) fun l hl => hE.labels _ _ (hlabels l hl)
  | switchElse hsw => exact .switchElse (hsw.mono hE)
  | selectSubject hsel hclauses => exact .selectSubject (hsel.mono hE) (hclauses.mono hz)
  | selectValue hc hrest => exact .selectValue (hc.mono hE) (hall hrest)
  | selectBody hc => exact .selectBody (hc.mono hE)
  | selectElse hsel => exact .selectElse (hsel.mono hE)
  | scopedValue hids hvalues hbody => exact .scopedValue (hown hids) (hall hvalues) (hs hbody)
  | scopedBody => exact .scopedBody
  | expanded => exact .expanded

theorem Resumes.mono {ws : List Waiting} {ps : List Pin} (h : Resumes E ws ps x l) :
    Resumes E' ws ps x l := by
  induction ws generalizing ps x l with
  | nil => exact h
  | cons w ws ih =>
    obtain ⟨hpin, ⟨span, rfl, hws, hguards⟩ | ⟨x', k, htakes, hfits, hrest⟩⟩ := h
    · exact ⟨hpin, .inl ⟨span, by rw [hE.isRoot], hws, hguards⟩⟩
    · exact ⟨hpin, .inr ⟨x', k, htakes.mono hE, hfits.mono hE (List.suffix_refl k), ih hrest⟩⟩

theorem AwaitsAnswer.mono {ws : List Waiting} {ps : List Pin} (h : AwaitsAnswer E ws ps x l) :
    AwaitsAnswer E' ws ps x l := by
  obtain ⟨w, rest, x', k, hws, hw, hfits, hrest⟩ := h
  exact ⟨w, rest, x', k, hws, hw, hfits.mono hE (List.suffix_refl k), hrest.mono hE⟩

end

end StagedScript
