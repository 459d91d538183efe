import Mathlib.Data.List.Destutter
import StagedScript.Proofs.Compile.Cancellation
import StagedScript.Proofs.Compile.Handover

/-!
# The traces of errors

When a compilation fails, the places of all frames that wait are added to the trace of the error, the
innermost first.  The frame that finishes the program is the last one, whatever fails: it is taken off
only when all labels of the program are fixed, and then the program is finished.
-/

namespace StagedScript

/-! ### Adding places -/

namespace SourceError

variable {e : SourceError} {p : Position} {l ps : List Position}

theorem destutter_append_cons (hl : l.IsChain (· ≠ ·)) (hp : l.getLast? = some p) :
    (l ++ p :: ps).destutter (· ≠ ·) = (l ++ ps).destutter (· ≠ ·) := by
  induction l with
  | nil => cases hp
  | cons a l ih =>
    cases l with
    | nil =>
      obtain rfl : a = p := by simpa using hp
      exact List.destutter'_cons_neg _ (by simp)
    | cons b l =>
      obtain ⟨hab, hl⟩ := List.isChain_cons_cons.1 hl
      have ih := ih hl (by simpa using hp)
      simp only [List.cons_append, List.destutter_cons'] at ih ⊢
      rw [List.destutter'_cons_pos _ hab, List.destutter'_cons_pos _ hab, ih]

/-- The places that are added to a trace, without those that repeat the one before. -/
theorem foldl_addTrace (h : e.trace.IsChain (· ≠ ·)) (ps : List Position) :
    (ps.foldl addTrace e).trace = (e.trace ++ ps).destutter (· ≠ ·) := by
  induction ps generalizing e with
  | nil => rw [List.append_nil, List.destutter_of_isChain _ _ h]; rfl
  | cons p ps ih =>
    rw [List.foldl_cons, addTrace]
    split
    next hp => rw [ih h, destutter_append_cons h hp]
    next hp =>
      have hchain : (e.trace ++ [p]).IsChain (· ≠ ·) := by
        refine List.isChain_append.2 ⟨h, .singleton p, ?_⟩
        rintro q hq _ ⟨⟩ rfl
        exact hp hq
      exact (ih hchain).trans (by simp)

theorem addTrace_getLast? : (e.addTrace p).trace.getLast? = some p := by
  unfold addTrace
  split
  · assumption
  · simp

end SourceError

/-! ### Labels and frames -/

namespace Compiling

/-- All labels of the current function are fixed but some, and those that frames will fix; in the
enclosing functions the frames will fix all. -/
inductive Owes (root : Span) : List Label → List (List Waiting × Array (Option Aim)) → Prop where
  | intro {L : List Label} {ws : List Waiting} {aims : Array (Option Aim)}
    {rest : List (List Waiting × Array (Option Aim))} (inner : List Waiting) (span : Span)
    (hws : ws = inner ++ [.finish span rest.isEmpty]) (hinner : ∀ w ∈ inner, w.isFinish = false)
    (hlabels : ∀ l, aims[l]? = some none → l ∈ L ++ ws.flatMap (·.labels))
    (hroot : rest = [] → span = root) (hrest : rest ≠ [] → Owes root [] rest) :
    Owes root L ((ws, aims) :: rest)

def Rooted (root : Span) (ledgers : List (List Waiting × Array (Option Aim))) : Prop :=
  (ledgers.flatMap (·.1)).getLast? = some (.finish root true)

namespace Owes

variable {root span : Span} {L M : List Label} {aims aims' : Array (Option Aim)} {w : Waiting}
  {ws : List Waiting} {rest : List (List Waiting × Array (Option Aim))} {s : CompileState}

theorem change (h : Owes root L ((ws, aims) :: rest)) (new : List Waiting)
    (hnew : ∀ w ∈ new, w.isFinish = false)
    (hlabels : ∀ l, aims'[l]? = some none → l ∈ M ++ new.flatMap (·.labels) ∨
      aims[l]? = some none ∧ (l ∈ L → l ∈ M ++ new.flatMap (·.labels))) :
    Owes root M ((new ++ ws, aims') :: rest) := by
  obtain ⟨inner, span, hws, hinner, hold, hroot, hrest⟩ := h
  refine .intro (new ++ inner) span (by rw [hws, List.append_assoc])
    (List.forall_mem_append.2 ⟨hnew, hinner⟩) (fun l hl => ?_) hroot hrest
  rw [List.flatMap_append, ← List.append_assoc]
  obtain hl | ⟨hl, hls⟩ := hlabels l hl
  · exact List.mem_append_left _ hl
  · exact List.mem_append.2 ((List.mem_append.1 (hold l hl)).imp_left hls)

theorem pop (h : Owes root [] ((w :: ws, aims) :: rest)) (hw : w.isFinish = false) :
    Owes root w.labels ((ws, aims) :: rest) := by
  obtain ⟨inner, span, hws, hinner, hlabels, hroot, hrest⟩ := h
  cases inner with
  | nil =>
    cases hws
    cases hw
  | cons w' inner =>
    obtain ⟨rfl, rfl⟩ := List.cons.inj hws
    exact .intro inner span rfl (fun w hw => hinner w (List.mem_cons_of_mem _ hw))
      (by simpa using hlabels) hroot
      hrest

theorem finished {isRoot : Bool} (h : Owes root [] ((.finish span isRoot :: ws, aims) :: rest)) :
    isRoot = rest.isEmpty ∧ (∀ l : Label, aims[l]? ≠ some none) ∧ (rest ≠ [] → Owes root [] rest) := by
  obtain ⟨inner, span, hws, hinner, hlabels, hroot, hrest⟩ := h
  cases inner with
  | nil =>
    cases hws
    exact ⟨rfl, fun l hl => by simpa [Waiting.labels] using hlabels l hl, hrest⟩
  | cons w' inner =>
    obtain ⟨rfl, -⟩ := List.cons.inj hws
    cases hinner _ List.mem_cons_self

theorem rooted {ledgers : List (List Waiting × Array (Option Aim))} (h : Owes root L ledgers) :
    Rooted root ledgers := by
  induction h with
  | @intro _ _ _ rest _ _ hws _ _ hroot _ ih =>
    rw [Rooted, List.flatMap_cons, List.getLast?_append]
    cases rest with
    | nil => simp [hws, hroot]
    | cons => rw [ih (by simp), Option.some_or]

end Owes

/-- An action fixes all labels to fix but some, or leaves them to frames. -/
def Pays (root : Span) : Judgement := fun _ x L M Q => ∀ c s, Owes root L s.ledgers →
  Leaves c x s (fun a t => Q a ∧ Owes root M t.ledgers) fun _ t => Rooted root t.ledgers

namespace Pays

variable {root : Span} {α β : Type} {V : World} {x : Compiling α} {f : α → Compiling β}
  {L M N : List Label} {Q : β → Prop}

theorem bind (hx : Pays root V x L M fun _ => True) (hf : ∀ a, Pays root V (f a) M N Q) :
    Pays root V (x >>= f) L N Q :=
  fun c s h => (hx c s h).bind fun a t ht => hf a c t ht.2

theorem of_quiet (hx : Quiet x) : Pays root V x L L fun _ => True := fun c s h =>
  (hx c s).imp (fun _ _ ht => ⟨trivial, ht ▸ h⟩) fun _ _ ht => ht.1 ▸ h.rooted

theorem push {w : Waiting} (hw : w.isFinish = false) :
    Pays root V (push w) (w.labels ++ L) L fun _ => True := by
  rintro c ⟨_ | ⟨fn, rest⟩, bindings, heap⟩ h
  · cases h
  · exact ⟨trivial, h.change [w] (List.forall_mem_singleton.2 hw) fun l hl => .inr ⟨hl, by grind⟩⟩

end Pays

theorem pays_tracking (root : Span) : Tracking (Pays root) where
  pure ha _ _ h := ⟨ha, h⟩
  bind := .bind
  owing hx hl := by
    rintro c ⟨_ | ⟨fn, rest⟩, bindings, heap⟩ h
    · cases h
    · exact hx c _ (h.change [] nofun fun l hl' => .inr ⟨hl', fun h => by simp [hl h]⟩)
  stuck _ _ _ := trivial
  fail _ _ _ _ h := h.rooted
  failShowing _ _ _ _ _ h := h.rooted
  current_holds _ hf := .bind (.of_quiet .current) fun fn =>
    hf fn (fun _ => True) (fun _ _ => trivial) fun _ _ => trivial
  modifyCurrent_holds hk ha _ := .of_quiet (.modifyCurrent fun fn => ⟨hk.waiting fn, ha fn⟩)
  newLabel_holds hf := by
    rintro c ⟨_ | ⟨fn, rest⟩, bindings, heap⟩ h
    · cases h
    · refine hf fn.builder.aims.size c _ (h.change [] nofun fun l hl => ?_)
      rw [Array.getElem?_push] at hl
      grind
  bindLabel_holds {_ _ l depth} := by
    rintro c ⟨_ | ⟨fn, rest⟩, bindings, heap⟩ h
    · cases h
    · refine Leaves.of_current ?_
      split
      · trivial
      · rename_i b hb
        refine ⟨trivial, h.change [] nofun fun k hk => .inr ?_⟩
        unfold Builder.bind Builder.aim at hb
        split at hb
        · cases hb
        · cases hb
          grind
  push_holds hw _ := .push hw
  modifyBinding_holds id _ _ := .of_quiet (.modifyBinding id _)
  newBinding_holds _ _ hf := .bind (.of_quiet (.newBinding _)) fun id =>
    hf id (fun _ => True) (fun _ _ => trivial) trivial fun _ => trivial
  binding_holds id := .of_quiet (.binding id)
  markBound_holds _ _ hf := .bind (.of_quiet (.modifyBinding _ _)) fun _ =>
    hf (fun _ => True) (fun _ _ => trivial) trivial
  bindValue_holds _ v _ hf := .bind (.of_quiet (.bindValue _ v)) fun _ =>
    hf (fun _ => True) (fun _ _ => trivial) trivial
  resolve_holds span name := .of_quiet (.resolve span name)
  peek?_holds name := .of_quiet (.peek? name)
  declareOwn_holds {_ L M _ _ pattern ids w} hw hl _ _ _ _ hf := by
    refine .bind (.of_quiet ?_) fun _ => .bind (hl ▸ Pays.push hw : Pays _ _ _ ([] ++ L) ..) hf
    unfold declareOwn
    split
    · cases ids with
      | nil => exact .pure
      | cons id ids => exact (Quiet.binding id).bind fun _ => .modifyCurrent fun _ => ⟨rfl, rfl⟩
    · exact .pure
  beginFunction_holds span params extra named body isConstant := by
    unfold beginFunction
    obtain _ | ⟨p, line⟩ := repeated? [] params
    · intro c s h
      change Leaves c (declareParams 0 params >>= fun _ => andThen (body.orNil span) _)
        { s with functions := _ :: s.functions } _ _
      refine Leaves.bind (P := fun _ t => t.ledgers = ([], #[]) :: s.ledgers) ?_ ?_
      · exact (Quiet.declareParams 0 params c _).imp (fun _ _ => id) fun _ t ht => ht.1 ▸ h.rooted
      · rintro - ⟨_ | ⟨fn, rest⟩, bindings, heap⟩ ht
        · cases ht
        · obtain ⟨hfn, hrest⟩ := List.cons.inj ht
          obtain ⟨hwaiting, haims⟩ := Prod.mk.inj hfn
          have hledgers : s.ledgers ≠ [] := by
            intro hnil
            rw [hnil] at h
            cases h
          refine ⟨trivial, ?_⟩
          -- The new function has no labels yet, and its only frame is the one that finishes it.
          change Owes root [] ((_ :: fn.waiting, fn.builder.aims) :: List.map _ rest)
          rw [hwaiting, haims, hrest]
          exact .intro [] span (by simp [hledgers]) nofun (by simp) (absurd · hledgers) fun _ => h
    · exact fun _ _ h => h.rooted

/-- A function whose labels are all fixed ends without an error. -/
theorem finishFunction_leaves {root : Span} {c : Settings} {fn : FunctionState}
    {rest : List FunctionState} {bindings : Array Binding} {heap : Heap} (span : Span)
    (hfixed : ∀ l : Label, fn.builder.aims[l]? ≠ some none)
    (hrest : rest ≠ [] → Owes root [] (CompileState.ledgers ⟨rest, bindings, heap⟩)) :
    Leaves c (finishFunction span rest.isEmpty) ⟨fn :: rest, bindings, heap⟩
      (fun next t => next.Continues → Owes root [] t.ledgers) fun _ t => Rooted root t.ledgers := by
  refine Leaves.bind (P := fun _ t => ∃ fn' : FunctionState, t = ⟨fn' :: rest, bindings, heap⟩ ∧
    fn'.builder.aims = fn.builder.aims) ?_ ?_
  · change Leaves c (if _ then throw Trouble.stuck else Pure.pure ()) ⟨_ :: rest, bindings, heap⟩ _ _
    split
    · trivial
    · exact ⟨_, rfl, rfl⟩
  · rintro _ _ ⟨fn', rfl, haims⟩
    refine Leaves.of_current ?_
    split
    -- an error would name a label that is not fixed
    · rename_i u hu
      obtain ⟨l, hl, hfree, -⟩ := Builder.finish_eq_error_iff.1 ⟨u, hu⟩
      rw [Builder.isFixed, haims] at hfree
      rw [haims] at hl
      exact absurd (by simpa [hl] using hfree) (hfixed l)
    · split
      · exact False.elim
      · rename_i hroot
        change Leaves c (prepareCaptures _ _ _ >>= _) ⟨rest, bindings, heap⟩ _ _
        exact ((pays_tracking root).prepareCaptures_holds (V := fun _ => True) c _
          (hrest (by simpa using hroot))).bind fun _ _ ht _ => ht.2

/-- A value is given to a frame, or the program is finished. -/
theorem resume_leaves {root : Span} {c : Settings} {s : CompileState} (v : Value)
    (h : Owes root [] s.ledgers) :
    Leaves c (resume v) s (fun next t => next.Continues → Owes root [] t.ledgers)
      fun _ t => Rooted root t.ledgers := by
  obtain ⟨_ | ⟨fn, rest⟩, bindings, heap⟩ := s
  · cases h
  · refine Leaves.of_current ?_
    change Owes root [] ((fn.waiting, _) :: _) at h
    cases hwaiting : fn.waiting with
    | nil => exact h.rooted
    | cons w ws =>
      rw [hwaiting] at h
      cases hw : w.isFinish with
      | false =>
        exact ((pays_tracking root).resumeWith_holds (V := fun _ => True) hw (fun _ _ => trivial) c
          ⟨{ fn with waiting := ws } :: rest, bindings, heap⟩ (h.pop hw)).imp
            (fun _ _ ht _ => ht.2) fun _ _ => id
      | true =>
        -- No frame is left below this one, so no label of the function is left to fix.
        cases w with
        | finish span isRoot =>
          obtain ⟨hroot, hfixed, hrest⟩ := h.finished
          rw [hroot, List.isEmpty_map]
          exact finishFunction_leaves span hfixed fun hne => hrest (by simpa using hne)
        | _ => cases hw

end Compiling

/-! ### Rounds -/

namespace Task

open Compiling

variable {root : Span} {settings : Settings} {t : Task} {e : SourceError}

/-- The frames of a compilation lead to that of the program. -/
def Traceable (root : Span) (t : Task) : Prop :=
  match t.phase with
  | .compile _ | .give _ | .wait _ => Owes root [] t.state.ledgers
  | .fail _ => Rooted root t.state.ledgers
  | _ => True

/-- What a round makes of a compilation: the error of a failure has no trace yet, and what is reported
gets that of the frames. -/
structure Advances (root : Span) (t t' : Task) : Prop where
  traceable : t'.Traceable root
  trace : ∀ e, t'.phase = .fail e → (∀ e', t.phase ≠ .fail e') ∧ e.trace = []
  reports : ∀ e, .error e ∈ t'.reports → .error e ∈ t.reports ∨
    ∃ e₀, t.phase = .fail e₀ ∧ e = traced t.state.functions e₀

theorem Advances.of_action {x : Compiling Next} (hx : FailsOwn x) {s : CompileState}
    {c : Cancellation} (hphase : ∀ e, t.phase ≠ .fail e)
    (h : Compiling.Leaves settings x s (fun next t => next.Continues → Owes root [] t.ledgers)
      fun _ t => Rooted root t.ledgers) :
    Advances root t (afterAction c t.reports (x settings s)) := by
  unfold Compiling.Leaves at h
  cases hrun : x settings s with
  | ok next s =>
    rw [hrun] at h
    cases next with
    | done => exact ⟨trivial, nofun, fun _ => .inl⟩
    | _ => exact ⟨h trivial, nofun, fun _ => .inl⟩
  | error trouble s =>
    rw [hrun] at h
    cases trouble with
    | stuck => exact ⟨trivial, nofun, fun _ => .inl⟩
    | error e =>
      refine ⟨h, ?_, fun _ => .inl⟩
      rintro _ ⟨⟩
      exact ⟨hphase, (hx _ _ _ _ hrun).trace⟩

theorem Traceable.advance (h : t.Traceable root) (settings : Settings) :
    Advances root t (t.advance settings) := by
  obtain ⟨phase, active, state, cancellation, reports⟩ := t
  cases phase with
  | compile e =>
    unfold Task.advance
    dsimp only
    split
    · refine ⟨Owes.rooted h, ?_, fun _ => .inl⟩
      rintro _ ⟨⟩
      exact ⟨nofun, rfl⟩
    · exact .of_action FailsOwn.closed.dispatch_holds nofun (((pays_tracking root).dispatch_holds
        (V := fun _ => True) settings state h).imp (fun _ _ ht _ => ht.2) fun _ _ => id)
  | give v => exact .of_action (.resume v) nofun (resume_leaves v h)
  | fail e₀ =>
    exact ⟨trivial, nofun, fun e he => (List.mem_cons.1 he).symm.imp_right fun he =>
      ⟨e₀, rfl, Except.error.inj he⟩⟩
  | finish fn => exact ⟨trivial, nofun, fun e he => .inl ((List.mem_cons.1 he).resolve_left nofun)⟩
  | _ => exact ⟨h, nofun, fun _ => .inl⟩

theorem Traceable.deliver {call : EvalCall} (h : t.Traceable root) (hwait : t.phase = .wait call)
    (a : Answer) : (t.deliver a).Traceable root ∧ (t.deliver a).reports = t.reports ∧
      ∀ e, (t.deliver a).phase = .fail e → e.trace = [] ∨
        ∃ e', a = .error e' ∧ e = e'.addTrace call.span.position := by
  obtain ⟨phase, active, state, cancellation, reports⟩ := t
  cases hwait
  cases a with
  | value => exact ⟨h, rfl, nofun⟩
  | stuck => exact ⟨trivial, rfl, nofun⟩
  | error e' =>
    refine ⟨Owes.rooted h, rfl, ?_⟩
    rintro _ ⟨⟩
    exact .inr ⟨e', rfl, rfl⟩
  | _ =>
    refine ⟨Owes.rooted h, rfl, ?_⟩
    rintro _ ⟨⟩
    exact .inl rfl

theorem Traceable.rooted (h : t.Traceable root) (hphase : t.phase = .fail e) :
    Rooted root t.state.ledgers := by
  unfold Traceable at h
  rwa [hphase] at h

namespace Shared

/-- A step makes a compilation fail: with an error of the compiler, which has no trace, or because the
call that it waits for is answered by an error with a trace of its own. -/
inductive Arises (y z : Shared) : (carried site : List Position) → Prop where
  | own {e : SourceError} (hgoes : ∀ e, y.task.phase ≠ .fail e) (hphase : z.task.phase = .fail e)
      (htrace : e.trace = []) : Arises y z e.trace []
  | answered {call : EvalCall} {e : SourceError} (hwait : y.task.phase = .wait call)
      (hanswer : z.task = y.task.deliver (.error e)) : Arises y z e.trace [call.span.position]

variable {x y first : Shared} {fns : List FunctionState}

/-- A compilation has failed: the functions at that moment, and the error. -/
def Failed (settings : Settings) (root : Span) (first x : Shared) (fns : List FunctionState)
    (e : SourceError) : Prop :=
  ∃ y z e' site, Reachable settings first y ∧ Step settings y z ∧ Reachable settings z x ∧
    Arises y z e'.trace site ∧ z.task.state.functions = fns ∧ Rooted root z.task.state.ledgers ∧
    e = site.foldl SourceError.addTrace e'

theorem Failed.tail (h : Failed settings root first x fns e) (hstep : Step settings x y) :
    Failed settings root first y fns e := by
  obtain ⟨y', z, e', site, h₁, h₂, h₃, h₄⟩ := h
  exact ⟨y', z, e', site, h₁, h₂, h₃.tail hstep, h₄⟩

/-- What is known of a compilation in progress: how it has failed, if it has. -/
structure Follows (settings : Settings) (root : Span) (first x : Shared) : Prop where
  orderly : x.Orderly
  takes : x.Takes
  traceable : x.task.Traceable root
  failed : ∀ e, x.task.phase = .fail e → Failed settings root first x x.task.state.functions e
  reported : ∀ e, .error e ∈ x.task.reports → ∃ fns e₀, Failed settings root first x fns e₀ ∧
    e = traced fns e₀

theorem Follows.step (hx : Reachable settings first x) (h : Follows settings root first x)
    (hstep : Step settings x y) : Follows settings root first y := by
  obtain ⟨horderly, htakes, htraceable, hfailed, hreported⟩ := h
  have hreported (e : SourceError) (he : .error e ∈ x.task.reports) :
      ∃ fns e₀, Failed settings root first y fns e₀ ∧ e = traced fns e₀ := by
    obtain ⟨fns, e₀, h, he⟩ := hreported e he
    exact ⟨fns, e₀, h.tail hstep, he⟩
  -- A failure that is new is the step itself.
  have hnew (h : y.task.Traceable root) {e : SourceError} (he : y.task.phase = .fail e) (e' site)
      (harises : Arises x y e'.trace site) (heq : e = site.foldl SourceError.addTrace e') :
      Failed settings root first y y.task.state.functions e :=
    ⟨x, y, e', site, hx, hstep, .refl, harises, rfl, h.rooted he, heq⟩
  obtain ⟨htakes', ⟨heap, cancellation, htask, -⟩ | htask | ⟨call, a, -, hwait, htask⟩⟩ :=
    htakes.step horderly hstep
  · obtain ⟨hphase, hfns, hreports⟩ : y.task.phase = x.task.phase ∧
        y.task.state.functions = x.task.state.functions ∧ y.task.reports = x.task.reports := by
      rw [htask]
      exact ⟨rfl, rfl, rfl⟩
    refine ⟨horderly.step hstep, htakes', ?_, fun e he => ?_, hreports ▸ hreported⟩
    · unfold Traceable CompileState.ledgers at htraceable ⊢
      rwa [hphase, hfns]
    · exact hfns ▸ (hfailed e (hphase ▸ he)).tail hstep
  · obtain ⟨htraceable', htrace, hreports⟩ := htraceable.advance settings
    rw [← htask] at htraceable' htrace hreports
    refine ⟨horderly.step hstep, htakes', htraceable', fun e he => ?_, fun e he => ?_⟩
    · exact hnew htraceable' he e [] (.own (htrace e he).1 he (htrace e he).2) rfl
    · obtain he | ⟨e₀, hphase, rfl⟩ := hreports e he
      · exact hreported e he
      · exact ⟨_, e₀, (hfailed e₀ hphase).tail hstep, rfl⟩
  · obtain ⟨htraceable', hreports, htrace⟩ := htraceable.deliver hwait a
    rw [← htask] at htraceable' htrace hreports
    refine ⟨horderly.step hstep, htakes', htraceable', fun e he => ?_, hreports ▸ hreported⟩
    obtain htrace | ⟨e', rfl, heq⟩ := htrace e he
    · exact hnew htraceable' he e [] (.own (by simp [hwait]) he htrace) rfl
    · exact hnew htraceable' he e' _ (.answered hwait htask) heq

theorem Follows.reachable (hfirst : Follows settings root first first)
    (hx : Reachable settings first x) : Follows settings root first x := by
  induction hx with
  | refl => exact hfirst
  | tail hx hstep ih => exact ih.step hx hstep

end Shared

open Shared

theorem traced_eq (fns : List FunctionState) (e : SourceError) :
    traced fns e =
      ((fns.flatMap (·.waiting)).map (·.span.position)).foldl SourceError.addTrace e := by
  simp [traced, List.foldl_flatMap, List.foldl_map]

theorem rootOf_span? (tree : Expr) : ∃ span, (rootOf tree).span? = some span := by
  cases tree <;> exact ⟨_, rfl⟩

/-- An error is reported with the trace that it carried, the place of the call that it answered, and
the places of all frames that waited when the compilation failed, the innermost first.  This holds
whenever and however often calls are answered. -/
theorem trace_of_report {globals : Globals} {blockSize : Int} {heap : Heap}
    {cancellation : Cancellation} (tree : Expr) :
    let root := rootOf tree
    let settings : Settings := ⟨globals, blockSize, root.span?.getD ⟨[], 0, 0⟩⟩
    let first := Shared.start settings heap cancellation root
    (∀ (ev : Evaluator) e, (∀ call heap cancellation, .stuck ∉ (ev call heap cancellation).answers) →
      (compileTree globals blockSize ev heap cancellation tree).outcome = .error e →
      ∃ x, Reachable settings first x ∧ (.error e ∈ x.task.reports ∨
        (∃ call, x.task.phase = .wait call) ∧ e = cancelledAt settings.root.position)) ∧
    ∀ x e, Reachable settings first x → .error e ∈ x.task.reports →
      e.trace.getLast? = root.span?.map Span.position ∧
      ∃ y z carried site, Reachable settings first y ∧ Shared.Step settings y z ∧
        Reachable settings z x ∧ Arises y z carried site ∧
        (carried.IsChain (· ≠ ·) → e.trace.IsChain (· ≠ ·) ∧
          e.trace = (carried ++ site ++ (z.task.state.functions.flatMap (·.waiting)).map
            (·.span.position)).destutter (· ≠ ·)) := by
  intro root settings first
  refine ⟨fun ev e => reachable_compileTree, fun x e hx he => ?_⟩
  have hfirst : Follows settings settings.root first first :=
    ⟨start_orderly _ _ _ _, start_takes _ _ _ _,
      .intro [] settings.root rfl nofun (by simp [Builder.empty]) (fun _ => rfl) (absurd rfl),
      nofun, nofun⟩
  obtain ⟨_, _, ⟨y, z, e', site, hy, hstep, hz, harises, rfl, hrooted, rfl⟩, rfl⟩ :=
    (hfirst.reachable hx).reported e he
  rw [traced_eq, ← List.foldl_append]
  refine ⟨?_, y, z, e'.trace, site, hy, hstep, hz, harises, fun hchain => ?_⟩
  · obtain ⟨span, hspan⟩ := rootOf_span? tree
    have hlast : (z.task.state.functions.flatMap (·.waiting)).getLast? =
        some (.finish settings.root true) := by
      simpa [Rooted, CompileState.ledgers, List.flatMap_map] using hrooted
    obtain ⟨ws, hws⟩ := List.getLast?_eq_some_iff.1 hlast
    have hroot : settings.root = span := by simp [settings, root, hspan]
    rw [hws, List.map_append, ← List.append_assoc, List.foldl_append,
      show root.span? = some span from hspan, ← hroot]
    exact SourceError.addTrace_getLast?
  · rw [SourceError.foldl_addTrace hchain, List.append_assoc]
    exact ⟨List.isChain_destutter _ _, rfl⟩

/-- A constant inside a call fails in another text, and its error was already traced to its line. -/
theorem trace_of_report_of_answer :
    let tree : Expr := .call ⟨"t", 1, 2⟩ (.inline ⟨"t", 2, 2⟩ (.nil ⟨"t", 2, 2⟩)) []
    let own := ((SourceError.plain .name ⟨"u", 7⟩ "").addTrace ⟨"u", 7⟩).addTrace ⟨"t", 2⟩
    ∃ e, (compileTree .empty 4 (.always [.error own]) {} .never tree).outcome = .error e ∧
      e.trace = [⟨"u", 7⟩, ⟨"t", 2⟩, ⟨"t", 1⟩] ∧ e.trace.getLast? = some ⟨"t", 1⟩ := by
  intro tree own
  have hanswers (call : EvalCall) (heap : Heap) (cancellation : Cancellation) :
      .stuck ∉ (Evaluator.always [.error own] call heap cancellation).answers := by
    simp [Evaluator.always]
  have houtcome : (compileTree .empty 4 (.always [.error own]) {} .never tree).outcome =
      .error (own.addTrace ⟨"t", 1⟩) := rfl
  obtain ⟨x, hreach, hreport | ⟨-, hwaits⟩⟩ := (trace_of_report tree).1 _ _ hanswers houtcome
  · exact ⟨_, houtcome, rfl, ((trace_of_report tree).2 x _ hreach hreport).1⟩
  · cases hwaits

end Task

end StagedScript
