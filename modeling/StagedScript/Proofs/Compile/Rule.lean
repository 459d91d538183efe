import StagedScript.Proofs.Compile.Binding
import StagedScript.Proofs.Compile.Block
import StagedScript.Proofs.Compile.Control

/-!
# Expressions and what waits for them

Compiling an expression and resuming a frame both go from a place of typed code to another: from an
expression whose value a frame takes, the compiler is ready to go on.
-/

namespace StagedScript

variable {L : Log} {E E' : Env} {y : Nesting} {cur : Cursor} {s : CompileState} {c : Settings}
  {x x' : Context} {l k : Layout}

namespace Compiling

theorem old_ready (h : At L E y (.live ⟨k, x.watch⟩) s) (ha : Around L E y x k) (span : Span) :
    Runs c (old span) s (Ready L) := by
  refine (current_at h).bind ?_
  rintro fn _ ⟨rfl, hfn, -⟩
  split
  · exact .throw
  rename_i o olds holds
  have hreads := ha.reads_old ((congrArg (·.olds) hfn).symm.trans holds)
  obtain ⟨op, index⟩ := o
  obtain ⟨hop, hkind⟩ | ⟨rfl, hlower, hupper⟩ := hreads
  · refine Runs.bind (opCount_at h (.load k hop hkind) rfl ?_ nofun) fun _ _ h => give_ready h ha
    obtain rfl | rfl := hop <;> rfl
  · exact Runs.bind (opCount_at h (.upvalue k rfl hlower hupper) rfl rfl nofun)
      fun _ _ h => give_ready h ha

theorem member_ready (hglobals : c.globals.Sound) (h : At L E y (.live ⟨k, x.watch⟩) s)
    (ha : Around L E y x k) (span : Span) {e parent : Expr} (he : e.Sound E.counts)
    (hparent : parent.Sound E.counts) (hpart : L.Has parent) (n : Bytes) :
    Runs c (member span e parent n) s (Ready L) := by
  refine (constantOf?_at h hglobals he).bind ?_
  rintro o _ ⟨rfl, ho⟩
  cases o with
  | none =>
    exact operands_ready span (.resolve n) [parent] h ha ⟨rfl, rfl⟩ ⟨hparent, trivial⟩
      (List.forall_mem_singleton.2 hpart)
  | some v => exact (constant_at h _ (ho v rfl)).bind fun _ _ h => give_ready h ha

theorem exit_ready (h : At L E y (.live ⟨k, x.watch⟩) s) (ha : Around L E y x k) (span : Span)
    {value : Expr} (hvalue : value.Sound E.counts) (hpart : L.Has value) :
    Runs c (exit span value) s (Ready L) := by
  refine (current_at h).bind ?_
  rintro fn _ ⟨rfl, -⟩
  refine .ite (fun _ => Runs.throw.bind (P := fun _ _ => False) nofun) fun _ => ?_
  exact operands_ready span .exit [value.orNil span] h ha ⟨rfl, rfl⟩
    ⟨orNil_sound hvalue span, trivial⟩ (List.forall_mem_singleton.2 (hpart.orNil span))

theorem retry_ready (h : At L E y (.live ⟨k, x.watch⟩) s) (ha : Around L E y x k) (span : Span) :
    Runs c (retry span) s (Ready L) := by
  refine (current_at h).bind ?_
  rintro fn _ ⟨rfl, hfn, -⟩
  split
  · exact .throw
  rename_i p hp
  have hhandling : x.handling = some p := (congrArg (·.handling) (ha.records hfn)).symm.trans hp
  obtain ⟨m, hlabel, hdepth, top, rfl⟩ := ha.fits.handling p hhandling
  refine (height_at h).bind ?_
  rintro _ _ ⟨rfl, rfl⟩
  refine Runs.bind (jump_behind h (.retry top m rfl hdepth) hlabel
    rfl ⟨rfl, .inl rfl⟩ rfl nofun) fun _ s h => ?_
  refine (setHeight_at h _).bind fun _ s h => ?_
  exact give_ready (h.revive (by simp) (by simp)) ha

theorem comprehensionBody_sound {z : CapturedCounts} (span : Span) {value : Expr}
    (hvalue : value.Sound z) {clauses : List GenClause} (hclauses : GenClause.AllSound z clauses) :
    (comprehensionBody span value clauses).Sound z := by
  induction clauses with
  | nil => exact ⟨trivial, hvalue⟩
  | cons clause rest ih =>
    obtain ⟨line, filter, key, names, unpack, seq⟩ := clause
    obtain ⟨hnames, hfilter, hseq, hrest⟩ := hclauses
    unfold comprehensionBody
    dsimp only
    split
    · rename_i habsent
      exact ⟨hnames habsent, hseq, ih hrest, trivial⟩
    · exact ⟨⟨hfilter, ih hrest, trivial⟩, trivial⟩

theorem dispatch_ready (hglobals : c.globals.Sound) (h : At L E y (.live ⟨k, x.watch⟩) s)
    (ha : Around L E y x k) (hfresh : L.Fresh s) (hstart : L.origin.start = L.past.length)
    (hown : L.own = []) {e : Expr} (hexpr : L.origin.expr = e) (he : e.Sound E.counts) :
    Runs c (dispatch e) s (Ready L) := by
  have hparts : ∀ e' ∈ e.parts, L.Has e' := fun e' he' => .inl (by rw [hexpr]; exact he')
  have pushNil : ∀ {line : Nat}, Runs c (do op line .nil; return .give .nil) s (Ready L) :=
    Runs.bind (op_at h (.push k (.inl rfl)) rfl rfl nofun) fun _ _ h => give_ready h ha
  cases e with
  | absent => exact pushNil
  | nil span => exact pushNil
  | blank span => exact pushNil
  | value span v => exact (constant_at h _ he).bind fun _ _ h => give_ready h ha
  | ident span n => exact name_ready hglobals h ha span n
  | old span => exact old_ready h ha span
  | string span parts =>
    exact Runs.bind (op_at h (.stringNew k rfl) rfl rfl nofun) fun _ _ h =>
      textParts_ready h ha span he hparts
  | assign span target value => exact assign_ready hglobals h ha hown span he.1 he.2 hexpr
  | call span fn args => exact call_ready hglobals h ha span he.1 he.2.1 he.2.2 hexpr
  | constCall span fn args =>
    exact operands_ready span (.constCall fn) args h ha ⟨he.1, rfl⟩ he.2 hparts
  | resolve span parent n =>
    have hparent : parent.Sound E.counts := he
    exact member_ready hglobals h ha span (e := .resolve span parent n) he hparent
      (hparts parent List.mem_cons_self) n
  | logic span o left right =>
    refine (newLabel_at h ⟨.value :: k, x.watch⟩).bind ?_
    rintro done s ⟨E₁, hE, hdone, h⟩
    replace ha := ha.mono hE
    obtain ⟨hleft, hright⟩ := List.forall_mem_cons.1 hparts
    exact andThen_ready h (ha.push ha.describes ha.fits (.logicLeft (he.2.mono hE.counts) hdone))
      ⟨hright, hleft⟩ (he.1.mono hE.counts)
  | not span arg => exact operands_ready span .not [arg] h ha ⟨rfl, rfl⟩ ⟨he, trivial⟩ hparts
  | cond span arms otherwise => exact cond_ready h ha span he.1 he.2 hparts
  | loop span body => exact loop_ready h ha span he (hparts body List.mem_cons_self)
  | exitTest span test condition value => exact exitTest_ready h ha span test he.1 he.2 hparts
  | exit span value => exact exit_ready h ha span he (hparts value List.mem_cons_self)
  | next span => exact nextRound_ready h ha span
  | forIn span key names unpack seq body otherwise =>
    obtain ⟨hseq, hrest⟩ := List.forall_mem_cons.1 hparts
    exact andThen_ready h (ha.push ha.describes ha.fits (.forSequence he.1 he.2.2.1 he.2.2.2))
      ⟨hrest, hseq⟩ he.2.1
  | each span seq => exact operands_ready span .each [seq] h ha ⟨rfl, rfl⟩ ⟨he, trivial⟩ hparts
  | block span vars lets defs body handlers =>
    exact block_ready h ha hfresh hstart span he.1 he.2.1 he.2.2 hexpr
  | bind span binder pattern decls value => exact he.elim
  | function span params extra named body =>
    exact beginFunction_ready h ha.toInside ha.describes .closure ha.fits nofun he.2 _ _ _ _ _
  | method span n params extra body =>
    refine (constant_at (v := .method n) h _ trivial).bind fun _ _ h => ?_
    refine operands_ready span (.method params extra body) _ h ha ⟨he.2, rfl⟩ ?_ ?_
    · refine Expr.allSound_iff.2 fun e hmem => ?_
      obtain ⟨p, hp, rfl⟩ := List.mem_map.1 hmem
      exact orNil_sound (Param.allSound_iff.1 he.1 p hp) span
    · intro e hmem
      obtain ⟨p, hp, rfl⟩ := List.mem_map.1 hmem
      exact (hparts p.type (List.mem_map_of_mem hp)).orNil span
  | ret span value =>
    have hvalue : value.Sound E.counts := he
    exact operands_ready span .ret [value.orNil span] h ha ⟨rfl, rfl⟩
      ⟨orNil_sound hvalue span, trivial⟩
      (List.forall_mem_singleton.2 ((hparts value List.mem_cons_self).orNil span))
  | suspend span key value =>
    obtain ⟨hkey, hrest⟩ := List.forall_mem_cons.1 hparts
    have hvalue := (List.forall_mem_singleton.1 hrest).orNil span
    refine operands_ready span .suspend _ h ha rfl ?_ ?_
    · split
      · exact ⟨orNil_sound he.2 span, trivial⟩
      · exact ⟨he.1, orNil_sound he.2 span, trivial⟩
    · split
      · exact List.forall_mem_singleton.2 hvalue
      · exact List.forall_mem_cons.2 ⟨hkey, List.forall_mem_singleton.2 hvalue⟩
  | «scoped» span decls values body => exact scopedNames_ready span he.1 he.2 hparts h ha decls
  | switch span subject arms otherwise =>
    obtain ⟨hsubject, hrest⟩ := List.forall_mem_cons.1 hparts
    exact andThen_ready h (ha.push ha.describes ha.fits (.switchSubject he.2.1 he.2.2))
      ⟨hrest, hsubject⟩ he.1
  | select span subject clauses otherwise => exact select_ready h ha span he.1 he.2.1 he.2.2 hparts
  | sequence span kind elems => exact operands_ready span (.sequence kind) elems h ha rfl he hparts
  | map span entries => exact operands_ready span .map entries h ha ⟨he.1.1, rfl⟩ he.2 hparts
  | inline span value =>
    have hw : (Waiting.constantCode span .inline).Awaits (x.declaring []) k x k :=
      .constantCode nofun (List.Subset.refl _)
    have hvalue : value.Sound E.counts := he
    exact beginFunction_ready h ha.toInside ha.describes hw ha.fits nofun hvalue _ _ _ _ _
  | quote span body args =>
    exact operands_ready span (.quote body) args h ha ⟨he.1, he.2.1, rfl⟩ he.2.2 hparts
  | unquote span => exact .throw
  | generator span value clauses =>
    exact beginFunction_ready h ha.toInside ha.describes .closure ha.fits nofun
      (comprehensionBody_sound span he.1 he.2) _ _ _ _ _
  | retry span => exact retry_ready h ha span

theorem dispatch_statement_ready (hglobals : c.globals.Sound) (h : At L E y (.live ⟨k, x.watch⟩) s)
    (ha : Around L E y x k) (hfresh : L.Fresh s) (hstart : L.origin.start = L.past.length)
    {vars lets defs : List Decl} (hlevel : x.Declares vars lets defs) {e : Expr}
    (hown : L.own = e.own y.reserved) (hexpr : L.origin.expr = e)
    (he : e.SoundStatement E.counts vars lets defs) :
    Runs c (dispatch e) s (Ready L) := by
  cases e
  case bind span binder pattern decls value =>
    exact bind_ready h ha span hlevel he.1 hown pattern he.2
      (.inl (by rw [hexpr]; exact List.mem_cons_self))
  all_goals exact dispatch_ready hglobals h ha hfresh hstart hown hexpr he.2

theorem resumeWith_ready (h : At L E y (.live ⟨.value :: l, x.watch⟩) s) (hx : x.Describes E y)
    (hin : Inside L E y.waiting x' k) {w : Waiting} (hw : w.Takes E x l x' k) (hkeeps : L.Keeps w)
    (v : Value) : Runs c (resumeWith w v) s (Ready L) := by
  cases hw with
  | operands hcount huse hrest => exact resumeOperands_ready h ⟨hin, hx⟩ huse hcount hrest hkeeps _
  | textParts hrest =>
    exact Runs.bind (opCount_at h (.stringAdd 1 _ rfl rfl) rfl rfl nofun) fun _ _ h =>
      textParts_ready h ⟨hin, hx⟩ _ hrest hkeeps
  | statements hb hrest =>
    exact resumeStatements_ready (x := x') hx hin hb hrest hkeeps.1 h hkeeps.2
  | handlerTypes hh hcount hrest =>
    exact resumeHandlerTypes_ready h ⟨hin, hx⟩ hh hcount hrest hkeeps
  | handlerBody hh => exact resumeHandlerBody_ready (x := x') h hx hin hh hkeeps
  | binding hids hadded =>
    exact resumeBinding_ready (x := x') ⟨y, _, h, hx, rfl, hadded⟩ hin _ _ _ hids hkeeps
  | assignTarget he =>
    exact assignThrough_ready h ⟨hin, hx⟩ _ he (List.forall_mem_singleton.1 hkeeps)
  | assignLocal hslot => exact resumeAssignValue_ready h hx hin rfl (.assignLocal hslot)
  | assignUpvalue hlower hupper =>
    exact resumeAssignValue_ready h hx hin rfl (.assignUpvalue hlower hupper)
  | assignThrough => exact resumeAssignValue_ready h hx hin rfl .assignThrough
  | logicLeft he hdone =>
    exact resumeLogicLeft_ready h ⟨hin, hx⟩ _ _ he (List.forall_mem_singleton.1 hkeeps) hdone
  | logicRight hdone => exact resumeLogicRight_ready h ⟨hin, hx⟩ hdone
  | condTest hc harm hlater hnext =>
    exact resumeCondTest_ready h ⟨hin, hx⟩ (.condTest hc harm hlater hnext) hkeeps
  | condTestBound hc harm hlater hnext hslot =>
    exact resumeCondTest_ready h ⟨hin, hx⟩ (.condTestBound hc harm hlater hnext hslot) hkeeps
  | condBody hc hlater hnext =>
    exact resumeCondBody_ready h hx hin (.condBody hc hlater hnext) hkeeps
  | condBodyBound hc hlater hnext =>
    exact resumeCondBody_ready h hx hin (.condBodyBound hc hlater hnext) hkeeps
  | condElse hc => exact endCond_ready h ⟨hin, hx⟩ hc
  | loopBody hexit hnext hdepth =>
    exact resumeLoopBody_ready (x := x') h hx hin _ hexit hnext hdepth
  | exitCond hs he =>
    exact resumeExitCond_ready h ⟨hin, hx⟩ _ _ he (List.forall_mem_singleton.1 hkeeps) hs
  | exitValue hs hstay => exact endExitTest_ready h ⟨hin, hx⟩ _ hs hstay
  | forSequence hnames hbody hotherwise =>
    exact resumeForSequence_ready h ⟨hin, hx⟩ _ _ hnames hbody hotherwise hkeeps
  | forBody hf =>
    exact resumeForBody_ready (x := x') h hx hin hf (List.forall_mem_singleton.1 hkeeps)
  | forElse hexit hdepth => exact endFor_ready h ⟨hin, hx⟩ hexit hdepth
  | switchSubject hcases hotherwise =>
    exact resumeSwitchSubject_ready h ⟨hin, hx⟩ _ hcases hotherwise hkeeps
  | switchCase hs hcases hlabels =>
    exact resumeSwitchCase_ready h ⟨hin, hx⟩ hs _ hcases hlabels hkeeps
  | switchElse hs => exact endSwitch_ready h ⟨hin, hx⟩ hs
  | selectSubject hs hclauses => exact resumeSelectSubject_ready h ⟨hin, hx⟩ hs hclauses hkeeps
  | selectValue hc hrest => exact resumeSelectValue_ready h ⟨hin, hx⟩ hc hrest hkeeps
  | selectBody hc => exact resumeSelectBody_ready h ⟨hin, hx⟩ hc hkeeps
  | selectElse hs => exact endSelect_ready h ⟨hin, hx⟩ hs
  | scopedValue hids hvalues hbody =>
    exact resumeScopedValue_ready (x := x') _ hvalues hbody hkeeps hx hin h hids
  | scopedBody => exact resumeScopedBody_ready (x := x') _ hx hin h
  | expanded => exact give_ready h ⟨hin, hx⟩

theorem resumeWith_answer_ready (h : At L E y (.live ⟨l, x.watch⟩) s) (hx : x.Describes E y)
    (hin : Inside L E y.waiting x' k) {w : Waiting} (hw : w.Awaits x l x' k) (hkeeps : L.Keeps w)
    {v : Value} (hv : v.Sound E.counts) (hcapture : L.CanClose E l w v) :
    Runs c (resumeWith w v) s (Ready L) := by
  cases hw with
  | closure => exact resumeClosure_ready h ⟨hin, hx⟩ hv .closure hcapture
  | method => exact resumeClosure_ready h ⟨hin, hx⟩ hv .method hcapture
  | constantCode huse hids =>
    exact resumeConstantCode_ready hin _ hv huse hkeeps ⟨y, _, h, hx, rfl, hids⟩
  | constantValue huse hids =>
    exact resumeConstantValue_ready hin _ hv huse hkeeps ⟨y, _, h, hx, rfl, hids⟩
  | expansion => exact resumeExpansion_ready h ⟨hin, hx⟩ hkeeps _ hv

theorem resume_runs {v : Value} {w : Waiting} {ws : List Waiting} (h : At L E y cur s)
    (hy : y.waiting = w :: ws) (hfresh : L.Fresh s)
    (hnext : ∀ {s : CompileState}, At L E { y with waiting := ws } cur s → L.Fresh s →
      Runs c (resumeWith w v) s (Ready L)) : Runs c (resume v) s (Ready L) := by
  refine (current_at h).bind ?_
  rintro fn _ ⟨rfl, hfn, -⟩
  rw [show fn.waiting = w :: ws from (congrArg (·.waiting) hfn).trans hy]
  refine Runs.bind (Runs.and (x := modifyCurrent ({ · with waiting := ws }))
    (modifyCurrent_at ({ · with waiting := ws }) h fun _ => rfl)
    (modifyCurrent_fresh hfresh fun _ => rfl)) ?_
  rintro _ _ ⟨h, hfresh⟩
  exact hnext h hfresh

theorem dispatch_poised_ready (hglobals : c.globals.Sound) {e : Expr}
    (hpoised : Poised L (.compile e) s) (hfresh : L.Fresh s) : Runs c (dispatch e) s (Ready L) := by
  cases hpoised with
  | compile h ha hown horigin he =>
    exact dispatch_ready hglobals h ha hfresh (congrArg Origin.start horigin) hown
      (congrArg Origin.expr horigin) he
  | statement h ha hown horigin hlevel he =>
    exact dispatch_statement_ready hglobals h ha hfresh (congrArg Origin.start horigin) hlevel hown
      (congrArg Origin.expr horigin) he

theorem resume_ready {v : Value} (hpoised : Poised L (.give v) s) (hfresh : L.Fresh s) :
    Runs c (resume v) s (Ready L) := by
  cases hpoised with
  | give h hx _ hy hw hin hkeeps =>
    exact resume_runs h hy hfresh fun h _ => resumeWith_ready h (hx.withWaiting _) hin hw hkeeps v
  | last h _ _ hy hlast =>
    exact resume_runs h hy hfresh fun h hfresh => finishFunction_ready h hfresh hlast _
  | answer h hw hkeeps _ hv hcapture =>
    obtain ⟨x', k, hawaits, hin⟩ := hw.inside
    exact resume_runs h hw.waiting hfresh fun h _ =>
      resumeWith_answer_ready h (hw.describes.withWaiting _) hin hawaits hkeeps hv hcapture

end Compiling

end StagedScript
