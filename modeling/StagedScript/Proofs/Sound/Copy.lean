import StagedScript.Proofs.Sound.Value
import StagedScript.Tree.Copy
import Mathlib.Data.List.Forall2

/-!
# Copies of sound expressions

A copy of a sound expression is sound, whatever sound values its holes are filled with.  A part that
is present stays present, and declarations are renumbered one to one.
-/

namespace StagedScript

namespace Renumbering

/-- Different declarations have different copies, which have all been numbered. -/
structure Injective (s : Renumbering) : Prop where
  below : ∀ a x, s.known.lookup a = some x → x < s.next
  inj : ∀ a b x, s.known.lookup a = some x → s.known.lookup b = some x → a = b

theorem Injective.empty (next : Nat) : Injective ⟨next, []⟩ := ⟨by simp, by simp⟩

def Extends (s s' : Renumbering) : Prop :=
  s.next ≤ s'.next ∧ ∀ a x, s.known.lookup a = some x → s'.known.lookup a = some x

theorem Extends.refl (s : Renumbering) : s.Extends s := ⟨le_rfl, fun _ _ h => h⟩

variable {s : Renumbering} {ds ds' es es' : List Decl}

theorem Extends.trans {s' s'' : Renumbering} (h : s.Extends s') (h' : s'.Extends s'') :
    s.Extends s'' := ⟨h.1.trans h'.1, fun a x ha => h'.2 a x (h.2 a x ha)⟩

/-- The declarations of one list are copied to those of another. -/
def Renames (s : Renumbering) (ds ds' : List Decl) : Prop :=
  List.Forall₂ (fun d d' => s.known.lookup d.id = some d'.id) ds ds'

theorem Renames.mono {s' : Renumbering} {ds ds' : List Decl} (h : s.Renames ds ds')
    (hs : s.Extends s') : s'.Renames ds ds' :=
  List.Forall₂.imp (fun _ _ h => hs.2 _ _ h) h

theorem Renames.append (h : s.Renames ds ds') (h' : s.Renames es es') :
    s.Renames (ds ++ es) (ds' ++ es') :=
  List.rel_append h h'

theorem Renames.exists_left {ds ds' : List Decl} (h : s.Renames ds ds') :
    ∀ d' ∈ ds', ∃ d ∈ ds, s.known.lookup d.id = some d'.id := by
  induction h with
  | nil => simp
  | cons hd _ ih =>
    intro d' hd'
    obtain rfl | hd' := List.mem_cons.1 hd'
    · exact ⟨_, List.mem_cons_self, hd⟩
    · obtain ⟨d, hmem, heq⟩ := ih d' hd'
      exact ⟨d, List.mem_cons_of_mem _ hmem, heq⟩

theorem Renames.exists_right {ds ds' : List Decl} (h : s.Renames ds ds') :
    ∀ d ∈ ds, ∃ d' ∈ ds', s.known.lookup d.id = some d'.id := by
  induction h with
  | nil => simp
  | cons hd _ ih =>
    intro d hd'
    obtain rfl | hd' := List.mem_cons.1 hd'
    · exact ⟨_, List.mem_cons_self, hd⟩
    · obtain ⟨d', hmem, heq⟩ := ih d hd'
      exact ⟨d', List.mem_cons_of_mem _ hmem, heq⟩

/-- A declaration that is bound by its identity is so after copying. -/
theorem Renames.mem_id (h : s.Renames ds ds') (h' : s.Renames es es')
    (hmem : ∀ d ∈ ds, d.id ∈ es.map (·.id)) : ∀ d' ∈ ds', d'.id ∈ es'.map (·.id) := by
  intro d' hd'
  obtain ⟨d, hd, hlookup⟩ := h.exists_left d' hd'
  obtain ⟨e, he, heq⟩ := List.mem_map.1 (hmem d hd)
  obtain ⟨e', he', hlookup'⟩ := h'.exists_right e he
  rw [heq, hlookup] at hlookup'
  exact List.mem_map.2 ⟨e', he', (Option.some.inj hlookup').symm⟩

/-- Lists that declare nothing in common have copies that declare nothing in common. -/
theorem Renames.not_mem_id (hs : s.Injective) (h : s.Renames ds ds')
    (h' : s.Renames es es') (hmem : ∀ d ∈ ds, d.id ∉ es.map (·.id)) :
    ∀ d' ∈ ds', d'.id ∉ es'.map (·.id) := by
  intro d' hd' hin
  obtain ⟨d, hd, hlookup⟩ := h.exists_left d' hd'
  obtain ⟨e', he', heq⟩ := List.mem_map.1 hin
  obtain ⟨e, he, hlookup'⟩ := h'.exists_left e' he'
  rw [heq] at hlookup'
  exact hmem d hd (List.mem_map.2 ⟨e, he, hs.inj _ _ _ hlookup' hlookup⟩)

/-- Statements bind the copies of the names they bound. -/
theorem Renames.declares {binder : Binder} {vars vars' lets lets' defs defs' ds ds' : List Decl}
    (hvars : s.Renames vars vars') (hlets : s.Renames lets lets') (hdefs : s.Renames defs defs')
    (hds : s.Renames ds ds') (h : binder.Declares vars lets defs ds) :
    binder.Declares vars' lets' defs' ds' := by
  refine ⟨fun hnil => h.1 ?_, ?_⟩
  · subst hnil
    cases hds
    rfl
  · by_cases hb : binder = .constant
    · simpa [hb] using hds.mem_id hdefs (by simpa [hb] using h.2)
    · rw [if_neg hb]
      exact hds.mem_id (hvars.append hlets) (by simpa only [if_neg hb] using h.2)

end Renumbering

namespace Copying

/-- A copying computation from a state renumbers one to one, keeps what is known, and ends as
stated. -/
def GivesFrom {α : Type} (s : Renumbering) (x : Copying α) (P : α → Renumbering → Prop) : Prop :=
  s.Injective → s.Extends (x s).2 ∧ (x s).2.Injective ∧ P (x s).1 (x s).2

/-- All results of a copying computation satisfy a predicate. -/
def Gives {α : Type} (x : Copying α) (P : α → Prop) : Prop := ∀ s, GivesFrom s x fun a _ => P a

section

variable {α β : Type} {x : Copying α} {f : α → Copying β}

variable {s : Renumbering}

theorem GivesFrom.pure {P : α → Renumbering → Prop} {a : α} (h : P a s) :
    GivesFrom s (Pure.pure a) P :=
  fun hs => ⟨.refl s, hs, h⟩

theorem GivesFrom.bind {P : α → Renumbering → Prop} {Q : β → Renumbering → Prop}
    (hx : GivesFrom s x P)
    (hf : ∀ a s', s'.Injective → s.Extends s' → P a s' → GivesFrom s' (f a) Q) :
    GivesFrom s (x >>= f) Q := by
  intro hs
  obtain ⟨hext, hs', ha⟩ := hx hs
  obtain ⟨hext', hs'', hb⟩ := hf _ _ hs' hext ha hs'
  exact ⟨hext.trans hext', hs'', hb⟩

theorem GivesFrom.imp {P Q : α → Renumbering → Prop} (hx : GivesFrom s x P)
    (h : ∀ a s', P a s' → Q a s') : GivesFrom s x Q :=
  fun hs => ⟨(hx hs).1, (hx hs).2.1, h _ _ (hx hs).2.2⟩

variable {P : α → Prop} {Q : β → Prop}

theorem Gives.pure {a : α} (h : P a) : Gives (Pure.pure a) P := fun _ => .pure h

theorem Gives.bind (hx : Gives x P) (hf : ∀ a, P a → Gives (f a) Q) : Gives (x >>= f) Q :=
  fun s => (hx s).bind fun a s' _ _ ha => hf a ha s'

end

theorem decl_renames (d : Decl) (s : Renumbering) :
    GivesFrom s (decl d) fun d' s' => s'.known.lookup d.id = some d'.id := by
  intro hs
  unfold decl
  split
  · rename_i id hid
    exact ⟨.refl s, hs, hid⟩
  · rename_i hnone
    have hold : ∀ a x, s.known.lookup a = some x →
        ((d.id, s.next) :: s.known).lookup a = some x := by
      intro a x ha
      have hne : a ≠ d.id := by
        rintro rfl
        simp [hnone] at ha
      simpa [List.lookup_cons, beq_eq_false_iff_ne.2 hne] using ha
    have hnew : ∀ a x, ((d.id, s.next) :: s.known).lookup a = some x →
        a = d.id ∧ x = s.next ∨ s.known.lookup a = some x := by
      intro a x ha
      by_cases hd : a = d.id
      · subst hd
        simp at ha
        exact .inl ⟨rfl, ha.symm⟩
      · exact .inr (by simpa [List.lookup_cons, beq_eq_false_iff_ne.2 hd] using ha)
    refine ⟨⟨Nat.le_succ _, hold⟩, ⟨fun a x ha => ?_, fun a b x ha hb => ?_⟩, by simp⟩
    · obtain ⟨-, rfl⟩ | ha := hnew a x ha
      · exact Nat.lt_succ_self _
      · exact (hs.below a x ha).trans (Nat.lt_succ_self _)
    · obtain ⟨ha, hx⟩ | ha := hnew a x ha <;> obtain ⟨hb, hx'⟩ | hb := hnew b x hb
      · exact ha.trans hb.symm
      · exact absurd (hx ▸ hs.below b x hb) (lt_irrefl _)
      · exact absurd (hx' ▸ hs.below a x ha) (lt_irrefl _)
      · exact hs.inj a b x ha hb

theorem decls_renames (ds : List Decl) (s : Renumbering) :
    GivesFrom s (decls ds) fun ds' s' => s'.Renames ds ds' := by
  induction ds generalizing s with
  | nil => exact .pure .nil
  | cons d ds ih =>
    exact (decl_renames d s).bind fun _ _ _ _ hd => (ih _).bind fun _ _ _ hext hds =>
      .pure (.cons (hext.2 _ _ hd) hds)

theorem decls_length (ds : List Decl) : Gives (decls ds) fun ds' => ds'.length = ds.length :=
  fun s hs =>
    have h := decls_renames ds s hs
    ⟨h.1, h.2.1, (List.Forall₂.length_eq h.2.2).symm⟩

theorem declOption_gives (d : Option Decl) : Gives (declOption d) fun _ => True := by
  cases d with
  | none => exact .pure trivial
  | some d => exact fun s => (decl_renames d s).bind fun _ _ _ _ _ => .pure trivial

variable {z : CapturedCounts}

/-- A hole is filled with sound expressions that are present. -/
def FillsSoundly (z : CapturedCounts) (hole : Hole) : Prop :=
  ∀ span index name, Gives (hole span index name) fun e => e.Sound z ∧ e.isAbsent = false

theorem keepHole_fillsSoundly : FillsSoundly z keepHole :=
  fun _ _ _ => .pure ⟨True.intro, rfl⟩

/-- The copy of siblings that are all present has as many of them. -/
def CopiesAll (es es' : List Expr) : Prop :=
  (∀ e ∈ es, e.isAbsent = false) → es'.length = es.length ∧ ∀ e ∈ es', e.isAbsent = false

theorem CopiesAll.cons {e e' : Expr} {es es' : List Expr} (he : e'.isAbsent = e.isAbsent)
    (hes : CopiesAll es es') : CopiesAll (e :: es) (consPresent e' es') := by
  intro h
  obtain ⟨h, hall⟩ := List.forall_mem_cons.1 h
  obtain ⟨hlength, hpresent⟩ := hes hall
  simp_all [consPresent]

theorem allSound_consPresent {e : Expr} {es : List Expr} (he : e.Sound z)
    (hes : Expr.AllSound z es) : Expr.AllSound z (consPresent e es) := by
  unfold consPresent
  split
  · exact hes
  · exact ⟨he, hes⟩

mutual

theorem expr_sound {hole : Hole} (hh : FillsSoundly z hole) :
    (e : Expr) → e.Sound z →
      Gives (expr hole e) fun e' => e'.Sound z ∧ e'.isAbsent = e.isAbsent
  | .absent, _ | .nil _, _ | .blank _, _ | .old _, _ | .next _, _ | .retry _, _ | .ident .., _ =>
    .pure ⟨True.intro, rfl⟩
  | .value _ _, h => .pure ⟨h, rfl⟩
  | .string _ es, h | .sequence _ _ es, h => (exprs_sound hh es h).bind fun _ hes => .pure ⟨hes.1, rfl⟩
  | .constCall _ _ args, h =>
    (exprs_sound hh args h.2).bind fun _ ha => .pure ⟨⟨h.1, ha.1⟩, rfl⟩
  | .map _ entries, h =>
    (exprs_sound hh entries h.2).bind fun _ he =>
      have hall := he.2 h.1.2
      .pure ⟨⟨⟨hall.1 ▸ h.1.1, hall.2⟩, he.1⟩, rfl⟩
  | .call _ fn args, h =>
    (expr_sound hh fn h.1).bind fun _ hf => (exprs_sound hh args h.2.2).bind fun _ ha =>
      .pure ⟨⟨hf.1, (ha.2 h.2.1).2, ha.1⟩, rfl⟩
  | .resolve _ a _, h | .not _ a, h | .loop _ a, h | .exit _ a, h | .each _ a, h | .ret _ a, h
  | .inline _ a, h => (expr_sound hh a h).bind fun _ ha => .pure ⟨ha.1, rfl⟩
  | .assign _ a b, h | .logic _ _ a b, h | .exitTest _ _ a b, h | .suspend _ a b, h =>
    (expr_sound hh a h.1).bind fun _ ha => (expr_sound hh b h.2).bind fun _ hb =>
      .pure ⟨⟨ha.1, hb.1⟩, rfl⟩
  | .cond _ arms otherwise, h =>
    (condCases_sound hh arms h.1).bind fun _ ha => (expr_sound hh otherwise h.2).bind fun _ ho =>
      .pure ⟨⟨ha, ho.1⟩, rfl⟩
  | .forIn _ _ names _ seq body otherwise, h =>
    (declOption_gives _).bind fun _ _ => (decls_length names).bind fun _ hn =>
      (expr_sound hh seq h.2.1).bind fun _ hs => (expr_sound hh body h.2.2.1).bind fun _ hb =>
        (expr_sound hh otherwise h.2.2.2).bind fun _ ho =>
          .pure ⟨⟨fun hu => hn.trans (h.1 hu), hs.1, hb.1, ho.1⟩, rfl⟩
  | .block _ vars lets defs body caught, h => fun s =>
    (decls_renames vars s).bind fun _ s₁ _ _ hvars =>
      (decls_renames lets s₁).bind fun _ s₂ _ h₂ hlets =>
        (decls_renames defs s₂).bind fun _ s₃ hs₃ h₃ hdefs =>
          have hvars := (hvars.mono h₂).mono h₃
          have hlets := hlets.mono h₃
          (statements_sound hh body h.2.1 s₃ hvars hlets hdefs).bind fun _ s₄ _ _ hb =>
            (handlers_sound hh caught h.2.2 s₄).bind fun _ _ _ _ hc =>
              .pure ⟨⟨(hvars.append hlets).not_mem_id hs₃ hdefs h.1, hb, hc⟩, rfl⟩
  -- declarations stand only among the statements of a block
  | .bind .., h => h.elim
  | .function _ ps _ _ body, h | .method _ _ ps _ body, h =>
    (params_sound hh ps h.1).bind fun _ hp => (expr_sound hh body h.2).bind fun _ hb =>
      .pure ⟨⟨hp, hb.1⟩, rfl⟩
  | .scoped _ _ values body, h =>
    (decls_length _).bind fun _ _ => (exprs_sound hh values h.1).bind fun _ hv =>
      (expr_sound hh body h.2).bind fun _ hb => .pure ⟨⟨hv.1, hb.1⟩, rfl⟩
  | .switch _ subject arms otherwise, h =>
    (expr_sound hh subject h.1).bind fun _ hs => (exprs_sound hh arms h.2.1).bind fun _ ha =>
      (expr_sound hh otherwise h.2.2).bind fun _ ho => .pure ⟨⟨hs.1, ha.1, ho.1⟩, rfl⟩
  | .select _ subject clauses otherwise, h =>
    (expr_sound hh subject h.1).bind fun _ hs =>
      (selectClauses_sound hh clauses h.2.1).bind fun _ hc =>
        (expr_sound hh otherwise h.2.2).bind fun _ ho => .pure ⟨⟨hs.1, hc, ho.1⟩, rfl⟩
  -- unquotes inside of another quote are kept
  | .quote _ body args, h =>
    (expr_sound keepHole_fillsSoundly body h.2.1).bind fun _ hb =>
      (exprs_sound keepHole_fillsSoundly args h.2.2).bind fun _ ha =>
        .pure ⟨⟨hb.2.trans h.1, hb.1, ha.1⟩, rfl⟩
  | .unquote span index name, _ => hh span index name
  | .generator _ value clauses, h =>
    (expr_sound hh value h.1).bind fun _ hv => (genClauses_sound hh clauses h.2).bind fun _ hc =>
      .pure ⟨⟨hv.1, hc⟩, rfl⟩

theorem exprs_sound {hole : Hole} (hh : FillsSoundly z hole) :
    (es : List Expr) → Expr.AllSound z es →
      Gives (exprs hole es) fun es' => Expr.AllSound z es' ∧ CopiesAll es es'
  | [], _ => .pure ⟨True.intro, fun h => ⟨rfl, h⟩⟩
  | e :: es, h =>
    (expr_sound hh e h.1).bind fun _ he => (exprs_sound hh es h.2).bind fun _ hes =>
      .pure ⟨allSound_consPresent he.1 hes.1, .cons he.2 hes.2⟩

theorem statements_sound {hole : Hole} (hh : FillsSoundly z hole)
    {vars vars' lets lets' defs defs' : List Decl} :
    (es : List Expr) → Expr.StatementsSound z vars lets defs es → (s : Renumbering) →
      s.Renames vars vars' → s.Renames lets lets' → s.Renames defs defs' →
      GivesFrom s (exprs hole es) fun es' _ => Expr.StatementsSound z vars' lets' defs' es'
  | [], _, _, _, _, _ => .pure True.intro
  | e :: es, h, s, hvars, hlets, hdefs => by
    obtain ⟨he, hes⟩ := Expr.statementsSound_cons.1 h
    have hstep : GivesFrom s (expr hole e) fun e' _ =>
        e'.SoundStatement z vars' lets' defs' ∧ e'.isAbsent = false := by
      cases e
      case bind binder _ ds init =>
        refine (decls_renames ds s).bind fun _ s₁ _ h₁ hds => ?_
        refine (expr_sound hh init he.2 s₁).bind fun _ _ _ _ hv => .pure ?_
        exact ⟨⟨(hvars.mono h₁).declares (hlets.mono h₁) (hdefs.mono h₁) hds he.1, hv.1⟩, rfl⟩
      all_goals
        exact (expr_sound hh _ he.2 s).imp fun _ _ hv =>
          ⟨hv.1.statement (hv.2.trans he.1), hv.2.trans he.1⟩
    refine hstep.bind fun e' s' _ hext he' => ?_
    refine (statements_sound hh es hes s' (hvars.mono hext) (hlets.mono hext)
      (hdefs.mono hext)).bind fun es' _ _ _ hes' => .pure ?_
    rw [consPresent, he'.2]
    exact Expr.statementsSound_cons.2 ⟨he'.1, hes'⟩

theorem condCases_sound {hole : Hole} (hh : FillsSoundly z hole) :
    (cs : List CondCase) → CondCase.AllSound z cs →
      Gives (condCases hole cs) (CondCase.AllSound z)
  | [], _ => .pure True.intro
  | ⟨_, _, cond, body⟩ :: cs, h =>
    (expr_sound hh cond h.1).bind fun _ hc => (expr_sound hh body h.2.1).bind fun _ hb =>
      (condCases_sound hh cs h.2.2).bind fun _ hcs => .pure ⟨hc.1, hb.1, hcs⟩

theorem handlers_sound {hole : Hole} (hh : FillsSoundly z hole) :
    (hs : List Handler) → Handler.AllSound z hs → Gives (handlers hole hs) (Handler.AllSound z)
  | [], _ => .pure True.intro
  | ⟨_, _, types, body⟩ :: hs, h =>
    (exprs_sound hh types h.1).bind fun _ ht => (expr_sound hh body h.2.1).bind fun _ hb =>
      (handlers_sound hh hs h.2.2).bind fun _ hhs => .pure ⟨ht.1, hb.1, hhs⟩

theorem selectClauses_sound {hole : Hole} (hh : FillsSoundly z hole) :
    (cs : List SelectClause) → SelectClause.AllSound z cs →
      Gives (selectClauses hole cs) (SelectClause.AllSound z)
  | [], _ => .pure True.intro
  | ⟨_, _, values, body⟩ :: cs, h =>
    (exprs_sound hh values h.1).bind fun _ hv => (expr_sound hh body h.2.1).bind fun _ hb =>
      (selectClauses_sound hh cs h.2.2).bind fun _ hcs => .pure ⟨hv.1, hb.1, hcs⟩

theorem genClauses_sound {hole : Hole} (hh : FillsSoundly z hole) :
    (cs : List GenClause) → GenClause.AllSound z cs →
      Gives (genClauses hole cs) (GenClause.AllSound z)
  | [], _ => .pure True.intro
  | ⟨_, filter, _, names, _, seq⟩ :: cs, h =>
    (expr_sound hh filter h.2.1).bind fun _ hf => (declOption_gives _).bind fun _ _ =>
      (decls_length names).bind fun _ hn => (expr_sound hh seq h.2.2.1).bind fun _ hs =>
        (genClauses_sound hh cs h.2.2.2).bind fun _ hcs =>
          .pure ⟨fun ha hu => hn.trans (h.1 (hf.2 ▸ ha) hu), hf.1, hs.1, hcs⟩

theorem params_sound {hole : Hole} (hh : FillsSoundly z hole) :
    (ps : List Param) → Param.AllSound z ps → Gives (params hole ps) (Param.AllSound z)
  | [], _ => .pure True.intro
  | ⟨_, _, type⟩ :: ps, h =>
    (expr_sound hh type h.1).bind fun _ ht => (params_sound hh ps h.2).bind fun _ hps =>
      .pure ⟨ht.1, hps⟩

end

theorem fillHole_fillsSoundly {args : List Value} (hargs : ∀ v ∈ args, v.Sound z) :
    FillsSoundly z (fillHole args) := by
  intro span index name
  unfold fillHole
  split
  · rename_i e he
    have hv : Value.Sound z (.expr e) := hargs _ (List.mem_of_getElem? he)
    intro s hs
    obtain ⟨hext, -, h⟩ := expr_sound keepHole_fillsSoundly e hv.2 ⟨s.next, []⟩ (.empty s.next)
    exact ⟨⟨hext.1, fun _ _ ha => ha⟩, ⟨fun a x ha => (hs.below a x ha).trans_le hext.1, hs.inj⟩,
      h.1, h.2.trans hv.1⟩
  · rename_i v _ he
    exact .pure ⟨hargs _ (List.mem_of_getElem? he), rfl⟩
  · exact .pure ⟨True.intro, rfl⟩

end Copying

/-- A quoted expression that is filled with sound values is sound. -/
theorem Expr.Sound.instantiate {z : CapturedCounts} {template : Expr} {args : List Value}
    (h : template.Sound z) (hargs : ∀ v ∈ args, v.Sound z) (next : Nat) :
    (template.instantiate args next).1.Sound z ∧
      (template.instantiate args next).1.isAbsent = template.isAbsent :=
  (Copying.expr_sound (Copying.fillHole_fillsSoundly hargs) template h ⟨next, []⟩
    (.empty next)).2.2

end StagedScript
