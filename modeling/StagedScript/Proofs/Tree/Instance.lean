import StagedScript.Proofs.Tree.Digest
import StagedScript.Tree.Copy
import Mathlib.Data.List.Forall2

/-!
# Filling the holes of quoted expressions

Instantiating a template replaces its unquotes and nothing else.  A path names a part of an
expression, and no path leads into a quote, since the unquotes in there are its own.  At the path of
an unquote the instance has its argument, and at any other path of the template it has the same
node.
-/

namespace StagedScript

def Decl.anonymous (d : Decl) : Decl := { d with id := 0 }

namespace Expr

/-- The parts of an expression that stand alone. They may be left out. -/
def slots : Expr → List Expr
  | .assign _ a b | .logic _ _ a b | .exitTest _ _ a b | .suspend _ a b | .switch _ a _ b => [a, b]
  | .call _ a _ | .resolve _ a _ | .not _ a | .loop _ a | .exit _ a | .each _ a | .bind _ _ _ _ a
  | .ret _ a | .scoped _ _ _ a | .inline _ a | .quote _ a _ => [a]
  | .cond _ arms a => a :: arms.flatMap fun c => [c.cond, c.body]
  | .forIn _ _ _ _ a b c => [a, b, c]
  | .block _ _ _ _ _ handlers => handlers.map (·.body)
  | .function _ params _ _ a | .method _ _ params _ a => a :: params.map (·.type)
  | .select _ a clauses b => a :: b :: clauses.map (·.body)
  | .generator _ a clauses => a :: clauses.flatMap fun c => [c.filter, c.seq]
  | _ => []

/-- The parts of an expression that stand in lists. -/
def siblings : Expr → List Expr
  | .string _ es | .call _ _ es | .constCall _ _ es | .scoped _ _ es _ | .switch _ _ es _
  | .sequence _ _ es | .map _ es | .quote _ _ es => es
  | .block _ _ _ _ es handlers => es ++ handlers.flatMap (·.types)
  | .select _ _ clauses _ => clauses.flatMap (·.values)
  | _ => []

def gaps (es : List Expr) : List Expr := es.map fun _ => .absent

end Expr

def CondCase.hollow (c : CondCase) : CondCase := ⟨c.line, c.guard, .absent, .absent⟩

def Handler.hollow (h : Handler) : Handler := ⟨h.line, h.name, Expr.gaps h.types, .absent⟩

def SelectClause.hollow (c : SelectClause) : SelectClause :=
  ⟨c.line, c.method, Expr.gaps c.values, .absent⟩

def GenClause.hollow (c : GenClause) : GenClause :=
  ⟨c.line, .absent, c.key.map Decl.anonymous, c.names.map Decl.anonymous, c.unpack, .absent⟩

def Param.hollow (p : Param) : Param := ⟨p.name, p.line, .absent⟩

namespace Expr

/-- An expression with all its parts left out and without the identities of its declarations. -/
def hollow : Expr → Expr
  | .string s es => .string s (gaps es)
  | .assign s _ _ => .assign s .absent .absent
  | .call s _ es => .call s .absent (gaps es)
  | .constCall s fn es => .constCall s fn (gaps es)
  | .resolve s _ name => .resolve s .absent name
  | .logic s op _ _ => .logic s op .absent .absent
  | .not s _ => .not s .absent
  | .cond s arms _ => .cond s (arms.map CondCase.hollow) .absent
  | .loop s _ => .loop s .absent
  | .exit s _ => .exit s .absent
  | .exitTest s test _ _ => .exitTest s test .absent .absent
  | .forIn s key names unpack _ _ _ =>
    .forIn s (key.map Decl.anonymous) (names.map Decl.anonymous) unpack .absent .absent .absent
  | .each s _ => .each s .absent
  | .block s vars lets defs es handlers =>
    .block s (vars.map Decl.anonymous) (lets.map Decl.anonymous) (defs.map Decl.anonymous) (gaps es)
      (handlers.map Handler.hollow)
  | .bind s binder pattern ds _ => .bind s binder pattern (ds.map Decl.anonymous) .absent
  | .function s params extra named _ =>
    .function s (params.map Param.hollow) extra named .absent
  | .method s name params extra _ =>
    .method s name (params.map Param.hollow) extra .absent
  | .ret s _ => .ret s .absent
  | .suspend s _ _ => .suspend s .absent .absent
  | .scoped s ds es _ => .scoped s (ds.map Decl.anonymous) (gaps es) .absent
  | .switch s _ es _ => .switch s .absent (gaps es) .absent
  | .select s _ clauses _ => .select s .absent (clauses.map SelectClause.hollow) .absent
  | .sequence s kind es => .sequence s kind (gaps es)
  | .map s es => .map s (gaps es)
  | .inline s _ => .inline s .absent
  | .quote s _ es => .quote s .absent (gaps es)
  | .generator s _ clauses => .generator s .absent (clauses.map GenClause.hollow)
  | e => e

def children (e : Expr) : List Expr := e.slots ++ e.siblings

def isQuote : Expr → Bool
  | .quote .. => true
  | _ => false

def isUnquote : Expr → Bool
  | .unquote .. => true
  | _ => false

/-- The part of an expression at a path. No path leads into a quote. -/
def part? : (path : List Nat) → Expr → Option Expr
  | [], e => some e
  | i :: path, e => if e.isQuote then none else e.children[i]?.bind (part? path)

/-- An expression has no unquotes outside the quotes in it. -/
def Closed (e : Expr) : Prop := ∀ path x, e.part? path = some x → x.isUnquote = false

/-- Siblings form a chain, so that none of them is left out, here and in all parts. -/
inductive Proper : Expr → Prop
  | intro {e : Expr} (hsiblings : ∀ c ∈ e.siblings, c.isAbsent = false)
      (hparts : ∀ c ∈ e.children, Proper c) : Proper e

namespace Proper

variable {e : Expr}

theorem siblings : e.Proper → ∀ c ∈ e.siblings, c.isAbsent = false
  | intro hsiblings _ => hsiblings

theorem children : e.Proper → ∀ c ∈ e.children, c.Proper
  | intro _ hparts => hparts

end Proper

end Expr

namespace Copying

def Hole.Fills (hole : Hole) : Prop :=
  ∀ span index name s, (hole span index name s).1.isAbsent = false

def IsCopy (hole : Hole) (e e' : Expr) : Prop := ∃ s, (expr hole e s).1 = e'

variable {hole : Hole}

theorem isAbsent_expr (hh : hole.Fills) (e : Expr) (s : Renumbering) :
    (expr hole e s).1.isAbsent = e.isAbsent := by
  cases e with
  | unquote span index name => exact hh span index name s
  | _ => rfl

/-! ### One step of copying -/

theorem decl_anonymous (d : Decl) (s : Renumbering) : (decl d s).1.anonymous = d.anonymous := by
  unfold decl
  split <;> rfl

theorem decls_anonymous (ds : List Decl) (s : Renumbering) :
    (decls ds s).1.map Decl.anonymous = ds.map Decl.anonymous := by
  induction ds generalizing s with
  | nil => rfl
  | cons d ds ih => exact List.cons_eq_cons.2 ⟨decl_anonymous d s, ih _⟩

theorem declOption_anonymous (d : Option Decl) (s : Renumbering) :
    (declOption d s).1.map Decl.anonymous = d.map Decl.anonymous := by
  cases d with
  | none => rfl
  | some d => exact congrArg some (decl_anonymous d s)

theorem gaps_eq {es es' : List Expr} (h : List.Forall₂ (IsCopy hole) es es') :
    Expr.gaps es' = Expr.gaps es := by
  induction h with
  | nil => rfl
  | cons _ _ ih => exact congrArg (List.cons .absent) ih

theorem exprs_copies (hh : hole.Fills) {es : List Expr} (hes : ∀ e ∈ es, e.isAbsent = false)
    (s : Renumbering) : List.Forall₂ (IsCopy hole) es (exprs hole es s).1 := by
  induction es generalizing s with
  | nil => exact .nil
  | cons e es ih =>
    obtain ⟨he, hes⟩ := List.forall_mem_cons.1 hes
    have hrest := ih hes (expr hole e s).2
    -- An absent copy would take no place in the chain, and the copies after it would move up.
    change List.Forall₂ _ _ (consPresent (expr hole e s).1 (exprs hole es (expr hole e s).2).1)
    rw [consPresent, isAbsent_expr hh, he, if_neg Bool.false_ne_true]
    exact .cons ⟨s, rfl⟩ hrest

theorem condCases_copies (cs : List CondCase) (s : Renumbering) :
    (condCases hole cs s).1.map CondCase.hollow = cs.map CondCase.hollow ∧
      List.Forall₂ (IsCopy hole) (cs.flatMap fun c => [c.cond, c.body])
        ((condCases hole cs s).1.flatMap fun c => [c.cond, c.body]) := by
  induction cs generalizing s with
  | nil => exact ⟨rfl, .nil⟩
  | cons c cs ih =>
    obtain ⟨line, guard, cond, body⟩ := c
    obtain ⟨hhollow, hparts⟩ := ih (expr hole body (expr hole cond s).2).2
    exact ⟨List.cons_eq_cons.2 ⟨rfl, hhollow⟩, .cons ⟨_, rfl⟩ (.cons ⟨_, rfl⟩ hparts)⟩

theorem handlers_copies (hh : hole.Fills) {hs : List Handler}
    (hpresent : ∀ e ∈ hs.flatMap (·.types), e.isAbsent = false) (s : Renumbering) :
    (handlers hole hs s).1.map Handler.hollow = hs.map Handler.hollow ∧
      List.Forall₂ (IsCopy hole) (hs.map (·.body)) ((handlers hole hs s).1.map (·.body)) ∧
      List.Forall₂ (IsCopy hole) (hs.flatMap (·.types))
        ((handlers hole hs s).1.flatMap (·.types)) := by
  induction hs generalizing s with
  | nil => exact ⟨rfl, .nil, .nil⟩
  | cons h hs ih =>
    obtain ⟨line, name, types, body⟩ := h
    rw [List.flatMap_cons, List.forall_mem_append] at hpresent
    have htypes := exprs_copies hh hpresent.1 s
    obtain ⟨hhollow, hbodies, hrest⟩ := ih hpresent.2 (expr hole body (exprs hole types s).2).2
    have hhead := congrArg (Handler.mk line name · .absent) (gaps_eq htypes)
    exact ⟨List.cons_eq_cons.2 ⟨hhead, hhollow⟩, .cons ⟨_, rfl⟩ hbodies,
      List.rel_append htypes hrest⟩

theorem selectClauses_copies (hh : hole.Fills) {cs : List SelectClause}
    (hpresent : ∀ e ∈ cs.flatMap (·.values), e.isAbsent = false) (s : Renumbering) :
    (selectClauses hole cs s).1.map SelectClause.hollow = cs.map SelectClause.hollow ∧
      List.Forall₂ (IsCopy hole) (cs.map (·.body)) ((selectClauses hole cs s).1.map (·.body)) ∧
      List.Forall₂ (IsCopy hole) (cs.flatMap (·.values))
        ((selectClauses hole cs s).1.flatMap (·.values)) := by
  induction cs generalizing s with
  | nil => exact ⟨rfl, .nil, .nil⟩
  | cons c cs ih =>
    obtain ⟨line, method, values, body⟩ := c
    rw [List.flatMap_cons, List.forall_mem_append] at hpresent
    have hvalues := exprs_copies hh hpresent.1 s
    obtain ⟨hhollow, hbodies, hrest⟩ := ih hpresent.2 (expr hole body (exprs hole values s).2).2
    have hhead := congrArg (SelectClause.mk line method · .absent) (gaps_eq hvalues)
    exact ⟨List.cons_eq_cons.2 ⟨hhead, hhollow⟩, .cons ⟨_, rfl⟩ hbodies,
      List.rel_append hvalues hrest⟩

theorem genClauses_copies (cs : List GenClause) (s : Renumbering) :
    (genClauses hole cs s).1.map GenClause.hollow = cs.map GenClause.hollow ∧
      List.Forall₂ (IsCopy hole) (cs.flatMap fun c => [c.filter, c.seq])
        ((genClauses hole cs s).1.flatMap fun c => [c.filter, c.seq]) := by
  induction cs generalizing s with
  | nil => exact ⟨rfl, .nil⟩
  | cons c cs ih =>
    obtain ⟨line, filter, key, names, unpack, seq⟩ := c
    obtain ⟨hhollow, hparts⟩ := ih
      (expr hole seq (decls names (declOption key (expr hole filter s).2).2).2).2
    have hhead (s s' : Renumbering) := congrArg₂ (GenClause.mk line .absent · · unpack .absent)
      (declOption_anonymous key s) (decls_anonymous names s')
    exact ⟨List.cons_eq_cons.2 ⟨hhead _ _, hhollow⟩, .cons ⟨_, rfl⟩ (.cons ⟨_, rfl⟩ hparts)⟩

theorem params_copies (ps : List Param) (s : Renumbering) :
    (params hole ps s).1.map Param.hollow = ps.map Param.hollow ∧
      List.Forall₂ (IsCopy hole) (ps.map (·.type)) ((params hole ps s).1.map (·.type)) := by
  induction ps generalizing s with
  | nil => exact ⟨rfl, .nil⟩
  | cons p ps ih =>
    obtain ⟨name, line, type⟩ := p
    obtain ⟨hhollow, htypes⟩ := ih (expr hole type s).2
    exact ⟨List.cons_eq_cons.2 ⟨rfl, hhollow⟩, .cons ⟨_, rfl⟩ htypes⟩

/-- An expression is the same node as another one, with related parts. -/
structure SameNode (R : Expr → Expr → Prop) (e e' : Expr) : Prop where
  hollow_eq : e'.hollow = e.hollow
  slots : List.Forall₂ R e.slots e'.slots
  siblings : List.Forall₂ R e.siblings e'.siblings

/-- The copy of a node has the copies of its parts. -/
theorem expr_sameNode (hh : hole.Fills) {e : Expr} (hquote : e.isQuote = false)
    (hunquote : e.isUnquote = false) (hpresent : ∀ c ∈ e.siblings, c.isAbsent = false)
    (s : Renumbering) : SameNode (IsCopy hole) e (expr hole e s).1 := by
  cases e
  case absent | nil | blank | old | next | retry | value | ident => exact ⟨rfl, .nil, .nil⟩
  case quote => cases hquote
  case unquote => cases hunquote
  case not | loop | exit | each | ret | inline | resolve => exact ⟨rfl, .cons ⟨_, rfl⟩ .nil, .nil⟩
  case assign | logic | exitTest | suspend =>
    exact ⟨rfl, .cons ⟨_, rfl⟩ (.cons ⟨_, rfl⟩ .nil), .nil⟩
  case string span es =>
    have hes := exprs_copies hh hpresent s
    exact ⟨congrArg (Expr.string span) (gaps_eq hes), .nil, hes⟩
  case sequence span kind es =>
    have hes := exprs_copies hh hpresent s
    exact ⟨congrArg (Expr.sequence span kind) (gaps_eq hes), .nil, hes⟩
  case map span es =>
    have hes := exprs_copies hh hpresent s
    exact ⟨congrArg (Expr.map span) (gaps_eq hes), .nil, hes⟩
  case constCall span fn es =>
    have hes := exprs_copies hh hpresent s
    exact ⟨congrArg (Expr.constCall span fn) (gaps_eq hes), .nil, hes⟩
  case call span fn es =>
    have hes := exprs_copies hh hpresent (expr hole fn s).2
    exact ⟨congrArg (Expr.call span .absent) (gaps_eq hes), .cons ⟨_, rfl⟩ .nil, hes⟩
  case switch span subject es otherwise =>
    have hes := exprs_copies hh hpresent (expr hole subject s).2
    exact ⟨congrArg (Expr.switch span .absent · .absent) (gaps_eq hes),
      .cons ⟨_, rfl⟩ (.cons ⟨_, rfl⟩ .nil), hes⟩
  case bind span binder pattern ds value =>
    exact ⟨congrArg (Expr.bind span binder pattern · .absent) (decls_anonymous _ _),
      .cons ⟨_, rfl⟩ .nil, .nil⟩
  case «scoped» span ds es body =>
    have hes := exprs_copies hh hpresent (decls ds s).2
    exact ⟨congrArg₂ (Expr.scoped span · · .absent) (decls_anonymous _ _) (gaps_eq hes),
      .cons ⟨_, rfl⟩ .nil, hes⟩
  case forIn span key names unpack seq body otherwise =>
    exact ⟨congrArg₂ (Expr.forIn span · · unpack .absent .absent .absent)
      (declOption_anonymous _ _) (decls_anonymous _ _),
      .cons ⟨_, rfl⟩ (.cons ⟨_, rfl⟩ (.cons ⟨_, rfl⟩ .nil)), .nil⟩
  case cond span arms otherwise =>
    obtain ⟨hhollow, hparts⟩ := condCases_copies arms s
    exact ⟨congrArg (Expr.cond span · .absent) hhollow, .cons ⟨_, rfl⟩ hparts, .nil⟩
  case function span ps extra named body =>
    obtain ⟨hhollow, hparts⟩ := params_copies ps s
    exact ⟨congrArg (Expr.function span · extra named .absent) hhollow, .cons ⟨_, rfl⟩ hparts, .nil⟩
  case method span name ps extra body =>
    obtain ⟨hhollow, hparts⟩ := params_copies ps s
    exact ⟨congrArg (Expr.method span name · extra .absent) hhollow, .cons ⟨_, rfl⟩ hparts, .nil⟩
  case generator span value clauses =>
    obtain ⟨hhollow, hparts⟩ := genClauses_copies clauses (expr hole value s).2
    exact ⟨congrArg (Expr.generator span .absent) hhollow, .cons ⟨_, rfl⟩ hparts, .nil⟩
  case select span subject clauses otherwise =>
    obtain ⟨hhollow, hbodies, hvalues⟩ := selectClauses_copies hh hpresent (expr hole subject s).2
    exact ⟨congrArg (Expr.select span .absent · .absent) hhollow,
      .cons ⟨_, rfl⟩ (.cons ⟨_, rfl⟩ hbodies), hvalues⟩
  case block span vars lets defs body caught =>
    have hall := List.forall_mem_append.1 hpresent
    have hbody := exprs_copies hh hall.1 (decls defs (decls lets (decls vars s).2).2).2
    obtain ⟨hhollow, hbodies, htypes⟩ := handlers_copies hh hall.2
      (exprs hole body (decls defs (decls lets (decls vars s).2).2).2).2
    refine ⟨?_, hbodies, List.rel_append hbody htypes⟩
    change Expr.block span _ _ _ _ _ = Expr.block span _ _ _ _ _
    rw [decls_anonymous, decls_anonymous, decls_anonymous, gaps_eq hbody, hhollow]

/-! ### Paths -/

theorem SameNode.children {R : Expr → Expr → Prop} {e e' : Expr} (h : SameNode R e e') :
    List.Forall₂ R e.children e'.children := List.rel_append h.slots h.siblings

theorem isQuote_eq_of_hollow {e e' : Expr} (h : e'.hollow = e.hollow) : e'.isQuote = e.isQuote := by
  have hollow_isQuote (e : Expr) : e.hollow.isQuote = e.isQuote := by cases e <;> rfl
  rw [← hollow_isQuote, h, hollow_isQuote]

theorem isUnquote_eq_of_hollow {e e' : Expr} (h : e'.hollow = e.hollow) :
    e'.isUnquote = e.isUnquote := by
  have hollow_isUnquote (e : Expr) : e.hollow.isUnquote = e.isUnquote := by cases e <;> rfl
  rw [← hollow_isUnquote, h, hollow_isUnquote]

variable {path : List Nat} {i : Nat}

theorem part?_cons_eq_some {e x : Expr} (h : e.part? (i :: path) = some x) :
    e.isQuote = false ∧ ∃ c, e.children[i]? = some c ∧ c.part? path = some x := by
  rw [Expr.part?] at h
  split at h
  · cases h
  · exact ⟨Bool.eq_false_iff.2 ‹_›, Option.bind_eq_some_iff.1 h⟩

theorem part?_cons {e c : Expr} (hquote : e.isQuote = false) (hc : e.children[i]? = some c)
    (path : List Nat) : e.part? (i :: path) = c.part? path := by
  rw [Expr.part?, hquote, hc]
  rfl

theorem getElem?_right {R : Expr → Expr → Prop} {es es' : List Expr} (h : List.Forall₂ R es es')
    {e : Expr} (he : es[i]? = some e) : ∃ e', es'[i]? = some e' ∧ R e e' := by
  induction h generalizing i with
  | nil => cases he
  | cons hR _ ih =>
    cases i with
    | zero =>
      obtain rfl := Option.some.inj he
      exact ⟨_, rfl, hR⟩
    | succ i => exact ih he

theorem isUnquote_eq_false_of_children {e c : Expr} (hc : e.children[i]? = some c) :
    e.isUnquote = false := by
  cases e
  case unquote => cases hc
  all_goals rfl

/-- What stands at a path of an expression stands there in its copy. -/
theorem part?_expr (hh : hole.Fills) {e x : Expr} (he : e.Proper) (hx : e.part? path = some x)
    (s : Renumbering) : ∃ s', (expr hole e s).1.part? path = some (expr hole x s').1 := by
  induction path generalizing e s with
  | nil =>
    obtain rfl := Option.some.inj hx
    exact ⟨s, rfl⟩
  | cons i path ih =>
    obtain ⟨hquote, c, hc, hx⟩ := part?_cons_eq_some hx
    have hnode := expr_sameNode hh hquote (isUnquote_eq_false_of_children hc) he.siblings s
    obtain ⟨c', hc', s', rfl⟩ := getElem?_right hnode.children hc
    rw [part?_cons ((isQuote_eq_of_hollow hnode.hollow_eq).trans hquote) hc']
    exact ih (he.children c (List.mem_of_getElem? hc)) hx s'

/-- What stands at a path of a copy is a copy, or belongs to what fills a hole. -/
theorem part?_of_expr (hh : hole.Fills) {e x : Expr} (he : e.Proper) {s : Renumbering}
    (hx : (expr hole e s).1.part? path = some x) :
    (∃ y, e.part? path = some y ∧ y.isUnquote = false ∧ IsCopy hole y x) ∨
      ∃ front rest span index name s', path = front ++ rest ∧
        e.part? front = some (.unquote span index name) ∧
        (expr hole e s).1.part? front = some (hole span index name s').1 ∧
        (hole span index name s').1.part? rest = some x := by
  induction path generalizing e s with
  | nil =>
    obtain rfl := Option.some.inj hx
    cases hunquote : e.isUnquote with
    | false => exact .inl ⟨e, rfl, hunquote, s, rfl⟩
    | true =>
      cases e <;> cases hunquote
      exact .inr ⟨[], [], _, _, _, s, rfl, rfl, rfl, rfl⟩
  | cons i path ih =>
    cases hunquote : e.isUnquote with
    | true =>
      -- The rest of the path runs through what fills the hole, and no longer through the expression.
      cases e <;> cases hunquote
      exact .inr ⟨[], i :: path, _, _, _, s, rfl, rfl, rfl, hx⟩
    | false =>
      obtain ⟨hquote', c', hc', hx⟩ := part?_cons_eq_some hx
      have hquote : e.isQuote = false := by
        cases e
        case quote => cases hquote'
        all_goals rfl
      have hnode := expr_sameNode hh hquote hunquote he.siblings s
      obtain ⟨c, hc, s', rfl⟩ := getElem?_right (List.Forall₂.flip hnode.children) hc'
      have hstep := part?_cons hquote hc
      have hstep' := part?_cons hquote' hc'
      obtain ⟨y, hy, hyx⟩ | ⟨front, rest, span, index, name, s', rfl, hfront, hfront', hrest⟩ :=
        ih (he.children c (List.mem_of_getElem? hc)) hx
      · exact .inl ⟨y, (hstep path).trans hy, hyx⟩
      · exact .inr ⟨i :: front, rest, span, index, name, s', rfl, (hstep front).trans hfront,
          (hstep' front).trans hfront', hrest⟩

/-! ### Serial forms of copies -/

theorem keepHole_fills : keepHole.Fills := fun _ _ _ _ => rfl

/-- Copying leaves unquotes as they are: the hole keeps them, or there is none outside quotes. -/
structure Keeps (hole : Hole) (e : Expr) : Prop where
  fills : hole.Fills
  proper : e.Proper
  unquotes : hole = keepHole ∨ e.Closed

namespace Keeps

theorem of_proper {e : Expr} (he : e.Proper) : Keeps keepHole e := ⟨keepHole_fills, he, .inl rfl⟩

variable {e : Expr}

theorem part (h : Keeps hole e) (hquote : e.isQuote = false) {c : Expr} (hc : c ∈ e.children) :
    Keeps hole c := by
  refine ⟨h.fills, h.proper.children c hc, h.unquotes.imp_right fun hclosed path x hx => ?_⟩
  obtain ⟨i, hi⟩ := List.mem_iff_getElem?.1 hc
  exact hclosed (i :: path) x ((part?_cons hquote hi path).trans hx)

theorem slots (h : Keeps hole e) (hquote : e.isQuote = false) : ∀ c ∈ e.slots, Keeps hole c :=
  fun _ hc => h.part hquote (List.mem_append_left _ hc)

theorem siblings (h : Keeps hole e) (hquote : e.isQuote = false) :
    ∀ c ∈ e.siblings, c.isAbsent = false ∧ Keeps hole c :=
  fun c hc => ⟨h.proper.siblings c hc, h.part hquote (List.mem_append_right _ hc)⟩

end Keeps

@[simp] theorem fst_bind {α β : Type} (x : Copying α) (f : α → Copying β) (s : Renumbering) :
    ((x >>= f) s).1 = (f (x s).1 (x s).2).1 := rfl

@[simp] theorem fst_map {α β : Type} (f : α → β) (x : Copying α) (s : Renumbering) :
    ((f <$> x) s).1 = f (x s).1 := rfl

@[simp] theorem serial_decls (ds : List Decl) (s : Renumbering) :
    Serial.decls (decls ds s).1 = Serial.decls ds := by
  have serial_anonymous (ds : List Decl) :
      Serial.decls (ds.map Decl.anonymous) = Serial.decls ds := by
    simp only [Serial.decls, List.length_map, List.flatMap_map]
    rfl
  rw [← serial_anonymous, decls_anonymous, serial_anonymous]

@[simp] theorem serial_declOption (d : Option Decl) (s : Renumbering) :
    Serial.declOption (declOption d s).1 = Serial.declOption d := by
  have serial_anonymous (d : Option Decl) :
      Serial.declOption (d.map Decl.anonymous) = Serial.declOption d := by cases d <;> rfl
  rw [← serial_anonymous, declOption_anonymous, serial_anonymous]

theorem length_exprs (es : List Expr) (h : ∀ e ∈ es, e.isAbsent = false ∧ Keeps hole e)
    (s : Renumbering) : (exprs hole es s).1.length = es.length := by
  cases es with
  | nil => rfl
  | cons e es =>
    have hfills := (h e (List.mem_cons_self ..)).2.fills
    exact (exprs_copies hfills (fun e he => (h e he).1) s).length_eq.symm

theorem length_params (ps : List Param) (s : Renumbering) :
    (params hole ps s).1.length = ps.length := by
  simpa only [List.length_map] using congrArg List.length (@params_copies hole ps s).1

mutual

theorem serial_expr : (e : Expr) → {hole : Hole} → Keeps hole e → (s : Renumbering) →
    Serial.expr (expr hole e s).1 = Serial.expr e
  | .absent, _, _, _ | .nil _, _, _, _ | .blank _, _, _, _ | .old _, _, _, _ | .next _, _, _, _
  | .retry _, _, _, _ | .value .., _, _, _ | .ident .., _, _, _ => rfl
  | .unquote span index name, hole, h, s => by
    obtain rfl | hclosed := h.unquotes
    · rfl
    · cases hclosed [] _ rfl
  | .string _ es, _, h, _ | .sequence _ _ es, _, h, _ | .map _ es, _, h, _
  | .constCall _ _ es, _, h, _ => by
    have hes := h.siblings rfl
    simp [expr, Serial.expr, serial_exprs es hes, length_exprs es hes]
  | .not _ a, _, h, _ | .loop _ a, _, h, _ | .exit _ a, _, h, _ | .each _ a, _, h, _
  | .ret _ a, _, h, _ | .inline _ a, _, h, _ | .resolve _ a _, _, h, _
  | .bind _ _ _ _ a, _, h, _ => by
    simp [expr, Serial.expr, serial_expr a (h.slots rfl a (.head _))]
  | .assign _ a b, _, h, _ | .logic _ _ a b, _, h, _ | .exitTest _ _ a b, _, h, _
  | .suspend _ a b, _, h, _ => by
    have hslots := h.slots rfl
    simp [expr, Serial.expr, serial_expr a (hslots a (.head _)),
      serial_expr b (hslots b (.tail _ (.head _)))]
  | .call _ a es, _, h, _ | .scoped _ _ es a, _, h, _ => by
    have hes := h.siblings rfl
    simp [expr, Serial.expr, serial_expr a (h.slots rfl a (.head _)), serial_exprs es hes,
      length_exprs es hes]
  | .quote _ a es, _, h, _ => by
    -- Inside the quote, whatever the hole, unquotes are kept.
    have hes : ∀ e ∈ es, e.isAbsent = false ∧ Keeps keepHole e := fun e he =>
      ⟨h.proper.siblings e he, .of_proper (h.proper.children e (.tail _ he))⟩
    simp [expr, Serial.expr, serial_expr a (.of_proper (h.proper.children a (.head _))),
      serial_exprs es hes, length_exprs es hes]
  | .switch _ a es b, _, h, _ => by
    have hslots := h.slots rfl
    have hes := h.siblings rfl
    simp [expr, Serial.expr, serial_expr a (hslots a (.head _)),
      serial_expr b (hslots b (.tail _ (.head _))), serial_exprs es hes, length_exprs es hes]
  | .forIn _ _ _ _ a b c, _, h, _ => by
    have hslots := h.slots rfl
    simp [expr, Serial.expr, serial_expr a (hslots a (.head _)),
      serial_expr b (hslots b (.tail _ (.head _))),
      serial_expr c (hslots c (.tail _ (.tail _ (.head _))))]
  | .cond _ arms a, _, h, _ => by
    have hslots := List.forall_mem_cons.1 (h.slots rfl)
    simp [expr, Serial.expr, serial_condCases arms hslots.2, serial_expr a hslots.1]
  | .function _ ps _ _ a, _, h, _ | .method _ _ ps _ a, _, h, _ => by
    have hslots := List.forall_mem_cons.1 (h.slots rfl)
    simp [expr, Serial.expr, serial_params ps hslots.2, length_params, serial_expr a hslots.1]
  | .generator _ a clauses, _, h, _ => by
    have hslots := List.forall_mem_cons.1 (h.slots rfl)
    simp [expr, Serial.expr, serial_genClauses clauses hslots.2, serial_expr a hslots.1]
  | .select _ a clauses b, _, h, _ => by
    obtain ⟨ha, hslots⟩ := List.forall_mem_cons.1 (h.slots rfl)
    obtain ⟨hb, hbodies⟩ := List.forall_mem_cons.1 hslots
    simp [expr, Serial.expr, serial_selectClauses clauses hbodies (h.siblings rfl),
      serial_expr a ha, serial_expr b hb]
  | .block _ _ _ _ es hs, _, h, _ => by
    obtain ⟨hes, htypes⟩ := List.forall_mem_append.1 (h.siblings rfl)
    simp [expr, Serial.expr, serial_exprs es hes, length_exprs es hes,
      serial_handlers hs (h.slots rfl) htypes]

theorem serial_exprs : (es : List Expr) → {hole : Hole} →
    (∀ e ∈ es, e.isAbsent = false ∧ Keeps hole e) → (s : Renumbering) →
    Serial.exprs (exprs hole es s).1 = Serial.exprs es
  | [], _, _, _ => rfl
  | e :: es, hole, h, s => by
    obtain ⟨⟨hpresent, he⟩, hes⟩ := List.forall_mem_cons.1 h
    simp [exprs, consPresent, isAbsent_expr he.fills, hpresent, Serial.exprs, serial_expr e he,
      serial_exprs es hes]

theorem serial_condCases : (cs : List CondCase) → {hole : Hole} →
    (∀ e ∈ cs.flatMap fun c => [c.cond, c.body], Keeps hole e) → (s : Renumbering) →
    Serial.condCases (condCases hole cs s).1 = Serial.condCases cs
  | [], _, _, _ => rfl
  | ⟨_, _, cond, body⟩ :: cs, _, h, _ => by
    obtain ⟨hcond, hrest⟩ := List.forall_mem_cons.1 h
    obtain ⟨hbody, hcs⟩ := List.forall_mem_cons.1 hrest
    simp [condCases, Serial.condCases, serial_expr cond hcond, serial_expr body hbody,
      serial_condCases cs hcs]

theorem serial_handlers : (hs : List Handler) → {hole : Hole} →
    (∀ e ∈ hs.map (·.body), Keeps hole e) →
    (∀ e ∈ hs.flatMap (·.types), e.isAbsent = false ∧ Keeps hole e) → (s : Renumbering) →
    Serial.handlers (handlers hole hs s).1 = Serial.handlers hs
  | [], _, _, _, _ => rfl
  | ⟨_, _, types, body⟩ :: hs, _, hbodies, htypes, _ => by
    obtain ⟨hbody, hbodies⟩ := List.forall_mem_cons.1 hbodies
    obtain ⟨hes, htypes⟩ := List.forall_mem_append.1 htypes
    simp [handlers, Serial.handlers, serial_expr body hbody, serial_exprs types hes,
      length_exprs types hes, serial_handlers hs hbodies htypes]

theorem serial_selectClauses : (cs : List SelectClause) → {hole : Hole} →
    (∀ e ∈ cs.map (·.body), Keeps hole e) →
    (∀ e ∈ cs.flatMap (·.values), e.isAbsent = false ∧ Keeps hole e) → (s : Renumbering) →
    Serial.selectClauses (selectClauses hole cs s).1 = Serial.selectClauses cs
  | [], _, _, _, _ => rfl
  | ⟨_, _, values, body⟩ :: cs, _, hbodies, hvalues, _ => by
    obtain ⟨hbody, hbodies⟩ := List.forall_mem_cons.1 hbodies
    obtain ⟨hes, hvalues⟩ := List.forall_mem_append.1 hvalues
    simp [selectClauses, Serial.selectClauses, serial_expr body hbody, serial_exprs values hes,
      length_exprs values hes, serial_selectClauses cs hbodies hvalues]

theorem serial_genClauses : (cs : List GenClause) → {hole : Hole} →
    (∀ e ∈ cs.flatMap fun c => [c.filter, c.seq], Keeps hole e) → (s : Renumbering) →
    Serial.genClauses (genClauses hole cs s).1 = Serial.genClauses cs
  | [], _, _, _ => rfl
  | ⟨_, filter, _, _, _, seq⟩ :: cs, _, h, _ => by
    obtain ⟨hfilter, hrest⟩ := List.forall_mem_cons.1 h
    obtain ⟨hseq, hcs⟩ := List.forall_mem_cons.1 hrest
    simp [genClauses, Serial.genClauses, serial_expr filter hfilter, serial_expr seq hseq,
      serial_genClauses cs hcs]

theorem serial_params : (ps : List Param) → {hole : Hole} →
    (∀ e ∈ ps.map (·.type), Keeps hole e) → (s : Renumbering) →
    Serial.params (params hole ps s).1 = Serial.params ps
  | [], _, _, _ => rfl
  | ⟨_, _, type⟩ :: ps, _, h, _ => by
    obtain ⟨htype, hps⟩ := List.forall_mem_cons.1 h
    simp [params, Serial.params, serial_expr type htype, serial_params ps hps]

end

/-! ### Instances of templates -/

theorem serialize_expr {e : Expr} (h : Keeps hole e) (s : Renumbering) :
    (expr hole e s).1.serialize = e.serialize := congrArg (Serial.version :: ·) (serial_expr e h s)

/-- The copy of an expression other than an unquote is the same node, with as many parts. -/
theorem expr_hollow (hh : hole.Fills) {e : Expr} (he : e.Proper) (hunquote : e.isUnquote = false)
    (s : Renumbering) :
    (expr hole e s).1.hollow = e.hollow ∧ (expr hole e s).1.slots.length = e.slots.length ∧
      (expr hole e s).1.siblings.length = e.siblings.length := by
  cases hquote : e.isQuote with
  | false =>
    have hnode := expr_sameNode hh hquote hunquote he.siblings s
    exact ⟨hnode.hollow_eq, hnode.slots.length_eq.symm, hnode.siblings.length_eq.symm⟩
  | true =>
    cases e <;> cases hquote
    have hes (s : Renumbering) := exprs_copies keepHole_fills he.siblings s
    exact ⟨congrArg (Expr.quote _ .absent) (gaps_eq (hes _)), rfl, (hes _).length_eq.symm⟩

theorem isUnquote_expr (hh : hole.Fills) {e : Expr} (he : e.Proper) (hunquote : e.isUnquote = false)
    (s : Renumbering) : (expr hole e s).1.isUnquote = false :=
  (isUnquote_eq_of_hollow (expr_hollow hh he hunquote s).1).trans hunquote

end Copying

namespace Expr

/-- What takes the place of an unquote: a copy of an expression, a literal, or nil. -/
inductive FilledBy (args : List Value) (span : Span) (index : Nat) : Expr → Prop
  | tree {e : Expr} {next : Nat} (harg : args[index]? = some (.expr e))
      (hserial : (e.copy next).1.serialize = e.serialize) : FilledBy args span index (e.copy next).1
  | literal {v : Value} (harg : args[index]? = some v) (hv : ∀ e, v ≠ .expr e) :
      FilledBy args span index (.value span v)
  | missing (harg : args[index]? = none) : FilledBy args span index (.value span .nil)

/-- An expression is a template with its own unquotes replaced by arguments. -/
structure IsInstance (template : Expr) (args : List Value) (e : Expr) : Prop where
  /-- Each unquote outside the quotes of the template is replaced by its argument. -/
  filled : ∀ path span index name, template.part? path = some (.unquote span index name) →
    ∃ x, e.part? path = some x ∧ FilledBy args span index x
  /-- All other nodes outside the quotes of the template stay, with as many parts. -/
  node : ∀ path t, template.part? path = some t → t.isUnquote = false →
    ∃ x, e.part? path = some x ∧ x.hollow = t.hollow ∧ x.slots.length = t.slots.length ∧
      x.siblings.length = t.siblings.length
  /-- Quotes in the template keep their serial form. -/
  quote : ∀ path t, template.part? path = some t → t.isQuote = true →
    ∃ x, e.part? path = some x ∧ x.serialize = t.serialize
  /-- So do all parts without unquotes of their own. -/
  closed : ∀ path t, template.part? path = some t → t.Closed →
    ∃ x, e.part? path = some x ∧ x.serialize = t.serialize
  /-- Unquotes outside quotes come with arguments only. -/
  spliced : ∀ path x, e.part? path = some x → x.isUnquote = true →
    ∃ front rest span index name arg next, path = front ++ rest ∧
      template.part? front = some (.unquote span index name) ∧ args[index]? = some (.expr arg) ∧
      e.part? front = some (arg.copy next).1 ∧ (arg.copy next).1.part? rest = some x

open Copying

theorem Proper.part? {e x : Expr} (he : e.Proper) {path : List Nat} (hx : e.part? path = some x) :
    x.Proper := by
  induction path generalizing e with
  | nil =>
    obtain rfl := Option.some.inj hx
    exact he
  | cons i path ih =>
    obtain ⟨-, c, hc, hx⟩ := part?_cons_eq_some hx
    exact ih (he.children c (List.mem_of_getElem? hc)) hx

theorem closed_of_isQuote {e : Expr} (hquote : e.isQuote = true) : e.Closed := by
  intro path x hx
  cases path with
  | nil =>
    obtain rfl := Option.some.inj hx
    cases e <;> cases hquote
    rfl
  | cons i path =>
    rw [(part?_cons_eq_some hx).1] at hquote
    cases hquote

variable {args : List Value}

theorem filledBy_fillHole (hargs : ∀ e, Value.expr e ∈ args → e.Proper) (span : Span)
    (index : Nat) (name : Bytes) (s : Renumbering) :
    FilledBy args span index (fillHole args span index name s).1 := by
  cases harg : args[index]? with
  | none =>
    rw [fillHole, harg]
    exact .missing harg
  | some v =>
    cases v
    case expr e =>
      have hproper := hargs e (List.mem_of_getElem? harg)
      rw [fillHole, harg]
      exact .tree harg (serialize_expr (.of_proper hproper) ⟨s.next, []⟩)
    all_goals
      rw [fillHole, harg]
      exact .literal harg fun e he => by cases he

theorem FilledBy.isAbsent {span : Span} {index : Nat} {x : Expr} (h : FilledBy args span index x)
    (hargs : ∀ e, Value.expr e ∈ args → e.isAbsent = false) : x.isAbsent = false := by
  cases h with
  | tree harg _ =>
    exact (isAbsent_expr keepHole_fills _ _).trans (hargs _ (List.mem_of_getElem? harg))
  | literal | missing => rfl

/-- An unquote in what fills a hole belongs to an expression among the arguments. -/
theorem FilledBy.exists_of_isUnquote {span : Span} {index : Nat} {x y : Expr}
    (h : FilledBy args span index x) {path : List Nat} (hy : x.part? path = some y)
    (hunquote : y.isUnquote = true) :
    ∃ arg next, args[index]? = some (.expr arg) ∧ x = (arg.copy next).1 := by
  have not_literal (v : Value) : (Expr.value span v).part? path ≠ some y := by
    intro hy
    cases path with
    | nil =>
      obtain rfl := Option.some.inj hy
      cases hunquote
    | cons i path =>
      obtain ⟨-, c, hc, -⟩ := part?_cons_eq_some hy
      cases hc
  cases h with
  | tree harg _ => exact ⟨_, _, harg, rfl⟩
  | literal | missing => exact absurd hy (not_literal _)

/-- Instantiating a template replaces its own unquotes and changes nothing else. -/
theorem instantiate_isInstance (template : Expr) (args : List Value) (next : Nat)
    (htemplate : template.Proper)
    (hargs : ∀ e, Value.expr e ∈ args → e.isAbsent = false ∧ e.Proper) :
    template.IsInstance args (template.instantiate args next).1 := by
  have hfilled := filledBy_fillHole fun e he => (hargs e he).2
  have hfills : (fillHole args).Fills := fun span index name s =>
    (hfilled span index name s).isAbsent fun e he => (hargs e he).1
  have hpart {path : List Nat} {t : Expr} (ht : template.part? path = some t) :=
    part?_expr hfills htemplate ht ⟨next, []⟩
  have hclosed (path : List Nat) (t : Expr) (ht : template.part? path = some t) (hc : t.Closed) :
      ∃ x, (template.instantiate args next).1.part? path = some x ∧ x.serialize = t.serialize := by
    obtain ⟨s, hs⟩ := hpart ht
    exact ⟨_, hs, serialize_expr ⟨hfills, htemplate.part? ht, .inr hc⟩ s⟩
  refine ⟨?filled, ?node, fun path t ht hquote => hclosed path t ht (closed_of_isQuote hquote),
    hclosed, ?spliced⟩
  case filled =>
    intro path span index name ht
    obtain ⟨s, hs⟩ := hpart ht
    exact ⟨_, hs, hfilled span index name s⟩
  case node =>
    intro path t ht hunquote
    obtain ⟨s, hs⟩ := hpart ht
    exact ⟨_, hs, expr_hollow hfills (htemplate.part? ht) hunquote s⟩
  case spliced =>
    intro path x hx hunquote
    obtain ⟨y, hy, hyunquote, s, rfl⟩ |
      ⟨front, rest, span, index, name, s, rfl, hfront, hfront', hrest⟩ :=
      part?_of_expr hfills htemplate hx
    · -- The copy of another node is no unquote.
      rw [isUnquote_expr hfills (htemplate.part? hy) hyunquote s] at hunquote
      cases hunquote
    · obtain ⟨arg, m, harg, hm⟩ := (hfilled span index name s).exists_of_isUnquote hrest hunquote
      rw [hm] at hfront' hrest
      exact ⟨front, rest, span, index, name, arg, m, rfl, hfront, harg, hfront', hrest⟩

/-- Only the first three arguments of `f(:$x, :$y, :$z, :{:$x})` are replaced, and the unquote in
the expression that replaces the first one stays. -/
theorem instantiate_isInstance_of_nested_quote :
    let name (c : UInt8) : Expr := .ident .nowhere [c]
    let hole (index : Nat) : Expr := .unquote .nowhere index [120]
    let call (f : Expr) (args : List Expr) : Expr := .call .nowhere f args
    let quoted : Expr := .quote .nowhere (hole 0) [name 120]
    (call (name 102) [hole 0, hole 1, hole 2, quoted]).IsInstance
      [.expr (call (name 103) [hole 0]), .bool true]
      (call (name 102) [call (name 103) [hole 0], .value .nowhere (.bool true),
        .value .nowhere .nil, quoted]) := by
  intro name hole call quoted
  have proper_leaf {e : Expr} (h : e.children = []) : e.Proper := by
    refine .intro (fun c hc => ?_) fun c hc => ?_
    · have hparts : c ∈ e.children := List.mem_append_right _ hc
      cases h ▸ hparts
    · cases h ▸ hc
  have hname (c : UInt8) : (name c).Proper := proper_leaf rfl
  have hhole (index : Nat) : (hole index).Proper := proper_leaf rfl
  have hquoted : quoted.Proper := by
    refine .intro ?_ ?_
    · simp [quoted, name, siblings, isAbsent]
    · simp [quoted, children, slots, siblings, hname, hhole]
  have harg : (call (name 103) [hole 0]).Proper := by
    refine .intro ?_ ?_
    · simp [call, hole, siblings, isAbsent]
    · simp [call, children, slots, siblings, hname, hhole]
  refine instantiate_isInstance (call (name 102) [hole 0, hole 1, hole 2, quoted])
    [.expr (call (name 103) [hole 0]), .bool true] 0 (.intro ?_ ?_) fun e he => ?_
  · simp [call, siblings, hole, quoted, isAbsent]
  · simp [call, children, slots, siblings, hname, hhole, hquoted]
  · obtain rfl : e = call (name 103) [hole 0] := by simpa using he
    exact ⟨rfl, harg⟩

end Expr

end StagedScript
