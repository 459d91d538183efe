import Mathlib.Data.List.TakeWhile
import StagedScript.Proofs.Reading.Comparison
import StagedScript.Proofs.Reading.Lines

/-!
# Precedence of operators

A sequence of operands with operators between them has one tree in which operators of higher
precedence bind more tightly and operators of the same precedence associate to the left.  The grammar
finds this tree, wherever lines end after operators.
-/

variable {op : Operator} {t : Token}

namespace StagedScript

namespace Operation

/-- An operator that takes operands. -/
structure Operator where
  name : Bytes
  ne_dots : name ≠ "..."

def Operator.level (op : Operator) : Nat := precedence op.name

inductive Atom where
  | ident (name : Bytes)
  | value (v : Value)
  | nil (word : Bytes)

inductive Operand where
  | atom (a : Atom)
  | sign (op : Operator) (u : Operand)

inductive Tree where
  | operand (u : Operand)
  | node (op : Operator) (left right : Tree)

/-! ### Expressions and lexemes -/

def Atom.lexeme : Atom → Lexeme
  | .ident name => .ident name
  | .value v => .value v
  | .nil word => .keyword .kwNil word

def Atom.IsExpr : Atom → Expr → Prop
  | .ident name, e => ∃ span, e = .ident span name
  | .value v, e => ∃ span, e = .value span v
  | .nil _, e => ∃ span, e = .nil span

def Operand.lexemes : Operand → List Lexeme
  | .atom a => [a.lexeme]
  | .sign op u => .operator op.name :: u.lexemes

def Operand.IsExpr : Operand → Expr → Prop
  | .atom a, e => a.IsExpr e
  | .sign op u, e => ∃ span arg, e = .constCall span (.method op.name) [arg] ∧ u.IsExpr arg

def Tree.IsExpr : Tree → Expr → Prop
  | .operand u, e => u.IsExpr e
  | .node op left right, e => ∃ span a b,
    e = .constCall span (.method op.name) [a, b] ∧ left.IsExpr a ∧ right.IsExpr b

/-- The lexemes of operators and the operands after them.  After an operator lines may end. -/
inductive Spells : List (Operator × Operand) → List Lexeme → Prop where
  | nil : Spells [] []
  | cons (op : Operator) (breaks : Nat) (u : Operand) {rest : List (Operator × Operand)}
      {ls : List Lexeme} (h : Spells rest ls) :
      Spells ((op, u) :: rest) (.operator op.name ::
        (List.replicate breaks (.sign .endOfLine) ++ (u.lexemes ++ ls)))

/-- A lexeme that applies something to the operand before it. -/
def isApplied (l : Lexeme) : Bool :=
  [.leftParen, .leftBracket, .colon, .scope].contains (Token.kind ⟨l, 0⟩)

/-- A lexeme after which a sequence of operators and operands does not go on. -/
def isEnd (l : Lexeme) : Bool := !Grammar.isOperatorToken ⟨l, 0⟩ && !isApplied l

/-! ### Ordered trees -/

namespace Tree

/-- The sequence that a tree was made from: the first operand, and the others with the operators
before them. -/
def reading : Tree → Operand × List (Operator × Operand)
  | operand u => (u, [])
  | node op left right =>
    (left.reading.1, left.reading.2 ++ (op, right.reading.1) :: right.reading.2)

def level? : Tree → Option Nat
  | operand _ => none
  | node op _ _ => some op.level

/-- A left operand binds at least as tightly as the operator, and a right one more tightly. -/
def Ordered : Tree → Prop
  | operand _ => True
  | node op left right => left.Ordered ∧ right.Ordered ∧
    (∀ n ∈ left.level?, op.level ≤ n) ∧ ∀ n ∈ right.level?, op.level < n

/-- No operator binds less tightly than the outermost one. -/
theorem Ordered.level_le {t : Tree} (h : t.Ordered) :
    ∀ n ∈ t.level?, ∀ x ∈ t.reading.2, n ≤ x.1.level := by
  induction t with
  | operand u => simp [level?]
  | node op left right ihl ihr =>
    obtain ⟨hl, hr, hleft, hright⟩ := h
    -- a subtree without operators has nothing to compare
    have hsub : ∀ {t : Tree}, (∀ n ∈ t.level?, ∀ x ∈ t.reading.2, n ≤ x.1.level) →
        (∀ n ∈ t.level?, op.level ≤ n) → ∀ x ∈ t.reading.2, op.level ≤ x.1.level := by
      intro t hall hroot x hx
      cases t with
      | operand u => cases hx
      | node op' l r => exact (hroot _ rfl).trans (hall _ rfl x hx)
    rintro _ ⟨⟩ x hx
    rcases List.mem_append.1 hx with hx | hx
    · exact hsub (ihl hl) hleft x hx
    · rcases List.mem_cons.1 hx with rfl | hx
      · exact Nat.le_refl _
      · exact hsub (ihr hr) (fun n hn => (hright n hn).le) x hx

theorem Ordered.lt_level {left right : Tree} (h : (node op left right).Ordered) :
    ∀ x ∈ right.reading.2, op.level < x.1.level := by
  obtain ⟨-, hr, -, hright⟩ := h
  intro x hx
  cases right with
  | operand u => cases hx
  | node op' l r => exact (hright _ rfl).trans_le (hr.level_le _ rfl x hx)

theorem Ordered.le_level {left right : Tree} (h : (node op left right).Ordered) :
    ∀ x ∈ left.reading.2, op.level ≤ x.1.level :=
  fun x hx => h.level_le _ rfl x (List.mem_append_left _ hx)

/-- A sequence is split at its last operator that binds least tightly. -/
theorem split_unique {a a' : Operator × Operand} {xs ys xs' ys' : List (Operator × Operand)}
    (h : xs ++ a :: ys = xs' ++ a' :: ys') (hxs : ∀ x ∈ xs, a.1.level ≤ x.1.level)
    (hys : ∀ x ∈ ys, a.1.level < x.1.level) (hxs' : ∀ x ∈ xs', a'.1.level ≤ x.1.level)
    (hys' : ∀ x ∈ ys', a'.1.level < x.1.level) : xs = xs' ∧ a = a' ∧ ys = ys' := by
  induction xs generalizing xs' with
  | nil =>
    cases xs' with
    | nil =>
      cases h
      exact ⟨rfl, rfl, rfl⟩
    | cons x xs' =>
      cases h
      exact absurd (hxs' a List.mem_cons_self) (Nat.not_le.2 (hys a' (by simp)))
  | cons x xs ih =>
    cases xs' with
    | nil =>
      cases h
      exact absurd (hxs a' List.mem_cons_self) (Nat.not_le.2 (hys' a (by simp)))
    | cons x' xs' =>
      obtain ⟨rfl, htail⟩ := List.cons.inj h
      obtain ⟨rfl, rfl, rfl⟩ := ih htail (fun y hy => hxs y (List.mem_cons_of_mem _ hy))
        fun y hy => hxs' y (List.mem_cons_of_mem _ hy)
      exact ⟨rfl, rfl, rfl⟩

/-- A sequence has at most one ordered tree. -/
theorem Ordered.eq_of_reading_eq {t t' : Tree} (h : t.Ordered) (h' : t'.Ordered)
    (heq : t.reading = t'.reading) : t = t' := by
  induction t generalizing t' with
  | operand u =>
    cases t' with
    | operand u' =>
      cases heq
      rfl
    | node op' l' r' => simp [reading] at heq
  | node op l r ihl ihr =>
    cases t' with
    | operand u' => simp [reading] at heq
    | node op' l' r' =>
      obtain ⟨hfirst, hrest⟩ := Prod.mk.inj heq
      obtain ⟨hl, hop, hr⟩ := split_unique hrest h.le_level h.lt_level h'.le_level h'.lt_level
      obtain ⟨rfl, hsecond⟩ := Prod.mk.inj hop
      rw [ihl h.1 h'.1 (Prod.ext hfirst hl), ihr h.2.1 h'.2.1 (Prod.ext hsecond hr)]

/-- Adds an operator and an operand at the end of a sequence. -/
def add (op : Operator) (u : Operand) : Tree → Tree
  | operand v => node op (operand v) (operand u)
  | node op' left right =>
    if op'.level < op.level then node op' left (add op u right)
    else node op (node op' left right) (operand u)

theorem reading_add (op : Operator) (u : Operand) (t : Tree) :
    (t.add op u).reading = (t.reading.1, t.reading.2 ++ [(op, u)]) := by
  induction t with
  | operand v => rfl
  | node op' left right _ ih =>
    unfold add
    split
    · simp [reading, ih]
    · rfl

theorem Ordered.add {t : Tree} (h : t.Ordered) (op : Operator) (u : Operand) :
    (t.add op u).Ordered ∧
      ∀ n ∈ (t.add op u).level?, n = op.level ∨ n ∈ t.level? := by
  induction t with
  | operand v => exact ⟨⟨trivial, trivial, nofun, nofun⟩, fun n hn => .inl (Option.some.inj hn).symm⟩
  | node op' left right _ ih =>
    obtain ⟨hl, hr, hleft, hright⟩ := h
    unfold Tree.add
    split
    next hlt =>
      obtain ⟨hadd, hlevel⟩ := ih hr
      refine ⟨⟨hl, hadd, hleft, fun n hn => ?_⟩, fun n hn => .inr hn⟩
      rcases hlevel n hn with rfl | hn
      · exact hlt
      · exact hright n hn
    next hle =>
      refine ⟨⟨⟨hl, hr, hleft, hright⟩, trivial, ?_, nofun⟩,
        fun n hn => .inl (Option.some.inj hn).symm⟩
      rintro _ ⟨⟩
      exact Nat.not_lt.1 hle

/-- Every sequence has an ordered tree. -/
theorem exists_ordered (u : Operand) (rest : List (Operator × Operand)) :
    ∃ t : Tree, t.Ordered ∧ t.reading = (u, rest) := by
  induction rest using List.reverseRecOn with
  | nil => exact ⟨.operand u, trivial, rfl⟩
  | append_singleton rest x ih =>
    obtain ⟨t, ht, hreading⟩ := ih
    exact ⟨t.add x.1 x.2, (ht.add x.1 x.2).1, by rw [reading_add, hreading]⟩

end Tree

end Operation

/-! ### Tokens ahead -/

/-- A token without embedded expressions is read from a place on. -/
def Place.ReadsTo (tables : Tables) (p : Place) (t : Token) (q : Place) : Prop :=
  Parser.scan [] tables none 1 { place := p } = .ok t { place := q }

/-- Tokens with the given lexemes are read between two places. -/
def Place.ReadsAll (tables : Tables) : Place → List Lexeme → Place → Prop
  | p, [], q => p = q
  | p, l :: ls, q => ∃ line p', p.ReadsTo tables ⟨l, line⟩ p' ∧ p'.ReadsAll tables ls q

/-- The tokens that a parser reads next, up to a place.  The first one may have been looked at. -/
def Parser.Ahead (tables : Tables) (s : Parser) (ls : List Lexeme) (q : Place) : Prop :=
  ∃ rest, ls = s.peeked.toList.map Token.lexeme ++ rest ∧ s.place.ReadsAll tables rest q

namespace Parser

variable {source : Bytes} {tables : Tables} {s : Parser} {p p' q : Place} {n : Nat}
  {embedded : Option (ParseAction Expr)}

theorem get_bind {α : Type} (f : Parser → ParseAction α) :
    ((get : ParseAction Parser) >>= f) s = f s s := rfl

theorem scan_of_gap (hgap : skipGap .blanks s.place.line s.place.rest = .ok p') :
    Parser.scan source tables embedded n s =
      if p'.rest.head? = some 0x27 then
        match embeddedText source embedded p'.line n []
            { s with place := ⟨p'.rest.drop 1, p'.line⟩ } with
        | .ok lexeme s => .ok ⟨lexeme, p'.line⟩ s
        | .error e s => .error e s
      else match scanPlain tables p' with
        | .ok (lexeme, after) => .ok ⟨lexeme, p'.line⟩ { s with place := after }
        | .error f => .error (.scan f.line f.cause) { s with place := f.place } := by
  unfold Parser.scan
  simp only [get_bind, hgap]
  split
  · change EStateM.bind (embeddedText source embedded p'.line n []) _
      { s with place := ⟨p'.rest.drop 1, p'.line⟩ } = _
    unfold EStateM.bind
    cases embeddedText source embedded p'.line n [] _ <;> rfl
  · cases scanPlain tables p' <;> rfl

/-- A text without embedded expressions is read whatever they are parsed with. -/
theorem embeddedText_of_plain (source : Bytes) (embedded : Option (ParseAction Expr))
    (opened n : Nat) (s : Parser) {lexeme : Lexeme} {s₁ s₁' : Parser}
    (h : embeddedText [] none opened 1 [] s₁ = .ok lexeme s₁') (hs : s.place = s₁.place) :
    embeddedText source embedded opened (n + 1) [] s = .ok lexeme { s with place := s₁'.place } ∧
      s₁.place.Before s₁'.place := by
  have hbefore := chunk_before 0x27 true 0 s₁.place.line s₁.place.rest (.refl _)
  unfold embeddedText at h ⊢
  simp only [get_bind, hs] at h ⊢
  generalize chunk 0x27 true 0 s₁.place.line s₁.place.rest = c at h hbefore ⊢
  cases hstop : c.stop with
  | closed =>
    simp only [hstop, ChunkEnd.failure?] at h ⊢
    cases h
    exact ⟨rfl, hbefore⟩
  | brace | unfinished | badEscape =>
    simp only [hstop, ChunkEnd.failure?] at h
    cases h

/-- A token without embedded expressions is read whatever they are parsed with. -/
theorem scan_of_readsTo (source : Bytes) (embedded : Option (ParseAction Expr))
    (n : Nat) (hs : s.place = p) (h : p.ReadsTo tables t q) :
    scan source tables embedded (n + 1) s = .ok t { s with place := q } ∧
      (t.lexeme ≠ .sign .endOfInput → q.rest.length < p.rest.length) := by
  subst hs
  unfold Place.ReadsTo at h
  have hgap := skipGap_leads .blanks s.place.line s.place.rest (.refl _) (by simp)
  cases hskip : skipGap .blanks s.place.line s.place.rest with
  | error f =>
    unfold scan at h
    simp only [get_bind, hskip] at h
    cases h
  | ok p' =>
    rw [hskip] at hgap
    have hle := hgap.length_le
    rw [scan_of_gap (s := { place := s.place }) hskip] at h
    rw [scan_of_gap hskip]
    by_cases hquote : p'.rest.head? = some 0x27
    · rw [if_pos hquote] at h ⊢
      split at h
      next lexeme s₁ htext =>
        obtain ⟨htext, hbefore⟩ := embeddedText_of_plain source embedded p'.line n
          { s with place := ⟨p'.rest.drop 1, p'.line⟩ } htext rfl
        cases h
        rw [htext]
        refine ⟨rfl, fun _ => ?_⟩
        obtain ⟨rest, hrest⟩ := List.head?_eq_some_iff.1 hquote
        have hlt := hbefore.length_le
        simp only [hrest, List.drop_succ_cons, List.drop_zero, List.length_cons] at hlt hle ⊢
        omega
      next => cases h
    · rw [if_neg hquote] at h ⊢
      have htoken := scanPlain_leads tables p'
      split at h
      next lexeme after hscan =>
        rw [hscan] at htoken
        cases h
        refine ⟨rfl, fun hne => ?_⟩
        rcases htoken.2 with hend | ⟨-, hlt⟩
        · exact absurd hend hne
        · exact Nat.lt_of_lt_of_le hlt hle
      next => cases h

end Parser

namespace Operation

open Grammar

/-! ### Rules that succeed -/

/-- A rule of the grammar succeeds from a state, and something holds of its result. -/
def Yields {α : Type} (g : Grammar) (s : Parser) (x : Rule α) (P : α → Parser → Prop) : Prop :=
  ∃ a s', x g s = .ok a s' ∧ P a s'

/-- The tokens that are next, for a parser that has only read on from another state. -/
structure Stands (tables : Tables) (s₀ : Parser) (q : Place) (ls : List Lexeme) (s : Parser) :
    Prop where
  ahead : s.Ahead tables ls q
  same : s = { s₀ with place := s.place, peeked := s.peeked, last := s.last }

section

variable {α β : Type} {g : Grammar} {s s₀ : Parser} {x : Rule α} {f : α → Rule β}
  {P : α → Parser → Prop} {Q : β → Parser → Prop} {q : Place} {l : Lexeme} {ls : List Lexeme}

theorem Yields.bind (hx : Yields g s x P) (hf : ∀ a s', P a s' → Yields g s' (f a) Q) :
    Yields g s (x >>= f) Q := by
  obtain ⟨a, s', hx, hP⟩ := hx
  obtain ⟨b, s'', hf, hQ⟩ := hf a s' hP
  refine ⟨b, s'', ?_, hQ⟩
  change EStateM.bind (x g) (fun a => f a g) s = _
  simp only [EStateM.bind, hx, hf]

theorem Yields.pure {a : α} (h : P a s) : Yields g s (Pure.pure a) P := ⟨a, s, rfl, h⟩

theorem Yields.imp {P' : α → Parser → Prop} (hx : Yields g s x P)
    (h : ∀ a s', P a s' → P' a s') : Yields g s x P' := by
  obtain ⟨a, s', hx, hP⟩ := hx
  exact ⟨a, s', hx, h a s' hP⟩

theorem peek_yields (hr : 0 < g.rounds) (h : Stands g.tables s₀ q (l :: ls) s) :
    Yields g s peek fun t s' => t.lexeme = l ∧ Stands g.tables s₀ q (l :: ls) s' := by
  obtain ⟨⟨rest, hls, hreads⟩, hsame⟩ := h
  cases hpeeked : s.peeked with
  | some t =>
    refine ⟨t, s, Parser.peekWith_of_some hpeeked, ?_, ⟨rest, hls, hreads⟩, hsame⟩
    rw [hpeeked] at hls
    exact (List.cons.inj hls).1.symm
  | none =>
    rw [hpeeked] at hls
    obtain rfl : l :: ls = rest := hls
    obtain ⟨line, p', hread, hrest⟩ := hreads
    obtain ⟨n, hn⟩ : ∃ n, g.rounds = n + 1 := ⟨g.rounds - 1, by omega⟩
    refine ⟨⟨l, line⟩, { s with place := p', peeked := some ⟨l, line⟩ }, ?_, rfl,
      ⟨ls, rfl, hrest⟩, ?_⟩
    · change Parser.peekWith _ s = _
      rw [Parser.peekWith_of_none hpeeked, hn, (Parser.scan_of_readsTo _ _ n rfl hread).1]
    · rw [hsame]

theorem next_yields (hr : 0 < g.rounds) (h : Stands g.tables s₀ q (l :: ls) s) :
    Yields g s next fun t s' => t.lexeme = l ∧ Stands g.tables s₀ q ls s' := by
  obtain ⟨⟨rest, hls, hreads⟩, hsame⟩ := h
  -- what is left to show is that the token is read, since then only its line is noted
  have hnext : ∀ {t : Token} {s₁ : Parser},
      Parser.nextWith (Parser.scan g.source g.tables (some (Parser.embed (g.parse .embedded)))
        g.rounds) s = .ok t s₁ → next g s = .ok t { s₁ with last := t.line } := by
    intro t s₁ ht
    change EStateM.bind _ _ s = _
    simp only [EStateM.bind, ht]
    rfl
  cases hpeeked : s.peeked with
  | some t =>
    rw [hpeeked] at hls
    obtain ⟨rfl, rfl⟩ := List.cons.inj hls
    refine ⟨t, _, hnext (Parser.nextWith_of_some hpeeked), rfl, ⟨ls, rfl, hreads⟩, ?_⟩
    rw [hsame]
  | none =>
    rw [hpeeked] at hls
    obtain rfl : l :: ls = rest := hls
    obtain ⟨line, p', hread, hrest⟩ := hreads
    obtain ⟨n, hn⟩ : ∃ n, g.rounds = n + 1 := ⟨g.rounds - 1, by omega⟩
    have hscan := (Parser.scan_of_readsTo g.source (some (Parser.embed (g.parse .embedded))) n rfl
      hread).1
    rw [← hn] at hscan
    refine ⟨⟨l, line⟩, _, hnext ((Parser.nextWith_of_none hpeeked).trans hscan), rfl,
      ⟨ls, ?_, hrest⟩, ?_⟩
    · simp [hpeeked]
    · rw [hsame]

theorem kind_eq (h : t.lexeme = l) : t.kind = Token.kind ⟨l, 0⟩ := by
  rw [← h]
  rfl

theorem isOperatorToken_eq (h : t.lexeme = l) :
    isOperatorToken t = isOperatorToken ⟨l, 0⟩ := by
  rw [← h]
  rfl

theorem spanFrom_yields (first : Nat) : Yields g s (spanFrom first) fun _ s' => s' = s :=
  ⟨_, s, rfl, rfl⟩

theorem get_yields : Yields g s (get : Rule Parser) fun a s' => a = s ∧ s' = s := ⟨s, s, rfl, rfl, rfl⟩

theorem accept_yields (hr : 0 < g.rounds) (h : Stands g.tables s₀ q (l :: ls) s) (kind : TokenKind) :
    Yields g s (accept kind) fun b s' => b = decide (Token.kind ⟨l, 0⟩ = kind) ∧
      Stands g.tables s₀ q (if b then ls else l :: ls) s' := by
  have hat : Yields g s (at? kind) fun b s' =>
      b = decide (Token.kind ⟨l, 0⟩ = kind) ∧ Stands g.tables s₀ q (l :: ls) s' :=
    (peek_yields hr h).bind fun t s₁ ht => .pure ⟨by rw [kind_eq ht.1], ht.2⟩
  refine hat.bind fun b s₁ hb => ?_
  obtain ⟨hb, h₁⟩ := hb
  cases b with
  | true => exact (next_yields hr h₁).bind fun t s₂ ht => .pure ⟨hb, ht.2⟩
  | false => exact .pure ⟨hb, h₁⟩

theorem Yields.last_round {γ : Type} {step : γ → Rule (α ⊕ γ)} {c : γ} {n : Nat} {a : α}
    (h : Yields g s (step c) fun r s' => r = .inl a ∧ P a s') :
    Yields g s (repeatFor step (n + 1) c) P := by
  refine h.bind fun r s' hr => ?_
  obtain ⟨rfl, hP⟩ := hr
  exact .pure hP

theorem Yields.round {γ : Type} {step : γ → Rule (α ⊕ γ)} {c : γ} {n : Nat}
    (h : Yields g s (step c) fun r s' => ∃ c', r = .inr c' ∧ Yields g s' (repeatFor step n c') P) :
    Yields g s (repeatFor step (n + 1) c) P := by
  refine h.bind fun r s' hr => ?_
  obtain ⟨c', rfl, hmore⟩ := hr
  exact hmore

theorem skipLines_yields {breaks : Nat} (hl : Token.kind ⟨l, 0⟩ ≠ .endOfLine)
    (hr : breaks < g.rounds)
    (h : Stands g.tables s₀ q (List.replicate breaks (.sign .endOfLine) ++ l :: ls) s) :
    Yields g s skipLines fun _ s' => Stands g.tables s₀ q (l :: ls) s' := by
  have hpos : 0 < g.rounds := by omega
  have hloop : ∀ n breaks s, breaks < n →
      Stands g.tables s₀ q (List.replicate breaks (.sign .endOfLine) ++ l :: ls) s →
      Yields g s (repeatFor (fun _ => do
          if ← accept .endOfLine then return .inr () else return .inl () : Unit → Rule (Unit ⊕ Unit))
        n ()) fun _ s' => Stands g.tables s₀ q (l :: ls) s' := by
    intro n
    induction n with
    | zero => exact fun _ _ h => absurd h (Nat.not_lt_zero _)
    | succ n ih =>
      intro breaks s hn h
      cases breaks with
      | zero =>
        refine .last_round (a := ()) ((accept_yields hpos h .endOfLine).bind ?_)
        rintro _ s₁ ⟨rfl, h₁⟩
        rw [decide_eq_false hl] at h₁ ⊢
        exact .pure ⟨rfl, h₁⟩
      | succ breaks =>
        refine .round ((accept_yields hpos h .endOfLine).bind ?_)
        rintro _ s₁ ⟨rfl, h₁⟩
        exact .pure ⟨(), rfl, ih breaks s₁ (by omega) h₁⟩
  exact hloop g.rounds breaks s hr h

/-! ### Operands -/

theorem repeating_yields {γ : Type} {step : γ → Rule (α ⊕ γ)} {c : γ}
    (h : Yields g s (repeatFor step g.rounds c) P) : Yields g s (repeating c step) P := h

theorem atom_yields (hr : 0 < g.rounds) (hpending : s₀.pending = none) {a : Atom}
    (h : Stands g.tables s₀ q (a.lexeme :: ls) s) :
    Yields g s operand fun e s' => a.IsExpr e ∧ Stands g.tables s₀ q ls s' := by
  have hfresh : Yields g s freshOperand fun e s' => a.IsExpr e ∧ Stands g.tables s₀ q ls s' := by
    refine (next_yields hr h).bind fun t s₁ ht => ?_
    obtain ⟨ht, h₁⟩ := ht
    rw [ht]
    cases a with
    | ident name =>
      exact (spanFrom_yields _).bind fun span s₂ hs => .pure ⟨⟨span, rfl⟩, hs ▸ h₁⟩
    | value v => exact (spanFrom_yields _).bind fun span s₂ hs => .pure ⟨⟨span, rfl⟩, hs ▸ h₁⟩
    | nil word => exact (spanFrom_yields _).bind fun span s₂ hs => .pure ⟨⟨span, rfl⟩, hs ▸ h₁⟩
  have hs : s.pending = none := by
    rw [h.same]
    exact hpending
  unfold Yields at hfresh ⊢
  rwa [Reading.operand_of_fresh hs]

theorem term_yields (hr : 0 < g.rounds) (hpending : s₀.pending = none) {a : Atom}
    (hl : isApplied l = false) (h : Stands g.tables s₀ q (a.lexeme :: l :: ls) s) :
    Yields g s term fun e s' => a.IsExpr e ∧ Stands g.tables s₀ q (l :: ls) s' := by
  refine (peek_yields hr h).bind fun _ s₁ h₁ => ?_
  refine (atom_yields hr hpending h₁.2).bind fun e s₂ h₂ => repeating_yields ?_
  obtain ⟨he, h₂⟩ := h₂
  obtain ⟨n, hn⟩ : ∃ n, g.rounds = n + 1 := ⟨g.rounds - 1, by omega⟩
  rw [hn]
  refine .last_round (a := e) ((peek_yields hr h₂).bind fun t s₃ h₃ => ?_)
  obtain ⟨ht, h₃⟩ := h₃
  rw [kind_eq ht]
  split
  case h_5 => exact .pure ⟨rfl, he, h₃⟩
  all_goals simp_all [isApplied]

end

/-! ### Operators -/

section

variable {source : Bytes} {tables : Tables} {rounds depth least : Nat} {s s₀ : Parser} {q : Place}
  {l stop : Lexeme} {ls : List Lexeme} {u : Operand} {done rest : List (Operator × Operand)}

theorem Operand.lexemes_eq_cons (u : Operand) :
    ∃ l ls, u.lexemes = l :: ls ∧ Token.kind ⟨l, 0⟩ ≠ .endOfLine := by
  cases u with
  | atom a => exact ⟨a.lexeme, [], rfl, by cases a <;> simp [Atom.lexeme, Token.kind]⟩
  | sign op u => exact ⟨.operator op.name, u.lexemes, rfl, by simp [Token.kind]⟩

theorem isOperatorToken_operator (op : Operator) (line : Nat) :
    isOperatorToken ⟨.operator op.name, line⟩ = true := by
  simp [isOperatorToken, Token.kind, Token.text, op.ne_dots]

/-- What follows an operand in a sequence is not applied to it. -/
theorem Spells.append_end (h : Spells rest ls) (hstop : isEnd stop = true) :
    ∃ l ls', ls ++ [stop] = l :: ls' ∧ isApplied l = false := by
  cases h with
  | nil => exact ⟨stop, [], rfl, by simp_all [isEnd]⟩
  | cons op breaks u h => exact ⟨_, _, rfl, rfl⟩

theorem Spells.length_le (h : Spells rest ls) : rest.length ≤ ls.length := by
  induction h with
  | nil => exact Nat.le_refl _
  | cons op breaks u _ ih =>
    simp only [List.length_cons, List.length_append]
    omega

variable (source tables rounds depth) in
def grammarAt : Grammar := ⟨source, tables, rounds, goal source tables rounds depth⟩

theorem unary_yields (hr : 0 < rounds) (hpending : s₀.pending = none) (hl : isApplied l = false)
    (hdepth : u.lexemes.length ≤ depth + 1) (h : Stands tables s₀ q (u.lexemes ++ l :: ls) s) :
    Yields (grammarAt source tables rounds depth) s unary fun e s' =>
      u.IsExpr e ∧ Stands tables s₀ q (l :: ls) s' := by
  induction u generalizing depth s with
  | atom a =>
    refine (peek_yields hr h).bind fun t s₁ h₁ => get_yields.bind ?_
    rintro _ _ ⟨rfl, rfl⟩
    have hnot : isOperatorToken t = false := by
      rw [isOperatorToken_eq h₁.1]
      cases a <;> rfl
    rw [hnot, Bool.and_false, if_neg Bool.false_ne_true]
    exact term_yields hr hpending hl h₁.2
  | sign op u ih =>
    obtain ⟨depth, rfl⟩ : ∃ d, depth = d + 1 := by
      obtain ⟨l, ls, hu, -⟩ := u.lexemes_eq_cons
      simp only [Operand.lexemes, hu, List.length_cons] at hdepth
      exact ⟨depth - 1, by omega⟩
    refine (peek_yields hr h).bind fun t s₀ h₁ => get_yields.bind ?_
    rintro _ s₁ ⟨rfl, rfl⟩
    obtain ⟨ht, h₁⟩ := h₁
    have hs : s₁.pending = none := by
      rw [h₁.same]
      exact hpending
    rw [isOperatorToken_eq ht, isOperatorToken_operator, hs, Option.isNone_none,
      Bool.and_self, if_pos rfl]
    refine (next_yields hr h₁).bind fun _ s₂ h₂ => ?_
    have hsub : Yields (grammarAt source tables rounds (depth + 1)) s₂ (sub .unary) _ :=
      ih (Nat.le_of_succ_le_succ hdepth) h₂.2
    refine hsub.bind fun arg s₃ h₃ => (spanFrom_yields _).bind fun span s₄ h₄ => .pure ?_
    have htext : t.text = op.name := by
      unfold Token.text
      rw [ht]
    rw [htext]
    exact ⟨⟨span, arg, rfl, h₃.1⟩, h₄ ▸ h₃.2⟩

/-- Operators from a level on and their operands are taken from a sequence, after those that are
`done`.  At most `n` lexemes are left of it. -/
def Climbs (tables : Tables) (s₀ : Parser) (q : Place) (stop : Lexeme) (least : Nat)
    (first : Operand) (done rest : List (Operator × Operand)) (n : Nat) (e : Expr) (s : Parser) :
    Prop :=
  ∃ (tree : Tree) (ls : List Lexeme), tree.Ordered ∧
    tree.reading = (first, done ++ rest.takeWhile (least ≤ ·.1.level)) ∧ tree.IsExpr e ∧
    Spells (rest.dropWhile (least ≤ ·.1.level)) ls ∧ ls.length ≤ n ∧
    Stands tables s₀ q (ls ++ [stop]) s

theorem Tree.exists_of_level? {t : Tree} {n : Nat} (h : n ∈ t.level?) :
    ∃ x ∈ t.reading.2, x.1.level = n := by
  cases t with
  | operand u => cases h
  | node op l r => exact ⟨(op, r.reading.1), by simp [reading], Option.some.inj h⟩

/-- An operand that ends before all operators up to a level has none of them. -/
theorem Tree.lt_of_level? {t : Tree} {u : Operand} {rest : List (Operator × Operand)} {n : Nat}
    (h : t.reading = (u, [] ++ rest.takeWhile (n + 1 ≤ ·.1.level))) : ∀ m ∈ t.level?, n < m := by
  intro m hm
  obtain ⟨x, hx, rfl⟩ := Tree.exists_of_level? hm
  rw [h] at hx
  have hlevel := List.mem_takeWhile_imp (show x ∈ rest.takeWhile _ from hx)
  exact of_decide_eq_true hlevel

/-- To take elements under a condition is to take first those under a stronger one. -/
theorem takeWhile_dropWhile_of_imp {α : Type} (P P' : α → Bool) (h : ∀ x, P' x → P x)
    (xs : List α) : xs.takeWhile P' ++ (xs.dropWhile P').takeWhile P = xs.takeWhile P ∧
      (xs.dropWhile P').dropWhile P = xs.dropWhile P := by
  induction xs with
  | nil => exact ⟨rfl, rfl⟩
  | cons x xs ih =>
    by_cases hx : P' x = true
    · simpa [List.takeWhile_cons, List.dropWhile_cons, hx, h x hx] using ih
    · simp [List.takeWhile_cons, List.dropWhile_cons, hx]

def round (start least : Nat) (left : Expr) : Rule (Expr ⊕ Expr) := do
  let t ← peek
  if !isOperatorToken t || precedence t.text < least then return .inl left
  let _ ← next
  skipLines
  let right ← sub (.binary (precedence t.text + 1))
  return .inr (.constCall (← spanFrom start) (.method t.text) [left, right])

theorem binary_eq (least : Nat) : binary least = (do
    let start := (← peek).line
    let left ← unary
    repeating left (round start least)) := rfl

theorem token_of_operator (h : t.lexeme = .operator op.name) :
    isOperatorToken t = true ∧ t.text = op.name := by
  obtain ⟨_, line⟩ := t
  cases h
  exact ⟨isOperatorToken_operator op line, rfl⟩

/-- The loop ends at a token that is no operator, or at an operator below the level. -/
theorem round_ends {g : Grammar} (hr : 0 < g.rounds) (start : Nat) (e : Expr)
    (hl : isOperatorToken ⟨l, 0⟩ = false ∨ ∃ op : Operator, l = .operator op.name ∧ op.level < least)
    (h : Stands g.tables s₀ q (l :: ls) s) :
    Yields g s (round start least e) fun r s' => r = .inl e ∧ Stands g.tables s₀ q (l :: ls) s' := by
  refine (peek_yields hr h).bind fun t s₁ h₁ => ?_
  obtain ⟨ht, h₁⟩ := h₁
  have hends : (!isOperatorToken t || decide (precedence t.text < least)) = true := by
    rcases hl with hnot | ⟨op, rfl, hless⟩
    · rw [isOperatorToken_eq ht, hnot]
      rfl
    · rw [(token_of_operator ht).2]
      simpa using .inr hless
  rw [if_pos hends]
  exact .pure ⟨rfl, h₁⟩

/-- A round of the loop takes an operator and what is on its right. -/
theorem round_goes {g : Grammar} {breaks : Nat} {e : Expr}
    {P : Expr → Parser → Prop} (start : Nat) (hr : breaks < g.rounds)
    (hleast : least ≤ op.level)
    (hsub : ∀ s, Stands g.tables s₀ q (u.lexemes ++ ls) s →
      Yields g s (sub (.binary (op.level + 1))) P)
    (h : Stands g.tables s₀ q (.operator op.name ::
      (List.replicate breaks (.sign .endOfLine) ++ (u.lexemes ++ ls))) s) :
    Yields g s (round start least e) fun r s' => ∃ span right,
      r = .inr (.constCall span (.method op.name) [e, right]) ∧ P right s' := by
  have hpos : 0 < g.rounds := by omega
  obtain ⟨l, us, hu, hkind⟩ := u.lexemes_eq_cons
  rw [hu] at h hsub
  refine (peek_yields hpos h).bind fun t s₁ h₁ => ?_
  obtain ⟨ht, h₁⟩ := h₁
  obtain ⟨hop, htext⟩ := token_of_operator ht
  have hgoes : (!isOperatorToken t || decide (precedence t.text < least)) = false := by
    rw [hop, htext, Bool.not_true, Bool.false_or, decide_eq_false_iff_not, Nat.not_lt]
    exact hleast
  rw [hgoes, if_neg Bool.false_ne_true, htext]
  refine (next_yields hpos h₁).bind fun _ s₂ h₂ => ?_
  refine (skipLines_yields hkind hr h₂.2).bind fun _ s₃ h₃ => ?_
  refine (hsub s₃ h₃).bind fun right s₄ h₄ => ?_
  exact (spanFrom_yields start).bind fun span s₅ h₅ => .pure ⟨span, right, rfl, h₅ ▸ h₄⟩

section

variable (hstop : isEnd stop = true)
  (hsub : ∀ least u rest ls s, Spells rest ls → u.lexemes.length + ls.length ≤ depth →
    ls.length < rounds → Stands tables s₀ q (u.lexemes ++ (ls ++ [stop])) s →
    Yields (grammarAt source tables rounds depth) s (sub (.binary least))
      (Climbs tables s₀ q stop least u [] rest ls.length))

include hstop hsub

/-- The loop over operators, if operands on the right of an operator are taken as they should be.  The
next operator does not bind more tightly than the outermost one of the tree so far. -/
theorem loop_yields (start : Nat) {n : Nat} {tree : Tree} {e : Expr} (hn : rest.length < n)
    (hspells : Spells rest ls)
    (hdepth : ls.length ≤ depth) (hrounds : ls.length < rounds) (htree : tree.Ordered)
    (hreading : tree.reading = (u, done)) (he : tree.IsExpr e)
    (hnext : ∀ m ∈ tree.level?, ∀ x ∈ rest.head?, x.1.level ≤ m)
    (h : Stands tables s₀ q (ls ++ [stop]) s) :
    Yields (grammarAt source tables rounds depth) s (repeatFor (round start least) n e)
      (Climbs tables s₀ q stop least u done rest ls.length) := by
  induction n generalizing tree e done rest ls s with
  | zero => exact absurd hn (Nat.not_lt_zero _)
  | succ n ih =>
    cases hspells with
    | nil =>
      have hnot : isOperatorToken ⟨stop, 0⟩ = false := by simp_all [isEnd]
      refine .last_round ((round_ends hrounds start e (.inl hnot) h).imp fun r s' h => ⟨h.1, ?_⟩)
      exact ⟨tree, [], htree, by simpa using hreading, he, .nil, Nat.le_refl _, h.2⟩
    | @cons op breaks u' rest ls hspells =>
      simp only [List.length_cons, List.length_append, List.length_replicate] at hdepth hrounds hn
      by_cases hless : op.level < least
      -- The operator is left for a loop further out.
      · refine .last_round ((round_ends (Nat.zero_lt_of_lt hrounds) start e (.inr ⟨op, rfl, hless⟩)
          h).imp fun r s' h => ⟨h.1, ?_⟩)
        have hnot : ¬ least ≤ op.level := Nat.not_le.2 hless
        refine ⟨tree, _, htree, ?_, he, ?_, Nat.le_refl _, h.2⟩
        · simpa [List.takeWhile_cons, hnot] using hreading
        · simpa [List.dropWhile_cons, hnot] using .cons op breaks u' hspells
      · have h' : Stands tables s₀ q (.operator op.name ::
            (List.replicate breaks (.sign .endOfLine) ++ (u'.lexemes ++ (ls ++ [stop])))) s := by
          simpa using h
        have hgoes := round_goes (e := e) start (show breaks < rounds by omega) (Nat.not_lt.1 hless)
          (fun s h => hsub (op.level + 1) u' rest ls s hspells (by omega) (by omega) h) h'
        refine .round (hgoes.imp fun r s' h => ?_)
        obtain ⟨span, right, hr, tree', ls', htree', hreading', he', hspells', hls', h⟩ := h
        refine ⟨_, hr, ?_⟩
        have hright := Tree.lt_of_level? hreading'
        obtain ⟨htake, hdrop⟩ := takeWhile_dropWhile_of_imp
          (fun x : Operator × Operand => decide (least ≤ x.1.level))
          (fun x => decide (op.level + 1 ≤ x.1.level)) (by simp; omega) rest
        have hlength := (List.dropWhile_suffix fun x : Operator × Operand =>
          decide (op.level + 1 ≤ x.1.level) : _ <:+ rest).length_le
        -- The tree so far and the operand that was taken become one tree, and the loop goes on.
        have hnode : (Tree.node op tree tree').Ordered :=
          ⟨htree, htree', fun m hm => hnext m hm _ rfl, hright⟩
        refine (ih (by omega) hspells' (by omega) (by omega) hnode
          (by rw [Tree.reading, hreading, hreading']) ⟨span, _, right, rfl, he, he'⟩ ?_ h).imp ?_
        · rintro _ ⟨⟩ x hx
          have hhead := List.head?_dropWhile_not
            (fun x : Operator × Operand => decide (op.level + 1 ≤ x.1.level)) rest
          rw [hx] at hhead
          exact Nat.lt_succ_iff.1 (Nat.not_le.1 (of_decide_eq_false hhead))
        · rintro e s' ⟨tree, ls'', htree, hreading, he, hspells, hls, h⟩
          have hgoes : decide (least ≤ op.level) = true := decide_eq_true (Nat.not_lt.1 hless)
          refine ⟨tree, ls'', htree, ?_, he, ?_, ?_, h⟩
          · rw [hreading, List.takeWhile_cons, hgoes, if_pos rfl, List.append_assoc,
              List.cons_append, List.nil_append, htake]
          · rwa [List.dropWhile_cons, hgoes, if_pos rfl, ← hdrop]
          · simp only [List.length_cons, List.length_append]
            omega

/-- A rule for sequences, if operands on the right of an operator are taken as they should be. -/
theorem binary_of_sub (hpending : s₀.pending = none) (hspells : Spells rest ls)
    (hdepth : u.lexemes.length + ls.length ≤ depth + 1)
    (hrounds : ls.length < rounds) (h : Stands tables s₀ q (u.lexemes ++ (ls ++ [stop])) s) :
    Yields (grammarAt source tables rounds depth) s (binary least)
      (Climbs tables s₀ q stop least u [] rest ls.length) := by
  obtain ⟨l, us, hu, -⟩ := u.lexemes_eq_cons
  obtain ⟨l', ls', hls, hl'⟩ := hspells.append_end hstop
  have hpos : 0 < rounds := by omega
  have hlength : u.lexemes.length = us.length + 1 := by rw [hu, List.length_cons]
  rw [binary_eq]
  have hfirst : Stands tables s₀ q (l :: (us ++ (ls ++ [stop]))) s := by rwa [hu] at h
  refine (peek_yields hpos hfirst).bind fun t s₁ h₁ => ?_
  have h₁ : Stands tables s₀ q (u.lexemes ++ l' :: ls') s₁ := by
    rw [hu, ← hls]
    exact h₁.2
  refine (unary_yields hpos hpending hl' (by omega) h₁).bind fun e s₂ h₂ => repeating_yields ?_
  have htree : (Tree.operand u).Ordered := trivial
  exact loop_yields hstop hsub t.line (hspells.length_le.trans_lt hrounds) hspells (by omega) hrounds
    htree rfl h₂.1 nofun (hls ▸ h₂.2)

end

/-- Of a sequence of operators and operands, those are taken that come before the first operator below
the level. -/
theorem binary_yields (hpending : s₀.pending = none) (hstop : isEnd stop = true)
    (hspells : Spells rest ls) (hdepth : u.lexemes.length + ls.length ≤ depth + 1)
    (hrounds : ls.length < rounds) (h : Stands tables s₀ q (u.lexemes ++ (ls ++ [stop])) s) :
    Yields (grammarAt source tables rounds depth) s (binary least)
      (Climbs tables s₀ q stop least u [] rest ls.length) := by
  induction depth generalizing least u rest ls s with
  | zero =>
    refine binary_of_sub hstop (fun _ u _ _ _ _ hdepth => ?_) hpending hspells hdepth hrounds h
    obtain ⟨l, us, hu, -⟩ := u.lexemes_eq_cons
    rw [hu, List.length_cons] at hdepth
    omega
  | succ depth ih =>
    refine binary_of_sub hstop (fun _ u _ _ _ hspells hdepth hrounds h => ?_) hpending hspells hdepth
      hrounds h
    exact ih hspells hdepth hrounds h

end

/-! ### Lengths -/

theorem Operand.not_mem_lexemes (u : Operand) : .sign .endOfInput ∉ u.lexemes := by
  induction u with
  | atom a => cases a <;> simp [lexemes, Atom.lexeme]
  | sign op u ih => simpa [lexemes] using ih

theorem Spells.not_mem {rest : List (Operator × Operand)} {ls : List Lexeme} (h : Spells rest ls) :
    .sign .endOfInput ∉ ls := by
  induction h with
  | nil => simp
  | cons op breaks u _ ih => simp [ih, u.not_mem_lexemes, List.mem_replicate]

end Operation

theorem Place.ReadsAll.length_le {tables : Tables} {p q : Place} {ls ls' : List Lexeme}
    (h : p.ReadsAll tables (ls ++ ls') q) (hls : .sign .endOfInput ∉ ls) :
    ls.length ≤ p.rest.length := by
  induction ls generalizing p with
  | nil => exact Nat.zero_le _
  | cons l ls ih =>
    obtain ⟨line, p', hread, h⟩ := h
    rw [List.mem_cons, not_or] at hls
    obtain ⟨hl, hls⟩ := hls
    have hlt := (Parser.scan_of_readsTo [] none 0 (s := { place := p }) rfl hread).2 (Ne.symm hl)
    exact Nat.lt_of_le_of_lt (ih h hls) hlt

namespace Operation

/-- The bound for nesting and rounds is larger than the number of tokens. -/
theorem length_lt_bound {tables : Tables} {s : Parser} {q : Place} {u : Operand}
    {rest : List (Operator × Operand)} {ls : List Lexeme} {stop : Lexeme} (hspells : Spells rest ls)
    (h : s.Ahead tables (u.lexemes ++ (ls ++ [stop])) q) :
    u.lexemes.length + ls.length < s.bound := by
  obtain ⟨rest', heq, hreads⟩ := h
  obtain ⟨l, us, hu, -⟩ := u.lexemes_eq_cons
  have hend : Lexeme.sign .endOfInput ∉ l :: (us ++ ls) := by
    have := u.not_mem_lexemes
    simp_all [hspells.not_mem]
  rw [hu] at heq ⊢
  simp only [List.length_cons, Parser.bound]
  cases hpeeked : s.peeked with
  | none =>
    rw [hpeeked] at heq
    obtain rfl : l :: us ++ (ls ++ [stop]) = rest' := heq
    rw [← List.append_assoc] at hreads
    have hle := hreads.length_le hend
    simp only [List.length_cons, List.length_append] at hle
    omega
  | some t =>
    rw [hpeeked] at heq
    obtain rfl : us ++ (ls ++ [stop]) = rest' := (List.cons.inj heq).2
    rw [← List.append_assoc] at hreads
    have hle := hreads.length_le fun h => hend (List.mem_cons_of_mem _ h)
    simp only [List.length_append] at hle
    omega

/-- The grammar finds the tree of a sequence.  For operands with operators between them there is
exactly one ordered tree.  Wherever lines end after operators and wherever the parser stands,
parsing operators succeeds with this tree, up to lines. -/
theorem parse_ordered_tree (u : Operand) (rest : List (Operator × Operand)) :
    ∃ tree : Tree, tree.Ordered ∧ tree.reading = (u, rest) ∧
      (∀ tree' : Tree, tree'.Ordered → tree'.reading = (u, rest) → tree' = tree) ∧
      ∀ (source : Bytes) (tables : Tables) (s : Parser) (ls : List Lexeme) (stop : Lexeme)
        (q : Place), s.pending = none → Spells rest ls → isEnd stop = true →
        s.Ahead tables (u.lexemes ++ ls ++ [stop]) q →
        ∃ e s', Parser.run source tables (Grammar.binary 0) s = .ok e s' ∧ tree.IsExpr e ∧
          s'.Ahead tables [stop] q ∧
          s' = { s with place := s'.place, peeked := s'.peeked, last := s'.last } := by
  obtain ⟨tree, htree, hreading⟩ := Tree.exists_ordered u rest
  refine ⟨tree, htree, hreading, fun tree' htree' hreading' =>
    htree'.eq_of_reading_eq htree (hreading'.trans hreading.symm), ?_⟩
  intro source tables s ls stop q hpending hspells hstop hahead
  rw [List.append_assoc] at hahead
  have hbound := length_lt_bound hspells hahead
  have hyields : Yields (grammarAt source tables s.bound s.bound) s (Grammar.binary 0)
      (Climbs tables s q stop 0 u [] rest ls.length) :=
    binary_yields hpending hstop hspells (by omega) (by omega) ⟨hahead, rfl⟩
  obtain ⟨e, s', hrun, tree', ls', htree', hreading', he, hspells', -, hstands⟩ := hyields
  have htake : rest.takeWhile (fun x => decide (0 ≤ x.1.level)) = rest := by simp
  have hdrop : rest.dropWhile (fun x => decide (0 ≤ x.1.level)) = [] := by simp
  rw [hdrop] at hspells'
  cases hspells'
  rw [htake] at hreading'
  obtain rfl := htree'.eq_of_reading_eq htree (hreading'.trans hreading.symm)
  exact ⟨e, s', hrun, he, hstands.ahead, hstands.same⟩

theorem parse_ordered_tree_of_line_break :
    let minus : Operator := ⟨"-", by decide⟩
    let times : Operator := ⟨"*", by decide⟩
    let number (n : Int64) : Operand := .atom (.value (.int n))
    ∃ e s', Parser.run "t" .standard (Grammar.binary 0) (Parser.start "1-2*\n- 3-4\n") = .ok e s' ∧
      (Tree.node minus (.node minus (.operand (number 1))
        (.node times (.operand (number 2)) (.operand (.sign minus (number 3)))))
        (.operand (number 4))).IsExpr e := by
  intro minus times number
  obtain ⟨tree, -, -, hunique, hparse⟩ := parse_ordered_tree (number 1)
    [(minus, number 2), (times, .sign minus (number 3)), (minus, number 4)]
  have hspells : Spells [(minus, number 2), (times, .sign minus (number 3)), (minus, number 4)]
      [.operator "-", .value (.int 2), .operator "*", .sign .endOfLine, .operator "-",
        .value (.int 3), .operator "-", .value (.int 4)] :=
    .cons minus 0 (number 2) (.cons times 1 (.sign minus (number 3)) (.cons minus 0 (number 4) .nil))
  have hahead : (Parser.start "1-2*\n- 3-4\n").Ahead .standard
      ([.value (.int 1)] ++ [.operator "-", .value (.int 2), .operator "*", .sign .endOfLine,
        .operator "-", .value (.int 3), .operator "-", .value (.int 4)] ++ [.sign .endOfLine])
      ⟨[], 3⟩ :=
    ⟨_, rfl, 1, ⟨"-2*\n- 3-4\n", 1⟩, by rfl, 1, ⟨"2*\n- 3-4\n", 1⟩, by rfl,
      1, ⟨"*\n- 3-4\n", 1⟩, by rfl, 1, ⟨"\n- 3-4\n", 1⟩, by rfl, 1, ⟨"- 3-4\n", 2⟩, by rfl,
      2, ⟨" 3-4\n", 2⟩, by rfl, 2, ⟨"-4\n", 2⟩, by rfl, 2, ⟨"4\n", 2⟩, by rfl,
      2, ⟨"\n", 2⟩, by rfl, 2, ⟨[], 3⟩, by rfl, rfl⟩
  obtain ⟨e, s', hrun, he, -⟩ := hparse "t" .standard _ _ _ _ rfl hspells rfl hahead
  refine ⟨e, s', hrun, ?_⟩
  rwa [hunique (.node minus (.node minus _ (.node times _ _)) _) ?_ rfl]
  simp [Tree.Ordered, Tree.level?]
  decide

end Operation

end StagedScript
