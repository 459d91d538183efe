import StagedScript.Proofs.Reading.Comparison

/-!
# What the rules of the grammar use up

Two grammars that are compared at the scanner do the same in every rule, because a rule calls for a
smaller part only after a token, and each round of a loop uses a token up.  So the bounds for nesting
and rounds are never reached.
-/

namespace StagedScript.Reading

open Grammar

variable {C : Comparison} {b n k line start : Nat} {st : Stage} {α β : Type} {kind : TokenKind}
  {t : Token} {stops : List TokenKind}
  {handlers exported typed : Bool} {cause : GrammarError} {step : β → Rule (α ⊕ β)} {e : Expr}
  {front : Bytes} {parts : BlockParts} {binder : Binder} {level : Level}

/-- Where some tokens were used up, a rule does the same in two grammars from every stage. If its
result has a property, it uses something up. -/
def Uses (C : Comparison) (b k : Nat) (R : α → Prop) (x : Rule α) : Prop :=
  ∀ n, n + k ≤ b → ∀ st, Agrees C b n st x fun n' a _ => R a → n' < n

/-- A rule does the same in two grammars. -/
abbrev Keeps (C : Comparison) (b k : Nat) (x : Rule α) : Prop := Uses C b k (fun _ => False) x

/-- A rule does the same in two grammars, and it uses something up. -/
abbrev Takes (C : Comparison) (b k : Nat) (x : Rule α) : Prop := Uses C b k (fun _ => True) x

section

variable {x z : Rule α} {f : α → Rule β} {R R' : α → Prop} {S : β → Prop} {m : Nat}

theorem Uses.ite {c : Prop} [Decidable c] (hx : c → Uses C b k R x) (hz : ¬c → Uses C b k R z) :
    Uses C b k R (if c then x else z) := by
  split
  next h => exact hx h
  next h => exact hz h

theorem Uses.imp (hx : Uses C b k R x) (h : ∀ a, R' a → R a) : Uses C b k R' x :=
  fun n hn st => (hx n hn st).imp fun _ _ a _ hR hR' => hR (h a hR')

theorem Uses.keeps (hx : Uses C b k R x) : Keeps C b k x := hx.imp fun _ => False.elim

theorem Uses.agrees (hx : Uses C b k R x) (hn : n + k ≤ b) (hm : n ≤ m) :
    Agrees C b n st x fun n' a _ => R a → n' < m :=
  (hx n hn st).imp fun _ _ _ _ h hR => (h hR).trans_le hm

theorem Keeps.agrees (hx : Keeps C b 0 x) (hn : n ≤ b) : Agrees C b n st x fun _ _ _ => True :=
  (hx n hn st).imp fun _ _ _ _ _ => trivial

theorem Keeps.inner (hx : Keeps C b 1 x) (hn : n < b) : Agrees C b n st x fun _ _ _ => True :=
  (hx n hn st).imp fun _ _ _ _ _ => trivial

theorem Keeps.below (hx : Keeps C b 1 x) (hn : n < b) (hm : n < m) :
    Agrees C b n st x fun n' _ _ => n' < m :=
  (hx n hn st).imp fun _ hle _ _ _ => hle.trans_lt hm

theorem Uses.pure {a : α} (h : ¬R a) : Uses C b k R (Pure.pure a) :=
  fun _ _ _ => .pure fun ha => absurd ha h

/-- One rule after another: what the first one used up leaves less for the second one. -/
theorem Uses.bind (hx : Uses C b k R x) (hused : ∀ a, R a → Keeps C b (k + 1) (f a))
    (hf : ∀ a, ¬R a → Uses C b k S (f a)) : Uses C b k S (x >>= f) := by
  intro n hn st
  refine (hx n hn st).bind fun n₁ hn₁ a st₁ hlt => ?_
  by_cases ha : R a
  · have hlt := hlt ha
    exact (hused a ha n₁ (by omega) st₁).imp fun _ hle _ _ _ _ => hle.trans_lt hlt
  · exact (hf a ha n₁ (by omega) st₁).imp fun _ _ _ _ h hS => (h hS).trans_le hn₁

theorem Keeps.bind (hx : Keeps C b k x) (hf : ∀ a, Uses C b k S (f a)) :
    Uses C b k S (x >>= f) :=
  Uses.bind hx (fun _ h => h.elim) fun a _ => hf a

theorem Takes.bind (hx : Takes C b k x) (hf : ∀ a, Keeps C b (k + 1) (f a)) :
    Uses C b k S (x >>= f) :=
  Uses.bind hx (fun a _ => hf a) fun _ h => absurd trivial h

theorem Uses.iteBind {c : Prop} [Decidable c] (hx : Keeps C b k x) (hz : Keeps C b k z)
    (hf : ∀ a, Uses C b k S (f a)) : Uses C b k S (if c then x >>= f else z >>= f) :=
  .ite (fun _ => hx.bind hf) fun _ => hz.bind hf

end

theorem isIncomplete_of_display (h : cause.message = front ++ t.display)
    (ht : t.kind = .endOfInput) : cause.IsIncomplete := by
  unfold GrammarError.IsIncomplete
  rw [h, Token.display_of_endOfInput ht]
  exact Bytes.hasPart_append _ (Bytes.hasPart_self _)

theorem kind_ne_endOfInput_of_operator (h : isOperatorToken t = true) : t.kind ≠ .endOfInput := by
  intro hkind
  simp [isOperatorToken, hkind] at h

theorem binderOf?_ne (h : binderOf? t.kind = some binder) : t.kind ≠ .endOfInput := by
  intro hkind
  simp [hkind, binderOf?] at h

variable {x : Rule α} {R : α → Prop} {P : Nat → α → Stage → Prop}

theorem Keeps.of_agrees (h : ∀ n, n + k ≤ b → ∀ st, Agrees C b n st x fun _ _ _ => True) :
    Keeps C b k x :=
  fun n hn st => (h n hn st).imp fun _ _ _ _ _ h => h.elim

/-- Smaller parts are parsed behind a token only. -/
theorem sub_keeps {goal : Goal} : Keeps C b (k + 1) (sub goal) :=
  .of_agrees fun _ _ _ _ _ hg => (hg.parse goal _ _ (by omega)).imp fun _ _ _ _ _ => trivial

theorem spanFrom_keeps {first : Nat} : Keeps C b n (spanFrom first) :=
  .of_agrees fun _ _ _ => span_agrees (fun source last => ⟨source, first, max last first⟩)
    fun _ _ => rfl

theorem spanned_keeps {first : Nat} {f : Span → α} :
    Keeps C b n (spanFrom first >>= fun s => Pure.pure (f s)) :=
  spanFrom_keeps.bind fun _ => .pure id

theorem spanLast_keeps : Keeps C b n spanLast := .of_agrees fun _ _ _ =>
  span_agrees (fun source last => ⟨source, last, max last last⟩) fun _ _ => rfl

theorem newDecl_keeps {name : Bytes} :
    Keeps C b n (liftM (Parser.newDecl name line exported) : Rule Decl) :=
  .of_agrees fun _ _ _ _ _ _ => (Parser.newDecl_agrees name line exported).imp fun _ _ _ _ _ => trivial

theorem addArgument_keeps : Keeps C b n (liftM (Parser.addArgument e) : Rule Nat) :=
  .of_agrees fun _ _ _ _ _ _ => (Parser.addArgument_agrees e).imp fun _ _ _ _ _ => trivial

/-- A loop does the same if each round does and uses something up before the next one. -/
theorem repeating_keeps (c : β) (hstep : ∀ c, Uses C b k (·.isRight = true) (step c)) :
    Keeps C b k (repeating c step) := by
  intro n hn st
  refine (repeating_agrees (P := fun _ _ => True) c (by omega) fun m hm c st => ?_).imp
    fun _ _ _ _ _ h => h.elim
  refine (hstep c m (by omega) st).imp fun m' _ r st' h => ?_
  cases r with
  | inl a => trivial
  | inr c => exact h rfl

theorem hasPending_agrees {f : Bool → Rule α}
    (h : ∀ r, Agrees C b n st (f r) P) : Agrees C b n st (get >>= fun s => f s.pending.isNone) P :=
  fun g g' hg s => h s.pending.isNone g g' hg s

variable [law : C.Lawful]

include law

theorem peek_keeps : Keeps C b k peek :=
  fun _ _ _ => (peek_agrees (by omega)).imp fun _ _ _ _ _ h => h.elim

theorem next_uses : Uses C b k (·.kind ≠ .endOfInput) next :=
  fun _ _ _ => (next_agrees (by omega)).imp fun _ _ _ _ h ht =>
    (h.1.resolve_left fun h => ht h.1).2.1

theorem failAt_bind {f : β → Rule α}
    (h : C.closed → st = .ended → cause.IsIncomplete) (ht : C.Line t.line) (hdeep : cause ≠ .tooDeep) :
    Agrees C b n st (failAt t cause >>= f) P :=
  Agrees.bind (P := fun _ _ _ => False) (failAt_agrees h ht hdeep) fun _ _ _ _ h => h.elim

/-! ### Looking at tokens -/

/-- A token that is known not to be the end of the text is used up. -/
theorem next_takes (hst : ¬st.MayEnd C.closed) (hn : n ≤ b) :
    Agrees C b n st next fun n' t st' => n' < n ∧ st' = .after t ∧ ∀ t', st = .ahead t' → t = t' :=
  (next_agrees hn).imp fun _ _ _ _ h => (h.1.resolve_left fun h => hst h.2.2).2

theorem at?_agrees (kind : TokenKind) (hkind : kind ≠ .endOfInput) (hn : n ≤ b) :
    Agrees C b n st (at? kind) fun _ r st' =>
      (r = true → ¬st'.MayEnd C.closed) ∧ (¬st.MayEnd C.closed → ¬st'.MayEnd C.closed) := by
  refine (peek_agrees hn).bind fun n' hn' t st' ⟨ht, _⟩ => .pure ?_
  obtain ⟨ht, rfl, hst⟩ | ⟨ht, rfl⟩ := ht
  · refine ⟨fun hr => absurd ((of_decide_eq_true hr).symm.trans ht) hkind, fun h => absurd hst h⟩
  · exact ⟨fun _ => id, fun _ => id⟩

theorem at?_keeps : Keeps C b k (at? kind) := peek_keeps.bind fun _ => .pure id

theorem at?_next (hkind : kind ≠ .endOfInput) {f : Token → Rule α} {z : Rule α}
    (hf : ∀ t, Keeps C b (k + 1) (f t)) (hz : Uses C b k R z) :
    Uses C b k R (at? kind >>= fun r => if r then next >>= f else z) := by
  intro n hn st
  refine (at?_agrees kind hkind (by omega)).bind fun n₁ hn₁ r st₁ ⟨hr, _⟩ => ?_
  cases r with
  | true =>
    refine (next_takes (hr rfl) (by omega)).bind fun n₂ hn₂ t st₂ ⟨hlt, _⟩ => ?_
    exact (hf t n₂ (by omega) st₂).imp fun _ _ _ _ _ _ => by omega
  | false => exact (hz n₁ (by omega) st₁).imp fun _ _ _ _ h hR => Nat.lt_of_lt_of_le (h hR) hn₁

theorem accept_agrees (kind : TokenKind) (hkind : kind ≠ .endOfInput) (hn : n ≤ b) :
    Agrees C b n st (accept kind) fun n' r st' => r = true → n' < n ∧ st' ≠ .ended := by
  refine (at?_agrees kind hkind hn).bind fun n₁ hn₁ r st₁ ⟨hr, _⟩ => ?_
  cases r with
  | true =>
    refine (next_takes (hr rfl) (by omega)).bind fun n₂ hn₂ t st₂ ⟨hlt, hst, _⟩ => .pure fun _ => ?_
    exact ⟨by omega, hst ▸ Stage.after_ne_ended t⟩
  | false => exact .pure fun h => absurd h (by simp)

theorem accept_uses (hkind : kind ≠ .endOfInput) : Uses C b k (· = true) (accept kind) :=
  fun _ _ _ => (accept_agrees kind hkind (by omega)).imp fun _ _ _ _ h hr => (h hr).1

theorem accept_ite (hkind : kind ≠ .endOfInput) {x z : Rule α} (hx : Keeps C b (k + 1) x)
    (hz : Uses C b k R z) : Uses C b k R (accept kind >>= fun r => if r then x else z) := by
  refine (accept_uses hkind).bind (fun r hr => ?_) fun r hr => ?_
  · rw [if_pos hr]
    exact hx
  · rw [if_neg hr]
    exact hz

theorem expect_agrees (kind : TokenKind) (hkind : kind ≠ .endOfInput) (hn : n ≤ b) :
    Agrees C b n st (expect kind) fun n' t st' => n' < n ∧ st' = .after t ∧ t.kind = kind := by
  refine (peek_agrees hn).bind fun n₁ hn₁ t st₁ ⟨ht, hknown⟩ => ?_
  split
  next htkind =>
    obtain ⟨ht, -⟩ | ⟨-, rfl⟩ := ht
    · exact absurd (htkind.symm.trans ht) hkind
    · refine (next_takes id (by omega)).imp fun n₂ hn₂ t₂ st₂ ⟨hlt, hst, heq⟩ => ?_
      exact ⟨by omega, hst, heq t rfl ▸ htkind⟩
  next =>
    exact failAt_agrees (fun _ hst => isIncomplete_of_display rfl (ht.kind_of_ended hst)) hknown nofun

theorem expect_takes (hkind : kind ≠ .endOfInput) : Takes C b k (expect kind) :=
  fun _ _ _ => (expect_agrees kind hkind (by omega)).imp fun _ _ _ _ h _ => h.1

theorem peek_failAt {cause : Token → GrammarError}
    (h : ∀ t, (cause t).message = front ++ t.display) (hdeep : ∀ t, cause t ≠ .tooDeep)
    (hn : n ≤ b) {f : β → Rule α} :
    Agrees C b n st (peek >>= fun t => failAt t (cause t) >>= f) P :=
  (peek_agrees hn).bind fun _ _ t _ ⟨ht, hknown⟩ =>
    failAt_bind (fun _ hst => isIncomplete_of_display (h t) (ht.kind_of_ended hst)) hknown (hdeep t)

/-- An error that names the token that was consumed, unless it is a name. -/
theorem next_name {cause : Token → GrammarError} (h : ∀ t, (cause t).message = front ++ t.display)
    (hdeep : ∀ t, cause t ≠ .tooDeep) {f : Token → β → Rule α} {z : Token → Rule α}
    (hz : ∀ t, Keeps C b (k + 1) (z t)) :
    Keeps C b k
      (next >>= fun t => if (!isName t) = true then failAt t (cause t) >>= f t else z t) := by
  intro n hn st
  refine (next_agrees (by omega)).bind fun n₁ hn₁ t st₁ ⟨ht, hknown⟩ => ?_
  split
  next =>
    exact failAt_bind (fun _ hst => isIncomplete_of_display (h t) (ht.kind_of_ended hst)) hknown
      (hdeep t)
  next hname =>
    have hkind : t.kind ≠ .endOfInput := by
      intro hkind
      simp [isName, hkind, TokenKind.isKeyword] at hname
    have hlt : n₁ < n := (ht.resolve_left fun h => hkind h.1).2.1
    exact Uses.agrees (hz t) (by omega) hlt.le

/-! ### Loops -/

theorem skipLines_keeps : Keeps C b k skipLines :=
  repeating_keeps () fun _ => accept_ite (by simp) (.pure id) (.pure (by simp))

theorem accept_keeps (hkind : kind ≠ .endOfInput) : Keeps C b k (accept kind) :=
  (accept_uses hkind).keeps

theorem expect_keeps (hkind : kind ≠ .endOfInput) : Keeps C b k (expect kind) :=
  (expect_takes hkind).keeps

theorem next_keeps : Keeps C b k next := next_uses.keeps

theorem optionalValue_keeps : Keeps C b (k + 1) optionalValue :=
  peek_keeps.bind fun _ => .ite (fun _ => .pure id) fun _ => sub_keeps

theorem afterComma_keeps : Keeps C b (k + 1) afterComma :=
  (accept_keeps (by simp)).bind fun _ => .ite (fun _ => sub_keeps) fun _ => .pure id

/-! ### Lists -/

theorem listUntil_keeps {close : TokenKind} (hclose : close ≠ .endOfInput) :
    Keeps C b (k + 1) (listUntil close) := by
  refine skipLines_keeps.bind fun _ => repeating_keeps [] fun items => ?_
  refine (accept_keeps hclose).bind fun _ => .ite (fun _ => .pure (by simp)) fun _ => ?_
  refine sub_keeps.bind fun e => skipLines_keeps.bind fun _ => ?_
  refine accept_ite (by simp) ?_ ?_
  · exact skipLines_keeps.bind fun _ => .pure id
  · exact skipLines_keeps.bind fun _ => (expect_keeps hclose).bind fun _ =>
      .pure (by simp)

theorem expressions_keeps {acrossLines : Bool} :
    Keeps C b (k + 1) (expressions level acrossLines) := by
  refine repeating_keeps [] fun items => ?_
  refine sub_keeps.bind fun e => accept_ite (by simp) ?_ ?_
  · exact .ite (fun _ => skipLines_keeps.bind fun _ => .pure id)
      fun _ => .pure id
  · exact .pure (by simp)

theorem declList_keeps : Keeps C b k (declList exported) := by
  refine repeating_keeps [] fun ds => ?_
  refine (expect_keeps (by simp)).bind fun t => newDecl_keeps.bind fun d => ?_
  refine accept_ite (by simp) (.pure id) ?_
  exact (expect_keeps (by simp)).bind fun _ => .pure (by simp)

theorem targetNames_keeps : Keeps C b k targetNames :=
  (accept_keeps (by simp)).bind fun _ =>
    .ite (fun _ => declList_keeps.bind fun _ => .pure id) fun _ =>
      (expect_keeps (by simp)).bind fun _ => newDecl_keeps.bind fun _ => .pure id

theorem loopTarget_keeps : Keeps C b k loopTarget :=
  targetNames_keeps.bind fun _ => .ite (fun _ => (accept_keeps (by simp)).bind fun _ =>
      .ite (fun _ => targetNames_keeps.bind fun _ => .pure id) fun _ => .pure id)
      fun _ => .pure id

/-! ### Operands -/

theorem blockToEnd_keeps : Keeps C b (k + 1) (blockToEnd start handlers) :=
  sub_keeps.bind fun _ => (expect_keeps (by simp)).bind fun _ => .pure id

theorem elseBlock_keeps : Keeps C b (k + 1) elseBlock :=
  at?_keeps.bind fun _ =>
    .ite (fun _ => next_keeps.bind fun _ => sub_keeps) fun _ => .pure id

theorem paren_keeps : Keeps C b (k + 1) (paren line) :=
  skipLines_keeps.bind fun _ => (accept_keeps (by simp)).bind fun _ =>
    .ite (fun _ => spanned_keeps) fun _ =>
      sub_keeps.bind fun _ => skipLines_keeps.bind fun _ =>
        (accept_keeps (by simp)).bind fun _ =>
          .ite (fun _ => (listUntil_keeps (by simp)).bind fun _ => spanned_keeps) fun _ =>
              (expect_keeps (by simp)).bind fun _ => .pure id

theorem mapEntries_keeps : Keeps C b (k + 1) (mapEntries line) := by
  refine skipLines_keeps.bind fun _ => ?_
  refine Keeps.bind (repeating_keeps [] fun entries => ?_)
    fun _ => spanned_keeps
  refine (accept_keeps (by simp)).bind fun _ => .ite (fun _ => .pure (by simp)) fun _ => ?_
  refine sub_keeps.bind fun key => (accept_keeps (by simp)).bind fun _ => ?_
  refine .iteBind sub_keeps (spanLast_keeps.bind fun _ => .pure id) fun value => ?_
  refine skipLines_keeps.bind fun _ => accept_ite (by simp) ?_ ?_
  · exact skipLines_keeps.bind fun _ => .pure id
  · exact skipLines_keeps.bind fun _ => (expect_keeps (by simp)).bind fun _ =>
      .pure (by simp)

theorem guardOf_keeps : Keeps C b k guardOf :=
  at?_keeps.bind fun _ =>
    .ite (fun _ => at?_keeps.bind fun _ => .ite (fun _ => .pure id) fun _ =>
      next_keeps.bind fun _ => (expect_keeps (by simp)).bind fun _ =>
        (expect_keeps (by simp)).bind fun _ => .pure id) fun _ =>
      next_keeps.bind fun _ => (expect_keeps (by simp)).bind fun _ =>
        (expect_keeps (by simp)).bind fun _ => .pure id

theorem conditional_keeps : Keeps C b (k + 1) (conditional line) := by
  refine Keeps.bind (repeating_keeps _ fun (cases, line) => ?_)
    fun _ => elseBlock_keeps.bind fun _ => (expect_keeps (by simp)).bind fun _ =>
      spanned_keeps
  refine guardOf_keeps.bind fun guard => sub_keeps.bind fun cond =>
    skipLines_keeps.bind fun _ => (expect_keeps (by simp)).bind fun _ =>
      sub_keeps.bind fun body => ?_
  exact at?_next (by simp) (fun _ => .pure id) (.pure (by simp))

theorem forLoop_keeps : Keeps C b (k + 1) (forLoop line) :=
  loopTarget_keeps.bind fun _ => (expect_keeps (by simp)).bind fun _ =>
    sub_keeps.bind fun _ => skipLines_keeps.bind fun _ =>
      (expect_keeps (by simp)).bind fun _ => sub_keeps.bind fun _ =>
        elseBlock_keeps.bind fun _ => (expect_keeps (by simp)).bind fun _ =>
          spanned_keeps

theorem parameterType_keeps : Keeps C b (k + 1) (parameterType typed) :=
  .ite (fun _ => (accept_keeps (by simp)).bind fun _ =>
    .ite (fun _ => sub_keeps) fun _ => .pure id) fun _ => .pure id

/-- Another parameter comes after a comma, and the last one before a parenthesis. -/
theorem afterParameter_agrees {params : List Param} {extra : Bool} (hn : n ≤ b) :
    Agrees C b n st (afterParameter params extra) (RoundEnds (fun _ st' => st' ≠ .ended) n) := by
  refine (skipLines_keeps.agrees hn).bind fun n₁ hn₁ _ st₁ _ => ?_
  refine (accept_agrees _ (by simp) (by omega)).bind fun n₂ hn₂ r st₂ hr => ?_
  cases r with
  | true =>
    have hlt := (hr rfl).1
    exact (skipLines_keeps.agrees (by omega)).bind fun n₃ hn₃ _ st₃ _ =>
      .pure (show n₃ < n by omega)
  | false =>
    refine (accept_agrees _ (by simp) (by omega)).bind fun n₃ hn₃ r st₃ _ => ?_
    cases r with
    | true =>
      refine (skipLines_keeps.agrees (by omega)).bind fun n₄ hn₄ _ st₄ _ => ?_
      refine (expect_agrees _ (by simp) (by omega)).bind fun n₅ hn₅ _ st₅ _ => ?_
      refine (skipLines_keeps.agrees (by omega)).bind fun n₆ hn₆ _ st₆ _ => ?_
      exact (expect_agrees _ (by simp) (by omega)).bind fun _ _ t _ ⟨_, hst, _⟩ =>
        .pure (hst ▸ Stage.after_ne_ended t)
    | false =>
      exact (expect_agrees _ (by simp) (by omega)).bind fun _ _ t _ ⟨_, hst, _⟩ =>
        .pure (hst ▸ Stage.after_ne_ended t)

/-- Parameters end with a parenthesis, so the end of the text was not seen. -/
theorem parameters_agrees (hn : n < b) :
    Agrees C b n st (parameters typed) fun _ _ st' => st' ≠ .ended := by
  refine (skipLines_keeps.agrees hn.le).bind fun n₁ hn₁ _ st₁ _ => ?_
  refine (accept_agrees _ (by simp) (by omega)).bind fun n₂ hn₂ r st₂ hr => ?_
  cases r with
  | true => exact .pure (hr rfl).2
  | false =>
    refine repeating_agrees (P := fun _ st' => st' ≠ .ended) _ (by omega)
      fun m hm (params, extra) st₃ => ?_
    dsimp only
    split
    · exact peek_failAt (fun _ => rfl) (by simp) (by omega)
    refine (expect_agrees _ (by simp) (by omega)).bind fun n₄ hn₄ name st₄ _ => ?_
    refine (peek_keeps.agrees (by omega)).bind fun n₅ hn₅ dots st₅ _ => ?_
    -- dots after the name may be there or not, and the type follows in either case
    have htype : ∀ n₆ ≤ n₅, ∀ st₆, Agrees C b n₆ st₆ (parameterType typed >>= fun type =>
        afterParameter (params ++ [⟨name.text, name.line, type⟩])
          (dots.kind = .operator && dots.text = "...")) (RoundEnds (fun _ st' => st' ≠ .ended) m) := by
      intro n₆ hn₆ st₆
      refine (parameterType_keeps.inner (by omega)).bind fun n₇ hn₇ type st₇ _ => ?_
      refine (afterParameter_agrees (by omega)).imp fun n₈ hn₈ r st₈ hr => ?_
      cases r with
      | inl => exact hr
      | inr => exact show n₈ < m from lt_of_lt_of_le hr (by omega)
    split
    · exact (next_keeps.agrees (by omega)).bind fun n₆ hn₆ _ st₆ _ => htype n₆ hn₆ st₆
    · exact htype n₅ le_rfl st₅

theorem functionAt_takes : Takes C b k (functionAt line) := by
  refine (expect_takes (by simp)).bind fun _ => ?_
  refine Keeps.bind (fun _ _ _ => (parameters_agrees (by omega)).imp
    fun _ _ _ _ _ h => h.elim) fun _ => ?_
  exact blockToEnd_keeps.bind fun _ => spanned_keeps

theorem methodAt_keeps : Keeps C b (k + 1) (methodAt line) := by
  intro n' hn' st
  refine (next_agrees (by omega)).bind fun n₁ hn₁ t st₁ ⟨ht, hknown⟩ => ?_
  split
  next =>
    exact failAt_bind (fun _ hst => isIncomplete_of_display rfl (ht.kind_of_ended hst)) hknown nofun
  next =>
    refine (expect_agrees _ (by simp) (by omega)).bind fun n₂ hn₂ _ st₂ _ => ?_
    refine (parameters_agrees (by omega)).bind fun n₃ hn₃ r st₃ hst₃ => ?_
    dsimp only
    split
    next => exact failAt_bind (fun _ hst => absurd hst hst₃) hknown nofun
    next =>
      refine Uses.agrees (k := 1) ?_ (by omega) (by omega)
      exact blockToEnd_keeps.bind fun _ => spanned_keeps

theorem scopedAt_keeps : Keeps C b (k + 1) (scopedAt line) := by
  refine Keeps.bind (repeating_keeps _ fun (decls, values) => ?_)
    fun _ => skipLines_keeps.bind fun _ => (expect_keeps (by simp)).bind fun _ =>
      blockToEnd_keeps.bind fun _ => spanned_keeps
  exact skipLines_keeps.bind fun _ => (expect_keeps (by simp)).bind fun _ =>
    (expect_keeps (by simp)).bind fun _ => newDecl_keeps.bind fun _ => sub_keeps.bind fun _ =>
      accept_ite (by simp) (.pure id) (.pure (by simp))

theorem switchAt_keeps : Keeps C b (k + 1) (switchAt line) := by
  refine sub_keeps.bind fun _ => skipLines_keeps.bind fun _ => ?_
  refine Keeps.bind (repeating_keeps [] fun cases => ?_) fun _ =>
    elseBlock_keeps.bind fun _ => (expect_keeps (by simp)).bind fun _ => spanned_keeps
  exact at?_next (by simp) (fun _ => sub_keeps.bind fun _ => .pure id) (.pure (by simp))

theorem selectClause_agrees {isIs : Bool} (hst : ¬st.MayEnd C.closed) (hn : n < b) :
    Agrees C b n st (selectClause isIs) fun n' _ _ => n' < n := by
  refine (next_takes hst hn.le).bind fun n₁ hn₁ t st₁ ⟨hlt, _⟩ => ?_
  refine Keeps.below ?_ (hlt.trans hn) hlt
  exact expressions_keeps.bind fun _ => skipLines_keeps.bind fun _ =>
    (expect_keeps (by simp)).bind fun _ => sub_keeps.bind fun _ => .pure id

theorem selectAt_keeps : Keeps C b (k + 1) (selectAt line) := by
  refine sub_keeps.bind fun _ => skipLines_keeps.bind fun _ => ?_
  refine Keeps.bind (repeating_keeps [] fun clauses => ?_) fun _ =>
    elseBlock_keeps.bind fun _ => (expect_keeps (by simp)).bind fun _ => spanned_keeps
  intro m' hm' st
  refine (at?_agrees _ (by simp) (by omega)).bind fun n₁ hn₁ isIs st₁ ⟨hst₁, _⟩ => ?_
  have hclause : ∀ n₂ ≤ n₁, ∀ st₂ : Stage, ¬st₂.MayEnd C.closed →
      Agrees C b n₂ st₂ (selectClause isIs >>=
      fun clause => pure (.inr (clauses ++ [clause]) : List SelectClause ⊕ List SelectClause))
      fun n' r _ => r.isRight = true → n' < m' :=
    fun n₂ hn₂ st₂ hst₂ => (selectClause_agrees hst₂ (by omega)).bind
      fun n₃ hn₃ _ _ hlt => .pure fun _ => by omega
  cases isIs with
  | true => exact hclause n₁ le_rfl st₁ (hst₁ rfl)
  | false =>
    refine (at?_agrees _ (by simp) (by omega)).bind fun n₂ hn₂ isIn st₂ ⟨hst₂, _⟩ => ?_
    cases isIn with
    | true => exact hclause n₂ hn₂ st₂ (hst₂ rfl)
    | false => exact .pure (by simp)

theorem quotedBody_keeps : Keeps C b (k + 1) (quotedBody line) :=
  sub_keeps.bind fun _ => (expect_keeps (by simp)).bind fun _ => .pure id

theorem quoteAt_keeps : Keeps C b (k + 1) (quoteAt line) := by
  refine Keeps.bind (.of_agrees fun _ _ _ => ?_) fun _ => spanned_keeps
  exact fun g g' hg => Parser.quoted_agrees (quotedBody_keeps.inner (by omega) g g' hg)

theorem unquoteAt_agrees (ht : C.Line t.line) (hst : st ≠ .ended) (hn : n < b) :
    Agrees C b n st (unquoteAt t) fun _ _ _ => True := by
  refine Agrees.bind (fun _ _ _ => Parser.isQuoted_agrees) fun n₁ hn₁ q st₁ hst₁ => ?_
  split
  · exact failAt_bind (fun _ h => absurd (hst₁.symm.trans h) hst) ht nofun
  · refine Keeps.inner ((accept_keeps (by simp)).bind fun _ => .ite (fun _ => ?_) fun _ => ?_)
      (hn₁.trans_lt hn)
    · exact sub_keeps.bind fun _ => (expect_keeps (by simp)).bind fun _ =>
        addArgument_keeps.bind fun _ => spanned_keeps
    · exact (expect_keeps (by simp)).bind fun _ => spanFrom_keeps.bind fun _ =>
        addArgument_keeps.bind fun _ => spanned_keeps

theorem wordOperand_agrees {word : Keyword} (ht : C.Line t.line) (hst : st ≠ .ended) (hn : n < b) :
    Agrees C b n st (wordOperand t word) fun _ _ _ => True := by
  unfold wordOperand
  dsimp only
  split
  case h_21 => exact failAt_agrees (fun _ h => absurd h hst) ht nofun
  all_goals refine Keeps.inner ?_ hn
  case h_1 | h_2 | h_3 | h_4 => exact spanned_keeps
  case h_5 => exact conditional_keeps
  case h_6 => exact blockToEnd_keeps.bind fun _ => spanned_keeps
  case h_7 | h_8 => exact sub_keeps.bind fun _ => afterComma_keeps.bind fun _ => spanned_keeps
  case h_9 | h_10 => exact optionalValue_keeps.bind fun _ => spanned_keeps
  case h_11 => exact forLoop_keeps
  case h_12 | h_20 => exact sub_keeps.bind fun _ => spanned_keeps
  case h_13 => exact blockToEnd_keeps
  case h_14 => exact functionAt_takes.keeps
  case h_15 => exact methodAt_keeps
  case h_16 =>
    exact sub_keeps.bind fun _ => afterComma_keeps.bind fun _ =>
      .ite (fun _ => spanned_keeps) fun _ => spanned_keeps
  case h_17 => exact scopedAt_keeps
  case h_18 => exact switchAt_keeps
  case h_19 => exact selectAt_keeps

theorem freshOperand_takes : Takes C b k freshOperand := by
  intro n hn st
  refine (next_agrees (by omega)).bind fun n₁ hn₁ t st₁ ht => ?_
  obtain ⟨ht, hknown⟩ := ht
  by_cases hkind : t.kind = .endOfInput
  · -- the end of the text is no operand
    obtain ⟨lexeme, line⟩ := t
    cases lexeme with
    | sign kind =>
      cases hkind
      exact failAt_agrees (fun _ _ => isIncomplete_of_display (t := ⟨.sign .endOfInput, line⟩) rfl rfl)
        hknown (by simp)
    | _ => exact absurd hkind (by simp [Token.kind])
  obtain ⟨-, hlt, hst₁, -⟩ := ht.resolve_left fun h => hkind h.1
  have hst : st₁ ≠ .ended := hst₁ ▸ Stage.after_ne_ended t
  have hn : n₁ < b := by omega
  suffices h : Agrees C b n₁ st₁ _ fun _ _ _ => True from h.imp fun _ hle _ _ _ _ => by omega
  dsimp only
  split
  case h_4 => exact wordOperand_agrees hknown hst hn
  case h_12 => exact unquoteAt_agrees hknown hst hn
  case h_5 | h_13 => exact failAt_agrees (fun _ h => absurd h hst) hknown (by simp)
  all_goals refine Keeps.inner ?_ hn
  case h_1 | h_3 | h_6 => exact spanned_keeps
  case h_2 => exact .pure id
  case h_7 => exact paren_keeps
  case h_8 => exact (listUntil_keeps (by simp)).bind fun _ => spanned_keeps
  case h_9 => exact mapEntries_keeps
  case h_10 =>
    exact skipLines_keeps.bind fun _ => sub_keeps.bind fun _ =>
      skipLines_keeps.bind fun _ => (expect_keeps (by simp)).bind fun _ => spanned_keeps
  case h_11 => exact quoteAt_keeps

theorem operand_takes : Takes C b k operand := by
  intro n hn st
  have hfresh : Agrees C b n st freshOperand fun n' _ _ => n' < n :=
    (freshOperand_takes n hn st).imp fun _ _ _ _ h => h trivial
  exact Agrees.imp (operand_agrees hfresh) fun _ _ _ _ h _ => h

/-! ### Expressions -/

/-- The next token is known by its kind and consumed. -/
theorem ahead_next {f : Token → Rule α} {m : Nat} (hn : n ≤ b) (hm : n ≤ m)
    (hf : ∀ t, Keeps C b 1 (f t)) :
    Agrees C b n (.ahead t) (next >>= f) fun n' _ _ => n' < m :=
  (next_takes id hn).bind fun _ _ t _ ⟨hlt, _⟩ => (hf t).below (hlt.trans_le hn) (hlt.trans_le hm)

theorem term_takes : Takes C b k term := by
  refine peek_keeps.bind fun _ => operand_takes.bind fun e => repeating_keeps e fun e n hn st => ?_
  refine (peek_agrees (by omega)).bind fun n₁ hn₁ t st₁ ⟨ht, _⟩ => ?_
  by_cases hkind : t.kind = .endOfInput
  · rw [hkind]
    exact .pure (by simp)
  obtain rfl := (ht.resolve_left fun h => hkind h.1).2
  have hround : ∀ {x : Rule (Expr ⊕ Expr)}, Agrees C b n₁ (.ahead t) x (fun n' _ _ => n' < n) →
      Agrees C b n₁ (.ahead t) x fun n' r _ => r.isRight = true → n' < n :=
    fun h => h.imp fun _ _ _ _ hlt _ => hlt
  split
  · refine hround (ahead_next (by omega) hn₁ fun _ => ?_)
    exact (listUntil_keeps (by simp)).bind fun _ => spanned_keeps
  · refine hround (ahead_next (by omega) hn₁ fun _ => ?_)
    exact (listUntil_keeps (by simp)).bind fun _ => spanned_keeps
  · refine hround (ahead_next (by omega) hn₁ fun _ => ?_)
    refine next_name (fun _ => rfl) (by simp) fun _ => ?_
    exact (accept_keeps (by simp)).bind fun _ =>
      .iteBind (listUntil_keeps (by simp)) (.pure id) fun _ => spanned_keeps
  · refine hround (ahead_next (by omega) hn₁ fun _ => ?_)
    exact next_name (fun _ => rfl) (by simp) fun _ => spanned_keeps
  · exact .pure (by simp)

theorem unary_takes : Takes C b k unary := by
  intro n hn st
  refine (peek_agrees (by omega)).bind fun n₁ hn₁ t st₁ ⟨ht, _⟩ => ?_
  refine hasPending_agrees (f := fun fresh => if fresh && isOperatorToken t then _ else term)
    fun fresh => ?_
  split
  next hop =>
    have hkind := kind_ne_endOfInput_of_operator (Bool.and_eq_true_iff.1 hop).2
    obtain rfl := (ht.resolve_left fun h => hkind h.1).2
    refine (ahead_next (by omega) hn₁ fun _ => ?_).imp fun _ _ _ _ hlt _ => hlt
    exact sub_keeps.bind fun _ => spanned_keeps
  next => exact Uses.agrees (k := 0) term_takes (by omega) hn₁

theorem binary_takes {least : Nat} : Takes C b k (binary least) := by
  refine peek_keeps.bind fun _ => unary_takes.bind fun left => ?_
  refine repeating_keeps left fun left n hn st => ?_
  refine (peek_agrees (by omega)).bind fun n₁ hn₁ t st₁ ⟨ht, _⟩ => ?_
  split
  next => exact .pure (by simp)
  next hop =>
    have hkind : t.kind ≠ .endOfInput := by
      refine kind_ne_endOfInput_of_operator ?_
      simp at hop
      exact hop.1
    obtain rfl := (ht.resolve_left fun h => hkind h.1).2
    refine (ahead_next (by omega) hn₁ fun _ => ?_).imp fun _ _ _ _ hlt _ => hlt
    exact skipLines_keeps.bind fun _ => sub_keeps.bind fun _ => spanned_keeps

theorem generator_keeps {value : Expr} : Keeps C b (k + 1) (generator start value) := by
  refine Keeps.bind (repeating_keeps [] fun clauses => ?_) fun _ => spanned_keeps
  refine at?_next (by simp) (fun _ => ?_) (.ite (fun _ => ?_) fun _ => ?_)
  · exact loopTarget_keeps.bind fun _ => (expect_keeps (by simp)).bind fun _ =>
      sub_keeps.bind fun _ => .pure id
  · exact at?_next (by simp) (fun _ => sub_keeps.bind fun _ => .pure id) (.pure (by simp))
  · exact .pure (by simp)

theorem connected_keeps {word : Keyword} {op : Connective} {part : Goal} :
    Keeps C b (k + 1) (connected word op start part e) := by
  refine repeating_keeps e fun e => accept_ite (by simp) ?_ (.pure (by simp))
  exact skipLines_keeps.bind fun _ => sub_keeps.bind fun _ => spanned_keeps

theorem assignment_keeps : Keeps C b (k + 1) (assignment start e) :=
  (accept_keeps (by simp)).bind fun _ =>
    .ite (fun _ => skipLines_keeps.bind fun _ => sub_keeps.bind fun _ => spanned_keeps)
      fun _ => .pure id

theorem expression_takes : Takes C b k (expression level) := by
  refine peek_keeps.bind fun _ => binary_takes.bind fun e => ?_
  refine .iteBind connected_keeps (.pure id) fun _ => ?_
  refine .iteBind connected_keeps (.pure id) fun _ => ?_
  have last : ∀ (start : Nat) e, Keeps C b (k + 1)
      (if level.includes .full then assignment start e else return e) :=
    fun _ _ => .ite (fun _ => assignment_keeps) fun _ => .pure id
  exact .ite (fun _ => at?_keeps.bind fun _ =>
    .iteBind generator_keeps (.pure id) (last _)) fun _ => Keeps.bind (.pure id) (last _)

/-! ### Blocks -/

theorem declarations_keeps : Keeps C b (k + 1) (declarations parts binder exported) := by
  refine repeating_keeps parts fun parts => peek_keeps.bind fun _ => ?_
  refine Keeps.bind ((accept_keeps (by simp)).bind fun _ => .ite (fun _ => ?_) fun _ => ?_)
    fun _ => spanFrom_keeps.bind fun _ => ?_
  · exact declList_keeps.bind fun _ => (accept_keeps (by simp)).bind fun _ =>
      .ite (fun _ => Keeps.bind (.pure id) fun _ => sub_keeps.bind fun _ => .pure id) fun _ =>
        (expect_keeps (by simp)).bind fun _ =>
          Keeps.bind (.pure id) fun _ => sub_keeps.bind fun _ => .pure id
  · refine (expect_keeps (by simp)).bind fun _ => newDecl_keeps.bind fun _ =>
      (accept_keeps (by simp)).bind fun _ =>
        .ite (fun _ => sub_keeps.bind fun _ => .pure id) fun _ => .ite (fun _ => ?_) fun _ =>
          .pure id
    exact fun _ _ _ => peek_failAt (fun _ => rfl) (by simp) (by omega)
  · exact accept_ite (by simp) (skipLines_keeps.bind fun _ => .pure id) (.pure (by simp))

/-- A function that begins a statement becomes an operand that was already parsed. -/
theorem functionAt_pending {x : Rule α} (hx : Keeps C b k x) :
    Keeps C b k
      (functionAt line >>= fun fn => modify ({ · with pending := some fn }) >>= fun _ => x) := by
  refine .of_agrees fun n hn st => withPending_agrees ?_ fun n' hn' st' => ?_
  · exact Agrees.imp (functionAt_takes n hn st) fun _ _ _ _ h => h trivial
  · exact (hx n' (by omega) st').imp fun _ _ _ _ _ => trivial

theorem statement_takes : Takes C b k (statement parts exported) := by
  intro n hn st
  refine (peek_agrees (by omega)).bind fun n₁ hn₁ t st₁ ⟨ht, hknown⟩ => ?_
  have hlast : ∀ k, Takes C b k
      (do return { parts with body := parts.body ++ [← expression .full] } : Rule BlockParts) :=
    fun _ => expression_takes.bind fun _ => .pure id
  split
  next binder hbinder =>
    obtain rfl := (ht.resolve_left fun h => binderOf?_ne hbinder h.1).2
    exact (ahead_next (by omega) hn₁ fun _ => declarations_keeps).imp
      fun _ _ _ _ hlt _ => hlt
  next =>
    split
    next hfun =>
      obtain rfl := (ht.resolve_left fun h => by simp [hfun] at h).2
      refine (next_takes id (by omega)).bind ?_
      rintro n₂ hn₂ t₂ st₂ ⟨hlt₂, hst₂, heq⟩
      obtain rfl := heq t rfl
      -- the text cannot end after the word, since no line does
      have hinside (hclosed : C.closed) : ¬st₂.MayEnd C.closed := by
        rw [hst₂, Stage.after, hfun]
        exact not_not_intro hclosed
      refine (at?_agrees _ (by simp) (by omega)).bind ?_
      rintro n₃ hn₃ named st₃ ⟨-, hst₃⟩
      have hlt₃ : n₃ < n := by omega
      cases named with
      | true =>
        refine (Keeps.below ?_ (by omega) hlt₃).imp fun _ _ _ _ hlt _ => hlt
        exact next_keeps.bind fun _ => functionAt_takes.keeps.bind fun _ =>
          newDecl_keeps.bind fun _ => spanned_keeps
      | false =>
        rw [if_neg (by simp)]
        split
        next =>
          refine failAt_bind (fun hclosed hst => ?_) hknown fun h => by cases h
          subst hst
          exact absurd trivial (hst₃ (hinside hclosed))
        next =>
          refine (Keeps.below ?_ (by omega) hlt₃).imp fun _ _ _ _ hlt _ => hlt
          exact functionAt_pending (hlast 1).keeps
    next =>
      split
      next =>
        exact failAt_bind (fun _ hst => isIncomplete_of_display rfl (ht.kind_of_ended hst)) hknown
          fun h => by cases h
      next => exact (hlast 0).agrees (by omega) hn₁

theorem handlersUntil_keeps : Keeps C b k (handlersUntil stops) := by
  refine repeating_keeps [] fun handlers n hn st => ?_
  refine (at?_agrees _ (by simp) (by omega)).bind fun n₁ hn₁ found st₁ ⟨hst₁, _⟩ => ?_
  cases found with
  | false => exact .pure (by simp)
  | true =>
    refine (next_takes (hst₁ rfl) (by omega)).bind fun n₂ hn₂ _ st₂ ⟨hlt, _⟩ => ?_
    refine (Keeps.below ?_ (by omega) (show n₂ < n by omega)).imp fun _ _ _ _ hlt _ => hlt
    exact (expect_keeps (by simp)).bind fun _ => (accept_keeps (by simp)).bind fun _ =>
      .iteBind expressions_keeps (.pure id) fun _ => skipLines_keeps.bind fun _ =>
        (expect_keeps (by simp)).bind fun _ => sub_keeps.bind fun _ => .pure id

theorem stopped_keeps : Keeps C b k (stopped handlers stops) :=
  peek_keeps.bind fun _ => .pure id

theorem skipEnds_keeps : Keeps C b k skipEnds :=
  repeating_keeps () fun _ => accept_ite (by simp) (.pure id) <|
      accept_ite (by simp) (.pure id) (.pure (by simp))

theorem statements_keeps : Keeps C b k (statements handlers stops) := by
  refine repeating_keeps _ fun parts => ?_
  refine skipEnds_keeps.bind fun _ => stopped_keeps.bind fun _ =>
    .ite (fun _ => .pure (by simp)) fun _ => ?_
  refine (accept_keeps (by simp)).bind fun _ => statement_takes.bind fun parts => ?_
  refine stopped_keeps.bind fun _ => .ite (fun _ _ _ _ => ?_) fun _ => .pure id
  refine (peek_agrees (by omega)).bind fun n₁ hn₁ t st₁ ⟨ht, hknown⟩ => ?_
  split
  next =>
    exact failAt_bind (fun _ hst => isIncomplete_of_display rfl (ht.kind_of_ended hst)) hknown nofun
  next => exact .pure False.elim

theorem block_keeps : Keeps C b k (block start handlers stops) :=
  statements_keeps.bind fun _ =>
    .iteBind handlersUntil_keeps (.pure id) fun _ => spanFrom_keeps.bind fun _ =>
      .ite (fun _ => .pure id) fun _ => spanLast_keeps.bind fun _ => .pure id

/-! ### The grammar as a whole -/

/-- An expression in braces ends inside a line. -/
theorem embedded_agrees (hn : n ≤ b) : Agrees C b n st embedded fun _ _ st' => st' = .inside := by
  refine (skipLines_keeps.agrees hn).bind fun n₁ hn₁ _ st₁ _ => ?_
  refine (expression_takes.keeps.agrees (hn₁.trans hn)).bind fun n₂ hn₂ e st₂ _ => ?_
  refine (skipLines_keeps.agrees (by omega)).bind fun n₃ hn₃ _ st₃ _ => ?_
  refine (expect_agrees _ (by simp) (by omega)).bind fun _ _ t _ ⟨_, hst, hkind⟩ => .pure ?_
  rw [hst, Stage.after, hkind]
  rfl

/-- The rule for every goal does the same in two grammars whose smaller parts do. -/
theorem rule_agrees (goal : Goal) (hn : n ≤ b) :
    Agrees C b n st (rule goal) fun _ _ st' => goal = .embedded → st' = .inside := by
  cases goal with
  | expression level =>
    exact (expression_takes.keeps.agrees hn).imp fun _ _ _ _ _ h => nomatch h
  | binary least => exact (binary_takes.keeps.agrees hn).imp fun _ _ _ _ _ h => nomatch h
  | unary => exact (unary_takes.keeps.agrees hn).imp fun _ _ _ _ _ h => nomatch h
  | term => exact (term_takes.keeps.agrees hn).imp fun _ _ _ _ _ h => nomatch h
  | block start handlers stops =>
    exact (block_keeps.agrees hn).imp fun _ _ _ _ _ h => nomatch h
  | embedded => exact (embedded_agrees hn).imp fun _ _ _ _ h _ => h

theorem expect_endOfInput_agrees (hn : n ≤ b) :
    Agrees C b n st (expect .endOfInput) fun _ _ _ => True := by
  refine (peek_agrees hn).bind fun n₁ hn₁ t st₁ ⟨ht, hknown⟩ => ?_
  split
  next => exact (next_agrees (hn₁.trans hn)).imp fun _ _ _ _ _ => trivial
  next hkind => exact failAt_agrees (fun _ hst => absurd (ht.kind_of_ended hst) hkind) hknown nofun

theorem unit_agrees (hn : n ≤ b) : Agrees C b n st Parser.unit fun _ _ _ => True :=
  (block_keeps.agrees hn).bind fun _ hn' _ _ _ =>
    (expect_endOfInput_agrees (hn'.trans hn)).bind fun _ _ _ _ _ => .pure trivial

/-- Two grammars do the same as long as less is left to read than the bounds for nesting and rounds. -/
theorem goal_agrees (source : Bytes) (tables : Tables) {rounds rounds' : Nat}
    (hrounds : rounds ≤ rounds') : ∀ (depth depth' : Nat), depth ≤ depth' → depth ≤ rounds →
      ∀ (what : Goal) n st, n < depth → ParseAction.Agrees C n st
        (goal source tables rounds depth what) (goal source tables rounds' depth' what)
        fun _ _ st' => what = .embedded → st' = .inside := by
  intro depth
  induction depth with
  | zero => exact fun _ _ _ _ n _ hn => absurd hn (Nat.not_lt_zero n)
  | succ depth ih =>
    intro depth' hdepth hbound what n st hn
    obtain ⟨depth', rfl⟩ : ∃ k, depth' = k + 1 := ⟨depth' - 1, by omega⟩
    refine rule_agrees (b := depth) what (Nat.le_of_lt_succ hn) _ _
      { source := rfl, tables := rfl, rounds := hbound, rounds_le := hrounds, parse := ?_ }
    exact fun goal n st => ih depth' (by omega) (by omega) goal n st

/-- A whole text is parsed in the same way with larger bounds, up to its end. -/
theorem unit_agreesAt (source : Bytes) (tables : Tables) {s : Parser}
    (hs : C.At s .inside) (hpending : s.pending = none) {rounds depth : Nat}
    (hrounds : s.bound ≤ rounds) (hdepth : s.bound ≤ depth) :
    ParseAction.AgreesAt C s s.left .inside (Parser.run source tables Parser.unit)
      (Parser.unit ⟨source, tables, rounds, goal source tables rounds depth⟩) fun _ _ _ => True := by
  have hnone : s.peeked = none := hs.peeked
  have hleft : s.left = s.place.rest.length := by simp [Parser.left, hnone, hpending]
  have htied : Tied C (s.left + 2) ⟨source, tables, s.bound, goal source tables s.bound s.bound⟩
      ⟨source, tables, rounds, goal source tables rounds depth⟩ := by
    have hlt : s.left + 2 < s.bound := by
      simp only [Parser.bound, hleft]
      omega
    exact ⟨rfl, rfl, hlt, hrounds, fun what n st hn =>
      goal_agrees source tables hrounds _ _ hdepth le_rfl what n st (hn.trans hlt)⟩
  have h := unit_agrees (Nat.le_add_right s.left 2) _ _ htied s hs le_rfl
  unfold ParseAction.AgreesAt at h ⊢
  rwa [run_eq]

end StagedScript.Reading
