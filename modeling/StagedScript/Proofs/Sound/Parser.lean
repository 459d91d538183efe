import StagedScript.Proofs.Sound.Value
import StagedScript.Tree.Parser

/-!
# What the parser gives

Every expression that the parser gives is sound, and it is never absent: only optional parts are.  A
rule of the grammar `Ensures` a property of its results if it has the property for all grammars
whose smaller parts are sound and all states that hold sound expressions only.
-/

namespace StagedScript

variable {z : CapturedCounts} {n : Nat}

/-- A sound expression that is not absent. -/
def Expr.Written (z : CapturedCounts) (e : Expr) : Prop := e.isAbsent = false ∧ e.Sound z

def Lexeme.Sound (z : CapturedCounts) : Lexeme → Prop
  | .value v => v.Sound z
  | .string e => e.Written z
  | _ => True

namespace Parser

/-- A parser holds sound expressions only, and the numbers up to a bound are used for
declarations. -/
structure Sound (z : CapturedCounts) (n : Nat) (s : Parser) : Prop where
  numbers : n ≤ s.nextDecl
  peeked : ∀ t, s.peeked = some t → t.lexeme.Sound z
  pending : ∀ e, s.pending = some e → e.Written z
  textQuote : ∀ args, s.textQuote = some args → Expr.AllSound z args
  braceQuote : ∀ args, s.braceQuote = some args → Expr.AllSound z args

theorem start_sound (text : Bytes) (nextDecl : Nat) :
    Sound z nextDecl { Parser.start text with nextDecl } := by
  constructor <;> simp [Parser.start]

theorem Sound.mono {n n' : Nat} {s : Parser} (h : s.Sound z n') (hn : n ≤ n') : s.Sound z n :=
  { h with numbers := hn.trans h.numbers }

end Parser

/-- An action keeps the state of the parser sound and its results have a property. -/
def ParseAction.Ensures {α : Type} (z : CapturedCounts) (n : Nat) (x : ParseAction α)
    (P : α → Prop) : Prop :=
  ∀ s a s', s.Sound z n → x s = .ok a s' → P a ∧ s'.Sound z n

/-- The smaller parts that a rule is given are sound. -/
def Grammar.Sound (z : CapturedCounts) (g : Grammar) : Prop :=
  ∀ goal n, ParseAction.Ensures z n (g.parse goal) (Expr.Written z)

/-- A rule ensures a property of its results if smaller parts are sound. -/
def Rule.Ensures {α : Type} (z : CapturedCounts) (n : Nat) (x : Rule α) (P : α → Prop) : Prop :=
  ∀ g, g.Sound z → ParseAction.Ensures z n (x g) P

abbrev Rule.Keeps {α : Type} (z : CapturedCounts) (n : Nat) (x : Rule α) : Prop :=
  x.Ensures z n fun _ => True

namespace ParseAction.Ensures

variable {α β : Type} {x : ParseAction α} {f : α → ParseAction β} {P P' : α → Prop} {Q : β → Prop}

theorem pure {a : α} (h : P a) : Ensures z n (Pure.pure a) P := by
  rintro s a s' hs ⟨⟩
  exact ⟨h, hs⟩

theorem bind (hx : Ensures z n x P) (hf : ∀ a, P a → Ensures z n (f a) Q) :
    Ensures z n (x >>= f) Q := by
  intro s b s' hs hrun
  change EStateM.bind x f s = _ at hrun
  unfold EStateM.bind at hrun
  split at hrun
  · rename_i a t ha
    obtain ⟨hP, ht⟩ := hx s a t hs ha
    exact hf a hP t b s' ht hrun
  · exact nomatch hrun

theorem throw (e : ReadError) : Ensures z n (throw e : ParseAction α) P := by
  rintro s a s' hs ⟨⟩

theorem modify {f : Parser → Parser} (h : ∀ s, s.Sound z n → (f s).Sound z n) :
    Ensures z n (modify f : ParseAction Unit) fun _ => True := by
  rintro s a s' hs ⟨⟩
  exact ⟨trivial, h s hs⟩

theorem get : Ensures z n (get : ParseAction Parser) (Parser.Sound z n) := by
  rintro s a s' hs ⟨⟩
  exact ⟨hs, hs⟩

theorem set {s : Parser} (h : s.Sound z n) :
    Ensures z n (set s : ParseAction PUnit) fun _ => True := by
  rintro s a s' hs ⟨⟩
  exact ⟨trivial, h⟩

theorem imp (hx : Ensures z n x P) (h : ∀ a, P a → P' a) : Ensures z n x P' :=
  fun s a s' hs hrun => (hx s a s' hs hrun).imp_left (h a)

end ParseAction.Ensures

namespace Rule.Ensures

variable {α β : Type} {x y : Rule α} {f : α → Rule β} {P : α → Prop} {Q : β → Prop}

theorem pure {a : α} (h : P a) : Ensures z n (Pure.pure a) P := fun _ _ => .pure h

theorem bind (hx : Ensures z n x P) (hf : ∀ a, P a → Ensures z n (f a) Q) : Ensures z n (x >>= f) Q :=
  fun g hg => (hx g hg).bind fun a ha => hf a ha g hg

/-- Nothing needs to be known of the result of the first part. -/
theorem andThen (hx : Keeps z n x) (hf : ∀ a, Ensures z n (f a) Q) : Ensures z n (x >>= f) Q :=
  hx.bind fun a _ => hf a

theorem ite {c : Prop} [Decidable c] (hx : Ensures z n x P) (hy : Ensures z n y P) :
    Ensures z n (if c then x else y) P := by
  split
  · exact hx
  · exact hy

theorem iteBind {c : Prop} [Decidable c] (hx : Ensures z n x P) (hy : Ensures z n y P)
    (hf : ∀ a, P a → Ensures z n (f a) Q) : Ensures z n (if c then x >>= f else y >>= f) Q :=
  .ite (hx.bind hf) (hy.bind hf)

theorem keeps (hx : Ensures z n x P) : Keeps z n x := fun g hg => (hx g hg).imp fun _ _ => trivial

theorem lift {x : ParseAction α} (h : x.Ensures z n P) : Ensures z n (fun _ => x) P := fun _ _ => h

end Rule.Ensures

/-! ### Numbers of declarations -/

/-- There are declarations, and all are numbered from a bound on and below another. -/
def Decl.New (n n' : Nat) (ds : List Decl) : Prop := ds ≠ [] ∧ ∀ d ∈ ds, n ≤ d.id ∧ d.id < n'

theorem Decl.New.widen {n₁ n₂ n' n'' : Nat} {ds : List Decl} (h : Decl.New n₁ n₂ ds) (hn : n' ≤ n₁)
    (hn' : n₂ ≤ n'') : Decl.New n' n'' ds :=
  ⟨h.1, fun d hd => ⟨hn.trans (h.2 d hd).1, (h.2 d hd).2.trans_le hn'⟩⟩

theorem Decl.New.append {n n₁ n₂ : Nat} {ds es : List Decl} (h : Decl.New n n₁ ds)
    (h' : Decl.New n n₂ es) (hn : n₁ ≤ n₂) : Decl.New n n₂ (ds ++ es) := by
  refine ⟨by simp [h.1], fun d hd => ?_⟩
  obtain hd | hd := List.mem_append.1 hd
  · exact (h.widen le_rfl hn).2 d hd
  · exact h'.2 d hd

/-- An action that may number declarations: its results have a property that depends on the numbers
used up to then. -/
def ParseAction.Numbers {α : Type} (z : CapturedCounts) (n : Nat) (x : ParseAction α)
    (P : Nat → α → Prop) : Prop :=
  ∀ s a s', s.Sound z n → x s = .ok a s' → ∃ n', n ≤ n' ∧ P n' a ∧ s'.Sound z n'

def Rule.Numbers {α : Type} (z : CapturedCounts) (n : Nat) (x : Rule α) (P : Nat → α → Prop) :
    Prop :=
  ∀ g, g.Sound z → ParseAction.Numbers z n (x g) P

namespace Rule

variable {α β : Type} {x y : Rule α} {f : α → Rule β} {P : Nat → α → Prop} {Q : Nat → β → Prop}

theorem Numbers.pure {a : α} (h : P n a) : Numbers z n (Pure.pure a) P := by
  rintro g hg s a s' hs ⟨⟩
  exact ⟨n, le_rfl, h, hs⟩

theorem Numbers.bind (hx : Numbers z n x P)
    (hf : ∀ n', n ≤ n' → ∀ a, P n' a → Numbers z n' (f a) Q) : Numbers z n (x >>= f) Q := by
  intro g hg s b s' hs hrun
  change EStateM.bind (x g) (fun a => f a g) s = _ at hrun
  unfold EStateM.bind at hrun
  split at hrun
  · rename_i a t ha
    obtain ⟨n₁, hn₁, hP, ht⟩ := hx g hg s a t hs ha
    obtain ⟨n₂, hn₂, hQ, hs'⟩ := hf n₁ hn₁ a hP g hg t b s' ht hrun
    exact ⟨n₂, hn₁.trans hn₂, hQ, hs'⟩
  · exact nomatch hrun

variable {R : α → Prop}

theorem Ensures.thenNumbers (hx : Ensures z n x R) (hf : ∀ a, R a → Numbers z n (f a) Q) :
    Numbers z n (x >>= f) Q := by
  intro g hg s b s' hs hrun
  change EStateM.bind (x g) (fun a => f a g) s = _ at hrun
  unfold EStateM.bind at hrun
  split at hrun
  · rename_i a t ha
    obtain ⟨hR, ht⟩ := hx g hg s a t hs ha
    exact hf a hR g hg t b s' ht hrun
  · exact nomatch hrun

theorem Ensures.numbers (hx : Ensures z n x R) (h : ∀ a, R a → P n a) : Numbers z n x P := by
  intro g hg s a s' hs hrun
  obtain ⟨hR, hs'⟩ := hx g hg s a s' hs hrun
  exact ⟨n, le_rfl, h a hR, hs'⟩

theorem Numbers.ite {c : Prop} [Decidable c] (hx : Numbers z n x P) (hy : Numbers z n y P) :
    Numbers z n (if c then x else y) P := by
  split
  · exact hx
  · exact hy

theorem Numbers.ensures (hx : Numbers z n x P) (h : ∀ n' a, P n' a → R a) : Ensures z n x R := by
  intro g hg s a s' hs hrun
  obtain ⟨n', hn', hP, hs'⟩ := hx g hg s a s' hs hrun
  exact ⟨h n' a hP, hs'.mono hn'⟩

theorem Numbers.keeps (hx : Numbers z n x P) : Keeps z n x := hx.ensures fun _ _ _ => trivial

end Rule

/-! ### Tokens -/

variable {v : Value} {tables : Tables}

theorem PrefixKind.read_sound {kind : PrefixKind} {raw : Bytes} (h : kind.read raw = .ok v) :
    v.Sound z := by
  cases kind with
  | raw =>
    cases h
    trivial
  | bytes =>
    cases hr : Escape.replace raw <;> simp [PrefixKind.read, hr, Except.map] at h
    subst h
    trivial
  | text =>
    cases hr : Escape.replace raw <;> simp [PrefixKind.read, hr, Except.map] at h
    subst h
    trivial

theorem Numeral.basedValue_sound {base : Nat} {letter : UInt8} {digits : Bytes}
    (h : Numeral.basedValue base letter digits = .ok v) : v.Sound z := by
  unfold Numeral.basedValue at h
  split at h
  all_goals
    cases h
    try trivial

theorem Numeral.decimalValue_sound {whole frac expo : Bytes} {imaginary : Bool}
    (h : Numeral.decimalValue whole frac expo imaginary = .ok v) : v.Sound z := by
  unfold Numeral.decimalValue at h
  dsimp only at h
  repeat' split at h
  all_goals
    cases h
    try trivial

theorem Numeral.read_sound {s rest : Bytes} (h : Numeral.read s = (.ok v, rest)) : v.Sound z := by
  unfold Numeral.read Numeral.readDecimal at h
  dsimp only at h
  split at h
  · exact basedValue_sound (congrArg Prod.fst h)
  · exact decimalValue_sound (congrArg Prod.fst h)

theorem scanPlain_sound {place after : Place} {lexeme : Lexeme}
    (h : scanPlain tables place = .ok (lexeme, after)) : lexeme.Sound z := by
  have number : ∀ line s, Scan.number line s = .ok (lexeme, after) → lexeme.Sound z := by
    intro line s h
    unfold Scan.number at h
    split at h
    · rename_i v rest hread
      cases h
      exact Numeral.read_sound hread
    · cases h
  have word : ∀ line s, Scan.word tables line s = .ok (lexeme, after) → lexeme.Sound z := by
    intro line s h
    unfold Scan.word Scan.prefixed at h
    dsimp only at h
    repeat' split at h
    all_goals
      cases h
      try trivial
    exact PrefixKind.read_sound ‹_›
  have text : ∀ line s, Scan.text line s = .ok (lexeme, after) → lexeme.Sound z := by
    intro line s h
    unfold Scan.text at h
    dsimp only at h
    split at h
    · cases h
    · cases h
      trivial
  unfold scanPlain at h
  dsimp only at h
  split at h
  · cases h
    trivial
  · split at h
    case h_2 => exact word _ _ h
    case h_3 => exact number _ _ h
    case h_7 => exact text _ _ h
    all_goals
      cases h
      try trivial

namespace Parser

theorem Sound.withPlace {s : Parser} (h : s.Sound z n) (place : Place) :
    Sound z n { s with place } := ⟨h.numbers, h.peeked, h.pending, h.textQuote, h.braceQuote⟩

theorem scanFailure_ensures {α : Type} {f : ScanFailure} {P : α → Prop} :
    ParseAction.Ensures z n (scanFailure f) P :=
  (ParseAction.Ensures.modify fun _ hs => hs.withPlace f.place).bind fun _ _ => .throw _

theorem textPart_sound (source text : Bytes) (line : Nat) :
    Expr.AllSound z (textPart source text line) := by
  unfold textPart
  split
  · trivial
  · exact ⟨trivial, trivial⟩

theorem allSound_append {es es' : List Expr} (h : Expr.AllSound z es) (h' : Expr.AllSound z es') :
    Expr.AllSound z (es ++ es') := by
  rw [Expr.allSound_iff] at *
  intro e he
  exact (List.mem_append.1 he).elim (h e) (h' e)

variable {embedded : Option (ParseAction Expr)} {parse : ParseAction Expr} {source : Bytes}

theorem embeddedText_ensures
    (he : ∀ parse, embedded = some parse → parse.Ensures z n (Expr.Written z)) (opened : Nat) :
    ∀ (fuel : Nat) (parts : List Expr), Expr.AllSound z parts →
      (embeddedText source embedded opened fuel parts).Ensures z n (Lexeme.Sound z) := by
  intro fuel
  induction fuel with
  | zero => exact fun _ _ => .throw _
  | succ fuel ih =>
    intro parts hparts
    refine ParseAction.Ensures.get.bind fun s _ => ?_
    dsimp only
    split
    · exact scanFailure_ensures
    · split
      · split
        · exact scanFailure_ensures
        · rename_i parse
          refine (ParseAction.Ensures.modify fun _ hs => hs.withPlace _).bind fun _ _ => ?_
          refine (he parse rfl).bind fun e hwritten => ih _ ?_
          exact allSound_append (allSound_append hparts (textPart_sound ..)) ⟨hwritten.2, trivial⟩
      · refine (ParseAction.Ensures.modify fun _ hs => hs.withPlace _).bind fun _ _ => ?_
        split
        · exact .pure trivial
        · exact .pure ⟨rfl, allSound_append hparts (textPart_sound ..)⟩

theorem scan_ensures {tables : Tables}
    (he : ∀ parse, embedded = some parse → parse.Ensures z n (Expr.Written z)) (fuel : Nat) :
    (scan source tables embedded fuel).Ensures z n fun t => t.lexeme.Sound z := by
  refine ParseAction.Ensures.get.bind fun s _ => ?_
  dsimp only
  split
  · exact scanFailure_ensures
  · split
    · refine (ParseAction.Ensures.modify fun _ hs => hs.withPlace _).bind fun _ _ => ?_
      exact (embeddedText_ensures he _ fuel [] trivial).bind fun _ hl => .pure hl
    · split
      · exact scanFailure_ensures
      · rename_i hscan
        refine (ParseAction.Ensures.modify fun _ hs => hs.withPlace _).bind fun _ _ => ?_
        exact .pure (scanPlain_sound hscan)

variable {scan : ParseAction Token}

theorem peekWith_ensures (hscan : scan.Ensures z n fun t => t.lexeme.Sound z) :
    (peekWith scan).Ensures z n fun t => t.lexeme.Sound z := by
  refine ParseAction.Ensures.get.bind fun s hs => ?_
  split
  · rename_i t ht
    exact .pure (hs.peeked t ht)
  · refine hscan.bind fun t ht => ?_
    refine (ParseAction.Ensures.modify fun s hs => ?_).bind fun _ _ => .pure ht
    exact ⟨hs.numbers, by rintro _ ⟨⟩; exact ht, hs.pending, hs.textQuote, hs.braceQuote⟩

theorem nextWith_ensures (hscan : scan.Ensures z n fun t => t.lexeme.Sound z) :
    (nextWith scan).Ensures z n fun t => t.lexeme.Sound z := by
  refine ParseAction.Ensures.get.bind fun s hs => ?_
  split
  · rename_i t ht
    refine (ParseAction.Ensures.modify fun s hs => ?_).bind fun _ _ => .pure (hs.peeked t ht)
    exact ⟨hs.numbers, by simp, hs.pending, hs.textQuote, hs.braceQuote⟩
  · exact hscan

theorem embed_ensures (h : parse.Ensures z n (Expr.Written z)) :
    (embed parse).Ensures z n (Expr.Written z) := by
  intro s e s' hs hrun
  unfold embed at hrun
  dsimp only at hrun
  split at hrun
  · rename_i a t ht
    cases hrun
    have inner : Sound z n
        { s with last := 0, pending := none, braceQuote := none, inBraces := true } :=
      ⟨hs.numbers, hs.peeked, by simp, hs.textQuote, by simp⟩
    obtain ⟨he, ht⟩ := h _ _ _ inner ht
    exact ⟨he, ht.numbers, ht.peeked, hs.pending, ht.textQuote, hs.braceQuote⟩
  · cases hrun

theorem quoted_ensures (h : parse.Ensures z n (Expr.Written z)) :
    (quoted parse).Ensures z n fun r => r.1.Written z ∧ Expr.AllSound z r.2 := by
  have args : ∀ (o : Option (List Expr)), (∀ es, o = some es → Expr.AllSound z es) →
      Expr.AllSound z (o.getD []) := by
    rintro (_ | es) ho
    · trivial
    · exact ho es rfl
  intro s r s' hs hrun
  have inner : Sound z n (if s.inBraces = true then { s with braceQuote := some [] }
      else { s with textQuote := some [] }) := by
    split
    · exact ⟨hs.numbers, hs.peeked, hs.pending, hs.textQuote, by rintro _ ⟨⟩; trivial⟩
    · exact ⟨hs.numbers, hs.peeked, hs.pending, by rintro _ ⟨⟩; trivial, hs.braceQuote⟩
  unfold quoted at hrun
  dsimp only at hrun
  split at hrun
  · rename_i a t ht
    cases hrun
    obtain ⟨ha, ht⟩ := h _ _ _ inner ht
    refine ⟨⟨ha, args _ ?_⟩, ?_⟩
    · split
      · exact ht.braceQuote
      · exact ht.textQuote
    · split
      · exact ⟨ht.numbers, ht.peeked, ht.pending, ht.textQuote, hs.braceQuote⟩
      · exact ⟨ht.numbers, ht.peeked, ht.pending, hs.textQuote, ht.braceQuote⟩
  · cases hrun

theorem addArgument_ensures {e : Expr} (he : e.Sound z) :
    (addArgument e).Ensures z n fun _ => True := by
  refine ParseAction.Ensures.get.bind fun s hs => ?_
  split
  · rename_i args hargs
    refine (ParseAction.Ensures.set ?_).bind fun _ _ => .pure trivial
    refine ⟨hs.numbers, hs.peeked, hs.pending, hs.textQuote, ?_⟩
    rintro _ ⟨⟩
    exact allSound_append (hs.braceQuote args hargs) ⟨he, trivial⟩
  · refine (ParseAction.Ensures.set ?_).bind fun _ _ => .pure trivial
    refine ⟨hs.numbers, hs.peeked, hs.pending, ?_, hs.braceQuote⟩
    rintro _ ⟨⟩
    refine allSound_append ?_ ⟨he, trivial⟩
    cases hargs : s.textQuote with
    | none => trivial
    | some args => exact hs.textQuote args hargs

theorem newDecl_numbers (name : Bytes) (line : Nat) (exported : Bool) :
    (newDecl name line exported).Numbers z n fun n' d => Decl.New n n' [d] := by
  rintro s a s' hs ⟨⟩
  refine ⟨s.nextDecl + 1, Nat.le_succ_of_le hs.numbers, ⟨by simp, ?_⟩, le_rfl, hs.peeked,
    hs.pending, hs.textQuote, hs.braceQuote⟩
  simpa using hs.numbers

end Parser

/-! ### Rules -/

namespace Grammar

open Rule.Ensures

variable {α β : Type}

theorem sub_ensures {goal : Goal} : (sub goal).Ensures z n (Expr.Written z) :=
  fun _ hg => hg goal n

theorem sub_sound {goal : Goal} : (sub goal).Ensures z n (Expr.Sound z) :=
  fun g hg => (sub_ensures g hg).imp fun _ he => he.2

theorem scan_ensures {g : Grammar} (hg : g.Sound z) :
    (Parser.scan g.source g.tables (some (Parser.embed (g.parse .embedded))) g.rounds).Ensures z n
      fun t => t.lexeme.Sound z := by
  apply Parser.scan_ensures
  rintro _ ⟨⟩
  exact Parser.embed_ensures (hg .embedded n)

theorem peek_keeps : peek.Keeps z n :=
  keeps fun _ hg => Parser.peekWith_ensures (scan_ensures hg)

theorem next_ensures : next.Ensures z n fun t => t.lexeme.Sound z := by
  refine fun _ hg => (Parser.nextWith_ensures (scan_ensures hg)).bind fun _ ht => ?_
  refine (ParseAction.Ensures.modify fun _ hs => ?_).bind fun _ _ => .pure ht
  exact ⟨hs.numbers, hs.peeked, hs.pending, hs.textQuote, hs.braceQuote⟩

theorem next_keeps : next.Keeps z n := next_ensures.keeps

variable {line start : Nat} {exported handlers : Bool} {stops : List TokenKind} {e : Expr}
  {kind close : TokenKind} {P : α → Prop} {step : β → Rule (α ⊕ β)} {t : Token}
  {params : List Param} {b : BlockParts} {level : Level} {name : Bytes}

theorem failAt_ensures {cause : GrammarError} :
    (failAt t cause : Rule α).Ensures z n P := fun _ _ => .throw _

theorem at?_keeps : (at? kind).Keeps z n :=
  peek_keeps.andThen fun _ => .pure trivial

theorem accept_keeps : (accept kind).Keeps z n :=
  at?_keeps.andThen fun _ => .ite (next_keeps.andThen fun _ => .pure trivial) (.pure trivial)

theorem expect_keeps : (expect kind).Keeps z n :=
  peek_keeps.andThen fun _ => .ite next_keeps failAt_ensures

/-- A loop ends with a property if each round keeps an invariant or ends with the property. -/
theorem repeating_ensures {b : β} (I : β → Prop) (hb : I b)
    (hstep : ∀ b, I b → (step b).Ensures z n (Sum.elim P I)) :
    (repeating b step).Ensures z n P := by
  have rounds : ∀ rounds b, I b → (repeatFor step rounds b).Ensures z n P := by
    intro rounds
    induction rounds with
    | zero => exact fun _ _ => peek_keeps.andThen fun _ => failAt_ensures
    | succ rounds ih =>
      intro b hb
      refine (hstep b hb).bind fun r hr => ?_
      cases r with
      | inl a => exact .pure hr
      | inr b => exact ih b hr
  exact fun g hg => rounds g.rounds b hb g hg

theorem repeating_numbers {P : Nat → α → Prop} {b : β} (I : Nat → β → Prop) (hb : I n b)
    (hstep : ∀ n', n ≤ n' → ∀ b, I n' b → (step b).Numbers z n' fun n => Sum.elim (P n) (I n)) :
    (repeating b step).Numbers z n P := by
  have rounds : ∀ rounds n', n ≤ n' → ∀ b, I n' b → (repeatFor step rounds b).Numbers z n' P := by
    intro rounds
    induction rounds with
    | zero =>
      exact fun _ _ _ _ => peek_keeps.thenNumbers fun _ _ =>
        Rule.Ensures.numbers (failAt_ensures (P := fun _ => False)) nofun
    | succ rounds ih =>
      intro n' hn' b hb
      refine (hstep n' hn' b hb).bind fun n'' hn'' r hr => ?_
      cases r with
      | inl a => exact .pure hr
      | inr b => exact ih n'' (hn'.trans hn'') b hr
  exact fun g hg => rounds g.rounds n le_rfl b hb g hg

theorem skipLines_keeps : skipLines.Keeps z n :=
  repeating_ensures (fun _ => True) trivial fun _ _ => accept_keeps.andThen fun _ =>
    .ite (.pure trivial) (.pure trivial)

theorem spanFrom_keeps {first : Nat} : (spanFrom first).Keeps z n := by
  rintro g hg s a s' hs ⟨⟩
  exact ⟨trivial, hs⟩

theorem spanned {first : Nat} {f : Span → α} (h : ∀ s, P (f s)) :
    Rule.Ensures z n (spanFrom first >>= fun s => pure (f s)) P :=
  spanFrom_keeps.andThen fun s => .pure (h s)

theorem spanLast_keeps : spanLast.Keeps z n := by
  rintro g hg s a s' hs ⟨⟩
  exact ⟨trivial, hs⟩

theorem optionalValue_ensures : optionalValue.Ensures z n (Expr.Sound z) :=
  peek_keeps.andThen fun _ => .ite (.pure trivial) sub_sound

theorem afterComma_ensures : afterComma.Ensures z n (Expr.Sound z) :=
  accept_keeps.andThen fun _ =>
    .ite sub_sound (.pure trivial)

theorem newDecl_numbers :
    Rule.Numbers z n (liftM (Parser.newDecl name line exported) : Rule Decl) fun n' d =>
      Decl.New n n' [d] :=
  fun _ _ => Parser.newDecl_numbers name line exported

theorem newDecl_keeps : Rule.Keeps z n (liftM (Parser.newDecl name line exported) : Rule Decl) :=
  newDecl_numbers.keeps

/-! ### Lists -/

theorem allSound_concat {es : List Expr} (hes : Expr.AllSound z es) (he : e.Written z) :
    Expr.AllSound z (es ++ [e]) :=
  Parser.allSound_append hes ⟨he.2, trivial⟩

theorem listUntil_written : (listUntil close).Ensures z n fun es => ∀ e ∈ es, e.Written z := by
  refine skipLines_keeps.andThen fun _ =>
    repeating_ensures (fun es => ∀ e ∈ es, e.Written z) (by simp) fun items hitems => ?_
  refine accept_keeps.andThen fun _ => .ite (.pure hitems) ?_
  refine sub_ensures.bind fun e he => skipLines_keeps.andThen fun _ => ?_
  have hall : ∀ e' ∈ items ++ [e], e'.Written z := by
    simpa [or_imp, forall_and, he] using hitems
  exact accept_keeps.andThen fun _ => .ite (skipLines_keeps.andThen fun _ => .pure hall) <|
      skipLines_keeps.andThen fun _ => expect_keeps.andThen fun _ => .pure hall

theorem listUntil_ensures : (listUntil close).Ensures z n (Expr.AllSound z) :=
  fun g hg => (listUntil_written g hg).imp fun _ h => Expr.allSound_iff.2 fun e he => (h e he).2

theorem expressions_ensures {acrossLines : Bool} :
    (expressions level acrossLines).Ensures z n (Expr.AllSound z) :=
  repeating_ensures (Expr.AllSound z) trivial fun _ hitems => sub_ensures.bind fun _ he =>
      have hitems := allSound_concat hitems he
      accept_keeps.andThen fun _ =>
        .ite (.ite (skipLines_keeps.andThen fun _ => .pure hitems) (.pure hitems)) (.pure hitems)

theorem declList_numbers : (declList exported).Numbers z n fun n' ds => Decl.New n n' ds := by
  refine repeating_numbers (fun n' ds => ds = [] ∨ Decl.New n n' ds) (.inl rfl) ?_
  intro n₁ hn₁ ds hds
  refine expect_keeps.thenNumbers fun _ _ => newDecl_numbers.bind fun n₂ hn₂ d hd => ?_
  have hnew : Decl.New n n₂ (ds ++ [d]) := by
    obtain rfl | hds := hds
    · exact hd.widen hn₁ le_rfl
    · exact hds.append (hd.widen hn₁ le_rfl) hn₂
  exact accept_keeps.thenNumbers fun _ _ =>
    .ite (.pure (.inr hnew)) (expect_keeps.thenNumbers fun _ _ => .pure hnew)

theorem declList_keeps : (declList exported).Keeps z n :=
  declList_numbers.keeps

/-- An element that is not taken apart has one name. -/
theorem targetNames_ensures :
    targetNames.Ensures z n fun r => r.2 = false → r.1.length = 1 :=
  accept_keeps.andThen fun _ => .ite (declList_keeps.andThen fun _ => .pure nofun) <|
      expect_keeps.andThen fun _ => newDecl_keeps.andThen fun _ => .pure fun _ => rfl

theorem loopTarget_ensures :
    loopTarget.Ensures z n fun r => r.2.2 = false → r.2.1.length = 1 :=
  targetNames_ensures.bind fun _ hnames =>
    .ite (accept_keeps.andThen fun _ =>
      .ite (targetNames_ensures.bind fun _ helements => .pure helements) (.pure hnames))
      (.pure hnames)

/-! ### Operands -/

theorem blockToEnd_ensures : (blockToEnd start handlers).Ensures z n (Expr.Written z) :=
  sub_ensures.bind fun _ hbody => expect_keeps.andThen fun _ => .pure hbody

theorem elseBlock_ensures : elseBlock.Ensures z n (Expr.Sound z) :=
  at?_keeps.andThen fun _ =>
    .ite (next_keeps.andThen fun _ => sub_sound) (.pure trivial)

theorem paren_ensures : (paren line).Ensures z n (Expr.Written z) :=
  skipLines_keeps.andThen fun _ => accept_keeps.andThen fun _ =>
    .ite (spanned fun _ => ⟨rfl, trivial⟩) <|
      sub_ensures.bind fun _ hfirst => skipLines_keeps.andThen fun _ =>
        accept_keeps.andThen fun _ =>
          .ite (listUntil_ensures.bind fun _ hrest => spanned fun _ => ⟨rfl, hfirst.2, hrest⟩) <|
              expect_keeps.andThen fun _ => .pure hfirst

/-- The entries of a map are pairs of expressions that are written. -/
def PairedEntries (z : CapturedCounts) (entries : List Expr) : Prop :=
  (entries.length % 2 = 0 ∧ ∀ e ∈ entries, e.isAbsent = false) ∧ Expr.AllSound z entries

theorem PairedEntries.add {entries : List Expr} {key value : Expr}
    (h : PairedEntries z entries) (hkey : key.Written z) (hvalue : value.Written z) :
    PairedEntries z (entries ++ [key, value]) := by
  obtain ⟨⟨heven, hpresent⟩, hsound⟩ := h
  refine ⟨⟨?_, ?_⟩, Parser.allSound_append hsound ⟨hkey.2, hvalue.2, trivial⟩⟩
  · rw [List.length_append]
    simpa using heven
  · intro e he
    rcases List.mem_append.1 he with he | he
    · exact hpresent e he
    · rcases List.mem_pair.1 he with rfl | rfl
      · exact hkey.1
      · exact hvalue.1

theorem mapEntries_ensures : (mapEntries line).Ensures z n (Expr.Written z) := by
  refine skipLines_keeps.andThen fun _ => ?_
  have none : PairedEntries z [] := ⟨⟨rfl, by simp⟩, trivial⟩
  refine Rule.Ensures.bind (repeating_ensures (PairedEntries z) none fun entries hentries => ?_)
    fun _ hentries => spanned fun _ => ⟨rfl, hentries⟩
  refine accept_keeps.andThen fun _ => .ite (.pure hentries) ?_
  refine sub_ensures.bind fun key hkey => accept_keeps.andThen fun _ => ?_
  refine .iteBind (P := Expr.Written z) sub_ensures
    (fun g hg => (spanLast_keeps g hg).bind fun _ _ => .pure ⟨rfl, trivial⟩) fun _ hvalue => ?_
  refine skipLines_keeps.andThen fun _ => accept_keeps.andThen fun _ => .ite ?_ ?_
  · exact skipLines_keeps.andThen fun _ => .pure (hentries.add hkey hvalue)
  · exact skipLines_keeps.andThen fun _ => expect_keeps.andThen fun _ =>
      .pure (hentries.add hkey hvalue)

theorem guardOf_keeps : guardOf.Keeps z n :=
  at?_keeps.andThen fun _ =>
    .ite (at?_keeps.andThen fun _ => .ite (.pure trivial)
      (next_keeps.andThen fun _ => expect_keeps.andThen fun _ => expect_keeps.andThen fun _ =>
        .pure trivial))
      (next_keeps.andThen fun _ => expect_keeps.andThen fun _ => expect_keeps.andThen fun _ =>
        .pure trivial)

theorem conditional_ensures : (conditional line).Ensures z n (Expr.Written z) := by
  refine Rule.Ensures.bind (P := CondCase.AllSound z)
    (repeating_ensures (fun b => CondCase.AllSound z b.1) trivial fun (cases, line) hcases => ?_)
    fun _ hcases => elseBlock_ensures.bind fun _ helse => expect_keeps.andThen fun _ =>
      spanned fun _ => ⟨rfl, hcases, helse⟩
  refine guardOf_keeps.andThen fun guard => sub_ensures.bind fun cond hcond =>
    skipLines_keeps.andThen fun _ => expect_keeps.andThen fun _ =>
      sub_ensures.bind fun body hbody => at?_keeps.andThen fun _ => ?_
  have hcases : CondCase.AllSound z (cases ++ [⟨line, guard, cond, body⟩]) := by
    rw [CondCase.allSound_iff] at *
    simpa [or_imp, forall_and, hcond.2, hbody.2] using hcases
  exact .ite (next_keeps.andThen fun _ => .pure hcases) (.pure hcases)

theorem forLoop_ensures : (forLoop line).Ensures z n (Expr.Written z) :=
  loopTarget_ensures.bind fun _ hnames => expect_keeps.andThen fun _ =>
    sub_ensures.bind fun _ hseq => skipLines_keeps.andThen fun _ => expect_keeps.andThen fun _ =>
      sub_ensures.bind fun _ hbody => elseBlock_ensures.bind fun _ helse =>
        expect_keeps.andThen fun _ => spanned fun _ => ⟨rfl, hnames, hseq.2, hbody.2, helse⟩

theorem paramAllSound_concat (name : Bytes) (line : Nat) {type : Expr}
    (hparams : Param.AllSound z params) (htype : type.Sound z) :
    Param.AllSound z (params ++ [⟨name, line, type⟩]) := by
  rw [Param.allSound_iff] at *
  simpa [or_imp, forall_and, htype] using hparams

theorem parameterType_ensures (typed : Bool) :
    (parameterType typed).Ensures z n (Expr.Sound z) :=
  .ite (accept_keeps.andThen fun _ =>
    .ite sub_sound (.pure trivial)) (.pure trivial)

theorem afterParameter_ensures (hparams : Param.AllSound z params) (extra : Bool) :
    (afterParameter params extra).Ensures z n
      (Sum.elim (fun r => Param.AllSound z r.1) fun b => Param.AllSound z b.1) :=
  skipLines_keeps.andThen fun _ => accept_keeps.andThen fun _ =>
    .ite (skipLines_keeps.andThen fun _ => .pure hparams) <| accept_keeps.andThen fun _ =>
        .ite (skipLines_keeps.andThen fun _ => expect_keeps.andThen fun _ =>
          skipLines_keeps.andThen fun _ => expect_keeps.andThen fun _ =>
            .pure (paramAllSound_concat _ _ hparams trivial)) <|
          expect_keeps.andThen fun _ => .pure hparams

theorem parameters_ensures {typed : Bool} :
    (parameters typed).Ensures z n fun r => Param.AllSound z r.1 := by
  refine skipLines_keeps.andThen fun _ => accept_keeps.andThen fun _ => .ite (.pure trivial) ?_
  refine repeating_ensures (fun b => Param.AllSound z b.1) trivial fun (params, extra) hparams => ?_
  refine .ite (peek_keeps.andThen fun _ => failAt_ensures.bind (P := fun _ => False) nofun) ?_
  refine expect_keeps.andThen fun name => peek_keeps.andThen fun dots => ?_
  have type := (parameterType_ensures (z := z) (n := n) typed).bind fun type htype =>
    afterParameter_ensures (paramAllSound_concat name.text name.line hparams htype)
      (dots.kind = .operator && dots.text = "...")
  exact .ite (next_keeps.andThen fun _ => type) type

theorem functionAt_ensures : (functionAt line).Ensures z n (Expr.Written z) :=
  expect_keeps.andThen fun _ => parameters_ensures.bind fun _ hparams =>
    blockToEnd_ensures.bind fun _ hbody => spanned fun _ => ⟨rfl, hparams, hbody.2⟩

theorem methodAt_ensures : (methodAt line).Ensures z n (Expr.Written z) := by
  refine next_keeps.andThen fun t => ?_
  refine .ite (failAt_ensures.bind (P := fun _ => False) nofun) ?_
  refine expect_keeps.andThen fun _ => parameters_ensures.bind fun _ hparams => ?_
  refine .ite (failAt_ensures.bind (P := fun _ => False) nofun) ?_
  exact blockToEnd_ensures.bind fun _ hbody => spanned fun _ => ⟨rfl, hparams, hbody.2⟩

theorem scopedAt_ensures : (scopedAt line).Ensures z n (Expr.Written z) := by
  refine Rule.Ensures.bind (P := fun r => Expr.AllSound z r.2)
    (repeating_ensures (fun b => Expr.AllSound z b.2) trivial fun (decls, values) hvalues => ?_)
    fun _ hvalues => skipLines_keeps.andThen fun _ => expect_keeps.andThen fun _ =>
      blockToEnd_ensures.bind fun _ hbody => spanned fun _ => ⟨rfl, hvalues, hbody.2⟩
  exact skipLines_keeps.andThen fun _ => expect_keeps.andThen fun _ => expect_keeps.andThen fun _ =>
    newDecl_keeps.andThen fun _ => sub_ensures.bind fun _ he => accept_keeps.andThen fun _ =>
        .ite (.pure (allSound_concat hvalues he)) (.pure (allSound_concat hvalues he))

theorem switchAt_ensures : (switchAt line).Ensures z n (Expr.Written z) := by
  refine sub_ensures.bind fun _ hsubject => skipLines_keeps.andThen fun _ => ?_
  refine Rule.Ensures.bind (P := Expr.AllSound z)
    (repeating_ensures (Expr.AllSound z) trivial fun _ hcases => ?_) fun _ hcases =>
      elseBlock_ensures.bind fun _ helse => expect_keeps.andThen fun _ => spanned fun _ =>
        ⟨rfl, hsubject.2, hcases, helse⟩
  refine at?_keeps.andThen fun _ => .ite (next_keeps.andThen fun _ => ?_) (.pure hcases)
  exact sub_ensures.bind fun _ he => .pure (allSound_concat hcases he)

theorem selectClause_ensures (isIs : Bool) :
    (selectClause isIs).Ensures z n fun c => Expr.AllSound z c.values ∧ c.body.Sound z :=
  next_keeps.andThen fun _ => expressions_ensures.bind fun _ hvalues =>
    skipLines_keeps.andThen fun _ => expect_keeps.andThen fun _ => sub_ensures.bind fun _ hbody =>
      .pure ⟨hvalues, hbody.2⟩

theorem selectAt_ensures : (selectAt line).Ensures z n (Expr.Written z) := by
  refine sub_ensures.bind fun _ hsubject => skipLines_keeps.andThen fun _ => ?_
  refine Rule.Ensures.bind (P := SelectClause.AllSound z)
    (repeating_ensures (SelectClause.AllSound z) trivial fun clauses hclauses => ?_)
    fun _ hclauses => elseBlock_ensures.bind fun _ helse => expect_keeps.andThen fun _ =>
        spanned fun _ => ⟨rfl, hsubject.2, hclauses, helse⟩
  refine at?_keeps.andThen fun isIs => ?_
  have clause := (selectClause_ensures (z := z) (n := n) isIs).bind fun c hc =>
    Rule.Ensures.pure (P := Sum.elim (SelectClause.AllSound z) (SelectClause.AllSound z))
      (a := .inr (clauses ++ [c])) (by
        change SelectClause.AllSound z _
        rw [SelectClause.allSound_iff] at *
        simpa [or_imp, forall_and, hc] using hclauses)
  exact .ite (at?_keeps.andThen fun _ => .ite (.pure hclauses) clause) clause

/-- A block without declarations binds no names. -/
theorem written_of_soundStatement (h : e.SoundStatement z [] [] []) : e.Written z := by
  cases e
  case bind binder _ ds _ =>
    obtain ⟨⟨hne, hall⟩, -⟩ := h
    obtain ⟨d, ds, rfl⟩ := List.exists_cons_of_ne_nil hne
    exact absurd (hall d List.mem_cons_self) (by simp)
  all_goals exact h

theorem unwrapQuoted_written (h : e.Written z) : (unwrapQuoted e).Written z := by
  unfold unwrapQuoted
  split
  · exact written_of_soundStatement (Expr.statementsSound_cons.1 h.2.2.1).1
  · exact h

theorem quotedBody_ensures : (quotedBody line).Ensures z n (Expr.Written z) :=
  sub_ensures.bind fun _ hbody => expect_keeps.andThen fun _ => .pure hbody

theorem quoteAt_ensures : (quoteAt line).Ensures z n (Expr.Written z) := by
  refine Rule.Ensures.bind (fun g hg => Parser.quoted_ensures (quotedBody_ensures g hg))
    fun (body, args) hbody => spanned fun _ => ⟨rfl, ?_⟩
  have h := unwrapQuoted_written hbody.1
  exact ⟨h.1, h.2, hbody.2⟩

theorem addArgument_keeps (he : e.Sound z) :
    Rule.Keeps z n (liftM (Parser.addArgument e) : Rule Nat) :=
  .lift (Parser.addArgument_ensures he)

theorem isQuoted_keeps : Rule.Keeps z n (liftM Parser.isQuoted : Rule Bool) :=
  .lift (ParseAction.Ensures.get.bind fun _ _ => .pure trivial)

theorem unquoteAt_ensures : (unquoteAt t).Ensures z n (Expr.Written z) := by
  refine isQuoted_keeps.andThen fun _ => .ite (failAt_ensures.bind (P := fun _ => False) nofun) ?_
  refine accept_keeps.andThen fun _ => .ite ?_ ?_
  · exact sub_ensures.bind fun _ harg => expect_keeps.andThen fun _ =>
      (addArgument_keeps harg.2).andThen fun _ => spanned fun _ => ⟨rfl, trivial⟩
  · refine expect_keeps.andThen fun name => spanFrom_keeps.andThen fun span => ?_
    have hname : Expr.Sound z (.ident span name.text) := trivial
    exact (addArgument_keeps hname).andThen fun _ => spanned fun _ => ⟨rfl, trivial⟩

theorem wordOperand_ensures {k : Keyword} : (wordOperand t k).Ensures z n (Expr.Written z) := by
  unfold wordOperand
  dsimp only
  split
  case h_1 => exact spanned fun _ => ⟨rfl, trivial⟩
  case h_2 => exact spanned fun _ => ⟨rfl, trivial⟩
  case h_3 => exact spanned fun _ => ⟨rfl, trivial⟩
  case h_4 => exact spanned fun _ => ⟨rfl, trivial⟩
  case h_5 => exact conditional_ensures
  case h_6 => exact blockToEnd_ensures.bind fun _ h => spanned fun _ => ⟨rfl, h.2⟩
  case h_7 | h_8 =>
    exact sub_ensures.bind fun _ hcond => afterComma_ensures.bind fun _ hvalue => spanned fun _ =>
      ⟨rfl, hcond.2, hvalue⟩
  case h_9 => exact optionalValue_ensures.bind fun _ h => spanned fun _ => ⟨rfl, h⟩
  case h_10 => exact optionalValue_ensures.bind fun _ h => spanned fun _ => ⟨rfl, h⟩
  case h_11 => exact forLoop_ensures
  case h_12 => exact sub_ensures.bind fun _ h => spanned fun _ => ⟨rfl, h.2⟩
  case h_13 => exact blockToEnd_ensures
  case h_14 => exact functionAt_ensures
  case h_15 => exact methodAt_ensures
  case h_16 =>
    exact sub_ensures.bind fun _ hfirst => afterComma_ensures.bind fun _ hsecond =>
      .ite (spanned fun _ => ⟨rfl, trivial, hfirst.2⟩) (spanned fun _ => ⟨rfl, hfirst.2, hsecond⟩)
  case h_17 => exact scopedAt_ensures
  case h_18 => exact switchAt_ensures
  case h_19 => exact selectAt_ensures
  case h_20 => exact sub_ensures.bind fun _ h => spanned fun _ => ⟨rfl, h.2⟩
  case h_21 => exact failAt_ensures

theorem freshOperand_ensures : freshOperand.Ensures z n (Expr.Written z) := by
  refine next_ensures.bind fun t ht => ?_
  dsimp only
  split
  case h_1 hl =>
    rw [hl] at ht
    exact spanned fun _ => ⟨rfl, ht⟩
  case h_2 hl =>
    rw [hl] at ht
    exact .pure ht
  case h_3 => exact spanned fun _ => ⟨rfl, trivial⟩
  case h_4 => exact wordOperand_ensures
  case h_5 => exact failAt_ensures
  case h_6 => exact spanned fun _ => ⟨rfl, trivial⟩
  case h_7 => exact paren_ensures
  case h_8 =>
    exact listUntil_ensures.bind fun _ h => spanned fun _ => ⟨rfl, h⟩
  case h_9 => exact mapEntries_ensures
  case h_10 =>
    exact skipLines_keeps.andThen fun _ => sub_ensures.bind fun _ h =>
      skipLines_keeps.andThen fun _ => expect_keeps.andThen fun _ => spanned fun _ => ⟨rfl, h.2⟩
  case h_11 => exact quoteAt_ensures
  case h_12 => exact unquoteAt_ensures
  case h_13 => exact failAt_ensures

theorem operand_ensures : operand.Ensures z n (Expr.Written z) := by
  refine Rule.Ensures.bind (fun _ _ => ParseAction.Ensures.get) fun s hs => ?_
  split
  · rename_i e he
    refine Rule.Ensures.andThen (fun _ _ => ParseAction.Ensures.modify fun s hs => ?_) fun _ =>
      .pure (hs.pending e he)
    exact ⟨hs.numbers, hs.peeked, by simp, hs.textQuote, hs.braceQuote⟩
  · exact freshOperand_ensures

/-! ### Expressions -/

theorem term_ensures : term.Ensures z n (Expr.Written z) := by
  refine peek_keeps.andThen fun _ => operand_ensures.bind fun _ he =>
    repeating_ensures (Expr.Written z) he fun e he => peek_keeps.andThen fun _ => ?_
  split
  · exact next_keeps.andThen fun _ => listUntil_written.bind fun _ hargs => spanned fun _ =>
      ⟨rfl, he.2, fun e he => (hargs e he).1,
        Expr.allSound_iff.2 fun e he => (hargs e he).2⟩
  · exact next_keeps.andThen fun _ => listUntil_ensures.bind fun _ hargs => spanned fun _ =>
      ⟨rfl, trivial, he.2, hargs⟩
  · refine next_keeps.andThen fun _ => next_keeps.andThen fun t =>
      .ite (failAt_ensures.bind (P := fun _ => False) nofun) ?_
    exact accept_keeps.andThen fun _ =>
      .iteBind (P := Expr.AllSound z) listUntil_ensures (.pure trivial) fun _ hargs =>
        spanned fun _ => ⟨rfl, trivial, he.2, hargs⟩
  · exact next_keeps.andThen fun _ => next_keeps.andThen fun _ =>
      .ite (failAt_ensures.bind (P := fun _ => False) nofun)
        (spanned fun _ => ⟨rfl, he.2⟩)
  · exact .pure he

theorem unary_ensures : unary.Ensures z n (Expr.Written z) :=
  peek_keeps.andThen fun _ => Rule.Ensures.bind (fun _ _ => ParseAction.Ensures.get) fun _ _ =>
      .ite (next_keeps.andThen fun _ => sub_ensures.bind fun _ harg => spanned fun _ =>
        ⟨rfl, trivial, harg.2, trivial⟩) term_ensures

theorem binary_ensures {least : Nat} : (binary least).Ensures z n (Expr.Written z) :=
  peek_keeps.andThen fun _ => unary_ensures.bind fun _ hleft =>
    repeating_ensures (Expr.Written z) hleft fun _ hleft => peek_keeps.andThen fun _ =>
      .ite (.pure hleft) <|
        next_keeps.andThen fun _ => skipLines_keeps.andThen fun _ =>
          sub_ensures.bind fun _ hright => spanned fun _ => ⟨rfl, trivial, hleft.2, hright.2, trivial⟩

theorem generator_ensures {value : Expr} (hvalue : value.Sound z) :
    (generator start value).Ensures z n (Expr.Written z) := by
  refine Rule.Ensures.bind (P := GenClause.AllSound z)
    (repeating_ensures (GenClause.AllSound z) trivial fun clauses hclauses => ?_)
    fun _ hclauses => spanned fun _ => ⟨rfl, hvalue, hclauses⟩
  have add : ∀ {c : GenClause}, c.Sound z → GenClause.AllSound z (clauses ++ [c]) := by
    intro c hc
    rw [GenClause.allSound_iff] at *
    simpa [or_imp, forall_and, hc] using hclauses
  refine at?_keeps.andThen fun _ => .ite ?_ ?_
  · exact next_keeps.andThen fun _ => loopTarget_ensures.bind fun _ hnames =>
      expect_keeps.andThen fun _ => sub_ensures.bind fun _ hseq =>
        .pure (add ⟨fun _ => hnames, trivial, hseq.2⟩)
  · refine .ite (at?_keeps.andThen fun _ => .ite ?_ (.pure hclauses)) (.pure hclauses)
    refine next_keeps.andThen fun _ => sub_ensures.bind fun filter hfilter => .pure (add ?_)
    exact ⟨fun h => absurd (h.symm.trans hfilter.1) (by simp), hfilter.2, trivial⟩

theorem connected_ensures {k : Keyword} {op : Connective} {part : Goal} (he : e.Written z) :
    (connected k op start part e).Ensures z n (Expr.Written z) :=
  repeating_ensures (Expr.Written z) he fun _ he => accept_keeps.andThen fun _ =>
      .ite (skipLines_keeps.andThen fun _ => sub_ensures.bind fun _ hright => spanned fun _ =>
        ⟨rfl, he.2, hright.2⟩) (.pure he)

theorem assignment_ensures (he : e.Written z) : (assignment start e).Ensures z n (Expr.Written z) :=
  accept_keeps.andThen fun _ =>
    .ite (skipLines_keeps.andThen fun _ =>
      sub_ensures.bind fun _ hvalue => spanned fun _ => ⟨rfl, he.2, hvalue.2⟩) (.pure he)

theorem expression_ensures : (expression level).Ensures z n (Expr.Written z) := by
  refine peek_keeps.andThen fun _ => binary_ensures.bind fun _ he => ?_
  refine .iteBind (connected_ensures he) (.pure he) fun _ he => ?_
  refine .iteBind (connected_ensures he) (.pure he) fun _ he => ?_
  exact .ite
    (at?_keeps.andThen fun _ => .iteBind (generator_ensures he.2) (.pure he) fun _ he =>
        .ite (assignment_ensures he) (.pure he))
    (Rule.Ensures.bind (.pure he) fun _ he => .ite (assignment_ensures he) (.pure he))

/-! ### Blocks -/

/-- The statements of a block are sound, and its declarations are numbered apart. -/
structure BlockParts.Sound (z : CapturedCounts) (n : Nat) (b : BlockParts) : Prop where
  body : ∀ e ∈ b.body, e.SoundStatement z b.vars b.lets b.defs
  below : ∀ d ∈ b.vars ++ b.lets ++ b.defs, d.id < n
  apart : ∀ d ∈ b.vars ++ b.lets, d.id ∉ b.defs.map (·.id)

namespace BlockParts.Sound

variable {b : BlockParts}

theorem concat {e : Expr} (hb : b.Sound z n) (he : e.Written z) :
    Sound z n { b with body := b.body ++ [e] } := by
  refine { hb with body := fun e' he' => ?_ }
  obtain he' | he' := List.mem_append.1 he'
  · exact hb.body e' he'
  · obtain rfl := List.mem_singleton.1 he'
    exact he.2.statement he.1

theorem add {n' : Nat} {span : Span} {binder : Binder} {pattern : Pattern} {ds : List Decl}
    {init : Expr} (hb : b.Sound z n) (hds : Decl.New n n' ds) (hn : n ≤ n') (hinit : init.Sound z) :
    (b.add binder ds (.bind span binder pattern ds init)).Sound z n' := by
  have hbody : ∀ {vars lets defs : List Decl}, b.vars ⊆ vars → b.lets ⊆ lets → b.defs ⊆ defs →
      binder.Declares vars lets defs ds →
      ∀ e ∈ b.body ++ [.bind span binder pattern ds init], e.SoundStatement z vars lets defs := by
    intro vars lets defs hvars hlets hdefs hdeclares e he
    obtain he | he := List.mem_append.1 he
    · exact (hb.body e he).widen hvars hlets hdefs
    · obtain rfl := List.mem_singleton.1 he
      exact ⟨hdeclares, hinit⟩
  have hbelow := hb.below
  have hapart := hb.apart
  have hnew := hds.2
  cases binder
  all_goals
    refine ⟨hbody (by simp [BlockParts.add]) (by simp [BlockParts.add]) (by simp [BlockParts.add])
      ⟨hds.1, ?_⟩, ?_, ?_⟩
    all_goals
      simp only [BlockParts.add]
      grind

end BlockParts.Sound

theorem declarations_numbers (hb : b.Sound z n) {binder : Binder} :
    (declarations b binder exported).Numbers z n (BlockParts.Sound z) := by
  refine repeating_numbers (BlockParts.Sound z) hb fun n₁ _ b hb =>
    peek_keeps.thenNumbers fun _ _ => ?_
  refine Rule.Numbers.bind (P := fun n' r => Decl.New n₁ n' r.2.1 ∧ r.2.2.Sound z) ?_
    fun n₂ hn₂ (pattern, ds, value) ⟨hds, hvalue⟩ => ?_
  · refine accept_keeps.thenNumbers fun _ _ => .ite ?_ ?_
    · exact declList_numbers.bind fun n₂ _ ds hds => accept_keeps.thenNumbers fun _ _ =>
        .ite (Rule.Ensures.thenNumbers (R := fun _ => True) (.pure trivial) fun _ _ =>
          sub_ensures.thenNumbers fun _ h => .pure ⟨hds, h.2⟩)
          (expect_keeps.thenNumbers fun _ _ =>
            Rule.Ensures.thenNumbers (R := fun _ => True) (.pure trivial) fun _ _ =>
              sub_ensures.thenNumbers fun _ h => .pure ⟨hds, h.2⟩)
    · exact expect_keeps.thenNumbers fun _ _ => newDecl_numbers.bind fun n₂ _ _ hds =>
        accept_keeps.thenNumbers fun _ _ =>
          .ite (sub_ensures.thenNumbers fun _ h => .pure ⟨hds, h.2⟩)
            (.ite (peek_keeps.thenNumbers fun _ _ =>
              failAt_ensures.thenNumbers (R := fun _ => False) nofun) (.pure ⟨hds, trivial⟩))
  · refine spanFrom_keeps.thenNumbers fun span _ => ?_
    have hadd : (b.add binder ds (.bind span binder pattern ds value)).Sound z n₂ :=
      hb.add hds hn₂ hvalue
    exact accept_keeps.thenNumbers fun _ _ =>
      .ite (skipLines_keeps.thenNumbers fun _ _ => .pure hadd) (.pure hadd)

theorem statement_numbers (hb : b.Sound z n) :
    (statement b exported).Numbers z n (BlockParts.Sound z) := by
  refine peek_keeps.thenNumbers fun t _ => ?_
  have last : Rule.Numbers z n (do return { b with body := b.body ++ [← expression .full] })
      (BlockParts.Sound z) :=
    expression_ensures.thenNumbers fun _ he => .pure (hb.concat he)
  split
  · exact next_keeps.thenNumbers fun _ _ => declarations_numbers hb
  · refine .ite ?_ (.ite (failAt_ensures.thenNumbers (R := fun _ => False) nofun) last)
    refine next_keeps.thenNumbers fun _ _ => at?_keeps.thenNumbers fun _ _ => .ite ?_ ?_
    · refine next_keeps.thenNumbers fun _ _ => functionAt_ensures.thenNumbers fun fn hfn =>
        newDecl_numbers.bind fun n' hn' d hd => spanFrom_keeps.thenNumbers fun span _ =>
          .pure (hb.add hd hn' hfn.2)
    · refine .ite (failAt_ensures.thenNumbers (R := fun _ => False) nofun) ?_
      refine functionAt_ensures.thenNumbers fun fn hfn => ?_
      refine Rule.Ensures.thenNumbers (R := fun _ => True)
        (fun _ _ => ParseAction.Ensures.modify fun s hs => ?_) fun _ _ => last
      exact ⟨hs.numbers, hs.peeked, by rintro _ ⟨⟩; exact hfn, hs.textQuote, hs.braceQuote⟩

theorem handlersUntil_ensures : (handlersUntil stops).Ensures z n (Handler.AllSound z) := by
  refine repeating_ensures (Handler.AllSound z) trivial fun handlers hhandlers => ?_
  refine at?_keeps.andThen fun _ => .ite (.pure hhandlers) ?_
  refine next_keeps.andThen fun _ => expect_keeps.andThen fun _ => accept_keeps.andThen fun _ => ?_
  refine .iteBind (P := Expr.AllSound z) expressions_ensures (.pure trivial) fun _ htypes => ?_
  refine skipLines_keeps.andThen fun _ => expect_keeps.andThen fun _ =>
    sub_ensures.bind fun _ hbody => .pure ?_
  change Handler.AllSound z _
  rw [Handler.allSound_iff] at *
  simpa [or_imp, forall_and, htypes, hbody.2] using hhandlers

theorem stopped_keeps : (stopped handlers stops).Keeps z n :=
  peek_keeps.andThen fun _ => .pure trivial

theorem skipEnds_keeps : skipEnds.Keeps z n :=
  repeating_ensures (fun _ => True) trivial fun _ _ => accept_keeps.andThen fun _ =>
    .ite (.pure trivial) <|
      accept_keeps.andThen fun _ => .ite (.pure trivial) (.pure trivial)

theorem statements_numbers : (statements handlers stops).Numbers z n (BlockParts.Sound z) := by
  have none : BlockParts.Sound z n {} := by constructor <;> simp
  refine repeating_numbers (BlockParts.Sound z) none fun n₁ _ b hb => ?_
  refine skipEnds_keeps.thenNumbers fun _ _ => stopped_keeps.thenNumbers fun _ _ =>
    .ite (.pure hb) ?_
  refine accept_keeps.thenNumbers fun _ _ => (statement_numbers hb).bind fun _ _ _ hb =>
    stopped_keeps.thenNumbers fun _ _ => .ite ?_ (.pure hb)
  exact peek_keeps.thenNumbers fun _ _ =>
    .ite (failAt_ensures.thenNumbers (R := fun _ => False) nofun) (.pure hb)

theorem block_ensures : (block start handlers stops).Ensures z n (Expr.Written z) := by
  refine Rule.Ensures.bind (P := fun b => ∃ n', b.Sound z n')
    (statements_numbers.ensures fun n' b hb => ⟨n', hb⟩) fun b ⟨n', hb⟩ => ?_
  refine .iteBind (P := Handler.AllSound z) handlersUntil_ensures (.pure trivial)
    fun catches hcatches => ?_
  have whole : ∀ span {n' : Nat} {b : BlockParts}, b.Sound z n' →
      Expr.Written z (.block span b.vars b.lets b.defs b.body catches) := fun _ _ _ hb =>
    ⟨rfl, hb.apart, Expr.statementsSound_iff.2 hb.body, hcatches⟩
  refine spanFrom_keeps.andThen fun span => .ite (.pure (whole span hb)) ?_
  refine spanLast_keeps.andThen fun last => .pure ⟨rfl, trivial, ?_, ?_, trivial⟩
  · refine Value.allSound_iff.2 fun v hv => ?_
    obtain ⟨d, -, rfl⟩ := List.mem_map.1 hv
    trivial
  · refine (whole span (hb.concat ⟨rfl, ?_⟩)).2
    refine Expr.allSound_iff.2 fun e he => ?_
    obtain ⟨d, -, rfl⟩ := List.mem_map.1 he
    trivial

/-! ### The grammar as a whole -/

theorem embedded_ensures : embedded.Ensures z n (Expr.Written z) :=
  skipLines_keeps.andThen fun _ => expression_ensures.bind fun _ he =>
    skipLines_keeps.andThen fun _ => expect_keeps.andThen fun _ => .pure he

theorem rule_ensures {goal : Goal} : (rule goal).Ensures z n (Expr.Written z) := by
  cases goal with
  | expression level => exact expression_ensures
  | binary least => exact binary_ensures
  | unary => exact unary_ensures
  | term => exact term_ensures
  | block start handlers stops => exact block_ensures
  | embedded => exact embedded_ensures

theorem goal_ensures {source : Bytes} {tables : Tables} {rounds depth : Nat} {what : Goal} :
    ParseAction.Ensures z n (goal source tables rounds depth what) (Expr.Written z) := by
  induction depth generalizing what n with
  | zero => exact ParseAction.Ensures.get.bind fun _ _ => .throw _
  | succ depth ih => exact rule_ensures _ fun _ _ => ih

end Grammar

theorem parseUnit_sound {source text : Bytes} {first next : Nat} {e : Expr}
    (h : parseUnit tables source text first = .ok (e, next)) : e.Written z := by
  unfold parseUnit at h
  split at h
  · rename_i e' s hrun
    cases h
    have unit : Parser.unit.Ensures z first (Expr.Written z) :=
      Grammar.block_ensures.bind fun _ he => Grammar.expect_keeps.andThen fun _ => .pure he
    have start : Parser.Sound z first { Parser.start text with nextDecl := first } :=
      Parser.start_sound text first
    exact (unit ⟨source, tables, _, _⟩ (fun what _ => Grammar.goal_ensures) _ _ _ start
      hrun).1
  · cases h

end StagedScript
