import Mathlib.Order.Nat
import StagedScript.Proofs.Reading.Scan
import StagedScript.Proofs.Sound.Parser

/-!
# Comparing two runs of a parser

A parser reads a text, and another one reads the same text, maybe with larger bounds and with more
text behind it.  A comparison says what is known of the first one as long as its text is not over,
and which of its errors the other one need not have.  If the two compare in this way at the scanner,
the actions that rules of the grammar are made of do the same in both, up to the end of the text.
-/

namespace StagedScript

open Bytes (newline)

/-- How far a parser has come. -/
inductive Stage where
  /-- After a token inside a line. -/
  | inside
  /-- After the end of a line. -/
  | newLine
  | ahead (t : Token)
  /-- The end of the text was seen. -/
  | ended

/-- The next token can be the end of the text. -/
def Stage.MayEnd (closed : Prop) : Stage → Prop
  | .newLine | .ended => True
  | .inside => ¬closed
  | .ahead _ => False

def Stage.after (t : Token) : Stage := if t.kind = .endOfLine then .newLine else .inside

theorem Stage.after_ne_ended (t : Token) : Stage.after t ≠ .ended := by
  unfold Stage.after
  split <;> simp

/-- A token was consumed: any but the end of the text leaves less to read. -/
def Stage.Consumes (closed : Prop) (st : Stage) (n n' : Nat) (t : Token) (st' : Stage) : Prop :=
  t.kind = .endOfInput ∧ st' = .ended ∧ st.MayEnd closed ∨
    t.kind ≠ .endOfInput ∧ n' < n ∧ st' = .after t ∧ ∀ t', st = .ahead t' → t = t'

theorem Stage.Consumes.kind_of_ended {closed : Prop} {st st' : Stage} {n n' : Nat} {t : Token}
    (h : st.Consumes closed n n' t st') (hst : st' = .ended) : t.kind = .endOfInput := by
  obtain ⟨ht, -⟩ | ⟨-, -, rfl, -⟩ := h
  · exact ht
  · exact absurd hst (Stage.after_ne_ended t)

def Stage.Sees (closed : Prop) (st : Stage) (t : Token) (st' : Stage) : Prop :=
  t.kind = .endOfInput ∧ st' = .ended ∧ st.MayEnd closed ∨ t.kind ≠ .endOfInput ∧ st' = .ahead t

theorem Stage.Sees.kind_of_ended {closed : Prop} {st st' : Stage} {t : Token}
    (h : st.Sees closed t st') (hst : st' = .ended) : t.kind = .endOfInput := by
  obtain ⟨ht, -⟩ | ⟨-, rfl⟩ := h
  · exact ht
  · exact absurd hst (by simp)

namespace Parser

def followedBy (s : Parser) (y : Bytes) : Parser := { s with place := s.place.followedBy y }

/-- How much is left to read: bytes, a token that was looked at, and an operand that was already
parsed. -/
def left (s : Parser) : Nat :=
  s.place.rest.length + (if s.peeked.any (·.kind ≠ .endOfInput) then 1 else 0) +
    if s.pending.isSome then 1 else 0

end Parser

/-- How a parser is compared with another one that has more text behind its own. -/
structure Comparison where
  more : Bytes
  /-- The text ends with a line feed.  After its end the parsers are not compared. -/
  closed : Prop
  /-- What is known of a place before the end of the text. -/
  Open : Place → Prop
  /-- What is known of the line of a token. -/
  Line : Nat → Prop
  /-- An error that the other parser need not have. -/
  Excuses : ReadError → Prop
  /-- An error that both parsers can have. -/
  Allows : ReadError → Prop

namespace Comparison

variable (C : Comparison)

/-- A failure of the scanner is excused, or the other parser has the same. -/
def Fails {α : Type} (f : ScanFailure) (r' : Except ScanFailure α) : Prop :=
  C.Excuses (.scan f.line f.cause) ∨ C.Allows (.scan f.line f.cause) ∧
    r' = .error { f with place := f.place.followedBy C.more }

/-- What a comparison asks of the errors of the grammar and of the parts of the scanner. -/
class Lawful : Prop where
  excuses {e : ReadError} : C.closed → e.IsIncomplete → C.Excuses e
  allows {line : Nat} {cause : GrammarError} : C.Line line → cause ≠ .tooDeep →
    C.Allows (.grammar line cause)
  line {q : Place} : C.closed ∨ C.Open q → C.Line q.line
  rest {q : Place} : C.Open q → q.rest ≠ [] ∨ C.more = []
  tail {q : Place} {c : UInt8} {rest : Bytes} : C.Open q → q.rest = c :: rest → c ≠ newline →
    C.Open ⟨rest, q.line⟩
  gap {q : Place} : C.Open q → match skipGap .blanks q.line q.rest with
    | .error f => C.Fails f (skipGap .blanks q.line (q.rest ++ C.more))
    | .ok r => C.Open r ∧ r.rest.length ≤ q.rest.length ∧
        skipGap .blanks q.line (q.rest ++ C.more) = .ok (r.followedBy C.more)
  plain {q : Place} (tables : Tables) : C.Open q → match scanPlain tables q with
    | .error f => C.Fails f (scanPlain tables (q.followedBy C.more))
    | .ok (lexeme, r) => scanPlain tables (q.followedBy C.more) = .ok (lexeme, r.followedBy C.more) ∧
        r.rest.length ≤ q.rest.length ∧
        (lexeme = .sign .endOfInput ∧ ¬C.closed ∧ C.Open r ∨
          lexeme ≠ .sign .endOfInput ∧ r.rest.length < q.rest.length ∧
            (C.Open r ∨ C.closed ∧ r.rest = [] ∧ lexeme = .sign .endOfLine))
  chunk {q : Place} {opened : Nat} : C.Open q → C.Line opened →
    let c := chunk 0x27 true 0 q.line q.rest
    (∃ f, c.stop.failure? opened c.place = some f ∧ C.Excuses (.scan f.line f.cause)) ∨
      chunk 0x27 true 0 q.line (q.rest ++ C.more) = c.followedBy C.more ∧ C.Open c.place ∧
        c.place.rest.length ≤ q.rest.length ∧
        ∀ f, c.stop.failure? opened c.place = some f → C.Allows (.scan f.line f.cause)

/-- The parsers are not compared any more. -/
def Over (st : Stage) : Prop := C.closed ∧ st = .ended

def Holds (q : Place) (st : Stage) : Prop :=
  C.Open q ∧ ¬C.Over st ∨ C.closed ∧ q.rest = [] ∧ (st = .newLine ∨ st = .ended)

end Comparison

def Stage.behind : Stage → Stage
  | .ahead t => .after t
  | st => st

def Stage.Peeks : Stage → Option Token → Prop
  | .inside, peeked | .newLine, peeked => peeked = none
  | .ahead t, peeked => peeked = some t ∧ t.kind ≠ .endOfInput
  | .ended, peeked => ∀ t, peeked = some t → t.kind = .endOfInput

/-- The first of two parsers is at a stage. -/
structure Comparison.At (C : Comparison) (s : Parser) (st : Stage) : Prop where
  place : C.Holds s.place st.behind
  line : ∀ t, s.peeked = some t → C.Line t.line
  peeked : st.Peeks s.peeked

theorem Stage.behind_after (t : Token) : (Stage.after t).behind = .after t := by
  unfold Stage.after
  split <;> rfl

theorem Stage.peeks_after (t : Token) : (Stage.after t).Peeks none := by
  unfold Stage.after
  split <;> rfl

namespace Comparison

variable {C : Comparison} {s t : Parser} {st : Stage} {u : Token}

theorem not_over_after : ¬C.Over (.after u) := fun h => Stage.after_ne_ended u h.2

/-- What does not concern the text can change without changing the stage. -/
theorem At.congr (hs : C.At s st) (hplace : t.place = s.place) (hpeeked : t.peeked = s.peeked) :
    C.At t st :=
  ⟨hplace ▸ hs.place, hpeeked ▸ hs.line, hpeeked ▸ hs.peeked⟩

/-- A token that was looked at is the next one, or it is the end of the text. -/
theorem At.of_peeked (hs : C.At s st) (hpeeked : s.peeked = some u) :
    st = .ahead u ∧ u.kind ≠ .endOfInput ∨ st = .ended ∧ u.kind = .endOfInput := by
  have h := hs.peeked
  rw [hpeeked] at h
  cases st with
  | inside | newLine => cases h
  | ahead u' =>
    obtain ⟨⟨⟩, hkind⟩ := h
    exact .inl ⟨rfl, hkind⟩
  | ended => exact .inr ⟨rfl, h u rfl⟩

theorem At.of_none (hs : C.At s st) (hnone : s.peeked = none) : st ≠ .ahead u := by
  rintro rfl
  exact absurd (hnone.symm.trans hs.peeked.1) (by simp)

theorem At.peek (hs : C.At s (.after u)) (hkind : u.kind ≠ .endOfInput) (hline : C.Line u.line) :
    C.At { s with peeked := some u } (.ahead u) := by
  refine ⟨?_, ?_, rfl, hkind⟩
  · have := hs.place
    rwa [Stage.behind_after] at this
  · rintro _ ⟨⟩
    exact hline

theorem At.next (hs : C.At s (.ahead u)) : C.At { s with peeked := none } (.after u) := by
  refine ⟨?_, nofun, Stage.peeks_after u⟩
  rw [Stage.behind_after]
  exact hs.place

end Comparison

/-- From a state and at most `n` left to read, two actions do the same, or the first one sees the end
of its text. The property of the results may depend on what is left and on the stage. -/
def ParseAction.AgreesAt {α : Type} (C : Comparison) (s : Parser) (n : Nat) (st : Stage)
    (x x' : ParseAction α) (P : Nat → α → Stage → Prop) : Prop :=
  match x s with
  | .error e t => C.Excuses e ∨
      C.Allows e ∧ ¬C.Over st ∧ x' (s.followedBy C.more) = .error e (t.followedBy C.more)
  | .ok a t => ∃ n' st', n' ≤ n ∧ t.left ≤ n' ∧ C.At t st' ∧ P n' a st' ∧
      (¬C.Over st' → ¬C.Over st ∧ x' (s.followedBy C.more) = .ok a (t.followedBy C.more))

/-- From every state at a stage with at most `n` left to read, two actions do the same, or the first
one sees the end of its text. -/
def ParseAction.Agrees {α : Type} (C : Comparison) (n : Nat) (st : Stage) (x x' : ParseAction α)
    (P : Nat → α → Stage → Prop) : Prop :=
  ∀ s, C.At s st → s.left ≤ n → AgreesAt C s n st x x' P

variable {C : Comparison} {parse parse' : ParseAction Expr}

namespace ParseAction

variable {α β : Type} {s : Parser} {n : Nat} {st : Stage} {x x' : ParseAction α}
  {f f' : α → ParseAction β} {P P' : Nat → α → Stage → Prop} {Q : Nat → β → Stage → Prop}

theorem AgreesAt.ok {a : α} {t : Parser} {n' : Nat} {st' : Stage} (hx : x s = .ok a t)
    (hn : n' ≤ n) (hleft : t.left ≤ n') (ht : C.At t st') (hP : P n' a st')
    (hx' : ¬C.Over st' → ¬C.Over st ∧ x' (s.followedBy C.more) = .ok a (t.followedBy C.more)) :
    AgreesAt C s n st x x' P := by
  unfold AgreesAt
  rw [hx]
  exact ⟨n', st', hn, hleft, ht, hP, hx'⟩

theorem bind_of_ok {a : α} {t : Parser} (h : x s = .ok a t) : (x >>= f) s = f a t := by
  change EStateM.bind x f s = _
  simp only [EStateM.bind, h]

theorem bind_of_error {e : ReadError} {t : Parser} (h : x s = .error e t) :
    (x >>= f) s = .error e t := by
  change EStateM.bind x f s = _
  simp only [EStateM.bind, h]

section

variable (hx : AgreesAt C s n st x x' P)

include hx

/-- What the first of two actions used up may be left again after the second one. -/
theorem AgreesAt.bindLoose
    (hf : ∀ n' ≤ n, ∀ a st' t, P n' a st' → C.At t st' → t.left ≤ n' →
      AgreesAt C t n st' (f a) (f' a) Q) :
    AgreesAt C s n st (x >>= f) (x' >>= f') Q := by
  unfold AgreesAt at hx
  cases hrun : x s with
  | error e t =>
    simp only [hrun] at hx
    unfold AgreesAt
    rw [bind_of_error hrun]
    exact hx.imp_right fun ⟨he, hst, hrun'⟩ => ⟨he, hst, bind_of_error hrun'⟩
  | ok a t =>
    simp only [hrun] at hx
    obtain ⟨n', st', hn, hleft, ht, hP, hsame⟩ := hx
    have hnext := hf n' hn a st' t hP ht hleft
    unfold AgreesAt at hnext ⊢
    rw [bind_of_ok hrun]
    cases hrun₂ : f a t with
    | error e t₂ =>
      simp only [hrun₂] at hnext ⊢
      refine hnext.imp_right fun ⟨he, hst', hrun'⟩ => ⟨he, (hsame hst').1, ?_⟩
      rw [bind_of_ok (hsame hst').2, hrun']
    | ok b t₂ =>
      simp only [hrun₂] at hnext ⊢
      obtain ⟨n₂, st₂, hn₂, hleft₂, ht₂, hQ, hsame₂⟩ := hnext
      refine ⟨n₂, st₂, hn₂, hleft₂, ht₂, hQ, fun hst₂ => ?_⟩
      obtain ⟨hst', hrun'⟩ := hsame₂ hst₂
      exact ⟨(hsame hst').1, by rw [bind_of_ok (hsame hst').2, hrun']⟩

theorem AgreesAt.mono {n' : Nat} (hn : n ≤ n') :
    AgreesAt C s n' st x x' P := by
  unfold AgreesAt at hx ⊢
  split at hx
  · exact hx
  · obtain ⟨n₁, st₁, hn₁, h⟩ := hx
    exact ⟨n₁, st₁, Nat.le_trans hn₁ hn, h⟩

theorem AgreesAt.bind
    (hf : ∀ n' ≤ n, ∀ a st', P n' a st' → Agrees C n' st' (f a) (f' a) Q) :
    AgreesAt C s n st (x >>= f) (x' >>= f') Q :=
  hx.bindLoose fun n' hn a st' t hP ht hleft => (hf n' hn a st' hP t ht hleft).mono hn

theorem AgreesAt.imp
    (h : ∀ n' ≤ n, ∀ a st', P n' a st' → P' n' a st') : AgreesAt C s n st x x' P' := by
  unfold AgreesAt at hx ⊢
  split at hx
  · exact hx
  · obtain ⟨n', st', hn, hleft, ht, hP, hsame⟩ := hx
    exact ⟨n', st', hn, hleft, ht, h n' hn _ st' hP, hsame⟩

end

theorem AgreesAt.get {f f' : Parser → ParseAction α}
    (h : AgreesAt C s n st (f s) (f' (s.followedBy C.more)) P) :
    AgreesAt C s n st (MonadState.get >>= f) (MonadState.get >>= f') P := h

/-- An action that runs another one from a changed state, and gives back parts of the old state
after it. -/
theorem AgreesAt.enclose {z z' : ParseAction β} {inner : Parser} {m : Nat} (out : α → Parser → β)
    (leave : Parser → Parser) (hx : AgreesAt C inner m st x x' P)
    (hz : z s = match x inner with
      | .ok a t => .ok (out a t) (leave t)
      | .error e t => .error e (leave t))
    (hz' : z' (s.followedBy C.more) = match x' (inner.followedBy C.more) with
      | .ok a t => .ok (out a t) (leave t)
      | .error e t => .error e (leave t))
    (hout : ∀ a t, out a (t.followedBy C.more) = out a t)
    (hleave : ∀ t, leave (t.followedBy C.more) = (leave t).followedBy C.more)
    (hback : ∀ n' ≤ m, ∀ a t st', C.At t st' → t.left ≤ n' → P n' a st' →
      ∃ n'' ≤ n, (leave t).left ≤ n'' ∧ C.At (leave t) st' ∧ Q n'' (out a t) st') :
    AgreesAt C s n st z z' Q := by
  unfold AgreesAt at hx ⊢
  rw [hz, hz']
  cases hrun : x inner with
  | error e t =>
    simp only [hrun] at hx ⊢
    exact hx.imp_right fun ⟨he, hst, ht'⟩ => ⟨he, hst, by rw [ht']; simp only [hleave]⟩
  | ok a t =>
    simp only [hrun] at hx ⊢
    obtain ⟨n', st', hn, hleft, ht, hP, hsame⟩ := hx
    obtain ⟨n'', hn'', hleft'', ht'', hQ⟩ := hback n' hn a t st' ht hleft hP
    refine ⟨n'', st', hn'', hleft'', ht'', hQ, fun hst' => ?_⟩
    obtain ⟨hst, hsame⟩ := hsame hst'
    exact ⟨hst, by rw [hsame]; simp only [hout, hleave]⟩

namespace Agrees

theorem pure {a : α} (h : P n a st) : Agrees C n st (Pure.pure a) (Pure.pure a) P :=
  fun _ hs hleft => .ok rfl (Nat.le_refl n) hleft hs h fun hst => ⟨hst, rfl⟩

theorem bind (hx : Agrees C n st x x' P)
    (hf : ∀ n' ≤ n, ∀ a st', P n' a st' → Agrees C n' st' (f a) (f' a) Q) :
    Agrees C n st (x >>= f) (x' >>= f') Q :=
  fun s hs hleft => (hx s hs hleft).bind hf

theorem imp (hx : Agrees C n st x x' P) (h : ∀ n' ≤ n, ∀ a st', P n' a st' → P' n' a st') :
    Agrees C n st x x' P' :=
  fun s hs hleft => (hx s hs hleft).imp h

theorem modify {f : Parser → Parser}
    (hf : ∀ s, (f s).place = s.place ∧ (f s).peeked = s.peeked ∧ (f s).pending = s.pending ∧
      f (s.followedBy C.more) = (f s).followedBy C.more) :
    Agrees C n st (modify f : ParseAction Unit) (modify f) fun _ _ st' => st' = st := by
  intro s hs hleft
  obtain ⟨hplace, hpeeked, hpending, hcomm⟩ := hf s
  refine .ok rfl (Nat.le_refl n) ?_ (hs.congr hplace hpeeked) rfl fun hst => ⟨hst, ?_⟩
  · simpa [Parser.left, hplace, hpeeked, hpending] using hleft
  · change EStateM.Result.ok () (f (s.followedBy C.more)) = _
    rw [hcomm]

end Agrees

end ParseAction

/-! ### Tokens -/

theorem Token.kind_ne {lexeme : Lexeme} {line : Nat} {kind : TokenKind}
    (hkind : kind = .endOfInput ∨ kind = .endOfLine) (h : lexeme ≠ .sign kind) :
    (Token.mk lexeme line).kind ≠ kind := by
  obtain rfl | rfl := hkind <;> cases lexeme <;> simp_all [Token.kind]

namespace Parser

open ParseAction Comparison

variable {α : Type} {s : Parser} {n : Nat} {st : Stage}

/-- The parser goes on from a later place of the text. -/
theorem moved_agreesAt {place place' : Place} (st' : Stage) (hst : ¬C.Over st)
    (hst' : st'.Peeks none) (hnone : s.peeked = none) (hplace : C.Holds place st'.behind)
    (hsame : place' = place.followedBy C.more) (hleft : s.left ≤ n)
    (hle : place.rest.length ≤ s.place.rest.length) :
    AgreesAt C s n st (modify ({ · with place })) (modify ({ · with place := place' }))
      fun n' (_ : PUnit) st'' => (place.rest.length < s.place.rest.length → n' < n) ∧ st'' = st' := by
  have hleft' : left { s with place } + s.place.rest.length ≤ n + place.rest.length := by
    simp only [left, hnone] at hleft ⊢
    omega
  have hpeeks : st'.Peeks s.peeked := hnone ▸ hst'
  subst hsame
  refine .ok rfl (by omega) (Nat.le_refl (left { s with place })) ⟨hplace, ?_, hpeeks⟩
    ⟨fun hlt => by omega, rfl⟩ fun _ => ⟨hst, rfl⟩
  exact fun t ht => absurd (hnone.symm.trans ht) (by simp)

theorem scanFailure_agreesAt {f : ScanFailure} {x' : ParseAction α} {P : Nat → α → Stage → Prop}
    (h : C.Excuses (.scan f.line f.cause) ∨ C.Allows (.scan f.line f.cause) ∧ ¬C.Over st ∧
      x' = scanFailure { f with place := f.place.followedBy C.more }) :
    AgreesAt C s n st (scanFailure f) x' P :=
  h.imp_right fun ⟨hallows, hst, hx'⟩ => ⟨hallows, hst, hx' ▸ rfl⟩

variable [law : C.Lawful]

include law

/-- The rest of a text in quotes is read in the same way, if the expressions in braces are. -/
theorem embeddedText_agrees {source : Bytes} {bound : Nat}
    (hparse : ∀ n < bound, Agrees C n .inside parse parse' fun _ _ st' => st' = .inside)
    {opened : Nat} (hopened : C.Line opened) : ∀ (fuel fuel' n : Nat) (parts : List Expr),
      n < fuel → fuel ≤ fuel' → n ≤ bound →
      Agrees C n .inside (embeddedText source (some parse) opened fuel parts)
        (embeddedText source (some parse') opened fuel' parts) fun _ lexeme st' =>
          st' = .inside ∧ ∀ kind, lexeme ≠ .sign kind := by
  intro fuel
  induction fuel with
  | zero => exact fun _ _ _ h => absurd h (Nat.not_lt_zero _)
  | succ fuel ih =>
    intro fuel' n parts hn hfuel hbound s hs hleft
    obtain ⟨fuel', rfl⟩ : ∃ k, fuel' = k + 1 := ⟨fuel' - 1, by omega⟩
    have hnone : s.peeked = none := hs.peeked
    have hover : ¬C.Over .inside := fun h => nomatch h.2
    have hopen : C.Open s.place := by
      obtain h | ⟨-, -, h | h⟩ := hs.place
      · exact h.1
      · cases h
      · cases h
    have hchunk := law.chunk hopen hopened
    have hbrace := @chunk_brace 0x27 true 0 s.place.line s.place.rest
    unfold embeddedText
    refine AgreesAt.get ?_
    dsimp only [followedBy, Place.followedBy] at hchunk ⊢
    generalize chunk 0x27 true 0 s.place.line s.place.rest = c at hchunk hbrace ⊢
    obtain ⟨f, hf, hexcuses⟩ | ⟨hsame, hopen, hle, hallows⟩ := hchunk
    -- the text is cut off inside of the quotes
    · rw [hf]
      exact scanFailure_agreesAt (.inl hexcuses)
    · rw [hsame]
      dsimp only [Chunk.followedBy]
      rw [ChunkEnd.failure?_followedBy]
      cases hf : c.stop.failure? opened c.place with
      | some f => exact scanFailure_agreesAt (.inr ⟨hallows f hf, hover, rfl⟩)
      | none =>
        cases hstop : c.stop with
        | brace =>
          obtain ⟨rest, hrest⟩ := hbrace hstop
          have hlt : (c.place.rest.drop 1).length < s.place.rest.length := by
            rw [hrest] at hle ⊢
            exact hle
          have hinner : C.Holds ⟨c.place.rest.drop 1, c.place.line⟩ .inside :=
            .inl ⟨by rw [hrest]; exact law.tail hopen hrest (by decide), hover⟩
          refine (moved_agreesAt .inside hover rfl hnone hinner ?_ hleft hlt.le).bind ?_
          · simp [Place.followedBy, hrest]
          rintro n₁ hn₁ - st₁ ⟨hlt₁, rfl⟩
          have hlt₁ := hlt₁ hlt
          refine (hparse n₁ (by omega)).bind ?_
          rintro n₂ hn₂ e st₂ rfl
          -- the brace was read, so there is less left for the rest
          exact ih fuel' n₂ _ (by omega) (by omega) (by omega)
        | closed =>
          refine (moved_agreesAt .inside hover rfl hnone (.inl ⟨hopen, hover⟩) rfl hleft hle).bind ?_
          rintro n₁ hn₁ - st₁ ⟨-, rfl⟩
          dsimp only [Place.followedBy]
          split
          · exact .pure ⟨rfl, by simp⟩
          · exact .pure ⟨rfl, by simp⟩
        | unfinished | badEscape => simp [hstop, ChunkEnd.failure?] at hf

theorem scan_agreesAt {source : Bytes} {tables : Tables}
    (bound : Nat) {fuel fuel' : Nat}
    (hparse : ∀ n < bound, Agrees C n .inside parse parse' fun _ _ st' => st' = .inside)
    (hs : C.At s st) (hnone : s.peeked = none) (hleft : s.left ≤ n) (hbound : n ≤ bound)
    (hfuel : n < fuel) (hfuel' : fuel ≤ fuel') :
    AgreesAt C s n st (scan source tables (some parse) fuel) (scan source tables (some parse') fuel')
      fun n' t st' => st.Consumes C.closed n n' t st' ∧ C.Line t.line := by
  have hahead : ∀ {t : Token} t', st = .ahead t' → t = t' := fun _ h => absurd h (hs.of_none hnone)
  have hbehind : st.behind = st := by
    cases st with
    | ahead t => exact absurd rfl (hs.of_none hnone)
    | inside | newLine | ended => rfl
  have hplace := hs.place
  rw [hbehind] at hplace
  obtain ⟨hopen, hst⟩ | ⟨hclosed, hrest, hst⟩ := hplace
  · unfold scan
    refine AgreesAt.get ?_
    have hgap := law.gap hopen
    dsimp only [followedBy, Place.followedBy]
    generalize skipGap .blanks s.place.line s.place.rest = r at hgap ⊢
    cases r with
    | error f =>
      refine scanFailure_agreesAt (hgap.imp_right fun h => ⟨h.1, hst, ?_⟩)
      rw [h.2]
    | ok p =>
      obtain ⟨hopen, hle, hsame⟩ := hgap
      have hline : C.Line p.line := law.line (.inr hopen)
      have hinside : ¬C.Over .inside := fun h => by cases h.2
      have hhead : (p.followedBy C.more).rest.head? = p.rest.head? := by
        obtain hrest | hmore := law.rest hopen
        · exact List.head?_append_of_ne_nil _ hrest
        · simp [Place.followedBy, hmore]
      rw [hsame]
      dsimp only
      rw [hhead]
      by_cases hquote : p.rest.head? = some 0x27
      -- a text in quotes can hold expressions, and is never the end of the input or of a line
      · rw [if_pos hquote, if_pos hquote]
        obtain ⟨rest, hrest⟩ : ∃ rest, p.rest = 0x27 :: rest := List.head?_eq_some_iff.1 hquote
        have hlt : (p.rest.drop 1).length < s.place.rest.length := by
          rw [hrest] at hle ⊢
          exact hle
        have hinner : C.Holds ⟨p.rest.drop 1, p.line⟩ .inside :=
          .inl ⟨by rw [hrest]; exact law.tail hopen hrest (by decide), hinside⟩
        refine (moved_agreesAt .inside hst rfl hnone hinner ?_ hleft hlt.le).bind ?_
        · simp [Place.followedBy, hrest]
        rintro n₁ hn₁ - st₁ ⟨hlt₁, rfl⟩
        have hlt₁ := hlt₁ hlt
        refine (embeddedText_agrees hparse hline fuel fuel' n₁ [] (by omega) hfuel' (by omega)).bind ?_
        rintro n₂ hn₂ lexeme st₂ ⟨rfl, hlexeme⟩
        refine .pure ⟨.inr ⟨?_, by omega, ?_, hahead⟩, hline⟩
        · exact Token.kind_ne (.inl rfl) (hlexeme _)
        · rw [Stage.after, if_neg (Token.kind_ne (.inr rfl) (hlexeme _))]
      · rw [if_neg hquote, if_neg hquote]
        have htoken := law.plain tables hopen
        generalize scanPlain tables p = r at htoken ⊢
        obtain f | ⟨lexeme, after⟩ := r
        · refine scanFailure_agreesAt (htoken.imp_right fun h => ⟨h.1, hst, ?_⟩)
          rw [h.2]
        · obtain ⟨hsame, hle', hlexeme⟩ := htoken
          have hle' := hle'.trans hle
          rw [hsame]
          obtain ⟨rfl, hclosed, hafter⟩ | ⟨hlexeme, hlt, hafter⟩ := hlexeme
          -- no line feed closes the text, so its end is the same token in both
          · have hended : C.Holds after Stage.ended.behind := .inl ⟨hafter, fun h => hclosed h.1⟩
            refine (moved_agreesAt .ended hst (by simp [Stage.Peeks]) hnone hended rfl hleft
              hle').bind ?_
            rintro n₁ hn₁ - st₁ ⟨-, rfl⟩
            refine .pure ⟨.inl ⟨rfl, rfl, ?_⟩, hline⟩
            cases st with
            | ahead t => exact absurd rfl (hs.of_none hnone)
            | inside => exact hclosed
            | newLine | ended => trivial
          · have hnext : C.Holds after (Stage.after ⟨lexeme, p.line⟩).behind := by
              rw [Stage.behind_after]
              refine hafter.imp (⟨·, not_over_after⟩) ?_
              rintro ⟨hclosed, hrest, rfl⟩
              exact ⟨hclosed, hrest, .inl rfl⟩
            refine (moved_agreesAt _ hst (Stage.peeks_after _) hnone hnext rfl hleft hle').bind ?_
            rintro n₁ hn₁ - st₁ ⟨hlt₁, rfl⟩
            have hlt₁ := hlt₁ (hlt.trans_le hle)
            exact .pure ⟨.inr ⟨Token.kind_ne (.inl rfl) hlexeme, hlt₁, rfl, hahead⟩, hline⟩
  -- the text is over, and its end can be read any number of times
  · have hscan : scan source tables (some parse) fuel s =
        .ok ⟨.sign .endOfInput, s.place.line⟩ s := by
      obtain ⟨⟨rest, line⟩, _⟩ := s
      cases hrest
      rfl
    have hended : C.At s .ended :=
      ⟨.inr ⟨hclosed, hrest, .inr rfl⟩, hs.line, by simp [Stage.Peeks, hnone]⟩
    have hmay : st.MayEnd C.closed := by
      obtain rfl | rfl := hst <;> trivial
    exact .ok hscan (Nat.le_refl n) hleft hended ⟨.inl ⟨rfl, rfl, hmay⟩, law.line (.inl hclosed)⟩
      fun h => absurd ⟨hclosed, rfl⟩ h

omit law

variable {scan scan' : ParseAction Token}

theorem peekWith_of_some {t : Token} (h : s.peeked = some t) : peekWith scan s = .ok t s := by
  cases s
  cases h
  rfl

theorem peekWith_of_none (h : s.peeked = none) : peekWith scan s = match scan s with
    | .ok t s => .ok t { s with peeked := some t }
    | .error e s => .error e s := by
  cases s
  cases h
  change EStateM.bind scan _ _ = _
  unfold EStateM.bind
  cases scan _ <;> rfl

theorem nextWith_of_some {t : Token} (h : s.peeked = some t) :
    nextWith scan s = .ok t { s with peeked := none } := by
  cases s
  cases h
  rfl

theorem nextWith_of_none (h : s.peeked = none) : nextWith scan s = scan s := by
  cases s
  cases h
  rfl

theorem peekWith_agrees
    (hscan : ∀ s, C.At s st → s.peeked = none → s.left ≤ n → AgreesAt C s n st scan scan'
      fun n' t st' => st.Consumes C.closed n n' t st' ∧ C.Line t.line) :
    Agrees C n st (peekWith scan) (peekWith scan') fun _ t st' =>
      st.Sees C.closed t st' ∧ C.Line t.line := by
  intro s hs hleft
  cases hpeeked : s.peeked with
  | some t =>
    refine .ok (peekWith_of_some hpeeked) (Nat.le_refl n) hleft hs ⟨?_, hs.line t hpeeked⟩
      fun hst => ⟨hst, peekWith_of_some hpeeked⟩
    obtain ⟨rfl, ht⟩ | ⟨rfl, ht⟩ := hs.of_peeked hpeeked
    · exact .inr ⟨ht, rfl⟩
    · exact .inl ⟨ht, rfl, trivial⟩
  | none =>
    have h := hscan s hs hpeeked hleft
    have hlong : peekWith scan' (s.followedBy C.more) = _ := peekWith_of_none hpeeked
    unfold AgreesAt at h ⊢
    rw [peekWith_of_none hpeeked, hlong]
    cases hscan : scan s with
    | error e t =>
      simp only [hscan] at h ⊢
      exact h.imp_right fun ⟨he, hst, ht'⟩ => ⟨he, hst, by rw [ht']⟩
    | ok t s₁ =>
      simp only [hscan] at h ⊢
      obtain ⟨n₁, st₁, hn₁, hleft₁, hs₁, ⟨ht, hline⟩, hsame⟩ := h
      -- a token that is kept counts as one more thing to read, the end of the text does not
      obtain ⟨ht, rfl, hst⟩ | ⟨ht, hlt, rfl, -⟩ := ht
      · refine ⟨n, .ended, Nat.le_refl n, ?_, ⟨hs₁.place, ?_, ?_⟩, ⟨.inl ⟨ht, rfl, hst⟩, hline⟩,
          fun hst => (hsame hst).imp_right fun h => by rw [h]; rfl⟩
        · refine Nat.le_trans ?_ (Nat.le_trans hleft₁ hn₁)
          simp [left, ht]
        · rintro _ ⟨⟩
          exact hline
        · rintro _ ⟨⟩
          exact ht
      · refine ⟨n, .ahead t, Nat.le_refl n, ?_, hs₁.peek ht hline, ⟨.inr ⟨ht, rfl⟩, hline⟩,
          fun _ => (hsame not_over_after).imp_right fun h => by rw [h]; rfl⟩
        have : left { s₁ with peeked := some t } ≤ s₁.left + 1 := by
          simp only [left]
          split_ifs <;> omega
        omega

theorem nextWith_agrees
    (hscan : ∀ s, C.At s st → s.peeked = none → s.left ≤ n → AgreesAt C s n st scan scan'
      fun n' t st' => st.Consumes C.closed n n' t st' ∧ C.Line t.line) :
    Agrees C n st (nextWith scan) (nextWith scan') fun n' t st' =>
      st.Consumes C.closed n n' t st' ∧ C.Line t.line := by
  intro s hs hleft
  cases hpeeked : s.peeked with
  | some t =>
    have hline := hs.line t hpeeked
    obtain ⟨rfl, ht⟩ | ⟨rfl, ht⟩ := hs.of_peeked hpeeked
    · have hlt : left { s with peeked := none } < s.left := by
        simp [left, hpeeked, ht]
      exact .ok (nextWith_of_some hpeeked) (Nat.sub_le n 1) (by omega) hs.next
        ⟨.inr ⟨ht, by omega, rfl, fun _ => Stage.ahead.inj⟩, hline⟩
        fun _ => ⟨fun h => (nomatch h.2), nextWith_of_some hpeeked⟩
    · refine .ok (nextWith_of_some hpeeked) (Nat.le_refl n) ?_ ⟨hs.place, nofun, nofun⟩
        ⟨.inl ⟨ht, rfl, trivial⟩, hline⟩ fun hst => ⟨hst, nextWith_of_some hpeeked⟩
      simpa [left, hpeeked, ht] using hleft
  | none =>
    have h := hscan s hs hpeeked hleft
    have hlong : nextWith scan' (s.followedBy C.more) = _ := nextWith_of_none hpeeked
    unfold AgreesAt at h ⊢
    rwa [nextWith_of_none hpeeked, hlong]

/-- An operand that was already parsed counts as one. -/
theorem left_le_of_pending {s t : Parser} (hplace : t.place = s.place)
    (hpeeked : t.peeked = s.peeked) :
    t.left ≤ s.left + if t.pending.isSome then 1 else 0 := by
  simp only [left, hplace, hpeeked]
  omega

theorem embed_agrees
    (hparse : ∀ n' ≤ n, Agrees C n' .inside parse parse' fun _ _ st' => st' = .inside) :
    Agrees C n .inside (embed parse) (embed parse') fun _ _ st' => st' = .inside := by
  intro s hs hleft
  -- what is left inside the braces does not count the operand that waits outside
  have hinner : left { s with last := 0, pending := none, braceQuote := none, inBraces := true } ≤
      n - if s.pending.isSome then 1 else 0 := by
    simp only [left] at hleft ⊢
    simp only [Option.isSome_none, Bool.false_eq_true, if_false]
    omega
  refine AgreesAt.enclose (fun e _ => e)
    (fun t => { t with
      last := s.last
      pending := s.pending
      braceQuote := s.braceQuote
      inBraces := s.inBraces })
    (hparse _ (Nat.sub_le ..)
      { s with last := 0, pending := none, braceQuote := none, inBraces := true }
      (hs.congr rfl rfl) hinner)
    ?_ ?_ (fun _ _ => rfl) (fun _ => rfl)
    fun n' hn' a t st' ht hleft' hst' => ⟨n, Nat.le_refl n, ?_, ht.congr rfl rfl, hst'⟩
  · simp only [embed]
    cases parse _ <;> rfl
  · simp only [embed, followedBy]
    cases parse' _ <;> rfl
  · have hpending : (if s.pending.isSome then 1 else 0) ≤ n := by
      simp only [left] at hleft
      omega
    refine Nat.le_trans (left_le_of_pending (s := t) rfl rfl) ?_
    dsimp only at hn' ⊢
    omega

/-- The body of a quote, which collects arguments of its own. -/
theorem quoted_agrees {P : Nat → Expr → Stage → Prop}
    (hparse : Agrees C n st parse parse' P) :
    Agrees C n st (quoted parse) (quoted parse') fun n' r st' => P n' r.1 st' := by
  rintro ⟨place, peeked, last, pending, textQuote, braceQuote, _ | _, nextDecl⟩ hs hleft
  · refine AgreesAt.enclose (fun e t => (e, t.textQuote.getD [])) ({ · with textQuote })
      (hparse ⟨place, peeked, last, pending, some [], braceQuote, false, nextDecl⟩
        (hs.congr rfl rfl) hleft) ?_ ?_ (fun _ _ => rfl) (fun _ => rfl)
      fun n' hn' a t st' ht hleft' hP => ⟨n', hn', hleft', ht.congr rfl rfl, hP⟩
    · cases h : parse _ <;> simp only [quoted, Bool.false_eq_true, if_false, h]
    · dsimp only [followedBy]
      cases h : parse' _ <;> simp only [quoted, Bool.false_eq_true, if_false, h]
  · refine AgreesAt.enclose (fun e t => (e, t.braceQuote.getD [])) ({ · with braceQuote })
      (hparse ⟨place, peeked, last, pending, textQuote, some [], true, nextDecl⟩
        (hs.congr rfl rfl) hleft) ?_ ?_ (fun _ _ => rfl) (fun _ => rfl)
      fun n' hn' a t st' ht hleft' hP => ⟨n', hn', hleft', ht.congr rfl rfl, hP⟩
    · cases h : parse _ <;> simp only [quoted, if_true, h]
    · dsimp only [followedBy]
      cases h : parse' _ <;> simp only [quoted, if_true, h]

theorem isQuoted_agrees : Agrees C n st isQuoted isQuoted fun _ _ st' => st' = st :=
  fun _ hs hleft => .ok rfl (Nat.le_refl n) hleft hs rfl fun hst => ⟨hst, rfl⟩

theorem addArgument_agrees (e : Expr) :
    Agrees C n st (addArgument e) (addArgument e) fun _ _ st' => st' = st := by
  rintro ⟨place, peeked, last, pending, textQuote, braceQuote, inBraces, nextDecl⟩ hs hleft
  cases braceQuote with
  | some args =>
    exact .ok rfl (Nat.le_refl n) hleft (hs.congr rfl rfl) rfl fun hst => ⟨hst, rfl⟩
  | none =>
    exact .ok rfl (Nat.le_refl n) hleft (hs.congr rfl rfl) rfl fun hst => ⟨hst, rfl⟩

theorem newDecl_agrees (name : Bytes) (line : Nat) (exported : Bool) :
    Agrees C n st (newDecl name line exported) (newDecl name line exported)
      fun _ _ st' => st' = st :=
  fun _ hs hleft => .ok rfl (Nat.le_refl n) hleft (hs.congr rfl rfl) rfl fun hst => ⟨hst, rfl⟩

end Parser

/-! ### Rules -/

namespace Reading

open Grammar

variable {b n : Nat} {st : Stage} {α β : Type}

/-- The smaller parts of two grammars do the same as long as less than `b` is left to read. -/
structure Tied (C : Comparison) (b : Nat) (g g' : Grammar) : Prop where
  source : g'.source = g.source
  tables : g'.tables = g.tables
  rounds : b < g.rounds
  rounds_le : g.rounds ≤ g'.rounds
  parse : ∀ goal n st, n < b → ParseAction.Agrees C n st (g.parse goal) (g'.parse goal)
    fun _ _ st' => goal = .embedded → st' = .inside

/-- A rule does the same in two grammars whose smaller parts do, with at most `n` left to read. -/
def Agrees (C : Comparison) (b n : Nat) (st : Stage) (x : Rule α)
    (P : Nat → α → Stage → Prop) : Prop :=
  ∀ g g', Tied C b g g' → ParseAction.Agrees C n st (x g) (x g') P

/-- A round of a loop ends it, or it has used something up. -/
def RoundEnds (P : α → Stage → Prop) (n n' : Nat) (r : α ⊕ β) (st : Stage) : Prop :=
  match r with
  | .inl a => P a st
  | .inr _ => n' < n

section

variable {x : Rule α} {f : α → Rule β} {P P' : Nat → α → Stage → Prop} {Q : Nat → β → Stage → Prop}

theorem Agrees.pure {a : α} (h : P n a st) : Agrees C b n st (Pure.pure a) P := fun _ _ _ => .pure h

theorem Agrees.bind (hx : Agrees C b n st x P)
    (hf : ∀ n' ≤ n, ∀ a st', P n' a st' → Agrees C b n' st' (f a) Q) :
    Agrees C b n st (x >>= f) Q :=
  fun g g' hg => (hx g g' hg).bind fun n' hn a st' hP => hf n' hn a st' hP g g' hg

theorem Agrees.imp (hx : Agrees C b n st x P)
    (h : ∀ n' ≤ n, ∀ a st', P n' a st' → P' n' a st') : Agrees C b n st x P' :=
  fun g g' hg => (hx g g' hg).imp h

end

section

variable [law : C.Lawful]

include law

theorem scan_agreesAt {g g' : Grammar} (hg : Tied C b g g') {s : Parser} (hn : n ≤ b)
    (hs : C.At s st) (hnone : s.peeked = none) (hleft : s.left ≤ n) :
    ParseAction.AgreesAt C s n st
      (Parser.scan g.source g.tables (some (Parser.embed (g.parse .embedded))) g.rounds)
      (Parser.scan g'.source g'.tables (some (Parser.embed (g'.parse .embedded))) g'.rounds)
      fun n' t st' => st.Consumes C.closed n n' t st' ∧ C.Line t.line := by
  rw [hg.source, hg.tables]
  refine Parser.scan_agreesAt b (fun n' hn' => ?_) hs hnone hleft hn
    (Nat.lt_of_le_of_lt hn hg.rounds) hg.rounds_le
  exact Parser.embed_agrees fun m hm =>
    (hg.parse .embedded m .inside (Nat.lt_of_le_of_lt hm hn')).imp fun _ _ _ _ h => h rfl

theorem peek_agrees (hn : n ≤ b) :
    Agrees C b n st peek fun _ t st' => st.Sees C.closed t st' ∧ C.Line t.line :=
  fun _ _ hg => Parser.peekWith_agrees fun _ => scan_agreesAt hg hn

theorem next_agrees (hn : n ≤ b) :
    Agrees C b n st next fun n' t st' => st.Consumes C.closed n n' t st' ∧ C.Line t.line := by
  refine fun _ _ hg => (Parser.nextWith_agrees fun _ => scan_agreesAt hg hn).bind
    fun n' hn' t st' ht => ?_
  refine .bind (.modify fun _ => ?_) fun n'' hn'' _ st'' hst => .pure ⟨?_, ht.2⟩
  · exact ⟨rfl, rfl, rfl, rfl⟩
  · obtain rfl := hst
    exact ht.1.imp_right fun ⟨ht, hlt, h⟩ => ⟨ht, Nat.lt_of_le_of_lt hn'' hlt, h⟩

theorem failAt_agrees {t : Token} {cause : GrammarError} {P : Nat → α → Stage → Prop}
    (h : C.closed → st = .ended → cause.IsIncomplete) (ht : C.Line t.line)
    (hdeep : cause ≠ .tooDeep) : Agrees C b n st (failAt t cause) P := by
  intro g g' hg s hs hleft
  by_cases hst : C.Over st
  · exact .inl (law.excuses hst.1 ((h hst.1 hst.2).read _))
  · exact .inr ⟨law.allows ht hdeep, hst, rfl⟩

end

theorem span_agrees {x : Rule Span} (f : Bytes → Nat → Span)
    (hx : ∀ g s, x g s = .ok (f g.source s.last) s) : Agrees C b n st x fun _ _ _ => True := by
  intro g g' hg s hs hleft
  refine .ok (hx g s) (Nat.le_refl n) hleft hs trivial fun hst => ⟨hst, ?_⟩
  rw [hx, hg.source]
  rfl

/-- A loop does the same if each round does and uses something up before the next one, so it ends
before the rounds do. -/
theorem repeating_agrees {step : β → Rule (α ⊕ β)} {P : α → Stage → Prop} (c : β) (hn : n ≤ b)
    (hstep : ∀ m ≤ n, ∀ c st, Agrees C b m st (step c) (RoundEnds P m)) :
    Agrees C b n st (repeating c step) fun _ a st' => P a st' := by
  have hrounds : ∀ rounds rounds' m c st, m < rounds → rounds ≤ rounds' → m ≤ n →
      ∀ g g', Tied C b g g' → ParseAction.Agrees C m st (repeatFor step rounds c g)
        (repeatFor step rounds' c g') fun _ a st' => P a st' := by
    intro rounds
    induction rounds with
    | zero => exact fun _ _ _ _ h => absurd h (Nat.not_lt_zero _)
    | succ rounds ih =>
      intro rounds' m c st hm hrounds hmn g g' hg
      obtain ⟨rounds', rfl⟩ : ∃ k, rounds' = k + 1 := ⟨rounds' - 1, by omega⟩
      refine (hstep m hmn c st g g' hg).bind fun m₁ hm₁ r st₁ hr => ?_
      cases r with
      | inl a => exact .pure hr
      | inr c =>
        have hr : m₁ < m := hr
        exact ih rounds' m₁ c st₁ (by omega) (by omega) (by omega) g g' hg
  exact fun g g' hg => hrounds g.rounds g'.rounds n c st (Nat.lt_of_le_of_lt hn hg.rounds)
    hg.rounds_le (Nat.le_refl n) g g' hg

theorem run_eq {α : Type} (source : Bytes) (tables : Tables) (x : Rule α) (s : Parser) :
    Parser.run source tables x s =
      x ⟨source, tables, s.bound, goal source tables s.bound s.bound⟩ s := rfl

theorem operand_of_pending {e : Expr} {g : Grammar} {s : Parser} (h : s.pending = some e) :
    operand g s = .ok e { s with pending := none } := by
  cases s
  cases h
  rfl

theorem operand_of_fresh {g : Grammar} {s : Parser} (h : s.pending = none) :
    operand g s = freshOperand g s := by
  cases s
  cases h
  rfl

/-- An operand has a token, or it was already parsed. -/
theorem operand_agrees (hfresh : Agrees C b n st freshOperand fun n' _ _ => n' < n) :
    Agrees C b n st operand fun n' _ _ => n' < n := by
  intro g g' hg s hs hleft
  cases hpending : s.pending with
  | some e =>
    have hlt : Parser.left { s with pending := none } < s.left := by
      simp [Parser.left, hpending]
    exact .ok (operand_of_pending hpending) (Nat.sub_le n 1)
      (Nat.le_sub_one_of_lt (hlt.trans_le hleft)) (hs.congr rfl rfl) (by omega)
      fun hst => ⟨hst, operand_of_pending hpending⟩
  | none =>
    have hfresh := hfresh g g' hg s hs hleft
    unfold ParseAction.AgreesAt at hfresh ⊢
    rwa [operand_of_fresh hpending, operand_of_fresh (s := s.followedBy C.more) hpending]

/-- An operand that was already parsed takes the place of a token. -/
theorem withPending_agrees {x : Rule Expr} {z : Rule α}
    (hx : Agrees C b n st x fun n' _ _ => n' < n)
    (hz : ∀ n' ≤ n, ∀ st', Agrees C b n' st' z fun _ _ _ => True) :
    Agrees C b n st (x >>= fun e => modify ({ · with pending := some e }) >>= fun _ => z)
      fun _ _ _ => True := by
  intro g g' hg s hs hleft
  refine (hx g g' hg s hs hleft).bindLoose fun n₁ hn₁ e st₁ t hlt ht hleft₁ => ?_
  have hleft₂ : Parser.left { t with pending := some e } ≤ n := by
    have := Parser.left_le_of_pending (s := t) (t := { t with pending := some e }) rfl rfl
    simp only [Option.isSome_some, if_true] at this
    omega
  exact hz n le_rfl st₁ g g' hg { t with pending := some e } (ht.congr rfl rfl) hleft₂

end Reading

end StagedScript
