import StagedScript.Proofs.Reading.Lines
import StagedScript.Proofs.Reading.Rule

/-!
# Parsing is total

Whatever the text, parsing it ends with a tree or with one error, which is lexical or syntactic and
lies on a line of the text.  The bounds for nesting and for the rounds of loops are larger than what is
left to read, so they are never reached: larger ones give the same result.
-/

namespace StagedScript

def ReadError.line : ReadError → Nat
  | .scan line _ | .grammar line _ => line

/-- An error lies on one of the lines from a place on, and no bound has caused it. -/
structure ReadError.Within (p : Place) (e : ReadError) : Prop where
  line : p.Spans e.line
  cause : ∀ line, e ≠ .grammar line .tooDeep

@[simp]
theorem Place.followedBy_nil (q : Place) : q.followedBy [] = q := by
  simp [followedBy]

@[simp]
theorem Parser.followedBy_nil (s : Parser) : s.followedBy [] = s := by
  simp [followedBy]

namespace Comparison

/-- A parser that began at a place is compared with one of the same text. -/
def within (p : Place) : Comparison where
  more := []
  closed := False
  Open := p.Before
  Line := p.Spans
  Excuses _ := False
  Allows := ReadError.Within p

variable {p q : Place}

theorem fails_within {α : Type} {f : ScanFailure} {r : Except ScanFailure α} (h : p.Spans f.line)
    (hr : r = .error f) : (within p).Fails f r :=
  .inr ⟨⟨h, nofun⟩, by simp [hr, within]⟩

instance within_lawful (p : Place) : (within p).Lawful where
  excuses h := h.elim
  allows hline hdeep := ⟨hline, fun _ h => hdeep (ReadError.grammar.inj h).2⟩
  line h := h.elim False.elim Place.Before.spans
  rest _ := .inr rfl
  tail h hrest _ := h.trans (.of_suffix (hrest ▸ List.suffix_cons _ _))
  gap {q} h := by
    have hgap := skipGap_leads .blanks q.line q.rest (.refl _) (by simp)
    simp only [within, List.append_nil, Place.followedBy_nil]
    cases hr : skipGap .blanks q.line q.rest with
    | error f =>
      rw [hr] at hgap
      exact fails_within (h.spans_of_spans hgap) rfl
    | ok r =>
      rw [hr] at hgap
      exact ⟨h.trans hgap, hgap.length_le, rfl⟩
  plain {q} tables h := by
    have htoken := scanPlain_leads tables q
    simp only [within, Place.followedBy_nil]
    rcases hr : scanPlain tables q with f | ⟨lexeme, after⟩
    · rw [hr] at htoken
      exact fails_within (h.spans_of_spans htoken) rfl
    · rw [hr] at htoken
      refine ⟨rfl, htoken.1.length_le, htoken.2.imp (⟨·, id, h.trans htoken.1⟩) ?_⟩
      exact fun ⟨hlexeme, hlt⟩ => ⟨hlexeme, hlt, .inl (h.trans htoken.1)⟩
  chunk {q opened} h hopened := by
    have hchunk := chunk_before 0x27 true 0 q.line q.rest (.refl _)
    refine .inr ⟨by simp [within, Chunk.followedBy], h.trans hchunk, hchunk.length_le, fun f hf => ?_⟩
    obtain hline | hline := ChunkEnd.line_of_failure? hf
    · exact ⟨hline ▸ hopened, nofun⟩
    · exact ⟨hline ▸ (h.trans hchunk).spans, nofun⟩

end Comparison

/-- A whole text is parsed in the same way with larger bounds, and its errors lie within it. -/
theorem Reading.unit_settles (source : Bytes) (tables : Tables) (text : Bytes) (first : Nat)
    {rounds depth : Nat} (hrounds : text.length + 3 ≤ rounds) (hdepth : text.length + 3 ≤ depth) :
    let s : Parser := { Parser.start text with nextDecl := first }
    Parser.unit ⟨source, tables, rounds, Grammar.goal source tables rounds depth⟩ s =
        Parser.run source tables Parser.unit s ∧
      ((∃ e t, Parser.run source tables Parser.unit s = .error e t ∧ e.Within ⟨text, 1⟩) ∨
        ∃ e t n st, Parser.run source tables Parser.unit s = .ok e t ∧ t.left ≤ n ∧
          (Comparison.within ⟨text, 1⟩).At t st) := by
  intro s
  have hs : (Comparison.within ⟨text, 1⟩).At s .inside :=
    ⟨.inl ⟨.refl _, fun h => h.1⟩, nofun, rfl⟩
  have h := unit_agreesAt source tables hs rfl hrounds hdepth
  unfold ParseAction.AgreesAt at h
  simp only [Comparison.within, Parser.followedBy_nil] at h
  cases hrun : Parser.run source tables Parser.unit s with
  | error e t =>
    rw [hrun] at h
    obtain ⟨he, -, hsame⟩ := h.resolve_left id
    exact ⟨hsame, .inl ⟨e, t, rfl, he⟩⟩
  | ok e t =>
    rw [hrun] at h
    obtain ⟨n, st, -, hleft, ht, -, hsame⟩ := h
    exact ⟨(hsame fun h => h.1).2, .inr ⟨e, t, n, st, rfl, hleft, ht⟩⟩

/-- Parsing a text with any reserved words and prefixes gives a tree, or one error that is lexical or
syntactic and lies on a line of the text.  No bound for nesting or rounds is reached: larger bounds give
the same result. -/
theorem parseUnit_total (tables : Tables) (source text : Bytes) (first : Nat) :
    (∀ rounds depth, text.length + 3 ≤ rounds → text.length + 3 ≤ depth →
      Parser.unit ⟨source, tables, rounds, Grammar.goal source tables rounds depth⟩
          { Parser.start text with nextDecl := first } =
        Parser.run source tables Parser.unit { Parser.start text with nextDecl := first }) ∧
    ((∃ e last, parseUnit tables source text first = .ok (e, last)) ∨
      ∃ e : ReadError, parseUnit tables source text first = .error (e.toSource source) ∧
        (∀ line, e ≠ .grammar line .tooDeep) ∧
        ((e.toSource source).category = .lexical ∨ (e.toSource source).category = .grammatical) ∧
        1 ≤ (e.toSource source).position.line ∧
        (e.toSource source).position.line ≤ 1 + text.count Bytes.newline) := by
  refine ⟨fun rounds depth hrounds hdepth =>
    (Reading.unit_settles source tables text first hrounds hdepth).1, ?_⟩
  obtain ⟨-, ⟨e, s, hrun, hline, hcause⟩ | ⟨e, s, _, _, hrun, -⟩⟩ :=
    Reading.unit_settles source tables text first le_rfl le_rfl
  · right
    refine ⟨e, by rw [parseUnit, hrun], hcause, ?_⟩
    cases e with
    | scan line cause => exact ⟨.inl rfl, hline.1, hline.2⟩
    | grammar line cause => exact ⟨.inr rfl, hline.1, hline.2⟩
  · exact .inl ⟨e, s.nextDecl, by rw [parseUnit, hrun]⟩

/-- A list inside braces that is closed by a parenthesis on the next line. -/
theorem parseUnit_total_of_open_brace :
    let text : Bytes := "'a\x7b[1,\n)"
    (∃ e : ReadError, parseUnit .standard "t" text 0 = .error (e.toSource "t") ∧
      (∀ line, e ≠ .grammar line .tooDeep) ∧ 1 ≤ (e.toSource "t").position.line ∧
      (e.toSource "t").position.line ≤ 2) ∧
    Parser.unit ⟨"t", .standard, 100, Grammar.goal "t" .standard 100 90⟩ (Parser.start text) =
      Parser.run "t" .standard Parser.unit (Parser.start text) := by
  intro text
  obtain ⟨hbounds, hresult⟩ := parseUnit_total .standard "t" text 0
  have hfails : (parseUnit .standard "t" text 0).isOk = false := by decide +kernel
  refine ⟨?_, hbounds 100 90 (by decide) (by decide)⟩
  obtain ⟨e, last, hok⟩ | ⟨e, herror, hcause, -, hfirst, hlast⟩ := hresult
  · rw [hok] at hfails
    cases hfails
  · exact ⟨e, herror, hcause, hfirst, hlast⟩

end StagedScript
