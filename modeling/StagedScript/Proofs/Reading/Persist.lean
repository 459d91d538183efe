import StagedScript.Proofs.Reading.Rule

/-!
# Errors that more text cannot mend

A session reads more lines when an error says that its input has ended too early.  Any other error
of an input that ends a line stays when more text follows it: until a parser sees the end of its
text it does what it does with more text behind, and after that all its errors say that the text has
ended too early.
-/

namespace StagedScript

/-- A text that ends with a line feed is compared with a longer one. -/
def Comparison.longer (y : Bytes) : Comparison where
  more := y
  closed := True
  Open q := Bytes.EndsLine q.rest
  Line _ := True
  Excuses := ReadError.IsIncomplete
  Allows _ := True

instance Comparison.longer_lawful (y : Bytes) : (longer y).Lawful where
  excuses _ h := h
  allows _ _ := trivial
  line _ := trivial
  rest h := .inl h.ne_nil
  tail h hrest hc := (hrest ▸ h : Bytes.EndsLine (_ :: _)).tail hc
  gap {q} h := by
    have hgap := skipGap_append y .blanks q.line q.rest h
    generalize skipGap .blanks q.line q.rest = r at hgap ⊢
    cases r with
    | error f => exact .inl (hgap.read f.line)
    | ok r => exact hgap
  plain {q} tables h := by
    have htoken := scanPlain_append tables y h
    generalize scanPlain tables q = r at htoken ⊢
    obtain f | ⟨lexeme, after⟩ := r
    · exact htoken.imp (·.read f.line) (⟨trivial, ·⟩)
    · obtain ⟨hsame, hlt, hne, hafter⟩ := htoken
      exact ⟨hsame, hlt.le, .inr ⟨hne, hlt, hafter.imp_right (⟨trivial, ·⟩)⟩⟩
  chunk {q opened} h _ := by
    obtain hcut | ⟨hsame, hend, hle⟩ := @chunk_append 0x27 (by decide) true y 0 q.line q.rest h
      (List.length_pos_iff.2 h.ne_nil)
    · obtain ⟨f, hf, hincomplete⟩ := ChunkEnd.failure?_of_isCutOff hcut opened _
      exact .inl ⟨f, hf, hincomplete.read f.line⟩
    · exact .inr ⟨hsame, hend, hle, fun _ _ => trivial⟩

theorem parseUnit_error_append (y : Bytes) {tables : Tables} {source text : Bytes} {first : Nat}
    {e : SourceError} (htext : Bytes.EndsLine text)
    (hfails : parseUnit tables source text first = .error e) (hcomplete : e.isIncomplete = false) :
    parseUnit tables source (text ++ y) first = .error e := by
  let s : Parser := { Parser.start text with nextDecl := first }
  have hs : (Comparison.longer y).At s .inside := ⟨.inl ⟨htext, fun h => nomatch h.2⟩, nofun, rfl⟩
  have hbound : s.bound ≤ (s.followedBy y).bound := by
    simp [Parser.bound, Parser.followedBy, Place.followedBy]
  have h := Reading.unit_agreesAt source tables hs rfl hbound hbound
  unfold ParseAction.AgreesAt at h
  unfold parseUnit at hfails
  split at hfails
  · cases hfails
  next cause t hrun =>
    cases hfails
    rw [hrun] at h
    obtain hincomplete | ⟨-, -, hlong⟩ := h
    · rw [hincomplete source] at hcomplete
      cases hcomplete
    · have hlong : Parser.run source tables Parser.unit
          { Parser.start (text ++ y) with nextDecl := first } = .error cause (t.followedBy y) := hlong
      unfold parseUnit
      rw [hlong]

/-- An error that is not an early end stays when more text follows. -/
theorem Compiler.parse_error_persists (compiler : Compiler) (heap : Heap) (source x y : Bytes)
    (e : SourceError) (hfails : compiler.parse heap source (Session.line x) = .error e)
    (hcomplete : e.isIncomplete = false) :
    compiler.parse heap source (Session.line x ++ y) = .error e := by
  unfold Compiler.parse at hfails ⊢
  split at hfails
  next hparse =>
    cases hfails
    have htext : (Session.line x).EndsLine := Bytes.endsLine_line x
    rw [parseUnit_error_append y htext hparse hcomplete]
  next => cases hfails

/-- A parenthesis that closes a bracket is an error on its line, whatever follows. -/
theorem Compiler.parse_error_persists_after_bracket :
    ∃ e, ({} : Compiler).parse {} "t" (Session.line "'1\x7b[2]\x7d' +\n(3 - [4)") = .error e ∧
      e.isIncomplete = false ∧ e.position.line = 2 ∧
      ({} : Compiler).parse {} "t" (Session.line "'1\x7b[2]\x7d' +\n(3 - [4)" ++ "])") =
        .error e := by
  have hfails : (match ({} : Compiler).parse {} "t"
      (Session.line "'1\x7b[2]\x7d' +\n(3 - [4)") with
      | .error e => !e.isIncomplete && e.position.line == 2
      | .ok _ => false) = true := by
    decide +kernel
  split at hfails
  next e he =>
    obtain ⟨hcomplete, hline⟩ := Bool.and_eq_true_iff.1 hfails
    have hcomplete : e.isIncomplete = false := by simpa using hcomplete
    exact ⟨e, he, hcomplete, by simpa using hline, parse_error_persists {} {} _ _ _ e he hcomplete⟩
  next => cases hfails

end StagedScript
