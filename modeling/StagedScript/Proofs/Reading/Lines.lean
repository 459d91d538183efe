import Mathlib.Data.List.Infix
import StagedScript.Proofs.Reading.Scan

/-!
# Lines of a text

Reading goes on through a text: what is left is a final part of it, and the line grows by at most the
number of line feeds that were read.  A line feed after a backslash is not counted, so a line can be
less than the number of line feeds before it.
-/

variable {c : UInt8}

namespace StagedScript

open Bytes (newline)

/-- A place can be reached from another one by reading on. -/
structure Place.Before (p q : Place) : Prop where
  rest : q.rest <:+ p.rest
  line_le : p.line ≤ q.line
  lines_le : q.line + q.rest.count newline ≤ p.line + p.rest.count newline

/-- A line is one of those from a place on. -/
def Place.Spans (p : Place) (line : Nat) : Prop :=
  p.line ≤ line ∧ line ≤ p.line + p.rest.count newline

namespace Place.Before

variable {p q r : Place} {line : Nat} {text : Bytes}

theorem refl (p : Place) : p.Before p := ⟨List.suffix_rfl, Nat.le_refl _, Nat.le_refl _⟩

theorem trans (h : p.Before q) (h' : q.Before r) : p.Before r :=
  ⟨h'.rest.trans h.rest, h.line_le.trans h'.line_le, h'.lines_le.trans h.lines_le⟩

theorem length_le (h : p.Before q) : q.rest.length ≤ p.rest.length := h.rest.length_le

theorem spans (h : p.Before q) : p.Spans q.line := by
  have := h.line_le
  have := h.lines_le
  exact ⟨h.line_le, by omega⟩

theorem spans_of_spans (h : p.Before q) (hline : q.Spans line) : p.Spans line := by
  have := h.line_le
  have := h.lines_le
  obtain ⟨hfirst, hlast⟩ := hline
  exact ⟨by omega, by omega⟩

theorem of_suffix (h : text <:+ p.rest) : p.Before ⟨text, p.line⟩ :=
  ⟨h, Nat.le_refl _, Nat.add_le_add_left (h.sublist.count_le _) _⟩

theorem of_cons (c : UInt8) (text : Bytes) (line : Nat) :
    Before ⟨c :: text, line⟩ ⟨text, if c = newline then line + 1 else line⟩ := by
  refine ⟨List.suffix_cons _ _, ?_, ?_⟩
  · dsimp only
    split <;> omega
  · dsimp only
    split
    next h => rw [h, List.count_cons_self]; omega
    next h => rw [List.count_cons_of_ne h]

end Place.Before

/-- Reading on from a place succeeds at a later one, or it fails on one of the lines from there on. -/
def Place.Leads (p : Place) : Except ScanFailure Place → Prop
  | .error f => p.Spans f.line
  | .ok q => p.Before q

/-- A gap that is left open is reported on the line of its comment. -/
theorem skipGap_leads {p : Place} (gap : Gap) (line : Nat) (text : Bytes)
    (hp : p.Before ⟨text, line⟩)
    (hgap : ∀ depth opened, gap = .comment depth opened → p.Spans opened) :
    p.Leads (skipGap gap line text) := by
  fun_induction skipGap gap line text with
  | case1 depth opened line => exact hgap _ _ rfl
  | case2 depth opened line rest ih =>
    refine ih (hp.trans (.of_suffix ⟨[0x3a, 0x3c], rfl⟩)) ?_
    rintro _ _ ⟨⟩
    exact hgap _ _ rfl
  | case3 opened line rest ih => exact ih (hp.trans (.of_suffix ⟨[0x3e, 0x3a], rfl⟩)) (by simp)
  | case4 depth opened line rest ih =>
    refine ih (hp.trans (.of_suffix ⟨[0x3e, 0x3a], rfl⟩)) ?_
    rintro _ _ ⟨⟩
    exact hgap _ _ rfl
  | case5 depth opened line c rest _ _ _ ih =>
    exact ih (hp.trans (.of_cons c rest line)) hgap
  | case6 => exact hp
  | case7 => exact hp
  | case8 line c rest _ ih => exact ih (hp.trans (.of_suffix (List.suffix_cons _ _))) (by simp)
  | case9 => exact hp
  | case10 line rest ih =>
    refine ih (hp.trans (.of_suffix ⟨[0x3a, 0x3c], rfl⟩)) ?_
    rintro _ _ ⟨⟩
    exact hp.spans
  | case11 line rest ih => exact ih (hp.trans (.of_suffix ⟨[0x3a, 0x3e], rfl⟩)) (by simp)
  | case12 line c rest _ _ _ ih => exact ih (hp.trans (.of_suffix (List.suffix_cons _ _))) (by simp)
  | case13 => exact hp

/-! ### Texts -/

theorem chunk_before {p : Place} (quote : UInt8) (embeds : Bool) (skip line : Nat) (text : Bytes)
    (hp : p.Before ⟨text, line⟩) : p.Before (chunk quote embeds skip line text).place := by
  fun_induction chunk quote embeds skip line text with
  | case1 => exact hp
  | case2 k line c rest ih => exact ih (hp.trans (.of_suffix (List.suffix_cons _ _)))
  | case3 => exact hp.trans (.of_suffix (List.suffix_cons _ _))
  | case4 line c rest _ _ _ ih => exact ih (hp.trans (.of_suffix (List.suffix_cons _ _)))
  | case5 => exact hp
  | case6 => exact hp
  | case7 line c rest _ _ _ ih => exact ih (hp.trans (.of_cons c rest line))

/-- A text literal fails on the line where it was opened, or on that of a bad escape. -/
theorem ChunkEnd.line_of_failure? {stop : ChunkEnd} {opened : Nat} {place : Place} {f : ScanFailure}
    (h : stop.failure? opened place = some f) : f.line = opened ∨ f.line = place.line := by
  cases stop with
  | closed | brace => cases h
  | unfinished =>
    cases h
    exact .inl rfl
  | badEscape cause =>
    cases h
    exact .inr rfl

theorem rawText_before {p : Place} (escaped : Bool) (line : Nat) (text : Bytes)
    (hp : p.Before ⟨text, line⟩) : p.Before (rawText escaped line text).2 := by
  fun_induction rawText escaped line text with
  | case1 => exact hp
  | case2 line c rest raw place h ih =>
    rw [h] at ih
    exact ih (hp.trans (.of_suffix (List.suffix_cons _ _)))
  | case3 => exact hp.trans (.of_suffix (List.suffix_cons _ _))
  | case4 line c rest _ raw place h ih =>
    rw [h] at ih
    exact ih (hp.trans (.of_cons c rest line))

/-! ### Numbers -/

theorem span_suffix (p : UInt8 → Bool) (text : Bytes) : (text.span p).2 <:+ text := by
  rw [List.span_eq_takeWhile_dropWhile]
  exact List.dropWhile_suffix p

theorem span_suffix_cons {p : UInt8 → Bool} (rest : Bytes) (hc : p c = true) :
    ((c :: rest).span p).2 <:+ rest := by
  rw [List.span_eq_takeWhile_dropWhile, List.dropWhile_cons_of_pos hc]
  exact List.dropWhile_suffix p

namespace Numeral

theorem fraction_suffix (text : Bytes) : (fraction text).2 <:+ text := by
  unfold fraction
  split
  · split
    · exact (span_suffix _ _).trans (List.suffix_cons _ _)
    · exact List.suffix_rfl
  · exact List.suffix_rfl

theorem exponent_suffix (text : Bytes) : (exponent text).2 <:+ text := by
  unfold exponent
  split
  next e after =>
    split
    · cases after with
      | nil => exact List.suffix_rfl
      | cons sign more =>
        dsimp only
        by_cases hsign : (sign = 0x2b || sign = 0x2d) = true
        · rw [if_pos hsign]
          split
          · exact (span_suffix _ _).trans ⟨[e, sign], rfl⟩
          · exact List.suffix_rfl
        · rw [if_neg hsign]
          split
          · exact (span_suffix _ _).trans (List.suffix_cons _ _)
          · exact List.suffix_rfl
    · exact List.suffix_rfl
  next => exact List.suffix_rfl

theorem imaginaryUnit_suffix (text : Bytes) : (imaginaryUnit text).2 <:+ text := by
  unfold imaginaryUnit
  split
  · exact List.drop_suffix _ _
  · exact List.suffix_rfl

theorem read_suffix (rest : Bytes) (hc : CharClass.ofByte c = .digit) :
    (read (c :: rest)).2 <:+ rest := by
  unfold read
  cases hparts : basedParts? (c :: rest) with
  | none =>
    exact (imaginaryUnit_suffix _).trans <| (exponent_suffix _).trans <| (fraction_suffix _).trans <|
      span_suffix_cons rest (isDigitOrMark_of_digit hc)
  | some parts =>
    unfold basedParts? at hparts
    split at hparts
    next letter rest heq =>
      cases heq
      obtain ⟨base, -, rfl⟩ := Option.map_eq_some_iff.1 hparts
      exact (span_suffix _ _).trans (List.suffix_cons _ _)
    next => cases hparts

end Numeral

/-! ### Tokens -/

/-- Reading a token from a place succeeds at a later one, or it fails on one of the lines from there
on. -/
def Place.LeadsToken (p : Place) : Except ScanFailure (Lexeme × Place) → Prop
  | .error f => p.Spans f.line
  | .ok (lexeme, q) =>
    p.Before q ∧ (lexeme = .sign .endOfInput ∨
      lexeme ≠ .sign .endOfInput ∧ q.rest.length < p.rest.length)

theorem Place.leadsToken_of_suffix {rest after : Bytes} {line : Nat} {lexeme : Lexeme}
    (hafter : after <:+ rest) (hlexeme : lexeme ≠ .sign .endOfInput) :
    LeadsToken ⟨c :: rest, line⟩ (.ok (lexeme, ⟨after, line⟩)) :=
  ⟨.of_suffix (hafter.trans (List.suffix_cons _ _)),
    .inr ⟨hlexeme, Nat.lt_succ_of_le hafter.length_le⟩⟩

namespace Scan

open Place (leadsToken_of_suffix)

theorem prefixed_leads (tables : Tables) (word : Bytes) {p : Place} {rest : Bytes} {line : Nat}
    (hp : p.Before ⟨rest, line⟩) (hlt : rest.length < p.rest.length) :
    p.LeadsToken (prefixed tables word line rest) := by
  unfold prefixed
  cases tables.prefixes.lookup word with
  | none => exact hp.spans
  | some kind =>
    have hraw := rawText_before false line (rest.drop 1)
      (Place.Before.of_suffix (p := ⟨rest, line⟩) (List.drop_suffix 1 rest))
    dsimp only
    generalize rawText false line (rest.drop 1) = r at hraw ⊢
    obtain ⟨raw, place⟩ := r
    cases raw with
    | none => exact (hp.trans hraw).spans
    | some raw =>
      dsimp only
      cases kind.read raw with
      | ok v => exact ⟨hp.trans hraw, .inr ⟨nofun, hraw.length_le.trans_lt hlt⟩⟩
      | error cause => exact (hp.trans hraw).spans

theorem word_leads (tables : Tables) (line : Nat) (rest : Bytes)
    (hc : CharClass.isWord c = true) :
    Place.LeadsToken ⟨c :: rest, line⟩ (word tables line (c :: rest)) := by
  have hafter := span_suffix_cons rest hc
  unfold word
  generalize (c :: rest).span CharClass.isWord = r at hafter ⊢
  obtain ⟨name, after⟩ := r
  dsimp only at hafter ⊢
  split
  · exact prefixed_leads tables name (.of_suffix (hafter.trans (List.suffix_cons _ _)))
      (Nat.lt_succ_of_le hafter.length_le)
  · split
    · exact leadsToken_of_suffix hafter nofun
    · split
      · exact leadsToken_of_suffix hafter nofun
      · exact leadsToken_of_suffix hafter nofun

theorem number_leads (line : Nat) (rest : Bytes) (hc : CharClass.ofByte c = .digit) :
    Place.LeadsToken ⟨c :: rest, line⟩ (number line (c :: rest)) := by
  have hafter := Numeral.read_suffix rest hc
  unfold number
  generalize Numeral.read (c :: rest) = r at hafter ⊢
  obtain ⟨r, after⟩ := r
  cases r with
  | ok v => exact leadsToken_of_suffix hafter nofun
  | error cause => exact (Place.Before.refl _).spans

theorem text_leads (line : Nat) (c : UInt8) (rest : Bytes) :
    Place.LeadsToken ⟨c :: rest, line⟩ (text line rest) := by
  have hopened : Place.Before ⟨c :: rest, line⟩ ⟨rest, line⟩ := .of_suffix (List.suffix_cons _ _)
  have hchunk := chunk_before 0x22 false 0 line rest (.refl _)
  unfold text
  generalize chunk 0x22 false 0 line rest = chunk at hchunk ⊢
  dsimp only
  cases hf : chunk.stop.failure? line chunk.place with
  | some f =>
    change Place.Spans _ f.line
    obtain hline | hline := ChunkEnd.line_of_failure? hf
    · rw [hline]
      exact (Place.Before.refl _).spans
    · rw [hline]
      exact (hopened.trans hchunk).spans
  | none => exact ⟨hopened.trans hchunk, .inr ⟨nofun, Nat.lt_succ_of_le hchunk.length_le⟩⟩

theorem colon_suffix (text : Bytes) : (colon text).2 <:+ text := by
  unfold colon
  split
  all_goals first | exact List.suffix_cons _ _ | exact List.suffix_rfl

end Scan

open Place (leadsToken_of_suffix) in
theorem scanPlain_leads (tables : Tables) (p : Place) : p.LeadsToken (scanPlain tables p) := by
  obtain ⟨text, line⟩ := p
  cases text with
  | nil => exact ⟨.refl _, .inl rfl⟩
  | cons c rest =>
    unfold scanPlain
    dsimp only
    cases hc : CharClass.ofByte c with
    | newline =>
      have hnewline : c = newline := by
        unfold CharClass.ofByte at hc
        split_ifs at hc with _ _ h
        exact h
      have hbefore := Place.Before.of_cons c rest line
      rw [if_pos hnewline] at hbefore
      exact ⟨hbefore, .inr ⟨(by simp), Nat.lt_succ_self _⟩⟩
    | alpha => exact Scan.word_leads tables line rest (by simp [CharClass.isWord, hc])
    | digit => exact Scan.number_leads line rest hc
    | operator =>
      exact leadsToken_of_suffix (span_suffix_cons rest (by simp [CharClass.isOperator, hc])) (by simp)
    | delimiter =>
      exact leadsToken_of_suffix List.suffix_rfl (by simpa using Scan.delimiter_ne_endOfInput c)
    | colon =>
      exact leadsToken_of_suffix (Scan.colon_suffix rest) (by simpa using Scan.colon_ne_endOfInput rest)
    | doubleQuote => exact Scan.text_leads line c rest
    | space | singleQuote | other => exact (Place.Before.refl _).spans

end StagedScript
