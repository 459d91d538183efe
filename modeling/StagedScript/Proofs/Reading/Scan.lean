import Mathlib.Data.List.Basic
import Mathlib.Data.List.Induction
import Mathlib.Data.List.TakeDrop
import StagedScript.Session

/-!
# Tokens of a longer text

No token but the end of a line reaches over a line feed that ends the text.  So a text that ends
with a line feed is cut into tokens in the same way when more text follows, up to its end: either a
token or an error is the same, or the error says that the text has ended too early.
-/

variable {c : UInt8} {n n' : Nat}

namespace StagedScript

/-! ### Errors that tell of an end -/

namespace Bytes

variable {text : Bytes}

theorem hasPart_append {part : Bytes} (front : Bytes) (h : hasPart part text = true) :
    hasPart part (front ++ text) = true := by
  induction front with
  | nil => exact h
  | cons c front ih => simp [hasPart, ih]

theorem hasPart_self (part : Bytes) : hasPart part part = true := by
  cases part <;> simp [hasPart]

/-- A text is not empty and its last byte ends a line. -/
def EndsLine (text : Bytes) : Prop := text.getLast? = some newline

theorem EndsLine.ne_nil (h : EndsLine text) : text ≠ [] := by
  rintro rfl
  simp [EndsLine] at h

theorem EndsLine.tail (h : EndsLine (c :: text)) (hc : c ≠ newline) :
    EndsLine text := by
  cases text with
  | nil => exact absurd (by simpa [EndsLine] using h) hc
  | cons d text => simpa [EndsLine] using h

theorem EndsLine.tail_or (h : EndsLine (c :: text)) : text = [] ∨ EndsLine text := by
  cases text with
  | nil => exact .inl rfl
  | cons d text => exact .inr (by simpa [EndsLine] using h)

/-- A pair of bytes that the text does not begin with is not there either when more text
follows. -/
theorem EndsLine.not_pair {c a b : UInt8} (y : Bytes) (h : EndsLine (c :: text))
    (ha : a ≠ newline) (hnot : ∀ rest, c = a → text = b :: rest → False) (rest : Bytes)
    (hc : c = a) (he : text ++ y = b :: rest) : False := by
  cases text with
  | nil => exact (h.tail (hc ▸ ha)).ne_nil rfl
  | cons d text =>
    cases he
    exact hnot text hc rfl

theorem endsLine_line (text : Bytes) : EndsLine (text ++ [newline]) := by simp [EndsLine]

end Bytes

open Bytes (EndsLine hexNumber? hexValue? newline)

/-- An error that every source reports as an early end. -/
def ReadError.IsIncomplete (e : ReadError) : Prop :=
  ∀ source, (e.toSource source).isIncomplete = true

/-- A cause that is worded as an early end. -/
def ScanError.IsIncomplete (cause : ScanError) : Prop :=
  (Bytes.dropStart? "unterminated" cause.message).isSome = true

/-- A cause that names the end of the text. -/
def GrammarError.IsIncomplete (cause : GrammarError) : Prop :=
  Bytes.hasPart "<end of input>" cause.message = true

theorem ScanError.IsIncomplete.read {cause : ScanError} (h : cause.IsIncomplete) (line : Nat) :
    (ReadError.scan line cause).IsIncomplete := by
  intro source
  have h : (Bytes.dropStart? "unterminated" cause.message).isSome = true := h
  simp [SourceError.isIncomplete, ReadError.toSource, SourceError.plain, h]

theorem GrammarError.IsIncomplete.read {cause : GrammarError} (h : cause.IsIncomplete)
    (line : Nat) : (ReadError.grammar line cause).IsIncomplete := by
  intro source
  have h : Bytes.hasPart "<end of input>" cause.message = true := h
  simp [SourceError.isIncomplete, ReadError.toSource, SourceError.plain, h]

theorem ScanError.unterminatedText_isIncomplete : ScanError.unterminatedText.IsIncomplete :=
  rfl

theorem ScanError.unterminatedEscape_isIncomplete : ScanError.unterminatedEscape.IsIncomplete :=
  rfl

theorem ScanError.unterminatedComment_isIncomplete : ScanError.unterminatedComment.IsIncomplete :=
  rfl

theorem Token.display_of_endOfInput {t : Token} (h : t.kind = .endOfInput) :
    t.display = "<end of input>" := by
  obtain ⟨lexeme, line⟩ := t
  cases lexeme with
  | sign kind =>
    cases h
    rfl
  | _ => simp [Token.kind] at h

/-! ### Gaps -/

def Place.followedBy (p : Place) (y : Bytes) : Place := ⟨p.rest ++ y, p.line⟩

/-- A gap ends at the same place when more text follows, or the text has ended inside it. -/
def GapContinues (y : Bytes) (n : Nat) (r r' : Except ScanFailure Place) : Prop :=
  match r with
  | .error f => f.cause.IsIncomplete
  | .ok p => EndsLine p.rest ∧ p.rest.length ≤ n ∧ r' = .ok (p.followedBy y)

theorem GapContinues.mono {y : Bytes} {r r' : Except ScanFailure Place}
    (h : GapContinues y n r r') (hn : n ≤ n') : GapContinues y n' r r' := by
  cases r with
  | error f => exact h
  | ok p => exact ⟨h.1, Nat.le_trans h.2.1 hn, h.2.2⟩

variable (y : Bytes)

theorem skipGap_append (gap : Gap) (line : Nat) (text : Bytes) (h : EndsLine text) :
    GapContinues y text.length (skipGap gap line text) (skipGap gap line (text ++ y)) := by
  fun_induction skipGap gap line text with
  | case1 | case6 | case9 => exact absurd rfl h.ne_nil
  | case2 _ _ _ _ ih | case3 _ _ _ ih | case4 _ _ _ _ ih | case10 _ _ ih | case11 _ _ ih =>
    have hrest := (h.tail (by decide)).tail (by decide)
    rw [List.cons_append, List.cons_append, skipGap]
    exact (ih hrest).mono (by simp only [List.length_cons]; omega)
  | case5 depth opened line c rest hopen hclose hclose' ih =>
    -- the byte begins neither a comment nor its end, whatever follows the text
    rw [List.cons_append, skipGap.eq_5 _ _ _ _ _ (h.not_pair y (by decide) hopen)
      (fun r hd => h.not_pair y (by decide) (fun r => hclose r hd) r)
      (fun d r hd => h.not_pair y (by decide) (fun r => hclose' d r hd) r)]
    obtain rfl | hrest := h.tail_or
    · exact ScanError.unterminatedComment_isIncomplete
    · exact (ih hrest).mono (by simp)
  | case7 line rest => exact ⟨h, Nat.le_refl _, by simp [skipGap, Place.followedBy]⟩
  | case8 line c rest hc ih =>
    rw [List.cons_append, skipGap, if_neg hc]
    exact (ih (h.tail hc)).mono (by simp)
  | case12 line c rest hopen hopen' hc ih =>
    have hne : c ≠ newline := by
      rintro rfl
      exact absurd hc (by decide)
    rw [List.cons_append, skipGap.eq_11 _ _ _ (h.not_pair y (by decide) hopen)
      (h.not_pair y (by decide) hopen'), if_pos hc]
    exact (ih (h.tail hne)).mono (by simp)
  | case13 line c rest hopen hopen' hc =>
    refine ⟨h, Nat.le_refl _, ?_⟩
    rw [List.cons_append, skipGap.eq_11 _ _ _ (h.not_pair y (by decide) hopen)
      (h.not_pair y (by decide) hopen'), if_neg hc]
    rfl

/-! ### Literals -/

theorem hexNumber?_digits {s : Bytes} {n : Nat} (h : hexNumber? s = some n) :
    ∀ c ∈ s, (hexValue? c).isSome = true := by
  induction s using List.reverseRecOn generalizing n with
  | nil => simp
  | append_singleton s c ih =>
    simp only [hexNumber?, List.foldl_append, List.foldl_cons, List.foldl_nil,
      Option.bind_eq_some_iff, Option.map_eq_some_iff] at h
    obtain ⟨v, hv, d, hd, -⟩ := h
    intro x hx
    obtain hx | hx := List.mem_append.1 hx
    · exact ih hv x hx
    · rw [List.mem_singleton.1 hx, hd]
      rfl

/-- An escape is a byte followed by hexadecimal digits, and means the same whatever follows it. -/
structure Escape.Written (c : UInt8) (digits meaning : Bytes) : Prop where
  ne_newline : c ≠ newline
  isSome : ∀ d ∈ digits, (hexValue? d).isSome = true
  decode_eq : ∀ rest, decode (c :: (digits ++ rest)) = .ok (meaning, digits.length + 1)

theorem Escape.Written.simple {c b : UInt8} (h : simple? c = some b) : Written c [] [b] := by
  refine ⟨?_, by simp, fun rest => by simp [decode, h]⟩
  rintro rfl
  cases h

theorem Escape.Written.byte {a b : UInt8} {n : Nat} (h : hexNumber? [a, b] = some n) :
    Written 0x78 [a, b] [n.toUInt8] :=
  ⟨by decide, hexNumber?_digits h, fun rest => by simp [decode, simple?, h]⟩

theorem Escape.decode_ok {text meaning : Bytes} {n : Nat} (h : decode text = .ok (meaning, n)) :
    ∃ c digits rest, Written c digits meaning ∧ text = c :: (digits ++ rest) ∧
      n = digits.length + 1 := by
  revert h
  fun_cases decode text with
  | case1 | case4 | case5 | case7 | case8 | case9 => rintro ⟨⟩
  | case2 c rest b hb =>
    rintro ⟨⟩
    exact ⟨c, [], rest, .simple hb, rfl, rfl⟩
  | case3 a b rest v hv =>
    rintro ⟨⟩
    exact ⟨_, [a, b], rest, .byte hv, rfl, rfl⟩
  | case6 a b d e rest v hv hs =>
    rintro ⟨⟩
    exact ⟨_, [a, b, d, e], rest, ⟨by decide, hexNumber?_digits hv, fun rest => by
      simp [decode, hs, hv]⟩, rfl, rfl⟩

def EscapeError.isCutOff : EscapeError → Bool
  | .trailing | .shortByte | .shortCode => true
  | _ => false

/-- The bytes that the first letter of an escape asks for are those that the escape has, or that are
missing. -/
theorem Escape.take_eq (text : Bytes) : take text = match decode text with
    | .ok r => .ok r
    | .error cause => .error (if cause.isCutOff then none else some cause) := by
  have hx : simple? 0x78 = none := rfl
  have hu : simple? 0x75 = none := rfl
  fun_cases decode text with
  | case1 => rfl
  | case2 c rest b hb =>
    have hc : c ≠ 0x78 ∧ c ≠ 0x75 := by
      constructor <;> rintro rfl <;> cases hb
    simp [take, extent, hc, replace, replaceFrom, decode, hb, Except.map]
  | case3 a b rest n hn => simp [take, extent, replace, replaceFrom, decode, hx, hn, Except.map]
  | case4 a b rest hn =>
    simp [take, extent, replace, replaceFrom, decode, hx, hn, EscapeError.isCutOff]
  | case5 rest hrest =>
    have hshort : rest.length < 2 := by
      obtain _ | ⟨a, _ | ⟨b, rest⟩⟩ := rest
      · simp
      · simp
      · exact absurd rfl (hrest a b rest)
    simp [take, extent, EscapeError.isCutOff]
    omega
  | case6 a b d e rest n hn =>
    simp [take, extent, replace, replaceFrom, decode, hu, hn, Except.map]
  | case7 a b d e rest hn =>
    simp [take, extent, replace, replaceFrom, decode, hu, hn, EscapeError.isCutOff]
  | case8 rest hrest =>
    have hshort : rest.length < 4 := by
      obtain _ | ⟨a, _ | ⟨b, _ | ⟨d, _ | ⟨e, rest⟩⟩⟩⟩ := rest
      · simp
      · simp
      · simp
      · simp
      · exact absurd rfl (hrest a b d e rest)
    simp [take, extent, EscapeError.isCutOff]
    omega
  | case9 c rest hs hx' hu' =>
    simp [take, extent, replace, replaceFrom, decode, hs, hx', hu', EscapeError.isCutOff]

/-- An escape that is taken is a written one. -/
theorem Escape.take_eq_ok {text : Bytes} {r : Bytes × Nat} :
    take text = .ok r ↔ decode text = .ok r := by
  rw [take_eq]
  cases decode text <;> simp

theorem Escape.Written.newline_notMem {digits meaning : Bytes}
    (h : Written c digits meaning) : newline ∉ c :: digits := by
  intro hmem
  obtain he | hmem := List.mem_cons.1 hmem
  · exact h.ne_newline he.symm
  · exact absurd (h.isSome _ hmem) (by decide)

/-- An escape has the same meaning when more text follows, or the text has ended inside it. -/
theorem Escape.take_append {text : Bytes} (h : EndsLine text) :
    match Escape.take text with
    | .error cause => cause = none ∨ Escape.take (text ++ y) = .error cause
    | .ok (meaning, n) => n < text.length ∧ Escape.take (text ++ y) = .ok (meaning, n) := by
  rw [take_eq text, take_eq (text ++ y)]
  cases hdecode : decode text with
  | ok r =>
    obtain ⟨meaning, n⟩ := r
    obtain ⟨c, digits, rest, he, rfl, rfl⟩ := decode_ok hdecode
    have hrest : rest ≠ [] := by
      rintro rfl
      rw [List.append_nil] at h
      exact he.newline_notMem (List.mem_of_getLast? h)
    have := List.length_pos_iff.2 hrest
    refine ⟨by simp only [List.length_cons, List.length_append]; omega, ?_⟩
    rw [List.cons_append, List.append_assoc, he.decode_eq (rest ++ y)]
  | error cause =>
    revert hdecode
    fun_cases decode text with
    | case2 | case3 | case6 => rintro ⟨⟩
    | case1 | case5 | case8 =>
      rintro ⟨⟩
      exact .inl rfl
    | case4 a b rest hv hx | case7 a b d e rest hv hx hu | case9 c rest hx hu hs =>
      rintro ⟨⟩
      exact .inr (by simp [decode, *])

/-- A stretch was ended by the end of the text. -/
def ChunkEnd.isCutOff : ChunkEnd → Bool
  | .closed | .brace => false
  | .unfinished => true
  | .badEscape cause => cause.isNone

theorem ChunkEnd.failure?_of_isCutOff {stop : ChunkEnd} (h : stop.isCutOff = true) (opened : Nat)
    (place : Place) : ∃ f, stop.failure? opened place = some f ∧ f.cause.IsIncomplete := by
  cases stop with
  | closed | brace => exact absurd h (by simp [ChunkEnd.isCutOff])
  | unfinished => exact ⟨_, rfl, ScanError.unterminatedText_isIncomplete⟩
  | badEscape cause =>
    obtain rfl : cause = none := Option.isNone_iff_eq_none.1 h
    exact ⟨_, rfl, ScanError.unterminatedEscape_isIncomplete⟩

theorem ChunkEnd.failure?_followedBy (stop : ChunkEnd) (opened : Nat) (place : Place) (y : Bytes) :
    stop.failure? opened (place.followedBy y) =
      (stop.failure? opened place).map fun f => { f with place := f.place.followedBy y } := by
  cases stop <;> rfl

def Chunk.followedBy (c : Chunk) (y : Bytes) : Chunk := { c with place := c.place.followedBy y }

/-- A stretch is the same when more text follows, or the text has ended inside it. -/
def ChunkContinues (y : Bytes) (n : Nat) (c c' : Chunk) : Prop :=
  c.stop.isCutOff = true ∨
    c' = c.followedBy y ∧ EndsLine c.place.rest ∧ c.place.rest.length ≤ n

theorem ChunkContinues.mono {y : Bytes} {c c' : Chunk}
    (h : ChunkContinues y n c c') (hn : n ≤ n') : ChunkContinues y n' c c' :=
  h.imp_right fun ⟨he, hrest, hle⟩ => ⟨he, hrest, Nat.le_trans hle hn⟩

theorem ChunkContinues.prepend {y front : Bytes} {c c' : Chunk}
    (h : ChunkContinues y n c c') (hn : n ≤ n') :
    ChunkContinues y n' (c.prepend front) (c'.prepend front) := by
  obtain h | ⟨rfl, hrest, hle⟩ := h
  · exact .inl h
  · exact .inr ⟨rfl, hrest, Nat.le_trans hle hn⟩

theorem chunk_append {quote : UInt8} (hquote : quote ≠ newline) (embeds : Bool) (y : Bytes)
    (skip line : Nat) (text : Bytes) (h : EndsLine text) (hskip : skip < text.length) :
    ChunkContinues y text.length (chunk quote embeds skip line text)
      (chunk quote embeds skip line (text ++ y)) := by
  fun_induction chunk quote embeds skip line text with
  | case1 => exact .inl rfl
  | case2 k line c rest ih =>
    have hk : k < rest.length := Nat.lt_of_succ_lt_succ hskip
    have hrest : EndsLine rest := h.tail_or.resolve_left fun he => by simp [he] at hk
    rw [List.cons_append, chunk]
    exact (ih hrest hk).mono (by simp)
  | case3 line rest =>
    rw [List.cons_append, chunk, if_pos rfl]
    exact .inr ⟨rfl, h.tail hquote, by simp⟩
  | case4 line rest meaning n hdecode hc ih =>
    have hrest : EndsLine rest := h.tail (by decide)
    have hsame := Escape.take_append y hrest
    rw [hdecode] at hsame
    rw [List.cons_append, chunk, if_neg hc, if_pos rfl, hsame.2]
    exact (ih hrest hsame.1).prepend (by simp)
  | case5 line rest cause hdecode hc =>
    have hsame := Escape.take_append y (h.tail (by decide))
    rw [hdecode] at hsame
    obtain rfl | hsame := hsame
    · exact .inl rfl
    · rw [List.cons_append, chunk, if_neg hc, if_pos rfl, hsame]
      exact .inr ⟨rfl, h, Nat.le_refl _⟩
  | case6 line c rest hc hc' hbrace =>
    rw [List.cons_append, chunk, if_neg hc, if_neg hc', if_pos hbrace]
    exact .inr ⟨rfl, h, Nat.le_refl _⟩
  | case7 line c rest hc hc' hbrace ih =>
    rw [List.cons_append, chunk, if_neg hc, if_neg hc', if_neg hbrace]
    obtain rfl | hrest := h.tail_or
    · exact .inl rfl
    · exact (ih hrest (List.length_pos_iff.2 hrest.ne_nil)).prepend (by simp)

theorem chunk_brace {quote : UInt8} {embeds : Bool} {skip line : Nat} {text : Bytes}
    (h : (chunk quote embeds skip line text).stop = .brace) :
    ∃ rest, (chunk quote embeds skip line text).place.rest = 0x7b :: rest := by
  fun_induction chunk quote embeds skip line text with
  | case1 | case3 | case5 => simp at h
  | case2 _ _ _ _ ih => exact ih h
  | case4 _ _ _ _ _ _ ih | case7 _ _ _ _ _ _ ih => exact ih h
  | case6 line c rest _ _ hbrace => exact ⟨rest, by simp_all⟩

theorem rawText_append {escaped : Bool} {line : Nat} {text raw : Bytes} {p : Place}
    (h : EndsLine text) (hraw : rawText escaped line text = (some raw, p)) :
    EndsLine p.rest ∧ p.rest.length ≤ text.length ∧
      rawText escaped line (text ++ y) = (some raw, p.followedBy y) := by
  fun_induction rawText escaped line text generalizing raw with
  | case1 => exact absurd rfl h.ne_nil
  | case2 line c rest raw' p' hraw' ih | case4 line c rest _ raw' p' hraw' ih =>
    simp only [Prod.mk.injEq, Option.map_eq_some_iff] at hraw
    obtain ⟨⟨raw, rfl, rfl⟩, rfl⟩ := hraw
    obtain rfl | hrest := h.tail_or
    · simp [rawText] at hraw'
    · obtain ⟨hend, hle, hsame⟩ := ih hrest hraw'
      exact ⟨hend, Nat.le_succ_of_le hle, by simp [rawText, *]⟩
  | case3 line rest =>
    simp only [Prod.mk.injEq, Option.some.injEq] at hraw
    obtain ⟨rfl, rfl⟩ := hraw
    exact ⟨h.tail (by decide), by simp, by simp [rawText, Place.followedBy]⟩

/-! ### Tokens -/

/-- What is read from the beginning of a text is the same when more text follows. -/
structure ReadsSame {α : Type} (y : Bytes) (read : Bytes → α × Bytes) (text : Bytes) : Prop where
  endsLine : EndsLine (read text).2
  le : (read text).2.length ≤ text.length
  same : read (text ++ y) = ((read text).1, (read text).2 ++ y)

theorem span_readsSame {p : UInt8 → Bool} (hp : p newline = false) (y : Bytes) {text : Bytes}
    (h : EndsLine text) : ReadsSame y (List.span p) text := by
  rw [show List.span p = fun text : Bytes => (text.takeWhile p, text.dropWhile p) from
    funext fun text => List.span_eq_takeWhile_dropWhile p text]
  induction text with
  | nil => exact absurd rfl h.ne_nil
  | cons c text ih =>
    cases hc : p c with
    | true =>
      have hne : c ≠ newline := by
        rintro rfl
        simp [hp] at hc
      obtain ⟨hend, hle, hsame⟩ := ih (h.tail hne)
      simp only [Prod.mk.injEq] at hsame
      exact ⟨by simpa [hc] using hend, by simpa [hc] using Nat.le_succ_of_le hle,
        by simp [hc, hsame]⟩
    | false => exact ⟨by simpa [hc] using h, by simp [hc], by simp [hc]⟩

theorem span_lt {p : UInt8 → Bool} {rest : Bytes} (hc : p c = true) :
    ((c :: rest).span p).2.length < (c :: rest).length := by
  simpa [hc] using Nat.lt_succ_of_le (List.dropWhile_suffix p).length_le

theorem Scan.colon_readsSame {text : Bytes} (h : EndsLine text) : ReadsSame y Scan.colon text := by
  cases text with
  | nil => exact absurd rfl h.ne_nil
  | cons c rest =>
    have hread : ∀ kind, c ≠ newline → Scan.colon (c :: rest) = (kind, rest) →
        Scan.colon (c :: (rest ++ y)) = (kind, rest ++ y) → ReadsSame y Scan.colon (c :: rest) :=
      fun kind hc he he' => ⟨by simpa [he] using h.tail hc, by simp [he], by simp [he, he']⟩
    by_cases hc : c ∈ ([0x3d, 0x3a, 0x28, 0x24, 0x7b] : Bytes)
    · simp only [List.mem_cons, List.not_mem_nil, or_false] at hc
      obtain rfl | rfl | rfl | rfl | rfl := hc
      all_goals exact hread _ (by decide) rfl rfl
    · simp only [List.mem_cons, List.not_mem_nil, or_false, not_or] at hc
      obtain ⟨h₁, h₂, h₃, h₄, h₅⟩ := hc
      have hsame : ∀ text, Scan.colon (c :: text) = (.colon, c :: text) := by
        intro text
        simp [Scan.colon, h₁, h₂, h₃, h₄, h₅]
      exact ⟨by rwa [hsame], by simp [hsame], by simp [hsame]⟩

namespace Numeral

variable {text : Bytes} (y : Bytes)

theorem startsWithDigit_append (h : text ≠ []) :
    startsWithDigit (text ++ y) = startsWithDigit text := by
  cases text with
  | nil => exact absurd rfl h
  | cons c rest => rfl

section

variable (h : EndsLine text)

include h

theorem startsWithUnit_append :
    startsWithUnit (text ++ y) = startsWithUnit text := by
  match text, h with
  | [c], h =>
    obtain rfl : c = newline := by simpa [EndsLine] using h
    rfl
  | c :: d :: rest, _ =>
    by_cases hc : c = 0x69
    · subst hc
      rfl
    · simp [startsWithUnit, hc]

theorem fraction_readsSame : ReadsSame y fraction text := by
  cases text with
  | nil => exact absurd rfl h.ne_nil
  | cons c after =>
    by_cases hc : c = 0x2e
    · subst hc
      have hafter := h.tail (by decide)
      have hstart := startsWithDigit_append y hafter.ne_nil
      have hspan := span_readsSame (p := isDigitOrMark) (by decide) y hafter
      cases hdigit : startsWithDigit after with
      | true =>
        rw [hdigit] at hstart
        exact ⟨by simpa [fraction, hdigit] using hspan.endsLine,
          by simpa [fraction, hdigit] using Nat.le_succ_of_le hspan.le,
          by simpa [fraction, hdigit, hstart] using hspan.same⟩
      | false =>
        rw [hdigit] at hstart
        exact ⟨by simpa [fraction, hdigit] using h, by simp [fraction, hdigit],
          by simp [fraction, hdigit, hstart]⟩
    · exact ⟨by simpa [fraction, hc] using h, by simp [fraction, hc], by simp [fraction, hc]⟩


theorem exponent_readsSame : ReadsSame y exponent text := by
  -- after the letter and its sign there are digits, or nothing is read
  have hdigits : ∀ (e : UInt8) (sign after : Bytes), EndsLine after →
      exponent text = (if startsWithDigit after = true then
        (e :: sign ++ (after.span isDigitOrMark).1, (after.span isDigitOrMark).2) else ([], text)) →
      exponent (text ++ y) = (if startsWithDigit (after ++ y) = true then
        (e :: sign ++ ((after ++ y).span isDigitOrMark).1, ((after ++ y).span isDigitOrMark).2)
          else ([], text ++ y)) →
      after.length ≤ text.length → ReadsSame y exponent text := by
    intro e sign after hafter he he' hle
    have hspan := span_readsSame (p := isDigitOrMark) (by decide) y hafter
    rw [startsWithDigit_append y hafter.ne_nil, hspan.same] at he'
    cases hdigit : startsWithDigit after with
    | true =>
      rw [hdigit, if_pos rfl] at he he'
      exact ⟨by rw [he]; exact hspan.endsLine, by rw [he]; exact Nat.le_trans hspan.le hle,
        by rw [he, he']⟩
    | false =>
      rw [hdigit, if_neg (by simp)] at he he'
      exact ⟨by rwa [he], by simp [he], by rw [he, he']⟩
  match text, h with
  | e :: after, h =>
    by_cases he : (e = 0x65 || e = 0x45) = true
    · have hafter : EndsLine after := h.tail (by rintro rfl; exact absurd he (by decide))
      match after, hafter with
      | s :: more, hafter =>
        by_cases hs : (s = 0x2b || s = 0x2d) = true
        · have hmore : EndsLine more := hafter.tail (by rintro rfl; exact absurd hs (by decide))
          refine hdigits e [s] more hmore ?_ ?_ (by simp only [List.length_cons]; omega)
          · simp only [exponent, he, hs, if_true]
          · simp only [exponent, he, hs, if_true, List.cons_append]
        · refine hdigits e [] (s :: more) hafter ?_ ?_ (by simp)
          · simp only [exponent, he, hs, if_true, if_false, Bool.false_eq_true]
          · simp only [exponent, he, hs, if_true, if_false, List.cons_append, Bool.false_eq_true]
    · exact ⟨by simpa [exponent, he] using h, by simp [exponent, he], by simp [exponent, he]⟩

theorem imaginaryUnit_readsSame : ReadsSame y imaginaryUnit text := by
  have hunit := startsWithUnit_append y h
  match text, h with
  | c :: rest, h =>
    cases hc : startsWithUnit (c :: rest) with
    | true =>
      have hne : c ≠ newline := by
        rintro rfl
        exact absurd hc (by simp [startsWithUnit, newline])
      rw [hc] at hunit
      exact ⟨by simpa [imaginaryUnit, hc] using h.tail hne, by simp [imaginaryUnit, hc],
        by simpa [imaginaryUnit, hc] using hunit⟩
    | false =>
      rw [hc] at hunit
      exact ⟨by simpa [imaginaryUnit, hc] using h, by simp [imaginaryUnit, hc],
        by simpa [imaginaryUnit, hc] using hunit⟩

theorem basedParts?_append :
    basedParts? (text ++ y) = (basedParts? text).map fun (base, c, rest) => (base, c, rest ++ y) := by
  match text, h with
  | [c], h =>
    obtain rfl : c = newline := by simpa [EndsLine] using h
    rfl
  | c :: d :: rest, _ =>
    by_cases hc : c = 0x30
    · subst hc
      cases hd : base? d <;> simp [basedParts?, hd]
    · simp [basedParts?, hc]

theorem basedParts?_endsLine {rest : Bytes} {base : Nat}
    (hparts : basedParts? text = some (base, c, rest)) :
    EndsLine rest ∧ rest.length < text.length := by
  unfold basedParts? at hparts
  split at hparts
  next d rest' =>
    simp only [Option.map_eq_some_iff, Prod.mk.injEq] at hparts
    obtain ⟨_, hbase, rfl, rfl, rfl⟩ := hparts
    refine ⟨(h.tail (by decide)).tail ?_, by simp only [List.length_cons]; omega⟩
    rintro rfl
    exact absurd hbase (by simp [base?, newline])
  next => exact absurd hparts (by simp)

theorem readDecimal_readsSame : ReadsSame y readDecimal text := by
  have hwhole := span_readsSame (p := isDigitOrMark) (by decide) y h
  have hfrac := fraction_readsSame y hwhole.endsLine
  have hexpo := exponent_readsSame y hfrac.endsLine
  have hunit := imaginaryUnit_readsSame y hexpo.endsLine
  refine ⟨hunit.endsLine, ?_, ?_⟩
  · calc
      _ ≤ _ := hunit.le
      _ ≤ _ := hexpo.le
      _ ≤ _ := hfrac.le
      _ ≤ _ := hwhole.le
  · unfold readDecimal
    rw [hwhole.same]
    dsimp only
    rw [hfrac.same]
    dsimp only
    rw [hexpo.same]
    dsimp only
    rw [hunit.same]

theorem read_readsSame : ReadsSame y read text := by
  have hparts := basedParts?_append y h
  cases hb : basedParts? text with
  | none =>
    have hdecimal := readDecimal_readsSame y h
    rw [hb] at hparts
    exact ⟨by simpa [read, hb] using hdecimal.endsLine, by simpa [read, hb] using hdecimal.le,
      by simpa [read, hb, hparts] using hdecimal.same⟩
  | some parts =>
    obtain ⟨base, c, rest⟩ := parts
    obtain ⟨hrest, hlt⟩ := basedParts?_endsLine h hb
    have hdigits := span_readsSame (p := CharClass.isWord) (by decide) y hrest
    rw [hb] at hparts
    refine ⟨by simpa [read, hb] using hdigits.endsLine, ?_, ?_⟩
    · simpa [read, hb] using Nat.le_trans hdigits.le (Nat.le_of_lt hlt)
    · simp only [read, hb, hparts, Option.map_some]
      rw [hdigits.same]

end

theorem isDigitOrMark_of_digit (hc : CharClass.ofByte c = .digit) :
    isDigitOrMark c = true := by
  unfold CharClass.ofByte at hc
  split_ifs at hc with _ hdigit
  simpa [isDigitOrMark, Decimal.isDigit] using Or.inl hdigit

theorem read_lt {rest : Bytes} (h : EndsLine (c :: rest))
    (hc : CharClass.ofByte c = .digit) : (read (c :: rest)).2.length < (c :: rest).length := by
  cases hb : basedParts? (c :: rest) with
  | none =>
    have hwhole := span_readsSame (p := isDigitOrMark) (by decide) [] h
    have hfrac := fraction_readsSame [] hwhole.endsLine
    have hexpo := exponent_readsSame [] hfrac.endsLine
    have hunit := imaginaryUnit_readsSame [] hexpo.endsLine
    simp only [read, hb]
    calc
      _ ≤ _ := hunit.le
      _ ≤ _ := hexpo.le
      _ ≤ _ := hfrac.le
      _ < _ := span_lt (isDigitOrMark_of_digit hc)
  | some parts =>
    obtain ⟨base, letter, rest'⟩ := parts
    obtain ⟨hrest, hlt⟩ := basedParts?_endsLine h hb
    have hdigits := span_readsSame (p := CharClass.isWord) (by decide) [] hrest
    simp only [read, hb]
    exact Nat.lt_of_le_of_lt hdigits.le hlt

end Numeral

/-- A token is the same when more text follows, or the text has ended inside it. -/
def TokenContinues (y : Bytes) (n : Nat) (r r' : Except ScanFailure (Lexeme × Place)) : Prop :=
  match r with
  | .error f => f.cause.IsIncomplete ∨ r' = .error { f with place := f.place.followedBy y }
  | .ok (lexeme, p) =>
    r' = .ok (lexeme, p.followedBy y) ∧ p.rest.length < n ∧ lexeme ≠ .sign .endOfInput ∧
      (EndsLine p.rest ∨ p.rest = [] ∧ lexeme = .sign .endOfLine)

theorem TokenContinues.mono {y : Bytes}
    {r r' : Except ScanFailure (Lexeme × Place)} (h : TokenContinues y n r r') (hn : n ≤ n') :
    TokenContinues y n' r r' := by
  cases r with
  | error f => exact h
  | ok r => exact ⟨h.1, Nat.lt_of_lt_of_le h.2.1 hn, h.2.2⟩

namespace Scan

variable {rest : Bytes}

theorem prefixed_append (tables : Tables) (word : Bytes) (line : Nat) (y : Bytes)
    (h : EndsLine rest) (hquote : rest.head? = some 0x22) :
    TokenContinues y rest.length (prefixed tables word line rest)
      (prefixed tables word line (rest ++ y)) := by
  match rest, h, hquote with
  | _ :: rest, h, rfl =>
    unfold prefixed
    cases hkind : tables.prefixes.lookup word with
    | none => exact .inr rfl
    | some kind =>
      have hrest : EndsLine rest := h.tail (by decide)
      simp only [List.cons_append, List.drop_one, List.tail_cons]
      cases hraw : rawText false line rest with | mk raw place =>
      cases raw with
      | none => exact .inl ScanError.unterminatedText_isIncomplete
      | some raw =>
        obtain ⟨hend, hle, hsame⟩ := rawText_append y hrest hraw
        rw [hsame]
        dsimp only
        cases hread : kind.read raw with
        | error cause => exact .inr rfl
        | ok v => exact ⟨rfl, Nat.lt_succ_of_le hle, by simp, .inl hend⟩

theorem word_append (tables : Tables) (line : Nat) (y : Bytes)
    (h : EndsLine (c :: rest)) (hc : CharClass.isWord c = true) :
    TokenContinues y (c :: rest).length (word tables line (c :: rest))
      (word tables line (c :: rest ++ y)) := by
  have hname := span_readsSame (p := CharClass.isWord) (by decide) y h
  have hlt : ((c :: rest).span CharClass.isWord).2.length < (c :: rest).length := span_lt hc
  obtain ⟨hend, -, hsame⟩ := hname
  unfold word
  rw [hsame]
  cases hspan : (c :: rest).span CharClass.isWord with | mk name after =>
  rw [hspan] at hlt hend
  dsimp only at hlt hend ⊢
  have hhead : (after ++ y).head? = after.head? := List.head?_append_of_ne_nil _ hend.ne_nil
  rw [hhead]
  by_cases hquote : after.head? = some 0x22
  · rw [if_pos hquote, if_pos hquote]
    exact (prefixed_append tables name line y hend hquote).mono (Nat.le_of_lt hlt)
  · rw [if_neg hquote, if_neg hquote]
    by_cases hblank : name = [0x5f]
    · rw [if_pos hblank, if_pos hblank]
      exact ⟨rfl, hlt, by simp, .inl hend⟩
    · rw [if_neg hblank, if_neg hblank]
      cases tables.keywords.lookup name with
      | some k => exact ⟨rfl, hlt, by simp, .inl hend⟩
      | none => exact ⟨rfl, hlt, by simp, .inl hend⟩

theorem number_append (line : Nat) (y : Bytes) (h : EndsLine (c :: rest))
    (hc : CharClass.ofByte c = .digit) :
    TokenContinues y (c :: rest).length (number line (c :: rest))
      (number line (c :: rest ++ y)) := by
  have hlt := Numeral.read_lt h hc
  obtain ⟨hend, -, hsame⟩ := Numeral.read_readsSame y h
  unfold number
  rw [hsame]
  cases hread : Numeral.read (c :: rest) with | mk r after =>
  rw [hread] at hlt hend
  cases r with
  | ok v => exact ⟨rfl, hlt, by simp, .inl hend⟩
  | error cause => exact .inr rfl

theorem text_append (line : Nat) (y : Bytes) (h : EndsLine rest) :
    TokenContinues y (rest.length + 1) (text line rest) (text line (rest ++ y)) := by
  unfold text
  obtain hcut | ⟨hsame, hend, hle⟩ := @chunk_append 0x22 (by decide) false y 0 line rest h
    (List.length_pos_iff.2 h.ne_nil)
  · obtain ⟨f, hf, hincomplete⟩ := ChunkEnd.failure?_of_isCutOff hcut line
      (chunk 0x22 false 0 line rest).place
    simp only [hf]
    exact .inl hincomplete
  · rw [hsame]
    dsimp only [Chunk.followedBy]
    rw [ChunkEnd.failure?_followedBy]
    cases (chunk 0x22 false 0 line rest).stop.failure? line (chunk 0x22 false 0 line rest).place with
    | some f => exact .inr rfl
    | none => exact ⟨rfl, Nat.lt_succ_of_le hle, by simp, .inl hend⟩

theorem delimiter_ne_endOfInput (c : UInt8) : delimiter c ≠ .endOfInput := by
  unfold delimiter
  split_ifs <;> simp

theorem colon_ne_endOfInput (text : Bytes) : (colon text).1 ≠ .endOfInput := by
  unfold colon
  split <;> simp

end Scan

theorem scanPlain_append (tables : Tables) (y : Bytes) {place : Place} (h : EndsLine place.rest) :
    TokenContinues y place.rest.length (scanPlain tables place)
      (scanPlain tables (place.followedBy y)) := by
  obtain ⟨text, line⟩ := place
  match text, h with
  | c :: rest, h =>
    -- all but the first case leave the line feed at the end where it is
    have htail : CharClass.ofByte c ≠ .newline → EndsLine rest := by
      intro hc
      refine h.tail ?_
      rintro rfl
      exact hc (by decide)
    unfold scanPlain
    simp only [Place.followedBy, List.cons_append]
    cases hc : CharClass.ofByte c with
    | newline => exact ⟨rfl, by simp, by simp, h.tail_or.symm.imp_right fun he => ⟨he, rfl⟩⟩
    | alpha => exact Scan.word_append tables line y h (by simp [CharClass.isWord, hc])
    | digit => exact Scan.number_append line y h hc
    | operator =>
      have hop : CharClass.isOperator c = true := by simp [CharClass.isOperator, hc]
      obtain ⟨hend, -, hsame⟩ := span_readsSame (p := CharClass.isOperator) (by decide) y h
      rw [List.cons_append] at hsame
      simp only [hsame]
      exact ⟨rfl, span_lt hop, by simp, .inl hend⟩
    | delimiter =>
      have hrest := htail (by simp [hc])
      exact ⟨rfl, by simp, by simpa using Scan.delimiter_ne_endOfInput c, .inl hrest⟩
    | colon =>
      obtain ⟨hend, hle, hsame⟩ := Scan.colon_readsSame y (htail (by simp [hc]))
      simp only [hsame]
      exact ⟨rfl, Nat.lt_succ_of_le hle, by simpa using Scan.colon_ne_endOfInput rest, .inl hend⟩
    | doubleQuote => exact Scan.text_append line y (htail (by simp [hc]))
    | space | singleQuote | other => exact .inr rfl

end StagedScript
