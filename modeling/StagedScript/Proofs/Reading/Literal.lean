import StagedScript.Proofs.Reading.Precedence

/-!
# Text literals

The body of a text literal is a row of bytes and escapes.  One scanner replaces the escapes on the
way to the closing quote, the other looks for the quote first and replaces the escapes of the raw
bytes afterwards.  Both go through the body in the same steps, and the printer writes each byte of
a text as one of them.
-/

namespace StagedScript

open Bytes (hexDigit hexNumber? hexValue? newline)

/-- A byte or an escape between quotes of the given kind, and what it stands for. -/
inductive Spelling (quote : UInt8) (embeds : Bool) : (written meaning : Bytes) → Prop
  | byte {c : UInt8} : c ≠ quote → c ≠ 0x5c → (c = 0x7b && embeds) = false →
      Spelling quote embeds [c] [c]
  | escape {c : UInt8} {digits meaning : Bytes} : Escape.Written c digits meaning →
      Spelling quote embeds (0x5c :: c :: digits) meaning

theorem chunk_skip (quote : UInt8) (embeds : Bool) (line : Nat) (front rest : Bytes) :
    chunk quote embeds front.length line (front ++ rest) = chunk quote embeds 0 line rest := by
  induction front with
  | nil => rfl
  | cons c front ih => rw [List.length_cons, List.cons_append, chunk, ih]

theorem Escape.replaceFrom_skip (front rest : Bytes) :
    replaceFrom front.length (front ++ rest) = replace rest := by
  induction front with
  | nil => rfl
  | cons c front ih => rw [List.length_cons, List.cons_append, replaceFrom, ih]

theorem rawText_digits (line : Nat) {digits : Bytes}
    (h : ∀ d ∈ digits, (hexValue? d).isSome = true) (rest : Bytes) :
    rawText false line (digits ++ rest) =
      ((rawText false line rest).1.map (digits ++ ·), (rawText false line rest).2) := by
  induction digits with
  | nil => simp
  | cons d digits ih =>
    have hd : d ≠ 0x22 ∧ d ≠ 0x5c ∧ d ≠ newline := by
      refine ⟨?_, ?_, ?_⟩ <;> rintro rfl <;> exact absurd (h _ List.mem_cons_self) (by decide)
    have hrest := ih fun x hx => h x (List.mem_cons_of_mem _ hx)
    simp [rawText, hd, hrest, Function.comp_def]

/-- What is read of a complete literal, and the place after it. -/
def Chunk.finished? (c : Chunk) : Option (Bytes × Place) :=
  match c.stop with
  | .closed | .brace => some (c.text, c.place)
  | .unfinished | .badEscape _ => none

/-- The text of a complete literal in double quotes, found by way of its raw bytes, and the place
after it. -/
def rawLiteral? (line : Nat) (s : Bytes) : Option (Bytes × Place) :=
  (rawText false line s).1.bind fun raw =>
    (Escape.replace raw).toOption.map (·, (rawText false line s).2)

theorem Chunk.finished?_prepend (front : Bytes) (c : Chunk) :
    (c.prepend front).finished? = c.finished?.map fun r => (front ++ r.1, r.2) := by
  obtain ⟨text, stop, place⟩ := c
  cases stop <;> rfl

theorem line_after (c : UInt8) (line : Nat) :
    (if c = newline then line + 1 else line) = line + [c].count newline := by
  by_cases hc : c = newline <;> simp [hc]

namespace Spelling

variable {quote : UInt8} {embeds : Bool} {written meaning : Bytes}

theorem chunk_append (h : Spelling quote embeds written meaning) (hquote : quote ≠ 0x5c)
    (line : Nat) (rest : Bytes) :
    chunk quote embeds 0 line (written ++ rest) =
      (chunk quote embeds 0 (line + written.count newline) rest).prepend meaning := by
  cases h with
  | @byte c hc hc' hbrace =>
    rw [List.singleton_append, chunk, if_neg hc, if_neg hc', if_neg (by simp [hbrace]), line_after]
  | @escape c digits _ h =>
    rw [List.cons_append, List.cons_append, chunk, if_neg hquote.symm, if_pos rfl,
      Escape.take_eq_ok.2 (h.decode_eq rest),
      List.count_cons_of_ne (by decide), List.count_eq_zero_of_not_mem h.newline_notMem]
    exact congrArg (Chunk.prepend meaning) (chunk_skip quote embeds line (c :: digits) rest)

variable (h : Spelling 0x22 false written meaning)
include h

theorem replace_append (rest : Bytes) :
    Escape.replace (written ++ rest) = (Escape.replace rest).map (meaning ++ ·) := by
  cases h with
  | byte hc hc' => simp [Escape.replace, Escape.replaceFrom, hc']
  | @escape c digits _ h =>
    rw [Escape.replace, List.cons_append, List.cons_append, Escape.replaceFrom, if_pos rfl,
      h.decode_eq]
    exact congrArg (Except.map (meaning ++ ·)) (Escape.replaceFrom_skip (c :: digits) rest)

theorem rawText_append (line : Nat) (rest : Bytes) :
    rawText false line (written ++ rest) =
      ((rawText false (line + written.count newline) rest).1.map (written ++ ·),
        (rawText false (line + written.count newline) rest).2) := by
  cases h with
  | byte hc hc' =>
    rw [List.singleton_append, ← line_after]
    simp [rawText, hc, hc']
  | @escape c digits _ h =>
    rw [List.count_cons_of_ne (by decide), List.count_eq_zero_of_not_mem h.newline_notMem]
    simp [rawText, rawText_digits line h.isSome rest, Function.comp_def, newline]

theorem rawLiteral?_append (line : Nat) (rest : Bytes) :
    rawLiteral? line (written ++ rest) =
      (rawLiteral? (line + written.count newline) rest).map fun r => (meaning ++ r.1, r.2) := by
  rw [rawLiteral?, h.rawText_append, rawLiteral?]
  cases (rawText false (line + written.count newline) rest).1 with
  | none => rfl
  | some raw =>
    simp only [Option.map_some, Option.bind_some, h.replace_append]
    cases Escape.replace raw <;> rfl

theorem length_pos : 0 < written.length := by cases h <;> exact Nat.succ_pos _

end Spelling

theorem rawText_eq {escaped : Bool} {line : Nat} {s raw : Bytes} {p : Place}
    (h : rawText escaped line s = (some raw, p)) : s = raw ++ 0x22 :: p.rest := by
  fun_induction rawText escaped line s generalizing raw with
  | case1 => cases h
  | case2 line c rest _ _ hrest ih | case4 line c rest _ _ _ hrest ih =>
    simp only [Prod.mk.injEq, Option.map_eq_some_iff] at h
    obtain ⟨⟨raw, rfl, rfl⟩, rfl⟩ := h
    rw [ih hrest, List.cons_append]
  | case3 =>
    cases h
    rfl

/-- A beginning of the text has no escape either, where the text has none. -/
theorem rawLiteral?_of_decode_error {line : Nat} {rest : Bytes} {cause : EscapeError}
    (h : Escape.decode rest = .error cause) : rawLiteral? line (0x5c :: rest) = none := by
  cases hraw : rawText true line rest with | mk raw p =>
  cases raw with
  | none => simp [rawLiteral?, rawText, hraw, newline]
  | some raw =>
    cases hr : Escape.decode raw with
    | ok r =>
      -- an escape that the raw bytes begin with is one of the text too
      obtain ⟨c, digits, after, he, rfl, -⟩ := Escape.decode_ok hr
      simp [rawText_eq hraw, he.decode_eq] at h
    | error e =>
      have hraw' : rawText false line (0x5c :: rest) = (some (0x5c :: raw), p) := by
        simp [rawText, hraw, newline]
      have herror : Escape.replace (0x5c :: raw) = .error e := by
        simp [Escape.replace, Escape.replaceFrom, hr]
      rw [rawLiteral?, hraw', Option.bind_some, herror]
      rfl

/-- Whether escapes are replaced on the way or afterwards, a literal has the same text and end. -/
theorem chunk_finished? (line : Nat) (s : Bytes) :
    (chunk 0x22 false 0 line s).finished? = rawLiteral? line s := by
  induction hn : s.length using Nat.strongRecOn generalizing line s with | ind n ih =>
  subst hn
  -- after a byte or an escape both go on in the same way, with less of the text left
  have step : ∀ {written meaning rest : Bytes}, Spelling 0x22 false written meaning →
      s = written ++ rest → (chunk 0x22 false 0 line s).finished? = rawLiteral? line s := by
    rintro written meaning rest hs rfl
    rw [hs.chunk_append (by decide), Chunk.finished?_prepend, hs.rawLiteral?_append,
      ih _ (by simp [hs.length_pos]) _ _ rfl]
  cases s with
  | nil => rfl
  | cons c rest =>
    by_cases hq : c = 0x22
    · subst hq
      rfl
    · by_cases hb : c = 0x5c
      · subst hb
        cases hd : Escape.decode rest with
        | error cause =>
          rw [rawLiteral?_of_decode_error hd, chunk, if_neg hq, if_pos rfl, Escape.take_eq, hd]
          rfl
        | ok r =>
          obtain ⟨d, digits, rest, he, rfl, -⟩ := Escape.decode_ok hd
          exact step (.escape he) rfl
      · exact step (.byte hq hb (by simp)) rfl

namespace Scan

variable {tables : Tables} {word : Bytes}

theorem toOption_eq_some_iff {x : Except ScanFailure (Lexeme × Place)} {r : Lexeme × Place} :
    x.toOption = some r ↔ x = .ok r := by
  cases x <;> simp [Except.toOption]

theorem text_toOption (line : Nat) (s : Bytes) :
    (text line s).toOption = (rawLiteral? line s).map fun r => (.value (.str r.1), r.2) := by
  rw [← chunk_finished?, text]
  generalize chunk 0x22 false 0 line s = c
  obtain ⟨text, stop, place⟩ := c
  cases stop <;> rfl

theorem prefixed_toOption {kind : PrefixKind} {value : Bytes → Value}
    (h : tables.prefixes.lookup word = some kind)
    (hread : ∀ raw, kind.read raw = (Escape.replace raw).map value) (line : Nat) (s : Bytes) :
    (prefixed tables word line (0x22 :: s)).toOption =
      (rawLiteral? line s).map fun r => (.value (value r.1), r.2) := by
  rw [prefixed, h, rawLiteral?, List.drop_succ_cons, List.drop_zero]
  cases rawText false line s with | mk raw place =>
  cases raw with
  | none => rfl
  | some raw =>
    simp only [hread, Option.bind_some]
    cases Escape.replace raw <;> rfl

/-- A literal means the same with or without a prefix for texts, and ends at the same place. -/
theorem text_ok_iff_prefixed_ok (h : tables.prefixes.lookup word = some .text) (line : Nat)
    (s : Bytes) (r : Lexeme × Place) :
    text line s = .ok r ↔ prefixed tables word line (0x22 :: s) = .ok r := by
  have hsame := (text_toOption line s).trans (prefixed_toOption h (fun _ => rfl) line s).symm
  rw [← toOption_eq_some_iff, hsame, toOption_eq_some_iff]

theorem text_ok_iff_prefixed_ok_escapes :
    (⟨KeywordTable.standard, PrefixTable.standard.insert "s" .text⟩ : Tables).prefixes.lookup "s" =
      some .text ∧
    prefixed ⟨KeywordTable.standard, PrefixTable.standard.insert "s" .text⟩ "s" 1
      (Bytes.ofString "\"\\x41\\\"\\u00e9\n\" rest") =
      .ok (.value (.str "A\"é\n"), ⟨" rest", 2⟩) :=
  ⟨rfl, (text_ok_iff_prefixed_ok rfl 1 _ _).1 rfl⟩

end Scan

/-! ### Printed literals -/

theorem hexNumber?_hexDigit {a b : Nat} (ha : a < 16) (hb : b < 16) :
    hexNumber? [hexDigit a, hexDigit b] = some (a * 16 + b) := by
  have h : ∀ n < 16, hexValue? (hexDigit n) = some n := by decide
  simp [hexNumber?, h a ha, h b hb]

section

variable {quote : UInt8} {embeds : Bool}
  (h : quote = 0x22 ∧ embeds = false ∨ quote = 0x27 ∧ embeds = true)
include h

theorem quoteChars_cons (c : UInt8) (s : Bytes) :
    ∃ written, (Spelling quote embeds written [c] ∧ newline ∉ written) ∧
      quoteChars quote (c :: s) = written ++ quoteChars quote s := by
  have hescape : ∀ {b : UInt8} {digits : Bytes}, Escape.Written b digits [c] →
      Spelling quote embeds (0x5c :: b :: digits) [c] ∧ newline ∉ 0x5c :: b :: digits :=
    fun hw => ⟨.escape hw, List.not_mem_cons_of_ne_of_not_mem (by decide) hw.newline_notMem⟩
  refine ⟨_, ?_, List.flatMap_cons⟩
  -- one case for each way to print a byte, in the order of the printer
  split_ifs with hc hbrace hn ht hr hx
  · refine hescape (.simple ?_)
    obtain ⟨rfl, -⟩ | ⟨rfl, -⟩ := h <;> obtain rfl | rfl : c = _ ∨ c = _ := by simpa using hc
    all_goals rfl
  · obtain ⟨rfl, -⟩ : c = 0x7b ∧ _ := by simpa using hbrace
    exact hescape (.simple rfl)
  · subst hn
    exact hescape (.simple rfl)
  · subst ht
    exact hescape (.simple rfl)
  · subst hr
    exact hescape (.simple rfl)
  · have hlt := c.toNat_lt
    have hc : c.toNat / 16 % 16 * 16 + c.toNat % 16 = c.toNat := by omega
    have hw := Escape.Written.byte
      (hexNumber?_hexDigit (Nat.mod_lt (c.toNat / 16) (by decide)) (Nat.mod_lt c.toNat (by decide)))
    rw [hc, show c.toNat.toUInt8 = c from UInt8.ofNat_toNat] at hw
    exact hescape hw
  · simp only [Bool.or_eq_true, decide_eq_true_eq, not_or] at hc
    refine ⟨.byte hc.2 hc.1 ?_, List.not_mem_cons_of_ne_of_not_mem (Ne.symm hn) (by simp)⟩
    obtain ⟨rfl, rfl⟩ | ⟨rfl, rfl⟩ := h <;> simp_all

theorem chunk_quoteChars (line : Nat) (s rest : Bytes) :
    chunk quote embeds 0 line (quoteChars quote s ++ quote :: rest) =
      ⟨s, .closed, ⟨rest, line⟩⟩ := by
  induction s with
  | nil => simp [quoteChars, chunk]
  | cons c s ih =>
    have hquote : quote ≠ 0x5c := by obtain ⟨rfl, -⟩ | ⟨rfl, -⟩ := h <;> decide
    obtain ⟨written, ⟨hs, hn⟩, he⟩ := quoteChars_cons h c s
    rw [he, List.append_assoc, hs.chunk_append hquote, List.count_eq_zero_of_not_mem hn,
      Nat.add_zero, ih]
    rfl

end

/-! ### Printed literals as tokens -/

namespace Place

variable {tables : Tables} {line : Nat} {s rest : Bytes}

theorem readsTo_of_scanPlain {p q : Place} {lexeme : Lexeme}
    (hgap : skipGap .blanks p.line p.rest = .ok p) (hquote : p.rest.head? ≠ some 0x27)
    (h : scanPlain tables p = .ok (lexeme, q)) : p.ReadsTo tables ⟨lexeme, p.line⟩ q := by
  rw [ReadsTo, Parser.scan_of_gap hgap, if_neg hquote, h]

theorem readsTo_doubleQuoted :
    ReadsTo tables ⟨0x22 :: (quoteChars 0x22 s ++ 0x22 :: rest), line⟩ ⟨.value (.str s), line⟩
      ⟨rest, line⟩ := by
  refine readsTo_of_scanPlain rfl (by simp) ?_
  change Scan.text line (quoteChars 0x22 s ++ 0x22 :: rest) = _
  rw [Scan.text, chunk_quoteChars (.inl ⟨rfl, rfl⟩)]
  rfl

theorem readsTo_bytes (h : tables.prefixes.lookup "b" = some .bytes) :
    ReadsTo tables ⟨0x62 :: 0x22 :: (quoteChars 0x22 s ++ 0x22 :: rest), line⟩
      ⟨.value (.bytes s), line⟩ ⟨rest, line⟩ := by
  have hread := Scan.prefixed_toOption h (fun _ => rfl) line (quoteChars 0x22 s ++ 0x22 :: rest)
  rw [← chunk_finished?, chunk_quoteChars (.inl ⟨rfl, rfl⟩)] at hread
  refine readsTo_of_scanPlain rfl (by simp) ?_
  change Scan.prefixed tables "b" line (0x22 :: (quoteChars 0x22 s ++ 0x22 :: rest)) = _
  exact Scan.toOption_eq_some_iff.1 hread

theorem readsTo_singleQuoted :
    ReadsTo tables ⟨0x27 :: (quoteChars 0x27 s ++ 0x27 :: rest), line⟩ ⟨.value (.str s), line⟩
      ⟨rest, line⟩ := by
  have htext : Parser.embeddedText [] none line 1 []
      { place := ⟨quoteChars 0x27 s ++ 0x27 :: rest, line⟩ } =
      .ok (.value (.str s)) { place := ⟨rest, line⟩ } := by
    rw [Parser.embeddedText, Parser.get_bind]
    simp only [chunk_quoteChars (.inr ⟨rfl, rfl⟩)]
    rfl
  rw [ReadsTo, Parser.scan_of_gap rfl]
  simp only [List.head?_cons, if_true, List.drop_succ_cons, List.drop_zero, htext]

end Place

theorem Parser.tokensFrom_of_scan {scan : ParseAction Token} {s s' : Parser} {t : Token}
    (hpeeked : s.peeked = none) (h : scan s = .ok t s') (fuel : Nat) :
    tokensFrom scan (fuel + 1) s =
      if t.kind = .endOfInput then ([t], none)
      else (t :: (tokensFrom scan fuel s').1, (tokensFrom scan fuel s').2) := by
  rw [tokensFrom, nextWith, get_bind, hpeeked]
  simp only [h]

/-- A text that is one literal is cut into the literal and the end. -/
theorem tokens_of_readsTo {tables : Tables} (source : Bytes) {text : Bytes} {v : Value}
    (h : Place.ReadsTo tables ⟨text, 1⟩ ⟨.value v, 1⟩ ⟨[], 1⟩) :
    tokens tables source text = ([⟨.value v, 1⟩, ⟨.sign .endOfInput, 1⟩], none) := by
  have hend : Place.ReadsTo tables ⟨[], 1⟩ ⟨.sign .endOfInput, 1⟩ ⟨[], 1⟩ := rfl
  have hfirst := fun embedded n =>
    (Parser.scan_of_readsTo (s := .start text) source embedded n rfl h).1
  have hlast := fun embedded n => (Parser.scan_of_readsTo
    (s := { Parser.start text with place := ⟨[], 1⟩ }) source embedded n rfl hend).1
  simp only [tokens, Parser.bound]
  rw [Parser.tokensFrom_of_scan rfl (hfirst _ _), if_neg (by simp [Token.kind]),
    Parser.tokensFrom_of_scan rfl (hlast _ _)]
  rfl

/-- A printed text or byte string is read back as one literal. -/
theorem tokens_printed {tables : Tables} (h : tables.prefixes.lookup "b" = some .bytes)
    (source s : Bytes) :
    tokens tables source ("\"" ++ quoteChars 0x22 s ++ "\"") =
      ([⟨.value (.str s), 1⟩, ⟨.sign .endOfInput, 1⟩], none) ∧
    tokens tables source ("'" ++ quoteChars 0x27 s ++ "'") =
      ([⟨.value (.str s), 1⟩, ⟨.sign .endOfInput, 1⟩], none) ∧
    tokens tables source ("b\"" ++ quoteChars 0x22 s ++ "\"") =
      ([⟨.value (.bytes s), 1⟩, ⟨.sign .endOfInput, 1⟩], none) :=
  ⟨tokens_of_readsTo source Place.readsTo_doubleQuoted,
    tokens_of_readsTo source Place.readsTo_singleQuoted,
    tokens_of_readsTo source (Place.readsTo_bytes h)⟩

/-- Bytes that are printed as escapes, the first before one that looks like a digit of it. -/
theorem tokens_printed_escapes :
    Tables.standard.prefixes.lookup "b" = some .bytes ∧
    tokens Tables.standard "t" ("'" ++ quoteChars 0x27 [1, 0x61, 0x0a, 0x27, 0x7b, 0x5c] ++ "'") =
      ([⟨.value (.str [1, 0x61, 0x0a, 0x27, 0x7b, 0x5c]), 1⟩, ⟨.sign .endOfInput, 1⟩], none) :=
  ⟨rfl, (tokens_printed rfl _ _).2.1⟩

end StagedScript
