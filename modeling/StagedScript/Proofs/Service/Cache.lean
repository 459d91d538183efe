import StagedScript.Proofs.Compile.Handler
import StagedScript.Proofs.Tree.Digest
import StagedScript.Service.Worker

/-!
# Workers with a cache

A worker with a cache answers like one without.  What the cache has under a key was compiled for
this key, and keys tell texts apart.  A function that cannot be recorded, or whose record cannot be
read, is compiled again.
-/

variable {fn : Func}

namespace StagedScript

/-! ### Compiled functions -/

theorem Func.sizeOf_lt_of_func {fn g : Func} {code : Code} {block : List Inst} {i : Inst}
    (hcode : fn.code = some code) (hblock : block ∈ code.blocks) (hi : i ∈ block)
    (hg : i.func = some g) : sizeOf g < sizeOf fn := by
  have hblock := List.sizeOf_lt_of_mem hblock
  have hi := List.sizeOf_lt_of_mem hi
  obtain ⟨_, _, _, _, _, _, _, _, _, _, _⟩ := fn
  obtain ⟨_, _, _, _, _, _, _, _, _⟩ := i
  obtain ⟨_, blocks⟩ := code
  dsimp only at hcode hg hblock
  subst hcode hg
  simp only [Func.mk.sizeOf_spec, Inst.mk.sizeOf_spec, Code.mk.sizeOf_spec,
    Option.some.sizeOf_spec] at *
  omega

/-- Records say everything about what a text compiles to. -/
theorem Compiler.isRegular_compileText {compiler : Compiler} (hglobals : compiler.globals.Sound)
    (hev : compiler.evaluator.Sound) {heap : Heap} (hheap : heap.Sound)
    (cancellation : Cancellation) (source text : Bytes)
    (hfn : (compiler.compileText heap cancellation source text).outcome = .func fn) :
    fn.IsRegular := by
  -- Functions inside of others are in the journal, too, and they are smaller.
  have all : ∀ n g, sizeOf g < n → (∃ r, (g, r) ∈ compiler.journal heap cancellation source text) →
      g.IsRegular := by
    intro n
    induction n with
    | zero => exact fun g hlt => absurd hlt (Nat.not_lt_zero _)
    | succ n ih =>
      rintro g hlt ⟨r, hr⟩
      obtain ⟨marks, bound, -, hmarked, -⟩ :=
        journal_recorded hglobals hev hheap cancellation source text hr
      obtain ⟨code, points, target, hlaid⟩ := hmarked.laidOut
      refine .mk hlaid.code_eq (hmarked.regular code hlaid.code_eq) fun block hblock i hi f hf => ?_
      have hsmaller := Func.sizeOf_lt_of_func hlaid.code_eq hblock hi hf
      refine ih f (by omega) ?_
      have hmem := hmarked.nested code hlaid.code_eq block hblock i hi f hf
      obtain ⟨⟨f, r⟩, hr, rfl⟩ := List.mem_map.1 hmem
      exact ⟨r, hr⟩
  exact all _ fn (Nat.lt_succ_self _)
    (exists_mem_journal hglobals hev hheap cancellation source text hfn)

/-! ### Keys -/

theorem Serial.Splits.of_last {c : UInt8} {u v : Bytes} (hu : c ∉ u) (hv : c ∉ v) :
    Splits (u ++ [c]) (v ++ [c]) (u = v) := by
  induction u generalizing v with
  | nil =>
    cases v with
    | nil => exact .of_length rfl fun _ => rfl
    | cons d v => exact .of_ne fun h => hv (h ▸ List.mem_cons_self)
  | cons d u ih =>
    cases v with
    | nil => exact .of_ne fun h => hu (h ▸ List.mem_cons_self)
    | cons e v =>
      rw [List.mem_cons, not_or] at hu hv
      by_cases hde : d = e
      · subst hde
        exact ((ih hu.2 hv.2).cons d).imp fun h => h ▸ rfl
      · exact .of_ne hde

namespace Bytes

theorem ofNat_inj {n m : Nat} (h : ofNat n = ofNat m) : n = m := by
  have hrepr : n.repr = m.repr := String.toByteArray_inj.1 (ByteArray.ext (Array.toList_inj.1 h))
  have hdigits : Nat.toDigits 10 n = Nat.toDigits 10 m := by
    rw [← Nat.toList_repr, ← Nat.toList_repr, hrepr]
  rw [← @Nat.ofDigitChars_toDigits 10 n (by omega) le_rfl, hdigits,
    Nat.ofDigitChars_toDigits (by omega) le_rfl]

/-- Numerals consist of digits, so there is no colon in them. -/
theorem colon_notMem_ofNat (n : Nat) : 58 ∉ ofNat n := by
  intro hmem
  have hbytes : ofNat n = (Nat.toDigits 10 n).flatMap String.utf8EncodeChar := by
    change (Nat.repr n).toByteArray.data.toList = _
    rw [Nat.repr_eq_ofList_toDigits, String.toByteArray_ofList, List.utf8Encode,
      List.data_toByteArray]
  rw [hbytes] at hmem
  obtain ⟨c, hc, hmem⟩ := List.mem_flatMap.1 hmem
  have hdigit := Nat.isDigit_of_mem_toDigits (by omega) (by omega) hc
  have hle : 48 ≤ c.val.toNat ∧ c.val.toNat ≤ 57 := by
    simpa [Char.isDigit, UInt32.le_iff_toNat_le] using hdigit
  rw [String.utf8EncodeChar, if_pos (by omega), List.mem_singleton] at hmem
  have hcolon : 58 = c.val.toNat % 256 := congrArg UInt8.toNat hmem
  omega

end Bytes

namespace Cache

open Serial (Splits)

theorem measured_splits (s t : Bytes) : Splits (measured s) (measured t) (s = t) := by
  refine ((Splits.of_last (Bytes.colon_notMem_ofNat _) (Bytes.colon_notMem_ofNat _)).append
    fun hlength => ?_).imp And.right
  exact .of_length (Bytes.ofNat_inj hlength) id

/-- What is hashed tells sources, texts and salts apart. -/
theorem keyText_inj {source text salt source' text' salt' : Bytes}
    (h : keyText source text salt = keyText source' text' salt') :
    source = source' ∧ text = text' ∧ salt = salt' := by
  have hsplits := ((measured_splits source source').append fun _ => measured_splits text text').append
    fun _ => measured_splits salt salt'
  obtain ⟨⟨⟨hsource, htext⟩, hsalt⟩, -⟩ := hsplits [] [] (by
    rw [List.append_nil, List.append_nil]
    exact h)
  exact ⟨hsource, htext, hsalt⟩

/-- Keys identify compilations: what is hashed is the same only for the same source, text and salt, so
one key belongs to two compilations only if two different texts have the same hash. -/
theorem keys_identify_compilations (source text salt source' text' salt' : Bytes) :
    (keyText source text salt = keyText source' text' salt' ↔
      source = source' ∧ text = text' ∧ salt = salt') ∧
    (keyOf source text salt = keyOf source' text' salt' →
      (source = source' ∧ text = text' ∧ salt = salt') ∨
      (keyText source text salt ≠ keyText source' text' salt' ∧
        Blake2b.hash (keyText source text salt) = Blake2b.hash (keyText source' text' salt'))) := by
  refine ⟨⟨keyText_inj, ?_⟩, fun hkey => ?_⟩
  · rintro ⟨rfl, rfl, rfl⟩
    rfl
  · by_cases htext : keyText source text salt = keyText source' text' salt'
    · exact .inl (keyText_inj htext)
    · exact .inr ⟨htext, hkey⟩

/-! ### Kept functions -/

section

variable {S : Type} [Backend S]

/-- What is found under a key was kept under it, and nothing is added. -/
theorem get_spec (c : Cache S) (key : Bytes) :
    (∀ {key' item}, Backend.find? (c.get key).2.items key' = some item →
      Backend.find? c.items key' = some item) ∧
    ∀ fn, (c.get key).1 = some fn → ∃ item r, Backend.find? c.items key = some item ∧
      Backend.read? (S := S) item.code = some r ∧ r.func = .ok fn := by
  unfold get
  split
  next => exact ⟨id, by simp⟩
  next item hitem =>
    split
    next => exact ⟨id, by simp⟩
    next =>
      split
      next => exact ⟨Backend.find?_erase, by simp⟩
      next fn hfn =>
        refine ⟨id, fun fn' hfn' => ?_⟩
        cases hfn'
        obtain ⟨r, hr, hfunc⟩ := Option.bind_eq_some_iff.1 hfn
        refine ⟨item, r, hitem, hr, ?_⟩
        cases hf : r.func <;> rw [hf] at hfunc <;> cases hfunc
        rfl

theorem put_eq_ok {c c' : Cache S} {key : Bytes} (h : c.put key fn = .ok c') :
    ∃ r, fn.record = .ok r ∧
      ∀ {key' item}, Backend.find? c'.items key' = some item →
        key' = key ∧ item.code = Backend.write (S := S) r ∨
          Backend.find? c.items key' = some item := by
  unfold put at h
  cases hr : fn.record with
  | error e =>
    rw [hr] at h
    cases h
  | ok r =>
    rw [hr] at h
    cases h
    exact ⟨r, rfl, fun hfind => (Backend.find?_insert hfind).imp_left fun ⟨hkey, hitem⟩ =>
      ⟨hkey, hitem ▸ rfl⟩⟩

end

end Cache

namespace Worker

variable {S : Type} [Cache.Backend S]

/-- What a worker answers to requests for texts of sources, one after the other. -/
def answers (w : Worker S) : List (Bytes × Bytes) → List (Except WorkFailure (Func × Heap))
  | [] => []
  | request :: rest =>
    let r := w.compile .never request.1 request.2
    r.1.map (fun found => (found.1, r.2.heap)) :: r.2.answers rest

def compiled (w : Worker S) (request : Bytes × Bytes) : Compiled :=
  w.compiler.compileText {} .never request.1 request.2

def keyOf (w : Worker S) (request : Bytes × Bytes) : Bytes :=
  Cache.keyFor S request.1 request.2 w.salt

/-- A cache has only what was compiled for the keys of some requests. -/
def Keeps (w : Worker S) (requests : List (Bytes × Bytes)) (c : Cache S) : Prop :=
  ∀ {key item}, Cache.Backend.find? c.items key = some item → ∃ t ∈ requests, ∃ fn r,
    key = w.keyOf t ∧ (w.compiled t).outcome = .func fn ∧ fn.record = .ok r ∧
      item.code = Cache.Backend.write (S := S) r

variable {w : Worker S} {requests : List (Bytes × Bytes)} {c : Cache S} {t : Bytes × Bytes}

theorem compile_of_cache_none (hcache : w.cache = none) (hrunning : w.isRunning = true) :
    w.compile .never t.1 t.2 = match (w.compiled t).outcome with
      | .func fn => (.ok (fn, false), { w with heap := heapOf fn (w.compiled t).heap })
      | .error e => (.error (.source e), w)
      | .stuck | .unfinished => (.error (.broken missingPart), w) := by
  have hask : Cancellation.never.ask.1 = false := rfl
  unfold compile find check submit compileText
  rw [hcache]
  simp only [hrunning, hask, Bool.not_true, Bool.false_eq_true, if_false]
  unfold compiled keep
  cases (w.compiler.compileText {} .never t.1 t.2).outcome <;> simp [hcache]

theorem compile_of_get_some (hget : (c.get (w.keyOf t)).1 = some fn) :
    compile { w with cache := some c } .never t.1 t.2 =
      (.ok (fn, true), { w with cache := some (c.get (w.keyOf t)).2, heap := {} }) := by
  unfold compile find
  unfold keyOf at hget ⊢
  simp only [hget]

/-- A text for which nothing is found is compiled, and the function is kept if it can be recorded. -/
theorem compile_of_get_none (hcache : w.cache = none) (hrunning : w.isRunning = true)
    (hget : (c.get (w.keyOf t)).1 = none) :
    ∃ c', compile { w with cache := some c } .never t.1 t.2 =
        ((w.compile .never t.1 t.2).1, { (w.compile .never t.1 t.2).2 with cache := some c' }) ∧
      ∀ {key item}, Cache.Backend.find? c'.items key = some item →
        Cache.Backend.find? c.items key = some item ∨ key = w.keyOf t ∧ ∃ fn r,
          (w.compiled t).outcome = .func fn ∧ fn.record = .ok r ∧
            item.code = Cache.Backend.write (S := S) r := by
  have hask : Cancellation.never.ask.1 = false := rfl
  have hitems := @(c.get_spec (w.keyOf t)).1
  rw [compile_of_cache_none hcache hrunning]
  obtain ⟨compiler, cache, salt, isRunning, heap⟩ := w
  subst hrunning
  unfold compile find check submit compileText
  unfold keyOf at *
  simp only [hget, hask, Bool.not_true, Bool.false_eq_true, if_false]
  unfold compiled keep
  cases hfn : (compiler.compileText {} .never t.1 t.2).outcome with
  | func fn =>
    dsimp only
    cases hput : (c.get (Cache.keyFor S t.1 t.2 salt)).2.put (Cache.keyFor S t.1 t.2 salt) fn with
    | error e => exact ⟨_, rfl, fun hfind => .inl (hitems hfind)⟩
    | ok c' =>
      obtain ⟨r, hr, hfinds⟩ := Cache.put_eq_ok hput
      refine ⟨_, rfl, fun hfind => ?_⟩
      obtain ⟨hkey, hcode⟩ | hfind := hfinds hfind
      · exact .inr ⟨hkey, fn, r, rfl, hr, hcode⟩
      · exact .inl (hitems hfind)
  | error | stuck | unfinished => exact ⟨_, rfl, fun hfind => .inl (hitems hfind)⟩

section

variable (hglobals : w.compiler.globals.Sound) (hev : w.compiler.evaluator.Sound)
  (hhash : ∀ s ∈ requests, ∀ t ∈ requests,
    Cache.Backend.hash (S := S) (Cache.keyText s.1 s.2 w.salt) =
        Cache.Backend.hash (S := S) (Cache.keyText t.1 t.2 w.salt) →
      Cache.keyText s.1 s.2 w.salt = Cache.keyText t.1 t.2 w.salt)
  (hcodec : ∀ t ∈ requests, ∀ fn r, (w.compiled t).outcome = .func fn → fn.record = .ok r →
    ∀ r', Cache.Backend.read? (S := S) (Cache.Backend.write (S := S) r) = some r' → r' = r)

include hglobals hev hhash hcodec

/-- A function that is found is the one that the text compiles to. -/
theorem Keeps.found (hkeeps : w.Keeps requests c) (ht : t ∈ requests)
    (hget : (c.get (w.keyOf t)).1 = some fn) :
    (w.compiled t).outcome = .func fn ∧ ∃ r, fn.record = .ok r := by
  obtain ⟨item, r', hfind, hread, hfunc⟩ := (c.get_spec _).2 fn hget
  obtain ⟨s, hs, fn', r, hkey, hfn', hr, hcode⟩ := hkeeps hfind
  -- What is kept under the key of the request was compiled for the same request.
  obtain ⟨hsource, htext, -⟩ := Cache.keyText_inj (hhash s hs t ht hkey.symm)
  obtain rfl : s = t := Prod.ext hsource htext
  rw [hcode] at hread
  obtain rfl := hcodec s ht fn' r hfn' hr r' hread
  have hregular := Compiler.isRegular_compileText hglobals hev Heap.empty_sound _ _ _ hfn'
  cases hfunc.symm.trans (hregular.func_of_record hr)
  exact ⟨hfn', r', hr⟩

theorem Keeps.compile_agrees (hkeeps : w.Keeps requests c) (hcache : w.cache = none)
    (hrunning : w.isRunning = true) (ht : t ∈ requests) :
    ∃ c', w.Keeps requests c' ∧
      (compile { w with cache := some c } .never t.1 t.2).1.map (·.1) =
        (w.compile .never t.1 t.2).1.map (·.1) ∧
      (compile { w with cache := some c } .never t.1 t.2).2 =
        { (w.compile .never t.1 t.2).2 with cache := some c' } := by
  cases hget : (c.get (w.keyOf t)).1 with
  | some fn =>
    obtain ⟨hfn, r, hr⟩ := hkeeps.found hglobals hev hhash hcodec ht hget
    refine ⟨(c.get (w.keyOf t)).2, fun hfind => hkeeps ((c.get_spec _).1 hfind), ?_⟩
    rw [compile_of_get_some hget, compile_of_cache_none hcache hrunning, hfn]
    -- Constants that can be recorded are not on the heap, so none is needed.
    exact ⟨rfl, by simp only [heapOf, hr]⟩
  | none =>
    obtain ⟨c', hcompile, hfinds⟩ := compile_of_get_none hcache hrunning hget
    refine ⟨c', fun hfind => ?_, by rw [hcompile], by rw [hcompile]⟩
    obtain hfind | ⟨hkey, fn, r, hfn, hr, hcode⟩ := hfinds hfind
    · exact hkeeps hfind
    · exact ⟨t, ht, fn, r, hkey, hfn, hr, hcode⟩

theorem Keeps.answers_agree (hkeeps : w.Keeps requests c) (hcache : w.cache = none)
    (hrunning : w.isRunning = true) {rest : List (Bytes × Bytes)} (hrest : rest ⊆ requests) :
    answers { w with cache := some c } rest = w.answers rest := by
  induction rest generalizing w c with
  | nil => rfl
  | cons t rest ih =>
    obtain ⟨ht, hrest⟩ := List.cons_subset.1 hrest
    obtain ⟨c', hkeeps', hresult, hworker⟩ :=
      hkeeps.compile_agrees hglobals hev hhash hcodec hcache hrunning ht
    obtain ⟨heap, hheap⟩ : ∃ heap, (w.compile .never t.1 t.2).2 = { w with heap } := by
      rw [compile_of_cache_none hcache hrunning]
      cases (w.compiled t).outcome with
      | func fn => exact ⟨_, rfl⟩
      | _ => exact ⟨w.heap, rfl⟩
    have hmap : ∀ r : Except WorkFailure (Func × Bool),
        r.map (fun found => (found.1, heap)) = (r.map (·.1)).map fun fn => (fn, heap) := by
      intro r
      cases r <;> rfl
    rw [hheap] at hworker
    unfold answers
    simp only [hworker, hheap, hmap, hresult]
    refine congrArg _ ?_
    exact @ih { w with heap } c' hglobals hev hhash hcodec hkeeps' hcache hrunning hrest

end

/-- A worker with a cache answers like one without, whatever the cache is built on, if no two of the
texts that are hashed for the requests collide, and the records of the functions that are compiled
for them are read back as they were written or not at all. -/
theorem cache_transparent {S : Type} [Cache.Backend S] {w : Worker S}
    (hglobals : w.compiler.globals.Sound) (hev : w.compiler.evaluator.Sound)
    (hrunning : w.isRunning = true) {c : Cache S} (hcache : w.cache = some c)
    (hempty : ∀ key, Cache.Backend.find? c.items key = none) {requests : List (Bytes × Bytes)}
    (hhash : ∀ s ∈ requests, ∀ t ∈ requests,
      Cache.Backend.hash (S := S) (Cache.keyText s.1 s.2 w.salt) =
          Cache.Backend.hash (S := S) (Cache.keyText t.1 t.2 w.salt) →
        Cache.keyText s.1 s.2 w.salt = Cache.keyText t.1 t.2 w.salt)
    (hcodec : ∀ t ∈ requests, ∀ fn r, (w.compiled t).outcome = .func fn → fn.record = .ok r →
      ∀ r', Cache.Backend.read? (S := S) (Cache.Backend.write (S := S) r) = some r' → r' = r) :
    w.answers requests = ({ w with cache := none } : Worker S).answers requests := by
  have hkeeps : Keeps { w with cache := none } requests c := by
    intro key item hfind
    cases (hempty key).symm.trans hfind
  rw [← Keeps.answers_agree (w := { w with cache := none }) hglobals hev hhash hcodec hkeeps rfl
    hrunning (List.Subset.refl _), ← hcache]

theorem cache_transparent_of_repeated_text :
    let w : Worker := { compiler := ⟨⟨.few, .standard⟩, .prelude, 4, .machine⟩, cache := some {} }
    ((w.compile .never "t" "7").2.find (Cache.keyOf "t" "7" [])).1.isSome = true ∧
    w.answers [("t", "7"), ("t", "7")] =
      ({ w with cache := none } : Worker).answers [("t", "7"), ("t", "7")] := by
  intro w
  have hfound : ((w.compile .never "t" "7").2.find (Cache.keyOf "t" "7" [])).1.isSome = true := by
    decide +kernel
  have hfn : (w.compiled ("t", "7")).outcome = .func ⟨"t", 1, 1, 0, 1, 0, 0, [], [], [],
      some ⟨4, [[{ Inst.plain 1 .const with value := .int 7 }, Inst.plain 1 .ret]]⟩⟩ := rfl
  refine ⟨hfound, cache_transparent Globals.prelude_sound Evaluator.machine_sound rfl rfl
    (fun _ => rfl) ?_ ?_⟩
  · simp
  · intro t ht fn r hfn' hr r' hread
    rw [List.mem_pair, or_self] at ht
    subst ht
    cases hfn.symm.trans hfn'
    cases hr
    cases hread
    rfl

end Worker

end StagedScript
