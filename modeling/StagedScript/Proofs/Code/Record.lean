import StagedScript.Code.Record
import StagedScript.Proofs.Code.Labels

/-!
# Records of functions

A function whose code comes from builders can be recorded unless one of its constants cannot, and
then it is read back from its record as it was: the blocks are found again, because a builder fills
every block but the last one.
-/

namespace StagedScript

/-- A constant can be recorded: a number, a text or a name, or a tuple of such constants. -/
inductive Value.IsRecordable : Value → Prop where
  | nil : IsRecordable .nil
  | bool (b : Bool) : IsRecordable (.bool b)
  | int (n : Int64) : IsRecordable (.int n)
  | real (x : Real64) : IsRecordable (.real x)
  | complex (re im : Real64) : IsRecordable (.complex re im)
  | str (s : Bytes) : IsRecordable (.str s)
  | bytes (s : Bytes) : IsRecordable (.bytes s)
  | sym (name : Bytes) : IsRecordable (.sym name)
  | method (name : Bytes) : IsRecordable (.method name)
  | tuple {elems : List Value} (elem : ∀ v ∈ elems, IsRecordable v) : IsRecordable (.tuple elems)

/-- A value is a constant of a function, or of a function nested in it. -/
inductive Func.HasConstant : Func → Value → Prop where
  | own {fn : Func} {code : Code} {block : List Inst} {i : Inst} (code_eq : fn.code = some code)
      (mem_blocks : block ∈ code.blocks) (mem_block : i ∈ block) (has : i.hasConstant = true) :
      HasConstant fn i.value
  | nested {fn g : Func} {code : Code} {block : List Inst} {i : Inst} {v : Value}
      (code_eq : fn.code = some code) (mem_blocks : block ∈ code.blocks) (mem_block : i ∈ block)
      (func : i.func = some g) (inner : HasConstant g v) : HasConstant fn v

/-- An operation is known by its number, and has a constant only if it takes one. -/
structure Inst.IsRegular (i : Inst) : Prop where
  op : Opcode.ofCode i.op.code = i.op
  value : i.hasConstant = false → i.value = .nil

/-- The blocks of code are found again from its instructions, which are regular. -/
structure Code.IsRegular (code : Code) : Prop where
  blockSize : 0 < code.blockSize
  blocks : blocksFrom code.blockSize.toNat 0 code.blocks.flatten = code.blocks
  inst : ∀ block ∈ code.blocks, ∀ i ∈ block, i.IsRegular

/-- The code of a function and of the functions nested in it is regular. -/
inductive Func.IsRegular : Func → Prop where
  | mk {fn : Func} {code : Code} (code_eq : fn.code = some code) (regular : code.IsRegular)
      (nested : ∀ block ∈ code.blocks, ∀ i ∈ block, ∀ g, i.func = some g → IsRegular g) :
      IsRegular fn

/-- The code of a function and of those nested in it comes from builders.  Only operations that take
a constant have one. -/
inductive Func.IsBuilt : Func → Prop where
  | mk {fn : Func} {code : Code} {blockSize : Int} {requests : List Builder.Request} {b : Builder}
      (code_eq : fn.code = some code) (run : (Builder.empty blockSize).performAll requests = some b)
      (emits : Builder.emitted requests ≠ 0) (finish : b.finish = .ok code)
      (op : ∀ block ∈ code.blocks, ∀ i ∈ block, Opcode.ofCode i.op.code = i.op)
      (value : ∀ block ∈ code.blocks, ∀ i ∈ block, i.hasConstant = false → i.value = .nil)
      (nested : ∀ block ∈ code.blocks, ∀ i ∈ block, ∀ g, i.func = some g → IsBuilt g) : IsBuilt fn

/-! ### Constants -/

mutual

/-- A constant that can be recorded is read back from its record, and any other has none. -/
theorem ValueRecord.ofValue_spec :
    ∀ v : Value, (v.IsRecordable ∧ ∃ r, ofValue v = .ok r ∧ r.value = .ok v) ∨
      ¬ v.IsRecordable ∧ ∃ type, ofValue v = .error type
  | .nil => .inl ⟨.nil, _, rfl, rfl⟩
  | .bool b => .inl ⟨.bool b, _, rfl, rfl⟩
  | .int n => .inl ⟨.int n, _, rfl, by simp [ValueRecord.value, pure, Except.pure]⟩
  | .real x => .inl ⟨.real x, _, rfl, rfl⟩
  | .complex re im => .inl ⟨.complex re im, _, rfl, rfl⟩
  | .str s => .inl ⟨.str s, _, rfl, rfl⟩
  | .bytes s => .inl ⟨.bytes s, _, rfl, rfl⟩
  | .method name => .inl ⟨.method name, _, rfl, rfl⟩
  | .sym name => .inl ⟨.sym name, _, rfl, rfl⟩
  | .tuple elems => by
    rcases ValueRecord.ofValues_spec elems with ⟨helems, rs, hrs, hvalues⟩ | ⟨helems, type, htype⟩
    · refine .inl ⟨.tuple helems, { kind := 7, elems := rs }, ?_, ?_⟩
      · simp [ofValue, hrs, bind, Except.bind, pure, Except.pure]
      · simp [ValueRecord.value, hvalues, bind, Except.bind, pure, Except.pure]
    · refine .inr ⟨?_, type, ?_⟩
      · rintro ⟨⟩
        exact helems ‹_›
      · simp [ofValue, htype, bind, Except.bind]
  | .list _ | .map _ | .error .. | .closure .. | .func _ | .builtin .. | .expander .. | .space _
  | .expr _ | .forward .. | .cell _ | .iterator _ | .buffer _ => .inr ⟨nofun, _, rfl⟩

theorem ValueRecord.ofValues_spec :
    ∀ vs : List Value,
      ((∀ v ∈ vs, v.IsRecordable) ∧ ∃ rs, ofValues vs = .ok rs ∧ valuesOfRecords rs = .ok vs) ∨
      ¬ (∀ v ∈ vs, v.IsRecordable) ∧ ∃ type, ofValues vs = .error type
  | [] => .inl ⟨List.forall_mem_nil _, [], rfl, rfl⟩
  | v :: vs => by
    rcases ValueRecord.ofValue_spec v with ⟨hv, r, hr, hvalue⟩ | ⟨hv, type, htype⟩
    · rcases ValueRecord.ofValues_spec vs with ⟨hvs, rs, hrs, hvalues⟩ | ⟨hvs, type, htype⟩
      · refine .inl ⟨List.forall_mem_cons.2 ⟨hv, hvs⟩, r :: rs, ?_, ?_⟩
        · simp [ofValues, hr, hrs, bind, Except.bind, pure, Except.pure]
        · simp [valuesOfRecords, hvalue, hvalues, bind, Except.bind, pure, Except.pure]
      · refine .inr ⟨fun h => hvs (List.forall_mem_cons.1 h).2, type, ?_⟩
        simp [ofValues, hr, htype, bind, Except.bind]
    · refine .inr ⟨fun h => hv (List.forall_mem_cons.1 h).1, type, ?_⟩
      simp [ofValues, htype, bind, Except.bind]

end

/-! ### Instructions -/

variable {source : Bytes} {i : Inst} {insts : List Inst} {blocks : List (List Inst)} {fn : Func}

theorem recordInst_lossless (address : Int) (hregular : i.IsRegular)
    (hconstant : i.hasConstant = true → i.value.IsRecordable)
    (hfunc : ∀ g, i.func = some g → ∃ r, g.record = .ok r ∧ r.func = .ok g) :
    ∃ r, recordInst source address i = .ok r ∧ r.inst = .ok i := by
  obtain ⟨hop, hvalue⟩ := hregular
  obtain ⟨op, line, target, count, value, chars, decls, table, func⟩ := i
  dsimp only at hop hvalue hconstant hfunc
  obtain ⟨f, hf, hfunc⟩ : ∃ f, recordFunc func = .ok f ∧ optionalFunc f = .ok func := by
    cases func with
    | none => exact ⟨none, rfl, rfl⟩
    | some g =>
      obtain ⟨r, hr, hg⟩ := hfunc g rfl
      exact ⟨some r, by simp [recordFunc, hr, bind, Except.bind, pure, Except.pure],
        by simp [optionalFunc, hg, bind, Except.bind, pure, Except.pure]⟩
  by_cases hhas : (Inst.plain line op).hasConstant = true
  · rcases ValueRecord.ofValue_spec value with ⟨-, v, hv, hread⟩ | ⟨hnot, -⟩
    · refine ⟨_, by simp only [recordInst, hhas, hv, hf]; rfl, ?_⟩
      simp [InstRecord.inst, hread, hfunc, hop, bind, Except.bind, pure, Except.pure]
    · exact absurd (hconstant hhas) hnot
  · obtain rfl := hvalue (Bool.eq_false_iff.2 hhas)
    refine ⟨_, by simp only [recordInst, hhas, hf]; rfl, ?_⟩
    simp [InstRecord.inst, hfunc, hop, bind, Except.bind, pure, Except.pure]

theorem recordBlock_lossless (address : Int)
    (h : ∀ i ∈ insts, ∀ address, ∃ r, recordInst source address i = .ok r ∧ r.inst = .ok i) :
    ∃ rs, recordBlock source address insts = .ok rs ∧ instsOfRecords rs = .ok insts := by
  induction insts generalizing address with
  | nil => exact ⟨[], rfl, rfl⟩
  | cons i rest ih =>
    obtain ⟨hi, hrest⟩ := List.forall_mem_cons.1 h
    obtain ⟨r, hr, hinst⟩ := hi address
    obtain ⟨rs, hrs, hinsts⟩ := ih (wrapInt (address + 1)) hrest
    exact ⟨r :: rs, by simp [recordBlock, hr, hrs, bind, Except.bind, pure, Except.pure],
      by simp [instsOfRecords, hinst, hinsts, bind, Except.bind, pure, Except.pure]⟩

theorem instsOfRecords_append {rs rs' : List InstRecord} {is is' : List Inst}
    (h : instsOfRecords rs = .ok is) (h' : instsOfRecords rs' = .ok is') :
    instsOfRecords (rs ++ rs') = .ok (is ++ is') := by
  induction rs generalizing is with
  | nil =>
    cases h
    exact h'
  | cons r rs ih =>
    cases hi : r.inst with
    | error e => simp [instsOfRecords, hi, bind, Except.bind] at h
    | ok i =>
      cases his : instsOfRecords rs with
      | error e => simp [instsOfRecords, hi, his, bind, Except.bind] at h
      | ok is =>
        simp [instsOfRecords, hi, his, bind, Except.bind, pure, Except.pure] at h
        simp [instsOfRecords, hi, ih his, ← h, bind, Except.bind, pure, Except.pure]

theorem recordBlocks_lossless (size first : Int)
    (h : ∀ block ∈ blocks, ∀ i ∈ block, ∀ address,
      ∃ r, recordInst source address i = .ok r ∧ r.inst = .ok i) :
    ∃ rs, recordBlocks source size first blocks = .ok rs ∧
      instsOfRecords rs = .ok blocks.flatten := by
  induction blocks generalizing first with
  | nil => exact ⟨[], rfl, rfl⟩
  | cons block rest ih =>
    obtain ⟨hblock, hrest⟩ := List.forall_mem_cons.1 h
    obtain ⟨rs, hrs, hinsts⟩ := recordBlock_lossless first hblock
    obtain ⟨rs', hrs', hinsts'⟩ := ih (wrapInt (first + size)) hrest
    exact ⟨rs ++ rs', by simp [recordBlocks, hrs, hrs', bind, Except.bind, pure, Except.pure],
      instsOfRecords_append hinsts hinsts'⟩

/-! ### Failures -/

theorem recordBlock_fails (address : Int) (hi : i ∈ insts)
    (h : ∀ address, ∃ u, recordInst source address i = .error u) :
    ∃ u, recordBlock source address insts = .error u := by
  induction insts generalizing address with
  | nil => cases hi
  | cons j rest ih =>
    simp only [recordBlock]
    cases hj : recordInst source address j with
    | error u => exact ⟨u, rfl⟩
    | ok r =>
      rcases List.mem_cons.1 hi with rfl | hi
      · obtain ⟨u, hu⟩ := h address
        rw [hj] at hu
        cases hu
      · obtain ⟨u, hu⟩ := ih (wrapInt (address + 1)) hi
        exact ⟨u, by simp [hu, bind, Except.bind]⟩

theorem recordBlocks_fails (size first : Int) {block : List Inst} (hblock : block ∈ blocks)
    (hi : i ∈ block) (h : ∀ address, ∃ u, recordInst source address i = .error u) :
    ∃ u, recordBlocks source size first blocks = .error u := by
  induction blocks generalizing first with
  | nil => cases hblock
  | cons block' rest ih =>
    simp only [recordBlocks]
    cases hrecord : recordBlock source first block' with
    | error u => exact ⟨u, rfl⟩
    | ok rs =>
      rcases List.mem_cons.1 hblock with rfl | hblock
      · obtain ⟨u, hu⟩ := recordBlock_fails first hi h
        rw [hrecord] at hu
        cases hu
      · obtain ⟨u, hu⟩ := ih (wrapInt (first + size)) hblock
        exact ⟨u, by simp [hu, bind, Except.bind]⟩

namespace Func

/-- A function has no record if one of its instructions has none, wherever it stands. -/
theorem record_fails {code : Code} {block : List Inst} (hcode : fn.code = some code)
    (hblock : block ∈ code.blocks) (hi : i ∈ block)
    (h : ∀ source address, ∃ u, recordInst source address i = .error u) :
    ∃ u, fn.record = .error u := by
  obtain ⟨source, _, _, _, _, _, _, _, _, _, _⟩ := fn
  obtain ⟨size, blocks⟩ := code
  dsimp only at hcode hblock
  obtain ⟨u, hu⟩ := recordBlocks_fails size 0 hblock hi (h source)
  exact ⟨u, by simp [hcode, Func.record, recordCode, hu, bind, Except.bind]⟩

/-- An error deep inside nested functions is an error of the outermost one. -/
theorem HasConstant.record_fails {v : Value} (h : fn.HasConstant v)
    (hv : ¬ v.IsRecordable) : ∃ u, fn.record = .error u := by
  induction h with
  | @own fn code block i hcode hblock hi hhas =>
    refine Func.record_fails hcode hblock hi fun source address => ?_
    obtain ⟨op, line, target, count, value, chars, decls, table, func⟩ := i
    have hhas : (Inst.plain line op).hasConstant = true := hhas
    rcases ValueRecord.ofValue_spec value with ⟨hvalue, -⟩ | ⟨-, type, htype⟩
    · exact absurd hvalue hv
    · exact ⟨_, by simp only [recordInst, hhas, htype]; rfl⟩
  | @nested fn g code block i v hcode hblock hi hfunc _ ih =>
    refine Func.record_fails hcode hblock hi fun source address => ?_
    obtain ⟨u, hu⟩ := ih hv
    obtain ⟨op, line, target, count, value, chars, decls, table, func⟩ := i
    dsimp only at hfunc
    have hf : recordFunc func = .error u := by simp [hfunc, recordFunc, hu, bind, Except.bind]
    by_cases hhas : (Inst.plain line op).hasConstant = true
    · rcases ValueRecord.ofValue_spec value with ⟨-, r, hr, -⟩ | ⟨-, type, htype⟩
      · exact ⟨u, by simp only [recordInst, hhas, hr, hf]; rfl⟩
      · exact ⟨_, by simp only [recordInst, hhas, htype]; rfl⟩
    · exact ⟨u, by simp only [recordInst, hhas, hf]; rfl⟩

end Func

/-! ### Blocks -/

namespace Builder

theorem flatten_consFirst (i : Inst) (blocks : List (List Inst)) :
    (consFirst i blocks).flatten = i :: blocks.flatten := by
  cases blocks <;> rfl

/-- The blocks of a layout are found again from their instructions. -/
theorem blocksFrom_layout {size : Nat} (hsize : 2 ≤ size) (insts : List Inst) (block : Nat)
    {used : Nat} (hused : used < size) (hne : insts ≠ []) :
    blocksFrom size used (layout size block used insts).flatten = layout size block used insts := by
  induction insts generalizing block used with
  | nil => exact absurd rfl hne
  | cons i rest ih =>
    -- An empty rest has a block of its own, which takes the instruction.
    have hcons : ∀ (block : Nat) {used : Nat}, used < size →
        consFirst i (blocksFrom size used (layout size block used rest).flatten) =
          consFirst i (layout size block used rest) := by
      intro block used hused
      cases rest with
      | nil => rfl
      | cons j rest => rw [ih block hused (List.cons_ne_nil _ _)]
    unfold layout
    split
    next hfull =>
      rw [List.flatten_cons, flatten_consFirst, List.singleton_append, blocksFrom,
        if_pos (by omega), blocksFrom, if_neg (by omega), hcons _ (by omega)]
    next hroom =>
      rw [flatten_consFirst, blocksFrom, if_neg (by omega), hcons _ (by omega)]

theorem blocksFrom_codeOf {size : Nat} (hsize : 2 ≤ size) {insts : List Inst} (hne : insts ≠ []) :
    0 < (codeOf size insts).blockSize ∧
      blocksFrom (codeOf size insts).blockSize.toNat 0 (codeOf size insts).blocks.flatten =
        (codeOf size insts).blocks :=
  ⟨Int.natCast_pos.2 (by omega), blocksFrom_layout hsize _ 0 (by omega) hne⟩

theorem blocksFrom_finish {blockSize : Int} {requests : List Request} {b : Builder} {code : Code}
    (hrun : (empty blockSize).performAll requests = some b) (hne : emitted requests ≠ 0)
    (hcode : b.finish = .ok code) :
    0 < code.blockSize ∧ blocksFrom code.blockSize.toNat 0 code.blocks.flatten = code.blocks := by
  have hsize := two_le_blockSize hrun
  have hresolved : b.resolved.toList ≠ [] := by
    rw [resolved_eq hrun, ← List.length_pos_iff, length_filterMap_resolved?]
    exact Nat.pos_of_ne_zero hne
  cases finish_eq_ok hcode
  exact blocksFrom_codeOf hsize hresolved

end Builder

/-! ### Functions -/

namespace Func

/-- A regular function is read back from its record if its constants can be recorded. -/
theorem IsRegular.exists_record (h : fn.IsRegular)
    (hconstants : ∀ v, fn.HasConstant v → v.IsRecordable) :
    ∃ r, fn.record = .ok r ∧ r.func = .ok fn := by
  induction h with
  | @mk fn code hcode hregular _ ih =>
    obtain ⟨hsize, hblocks, hinsts⟩ := hregular
    have hinst : ∀ block ∈ code.blocks, ∀ i ∈ block, ∀ address,
        ∃ r, recordInst fn.source address i = .ok r ∧ r.inst = .ok i := by
      intro block hblock i hi address
      refine recordInst_lossless address (hinsts block hblock i hi)
        (fun hhas => hconstants _ (.own hcode hblock hi hhas)) fun g hg => ?_
      exact ih block hblock i hi g hg fun v hv => hconstants v (.nested hcode hblock hi hg hv)
    obtain ⟨rs, hrs, hinsts⟩ := recordBlocks_lossless code.blockSize 0 hinst
    obtain ⟨source, _, _, _, _, _, _, _, _, _, _⟩ := fn
    obtain ⟨size, blocks⟩ := code
    dsimp only at hcode hsize hblocks hrs
    refine ⟨_, by simp [hcode, Func.record, recordCode, hrs, bind, Except.bind]; rfl, ?_⟩
    simp [hcode, FuncRecord.func, Int.not_le.2 hsize, hinsts, hblocks, bind, Except.bind, pure,
      Except.pure]

theorem IsRegular.func_of_record (h : fn.IsRegular) {r : FuncRecord}
    (hr : fn.record = .ok r) : r.func = .ok fn := by
  obtain ⟨r', hr', hfunc⟩ := h.exists_record fun v hv => by
    by_contra hnot
    obtain ⟨u, hu⟩ := hv.record_fails hnot
    rw [hr] at hu
    cases hu
  cases hr.symm.trans hr'
  exact hfunc

theorem IsBuilt.isRegular (h : fn.IsBuilt) : fn.IsRegular := by
  induction h with
  | mk hcode hrun hemits hfinish hop hvalue _ ih =>
    obtain ⟨hsize, hblocks⟩ := Builder.blocksFrom_finish hrun hemits hfinish
    exact .mk hcode ⟨hsize, hblocks, fun block hblock i hi =>
      ⟨hop block hblock i hi, hvalue block hblock i hi⟩⟩ ih

theorem hasConstant_iff {code : Code} (hcode : fn.code = some code) {v : Value} :
    fn.HasConstant v ↔ ∃ block ∈ code.blocks, ∃ i ∈ block,
      (i.hasConstant = true ∧ i.value = v) ∨ ∃ g, i.func = some g ∧ g.HasConstant v := by
  constructor
  · rintro (⟨hcode', hblock, hi, hhas⟩ | ⟨hcode', hblock, hi, hfunc, hg⟩)
    · cases hcode.symm.trans hcode'
      exact ⟨_, hblock, _, hi, .inl ⟨hhas, rfl⟩⟩
    · cases hcode.symm.trans hcode'
      exact ⟨_, hblock, _, hi, .inr ⟨_, hfunc, hg⟩⟩
  · rintro ⟨block, hblock, i, hi, ⟨hhas, rfl⟩ | ⟨g, hfunc, hg⟩⟩
    · exact .own hcode hblock hi hhas
    · exact .nested hcode hblock hi hfunc hg

/-- Records lose nothing.  A function whose code comes from builders is read back from its record,
and it has no record if and only if one of its constants cannot be recorded. -/
theorem record_lossless {fn : Func} (hfn : fn.IsBuilt) :
    ((∀ v, fn.HasConstant v → v.IsRecordable) → ∃ r, fn.record = .ok r ∧ r.func = .ok fn) ∧
    ((∃ u, fn.record = .error u) ↔ ∃ v, fn.HasConstant v ∧ ¬ v.IsRecordable) := by
  refine ⟨hfn.isRegular.exists_record, ?_, ?_⟩
  · rintro ⟨u, hu⟩
    by_contra hall
    push Not at hall
    obtain ⟨r, hr, -⟩ := hfn.isRegular.exists_record hall
    rw [hu] at hr
    cases hr
  · rintro ⟨v, hv, hnot⟩
    exact hv.record_fails hnot

theorem record_lossless_of_nested_constant :
    let inner (v : Value) : Func := { (default : Func) with
      code := some ⟨4, [[{ Inst.plain 1 .const with value := v }, Inst.plain 1 .ret]]⟩ }
    let outer (v : Value) : Func := { (default : Func) with
      code := some ⟨4, [[{ Inst.plain 1 .closure with func := some (inner v) }, Inst.plain 1 .ret]]⟩ }
    (∃ r, (outer (.tuple [.int 1, .tuple []])).record = .ok r ∧
      r.func = .ok (outer (.tuple [.int 1, .tuple []]))) ∧
    ∃ u, (outer (.tuple [.int 1, .list []])).record = .error u := by
  intro inner outer
  have hinner : ∀ v, (inner v).IsBuilt := fun v =>
    .mk rfl (show (Builder.empty 4).performAll [.emit { Inst.plain 1 .const with value := v },
        .emit (Inst.plain 1 .ret)] = some _ from rfl) (Nat.succ_ne_zero _) rfl
      (by simp [Inst.plain, Opcode.code]; decide) (by simp [Inst.hasConstant, Inst.plain])
      (by simp [Inst.plain])
  have houter : ∀ v, (outer v).IsBuilt := fun v =>
    .mk rfl (show (Builder.empty 4).performAll
        [.emit { Inst.plain 1 .closure with func := some (inner v) },
        .emit (Inst.plain 1 .ret)] = some _ from rfl) (Nat.succ_ne_zero _) rfl
      (by simp [Inst.plain, Opcode.code]; decide) (by simp [Inst.plain])
      (by simpa [Inst.plain] using hinner v)
  have hconstant : ∀ v w, (outer v).HasConstant w ↔ w = v := by
    intro v w
    have hinner : (inner v).HasConstant w ↔ w = v := by
      rw [hasConstant_iff rfl, eq_comm]
      simp [Inst.hasConstant, Inst.plain]
    rw [hasConstant_iff rfl]
    simpa [Inst.hasConstant, Inst.plain] using hinner
  refine ⟨(record_lossless (houter _)).1 fun v hv => ?_,
    (record_lossless (houter _)).2.2 ⟨_, (hconstant _ _).2 rfl, ?_⟩⟩
  · rw [(hconstant _ _).1 hv]
    exact .tuple (by simp [Value.IsRecordable.int, Value.IsRecordable.tuple])
  · rintro (_ | _ | _ | _ | _ | _ | _ | _ | _ | h)
    cases h (.list []) (by simp)

end Func

end StagedScript
