import StagedScript.Proofs.Typing.Flow

/-!
# Sound values, expressions and functions

A value is *sound* if all functions in it are typed, all closures in it have as many captured values
as their functions use, and all expressions in it have the form that the reader gives them.  What is
sound stays so while a run adds captured values to the heap.
-/

namespace StagedScript

/-- How many captured values are found under each heap index. -/
abbrev CapturedCounts := Nat → Option Nat

/-- All captured values are still found, with as many or more indices in use. -/
def CapturedCounts.Extends (z z' : CapturedCounts) : Prop :=
  ∀ env n, z env = some n → z' env = some n

/-- The names that a statement binds are declared in its block, as slots unless the statement
defines constants. -/
def Binder.Declares (binder : Binder) (vars lets defs ds : List Decl) : Prop :=
  ds ≠ [] ∧ ∀ d ∈ ds, d.id ∈ (if binder = .constant then defs else vars ++ lets).map (·.id)

mutual

/-- All functions and expressions in a value are sound. -/
def Value.Sound (z : CapturedCounts) : Value → Prop
  | .tuple elems => Value.AllSound z elems
  | .list elems => Value.AllSound z elems
  | .map entries => Entry.AllSound z entries
  | .closure fn env => fn.Sound z ∧ z env = some fn.upvalues.length
  | .func fn => fn.Sound z
  | .builtin _ action => action.Sound z
  | .expander _ fn _ => fn.Sound z
  | .space members => Member.AllSound z members
  | .expr e => e.isAbsent = false ∧ e.Sound z
  | .nil | .bool _ | .int _ | .real _ | .complex .. | .str _ | .bytes _ | .sym _ | .method _
  | .error .. | .forward .. | .cell _ | .iterator _ | .buffer _ => True

def Value.AllSound (z : CapturedCounts) : List Value → Prop
  | [] => True
  | v :: vs => v.Sound z ∧ Value.AllSound z vs

def Entry.AllSound (z : CapturedCounts) : List Entry → Prop
  | [] => True
  | ⟨key, value⟩ :: es => key.Sound z ∧ value.Sound z ∧ Entry.AllSound z es

def Member.AllSound (z : CapturedCounts) : List Member → Prop
  | [] => True
  | ⟨_, value⟩ :: ms => value.Sound z ∧ Member.AllSound z ms

def Host.Sound (z : CapturedCounts) : Host → Prop
  | .give v => v.Sound z
  | _ => True

/-- An expression is as the reader makes it: the entries of a map are pairs, no declaration of a
block is both a slot and a constant, and names are bound by statements only. -/
def Expr.Sound (z : CapturedCounts) : Expr → Prop
  | .absent | .nil _ | .blank _ | .old _ | .next _ | .retry _ | .ident .. | .unquote .. => True
  | .value _ v => v.Sound z
  | .string _ parts => Expr.AllSound z parts
  | .assign _ target value => target.Sound z ∧ value.Sound z
  | .call _ fn args => fn.Sound z ∧ (∀ e ∈ args, e.isAbsent = false) ∧ Expr.AllSound z args
  | .constCall _ fn args => fn.Sound z ∧ Expr.AllSound z args
  | .resolve _ parent _ => parent.Sound z
  | .logic _ _ left right => left.Sound z ∧ right.Sound z
  | .not _ arg => arg.Sound z
  | .cond _ cases otherwise => CondCase.AllSound z cases ∧ otherwise.Sound z
  | .loop _ body => body.Sound z
  | .exit _ value => value.Sound z
  | .exitTest _ _ cond value => cond.Sound z ∧ value.Sound z
  | .forIn _ _ names unpack seq body otherwise =>
    (unpack = false → names.length = 1) ∧ seq.Sound z ∧ body.Sound z ∧ otherwise.Sound z
  | .each _ seq => seq.Sound z
  | .block _ vars lets defs body handlers =>
    (∀ d ∈ vars ++ lets, d.id ∉ defs.map (·.id)) ∧ Expr.StatementsSound z vars lets defs body ∧
      Handler.AllSound z handlers
  | .bind .. => False
  | .function _ params _ _ body => Param.AllSound z params ∧ body.Sound z
  | .method _ _ params _ body => Param.AllSound z params ∧ body.Sound z
  | .ret _ value => value.Sound z
  | .suspend _ key value => key.Sound z ∧ value.Sound z
  | .scoped _ _ values body => Expr.AllSound z values ∧ body.Sound z
  | .switch _ subject cases otherwise =>
    subject.Sound z ∧ Expr.AllSound z cases ∧ otherwise.Sound z
  | .select _ subject clauses otherwise =>
    subject.Sound z ∧ SelectClause.AllSound z clauses ∧ otherwise.Sound z
  | .sequence _ _ elems => Expr.AllSound z elems
  | .map _ entries =>
    (entries.length % 2 = 0 ∧ ∀ e ∈ entries, e.isAbsent = false) ∧ Expr.AllSound z entries
  | .inline _ value => value.Sound z
  | .quote _ body args => body.isAbsent = false ∧ body.Sound z ∧ Expr.AllSound z args
  | .generator _ value clauses => value.Sound z ∧ GenClause.AllSound z clauses

def Expr.AllSound (z : CapturedCounts) : List Expr → Prop
  | [] => True
  | e :: es => e.Sound z ∧ Expr.AllSound z es

/-- Statements are present, and those that bind names bind names of their block. -/
def Expr.StatementsSound (z : CapturedCounts) (vars lets defs : List Decl) : List Expr → Prop
  | [] => True
  | .bind _ binder _ ds value :: es =>
    binder.Declares vars lets defs ds ∧ value.Sound z ∧ Expr.StatementsSound z vars lets defs es
  | e :: es => e.isAbsent = false ∧ e.Sound z ∧ Expr.StatementsSound z vars lets defs es

def CondCase.AllSound (z : CapturedCounts) : List CondCase → Prop
  | [] => True
  | ⟨_, _, cond, body⟩ :: cs => cond.Sound z ∧ body.Sound z ∧ CondCase.AllSound z cs

def Handler.AllSound (z : CapturedCounts) : List Handler → Prop
  | [] => True
  | ⟨_, _, types, body⟩ :: hs => Expr.AllSound z types ∧ body.Sound z ∧ Handler.AllSound z hs

def SelectClause.AllSound (z : CapturedCounts) : List SelectClause → Prop
  | [] => True
  | ⟨_, _, values, body⟩ :: cs => Expr.AllSound z values ∧ body.Sound z ∧ SelectClause.AllSound z cs

def GenClause.AllSound (z : CapturedCounts) : List GenClause → Prop
  | [] => True
  | ⟨_, filter, _, names, unpack, seq⟩ :: cs =>
    (filter.isAbsent = true → unpack = false → names.length = 1) ∧ filter.Sound z ∧ seq.Sound z ∧
      GenClause.AllSound z cs

def Param.AllSound (z : CapturedCounts) : List Param → Prop
  | [] => True
  | ⟨_, _, type⟩ :: ps => type.Sound z ∧ Param.AllSound z ps

def Inst.AllSound (z : CapturedCounts) : List Inst → Prop
  | [] => True
  | ⟨_, _, _, _, value, _, _, _, none⟩ :: is => value.Sound z ∧ Inst.AllSound z is
  | ⟨_, _, _, _, value, _, _, _, some fn⟩ :: is =>
    value.Sound z ∧ fn.Sound z ∧ Inst.AllSound z is

def Inst.BlocksSound (z : CapturedCounts) : List (List Inst) → Prop
  | [] => True
  | b :: bs => Inst.AllSound z b ∧ Inst.BlocksSound z bs

/-- A function is typed, and so are all functions in its code. -/
def Func.Sound (z : CapturedCounts) : Func → Prop
  | ⟨source, startLine, endLine, entry, frameSize, numParams, flags, params, decls, upvalues,
      none⟩ =>
    Func.IsTyped ⟨source, startLine, endLine, entry, frameSize, numParams, flags, params, decls,
      upvalues, none⟩
  | ⟨source, startLine, endLine, entry, frameSize, numParams, flags, params, decls, upvalues,
      some ⟨blockSize, blocks⟩⟩ =>
    Func.IsTyped ⟨source, startLine, endLine, entry, frameSize, numParams, flags, params, decls,
      upvalues, some ⟨blockSize, blocks⟩⟩ ∧ Inst.BlocksSound z blocks

end

section

variable {z z' : CapturedCounts}

mutual

theorem Value.Sound.mono (hz : z.Extends z') : {v : Value} → v.Sound z → v.Sound z'
  | .tuple _, h | .list _, h => Value.AllSound.mono hz h
  | .map _, h => Entry.AllSound.mono hz h
  | .closure _ env, h => ⟨Func.Sound.mono hz h.1, hz env _ h.2⟩
  | .func _, h => Func.Sound.mono hz h
  | .builtin _ _, h => Host.Sound.mono hz h
  | .expander _ fn _, h => Value.Sound.mono (v := fn) hz h
  | .space _, h => Member.AllSound.mono hz h
  | .expr _, h => ⟨h.1, Expr.Sound.mono hz h.2⟩
  | .nil, _ | .bool _, _ | .int _, _ | .real _, _ | .complex .., _ | .str _, _ | .bytes _, _
  | .sym _, _ | .method _, _ | .error .., _ | .forward .., _ | .cell _, _ | .iterator _, _
  | .buffer _, _ => trivial

theorem Value.AllSound.mono (hz : z.Extends z') :
    {vs : List Value} → Value.AllSound z vs → Value.AllSound z' vs
  | [], _ => trivial
  | _ :: _, h => ⟨Value.Sound.mono hz h.1, Value.AllSound.mono hz h.2⟩

theorem Entry.AllSound.mono (hz : z.Extends z') :
    {es : List Entry} → Entry.AllSound z es → Entry.AllSound z' es
  | [], _ => trivial
  | ⟨_, _⟩ :: _, h => ⟨Value.Sound.mono hz h.1, Value.Sound.mono hz h.2.1, Entry.AllSound.mono hz h.2.2⟩

theorem Member.AllSound.mono (hz : z.Extends z') :
    {ms : List Member} → Member.AllSound z ms → Member.AllSound z' ms
  | [], _ => trivial
  | ⟨_, _⟩ :: _, h => ⟨Value.Sound.mono hz h.1, Member.AllSound.mono hz h.2⟩

theorem Host.Sound.mono (hz : z.Extends z') : {a : Host} → a.Sound z → a.Sound z'
  | .give _, h => Value.Sound.mono hz h
  | .tuple, _ | .list, _ | .string, _ | .raise, _ | .error, _ | .expander, _ | .first, _
  | .fail _, _ => trivial

theorem Expr.Sound.mono (hz : z.Extends z') : {e : Expr} → e.Sound z → e.Sound z'
  | .absent, _ | .nil _, _ | .blank _, _ | .old _, _ | .next _, _ | .retry _, _ | .ident .., _
  | .unquote .., _ => trivial
  | .value _ _, h => Value.Sound.mono hz h
  | .resolve _ e _, h | .not _ e, h | .loop _ e, h | .exit _ e, h | .each _ e, h | .ret _ e, h
  | .inline _ e, h => Expr.Sound.mono (e := e) hz h
  | .assign .., h | .logic .., h | .exitTest .., h | .suspend .., h =>
    ⟨Expr.Sound.mono hz h.1, Expr.Sound.mono hz h.2⟩
  | .call _ _ _, h => ⟨Expr.Sound.mono hz h.1, h.2.1, Expr.AllSound.mono hz h.2.2⟩
  | .constCall _ _ _, h => ⟨Value.Sound.mono hz h.1, Expr.AllSound.mono hz h.2⟩
  | .cond _ _ _, h => ⟨CondCase.AllSound.mono hz h.1, Expr.Sound.mono hz h.2⟩
  | .forIn .., h =>
    ⟨h.1, Expr.Sound.mono hz h.2.1, Expr.Sound.mono hz h.2.2.1, Expr.Sound.mono hz h.2.2.2⟩
  | .block .., h => ⟨h.1, Expr.StatementsSound.mono hz h.2.1, Handler.AllSound.mono hz h.2.2⟩
  | .bind .., h => h.elim
  | .function .., h | .method .., h => ⟨Param.AllSound.mono hz h.1, Expr.Sound.mono hz h.2⟩
  | .scoped .., h => ⟨Expr.AllSound.mono hz h.1, Expr.Sound.mono hz h.2⟩
  | .switch .., h => ⟨Expr.Sound.mono hz h.1, Expr.AllSound.mono hz h.2.1, Expr.Sound.mono hz h.2.2⟩
  | .select .., h =>
    ⟨Expr.Sound.mono hz h.1, SelectClause.AllSound.mono hz h.2.1, Expr.Sound.mono hz h.2.2⟩
  | .string .., h | .sequence .., h => Expr.AllSound.mono hz h
  | .map _ _, h => ⟨h.1, Expr.AllSound.mono hz h.2⟩
  | .quote _ _ _, h => ⟨h.1, Expr.Sound.mono hz h.2.1, Expr.AllSound.mono hz h.2.2⟩
  | .generator _ _ _, h => ⟨Expr.Sound.mono hz h.1, GenClause.AllSound.mono hz h.2⟩

theorem Expr.AllSound.mono (hz : z.Extends z') :
    {es : List Expr} → Expr.AllSound z es → Expr.AllSound z' es
  | [], _ => trivial
  | _ :: _, h => ⟨Expr.Sound.mono hz h.1, Expr.AllSound.mono hz h.2⟩

theorem Expr.StatementsSound.mono (hz : z.Extends z') {vars lets defs : List Decl} :
    {es : List Expr} → Expr.StatementsSound z vars lets defs es →
      Expr.StatementsSound z' vars lets defs es
  | [], _ => trivial
  | e :: _, h => by
    cases e
    case bind => exact ⟨h.1, Expr.Sound.mono hz h.2.1, Expr.StatementsSound.mono hz h.2.2⟩
    all_goals exact ⟨h.1, Expr.Sound.mono hz h.2.1, Expr.StatementsSound.mono hz h.2.2⟩

theorem CondCase.AllSound.mono (hz : z.Extends z') :
    {cs : List CondCase} → CondCase.AllSound z cs → CondCase.AllSound z' cs
  | [], _ => trivial
  | ⟨_, _, _, _⟩ :: _, h =>
    ⟨Expr.Sound.mono hz h.1, Expr.Sound.mono hz h.2.1, CondCase.AllSound.mono hz h.2.2⟩

theorem Handler.AllSound.mono (hz : z.Extends z') :
    {hs : List Handler} → Handler.AllSound z hs → Handler.AllSound z' hs
  | [], _ => trivial
  | ⟨_, _, _, _⟩ :: _, h =>
    ⟨Expr.AllSound.mono hz h.1, Expr.Sound.mono hz h.2.1, Handler.AllSound.mono hz h.2.2⟩

theorem SelectClause.AllSound.mono (hz : z.Extends z') :
    {cs : List SelectClause} → SelectClause.AllSound z cs → SelectClause.AllSound z' cs
  | [], _ => trivial
  | ⟨_, _, _, _⟩ :: _, h =>
    ⟨Expr.AllSound.mono hz h.1, Expr.Sound.mono hz h.2.1, SelectClause.AllSound.mono hz h.2.2⟩

theorem GenClause.AllSound.mono (hz : z.Extends z') :
    {cs : List GenClause} → GenClause.AllSound z cs → GenClause.AllSound z' cs
  | [], _ => trivial
  | ⟨_, _, _, _, _, _⟩ :: _, h =>
    ⟨h.1, Expr.Sound.mono hz h.2.1, Expr.Sound.mono hz h.2.2.1, GenClause.AllSound.mono hz h.2.2.2⟩

theorem Param.AllSound.mono (hz : z.Extends z') :
    {ps : List Param} → Param.AllSound z ps → Param.AllSound z' ps
  | [], _ => trivial
  | ⟨_, _, _⟩ :: _, h => ⟨Expr.Sound.mono hz h.1, Param.AllSound.mono hz h.2⟩

theorem Inst.AllSound.mono (hz : z.Extends z') :
    {is : List Inst} → Inst.AllSound z is → Inst.AllSound z' is
  | [], _ => trivial
  | ⟨_, _, _, _, _, _, _, _, none⟩ :: _, h => ⟨Value.Sound.mono hz h.1, Inst.AllSound.mono hz h.2⟩
  | ⟨_, _, _, _, _, _, _, _, some _⟩ :: _, h =>
    ⟨Value.Sound.mono hz h.1, Func.Sound.mono hz h.2.1, Inst.AllSound.mono hz h.2.2⟩

theorem Inst.BlocksSound.mono (hz : z.Extends z') :
    {bs : List (List Inst)} → Inst.BlocksSound z bs → Inst.BlocksSound z' bs
  | [], _ => trivial
  | _ :: _, h => ⟨Inst.AllSound.mono hz h.1, Inst.BlocksSound.mono hz h.2⟩

theorem Func.Sound.mono (hz : z.Extends z') : {fn : Func} → fn.Sound z → fn.Sound z'
  | ⟨_, _, _, _, _, _, _, _, _, _, none⟩, h => h
  | ⟨_, _, _, _, _, _, _, _, _, _, some ⟨_, _⟩⟩, h => ⟨h.1, Inst.BlocksSound.mono hz h.2⟩

end

end

section

variable {z : CapturedCounts} {vars lets defs : List Decl} {es : List Expr}

theorem Value.allSound_iff {vs : List Value} : Value.AllSound z vs ↔ ∀ v ∈ vs, v.Sound z := by
  induction vs with
  | nil => simp [Value.AllSound]
  | cons v vs ih => simp [Value.AllSound, ih]

theorem Expr.allSound_iff : Expr.AllSound z es ↔ ∀ e ∈ es, e.Sound z := by
  induction es with
  | nil => simp [Expr.AllSound]
  | cons e es ih => simp [Expr.AllSound, ih]

/-- A statement of a block with the given declarations: a binding of some of them, or an expression
that is present. -/
def Expr.SoundStatement (z : CapturedCounts) (vars lets defs : List Decl) : Expr → Prop
  | .bind _ binder _ ds init => binder.Declares vars lets defs ds ∧ init.Sound z
  | e => e.isAbsent = false ∧ e.Sound z

theorem Expr.Sound.statement {e : Expr} (h : e.Sound z)
    (hpresent : e.isAbsent = false) : e.SoundStatement z vars lets defs := by
  cases e
  case bind => exact h.elim
  all_goals exact ⟨hpresent, h⟩

theorem Binder.Declares.widen {binder : Binder} {vars vars' lets lets' defs defs' ds : List Decl}
    (h : binder.Declares vars lets defs ds) (hvars : vars ⊆ vars') (hlets : lets ⊆ lets')
    (hdefs : defs ⊆ defs') : binder.Declares vars' lets' defs' ds := by
  refine ⟨h.1, fun d hd => ?_⟩
  have hmem := h.2 d hd
  split
  · rw [if_pos ‹_›] at hmem
    exact List.map_subset _ hdefs hmem
  · rw [if_neg ‹_›] at hmem
    refine List.map_subset _ (List.append_subset.2 ⟨?_, ?_⟩) hmem
    · exact List.subset_append_of_subset_left _ hvars
    · exact List.subset_append_of_subset_right _ hlets

theorem Expr.SoundStatement.widen {vars vars' lets lets' defs defs' : List Decl} {e : Expr}
    (h : e.SoundStatement z vars lets defs) (hvars : vars ⊆ vars') (hlets : lets ⊆ lets')
    (hdefs : defs ⊆ defs') : e.SoundStatement z vars' lets' defs' := by
  cases e
  case bind => exact ⟨h.1.widen hvars hlets hdefs, h.2⟩
  all_goals exact h

theorem Expr.statementsSound_cons {e : Expr} :
    Expr.StatementsSound z vars lets defs (e :: es) ↔
      e.SoundStatement z vars lets defs ∧ Expr.StatementsSound z vars lets defs es := by
  cases e <;> exact and_assoc.symm

theorem Expr.statementsSound_iff :
    Expr.StatementsSound z vars lets defs es ↔ ∀ e ∈ es, e.SoundStatement z vars lets defs := by
  induction es with
  | nil => simp [Expr.StatementsSound]
  | cons e es ih => rw [Expr.statementsSound_cons, List.forall_mem_cons, ih]

theorem Entry.allSound_iff {es : List Entry} :
    Entry.AllSound z es ↔ ∀ e ∈ es, e.key.Sound z ∧ e.value.Sound z := by
  induction es with
  | nil => simp [Entry.AllSound]
  | cons e es ih =>
    obtain ⟨key, value⟩ := e
    simp [Entry.AllSound, ih, and_assoc]

theorem Member.allSound_iff {ms : List Member} :
    Member.AllSound z ms ↔ ∀ m ∈ ms, m.value.Sound z := by
  induction ms with
  | nil => simp [Member.AllSound]
  | cons m ms ih =>
    obtain ⟨name, value⟩ := m
    simp [Member.AllSound, ih]

theorem CondCase.allSound_iff {cs : List CondCase} :
    CondCase.AllSound z cs ↔ ∀ c ∈ cs, c.cond.Sound z ∧ c.body.Sound z := by
  induction cs with
  | nil => simp [CondCase.AllSound]
  | cons c cs ih =>
    obtain ⟨line, guard, cond, body⟩ := c
    simp [CondCase.AllSound, ih, and_assoc]

theorem Handler.allSound_iff {hs : List Handler} :
    Handler.AllSound z hs ↔ ∀ h ∈ hs, Expr.AllSound z h.types ∧ h.body.Sound z := by
  induction hs with
  | nil => simp [Handler.AllSound]
  | cons h hs ih =>
    obtain ⟨line, name, types, body⟩ := h
    simp [Handler.AllSound, ih, and_assoc]

theorem SelectClause.allSound_iff {cs : List SelectClause} :
    SelectClause.AllSound z cs ↔ ∀ c ∈ cs, Expr.AllSound z c.values ∧ c.body.Sound z := by
  induction cs with
  | nil => simp [SelectClause.AllSound]
  | cons c cs ih =>
    obtain ⟨line, method, values, body⟩ := c
    simp [SelectClause.AllSound, ih, and_assoc]

/-- A part of a comprehension is as the reader makes it. -/
def GenClause.Sound (z : CapturedCounts) (c : GenClause) : Prop :=
  (c.filter.isAbsent = true → c.unpack = false → c.names.length = 1) ∧ c.filter.Sound z ∧
    c.seq.Sound z

theorem GenClause.allSound_iff {cs : List GenClause} :
    GenClause.AllSound z cs ↔ ∀ c ∈ cs, c.Sound z := by
  induction cs with
  | nil => simp [GenClause.AllSound]
  | cons c cs ih =>
    obtain ⟨line, filter, key, names, unpack, seq⟩ := c
    simp [GenClause.AllSound, GenClause.Sound, ih, and_assoc]

theorem Param.allSound_iff {ps : List Param} :
    Param.AllSound z ps ↔ ∀ p ∈ ps, p.type.Sound z := by
  induction ps with
  | nil => simp [Param.AllSound]
  | cons p ps ih =>
    obtain ⟨name, line, type⟩ := p
    simp [Param.AllSound, ih]

def Inst.Sound (z : CapturedCounts) (i : Inst) : Prop :=
  i.value.Sound z ∧ ∀ fn, i.func = some fn → fn.Sound z

theorem Inst.allSound_iff {is : List Inst} : Inst.AllSound z is ↔ ∀ i ∈ is, i.Sound z := by
  induction is with
  | nil => simp [Inst.AllSound]
  | cons i is ih =>
    obtain ⟨op, line, target, count, value, chars, decls, table, fn⟩ := i
    cases fn <;> simp [Inst.AllSound, Inst.Sound, ih, and_assoc]

theorem Inst.blocksSound_iff {bs : List (List Inst)} :
    Inst.BlocksSound z bs ↔ ∀ b ∈ bs, ∀ i ∈ b, i.Sound z := by
  induction bs with
  | nil => simp [Inst.BlocksSound]
  | cons b bs ih => simp [Inst.BlocksSound, ih, Inst.allSound_iff]

theorem Func.sound_iff {fn : Func} :
    fn.Sound z ↔
      fn.IsTyped ∧ ∀ code, fn.code = some code → ∀ b ∈ code.blocks, ∀ i ∈ b, i.Sound z := by
  obtain ⟨source, startLine, endLine, entry, frameSize, numParams, flags, params, decls, upvalues,
    code⟩ := fn
  cases code with
  | none => simp [Func.Sound]
  | some code =>
    obtain ⟨blockSize, blocks⟩ := code
    simp [Func.Sound, Inst.blocksSound_iff]

theorem Func.Sound.isTyped {fn : Func} (h : fn.Sound z) : fn.IsTyped := (Func.sound_iff.1 h).1

theorem Func.Sound.at? {fn : Func} {code : Code} {address : Int} {i : Inst} (h : fn.Sound z)
    (hcode : fn.code = some code) (hi : code.at? address = some i) : i.Sound z := by
  unfold Code.at? at hi
  split at hi
  · simp at hi
  · obtain ⟨block, hblock, hi⟩ := Option.bind_eq_some_iff.1 hi
    exact (Func.sound_iff.1 h).2 code hcode block (List.mem_of_getElem? hblock) i
      (List.mem_of_getElem? hi)

mutual

theorem Func.Sound.of_mem_nested {g : Func} : {fn : Func} → fn.Sound z → g ∈ fn.nested → g.Sound z
  | ⟨_, _, _, _, _, _, _, _, _, _, none⟩, h, hg => by
    obtain rfl : g = _ := by simpa [Func.nested, nestedInCode] using hg
    exact h
  | ⟨_, _, _, _, _, _, _, _, _, _, some ⟨_, blocks⟩⟩, h, hg => by
    rcases List.mem_cons.1 hg with rfl | hg
    · exact h
    · exact Inst.BlocksSound.of_mem_nested h.2 hg

theorem Inst.BlocksSound.of_mem_nested {g : Func} :
    {bs : List (List Inst)} → Inst.BlocksSound z bs → g ∈ nestedInBlocks bs → g.Sound z
  | _ :: _, h, hg => by
    rcases List.mem_append.1 hg with hg | hg
    · exact Inst.AllSound.of_mem_nested h.1 hg
    · exact Inst.BlocksSound.of_mem_nested h.2 hg

theorem Inst.AllSound.of_mem_nested {g : Func} :
    {is : List Inst} → Inst.AllSound z is → g ∈ nestedInBlock is → g.Sound z
  | ⟨op, _, _, _, _, _, _, _, none⟩ :: _, h, hg => by
    cases op <;> exact Inst.AllSound.of_mem_nested h.2 hg
  | ⟨op, _, _, _, _, _, _, _, some fn⟩ :: _, h, hg => by
    rcases List.mem_append.1 hg with hg | hg
    · have hg : g ∈ fn.nested := by cases op <;> simp_all [nestedInInst]
      exact Func.Sound.of_mem_nested h.2.1 hg
    · exact Inst.AllSound.of_mem_nested h.2.2 hg

end

end

end StagedScript
