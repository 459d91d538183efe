import StagedScript.Tree.Kind

/-!
# Copies of expressions

A copy of an expression has the same parts and lines and new declarations.  Instantiating a quoted
expression copies it and fills the holes of its unquotes: expressions become part of the tree, other
values become literals.  Quotes inside it are copied as they are.
-/

namespace StagedScript

/-- The state of copying: the next number for a declaration, and the numbers of the copies of the
declarations seen so far. -/
structure Renumbering where
  next : Nat
  known : List (Nat × Nat)

abbrev Copying (α : Type) := StateM Renumbering α

namespace Copying

def decl (d : Decl) : Copying Decl := fun s =>
  match s.known.lookup d.id with
  | some id => ({ d with id }, s)
  | none => ({ d with id := s.next }, ⟨s.next + 1, (d.id, s.next) :: s.known⟩)

def decls : List Decl → Copying (List Decl)
  | [] => return []
  | d :: ds => return (← decl d) :: (← decls ds)

def declOption : Option Decl → Copying (Option Decl)
  | none => return none
  | some d => return some (← decl d)

/-- Puts an expression in front of siblings. An absent one takes no place among them. -/
def consPresent (e : Expr) (es : List Expr) : List Expr := if e.isAbsent then es else e :: es

abbrev Hole := Span → Nat → Bytes → Copying Expr

def keepHole : Hole := fun span index name => return .unquote span index name

mutual

def expr (hole : Hole) : Expr → Copying Expr
  | .absent => return .absent
  | .nil s => return .nil s
  | .blank s => return .blank s
  | .old s => return .old s
  | .next s => return .next s
  | .retry s => return .retry s
  | .value s v => return .value s v
  | .ident s name => return .ident s name
  | .string s parts => return .string s (← exprs hole parts)
  | .assign s target value => return .assign s (← expr hole target) (← expr hole value)
  | .call s fn args => return .call s (← expr hole fn) (← exprs hole args)
  | .constCall s fn args => return .constCall s fn (← exprs hole args)
  | .resolve s parent name => return .resolve s (← expr hole parent) name
  | .logic s op left right => return .logic s op (← expr hole left) (← expr hole right)
  | .not s arg => return .not s (← expr hole arg)
  | .cond s arms otherwise => return .cond s (← condCases hole arms) (← expr hole otherwise)
  | .loop s body => return .loop s (← expr hole body)
  | .exit s value => return .exit s (← expr hole value)
  | .exitTest s test cond value =>
    return .exitTest s test (← expr hole cond) (← expr hole value)
  | .forIn s key names unpack seq body otherwise =>
    return .forIn s (← declOption key) (← decls names) unpack (← expr hole seq) (← expr hole body)
      (← expr hole otherwise)
  | .each s seq => return .each s (← expr hole seq)
  | .block s vars lets defs body caught =>
    return .block s (← decls vars) (← decls lets) (← decls defs) (← exprs hole body)
      (← handlers hole caught)
  | .bind s binder pattern ds value =>
    return .bind s binder pattern (← decls ds) (← expr hole value)
  | .function s ps extra named body =>
    return .function s (← params hole ps) extra named (← expr hole body)
  | .method s name ps extra body =>
    return .method s name (← params hole ps) extra (← expr hole body)
  | .ret s value => return .ret s (← expr hole value)
  | .suspend s key value => return .suspend s (← expr hole key) (← expr hole value)
  | .scoped s ds values body =>
    return .scoped s (← decls ds) (← exprs hole values) (← expr hole body)
  | .switch s subject arms otherwise =>
    return .switch s (← expr hole subject) (← exprs hole arms) (← expr hole otherwise)
  | .select s subject clauses otherwise =>
    return .select s (← expr hole subject) (← selectClauses hole clauses) (← expr hole otherwise)
  | .sequence s kind elems => return .sequence s kind (← exprs hole elems)
  | .map s entries => return .map s (← exprs hole entries)
  | .inline s value => return .inline s (← expr hole value)
  | .quote s body args => return .quote s (← expr keepHole body) (← exprs keepHole args)
  | .unquote s index name => hole s index name
  | .generator s value clauses =>
    return .generator s (← expr hole value) (← genClauses hole clauses)

def exprs (hole : Hole) : List Expr → Copying (List Expr)
  | [] => return []
  | e :: es => return consPresent (← expr hole e) (← exprs hole es)

def condCases (hole : Hole) : List CondCase → Copying (List CondCase)
  | [] => return []
  | ⟨line, guard, cond, body⟩ :: cs =>
    return ⟨line, guard, ← expr hole cond, ← expr hole body⟩ :: (← condCases hole cs)

def handlers (hole : Hole) : List Handler → Copying (List Handler)
  | [] => return []
  | ⟨line, name, types, body⟩ :: hs =>
    return ⟨line, name, ← exprs hole types, ← expr hole body⟩ :: (← handlers hole hs)

def selectClauses (hole : Hole) : List SelectClause → Copying (List SelectClause)
  | [] => return []
  | ⟨line, method, values, body⟩ :: cs =>
    return ⟨line, method, ← exprs hole values, ← expr hole body⟩ :: (← selectClauses hole cs)

def genClauses (hole : Hole) : List GenClause → Copying (List GenClause)
  | [] => return []
  | ⟨line, filter, key, names, unpack, seq⟩ :: cs => do
    let filter ← expr hole filter
    let key ← declOption key
    let names ← decls names
    let seq ← expr hole seq
    return ⟨line, filter, key, names, unpack, seq⟩ :: (← genClauses hole cs)

def params (hole : Hole) : List Param → Copying (List Param)
  | [] => return []
  | ⟨name, line, type⟩ :: ps => return ⟨name, line, ← expr hole type⟩ :: (← params hole ps)

end

/-- Fills a hole with the argument at its index. The copy of an expression has declarations of its
own, and a hole without an argument becomes nil. -/
def fillHole (args : List Value) : Hole := fun span index _ =>
  match args[index]? with
  | some (.expr e) => fun s =>
    let (e, inner) := expr keepHole e ⟨s.next, []⟩
    (e, { s with next := inner.next })
  | some v => return .value span v
  | none => return .value span .nil

end Copying

namespace Expr

def copy (e : Expr) (next : Nat) : Expr × Nat :=
  let (e, s) := Copying.expr Copying.keepHole e ⟨next, []⟩
  (e, s.next)

def instantiate (template : Expr) (args : List Value) (next : Nat) : Expr × Nat :=
  let (e, s) := Copying.expr (Copying.fillHole args) template ⟨next, []⟩
  (e, s.next)

end Expr

end StagedScript
