import StagedScript.Data

/-!
# Expressions without their positions

Two expressions are the same program if they differ only in where they were written, in the
identities that the reader gave to declarations, and in which declarations are exported.
`Expr.bare` leaves all this out, so that the same programs become equal.
-/

namespace StagedScript

/-- A declaration without its identity, its line, and the mark of its export. -/
def Decl.bare (d : Decl) : Decl := ⟨0, d.name, 0, false⟩

/-- Lengths and indices are below this number. -/
def Serial.lengthLimit : Nat := 0x100000000

/-- A name or a text is not too long. -/
def Serial.IsShort {α : Type} (s : List α) : Prop := s.length < lengthLimit

/-- The names of declarations are not too long, and there are not too many of them. -/
def Serial.AreShort (ds : List Decl) : Prop := IsShort ds ∧ ∀ d ∈ ds, IsShort d.name

/-- The name that a condition is bound to is not too long. -/
def Guard.Serializable : Guard → Prop
  | .plain => True
  | .variable name | .letName name => Serial.IsShort name

open Serial

mutual

/-- A constant is a number, a truth value, a text, a byte string, a symbol, a method, or a tuple of
such constants. -/
def Value.Serializable : Value → Prop
  | .nil | .bool _ | .int _ | .real _ | .complex .. => True
  | .str s | .bytes s | .sym s | .method s => IsShort s
  | .tuple elems => IsShort elems ∧ Value.AllSerializable elems
  | _ => False

def Value.AllSerializable : List Value → Prop
  | [] => True
  | v :: vs => v.Serializable ∧ Value.AllSerializable vs

end

def Span.nowhere : Span := ⟨[], 0, 0⟩

mutual

/-- An expression without positions, identities of declarations and marks of exports. -/
@[simp] def Expr.bare : Expr → Expr
  | .absent => .absent
  | .nil _ => .nil .nowhere
  | .blank _ => .blank .nowhere
  | .old _ => .old .nowhere
  | .next _ => .next .nowhere
  | .retry _ => .retry .nowhere
  | .value _ v => .value .nowhere v
  | .ident _ name => .ident .nowhere name
  | .string _ parts => .string .nowhere (Expr.bareAll parts)
  | .assign _ target value => .assign .nowhere target.bare value.bare
  | .call _ fn args => .call .nowhere fn.bare (Expr.bareAll args)
  | .constCall _ fn args => .constCall .nowhere fn (Expr.bareAll args)
  | .resolve _ parent name => .resolve .nowhere parent.bare name
  | .logic _ op left right => .logic .nowhere op left.bare right.bare
  | .not _ arg => .not .nowhere arg.bare
  | .cond _ arms otherwise => .cond .nowhere (CondCase.bareAll arms) otherwise.bare
  | .loop _ body => .loop .nowhere body.bare
  | .exit _ value => .exit .nowhere value.bare
  | .exitTest _ test cond value => .exitTest .nowhere test cond.bare value.bare
  | .forIn _ key names unpack seq body otherwise =>
    .forIn .nowhere (key.map Decl.bare) (names.map Decl.bare) unpack seq.bare body.bare
      otherwise.bare
  | .each _ seq => .each .nowhere seq.bare
  | .block _ vars lets defs body handlers =>
    .block .nowhere (vars.map Decl.bare) (lets.map Decl.bare) (defs.map Decl.bare)
      (Expr.bareAll body) (Handler.bareAll handlers)
  | .bind _ binder pattern ds value =>
    .bind .nowhere binder pattern (ds.map Decl.bare) value.bare
  | .function _ params extra named body =>
    .function .nowhere (Param.bareAll params) extra named body.bare
  | .method _ name params extra body => .method .nowhere name (Param.bareAll params) extra body.bare
  | .ret _ value => .ret .nowhere value.bare
  | .suspend _ key value => .suspend .nowhere key.bare value.bare
  | .scoped _ ds values body => .scoped .nowhere (ds.map Decl.bare) (Expr.bareAll values) body.bare
  | .switch _ subject arms otherwise =>
    .switch .nowhere subject.bare (Expr.bareAll arms) otherwise.bare
  | .select _ subject clauses otherwise =>
    .select .nowhere subject.bare (SelectClause.bareAll clauses) otherwise.bare
  | .sequence _ kind elems => .sequence .nowhere kind (Expr.bareAll elems)
  | .map _ entries => .map .nowhere (Expr.bareAll entries)
  | .inline _ value => .inline .nowhere value.bare
  | .quote _ body args => .quote .nowhere body.bare (Expr.bareAll args)
  | .unquote _ index name => .unquote .nowhere index name
  | .generator _ value clauses => .generator .nowhere value.bare (GenClause.bareAll clauses)

@[simp] def Expr.bareAll : List Expr → List Expr
  | [] => []
  | e :: es => e.bare :: Expr.bareAll es

@[simp] def CondCase.bareAll : List CondCase → List CondCase
  | [] => []
  | ⟨_, guard, cond, body⟩ :: cs => ⟨0, guard, cond.bare, body.bare⟩ :: CondCase.bareAll cs

@[simp] def Handler.bareAll : List Handler → List Handler
  | [] => []
  | ⟨_, name, types, body⟩ :: hs =>
    ⟨0, name, Expr.bareAll types, body.bare⟩ :: Handler.bareAll hs

@[simp] def SelectClause.bareAll : List SelectClause → List SelectClause
  | [] => []
  | ⟨_, method, values, body⟩ :: cs =>
    ⟨0, method, Expr.bareAll values, body.bare⟩ :: SelectClause.bareAll cs

@[simp] def GenClause.bareAll : List GenClause → List GenClause
  | [] => []
  | ⟨_, filter, key, names, unpack, seq⟩ :: cs =>
    ⟨0, filter.bare, key.map Decl.bare, names.map Decl.bare, unpack, seq.bare⟩ ::
      GenClause.bareAll cs

@[simp] def Param.bareAll : List Param → List Param
  | [] => []
  | ⟨name, _, type⟩ :: ps => ⟨name, 0, type.bare⟩ :: Param.bareAll ps

end

mutual

/-- All constants in an expression are plain data, and all lengths and indices are below the limit. -/
def Expr.Serializable : Expr → Prop
  | .absent | .nil _ | .blank _ | .old _ | .next _ | .retry _ => True
  | .value _ v => v.Serializable
  | .ident _ name => IsShort name
  | .string _ parts => IsShort parts ∧ Expr.AllSerializable parts
  | .assign _ target value => target.Serializable ∧ value.Serializable
  | .call _ fn args => fn.Serializable ∧ IsShort args ∧ Expr.AllSerializable args
  | .constCall _ fn args => fn.Serializable ∧ IsShort args ∧ Expr.AllSerializable args
  | .resolve _ parent name => parent.Serializable ∧ IsShort name
  | .logic _ _ left right => left.Serializable ∧ right.Serializable
  | .not _ arg => arg.Serializable
  | .cond _ arms otherwise => CondCase.AllSerializable arms ∧ otherwise.Serializable
  | .loop _ body => body.Serializable
  | .exit _ value => value.Serializable
  | .exitTest _ _ cond value => cond.Serializable ∧ value.Serializable
  | .forIn _ key names _ seq body otherwise =>
    (∀ d ∈ key, IsShort d.name) ∧ AreShort names ∧ seq.Serializable ∧ body.Serializable ∧
      otherwise.Serializable
  | .each _ seq => seq.Serializable
  | .block _ vars lets defs body handlers =>
    (AreShort vars ∧ AreShort lets ∧ AreShort defs) ∧
      (IsShort body ∧ Expr.AllSerializable body) ∧ Handler.AllSerializable handlers
  | .bind _ _ _ ds value => AreShort ds ∧ value.Serializable
  | .function _ params _ _ body =>
    (IsShort params ∧ Param.AllSerializable params) ∧ body.Serializable
  | .method _ name params _ body =>
    IsShort name ∧ (IsShort params ∧ Param.AllSerializable params) ∧ body.Serializable
  | .ret _ value => value.Serializable
  | .suspend _ key value => key.Serializable ∧ value.Serializable
  | .scoped _ ds values body =>
    AreShort ds ∧ (IsShort values ∧ Expr.AllSerializable values) ∧ body.Serializable
  | .switch _ subject arms otherwise =>
    subject.Serializable ∧ (IsShort arms ∧ Expr.AllSerializable arms) ∧ otherwise.Serializable
  | .select _ subject clauses otherwise =>
    subject.Serializable ∧ SelectClause.AllSerializable clauses ∧ otherwise.Serializable
  | .sequence _ _ elems => IsShort elems ∧ Expr.AllSerializable elems
  | .map _ entries => IsShort entries ∧ Expr.AllSerializable entries
  | .inline _ value => value.Serializable
  | .quote _ body args => body.Serializable ∧ IsShort args ∧ Expr.AllSerializable args
  | .unquote _ index name => index < lengthLimit ∧ IsShort name
  | .generator _ value clauses => value.Serializable ∧ GenClause.AllSerializable clauses

def Expr.AllSerializable : List Expr → Prop
  | [] => True
  | e :: es => e.Serializable ∧ Expr.AllSerializable es

def CondCase.AllSerializable : List CondCase → Prop
  | [] => True
  | ⟨_, guard, cond, body⟩ :: cs =>
    guard.Serializable ∧ cond.Serializable ∧ body.Serializable ∧ CondCase.AllSerializable cs

def Handler.AllSerializable : List Handler → Prop
  | [] => True
  | ⟨_, name, types, body⟩ :: hs =>
    IsShort name ∧ (IsShort types ∧ Expr.AllSerializable types) ∧ body.Serializable ∧
      Handler.AllSerializable hs

def SelectClause.AllSerializable : List SelectClause → Prop
  | [] => True
  | ⟨_, method, values, body⟩ :: cs =>
    IsShort method ∧ (IsShort values ∧ Expr.AllSerializable values) ∧ body.Serializable ∧
      SelectClause.AllSerializable cs

def GenClause.AllSerializable : List GenClause → Prop
  | [] => True
  | ⟨_, filter, key, names, _, seq⟩ :: cs =>
    filter.Serializable ∧ (∀ d ∈ key, IsShort d.name) ∧ AreShort names ∧ seq.Serializable ∧
      GenClause.AllSerializable cs

def Param.AllSerializable : List Param → Prop
  | [] => True
  | ⟨name, _, type⟩ :: ps => IsShort name ∧ type.Serializable ∧ Param.AllSerializable ps

end

end StagedScript
