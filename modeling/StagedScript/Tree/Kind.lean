import StagedScript.Data

/-!
# Kinds of expressions

Every form of expression has a kind with a name and a number.  The number is part of the digest of
a tree and never changes.
-/

namespace StagedScript

inductive Kind where
  | nil | blank | value | ident | string | assign | old | call | constCall | resolve | and | or
  | not | cond | loop | next | exit | whileHolds | untilHolds | forIn | each | block | var
  | letName | constant | reference | varElements | letElements | constantElements
  | referenceElements | varMembers | letMembers | constantMembers | referenceMembers | function
  | method | ret | suspend | scoped | switch | select | tuple | list | map | inline | quote
  | unquote | generator | retry
  deriving DecidableEq

namespace Kind

def all : List Kind := [
  .nil, .blank, .value, .ident, .string, .assign, .old, .call, .constCall, .resolve, .and, .or,
  .not, .cond, .loop, .next, .exit, .whileHolds, .untilHolds, .forIn, .each, .block, .var,
  .letName, .constant, .reference, .varElements, .letElements, .constantElements,
  .referenceElements, .varMembers, .letMembers, .constantMembers, .referenceMembers, .function,
  .method, .ret, .suspend, .scoped, .switch, .select, .tuple, .list, .map, .inline, .quote,
  .unquote, .generator, .retry]

def code : Kind → UInt8
  | .nil => 0
  | .blank => 1
  | .value => 2
  | .ident => 3
  | .string => 4
  | .assign => 5
  | .old => 6
  | .call => 7
  | .constCall => 8
  | .resolve => 9
  | .and => 10
  | .or => 11
  | .not => 12
  | .cond => 13
  | .loop => 14
  | .next => 15
  | .exit => 16
  | .whileHolds => 17
  | .untilHolds => 18
  | .forIn => 19
  | .each => 20
  | .block => 21
  | .var => 22
  | .letName => 23
  | .constant => 24
  | .reference => 25
  | .varElements => 26
  | .letElements => 27
  | .constantElements => 28
  | .referenceElements => 29
  | .varMembers => 30
  | .letMembers => 31
  | .constantMembers => 32
  | .referenceMembers => 33
  | .function => 34
  | .method => 35
  | .ret => 36
  | .suspend => 37
  | .scoped => 38
  | .switch => 39
  | .select => 40
  | .tuple => 41
  | .list => 42
  | .map => 43
  | .inline => 44
  | .quote => 45
  | .unquote => 46
  | .generator => 47
  | .retry => 48

def name : Kind → Bytes
  | .nil => "nil"
  | .blank => "blank"
  | .value => "value"
  | .ident => "ident"
  | .string => "string"
  | .assign => "assign"
  | .old => "old"
  | .call => "call"
  | .constCall => "const-call"
  | .resolve => "resolve"
  | .and => "and"
  | .or => "or"
  | .not => "not"
  | .cond => "if"
  | .loop => "loop"
  | .next => "next"
  | .exit => "exit"
  | .whileHolds => "while"
  | .untilHolds => "until"
  | .forIn => "for"
  | .each => "each"
  | .block => "block"
  | .var => "var"
  | .letName => "let"
  | .constant => "def"
  | .reference => "ref"
  | .varElements => "var-unpack"
  | .letElements => "let-unpack"
  | .constantElements => "def-unpack"
  | .referenceElements => "ref-unpack"
  | .varMembers => "var-in"
  | .letMembers => "let-in"
  | .constantMembers => "def-in"
  | .referenceMembers => "ref-in"
  | .function => "fun"
  | .method => "meth"
  | .ret => "ret"
  | .suspend => "susp"
  | .scoped => "with"
  | .switch => "switch"
  | .select => "when"
  | .tuple => "tuple"
  | .list => "list"
  | .map => "map"
  | .inline => "inline"
  | .quote => "quote"
  | .unquote => "unquote"
  | .generator => "generator"
  | .retry => "retry"

/-- The name of the kind with a number, which may be the number of no kind. -/
def nameOf (code : UInt8) : Bytes :=
  match all[code.toNat]? with
  | some k => k.name
  | none => "unknown"

def ofBinder : Binder → Pattern → Kind
  | .variable, .single => .var
  | .letName, .single => .letName
  | .constant, .single => .constant
  | .reference, .single => .reference
  | .variable, .elements => .varElements
  | .letName, .elements => .letElements
  | .constant, .elements => .constantElements
  | .reference, .elements => .referenceElements
  | .variable, .members => .varMembers
  | .letName, .members => .letMembers
  | .constant, .members => .constantMembers
  | .reference, .members => .referenceMembers

end Kind

namespace Expr

def kind? : Expr → Option Kind
  | .absent => none
  | .nil _ => some .nil
  | .blank _ => some .blank
  | .old _ => some .old
  | .next _ => some .next
  | .retry _ => some .retry
  | .value .. => some .value
  | .ident .. => some .ident
  | .string .. => some .string
  | .assign .. => some .assign
  | .call .. => some .call
  | .constCall .. => some .constCall
  | .resolve .. => some .resolve
  | .logic _ .conj .. => some .and
  | .logic _ .disj .. => some .or
  | .not .. => some .not
  | .cond .. => some .cond
  | .loop .. => some .loop
  | .exit .. => some .exit
  | .exitTest _ .whileHolds .. => some .whileHolds
  | .exitTest _ .untilHolds .. => some .untilHolds
  | .forIn .. => some .forIn
  | .each .. => some .each
  | .block .. => some .block
  | .bind _ binder pattern .. => some (.ofBinder binder pattern)
  | .function .. => some .function
  | .method .. => some .method
  | .ret .. => some .ret
  | .suspend .. => some .suspend
  | .scoped .. => some .scoped
  | .switch .. => some .switch
  | .select .. => some .select
  | .sequence _ .tuple _ => some .tuple
  | .sequence _ .list _ => some .list
  | .map .. => some .map
  | .inline .. => some .inline
  | .quote .. => some .quote
  | .unquote .. => some .unquote
  | .generator .. => some .generator

def span? : Expr → Option Span
  | .absent => none
  | .nil s | .blank s | .old s | .next s | .retry s | .value s _ | .ident s _ | .string s _
  | .assign s .. | .call s .. | .constCall s .. | .resolve s .. | .logic s .. | .not s _
  | .cond s .. | .loop s _ | .exit s _ | .exitTest s .. | .forIn s .. | .each s _ | .block s ..
  | .bind s .. | .function s .. | .method s .. | .ret s _ | .suspend s .. | .scoped s ..
  | .switch s .. | .select s .. | .sequence s .. | .map s _ | .inline s _ | .quote s ..
  | .unquote s .. | .generator s .. => some s

def isAbsent : Expr → Bool
  | .absent => true
  | _ => false

end Expr

end StagedScript
