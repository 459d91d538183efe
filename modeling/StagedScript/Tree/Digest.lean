import StagedScript.Text.Blake2b
import StagedScript.Tree.Printer

/-!
# Digests of expressions

The serial form of an expression lists its nodes with their names and constants and leaves out
where they were written, so two texts that differ only in layout have the same digest.  Lists are
preceded by their length, names by their length, and every node, clause and constant by a tag.
-/

namespace StagedScript

namespace Serial

/-- The version of the format, which begins every serial form. -/
def version : UInt8 := 1

/-- The tag of an optional part that was left out, which also ends a chain of clauses. -/
def absent : Bytes := [0x1f]

def bigEndian : (width : Nat) → (n : Nat) → Bytes
  | 0, _ => []
  | w + 1, n => bigEndian w (n / 256) ++ [n.toUInt8]

def count (n : Nat) : Bytes := bigEndian 4 n

def text (s : Bytes) : Bytes := count s.length ++ s

def flag (b : Bool) : Bytes := if b then [1] else [0]

def real (x : Real64) : Bytes := bigEndian 8 x.bits.toNat

def decl (d : Decl) : Bytes := 0x84 :: text d.name

def decls (ds : List Decl) : Bytes := count ds.length ++ ds.flatMap decl

def declOption : Option Decl → Bytes
  | some d => decl d
  | none => absent

def kindTag (code : UInt8) : UInt8 := 0x20 + code

def guard : Guard → Bytes
  | .plain => Kind.nil.code :: text []
  | .variable name => Kind.var.code :: text name
  | .letName name => Kind.letName.code :: text name

mutual

/-- The serial form of a constant. -/
def value : Value → Bytes
  | .nil => [0x01]
  | .bool b => 0x02 :: flag b
  | .int n => 0x03 :: bigEndian 8 n.toUInt64.toNat
  | .real x => 0x04 :: real x
  | .complex re im => 0x05 :: (real re ++ real im)
  | .str s => 0x06 :: text s
  | .bytes s => 0x07 :: text s
  | .sym name => 0x08 :: text name
  | .method name => 0x09 :: text name
  | .tuple elems => 0x0a :: (count elems.length ++ values elems)
  | .expander name _ _ => 0x0b :: text name
  | v => 0x0f :: text (v.display Shown.plain)

def values : List Value → Bytes
  | [] => []
  | v :: vs => value v ++ values vs

end

def node (kind : Kind) (parts : Bytes) : Bytes := kindTag kind.code :: parts

mutual

def expr : Expr → Bytes
  | .absent => absent
  | .nil _ => node .nil []
  | .blank _ => node .blank []
  | .old _ => node .old []
  | .next _ => node .next []
  | .retry _ => node .retry []
  | .value _ v => node .value (value v)
  | .ident _ name => node .ident (text name)
  | .string _ parts => node .string (count parts.length ++ exprs parts)
  | .assign _ target value => node .assign (expr target ++ expr value)
  | .call _ fn args => node .call (expr fn ++ count args.length ++ exprs args)
  | .constCall _ fn args => node .constCall (value fn ++ count args.length ++ exprs args)
  | .resolve _ parent name => node .resolve (expr parent ++ text name)
  | .logic _ op left right =>
    let kind := match op with
      | .conj => Kind.and
      | .disj => Kind.or
    node kind (expr left ++ expr right)
  | .not _ arg => node .not (expr arg)
  | .cond _ arms otherwise => node .cond (condCases arms ++ expr otherwise)
  | .loop _ body => node .loop (expr body)
  | .exit _ value => node .exit (expr value)
  | .exitTest _ test cond value =>
    let kind := match test with
      | .whileHolds => Kind.whileHolds
      | .untilHolds => Kind.untilHolds
    node kind (expr cond ++ expr value)
  | .forIn _ key names unpack seq body otherwise =>
    node .forIn (declOption key ++ decls names ++ flag unpack ++ expr seq ++ expr body ++
      expr otherwise)
  | .each _ seq => node .each (expr seq)
  | .block _ vars lets defs body caught =>
    node .block (decls vars ++ decls lets ++ decls defs ++ count body.length ++ exprs body ++
      handlers caught)
  | .bind _ binder pattern ds value => node (.ofBinder binder pattern) (decls ds ++ expr value)
  | .function _ ps extra named body =>
    node .function (flag extra ++ flag named ++ count ps.length ++ params ps ++ expr body)
  | .method _ name ps extra body =>
    node .method (text name ++ flag extra ++ flag false ++ count ps.length ++ params ps ++
      expr body)
  | .ret _ value => node .ret (expr value)
  | .suspend _ key value => node .suspend (expr key ++ expr value)
  | .scoped _ ds values body =>
    node .scoped (decls ds ++ count values.length ++ exprs values ++ expr body)
  | .switch _ subject arms otherwise =>
    node .switch (expr subject ++ count arms.length ++ exprs arms ++ expr otherwise)
  | .select _ subject clauses otherwise =>
    node .select (expr subject ++ selectClauses clauses ++ expr otherwise)
  | .sequence _ kind elems =>
    let kind := match kind with
      | .tuple => Kind.tuple
      | .list => Kind.list
    node kind (count elems.length ++ exprs elems)
  | .map _ entries => node .map (count entries.length ++ exprs entries)
  | .inline _ value => node .inline (expr value)
  | .quote _ body args => node .quote (expr body ++ count args.length ++ exprs args)
  | .unquote _ index name => node .unquote (count index ++ text name)
  | .generator _ value clauses => node .generator (expr value ++ genClauses clauses)

def exprs : List Expr → Bytes
  | [] => []
  | e :: es => expr e ++ exprs es

def condCases : List CondCase → Bytes
  | [] => absent
  | ⟨_, g, cond, body⟩ :: cs => 0x80 :: (guard g ++ expr cond ++ expr body ++ condCases cs)

def handlers : List Handler → Bytes
  | [] => absent
  | ⟨_, name, types, body⟩ :: hs =>
    0x81 :: (text name ++ count types.length ++ exprs types ++ expr body ++ handlers hs)

def selectClauses : List SelectClause → Bytes
  | [] => absent
  | ⟨_, method, values, body⟩ :: cs =>
    0x82 :: (text method ++ count values.length ++ exprs values ++ expr body ++ selectClauses cs)

def genClauses : List GenClause → Bytes
  | [] => absent
  | ⟨_, filter, key, names, unpack, seq⟩ :: cs =>
    0x83 :: (expr filter ++ declOption key ++ decls names ++ flag unpack ++ expr seq ++
      genClauses cs)

def params : List Param → Bytes
  | [] => []
  | ⟨name, _, type⟩ :: ps => 0x85 :: (text name ++ expr type ++ params ps)

end

end Serial

namespace Expr

def serialize (e : Expr) : Bytes := Serial.version :: Serial.expr e

def digest (e : Expr) : Bytes := Blake2b.hash e.serialize

end Expr

end StagedScript
