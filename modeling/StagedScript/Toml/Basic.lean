import StagedScript.Text.Quoted

/-!
# Configuration documents

A document is a table of keys with values, some of which are tables again.  A table that was only
mentioned in the key of another one is *implied*, and may still be defined.  Everything else is
defined once, except that lists and what takes their place can be defined again.
-/

namespace StagedScript

inductive Toml where
  | text (s : Bytes)
  | int (n : Int)
  | real
  | bool (b : Bool)
  | moment
  | array (items : List Toml)
  | table (implied : Bool) (entries : List (Bytes × Toml))
  | tables (elems : List (List (Bytes × Toml)))

namespace Toml

abbrev Entries := List (Bytes × Toml)

def isBare (code : Nat) : Bool :=
  (0x41 ≤ code && code ≤ 0x5a) || (0x61 ≤ code && code ≤ 0x7a) || (0x30 ≤ code && code ≤ 0x39) ||
    code = 0x5f || code = 0x2d

def quotedKeyByte (c : UInt8) : Bytes :=
  match c.toNat with
  | 0x22 => "\\\""
  | 0x5c => "\\\\"
  | 0x08 => "\\b"
  | 0x09 => "\\t"
  | 0x0a => "\\n"
  | 0x0c => "\\f"
  | 0x0d => "\\r"
  | n => if n < 0x20 || n = 0x7f then "\\u" ++ Bytes.hexFixed 4 n else [c]

def showPart (part : Bytes) : Bytes :=
  if !part.isEmpty && part.all (fun c => isBare c.toNat) then part
  else "\"" ++ part.flatMap quotedKeyByte ++ "\""

def showKey (key : List Bytes) : Bytes := Bytes.join "." (key.map showPart)

def typeName : Toml → Bytes
  | .text _ => "string"
  | .int _ => "int64"
  | .real => "float64"
  | .bool _ => "bool"
  | .moment => "time.Time"
  | .array _ => "[]any"
  | .table .. => "map[string]any"
  | .tables _ => "[]map[string]any"

def find? (entries : Entries) (key : Bytes) : Option Toml := entries.lookup key

def put (key : Bytes) (value : Toml) : Entries → Entries
  | [] => [(key, value)]
  | (k, v) :: rest => if k = key then (k, value) :: rest else (k, v) :: put key value rest

inductive Conflict where
  | defined (key : List Bytes)
  | notTable (key : List Bytes)
  | notTables (key : List Bytes)

def Conflict.message : Conflict → Bytes
  | .defined key => "Key '" ++ showKey key ++ "' has already been defined."
  | .notTable key => "Key '" ++ showKey key ++ "' was already created as a hash."
  | .notTables key =>
    "Key '" ++ showKey key ++ "' was already created and cannot be used as an array."

def modifyLast {α ε : Type} (f : α → Except ε α) : List α → Except ε (List α)
  | [] => .ok []
  | [x] => do return [← f x]
  | x :: rest => do return x :: (← modifyLast f rest)

/-- Changes the entries of a value that is a table. In a list of tables it is the last one that
counts. -/
def modifyEntries {ε : Type} (f : Entries → Except ε Entries) (otherwise : ε) :
    Toml → Except ε Toml
  | .table implied entries => do return .table implied (← f entries)
  | .tables elems => do return .tables (← modifyLast f elems)
  | _ => .error otherwise

/-- Changes the entries of the table at a path. The tables on the path must exist. `seen` is the
path so far. -/
def within (f : Entries → Except Conflict Entries) :
    (seen path : List Bytes) → Entries → Except Conflict Entries
  | _, [], entries => f entries
  | seen, k :: rest, entries => do
    let here := seen ++ [k]
    let v := (find? entries k).getD (.table true [])
    let v ← modifyEntries (within f here rest) (.defined here) v
    return put k v entries

/-- Changes the entries of the table at a path. Missing tables on the path are implied. -/
def withinImplied (f : Entries → Except Conflict Entries) :
    (seen path : List Bytes) → Entries → Except Conflict Entries
  | _, [], entries => f entries
  | seen, k :: rest, entries => do
    let here := seen ++ [k]
    let v := (find? entries k).getD (.table true [])
    let v ← modifyEntries (withinImplied f here rest) (.notTable here) v
    return put k v entries

def isArray : Toml → Bool
  | .array _ => true
  | _ => false

mutual

def holdsTable : Toml → Bool
  | .array items => anyHoldsTable items
  | .table .. => true
  | _ => false

def anyHoldsTable : List Toml → Bool
  | [] => false
  | v :: rest => v.holdsTable || anyHoldsTable rest

end

def isTables : Toml → Bool
  | .tables _ => true
  | _ => false

/-- Defines a key in a table. A list takes the place of any value, but a list with tables only that
of a list made by headers. A value for an implied table only makes the table defined. -/
def setValue (full : List Bytes) (key : Bytes) (value : Toml) (isBraced : Bool)
    (entries : Entries) : Except Conflict Entries :=
  match find? entries key with
  | none => .ok (put key value entries)
  | some old =>
    if value.isArray && value.holdsTable && !old.isTables then .error (.notTables full)
    else if old.isArray || value.isArray then .ok (put key value entries)
    else match old with
      | .table true inner =>
        if isBraced then .error (.defined full) else .ok (put key (.table false inner) entries)
      | _ => .error (.defined full)

def define (path : List Bytes) (key : Bytes) (value : Toml) (isBraced : Bool) (root : Entries) :
    Except Conflict Entries :=
  within (setValue (path ++ [key]) key value isBraced) [] path root

def splitKey (key : List Bytes) : List Bytes × Bytes := (key.dropLast, key.getLastD [])

def openTable (key : List Bytes) (root : Entries) : Except Conflict Entries :=
  let (path, last) := splitKey key
  withinImplied (setValue key last (.table false []) false) [] path root

def openElement (key : List Bytes) (root : Entries) : Except Conflict Entries :=
  let (path, last) := splitKey key
  withinImplied (fun entries => match find? entries last with
    | none => .ok (put last (.tables [[]]) entries)
    | some (.tables elems) => .ok (put last (.tables (elems ++ [[]])) entries)
    | some _ => .error (.notTables key)) [] path root

/-- Mentions a table in a key with dots. A new one is implied, and a known one counts as defined
from now on. -/
def mention (key : List Bytes) (root : Entries) : Except Conflict Entries :=
  let (path, last) := splitKey key
  withinImplied (fun entries => .ok (match find? entries last with
    | none => put last (.table true []) entries
    | some (.table true inner) => put last (.table false inner) entries
    | some (.array _) => put last (.table false []) entries
    | some _ => entries)) [] path root

end Toml

structure TomlError where
  line : Option Nat
  key : Bytes
  message : Bytes

def TomlError.display (e : TomlError) : Bytes :=
  let line : Bytes := match e.line with
    | some n => "line " ++ Bytes.ofNat n
    | none => []
  let key : Bytes := if e.key.isEmpty then [] else "(last key " ++ Quoted.text e.key ++ ")"
  let place := Bytes.join " " ([line, key].filter fun s => !s.isEmpty)
  if place.isEmpty then "toml: " ++ e.message else "toml: " ++ place ++ ": " ++ e.message

end StagedScript
