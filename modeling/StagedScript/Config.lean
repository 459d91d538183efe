import StagedScript.Compile
import StagedScript.Text.Path
import StagedScript.Toml.Document

/-!
# Project configuration

A project is configured by a document with a few sections.  All keys are optional, and unknown keys
are errors.
-/

namespace StagedScript

structure Config where
  name : Bytes := []
  version : Bytes := []
  dirs : List Bytes := []
  extension : Bytes := []
  blockSize : Int := 0
  keywords : List (Bytes × Bytes) := []
  prefixes : List (Bytes × Bytes) := []
  cacheEnabled : Bool := false
  cachePath : Bytes := []
  address : Bytes := []
  queue : Int := 0
  verbosity : Int := 0
  logFile : Bytes := []
  dir : Bytes := []

inductive ConfigError where
  | document (e : TomlError)
  | unknownKey (key : List Bytes)
  | blockSize (n : Int)

def ConfigError.message : ConfigError → Bytes
  | .document e => e.display
  | .unknownKey key => "unknown key " ++ Toml.showKey key
  | .blockSize n => "compiler.block-size must be positive, got " ++ Bytes.ofInt n

namespace Config

def fileName : Bytes := "minilang.toml"

def withDefaults (c : Config) : Config :=
  { c with
    dirs := if c.dirs.isEmpty then ["."] else c.dirs
    extension := if c.extension.isEmpty then ".mini" else c.extension
    cachePath := if c.cachePath.isEmpty then ".minilang/cache.db" else c.cachePath
    address := if c.address.isEmpty then "localhost:7433" else c.address
    queue := if c.queue ≤ 0 then 64 else c.queue }

def standard (dir : Bytes) : Config := withDefaults { dir }

/-! ### Fields -/

def foldCode (code : Nat) : Nat :=
  if 0x41 ≤ code && code ≤ 0x5a then code + 32
  else if code = 0x17f then 0x73
  else if code = 0x212a then 0x6b
  else code

def foldKey (key : Bytes) : List Nat := (Utf8.pieces key).map fun p => foldCode p.code

/-- What a key holds, and where its value goes in the settings. -/
inductive Field where
  | text (put : Bytes → Config → Config)
  | int (put : Int → Config → Config)
  | bool (put : Bool → Config → Config)
  | texts (put : List Bytes → Config → Config)
  | table (put : List (Bytes × Bytes) → Config → Config)

def sections : List (Bytes × Bytes × List (Bytes × Field)) := [
  ("project", "config.Project", [
    ("name", .text fun x c => { c with name := x }),
    ("version", .text fun x c => { c with version := x })]),
  ("source", "config.Source", [
    ("dirs", .texts fun x c => { c with dirs := x }),
    ("extension", .text fun x c => { c with extension := x })]),
  ("compiler", "config.Compiler", [
    ("block-size", .int fun x c => { c with blockSize := x }),
    ("keywords", .table fun x c => { c with keywords := x }),
    ("prefixes", .table fun x c => { c with prefixes := x })]),
  ("cache", "config.Cache", [
    ("enabled", .bool fun x c => { c with cacheEnabled := x }),
    ("path", .text fun x c => { c with cachePath := x })]),
  ("server", "config.Server", [
    ("grpc-addr", .text fun x c => { c with address := x }),
    ("queue", .int fun x c => { c with queue := x })]),
  ("log", "config.Log", [
    ("verbosity", .int fun x c => { c with verbosity := x }),
    ("file", .text fun x c => { c with logFile := x })])]

/-- Finds what belongs to a key: the exact name if there is one, and otherwise one that differs only
in case. -/
def findKey? {α : Type} (known : List (Bytes × α)) (key : Bytes) : Option α :=
  (known.lookup key).or ((known.find? fun k => foldKey k.1 = foldKey key).map (·.2))

def wrongType (expected : Bytes) (v : Toml) : Bytes :=
  "incompatible types: TOML value has type " ++ v.typeName ++ "; destination has type " ++ expected

def readText (v : Toml) : Except Bytes Bytes :=
  match v with
  | .text s => .ok s
  | v => .error (wrongType "string" v)

def readTexts : Toml.Entries → Except (Bytes × Bytes) (List (Bytes × Bytes))
  | [] => .ok []
  | (k, v) :: rest => do
    match readText v with
    | .ok s => return (k, s) :: (← readTexts rest)
    | .error message => throw (k, message)

def readField (f : Field) (v : Toml) (c : Config) : Except (List Bytes × Bytes) Config :=
  match f with
  | .text put => match readText v with
    | .ok s => .ok (put s c)
    | .error message => .error ([], message)
  | .int put => match v with
    | .int n => .ok (put n c)
    | v => .error ([], wrongType "integer" v)
  | .bool put => match v with
    | .bool b => .ok (put b c)
    | v => .error ([], wrongType "boolean" v)
  | .texts put => match v with
    | .array items => match items.mapM readText with
      | .ok ss => .ok (put ss c)
      | .error message => .error ([], message)
    | .tables elems => match elems with
      | [] => .ok (put [] c)
      | e :: _ => .error ([], wrongType "string" (.table false e))
    | v => .error ([], wrongType "slice" v)
  | .table put => match v with
    | .table _ entries => match readTexts entries with
      | .ok ts => .ok (put ts c)
      | .error (k, message) => .error ([k], message)
    | _ => .ok c

def readFields (fields : List (Bytes × Field)) :
    Toml.Entries → Config → Except (List Bytes × Bytes) Config
  | [], c => .ok c
  | (k, v) :: rest, c =>
    match findKey? fields k with
    | none => readFields fields rest c
    | some f => match readField f v c with
      | .ok c => readFields fields rest c
      | .error (key, message) => .error (k :: key, message)

def readSections : Toml.Entries → Config → Except (List Bytes × Bytes) Config
  | [], c => .ok c
  | (k, v) :: rest, c =>
    match findKey? sections k with
    | none => readSections rest c
    | some (type, fields) => match v with
      | .table _ entries => match readFields fields entries c with
        | .ok c => readSections rest c
        | .error (key, message) => .error (k :: key, message)
      | v =>
        .error ([k],
          "type mismatch for " ++ type ++ ": expected table but found " ++ v.typeName)

def isKnown (root : Toml.Entries) (key : List Bytes) : Bool :=
  match key with
  | [] => true
  | s :: rest => match findKey? sections s with
    | none => false
    | some (_, fields) => match rest with
      | [] => true
      | f :: rest => match findKey? fields f with
        | none => false
        | some field => match rest, field, (Toml.find? root s) with
          | [], _, _ => true
          | [_], .table _, some (.table _ entries) => match Toml.find? entries f with
            | some (.table ..) => true
            | _ => false
          | _, _, _ => false

def parse (text : Bytes) : Except ConfigError Config := do
  let (root, keys) ← (Toml.document text).mapError .document
  let c ← match readSections root {} with
    | .ok c => pure c
    | .error (key, message) =>
      throw (.document ⟨keys.lookup key, Toml.showKey key, message⟩)
  if let some (key, _) := keys.find? fun k => !isKnown root k.1 then throw (.unknownKey key)
  if c.blockSize < 0 then throw (.blockSize c.blockSize)
  return c.withDefaults

/-! ### What settings mean -/

def resolve (c : Config) (path : Bytes) : Bytes :=
  if Path.isAbsolute path then path else Path.join c.dir path

def sourcePaths (c : Config) : List Bytes := c.dirs.map c.resolve

def cacheFile (c : Config) : Bytes := c.resolve c.cachePath

def sorted (entries : List (Bytes × Bytes)) : List (Bytes × Bytes) :=
  entries.mergeSort fun a b => Bytes.le a.1 b.1

def addAliases : List (Bytes × Bytes) → KeywordTable.Bucket → Except Bytes KeywordTable.Bucket
  | [], words => .ok words
  | (other, word) :: rest, words =>
    match Keyword.ofName? word with
    | none =>
      .error ("keyword alias " ++ other ++ ": " ++ Quoted.text word ++ " is not a keyword")
    | some k => addAliases rest (KeywordTable.addWord words other k)

def keywordTable? (c : Config) : Except Bytes (Option KeywordTable) := do
  if c.keywords.isEmpty then return none
  let words ← addAliases (sorted c.keywords) KeywordTable.standardWords
  match KeywordTable.build words with
  | .ok t => return some t
  | .error bucket => throw (KeywordTable.unplacedMessage bucket)

def addPrefixes : List (Bytes × Bytes) → PrefixTable → Except Bytes PrefixTable
  | [], t => .ok t
  | (name, kind) :: rest, t =>
    match PrefixKind.ofName? kind with
    | none => .error ("prefix " ++ name ++ ": unknown kind " ++ Quoted.text kind)
    | some k => addPrefixes rest (t.insert name k)

def prefixTable? (c : Config) : Except Bytes (Option PrefixTable) := do
  if c.prefixes.isEmpty then return none
  return some (← addPrefixes (sorted c.prefixes) PrefixTable.standard)

def tables (c : Config) : Except Bytes Tables := do
  let keywords ← c.keywordTable?
  let prefixes ← c.prefixTable?
  return ⟨keywords.getD KeywordTable.standard, prefixes.getD PrefixTable.standard⟩

def compiler (c : Config) (globals : Globals) (evaluator : Evaluator) : Except Bytes Compiler := do
  let blockSize : Int := if 0 < c.blockSize then c.blockSize else Builder.defaultBlockSize
  return { tables := ← c.tables, globals, blockSize, evaluator }

def saltSection (name : Bytes) (entries : List (Bytes × Bytes)) : Bytes :=
  (sorted entries).flatMap fun e => ";" ++ name ++ "." ++ e.1 ++ "=" ++ e.2

/-- A text that tells apart settings under which compiled code can differ. -/
def salt (c : Config) : Bytes :=
  "block-size=" ++ Bytes.ofInt c.blockSize ++ saltSection "keywords" c.keywords ++
    saltSection "prefixes" c.prefixes

end Config

end StagedScript
