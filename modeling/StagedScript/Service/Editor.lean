import StagedScript.Service.Diagnostic

/-!
# Support for editors

An editor opens documents, changes them and closes them.  Each time it gets the problems in the
document.  It can ask for names that complete a word, for the meaning of a word, and for the
declarations of a name.
-/

namespace StagedScript

structure Editor where
  worker : Worker
  documents : List (Bytes × Bytes) := []

namespace Editor

def name : Bytes := "minilang-lsp"

def version : Bytes := "0.1.0"

/-- Documents are sent as a whole whenever they change. -/
def syncKind : Nat := 1

/-- Everything that is reported is an error. -/
def severity : Nat := 1

/-- A whole line, from its start to the start of the next one. The first line is zero. -/
structure LineRange where
  line : Nat

/-- The range of a line, where the first line is one. -/
def lineRange (line : Int) : LineRange := ⟨(line - 1).toNat⟩

structure Report where
  range : LineRange
  code : Bytes
  message : Bytes

structure Published where
  uri : Bytes
  reports : List Report

/-- The line of a problem in a document, or of the outermost place in the document that it was found
through. -/
def lineIn (uri : Bytes) (d : Diagnostic) (isPlaced : Bool) : Nat :=
  if !isPlaced || d.position.source = uri then d.position.line
  else ((d.trace.filter fun p => p.source = uri).getLast?.map (·.line)).getD 0

def reportOf (uri : Bytes) (f : WorkFailure) : Report :=
  let d := f.diagnostic
  let isPlaced := match f with
    | .source _ => true
    | _ => false
  ⟨lineRange (lineIn uri d isPlaced), d.category.title,
    d.trace.foldl (fun text p => text ++ "\n\tat " ++ p.display) d.message⟩

def publish (e : Editor) (uri text : Bytes) : Published × Editor :=
  match e.worker.check .never uri text with
  | (.ok _, worker) => (⟨uri, []⟩, { e with worker })
  | (.error f, worker) => (⟨uri, [reportOf uri f]⟩, { e with worker })

def openDocument (e : Editor) (uri text : Bytes) : Published × Editor :=
  publish { e with documents := (uri, text) :: e.documents.filter (·.1 ≠ uri) } uri text

def change (e : Editor) (uri : Bytes) (texts : List Bytes) : Option Published × Editor :=
  match texts.getLast? with
  | none => (none, e)
  | some text => let (p, e) := e.openDocument uri text; (some p, e)

def close (e : Editor) (uri : Bytes) : Published × Editor :=
  (⟨uri, []⟩, { e with documents := e.documents.filter (·.1 ≠ uri) })

def shutdown (e : Editor) : Editor := { e with worker := e.worker.stop }

/-! ### Words -/

/-- A line of a text before and after a column. A column beyond the end of the line is its end. -/
def lineAround (text : Bytes) (line column : Nat) : Option (Bytes × Bytes) :=
  (Bytes.splitAtByte Bytes.newline text)[line]?.map fun l => (l.take column, l.drop column)

def wordEnd (before : Bytes) : Bytes := (before.reverse.takeWhile CharClass.isWord).reverse

def wordBefore (text : Bytes) (line column : Nat) : Bytes :=
  match lineAround text line column with
  | none => []
  | some (before, _) => wordEnd before

def wordAt (text : Bytes) (line column : Nat) : Bytes :=
  match lineAround text line column with
  | none => []
  | some (before, after) => wordEnd before ++ after.takeWhile CharClass.isWord

/-! ### Requests -/

inductive CompletionKind where
  | keyword
  | global

def CompletionKind.code : CompletionKind → Nat
  | .keyword => 14
  | .global => 6

def CompletionKind.detail : CompletionKind → Bytes
  | .keyword => "keyword"
  | .global => "global"

def maxCompletions : Nat := 100

def completions (c : Compiler) (start : Bytes) : List (Bytes × CompletionKind) :=
  let starts (w : Bytes) : Bool := (Bytes.dropStart? start w).isSome
  let words := c.tables.keywords.words.filter fun w => !w.isEmpty && starts w
  let names := (c.globals.names.getD []).filter starts
  let all := words.map (·, CompletionKind.keyword) ++ names.map (·, CompletionKind.global)
  all.take maxCompletions

def complete (e : Editor) (uri : Bytes) (line column : Nat) :
    Option (List (Bytes × CompletionKind)) :=
  match e.documents.lookup uri with
  | none => none
  | some text =>
    let start := wordBefore text line column
    if start.isEmpty then none else some (completions e.worker.compiler start)

def word? (e : Editor) (uri : Bytes) (line column : Nat) : Option (Bytes × Bytes) :=
  match e.documents.lookup uri with
  | none => none
  | some text =>
    let word := wordAt text line column
    if word.isEmpty then none else some (text, word)

def hover (e : Editor) (uri : Bytes) (line column : Nat) : Option Bytes := do
  let (_, word) ← e.word? uri line column
  let c := e.worker.compiler
  if (c.tables.keywords.lookup word).isSome then return "**" ++ word ++ "** keyword"
  match c.globals.lookup word with
  | .ok (some v) =>
    return "**" ++ word ++ "** global\n\n`" ++ v.display e.worker.heap.shown ++ "`"
  | _ => none

/-- The lines of the declarations of a name in a function and those within it. -/
def declarations (fn : Func) (word : Bytes) (line : Nat) : List Int :=
  let found := fn.nested.flatMap fun f => (f.decls.filter fun d => d.name = word).map (·.line)
  let lines := found.mergeSort fun a b => a ≤ b
  match (lines.filter fun l => l ≤ (line : Int)).getLast? with
  | some l => [l]
  | none => lines

def definition (e : Editor) (uri : Bytes) (line column : Nat) : Option (List LineRange) × Editor :=
  match e.word? uri line column with
  | none => (none, e)
  | some (text, word) =>
    match e.worker.check .never uri text with
    | (.error _, worker) => (none, { e with worker })
    | (.ok fn, worker) =>
      let lines := declarations fn word (line + 1)
      (if lines.isEmpty then none else some (lines.map lineRange), { e with worker })

end Editor

end StagedScript
