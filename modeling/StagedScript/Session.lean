import StagedScript.Code.Listing
import StagedScript.Compile
import StagedScript.Text.Blank

/-!
# Interactive sessions

A session reads expressions, runs them, and shows their values.  The last value is the global `ans`.
Input that ends too early is kept until its other lines have come.
-/

namespace StagedScript

/-- An error that only says that the text has ended too early. -/
def SourceError.isIncomplete (e : SourceError) : Bool :=
  (e.category = .grammatical || e.category = .lexical) &&
    (Bytes.hasPart "<end of input>" e.message || (Bytes.dropStart? "unterminated" e.message).isSome)

inductive EvalFailure where
  | incomplete
  | source (e : SourceError)
  | raised (e : Raised)
  | cancelled
  | broken

def EvalFailure.detail : EvalFailure → Bytes
  | .incomplete => "incomplete input"
  | .source e => e.detail
  | .raised e => e.display
  | .cancelled => cancelledMessage
  | .broken => []

structure Session where
  tables : Tables := .standard
  blockSize : Int := Builder.defaultBlockSize
  members : List Member := []
  heap : Heap := {}
  showsListings : Bool := false

namespace Session

def source : Bytes := "repl"

def ofCompiler (c : Compiler) : Session := { tables := c.tables, blockSize := c.blockSize }

def compiler (s : Session) : Compiler where
  tables := s.tables
  blockSize := s.blockSize
  globals := .table s.members Globals.prelude.lookup
  evaluator := .machine

def line (text : Bytes) : Bytes := text ++ [Bytes.newline]

def run (s : Session) (fn : Func) : Except EvalFailure Bytes × Session :=
  let r := Machine.call s.heap .never (.func fn) []
  let s := { s with heap := r.heap }
  match r.outcome with
  | .value v =>
    (.ok (line (v.display s.heap.shown)), { s with members := Globals.define s.members "ans" v })
  | .raised e => (.error (.raised e), s)
  | .cancelled => (.error .cancelled, s)
  | .stuck | .unfinished => (.error .broken, s)

structure Shown where
  out : Bytes
  failure : Option EvalFailure := none

def eval (s : Session) (input : Bytes) : Shown × Session :=
  match s.compiler.parse s.heap source input with
  | .error e => (⟨[], some (if e.isIncomplete then .incomplete else .source e)⟩, s)
  | .ok (tree, heap) =>
    let r := s.compiler.compile heap .never tree
    let s := { s with heap := r.heap }
    match r.outcome with
    | .error e => (⟨[], some (.source e)⟩, s)
    | .stuck | .unfinished => (⟨[], some .broken⟩, s)
    | .func fn =>
      let listing := if s.showsListings then line (fn.listing s.heap.shown) else []
      match s.run fn with
      | (.ok shown, s) => (⟨listing ++ shown, none⟩, s)
      | (.error f, s) => (⟨listing, some f⟩, s)

/-- Whether a line is a command. Quotes and comments also start with a colon. -/
def isCommand (text : Bytes) : Bool :=
  match Bytes.trim text with
  | 0x3a :: c :: _ => c = 0x3f || (0x61 ≤ c && c ≤ 0x7a)
  | _ => false

def help : Bytes :=
  "REPL Commands:\n" ++ "  :help, :h, :?     Show this help\n" ++
    "  :dis              Toggle bytecode listings\n" ++
    "  :globals          List names bound in this session\n" ++
    "  :quit, :q         Exit REPL\n" ++
    "The value of the last expression is available as ans.\n"

inductive Command where
  | help
  | listings
  | globals
  | quit

def commands : List (Bytes × Command) :=
  [(":help", .help), (":h", .help), (":?", .help), (":dis", .listings), (":globals", .globals),
    (":quit", .quit), (":q", .quit)]

structure Reply where
  out : Bytes
  quit : Bool := false

def command (s : Session) (text : Bytes) : Reply × Session :=
  match commands.lookup (Bytes.trim text) with
  | some .help => (⟨help, false⟩, s)
  | some .listings =>
    let s := { s with showsListings := !s.showsListings }
    let state : Bytes := if s.showsListings then "on" else "off"
    (⟨line ("listings " ++ state), false⟩, s)
  | some .globals =>
    (⟨line (Bytes.join " " (Bytes.sort (s.members.map (·.name)))), false⟩, s)
  | some .quit => (⟨[], true⟩, s)
  | none => (⟨line ("unknown command " ++ text ++ " (try :help)"), false⟩, s)

end Session

structure Console where
  session : Session
  pending : Bytes := []

namespace Console

def greeting : Bytes := "minilang REPL (:help for commands, Ctrl-D to quit)\n"

structure Effect where
  out : Bytes := []
  err : Bytes := []
  quit : Bool := false

/-- A tab. It asks for completions, of which there are none, and does not go into the line. -/
def tab : UInt8 := 0x09

def bell : UInt8 := 0x07

/-- A line as it is typed: without tabs, and with the replacement character for stray bytes. -/
def typed (text : Bytes) : Bytes :=
  (Utf8.pieces (text.filter (· ≠ tab))).flatMap fun p => Utf8.encode p.code

def isEnter (c : UInt8) : Bool := c = 0x0a || c = 0x0d

def lines : Bytes → List Bytes
  | [] => []
  | c :: rest =>
    if isEnter c then [] :: lines rest
    else match lines rest with
      | [] => [[c]]
      | next :: later => (c :: next) :: later

def take (c : Console) (text : Bytes) : Effect × Console :=
  if c.pending.isEmpty && Session.isCommand text then
    let (r, session) := c.session.command text
    ({ out := r.out, quit := r.quit }, { c with session })
  else
    let input := c.pending ++ Session.line text
    if (Bytes.trim input).isEmpty then ({}, { c with pending := [] })
    else
      let (shown, session) := c.session.eval input
      match shown.failure with
      | none => ({ out := shown.out }, { session })
      | some .incomplete => ({ out := shown.out }, { session, pending := input })
      | some f => ({ out := shown.out, err := Session.line f.detail }, { session })

def feed (c : Console) (text : Bytes) : Effect × Console :=
  let (e, c) := c.take (typed text)
  ({ e with out := List.replicate (text.count tab) bell ++ e.out }, c)

def feedAll (c : Console) : List Bytes → Effect
  | [] => {}
  | text :: rest =>
    match c.feed text with
    | (e, c) =>
      if e.quit then e
      else
        let later := c.feedAll rest
        { out := e.out ++ later.out, err := e.err ++ later.err, quit := later.quit }

end Console

end StagedScript
