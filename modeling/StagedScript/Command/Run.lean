import StagedScript.Code.Verify
import StagedScript.Command.Address
import StagedScript.Command.Flag
import StagedScript.Command.Shell
import StagedScript.Config
import StagedScript.Service.Worker
import StagedScript.Session

/-!
# The commands

A command line has flags, the name of a command, and its arguments.  Commands work on the sources of
a project, which are those of its settings or those named by arguments.
-/

namespace StagedScript

def WorkFailure.detail : WorkFailure → Bytes
  | .source e => e.detail
  | f => f.message

namespace Command

inductive Name where
  | compile
  | check
  | listing
  | run
  | format
  | console
  | service
  | editor
  | cache

def names : List (Bytes × Name × Bytes) := [
  ("compile", .compile, "compile sources and write .minc files"),
  ("check", .check, "report compile errors without writing output"),
  ("dis", .listing, "print the bytecode listing of sources"),
  ("run", .run, "compile and run a source file"),
  ("fmt", .format, "print or rewrite sources in canonical form"),
  ("repl", .console, "start an interactive session"),
  ("serve", .service, "start the gRPC compile service"),
  ("lsp", .editor, "start the language server on stdio"),
  ("cache", .cache, "inspect or clear the compile cache")]

def globalFlags : List Flag := [
  { name := "C", kind := .text, usage := "Directory to search for " ++ Config.fileName,
    initial := "." },
  { name := "no-cache", kind := .toggle, usage := "Disable the compile cache" },
  { name := "v", kind := .int, usage := "Log verbosity (overrides [log] verbosity)",
    initial := "-1" }]

def summaryLine (name summary : Bytes) : Bytes :=
  "  " ++ Bytes.padRight 8 0x20 name ++ " " ++ summary ++ [Bytes.newline]

def usage : Bytes :=
  let commands : Bytes := names.flatMap fun (name, _, summary) => summaryLine name summary
  "Usage: minic [options] <command> [arguments]\n\nCommands:\n" ++ commands ++
    "\nOptions:\n" ++ Flag.describe globalFlags ++
    "\nWithout file arguments, compile, check and dis use the sources listed in " ++
    Config.fileName ++ ".\n"

structure Env where
  config : Config
  compiler : Compiler
  cache : Option Cache := none

inductive Ending where
  | exit (code : Nat)
  | console (c : Console)
  | service (address : Bytes)
  | editor

variable {m : Type → Type} [Monad m]

/-- The work of a command, which fails with a message. What happened before it failed stays. -/
abbrev Job (m : Type → Type) := ExceptT Bytes (StateT Env m)

def attempt {α : Type} (action : m (Except Bytes α)) : Job m α := ExceptT.mk (StateT.lift action)

def act {α : Type} (action : m α) : Job m α := ExceptT.lift (StateT.lift action)

/-! ### Sources -/

def configuredFiles (sh : Shell m) : Job m (List Bytes) := do
  let c := (← get).config
  let found ← c.sourcePaths.mapM fun dir => attempt do
    return (← sh.findFiles c.extension true dir).mapError fun e => "scanning " ++ dir ++ ": " ++ e
  return Bytes.sort found.flatten.eraseDups

def filesOf (sh : Shell m) (arg : Bytes) : Job m (List Bytes) := do
  let c := (← get).config
  attempt do
    match ← sh.kind arg with
    | .error f => return .error (Shell.fault "stat" arg f)
    | .ok .file => return .ok [arg]
    | .ok .directory => sh.findFiles c.extension false arg

def sourceFiles (sh : Shell m) (args : List Bytes) : Job m (List Bytes) := do
  if args.isEmpty then configuredFiles sh else return (← args.mapM (filesOf sh)).flatten

def failWith (messages : List Bytes) : Job m Unit :=
  if messages.isEmpty then pure () else throw (Bytes.join [Bytes.newline] messages)

abbrev Emit (m : Type → Type) := Shown → (path : Bytes) → Func → m (Except Bytes Unit)

/-- Compiles sources one after the other. Those that fail do not stop the others. -/
def compileEach (sh : Shell m) (emit : Emit m) : List Bytes → Worker → m (List Bytes × Worker)
  | [], w => return ([], w)
  | path :: rest, w => do
    match ← sh.readFile path with
    | .error e =>
      let (errors, w) ← compileEach sh emit rest w
      return (e :: errors, w)
    | .ok text =>
      match w.compile .never path text with
      | (.error f, w) =>
        let (errors, w) ← compileEach sh emit rest w
        return (f.detail :: errors, w)
      | (.ok (fn, _), w) =>
        match ← emit w.heap.shown path fn with
        | .ok _ => compileEach sh emit rest w
        | .error e =>
          let (errors, w) ← compileEach sh emit rest w
          return ((path ++ ": " ++ e) :: errors, w)

def compileFiles (sh : Shell m) (emit : Emit m) (files : List Bytes) : Job m Unit := do
  let env ← get
  let w : Worker := { compiler := env.compiler, cache := env.cache, salt := env.config.salt }
  let (errors, w) ← act (compileEach sh emit files w)
  set { env with cache := w.cache }
  failWith errors

/-! ### Commands -/

def objectExtension : Bytes := ".minc"

def objectPath (path dir : Bytes) : Bytes :=
  let object := path.take (path.length - (Path.extension path).length) ++ objectExtension
  if dir.isEmpty then object else Path.join dir (Path.base object)

def titledListing (sh : Shown) (path : Bytes) (fn : Func) : Bytes :=
  "; " ++ path ++ "\n" ++ fn.listing sh ++ "\n"

def takeFlags (sh : Shell m) (command : Bytes) (flags : List Flag) (args : List Bytes) :
    Job m (Flag.Settings × List Bytes) := do
  match Flag.parse flags args [] with
  | .ok r => return r
  | .error e =>
    act (sh.err (e.notice (Flag.usageOf command flags)))
    throw e.message

def compileFlags : List Flag := [
  { name := "S", kind := .toggle, usage := "Print the bytecode listing of each file" },
  { name := "o", kind := .text,
    usage := "Directory for .minc files (default: next to each source)" }]

def compile (sh : Shell m) (args : List Bytes) : Job m Unit := do
  let (settings, args) ← takeFlags sh "compile" compileFlags args
  let files ← sourceFiles sh args
  let dir := (Flag.value? settings "o").getD []
  if !dir.isEmpty then attempt (sh.makeDirectories dir)
  let emit : Emit m := fun shown path fn => do
    if Flag.isOn settings "S" then sh.out (titledListing shown path fn)
    match fn.encode with
    | .error u => return .error u.message
    | .ok code => sh.writeFile (objectPath path dir) code
  compileFiles sh emit files

def check (sh : Shell m) (args : List Bytes) : Job m Unit := do
  let files ← sourceFiles sh args
  compileFiles sh (fun _ _ _ => pure (.ok ())) files
  act (sh.out (Bytes.ofNat files.length ++ " files ok\n"))

def list (sh : Shell m) (args : List Bytes) : Job m Unit := do
  let emit : Emit m := fun shown path fn => do
    sh.out (titledListing shown path fn)
    return .ok ()
  compileFiles sh emit (← sourceFiles sh args)

/-- The function of a source, or of a compiled source, and the heap of its values. -/
def load (c : Compiler) (path content : Bytes) : Except Bytes (Func × Heap) :=
  if Path.extension path = objectExtension then
    match Func.decode content with
    | .error e => .error e.message
    | .ok fn => match fn.verify with
      | .error e => .error e.message
      | .ok _ => .ok (fn, {})
  else
    let r := c.compileText {} .never path content
    match r.outcome with
    | .func fn => .ok (fn, r.heap)
    | .error e => .error e.detail
    | .stuck | .unfinished => .error Worker.missingPart

def runFile (sh : Shell m) (args : List Bytes) : Job m Unit := do
  match args with
  | [path] =>
    let content ← attempt (sh.readFile path)
    let (fn, heap) ← attempt (pure (load (← get).compiler path content))
    let r := Machine.call heap .never (.func fn) []
    match r.outcome with
    | .value .nil => return
    | .value v => act (sh.out (v.display r.heap.shown ++ [Bytes.newline]))
    | .raised e => throw e.display
    | .cancelled => throw cancelledMessage
    | .stuck | .unfinished => throw Worker.missingPart
  | _ => attempt (pure (.error "usage: minic run <file>"))

def formatted (c : Compiler) (path text : Bytes) : Except Bytes Bytes :=
  match c.parse {} path text with
  | .error e => .error e.detail
  | .ok (tree, _) =>
    .ok (Bytes.dropEndWhile (· = Bytes.newline) (tree.format Shown.plain) ++ [Bytes.newline])

/-- Whether a text may have comments, which its usual form does not keep. -/
def mayHaveComments (text : Bytes) : Bool := Bytes.hasPart ":>" text || Bytes.hasPart ":<" text

def formatFlags : List Flag := [
  { name := "l", kind := .toggle, usage := "List files whose formatting differs" },
  { name := "w", kind := .toggle, usage := "Rewrite files in place instead of printing them" }]

def formatFile (sh : Shell m) (c : Compiler) (settings : Flag.Settings) (path : Bytes) :
    m (Except Bytes Unit) := do
  match ← sh.readFile path with
  | .error e => return .error e
  | .ok text => match formatted c path text with
    | .error e => return .error e
    | .ok new =>
      let isChanged := text ≠ new
      if Flag.isOn settings "l" then
        if isChanged then sh.out (path ++ [Bytes.newline])
        return .ok ()
      else if Flag.isOn settings "w" then
        if isChanged && mayHaveComments text then
          return .error (path ++ ": not rewritten, comments would be lost")
        else if isChanged then sh.writeFile path new
        else return .ok ()
      else
        sh.out new
        return .ok ()

def format (sh : Shell m) (args : List Bytes) : Job m Unit := do
  let (settings, args) ← takeFlags sh "fmt" formatFlags args
  let files ← sourceFiles sh args
  let c := (← get).compiler
  let results ← files.mapM fun path => act (formatFile sh c settings path)
  failWith (results.filterMap fun
    | .ok _ => none
    | .error e => some e)

def serve (sh : Shell m) (args : List Bytes) : Job m Ending := do
  let flags : List Flag := [
    { name := "addr", kind := .text, usage := "Address to listen on",
      initial := (← get).config.address }]
  let (settings, _) ← takeFlags sh "serve" flags args
  let address := (Flag.value? settings "addr").getD (← get).config.address
  act (sh.err ("minilang compile service listening on " ++ address ++ "\n"))
  match Address.fault? address with
  | some f => attempt (pure (.error ("listen tcp: " ++ f.message)))
  | none => return .service address

def cache (sh : Shell m) (args : List Bytes) : Job m Unit := do
  let env ← get
  match env.cache with
  | none => attempt (pure (.error "compile cache is disabled (set [cache] enabled = true)"))
  | some c =>
    let what := args.headD "stats"
    if what = Bytes.ofString "stats" then
      act (sh.out (env.config.cacheFile ++ ": " ++ Bytes.ofNat c.size ++ " entries\n"))
    else if what = Bytes.ofString "clear" then set { env with cache := some c.clear }
    else throw ("unknown cache command " ++ Quoted.text what ++ " (want stats or clear)")

def perform (sh : Shell m) (name : Name) (args : List Bytes) : Job m Ending := do
  match name with
  | .compile => compile sh args; return .exit 0
  | .check => check sh args; return .exit 0
  | .listing => list sh args; return .exit 0
  | .run => runFile sh args; return .exit 0
  | .format => format sh args; return .exit 0
  | .console =>
    act (sh.out Console.greeting)
    return .console { session := .ofCompiler (← get).compiler }
  | .service => serve sh args
  | .editor => return .editor
  | .cache => cache sh args; return .exit 0

/-! ### Settings and surroundings -/

def absolute (sh : Shell m) (path : Bytes) : m Bytes := do
  if Path.isAbsolute path then return Path.clean path else return Path.join (← sh.directory) path

def readConfig (sh : Shell m) (dir path : Bytes) : m (Except Bytes Config) := do
  match ← sh.readFile path with
  | .error e => return .error ("cannot read " ++ path ++ ": " ++ e)
  | .ok text => match Config.parse text with
    | .error e => return .error ("parse error in " ++ path ++ ": " ++ e.message)
    | .ok c => return .ok { c with dir }

/-- Finds the settings in a directory or one above it. `fuel` bounds the number of directories. -/
def findConfig (sh : Shell m) : (fuel : Nat) → Bytes → m (Except Bytes (Option Config))
  | 0, _ => return .ok none
  | fuel + 1, dir => do
    let path := Path.join dir Config.fileName
    match ← sh.kind path with
    | .ok _ => return (← readConfig sh dir path).map some
    | .error _ =>
      let above := Path.directory dir
      if above = dir then return .ok none else findConfig sh fuel above

def loadConfig (sh : Shell m) (dir : Bytes) : m (Except Bytes Config) := do
  let start ← absolute sh dir
  match ← findConfig sh (start.length + 1) start with
  | .error e => return .error e
  | .ok none => return .ok (.standard dir)
  | .ok (some c) => return .ok c

def silent : Int := -4

def openLog (sh : Shell m) (c : Config) (verbosity : Int) : m (Except Bytes Unit) := do
  let verbosity := if verbosity < 0 then c.verbosity else verbosity
  if c.logFile.isEmpty || verbosity ≤ silent then return .ok ()
  return (← sh.touch c.logFile).mapError fun f =>
    "log file error: " ++ Shell.fault "open" c.logFile f

/-- Opens the cache, or makes an empty one. Without it, commands go on. -/
def openCache (sh : Shell m) (path : Bytes) : m (Option Cache) := do
  match ← sh.makeDirectories (Path.directory path) with
  | .error _ => return none
  | .ok _ => match ← sh.read path with
    | .ok content => return if content.isEmpty then some {} else Cache.ofBytes? content
    | .error .missing => match ← sh.write path (Cache.toBytes {}) with
      | .ok _ => return some {}
      | .error _ => return none
    | .error _ => return none

def runWith (sh : Shell m) (config : Config) (name : Name) (args : List Bytes) : m Ending := do
  match config.compiler .prelude .machine with
  | .error e =>
    sh.err (Config.fileName ++ ": " ++ e ++ "\n")
    return .exit 1
  | .ok compiler =>
    let cache ← if config.cacheEnabled then openCache sh config.cacheFile else pure none
    let (result, env) ← (perform sh name args).run.run { config, compiler, cache }
    if let some c := env.cache then
      let _ ← sh.write config.cacheFile c.toBytes
    match result with
    | .ok ending => return ending
    | .error e =>
      sh.err (e ++ [Bytes.newline])
      return .exit 1

def run (sh : Shell m) (args : List Bytes) : m Ending := do
  match Flag.parse globalFlags args [] with
  | .error e =>
    sh.err (e.notice usage)
    return .exit (match e with
      | .help => 0
      | _ => 2)
  | .ok (_, []) =>
    sh.err usage
    return .exit 2
  | .ok (settings, name :: args) =>
    match ← loadConfig sh ((Flag.value? settings "C").getD ".") with
    | .error e =>
      sh.err ("Error: " ++ e ++ "\n")
      return .exit 1
    | .ok config =>
      let verbosity := match (Flag.value? settings "v").map Flag.readInt with
        | some (.ok n) => n
        | _ => -1
      match ← openLog sh config verbosity with
      | .error e =>
        sh.err (e ++ [Bytes.newline])
        return .exit 1
      | .ok _ =>
        let config := if Flag.isOn settings "no-cache" then { config with cacheEnabled := false }
          else config
        match names.lookup name with
        | some (command, _) => runWith sh config command args
        | none =>
          sh.err ("minic: unknown command " ++ Quoted.text name ++ "\n" ++ usage)
          return .exit 2

structure Result where
  exit : Nat
  out : Bytes
  err : Bytes
  disk : Disk

def runOn (disk : Disk) (stdin : Bytes) (args : List Bytes) : Result :=
  let (ending, disk) := (run Disk.shell args).run { disk with out := [], err := [] }
  match ending with
  | .exit code => ⟨code, disk.out, disk.err, disk⟩
  | .console c =>
    let e := c.feedAll (Console.lines stdin)
    ⟨0, disk.out ++ e.out, disk.err ++ e.err, disk⟩
  | .service _ | .editor => ⟨0, disk.out, disk.err, disk⟩

end Command

end StagedScript
