import StagedScript.Text.Path

/-!
# What commands ask of their surroundings

Commands read and write files and show texts.  A `Shell` gives them these actions in some monad.
`Disk` is a shell whose files are kept in memory, so that a command can be run as a pure function.
-/

namespace StagedScript

inductive FileFault where
  | missing
  | notDirectory
  | isDirectory
  | taken
  | other (message : Bytes)

def FileFault.message : FileFault → Bytes
  | .missing => "no such file or directory"
  | .notDirectory => "not a directory"
  | .isDirectory => "is a directory"
  | .taken => "file exists"
  | .other message => message

inductive NodeKind where
  | file
  | directory
  deriving DecidableEq

structure Shell (m : Type → Type) where
  directory : m Bytes
  kind : Bytes → m (Except FileFault NodeKind)
  names : Bytes → m (Except FileFault (List Bytes))
  read : Bytes → m (Except FileFault Bytes)
  write : Bytes → Bytes → m (Except FileFault Unit)
  touch : Bytes → m (Except FileFault Unit)
  makeDirectory : Bytes → m (Except FileFault Unit)
  out : Bytes → m Unit
  err : Bytes → m Unit

namespace Shell

variable {m : Type → Type} [Monad m]

def fault (operation path : Bytes) (f : FileFault) : Bytes :=
  operation ++ " " ++ path ++ ": " ++ f.message

def readFile (sh : Shell m) (path : Bytes) : m (Except Bytes Bytes) := do
  match ← sh.read path with
  | .ok s => return .ok s
  | .error .isDirectory => return .error (fault "read" path .isDirectory)
  | .error f => return .error (fault "open" path f)

def writeFile (sh : Shell m) (path content : Bytes) : m (Except Bytes Unit) := do
  return (← sh.write path content).mapError (fault "open" path)

def parent (path : Bytes) : Bytes :=
  let stripped := Bytes.dropEndWhile (· = Path.slash) path
  stripped.take (stripped.length - (Path.afterSlash stripped).length)

/-- Makes a directory and those above it. `fuel` bounds the number of parts. -/
def makeAll (sh : Shell m) : (fuel : Nat) → Bytes → m (Except Bytes Unit)
  | 0, path => return .error (fault "mkdir" path .missing)
  | fuel + 1, path => do
    match ← sh.kind path with
    | .ok .directory => return .ok ()
    | .ok .file => return .error (fault "mkdir" path .notDirectory)
    | .error _ =>
      let above := parent path
      let made ← if above.isEmpty then pure (.ok ()) else makeAll sh fuel above
      match made with
      | .error e => return .error e
      | .ok _ => match ← sh.makeDirectory path with
        | .ok _ => return .ok ()
        | .error f => match ← sh.kind path with
          | .ok .directory => return .ok ()
          | _ => return .error (fault "mkdir" path f)

def makeDirectories (sh : Shell m) (path : Bytes) : m (Except Bytes Unit) :=
  sh.makeAll (path.length + 1) path

def maxDepth : Nat := 4096

def filesBelow (sh : Shell m) (extension : Bytes) (skipsHidden : Bool) :
    (fuel : Nat) → (isTop : Bool) → Bytes → m (Except Bytes (List Bytes))
  | 0, _, _ => return .ok []
  | fuel + 1, isTop, path => do
    match ← sh.kind path with
    | .error f => return .error (fault "lstat" path f)
    | .ok .file => return .ok (if Path.extension path = extension then [path] else [])
    | .ok .directory =>
      if !isTop && skipsHidden && (Path.base path).head? = some 0x2e then return .ok []
      match ← sh.names path with
      | .error f => return .error (fault "open" path f)
      | .ok names =>
        names.foldlM (fun (found : Except Bytes (List Bytes)) name => do
          match found with
          | .error e => return .error e
          | .ok found =>
            return (← filesBelow sh extension skipsHidden fuel false (Path.join path name)).map
              (found ++ ·)) (.ok [])

def findFiles (sh : Shell m) (extension : Bytes) (skipsHidden : Bool) (path : Bytes) :
    m (Except Bytes (List Bytes)) := do
  return (← sh.filesBelow extension skipsHidden maxDepth true path).map Bytes.sort

end Shell

/-! ### Files in memory -/

inductive Node where
  | file (content : Bytes)
  | directory

def Node.kind : Node → NodeKind
  | .file _ => .file
  | .directory => .directory

structure Disk where
  current : List Bytes := []
  /-- The files and directories by the parts of their paths. The root is not among them. -/
  nodes : List (List Bytes × Node) := []
  out : Bytes := []
  err : Bytes := []

namespace Disk

def node? (d : Disk) (parts : List Bytes) : Option Node :=
  if parts.isEmpty then some .directory else d.nodes.lookup parts

def put (d : Disk) (parts : List Bytes) (n : Node) : Disk :=
  { d with nodes := d.nodes.filter (·.1 ≠ parts) ++ [(parts, n)] }

def putAbove (d : Disk) (parts : List Bytes) : Disk :=
  ((List.range parts.length).map fun n => parts.take (n + 1)).foldl
    (fun d start => if (d.node? start).isSome then d else d.put start .directory) d

def ofFiles (current : List Bytes) (files : List (Bytes × Bytes)) : Disk :=
  files.foldl (fun d f =>
    let parts := current ++ Path.parts f.1
    (d.putAbove parts.dropLast).put parts (.file f.2)) (putAbove { current } current)

def files (d : Disk) : List (Bytes × Bytes) :=
  d.nodes.filterMap fun (parts, n) => match n with
    | .file content =>
      if d.current.isPrefixOf parts then
        some (Bytes.join [Path.slash] (parts.drop d.current.length), content)
      else none
    | .directory => none

/-- Follows the parts of a path. All but the last one must lead to directories. -/
def follow (d : Disk) : (place : List Bytes) → List Bytes → Except FileFault (List Bytes)
  | place, [] => .ok place
  | place, p :: rest =>
    match d.node? place with
    | none => .error .missing
    | some (.file _) => .error .notDirectory
    | some .directory =>
      if p = [0x2e] then follow d place rest
      else if p = [0x2e, 0x2e] then follow d place.dropLast rest
      else follow d (place ++ [p]) rest

/-- The place of a path. A path that ends in a slash does not lead to a file. -/
def locate (d : Disk) (path : Bytes) : Except FileFault (List Bytes) := do
  if path.isEmpty then throw .missing
  let start := if Path.isAbsolute path then [] else d.current
  let place ← d.follow start (Path.parts path)
  match d.node? place with
  | some (.file _) => if path.getLast? = some Path.slash then throw .notDirectory else return place
  | _ => return place

def find (d : Disk) (path : Bytes) : Except FileFault Node := do
  match d.node? (← d.locate path) with
  | some n => return n
  | none => throw .missing

def namesIn (d : Disk) (path : Bytes) : Except FileFault (List Bytes) := do
  let place ← d.locate path
  match d.node? place with
  | none => throw .missing
  | some (.file _) => throw .notDirectory
  | some .directory =>
    return Bytes.sort (d.nodes.filterMap fun (parts, _) =>
      if parts.dropLast = place then parts.getLast? else none)

def writeFile (d : Disk) (path content : Bytes) : Except FileFault Disk := do
  let place ← d.locate path
  match d.node? place with
  | some .directory => throw .isDirectory
  | some (.file _) => return d.put place (.file content)
  | none =>
    if path.getLast? = some Path.slash then throw .isDirectory
    return d.put place (.file content)

def makeDirectory (d : Disk) (path : Bytes) : Except FileFault Disk := do
  match d.locate path with
  | .error .notDirectory =>
    -- A slash after the name of a file does not change that the name is taken.
    match d.locate (Bytes.dropEndWhile (· = Path.slash) path) with
    | .ok place => if (d.node? place).isSome then throw .taken else return d.put place .directory
    | .error f => throw f
  | .error f => throw f
  | .ok place => if (d.node? place).isSome then throw .taken else return d.put place .directory

def update (r : Disk → Except FileFault Disk) : StateM Disk (Except FileFault Unit) := fun d =>
  match r d with
  | .ok d => (.ok (), d)
  | .error f => (.error f, d)

def shell : Shell (StateM Disk) where
  directory := return Path.slash :: Bytes.join [Path.slash] (← get).current
  kind path := return ((← get).find path).map Node.kind
  names path := return (← get).namesIn path
  read path := return match (← get).find path with
    | .ok (.file content) => .ok content
    | .ok .directory => .error .isDirectory
    | .error f => .error f
  write path content := update fun d => d.writeFile path content
  touch path := update fun d => match d.find path with
    | .ok (.file _) => .ok d
    | _ => d.writeFile path []
  makeDirectory path := update fun d => d.makeDirectory path
  out text := modify fun d => { d with out := d.out ++ text }
  err text := modify fun d => { d with err := d.err ++ text }

end Disk

end StagedScript
