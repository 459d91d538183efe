import StagedScript.Command.Run

/-!
# The program

Carries out the command line on the files of the system.  Everything that is decided is decided by
`Command.run`; here its actions are those of the system.
-/

namespace StagedScript

namespace Main

def toText (b : Bytes) : String := (String.fromUTF8? ⟨b.toArray⟩).getD ""

def place (path : Bytes) := do return (← IO.currentDir) / toText path

def faultOf (path : Bytes) (e : IO.Error) : IO FileFault := do
  match e with
  | .noFileOrDirectory .. => return .missing
  | .alreadyExists .. => return .taken
  | .inappropriateType .. =>
    return if ← (← place path).isDir then .isDirectory else .notDirectory
  | e => return .other (Bytes.ofString (toString e))

def guarded {α : Type} (path : Bytes) (action : IO α) : IO (Except FileFault α) := do
  try
    if path.isEmpty then return .error .missing
    return .ok (← action)
  catch e => return .error (← faultOf path e)

def put (stream : IO.FS.Stream) (text : Bytes) : IO Unit := do
  stream.write ⟨text.toArray⟩
  stream.flush

def shell : Shell IO where
  directory := return Bytes.ofString (← IO.currentDir).toString
  kind path := guarded path do
    return match (← (← place path).metadata).type with
      | .dir => .directory
      | _ => .file
  names path := guarded path do
    return (← (← place path).readDir).toList.map fun e => Bytes.ofString e.fileName
  read path := guarded path do return (← IO.FS.readBinFile (← place path)).data.toList
  write path content := guarded path do IO.FS.writeBinFile (← place path) ⟨content.toArray⟩
  touch path := guarded path do
    let _ ← IO.FS.Handle.mk (← place path) .append
  makeDirectory path := guarded path do IO.FS.createDir (← place path)
  out text := do put (← IO.getStdout) text
  err text := do put (← IO.getStderr) text

partial def converse (c : Console) : IO Unit := do
  let line ← (← IO.getStdin).getLine
  if line.isEmpty then return
  let (e, c) := c.feed (Bytes.dropEndWhile Console.isEnter (Bytes.ofString line))
  shell.out e.out
  shell.err e.err
  if e.quit then return else converse c

end Main

end StagedScript

def main (args : List String) : IO UInt32 := do
  let args := args.map StagedScript.Bytes.ofString
  match ← StagedScript.Command.run StagedScript.Main.shell args with
  | .exit code => return code.toUInt32
  | .console c =>
    StagedScript.Main.converse c
    return 0
  | .service _ | .editor => return 0
