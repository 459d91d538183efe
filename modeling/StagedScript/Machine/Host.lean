import StagedScript.Machine.Mapping

/-!
# Functions of the host, and global names

Programs call a few functions of the host: constructors, errors, and the one that makes expanders.
Global names are looked up when no declaration is in scope.
-/

namespace StagedScript

/-- A value as text: texts stand for themselves, other values are shown. -/
def Value.toText (sh : Shown) : Value → Bytes
  | .str s => s
  | v => v.display sh

namespace Host

def apply (sh : Shown) (action : Host) (args : List Value) : Except Raised Value :=
  match action with
  | .tuple => .ok (.tuple args)
  | .list => .ok (.list args)
  | .string => .ok (.str (args.flatMap (Value.toText sh)))
  | .raise =>
    match args with
    | [type, message] => .error ⟨type.toText sh, message.toText sh⟩
    | _ => .error ⟨"CallError", "raise expects a type and a message"⟩
  | .error =>
    match args with
    | [type, message] => .ok (.error (type.toText sh) (message.toText sh))
    | _ => .error ⟨"CallError", "error expects a type and a message"⟩
  | .expander =>
    match args with
    | [fn] => .ok (.expander "macro" fn (-1))
    | [fn, .int arity] => .ok (.expander "macro" fn arity)
    | [_, _] => .error ⟨"TypeError", "macro arity must be an integer"⟩
    | _ => .error ⟨"CallError", "macro expects a function and an optional arity"⟩
  | .give v => .ok v
  | .first => .ok (args.headD .nil)
  | .fail message => .error ⟨"Error", message⟩

end Host

structure Globals where
  lookup : Bytes → Except Bytes (Option Value)
  names : Option (List Bytes)

namespace Globals

def find? (members : List Member) (name : Bytes) : Option Value :=
  (members.find? fun m => m.name = name).map (·.value)

def define (members : List Member) (name : Bytes) (v : Value) : List Member :=
  ⟨name, v⟩ :: members.filter (·.name ≠ name)

def table (members : List Member) (parent : Bytes → Except Bytes (Option Value)) : Globals where
  lookup name := match find? members name with
    | some v => .ok (some v)
    | none => parent name
  names := some (Bytes.sort (members.map (·.name)))

def empty : Globals := table [] fun _ => .ok none

def symbols : Globals := ⟨fun name => .ok (some (.sym name)), none⟩

def hostMember (name : Bytes) (action : Host) : Member := ⟨name, .builtin name action⟩

def preludeMembers : List Member :=
  [hostMember "tuple" .tuple, hostMember "list" .list, hostMember "string" .string,
    hostMember "raise" .raise, hostMember "error" .error, hostMember "macro" .expander]

def prelude : Globals := table preludeMembers fun _ => .ok none

end Globals

end StagedScript
