import StagedScript.Text.Bytes

/-!
# Errors with a place in a source text

Reading and compiling a text fail with an error that has a category, a message, the place where it
arose, and the places it passed through on the way out, innermost first.
-/

namespace StagedScript

inductive Category where
  | internal
  | lexical
  | grammatical
  | name
  | expansion
  | compiler
  deriving DecidableEq

namespace Category

def all : List Category := [.internal, .lexical, .grammatical, .name, .expansion, .compiler]

def title : Category → Bytes
  | .internal => "internal"
  | .lexical => "lexical"
  | .grammatical => "syntax"
  | .name => "name"
  | .expansion => "macro"
  | .compiler => "compiler"

/-- The name of the category with a number, which may be the number of no category. -/
def titleOf (n : Int) : Bytes :=
  match if n < 0 then none else all[n.toNat]? with
  | some c => c.title
  | none => "Category(" ++ Bytes.ofInt n ++ ")"

end Category

structure Position where
  source : Bytes
  line : Nat
  deriving DecidableEq, Inhabited

def Position.display (p : Position) : Bytes := p.source ++ ":" ++ Bytes.ofNat p.line

inductive Cause where
  /-- A computation that was run while compiling raised an error of a type. -/
  | raised (type message : Bytes)
  | cancelled
  | other (message : Bytes)
  deriving DecidableEq

structure SourceError where
  category : Category
  message : Bytes
  position : Position
  /-- The places the error passed through, innermost first. -/
  trace : List Position
  cause : Option Cause
  deriving DecidableEq

namespace SourceError

def plain (category : Category) (position : Position) (message : Bytes) : SourceError :=
  ⟨category, message, position, [], none⟩

def because (e : SourceError) (cause : Cause) : SourceError := { e with cause := some cause }

/-- The error with one more place in its trace. A place equal to the last one is not repeated. -/
def addTrace (e : SourceError) (p : Position) : SourceError :=
  if e.trace.getLast? = some p then e else { e with trace := e.trace ++ [p] }

def display (e : SourceError) : Bytes :=
  e.position.display ++ ": " ++ e.category.title ++ " error: " ++ e.message

def detail (e : SourceError) : Bytes :=
  e.trace.foldl (fun text p => text ++ "\n\tat " ++ p.display) e.display

end SourceError

end StagedScript
