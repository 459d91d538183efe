import StagedScript.Cache
import StagedScript.Compile

/-!
# A worker that compiles on request

A worker takes one request at a time until it is stopped.  It can keep what it has compiled in a
cache, which is asked before the request is taken.  Every text is compiled from an empty heap.
-/

namespace StagedScript

inductive WorkFailure where
  | source (e : SourceError)
  | stopped
  | cancelled
  | broken (message : Bytes)

def WorkFailure.message : WorkFailure → Bytes
  | .source e => e.display
  | .stopped => "worker stopped"
  | .cancelled => cancelledMessage
  | .broken message => "panic in worker: " ++ message

structure Worker (S : Type := Cache.Items) where
  compiler : Compiler
  cache : Option (Cache S) := none
  /-- Tells apart settings that share a cache. -/
  salt : Bytes := []
  isRunning : Bool := true
  heap : Heap := {}

namespace Worker

variable {S : Type} [Cache.Backend S]

def stop (w : Worker S) : Worker S := { w with isRunning := false }

def missingPart : Bytes := "runtime error: invalid memory address or nil pointer dereference"

/-- Takes a request. A request that is cancelled already is not carried out. -/
def submit {α : Type} (w : Worker S) (cancellation : Cancellation)
    (work : Worker S → Except WorkFailure α × Worker S) : Except WorkFailure α × Worker S :=
  if !w.isRunning then (.error .stopped, w)
  else if cancellation.ask.1 then (.error .cancelled, w)
  else work w

/-- The part of a heap that the constants of a function refer to. -/
def heapOf (fn : Func) (heap : Heap) : Heap :=
  match fn.record with
  | .ok _ => {}
  | .error _ => heap

def compileText (cancellation : Cancellation) (source text : Bytes) (w : Worker S) :
    Except WorkFailure Func × Worker S :=
  let r := w.compiler.compileText {} cancellation source text
  match r.outcome with
  | .func fn => (.ok fn, { w with heap := heapOf fn r.heap })
  | .error e => (.error (.source e), w)
  | .stuck | .unfinished => (.error (.broken missingPart), w)

def check (w : Worker S) (cancellation : Cancellation) (source text : Bytes) :
    Except WorkFailure Func × Worker S :=
  w.submit cancellation (compileText cancellation source text)

def find (w : Worker S) (key : Bytes) : Option Func × Worker S :=
  match w.cache with
  | none => (none, w)
  | some c => let (fn, c) := c.get key; (fn, { w with cache := some c })

def keep (w : Worker S) (key : Bytes) (fn : Func) : Worker S :=
  match w.cache with
  | none => w
  | some c => match c.put key fn with
    | .ok c => { w with cache := some c }
    | .error _ => w

/-- Compiles a text, or finds it in the cache. Also tells whether it was found there. -/
def compile (w : Worker S) (cancellation : Cancellation) (source text : Bytes) :
    Except WorkFailure (Func × Bool) × Worker S :=
  let key := Cache.keyFor S source text w.salt
  match w.find key with
  | (some fn, w) => (.ok (fn, true), { w with heap := {} })
  | (none, w) =>
    match w.check cancellation source text with
    | (.error e, w) => (.error e, w)
    | (.ok fn, w) => (.ok (fn, false), w.keep key fn)

end Worker

end StagedScript
