import StagedScript.Code.Listing
import StagedScript.Service.Diagnostic

/-!
# The compile service

Clients send the name and the text of a source, and get its code and listing or its problems.  What
goes wrong is told by a status.  Requests and responses are messages whose texts must be
well-formed.
-/

namespace StagedScript

namespace Remote

inductive StatusCode where
  | cancelled
  | invalidArgument
  | internal
  | unavailable

def StatusCode.title : StatusCode → Bytes
  | .cancelled => "Canceled"
  | .invalidArgument => "InvalidArgument"
  | .internal => "Internal"
  | .unavailable => "Unavailable"

structure Status where
  code : StatusCode
  message : Bytes

/-- The text with the replacement character in place of each stray byte. -/
def repaired (s : Bytes) : Bytes := (Utf8.pieces s).flatMap fun p => Utf8.encode p.code

def Status.sent (s : Status) : Status := { s with message := repaired s.message }

def statusOf (f : WorkFailure) : Status :=
  match f with
  | .cancelled => ⟨.cancelled, f.message⟩
  | .stopped => ⟨.unavailable, f.message⟩
  | .source e =>
    if e.cause = some .cancelled then ⟨.cancelled, e.display⟩ else ⟨.invalidArgument, e.detail⟩
  | .broken _ => ⟨.internal, f.message⟩

def malformedText : Bytes := "cbor: invalid UTF-8 string"

def checkTexts (source text : Bytes) : Except Status Unit :=
  if Utf8.isValid source && Utf8.isValid text then .ok ()
  else .error ⟨.internal, "grpc: error unmarshalling request: " ++ malformedText⟩

def unreadable : Status :=
  ⟨.internal, "grpc: failed to unmarshal the received message: " ++ malformedText⟩

structure Response where
  code : Option Bytes
  listing : Bytes
  isCached : Bool

def compile (w : Worker) (source text : Bytes) : Except Status Response × Worker :=
  match checkTexts source text with
  | .error s => (.error s, w)
  | .ok _ =>
    match w.compile .never source text with
    | (.error f, w) => (.error (statusOf f).sent, w)
    | (.ok (fn, isCached), w) =>
      let listing := fn.listing w.heap.shown
      if !Utf8.isValid listing then (.error unreadable, w)
      else (.ok ⟨fn.encode.toOption, listing, isCached⟩, w)

def isReadable (d : Diagnostic) : Bool :=
  ([d.message, d.position.source] ++ d.trace.map Position.display).all Utf8.isValid

def check (w : Worker) (source text : Bytes) : Except Status (List Diagnostic) × Worker :=
  match checkTexts source text with
  | .error s => (.error s, w)
  | .ok _ =>
    match w.check .never source text with
    | (.ok _, w) => (.ok [], w)
    | (.error f, w) =>
      let status := statusOf f
      match status.code with
      | .cancelled | .unavailable => (.error status.sent, w)
      | .invalidArgument | .internal =>
        let d := f.diagnostic
        (if isReadable d then .ok [d] else .error unreadable, w)

inductive FetchError where
  | status (s : Status)
  | unrecordable
  | unreadable (e : WireError)

def unrecordableMessage : Bytes := "bytecode: constant has no wire representation"

def fetch (w : Worker) (source text : Bytes) : Except FetchError Func × Worker :=
  match compile w source text with
  | (.error s, w) => (.error (.status s), w)
  | (.ok r, w) => match r.code with
    | none => (.error .unrecordable, w)
    | some code => match Func.decode code with
      | .ok fn => (.ok fn, w)
      | .error e => (.error (.unreadable e), w)

end Remote

end StagedScript
