import StagedScript.Text.Bytes

/-!
# Reserved words

The reserved words of the language, in the order of their token numbers.
-/

namespace StagedScript

inductive Keyword where
  | kwAnd | kwOr | kwNot | kwIf | kwThen | kwElseif | kwElse | kwEnd | kwLoop | kwWhile
  | kwUntil | kwExit | kwNext | kwFor | kwEach | kwIn | kwIs | kwDo | kwOn | kwFun | kwMeth
  | kwRet | kwSusp | kwVar | kwLet | kwDef | kwRef | kwWith | kwSwitch | kwCase | kwWhen
  | kwRetry | kwNil | kwOld | kwExport
  deriving DecidableEq, Inhabited

namespace Keyword

def all : List Keyword := [
  .kwAnd, .kwOr, .kwNot, .kwIf, .kwThen, .kwElseif, .kwElse, .kwEnd, .kwLoop, .kwWhile,
  .kwUntil, .kwExit, .kwNext, .kwFor, .kwEach, .kwIn, .kwIs, .kwDo, .kwOn, .kwFun, .kwMeth,
  .kwRet, .kwSusp, .kwVar, .kwLet, .kwDef, .kwRef, .kwWith, .kwSwitch, .kwCase, .kwWhen,
  .kwRetry, .kwNil, .kwOld, .kwExport]

def name : Keyword → Bytes
  | .kwAnd => "and"
  | .kwOr => "or"
  | .kwNot => "not"
  | .kwIf => "if"
  | .kwThen => "then"
  | .kwElseif => "elseif"
  | .kwElse => "else"
  | .kwEnd => "end"
  | .kwLoop => "loop"
  | .kwWhile => "while"
  | .kwUntil => "until"
  | .kwExit => "exit"
  | .kwNext => "next"
  | .kwFor => "for"
  | .kwEach => "each"
  | .kwIn => "in"
  | .kwIs => "is"
  | .kwDo => "do"
  | .kwOn => "on"
  | .kwFun => "fun"
  | .kwMeth => "meth"
  | .kwRet => "ret"
  | .kwSusp => "susp"
  | .kwVar => "var"
  | .kwLet => "let"
  | .kwDef => "def"
  | .kwRef => "ref"
  | .kwWith => "with"
  | .kwSwitch => "switch"
  | .kwCase => "case"
  | .kwWhen => "when"
  | .kwRetry => "retry"
  | .kwNil => "nil"
  | .kwOld => "old"
  | .kwExport => "export"

def ofName? (word : Bytes) : Option Keyword := all.find? fun k => k.name = word

end Keyword

end StagedScript
