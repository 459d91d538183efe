import StagedScript.Compile.Block
import StagedScript.Compile.Control

/-!
# Compiling expressions

`Compiling.dispatch` compiles an expression up to its first part, and `Compiling.resume` gives the
value of a part to what waits for it.  Every expression leaves exactly one value on the stack.
-/

namespace StagedScript

namespace Compiling

def old (span : Span) : Compiling Next := do
  match (← current).olds with
  | [] => failAt span .compiler "old used outside an assignment"
  | o :: _ =>
    opCount span.first o.op o.index
    return .give .nil

def member (span : Span) (e parent : Expr) (n : Bytes) : Compiling Next := do
  match ← constantOf? e with
  | some v =>
    constant span.first v
    return .give v
  | none => operands span (.resolve n) [parent]

def exit (span : Span) (value : Expr) : Compiling Next := do
  if (← current).loops.isEmpty then failAt span .compiler "exit not in loop"
  operands span .exit [value.orNil span]

def retry (span : Span) : Compiling Next := do
  match (← current).handling with
  | none => failAt span .compiler "retry not in handler"
  | some p =>
    let d ← height
    jump span.first .retry p.retry p.depth
    setHeight (d + 1)
    return .give .nil

def dispatch (e : Expr) : Compiling Next := do
  match e with
  | .absent =>
    op 0 .nil
    return .give .nil
  | .nil span | .blank span =>
    op span.first .nil
    return .give .nil
  | .value span v =>
    constant span.first v
    return .give v
  | .ident span n => name span n
  | .old span => old span
  | .string span parts =>
    op span.first .stringNew
    textParts span parts
  | .assign span target value => assign span target value
  | .call span fn args => call span fn args
  | .constCall span fn args => operands span (.constCall fn) args
  | .resolve span parent n => member span e parent n
  | .logic span o left right =>
    let done ← newLabel
    andThen left (.logicLeft span o right done)
  | .not span arg => operands span .not [arg]
  | .cond span arms otherwise => cond span arms otherwise
  | .loop span body => loop span body
  | .exitTest span test condition value => exitTest span test condition value
  | .exit span value => exit span value
  | .next span => nextRound span
  | .forIn span key names unpack seq body otherwise =>
    andThen seq (.forSequence span key names unpack body otherwise)
  | .each span seq => operands span .each [seq]
  | .block span vars lets defs body handlers => block span vars lets defs body handlers
  | .bind span binder pattern decls value => bind span binder pattern decls value
  | .function span params extra named body =>
    push (.closure span none)
    beginFunction span params extra named body false
  | .method span n params extra body =>
    constant span.first (.method n)
    operands span (.method params extra body) (params.map fun p => p.type.orNil span)
  | .ret span value => operands span .ret [value.orNil span]
  | .suspend span key value =>
    operands span .suspend
      (if key.isAbsent then [value.orNil span] else [key, value.orNil span])
  | .scoped span decls values body => scopedNames span decls values body
  | .switch span subject arms otherwise => andThen subject (.switchSubject span arms otherwise)
  | .select span subject clauses otherwise => select span subject clauses otherwise
  | .sequence span kind elems => operands span (.sequence kind) elems
  | .map span entries => operands span .map entries
  | .inline span value =>
    push (.constantCode span .inline)
    beginFunction span [] false false value true
  | .quote span body args => operands span (.quote body) args
  | .unquote span .. => failAt span .compiler "unquote outside a quoted expression"
  | .generator span value clauses =>
    push (.closure span none)
    beginFunction span [] false false (comprehensionBody span value clauses) false
  | .retry span => retry span

def resumeWith (w : Waiting) (v : Value) : Compiling Next :=
  match w with
  | .operands span use count rest => resumeOperands span use count rest
  | .textParts span line rest => do
    opCount line .stringAdd 1
    textParts span rest
  | .statements b rest => resumeStatements b rest
  | .handlerTypes h rest => resumeHandlerTypes h rest
  | .handlerBody h scope outer => resumeHandlerBody h scope outer
  | .binding span binder pattern ids => resumeBinding span binder pattern ids
  | .constantCode span use => resumeConstantCode span use v
  | .constantValue span use => resumeConstantValue span use v
  | .assignTarget span value => assignThrough span value
  | .assignValue span store operand => resumeAssignValue span store operand
  | .logicLeft span o right done => resumeLogicLeft span o right done
  | .logicRight _ done => resumeLogicRight done
  | .condTest c arm later next bound => resumeCondTest c arm later next bound
  | .condBody c arm later next scope => resumeCondBody c arm later next scope
  | .condElse c => endCond c
  | .loopBody span l => resumeLoopBody span l
  | .exitCond span test value l => resumeExitCond span test value l
  | .exitValue span l stay => endExitTest span l stay
  | .forSequence span key names unpack body otherwise =>
    resumeForSequence span key names unpack body otherwise
  | .forBody f => resumeForBody f
  | .forElse f => endFor f
  | .switchSubject span arms otherwise => resumeSwitchSubject span arms otherwise
  | .switchCase s line arms labels => resumeSwitchCase s line arms labels
  | .switchElse s => endSwitch s
  | .selectSubject s clauses => resumeSelectSubject s clauses
  | .selectValue c rest => resumeSelectValue c rest
  | .selectBody c => resumeSelectBody c
  | .selectElse s => endSelect s
  | .scopedValue span scope count id ids values body =>
    resumeScopedValue span scope count id ids values body
  | .scopedBody span scope count => resumeScopedBody span scope count
  | .closure span types => resumeClosure span types v
  | .expansion span => resumeExpansion span v
  | .expanded _ => return .give v
  | .finish span isRoot => finishFunction span isRoot

def resume (v : Value) : Compiling Next := do
  match (← current).waiting with
  | [] => failInternal "value returned with no waiting frame"
  | w :: rest =>
    modifyCurrent ({ · with waiting := rest })
    resumeWith w v

end Compiling

end StagedScript
