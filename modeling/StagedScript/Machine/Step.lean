import StagedScript.Machine.Frame
import StagedScript.Machine.Host
import StagedScript.Machine.Method
import StagedScript.Tree.Copy

/-!
# The meaning of instructions

`Frame.step` executes one instruction of a call.  Most instructions change the frame and the heap;
some return, raise an error, or ask for another call.  An instruction that does not find what it
needs on the stack has no meaning: `none`.  Verified code never gets there.
-/

namespace StagedScript

inductive Step where
  | next (frame : Frame) (heap : Heap)
  | return (v : Value) (heap : Heap)
  | raise (e : Raised) (frame : Frame) (heap : Heap)
  | call (fn : Value) (args : List Value) (frame : Frame) (heap : Heap)

namespace Frame

def push (f : Frame) (v : Value) : Frame := { f with stack := f.stack.push v }

def withStack (f : Frame) (s : Stack) : Frame := { f with stack := s }

def goto (f : Frame) (address : Int) : Frame := { f with ip := address }

def captured? (f : Frame) (h : Heap) (index : Int) : Option Value :=
  if index < 0 then none else f.env.bind fun env => h.captured? env index.toNat

def capture? (f : Frame) (h : Heap) (u : Int) : Option Value :=
  if 0 ≤ u then f.stack.get? u else f.captured? h (-1 - u)

def isCaught (h : Heap) (v : Value) (types : List Value) : Bool :=
  match v with
  | .error type _ => types.any fun t => match h.deref t with
    | .str s => s == type
    | _ => false
  | _ => false

def raisedBy (h : Heap) : Value → Raised
  | .error type message => ⟨type, message⟩
  | v => ⟨"Error", v.display h.shown⟩

/-- The first `n` elements of a tuple or a list, followed by nil where there are fewer. -/
def elements (elems : List Value) (n : Nat) : List Value :=
  elems.take n ++ List.replicate (n - elems.length) .nil

def unpack (f : Frame) (h : Heap) (v : Value) (count : Int) : Option Step :=
  let pushed (elems : List Value) : Option Step :=
    if count < 0 then none
    else some (.next (f.withStack (f.stack.append (elements elems count.toNat))) h)
  match h.deref v with
  | .tuple elems | .list elems => pushed elems
  | .nil => pushed []
  | _ => some (.raise ⟨"TypeError", "cannot unpack " ++ v.display h.shown⟩ f h)

def collect (h : Heap) : List Value → OrderedMap → Except Raised OrderedMap
  | k :: v :: rest, m => do collect h rest (← m.insert h.shown (h.deref k) v)
  | _, m => .ok m

def switchTarget? (table : List Int) (v : Value) : Option Int :=
  let last := table.length - 1
  match v with
  | .int n => if 0 ≤ n && n.toInt < last then table[n.toInt.toNat]? else table[last]?
  | _ => table[last]?

def stepSlot (i : Inst) (f : Frame) (h : Heap) : Option Step :=
  match i.op with
  | .local => do
    let v ← f.stack.get? i.count
    return .next (f.push (h.deref v)) h
  | .localIndirect => do
    match ← f.stack.get? i.count with
    | .nil =>
      let (c, h) := h.newCell ⟨.nil, false⟩
      let s ← f.stack.set? i.count c
      return .next (f.withStack (s.push c)) h
    | v => return .next (f.push (h.deref v)) h
  | .upvalue => do
    let v ← f.captured? h i.count
    return .next (f.push (h.deref v)) h
  | .assignLocal => do
    let old ← f.stack.get? i.count
    let v ← f.stack.top?
    let (v, h) := h.store old v
    return .next (f.withStack (← f.stack.set? i.count v)) h
  | .initVar | .initLet | .initRef => do
    let v ← f.stack.top?
    return .next (f.withStack (← f.stack.set? i.count v)) h
  | .box => do
    match ← f.stack.get? i.count with
    | .cell _ => return .next f h
    | v =>
      let (c, h) := h.newCell ⟨v, true⟩
      return .next (f.withStack (← f.stack.set? i.count c)) h
  | .letBackfill => do
    let old ← f.stack.get? i.count
    let v ← f.stack.top?
    let h := match old with
      | .cell index => h.setCell index v
      | _ => h
    return .next (f.withStack (← f.stack.set? i.count v)) h
  | .assignUpvalue => do
    let old ← f.captured? h i.count
    let v ← f.stack.top?
    let env ← f.env
    let (v, h) := h.store old v
    return .next f (h.setCaptured env i.count.toNat v)
  | _ => none

def stepControl (i : Inst) (f : Frame) (h : Heap) : Option Step :=
  match i.op with
  | .link | .jump => some (.next (f.goto i.target) h)
  | .exit => do return .next ((f.withStack (← f.stack.drop? i.count)).goto i.target) h
  | .goto => do
    return .next ((f.withStack (← f.stack.cut? (f.stack.depth - i.count))).goto i.target) h
  | .ifNil => do
    match ← f.stack.pop? with
    | (.nil, s) => return .next ((f.withStack s).goto i.target) h
    | (_, s) => return .next (f.withStack s) h
  | .ifNotNil => do
    match ← f.stack.pop? with
    | (.nil, s) => return .next (f.withStack s) h
    | (_, s) => return .next ((f.withStack s).goto i.target) h
  | .and => do
    match ← f.stack.pop? with
    | (.nil, _) => return .next (f.goto i.target) h
    | (_, s) => return .next (f.withStack s) h
  | .or => do
    match ← f.stack.pop? with
    | (.nil, s) => return .next (f.withStack s) h
    | _ => return .next (f.goto i.target) h
  | .switch => do
    let (v, s) ← f.stack.pop?
    return .next ((f.withStack s).goto (← switchTarget? i.table v)) h
  | .install => some (.next { f with handler := i.target, handlerDepth := i.count } h)
  | .catchOn => do
    let (types, s) ← f.stack.popN? i.count
    let f := f.withStack s
    return .next (if isCaught h (← s.top?) types then f else f.goto i.target) h
  | .raise => do
    let (v, s) ← f.stack.pop?
    return .raise (raisedBy h v) (f.withStack s) h
  | .retry => do return .next ((f.withStack (← f.stack.cut? i.count)).goto i.target) h
  | .ret => do
    let (v, _) ← f.stack.pop?
    return .return v h
  | .call => do
    let (args, s) ← f.stack.popN? i.count
    let (fn, s) ← s.pop?
    return .call fn args (f.withStack s) h
  | .constCall => do
    let (args, s) ← f.stack.popN? i.count
    return .call i.value args (f.withStack s) h
  | _ => none

def stepData (i : Inst) (f : Frame) (h : Heap) : Option Step :=
  match i.op with
  | .nil => some (.next (f.push .nil) h)
  | .const => some (.next (f.push i.value) h)
  | .pop => do
    let (_, s) ← f.stack.pop?
    return .next (f.withStack s) h
  | .dup => do return .next (f.push (← f.stack.top?)) h
  | .unpack => do
    let (v, s) ← f.stack.pop?
    (f.withStack s).unpack h v i.count
  | .symbols => do
    let (v, s) ← f.stack.pop?
    let f := f.withStack s
    if v.hasMembers then
      let members := i.decls.map fun d => ((v.member? d.name).bind id).getD .nil
      return .next (f.withStack (f.stack.pushAll members)) h
    else
      return .raise ⟨"TypeError", "cannot destructure " ++ v.display h.shown ++ " by name"⟩ f h
  | .enter => some (.next (f.withStack (f.stack.pushAll (i.decls.map fun _ => .nil))) h)
  | .leave => do return .next (f.withStack (← f.stack.drop? i.count)) h
  | .not => do
    match ← f.stack.pop? with
    | (.nil, s) => return .next (f.withStack (s.push (.bool true))) h
    | (_, s) => return .next (f.withStack (s.push .nil)) h
  | .resolve => do
    let (v, s) ← f.stack.pop?
    let parent := h.deref v
    let f := f.withStack s
    if !parent.hasMembers then
      return .raise ⟨"TypeError", parent.display h.shown ++ " has no members"⟩ f h
    match i.value with
    | .str name =>
      match (parent.member? name).bind id with
      | some m => return .next (f.push m) h
      | none =>
        return .raise ⟨"NameError", name ++ " not found in " ++ parent.display h.shown⟩ f h
    | _ => none
  | .closure => do
    let fn ← i.func
    let values ← fn.upvalues.mapM (f.capture? h)
    let (env, h) := h.newEnvironment values.toArray
    return .next (f.push (.closure fn env)) h
  | .tuple => do
    let (vs, s) ← f.stack.popN? i.count
    return .next (f.withStack (s.push (.tuple vs))) h
  | .list => do
    let (vs, s) ← f.stack.popN? i.count
    return .next (f.withStack (s.push (.list vs))) h
  | .map => do
    let (vs, s) ← f.stack.popN? (wrapInt (2 * i.count))
    match collect h vs {} with
    | .ok m => return .next (f.withStack (s.push (.map m.entries))) h
    | .error e => return .raise e (f.withStack s) h
  | .stringNew =>
    let (b, h) := h.newBuffer
    some (.next (f.push b) h)
  | .stringAdd => do
    let (vs, s) ← f.stack.popN? i.count
    match ← s.top? with
    | .buffer index =>
      let text := vs.flatMap fun v => (h.deref v).toText h.shown
      return .next (f.withStack s) (h.write index text)
    | _ => none
  | .stringChars => do
    match ← f.stack.top? with
    | .buffer index => return .next f (h.write index i.chars)
    | _ => none
  | .stringEnd => do
    match ← f.stack.pop? with
    | (.buffer index, s) => return .next (f.withStack (s.push (.str (h.bufferText index)))) h
    | _ => none
  | .quote =>
    match i.value with
    | .expr template => do
      let (args, s) ← f.stack.popN? i.count
      let (e, next) := template.instantiate args h.nextDecl
      return .next (f.withStack (s.push (.expr e))) { h with nextDecl := next }
    | v => some (.raise ⟨"TypeError", "quote of " ++ v.display h.shown⟩ f h)
  | .iterate => do
    let (v, s) ← f.stack.pop?
    let f := f.withStack s
    let v := h.deref v
    match v.iteration? with
    | none => return .raise ⟨"TypeError", v.display h.shown ++ " is not iterable"⟩ f h
    | some it =>
      if it.isDone then return .next (f.goto i.target) h
      let (v, h) := h.newIteration it
      return .next (f.push v) h
  | .advance => do
    match ← f.stack.pop? with
    | (.iterator index, s) =>
      let h := h.advance index
      if (← h.iterations[index]?).isDone then return .next ((f.withStack s).goto i.target) h
      return .next f h
    | _ => none
  | .key => do
    match ← f.stack.get? i.count with
    | .iterator index =>
      let it ← h.iterations[index]?
      return .next (f.push (← it.keys[it.position]?)) h
    | _ => none
  | .element => do
    match ← f.stack.get? i.count with
    | .iterator index =>
      let it ← h.iterations[index]?
      return .next (f.push (← it.values[it.position]?)) h
    | _ => none
  | .assign =>
    some (.raise ⟨"TypeError", "assignment through a reference is not supported"⟩ f h)
  | .suspend | .resume => some (.raise ⟨"TypeError", "generators are not supported"⟩ f h)
  | .method => some (.raise ⟨"TypeError", "method definitions are not supported"⟩ f h)
  | .unknown _ =>
    some (.raise ⟨"InternalError", "unknown instruction " ++ i.op.name⟩ f h)
  | _ => none

/-- Executes an instruction. The frame already refers to the one after it. -/
def execute (i : Inst) (f : Frame) (h : Heap) : Option Step :=
  match i.op with
  | .local | .localIndirect | .upvalue | .assignLocal | .initVar | .initLet | .initRef | .box
  | .letBackfill | .assignUpvalue => stepSlot i f h
  | .link | .jump | .exit | .goto | .ifNil | .ifNotNil | .and | .or | .switch | .install | .catchOn
  | .raise | .retry | .ret | .call | .constCall => stepControl i f h
  | _ => stepData i f h

def step (f : Frame) (h : Heap) : Option Step :=
  let outside : Step :=
    .raise ⟨"InternalError", "control left the code at " ++ Bytes.ofInt f.ip⟩ f h
  match f.fn.code with
  | none => if f.ip < 0 then some outside else none
  | some code =>
    match code.at? f.ip with
    | none => some outside
    | some i => execute i { f with ip := wrapInt (f.ip + 1) } h

end Frame

end StagedScript
