import StagedScript.Text.Bytes

/-!
# Operations of the machine

Each operation has a name for listings, a layout of operands, and a number in the wire format.  An
instruction read from the wire can carry a number that names no operation; it is kept as
`Opcode.unknown`.
-/

namespace StagedScript

/-- Which operands of an instruction its operation uses. -/
inductive Shape where
  | none
  | jump
  | jumpCount
  | jumpCountDecls
  | count
  | value
  | valueCount
  | countChars
  | decls
  | table
  | func
  deriving DecidableEq

def Shape.code : Shape → Nat
  | .none => 0
  | .jump => 1
  | .jumpCount => 2
  | .jumpCountDecls => 3
  | .count => 4
  | .value => 5
  | .valueCount => 6
  | .countChars => 7
  | .decls => 8
  | .table => 9
  | .func => 10

inductive Opcode where
  /-- Continue at the target; ends a full block. -/
  | link
  | nil
  | const
  | pop
  | dup
  | local
  /-- Push a slot, leaving a placeholder in it while it is unset. -/
  | localIndirect
  | upvalue
  | assignLocal
  | assignUpvalue
  | assign
  | initVar
  | initLet
  /-- Initialise a let slot and resolve the readers of its placeholder. -/
  | letBackfill
  | initRef
  /-- Make a slot a variable shared with closures. -/
  | box
  | unpack
  | symbols
  | enter
  | leave
  | jump
  | exit
  | goto
  | ifNil
  | ifNotNil
  /-- Continue at the target if the top is nil, and pop it otherwise. -/
  | and
  /-- Continue at the target if the top is not nil, and pop it otherwise. -/
  | or
  | not
  /-- Pop an integer and continue at its table entry, or at the last one. -/
  | switch
  | ret
  | suspend
  | resume
  | call
  | constCall
  | resolve
  | method
  | closure
  | tuple
  | list
  | map
  | stringNew
  | stringAdd
  | stringChars
  | stringEnd
  | quote
  /-- Replace a sequence by an iterator, or pop it and jump when it is empty. -/
  | iterate
  /-- Advance the iterator, or pop it and jump when it is exhausted. -/
  | advance
  | key
  | element
  | install
  /-- Pop types, and jump unless the error below matches one. -/
  | catchOn
  | raise
  | retry
  /-- A number that names no operation. -/
  | unknown (code : UInt8)
  deriving DecidableEq, Inhabited

namespace Opcode

def all : List Opcode := [
  .link, .nil, .const, .pop, .dup, .local, .localIndirect, .upvalue, .assignLocal,
  .assignUpvalue, .assign, .initVar, .initLet, .letBackfill, .initRef, .box, .unpack, .symbols,
  .enter, .leave, .jump, .exit, .goto, .ifNil, .ifNotNil, .and, .or, .not, .switch, .ret,
  .suspend, .resume, .call, .constCall, .resolve, .method, .closure, .tuple, .list, .map,
  .stringNew, .stringAdd, .stringChars, .stringEnd, .quote, .iterate, .advance, .key, .element,
  .install, .catchOn, .raise, .retry]

def code : Opcode → UInt8
  | .link => 0
  | .nil => 1
  | .const => 2
  | .pop => 3
  | .dup => 4
  | .local => 5
  | .localIndirect => 6
  | .upvalue => 7
  | .assignLocal => 8
  | .assignUpvalue => 9
  | .assign => 10
  | .initVar => 11
  | .initLet => 12
  | .letBackfill => 13
  | .initRef => 14
  | .box => 15
  | .unpack => 16
  | .symbols => 17
  | .enter => 18
  | .leave => 19
  | .jump => 20
  | .exit => 21
  | .goto => 22
  | .ifNil => 23
  | .ifNotNil => 24
  | .and => 25
  | .or => 26
  | .not => 27
  | .switch => 28
  | .ret => 29
  | .suspend => 30
  | .resume => 31
  | .call => 32
  | .constCall => 33
  | .resolve => 34
  | .method => 35
  | .closure => 36
  | .tuple => 37
  | .list => 38
  | .map => 39
  | .stringNew => 40
  | .stringAdd => 41
  | .stringChars => 42
  | .stringEnd => 43
  | .quote => 44
  | .iterate => 45
  | .advance => 46
  | .key => 47
  | .element => 48
  | .install => 49
  | .catchOn => 50
  | .raise => 51
  | .retry => 52
  | .unknown code => code

def ofCode (code : UInt8) : Opcode := all.getD code.toNat (.unknown code)

def name : Opcode → Bytes
  | .link => "LINK"
  | .nil => "NIL"
  | .const => "CONST"
  | .pop => "POP"
  | .dup => "DUP"
  | .local => "LOCAL"
  | .localIndirect => "LOCAL_INDIRECT"
  | .upvalue => "UPVALUE"
  | .assignLocal => "ASSIGN_LOCAL"
  | .assignUpvalue => "ASSIGN_UPVALUE"
  | .assign => "ASSIGN"
  | .initVar => "VAR"
  | .initLet => "LET"
  | .letBackfill => "LET_BACKFILL"
  | .initRef => "REF"
  | .box => "BOX"
  | .unpack => "UNPACK"
  | .symbols => "SYMBOLS"
  | .enter => "ENTER"
  | .leave => "LEAVE"
  | .jump => "JUMP"
  | .exit => "EXIT"
  | .goto => "GOTO"
  | .ifNil => "IF_NIL"
  | .ifNotNil => "IF_NOT_NIL"
  | .and => "AND"
  | .or => "OR"
  | .not => "NOT"
  | .switch => "SWITCH"
  | .ret => "RETURN"
  | .suspend => "SUSPEND"
  | .resume => "RESUME"
  | .call => "CALL"
  | .constCall => "CONST_CALL"
  | .resolve => "RESOLVE"
  | .method => "METHOD"
  | .closure => "CLOSURE"
  | .tuple => "TUPLE"
  | .list => "LIST"
  | .map => "MAP"
  | .stringNew => "STRING_NEW"
  | .stringAdd => "STRING_ADD"
  | .stringChars => "STRING_CHARS"
  | .stringEnd => "STRING_END"
  | .quote => "QUOTE"
  | .iterate => "FOR"
  | .advance => "NEXT"
  | .key => "KEY"
  | .element => "VALUE"
  | .install => "TRY"
  | .catchOn => "CATCH"
  | .raise => "RAISE"
  | .retry => "RETRY"
  | .unknown code => "UNKNOWN(0x" ++ (Bytes.hexFixed 2 code.toNat).map upper ++ ")"
where
  upper (c : UInt8) : UInt8 := if 97 ≤ c && c ≤ 102 then c - 32 else c

def shape : Opcode → Shape
  | .link | .jump | .ifNil | .ifNotNil | .and | .or | .iterate | .advance => .jump
  | .const | .resolve => .value
  | .local | .localIndirect | .upvalue | .assignLocal | .assignUpvalue | .assign
  | .initVar | .initLet | .letBackfill | .initRef | .box | .unpack | .leave | .suspend
  | .call | .method | .tuple | .list | .map | .stringAdd | .key | .element => .count
  | .symbols | .enter => .decls
  | .exit => .jumpCountDecls
  | .goto | .install | .catchOn | .retry => .jumpCount
  | .switch => .table
  | .constCall | .quote => .valueCount
  | .closure => .func
  | .stringChars => .countChars
  | .nil | .pop | .dup | .not | .ret | .resume | .stringNew | .stringEnd | .raise
  | .unknown _ => .none

/-- Whether control never falls through to the next address. -/
def isTerminal : Opcode → Bool
  | .link | .jump | .exit | .goto | .switch | .ret | .raise | .retry => true
  | _ => false

def hasTarget (op : Opcode) : Bool :=
  match op.shape with
  | .jump | .jumpCount | .jumpCountDecls => true
  | _ => false

/-- Whether the count operand names a stack slot. -/
def isSlotAccess : Opcode → Bool
  | .local | .localIndirect | .assignLocal | .initVar | .initLet | .letBackfill | .initRef | .box
  | .key | .element => true
  | _ => false

/-- Whether the operation uses its slot without storing the top into it. -/
def isSlotLoad : Opcode → Bool
  | .local | .localIndirect | .box | .key | .element => true
  | _ => false

def ofName? (name : Bytes) : Option Opcode := all.find? fun op => op.name = name

end Opcode

end StagedScript
