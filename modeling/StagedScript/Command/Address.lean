import StagedScript.Text.Bytes

/-!
# Network addresses

An address is a host and a port with a colon between them.  A host with colons stands in brackets.
-/

namespace StagedScript

namespace Address

inductive Fault where
  | malformed (address why : Bytes)
  | unknownPort (name : Bytes)

def Fault.message : Fault → Bytes
  | .malformed address why => "address " ++ address ++ ": " ++ why
  | .unknownPort name => "lookup tcp/" ++ name ++ ": unknown port"

def colon : UInt8 := 0x3a

def leftBracket : UInt8 := 0x5b

def rightBracket : UInt8 := 0x5d

def noPort : Bytes := "missing port in address"

def tooManyColons : Bytes := "too many colons in address"

def notClosed : Bytes := "missing ']' in address"

def strayLeft : Bytes := "unexpected '[' in address"

def strayRight : Bytes := "unexpected ']' in address"

def afterColon? (s : Bytes) : Option Bytes :=
  if s.contains colon then some (s.reverse.takeWhile (· ≠ colon)).reverse else none

def port (address : Bytes) : Except Bytes Bytes := do
  match afterColon? address with
  | none => throw noPort
  | some port =>
    let host := address.take (address.length - port.length - 1)
    let (opened, closed) ← match address with
      | 0x5b :: inner =>
        match inner.dropWhile (· ≠ rightBracket) with
        | [] => throw notClosed
        | _ :: after =>
          if after.isEmpty then throw noPort
          else if after.length = port.length + 1 then pure (inner, after)
          else if after.head? = some colon then throw tooManyColons
          else throw noPort
      | s => if host.contains colon then throw tooManyColons else pure (s, s)
    if opened.contains leftBracket then throw strayLeft
    if closed.contains rightBracket then throw strayRight
    return port

def portNames : List Bytes :=
  ["domain", "ftp", "ftps", "gopher", "http", "https", "imap2", "imap3", "imaps", "pop3", "pop3s",
    "smtp", "submissions", "ssh", "telnet"]

def unsigned (port : Bytes) : Bool × Bytes :=
  match port with
  | 0x2d :: rest => (true, rest)
  | 0x2b :: rest => (false, rest)
  | s => (false, s)

def lower (c : UInt8) : UInt8 := if 0x41 ≤ c && c ≤ 0x5a then c + 32 else c

def portFault? (port : Bytes) : Option Fault :=
  let (isNegative, digits) := unsigned port
  if digits.all fun c => 0x30 ≤ c && c ≤ 0x39 then
    let n := digits.foldl (fun n (c : UInt8) => n * 10 + (c.toNat - 0x30)) 0
    if (isNegative && 0 < n) || 65535 < n then some (.malformed port "invalid port") else none
  else if portNames.contains (port.map lower) then none
  else some (.unknownPort port)

/-- What is wrong with an address. The empty address stands for any. -/
def fault? (address : Bytes) : Option Fault :=
  if address.isEmpty then none
  else match port address with
    | .error why => some (.malformed address why)
    | .ok port => portFault? port

end Address

end StagedScript
