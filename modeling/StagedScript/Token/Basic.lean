import StagedScript.Token.Keyword
import StagedScript.Tree.Printer

/-!
# Tokens

A token is what the text is cut into before it is parsed.  Its kind decides how the grammar uses
it, and its payload is the name, number, text or reserved word it was read from.
-/

namespace StagedScript

inductive TokenKind where
  | endOfInput
  | endOfLine
  | ident
  | blank
  | value
  | string
  | operator
  | leftParen
  | rightParen
  | leftBracket
  | rightBracket
  | leftBrace
  | rightBrace
  | comma
  | semicolon
  | colon
  | assign
  | scope
  /-- The opening of an expression evaluated while compiling. -/
  | inline
  | unquote
  | quote
  | keyword (k : Keyword)
  deriving DecidableEq

namespace TokenKind

def all : List TokenKind :=
  [.endOfInput, .endOfLine, .ident, .blank, .value, .string, .operator, .leftParen, .rightParen,
    .leftBracket, .rightBracket, .leftBrace, .rightBrace, .comma, .semicolon, .colon, .assign,
    .scope, .inline, .unquote, .quote] ++ Keyword.all.map .keyword

def name : TokenKind → Bytes
  | .endOfInput => "<end of input>"
  | .endOfLine => "<end of line>"
  | .ident => "<identifier>"
  | .blank => "_"
  | .value => "<value>"
  | .string => "<string>"
  | .operator => "<operator>"
  | .leftParen => "("
  | .rightParen => ")"
  | .leftBracket => "["
  | .rightBracket => "]"
  | .leftBrace => "\x7b"
  | .rightBrace => "\x7d"
  | .comma => ","
  | .semicolon => ";"
  | .colon => ":"
  | .assign => ":="
  | .scope => "::"
  | .inline => ":("
  | .unquote => ":$"
  | .quote => ":\x7b"
  | .keyword k => k.name

def isKeyword : TokenKind → Bool
  | .keyword _ => true
  | _ => false

def ofNumber? (n : Int) : Option TokenKind := if n < 0 then none else all[n.toNat]?

/-- The name of the kind with a number, which may be the number of no kind. -/
def nameOf (n : Int) : Bytes :=
  match ofNumber? n with
  | some k => k.name
  | none => "TokenType(" ++ Bytes.ofInt n ++ ")"

end TokenKind

inductive Lexeme where
  | ident (name : Bytes)
  | operator (name : Bytes)
  | value (v : Value)
  | string (e : Expr)
  | keyword (k : Keyword) (word : Bytes)
  | sign (kind : TokenKind)

structure Token where
  lexeme : Lexeme
  line : Nat

namespace Token

def kind (t : Token) : TokenKind :=
  match t.lexeme with
  | .ident _ => .ident
  | .operator _ => .operator
  | .value _ => .value
  | .string _ => .string
  | .keyword k _ => .keyword k
  | .sign kind => kind

def text (t : Token) : Bytes :=
  match t.lexeme with
  | .ident name | .operator name => name
  | .keyword _ word => word
  | _ => []

def display (t : Token) : Bytes :=
  match t.lexeme with
  | .ident name | .operator name => t.kind.name ++ " " ++ Quoted.text name
  | .value v => v.display Shown.plain
  | _ => t.kind.name

end Token

end StagedScript
