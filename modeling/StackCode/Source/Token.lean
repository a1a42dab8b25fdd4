import StackCode.Ty
import StackCode.Text.Quoted

namespace StackCode.Source

inductive Punct where
  | doubleColon | arrow
  | openParen | closeParen | openBrace | closeBrace | openBracket | closeBracket
  | comma | colon | equals | star | ampersand
deriving DecidableEq

def Punct.text : Punct → String
  | .doubleColon => "::"
  | .arrow => "=>"
  | .openParen => "("
  | .closeParen => ")"
  | .openBrace => "\x7b"
  | .closeBrace => "\x7d"
  | .openBracket => "["
  | .closeBracket => "]"
  | .comma => ","
  | .colon => ":"
  | .equals => "="
  | .star => "*"
  | .ampersand => "&"

inductive Token where
  | name (s : String)
  | value (s : String)
  | block (s : String)
  | mark (s : String)
  | int (v : Int)
  | float (x : Binary64)
  | string (s : String)
  | punct (p : Punct)
deriving DecidableEq

namespace Token

def text : Token → String
  | .name s => s
  | .value s => "%" ++ s
  | .block s => "^" ++ s
  | .mark s => "#" ++ s
  | .int v => intText v
  | .float x => x.literalText
  | .string s => Text.quote s
  | .punct p => p.text

def quoted : Token → String
  | .float x => "'" ++ x.plainText ++ "'"
  | .string s => Text.quote s
  | t => "'" ++ t.text ++ "'"

end Token

structure Lexeme where
  token : Token
  line : Nat
deriving DecidableEq

end StackCode.Source
