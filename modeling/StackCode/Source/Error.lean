import StackCode.Source.Token

namespace StackCode.Source

inductive Expectation where
  | name
  | value
  | punct (p : Punct)
  | keyword (s : String)
  | constant
  | alignment
  | blockReference
  | branchArgument
deriving DecidableEq

def Expectation.text : Expectation → String
  | .name => "a name"
  | .value => "a value"
  | .punct p => "'" ++ p.text ++ "'"
  | .keyword s => "'" ++ s ++ "'"
  | .constant => "a constant"
  | .alignment => "an alignment"
  | .blockReference => "a block reference"
  | .branchArgument => "a branch argument"

inductive Fault where
  | noName (sigil : Char)
  | openString
  | badNumber (literal : String)
  | badCharacter (c : Char)
  | expected (what : Expectation) (found : Option Token)
  | unknownType (name : String)
  | unknownOperation (name : String)
  | noDefault
  | noBlocks (method : String)
  | repeatedBlock (block method : String)
  | repeatedValue (value : String)
  | undefinedValue (value : String)
  | undefinedBlock (block : String)
deriving DecidableEq

def Fault.message : Fault → String
  | .noName c => "expected a name after '" ++ c.toString ++ "'"
  | .openString => "unterminated string"
  | .badNumber literal => "malformed number '" ++ literal ++ "'"
  | .badCharacter c => "unexpected character '" ++ c.toString ++ "'"
  | .expected what (some t) => "expected " ++ what.text ++ " but found " ++ t.quoted
  | .expected what none => "expected " ++ what.text ++ " but reached the end of input"
  | .unknownType name => "unknown type '" ++ name ++ "'"
  | .unknownOperation name => "unknown operation '" ++ name ++ "'"
  | .noDefault => "switch without a default branch"
  | .noBlocks method => "method " ++ method ++ " has no blocks"
  | .repeatedBlock block method =>
    "block ^" ++ block ++ " is defined twice in method " ++ method
  | .repeatedValue value => "value %" ++ value ++ " is defined twice"
  | .undefinedValue value => "undefined value %" ++ value
  | .undefinedBlock block => "undefined block ^" ++ block

structure ParseError where
  line : Nat
  fault : Fault
deriving DecidableEq

def ParseError.message (e : ParseError) : String :=
  "line " ++ natText e.line ++ ": " ++ e.fault.message

end StackCode.Source
