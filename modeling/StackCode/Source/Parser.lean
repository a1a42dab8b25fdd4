import StackCode.Source.Lexer
import StackCode.Source.Names

namespace StackCode.Source

structure Cursor where
  lexemes : List Lexeme
  lastLine : Nat
deriving DecidableEq

def Cursor.line (c : Cursor) : Nat :=
  match c.lexemes with
  | l :: _ => l.line
  | [] => c.lastLine

def Cursor.token? (c : Cursor) : Option Token :=
  c.lexemes.head?.map Lexeme.token

def Cursor.second? (c : Cursor) : Option Token :=
  c.lexemes[1]?.map Lexeme.token

def Cursor.isValue (c : Cursor) : Bool :=
  match c.token? with
  | some (.value _) => true
  | _ => false

abbrev Parser := StateT Cursor (Except ParseError)

namespace Parser

variable {α : Type}

def fail (fault : Fault) : Parser α :=
  fun c => .error ⟨c.line, fault⟩

def take (what : Expectation) (accept : Token → Option α) : Parser α :=
  fun c =>
    match c.lexemes with
    | [] => .error ⟨c.line, .expected what none⟩
    | l :: rest =>
      match accept l.token with
      | some a => .ok (a, { c with lexemes := rest })
      | none => .error ⟨c.line, .expected what (some l.token)⟩

def eat (t : Token) : Parser Bool :=
  fun c =>
    if c.token? = some t then .ok (true, { c with lexemes := c.lexemes.tail }) else .ok (false, c)

def expect (t : Token) (what : Expectation) : Parser Unit :=
  take what fun u => if u = t then some () else none

def punct (p : Punct) : Parser Unit :=
  expect (.punct p) (.punct p)

def keyword (s : String) : Parser Unit :=
  expect (.name s) (.keyword s)

def eatPunct (p : Punct) : Parser Bool := eat (.punct p)

def eatKeyword (s : String) : Parser Bool := eat (.name s)

def name : Parser String :=
  take .name fun
    | .name s => some s
    | _ => none

def value : Parser String :=
  take .value fun
    | .value s => some s
    | _ => none

def line : Parser Nat := return (← get).line

/-- Runs a parser again and again until `stop` holds. Every parser used here takes a token; one that
took none would end the repetition. -/
def repeatUntil (stop : Cursor → Bool) (p : Parser α) : Parser (List α) :=
  fun c =>
    if stop c then .ok ([], c)
    else
      match p c with
      | .error e => .error e
      | .ok (a, d) =>
        if d.lexemes.length < c.lexemes.length then
          match repeatUntil stop p d with
          | .error e => .error e
          | .ok (as, d) => .ok (a :: as, d)
        else .ok ([a], d)
termination_by c => c.lexemes.length

def upTo (p : Punct) (item : Parser α) : Parser (List α) := do
  let as ← repeatUntil (·.token? = some (.punct p)) item
  punct p
  return as

def commaList (p : Punct) (item : Parser α) : Parser (List α) := do
  if ← eatPunct p then return []
  else
    let a ← item
    let as ← upTo p do
      punct .comma
      item
    return a :: as

inductive Opener where
  | transient | reference | array | boxed
deriving DecidableEq

def opener? : Token → Option Opener
  | .punct .star => some .transient
  | .punct .ampersand => some .reference
  | .punct .openBracket => some .array
  | .name "box" => some .boxed
  | _ => none

def openersOf : List Lexeme → List Opener × List Lexeme
  | [] => ([], [])
  | l :: rest =>
    match opener? l.token with
    | some o =>
      let (os, r) := openersOf rest
      (o :: os, r)
    | none => ([], l :: rest)

def openers : Parser (List Opener) :=
  fun c =>
    let (os, lexemes) := openersOf c.lexemes
    .ok (os, { c with lexemes })

def close (t : Ty) : List Opener → Parser Ty
  | [] => return t
  | .transient :: os => return .pointer .transient (← close t os)
  | .reference :: os => return .pointer .reference (← close t os)
  | .boxed :: os => return .pointer .boxed (← close t os)
  | .array :: os => do
    let t ← close t os
    punct .closeBracket
    return .array t

def intType? (s : String) : Option Ty :=
  let sized (signed : Bool) (ds : List Char) : Option Ty :=
    match digitsValue? 10 ds with
    | some n => if 1 ≤ n ∧ n ≤ 128 then some (.int ⟨n, signed⟩) else none
    | none => none
  match s.toList with
  | 'i' :: ds => sized true ds
  | 'u' :: ds => sized false ds
  | _ => none

def plainType : Parser Ty := do
  match ← name with
  | "void" => return .void
  | "bool" => return .bool
  | "char" => return .char
  | "isize" => return .word true
  | "usize" => return .word false
  | "f32" => return .float32
  | "f64" => return .float64
  | "struct" => return .record (← name)
  | "class" => return .object (← name)
  | s =>
    match intType? s with
    | some t => return t
    | none => fail (.unknownType s)

def type : Parser Ty := do
  let os ← openers
  close (← plainType) os

def typeList : Parser (List Ty) := do
  punct .openParen
  commaList .closeParen type

def field (isStatic : Bool) : Parser Field := do
  let owner ← type
  punct .doubleColon
  let name ← name
  punct .colon
  return ⟨owner, name, ← type, isStatic⟩

def method : Parser Method := do
  let isStatic ← eatKeyword "static"
  let returns ← type
  let owner ← type
  punct .doubleColon
  let name ← name
  return ⟨owner, name, ← typeList, returns, isStatic⟩

def lookup : Parser Lookup := do
  if ← eatKeyword "virtual" then return .virtual
  else if ← eatKeyword "constrained" then return .constrained (← type)
  else return .static

def operands : Parser (List String) := do
  let c ← get
  if !c.isValue || c.second? = some (.punct .equals) then return []
  else
    let v ← value
    let vs ← repeatUntil (fun c => !(c.token? = some (.punct .comma) &&
        match c.second? with
        | some (.value _) => true
        | _ => false)) do
      punct .comma
      value
    return v :: vs

def constant? (t : Ty) : Token → Option Constant
  | .int v =>
    match t with
    | .float32 => some (.float32 (.ofInt v))
    | .float64 => some (.float64 (.ofInt v))
    | _ => some (.int v)
  | .float x =>
    match t with
    | .float32 => some (.float32 x.convert)
    | _ => some (.float64 x)
  | .name "null" => some .null
  | .name "default" => some .default
  | .name "true" => some (.int 1)
  | .name "false" => some (.int 0)
  | .string s => some (.string s)
  | _ => none

def constant (t : Ty) : Parser Constant :=
  take .constant (constant? t)

def alignment? : Token → Option Nat
  | .int v => if 0 ≤ v ∧ v < 4294967296 then some v.toNat else none
  | _ => none

def memoryFlags : Parser MemoryFlags := do
  let volatile ← eatKeyword "volatile"
  if ← eatKeyword "align" then return ⟨volatile, some (← take .alignment alignment?)⟩
  else return ⟨volatile, none⟩

def operation (line : Nat) (s : String) : Parser (Operation × List String) := do
  match s with
  | "const" =>
    let t ← type
    return (.const (← constant t) t, [])
  | "copy" => return (.copy (← type), ← operands)
  | "reinterpret" => return (.reinterpret (← type), ← operands)
  | "dyncast" => return (.dynamicCast (← type), ← operands)
  | "box" => return (.box (← type), ← operands)
  | "unbox" => return (.unbox (← type), ← operands)
  | "field_addr" => return (.fieldAddress (← field false), ← operands)
  | "static_field_addr" => return (.staticFieldAddress (← field true), [])
  | "alloca" => return (.alloca (← type), [])
  | "alloca_array" => return (.allocaArray (← type), ← operands)
  | "load" =>
    let flags ← memoryFlags
    return (.load (← type) flags, ← operands)
  | "store" =>
    let flags ← memoryFlags
    return (.store (← type) flags, ← operands)
  | "store_field" =>
    let isStatic ← eatKeyword "static"
    return (.storeField (← field isStatic), ← operands)
  | "call" =>
    let lookup ← lookup
    return (.call (← method) lookup, ← operands)
  | "new" =>
    let owner ← type
    return (.new ⟨owner, ".ctor", ← typeList, .void, false⟩, ← operands)
  | "new_delegate" =>
    let t ← type
    punct .comma
    let lookup ← lookup
    let callee ← method
    let vs ← operands
    return (.newDelegate t callee (!vs.isEmpty) lookup, vs)
  | "sizeof" =>
    let t ← type
    return (.sizeOf (← type) t, [])
  | _ =>
    if s.toList.contains '.' then
      let vs ← operands
      if ← eatPunct .colon then return (.intrinsic s (← type) [], vs)
      else return (.intrinsic s .void [], vs)
    else throw ⟨line, .unknownOperation s⟩

def op : Parser OpTree := do
  let line ← line
  let (operation, operands) ← operation line (← name)
  return ⟨operation, operands, line⟩

def arg? : Token → Option ArgTree
  | .value s => some (.value s)
  | .mark "result" => some .result
  | .mark "exception" => some .exception
  | _ => none

def branch : Parser BranchTree := do
  let line ← line
  let target ← take .blockReference fun
    | .block s => some s
    | _ => none
  if ← eatPunct .openParen then
    return ⟨target, ← commaList .closeParen (take .branchArgument arg?), line⟩
  else return ⟨target, [], line⟩

def arm : Parser CaseTree := do
  if ← eatKeyword "default" then
    punct .arrow
    return ⟨[], ← branch⟩
  else
    let c ← constant (.signed 64)
    let cs ← repeatUntil (·.token? ≠ some (.punct .comma)) do
      punct .comma
      constant (.signed 64)
    punct .arrow
    return ⟨c :: cs, ← branch⟩

/-- A switch. The last default counts. -/
def switch : Parser FlowTree := do
  let v ← value
  punct .openBrace
  let arms ← upTo .closeBrace arm
  match (arms.filter (·.constants.isEmpty)).getLast? with
  | some fallback => return .switch v (arms.filter (!·.constants.isEmpty)) fallback.branch
  | none => fail .noDefault

def protect : Parser FlowTree := do
  let risky ← op
  keyword "to"
  let success ← branch
  keyword "catch"
  return .protect risky success (← branch)

def ret : Parser FlowTree := do
  if (← get).isValue then return .ret (some (← value)) else return .ret none

def flow? : String → Option (Parser FlowTree)
  | "ret" => some ret
  | "jump" => some do return .jump (← branch)
  | "switch" => some switch
  | "try" => some protect
  | "unreachable" => some (return .unreachable)
  | _ => none

def startsFlow (c : Cursor) : Bool :=
  match c.token? with
  | some (.name s) => (flow? s).isSome
  | _ => false

def flow : Parser FlowTree := do
  match flow? (← name) with
  | some p => p
  | none => return .unreachable

def statement : Parser StatementTree := do
  if (← get).isValue then
    let v ← value
    punct .equals
    return ⟨some v, ← op⟩
  else return ⟨none, ← op⟩

def parameter : Parser (String × Ty) := do
  let v ← value
  punct .colon
  return (v, ← type)

def block : Parser BlockTree := do
  let line ← line
  let name ← name
  let parameters ← if ← eatPunct .openParen then commaList .closeParen parameter else pure []
  punct .colon
  let statements ← repeatUntil startsFlow statement
  return ⟨name, line, parameters, statements, ← flow⟩

def methodTree : Parser MethodTree := do
  let line ← line
  keyword "method"
  let name ← name
  punct .openBrace
  let blocks ← upTo .closeBrace block
  if blocks.isEmpty then throw ⟨line, .noBlocks name⟩
  else return ⟨name, blocks⟩

def namedGraph : Parser NamedGraph := do
  let m ← methodTree
  return ⟨m.name, ← m.graph⟩

end Parser

def parse (text : String) : Except ParseError (List NamedGraph) := do
  let lexemes ← lex text.toList
  let last := (lexemes.getLast?.map Lexeme.line).getD 1
  let (methods, _) ← Parser.repeatUntil (·.lexemes.isEmpty) Parser.namedGraph ⟨lexemes, last⟩
  return methods

end StackCode.Source
