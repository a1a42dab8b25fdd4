import StackCode.Source.Token
import StackCode.Graph.Basic

namespace StackCode.Source

inductive Piece where
  | token (t : Token)
  | literal (s : String)
  | space
  | indent
  | newline
deriving DecidableEq

def Piece.text : Piece → String
  | .token t => t.text
  | .literal s => s
  | .space => " "
  | .indent => "    "
  | .newline => "\n"

abbrev Pieces := List Piece

namespace Print

def name (s : String) : Piece := .token (.name s)

def punct (p : Punct) : Piece := .token (.punct p)

def commas : List Pieces → Pieces
  | [] => []
  | [ps] => ps
  | ps :: rest => ps ++ [punct .comma, .space] ++ commas rest

def type : Ty → Pieces
  | .pointer .transient t => punct .star :: type t
  | .pointer .reference t => punct .ampersand :: type t
  | .pointer .boxed t => [name "box", .space] ++ type t
  | .array t => punct .openBracket :: type t ++ [punct .closeBracket]
  | .record s => [name "struct", .space, name s]
  | .object s => [name "class", .space, name s]
  | t => [name t.text]

def typeList (ts : List Ty) : Pieces :=
  [punct .openParen] ++ commas (ts.map type) ++ [punct .closeParen]

def constant : Constant → Piece
  | .int v => .token (.int v)
  | .float32 x => .literal x.literalText
  | .float64 x => .token (.float x)
  | .null => name "null"
  | .default => name "default"
  | .string s => .token (.string s)

def field (f : Field) : Pieces :=
  type f.owner ++ [punct .doubleColon, name f.name, punct .colon, .space] ++ type f.type

def method (m : Method) : Pieces :=
  (if m.isStatic then [name "static", .space] else []) ++ type m.returns ++ [.space]
    ++ type m.owner ++ [punct .doubleColon, name m.name] ++ typeList m.parameters

def lookup : Lookup → Pieces
  | .static => []
  | .virtual => [name "virtual", .space]
  | .constrained t => [name "constrained", .space] ++ type t ++ [.space]

def memoryFlags (f : MemoryFlags) : Pieces :=
  (if f.volatile then [name "volatile", .space] else [])
    ++ match f.alignment with
      | some n => [name "align", .space, .token (.int n), .space]
      | none => []

def payload : Operation → Pieces
  | .const c t => type t ++ [.space, constant c]
  | .copy t | .reinterpret t | .dynamicCast t | .box t | .unbox t | .alloca t | .allocaArray t =>
    type t
  | .fieldAddress f | .staticFieldAddress f => field f
  | .load t flags | .store t flags => memoryFlags flags ++ type t
  | .storeField f => (if f.isStatic then [name "static", .space] else []) ++ field f
  | .call m l => lookup l ++ method m
  | .new m => type m.owner ++ typeList m.parameters
  | .newDelegate t m _ l => type t ++ [punct .comma, .space] ++ lookup l ++ method m
  | .sizeOf measured t => type t ++ [.space] ++ type measured
  | .intrinsic _ _ _ => []

def operation : Operation → Pieces
  | .intrinsic s _ _ => [name s]
  | op => [name op.kind, .space] ++ payload op

def suffix : Operation → Pieces
  | .intrinsic _ t _ => if t.isVoid then [] else [.space, punct .colon, .space] ++ type t
  | _ => []

variable (g : Graph)

def value (v : Value) : Piece := .token (.value (g.valueName v))

def instr (i : Instr) : Pieces :=
  operation i.operation
    ++ (if i.operands.isEmpty then [] else .space :: commas (i.operands.map fun v => [value g v]))
    ++ suffix i.operation

def arg : BranchArg → Piece
  | .value v => value g v
  | .result => .token (.mark "result")
  | .exception => .token (.mark "exception")

def target (l : Label) : String :=
  match g.block? l with
  | some b => b.name
  | none => l.text

def branch (b : Branch) : Pieces :=
  .token (.block (target g b.target))
    :: if b.args.isEmpty then []
      else [punct .openParen] ++ commas (b.args.map fun a => [arg g a]) ++ [punct .closeParen]

def case (c : Case) : Pieces :=
  [.indent, .indent] ++ commas (c.constants.map fun c => [constant c])
    ++ [.space, punct .arrow, .space] ++ branch g c.branch ++ [.newline]

def flow : Flow → Pieces
  | .ret none => [.indent, name "ret", .newline]
  | .ret (some v) => [.indent, name "ret", .space, value g v, .newline]
  | .jump b => [.indent, name "jump", .space] ++ branch g b ++ [.newline]
  | .switch v cases fallback =>
    [.indent, name "switch", .space, value g v, .space, punct .openBrace, .newline]
      ++ cases.flatMap (case g)
      ++ [.indent, .indent, name "default", .space, punct .arrow, .space] ++ branch g fallback
      ++ [.newline, .indent, punct .closeBrace, .newline]
  | .protect risky success failure =>
    [.indent, name "try", .space] ++ instr g risky ++ [.space, name "to", .space]
      ++ branch g success ++ [.space, name "catch", .space] ++ branch g failure ++ [.newline]
  | .unreachable => [.indent, name "unreachable", .newline]

def statement (v : Value) : Pieces :=
  match g.instr? v with
  | none => []
  | some i =>
    [.indent]
      ++ (if i.operation.resultType.isVoid then []
        else [value g v, .space, punct .equals, .space])
      ++ instr g i ++ [.newline]

def parameters (ps : List Parameter) : Pieces :=
  if ps.isEmpty then []
  else
    [punct .openParen]
      ++ commas (ps.map fun p => [value g p.value, punct .colon, .space] ++ type p.type)
      ++ [punct .closeParen]

def block (b : Block) : Pieces :=
  [name b.name] ++ parameters g b.parameters ++ [punct .colon, .newline]
    ++ b.instructions.flatMap (statement g) ++ flow g b.flow

end Print

def pieces (m : NamedGraph) : Pieces :=
  [Print.name "method", .space, Print.name m.name, .space, Print.punct .openBrace, .newline]
    ++ m.graph.blocks.toList.flatMap (Print.block m.graph)
    ++ [Print.punct .closeBrace, .newline]

def print (m : NamedGraph) : String :=
  String.join ((pieces m).map Piece.text)

end StackCode.Source
