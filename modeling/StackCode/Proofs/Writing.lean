import StackCode.Source.Tree
import StackCode.Proofs.Spelling

namespace StackCode

open Source (isName isWord Token)

def Ty.Sound : Ty → Prop
  | .int s => 1 ≤ s.bits ∧ s.bits ≤ 128
  | .pointer _ t => t.Sound
  | .array t => t.Sound
  | .record s | .object s => isName s
  | _ => True

namespace Constant

def Sound : Constant → Prop
  | .int v => (Token.int v).isSound
  | _ => True

def Plain : Constant → Prop
  | .float32 _ | .float64 _ => False
  | .string s => s.toList.all Text.isPlain
  | _ => True

instance : DecidablePred Plain
  | .float32 _ | .float64 _ => inferInstanceAs (Decidable False)
  | .string s => inferInstanceAs (Decidable (s.toList.all Text.isPlain = true))
  | .int _ | .null | .default => inferInstanceAs (Decidable True)

end Constant

def Field.Sound (f : Field) : Prop :=
  f.owner.Sound ∧ isName f.name ∧ f.type.Sound

def Method.Sound (m : Method) : Prop :=
  m.owner.Sound ∧ isName m.name ∧ (∀ t ∈ m.parameters, t.Sound) ∧ m.returns.Sound

def Lookup.Sound : Lookup → Prop
  | .constrained t => t.Sound
  | _ => True

def MemoryFlags.Sound (f : MemoryFlags) : Prop :=
  ∀ n ∈ f.alignment, n < 4294967296

namespace Operation

def Sound (operands : List String) : Operation → Prop
  | .const c t => t.Sound ∧ c.Sound ∧ operands = []
  | .copy t | .reinterpret t | .dynamicCast t | .box t | .unbox t | .allocaArray t => t.Sound
  | .alloca t => t.Sound ∧ operands = []
  | .fieldAddress f => f.Sound ∧ f.isStatic = false
  | .staticFieldAddress f => f.Sound ∧ f.isStatic = true ∧ operands = []
  | .load t flags | .store t flags => t.Sound ∧ flags.Sound
  | .storeField f => f.Sound
  | .call m l => m.Sound ∧ l.Sound
  | .new m => m.Sound ∧ m.name = ".ctor" ∧ m.returns = .void ∧ m.isStatic = false
  | .newDelegate t m hasReceiver l =>
    t.Sound ∧ m.Sound ∧ l.Sound ∧ hasReceiver = !operands.isEmpty
  | .sizeOf measured t => t.Sound ∧ measured.Sound ∧ operands = []
  | .intrinsic s t ps => isName s ∧ s.toList.contains '.' ∧ t.Sound ∧ ps = []

def Plain : Operation → Prop
  | .const c _ => c.Plain
  | _ => True

def Exact : Operation → Prop
  | .const c t => c.int?.isSome → t.isFloat = false
  | _ => True

end Operation

namespace Source

namespace OpTree

def Sound (op : OpTree) : Prop :=
  op.operation.Sound op.operands ∧ ∀ s ∈ op.operands, isWord s

def Plain (op : OpTree) : Prop :=
  op.operation.Plain ∧ op.operation.Exact

def pieces (op : OpTree) : Pieces :=
  Print.operation op.operation
    ++ (if op.operands.isEmpty then []
      else .space :: Print.commas (op.operands.map fun s => [.token (.value s)]))
    ++ Print.suffix op.operation

end OpTree

namespace ArgTree

def Sound : ArgTree → Prop
  | .value s => isWord s
  | _ => True

def piece : ArgTree → Piece
  | .value s => .token (.value s)
  | .result => .token (.mark "result")
  | .exception => .token (.mark "exception")

end ArgTree

namespace BranchTree

def Sound (b : BranchTree) : Prop :=
  isWord b.target ∧ ∀ a ∈ b.args, a.Sound

def pieces (b : BranchTree) : Pieces :=
  .token (.block b.target)
    :: if b.args.isEmpty then []
      else [Print.punct .openParen] ++ Print.commas (b.args.map fun a => [a.piece])
        ++ [Print.punct .closeParen]

end BranchTree

namespace CaseTree

def Sound (c : CaseTree) : Prop :=
  (∃ k ks, c.constants = k :: ks ∧ k ≠ .default) ∧ (∀ k ∈ c.constants, k.Sound) ∧ c.branch.Sound

def Plain (c : CaseTree) : Prop :=
  ∀ k ∈ c.constants, k.Plain

def pieces (c : CaseTree) : Pieces :=
  [.indent, .indent] ++ Print.commas (c.constants.map fun k => [Print.constant k])
    ++ [.space, Print.punct .arrow, .space] ++ c.branch.pieces ++ [.newline]

end CaseTree

namespace FlowTree

def Sound : FlowTree → Prop
  | .ret value => ∀ s ∈ value, isWord s
  | .jump b => b.Sound
  | .switch s cases fallback => isWord s ∧ (∀ c ∈ cases, c.Sound) ∧ fallback.Sound
  | .protect risky success failure => risky.Sound ∧ success.Sound ∧ failure.Sound
  | .unreachable => True

def Plain : FlowTree → Prop
  | .switch _ cases _ => ∀ c ∈ cases, c.Plain
  | .protect risky _ _ => risky.Plain
  | _ => True

def pieces : FlowTree → Pieces
  | .ret none => [.indent, Print.name "ret", .newline]
  | .ret (some s) => [.indent, Print.name "ret", .space, .token (.value s), .newline]
  | .jump b => [.indent, Print.name "jump", .space] ++ b.pieces ++ [.newline]
  | .switch s cases fallback =>
    [.indent, Print.name "switch", .space, .token (.value s), .space, Print.punct .openBrace,
        .newline]
      ++ cases.flatMap CaseTree.pieces
      ++ [.indent, .indent, Print.name "default", .space, Print.punct .arrow, .space]
      ++ fallback.pieces ++ [.newline, .indent, Print.punct .closeBrace, .newline]
  | .protect risky success failure =>
    [.indent, Print.name "try", .space] ++ risky.pieces ++ [.space, Print.name "to", .space]
      ++ success.pieces ++ [.space, Print.name "catch", .space] ++ failure.pieces ++ [.newline]
  | .unreachable => [.indent, Print.name "unreachable", .newline]

end FlowTree

namespace StatementTree

def Sound (s : StatementTree) : Prop :=
  (∀ v ∈ s.name, isWord v) ∧ s.op.Sound

def pieces (s : StatementTree) : Pieces :=
  [.indent]
    ++ (match s.name with
      | some v => [.token (.value v), .space, Print.punct .equals, .space]
      | none => [])
    ++ s.op.pieces ++ [.newline]

end StatementTree

namespace BlockTree

def Sound (b : BlockTree) : Prop :=
  isName b.name ∧ (∀ p ∈ b.parameters, isWord p.1 ∧ p.2.Sound) ∧
    (∀ s ∈ b.statements, s.Sound) ∧ b.flow.Sound

def Plain (b : BlockTree) : Prop :=
  (∀ s ∈ b.statements, s.op.Plain) ∧ b.flow.Plain

def parameterPieces (b : BlockTree) : Pieces :=
  if b.parameters.isEmpty then []
  else
    [Print.punct .openParen]
      ++ Print.commas (b.parameters.map fun p =>
        .token (.value p.1) :: Print.punct .colon :: .space :: Print.type p.2)
      ++ [Print.punct .closeParen]

def pieces (b : BlockTree) : Pieces :=
  [Print.name b.name] ++ b.parameterPieces ++ [Print.punct .colon, .newline]
    ++ b.statements.flatMap StatementTree.pieces ++ b.flow.pieces

end BlockTree

namespace MethodTree

def Sound (m : MethodTree) : Prop :=
  isName m.name ∧ m.blocks ≠ [] ∧ ∀ b ∈ m.blocks, b.Sound

def Plain (m : MethodTree) : Prop :=
  ∀ b ∈ m.blocks, b.Plain

def pieces (m : MethodTree) : Pieces :=
  [Print.name "method", .space, Print.name m.name, .space, Print.punct .openBrace, .newline]
    ++ m.blocks.flatMap BlockTree.pieces ++ [Print.punct .closeBrace, .newline]

end MethodTree

abbrev Neat (ps : Pieces) : Prop := ∃ a, neat false ps = some a

abbrev NeatLine (ps : Pieces) : Prop := neat false ps = some false

@[simp] theorem neat_nil (w : Bool) : neat w [] = some w := rfl

@[simp] theorem neat_space (w : Bool) (ps : Pieces) : neat w (.space :: ps) = neat false ps := by
  simp [neat, Piece.isWritten, Piece.joins, Piece.isSign, Piece.isOpen]

@[simp] theorem neat_indent (w : Bool) (ps : Pieces) : neat w (.indent :: ps) = neat false ps := by
  simp [neat, Piece.isWritten, Piece.joins, Piece.isSign, Piece.isOpen]

@[simp] theorem neat_newline (w : Bool) (ps : Pieces) :
    neat w (.newline :: ps) = neat false ps := by
  simp [neat, Piece.isWritten, Piece.joins, Piece.isSign, Piece.isOpen]

theorem neat_name {s : String} (h : isName s) (ps : Pieces) :
    neat false (Print.name s :: ps) = neat true ps := by
  simp [neat, Print.name, Piece.isWritten, Token.isSound, Token.isPlain, Piece.isSign, Piece.isOpen,
    h]

theorem neat_value {s : String} (h : isWord s) (w : Bool) (ps : Pieces) :
    neat w (.token (.value s) :: ps) = neat true ps := by
  simp [neat, Piece.isWritten, Token.isSound, Token.isPlain, Piece.isSign, Piece.isOpen,
    Piece.joins, h]

theorem neat_block {s : String} (h : isWord s) (w : Bool) (ps : Pieces) :
    neat w (.token (.block s) :: ps) = neat true ps := by
  simp [neat, Piece.isWritten, Token.isSound, Token.isPlain, Piece.isSign, Piece.isOpen,
    Piece.joins, h]

theorem neat_punct {p : Punct} (h : p ≠ .colon ∧ p ≠ .equals) (w : Bool) (ps : Pieces) :
    neat w (Print.punct p :: ps) = neat false ps := by
  have hs : (Piece.token (.punct p)).isSign = false := by
    cases p <;> first | rfl | simp at h
  simp [neat, Print.punct, Piece.isWritten, Token.isSound, Token.isPlain, Piece.isOpen, Piece.joins,
    hs]

theorem neat_int {v : Int} (h : (Token.int v).isSound) (ps : Pieces) :
    neat false (.token (.int v) :: ps) = neat true ps := by
  simp [neat, Piece.isWritten, Token.isPlain, Piece.isSign, Piece.isOpen, h]

@[simp] theorem neat_punct_space (p : Punct) (w : Bool) (ps : Pieces) :
    neat w (Print.punct p :: .space :: ps) = neat false ps := by
  rw [neat, if_pos (by simp [Print.punct, Piece.isWritten, Token.isSound, Token.isPlain,
    Piece.joins, Piece.isLayout]), neat_space]

@[simp] theorem neat_punct_newline (p : Punct) (w : Bool) (ps : Pieces) :
    neat w (Print.punct p :: .newline :: ps) = neat false ps := by
  rw [neat, if_pos (by simp [Print.punct, Piece.isWritten, Token.isSound, Token.isPlain,
    Piece.joins, Piece.isLayout]), neat_newline]

theorem neat_commas {l : List Pieces} (h : ∀ ps ∈ l, Neat ps) : Neat (Print.commas l) := by
  fun_induction Print.commas l with
  | case1 => exact ⟨false, rfl⟩
  | case2 ps => exact h ps (by simp)
  | case3 ps rest _ ih =>
    rw [List.forall_mem_cons] at h
    obtain ⟨a, ha⟩ := h.1
    obtain ⟨b, hb⟩ := ih h.2
    refine ⟨b, ?_⟩
    rw [List.append_assoc, neat_append ha]
    simp [neat_punct, hb]

theorem neatLine_flatMap {α : Type} {f : α → Pieces} {xs : List α} (h : ∀ x ∈ xs, NeatLine (f x)) :
    NeatLine (xs.flatMap f) := by
  induction xs with
  | nil => rfl
  | cons x xs ih =>
    rw [List.forall_mem_cons] at h
    rw [List.flatMap_cons, NeatLine, neat_append h.1]
    exact ih h.2

theorem isName_of_toList {s : String} {c : Char} {cs : List Char} (hs : s.toList = c :: cs)
    (hc : startsName c) (h : ∀ d ∈ cs, isNameChar d) : isName s := by
  simp only [isName, hs, List.head?_cons, Option.any_some, hc, List.all_cons,
    isNameChar_of_startsName hc, Bool.true_and, List.all_eq_true]
  exact h

theorem isName_int (s : IntShape) : isName (Ty.int s).text := by
  have hd : ∀ n, ∀ d ∈ decimalDigits n, isNameChar d := fun n d hd =>
    isNameChar_of_isDigit (isDigit_of_mem_decimalDigits hd)
  obtain ⟨bits, signed⟩ := s
  unfold Ty.text
  split
  case h_4 n _ =>
    apply isName_of_toList (c := 'i') _ (by decide) (hd n)
    simp [natText]
  case h_5 n _ _ _ =>
    apply isName_of_toList (c := 'u') _ (by decide) (hd n)
    simp [natText]
  all_goals first | rfl | contradiction

theorem neat_type {t : Ty} (h : t.Sound) : Neat (Print.type t) := by
  induction t with
  | pointer kind t ih =>
    obtain ⟨a, ha⟩ := ih h
    cases kind with
    | transient | reference => exact ⟨a, by simp [Print.type, neat_punct, ha]⟩
    | boxed => exact ⟨a, by simp [Print.type, neat_name (by decide : isName "box"), ha]⟩
  | array t ih =>
    obtain ⟨a, ha⟩ := ih h
    exact ⟨false, by simp [Print.type, neat_punct, neat_append ha]⟩
  | record s =>
    have h : isName s := h
    exact ⟨true, by simp [Print.type, neat_name (by decide : isName "struct"), neat_name h]⟩
  | object s =>
    have h : isName s := h
    exact ⟨true, by simp [Print.type, neat_name (by decide : isName "class"), neat_name h]⟩
  | int s => exact ⟨true, neat_name (isName_int s) []⟩
  | word signed => exact ⟨true, by cases signed <;> rfl⟩
  | void | float32 | float64 => exact ⟨true, rfl⟩

theorem neat_typeList {ts : List Ty} (h : ∀ t ∈ ts, t.Sound) (w : Bool) :
    neat w (Print.typeList ts) = some false := by
  obtain ⟨a, ha⟩ := neat_commas (l := ts.map Print.type)
    (by simpa using fun t ht => neat_type (h t ht))
  simp [Print.typeList, neat_punct, neat_append ha]

theorem neat_constant {c : Constant} (hs : c.Sound) (hp : c.Plain) : Neat [Print.constant c] := by
  cases c with
  | int v =>
    have hs : (Token.int v).isSound := hs
    exact ⟨true, by rw [Print.constant, neat_int hs, neat_nil]⟩
  | float32 x | float64 x => exact hp.elim
  | null | default => exact ⟨true, by decide⟩
  | string s =>
    have hp : s.toList.all Text.isPlain := hp
    exact ⟨false, by simp only [Print.constant, neat, Piece.isWritten, Token.isSound, Token.isPlain,
      Piece.isSign, Piece.isOpen, hp]; rfl⟩

theorem neat_field {f : Field} (h : f.Sound) : Neat (Print.field f) := by
  obtain ⟨ho, hn, ht⟩ := h
  obtain ⟨a, ha⟩ := neat_type ho
  obtain ⟨b, hb⟩ := neat_type ht
  refine ⟨b, ?_⟩
  simp [Print.field, neat_append ha, neat_punct, neat_name hn, hb]

theorem neat_method {m : Method} (h : m.Sound) : Neat (Print.method m) := by
  obtain ⟨ho, hn, hp, hr⟩ := h
  obtain ⟨a, ha⟩ := neat_type hr
  obtain ⟨b, hb⟩ := neat_type ho
  refine ⟨false, ?_⟩
  have hs : neat false (if m.isStatic then [Print.name "static", .space] else []) = some false := by
    by_cases hm : m.isStatic <;> simp [hm, neat_name (by decide : isName "static")]
  simp [Print.method, neat_append hs, neat_append ha, neat_append hb, neat_punct, neat_name hn,
    neat_typeList hp]

theorem neatLine_lookup {l : Lookup} (h : l.Sound) : NeatLine (Print.lookup l) := by
  cases l with
  | static => rfl
  | virtual => decide
  | constrained t =>
    obtain ⟨a, ha⟩ := neat_type (t := t) h
    simp [NeatLine, Print.lookup, neat_name (by decide : isName "constrained"), neat_append ha]

theorem isSound_nat {n : Nat} (h : n < 4294967296) : (Token.int n).isSound := by
  simp only [Token.isSound, Bool.and_eq_true, decide_eq_true_eq]
  have h1 : IntShape.constantMin ≤ 0 := by decide
  have h2 : 4294967296 ≤ IntShape.constantMax := by decide
  omega

theorem neatLine_memoryFlags {f : MemoryFlags} (h : f.Sound) : NeatLine (Print.memoryFlags f) := by
  obtain ⟨volatile, alignment⟩ := f
  have hv : neat false (if volatile then [Print.name "volatile", .space] else []) = some false := by
    cases volatile <;> decide
  rw [NeatLine, Print.memoryFlags, neat_append hv]
  cases alignment with
  | none => rfl
  | some n =>
    have hn := isSound_nat (h n rfl)
    simp [neat_name (by decide : isName "align"), neat_int hn]

theorem neat_payload {vs : List String} {o : Operation} (h : o.Sound vs) (hp : o.Plain) :
    Neat (Print.payload o) := by
  cases o with
  | const c t =>
    obtain ⟨a, ha⟩ := neat_type h.1
    obtain ⟨b, hb⟩ := neat_constant h.2.1 hp
    exact ⟨b, by simp [Print.payload, neat_append ha, hb]⟩
  | copy t | reinterpret t | dynamicCast t | box t | unbox t | allocaArray t =>
    exact neat_type (t := t) h
  | alloca t => exact neat_type h.1
  | fieldAddress f | staticFieldAddress f => exact neat_field h.1
  | load t flags | store t flags =>
    obtain ⟨a, ha⟩ := neat_type h.1
    exact ⟨a, by rw [Print.payload, neat_append (neatLine_memoryFlags h.2), ha]⟩
  | storeField f =>
    obtain ⟨a, ha⟩ := neat_field (f := f) h
    by_cases hs : f.isStatic
    · exact ⟨a, by simp [Print.payload, hs, neat_name (by decide : isName "static"), ha]⟩
    · exact ⟨a, by simp [Print.payload, hs, ha]⟩
  | call m l =>
    obtain ⟨a, ha⟩ := neat_method h.1
    exact ⟨a, by rw [Print.payload, neat_append (neatLine_lookup h.2), ha]⟩
  | new m =>
    obtain ⟨a, ha⟩ := neat_type h.1.1
    exact ⟨false, by rw [Print.payload, neat_append ha, neat_typeList h.1.2.2.1]⟩
  | newDelegate t m hasReceiver l =>
    obtain ⟨a, ha⟩ := neat_type h.1
    obtain ⟨b, hb⟩ := neat_method h.2.1
    exact ⟨b, by simp [Print.payload, neat_append ha, neat_append (neatLine_lookup h.2.2.1), hb]⟩
  | sizeOf measured t =>
    obtain ⟨a, ha⟩ := neat_type h.1
    obtain ⟨b, hb⟩ := neat_type h.2.1
    exact ⟨b, by simp [Print.payload, neat_append ha, hb]⟩
  | intrinsic s t ps => exact ⟨false, rfl⟩

theorem neat_operation {vs : List String} {o : Operation} (h : o.Sound vs) (hp : o.Plain) :
    Neat (Print.operation o) := by
  obtain ⟨a, ha⟩ := neat_payload h hp
  cases o with
  | intrinsic s t ps => exact ⟨true, neat_name h.1 []⟩
  | _ =>
    refine ⟨a, ?_⟩
    rw [Print.operation, List.cons_append, neat_name (by simp only [Operation.kind]; decide)]
    · exact ha
    · intro _ _ _ he
      cases he

theorem neat_suffix {vs : List String} {o : Operation} (h : o.Sound vs) (w : Bool) :
    ∃ a, neat w (Print.suffix o) = some a := by
  cases o with
  | intrinsic s t ps =>
    obtain ⟨a, ha⟩ := neat_type h.2.2.1
    by_cases ht : t.isVoid
    · exact ⟨w, by simp [Print.suffix, ht]⟩
    · exact ⟨a, by simp [Print.suffix, ht, ha]⟩
  | _ => exact ⟨w, rfl⟩

theorem neat_values {vs : List String} (h : ∀ v ∈ vs, isWord v) :
    Neat (Print.commas (vs.map fun v => [.token (.value v)])) := by
  apply neat_commas
  intro ps hps
  obtain ⟨v, hv, rfl⟩ := List.mem_map.mp hps
  exact ⟨true, neat_value (h v hv) false []⟩

theorem OpTree.Sound.neat {op : OpTree} (h : op.Sound) (hp : op.operation.Plain) :
    Neat op.pieces := by
  obtain ⟨a, ha⟩ := neat_operation h.1 hp
  obtain ⟨b, hb⟩ := neat_values h.2
  rw [OpTree.pieces]
  by_cases he : op.operands.isEmpty
  · obtain ⟨d, hd⟩ := neat_suffix h.1 a
    exact ⟨d, by simp [he, neat_append ha, hd]⟩
  · obtain ⟨d, hd⟩ := neat_suffix h.1 b
    exact ⟨d, by simp [he, neat_append ha, neat_append hb, hd]⟩

theorem neat_arg {a : ArgTree} (h : a.Sound) : Neat [a.piece] := by
  cases a with
  | value s => exact ⟨true, neat_value h false []⟩
  | result | exception => exact ⟨true, by decide⟩

theorem BranchTree.Sound.neat {b : BranchTree} (h : b.Sound) : Neat b.pieces := by
  obtain ⟨a, ha⟩ := neat_commas (l := b.args.map fun a => [a.piece])
    (by simpa using fun a ha => neat_arg (h.2 a ha))
  by_cases he : b.args.isEmpty
  · exact ⟨true, by simp [BranchTree.pieces, he, neat_block h.1]⟩
  · exact ⟨false, by simp [BranchTree.pieces, he, neat_block h.1, neat_punct, neat_append ha]⟩

theorem CaseTree.Sound.neat {c : CaseTree} (h : c.Sound) (hp : c.Plain) : NeatLine c.pieces := by
  obtain ⟨a, ha⟩ := neat_commas (l := c.constants.map fun k => [Print.constant k])
    (by simpa using fun k hk => neat_constant (h.2.1 k hk) (hp k hk))
  obtain ⟨b, hb⟩ := h.2.2.neat
  simp [NeatLine, CaseTree.pieces, neat_append ha, neat_append hb]

theorem FlowTree.Sound.neat {f : FlowTree} (h : f.Sound) (hp : f.Plain) : NeatLine f.pieces := by
  cases f with
  | ret value =>
    cases value with
    | none => decide
    | some s =>
      have hs : isWord s := h s rfl
      simp [NeatLine, FlowTree.pieces, neat_name (by decide : isName "ret"), neat_value hs]
  | jump b =>
    obtain ⟨a, ha⟩ := BranchTree.Sound.neat (b := b) h
    simp [NeatLine, FlowTree.pieces, neat_name (by decide : isName "jump"), neat_append ha]
  | switch s cases fallback =>
    obtain ⟨hs, hc, hf⟩ := h
    have hl : NeatLine (cases.flatMap CaseTree.pieces) :=
      neatLine_flatMap fun c hm => (hc c hm).neat (hp c hm)
    obtain ⟨a, ha⟩ := hf.neat
    simp [NeatLine, FlowTree.pieces, neat_name (by decide : isName "switch"), neat_value hs,
      neat_append hl, neat_name (by decide : isName "default"), neat_append ha]
  | protect risky success failure =>
    obtain ⟨a, ha⟩ := h.1.neat hp.1
    obtain ⟨b, hb⟩ := h.2.1.neat
    obtain ⟨d, hd⟩ := h.2.2.neat
    simp [NeatLine, FlowTree.pieces, neat_name (by decide : isName "try"), neat_append ha,
      neat_name (by decide : isName "to"), neat_append hb, neat_name (by decide : isName "catch"),
      neat_append hd]
  | unreachable => decide

theorem StatementTree.Sound.neat {s : StatementTree} (h : s.Sound) (hp : s.op.operation.Plain) :
    NeatLine s.pieces := by
  obtain ⟨a, ha⟩ := h.2.neat hp
  cases hn : s.name with
  | none => simp [NeatLine, StatementTree.pieces, hn, neat_append ha]
  | some v => simp [NeatLine, StatementTree.pieces, hn, neat_value (h.1 v hn), neat_append ha]

theorem neat_parameters {b : BlockTree} (h : ∀ p ∈ b.parameters, isWord p.1 ∧ p.2.Sound) :
    neat true (b.parameterPieces) = some b.parameters.isEmpty := by
  obtain ⟨a, ha⟩ := neat_commas (l := b.parameters.map fun p =>
      .token (.value p.1) :: Print.punct .colon :: .space :: Print.type p.2) (by
    intro ps hps
    obtain ⟨p, hp, rfl⟩ := List.mem_map.mp hps
    obtain ⟨a, ha⟩ := neat_type (h _ hp).2
    exact ⟨a, by simp [neat_value (h _ hp).1, ha]⟩)
  by_cases he : b.parameters.isEmpty
  · simp [BlockTree.parameterPieces, he]
  · simp [BlockTree.parameterPieces, he, neat_punct, neat_append ha]

theorem BlockTree.Sound.neat {b : BlockTree} (h : b.Sound) (hp : b.Plain) : NeatLine b.pieces := by
  have hs : NeatLine (b.statements.flatMap StatementTree.pieces) :=
    neatLine_flatMap fun s hs => (h.2.2.1 s hs).neat (hp.1 s hs).1
  simp [NeatLine, BlockTree.pieces, neat_name h.1, neat_append (neat_parameters h.2.1),
    neat_append hs, h.2.2.2.neat hp.2]

theorem MethodTree.Sound.neat {m : MethodTree} (h : m.Sound) (hp : m.Plain) :
    NeatLine m.pieces := by
  have hb : NeatLine (m.blocks.flatMap BlockTree.pieces) :=
    neatLine_flatMap fun b hb => (h.2.2 b hb).neat (hp b hb)
  simp [NeatLine, MethodTree.pieces, neat_name (by decide : isName "method"), neat_name h.1,
    neat_append hb]

end Source

end StackCode
