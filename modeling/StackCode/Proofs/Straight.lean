import Mathlib.Data.List.Basic
import StackCode.Chunk.Instr
import StackCode.Proofs.Steps

namespace StackCode

open Machine (Opcode Ref)

def Answers {α : Type} (r : Except CompileError α) (post : α → Prop) : Prop :=
  match r with
  | .ok a => post a
  | .error e => e.isRefusal = true

theorem Answers.bind {α β : Type} {r : Except CompileError α} {f : α → Except CompileError β}
    {mid : α → Prop} {post : β → Prop} (hr : Answers r mid) (hf : ∀ a, mid a → Answers (f a) post) :
    Answers (r >>= f) post := by
  cases r with
  | ok a => exact hf a hr
  | error e => exact hr

section Heights

variable (shape : Machine.Instr → Option (Nat × Nat))

def Item.exchange? : Item → Option (Nat × Nat)
  | .op i =>
    match i.opcode.effect with
    | .fixed pops pushes => if i.opcode.flow = .next then some (pops, pushes) else none
    | .call | .newObject => shape i
    | .ret | .leave => none
  | .load _ | .address _ => some (0, 1)
  | .store _ => some (1, 0)
  | _ => none

def height : List Item → Nat → Option Nat
  | [], d => some d
  | i :: rest, d =>
    match i.exchange? shape with
    | some (pops, pushes) => if pops ≤ d then height rest (d - pops + pushes) else none
    | none => none

variable {shape}

theorem height_append (xs ys : List Item) (d : Nat) :
    height shape (xs ++ ys) d = (height shape xs d).bind (height shape ys) := by
  induction xs generalizing d with
  | nil => rfl
  | cons i xs ih =>
    simp only [List.cons_append, height]
    split
    · split
      · exact ih _
      · rfl
    · rfl

theorem height_frame {code : List Item} {d e : Nat} (h : height shape code d = some e) (n : Nat) :
    height shape code (d + n) = some (e + n) := by
  induction code generalizing d with
  | nil =>
    obtain rfl := Option.some.inj h
    rfl
  | cons i code ih =>
    simp only [height] at h ⊢
    split at h
    · split at h
      · rename_i pops pushes hi hle
        rw [if_pos (by omega)]
        have := ih h
        rwa [show d - pops + pushes + n = d + n - pops + pushes by omega] at this
      · cases h
    · cases h

end Heights

namespace Machine

def Opcode.accessesMemory : Opcode → Bool
  | .ldind _ | .stind _ | .ldobj | .stobj | .initobj | .cpblk | .initblk | .ldfld | .stfld | .ldsfld
  | .stsfld | .ldelem | .stelem => true
  | _ => false

def Opcode.modifies : Opcode → Opcode → Bool
  | .constrained, op => op = .callvirt
  | .volatile, op => op.accessesMemory
  | .unaligned, op => op = .volatile || op.accessesMemory
  | _, _ => false

def Opcode.isLiteral : Opcode → Bool
  | .ldcI4 | .ldcI8 | .ldcR4 | .ldcR8 | .ldnull | .ldstr | .conv _ => true
  | _ => false

def Operand.isCalm : Operand → Bool
  | .local _ | .target _ | .targets _ => false
  | _ => true

def Operand.isImmediate : Operand → Bool
  | .none | .int32 _ | .int64 _ | .float32 _ | .float64 _ | .string _ => true
  | _ => false

def Instr.Clean (i : Instr) : Prop :=
  i.operand.branchTargets = [] ∧ ∀ n, i.operand ≠ .local n

def Instr.isCalm (i : Instr) : Bool :=
  i.operand.isCalm && !i.opcode.modifiesNext

def Instr.isImmediate (i : Instr) : Bool :=
  i.operand.isImmediate && !i.opcode.modifiesNext

def Instr.isLiteral (i : Instr) : Bool :=
  i.operand.isImmediate && i.opcode.isLiteral

section Operands

variable {i : Instr}

theorem Operand.clean_of_isCalm {o : Operand} (h : o.isCalm = true) :
    o.branchTargets = [] ∧ ∀ n, o ≠ .local n := by
  cases o <;> simp_all [isCalm, branchTargets]

theorem Instr.clean_of_isCalm (h : i.isCalm = true) : i.Clean :=
  Operand.clean_of_isCalm (Bool.and_eq_true_iff.mp h).1

theorem Instr.isCalm_of_isImmediate (h : i.isImmediate = true) : i.isCalm = true := by
  obtain ⟨opcode, operand⟩ := i
  cases operand <;> first | exact h | cases h

theorem Instr.rename_of_isImmediate (h : i.isImmediate = true) (f : Ref → Ref) :
    i.rename f = i := by
  obtain ⟨opcode, operand⟩ := i
  cases operand <;> first | rfl | cases h

theorem Instr.isImmediate_of_isLiteral (h : i.isLiteral = true) : i.isImmediate = true := by
  obtain ⟨ho, hl⟩ := Bool.and_eq_true_iff.mp h
  refine Bool.and_eq_true_iff.mpr ⟨ho, ?_⟩
  cases hc : i.opcode <;> rw [hc] at hl <;> first | rfl | cases hl

end Operands

end Machine

namespace Item

def isModifier (i : Item) : Bool := i.opcode?.any Opcode.modifiesNext

def accessesMemory (i : Item) : Bool := i.opcode?.any Opcode.accessesMemory

def IsPlain : Item → Prop
  | .op i => i.Clean
  | _ => False

def isCalmOp : Item → Bool
  | .op i => i.isCalm
  | _ => false

def isCalm : Item → Bool
  | .op i => i.isCalm
  | .jump opcode _ => !opcode.modifiesNext
  | .load _ | .store _ | .address _ | .label _ => false
  | _ => true

def Modifies (i j : Item) : Prop :=
  ∃ m n, i = .op m ∧ j = .op n ∧ m.opcode.modifies n.opcode = true

variable {i : Item}

theorem isPlain_of_isCalmOp (h : i.isCalmOp = true) : i.IsPlain := by
  cases i with
  | op j => exact Machine.Instr.clean_of_isCalm h
  | _ => cases h

theorem isCalm_of_isCalmOp (h : i.isCalmOp = true) : i.isCalm = true := by
  cases i with
  | op j => exact h
  | _ => cases h

theorem not_isModifier_of_isCalm (h : i.isCalm = true) : i.isModifier = false := by
  cases i with
  | op j => simpa [isModifier, opcode?] using (Bool.and_eq_true_iff.mp h).2
  | jump opcode l => simpa [isModifier, opcode?, isCalm] using h
  | _ => rfl

theorem not_isModifier (h : i.accessesMemory = true) : i.isModifier = false := by
  rw [accessesMemory, Option.any_eq_true] at h
  obtain ⟨opcode, ho, ha⟩ := h
  rw [isModifier, ho]
  cases opcode <;> first | rfl | cases ha

end Item

def Glued (code : List Item) : Prop :=
  ∀ n i, code[n]? = some i → i.isModifier = true → ∃ j, code[n + 1]? = some j ∧ i.Modifies j

section Glue

variable {xs ys code : List Item} {i j : Item}

theorem glued_of_forall (h : ∀ i ∈ code, i.isModifier = false) : Glued code := by
  intro n i hi hm
  rw [h i (List.mem_of_getElem? hi)] at hm
  cases hm

theorem glued_calm (h : code.all Item.isCalm = true) : Glued code := by
  rw [List.all_eq_true] at h
  exact glued_of_forall fun i hi => Item.not_isModifier_of_isCalm (h i hi)

theorem Glued.append (hx : Glued xs) (hy : Glued ys) : Glued (xs ++ ys) := by
  intro n i hi hm
  by_cases hn : n < xs.length
  · rw [List.getElem?_append_left hn] at hi
    obtain ⟨j, hj, hij⟩ := hx n i hi hm
    have hlt : n + 1 < xs.length := (List.getElem?_eq_some_iff.mp hj).1
    exact ⟨j, by rw [List.getElem?_append_left hlt, hj], hij⟩
  · rw [List.getElem?_append_right (by omega)] at hi
    obtain ⟨j, hj, hij⟩ := hy _ i hi hm
    refine ⟨j, ?_, hij⟩
    rw [List.getElem?_append_right (by omega), ← hj]
    congr 1
    omega

theorem Glued.cons (hij : i.Modifies j) (h : Glued (j :: code)) : Glued (i :: j :: code) := by
  intro n k hk hm
  cases n with
  | zero =>
    obtain rfl := Option.some.inj hk
    exact ⟨j, rfl, hij⟩
  | succ n => exact h n k hk hm

end Glue

namespace MemoryFlags

def Reduces (f : MemoryFlags) (n : Nat) : Prop :=
  f.alignment = some n ∧ (n = 1 ∨ n = 2 ∨ n = 4)

variable {f : MemoryFlags} {n : Nat}

theorem modifiers_of_reduces (h : f.Reduces n) :
    f.modifiers = .op ⟨.unaligned, .int32 (Int32.ofNat n)⟩
      :: if f.volatile then [.plain .volatile] else [] := by
  rw [modifiers, h.1]
  simp only [if_pos h.2, List.singleton_append]

theorem modifiers_of_not_reduces (h : ¬∃ n, f.Reduces n) :
    f.modifiers = if f.volatile then [.plain .volatile] else [] := by
  rw [modifiers]
  cases ha : f.alignment with
  | none => simp
  | some n =>
    have hn : ¬(n = 1 ∨ n = 2 ∨ n = 4) := fun hn => h ⟨n, ha, hn⟩
    simp [hn]

theorem modifiers_cases (f : MemoryFlags) : ∃ n,
    f.modifiers = [] ∨ f.modifiers = [.plain .volatile]
      ∨ f.modifiers = [.op ⟨.unaligned, .int32 n⟩]
      ∨ f.modifiers = [.op ⟨.unaligned, .int32 n⟩, .plain .volatile] := by
  by_cases h : ∃ n, f.Reduces n
  · obtain ⟨n, hn⟩ := h
    rw [modifiers_of_reduces hn]
    refine ⟨Int32.ofNat n, ?_⟩
    cases f.volatile <;> simp
  · rw [modifiers_of_not_reduces h]
    refine ⟨0, ?_⟩
    cases f.volatile <;> simp

theorem modifiers_plain (f : MemoryFlags) : ∀ i ∈ f.modifiers, i.IsPlain := by
  have hmod : ∀ n : Int32, (⟨.unaligned, .int32 n⟩ : Machine.Instr).Clean := fun _ => ⟨rfl, nofun⟩
  have hvol : (⟨.volatile, .none⟩ : Machine.Instr).Clean := ⟨rfl, nofun⟩
  obtain ⟨n, h | h | h | h⟩ := f.modifiers_cases <;> rw [h] <;> simp [Item.IsPlain, hmod, hvol]

theorem height_modifiers (shape : Machine.Instr → Option (Nat × Nat)) (f : MemoryFlags) (d : Nat) :
    height shape f.modifiers d = some d := by
  obtain ⟨n, h | h | h | h⟩ := f.modifiers_cases <;> rw [h] <;> rfl

theorem modifiers_rename (f : MemoryFlags) (g : Ref → Ref) :
    f.modifiers.map (Item.rename g) = f.modifiers := by
  obtain ⟨n, h | h | h | h⟩ := f.modifiers_cases <;> rw [h] <;> rfl

theorem glued_modifiers (f : MemoryFlags) {m : Machine.Instr}
    (ha : m.opcode.accessesMemory = true) : Glued (f.modifiers ++ [.op m]) := by
  have hlast : Glued [.op m] := by
    apply glued_of_forall
    rw [List.forall_mem_singleton]
    exact Item.not_isModifier ha
  have hvolatile : Glued [.plain .volatile, .op m] := hlast.cons ⟨_, _, rfl, rfl, ha⟩
  obtain ⟨n, h | h | h | h⟩ := f.modifiers_cases <;> rw [h]
  · exact hlast
  · exact hvolatile
  · exact hlast.cons ⟨_, _, rfl, rfl, by simp [Opcode.modifies, ha]⟩
  · exact hvolatile.cons ⟨_, _, rfl, rfl, rfl⟩

end MemoryFlags

structure Computes (n : Nat) (code : List Machine.Instr) : Prop where
  height : ∀ shape, height shape (code.map .op) n = some 1
  immediate : code.all Machine.Instr.isImmediate = true

structure Loads (code : List Machine.Instr) : Prop where
  height : ∀ shape, height shape (code.map .op) 0 = some 1
  literal : code.all Machine.Instr.isLiteral = true

section Arithmetic

variable {n : Nat} {xs ys code : List Machine.Instr}

theorem Loads.computes (h : Loads code) : Computes 0 code := by
  refine ⟨h.height, ?_⟩
  rw [List.all_eq_true]
  exact fun i hi => Machine.Instr.isImmediate_of_isLiteral (List.all_eq_true.mp h.literal i hi)

theorem Computes.append (hx : Computes n xs) (hy : Computes 1 ys) : Computes n (xs ++ ys) := by
  constructor
  · intro shape
    rw [List.map_append, height_append, hx.height, Option.bind_some, hy.height]
  · rw [List.all_append, hx.immediate, hy.immediate]
    rfl

theorem Computes.calm (h : Computes n code) : (code.map Item.op).all Item.isCalmOp = true := by
  rw [List.all_map, List.all_eq_true]
  exact fun i hi => Machine.Instr.isCalm_of_isImmediate (List.all_eq_true.mp h.immediate i hi)

theorem map_op_rename (f : Ref → Ref) (code : List Machine.Instr) :
    (code.map Item.op).map (Item.rename f) = (code.map (Machine.Instr.rename f)).map Item.op := by
  rw [List.map_map, List.map_map]
  rfl

theorem Computes.rename (h : Computes n code) (f : Ref → Ref) :
    code.map (Machine.Instr.rename f) = code := by
  refine (List.map_congr_left fun i hi => ?_).trans (List.map_id code)
  exact Machine.Instr.rename_of_isImmediate (List.all_eq_true.mp h.immediate i hi) f

theorem computes_nil : Computes 1 [] := ⟨fun _ => rfl, rfl⟩

theorem computes_conv (k : Machine.NumKind) : Computes 1 [plain (.conv k)] := ⟨fun _ => rfl, rfl⟩

theorem computes_convOvf (k : Machine.NumKind) : Computes 1 [plain (.convOvf k)] :=
  ⟨fun _ => rfl, rfl⟩

theorem computes_convOvfUn (k : Machine.NumKind) : Computes 1 [plain (.convOvfUn k)] :=
  ⟨fun _ => rfl, rfl⟩

theorem computes_binary (op : Machine.BinaryOp) : Computes 2 [binary op] := ⟨fun _ => rfl, rfl⟩

theorem computes_ldcI4_binary (v : Int) (op : Machine.BinaryOp) :
    Computes 1 [ldcI4 v, binary op] := ⟨fun _ => rfl, rfl⟩

theorem computes_maskToBool (source : Numeric) : Computes 1 (maskToBool source) := by
  rw [maskToBool]
  split
  · exact (computes_conv .u4).append (computes_ldcI4_binary 1 .and)
  · exact computes_ldcI4_binary 1 .and

theorem computes_toBool (source : Numeric) (checked : Bool) :
    Computes 1 (toBool source checked) := by
  unfold toBool
  split
  · exact computes_nil
  · split
    · rw [checkedToBool]
      cases source.isSigned <;> exact ⟨fun _ => rfl, rfl⟩
    · split
      · exact ⟨fun _ => rfl, rfl⟩
      · exact ⟨fun _ => rfl, rfl⟩
      · exact computes_maskToBool source

theorem computes_toFloat (source target : Numeric) (k : Machine.NumKind) :
    Computes 1 (toFloat source target k) := by
  rw [toFloat]
  split
  · exact computes_nil
  · split
    · exact computes_conv k
    · exact ⟨fun _ => rfl, rfl⟩

theorem computes_extend (source target : Numeric) (r s : IntShape) (k : Machine.NumKind) :
    Computes 1 (extend source target r s k) := by
  unfold extend
  split
  · split
    · exact computes_nil
    · exact computes_conv _
  · split
    · dsimp only
      split
      · split
        · exact computes_nil
        · exact computes_conv _
      · exact computes_conv _
    · split
      · exact computes_conv k
      · split
        · exact computes_nil
        · exact computes_conv k
  · exact computes_nil

theorem answers_kind (n : Numeric) : Answers n.kind fun _ => True := by
  unfold Numeric.kind
  split <;> first | exact trivial | rfl

theorem answers_toInteger (source target : Numeric) (checked : Bool) :
    Answers (toInteger source target checked) (Computes 1) := by
  have hk := answers_kind target
  rw [toInteger]
  split
  · rename_i e he
    rw [he] at hk
    exact hk
  · rename_i k _
    split
    · split
      · cases source.isSigned
        · exact computes_convOvfUn k
        · exact computes_convOvf k
      · exact computes_extend _ _ _ _ _
    · cases checked
      · exact computes_conv k
      · exact computes_convOvf k

theorem answers_convertNumeric (source target : Numeric) (checked : Bool) :
    Answers (convertNumeric source target checked) (Computes 1) := by
  unfold convertNumeric
  split
  · exact computes_toFloat _ _ _
  · exact computes_toFloat _ _ _
  · exact computes_toBool _ _
  · exact answers_toInteger _ _ _

theorem answers_of (t : Ty) (use : NumericUse) : Answers (Numeric.of t use) fun _ => True := by
  rw [Numeric.of]
  split
  · exact trivial
  · rfl

theorem answers_conversion (source target : Ty) (checked : Bool) :
    Answers (conversion source target checked) (Computes 1) :=
  (answers_of source .conversion).bind fun _ _ =>
    (answers_of target .conversion).bind fun _ _ => answers_convertNumeric _ _ _

theorem answers_complement (n : Numeric) : Answers (complement n) (Computes 1) := by
  unfold complement
  split
  · split
    · exact computes_ldcI4_binary _ _
    · split
      · exact ⟨fun _ => rfl, rfl⟩
      · exact computes_ldcI4_binary _ _
  · exact ⟨fun _ => rfl, rfl⟩
  · rfl
  · rfl

theorem computes_negation (n : Numeric) (checked : Bool) : Computes 1 (negation n checked) := by
  unfold negation
  split
  · split
    · exact ⟨fun _ => rfl, rfl⟩
    · cases n.isWide <;> exact ⟨fun _ => rfl, rfl⟩
  · exact ⟨fun _ => rfl, rfl⟩

theorem answers_operatorCode (op : ArithOp) (checked : Bool) (n : Numeric) :
    Answers (operatorCode op checked n) (Computes (if op.isUnary then 1 else 2)) := by
  have hnegated : ∀ a b, Computes 2 (negatedOp n a b) := fun a b =>
    (computes_binary _).append (computes_ldcI4_binary _ _)
  cases op with
  | not => exact answers_complement n
  | neg => exact computes_negation n checked
  | convert => exact computes_nil
  | ne => exact (computes_binary .ceq).append (computes_ldcI4_binary _ _)
  | le => exact hnegated _ _
  | ge => exact hnegated _ _
  | _ => exact computes_binary _

theorem answers_narrow (n : Numeric) (checked : Bool) : Answers (narrow n checked)
    (Computes 1) := by
  unfold narrow
  split
  · split
    · exact computes_maskToBool _
    · split
      · refine (answers_kind _).bind ?_
        intro k _
        cases checked
        · exact computes_conv k
        · exact computes_convOvf k
      · exact computes_nil
  · exact computes_nil

theorem answers_arithCode (op : ArithOp) (checked : Bool) (operand result : Ty) :
    Answers (arithCode op checked operand result) (Computes (if op.isUnary then 1 else 2)) := by
  rw [arithCode]
  split
  · rename_i hop
    rw [hop]
    exact answers_conversion _ _ _
  · split
    · exact answers_operatorCode _ _ _
    · refine (answers_of operand .arithmetic).bind ?_
      intro n _
      refine (answers_operatorCode op checked n).bind ?_
      intro code hcode
      split
      · exact (answers_narrow _ checked).bind fun _ hr => hcode.append hr
      · exact hcode

theorem answers_memKind (t : Ty) : Answers t.memKind fun _ => True := by
  unfold Ty.memKind
  split
  · split
    · exact trivial
    · rfl
  all_goals first | exact trivial | rfl

theorem answers_pushInt (v : Int) (t : Ty) : Answers (pushInt v t) Loads := by
  have hword : ∀ signed u, Answers (pushWord signed v u) Loads := by
    intro signed u
    rw [pushWord]
    split
    · exact ⟨fun _ => rfl, rfl⟩
    · split
      · exact ⟨fun _ => rfl, rfl⟩
      · rfl
  unfold pushInt
  split
  · split
    · rfl
    · split
      · exact ⟨fun _ => rfl, rfl⟩
      · exact ⟨fun _ => rfl, rfl⟩
  · exact hword _ _
  · exact hword _ _
  · exact ⟨fun _ => rfl, rfl⟩
  · exact ⟨fun _ => rfl, rfl⟩
  · rfl

end Arithmetic

end StackCode
