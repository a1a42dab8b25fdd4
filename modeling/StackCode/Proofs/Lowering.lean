import StackCode.Proofs.Built
import StackCode.Proofs.Straight

namespace StackCode

open Machine (Opcode Ref)

structure Wrote (s t : Selection) (code : List Item) : Prop where
  registers : ∀ i ∈ code, ∀ v, i.register? = some v → s.Fresh t v
  clean : ∀ i, .op i ∈ code → i.Clean
  labels : ∀ l, .label l ∈ code → s.nextLabel ≤ l.id
  glued : Glued code

section Writing

variable {s t u : Selection} {xs ys code : List Item} {v : Value}

theorem Wrote.mono (h : Wrote s t xs) (h' : t.Grows u) : Wrote s u xs :=
  ⟨fun i hi v hv => (h.registers i hi v hv).mono h', h.clean, h.labels, h.glued⟩

theorem Selection.Grows.wrote (h : s.Grows t) (h' : Wrote t u xs) : Wrote s u xs :=
  ⟨fun i hi v hv => h.fresh (h'.registers i hi v hv), h'.clean,
    fun l hl => Nat.le_trans h.nextLabel (h'.labels l hl), h'.glued⟩

theorem Wrote.append (hx : Wrote s t xs) (hy : Wrote s t ys) : Wrote s t (xs ++ ys) := by
  refine ⟨List.forall_mem_append.mpr ⟨hx.registers, hy.registers⟩, ?_, ?_, hx.glued.append hy.glued⟩
  · intro i hi
    rcases List.mem_append.mp hi with hi | hi
    · exact hx.clean i hi
    · exact hy.clean i hi
  · intro l hl
    rcases List.mem_append.mp hl with hl | hl
    · exact hx.labels l hl
    · exact hy.labels l hl

theorem wrote_plain (h : ∀ i ∈ code, i.IsPlain) (hg : Glued code) : Wrote s t code := by
  refine ⟨?_, fun i hi => h _ hi, fun l hl => (h _ hl).elim, hg⟩
  intro i hi v hv
  have := h i hi
  cases i with
  | op j => cases hv
  | _ => exact this.elim

theorem wrote_calm (h : code.all Item.isCalm = true) : Wrote s t code := by
  have hc := List.all_eq_true.mp h
  refine ⟨?_, fun i hi => Machine.Instr.clean_of_isCalm (hc _ hi), ?_, glued_calm h⟩
  · intro i hi v hv
    have := hc i hi
    cases i with
    | load | store | address | label => cases this
    | _ => cases hv
  · exact fun l hl => absurd (hc _ hl) Bool.false_ne_true

theorem wrote_register {i : Item} (hi : i.register? = some v) (hv : s.Fresh t v) :
    Wrote s t [i] := by
  refine ⟨?_, ?_, ?_, glued_of_forall (List.forall_mem_singleton.mpr ?_)⟩
  · rw [List.forall_mem_singleton]
    intro w hw
    obtain rfl := Option.some.inj (hi.symm.trans hw)
    exact hv
  · intro j hj
    obtain rfl := List.mem_singleton.mp hj
    cases hi
  · intro l hl
    obtain rfl := List.mem_singleton.mp hl
    cases hi
  · cases i <;> first | rfl | cases hi

theorem wrote_label {l : Label} (hl : s.nextLabel ≤ l.id) : Wrote s t [.label l] := by
  refine ⟨by simp [Item.register?], by simp, ?_,
    glued_of_forall (List.forall_mem_singleton.mpr rfl)⟩
  intro k hk
  obtain rfl := Item.label.inj (List.mem_singleton.mp hk)
  exact hl

end Writing

def Method.taken (m : Method) : Opcode → Nat
  | .newobj => m.parameters.length
  | _ => m.arity

def Method.left (m : Method) : Opcode → Nat
  | .newobj => 1
  | _ => (!m.returns.isVoid).toNat

def Shaped (calls : Opcode → Method → Prop) (shape : Machine.Instr → Option (Nat × Nat))
    (symbols : Symbols) : Prop :=
  ∀ o ∈ ([.call, .callvirt, .newobj] : List Opcode), ∀ r m, symbols.method? r = some m → calls o m →
    shape ⟨o, .method r (Select.callShape o m).1 (Select.callShape o m).2⟩
      = some (m.taken o, m.left o)

def Operation.calls (env : Environment) : Operation → List (Opcode × Method)
  | .call m .static => [(.call, m)]
  | .call m _ => [(.callvirt, m)]
  | .new m => [(.newobj, m)]
  | .newDelegate t _ _ _ => [(.newobj, env.delegateConstructor t)]
  | .intrinsic name _ _ =>
    match Intrinsic.ofName name with
    | .ok (.exception .capture) => [(.call, env.capture)]
    | .ok (.exception .capturedSource) => [(.callvirt, env.capturedSource)]
    | _ => []
  | _ => []

def Intrinsic.leaves (env : Environment) : Intrinsic → Option Bool
  | .exception .throw | .exception .rethrow => none
  | .exception .capture => some !env.captured.isVoid
  | .exception .capturedSource => some !env.caught.isVoid
  | .memory _ | .array .store => some false
  | _ => some true

/-- Whether an operation leaves a value. There is no answer if it never comes to its end, or if it
has no lowering. -/
def Operation.leaves (env : Environment) : Operation → Option Bool
  | .store _ _ | .storeField _ => some false
  | .call m _ => some !m.returns.isVoid
  | .intrinsic name _ _ =>
    match Intrinsic.ofName name with
    | .ok i => i.leaves env
    | .error _ => none
  | _ => some true

def Operation.raises : Operation → Bool
  | .intrinsic name _ _ =>
    match Intrinsic.ofName name with
    | .ok (.exception .throw) | .ok (.exception .rethrow) => true
    | _ => false
  | _ => false

inductive Chunk.Leaves (calls : Opcode → Method → Prop) (symbols : Symbols) (c : Chunk) :
    Option Bool → Prop where
  | entries {b : Bool} (h : ∀ shape, Shaped calls shape symbols →
      height shape c.code c.deps.length = some b.toNat) : Chunk.Leaves calls symbols c (some b)
  | never {o : Opcode} (hc : c.code = [.plain o, .plain .dup]) (hf : o.flow = .throw)
      (he : o.effect = .fixed c.deps.length 0) : Chunk.Leaves calls symbols c none

def Graph.Feeds (g : Graph) (operands : List Value) (v : Value) : Prop :=
  v ∈ operands ∨ ∃ p ∈ operands, ∃ f base, g.instr? p = some ⟨.fieldAddress f, base⟩ ∧ v ∈ base

structure Lowered (g : Graph) (calls : Opcode → Method → Prop) (leaves : Option Bool)
    (operands : List Value) (s : Selection) (c : Chunk) (t : Selection) : Prop where
  grows : s.Grows t
  wrote : Wrote s t c.code
  noStore : ∀ v, Item.store v ∉ c.code
  leaves : c.Leaves calls t.symbols leaves
  feeds : ∀ v ∈ c.deps, g.Feeds operands v

structure Graph.Provides (g : Graph) (operands : List Value) : Prop where
  valid : g.Valid
  defined : ∀ v ∈ operands, v ∈ g.defined

/-- Code is written for any graph, but it takes what the graph provides. -/
structure Drafted (g : Graph) (calls : Opcode → Method → Prop) (leaves : Option Bool)
    (operands : List Value) (s : Selection) (c : Chunk) (t : Selection) : Prop where
  wrote : Wrote s t c.code
  lowered : g.Provides operands → Lowered g calls leaves operands s c t

structure Straight (calls : Opcode → Method → Prop) (s : Selection) (n k : Nat) (code : List Item)
    (t : Selection) : Prop where
  grows : s.Grows t
  plain : ∀ i ∈ code, i.IsPlain
  glued : Glued code
  height : ∀ shape, Shaped calls shape t.symbols → height shape code n = some k

structure Pushes (s : Selection) (code : List Item) (t : Selection) : Prop where
  grows : s.Grows t
  wrote : Wrote s t code
  noStore : ∀ v, Item.store v ∉ code
  height : ∀ shape, height shape code 0 = some 1
  literal : (∀ i ∈ code, i.register? = none) →
    ∀ i ∈ code, ∃ j, i = .op j ∧ j.opcode.isLiteral = true

def Operation.WritesConstant (op : Operation) (s : Selection) (code : List Item) (t : Selection) :
    Prop :=
  ∃ c type, op = .const c type ∧ (Select.pushConstant c type).run.run s = (.ok code, t)

structure Item.Exchanges (n k : Nat) (i : Item) : Prop where
  calm : i.isCalmOp = true
  height : ∀ shape, height shape [i] n = some k

def Modified (flags : MemoryFlags) (code : List Item) : Prop :=
  ∃ i, i.accessesMemory = true ∧ code = flags.modifiers ++ [i]

def Unmodified (code : List Item) : Prop :=
  ∃ before i, (∀ j ∈ before, j.isModifier = false ∧ j.accessesMemory = false)
    ∧ i.accessesMemory = true ∧ code = before ++ [i]

section Chunks

variable {g : Graph} {calls : Opcode → Method → Prop} {s t u : Selection} {operands : List Value}
  {leaves : Option Bool} {c : Chunk} {code : List Item} {n k l : Nat}

theorem Graph.Valid.instr_of_defined (hg : g.Valid) {v : Value} {i : Instr}
    (hv : v ∈ g.defined) (hi : g.instr? v = some i) : i.Valid g := by
  obtain ⟨⟨w, name⟩, hw, rfl⟩ := List.mem_map.mp hv
  obtain ⟨b, hb, hd⟩ := List.mem_flatMap.mp hw
  obtain ⟨w', hw', he⟩ := List.mem_map.mp hd
  obtain ⟨rfl, -⟩ := Prod.mk.inj he
  obtain ⟨n, hn, rfl⟩ := List.mem_iff_getElem.mp hb
  have hc := hg.coherent n _ (by rw [← Array.getElem?_toList, List.getElem?_eq_getElem hn])
  rcases List.mem_append.mp hw' with hp | hl
  · obtain ⟨q, hq, rfl⟩ := List.mem_map.mp hp
    obtain ⟨name, k, hk⟩ := hc.parameters q hq
    rw [instr?, info?, hk] at hi
    cases hi
  · obtain ⟨j, hj, hval⟩ := hg.instr _ hb _ hl
    rw [hi] at hj
    obtain rfl := Option.some.inj hj
    exact hval

theorem Graph.feeds_operands (g : Graph) (operands : List Value) :
    ∀ v ∈ operands, g.Feeds operands v := fun _ h => .inl h

theorem Graph.Provides.base {pointer : Value} {rest : List Value} {f : Field} {base : List Value}
    (h : g.Provides (pointer :: rest)) (hp : g.place pointer = .field f base) :
    base.length = 1 ∧ ∀ v ∈ base, g.Feeds (pointer :: rest) v := by
  have hd := h.defined pointer List.mem_cons_self
  rw [place] at hp
  split at hp
  · rename_i f' base' hi
    obtain ⟨rfl, rfl⟩ := Place.field.inj hp
    refine ⟨(h.valid.instr_of_defined hd hi).arity, fun v hv => ?_⟩
    exact .inr ⟨pointer, List.mem_cons_self, f', base', hi, hv⟩
  · cases hp
  · cases hp

theorem noStore_of_plain (h : ∀ i ∈ code, i.IsPlain) (v : Value) : Item.store v ∉ code :=
  fun hv => h _ hv

theorem plain_of_calm (h : code.all Item.isCalmOp = true) : ∀ i ∈ code, i.IsPlain :=
  fun i hi => Item.isPlain_of_isCalmOp (List.all_eq_true.mp h i hi)

theorem glued_of_calm (h : code.all Item.isCalmOp = true) : Glued code := by
  refine glued_calm (List.all_eq_true.mpr fun i hi => ?_)
  exact Item.isCalm_of_isCalmOp (List.all_eq_true.mp h i hi)

theorem Lowered.drafted (h : Lowered g calls leaves operands s c t) :
    Drafted g calls leaves operands s c t :=
  ⟨h.wrote, fun _ => h⟩

theorem Lowered.plain (hg : s.Grows t) (hc : ∀ i ∈ c.code, i.IsPlain) (hglue : Glued c.code)
    (hl : c.Leaves calls t.symbols leaves) (hf : ∀ v ∈ c.deps, g.Feeds operands v) :
    Lowered g calls leaves operands s c t :=
  ⟨hg, wrote_plain hc hglue, noStore_of_plain hc, hl, hf⟩

theorem Lowered.calm (hg : s.Grows t) (hc : c.code.all Item.isCalmOp = true)
    (hl : c.Leaves calls t.symbols leaves) (hf : ∀ v ∈ c.deps, g.Feeds operands v) :
    Lowered g calls leaves operands s c t :=
  .plain hg (plain_of_calm hc) (glued_of_calm hc) hl hf

theorem Straight.calm (hg : s.Grows t) (hc : code.all Item.isCalmOp = true)
    (hh : ∀ shape, Shaped calls shape t.symbols → StackCode.height shape code n = some k) :
    Straight calls s n k code t :=
  ⟨hg, plain_of_calm hc, glued_of_calm hc, hh⟩

theorem Shaped.mono {shape : Machine.Instr → Option (Nat × Nat)} (h : Shaped calls shape t.symbols)
    (hg : s.Grows t) : Shaped calls shape s.symbols :=
  fun o ho r m hr hc => h o ho r m (hg.methods hr) hc

theorem Straight.append {xs ys : List Item} (hx : Straight calls s n k xs t)
    (hy : Straight calls t k l ys u) : Straight calls s n l (xs ++ ys) u := by
  refine ⟨hx.grows.trans hy.grows, List.forall_mem_append.mpr ⟨hx.plain, hy.plain⟩,
    hx.glued.append hy.glued, ?_⟩
  intro shape hs
  rw [height_append, hx.height shape (hs.mono hy.grows), Option.bind_some, hy.height shape hs]

theorem Straight.lowered {b : Bool} (h : Straight calls s n b.toNat code t)
    (hn : operands.length = n) : Lowered g calls (some b) operands s ⟨code, operands⟩ t :=
  .plain h.grows h.plain h.glued (.entries (by rw [hn]; exact h.height)) (g.feeds_operands operands)

theorem Computes.straight {is : List Machine.Instr} (h : Computes n is) :
    Straight calls s n 1 (is.map .op) s :=
  .calm (.refl s) h.calm fun shape _ => h.height shape

theorem Loads.pushes {is : List Machine.Instr} (h : Loads is) : Pushes s (is.map .op) s := by
  have hp := plain_of_calm h.computes.calm
  refine ⟨.refl s, wrote_plain hp (glued_of_calm h.computes.calm), noStore_of_plain hp, h.height,
    ?_⟩
  intro _ i hi
  obtain ⟨j, hj, rfl⟩ := List.mem_map.mp hi
  exact ⟨j, rfl, (Bool.and_eq_true_iff.mp (List.all_eq_true.mp h.literal j hj)).2⟩

theorem height_call {o : Opcode} {m : Method} {r : Ref} {symbols : Symbols}
    {shape : Machine.Instr → Option (Nat × Nat)}
    (ho : o ∈ ([.call, .callvirt, .newobj] : List Opcode)) (hr : symbols.method? r = some m)
    (hc : calls o m) (hs : Shaped calls shape symbols) :
    height shape [.op ⟨o, .method r (Select.callShape o m).1 (Select.callShape o m).2⟩] (m.taken o)
      = some (m.left o) := by
  have he := hs o ho r m hr hc
  have hx : Item.exchange? shape
      (.op ⟨o, .method r (Select.callShape o m).1 (Select.callShape o m).2⟩)
        = some (m.taken o, m.left o) := by
    simp only [List.mem_cons, List.not_mem_nil, or_false] at ho
    rcases ho with rfl | rfl | rfl <;> exact he
  rw [height, hx]
  simp [height]

theorem Intrinsic.leaves_eq_none {env : Environment} {i : Intrinsic} (h : i.leaves env = none) :
    i = .exception .throw ∨ i = .exception .rethrow := by
  cases i with
  | exception op => cases op <;> simp_all [Intrinsic.leaves]
  | array op => cases op <;> cases h
  | _ => cases h

end Chunks

namespace Select

variable {ctx : Context} {calls : Opcode → Method → Prop} {s : Selection}
  {operands deps : List Value} {n : Nat} {b : Bool} {x : Select Item} {fault : CompileError → Prop}

theorem meets_answer {α : Type} {r : (Ref → Ref) → α → α} {o : Except CompileError α}
    {post : α → Prop} (h : Answers o post) (hr : ∀ a, post a → ∀ f, r f a = a) :
    Meets r (ofExcept o) s (fun a t => t = s ∧ post a) (·.isRefusal = true) := by
  cases o with
  | ok a => exact meets_pure ⟨rfl, h⟩ (hr a h)
  | error e => exact meets_throw h

theorem Meets.item {f : Ref → Item} {post : Item → Prop}
    (hx : Meets Item.rename x s (fun i _ => ∃ r, i = f r) fault) (h : ∀ r, post (f r)) :
    Meets Item.rename x s (fun i _ => post i) fault := by
  refine hx.mono ?_
  rintro _ t - ⟨r, rfl⟩
  exact h r

theorem Meets.single (hx : Meets Item.rename x s (fun i _ => i.Exchanges n b.toNat) fault)
    (hn : deps.length = n) (hd : ∀ v ∈ deps, ctx.graph.Feeds operands v) :
    Meets Chunk.rename (do return ⟨[← x], deps⟩) s (Drafted ctx.graph calls (some b) operands s)
      fault := by
  refine hx.map (fun _ _ => rfl) fun i t hst hi => Lowered.drafted ?_
  subst hn
  exact .calm hst (by simp [hi.calm]) (.entries fun shape _ => hi.height shape) hd

theorem Meets.modified {flags : MemoryFlags}
    (hx : Meets Item.rename x s (fun i _ => i.Exchanges n b.toNat ∧ i.accessesMemory = true) fault)
    (hd : ctx.graph.Provides operands →
      deps.length = n ∧ ∀ v ∈ deps, ctx.graph.Feeds operands v) :
    Meets Chunk.rename (do return ⟨flags.modifiers ++ [← x], deps⟩) s
      (fun c t => Drafted ctx.graph calls (some b) operands s c t ∧ Modified flags c.code)
        fault := by
  refine hx.map (fun f i => ?_) ?_
  · rw [Chunk.rename, List.map_append, flags.modifiers_rename]
    rfl
  · rintro i t hst ⟨hi, ha⟩
    have hplain : ∀ j ∈ flags.modifiers ++ [i], j.IsPlain :=
      List.forall_mem_append.mpr ⟨flags.modifiers_plain,
        List.forall_mem_singleton.mpr (Item.isPlain_of_isCalmOp hi.calm)⟩
    have hglued : Glued (flags.modifiers ++ [i]) := by
      cases i with
      | op m => exact flags.glued_modifiers ha
      | _ => cases hi.calm
    refine ⟨⟨wrote_plain hplain hglued, fun hp => ?_⟩, i, ha, rfl⟩
    obtain ⟨rfl, hfeeds⟩ := hd hp
    refine .plain hst hplain hglued (.entries fun shape _ => ?_) hfeeds
    rw [height_append, flags.height_modifiers, Option.bind_some, hi.height]

theorem Meets.cleared {type : Ty} (hx : Meets Item.rename x s
      (fun i _ => i.Exchanges n 1 ∧ i.accessesMemory = false) fault)
    (hd : ctx.graph.Provides operands →
      deps.length = n ∧ ∀ v ∈ deps, ctx.graph.Feeds operands v) :
    Meets Chunk.rename (do return ⟨[← x, ← typeOp .initobj type], deps⟩) s
      (fun c t => Drafted ctx.graph calls (some false) operands s c t ∧ Unmodified c.code)
        fault := by
  refine hx.map₂ (fun _ _ _ => rfl) ?_
  rintro i t hst ⟨hi, ha⟩
  refine (meets_typeOp .initobj type).mono ?_
  rintro j u htu ⟨r, rfl⟩
  have hcalm : [i, .op ⟨.initobj, .type r⟩].all Item.isCalmOp = true := by
    rw [List.all_cons, hi.calm]
    rfl
  refine ⟨⟨wrote_plain (plain_of_calm hcalm) (glued_of_calm hcalm), fun hp => ?_⟩, [i], _, ?_, rfl,
    rfl⟩
  · obtain ⟨rfl, hfeeds⟩ := hd hp
    refine .calm (hst.trans htu) hcalm (.entries fun shape _ => ?_) hfeeds
    change height shape ([i] ++ [.op ⟨.initobj, .type r⟩]) _ = _
    rw [height_append, hi.height]
    rfl
  · rw [List.forall_mem_singleton]
    exact ⟨Item.not_isModifier_of_isCalm (Item.isCalm_of_isCalmOp hi.calm), ha⟩

theorem meets_pushInt (v : Int) (type : Ty) :
    Meets same (pushConstant (.int v) type) s
      (fun code t => t = s ∧ ∃ is, pushInt v type = .ok is ∧ Loads is ∧ code = is.map .op)
      (fun e => e.isRefusal = true ∧ pushInt v type = .error e) := by
  have ha := answers_pushInt v type
  have hx : Meets same (ofExcept (pushInt v type)) s
      (fun is t => t = s ∧ pushInt v type = .ok is ∧ Loads is)
      (fun e => e.isRefusal = true ∧ pushInt v type = .error e) := by
    refine meets_ofExcept (fun _ _ _ => rfl) (fun is h => ⟨rfl, h, ?_⟩) fun e h => ⟨?_, h⟩
    · rw [h] at ha
      exact ha
    · rw [h] at ha
      exact ha
  refine hx.map (fun _ _ => rfl) ?_
  rintro is t - ⟨rfl, h, hl⟩
  exact ⟨rfl, is, h, hl, rfl⟩

theorem pushes_pushInt (v : Int) (type : Ty) :
    Meets (each Item.rename) (pushConstant (.int v) type) s (Pushes s) (·.isRefusal = true) := by
  refine (((meets_pushInt v type).weaken fun e he => he.1).fixed ?_).mono ?_
  · rintro code t ⟨-, is, -, hl, rfl⟩ f
    rw [each, map_op_rename, hl.computes.rename]
  · rintro code t - ⟨rfl, is, -, hl, rfl⟩
    exact hl.pushes

theorem meets_literal (is : List Machine.Instr) (h : Loads is) :
    Meets (each Item.rename) (pure (is.map Item.op)) s (Pushes s) fault := by
  refine meets_pure h.pushes fun f => ?_
  rw [each, map_op_rename, h.computes.rename]

theorem meets_pushDefault (type : Ty) :
    Meets (each Item.rename) (pushDefault type) s (Pushes s) (·.isRefusal = true) := by
  unfold pushDefault
  split
  · exact meets_literal [ldcI4 0, toWord _] ⟨fun _ => rfl, rfl⟩
  · exact meets_literal [ldcI4 0, toWord _] ⟨fun _ => rfl, rfl⟩
  · exact meets_literal [ldcI4 0, toWord _] ⟨fun _ => rfl, rfl⟩
  · exact pushes_pushInt 0 _
  · exact meets_literal [ldcR4 .zero] ⟨fun _ => rfl, rfl⟩
  · exact meets_literal [ldcR8 .zero] ⟨fun _ => rfl, rfl⟩
  · refine (meets_temporary _).bind ?_
    rintro v t hst ⟨-, hv⟩
    refine (meets_typeOp _ _).map (fun _ _ => rfl) ?_
    rintro i u htu ⟨r, rfl⟩
    have hv' := hv.mono htu
    have haddress : Wrote s u [.address v] := wrote_register rfl hv'
    have hclear : Wrote s u [.op ⟨.initobj, .type r⟩] := wrote_calm rfl
    have hload : Wrote s u [.load v] := wrote_register rfl hv'
    exact ⟨hst.trans htu, (haddress.append hclear).append hload, by simp, fun _ => rfl,
      by simp [Item.register?]⟩
  · exact meets_literal [plain .ldnull] ⟨fun _ => rfl, rfl⟩
  · exact meets_literal [plain .ldnull] ⟨fun _ => rfl, rfl⟩
  · exact meets_literal [plain .ldnull] ⟨fun _ => rfl, rfl⟩
  · exact meets_throw rfl

theorem meets_pushConstant (c : Constant) (type : Ty) :
    Meets (each Item.rename) (pushConstant c type) s (Pushes s) (·.isRefusal = true) := by
  unfold pushConstant
  split
  · exact pushes_pushInt _ _
  · split
    · exact meets_literal [ldcR8 _] ⟨fun _ => rfl, rfl⟩
    · exact meets_literal [ldcR4 _] ⟨fun _ => rfl, rfl⟩
  · split
    · exact meets_literal [ldcR4 _] ⟨fun _ => rfl, rfl⟩
    · exact meets_literal [ldcR8 _] ⟨fun _ => rfl, rfl⟩
  · exact meets_literal [plain .ldnull] ⟨fun _ => rfl, rfl⟩
  · exact meets_literal [⟨.ldstr, .string _⟩] ⟨fun _ => rfl, rfl⟩
  · exact meets_pushDefault type

theorem meets_access {post : Item → Prop} (type : Ty) {whole : Opcode}
    {single : Machine.MemKind → Opcode} (hw : ∀ r, post (.op ⟨whole, .type r⟩))
    (hs : ∀ k, post (.plain (single k))) :
    Meets Item.rename (access type whole single) s (fun i _ => post i) (·.isRefusal = true) := by
  unfold access
  split
  · exact (meets_typeOp _ _).item hw
  · refine Meets.bind (meets_answer (answers_memKind type) fun _ _ _ => rfl) ?_
    intro k t _ _
    exact meets_pure (hs k) fun _ => rfl

theorem meets_load (type : Ty) (flags : MemoryFlags) (pointer : Value) :
    Meets Chunk.rename (load ctx type flags pointer) s
      (fun c t => Drafted ctx.graph calls (some true) [pointer] s c t ∧ Modified flags c.code)
      (·.isRefusal = true) := by
  unfold load
  split
  · rename_i f base hplace
    exact ((meets_fieldOp _ _).item fun _ => ⟨⟨rfl, fun _ => rfl⟩, rfl⟩).modified
      fun hp => hp.base hplace
  · exact ((meets_fieldOp _ _).item fun _ => ⟨⟨rfl, fun _ => rfl⟩, rfl⟩).modified
      fun _ => ⟨rfl, by simp⟩
  · exact (meets_access _ (fun _ => ⟨⟨rfl, fun _ => rfl⟩, rfl⟩)
      fun _ => ⟨⟨rfl, fun _ => rfl⟩, rfl⟩).modified fun _ => ⟨rfl, Graph.feeds_operands _ _⟩

theorem meets_clear (type : Ty) (pointer : Value) (rest : List Value) :
    Meets Chunk.rename (clear ctx type pointer) s (fun c t =>
      Drafted ctx.graph calls (some false) (pointer :: rest) s c t ∧ Unmodified c.code) fault := by
  unfold clear
  split
  · rename_i f base hplace
    exact ((meets_fieldOp _ _).item fun _ => ⟨⟨rfl, fun _ => rfl⟩, rfl⟩).cleared
      fun hp => hp.base hplace
  · exact ((meets_fieldOp _ _).item fun _ => ⟨⟨rfl, fun _ => rfl⟩, rfl⟩).cleared
      fun _ => ⟨rfl, by simp⟩
  · refine (meets_typeOp _ _).map (fun _ _ => rfl) ?_
    rintro _ t hst ⟨r, rfl⟩
    refine ⟨Lowered.drafted ?_, [], _, by simp, rfl, rfl⟩
    exact .calm hst rfl (.entries fun _ _ => rfl) (by simp [Graph.Feeds])

theorem meets_store (type : Ty) (flags : MemoryFlags) (pointer value : Value) :
    Meets Chunk.rename (store ctx type flags pointer value) s (fun c t =>
      Drafted ctx.graph calls (some false) [pointer, value] s c t
        ∧ if ctx.graph.isDefaultValue value then Unmodified c.code else Modified flags c.code)
      (·.isRefusal = true) := by
  unfold store
  split
  · exact meets_clear type pointer [value]
  · split
    · rename_i f base hplace
      refine Meets.modified (n := 2)
        ((meets_fieldOp _ _).item fun _ => ⟨⟨rfl, fun _ => rfl⟩, rfl⟩) fun hp => ?_
      obtain ⟨hlength, hfeeds⟩ := hp.base hplace
      refine ⟨by rw [List.length_append, hlength]; rfl, List.forall_mem_append.mpr ⟨hfeeds, ?_⟩⟩
      exact fun v hv => .inl (List.mem_cons_of_mem _ hv)
    · exact ((meets_fieldOp _ _).item fun _ => ⟨⟨rfl, fun _ => rfl⟩, rfl⟩).modified
        fun _ => ⟨rfl, fun v hv => .inl (List.mem_cons_of_mem _ hv)⟩
    · exact (meets_access _ (fun _ => ⟨⟨rfl, fun _ => rfl⟩, rfl⟩)
        fun _ => ⟨⟨rfl, fun _ => rfl⟩, rfl⟩).modified fun _ => ⟨rfl, Graph.feeds_operands _ _⟩

theorem meets_storeField {f : Field} {base : List Value} (value : Value)
    (hb : base.length = if f.isStatic then 0 else 1) :
    Meets Chunk.rename (storeField ctx f base value) s
      (Drafted ctx.graph calls (some false) (base ++ [value]) s) fault := by
  have hbase : ∀ v ∈ base, ctx.graph.Feeds (base ++ [value]) v :=
    fun v hv => .inl (List.mem_append_left _ hv)
  unfold storeField
  cases hf : f.isStatic with
  | false =>
    rw [hf, if_neg Bool.false_ne_true] at hb
    split
    · exact (((meets_fieldOp _ _).item fun _ => ⟨⟨rfl, fun _ => rfl⟩, rfl⟩).cleared
        fun _ => ⟨hb, hbase⟩).mono fun _ _ _ h => h.1
    · exact ((meets_fieldOp _ _).item fun _ => ⟨rfl, fun _ => rfl⟩).single
        (by rw [List.length_append, hb]) (Graph.feeds_operands _ _)
  | true =>
    rw [hf, if_pos rfl] at hb
    split
    · exact (((meets_fieldOp _ _).item fun _ => ⟨⟨rfl, fun _ => rfl⟩, rfl⟩).cleared
        fun _ => ⟨hb, hbase⟩).mono fun _ _ _ h => h.1
    · exact ((meets_fieldOp _ _).item fun _ => ⟨rfl, fun _ => rfl⟩).single
        (by rw [List.length_append, hb]) (Graph.feeds_operands _ _)

theorem meets_methodCall {o : Opcode} {m : Method}
    (ho : o ∈ ([.call, .callvirt, .newobj] : List Opcode)) (hc : calls o m) :
    Meets Item.rename (methodOp o m) s (fun i => Straight calls s (m.taken o) (m.left o) [i])
      fault := by
  refine (meets_methodOp _ _).mono ?_
  rintro i t hst ⟨r, hr, rfl⟩
  refine .calm hst ?_ fun shape hs => height_call ho hr hc hs
  simp only [List.mem_cons, List.not_mem_nil, or_false] at ho
  rcases ho with rfl | rfl | rfl <;> rfl

theorem meets_call {env : Environment} {m : Method} {lookup : Lookup}
    (hc : ∀ e ∈ Operation.calls env (.call m lookup), calls e.1 e.2) :
    Meets (each Item.rename) (call m lookup) s (Straight calls s m.arity (!m.returns.isVoid).toNat)
      fault := by
  unfold call
  split
  · exact (meets_methodCall (by simp) (hc _ List.mem_cons_self)).map (fun _ _ => rfl)
      fun _ _ _ h => h
  · exact (meets_methodCall (by simp) (hc _ List.mem_cons_self)).map (fun _ _ => rfl)
      fun _ _ _ h => h
  · refine (meets_typeOp _ _).map₂ (fun _ _ _ => rfl) ?_
    rintro i t hst ⟨r, rfl⟩
    refine (meets_methodOp .callvirt m).mono ?_
    rintro j u htu ⟨q, hq, rfl⟩
    refine ⟨hst.trans htu, ?_, Glued.cons ⟨_, _, rfl, rfl, rfl⟩ (glued_calm rfl), ?_⟩
    · simp only [List.forall_mem_cons]
      exact ⟨⟨rfl, nofun⟩, ⟨rfl, nofun⟩, by simp⟩
    · exact fun shape hs => height_call (by simp) hq (hc _ List.mem_cons_self) hs

theorem meets_newDelegate {type : Ty} {m : Method} {hasReceiver : Bool} {lookup : Lookup}
    (hc : calls .newobj (ctx.env.delegateConstructor type)) :
    Meets (each Item.rename) (newDelegate ctx type m hasReceiver lookup) s
      (Straight calls s (if hasReceiver then 1 else 0) 1) fault := by
  -- All forms push a function and call the constructor.
  have hform (before : List Item) (o : Opcode) {n : Nat}
      (hr : ∀ f, before.map (Item.rename f) = before)
      (hb : ∀ r a b, (before ++ [Item.op ⟨o, .method r a b⟩]).all Item.isCalmOp = true)
      (hh : ∀ r a b shape, height shape (before ++ [.op ⟨o, .method r a b⟩]) n = some 2) :
      Meets (each Item.rename) (do
        let function ← methodOp o m
        return before ++ [function] ++ [← methodOp .newobj (ctx.env.delegateConstructor type)]) s
        (Straight calls s n 1) fault := by
    refine (meets_methodOp o m).map₂ (q := Item.rename) (fun f i j => ?_) ?_
    · rw [each, List.map_append, List.map_append, hr]
      rfl
    · rintro i t hst ⟨r, -, rfl⟩
      refine (meets_methodCall (by simp) hc).mono fun j u _ hj => ?_
      exact (Straight.calm hst (hb _ _ _) fun shape _ => hh _ _ _ shape).append hj
  unfold newDelegate
  simp only [pure_bind]
  cases hasReceiver with
  | false =>
    exact hform [.plain .ldnull] .ldftn (fun _ => rfl) (fun _ _ _ => rfl) fun _ _ _ _ => rfl
  | true =>
    rw [if_neg (by simp)]
    split
    · exact hform [.plain .dup] .ldvirtftn (fun _ => rfl) (fun _ _ _ => rfl) fun _ _ _ _ => rfl
    · exact hform [] .ldftn (fun _ => rfl) (fun _ _ _ => rfl) fun _ _ _ _ => rfl

theorem meets_element (type : Ty) :
    Meets same (element type) s (fun _ t => t = s) (·.isRefusal = true) := by
  unfold element
  split
  · exact meets_pure rfl fun _ => rfl
  · exact meets_throw rfl

theorem meets_array {op : ArrayOp} {type operand : Ty}
    (ha : operands.length = (Intrinsic.array op).arity) :
    Meets Chunk.rename (array ctx op type operand operands) s
      (Drafted ctx.graph calls ((Intrinsic.array op).leaves ctx.env) operands s)
      (·.isRefusal = true) := by
  -- All but the store are one instruction on all operands.
  have hone (o : Opcode) (e : Ty) {b : Bool} {n : Nat} (hn : operands.length = n)
      (h : ∀ r, (Item.op ⟨o, .type r⟩).Exchanges n b.toNat) :
      Meets Chunk.rename (do return ⟨[← typeOp o (← element e)], operands⟩) s
        (Drafted ctx.graph calls (some b) operands s) (·.isRefusal = true) := by
    refine (meets_element e).bind ?_
    rintro t' t - rfl
    exact ((meets_typeOp _ _).item h).single hn (Graph.feeds_operands _ _)
  cases op with
  | new => exact hone _ _ ha fun _ => ⟨rfl, fun _ => rfl⟩
  | load => exact hone _ _ ha fun _ => ⟨rfl, fun _ => rfl⟩
  | address => exact hone _ _ ha fun _ => ⟨rfl, fun _ => rfl⟩
  | length =>
    refine Meets.bind (meets_answer (answers_conversion _ _ _) fun _ _ _ => rfl) ?_
    rintro code t - ⟨rfl, hcode⟩
    refine meets_pure (Lowered.drafted ?_) fun f => ?_
    · have hlen : Straight calls t 1 1 [.plain .ldlen] t := .calm (.refl t) rfl fun _ _ => rfl
      exact Straight.lowered (b := true) (hlen.append hcode.straight) ha
    · rw [Chunk.rename, List.map_cons, map_op_rename, hcode.rename]
      rfl
  | store =>
    obtain ⟨base, index, value, rfl⟩ := List.length_eq_three.mp ha
    refine (meets_element operand).bind ?_
    rintro t' t - rfl
    dsimp only
    split
    · refine Meets.mono (Meets.cleared (n := 2)
        ((meets_typeOp _ _).item fun _ => ⟨⟨rfl, fun _ => rfl⟩, rfl⟩) fun _ => ⟨rfl, ?_⟩)
        fun _ _ _ h => h.1
      simp [Graph.Feeds]
    · exact ((meets_typeOp _ _).item fun _ => ⟨rfl, fun _ => rfl⟩).single rfl
        (Graph.feeds_operands _ _)

theorem meets_fixed (code : List Item) (hn : operands.length = n)
    (hcalm : code.all Item.isCalmOp = true) (hr : ∀ f, code.map (Item.rename f) = code)
    (hh : ∀ shape, height shape code n = some b.toNat) :
    Meets Chunk.rename (pure ⟨code, operands⟩) s (Drafted ctx.graph calls (some b) operands s)
      fault := by
  refine meets_pure (Lowered.drafted ?_) fun f => ?_
  · exact Straight.lowered (.calm (.refl s) hcalm fun shape _ => hh shape) hn
  · rw [Chunk.rename, hr]

theorem meets_methodChunk {o : Opcode} {m : Method}
    (ho : o ∈ ([.call, .callvirt, .newobj] : List Opcode)) (hc : calls o m)
    (hn : operands.length = m.taken o) (hb : m.left o = b.toNat) :
    Meets Chunk.rename (do return ⟨[← methodOp o m], operands⟩) s
      (Drafted ctx.graph calls (some b) operands s) fault := by
  refine (meets_methodCall ho hc).map (fun _ _ => rfl) fun i t _ h => Lowered.drafted ?_
  rw [hb] at h
  exact h.lowered hn

theorem meets_intrinsic {name : String} {type : Ty} {parameters : List Ty}
    (hc : ∀ e ∈ Operation.calls ctx.env (.intrinsic name type parameters), calls e.1 e.2) :
    Meets Chunk.rename (intrinsic ctx name type parameters operands) s (fun c t =>
      Drafted ctx.graph calls (Operation.leaves ctx.env (.intrinsic name type parameters)) operands
        s c t
      ∧ ∃ i, Intrinsic.ofName name = .ok i) (·.isRefusal = true) := by
  unfold intrinsic
  split
  · exact meets_throw rfl
  · rename_i i hi
    split
    · exact meets_throw rfl
    · rename_i ha
      have hlen : operands.length = i.arity := by
        by_contra h
        exact ha (.inl h)
      simp only [Operation.calls, Operation.leaves, hi] at hc ⊢
      suffices h : Meets Chunk.rename _ s (Drafted ctx.graph calls (i.leaves ctx.env) operands s)
          (·.isRefusal = true) from h.mono fun _ _ _ h => ⟨h, i, rfl⟩
      split
      · refine Meets.bind (meets_answer (answers_arithCode _ _ _ _) fun _ _ _ => rfl) ?_
        rintro code t - ⟨rfl, hcode⟩
        refine meets_pure (Lowered.drafted ?_) fun f => ?_
        · exact Straight.lowered (b := true) hcode.straight hlen
        · rw [Chunk.rename, map_op_rename, hcode.rename]
      · refine meets_pure (Lowered.drafted ?_) fun _ => rfl
        exact .calm (.refl _) rfl (.never rfl rfl (by rw [hlen]; rfl)) (Graph.feeds_operands _ _)
      · refine meets_pure (Lowered.drafted ?_) fun _ => rfl
        exact .calm (.refl _) rfl (.never rfl rfl rfl) (by simp)
      · exact meets_methodChunk (by simp) (hc _ List.mem_cons_self) hlen rfl
      · exact meets_methodChunk (by simp) (hc _ List.mem_cons_self) hlen rfl
      · exact meets_fixed _ hlen rfl (fun _ => rfl) fun _ => rfl
      · exact meets_fixed _ hlen rfl (fun _ => rfl) fun _ => rfl
      · exact meets_fixed _ hlen rfl (fun _ => rfl) fun _ => rfl
      · exact meets_fixed _ hlen rfl (fun _ => rfl) fun _ => rfl
      · exact meets_array hlen

theorem meets_allocaArray {type : Ty} {count : Value} :
    Meets Chunk.rename (operation ctx (.allocaArray type) [count]) s
      (Drafted ctx.graph calls (some true) [count] s) (·.isRefusal = true) := by
  refine Meets.bind (meets_valueType fun _ => rfl) ?_
  rintro counted t - ⟨rfl, -⟩
  have hwhole (widen : List Item) (hr : ∀ f, widen.map (Item.rename f) = widen)
      (hw : widen.all Item.isCalmOp = true) (hh : ∀ shape, height shape widen 1 = some 1) :
      Meets Chunk.rename (do
          return ⟨widen ++ [← typeOp .sizeof type, .plain (.binary .mul), .plain .localloc],
            [count]⟩)
        t (Drafted ctx.graph calls (some true) [count] t) (·.isRefusal = true) := by
    refine (meets_typeOp _ _).map (fun f i => ?_) ?_
    · rw [Chunk.rename, List.map_append, hr]
      rfl
    · rintro i u hsu ⟨r, rfl⟩
      refine (Straight.lowered (n := 1) (b := true) (.calm hsu ?_ fun shape _ => ?_) rfl).drafted
      · rw [List.all_append, hw]
        rfl
      · rw [height_append, hh]
        rfl
  cases counted.isWord with
  | false => exact hwhole [.plain (.conv .u)] (fun _ => rfl) rfl fun _ => rfl
  | true => exact hwhole [] (fun _ => rfl) rfl fun _ => rfl

theorem meets_storeFieldOp {f : Field} (ha : operands.length = (Operation.storeField f).arity) :
    Meets Chunk.rename (operation ctx (.storeField f) operands) s
      (Drafted ctx.graph calls (some false) operands s) fault := by
  have hbase : ∀ base value, operands = base ++ [value] →
      base.length = if f.isStatic then 0 else 1 := by
    rintro base value rfl
    simp only [List.length_append, List.length_singleton, Operation.arity] at ha
    split at ha <;> simp_all
  match operands, ha, hbase with
  | [value], _, hbase => exact meets_storeField value (hbase [] value rfl)
  | [base, value], _, hbase => exact meets_storeField value (hbase [base] value rfl)
  | [], ha, _ =>
    simp only [Operation.arity, List.length_nil] at ha
    split at ha <;> cases ha
  | _ :: _ :: _ :: _, ha, _ =>
    simp only [Operation.arity, List.length_cons] at ha
    split at ha <;> omega

theorem meets_sizeOf {measured type : Ty} :
    Meets Chunk.rename (operation ctx (.sizeOf measured type) operands) s
      (Drafted ctx.graph calls (some true) operands s) (·.isRefusal = true) := by
  refine (meets_typeOp _ _).map₂ (q := each Machine.Instr.rename) ?_ ?_
  · intro f i code
    rw [Chunk.rename, List.map_cons, map_op_rename]
  · rintro i u hsu ⟨r, rfl⟩
    refine Meets.mono (meets_answer (answers_conversion _ _ _) fun _ h f => h.rename f) ?_
    rintro code t - ⟨rfl, hcode⟩
    have hsize : Straight calls s 0 1 [.op ⟨.sizeof, .type r⟩] t := .calm hsu rfl fun _ _ => rfl
    have hwhole := hsize.append hcode.straight
    exact (Lowered.plain hwhole.grows hwhole.plain hwhole.glued (.entries hwhole.height)
      (by simp)).drafted

theorem meets_operation {op : Operation} (ha : operands.length = op.arity)
    (hc : ∀ e ∈ op.calls ctx.env, calls e.1 e.2) :
    Meets Chunk.rename (operation ctx op operands) s (fun c t =>
      Drafted ctx.graph calls (op.leaves ctx.env) operands s c t
        ∧ (op.leaves ctx.env = none → op.raises = true)
        ∧ (op.isConstant = true → Pushes s c.code t ∧ op.WritesConstant s c.code t))
      (·.isRefusal = true) := by
  -- Most operations leave something and are no constants.
  have hmost {x : Select Chunk} (hl : ∃ b, op.leaves ctx.env = some b) (hn : op.isConstant = false)
      (h : Meets Chunk.rename x s (Drafted ctx.graph calls (op.leaves ctx.env) operands s)
        (·.isRefusal = true)) :
      Meets Chunk.rename x s (fun c t => Drafted ctx.graph calls (op.leaves ctx.env) operands s c t
        ∧ (op.leaves ctx.env = none → op.raises = true)
        ∧ (op.isConstant = true → Pushes s c.code t ∧ op.WritesConstant s c.code t))
        (·.isRefusal = true) := by
    obtain ⟨b, hb⟩ := hl
    refine h.mono fun c t _ h => ⟨h, fun h' => ?_, fun h' => ?_⟩
    · rw [hb] at h'
      cases h'
    · rw [hn] at h'
      cases h'
  have hone (o : Opcode) (e : Ty) (h : ∀ r, (Item.op ⟨o, .type r⟩).Exchanges op.arity 1) :
      Meets Chunk.rename (do return ⟨[← typeOp o e], operands⟩) s
        (Drafted ctx.graph calls (some true) operands s) (·.isRefusal = true) :=
    ((meets_typeOp _ _).item h).single (b := true) ha (Graph.feeds_operands _ _)
  cases op with
  | const c type =>
    obtain rfl := List.length_eq_zero_iff.mp ha
    refine (meets_pushConstant c type).run.map (fun _ _ => rfl) ?_
    rintro code t - ⟨h, hrun⟩
    refine ⟨Lowered.drafted ?_, nofun, fun _ => ⟨h, c, type, rfl, hrun⟩⟩
    exact ⟨h.grows, h.wrote, h.noStore, .entries fun shape _ => h.height shape, by simp⟩
  | copy t | reinterpret t =>
    exact hmost ⟨true, rfl⟩ rfl (meets_fixed _ ha rfl (fun _ => rfl) fun _ => rfl)
  | dynamicCast t | box t | unbox t =>
    exact hmost ⟨true, rfl⟩ rfl (hone _ _ fun _ => ⟨rfl, fun _ => rfl⟩)
  | fieldAddress f =>
    exact hmost ⟨true, rfl⟩ rfl (((meets_fieldOp _ _).item fun _ => ⟨rfl, fun _ => rfl⟩).single ha
      (Graph.feeds_operands _ _))
  | staticFieldAddress f =>
    exact hmost ⟨true, rfl⟩ rfl (((meets_fieldOp _ _).item fun _ => ⟨rfl, fun _ => rfl⟩).single rfl
      (by simp))
  | alloca t =>
    refine hmost ⟨true, rfl⟩ rfl ((meets_typeOp _ _).map (fun _ _ => rfl) ?_)
    rintro i u hsu ⟨r, rfl⟩
    exact (Lowered.calm hsu rfl (.entries fun _ _ => rfl) (by simp)).drafted
  | allocaArray t =>
    obtain ⟨count, rfl⟩ := List.length_eq_one_iff.mp ha
    exact hmost ⟨true, rfl⟩ rfl meets_allocaArray
  | load t flags =>
    obtain ⟨pointer, rfl⟩ := List.length_eq_one_iff.mp ha
    exact hmost ⟨true, rfl⟩ rfl ((meets_load t flags pointer).mono fun _ _ _ h => h.1)
  | store t flags =>
    obtain ⟨pointer, value, rfl⟩ := List.length_eq_two.mp ha
    exact hmost ⟨false, rfl⟩ rfl ((meets_store t flags pointer value).mono fun _ _ _ h => h.1)
  | storeField f => exact hmost ⟨false, rfl⟩ rfl (meets_storeFieldOp ha)
  | call m lookup =>
    refine hmost ⟨_, rfl⟩ rfl ((meets_call hc).map (fun _ _ => rfl) fun code t _ h => ?_)
    exact (h.lowered ha).drafted
  | new m =>
    exact hmost ⟨true, rfl⟩ rfl (meets_methodChunk (by simp) (hc _ List.mem_cons_self) ha rfl)
  | newDelegate t m hasReceiver lookup =>
    refine hmost ⟨true, rfl⟩ rfl ?_
    refine (meets_newDelegate (hc _ List.mem_cons_self)).map (fun _ _ => rfl) ?_
    exact fun i t _ h => (Straight.lowered (b := true) h ha).drafted
  | sizeOf measured t => exact hmost ⟨true, rfl⟩ rfl meets_sizeOf
  | intrinsic name type parameters =>
    refine (meets_intrinsic hc).mono ?_
    rintro c t - ⟨h, i, hi⟩
    refine ⟨h, fun hn => ?_, nofun⟩
    simp only [Operation.leaves, Operation.raises, hi] at hn ⊢
    rcases Intrinsic.leaves_eq_none hn with rfl | rfl <;> rfl

structure Encoded (ctx : Context) (calls : Opcode → Method → Prop) (i : Instr) (s : Selection)
    (c : Chunk) (t : Selection) : Prop where
  wrote : Wrote s t c.code
  lowered : ctx.graph.Valid → i.Valid ctx.graph →
    Lowered ctx.graph calls (i.operation.leaves ctx.env) i.operands s c t
  raises : i.operation.leaves ctx.env = none → i.operation.raises = true
  constant : i.operation.isConstant = true →
    Pushes s c.code t ∧ i.operation.WritesConstant s c.code t

theorem meets_instr {i : Instr} (hc : ∀ e ∈ i.operation.calls ctx.env, calls e.1 e.2) :
    Meets Chunk.rename (instr ctx i) s (Encoded ctx calls i s) (·.isRefusal = true) := by
  unfold instr
  split
  · exact meets_throw rfl
  · rename_i ha
    refine (meets_operation (not_not.mp ha) hc).mono ?_
    rintro c t - ⟨h, hraises, hconstant⟩
    exact ⟨h.wrote, fun hg hi => h.lowered ⟨hg, hi.defined⟩, hraises, hconstant⟩

end Select

end StackCode
