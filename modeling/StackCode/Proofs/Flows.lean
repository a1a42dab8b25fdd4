import StackCode.Chunk.Flow
import StackCode.Proofs.Lowering

namespace StackCode

open Machine (Opcode Ref)

def Flow.risky? : Flow → Option Instr
  | .protect risky _ _ => some risky
  | _ => none

def Flow.keys : Flow → List Int
  | .switch _ cases _ => (cases.flatMap Case.constants).filterMap Constant.int?
  | _ => []

def Flow.Wide (f : Flow) : Prop :=
  ∃ lo ∈ f.keys, ∃ hi ∈ f.keys, IntShape.constantMax ≤ hi - lo

def Graph.Wide (g : Graph) : Prop :=
  ∃ b ∈ g.blocks, b.flow.Wide

def Tabular (cases : List Case) : Prop :=
  cases ≠ [] ∧ ∀ c br, cases ≠ [⟨[c], br⟩]

/-- The branches of a flow in the order of the jumps to their targets. A branch without arguments
has no jump where a test goes straight to its target. -/
def Flow.legs : Flow → List Branch
  | .ret _ | .unreachable => []
  | .jump branch => [branch]
  | .switch _ [] fallback => [fallback]
  | .switch _ [⟨[_], branch⟩] fallback =>
    if branch.args.isEmpty then [fallback]
    else if fallback.args.isEmpty then [branch]
    else [branch, fallback]
  | .switch _ cases fallback =>
    fallback :: (cases.map Case.branch).filter fun branch => !branch.args.isEmpty
  | .protect _ success failure => [success, failure]

abbrev Leg := Label × List Value

def Branch.passes (br : Branch) : Leg := (br.target, br.values)

def Chunk.leg? (c : Chunk) : Option Leg :=
  match c.code with
  | [.jump .br l] => some (l, c.deps)
  | _ => none

structure Arm where
  label : Label
  target : Label
  args : List Value

def Arm.chunks (a : Arm) : List Chunk := [.label a.label, .jump a.target a.args]

def Arm.passes (a : Arm) : Leg := (a.target, a.args)

def Block.Sends (g : Graph) (b : Block) (result caught : Option Value) (target : Label)
    (args : List Value) : Prop :=
  ∃ br ∈ b.flow.branches, ∃ t, g.block? br.target = some t ∧ br.target = target
    ∧ args = Select.boundArgs result caught br ∧ args.length = t.parameters.length

def Block.Reaches (g : Graph) (b : Block) (target : Label) : Prop :=
  ∃ br ∈ b.flow.branches, ∃ t, g.block? br.target = some t ∧ br.target = target
    ∧ t.parameters = []

def Tests (shape : Machine.Instr → Option (Nat × Nat)) (ok : Label → Prop) :
    List Item → Nat → Prop
  | [], d => d = 0
  | .jump o l :: rest, d =>
    o.flow = .conditional ∧ o.effect = .fixed d 0 ∧ ok l ∧ Tests shape ok rest 0
  | .switch ls :: rest, d => d = 1 ∧ (∀ l ∈ ls, ok l) ∧ Tests shape ok rest 0
  | i :: rest, d => ∃ pops pushes, i.exchange? shape = some (pops, pushes) ∧ pops ≤ d
    ∧ Tests shape ok rest (d - pops + pushes)

theorem tests_of_height {shape : Machine.Instr → Option (Nat × Nat)} {ok : Label → Prop}
    {code rest : List Item} {d e : Nat} (h : height shape code d = some e)
    (hr : Tests shape ok rest e) : Tests shape ok (code ++ rest) d := by
  induction code generalizing d with
  | nil =>
    obtain rfl := Option.some.inj h
    exact hr
  | cons i code ih =>
    rw [height] at h
    split at h
    · rename_i pops pushes hi
      split at h
      · rename_i hle
        rw [List.cons_append]
        cases i <;> first | exact ⟨pops, pushes, hi, hle, ih h⟩ | cases hi
      · cases h
    · cases h

structure Arms (g : Graph) (b : Block) (result caught : Option Value) (s : Selection)
    (arms : List Arm) (t : Selection) : Prop where
  sends : ∀ a ∈ arms, b.Sends g result caught a.target a.args
  fresh : ∀ a ∈ arms, s.nextLabel ≤ a.label.id ∧ a.label.id < t.nextLabel
  distinct : (arms.map Arm.label).Nodup

def Block.Open (g : Graph) (b : Block) (arms : List Arm) (l : Label) : Prop :=
  (∃ a ∈ arms, a.label = l) ∨ b.Reaches g l

def Outcome (s : Selection) (v : Option Value) (t : Selection) : Prop :=
  s.Grows t ∧ ∀ w, v = some w → s.Fresh t w

structure Arm.Serves (a : Arm) (mark : BranchArg) (outcome : Option Value)
    (br : Branch) : Prop where
  target : a.target = br.target
  outcome : mark ∈ br.args → outcome.isSome = true
  marks : ∀ x ∈ br.args, x.value?.isSome = true ∨ x = mark

def guardedChunks (chunk : Chunk) (kept : List Item) (type : Ref) (capture : List Item)
    (caught : Option Value) (done failed : Label) : List Chunk :=
  [⟨[.tryStart], []⟩, ⟨chunk.code ++ kept ++ [.jump .leave done], chunk.deps⟩,
    ⟨.handlerStart type :: capture ++ [Select.keep caught, .jump .leave failed, .handlerEnd], []⟩]

inductive Flowed (ctx : Context) (calls : Opcode → Method → Prop) (b : Block) (s : Selection) :
    List Chunk → Selection → Prop where
  | ret {v : Option Value} (hf : b.flow = .ret v) :
      Flowed ctx calls b s [⟨[.plain .ret], v.toList⟩] s
  | stop (hf : b.flow = .unreachable) :
      Flowed ctx calls b s [⟨[.plain .ldnull, .plain .throw], []⟩] s
  | jump {target : Label} {args : List Value} (hs : b.Sends ctx.graph none none target args)
      (hf : b.flow.risky? = none) (hx : b.flow.legs.map Branch.passes = [(target, args)]) :
      Flowed ctx calls b s [.jump target args] s
  | test (arms : List Arm) {v : Value} {cases : List Case} {fallback : Branch} {code : List Item}
      {direct : List Chunk} {t : Selection}
      (hf : b.flow = .switch v cases fallback) (hg : s.Grows t) (hw : Wrote s t code)
      (ht : ∀ shape, Tests shape (b.Open ctx.graph arms) code 1)
      (hd : direct = [] ∧ arms ≠ [] ∨ ∃ target args, direct = [.jump target args]
        ∧ b.Sends ctx.graph none none target args)
      (ha : Arms ctx.graph b none none s arms t)
      (hx : b.flow.legs.map Branch.passes = direct.filterMap Chunk.leg? ++ arms.map Arm.passes) :
      Flowed ctx calls b s (⟨code, [v]⟩ :: (direct ++ arms.flatMap Arm.chunks)) t
  | protect {risky : Instr} {success failure : Branch} {result caught : Option Value}
      {chunk : Chunk} {type : Ref} {capture : List Item} {done failed : Arm}
      {s₁ s₂ s₃ s₄ t : Selection} (hf : b.flow = .protect risky success failure)
      (hr : Outcome s result s₁) (hc : Outcome s₁ caught s₂) (hl : s₂.Grows s₃)
      (ha : Arms ctx.graph b result caught s₂ [done, failed] s₃)
      (hk : Lowered ctx.graph calls (risky.operation.leaves ctx.env) risky.operands s₃ chunk s₄)
      (hv : result.isSome = true → risky.operation.resultType.isVoid = false)
      (hh : caught = none ∧ capture = [] ∧ s₄.Grows t
        ∨ caught.isSome = true ∧ Straight calls s₄ 1 (ctx.env.capture.left .call) capture t)
      (ho : done.args = Select.boundArgs result none success
        ∧ failed.args = Select.boundArgs none caught failure
        ∧ (caught.isSome = true → .exception ∈ failure.args))
      (he : done.Serves .result result success ∧ failed.Serves .exception caught failure)
      (ht : t.symbols.type? type = some ctx.env.caught)
      (hn : risky.operation.leaves ctx.env = none → risky.operation.raises = true) :
      Flowed ctx calls b s
        (guardedChunks chunk
            (if risky.operation.resultType.isVoid then [] else [Select.keep result]) type capture
            caught done.label failed.label
          ++ [done, failed].flatMap Arm.chunks) t

theorem capture_cases {calls : Opcode → Method → Prop} {s t : Selection} {caught : Option Value}
    {capture : List Item} {n : Nat} (h : caught = none ∧ capture = [] ∧ s.Grows t
      ∨ caught.isSome = true ∧ Straight calls s 1 n capture t) :
    s.Grows t ∧ (∀ i ∈ capture, i.IsPlain) ∧ ∀ shape, Shaped calls shape t.symbols →
      (caught.isSome = true → n = 1) → height shape capture 1 = some 1 := by
  rcases h with ⟨-, rfl, hg⟩ | ⟨hsome, hs⟩
  · exact ⟨hg, by simp, fun _ _ _ => rfl⟩
  · exact ⟨hs.grows, hs.plain, fun shape hshape hn => by rw [hs.height shape hshape, hn hsome]⟩

theorem capture_left {env : Environment} (h : env.captured.isVoid = false) :
    env.capture.left .call = 1 := by
  simp [Method.left, Environment.capture, h]

def BranchArg.mark? : BranchArg → Option Mark
  | .value _ => none
  | .result => some .result
  | .exception => some .exception

structure Branch.Keeps (g : Graph) (scope : MarkScope) (br : Branch) : Prop where
  target : ∃ t, g.block? br.target = some t ∧ br.args.length = t.parameters.length
  marks : ∀ a ∈ br.args, ∀ m, a.mark? = some m → scope = some m

instance (g : Graph) (scope : MarkScope) (br : Branch) : Decidable (br.Keeps g scope) :=
  decidable_of_iff ((∃ t ∈ g.block? br.target, br.args.length = t.parameters.length)
      ∧ ∀ a ∈ br.args, ∀ m ∈ a.mark?, scope = some m)
    ⟨fun h => ⟨h.1, h.2⟩, fun h => ⟨h.target, h.marks⟩⟩

section Branches

variable {g : Graph} {b : Block} {s : Selection} {br : Branch} {args : List Value}

theorem boundArgs_none (br : Branch) : Select.boundArgs none none br = br.values := by
  rw [Select.boundArgs, Branch.values]
  congr
  funext a
  cases a <;> rfl

theorem checkArity_eq_ok {u : Unit} : g.checkArity b br = .ok u ↔
    ∃ t, g.block? br.target = some t ∧ br.args.length = t.parameters.length := by
  rw [Graph.checkArity]
  cases g.block? br.target with
  | none => simp
  | some t => by_cases h : br.args.length = t.parameters.length <;> simp [h]

theorem isSome_value?_iff (a : BranchArg) : a.value?.isSome = true ↔
    ∀ m, a.mark? = some m → (none : MarkScope) = some m := by
  cases a <;> simp [BranchArg.value?, BranchArg.mark?]

theorem map_values (h : ∀ a ∈ br.args, a.value?.isSome = true) :
    br.args = br.values.map .value := by
  rw [Branch.values]
  generalize br.args = args at h
  induction args with
  | nil => rfl
  | cons a args ih =>
    rw [List.forall_mem_cons] at h
    cases a with
    | value v => exact congrArg _ (ih h.2)
    | result => cases h.1
    | exception => cases h.1

theorem values_of_args (h : br.args = args.map .value) : br.values = args := by
  rw [Branch.values, h, List.filterMap_map]
  exact List.filterMap_some

theorem plainArgs_eq_ok : g.plainArgs b br = .ok args ↔
    br.Keeps g none ∧ br.args = args.map .value := by
  rw [Graph.plainArgs]
  constructor
  · intro h
    split at h
    · cases h
    · rename_i hu
      split at h
      · rename_i hall
        obtain rfl := Except.ok.inj h
        rw [List.all_eq_true] at hall
        exact ⟨⟨checkArity_eq_ok.mp hu, fun a ha => (isSome_value?_iff a).mp (hall a ha)⟩,
          map_values hall⟩
      · cases h
  · rintro ⟨hk, ha⟩
    have hall : br.args.all (fun a => a.value?.isSome) = true :=
      List.all_eq_true.mpr fun a ha => (isSome_value?_iff a).mpr (hk.marks a ha)
    rw [checkArity_eq_ok (u := ()) |>.mpr hk.target]
    dsimp only
    rw [if_pos hall, values_of_args ha]

theorem Branch.Keeps.args_eq (h : br.Keeps g none) : br.args = br.values.map .value :=
  map_values fun a ha => (isSome_value?_iff a).mpr (h.marks a ha)

theorem checkArity_refuses {e : CompileError} (h : g.checkArity b br = .error e) :
    e.isRefusal = true := by
  rw [Graph.checkArity] at h
  split at h
  · cases h
    rfl
  · split at h
    · cases h
      rfl
    · cases h

theorem plainArgs_refuses {e : CompileError} (h : g.plainArgs b br = .error e) :
    e.isRefusal = true := by
  rw [Graph.plainArgs] at h
  split at h
  · rename_i hc
    cases h
    exact checkArity_refuses hc
  · split at h
    · cases h
    · cases h
      rfl

theorem Branch.Keeps.sends (h : br.Keeps g none) (hb : br ∈ b.flow.branches)
    (ha : br.args = args.map .value) : b.Sends g none none br.target args := by
  obtain ⟨t, ht, hl⟩ := h.target
  refine ⟨br, hb, t, ht, rfl, ?_, ?_⟩
  · rw [boundArgs_none, values_of_args ha]
  · rw [← hl, ha, List.length_map]

theorem Block.Sends.reaches {result caught : Option Value} {target : Label}
    (h : b.Sends g result caught target []) : b.Reaches g target := by
  obtain ⟨br, hb, t, ht, he, -, hl⟩ := h
  exact ⟨br, hb, t, ht, he, List.length_eq_zero_iff.mp hl.symm⟩

theorem Branch.Valid.reaches (h : br.Valid g)
    (hb : br ∈ b.flow.branches) (ha : br.args = []) : b.Reaches g br.target := by
  obtain ⟨t, ht, hl⟩ := h.target
  rw [ha, List.length_nil, eq_comm, List.length_eq_zero_iff] at hl
  exact ⟨br, hb, t, ht, rfl, hl⟩

theorem Arms.append {t u : Selection} {first rest : List Arm}
    (hf : Arms g b none none s first t) (hr : Arms g b none none t rest u)
    (hst : s.nextLabel ≤ t.nextLabel) (htu : t.nextLabel ≤ u.nextLabel) :
    Arms g b none none s (first ++ rest) u := by
  refine ⟨?_, ?_, ?_⟩
  · intro a ha
    rcases List.mem_append.mp ha with ha | ha
    · exact hf.sends a ha
    · exact hr.sends a ha
  · intro a ha
    rcases List.mem_append.mp ha with ha | ha
    · have := hf.fresh a ha
      omega
    · have := hr.fresh a ha
      omega
  · rw [List.map_append, List.nodup_append]
    refine ⟨hf.distinct, hr.distinct, ?_⟩
    intro l hl m hm he
    obtain ⟨a, ha, rfl⟩ := List.mem_map.mp hl
    obtain ⟨c, hc, rfl⟩ := List.mem_map.mp hm
    have := hf.fresh a ha
    have := hr.fresh c hc
    rw [← he] at this
    omega

end Branches

namespace Select

variable {ctx : Context} {b : Block} {s : Selection} {br : Branch}

theorem meets_plainArgs : Meets same (ofExcept (ctx.graph.plainArgs b br)) s
    (fun args t => t = s ∧ br.Keeps ctx.graph none ∧ br.args = args.map .value)
    (fun e => e.isRefusal = true ∧ ¬br.Keeps ctx.graph none) := by
  refine meets_ofExcept (fun _ _ _ => rfl) (fun args h => ⟨rfl, plainArgs_eq_ok.mp h⟩) fun e h => ?_
  refine ⟨plainArgs_refuses h, fun hk => ?_⟩
  rw [plainArgs_eq_ok.mpr ⟨hk, hk.args_eq⟩] at h
  cases h

theorem meets_checkArity : Meets same (ofExcept (ctx.graph.checkArity b br)) s
    (fun _ t => t = s ∧ ∃ target, ctx.graph.block? br.target = some target
      ∧ br.args.length = target.parameters.length) (·.isRefusal = true) :=
  meets_ofExcept (fun _ _ _ => rfl) (fun _ h => ⟨rfl, checkArity_eq_ok.mp h⟩)
    fun _ h => checkArity_refuses h

def Written (s t : Selection) (cs : List Chunk) : Prop :=
  ∀ c ∈ cs, Wrote s t c.code

end Select

end StackCode
