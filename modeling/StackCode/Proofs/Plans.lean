import StackCode.Proofs.Routes
import StackCode.Schedule.Basic

namespace StackCode

open Machine (Opcode Ref)
open Select (Chained Encoded Routed)

def Graph.instrs (g : Graph) : List Instr :=
  g.blocks.toList.flatMap fun b => b.instructions.filterMap g.instr? ++ b.flow.risky?.toList

theorem mem_instrs_of_listed {g : Graph} {b : Block} {v : Value} {i : Instr}
    (hb : b ∈ g.blocks.toList) (hv : v ∈ b.instructions) (hi : g.instr? v = some i) :
    i ∈ g.instrs :=
  List.mem_flatMap.mpr ⟨b, hb, List.mem_append_left _ (List.mem_filterMap.mpr ⟨v, hv, hi⟩)⟩

theorem mem_instrs_of_protected {g : Graph} {b : Block} {i : Instr}
    (hb : b ∈ g.blocks.toList) (hf : b.flow.risky? = some i) : i ∈ g.instrs :=
  List.mem_flatMap.mpr ⟨b, hb, List.mem_append_right _ (by simp [hf])⟩

theorem mem_blocks_of_order {g : Graph} {entry b : Block} (he : g.block? g.entry = some entry)
    (hb : b ∈ g.order entry) : b ∈ g.blocks.toList := by
  rcases List.mem_cons.mp hb with rfl | hb
  · exact Array.mem_toList_iff.mpr (Array.mem_of_getElem? he)
  · exact List.mem_of_mem_filter hb

structure Graph.Calls (g : Graph) (env : Environment) (calls : Opcode → Method → Prop) : Prop where
  instrs : ∀ i ∈ g.instrs, ∀ e ∈ i.operation.calls env, calls e.1 e.2
  capture : calls .call env.capture

def Listed (ctx : Context) (calls : Opcode → Method → Prop) (s : Selection) (v : Value)
    (e : Value × Chunk) (t : Selection) : Prop :=
  e.1 = v ∧ ∃ i, ctx.graph.instr? v = some i ∧ i.Valid ctx.graph ∧ i ∈ ctx.graph.instrs
    ∧ Lowered ctx.graph calls (i.operation.leaves ctx.env) i.operands s e.2 t
    ∧ (i.operation.isConstant = true → Pushes s e.2.code t
      ∧ i.operation.WritesConstant s e.2.code t)

structure Planned (ctx : Context) (calls : Opcode → Method → Prop) (s : Selection) (b : Block)
    (p : Plan) (t : Selection) : Prop where
  block : p.block = b
  chunks : ∃ m, Chained (Listed ctx calls) s b.instructions p.instrs m
    ∧ Flowed ctx calls b m p.flow t

def Chosen (ctx : Context) (calls : Opcode → Method → Prop) (s : Selection) (v : Value)
    (e : Value × Chunk) (t : Selection) : Prop :=
  e.1 = v ∧ ∃ i, ctx.graph.instr? v = some i ∧ Encoded ctx calls i s e.2 t

structure Sketched (ctx : Context) (calls : Opcode → Method → Prop) (s : Selection) (b : Block)
    (p : Plan) (t : Selection) : Prop where
  block : p.block = b
  chunks : ∃ m, Chained (Chosen ctx calls) s b.instructions p.instrs m ∧ m.Grows t
    ∧ Routed ctx calls b m p.flow t

section Planning

variable {ctx : Context} {calls : Opcode → Method → Prop} {s t : Selection} {b : Block}

theorem wide_of_overflows (hb : b ∈ ctx.graph.blocks.toList) (h : b.flow.Overflows ctx s) :
    ctx.graph.Wide := by
  obtain ⟨v, cases, fallback, type, keys, lo, hi, hf, hk, hw⟩ := h
  have hkeys : b.flow.keys = keys := by
    rw [hf, Flow.keys, hk.constants, List.filterMap_map]
    exact List.filterMap_some
  refine ⟨b, Array.mem_toList_iff.mp hb, lo, ?_, hi, ?_, hw⟩
  · rw [hkeys]
    exact hk.least.1
  · rw [hkeys]
    exact hk.greatest.1

namespace Select

theorem meets_listed (hc : ctx.graph.Calls ctx.env calls) (hb : b ∈ ctx.graph.blocks.toList)
    {v : Value} (hv : v ∈ b.instructions) :
    Meets listedRename (listed ctx b v) s (Chosen ctx calls s v)
      (fun e => ctx.graph.Valid → e.Allowed ctx.graph.Wide) := by
  unfold listed
  split
  · rename_i hnone
    refine meets_throw fun hg => ?_
    obtain ⟨i, hi, -⟩ := hg.instr b hb v hv
    rw [hnone] at hi
    cases hi
  · rename_i i hi
    refine ((meets_instr (hc.instrs i (mem_instrs_of_listed hb hv hi))).weaken
      fun e he _ => .inl he).map (fun _ _ => rfl) ?_
    exact fun c t _ h => ⟨rfl, i, hi, h⟩

theorem meets_plan (hc : ctx.graph.Calls ctx.env calls) (hb : b ∈ ctx.graph.blocks.toList) :
    Meets Plan.rename (plan ctx b) s (Sketched ctx calls s b)
      (fun e => ctx.graph.Valid → e.Allowed ctx.graph.Wide) := by
  unfold plan
  refine (meets_mapM fun v hv t _ => meets_listed hc hb hv).map₂ (q := each Chunk.rename)
    (fun _ _ _ => rfl) fun es m _ hes => ?_
  refine Meets.mono (Meets.weaken (meets_flow ?_ hc.capture) ?_) ?_
  · intro i hi
    exact hc.instrs i (mem_instrs_of_protected hb hi)
  · rintro e (⟨he, -⟩ | ⟨he, hover⟩) -
    · exact .inl he
    · exact .inr ⟨he, wide_of_overflows hb hover⟩
  · exact fun cs t hmt hcs => ⟨rfl, m, hes, hmt, hcs⟩

theorem meets_plans (hc : ctx.graph.Calls ctx.env calls) {entry : Block}
    (he : ctx.graph.block? ctx.graph.entry = some entry) :
    Meets (each Plan.rename) (plans ctx entry) s
      (Chained (Sketched ctx calls) s (ctx.graph.order entry))
      (fun e => ctx.graph.Valid → e.Allowed ctx.graph.Wide) :=
  meets_mapM fun _ hb _ _ => meets_plan hc (mem_blocks_of_order he hb)

end Select

theorem Chosen.listed (hg : ctx.graph.Valid) (hb : b ∈ ctx.graph.blocks.toList) {v : Value}
    (hv : v ∈ b.instructions) {e : Value × Chunk} (h : Chosen ctx calls s v e t) :
    Listed ctx calls s v e t := by
  obtain ⟨hev, i, hi, h⟩ := h
  obtain ⟨j, hj, hval⟩ := hg.instr b hb v hv
  obtain rfl := Option.some.inj (hi.symm.trans hj)
  exact ⟨hev, i, hi, hval, mem_instrs_of_listed hb hv hi, h.lowered hg hval, h.constant⟩

theorem Sketched.planned (hg : ctx.graph.Valid) (hb : b ∈ ctx.graph.blocks.toList)
    (hsize : ctx.graph.blocks.size ≤ s.nextLabel) {p : Plan} (h : Sketched ctx calls s b p t) :
    Planned ctx calls s b p t := by
  obtain ⟨m, hes, -, hcs⟩ := h.chunks
  refine ⟨h.block, m, hes.mono fun v hv s' e t' _ he => he.listed hg hb hv, ?_⟩
  exact hcs.flowed hg (hg.flow b hb) (Nat.le_trans hsize hes.grows.nextLabel)

theorem Flowed.grows {cs : List Chunk} (h : Flowed ctx calls b s cs t) : s.Grows t := by
  cases h with
  | ret => exact .refl _
  | stop => exact .refl _
  | jump => exact .refl _
  | test _ _ hg => exact hg
  | protect _ hr hc hl _ hk _ hh =>
    have h₄ := ((hr.1.trans hc.1).trans hl).trans hk.grows
    exact h₄.trans (capture_cases hh).1

end Planning

namespace Select

variable {α β : Type} {x : Select α} {f : α → Select β} {s : Selection}
  {post mid : α → Selection → Prop} {post' : β → Selection → Prop} {wide : Prop}

/-- Lowering steps end as stated, unless they refuse the graph or crash where they may. -/
def Holds (wide : Prop) (x : Select α) (s : Selection) (post : α → Selection → Prop) : Prop :=
  match x.run.run s with
  | (.ok a, t) => post a t
  | (.error e, _) => e.Allowed wide

theorem Meets.holds {r : (Ref → Ref) → α → α} {fault : CompileError → Prop}
    (hx : Meets r x s post fault) (h : ∀ e, fault e → e.Allowed wide) : Holds wide x s post :=
  (hx.weaken h).ends

theorem Holds.bind (hx : Holds wide x s mid) (hf : ∀ a t, mid a t → Holds wide (f a) t post') :
    Holds wide (x >>= f) s post' := by
  rw [Holds] at hx ⊢
  rw [run_bind]
  cases hr : x.run.run s with
  | mk r t =>
    rw [hr] at hx
    cases r with
    | ok a => exact hf a t hx
    | error e => exact hx

theorem Holds.mono (hx : Holds wide x s mid) (h : ∀ a t, mid a t → post a t) :
    Holds wide x s post := by
  rw [Holds] at hx ⊢
  split
  · rename_i a t hr
    rw [hr] at hx
    exact h a t hx
  · rename_i e t hr
    rw [hr] at hx
    exact hx

theorem Holds.exists_ok (hx : Holds wide x s post) (h : (x.run.run s).1.isOk = true) :
    ∃ a t, x.run.run s = (.ok a, t) ∧ post a t := by
  rw [Holds] at hx
  split at hx
  · rename_i a t hr
    exact ⟨a, t, hr, hx⟩
  · rename_i e t hr
    rw [hr] at h
    cases h

theorem Holds.of_run (hx : Holds wide x s post) {a : α} {t : Selection}
    (h : x.run.run s = (.ok a, t)) : post a t := by
  rw [Holds, h] at hx
  exact hx

theorem holds_plans {ctx : Context} {calls : Opcode → Method → Prop} (hg : ctx.graph.Valid)
    (hc : ctx.graph.Calls ctx.env calls) {entry : Block}
    (he : ctx.graph.block? ctx.graph.entry = some entry)
    (hsize : ctx.graph.blocks.size ≤ s.nextLabel) :
    Holds ctx.graph.Wide (plans ctx entry) s fun ps t =>
      Chained (Planned ctx calls) s (ctx.graph.order entry) ps t
        ∧ (plans ctx entry).run.run s = (.ok ps, t) := by
  refine Meets.holds ((meets_plans hc he).run.mono fun ps t _ h => ⟨?_, h.2⟩) fun e he => he hg
  refine h.1.mono fun b hb s' p t' hs' hp => ?_
  exact hp.planned hg (mem_blocks_of_order he hb) (Nat.le_trans hsize hs'.nextLabel)

theorem schedule_run {g : Graph} {env : Environment} {policy : Policy} {symbols : Symbols}
    {r : Schedule} {t : Selection}
    (h : (schedule ⟨g, env⟩ policy).run.run (.start g symbols) = (.ok r, t)) :
    ∃ entry plans, g.block? g.entry = some entry
      ∧ (Select.plans ⟨g, env⟩ entry).run.run (.start g symbols) = (.ok plans, t)
      ∧ r.items = g.preheader entry
        ++ plans.flatMap ((Placement.ofPlans g policy plans).block g) := by
  rw [schedule] at h
  dsimp only at h
  split at h
  · cases h
  · rename_i entry hentry
    rw [run_bind] at h
    cases ho : (Select.plans ⟨g, env⟩ entry).run.run (.start g symbols) with
    | mk o t' =>
      rw [ho] at h
      cases o with
      | error e => cases h
      | ok plans =>
        replace h : (ofExcept (Schedule.ofPlans g policy entry plans t'.temporaries)).run.run t'
          = (.ok r, t) := h
        rw [Schedule.ofPlans] at h
        split at h
        · cases h
        · cases h
          exact ⟨entry, plans, hentry, ho, rfl⟩

theorem plans_run {g : Graph} {env : Environment} {entry : Block} {ps : List Plan} {t : Selection}
    (he : g.block? g.entry = some entry) (h : (plans ⟨g, env⟩ entry).run.run s = (.ok ps, t)) :
    ps.map Plan.block = g.order entry ∧ ∀ p ∈ ps, p.instrs.map Prod.fst = p.block.instructions
      ∧ Written s t p.chunks := by
  have hc : g.Calls env fun _ _ => True := ⟨fun _ _ _ _ => trivial, trivial⟩
  obtain ⟨-, hchain⟩ := (@meets_plans ⟨g, env⟩ _ s hc entry he).of_run h
  refine ⟨hchain.map_eq fun _ _ _ _ h => h.block, fun p hp => ?_⟩
  obtain ⟨b, -, s', t', hsketch, hs', -, ht'⟩ := hchain.mem hp
  obtain rfl := hsketch.block
  obtain ⟨m, hes, hmt, hcs⟩ := hsketch.chunks
  refine ⟨hes.map_eq fun _ _ _ _ h => h.1, fun c hc => ?_⟩
  rcases List.mem_append.mp hc with hc | hc
  · obtain ⟨e, he, rfl⟩ := List.mem_map.mp hc
    obtain ⟨v, -, s₁, t₁, ⟨-, i, -, hi⟩, hs₁, -, ht₁⟩ := hes.mem he
    exact ((hs'.trans hs₁).wrote hi.wrote).mono ((ht₁.trans hmt).trans ht')
  · exact ((hs'.trans hes.grows).wrote (hcs.written c hc)).mono ht'

end Select

structure Finished (ctx : Context) (calls : Opcode → Method → Prop) (entry : Block)
    (symbols : Symbols) (plans : List Plan) (t : Selection) : Prop where
  start : ctx.graph.block? ctx.graph.entry = some entry
  chain : Chained (Planned ctx calls) (.start ctx.graph symbols) (ctx.graph.order entry) plans t

section Finished

variable {ctx : Context} {calls : Opcode → Method → Prop} {entry : Block} {symbols : Symbols}
  {plans : List Plan} {t : Selection} {p : Plan}

theorem Finished.plan (h : Finished ctx calls entry symbols plans t) (hp : p ∈ plans) :
    p.block ∈ ctx.graph.order entry ∧ ∃ s' t', Planned ctx calls s' p.block p t'
      ∧ (Selection.start ctx.graph symbols).Grows s' ∧ t'.Grows t := by
  obtain ⟨b, hb, s', t', hplan, hs, -, ht⟩ := h.chain.mem hp
  obtain rfl := hplan.block
  exact ⟨hb, s', t', hplan, hs, ht⟩

theorem Finished.blocks (h : Finished ctx calls entry symbols plans t) :
    plans.map Plan.block = ctx.graph.order entry :=
  h.chain.map_eq fun _ _ _ _ h => h.block

theorem Finished.head (h : Finished ctx calls entry symbols plans t) :
    ∃ q qs, plans = q :: qs ∧ q.block = entry := by
  have hb := h.blocks
  cases plans with
  | nil => cases hb
  | cons q qs => exact ⟨q, qs, rfl, (List.cons.inj hb).1⟩

theorem Finished.mem_blocks (h : Finished ctx calls entry symbols plans t) (hp : p ∈ plans) :
    p.block ∈ ctx.graph.blocks.toList :=
  mem_blocks_of_order h.start (h.plan hp).1

theorem Finished.instr (h : Finished ctx calls entry symbols plans t) (hp : p ∈ plans)
    {v : Value} {c : Chunk} (he : (v, c) ∈ p.instrs) :
    v ∈ p.block.instructions ∧ ∃ s' t', Listed ctx calls s' v (v, c) t'
      ∧ (Selection.start ctx.graph symbols).Grows s' ∧ t'.Grows t := by
  obtain ⟨-, s', t', hplan, hs, ht⟩ := h.plan hp
  obtain ⟨m, hi, hf⟩ := hplan.chunks
  obtain ⟨w, hw, s₁, t₁, hl, hs₁, -, ht₁⟩ := hi.mem he
  obtain rfl := hl.1
  exact ⟨hw, s₁, t₁, hl, hs.trans hs₁, (ht₁.trans hf.grows).trans ht⟩

theorem Finished.values (h : Finished ctx calls entry symbols plans t) (hp : p ∈ plans) :
    p.instrs.map Prod.fst = p.block.instructions := by
  obtain ⟨-, s', t', hplan, -, -⟩ := h.plan hp
  obtain ⟨m, hi, -⟩ := hplan.chunks
  exact hi.map_eq fun _ _ _ _ h => h.1

theorem Finished.flow (h : Finished ctx calls entry symbols plans t) (hp : p ∈ plans) :
    ∃ s' t', Flowed ctx calls p.block s' p.flow t'
      ∧ (Selection.start ctx.graph symbols).Grows s' ∧ t'.Grows t := by
  obtain ⟨-, s', t', hplan, hs, ht⟩ := h.plan hp
  obtain ⟨m, hi, hf⟩ := hplan.chunks
  exact ⟨m, t', hf, hs.trans hi.grows, ht⟩

end Finished

end StackCode
