import StackCode.Proofs.Delivery

namespace StackCode

open Machine (Opcode)

section Legs

variable {ctx : Context} {calls : Opcode → Method → Prop} {b : Block} {s t : Selection}
  {cs : List Chunk} {q : Plan}

theorem withLegs_eq {legs : List Leg} (h : legs = cs.filterMap Chunk.leg?) :
    withLegs legs cs = Execution.owned cs := by
  induction cs generalizing legs with
  | nil => rfl
  | cons c cs ih =>
    rw [withLegs, Execution.owned, List.map_cons, ← Execution.owned]
    cases hc : c.leg? with
    | none =>
      rw [List.filterMap_cons_none hc] at h
      rw [ih h]
      rfl
    | some leg =>
      rw [List.filterMap_cons_some hc] at h
      rw [h, List.tail_cons, ih rfl]
      rfl

theorem leg?_of_tests {shape : Machine.Instr → Option (Nat × Nat)} {ok : Label → Prop}
    {code : List Item} {d : Nat} (h : Tests shape ok code d) (deps : List Value) :
    Chunk.leg? ⟨code, deps⟩ = none := by
  unfold Chunk.leg?
  split
  · rename_i l hc
    obtain rfl : code = [.jump .br l] := hc
    cases h.1
  · rfl

theorem leg?_of_leave {code : List Item} {l : Label} (deps : List Value) :
    Chunk.leg? ⟨code ++ [.jump .leave l], deps⟩ = none := by
  unfold Chunk.leg?
  split
  · rename_i l hc
    have := congrArg List.getLast? hc
    simp at this
  · rfl

theorem legs_arms (arms : List Arm) :
    (arms.flatMap Arm.chunks).filterMap Chunk.leg? = arms.map Arm.passes := by
  induction arms with
  | nil => rfl
  | cons a arms ih =>
    rw [List.flatMap_cons, List.filterMap_append, ih]
    rfl

theorem stored?_append {code : List Item} (h : ∀ v, .store v ∉ code) (rest : List Item)
    (deps : List Value) : Chunk.stored? ⟨code ++ rest, deps⟩ = Chunk.stored? ⟨rest, deps⟩ := by
  have hnone : Chunk.stored? ⟨code, deps⟩ = none := by
    refine List.findSome?_eq_none_iff.mpr fun i hi => ?_
    split
    · exact absurd hi (h _)
    · rfl
  rw [Chunk.stored?] at hnone
  rw [Chunk.stored?, List.findSome?_append, hnone]
  rfl

theorem Flowed.legs (h : Flowed ctx calls q.block s q.flow t) :
    q.legs = q.flow.filterMap Chunk.leg? := by
  obtain ⟨block, instrs, flow⟩ := q
  dsimp only at h ⊢
  have hplain : block.flow.risky? = none →
      Plan.legs ⟨block, instrs, flow⟩ = block.flow.legs.map Branch.passes := by
    intro hnone
    rw [Plan.legs]
    split
    · rename_i hf _
      rw [show block.flow = _ from hf] at hnone
      cases hnone
    · rfl
  cases h with
  | ret hf =>
    rw [hplain (by rw [hf]; rfl), hf]
    rfl
  | stop hf =>
    rw [hplain (by rw [hf]; rfl), hf]
    rfl
  | jump _ hf hx =>
    rw [hplain hf, hx]
    rfl
  | @test arms v cases fallback code direct _ hf _ _ ht _ _ hx =>
    rw [hplain (by rw [hf]; rfl), hx, List.filterMap_cons_none
      (leg?_of_tests (ht fun _ => none) [v]), List.filterMap_append, legs_arms]
  | @protect risky success failure result caught chunk type capture done failed _ _ _ _ _ hf _ _ _ _
      hk hv hh ho he =>
    obtain ⟨-, hcapture, -⟩ := capture_cases hh
    have hresult : Chunk.stored? ⟨chunk.code ++ (if risky.operation.resultType.isVoid then []
        else [Select.keep result]) ++ [.jump .leave done.label], chunk.deps⟩ = result := by
      rw [List.append_assoc, stored?_append hk.noStore]
      split
      · rename_i hvoid
        cases result with
        | none => rfl
        | some v =>
          rw [hv rfl] at hvoid
          cases hvoid
      · cases result <;> rfl
    have hcaught : Chunk.stored? ⟨.handlerStart type :: capture
        ++ [Select.keep caught, .jump .leave failed.label, .handlerEnd], []⟩ = caught := by
      rw [stored?_append]
      · cases caught <;> rfl
      · simp only [List.mem_cons, reduceCtorEq, false_or]
        exact fun v hm => hcapture _ hm
    have hlegs : Plan.legs ⟨block, instrs, guardedChunks chunk
          (if risky.operation.resultType.isVoid then [] else [Select.keep result]) type capture
          caught done.label failed.label ++ [done, failed].flatMap Arm.chunks⟩
        = [(success.target, Select.boundArgs result none success),
          (failure.target, Select.boundArgs none caught failure)] := by
      rw [Plan.legs, hf]
      exact congrArg₂ (fun r c => [(success.target, Select.boundArgs r none success),
        (failure.target, Select.boundArgs none c failure)]) hresult hcaught
    rw [hlegs, List.filterMap_append, legs_arms, List.map_cons, List.map_singleton, Arm.passes,
      Arm.passes, he.1.target, he.2.target, ho.1, ho.2.1]
    have hguarded : (guardedChunks chunk (if risky.operation.resultType.isVoid then []
        else [Select.keep result]) type capture caught done.label failed.label).filterMap Chunk.leg?
        = [] := by
      rw [guardedChunks, List.filterMap_cons_none rfl, List.filterMap_cons_none (leg?_of_leave _)]
      rfl
    rw [hguarded]
    rfl

end Legs

namespace Execution

variable {W : Type}

section Locating

variable {ctx : Context} {policy : Policy} {entry : Block} {symbols : Symbols} {plans : List Plan}
  {t : Selection} {p : Placement} {P : Program W} {g : Graph}

theorem settled_events {c : Chunk} (h : c.code ≠ []) (g : Graph) (leg : Option Leg) :
    ∃ xs i, c.events g leg = xs ++ [.item i] := by
  obtain ⟨code, i, hc⟩ := (List.eq_nil_or_concat c.code).resolve_left h
  have hi : ∃ ys, i.events g leg = ys ++ [.item i] := by
    unfold Item.events
    split
    · exact ⟨[_], rfl⟩
    · exact ⟨[_], rfl⟩
    · exact ⟨[], rfl⟩
  obtain ⟨ys, hys⟩ := hi
  refine ⟨code.flatMap (Item.events g leg) ++ ys, i, ?_⟩
  rw [Chunk.events, hc, List.concat_eq_append, List.flatMap_append, List.flatMap_singleton, hys,
    List.append_assoc]

theorem flowEvents_append {xs : List Chunk} (hx : xs ≠ []) (ys : List Chunk) (first : Bool) :
    ∃ E, p.flowEvents g first (owned (xs ++ ys)) = E ++ p.flowEvents g false (owned ys)
      ∧ itemsOf E = xs.flatMap p.chunk
      ∧ ((∀ c ∈ xs, c.code ≠ []) → ∃ zs i, E = zs ++ [.item i]) := by
  induction xs generalizing first with
  | nil => exact absurd rfl hx
  | cons c xs ih =>
    have hchunk : ∀ alone later, c.code ≠ [] →
        ∃ zs i, p.chunkEvents g c c.leg? alone later = zs ++ [.item i] := by
      intro alone later hc
      obtain ⟨zs, i, hz⟩ := settled_events hc g c.leg?
      refine ⟨(c.deps.flatMap p.fetch).map .item ++ .note (.chunk c alone later) :: zs, i, ?_⟩
      rw [Placement.chunkEvents, hz]
      simp
    rw [List.cons_append, flowEvents_owned]
    by_cases hne : xs = []
    · subst hne
      refine ⟨_, rfl, by simp, fun hc => hchunk _ _ (hc c List.mem_cons_self)⟩
    · obtain ⟨E, hE, hitems, hsettled⟩ := ih hne false
      refine ⟨_, by rw [hE, ← List.append_assoc], by simp [hitems], ?_⟩
      intro hc
      rw [List.forall_mem_cons] at hc
      obtain ⟨zs, i, rfl⟩ := hsettled hc.2
      exact ⟨_, i, (List.append_assoc ..).symm⟩

theorem arrival_flow {events before after : List Event} {xs ys : List Chunk}
    (h : events = before ++ (p.flowEvents g true (owned (xs ++ ys)) ++ after)) (hx : xs ≠ [])
    (hcodes : ∀ c ∈ xs, c.code ≠ []) :
    arrival events ((itemsOf before).length + (xs.flatMap p.chunk).length)
      = p.flowEvents g false (owned ys) ++ after := by
  obtain ⟨E, hE, hitems, hsettled⟩ := flowEvents_append (p := p) (g := g) hx ys true
  have := arrival_settled (settled_append (hsettled hcodes) before)
    (p.flowEvents g false (owned ys) ++ after)
  rwa [List.append_assoc, ← List.append_assoc E, ← hE, ← h, itemsOf_append, List.length_append,
    hitems] at this

theorem Laid.label_unique (L : Laid ctx policy entry symbols plans t p P) {l : Label} {n k : Nat}
    (hn : P.items[n]? = some (.label l)) (hk : P.items[k]? = some (.label l)) : n = k := by
  obtain ⟨labels, hformed, hnodup, -⟩ :=
    formed_stream L.valid L.finished L.shaped L.placed
  rw [← L.items] at hformed
  rw [← hformed.labels] at hnodup
  have hmem : l ∈ P.items.filterMap Item.label? :=
    List.mem_filterMap.mpr ⟨.label l, List.mem_of_getElem? hn, rfl⟩
  obtain ⟨q, -, hq⟩ := exists_onlyAt hnodup hmem
  rw [hq n hn, hq k hk]

end Locating

section Calm

variable {ctx : Context} {policy : Policy} {entry : Block} {symbols : Symbols} {plans : List Plan}
  {t : Selection} {p : Placement} {P : Program W}

def Calm (i : Item) : Prop := i.isTryStart = false ∧ i.isHandlerStart = false

theorem calm_of_isMark {i : Item} (h : i.isMark = false) : Calm i := by
  cases i <;> first | exact ⟨rfl, rfl⟩ | cases h

theorem Laid.calm_chunk (L : Laid ctx policy entry symbols plans t p P) {c : Chunk}
    (hc : ∀ i ∈ c.code, Calm i) : ∀ i ∈ p.chunk c, Calm i := by
  intro i hi
  rcases List.mem_append.mp hi with hi | hi
  · obtain ⟨v, -, hv⟩ := List.mem_flatMap.mp hi
    rw [Placement.fetch] at hv
    split at hv
    · cases hv
    · split at hv
      · rename_i code hcode
        obtain ⟨j, rfl, -⟩ := (L.literal hcode).1 i hv
        exact ⟨rfl, rfl⟩
      · obtain rfl := List.mem_singleton.mp hv
        exact ⟨rfl, rfl⟩
  · exact hc i hi

theorem calm_jump (target : Label) (args : List Value) :
    ∀ i ∈ (Chunk.jump target args).code, Calm i := by
  simp [Calm, Chunk.jump, Item.isTryStart, Item.isHandlerStart]

theorem Laid.calm_arms (L : Laid ctx policy entry symbols plans t p P) (arms : List Arm) :
    ∀ i ∈ (arms.flatMap Arm.chunks).flatMap p.chunk, Calm i := by
  intro i hi
  obtain ⟨c, hc, hi⟩ := List.mem_flatMap.mp hi
  obtain ⟨a, -, hc⟩ := List.mem_flatMap.mp hc
  refine L.calm_chunk ?_ i hi
  simp only [Arm.chunks, List.mem_cons, List.not_mem_nil, or_false] at hc
  rcases hc with rfl | rfl
  · simp [Chunk.label, Calm, Item.isTryStart, Item.isHandlerStart]
  · exact calm_jump a.target a.args

end Calm

structure Leaving (ctx : Context) (plans : List Plan) (p : Placement) (P : Program W) (q : Plan)
    (front : List Chunk) (arms : List Arm) (before after : List Event) : Prop where
  plan : q ∈ plans
  events : P.events = before ++ (p.flowEvents ctx.graph true (owned q.flow) ++ after)
  calm : Balanced Item.isTryStart Item.isHandlerStart (itemsOf after)
  flow : q.flow = front ++ arms.flatMap Arm.chunks
  front : front ≠ [] ∧ ∀ c ∈ front, c.code ≠ []
  unkept : ∀ c ∈ arms.flatMap Arm.chunks, ∀ v ∈ c.deps, v ∉ p.kept

section Arms

variable {ctx : Context} {policy : Policy} {entry : Block} {symbols : Symbols} {plans : List Plan}
  {t : Selection} {p : Placement} {P : Program W} {σ τ : State W} {k n : Nat} {es : List Event}
  {q : Plan} {front : List Chunk} {arms : List Arm} {a : Arm} {before after : List Event}
  {path : List Block} {F : Value → Prop} {v : Value}

theorem Enters.mono {j : Nat} (h : Enters ctx.graph p P plans k) (hj : j ≤ k) :
    Enters ctx.graph p P plans j :=
  fun q hq n before σ hn ha i hi => h q hq n before σ hn ha i (Nat.lt_of_lt_of_le hi hj)

theorem Laid.ready_flow (L : Laid ctx policy entry symbols plans t p P) (hq : q ∈ plans)
    (hf : ∀ v, Own ctx.graph v → F v)
    (hbody : Body ctx.graph p P.meaning path q.block q.block.instructions.length σ) {c : Chunk}
    (hc : c ∈ q.flow) (hv : v ∈ c.deps)
    (hr : v ∈ Graph.passed path q.block q.block.instructions.length
      ∧ ctx.graph.type? v ≠ some .void) (hk : v ∉ p.kept) :
    ∃ w, Ready p P.meaning F σ v w := by
  have hread := read_of_flow (g := ctx.graph) hq hc hv
  refine hbody.ready L.valid hf hr.1 hr.2 ?_ hk
  rw [L.placed]
  exact hread

theorem Laid.passed_flow (L : Laid ctx policy entry symbols plans t p P) (hq : q ∈ plans)
    (hbody : Body ctx.graph p P.meaning path q.block q.block.instructions.length σ)
    (hv : v ∈ q.block.flow.reads) :
    v ∈ Graph.passed path q.block q.block.instructions.length ∧ ctx.graph.type? v ≠ some .void :=
  ⟨L.dominated.flows path q.block hbody.walk v hv,
    L.used.flows q.block (L.finished.mem_blocks hq) v hv⟩

theorem Leaving.armed (X : Leaving ctx plans p P q front arms before after)
    (L : Laid ctx policy entry symbols plans t p P) (ha : a ∈ arms)
    (hbody : Body ctx.graph p P.meaning path q.block q.block.instructions.length σ)
    (hs : σ.stack = []) (hargs : ∀ v ∈ a.args, v ∈ q.block.flow.reads
      ∨ ∃ w, Ready p P.meaning (fun v => ¬ P.meaning.exposed v) σ v w) :
    Armed ctx.graph p P q.block a.args σ := by
  refine ⟨⟨path, hbody⟩, hs, ?_⟩
  intro v hv
  have hmem : Chunk.jump a.target a.args ∈ arms.flatMap Arm.chunks :=
    List.mem_flatMap.mpr ⟨a, ha, by simp [Arm.chunks]⟩
  rcases hargs v hv with hr | hr
  · exact L.ready_flow X.plan (fun _ => L.unexposed) hbody
      (by rw [X.flow]; exact List.mem_append_right _ hmem) hv (L.passed_flow X.plan hbody hr)
      (X.unkept _ hmem v hv)
  · exact hr

theorem sound_arms (L : Laid ctx policy entry symbols plans t p P)
    (hk : Enters ctx.graph p P plans k) {b : Block} (ha : Armed ctx.graph p P b a.args σ)
    {result caught : Option Value} (hsend : b.Sends ctx.graph result caught a.target a.args)
    (hes : Balanced Item.isTryStart Item.isHandlerStart (itemsOf es))
    (hat : P.At n (p.flowEvents ctx.graph false (owned ((a :: arms).flatMap Arm.chunks)) ++ es)) :
    P.Sound k n (p.flowEvents ctx.graph false (owned ((a :: arms).flatMap Arm.chunks)) ++ es)
      σ := by
  refine sound_arm L hk ha hsend hat ?_
  have hne : a.chunks ≠ [] := by simp [Arm.chunks]
  obtain ⟨E, hE, hitems, -⟩ :=
    flowEvents_append (p := p) (g := ctx.graph) hne (arms.flatMap Arm.chunks) false
  rw [List.flatMap_cons, hE, List.append_assoc] at hat
  rw [← hitems]
  refine Program.quiet_calm hat ?_ ?_
  · rw [hitems]
    exact fun i hi => L.calm_arms [a] i (by simpa using hi)
  · rw [itemsOf_append, itemsOf_owned]
    exact .append (balanced_of_forall (L.calm_arms arms)) hes

theorem codes_of_arms {c : Chunk} (hc : c ∈ arms.flatMap Arm.chunks) : c.code ≠ [] := by
  obtain ⟨a, -, hc⟩ := List.mem_flatMap.mp hc
  simp only [Arm.chunks, List.mem_cons, List.not_mem_nil, or_false] at hc
  rcases hc with rfl | rfl <;> simp [Chunk.label, Chunk.jump]

theorem Leaving.later (X : Leaving ctx plans p P q front arms before after)
    (L : Laid ctx policy entry symbols plans t p P) (hk : Enters ctx.graph p P plans k)
    (hm : a ∈ arms) {result caught : Option Value}
    (hsend : q.block.Sends ctx.graph result caught a.target a.args)
    (ha : Armed ctx.graph p P q.block a.args σ) (hl : LastAt P.items a.label n) :
    P.Later k n σ := by
  -- Labels stand once, so the label is that of the arm, and only an item stands right before it.
  obtain ⟨xs, ys, hsplit⟩ := List.append_of_mem hm
  have hcodes : ∀ c ∈ front ++ xs.flatMap Arm.chunks, c.code ≠ [] := by
    intro c hc
    rcases List.mem_append.mp hc with hc | hc
    · exact X.front.2 c hc
    · exact codes_of_arms hc
  have hevents := X.events
  rw [X.flow, hsplit, List.flatMap_append, ← List.append_assoc front] at hevents
  have harrival := arrival_flow hevents (by simp [X.front.1]) hcodes
  have hat := Program.At.of_arrival harrival
  have hdrop := hat.drop
  rw [itemsOf_append, itemsOf_owned] at hdrop
  obtain rfl := L.label_unique hl.1 (getElem?_of_drop hdrop).1
  intro j hj
  rw [harrival]
  exact sound_arms L (hk.mono (Nat.le_of_lt hj)) ha hsend X.calm hat

end Arms

structure Passes (ctx : Context) (P : Program W) (b : Block) (x : Option Value)
    (a : Arm) : Prop where
  sends : ∃ result caught, b.Sends ctx.graph result caught a.target a.args
  args : ∀ v ∈ a.args, v ∈ b.flow.reads ∨ x = some v
  scratch : ∀ v, x = some v → ¬ Own ctx.graph v ∧ ¬ P.meaning.exposed v

section Protected

variable {ctx : Context} {policy : Policy} {entry : Block} {symbols : Symbols} {plans : List Plan}
  {t : Selection} {p : Placement} {P : Program W} {σ τ : State W} {k n length : Nat} {q : Plan}
  {front : List Chunk} {arms : List Arm} {a : Arm} {before after es : List Event}
  {path : List Block} {F : Value → Prop} {x : Option Value} {w : W}

theorem sound_keep {g : Graph} {leg : Option Leg}
    (hf : ∀ v, F v → ¬ P.meaning.exposed v ∧ x ≠ some v) (hs : σ.stack = [w])
    (hat : P.At n ((Select.keep x).events g leg ++ es)) (hg : P.Guarded k F n (length + 1) σ)
    (hnext : ∀ τ, τ.stack = [] → Agree F σ τ →
      (∀ v, x = some v → τ.current v = some w ∧ τ.cells v = w) →
      P.Guarded k F (n + 1) length τ → P.Sound k (n + 1) es τ) :
    P.Sound k n ((Select.keep x).events g leg ++ es) σ := by
  cases x with
  | none =>
    have hpop : ∀ v, F v → ¬ P.meaning.exposed v ∧ Item.plain .pop ≠ .store v := fun v hv =>
      ⟨(hf v hv).1, by simp⟩
    refine Program.sound_pass hat rfl hg hpop ?_
    intro τ ha hgτ
    exact hnext τ (ha.last rfl hs) (ha.agree hpop) (by simp) hgτ
  | some v =>
    have hne : ∀ u, F u → u ≠ v := fun u hu he => (hf u hu).2 (by rw [he])
    have hnote : Agree F σ (σ.note P.meaning (.produce v)) := fun u hu =>
      ⟨rfl, Function.update_of_ne (hne u hu) _ _⟩
    have hstore : ∀ u, F u → ¬ P.meaning.exposed u ∧ Item.store v ≠ .store u := fun u hu =>
      ⟨(hf u hu).1, fun he => hne u hu (Item.store.inj he).symm⟩
    refine Program.sound_note trivial (Program.sound_pass hat.note rfl
      (hg.part (Nat.le_refl n) (Nat.le_refl _) hnote) hstore ?_)
    intro τ ha hgτ
    refine hnext τ (ha.last rfl hs) (hnote.trans (ha.agree hstore)) ?_ hgτ
    intro u hu
    obtain rfl := Option.some.inj hu
    have hcells : τ.cells = _ := ha.cells
    rw [ha.current, hcells]
    simp [State.note, hs]

theorem sound_leave {l : Label} (hf : ∀ v, F v → ¬ P.meaning.exposed v)
    (hat : P.At n (.item (.jump .leave l) :: es)) (hg : P.Guarded k F n (length + 1) σ)
    (hjump : ∀ j, LastAt P.items l j → ∀ τ, τ.stack = [] → τ.cells = σ.cells →
      τ.current = σ.current → P.Later k j τ) :
    P.Sound k n (.item (.jump .leave l) :: es) σ := by
  refine Program.sound_branch hat rfl rfl (fun v hv => ⟨hf v hv, by simp⟩) hg ?_ ?_
  · intro l' hl' j hj τ ha hτ
    obtain rfl := List.mem_singleton.mp hl'
    exact hjump j hj τ hτ ha.cells ha.current
  · intro h
    cases h

theorem Laid.ready_scratch (L : Laid ctx policy entry symbols plans t p P) {v : Value}
    (hv : ¬ Own ctx.graph v) (he : ¬ P.meaning.exposed v) (hcurrent : σ.current v = some w)
    (hcells : σ.cells v = w) : Ready p P.meaning (fun v => ¬ P.meaning.exposed v) σ v w := by
  refine ⟨fun hk => hv (L.kept_own hk), he, hcurrent, ?_⟩
  rw [Source]
  cases hl : p.repeated.lookup v with
  | none => exact hcells
  | some code =>
    obtain ⟨-, r, hr, c, -, hc, -⟩ := repeated_cases L.placed hl
    exact absurd (own_of_defined L.valid (mem_defined (L.finished.mem_blocks hr)
      (List.mem_append_right _ (L.finished.instr hr hc).1))) hv

theorem Leaving.outcome (X : Leaving ctx plans p P q front arms before after)
    (L : Laid ctx policy entry symbols plans t p P) (hk : Enters ctx.graph p P plans k)
    (ha : a ∈ arms) (hpass : Passes ctx P q.block x a)
    (hbody : Body ctx.graph p P.meaning path q.block q.block.instructions.length σ)
    (hkept : ∀ v, x = some v → ∃ w, σ.current v = some w ∧ σ.cells v = w)
    (hat : P.At n (.item (.jump .leave a.label) :: es))
    (hg : P.Guarded k (Own ctx.graph) n (length + 1) σ) :
    P.Sound k n (.item (.jump .leave a.label) :: es) σ := by
  refine sound_leave (fun _ => L.unexposed) hat hg ?_
  intro j hj τ hs hcells hcurrent
  have hτ : Body ctx.graph p P.meaning path q.block q.block.instructions.length τ :=
    hbody.agree L.valid fun v _ => ⟨by rw [hcells], by rw [hcurrent]⟩
  obtain ⟨result, caught, hsend⟩ := hpass.sends
  refine X.later L hk ha hsend (X.armed L ha hτ hs ?_) hj
  intro v hv
  refine (hpass.args v hv).imp_right fun he => ?_
  obtain ⟨w, hw, hw'⟩ := hkept v he
  obtain ⟨hown, hexposed⟩ := hpass.scratch v he
  exact ⟨w, L.ready_scratch hown hexposed (by rw [hcurrent, hw]) (by rw [hcells, hw'])⟩

theorem unmarked_range {g : Graph} {leaves : Option Bool} {operands : List Value} {chunk : Chunk}
    {s' t' : Selection} (hl : Lowered g (fun _ _ => True) leaves operands s' chunk t') (void : Bool)
    (x : Option Value) (l : Label) : ∀ i ∈ chunk.code
      ++ (if void then [] else [Select.keep x]) ++ [.jump .leave l], i.isMark = false := by
  intro i hi
  rcases List.mem_append.mp hi with hi | hi
  · rcases List.mem_append.mp hi with hi | hi
    · exact (Lowered.straight hl i hi).1
    · cases void
      · obtain rfl := List.mem_singleton.mp hi
        cases x <;> rfl
      · cases hi
  · obtain rfl := List.mem_singleton.mp hi
    rfl

theorem sound_range (X : Leaving ctx plans p P q front arms before after)
    (L : Laid ctx policy entry symbols plans t p P) (hk : Enters ctx.graph p P plans k)
    (ha : a ∈ arms) (hpass : Passes ctx P q.block x a) {leaves : Option Bool}
    {operands : List Value} {chunk c : Chunk} {s' t' : Selection} {void : Bool}
    (hl : Lowered ctx.graph (fun _ _ => True) leaves operands s' chunk t') (htt : t'.Grows t)
    (hleaves : ∀ x, leaves = some x → void = !x) (hnone : void = true → x = none)
    (hbody : Body ctx.graph p P.meaning path q.block q.block.instructions.length σ)
    (hs : σ.stack = [])
    (hc : c = ⟨chunk.code ++ (if void then [] else [Select.keep x])
      ++ [.jump .leave a.label], chunk.deps⟩)
    {alone : Bool} {later : List Chunk} (ht : Takes p.kept [] c.deps [] alone)
    (hready : ∀ v ∈ c.deps, v ∉ p.kept → ∃ w, Ready p P.meaning (Own ctx.graph) σ v w)
    (hat : P.At n (p.chunkEvents ctx.graph c c.leg? alone later ++ es))
    (hg : P.Guarded k (Own ctx.graph) n (p.chunk c).length σ) :
    P.Sound k n (p.chunkEvents ctx.graph c c.leg? alone later ++ es) σ := by
  have hunexposed : ∀ v, Own ctx.graph v → ¬ P.meaning.exposed v := fun _ => L.unexposed
  have hcode : c.code.length = chunk.code.length
      + (if void then [] else [Select.keep x]).length + 1 := by
    rw [hc, List.length_append, List.length_append, List.length_singleton]
  have hev : c.events ctx.graph c.leg? ++ es = chunk.code.map .item
      ++ ((if void then [] else [Select.keep x]).flatMap (Item.events ctx.graph c.leg?)
        ++ .item (.jump .leave a.label) :: es) := by
    rw [hc, Chunk.events, List.flatMap_append, List.flatMap_append, Lowered.events hl]
    simp [Item.events]
  rw [Placement.chunk, List.length_append, hcode] at hg
  refine sound_chunk L hunexposed ht (State.carries_nil hs) (by simp) hready (by simp)
    (not_isHandler (by rw [hc]; exact unmarked_range hl void x a.label)) hat
    (hg.part (Nat.le_refl n) (by omega) (.refl _ σ)) ?_
  intro τ hτ hcarries hatτ
  rw [hev] at hatτ ⊢
  have hdeps : τ.Carries ([] ++ chunk.deps) := by
    rw [hc] at hcarries
    exact hcarries
  refine sound_own hl htt L.shaped hleaves hunexposed hatτ
    (hg.part (by omega) (by omega) hτ) hdeps ?_
  intro υ ws ys hυ hws hstack hlen
  obtain rfl := List.forall₂_nil_left_iff.mp hws
  have hbodyυ := hbody.agree L.valid (hτ.trans hυ)
  have hatυ := hatτ.items
  have hgυ : P.Guarded k (Own ctx.graph)
      (n + (c.deps.flatMap p.fetch).length + chunk.code.length)
      ((if void then [] else [Select.keep x]).length + 1) υ :=
    hg.part (by omega) (by omega) (hτ.trans hυ)
  -- A void instruction leaves nothing to keep.
  cases void with
  | false =>
    obtain ⟨w, rfl⟩ := List.length_eq_one_iff.mp hlen
    simp only [Bool.false_eq_true, if_false, List.flatMap_singleton,
      List.length_singleton] at hatυ hgυ ⊢
    refine sound_keep (fun v hv => ⟨hunexposed v hv, fun he => (hpass.scratch v he).1 hv⟩) hstack
      hatυ hgυ ?_
    intro ρ _ hρ hkept hgρ
    have hatρ := hatυ.append
    rw [Item.itemsOf_events] at hatρ
    exact X.outcome L hk ha hpass (hbodyυ.agree L.valid hρ) (fun v hv => ⟨w, hkept v hv⟩) hatρ hgρ
  | true =>
    simp only [if_true, List.flatMap_nil, List.nil_append, List.length_nil] at hatυ hgυ ⊢
    refine X.outcome L hk ha hpass hbodyυ ?_ hatυ hgυ
    rw [hnone rfl]
    simp

theorem calm_handler {capture : List Item} (h : ∀ i ∈ capture, i.IsPlain) (x : Option Value)
    (l : Label) : ∀ i ∈ capture ++ [Select.keep x, .jump .leave l, .handlerEnd], Calm i := by
  intro i hi
  rcases List.mem_append.mp hi with hi | hi
  · have := h i hi
    cases i <;> first | exact ⟨rfl, rfl⟩ | cases this
  · simp only [List.mem_cons, List.not_mem_nil, or_false] at hi
    rcases hi with rfl | rfl | rfl
    · cases x <;> exact ⟨rfl, rfl⟩
    · exact ⟨rfl, rfl⟩
    · exact ⟨rfl, rfl⟩

theorem sound_handler (X : Leaving ctx plans p P q front arms before after)
    (L : Laid ctx policy entry symbols plans t p P) (hk : Enters ctx.graph p P plans k)
    (ha : a ∈ arms) (hpass : Passes ctx P q.block x a)
    {capture : List Item} (hplain : ∀ i ∈ capture, i.IsPlain)
    (hheight : height P.meaning.shape capture 1 = some 1)
    (hbody : Body ctx.graph p P.meaning path q.block q.block.instructions.length σ) {e : W}
    {type : Machine.Ref} {c : Chunk} {alone : Bool} {later : List Chunk}
    (hc : c = ⟨.handlerStart type :: capture
      ++ [Select.keep x, .jump .leave a.label, .handlerEnd], []⟩)
    (hes : Balanced Item.isTryStart Item.isHandlerStart (itemsOf es))
    (hat : P.At n (p.chunkEvents ctx.graph c c.leg? alone later ++ es)) :
    P.Sound k n (p.chunkEvents ctx.graph c c.leg? alone later ++ es) (σ.throw e) := by
  have hcode : capture.flatMap (Item.events ctx.graph none) = capture.map .item := by
    refine events_straight (fun v hv => hplain _ hv) fun i hi => ?_
    have := hplain i hi
    cases i <;> first | rfl | cases this
  have hleg : c.leg? = none := by
    rw [hc]
    rfl
  have hev : p.chunkEvents ctx.graph c c.leg? alone later ++ es = .note (.chunk c alone later)
      :: .item (.handlerStart type) :: (capture.map .item ++ ((Select.keep x).events ctx.graph none
        ++ .item (.jump .leave a.label) :: .item .handlerEnd :: es)) := by
    rw [hleg]
    simp [hc, Placement.chunkEvents, Chunk.events, hcode, Item.events]
  rw [hev] at hat ⊢
  have hat₀ := hat.note
  have hat₁ := hat₀.next
  have hcalm := calm_handler hplain x a.label
  -- No range is open in the handler.
  have hitems : itemsOf (capture.map .item ++ ((Select.keep x).events ctx.graph none
      ++ [.item (.jump .leave a.label), .item .handlerEnd]))
      = capture ++ [Select.keep x, .jump .leave a.label, .handlerEnd] := by
    simp [Item.itemsOf_events]
  have hrest : P.Quiet (n + 1) (capture.length + 3) := by
    have hat' : P.At (n + 1) ((capture.map .item ++ ((Select.keep x).events ctx.graph none
        ++ [.item (.jump .leave a.label), .item .handlerEnd])) ++ es) := by
      simpa using hat₁
    have := Program.quiet_calm hat' (by rw [hitems]; exact hcalm) hes
    rw [hitems] at this
    simpa using this
  have hfirst : P.Quiet n 1 := by
    intro j h hj hlt
    obtain rfl : j = n := by omega
    have hdrop : P.items.drop j = .handlerStart type :: (capture
        ++ [Select.keep x, .jump .leave a.label, .handlerEnd] ++ itemsOf es) := by
      rw [hat₀.drop]
      simp [Item.itemsOf_events]
    exact not_throws hdrop rfl ((balanced_of_forall hcalm).append hes)
  have hunexposed : ∀ v, Own ctx.graph v → ¬ P.meaning.exposed v := fun _ => L.unexposed
  refine Program.sound_note ?_ (Program.sound_pass hat₀ rfl (hfirst.guarded (Own ctx.graph) _)
    (fun v hv => ⟨hunexposed v hv, by simp⟩) ?_)
  · rw [Program.Meets, L.meets, Delivered, hc]
    exact ⟨e, rfl, rfl⟩
  intro τ hacts _
  have hτ : Agree (Own ctx.graph) σ τ := hacts.agree fun v hv => ⟨hunexposed v hv, by simp⟩
  have hstack : τ.stack = [] ++ [e] := hacts.idle rfl
  have hfront : P.Quiet (n + 1) capture.length := hrest.part (Nat.le_refl _) (by omega)
  refine Program.sound_code hat₁ hheight
    (fun v hv => ⟨hunexposed v hv, fun hm => hplain _ hm⟩) (hfront.guarded _ τ) hstack rfl ?_
  intro υ ys hυ hys hlen
  obtain ⟨w, rfl⟩ := List.length_eq_one_iff.mp hlen
  have hback : P.Quiet (n + 1 + capture.length) (1 + 1) := hrest.part (by omega) (by omega)
  refine sound_keep (fun v hv => ⟨hunexposed v hv, fun he => (hpass.scratch v he).1 hv⟩) hys
    hat₁.items (hback.guarded _ υ) ?_
  intro ρ _ hρ hkept hg
  have hatρ := hat₁.items.append
  rw [Item.itemsOf_events] at hatρ
  exact X.outcome L hk ha hpass (hbody.agree L.valid ((hτ.trans hυ).trans hρ))
    (fun v hv => ⟨w, hkept v hv⟩) hatρ hg

end Protected

section Flows

variable {ctx : Context} {policy : Policy} {entry : Block} {symbols : Symbols} {plans : List Plan}
  {t : Selection} {p : Placement} {P : Program W} {σ τ : State W} {k n : Nat} {q : Plan}
  {c : Chunk} {cs : List Chunk} {vs : List Value} {before after : List Event} {path : List Block}

theorem mem_boundArgs {result caught : Option Value} {br : Branch} {v : Value}
    (h : v ∈ Select.boundArgs result caught br) :
    v ∈ br.values ∨ result = some v ∨ caught = some v := by
  obtain ⟨a, ha, hv⟩ := List.mem_filterMap.mp h
  cases a with
  | value w =>
    obtain rfl := Option.some.inj hv
    exact .inl (List.mem_filterMap.mpr ⟨.value w, ha, rfl⟩)
  | result => exact .inr (.inl hv)
  | exception => exact .inr (.inr hv)

theorem mem_reads_of_values {b : Block} {br : Branch} {v : Value} (hbr : br ∈ b.flow.branches)
    (hv : v ∈ br.values) : v ∈ b.flow.reads :=
  List.mem_append_right _ (List.mem_flatMap.mpr ⟨br, hbr, hv⟩)

theorem Sends.reads {b : Block} {target : Label} {args : List Value} {v : Value}
    (h : b.Sends ctx.graph none none target args) (hv : v ∈ args) : v ∈ b.flow.reads := by
  obtain ⟨br, hbr, -, -, -, rfl, -⟩ := h
  rcases mem_boundArgs hv with hv | hv | hv
  · exact mem_reads_of_values hbr hv
  · cases hv
  · cases hv

theorem quiet_own (hc : ∀ i ∈ c.code, Calm i)
    (hb : Balanced Item.isTryStart Item.isHandlerStart (cs.flatMap p.chunk))
    (hafter : Balanced Item.isTryStart Item.isHandlerStart (itemsOf after))
    (hat : P.At n (c.events ctx.graph c.leg?
      ++ (p.flowEvents ctx.graph false (owned cs) ++ after))) :
    P.Quiet n c.code.length := by
  have := Program.quiet_calm hat (by rwa [itemsOf_chunk])
    (by rw [itemsOf_append, itemsOf_owned]; exact hb.append hafter)
  rwa [itemsOf_chunk] at this

variable (L : Laid ctx policy entry symbols plans t p P) (hk : Enters ctx.graph p P plans k)
  (hq : q ∈ plans)
  (hbody : Body ctx.graph p P.meaning path q.block q.block.instructions.length σ)
  (hcar : σ.Carries vs) (hvs : ∀ v ∈ vs, v ∈ p.kept)
  (hfollow : Plan.followFlow p.kept vs true q.flow = .ok [])
  (hafter : Balanced Item.isTryStart Item.isHandlerStart (itemsOf after))
  (hat : P.At n (p.flowEvents ctx.graph true (owned q.flow) ++ after))

include L hq hbody hcar hvs hfollow hafter hat

theorem sound_first (hflow : q.flow = c :: cs)
    (hdeps : ∀ v ∈ c.deps, v ∈ q.block.flow.reads) (hh : c.isHandler = false)
    (hb : Balanced Item.isTryStart Item.isHandlerStart (c.code ++ cs.flatMap p.chunk))
    (hown : ∀ m τ, Body ctx.graph p P.meaning path q.block q.block.instructions.length τ →
      τ.Carries c.deps → Plan.followFlow p.kept [] false cs = .ok [] →
      m = n + (c.deps.flatMap p.fetch).length →
      P.At m (c.events ctx.graph c.leg? ++ (p.flowEvents ctx.graph false (owned cs) ++ after)) →
      P.Sound k m (c.events ctx.graph c.leg? ++ (p.flowEvents ctx.graph false (owned cs) ++ after))
        τ) :
    P.Sound k n (p.flowEvents ctx.graph true (owned q.flow) ++ after) σ := by
  have hc : c ∈ q.flow := by simp [hflow]
  have hready : ∀ v ∈ c.deps, v ∉ p.kept → ∃ w, Ready p P.meaning (Own ctx.graph) σ v w :=
    fun v hv => L.ready_flow hq (fun _ h => h) hbody hc hv (L.passed_flow hq hbody (hdeps v hv))
  rw [hflow] at hfollow hat ⊢
  obtain ⟨rest, htake, hrest⟩ := followFlow_cons.mp hfollow
  have ht := takes_of_takeDeps htake
  obtain rfl := ht.alone rfl
  rw [flowEvents_owned, List.append_assoc] at hat ⊢
  have hquiet : P.Quiet n (c.deps.flatMap p.fetch).length := by
    have hfetch := hat
    rw [Placement.chunkEvents, List.append_assoc] at hfetch
    have := Program.quiet_calm hfetch (fun i hi => L.calm_chunk (c := ⟨[], c.deps⟩) (by simp) i
      (by simpa [Placement.chunk] using hi)) (by
        rw [List.cons_append, itemsOf_note, itemsOf_append, itemsOf_append, itemsOf_chunk,
          itemsOf_owned, ← List.append_assoc]
        exact hb.append hafter)
    rwa [itemsOf_map] at this
  refine sound_chunk L (fun _ => L.unexposed) ht hcar (fun v hv => L.kept_own (hvs v hv)) hready
    (by simp) hh hat (hquiet.guarded _ σ) ?_
  intro τ hτ hcarries hatτ
  exact hown _ τ (hbody.agree L.valid hτ) hcarries hrest rfl hatτ

theorem sound_ret {v : Option Value} (hf : q.block.flow = .ret v)
    (hflow : q.flow = [⟨[.plain .ret], v.toList⟩]) :
    P.Sound k n (p.flowEvents ctx.graph true (owned q.flow) ++ after) σ := by
  have hcalm : ∀ i ∈ [Item.plain .ret], Calm i := by
    simp [Calm, Item.isTryStart, Item.isHandlerStart]
  refine sound_first L hq hbody hcar hvs hfollow hafter hat hflow ?_ rfl
    (balanced_of_forall hcalm) ?_
  · intro u hu
    rw [hf]
    exact List.mem_append_left _ hu
  · intro m τ _ _ _ _ hatτ
    have hquiet := quiet_own hcalm .nil hafter hatτ
    refine Program.sound_item hatτ ?_ ?_
    · exact fun υ _ => ⟨fun h => (by cases h), by simp [Item.targets]⟩
    · exact fun h ht => absurd ht (hquiet m h (Nat.le_refl m) (by simp))

theorem sound_stop (hflow : q.flow = [⟨[.plain .ldnull, .plain .throw], []⟩]) :
    P.Sound k n (p.flowEvents ctx.graph true (owned q.flow) ++ after) σ := by
  have hcalm : ∀ i ∈ [Item.plain .ldnull, Item.plain .throw], Calm i := by
    simp [Calm, Item.isTryStart, Item.isHandlerStart]
  refine sound_first L hq hbody hcar hvs hfollow hafter hat hflow (by simp) rfl
    (balanced_of_forall hcalm) ?_
  intro m τ _ _ _ _ hatτ
  have hquiet := quiet_own hcalm .nil hafter hatτ
  refine Program.sound_pass hatτ rfl (hquiet.guarded (fun _ => False) τ) (fun _ h => h.elim) ?_
  intro υ _ _
  refine Program.sound_item hatτ.next ?_ ?_
  · exact fun ρ _ => ⟨fun h => (by cases h), by simp [Item.targets]⟩
  · exact fun h ht => absurd ht (hquiet (m + 1) h (by omega) (by simp))

include hk in
theorem sound_goto {target : Label} {args : List Value}
    (hsend : q.block.Sends ctx.graph none none target args)
    (hflow : q.flow = [.jump target args]) :
    P.Sound k n (p.flowEvents ctx.graph true (owned q.flow) ++ after) σ := by
  have hcalm := calm_jump target args
  refine sound_first L hq hbody hcar hvs hfollow hafter hat hflow
    (fun v hv => Sends.reads hsend hv) rfl (balanced_of_forall hcalm) ?_
  intro m τ hτ hcarries _ _ hatτ
  exact sound_jump L hk hτ hsend hcarries hatτ (quiet_own hcalm .nil hafter hatτ)

include hk in
theorem sound_test {arms : List Arm} {v : Value} {code : List Item} {direct : List Chunk}
    {s' t' : Selection} (hevents : P.events = before
      ++ (p.flowEvents ctx.graph true (owned q.flow) ++ after))
    (hflow : q.flow = ⟨code, [v]⟩ :: (direct ++ arms.flatMap Arm.chunks))
    (hv : v ∈ q.block.flow.reads) (hsize : ctx.graph.values.size ≤ s'.nextValue)
    (hw : Wrote s' t' code) (htests : Tests P.meaning.shape (q.block.Open ctx.graph arms) code 1)
    (hdirect : direct = [] ∧ arms ≠ [] ∨ ∃ target args, direct = [.jump target args]
      ∧ q.block.Sends ctx.graph none none target args)
    (harms : Arms ctx.graph q.block none none s' arms t') :
    P.Sound k n (p.flowEvents ctx.graph true (owned q.flow) ++ after) σ := by
  have hcalm : ∀ i ∈ code, Calm i := fun i hi => calm_of_isMark (straight_of_tests htests i hi).1
  have hcalm' : ∀ i ∈ (direct ++ arms.flatMap Arm.chunks).flatMap p.chunk, Calm i := by
    intro i hi
    rw [List.flatMap_append] at hi
    rcases List.mem_append.mp hi with hi | hi
    · rcases hdirect with ⟨rfl, -⟩ | ⟨target, args, rfl, -⟩
      · cases hi
      · rw [List.flatMap_singleton] at hi
        exact L.calm_chunk (calm_jump target args) i hi
    · exact L.calm_arms arms i hi
  have hne : code ≠ [] := by
    rintro rfl
    cases htests
  refine sound_first L hq hbody hcar hvs hfollow hafter hat hflow (by simpa using hv)
    (not_isHandler fun i hi => (straight_of_tests htests i hi).1)
    ((balanced_of_forall hcalm).append (balanced_of_forall hcalm')) ?_
  intro m τ hτ hcarries hrest _ hatτ
  have hX : Leaving ctx plans p P q (⟨code, [v]⟩ :: direct) arms before after := by
    refine ⟨hq, hevents, hafter, hflow, ⟨by simp, ?_⟩, ?_⟩
    · rw [List.forall_mem_cons]
      refine ⟨hne, ?_⟩
      rcases hdirect with ⟨rfl, -⟩ | ⟨target, args, rfl, -⟩ <;> simp [Chunk.jump]
    · exact fun c hc => unkept_of_followFlow hrest c (List.mem_append_right _ hc)
  have hquiet := quiet_own hcalm (balanced_of_forall hcalm') hafter hatτ
  have hframe : ∀ u, Own ctx.graph u → ¬ P.meaning.exposed u ∧ .store u ∉ code := by
    intro u hu
    refine ⟨L.unexposed hu, fun hs => ?_⟩
    have := (hw.registers _ hs u rfl).after
    exact absurd hu (by rw [Own]; omega)
  have harmed : ∀ a ∈ arms, ∀ υ, Agree (Own ctx.graph) τ υ → υ.stack = [] →
      Armed ctx.graph p P q.block a.args υ := fun a ha υ hυ hs =>
    hX.armed L ha (hτ.agree L.valid hυ) hs fun u hu => .inl (Sends.reads (harms.sends a ha) hu)
  -- A branch that is taken goes to an arm or straight to a block. Otherwise control comes to what
  -- stands behind the test.
  refine Program.sound_tests hatτ htests hframe (hquiet.guarded _ τ) hcarries.length_eq.symm ?_ ?_
  · rintro l (⟨a, ha, rfl⟩ | ⟨br, hbr, c, hc, rfl, hparams⟩) j hj υ hυ hs
    · exact hX.later L hk ha (harms.sends a ha) (harmed a ha υ hυ hs) hj
    · exact L.enter hk (hτ.agree L.valid hυ) hbr hc (by simp [hparams])
        (State.carries_nil hs) rfl rfl (by rw [hparams]; rfl) hj
  · intro υ hυ hs
    have hatυ := hatτ.append
    rw [itemsOf_chunk] at hatυ
    rcases hdirect with ⟨rfl, hsome⟩ | ⟨target, args, rfl, hsend⟩
    · obtain ⟨a, more, rfl⟩ := List.exists_cons_of_ne_nil hsome
      exact sound_arms L hk (harmed a List.mem_cons_self υ hυ hs)
        (harms.sends a List.mem_cons_self) hafter hatυ
    · rw [List.singleton_append, flowEvents_owned, List.append_assoc] at hatυ ⊢
      obtain ⟨rest, htake, -⟩ := followFlow_cons.mp hrest
      have ht := takes_of_takeDeps htake
      obtain rfl := ht.rest_nil
      have hready : ∀ u ∈ args, u ∉ p.kept →
          ∃ w, Ready p P.meaning (fun v => ¬ P.meaning.exposed v) υ u w := fun u hu =>
        L.ready_flow hq (fun _ => L.unexposed) (hτ.agree L.valid hυ)
          (by rw [hflow]; exact List.mem_cons_of_mem _ List.mem_cons_self) hu
          (L.passed_flow hq (hτ.agree L.valid hυ) (Sends.reads hsend hu))
      have hquiet' := Program.quiet_calm hatυ
        (by rw [itemsOf_chunkEvents]; exact fun i hi => hcalm' i (List.mem_append_left _ hi))
        (by
          rw [itemsOf_append, itemsOf_owned]
          exact (balanced_of_forall (L.calm_arms arms)).append hafter)
      rw [itemsOf_chunkEvents] at hquiet'
      exact sound_jumpChunk L hk (hτ.agree L.valid hυ) hsend ht (State.carries_nil hs)
        (by simp) hready hatυ hquiet'

include hk in
theorem sound_protect {leaves : Option Bool} {operands : List Value} {chunk range handler : Chunk}
    {void : Bool} {result caught : Option Value} {type : Machine.Ref} {capture : List Item}
    {done failed : Arm} {s' t' : Selection} (hn : n = (itemsOf before).length)
    (hevents : P.events = before ++ (p.flowEvents ctx.graph true (owned q.flow) ++ after))
    (hflow : q.flow
      = ⟨[.tryStart], []⟩ :: range :: handler :: [done, failed].flatMap Arm.chunks)
    (hrange : range = ⟨chunk.code ++ (if void then [] else [Select.keep result])
      ++ [.jump .leave done.label], chunk.deps⟩)
    (hhandler : handler = ⟨.handlerStart type :: capture
      ++ [Select.keep caught, .jump .leave failed.label, .handlerEnd], []⟩)
    (hb : Balanced Item.isTryStart Item.isHandlerStart (q.flow.flatMap p.chunk))
    (hl : Lowered ctx.graph (fun _ _ => True) leaves operands s' chunk t') (htt : t'.Grows t)
    (hleaves : ∀ x, leaves = some x → void = !x)
    (hoperands : ∀ v ∈ operands, v ∈ q.block.flow.reads)
    (hdone : Passes ctx P q.block result done) (hfailed : Passes ctx P q.block caught failed)
    (hnone : void = true → result = none) (hplain : ∀ i ∈ capture, i.IsPlain)
    (hheight : height P.meaning.shape capture 1 = some 1) :
    P.Sound k n (p.flowEvents ctx.graph true (owned q.flow) ++ after) σ := by
  refine sound_first L hq hbody hcar hvs hfollow hafter hat hflow (by simp) rfl ?_ ?_
  · rw [hflow] at hb
    exact hb
  intro m τ hτ hcarries hrest hm hatτ
  obtain rfl : m = n := hm
  have hempty : τ.stack = [] := List.forall₂_nil_left_iff.mp hcarries
  obtain ⟨rest, htake, hrest'⟩ := followFlow_cons.mp hrest
  have ht := takes_of_takeDeps htake
  obtain rfl := ht.rest_nil
  have hX : Leaving ctx plans p P q [⟨[.tryStart], []⟩, range, handler]
      [done, failed] before after := by
    refine ⟨hq, hevents, hafter, hflow, ⟨by simp, by simp [hrange, hhandler]⟩, ?_⟩
    exact fun c hc => unkept_of_followFlow hrest' c (List.mem_cons_of_mem _ hc)
  have hev : Chunk.events ctx.graph ⟨[.tryStart], []⟩ (Chunk.leg? ⟨[.tryStart], []⟩)
        ++ (p.flowEvents ctx.graph false
          (owned (range :: handler :: [done, failed].flatMap Arm.chunks)) ++ after)
      = (.item .tryStart :: p.chunkEvents ctx.graph range range.leg? (false || range.isBarrier)
          (handler :: [done, failed].flatMap Arm.chunks))
        ++ (p.flowEvents ctx.graph false (owned (handler :: [done, failed].flatMap Arm.chunks))
          ++ after) := by
    rw [flowEvents_owned, List.append_assoc]
    rfl
  rw [hev] at hatτ ⊢
  have hafter' : Balanced Item.isTryStart Item.isHandlerStart
      (itemsOf (p.flowEvents ctx.graph false (owned ([done, failed].flatMap Arm.chunks))
        ++ after)) := by
    rw [itemsOf_append, itemsOf_owned]
    exact (balanced_of_forall (L.calm_arms _)).append hafter
  -- Whatever the range does, the values of the graph stay as they are.
  have hguard : P.Guarded k (Own ctx.graph) m ((p.chunk range).length + 1) τ := by
    have hcalm : ∀ i ∈ p.chunk range, Calm i := by
      refine L.calm_chunk fun i hi => ?_
      rw [hrange] at hi
      exact calm_of_isMark (unmarked_range hl void result done.label i hi)
    have hitems : itemsOf (p.flowEvents ctx.graph false
        (owned (handler :: [done, failed].flatMap Arm.chunks)) ++ after)
        = .handlerStart type
          :: (capture ++ [Select.keep caught, .jump .leave failed.label, .handlerEnd]
            ++ itemsOf (p.flowEvents ctx.graph false (owned ([done, failed].flatMap Arm.chunks))
              ++ after)) := by
      rw [flowEvents_owned, List.append_assoc, itemsOf_append, itemsOf_chunkEvents, hhandler]
      rfl
    have hcs : q.flow = [⟨[.tryStart], []⟩, range]
        ++ handler :: [done, failed].flatMap Arm.chunks := hflow
    rw [hcs] at hevents
    have harrival := arrival_flow hevents (by simp) (by simp [hrange])
    have hxs : itemsOf (.item .tryStart :: p.chunkEvents ctx.graph range range.leg?
        (false || range.isBarrier)
        (handler :: [done, failed].flatMap Arm.chunks)) = .tryStart :: p.chunk range := by
      rw [itemsOf_item, itemsOf_chunkEvents]
    refine Program.guarded_range hatτ hxs ?_ hitems
      ((balanced_of_forall (calm_handler hplain caught failed.label)).append hafter') ?_
    · rw [List.forall_mem_cons]
      exact ⟨rfl, fun i hi => (hcalm i hi).2⟩
    · intro ρ e hρ j hj
      have hpos : m + (Item.tryStart :: p.chunk range).length = (itemsOf before).length
          + ([⟨[.tryStart], []⟩, range].flatMap p.chunk).length := by
        simp [hn, Placement.chunk]
      rw [flowEvents_owned, List.append_assoc] at harrival
      rw [hpos, harrival]
      exact sound_handler hX L (hk.mono (Nat.le_of_lt hj)) (by simp) hfailed hplain hheight
        (hτ.agree L.valid hρ) hhandler hafter' (.of_arrival harrival)
  have hown : ∀ v, Own ctx.graph v → ¬ P.meaning.exposed v ∧ Item.tryStart ≠ .store v := fun v hv =>
    ⟨L.unexposed hv, by simp⟩
  refine Program.sound_pass hatτ rfl hguard hown ?_
  intro υ hacts hg
  have hυ := hτ.agree L.valid (hacts.agree hown)
  have hstack : υ.stack = [] := (hacts.idle rfl).trans hempty
  have hready : ∀ v ∈ range.deps, v ∉ p.kept → ∃ w, Ready p P.meaning (Own ctx.graph) υ v w := by
    intro v hv hkept
    have hfeeds : ctx.graph.Feeds operands v := hl.feeds v (by rw [hrange] at hv; exact hv)
    refine L.ready_flow hq (fun _ h => h) hυ (c := range) (by simp [hflow]) hv ?_ hkept
    exact L.dominated.feeds L.used L.valid hυ.walk
      (fun x hx => L.passed_flow hq hυ (hoperands x hx)) hfeeds
  exact sound_range hX L hk List.mem_cons_self hdone hl htt hleaves hnone hυ hstack hrange ht hready
    hatτ.next hg

include hk in
theorem sound_flow (hn : n = (itemsOf before).length)
    (hevents : P.events = before ++ (p.flowEvents ctx.graph true (owned q.flow) ++ after)) :
    P.Sound k n (p.flowEvents ctx.graph true (owned q.flow) ++ after) σ := by
  obtain ⟨s', t', hflowed, hstart, htt, hapart⟩ := L.finished.flow_apart hq
  have hmem := L.finished.mem_blocks hq
  have hsize : ctx.graph.values.size ≤ s'.nextValue := hstart.nextValue
  obtain ⟨new, hformed, -⟩ := formed_flow L.valid L.finished L.shaped L.placed hmem hflowed htt
  obtain ⟨cs, hcs⟩ : ∃ cs, q.flow = cs := ⟨_, rfl⟩
  rw [hcs] at hflowed
  cases hflowed with
  | ret hf => exact sound_ret L hq hbody hcar hvs hfollow hafter hat hf hcs
  | stop => exact sound_stop L hq hbody hcar hvs hfollow hafter hat hcs
  | jump hsend => exact sound_goto L hk hq hbody hcar hvs hfollow hafter hat hsend hcs
  | @test arms v cases fallback code direct _ hswitch hgrow hw htests hdirect harms =>
    refine sound_test L hk hq hbody hcar hvs hfollow hafter hat hevents hcs ?_ hsize hw
      (htests P.meaning.shape) hdirect harms
    rw [hswitch]
    exact List.mem_append_left _ List.mem_cons_self
  | @protect risky success failure result caught chunk type capture done failed s₁ s₂ s₃ s₄ _ hprot
      hr hc hl harms hlow hv hh ho =>
    obtain ⟨hdone, hfailed, hexception⟩ := ho
    obtain ⟨h₄, hplain, hheight⟩ := capture_cases hh
    have hcapture : height P.meaning.shape capture 1 = some 1 :=
      hheight _ (L.shaped.mono htt) fun hsome => capture_left
        (L.used.captured q.block hmem risky success failure hprot (hexception hsome))
    -- The address of an outcome is not taken, as the code in the range has its own scratch values.
    have hscratch : ∀ v, s'.nextValue ≤ v.id → v.id < s₂.nextValue →
        ¬ Own ctx.graph v ∧ ¬ P.meaning.exposed v := by
      intro v hlow' hhigh
      refine ⟨fun hown => Nat.not_le_of_lt hown (Nat.le_trans hsize hlow'), fun he => ?_⟩
      obtain ⟨r, hr', c, hc', haddress⟩ := L.exposed_source he
      have h₂ := hl.nextValue
      have h₃ := (hlow.grows.trans h₄).nextValue
      have hin := hapart v hlow' (by omega) r hr' c hc' haddress
      rw [hcs] at hin
      rcases List.mem_append.mp hin with hin | hin
      · have := (hlow.wrote.registers _ (address_of_guarded hplain hin haddress) v rfl).after
        omega
      · exact address_not_mem_arms hin haddress
    refine sound_protect L hk hq hbody hcar hvs hfollow hafter hat hn hevents hcs rfl rfl
      hformed.ranges hlow (h₄.trans htt)
      (fun x hx => L.declared risky (mem_instrs_of_protected hmem (by rw [hprot]; rfl)) x hx) ?_
      ⟨⟨_, _, harms.sends done (by simp)⟩, ?_, ?_⟩ ⟨⟨_, _, harms.sends failed (by simp)⟩, ?_, ?_⟩
      ?_ hplain hcapture
    · intro v hv
      rw [hprot]
      exact List.mem_append_left _ hv
    · intro v hv
      rw [hdone] at hv
      rcases mem_boundArgs hv with hv | hv | hv
      · exact .inl (mem_reads_of_values (by simp [hprot, Flow.branches]) hv)
      · exact .inr hv
      · cases hv
    · intro v hv
      have hfresh := hr.2 v hv
      exact hscratch v hfresh.after (Nat.lt_of_lt_of_le hfresh.before hc.1.nextValue)
    · intro v hv
      rw [hfailed] at hv
      rcases mem_boundArgs hv with hv | hv | hv
      · exact .inl (mem_reads_of_values (by simp [hprot, Flow.branches]) hv)
      · cases hv
      · exact .inr hv
    · intro v hv
      have hfresh := hc.2 v hv
      exact hscratch v (Nat.le_trans hr.1.nextValue hfresh.after) hfresh.before
    · intro hvoid
      cases result with
      | none => rfl
      | some v =>
        rw [hv rfl] at hvoid
        cases hvoid

end Flows

end Execution

end StackCode
