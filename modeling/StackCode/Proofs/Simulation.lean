import StackCode.Proofs.Compiled
import StackCode.Proofs.Leaving

namespace StackCode

open Machine (Opcode)

namespace Execution

variable {W : Type}

section Parameters

variable {ctx : Context} {policy : Policy} {entry : Block} {symbols : Symbols} {plans : List Plan}
  {t : Selection} {p : Placement} {P : Program W} {σ τ : State W} {k n : Nat} {es : List Event}
  {b : Block} {before : List Block} {v : Value}

theorem Laid.parameter (L : Laid ctx policy entry symbols plans t p P)
    (hb : b ∈ ctx.graph.blocks.toList) (hv : v ∈ b.parameters.map Parameter.value) :
    v ∉ p.kept ∧ p.repeated.lookup v = none := by
  have hnone := L.valid.instr?_parameter hb hv
  constructor
  · intro hk
    rw [L.placed] at hk
    obtain ⟨q, hq, hc⟩ := candidate_of_kept hk
    obtain ⟨⟨w, c⟩, he, rfl⟩ := List.mem_map.mp (List.mem_of_mem_filter hc)
    obtain ⟨-, s', t', ⟨-, i, hi, -⟩, -⟩ := L.finished.instr hq (List.mem_of_mem_filter he)
    rw [hnone] at hi
    cases hi
  · cases hl : p.repeated.lookup v with
    | none => rfl
    | some code =>
      obtain ⟨-, q, -, c, i, -, -, -, hi, -⟩ := repeated_cases L.placed hl
      rw [hnone] at hi
      cases hi

theorem Laid.own_parameter (L : Laid ctx policy entry symbols plans t p P)
    (hb : b ∈ ctx.graph.blocks.toList) (hv : v ∈ b.parameters.map Parameter.value) :
    Own ctx.graph v :=
  own_of_defined L.valid (mem_defined hb (List.mem_append_left _ hv))

theorem sound_stores {vs : List Value} {f : Value → Item} (hf : ∀ v ∈ vs, Puts p v (f v))
    (hunexposed : ∀ v ∈ vs, ¬ P.meaning.exposed v) (hnodup : vs.Nodup) (hcar : σ.Carries vs)
    (hat : P.At n ((vs.reverse.map f).map .item ++ es)) (hquiet : P.Quiet n vs.length)
    (hnext : ∀ τ, τ.stack = [] → τ.current = σ.current →
      (∀ u, ¬ P.meaning.exposed u → u ∉ vs → τ.cells u = σ.cells u) →
      (∀ v ∈ vs, 0 < p.usage.count v → σ.current v = some (τ.cells v)) →
      P.Sound k (n + vs.length) es τ) :
    P.Sound k n ((vs.reverse.map f).map .item ++ es) σ := by
  -- The last value lies on top.
  induction vs using List.reverseRecOn generalizing n σ with
  | nil => exact hnext σ (List.forall₂_nil_left_iff.mp hcar) rfl (fun _ _ _ => rfl) (by simp)
  | append_singleton vs v ih =>
    obtain ⟨ws, xs, hstack, hws, hxs⟩ := forall₂_append_left hcar
    obtain ⟨w, rest, hw, hnil, rfl⟩ := List.forall₂_cons_left_iff.mp hxs
    obtain rfl := List.forall₂_nil_left_iff.mp hnil
    rw [List.nodup_append] at hnodup
    have hnew : v ∉ vs := fun hv => hnodup.2.2 v hv v (by simp) rfl
    simp only [List.reverse_append, List.reverse_singleton, List.map_cons, List.cons_append]
      at hat ⊢
    rw [List.length_append, List.length_singleton] at hquiet hnext
    refine sound_put (hf v (by simp)) hstack hat (hquiet.part (Nat.le_refl n) (by omega)) ?_
    intro τ hτ hcurrent hcells hself
    refine ih (fun u hu => hf u (by simp [hu])) (fun u hu => hunexposed u (by simp [hu])) hnodup.1
      ?_ hat.next (hquiet.part (by omega) (by omega)) ?_
    · rw [State.Carries, hτ, hcurrent]
      exact hws
    · intro υ hυ hcurrent' hcells' hself'
      rw [hcurrent] at hcurrent' hself'
      have := hnext υ hυ hcurrent' ?_ ?_
      · rwa [Nat.add_comm vs.length, ← Nat.add_assoc] at this
      · intro u hu hne
        simp only [List.mem_append, List.mem_singleton, not_or] at hne
        rw [hcells' u hu hne.1, hcells u hu hne.2]
      · intro u hu hc
        rcases List.mem_append.mp hu with hu | hu
        · exact hself' u hu hc
        · obtain rfl := List.mem_singleton.mp hu
          rw [hcells' u (hunexposed u (by simp)) hnew, hself hc, hw]

theorem puts_arrival (g : Graph) (p : Placement) (b : Block) (v : Value) :
    Puts p v (if b.label = g.entry then .store v else p.settle v) := by
  split
  · exact .inl rfl
  · exact puts_settle p v

theorem Arrived.body (h : Arrived ctx.graph p P.meaning before b σ)
    (L : Laid ctx policy entry symbols plans t p P)
    (hcurrent : τ.current = σ.current)
    (hcells : ∀ u, ¬ P.meaning.exposed u → u ∉ b.parameters.map Parameter.value →
      τ.cells u = σ.cells u)
    (hparameters : ∀ v ∈ b.parameters.map Parameter.value,
      (σ.current v).isSome = true ∧ (0 < p.usage.count v → σ.current v = some (τ.cells v))) :
    Body ctx.graph p P.meaning before b 0 τ := by
  refine ⟨h.walk, ?_, ?_⟩
  · intro v hv hd ht
    rw [hcurrent]
    simp only [Graph.passed, List.take_zero, List.append_nil, List.mem_append] at hv
    rcases hv with hv | hv
    · exact h.known v hv hd ht
    · exact (hparameters v hv).1
  · intro v hv
    by_cases hp : v ∈ b.parameters.map Parameter.value
    · obtain ⟨-, hl⟩ := L.parameter h.walk.mem hp
      intro _ hc w hw
      rw [Source, hl]
      have := (hparameters v hp).2 (hc hl)
      rw [← hcurrent, hw] at this
      exact (Option.some.inj this).symm
    · exact (h.agrees v hv hp).agree (hcells v (L.unexposed hv) hp) (by rw [hcurrent])

theorem sound_arrivals (L : Laid ctx policy entry symbols plans t p P)
    (ha : Arrived ctx.graph p P.meaning before b σ)
    (hat : P.At n ((p.arrivals ctx.graph b).map .item ++ es))
    (hquiet : P.Quiet n (p.arrivals ctx.graph b).length)
    (hnext : ∀ τ, Body ctx.graph p P.meaning before b 0 τ → τ.Carries [] →
      P.Sound k (n + (p.arrivals ctx.graph b).length) es τ) :
    P.Sound k n ((p.arrivals ctx.graph b).map .item ++ es) σ := by
  have hparameters := ha.parameters
  have hcond : (decide (b.label = ctx.graph.entry) &&
      (ctx.graph.predecessors ctx.graph.entry).isEmpty)
      = true ↔ b.label = ctx.graph.entry
        ∧ (ctx.graph.predecessors ctx.graph.entry).isEmpty = true := by simp
  rw [Placement.arrivals] at hat hquiet hnext ⊢
  by_cases hentry : b.label = ctx.graph.entry
      ∧ (ctx.graph.predecessors ctx.graph.entry).isEmpty = true
  · rw [if_pos hentry] at hparameters
    rw [if_pos (hcond.mpr hentry)] at hat hquiet hnext ⊢
    refine hnext σ (ha.body L rfl (fun _ _ _ => rfl) ?_) (State.carries_nil hparameters.1)
    intro v hv
    rw [hparameters.2 v hv]
    exact ⟨rfl, fun _ => rfl⟩
  · rw [if_neg hentry] at hparameters
    rw [if_neg (fun h => hentry (hcond.mp h))] at hat hquiet hnext ⊢
    have hmap : b.parameters.reverse.map (fun q => if b.label = ctx.graph.entry
        then Item.store q.value else p.settle q.value)
        = (b.parameters.map Parameter.value).reverse.map fun v => if b.label = ctx.graph.entry
          then Item.store v else p.settle v := by
      rw [← List.map_reverse, List.map_map]
      rfl
    rw [hmap] at hat hquiet hnext ⊢
    rw [List.length_map, List.length_reverse] at hquiet hnext
    have hnodup := (List.nodup_append.mp (L.valid.nodup_definitions ha.walk.mem)).1
    refine sound_stores (fun v _ => puts_arrival ctx.graph p b v)
      (fun v hv => L.unexposed (L.own_parameter ha.walk.mem hv)) hnodup hparameters hat hquiet ?_
    intro τ hs hcurrent hcells hstored
    refine hnext τ (ha.body L hcurrent hcells ?_) (State.carries_nil hs)
    intro v hv
    obtain ⟨w, -, hw⟩ := forall_of_forall₂ hparameters hv
    exact ⟨by rw [hw]; rfl, hstored v hv⟩

end Parameters

section Blocks

variable {ctx : Context} {policy : Policy} {entry : Block} {symbols : Symbols} {plans : List Plan}
  {t : Selection} {p : Placement} {P : Program W} {σ τ : State W} {k n : Nat} {q : Plan}
  {before after : List Event} {path : List Block}

theorem Laid.balanced_blocks (L : Laid ctx policy entry symbols plans t p P) {qs : List Plan}
    (h : ∀ q ∈ qs, q ∈ plans) : Balanced Item.isTryStart Item.isHandlerStart
      (itemsOf (qs.flatMap (p.blockEvents ctx.graph))) := by
  rw [itemsOf_plans]
  induction qs with
  | nil => exact .nil
  | cons q qs ih =>
    rw [List.forall_mem_cons] at h
    obtain ⟨-, s', t', hplan, -, htt⟩ := L.finished.plan h.1
    obtain ⟨new, hformed, -⟩ := formed_block L.valid L.finished L.shaped L.placed h.1 hplan htt
    exact .append hformed.ranges (ih h.2)

theorem Laid.calm_head (L : Laid ctx policy entry symbols plans t p P) (hq : q ∈ plans) :
    ∀ i ∈ .label q.block.label :: p.arrivals ctx.graph q.block
      ++ q.instrs.flatMap (p.instr ctx.graph), Calm i := by
  intro i hi
  rcases List.mem_append.mp hi with hi | hi
  · rcases List.mem_cons.mp hi with rfl | hi
    · exact ⟨rfl, rfl⟩
    · rw [Placement.arrivals] at hi
      split at hi
      · cases hi
      · obtain ⟨x, -, rfl⟩ := List.mem_map.mp hi
        rcases puts_arrival ctx.graph p q.block x.value with h | ⟨h, -⟩
        · rw [h]
          exact ⟨rfl, rfl⟩
        · rw [h]
          exact ⟨rfl, rfl⟩
  · obtain ⟨e, he, hi⟩ := List.mem_flatMap.mp hi
    have hunmarked : Unmarked (t.Knows ctx.graph) (fun _ => True) (p.instr ctx.graph e) :=
      unmarked_instr L.valid L.finished L.shaped L.placed hq he
    exact calm_of_isMark (hunmarked i hi).1

theorem sound_block (L : Laid ctx policy entry symbols plans t p P)
    (hk : Enters ctx.graph p P plans k) (hq : q ∈ plans)
    (hevents : P.events = before ++ (p.blockEvents ctx.graph q ++ after))
    (hafter : Balanced Item.isTryStart Item.isHandlerStart (itemsOf after))
    (ha : Arrived ctx.graph p P.meaning path q.block σ) :
    P.Sound k (itemsOf before).length (p.blockEvents ctx.graph q ++ after) σ := by
  have hkept : p.kept = keptValues ctx.graph policy p.usage plans := by
    rw [L.placed]
    rfl
  obtain ⟨out, hout, hfollow⟩ := follow_keptValues (g := ctx.graph) hq
  rw [← hkept] at hout hfollow
  obtain ⟨s', t', hflowed, -, htt⟩ := L.finished.flow hq
  obtain ⟨new, hformed, -⟩ := formed_flow L.valid L.finished L.shaped L.placed
    (L.finished.mem_blocks hq) hflowed htt
  have hat := Program.At.split hevents
  rw [Placement.blockEvents, withLegs_eq hflowed.legs, List.append_assoc] at hevents hat ⊢
  have hitems : itemsOf (.item (.label q.block.label) :: (p.arrivals ctx.graph q.block).map .item
      ++ p.instrsEvents ctx.graph q.flow q.instrs)
      = .label q.block.label :: p.arrivals ctx.graph q.block
        ++ q.instrs.flatMap (p.instr ctx.graph) := by
    rw [itemsOf_append, itemsOf_item, itemsOf_map, itemsOf_instrsEvents]
  -- Up to the flow no range is open.
  have hquiet : P.Quiet (itemsOf before).length (1 + (p.arrivals ctx.graph q.block).length
      + (q.instrs.flatMap (p.instr ctx.graph)).length) := by
    have := Program.quiet_calm hat (by rw [hitems]; exact L.calm_head hq) (by
      rw [itemsOf_append, itemsOf_owned]
      exact hformed.ranges.append hafter)
    rwa [hitems, List.length_append, List.length_cons, Nat.add_comm _ 1] at this
  have hsplit : (.item (.label q.block.label) :: (p.arrivals ctx.graph q.block).map .item
      ++ p.instrsEvents ctx.graph q.flow q.instrs)
        ++ (p.flowEvents ctx.graph true (owned q.flow) ++ after)
      = .item (.label q.block.label) :: ((p.arrivals ctx.graph q.block).map .item
        ++ (p.instrsEvents ctx.graph q.flow q.instrs
          ++ (p.flowEvents ctx.graph true (owned q.flow) ++ after))) := by
    rw [List.append_assoc]
    rfl
  rw [← List.append_assoc] at hevents
  rw [hsplit] at hat ⊢
  have hfirst : P.Quiet (itemsOf before).length 1 := hquiet.part (Nat.le_refl _) (by omega)
  refine Program.sound_pass hat rfl (hfirst.guarded (fun _ => False) σ) (fun _ h => h.elim) ?_
  intro τ hacts _
  refine sound_arrivals L (ha.congr (hacts.idle rfl) hacts.cells hacts.current) hat.next
    (hquiet.part (by omega) (by omega)) ?_
  intro υ hυ hnone
  have hatυ := hat.next.items
  have hstart : q.instrs = [] ++ q.instrs := rfl
  refine sound_instrs L hq hstart hυ hnone (by simp) hout hfollow hatυ ?_ ?_
  · rw [itemsOf_instrsEvents]
    exact hquiet.part (by omega) (by omega)
  intro ρ hρ hcarries
  have hlength : q.instrs.length = q.block.instructions.length := by
    rw [← L.finished.values hq, List.length_map]
  rw [hlength] at hρ
  refine sound_flow L hk hq hρ hcarries ((followInstrs_kept _ (by simp)).1 out hout) hfollow hafter
    hatυ.append ?_ hevents
  rw [itemsOf_append, hitems, itemsOf_instrsEvents]
  simp only [List.length_append, List.length_cons]
  omega

end Blocks

section Entering

variable {ctx : Context} {policy : Policy} {entry : Block} {symbols : Symbols} {plans : List Plan}
  {t : Selection} {p : Placement} {P : Program W} {σ τ : State W} {k n : Nat} {q : Plan}
  {path : List Block}

theorem codes_of_flowed {calls : Opcode → Method → Prop} {b : Block} {s' t' : Selection}
    {cs : List Chunk} (h : Flowed ctx calls b s' cs t') : cs ≠ [] ∧ ∀ c ∈ cs, c.code ≠ [] := by
  cases h with
  | ret => simp
  | stop => simp
  | jump => simp [Chunk.jump]
  | @test arms v cases fallback code direct _ hf hg hw ht hd ha =>
    refine ⟨by simp, ?_⟩
    rw [List.forall_mem_cons]
    refine ⟨?_, ?_⟩
    · rintro rfl
      cases ht fun _ => none
    · intro c hc
      rcases List.mem_append.mp hc with hc | hc
      · rcases hd with ⟨rfl, -⟩ | ⟨target, args, rfl, -⟩
        · cases hc
        · obtain rfl := List.mem_singleton.mp hc
          simp [Chunk.jump]
      · exact codes_of_arms hc
  | protect =>
    refine ⟨by simp [guardedChunks], ?_⟩
    intro c hc
    rcases List.mem_append.mp hc with hc | hc
    · simp only [guardedChunks, List.mem_cons, List.not_mem_nil, or_false] at hc
      rcases hc with rfl | rfl | rfl <;> simp
    · exact codes_of_arms hc

theorem Laid.settled (L : Laid ctx policy entry symbols plans t p P) {qs : List Plan}
    (h : ∀ q ∈ qs, q ∈ plans) : Settled ((ctx.graph.preheader entry).map .item
      ++ qs.flatMap (p.blockEvents ctx.graph)) := by
  rcases List.eq_nil_or_concat qs with rfl | ⟨qs, q, rfl⟩
  · rw [List.flatMap_nil, List.append_nil]
    rcases List.eq_nil_or_concat (ctx.graph.preheader entry) with hp | ⟨items, i, hp⟩
    · exact .inl (by rw [hp]; rfl)
    · exact .inr ⟨items.map .item, i, by simp [hp]⟩
  · obtain ⟨s', t', hflowed, -⟩ := L.finished.flow (h q (by simp))
    obtain ⟨hne, hcodes⟩ := codes_of_flowed hflowed
    obtain ⟨E, hE, -, hsettled⟩ := flowEvents_append (p := p) (g := ctx.graph) hne [] true
    have hnil : p.flowEvents ctx.graph false (owned []) = [] := rfl
    rw [List.append_nil, hnil, List.append_nil] at hE
    rw [List.concat_eq_append, List.flatMap_append, List.flatMap_singleton, Placement.blockEvents,
      withLegs_eq hflowed.legs, hE, ← List.append_assoc, ← List.append_assoc]
    exact settled_append (hsettled hcodes) _

theorem sound_entering (L : Laid ctx policy entry symbols plans t p P)
    (hk : Enters ctx.graph p P plans k) (hq : q ∈ plans)
    (hn : P.items[n]? = some (.label q.block.label))
    (ha : Arrived ctx.graph p P.meaning path q.block σ) :
    P.Sound k n (arrival P.events n) σ := by
  obtain ⟨xs, ys, hplans⟩ := List.append_of_mem hq
  have hevents : P.events = ((ctx.graph.preheader entry).map .item
      ++ xs.flatMap (p.blockEvents ctx.graph))
      ++ (p.blockEvents ctx.graph q ++ ys.flatMap (p.blockEvents ctx.graph)) := by
    rw [L.events, Placement.events, hplans]
    simp
  obtain rfl := L.label_unique hn (Program.At.split hevents).get
  have hbefore : ∀ r ∈ xs, r ∈ plans := fun r hr => by simp [hplans, hr]
  have hafter : ∀ r ∈ ys, r ∈ plans := fun r hr => by simp [hplans, hr]
  have harrival := arrival_settled (L.settled hbefore)
    (p.blockEvents ctx.graph q ++ ys.flatMap (p.blockEvents ctx.graph))
  rw [← hevents] at harrival
  rw [harrival]
  exact sound_block L hk hq hevents (L.balanced_blocks hafter) ha

theorem Laid.enters (L : Laid ctx policy entry symbols plans t p P) (k : Nat) :
    Enters ctx.graph p P plans k := by
  induction k with
  | zero =>
    intro q hq n path σ hn ha j hj
    cases hj
  | succ k ih =>
    -- With `j` steps left, other blocks are entered with fewer.
    intro q hq n path σ hn ha j hj
    exact sound_entering L (ih.mono (Nat.le_of_lt_succ hj)) hq hn ha

theorem State.Starts.arrived (hs : σ.Starts entry) (L : Laid ctx policy entry symbols plans t p P)
    (hτ : Agree (Own ctx.graph) σ τ)
    (hstack : if (ctx.graph.predecessors ctx.graph.entry).isEmpty = true then τ.stack = []
      else τ.Carries (entry.parameters.map Parameter.value)) :
    Arrived ctx.graph p P.meaning [] entry τ := by
  have hwalk : ctx.graph.Walk [] entry := .start L.finished.start
  refine ⟨hwalk, by simp, ?_, ?_⟩
  · intro v hv hn _ _ w hw
    rw [(hτ v hv).2, hs.current, if_neg hn] at hw
    cases hw
  · rw [L.valid.entry_label L.finished.start]
    by_cases he : (ctx.graph.predecessors ctx.graph.entry).isEmpty = true
    · rw [if_pos he] at hstack
      rw [if_pos ⟨rfl, he⟩]
      refine ⟨hstack, ?_⟩
      intro v hv
      have hown := L.own_parameter hwalk.mem hv
      rw [(hτ v hown).2, (hτ v hown).1, hs.current, if_pos hv]
    · rw [if_neg he] at hstack
      rwa [if_neg (fun h => he h.2)]

theorem Laid.preheader (L : Laid ctx policy entry symbols plans t p P)
    (he : ¬ (ctx.graph.predecessors ctx.graph.entry).isEmpty = true) :
    ctx.graph.preheader entry = (entry.parameters.map Parameter.value).flatMap p.fetch := by
  have hwalk : ctx.graph.Walk [] entry := .start L.finished.start
  rw [Graph.preheader, if_neg he, List.flatMap_map, List.map_eq_flatMap]
  refine List.flatMap_congr fun x hx => ?_
  obtain ⟨hk, hl⟩ := L.parameter hwalk.mem (List.mem_map_of_mem hx)
  rw [Placement.fetch, if_neg (by simpa using hk), hl]

theorem State.Starts.ready (hs : σ.Starts entry) (L : Laid ctx policy entry symbols plans t p P)
    {v : Value} (hv : v ∈ entry.parameters.map Parameter.value) :
    ∃ w, Ready p P.meaning (Own ctx.graph) σ v w := by
  have hwalk : ctx.graph.Walk [] entry := .start L.finished.start
  obtain ⟨hk, hl⟩ := L.parameter hwalk.mem hv
  refine ⟨σ.cells v, hk, L.own_parameter hwalk.mem hv, by rw [hs.current, if_pos hv], ?_⟩
  rw [Source, hl]

theorem Laid.sound (L : Laid ctx policy entry symbols plans t p P) (hs : σ.Starts entry) (k : Nat) :
    P.Sound k 0 (arrival P.events 0) σ := by
  obtain ⟨q, qs, hplans, hentry⟩ := L.finished.head
  have hq : q ∈ plans := by simp [hplans]
  have hevents := L.events
  rw [Placement.events] at hevents
  have hlabel : P.items[(ctx.graph.preheader entry).length]? = some (.label q.block.label) := by
    have hat := Program.At.split hevents
    rw [itemsOf_map, hplans, List.flatMap_cons] at hat
    exact hat.get
  by_cases he : (ctx.graph.predecessors ctx.graph.entry).isEmpty = true
  · rw [Graph.preheader, if_pos he] at hlabel
    have harrived := hs.arrived L (.refl _ σ) (by rw [if_pos he]; exact hs.stack)
    rw [← hentry] at harrived
    exact sound_entering L (L.enters k) hq hlabel harrived
  · have hfetch := L.preheader he
    obtain ⟨ws, hws⟩ := exists_forall₂ fun v hv => hs.ready L hv
    have harrival := arrival_settled (L.settled (by simp : ∀ q ∈ ([] : List Plan), q ∈ plans))
      (plans.flatMap (p.blockEvents ctx.graph))
    rw [List.flatMap_nil, List.append_nil, ← hevents, itemsOf_map] at harrival
    have hat : P.At 0 (((entry.parameters.map Parameter.value).flatMap p.fetch).map .item
        ++ plans.flatMap (p.blockEvents ctx.graph)) := by
      rw [← hfetch, ← hevents]
      exact .of_arrival (by rw [arrival])
    have hquiet : P.Quiet 0 ((entry.parameters.map Parameter.value).flatMap p.fetch).length := by
      have := Program.quiet_calm hat (fun i hi => ?_) (L.balanced_blocks fun _ h => h)
      · rwa [itemsOf_map] at this
      · rw [itemsOf_map, ← hfetch, Graph.preheader, if_neg he] at hi
        obtain ⟨x, -, rfl⟩ := List.mem_map.mp hi
        exact ⟨rfl, rfl⟩
    rw [arrival, hevents, hfetch]
    refine sound_fetches L (fun _ => L.unexposed) hws hat (hquiet.guarded _ σ) ?_
    intro τ hτ hstack
    have harrived := hs.arrived L hτ (by
      rw [if_neg he, State.Carries, hstack, hs.stack, List.nil_append]
      exact hws.imp fun v w hw => (hw.agree hτ).current)
    rw [← hentry] at harrived
    have := sound_entering L (L.enters k) hq hlabel harrived
    rwa [harrival, hfetch, ← Nat.zero_add (List.length _)] at this

end Entering

end Execution

open Execution in
/-- Along every path through the stream, however long, chunks get their operands. The words may be
of any kind, and so may be what the machine computes with them. All edges of the stream can be
taken. -/
def Schedule.Delivers (ctx : Context) (policy : Policy) (symbols : Symbols) (s : Schedule)
    (t : Selection) : Prop :=
  ∃ entry plans, ctx.graph.block? ctx.graph.entry = some entry
    ∧ (Select.plans ctx entry).run.run (.start ctx.graph symbols) = (.ok plans, t)
    ∧ let p := Placement.ofPlans ctx.graph policy plans
      let events := p.events ctx.graph entry plans
      itemsOf events = s.items
        ∧ ∀ (W : Type) (literal : Machine.Instr → List W → W) (σ₀ : State W), σ₀.Starts entry →
          let m : Meaning W := ⟨t.symbols.shape, literal, fun v => .address v ∈ s.items⟩
          (∀ n k σ, Follows s.items n k ∨ Throws s.items n k → ∃ τ, Step m events (n, σ) (k, τ))
            ∧ ∀ n σ, Relation.ReflTransGen (Step m events) (0, σ₀) (n, σ) →
              ∀ before c alone later after,
                leading (arrival events n) = before ++ .chunk c alone later :: after →
                  Delivered p c alone later (σ.noted m before)

theorem operands_delivered {ctx : Context} {policy : Policy} {symbols : Symbols}
    (hb : ctx.graph.Built) (hf : ctx.graph.fault? = none) (hdom : ctx.graph.Dominated)
    (hd : ctx.graph.Declared ctx.env) (hu : ctx.graph.UsesValues ctx.env) :
    Select.Holds ctx.graph.Wide (Select.schedule ctx policy) (.start ctx.graph symbols)
      (Schedule.Delivers ctx policy symbols) := by
  have hg := hb.valid hf
  have hcalls : ctx.graph.Calls ctx.env fun _ _ => True := ⟨fun _ _ _ _ => trivial, trivial⟩
  obtain ⟨entry, he⟩ := hg.entry
  unfold Select.schedule
  rw [he]
  refine (Select.holds_plans hg hcalls he (Nat.le_refl _)).bind ?_
  rintro plans t ⟨hchain, hrun⟩
  have hfinished : Finished ctx (fun _ _ => True) entry symbols plans t := ⟨he, hchain⟩
  have hp : Placement.ofPlans ctx.graph policy plans = .ofPlans ctx.graph policy plans := rfl
  obtain ⟨labels, hformed, hnodup, -⟩ := formed_stream hg hfinished t.symbols.shaped hp
  obtain ⟨s, hok, hitems, -⟩ := ofPlans_wellFormed rfl hformed hnodup
  have hget : Select.Holds ctx.graph.Wide get t fun u t' => u = t ∧ t' = t := ⟨rfl, rfl⟩
  refine hget.bind ?_
  rintro _ _ ⟨rfl, rfl⟩
  rw [hok]
  have hevents : itemsOf ((Placement.ofPlans ctx.graph policy plans).events ctx.graph entry plans)
      = s.items := by rw [itemsOf_events, hitems]
  refine ⟨entry, plans, he, hrun, hevents, ?_⟩
  intro W literal σ₀ hstart m
  refine ⟨?_, ?_⟩
  · intro n k σ hedge
    have hword : Nonempty W := ⟨σ₀.cells ⟨0⟩⟩
    rw [← hevents] at hedge
    exact Execution.exists_step m hedge σ
  intro n σ hreach before c alone later after hnotes
  let P : Execution.Program W := ⟨m, (Placement.ofPlans ctx.graph policy plans).events ctx.graph
    entry plans, Execution.Delivered (.ofPlans ctx.graph policy plans)⟩
  have L : Execution.Laid ctx policy entry symbols plans _ _ P :=
    ⟨hg, hdom, hd, hu, hfinished, Symbols.shaped _, rfl, rfl,
      fun v hv => by rw [Execution.Program.items, hevents]; exact hv, rfl⟩
  exact Execution.Program.good_of_reached (L.sound hstart) hreach before _ after hnotes

def Graph.Near (g : Graph) (b : Block) (k : Nat) (v : Value) : Prop :=
  v ∈ b.parameters.map Parameter.value ++ b.instructions.take k
    ∨ b.label ≠ g.entry ∧ ∀ c ∈ g.blocks.toList, ∀ br ∈ c.flow.branches, br.target = b.label →
      v ∈ c.definitions

instance (g : Graph) (b : Block) (k : Nat) (v : Value) : Decidable (g.Near b k v) :=
  inferInstanceAs (Decidable (_ ∨ _))

theorem Graph.Near.passed {g : Graph} {before : List Block} {b : Block} {k : Nat} {v : Value}
    (h : g.Near b k v) (hg : g.Valid) (hw : g.Walk before b) : v ∈ Graph.passed before b k := by
  rcases h with h | ⟨hne, h⟩
  · exact List.mem_append_right _ h
  · cases hw with
    | start he => exact absurd (hg.entry_label he) hne
    | @step before a _ br hw hbr hc =>
      have hlabel : br.target = b.label := (hg.coherent br.target.id b hc).label.symm
      rw [Graph.passed, List.flatMap_append, List.flatMap_singleton]
      exact List.mem_append_left _ (List.mem_append_right _ (h a hw.mem br hbr hlabel))

theorem retry_dominated : retry.Dominated := by
  have hg : retry.Valid := retry_built.valid (by decide +kernel)
  have hinstrs : ∀ b ∈ retry.blocks.toList, ∀ e ∈ b.instructions.zipIdx,
      ∀ i ∈ (retry.instr? e.1).toList, ∀ w ∈ i.operands, retry.Near b e.2 w := by decide +kernel
  have hflows : ∀ b ∈ retry.blocks.toList, ∀ w ∈ b.flow.reads,
      retry.Near b b.instructions.length w := by decide +kernel
  refine ⟨?_, fun before b hw w hr => (hflows b hw.mem w hr).passed hg hw⟩
  intro before b hw k v i hv hi w hr
  exact (hinstrs b hw.mem (v, k) (List.mem_zipIdx_iff_getElem?.mpr hv) i (by simp [hi]) w hr).passed
    hg hw

theorem retry_usesValues : retry.UsesValues {} := by
  have hinstrs : ∀ i ∈ retry.instrs, ∀ v ∈ i.operands, retry.type? v ≠ some .void := by
    decide +kernel
  have hflows : ∀ b ∈ retry.blocks.toList, ∀ v ∈ b.flow.reads, retry.type? v ≠ some .void := by
    decide +kernel
  exact ⟨hinstrs, hflows, fun _ _ _ _ _ _ _ => rfl⟩

theorem retry_delivered : ∃ s t,
    (Select.schedule ⟨retry, {}⟩ .default).run.run (.start retry {}) = (.ok s, t)
      ∧ s.Delivers ⟨retry, {}⟩ .default {} t := by
  have hf : retry.fault? = none := by decide +kernel
  have hok : ((Select.schedule ⟨retry, {}⟩ .default).run.run (.start retry {})).1.isOk = true := by
    decide +kernel
  have hb := retry_built
  have hdom := retry_dominated
  have hd := retry_declared
  have hu := retry_usesValues
  -- Nothing below looks into the graph.
  generalize retry = g at *
  exact (@operands_delivered ⟨g, {}⟩ .default {} hb hf hdom hd hu).exists_ok hok

end StackCode
