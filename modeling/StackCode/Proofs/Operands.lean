import StackCode.Proofs.Dominance
import StackCode.Proofs.Reads
import StackCode.Proofs.Safety
import StackCode.Proofs.Scratch

namespace StackCode

open Machine (Opcode)

def Chunk.isHandler (c : Chunk) : Bool :=
  match c.code with
  | .handlerStart _ :: _ => true
  | _ => false

def Symbols.shape (symbols : Symbols) (i : Machine.Instr) : Option (Nat × Nat) :=
  match i.operand with
  | .method r _ _ => (symbols.method? r).map fun m => (m.taken i.opcode, m.left i.opcode)
  | _ => none

theorem Symbols.shaped (symbols : Symbols) : Shaped (fun _ _ => True) symbols.shape symbols := by
  intro o _ r m hr _
  simp [shape, hr]

namespace Execution

variable {W : Type}

def State.Carries (σ : State W) (vs : List Value) : Prop :=
  List.Forall₂ (fun v w => σ.current v = some w) vs σ.stack

theorem State.carries_nil {σ : State W} (h : σ.stack = []) : σ.Carries [] := by
  rw [Carries, h]
  exact .nil

/-- The own code of a chunk starts as it should. On top lie the current values of its dependencies,
and below them only kept results that a later chunk of the block reads. A handler starts with the
exception alone. -/
def Delivered (p : Placement) (c : Chunk) (alone : Bool) (later : List Chunk)
    (σ : State W) : Prop :=
  if c.isHandler then ∃ e, σ.thrown = some e ∧ σ.stack = [e]
  else ∃ below, σ.Carries (below ++ c.deps)
    ∧ (∀ v ∈ below, v ∈ p.kept ∧ ∃ d ∈ later, v ∈ d.deps) ∧ (alone = true → below = [])

/-- Executions start with the arguments of the method in the cells of the parameters. -/
structure State.Starts (σ : State W) (entry : Block) : Prop where
  stack : σ.stack = []
  current : ∀ v, σ.current v =
    if v ∈ entry.parameters.map Parameter.value then some (σ.cells v) else none

structure Laid (ctx : Context) (policy : Policy) (entry : Block) (symbols : Symbols)
    (plans : List Plan) (t : Selection) (p : Placement) (P : Program W) : Prop where
  valid : ctx.graph.Valid
  dominated : ctx.graph.Dominated
  declared : ctx.graph.Declared ctx.env
  used : ctx.graph.UsesValues ctx.env
  finished : Finished ctx (fun _ _ => True) entry symbols plans t
  shaped : Shaped (fun _ _ => True) P.meaning.shape t.symbols
  placed : p = .ofPlans ctx.graph policy plans
  events : P.events = p.events ctx.graph entry plans
  exposed : ∀ v, P.meaning.exposed v → Item.address v ∈ P.items
  meets : P.meets = Delivered p

def Source (p : Placement) (m : Meaning W) (σ : State W) (v : Value) (w : W) : Prop :=
  match p.repeated.lookup v with
  | some code => (literals m.literal code []).getLast? = some w
  | none => σ.cells v = w

structure Ready (p : Placement) (m : Meaning W) (F : Value → Prop) (σ : State W) (v : Value)
    (w : W) : Prop where
  unkept : v ∉ p.kept
  frame : F v
  current : σ.current v = some w
  source : Source p m σ v w

section Fetching

variable {ctx : Context} {policy : Policy} {entry : Block} {symbols : Symbols} {plans : List Plan}
  {t : Selection} {p : Placement} {P : Program W} {σ τ : State W} {F : Value → Prop} {k n : Nat}
  {es : List Event} {v : Value} {w : W}

theorem Source.agree (h : Source p P.meaning σ v w) (ha : τ.cells v = σ.cells v) :
    Source p P.meaning τ v w := by
  rw [Source] at h ⊢
  split at h
  · exact h
  · exact ha.trans h

theorem Ready.agree (h : Ready p P.meaning F σ v w) (ha : Agree F σ τ) :
    Ready p P.meaning F τ v w := by
  obtain ⟨hcells, hcurrent⟩ := ha v h.frame
  exact ⟨h.unkept, h.frame, hcurrent.trans h.current, h.source.agree hcells⟩

theorem Laid.literal (L : Laid ctx policy entry symbols plans t p P) {code : List Item}
    (h : p.repeated.lookup v = some code) :
    (∀ i ∈ code, ∃ j, i = .op j ∧ j.opcode.isLiteral = true)
      ∧ ∀ shape, height shape code 0 = some 1 := by
  obtain ⟨-, q, hq, c, i, he, rfl, -, hi, hconst, hreg⟩ := repeated_cases L.placed h
  obtain ⟨-, s', t', ⟨-, j, hj, -, -, -, hp⟩, -, -⟩ := L.finished.instr hq he
  rw [hi] at hj
  obtain rfl := Option.some.inj hj
  exact ⟨(hp hconst).1.literal hreg, (hp hconst).1.height⟩

theorem sound_fetch (L : Laid ctx policy entry symbols plans t p P)
    (hf : ∀ v, F v → ¬ P.meaning.exposed v) (hr : Ready p P.meaning F σ v w)
    (hat : P.At n ((p.fetch v).map .item ++ es)) (hg : P.Guarded k F n (p.fetch v).length σ)
    (hnext : ∀ τ, Agree F σ τ → τ.stack = σ.stack ++ [w] →
      P.Sound k (n + (p.fetch v).length) es τ) :
    P.Sound k n ((p.fetch v).map .item ++ es) σ := by
  have hsource := hr.source
  rw [Source] at hsource
  cases hl : p.repeated.lookup v with
  | some code =>
    have hfetch : p.fetch v = code := by simp [Placement.fetch, hr.unkept, hl]
    rw [hfetch] at hat hg hnext ⊢
    rw [hl] at hsource
    obtain ⟨hlit, hheight⟩ := L.literal hl
    refine Program.sound_literals hat hlit (hheight _) hf hg (List.append_nil _).symm ?_
    intro τ ha hs
    refine hnext τ ha ?_
    have hlen : (literals P.meaning.literal code []).length = 1 :=
      Program.length_literals hlit (hheight P.meaning.shape)
    obtain ⟨x, hx⟩ := List.length_eq_one_iff.mp hlen
    dsimp only at hsource
    rw [hx] at hsource hs
    obtain rfl := Option.some.inj hsource
    exact hs
  | none =>
    have hfetch : p.fetch v = [.load v] := by simp [Placement.fetch, hr.unkept, hl]
    rw [hfetch] at hat hg hnext ⊢
    rw [hl] at hsource
    refine Program.sound_pass hat rfl hg (fun u hu => ⟨hf u hu, by simp⟩) ?_
    intro τ ha _
    refine hnext τ (ha.agree fun u hu => ⟨hf u hu, by simp⟩) ?_
    obtain ⟨results, -, hy, hs⟩ := ha.exchange rfl (List.append_nil _).symm (Nat.zero_le _)
    obtain rfl : results = [σ.cells v] := hy
    rw [hsource] at hs
    exact hs

theorem sound_fetches (L : Laid ctx policy entry symbols plans t p P)
    (hf : ∀ v, F v → ¬ P.meaning.exposed v) {deps : List Value} {ws : List W}
    (hr : List.Forall₂ (Ready p P.meaning F σ) deps ws)
    (hat : P.At n ((deps.flatMap p.fetch).map .item ++ es))
    (hg : P.Guarded k F n (deps.flatMap p.fetch).length σ)
    (hnext : ∀ τ, Agree F σ τ → τ.stack = σ.stack ++ ws →
      P.Sound k (n + (deps.flatMap p.fetch).length) es τ) :
    P.Sound k n ((deps.flatMap p.fetch).map .item ++ es) σ := by
  induction deps generalizing n σ ws with
  | nil =>
    cases hr
    exact hnext σ (.refl F σ) (List.append_nil _).symm
  | cons v deps ih =>
    cases hr with
    | @cons _ w _ ws hv hrest =>
      rw [List.flatMap_cons] at hg hnext
      rw [List.flatMap_cons, List.map_append, List.append_assoc] at hat ⊢
      rw [List.length_append] at hg hnext
      refine sound_fetch L hf hv hat (hg.part (Nat.le_refl n) (by omega) (.refl F σ)) ?_
      intro τ hτ hs
      refine ih (forall₂_imp_mem hrest fun u _ x hu => hu.agree hτ) hat.items
        (hg.part (by omega) (by omega) hτ) ?_
      intro υ hυ hs'
      have := hnext υ (hτ.trans hυ) (by rw [hs', hs, List.append_assoc]; rfl)
      rwa [← Nat.add_assoc] at this

theorem sound_deps (L : Laid ctx policy entry symbols plans t p P)
    (hf : ∀ v, F v → ¬ P.meaning.exposed v) {vs deps rest : List Value} {alone : Bool}
    (ht : Takes p.kept vs deps rest alone) (hc : σ.Carries vs) (hvs : ∀ v ∈ vs, F v)
    (hr : ∀ v ∈ deps, v ∉ p.kept → ∃ w, Ready p P.meaning F σ v w)
    (hat : P.At n ((deps.flatMap p.fetch).map .item ++ es))
    (hg : P.Guarded k F n (deps.flatMap p.fetch).length σ)
    (hnext : ∀ τ, Agree F σ τ → τ.Carries (rest ++ deps) →
      P.Sound k (n + (deps.flatMap p.fetch).length) es τ) :
    P.Sound k n ((deps.flatMap p.fetch).map .item ++ es) σ := by
  have hfirst : (deps.takeWhile p.kept.contains).flatMap p.fetch = [] := by
    rw [List.flatMap_eq_nil_iff]
    intro v hv
    rw [Placement.fetch, if_pos (List.mem_takeWhile_imp hv)]
  have hsplit : deps.takeWhile p.kept.contains ++ deps.dropWhile p.kept.contains = deps :=
    List.takeWhile_append_dropWhile
  have hfetch : deps.flatMap p.fetch = (deps.dropWhile p.kept.contains).flatMap p.fetch := by
    conv_lhs => rw [← hsplit, List.flatMap_append, hfirst, List.nil_append]
  obtain ⟨ws, hws⟩ := exists_forall₂ fun v hv =>
    hr v (List.dropWhile_sublist _ |>.subset hv) (ht.others v hv)
  rw [hfetch] at hat hg hnext ⊢
  refine sound_fetches L hf hws hat hg ?_
  intro τ hτ hs
  refine hnext τ hτ ?_
  rw [State.Carries, hs, ← hsplit, ← List.append_assoc, ← ht.stack]
  refine List.rel_append ?_ ?_
  · exact forall₂_imp_mem hc fun v hv w hw => ((hτ v (hvs v hv)).2).trans hw
  · exact hws.imp fun v w hw => (hw.agree hτ).current

end Fetching

section Exposure

variable {ctx : Context} {policy : Policy} {entry : Block} {symbols : Symbols} {plans : List Plan}
  {t : Selection} {p : Placement} {P : Program W} {v : Value}

theorem Laid.items (L : Laid ctx policy entry symbols plans t p P) :
    P.items = ctx.graph.preheader entry ++ plans.flatMap (p.block ctx.graph) := by
  rw [Program.items, L.events, itemsOf_events]

theorem address_not_mem_fetch (hp : p = .ofPlans ctx.graph policy plans) (w : Value) :
    Item.address v ∉ p.fetch w := by
  rw [Placement.fetch]
  split
  · simp
  · split
    · rename_i code hcode
      obtain ⟨-, -, -, -, -, -, -, -, -, -, hreg⟩ := repeated_cases hp hcode
      exact fun hv => absurd (hreg _ hv) (by simp [Item.register?])
    · simp

theorem address_of_chunk (hp : p = .ofPlans ctx.graph policy plans) {c : Chunk}
    (h : Item.address v ∈ p.chunk c) : Item.address v ∈ c.code := by
  rcases List.mem_append.mp h with h | h
  · obtain ⟨w, -, hw⟩ := List.mem_flatMap.mp h
    exact absurd hw (address_not_mem_fetch hp w)
  · exact h

theorem address_ne_settle (p : Placement) (w : Value) : Item.address v ≠ p.settle w := by
  rw [Placement.settle]
  split <;> simp

theorem address_of_instr (hp : p = .ofPlans ctx.graph policy plans) {e : Value × Chunk}
    (h : Item.address v ∈ p.instr ctx.graph e) : Item.address v ∈ e.2.code := by
  rw [Placement.instr] at h
  split at h
  · cases h
  · rcases List.mem_append.mp h with h | h
    · exact address_of_chunk hp h
    · split at h
      · cases h
      · cases h
      · split at h
        · cases h
        · exact absurd (List.mem_singleton.mp h) (address_ne_settle p _)

theorem Laid.exposed_source (L : Laid ctx policy entry symbols plans t p P)
    (h : P.meaning.exposed v) : ∃ q ∈ plans, ∃ c ∈ q.chunks, Item.address v ∈ c.code := by
  have hmem := L.exposed v h
  rw [L.items] at hmem
  rcases List.mem_append.mp hmem with hpre | hmem
  · rw [Graph.preheader] at hpre
    split at hpre
    · cases hpre
    · obtain ⟨x, -, hx⟩ := List.mem_map.mp hpre
      cases hx
  · obtain ⟨q, hq, hblock⟩ := List.mem_flatMap.mp hmem
    refine ⟨q, hq, ?_⟩
    rw [Placement.block, List.mem_append, List.mem_append] at hblock
    rcases hblock with (hhead | hinstr) | hflow
    · rcases List.mem_cons.mp hhead with hl | harr
      · cases hl
      · rw [Placement.arrivals] at harr
        split at harr
        · cases harr
        · obtain ⟨x, -, hx⟩ := List.mem_map.mp harr
          split at hx
          · cases hx
          · exact absurd hx.symm (address_ne_settle p _)
    · obtain ⟨e, he, hv⟩ := List.mem_flatMap.mp hinstr
      exact ⟨e.2, List.mem_append_left _ (List.mem_map_of_mem he), address_of_instr L.placed hv⟩
    · obtain ⟨c, hc, hv⟩ := List.mem_flatMap.mp hflow
      exact ⟨c, List.mem_append_right _ hc, address_of_chunk L.placed hv⟩

def Own (g : Graph) (v : Value) : Prop := v.id < g.values.size

theorem Laid.unexposed (L : Laid ctx policy entry symbols plans t p P) (hv : Own ctx.graph v) :
    ¬ P.meaning.exposed v := by
  intro h
  obtain ⟨q, hq, c, hc, hv'⟩ := L.exposed_source h
  exact Nat.not_le_of_lt hv (L.finished.address hq hc hv')

theorem own_of_type {g : Graph} {type : Ty} (h : g.type? v = some type) : Own g v := by
  rw [Graph.type?, Graph.info?] at h
  obtain ⟨info, hi, -⟩ := Option.map_eq_some_iff.mp h
  exact (Array.getElem?_eq_some_iff.mp hi).1

theorem own_of_defined {g : Graph} (hg : g.Valid) (hv : v ∈ g.defined) : Own g v := by
  obtain ⟨type, h⟩ := hg.typed hv
  exact own_of_type h

end Exposure

end Execution

end StackCode
