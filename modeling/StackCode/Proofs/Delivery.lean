import StackCode.Proofs.Acceptance
import StackCode.Proofs.Operands

namespace StackCode

open Machine (Opcode)

namespace Execution

variable {W : Type}

def owned (cs : List Chunk) : List (Chunk × Option Leg) := cs.map fun c => (c, c.leg?)

@[simp] theorem map_owned (cs : List Chunk) : (owned cs).map Prod.fst = cs := by
  simp [owned, Function.comp_def]

theorem flowEvents_owned (p : Placement) (g : Graph) (first : Bool) (c : Chunk) (cs : List Chunk) :
    p.flowEvents g first (owned (c :: cs))
      = p.chunkEvents g c c.leg? (first || c.isBarrier) cs ++ p.flowEvents g false (owned cs) := by
  rw [owned, List.map_cons, Placement.flowEvents, ← owned, map_owned]

theorem itemsOf_owned (p : Placement) (g : Graph) (first : Bool) (cs : List Chunk) :
    itemsOf (p.flowEvents g first (owned cs)) = cs.flatMap p.chunk := by
  rw [itemsOf_flowEvents, map_owned]

def Agrees (p : Placement) (m : Meaning W) (σ : State W) (v : Value) : Prop :=
  v ∉ p.kept → (p.repeated.lookup v = none → 0 < p.usage.count v) →
    ∀ w, σ.current v = some w → Source p m σ v w

structure Body (g : Graph) (p : Placement) (m : Meaning W) (before : List Block) (b : Block)
    (j : Nat) (σ : State W) : Prop where
  walk : g.Walk before b
  known : ∀ v ∈ Graph.passed before b j, p.usage.isDead v = false → g.type? v ≠ some .void →
    (σ.current v).isSome = true
  agrees : ∀ v, Own g v → Agrees p m σ v

section Bodies

variable {g : Graph} {p : Placement} {m : Meaning W} {before : List Block} {b : Block} {j : Nat}
  {σ τ : State W} {v : Value}

theorem Agrees.agree (h : Agrees p m σ v) (hcells : τ.cells v = σ.cells v)
    (hcurrent : τ.current v = σ.current v) : Agrees p m τ v := by
  intro hk hc w hw
  have hs := h hk hc w (hcurrent ▸ hw)
  rw [Source] at hs ⊢
  split at hs
  · exact hs
  · exact hcells.trans hs

theorem Body.own (h : Body g p m before b j σ) (hg : g.Valid)
    (hv : v ∈ Graph.passed before b j) : Own g v :=
  own_of_defined hg (h.walk.defined hv)

theorem Body.agree (h : Body g p m before b j σ) (hg : g.Valid) (ha : Agree (Own g) σ τ) :
    Body g p m before b j τ := by
  refine ⟨h.walk, ?_, ?_⟩
  · intro v hv hd ht
    rw [(ha v (h.own hg hv)).2]
    exact h.known v hv hd ht
  · exact fun v hv => (h.agrees v hv).agree (ha v hv).1 (ha v hv).2

theorem Body.ready (h : Body g p m before b j σ) (hg : g.Valid) {F : Value → Prop}
    (hf : ∀ v, Own g v → F v) (hv : v ∈ Graph.passed before b j) (ht : g.type? v ≠ some .void)
    (hr : 0 < p.usage.count v ∧ p.usage.isDead v = false) (hk : v ∉ p.kept) :
    ∃ w, Ready p m F σ v w := by
  obtain ⟨w, hw⟩ := Option.isSome_iff_exists.mp (h.known v hv hr.2 ht)
  have hown := h.own hg hv
  exact ⟨w, hk, hf v hown, hw, h.agrees v hown hk (fun _ => hr.1) w hw⟩

theorem passed_succ (hv : b.instructions[j]? = some v) :
    Graph.passed before b (j + 1) = Graph.passed before b j ++ [v] := by
  rw [Graph.passed, Graph.passed, List.take_add_one, hv]
  simp

theorem Body.step (h : Body g p m before b j σ) (hg : g.Valid)
    (hv : b.instructions[j]? = some v)
    (hsame : ∀ u, Own g u → u ≠ v → τ.cells u = σ.cells u ∧ τ.current u = σ.current u)
    (hknown : p.usage.isDead v = false → g.type? v ≠ some .void → (τ.current v).isSome = true)
    (hagrees : Agrees p m τ v) : Body g p m before b (j + 1) τ := by
  refine ⟨h.walk, ?_, ?_⟩
  · intro u hu hd ht
    by_cases hne : u = v
    · subst hne
      exact hknown hd ht
    · rw [passed_succ hv] at hu
      have hu' := (List.mem_append.mp hu).resolve_right (by simpa using hne)
      rw [(hsame u (h.own hg hu') hne).2]
      exact h.known u hu' hd ht
  · intro u hu
    by_cases hne : u = v
    · subst hne
      exact hagrees
    · exact (h.agrees u hu).agree (hsame u hu hne).1 (hsame u hu hne).2

end Bodies

section Chunks

variable {ctx : Context} {policy : Policy} {entry : Block} {symbols : Symbols} {plans : List Plan}
  {t : Selection} {p : Placement} {P : Program W} {σ τ : State W} {F : Value → Prop} {k n : Nat}
  {es : List Event} {v : Value} {c : Chunk} {leg : Option Leg} {vs rest : List Value}
  {alone : Bool} {later : List Chunk}

theorem Laid.kept_own (L : Laid ctx policy entry symbols plans t p P) (hv : v ∈ p.kept) :
    Own ctx.graph v := by
  rw [L.placed] at hv
  obtain ⟨q, hq, hc⟩ := candidate_of_kept hv
  obtain ⟨⟨w, c⟩, he, rfl⟩ := List.mem_map.mp (List.mem_of_mem_filter hc)
  obtain ⟨hw, -⟩ := L.finished.instr hq (List.mem_of_mem_filter he)
  exact own_of_defined L.valid
    (mem_defined (L.finished.mem_blocks hq) (List.mem_append_right _ hw))

theorem sound_chunk (L : Laid ctx policy entry symbols plans t p P)
    (hf : ∀ v, F v → ¬ P.meaning.exposed v) (ht : Takes p.kept vs c.deps rest alone)
    (hc : σ.Carries vs) (hvs : ∀ v ∈ vs, F v)
    (hr : ∀ v ∈ c.deps, v ∉ p.kept → ∃ w, Ready p P.meaning F σ v w)
    (hlater : ∀ v ∈ rest, v ∈ p.kept ∧ ∃ d ∈ later, v ∈ d.deps) (hh : c.isHandler = false)
    (hat : P.At n (p.chunkEvents ctx.graph c leg alone later ++ es))
    (hg : P.Guarded k F n (c.deps.flatMap p.fetch).length σ)
    (hown : ∀ τ, Agree F σ τ → τ.Carries (rest ++ c.deps) →
      P.At (n + (c.deps.flatMap p.fetch).length) (c.events ctx.graph leg ++ es) →
      P.Sound k (n + (c.deps.flatMap p.fetch).length) (c.events ctx.graph leg ++ es) τ) :
    P.Sound k n (p.chunkEvents ctx.graph c leg alone later ++ es) σ := by
  rw [Placement.chunkEvents, List.append_assoc] at hat ⊢
  refine sound_deps L hf ht hc hvs hr hat hg ?_
  intro τ hτ hcarries
  refine Program.sound_note ?_ (hown τ hτ hcarries hat.items.note)
  rw [Program.Meets, L.meets, Delivered, hh]
  exact ⟨rest, hcarries, hlater, ht.alone⟩

end Chunks

section OwnCode

variable {g : Graph} {symbols : Symbols} {P : Program W} {σ τ : State W} {F : Value → Prop}
  {k n : Nat} {es : List Event} {c : Chunk} {rest operands : List Value} {s' t' t : Selection}
  {leaves : Option Bool}

theorem Lowered.straight
    (h : Lowered g (fun _ _ => True) leaves operands s' c t') :
    ∀ i ∈ c.code, i.isMark = false ∧ i.targets = [] := by
  have hl := h.leaves
  cases hl with
  | entries hh => exact straight_of_height (hh _ t'.symbols.shaped)
  | never hc =>
    rw [hc]
    simp [Item.isMark, Item.targets]

theorem Lowered.events (h : Lowered g (fun _ _ => True) leaves operands s' c t')
    (leg : Option Leg) : c.code.flatMap (Item.events g leg) = c.code.map .item :=
  events_straight h.noStore fun i hi => (Lowered.straight h i hi).2

theorem not_isHandler (h : ∀ i ∈ c.code, i.isMark = false) : c.isHandler = false := by
  rw [Chunk.isHandler]
  split
  · rename_i r code hc
    have := h (.handlerStart r) (by rw [hc]; exact List.mem_cons_self)
    cases this
  · rfl

theorem sound_own (hl : Lowered g (fun _ _ => True) leaves operands s' c t') (htt : t'.Grows t)
    (hs : Shaped (fun _ _ => True) P.meaning.shape t.symbols) {void : Bool}
    (hb : ∀ x, leaves = some x → void = !x) (hf : ∀ v, F v → ¬ P.meaning.exposed v)
    (hat : P.At n (c.code.map .item ++ es)) (hg : P.Guarded k F n c.code.length σ)
    (hc : σ.Carries (rest ++ c.deps))
    (hnext : ∀ τ ws ys, Agree F σ τ → List.Forall₂ (fun u w => σ.current u = some w) rest ws →
      τ.stack = ws ++ ys → ys.length = (!void).toNat → P.Sound k (n + c.code.length) es τ) :
    P.Sound k n (c.code.map .item ++ es) σ := by
  obtain ⟨ws, xs, hstack, hrest, hdeps⟩ := forall₂_append_left hc
  have hlen := hdeps.length_eq
  have hleaves := hl.leaves
  cases hleaves with
  | entries hh =>
    refine Program.sound_code hat (hh _ (hs.mono htt)) (fun v hv => ⟨hf v hv, hl.noStore v⟩) hg
      hstack hlen.symm ?_
    intro τ ys hτ hys hlen'
    refine hnext τ ws ys hτ hrest hys ?_
    rw [hlen', hb _ rfl, Bool.not_not]
  | @never o hcode hflow he =>
    have hends : (Item.plain o).fallsThrough = false := by
      simp [Item.fallsThrough, Item.opcode?, Opcode.endsFlow, hflow]
    rw [hcode] at hat hg ⊢
    have hfi : ∀ v, F v → ¬ P.meaning.exposed v ∧ Item.plain o ≠ .store v := fun v hv =>
      ⟨hf v hv, by simp⟩
    refine Program.sound_item hat ?_ ?_
    · intro τ ha
      refine ⟨fun h => ?_, by simp [Item.targets]⟩
      rw [hends] at h
      cases h
    · intro h hthrow τ e hτ
      refine hg n h (Nat.le_refl n) (by simp) hthrow τ e ?_
      rcases hτ with rfl | ha
      · exact .refl F _
      · exact ha.agree hfi

end OwnCode

section Instructions

variable {ctx : Context} {policy : Policy} {entry : Block} {symbols : Symbols} {plans : List Plan}
  {t : Selection} {p : Placement} {P : Program W} {σ τ : State W} {k n j : Nat}
  {es : List Event} {v : Value} {before : List Block} {b : Block} {rest : List Value}

def Puts (p : Placement) (v : Value) (i : Item) : Prop :=
  i = .store v ∨ i = .plain .pop ∧ ¬ 0 < p.usage.count v

theorem puts_settle (p : Placement) (v : Value) : Puts p v (p.settle v) := by
  rw [Puts, Placement.settle]
  split
  · exact .inl rfl
  · rename_i h
    exact .inr ⟨rfl, h⟩

theorem sound_put {i : Item} {ws : List W} {w : W} (hi : Puts p v i) (hs : σ.stack = ws ++ [w])
    (hat : P.At n (.item i :: es)) (hquiet : P.Quiet n 1)
    (hnext : ∀ τ, τ.stack = ws → τ.current = σ.current →
      (∀ u, ¬ P.meaning.exposed u → u ≠ v → τ.cells u = σ.cells u) →
      (0 < p.usage.count v → τ.cells v = w) → P.Sound k (n + 1) es τ) :
    P.Sound k n (.item i :: es) σ := by
  have ht : i.targets = [] := by
    rcases hi with rfl | ⟨rfl, -⟩ <;> rfl
  have hx : i.exchangeAt P.meaning.shape σ.stack.length = some (1, 0) := by
    rcases hi with rfl | ⟨rfl, -⟩ <;> rfl
  refine Program.sound_pass hat ht (hquiet.guarded (fun _ => False) σ) (fun _ h => h.elim) ?_
  intro τ ha _
  obtain ⟨results, hr, -, hstack⟩ := ha.exchange hx hs (by simp)
  have hw := ha.cells
  refine hnext τ ?_ ha.current ?_ ?_
  · simpa [List.length_eq_zero_iff.mp hr] using hstack
  · intro u hu hne
    rcases hi with rfl | ⟨rfl, -⟩
    · rw [show τ.cells = _ from hw, Function.update_of_ne hne]
    · exact (hw u).resolve_right hu
  · intro hc
    rcases hi with rfl | ⟨rfl, hn⟩
    · rw [show τ.cells = _ from hw, Function.update_self]
      simp [hs]
    · exact absurd hc hn

theorem sound_result (L : Laid ctx policy entry symbols plans t p P) {type : Ty}
    (hv : b.instructions[j]? = some v) (htype : ctx.graph.type? v = some type)
    (hl : p.repeated.lookup v = none) (hkept : type.isVoid = true → v ∉ p.kept)
    (hbody : Body ctx.graph p P.meaning before b j σ) {ws ys : List W}
    (hrest : List.Forall₂ (fun u w => σ.current u = some w) rest ws) (hne : ∀ u ∈ rest, u ≠ v)
    (hs : σ.stack = ws ++ ys) (hy : ys.length = (!type.isVoid).toNat)
    (hat : P.At n (p.resultEvents ctx.graph v ++ es))
    (hquiet : P.Quiet n (itemsOf (p.resultEvents ctx.graph v)).length)
    (hnext : ∀ τ, Body ctx.graph p P.meaning before b (j + 1) τ →
      τ.Carries (if p.kept.contains v then rest ++ [v] else rest) →
      P.Sound k (n + (itemsOf (p.resultEvents ctx.graph v)).length) es τ) :
    P.Sound k n (p.resultEvents ctx.graph v ++ es) σ := by
  have hown : Own ctx.graph v := own_of_type htype
  cases hvoid : type.isVoid
  · obtain ⟨w, rfl⟩ : ∃ w, ys = [w] := by simpa [hvoid, List.length_eq_one_iff] using hy
    rw [resultEvents_value htype hvoid] at hat hquiet hnext ⊢
    refine Program.sound_note trivial ?_
    -- The value is now what lies on top.
    have hcurrent : ∀ u, u ≠ v → (σ.note P.meaning (.produce v)).current u = σ.current u :=
      fun u hu => Function.update_of_ne hu _ _
    have hself : (σ.note P.meaning (.produce v)).current v = some w := by
      simp [State.note, hs]
    have hcarry : List.Forall₂ (fun u x => (σ.note P.meaning (.produce v)).current u = some x)
        rest ws := forall₂_imp_mem hrest fun u hu x hx => (hcurrent u (hne u hu)).trans hx
    by_cases hk : v ∈ p.kept
    · have hk' : p.kept.contains v = true := List.contains_iff_mem.mpr hk
      rw [hk'] at hat hquiet hnext ⊢
      refine hnext _ (hbody.step L.valid hv ?_ ?_ ?_) ?_
      · exact fun u _ hu => ⟨rfl, hcurrent u hu⟩
      · exact fun _ _ => by rw [hself]; rfl
      · exact fun h => absurd hk h
      · rw [State.Carries]
        show List.Forall₂ _ (rest ++ [v]) σ.stack
        rw [hs]
        exact List.rel_append hcarry (.cons hself .nil)
    · have hk' : p.kept.contains v = false := by simpa using hk
      rw [hk'] at hat hquiet hnext ⊢
      refine sound_put (puts_settle p v) hs hat.note hquiet ?_
      intro τ hτ hcur hcells hself'
      have hsame : ∀ u, Own ctx.graph u → u ≠ v →
          τ.cells u = σ.cells u ∧ τ.current u = σ.current u := fun u hu hne =>
        ⟨hcells u (L.unexposed hu) hne, by rw [hcur, hcurrent u hne]⟩
      refine hnext τ (hbody.step L.valid hv hsame ?_ ?_) ?_
      · exact fun _ _ => by rw [hcur, hself]; rfl
      · intro _ hc x hx
        rw [hcur, hself] at hx
        obtain rfl := Option.some.inj hx
        rw [Source, hl]
        exact hself' (hc hl)
      · rw [State.Carries, hτ, hcur]
        exact hcarry
  · obtain rfl : ys = [] := by simpa [hvoid] using hy
    have hk : p.kept.contains v = false := by simpa using hkept hvoid
    rw [resultEvents_void htype hvoid] at hat hquiet hnext ⊢
    rw [hk] at hnext
    refine hnext σ (hbody.step L.valid hv (fun _ _ _ => ⟨rfl, rfl⟩) ?_ (hbody.agrees v hown)) ?_
    · intro _ ht
      refine absurd ?_ ht
      rw [htype]
      cases type <;> first | rfl | cases hvoid
    · rw [State.Carries, hs, List.append_nil]
      exact hrest

theorem sound_repeated (L : Laid ctx policy entry symbols plans t p P) {q : Plan} (hq : q ∈ plans)
    {c : Chunk} {vs : List Value} {code : List Item} (he : (v, c) ∈ q.instrs)
    (hv : q.block.instructions[j]? = some v) (hr : p.repeated.lookup v = some code)
    (hbody : Body ctx.graph p P.meaning before q.block j σ)
    (ht : Takes p.kept vs c.deps rest c.isBarrier) (hc : σ.Carries vs)
    (hvs : ∀ u ∈ vs, u ∈ p.kept ∧ u ≠ v)
    (hnext : ∀ τ, Body ctx.graph p P.meaning before q.block (j + 1) τ →
      τ.Carries (if p.kept.contains v then rest ++ [v] else rest) → P.Sound k n es τ) :
    P.Sound k n (.note (.constant v code) :: es) σ := by
  obtain ⟨-, s', t', ⟨-, i, hi, hval, -, hl, -⟩, -, -⟩ := L.finished.instr hq he
  obtain ⟨hlit, hheight⟩ := L.literal hr
  obtain ⟨hnk, -, -, -, j', -, -, -, hj, hconst, -⟩ := repeated_cases L.placed hr
  rw [hi] at hj
  obtain rfl := Option.some.inj hj
  have hdeps : c.deps = [] := deps_of_isConstant hval hl hconst
  have hstack : vs = rest := by simpa [hdeps] using ht.stack
  rw [if_neg (by simpa using hnk)] at hnext
  have hlen : (literals P.meaning.literal code []).length = 1 :=
    Program.length_literals hlit (hheight P.meaning.shape)
  obtain ⟨w, hw⟩ := List.length_eq_one_iff.mp hlen
  have hself : (σ.note P.meaning (.constant v code)).current v = some w := by
    simp [State.note, hw]
  have hcurrent : ∀ u, u ≠ v → (σ.note P.meaning (.constant v code)).current u = σ.current u :=
    fun u hu => Function.update_of_ne hu _ _
  refine Program.sound_note trivial (hnext _ (hbody.step L.valid hv ?_ ?_ ?_) ?_)
  · exact fun u _ hu => ⟨rfl, hcurrent u hu⟩
  · exact fun _ _ => by rw [hself]; rfl
  · intro _ _ x hx
    rw [Source, hr]
    rw [hself] at hx
    dsimp only
    rw [hw, ← hx]
    rfl
  · rw [← hstack]
    exact forall₂_imp_mem hc fun u hu x hx => (hcurrent u (hvs u hu).2).trans hx

theorem Laid.ready_instr (L : Laid ctx policy entry symbols plans t p P) {q : Plan} (hq : q ∈ plans)
    {c : Chunk} {u : Value} (he : (v, c) ∈ q.instrs) (hv : q.block.instructions[j]? = some v)
    (hlive : p.usage.isDead v = false) (hbody : Body ctx.graph p P.meaning before q.block j σ)
    (hu : u ∈ c.deps) (hk : u ∉ p.kept) : ∃ w, Ready p P.meaning (Own ctx.graph) σ u w := by
  obtain ⟨-, s', t', ⟨-, i, hi, -, hhas, hl, -⟩, -, -⟩ := L.finished.instr hq he
  have hops : ∀ x ∈ i.operands,
      x ∈ Graph.passed before q.block j ∧ ctx.graph.type? x ≠ some .void := fun x hx =>
    ⟨L.dominated.instrs before q.block hbody.walk j v i hv hi x hx, L.used.instrs i hhas x hx⟩
  obtain ⟨hp, hnv⟩ := L.dominated.feeds L.used L.valid hbody.walk hops (hl.feeds u hu)
  have hread := read_of_instr (g := ctx.graph) hq he (by rw [L.placed] at hlive; exact hlive) hu
  refine hbody.ready L.valid (fun _ h => h) hp hnv ?_ hk
  rw [L.placed]
  exact hread

theorem sound_instr (L : Laid ctx policy entry symbols plans t p P) {q : Plan} (hq : q ∈ plans)
    {c : Chunk} {vs : List Value} {later : List Chunk} (he : (v, c) ∈ q.instrs)
    (hv : q.block.instructions[j]? = some v) (hlive : p.usage.isDead v = false)
    (hbody : Body ctx.graph p P.meaning before q.block j σ)
    (ht : Takes p.kept vs c.deps rest c.isBarrier) (hc : σ.Carries vs)
    (hvs : ∀ u ∈ vs, u ∈ p.kept ∧ u ≠ v)
    (hlater : ∀ u ∈ rest, ∃ d ∈ later, u ∈ d.deps)
    (hat : P.At n (p.instrEvents ctx.graph (v, c) later ++ es))
    (hquiet : P.Quiet n (itemsOf (p.instrEvents ctx.graph (v, c) later)).length)
    (hnext : ∀ τ, Body ctx.graph p P.meaning before q.block (j + 1) τ →
      τ.Carries (if p.kept.contains v then rest ++ [v] else rest) →
      P.Sound k (n + (itemsOf (p.instrEvents ctx.graph (v, c) later)).length) es τ) :
    P.Sound k n (p.instrEvents ctx.graph (v, c) later ++ es) σ := by
  obtain ⟨hvb, s', t', ⟨-, i, hi, -, hhas, hl, -⟩, -, htt⟩ := L.finished.instr hq he
  dsimp only at hl
  have htype := L.valid.type_of_listed (L.finished.mem_blocks hq) hvb hi
  cases hr : p.repeated.lookup v with
  | some code =>
    rw [instrEvents_repeated hlive hr] at hnext ⊢
    exact sound_repeated L hq he hv hr hbody ht hc hvs hnext
  | none =>
    rw [instrEvents_placed hlive hr] at hat hquiet hnext ⊢
    rw [itemsOf_append, itemsOf_chunkEvents, Placement.chunk, List.length_append,
      List.length_append] at hquiet hnext
    rw [List.append_assoc] at hat ⊢
    have hunexposed : ∀ u, Own ctx.graph u → ¬ P.meaning.exposed u := fun _ => L.unexposed
    have hfront : P.Quiet n (c.deps.flatMap p.fetch).length :=
      hquiet.part (Nat.le_refl n) (by omega)
    refine sound_chunk L hunexposed ht hc (fun u hu => L.kept_own (hvs u hu).1)
      (fun u hu => L.ready_instr hq he hv hlive hbody hu)
      (fun u hu => ⟨(hvs u (ht.mem hu)).1, hlater u hu⟩)
      (not_isHandler fun i hi => (Lowered.straight hl i hi).1) hat (hfront.guarded _ σ) ?_
    intro τ hτ hcarries hatτ
    rw [Chunk.events, Lowered.events hl] at hatτ ⊢
    have hcode : P.Quiet (n + (c.deps.flatMap p.fetch).length) c.code.length :=
      hquiet.part (by omega) (by omega)
    refine sound_own hl htt L.shaped (fun x hx => L.declared i hhas x hx) hunexposed hatτ
      (hcode.guarded _ τ) hcarries ?_
    intro υ ws ys hυ hrest hs hy
    have hkept : i.operation.resultType.isVoid = true → v ∉ p.kept := by
      intro hvoid hk
      rw [nonvoid_of_kept L.placed hk hi] at hvoid
      cases hvoid
    have hrest' : List.Forall₂ (fun u w => υ.current u = some w) rest ws :=
      forall₂_imp_mem hrest fun u hu w hw =>
        (hυ u (L.kept_own (hvs u (ht.mem hu)).1)).2.trans hw
    refine sound_result L hv htype hr hkept (hbody.agree L.valid (hτ.trans hυ)) hrest'
      (fun u hu => (hvs u (ht.mem hu)).2) hs hy hatτ.items ?_ ?_
    · exact hquiet.part (by omega) (by omega)
    · intro ρ hρ hcar
      have := hnext ρ hρ hcar
      rwa [← Nat.add_assoc, ← Nat.add_assoc] at this

theorem sound_instrs (L : Laid ctx policy entry symbols plans t p P) {q : Plan} (hq : q ∈ plans)
    {done todo : List (Value × Chunk)} {vs out : List Value} (hsplit : q.instrs = done ++ todo)
    (hbody : Body ctx.graph p P.meaning before q.block done.length σ) (hc : σ.Carries vs)
    (hvs : ∀ u ∈ vs, u ∈ p.kept ∧ u ∈ done.map Prod.fst)
    (hf : Plan.followInstrs p.kept vs (todo.filter fun e => !p.usage.isDead e.1) = .ok out)
    (hflow : Plan.followFlow p.kept out true q.flow = .ok [])
    (hat : P.At n (p.instrsEvents ctx.graph q.flow todo ++ es))
    (hquiet : P.Quiet n (itemsOf (p.instrsEvents ctx.graph q.flow todo)).length)
    (hnext : ∀ τ, Body ctx.graph p P.meaning before q.block q.instrs.length τ → τ.Carries out →
      P.Sound k (n + (itemsOf (p.instrsEvents ctx.graph q.flow todo)).length) es τ) :
    P.Sound k n (p.instrsEvents ctx.graph q.flow todo ++ es) σ := by
  -- The stack holds kept results of the instructions that are done. An instruction that has been
  -- dropped changes nothing.
  induction todo generalizing done vs n σ with
  | nil =>
    obtain rfl := Except.ok.inj hf
    rw [List.append_nil] at hsplit
    rw [← hsplit] at hbody
    exact hnext σ hbody hc
  | cons e todo ih =>
    obtain ⟨v, c⟩ := e
    have hvalues := L.finished.values hq
    have hget : q.block.instructions[done.length]? = some v := by
      rw [← hvalues, hsplit]
      simp
    have hnew : v ∉ done.map Prod.fst := by
      have hnodup := (List.nodup_append.mp
        (L.valid.nodup_definitions (L.finished.mem_blocks hq))).2.1
      rw [← hvalues, hsplit, List.map_append, List.nodup_append] at hnodup
      exact fun h => hnodup.2.2 v h v (by simp) rfl
    have hsplit' : q.instrs = (done ++ [(v, c)]) ++ todo := by simp [hsplit]
    have hold : ∀ u ∈ vs, u ∈ p.kept ∧ u ∈ (done ++ [(v, c)]).map Prod.fst := fun u hu =>
      ⟨(hvs u hu).1, by simp [(hvs u hu).2]⟩
    rw [Placement.instrsEvents] at hat hquiet hnext ⊢
    rw [itemsOf_append, List.length_append] at hquiet hnext
    rw [List.append_assoc] at hat ⊢
    cases hdead : p.usage.isDead v
    · rw [List.filter_cons_of_pos (by simp [hdead])] at hf
      obtain ⟨rest, htake, hrest⟩ := followInstrs_cons.mp hf
      have ht := takes_of_takeDeps htake
      refine sound_instr L hq (by simp [hsplit]) hget hdead hbody ht hc ?_ ?_ hat
        (hquiet.part (Nat.le_refl n) (by omega)) ?_
      · exact fun u hu => ⟨(hvs u hu).1, fun he => hnew (he ▸ (hvs u hu).2)⟩
      · intro u hu
        have hmem : u ∈ (if p.kept.contains v then rest ++ [v] else rest) := by
          split
          · exact List.mem_append_left _ hu
          · exact hu
        rcases followInstrs_read hrest hmem with ⟨e, he, hd⟩ | ho
        · exact ⟨e.2, List.mem_append_left _ (List.mem_map_of_mem he), hd⟩
        · obtain ⟨d, hd, hu⟩ := followFlow_read hflow ho
          exact ⟨d, List.mem_append_right _ hd, hu⟩
      · intro τ hτ hcar
        refine ih hsplit' (by simpa using hτ) hcar ?_ hrest hat.append
          (hquiet.part (by omega) (by omega)) ?_
        · intro u hu
          split at hu
          · rename_i hk
            rcases List.mem_append.mp hu with hu | hu
            · exact hold u (ht.mem hu)
            · obtain rfl := List.mem_singleton.mp hu
              exact ⟨List.contains_iff_mem.mp hk, by simp⟩
          · exact hold u (ht.mem hu)
        · intro υ hυ hcar'
          have := hnext υ hυ hcar'
          rwa [← Nat.add_assoc] at this
    · rw [List.filter_cons_of_neg (by simp [hdead])] at hf
      rw [instrEvents_dead hdead] at hat hquiet hnext ⊢
      have hown : Own ctx.graph v := own_of_defined L.valid (mem_defined (L.finished.mem_blocks hq)
        (List.mem_append_right _ (List.mem_of_getElem? hget)))
      refine ih hsplit' ?_ hc ?_ hf hat (hquiet.part (Nat.le_refl n) (by simp)) ?_
      · have hstep : Body ctx.graph p P.meaning before q.block (done.length + 1) σ :=
          hbody.step L.valid hget (fun _ _ _ => ⟨rfl, rfl⟩) (fun h => by rw [hdead] at h; cases h)
            (hbody.agrees v hown)
        simpa using hstep
      · exact hold
      · intro υ hυ hcar'
        simpa using hnext υ hυ hcar'

end Instructions

/-- The state at the label of a block. Its parameters lie on the stack, unless it is the entry and
control does not come back to it. -/
structure Arrived (g : Graph) (p : Placement) (m : Meaning W) (before : List Block) (b : Block)
    (σ : State W) : Prop where
  walk : g.Walk before b
  known : ∀ v ∈ before.flatMap Block.definitions, p.usage.isDead v = false →
    g.type? v ≠ some .void → (σ.current v).isSome = true
  agrees : ∀ v, Own g v → v ∉ b.parameters.map Parameter.value → Agrees p m σ v
  parameters : if b.label = g.entry ∧ (g.predecessors g.entry).isEmpty = true then
      σ.stack = [] ∧ ∀ v ∈ b.parameters.map Parameter.value, σ.current v = some (σ.cells v)
    else σ.Carries (b.parameters.map Parameter.value)

def Enters (g : Graph) (p : Placement) (P : Program W) (plans : List Plan) (k : Nat) : Prop :=
  ∀ q ∈ plans, ∀ n before σ, P.items[n]? = some (.label q.block.label) →
    Arrived g p P.meaning before q.block σ → P.Later k n σ

section Passing

variable {g : Graph} {p : Placement} {m : Meaning W} {before : List Block} {b c : Block}
  {σ τ : State W} {args : List Value} {br : Branch}

theorem Arrived.congr (h : Arrived g p m before b σ) (hs : τ.stack = σ.stack)
    (hcells : τ.cells = σ.cells) (hcurrent : τ.current = σ.current) :
    Arrived g p m before b τ := by
  refine ⟨h.walk, ?_, ?_, ?_⟩
  · rw [hcurrent]
    exact h.known
  · exact fun v hv hn => (h.agrees v hv hn).agree (by rw [hcells]) (by rw [hcurrent])
  · rw [State.Carries, hs, hcells, hcurrent]
    exact h.parameters

theorem Body.arrive (h : Body g p m before b b.instructions.length σ) (hg : g.Valid)
    (hbr : br ∈ b.flow.branches) (hc : g.block? br.target = some c)
    (hl : args.length = c.parameters.length) (hcar : σ.Carries args) :
    Arrived g p m (before ++ [b]) c
      (σ.note m (.pass (c.parameters.map Parameter.value) args)) := by
  have hmem : c ∈ g.blocks.toList := Array.mem_toList_iff.mpr (Array.mem_of_getElem? hc)
  have hnodup : (c.parameters.map Parameter.value).Nodup :=
    (List.nodup_append.mp (hg.nodup_definitions hmem)).1
  -- An argument may be a parameter of the same block, so all of them change at once.
  have hpass : List.Forall₂ (fun v w => ∃ a, ((c.parameters.map Parameter.value).zip args).lookup v
      = some a ∧ σ.current a = some w) (c.parameters.map Parameter.value) σ.stack :=
    forall₂_lookup_zip hnodup (by simp [hl]) hcar
  have hnew : ∀ v a, ((c.parameters.map Parameter.value).zip args).lookup v = some a →
      (σ.note m (.pass (c.parameters.map Parameter.value) args)).current v = σ.current a := by
    intro v a ha
    simp [State.note, ha]
  have hold : ∀ v, ((c.parameters.map Parameter.value).zip args).lookup v = none →
      (σ.note m (.pass (c.parameters.map Parameter.value) args)).current v = σ.current v := by
    intro v hv
    simp [State.note, hv]
  have hnone : ∀ v, v ∉ c.parameters.map Parameter.value →
      ((c.parameters.map Parameter.value).zip args).lookup v = none := by
    intro v hv
    rw [List.lookup_eq_none_iff]
    rintro ⟨x, y⟩ hx
    have : v ≠ x := fun he => hv (he ▸ (List.of_mem_zip hx).1)
    simpa using this
  refine ⟨.step h.walk hbr hc, ?_, ?_, ?_⟩
  · intro v hv hd ht
    by_cases hp : v ∈ c.parameters.map Parameter.value
    · obtain ⟨w, -, a, ha, hw⟩ := forall_of_forall₂ hpass hp
      rw [hnew v a ha, hw]
      rfl
    · rw [hold v (hnone v hp)]
      refine h.known v ?_ hd ht
      rw [Graph.passed, List.take_length]
      simpa [Block.definitions] using hv
  · exact fun v hv hn => (h.agrees v hv).agree rfl (hold v (hnone v hn))
  · have hback : ¬ (c.label = g.entry ∧ (g.predecessors g.entry).isEmpty = true) := by
      rintro ⟨hl, hp⟩
      have htarget : br.target = g.entry := by rw [← hl, (hg.coherent br.target.id c hc).label]
      rw [predecessors_ne_nil h.walk.mem hbr htarget] at hp
      cases hp
    rw [if_neg hback]
    refine List.Forall₂.imp ?_ hpass
    rintro v w ⟨a, ha, hw⟩
    rw [hnew v a ha, hw]

end Passing

structure Armed (g : Graph) (p : Placement) (P : Program W) (b : Block) (args : List Value)
    (σ : State W) : Prop where
  body : ∃ before, Body g p P.meaning before b b.instructions.length σ
  stack : σ.stack = []
  ready : ∀ v ∈ args, ∃ w, Ready p P.meaning (fun v => ¬ P.meaning.exposed v) σ v w

section Jumps

variable {ctx : Context} {policy : Policy} {entry : Block} {symbols : Symbols} {plans : List Plan}
  {t : Selection} {p : Placement} {P : Program W} {σ τ : State W} {k n : Nat} {es : List Event}
  {before : List Block} {b : Block} {result caught : Option Value} {target : Label}
  {args vs : List Value} {alone : Bool} {later : List Chunk}

theorem Laid.plan_of_block (L : Laid ctx policy entry symbols plans t p P)
    (hb : b ∈ ctx.graph.blocks.toList) : ∃ q ∈ plans, q.block = b := by
  have hmem := L.valid.mem_order L.finished.start hb
  rw [← L.finished.blocks] at hmem
  exact List.mem_map.mp hmem

theorem Laid.enter (L : Laid ctx policy entry symbols plans t p P)
    (hk : Enters ctx.graph p P plans k)
    (hbody : Body ctx.graph p P.meaning before b b.instructions.length σ) {br : Branch} {c : Block}
    (hbr : br ∈ b.flow.branches) (hc : ctx.graph.block? br.target = some c)
    (hl : args.length = c.parameters.length) (hcar : σ.Carries args)
    (hs : τ.stack = σ.stack) (hcells : τ.cells = σ.cells)
    (hcurrent : τ.current
      = (σ.note P.meaning (.pass (c.parameters.map Parameter.value) args)).current)
    {q : Nat} (hq : LastAt P.items br.target q) : P.Later k q τ := by
  have hmem : c ∈ ctx.graph.blocks.toList :=
    Array.mem_toList_iff.mpr (Array.mem_of_getElem? hc)
  obtain ⟨r, hr, rfl⟩ := L.plan_of_block hmem
  have hlabel : r.block.label = br.target := (L.valid.coherent br.target.id _ hc).label
  refine hk r hr q (before ++ [b]) τ (by rw [hlabel]; exact hq.1) ?_
  exact (hbody.arrive L.valid hbr hc hl hcar).congr hs hcells hcurrent

theorem sound_jump (L : Laid ctx policy entry symbols plans t p P)
    (hk : Enters ctx.graph p P plans k)
    (hbody : Body ctx.graph p P.meaning before b b.instructions.length σ)
    (hsend : b.Sends ctx.graph result caught target args) (hcar : σ.Carries args)
    (hat : P.At n ((Chunk.jump target args).events ctx.graph (some (target, args)) ++ es))
    (hquiet : P.Quiet n 1) :
    P.Sound k n ((Chunk.jump target args).events ctx.graph (some (target, args)) ++ es) σ := by
  obtain ⟨br, hbr, c, hc, rfl, -, hl⟩ := hsend
  have hparams : ctx.graph.parametersOf br.target = c.parameters.map Parameter.value := by
    rw [Graph.parametersOf, hc]
  have hev : (Chunk.jump br.target args).events ctx.graph (some (br.target, args))
      = [.note (.pass (c.parameters.map Parameter.value) args), .item (.jump .br br.target)] := by
    rw [← hparams]
    rfl
  rw [hev] at hat ⊢
  refine Program.sound_note trivial (Program.sound_item hat.note ?_ ?_)
  · intro τ ha
    refine ⟨fun hfalls => (by cases hfalls), ?_⟩
    intro l hl' q hq
    obtain rfl := List.mem_singleton.mp hl'
    exact L.enter hk hbody hbr hc hl hcar (ha.idle rfl) ha.cells ha.current hq
  · exact fun h ht => absurd ht (hquiet n h (Nat.le_refl n) (by omega))

theorem sound_jumpChunk (L : Laid ctx policy entry symbols plans t p P)
    (hk : Enters ctx.graph p P plans k)
    (hbody : Body ctx.graph p P.meaning before b b.instructions.length σ)
    (hsend : b.Sends ctx.graph result caught target args)
    (ht : Takes p.kept vs args [] alone) (hc : σ.Carries vs) (hvs : ∀ v ∈ vs, v ∈ p.kept)
    (hr : ∀ v ∈ args, v ∉ p.kept →
      ∃ w, Ready p P.meaning (fun v => ¬ P.meaning.exposed v) σ v w)
    (hat : P.At n (p.chunkEvents ctx.graph (.jump target args) (some (target, args)) alone later
      ++ es))
    (hquiet : P.Quiet n (p.chunk (.jump target args)).length) :
    P.Sound k n (p.chunkEvents ctx.graph (.jump target args) (some (target, args)) alone later
      ++ es) σ := by
  have hlen : (p.chunk (.jump target args)).length = (args.flatMap p.fetch).length + 1 := by
    simp [Placement.chunk, Chunk.jump]
  rw [hlen] at hquiet
  have hfront : P.Quiet n (args.flatMap p.fetch).length := hquiet.part (Nat.le_refl n) (by omega)
  refine sound_chunk L (fun _ h => h) ht hc (fun v hv => L.unexposed (L.kept_own (hvs v hv))) hr
    (by simp) rfl hat (hfront.guarded _ σ) ?_
  intro τ hτ hcar hatτ
  refine sound_jump L hk (hbody.agree L.valid (hτ.mono fun v hv => L.unexposed hv)) hsend hcar hatτ
    ?_
  exact hquiet.part (by omega) (by simp only [Chunk.jump]; omega)

theorem sound_arm (L : Laid ctx policy entry symbols plans t p P)
    (hk : Enters ctx.graph p P plans k) {a : Arm} (ha : Armed ctx.graph p P b a.args σ)
    (hsend : b.Sends ctx.graph result caught a.target a.args) {more : List Chunk}
    (hat : P.At n (p.flowEvents ctx.graph false (owned (a.chunks ++ more)) ++ es))
    (hquiet : P.Quiet n (a.chunks.flatMap p.chunk).length) :
    P.Sound k n (p.flowEvents ctx.graph false (owned (a.chunks ++ more)) ++ es) σ := by
  obtain ⟨before, hbody⟩ := ha.body
  have hlen : (a.chunks.flatMap p.chunk).length
      = 1 + (p.chunk (.jump a.target a.args)).length := by
    rw [Arm.chunks, List.flatMap_cons, List.flatMap_singleton, List.length_append]
    rfl
  rw [hlen] at hquiet
  have hev : p.flowEvents ctx.graph false (owned (a.chunks ++ more)) ++ es
      = .note (.chunk (.label a.label) false (.jump a.target a.args :: more))
        :: .item (.label a.label)
        :: (p.chunkEvents ctx.graph (.jump a.target a.args) (some (a.target, a.args)) false more
          ++ (p.flowEvents ctx.graph false (owned more) ++ es)) := by
    simp [Arm.chunks, flowEvents_owned, Placement.chunkEvents, Chunk.label, Chunk.events,
      Item.events, Chunk.isBarrier, Chunk.jump, Chunk.leg?, Item.opcode?]
  rw [hev] at hat ⊢
  refine Program.sound_note ?_ ?_
  · rw [Program.Meets, L.meets, Delivered]
    exact ⟨[], State.carries_nil ha.stack, by simp, fun _ => rfl⟩
  · have hfirst : P.Quiet n 1 := hquiet.part (Nat.le_refl n) (by omega)
    refine Program.sound_pass hat.note rfl
      (hfirst.guarded (fun v => ¬ P.meaning.exposed v) σ) (fun v hv => ⟨hv, by simp⟩) ?_
    intro τ hacts _
    have hagree : Agree (fun v => ¬ P.meaning.exposed v) σ τ :=
      hacts.agree fun v hv => ⟨hv, by simp⟩
    have hempty : τ.stack = [] := (hacts.idle rfl).trans ha.stack
    -- None of the arguments is kept, so all of them are fetched.
    have hunkept : a.args.takeWhile p.kept.contains = [] := by
      cases hargs : a.args with
      | nil => rfl
      | cons v rest =>
        obtain ⟨w, hw⟩ := ha.ready v (by simp [hargs])
        rw [List.takeWhile_cons_of_neg (by simpa using hw.unkept)]
    have htakes : Takes p.kept [] a.args [] false := by
      refine ⟨by simp [hunkept], ?_, fun _ => rfl⟩
      intro v hv
      obtain ⟨w, hw⟩ := ha.ready v ((List.dropWhile_sublist _).subset hv)
      exact hw.unkept
    refine sound_jumpChunk L hk (hbody.agree L.valid (hagree.mono fun v hv => L.unexposed hv)) hsend
      htakes (State.carries_nil hempty) (by simp) ?_ hat.note.next ?_
    · intro v hv _
      obtain ⟨w, hw⟩ := ha.ready v hv
      exact ⟨w, hw.agree hagree⟩
    · exact hquiet.part (by omega) (by omega)

end Jumps

end Execution

end StackCode
