import StackCode.Proofs.Regions

namespace StackCode

open Machine (Opcode Body Handler)

def Selected (chunks : List Chunk) (items : List Item) : Prop :=
  ∀ n i, items[n]? = some i → i.isModifier = true →
    ∃ c ∈ chunks, ∃ before after, items = before ++ c.code ++ after ∧ before.length ≤ n
      ∧ n < before.length + c.code.length

def Together (chunks : List Chunk) (items : List Item) (n : Nat) (m m' : Machine.Instr) : Prop :=
  ∃ c ∈ chunks, ∃ before xs ys after, c.code = xs ++ .op m :: .op m' :: ys
    ∧ items = before ++ c.code ++ after ∧ before.length + xs.length = n

section Streams

variable {chunks : List Chunk} {xs ys items : List Item} {c : Chunk}

theorem Selected.append (hx : Selected chunks xs) (hy : Selected chunks ys) :
    Selected chunks (xs ++ ys) := by
  intro n i hi hm
  by_cases hn : n < xs.length
  · rw [List.getElem?_append_left hn] at hi
    obtain ⟨c, hc, before, after, rfl, hle, hlt⟩ := hx n i hi hm
    exact ⟨c, hc, before, after ++ ys, by simp, hle, hlt⟩
  · rw [List.getElem?_append_right (by omega)] at hi
    obtain ⟨c, hc, before, after, rfl, hle, hlt⟩ := hy _ i hi hm
    refine ⟨c, hc, xs ++ before, after, by simp, ?_, ?_⟩
    · rw [List.length_append]
      omega
    · rw [List.length_append]
      omega

theorem selected_of_forall (h : ∀ i ∈ items, i.isModifier = false) : Selected chunks items := by
  intro n i hi hm
  rw [h i (List.mem_of_getElem? hi)] at hm
  cases hm

theorem Selected.flatMap {α : Type} {as : List α} {f : α → List Item}
    (h : ∀ a ∈ as, Selected chunks (f a)) : Selected chunks (as.flatMap f) := by
  induction as with
  | nil => exact selected_of_forall (by simp)
  | cons a as ih =>
    rw [List.forall_mem_cons] at h
    exact h.1.append (ih h.2)

theorem selected_code (hc : c ∈ chunks) : Selected chunks c.code := by
  intro n i hi _
  have hlt := (List.getElem?_eq_some_iff.mp hi).1
  exact ⟨c, hc, [], [], by simp, Nat.zero_le _, by simpa using hlt⟩

theorem Selected.next (h : Selected chunks items) (hg : ∀ c ∈ chunks, Glued c.code) {n : Nat}
    {i : Item} (hi : items[n]? = some i) (hm : i.isModifier = true) :
    ∃ m m', i = .op m ∧ items[n + 1]? = some (.op m') ∧ m.opcode.modifies m'.opcode = true
      ∧ Together chunks items n m m' := by
  obtain ⟨c, hc, before, after, rfl, hle, hlt⟩ := h n i hi hm
  obtain ⟨k, rfl⟩ := Nat.exists_eq_add_of_le hle
  have hk : k < c.code.length := by omega
  have hat : ∀ l, l < c.code.length → (before ++ c.code ++ after)[before.length + l]?
      = c.code[l]? := by
    intro l hl
    rw [List.append_assoc, List.getElem?_append_right (Nat.le_add_right ..),
      Nat.add_sub_cancel_left, List.getElem?_append_left hl]
  rw [hat k hk] at hi
  obtain ⟨j, hj, m, m', rfl, rfl, hmod⟩ := hg c hc k i hi hm
  have hk' : k + 1 < c.code.length := (List.getElem?_eq_some_iff.mp hj).1
  refine ⟨m, m', rfl, ?_, hmod, c, hc, before, c.code.take k, c.code.drop (k + 2), after, ?_, rfl,
    ?_⟩
  · rw [Nat.add_assoc, hat _ hk', hj]
  · rw [List.getElem?_eq_getElem hk] at hi
    rw [List.getElem?_eq_getElem hk'] at hj
    rw [← Option.some.inj hi, ← Option.some.inj hj, List.getElem_cons_drop, List.getElem_cons_drop,
      List.take_append_drop]
  · rw [List.length_take, Nat.min_eq_left (Nat.le_of_lt hk)]

end Streams

section Placed

variable {g : Graph} {policy : Policy} {plans : List Plan} {entry : Block} {p : Placement}

theorem isModifier_settle (v : Value) : (p.settle v).isModifier = false := by
  rw [Placement.settle]
  split <;> rfl

theorem selected_fetch (hp : p = .ofPlans g policy plans) (v : Value) :
    Selected (plans.flatMap Plan.chunks) (p.fetch v) := by
  rw [Placement.fetch]
  split
  · exact selected_of_forall (by simp)
  · split
    · rename_i code hcode
      obtain ⟨-, q, hq, c, i, hc, rfl, -⟩ := repeated_cases hp hcode
      apply selected_code
      exact List.mem_flatMap.mpr ⟨q, hq, List.mem_append_left _ (List.mem_map_of_mem hc)⟩
    · exact selected_of_forall (by simp [Item.isModifier, Item.opcode?])

theorem selected_chunk (hp : p = .ofPlans g policy plans) {c : Chunk}
    (hc : c ∈ plans.flatMap Plan.chunks) : Selected (plans.flatMap Plan.chunks) (p.chunk c) :=
  (Selected.flatMap fun v _ => selected_fetch hp v).append (selected_code hc)

theorem selected_block (hp : p = .ofPlans g policy plans) {q : Plan} (hq : q ∈ plans) :
    Selected (plans.flatMap Plan.chunks) (p.block g q) := by
  have hchunk : ∀ c ∈ q.chunks, Selected (plans.flatMap Plan.chunks) (p.chunk c) :=
    fun c hc => selected_chunk hp (List.mem_flatMap.mpr ⟨q, hq, hc⟩)
  have hlabel : Selected (plans.flatMap Plan.chunks) [.label q.block.label] :=
    selected_of_forall (by simp [Item.isModifier, Item.opcode?])
  have harrivals : Selected (plans.flatMap Plan.chunks) (p.arrivals g q.block) := by
    apply selected_of_forall
    rw [Placement.arrivals]
    split
    · simp
    · intro i hi
      obtain ⟨r, -, rfl⟩ := List.mem_map.mp hi
      split
      · rfl
      · exact isModifier_settle r.value
  have hinstr : ∀ e ∈ q.instrs, Selected (plans.flatMap Plan.chunks) (p.instr g e) := by
    intro e he
    rw [Placement.instr]
    split
    · exact selected_of_forall (by simp)
    · apply (hchunk e.2 (List.mem_append_left _ (List.mem_map_of_mem he))).append
      apply selected_of_forall
      split
      · simp
      · simp
      · split
        · simp
        · simpa using isModifier_settle e.1
  exact ((hlabel.append harrivals).append (.flatMap hinstr)).append
    (.flatMap fun c hc => hchunk c (List.mem_append_right _ hc))

theorem selected_stream (hp : p = .ofPlans g policy plans) :
    Selected (plans.flatMap Plan.chunks) (g.preheader entry ++ plans.flatMap (p.block g)) := by
  refine Selected.append ?_ (.flatMap fun q hq => selected_block hp hq)
  apply selected_of_forall
  rw [Graph.preheader]
  split
  · simp
  · simp [Item.isModifier, Item.opcode?]

end Placed

section Emitted

variable {items : List Item} {a : Allocation} {slots : List (Nat × Nat)} {s : Schedule}
  {extra : List Ty} {body : Body}

theorem Emits.isModifier {i : Item} {j : Machine.Instr} (h : Emits items a slots i j)
    (hj : j.opcode.modifiesNext = true) : i.isModifier = true := by
  cases h with
  | op => exact hj
  | renamed => exact hj
  | jump => exact hj
  | switch => cases hj
  | @argument how => cases how <;> cases hj
  | @cell how => cases how <;> cases hj

theorem mark_of_entryPoint (h : emit s a extra = .ok body) (hc : ∀ i, .op i ∈ s.items → i.Clean)
    {n : Nat} (hn : n ∈ body.entryPoints) :
    ∃ q mark, s.items[q]? = some mark ∧ mark.isMark = true ∧ address s.items q = n := by
  rcases List.mem_append.mp hn with hn | hn
  · obtain ⟨j, hj, hn⟩ := List.mem_flatMap.mp hn
    obtain ⟨l, -, -, hemits⟩ := emit_instrs h
    obtain ⟨item, hitem, hemitted⟩ := forall_of_forall₂ hemits.flip hj
    have hmem := (List.mem_filter.mp hitem).1
    obtain ⟨label, -, q, hq, rfl⟩ := hemitted.targets (fun k hk => hc k (hk ▸ hmem)) n hn
    exact ⟨q, _, hq.1, rfl, rfl⟩
  · obtain ⟨d, hd, hn⟩ := List.mem_flatMap.mp hn
    obtain ⟨q, hq, start, handler, hprotects, hhandles, hhandler, h₁, h₂, h₃, h₄⟩ :=
      forall_of_forall₂ (emit_handlers h).flip hd
    obtain ⟨first, hfirst, hopens⟩ := hprotects.opening
    obtain ⟨last, hlast, hcloses⟩ := hhandles.closing
    have hfirstMark : first.isMark = true := by cases first <;> first | rfl | cases hopens
    have hlastMark : last.isMark = true := by cases last <;> first | rfl | cases hcloses
    simp only [Handler.bounds, List.mem_cons, List.not_mem_nil, or_false] at hn
    rcases hn with rfl | rfl | rfl | rfl
    · exact ⟨start, first, hfirst, hfirstMark, h₁.symm⟩
    · exact ⟨handler, _, hhandler, rfl, h₂.symm⟩
    · exact ⟨handler, _, hhandler, rfl, h₃.symm⟩
    · exact ⟨q, last, hlast, hlastMark, h₄.symm⟩

theorem address_ne {n q : Nat} {i j mark : Item} (hi : items[n]? = some i)
    (hj : items[n + 1]? = some j)
    (him : i.isMark = false) (hjm : j.isMark = false) (hq : items[q]? = some mark)
    (hm : mark.isMark = true) : address items q ≠ address items n + 1 := by
  have hfirst := address_succ hi
  have hsecond := address_succ hj
  rw [him, if_neg Bool.false_ne_true] at hfirst
  rw [hjm, if_neg Bool.false_ne_true] at hsecond
  -- A mark before the second instruction has a smaller address, and one behind it a larger one.
  rcases Nat.lt_trichotomy q (n + 1) with hlt | rfl | hgt
  · have := address_mono items (Nat.le_of_lt_succ hlt)
    omega
  · rw [hj] at hq
    obtain rfl := Option.some.inj hq
    rw [hjm] at hm
    cases hm
  · have := address_mono items (show n + 1 + 1 ≤ q from hgt)
    omega

theorem item_of_emitted {instrs : List Machine.Instr}
    (h : List.Forall₂ (Emits items a slots) (items.filter fun i => !i.isMark) instrs) {k : Nat}
    {j : Machine.Instr} (hk : instrs[k]? = some j) :
    ∃ n i, items[n]? = some i ∧ address items n = k ∧ Emits items a slots i j := by
  rw [← sites_fst] at h
  have hlt : k < ((sites items).map Prod.fst).length := by
    rw [h.length_eq]
    exact (List.getElem?_eq_some_iff.mp hk).1
  have hemitted := forall₂_getElem? h (List.getElem?_eq_getElem hlt) hk
  obtain ⟨⟨i, n⟩, hsite, hfst⟩ := Option.map_eq_some_iff.mp
    ((List.getElem?_map ..).symm.trans (List.getElem?_eq_getElem hlt))
  rw [← hfst] at hemitted
  obtain ⟨hn, -, haddress⟩ := site_of_getElem? hsite
  exact ⟨n, i, hn, haddress, hemitted⟩

theorem modifier_of_emitted {instrs : List Machine.Instr}
    (h : List.Forall₂ (Emits items a slots) (items.filter fun i => !i.isMark) instrs)
    (hc : ∀ i, .op i ∈ items → i.Clean) {chunks : List Chunk} (hs : Selected chunks items)
    (hg : ∀ c ∈ chunks, Glued c.code) {k : Nat} {m : Machine.Instr} (hk : instrs[k]? = some m)
    (hm : m.opcode.modifiesNext = true) :
    ∃ n m', items[n]? = some (.op m) ∧ items[n + 1]? = some (.op m')
      ∧ address items n = k ∧ instrs[k + 1]? = some m' ∧ m.opcode.modifies m'.opcode = true
      ∧ Together chunks items n m m' := by
  obtain ⟨n, i, hn, rfl, hemitted⟩ := item_of_emitted h hk
  obtain ⟨l, m', rfl, hnext, hmod, hchunk⟩ := hs.next hg hn (hemitted.isModifier hm)
  -- Clean instructions are emitted as they are.
  have hclean : ∀ (q : Nat) (j : Machine.Instr), items[q]? = some (.op j) → j.Clean :=
    fun q j hq => hc j (List.mem_of_getElem? hq)
  obtain rfl := hemitted.op_eq (hclean _ _ hn)
  obtain ⟨j, hj, hemitted'⟩ := emitted_at h hnext rfl
  obtain rfl := hemitted'.op_eq (hclean _ _ hnext)
  rw [address_succ hn] at hj
  exact ⟨n, j, hn, hnext, rfl, hj, hmod, hchunk⟩

end Emitted

section Improved

variable {o : Options} {body : Body} {k : Nat} {m m' : Machine.Instr}

theorem plain_of_modifies (h : m.opcode.modifies m'.opcode = true) :
    m'.loadedSlot = none ∧ m'.storedSlot = none ∧ o.shorten m' = m' := by
  obtain ⟨opcode, operand⟩ := m'
  have hplain : opcode = .callvirt ∨ opcode = .volatile ∨ opcode.accessesMemory = true := by
    cases ho : m.opcode <;> simp_all [Opcode.modifies]
  have hshort : Machine.Instr.shortForm? ⟨opcode, operand⟩ = none := by
    cases opcode <;> first | rfl | simp [Opcode.accessesMemory] at hplain
  refine ⟨?_, ?_, ?_⟩
  · cases opcode <;> first | rfl | simp [Opcode.accessesMemory] at hplain
  · cases opcode <;> first | rfl | simp [Opcode.accessesMemory] at hplain
  · rw [Options.shorten, hshort, Option.getD_none, ite_self]

theorem modifiesNext_shortForm (h : m.shortForm? = some m') : m'.opcode.modifiesNext = false := by
  rw [Machine.Instr.shortForm?] at h
  dsimp only at h
  repeat' split at h
  all_goals cases h
  all_goals rfl

theorem modifiesNext_store {x : Machine.Slot} (h : m.storedSlot = some x) :
    m.opcode.modifiesNext = false := by
  rw [Machine.Instr.storedSlot] at h
  split at h <;> simp_all [Opcode.modifiesNext]

theorem modifier_of_improve (h : (Compile.improve o body).instrs[k]? = some m)
    (hm : m.opcode.modifiesNext = true) : body.instrs[k]? = some m := by
  rw [improve_instrs, List.getElem?_map] at h
  obtain ⟨j, hj, hshort⟩ := Option.map_eq_some_iff.mp h
  have hsame : j = m := by
    rw [Options.shorten] at hshort
    split at hshort
    · cases hs : j.shortForm? with
      | none =>
        rw [hs] at hshort
        exact hshort
      | some i =>
        rw [hs] at hshort
        obtain rfl : i = m := hshort
        rw [modifiesNext_shortForm hs] at hm
        cases hm
    · exact hshort
  subst hsame
  split at hj
  · rcases body.fuse_getElem? hj with ⟨-, rfl⟩ | ⟨-, x, -, hstore⟩ | ⟨-, -, hsame⟩
    · cases hm
    · rw [modifiesNext_store hstore] at hm
      cases hm
    · exact hsame
  · exact hj

theorem improve_modified (hk : body.instrs[k]? = some m') (h : m.opcode.modifies m'.opcode = true) :
    (Compile.improve o body).instrs[k]? = some m' := by
  obtain ⟨hload, hstore, hshort⟩ := plain_of_modifies (o := o) h
  have hfirst := not_between_of_loadedSlot hk hload
  rw [improve_getElem? hk hfirst (not_between_succ hk hstore hfirst), hshort]

theorem entryPoint_of_improve {n : Nat} (h : n ∈ (Compile.improve o body).entryPoints) :
    n ∈ body.entryPoints := by
  rcases List.mem_append.mp h with h | h
  · obtain ⟨i, hi, hn⟩ := List.mem_flatMap.mp h
    obtain ⟨j, hj, hn⟩ := targets_of_improve hi hn
    exact List.mem_append_left _ (List.mem_flatMap.mpr ⟨j, hj, hn⟩)
  · rw [improve_handlers] at h
    exact List.mem_append_right _ h

end Improved

/-- A modifier in finished code and what stands behind it. Control comes there only past the
modifier, and both are from the code of one chunk. -/
structure Compiled.Joins (c : Compiled) (plans : List Plan) (k : Nat) (m m' : Machine.Instr) :
    Prop where
  next : c.body.instrs[k + 1]? = some m'
  modifies : m.opcode.modifies m'.opcode = true
  unentered : (∀ i ∈ c.body.instrs, k + 1 ∉ i.operand.branchTargets)
    ∧ ∀ d ∈ c.body.handlers, k + 1 ≠ d.tryStart ∧ k + 1 ≠ d.tryEnd ∧ k + 1 ≠ d.handlerStart
      ∧ k + 1 ≠ d.handlerEnd
  selected : ∃ n, address c.schedule.items n = k
    ∧ Together (plans.flatMap Plan.chunks) c.schedule.items n m m'

/-- In the code of a graph that keeps the contract, every modifier stands right before an
instruction that it may modify, which was selected with it and which control cannot enter from
elsewhere. -/
theorem modifiers_joined {setting : Setting} {g : Graph} (hb : g.Built) (hf : g.fault? = none)
    {w w' : Workspace} {c : Compiled} (h : Compile.graph setting g w = (.ok c, w')) :
    ∃ entry plans t, g.block? g.entry = some entry
      ∧ (Select.plans ⟨g, setting.env⟩ entry).run.run (.start g w.symbols) = (.ok plans, t)
      ∧ ∀ k m, c.body.instrs[k]? = some m → m.opcode.modifiesNext = true →
        ∃ m', c.Joins plans k m m' := by
  obtain ⟨t, body, hschedule, -, hemit, hinstrs, hhandlers⟩ := Compile.graph_run hf h
  obtain ⟨-, -, -, -, hwell, -⟩ := (Select.holds_stream (hb.valid hf)).of_run hschedule
  obtain ⟨entry, plans, hentry, hplans, hitems⟩ := Select.schedule_run hschedule
  have hselected : Selected (plans.flatMap Plan.chunks) c.schedule.items := by
    rw [hitems]
    exact selected_stream rfl
  have hglued : ∀ d ∈ plans.flatMap Plan.chunks, Glued d.code := by
    intro d hd
    obtain ⟨q, hq, hd⟩ := List.mem_flatMap.mp hd
    exact (((Select.plans_run hentry hplans).2 q hq).2 d hd).glued
  obtain ⟨l, -, -, hemits⟩ := emit_instrs hemit
  refine ⟨entry, plans, t, hentry, hplans, ?_⟩
  intro k m hk hm
  rw [hinstrs] at hk
  have hbefore := modifier_of_improve hk hm
  obtain ⟨n, m', hn, hn', rfl, hnext, hmodifies, htogether⟩ :=
    modifier_of_emitted hemits hwell.clean hselected hglued hbefore hm
  have hnot : address c.schedule.items n + 1 ∉ body.entryPoints := by
    intro he
    obtain ⟨p, mark, hp, hmark, haddress⟩ := mark_of_entryPoint hemit hwell.clean he
    exact address_ne hn hn' rfl rfl hp hmark haddress
  have hunentered := mt (entryPoint_of_improve (o := setting.options)) hnot
  refine ⟨m', ?_, hmodifies, ⟨?_, ?_⟩, n, rfl, htogether⟩
  · rw [hinstrs]
    exact improve_modified hnext hmodifies
  · intro i hi ht
    rw [hinstrs] at hi
    exact hunentered (List.mem_append_left _ (List.mem_flatMap.mpr ⟨i, hi, ht⟩))
  · intro d hd
    rw [hhandlers] at hd
    have houtside : address c.schedule.items n + 1 ∉ d.bounds :=
      fun ht => hunentered (List.mem_append_right _ (List.mem_flatMap.mpr ⟨d, hd, ht⟩))
    simpa [Handler.bounds] using houtside

def sharedCellSteps : List BuildStep :=
  let int : Ty := .int ⟨32, true⟩
  let cell : Ty := .pointer .reference int
  let touch : Operation := .call ⟨.object "Cell", "touch", [], int, false⟩ (.constrained int)
  [.block "start", .block "done", .block "failed",
    .parameter ⟨0⟩ none cell, .parameter ⟨1⟩ none int, .parameter ⟨2⟩ none (.object "Captured"),
    .instr ⟨0⟩ none ⟨.load int ⟨true, some 2⟩, [⟨0⟩]⟩,
    .instr ⟨0⟩ none ⟨.store int ⟨true, none⟩, [⟨0⟩, ⟨3⟩]⟩,
    .flow ⟨0⟩ (.protect ⟨touch, [⟨0⟩]⟩ ⟨⟨1⟩, [.result]⟩ ⟨⟨2⟩, [.exception]⟩),
    .flow ⟨1⟩ (.ret (some ⟨1⟩)),
    .flow ⟨2⟩ (.ret (some ⟨3⟩)),
    .entry ⟨0⟩]

def sharedCell : Graph := .ofSteps sharedCellSteps

theorem sharedCell_joined : ∃ c w plans, Compile.graph {} sharedCell {} = (.ok c, w)
    ∧ c.body.instrs.countP (·.opcode.modifiesNext) = 4
    ∧ ∀ k m, c.body.instrs[k]? = some m → m.opcode.modifiesNext = true →
      ∃ m', c.Joins plans k m m' := by
  have hbuilt : sharedCell.Built := by
    apply built_ofSteps
    decide +kernel
  have hf : sharedCell.fault? = none := by decide +kernel
  have hfour : (Compile.graph {} sharedCell {}).1.toOption.map
      (fun c => c.body.instrs.countP (·.opcode.modifiesNext)) = some 4 := by
    decide +kernel
  obtain ⟨c, w, hr, hfour⟩ := run_of_toOption hfour
  obtain ⟨-, plans, -, -, -, hjoins⟩ := modifiers_joined hbuilt hf hr
  exact ⟨c, w, plans, hr, hfour, hjoins⟩

end StackCode
