import Mathlib.Data.List.Flatten
import StackCode.Proofs.Definitions
import StackCode.Proofs.Heights
import StackCode.Proofs.Removal

namespace StackCode

def ValueInfo.Arises (g : Graph) (info : ValueInfo) : Prop :=
  match info.definition with
  | .parameter l _ => l ≠ g.entry
  | .instruction _ _ => info.type ≠ .void

namespace Placement

def isLoaded (p : Placement) (v : Value) : Bool :=
  !p.kept.contains v && (p.repeated.lookup v).isNone

def isStored (p : Placement) (v : Value) : Bool :=
  p.isLoaded v && !p.usage.isDead v && decide (0 < p.usage.count v)

end Placement

/-- The accesses to one value in a part of a stream: a load for each entry of `reads`, if it is
loaded at all, a store for each entry of `defs`, if it is stored at all, and nothing else. -/
structure Traffic (p : Placement) (v : Value) (items : List Item)
    (reads defs : List Value) : Prop where
  loads : items.count (.load v) = (p.isLoaded v).toNat * reads.count v
  stores : items.count (.store v) = (p.isStored v).toNat * defs.count v
  address : items.count (.address v) = 0

section Parts

variable {p : Placement} {v w : Value} {xs ys : List Item} {reads reads' defs defs' : List Value}

theorem Traffic.append (hx : Traffic p v xs reads defs) (hy : Traffic p v ys reads' defs') :
    Traffic p v (xs ++ ys) (reads ++ reads') (defs ++ defs') := by
  refine ⟨?_, ?_, ?_⟩
  · rw [List.count_append, List.count_append, hx.loads, hy.loads, Nat.mul_add]
  · rw [List.count_append, List.count_append, hx.stores, hy.stores, Nat.mul_add]
  · rw [List.count_append, hx.address, hy.address]

theorem traffic_nil : Traffic p v [] [] [] := ⟨rfl, rfl, rfl⟩

theorem Traffic.flatMap {α : Type} {as : List α} {f : α → List Item} {r d : α → List Value}
    (h : ∀ a ∈ as, Traffic p v (f a) (r a) (d a)) :
    Traffic p v (as.flatMap f) (as.flatMap r) (as.flatMap d) := by
  induction as with
  | nil => exact traffic_nil
  | cons a as ih =>
    rw [List.forall_mem_cons] at h
    exact h.1.append (ih h.2)

theorem Traffic.map {α : Type} {as : List α} {f : α → Item} {d : α → Value}
    (h : ∀ a ∈ as, Traffic p v [f a] [] [d a]) : Traffic p v (as.map f) [] (as.map d) := by
  induction as with
  | nil => exact traffic_nil
  | cons a as ih =>
    rw [List.forall_mem_cons] at h
    exact h.1.append (ih h.2)

theorem traffic_of_forall (h : ∀ i ∈ xs, i.register? ≠ some v)
    (hr : (p.isLoaded v).toNat * reads.count v = 0) (hd : (p.isStored v).toNat * defs.count v = 0) :
    Traffic p v xs reads defs := by
  have hnone : ∀ i : Item, i.register? = some v → xs.count i = 0 :=
    fun i hi => List.count_eq_zero.mpr fun hm => h i hm hi
  exact ⟨(hnone _ rfl).trans hr.symm, (hnone _ rfl).trans hd.symm, hnone _ rfl⟩

theorem Traffic.silent (h : Traffic p v xs reads defs)
    (hr : (p.isLoaded v).toNat * reads.count v = 0) (hd : (p.isStored v).toNat * defs.count v = 0) :
    ∀ i ∈ xs, i.register? ≠ some v := by
  intro i hi hv
  have hpos := List.count_pos_iff.mpr hi
  cases i with
  | load w =>
    obtain rfl := Option.some.inj hv
    have := h.loads
    omega
  | store w =>
    obtain rfl := Option.some.inj hv
    have := h.stores
    omega
  | address w =>
    obtain rfl := Option.some.inj hv
    have := h.address
    omega
  | _ => cases hv

theorem traffic_load (hw : p.isLoaded w = true) : Traffic p v [.load w] [w] [] := by
  by_cases h : w = v
  · subst h
    exact ⟨by simp [hw], by simp, by simp⟩
  · exact ⟨by simp [h], by simp, by simp⟩

theorem traffic_fetch (hp : ∀ code, p.repeated.lookup w = some code → ∀ i ∈ code,
    i.register? = none) :
    Traffic p v (p.fetch w) [w] [] := by
  have hunloaded (h : p.isLoaded w = false) : (p.isLoaded v).toNat * [w].count v = 0 := by
    by_cases hwv : w = v
    · rw [← hwv, h]
      simp
    · simp [hwv]
  rw [Placement.fetch]
  split
  · rename_i hk
    exact traffic_of_forall (by simp) (hunloaded (by rw [Placement.isLoaded, hk]; rfl)) (by simp)
  · rename_i hk
    split
    · rename_i code hcode
      have hw : p.isLoaded w = false := by rw [Placement.isLoaded, hcode, Bool.and_comm]; rfl
      refine traffic_of_forall ?_ (hunloaded hw) (by simp)
      intro i hi
      rw [hp code hcode i hi]
      exact (Option.some_ne_none v).symm
    · rename_i hnone
      rw [Bool.not_eq_true] at hk
      exact traffic_load (by rw [Placement.isLoaded, hk, hnone]; rfl)

theorem Traffic.congr (h : Traffic p v xs reads defs) (hr : reads.count v = reads'.count v)
    (hd : defs.count v = defs'.count v) : Traffic p v xs reads' defs' :=
  ⟨hr ▸ h.loads, hd ▸ h.stores, h.address⟩

theorem register?_settle (h : w ≠ v) : (p.settle w).register? ≠ some v := by
  rw [Placement.settle]
  split
  · exact fun he => h (Option.some.inj he)
  · exact (Option.some_ne_none v).symm

theorem traffic_settle (hw : p.isLoaded w = true) (hl : p.usage.isDead w = false) :
    Traffic p v [p.settle w] [] [w] := by
  have hstored : p.isStored w = decide (0 < p.usage.count w) := by simp [Placement.isStored, hw, hl]
  by_cases h : w = v
  · subst h
    rw [Placement.settle]
    split
    · rename_i hc
      exact ⟨by simp, by simp [hstored, hc], by simp⟩
    · rename_i hc
      exact ⟨by simp, by simp [hstored, hc], by simp⟩
  · apply traffic_of_forall _ (by simp) (by simp [h])
    rw [List.forall_mem_singleton]
    exact register?_settle h

end Parts

structure Surveyed (g : Graph) (entry : Block) (plans : List Plan) : Prop where
  start : g.block? g.entry = some entry
  blocks : plans.map Plan.block = g.order entry
  instrs : ∀ q ∈ plans, q.instrs.map Prod.fst = q.block.instructions
  code : ∀ q ∈ plans, ∀ c ∈ q.chunks, ∀ i ∈ c.code, ∀ v, i.register? = some v → g.values.size ≤ v.id

section Plans

variable {g : Graph} {entry : Block} {plans : List Plan} {policy : Policy}

theorem Coherent.order_perm (h : Coherent g.blocks g.values) (he : g.block? g.entry = some entry) :
    (g.order entry).Perm g.blocks.toList := by
  have hblocks : g.blocks.toList.Nodup := List.Nodup.of_map _ h.nodup_labels
  have hlabel : entry.label = g.entry := (h g.entry.id entry he).label
  have horder : (g.order entry).Nodup := by
    refine List.nodup_cons.mpr ⟨?_, hblocks.filter _⟩
    intro hm
    simpa [hlabel] using (List.mem_filter.mp hm).2
  rw [List.perm_ext_iff_of_nodup horder hblocks]
  intro b
  rw [Graph.order, List.mem_cons, List.mem_filter]
  constructor
  · rintro (rfl | ⟨hb, -⟩)
    · exact Array.mem_toList_iff.mpr (Array.mem_of_getElem? he)
    · exact hb
  · intro hb
    by_cases hl : b.label = g.entry
    · have := h.block?_label hb
      rw [hl, he] at this
      exact .inl (Option.some.inj this).symm
    · exact .inr ⟨hb, by simpa using hl⟩

theorem Surveyed.count_definitions (hs : Surveyed g entry plans) (hg : g.Built) (v : Value) :
    (plans.flatMap fun q => q.block.definitions).count v
      = if v.id < g.values.size then 1 else 0 := by
  rw [← hg.definite.once, listedValues,
    ← ((hg.coherent.order_perm hs.start).flatMap_right _).count_eq, ← hs.blocks, List.flatMap_map]

theorem Surveyed.distinct (hs : Surveyed g entry plans) (hg : g.Built) :
    ((plans.flatMap Plan.instrs).map Prod.fst).Nodup := by
  have heq : (plans.flatMap Plan.instrs).map Prod.fst
      = plans.flatMap fun q => q.block.instructions := by
    rw [List.map_flatMap]
    exact List.flatMap_congr fun q hq => hs.instrs q hq
  have hdefs : (plans.flatMap fun q => q.block.definitions).Nodup := by
    rw [List.nodup_iff_count]
    intro v
    rw [hs.count_definitions hg]
    split <;> omega
  rw [heq]
  exact hdefs.sublist (.flatMap_right _ fun q _ => List.sublist_append_right _ _)

theorem Surveyed.settled (hs : Surveyed g entry plans) (hg : g.Built) :
    Removal.Settled g plans (.settle g plans) :=
  Removal.settled_settle (hs.distinct hg)

theorem unregistered_repeated {w : Value} {code : List Item}
    (h : (Placement.ofPlans g policy plans).repeated.lookup w = some code) :
    ∀ i ∈ code, i.register? = none := by
  obtain ⟨-, q, -, c, i, -, -, -, -, -, hcode⟩ := repeated_cases rfl h
  exact hcode

theorem Surveyed.deps_repeated (hs : Surveyed g entry plans) (hg : g.Built) {e : Value × Chunk}
    (he : e ∈ plans.flatMap Plan.instrs) {code : List Item}
    (h : (Placement.ofPlans g policy plans).repeated.lookup e.1 = some code) : e.2.deps = [] := by
  obtain ⟨-, q, hq, c, i, hc, -, hd, -⟩ := repeated_cases rfl h
  have hmem : (e.1, c) ∈ plans.flatMap Plan.instrs := List.mem_flatMap.mpr ⟨q, hq, hc⟩
  have hsame := List.inj_on_of_nodup_map (hs.distinct hg) he hmem rfl
  rw [hsame]
  exact hd

theorem Surveyed.placed_parameter (hs : Surveyed g entry plans) (hg : g.Built) {p : Placement}
    (hp : p = .ofPlans g policy plans) {v : Value} (hv : g.instr? v = none) :
    p.usage.isDead v = false ∧ p.isLoaded v = true := by
  subst hp
  constructor
  · rw [Bool.eq_false_iff]
    intro hd
    have hpure := ((hs.settled hg).dropped v hd).1
    rw [Graph.pureAt, hv] at hpure
    cases hpure
  · have hkept : v ∉ (Placement.ofPlans g policy plans).kept := by
      intro hk
      obtain ⟨q, -, hc⟩ := candidate_of_kept hk
      have := (List.mem_filter.mp hc).2
      rw [hv] at this
      cases this
    have hrepeated : (Placement.ofPlans g policy plans).repeated.lookup v = none := by
      rw [Option.eq_none_iff_forall_ne_some]
      intro code hcode
      obtain ⟨-, q, -, c, i, -, -, -, hi, -⟩ := repeated_cases rfl hcode
      rw [hv] at hi
      cases hi
    rw [Placement.isLoaded, hrepeated, List.contains_eq_mem, decide_eq_false hkept]
    rfl

theorem Surveyed.mem_blocks (hs : Surveyed g entry plans) (hg : g.Built) {q : Plan}
    (hq : q ∈ plans) :
    q.block ∈ g.blocks.toList := by
  rw [← (hg.coherent.order_perm hs.start).mem_iff, ← hs.blocks]
  exact List.mem_map_of_mem hq

theorem Surveyed.instr? (hs : Surveyed g entry plans) (hg : g.Built) {e : Value × Chunk}
    (he : e ∈ plans.flatMap Plan.instrs) : ∃ i, g.instr? e.1 = some i := by
  obtain ⟨q, hq, he⟩ := List.mem_flatMap.mp he
  apply hg.coherent.instr?_eq_some (hs.mem_blocks hg hq)
  rw [← hs.instrs q hq]
  exact List.mem_map_of_mem he

end Plans

section Stream

variable {g : Graph} {entry : Block} {plans : List Plan} {policy : Policy} {p : Placement}
  {v : Value} {info : ValueInfo} {q : Plan}

theorem traffic_chunk (hp : p = .ofPlans g policy plans) {c : Chunk}
    (hc : ∀ i ∈ c.code, i.register? ≠ some v) : Traffic p v (p.chunk c) c.deps [] := by
  subst hp
  have hfetch := Traffic.flatMap fun w (_ : w ∈ c.deps) =>
    traffic_fetch (p := .ofPlans g policy plans) (v := v) (w := w) fun _ => unregistered_repeated
  have hcode : Traffic (.ofPlans g policy plans) v c.code [] [] :=
    traffic_of_forall hc (by simp) (by simp)
  have hnone : c.deps.flatMap (fun _ => ([] : List Value)) = [] := by simp
  rw [hnone] at hfetch
  simpa [Placement.chunk] using hfetch.append hcode

theorem instr_of_arises (hv : g.info? v = some info) (ha : info.Arises g) {i : Instr}
    (hi : g.instr? v = some i) (hdead : p.usage.isDead v = false)
    (hr : p.repeated.lookup v = none) (c : Chunk) :
    p.instr g (v, c) = p.chunk c ++ if p.kept.contains v then [] else [p.settle v] := by
  have htype : info.type ≠ .void := by
    obtain ⟨name, type, definition⟩ := info
    cases definition with
    | parameter l k =>
      rw [Graph.instr?, hv] at hi
      cases hi
    | instruction l j => exact ha
  rw [Placement.instr, hdead, hr, Option.isSome_none, Bool.or_false, if_neg Bool.false_ne_true,
    Graph.type?, hv, Option.map_some]
  split
  · rename_i heq
    cases heq
  · rename_i heq
    exact absurd (Option.some.inj heq) htype
  · rfl

theorem traffic_instr (hs : Surveyed g entry plans) (hg : g.Built)
    (hp : p = .ofPlans g policy plans) (hv : g.info? v = some info) (ha : info.Arises g)
    {e : Value × Chunk} (he : e ∈ plans.flatMap Plan.instrs)
    (hc : ∀ i ∈ e.2.code, i.register? ≠ some v) :
    Traffic p v (p.instr g e) (if p.usage.isDead e.1 then [] else e.2.deps) [e.1] := by
  have hdefs (h : e.1 = v → p.isStored v = false) : (p.isStored v).toNat * [e.1].count v = 0 := by
    by_cases hev : e.1 = v
    · simp [h hev]
    · simp [hev]
  -- A result that is dropped or repeated is not stored.
  by_cases hdead : p.usage.isDead e.1 = true
  · rw [Placement.instr, hdead, Bool.true_or, if_pos rfl, if_pos rfl]
    refine traffic_of_forall (by simp) (by simp) (hdefs ?_)
    rintro rfl
    simp [Placement.isStored, hdead]
  · rw [Bool.not_eq_true] at hdead
    cases hr : p.repeated.lookup e.1 with
    | some code =>
      rw [Placement.instr, hdead, hr, Option.isSome_some, Bool.or_true, if_pos rfl,
        if_neg Bool.false_ne_true]
      have hdeps : e.2.deps = [] := by
        subst hp
        exact hs.deps_repeated hg he hr
      refine traffic_of_forall (by simp) (by simp [hdeps]) (hdefs ?_)
      rintro rfl
      rw [Placement.isStored, Placement.isLoaded, hr]
      simp
    | none =>
      rw [hdead, if_neg Bool.false_ne_true]
      have hchunk := traffic_chunk hp hc
      by_cases hev : e.1 = v
      · subst hev
        obtain ⟨i, hi⟩ := hs.instr? hg he
        have hput : Traffic p e.1 (if p.kept.contains e.1 then [] else [p.settle e.1]) []
            [e.1] := by
          split
          · rename_i hk
            refine traffic_of_forall (by simp) (by simp) ?_
            rw [Placement.isStored, Placement.isLoaded, hk]
            simp
          · rename_i hk
            rw [Bool.not_eq_true] at hk
            exact traffic_settle (by rw [Placement.isLoaded, hk, hr]; rfl) hdead
        rw [instr_of_arises hv ha hi hdead hr]
        exact (hchunk.append hput).congr (by simp) (by simp)
      · have hput {items : List Item} (h : ∀ i ∈ items, i.register? ≠ some v) :
            Traffic p v items [] [e.1] := traffic_of_forall h (by simp) (by simp [hev])
        rw [Placement.instr, hdead, hr, Option.isSome_none, Bool.or_false,
          if_neg Bool.false_ne_true]
        refine (hchunk.append (hput ?_)).congr (by simp) (by simp)
        split
        · simp
        · simp
        · split
          · simp
          · simpa using register?_settle hev

theorem ne_of_arises (hg : g.Built) (hv : g.info? v = some info) (ha : info.Arises g) {b : Block}
    (hb : b ∈ g.blocks.toList) (hl : b.label = g.entry) : ∀ r ∈ b.parameters, r.value ≠ v := by
  rintro r hr rfl
  obtain ⟨name, k, hk⟩ := (hg.coherent _ b (hg.coherent.block?_label hb)).parameters r hr
  rw [Graph.info?, hk] at hv
  obtain rfl := Option.some.inj hv
  exact ha hl

theorem instr?_parameter (hg : g.Built) {b : Block} (hb : b ∈ g.blocks.toList) {r : Parameter}
    (hr : r ∈ b.parameters) : g.instr? r.value = none := by
  obtain ⟨name, k, hk⟩ := (hg.coherent _ b (hg.coherent.block?_label hb)).parameters r hr
  rw [Graph.instr?, Graph.info?, hk]

theorem traffic_arrivals (hs : Surveyed g entry plans) (hg : g.Built)
    (hp : p = .ofPlans g policy plans) (hv : g.info? v = some info) (ha : info.Arises g) {b : Block}
    (hb : b ∈ g.blocks.toList) :
    Traffic p v (p.arrivals g b) [] (b.parameters.map Parameter.value) := by
  by_cases hl : b.label = g.entry
  · have hne := ne_of_arises hg hv ha hb hl
    refine traffic_of_forall ?_ (by simp) ?_
    · rw [Placement.arrivals]
      split
      · simp
      · simpa [hl, Item.register?] using hne
    · rw [List.count_eq_zero.mpr, Nat.mul_zero]
      simpa using hne
  · have harrivals : p.arrivals g b = b.parameters.reverse.map fun r => p.settle r.value := by
      rw [Placement.arrivals]
      simp [hl]
    have hsettle : Traffic p v (p.arrivals g b) [] (b.parameters.reverse.map Parameter.value) := by
      rw [harrivals]
      apply Traffic.map
      intro r hr
      obtain ⟨hdead, hloaded⟩ :=
        hs.placed_parameter hg hp (instr?_parameter hg hb (List.mem_reverse.mp hr))
      exact traffic_settle hloaded hdead
    exact hsettle.congr rfl (by rw [List.map_reverse, List.count_reverse])

theorem flatMap_live (u : Usage) (es : List (Value × Chunk)) :
    (es.flatMap fun e => if u.isDead e.1 then [] else e.2.deps)
      = ((es.filter fun e => !u.isDead e.1).map Prod.snd).flatMap Chunk.deps := by
  induction es with
  | nil => rfl
  | cons e es ih =>
    rw [List.flatMap_cons, ih, List.filter_cons]
    cases u.isDead e.1 <;> simp

theorem traffic_block (hs : Surveyed g entry plans) (hg : g.Built)
    (hp : p = .ofPlans g policy plans) (hv : g.info? v = some info) (ha : info.Arises g)
    (hq : q ∈ plans) : Traffic p v (p.block g q)
      (((q.live p.usage).map Prod.snd ++ q.flow).flatMap Chunk.deps) q.block.definitions := by
  have hcode : ∀ c ∈ q.chunks, ∀ i ∈ c.code, i.register? ≠ some v := by
    intro c hc i hi hreg
    have hle := hs.code q hq c hc i hi v hreg
    have hlt := (Array.getElem?_eq_some_iff.mp hv).1
    omega
  have hlabel : Traffic p v [.label q.block.label] [] [] :=
    traffic_of_forall (by simp [Item.register?]) (by simp) (by simp)
  have hinstrs := Traffic.flatMap fun e (he : e ∈ q.instrs) =>
    traffic_instr hs hg hp hv ha (List.mem_flatMap.mpr ⟨q, hq, he⟩)
      (hcode e.2 (List.mem_append_left _ (List.mem_map_of_mem he)))
  have hflow := Traffic.flatMap fun c (hc : c ∈ q.flow) =>
    traffic_chunk hp (hcode c (List.mem_append_right _ hc))
  have harrivals := traffic_arrivals hs hg hp hv ha (hs.mem_blocks hg hq)
  have hdefs : q.instrs.flatMap (fun e => [e.1]) = q.block.instructions := by
    rw [← hs.instrs q hq, List.map_eq_flatMap]
  have hnone : q.flow.flatMap (fun _ => ([] : List Value)) = [] := by simp
  rw [flatMap_live, hdefs] at hinstrs
  rw [hnone] at hflow
  refine (((hlabel.append harrivals).append hinstrs).append hflow).congr ?_ ?_
  · simp [Plan.live]
  · simp [Block.definitions]

theorem traffic_stream (hs : Surveyed g entry plans) (hg : g.Built)
    (hp : p = .ofPlans g policy plans) (hv : g.info? v = some info) (ha : info.Arises g) :
    Traffic p v (g.preheader entry ++ plans.flatMap (p.block g)) (p.usage.remaining plans) [v] := by
  have hentry : entry ∈ g.blocks.toList :=
    (hg.coherent.order_perm hs.start).mem_iff.mp List.mem_cons_self
  have hpre : Traffic p v (g.preheader entry) [] [] := by
    have hne := ne_of_arises hg hv ha hentry (hg.coherent _ entry hs.start).label
    refine traffic_of_forall ?_ (by simp) (by simp)
    rw [Graph.preheader]
    split
    · simp
    · simpa [Item.register?] using hne
  have hblocks := Traffic.flatMap fun q (hq : q ∈ plans) => traffic_block hs hg hp hv ha hq
  refine (hpre.append hblocks).congr rfl ?_
  have hlt := (Array.getElem?_eq_some_iff.mp hv).1
  rw [List.nil_append, hs.count_definitions hg, if_pos hlt]
  simp

end Stream

namespace Placement

/-- The value never goes through a register: it has been dropped, is kept on the stack or repeated.
-/
def Bypasses (p : Placement) (v : Value) : Prop :=
  p.usage.isDead v = true ∨ v ∈ p.kept ∨ (p.repeated.lookup v).isSome = true

/-- Where the value is set down: directly behind its own chunk, or behind the label of its block in
its place among the parameters, the last of which comes first. -/
def SetsDown (p : Placement) (g : Graph) (entry : Block) (plans : List Plan) (items : List Item)
    (v : Value) (put : Item) : Definition → Prop
  | .instruction l _ => ∃ before q after es c fs, plans = before ++ q :: after ∧ q.block.label = l
      ∧ q.instrs = es ++ (v, c) :: fs
      ∧ items = (g.preheader entry ++ before.flatMap (p.block g)
          ++ .label l :: p.arrivals g q.block ++ es.flatMap (p.instr g))
        ++ (p.chunk c ++ [put])
        ++ (fs.flatMap (p.instr g) ++ q.flow.flatMap p.chunk ++ after.flatMap (p.block g))
  | .parameter l k => ∃ before q after rs type ts, plans = before ++ q :: after ∧ q.block.label = l
      ∧ q.block.parameters = rs ++ ⟨v, type⟩ :: ts ∧ rs.length = k
      ∧ items = (g.preheader entry ++ before.flatMap (p.block g))
        ++ .label l :: (ts.reverse.map fun r => p.settle r.value)
        ++ put :: (rs.reverse.map fun r => p.settle r.value)
        ++ (q.instrs.flatMap (p.instr g) ++ q.flow.flatMap p.chunk ++ after.flatMap (p.block g))

end Placement

structure Accounted (p : Placement) (g : Graph) (entry : Block) (plans : List Plan)
    (items : List Item) (v : Value) (info : ValueInfo) : Prop where
  bypassed : p.Bypasses v → ∀ i ∈ items, i.register? ≠ some v
  stores : ¬p.Bypasses v → items.count (.store v) = if v ∈ p.usage.remaining plans then 1 else 0
  loads : ¬p.Bypasses v → items.count (.load v) = (p.usage.remaining plans).count v
  addresses : items.count (.address v) = 0
  setDown : ¬p.Bypasses v → p.SetsDown g entry plans items v
    (if v ∈ p.usage.remaining plans then .store v else .plain .pop) info.definition

section Accounts

variable {g : Graph} {env : Environment} {entry : Block} {plans : List Plan} {policy : Policy}
  {p : Placement} {v : Value} {info : ValueInfo} {symbols : Symbols} {s : Schedule} {t : Selection}

theorem not_bypasses (h : ¬p.Bypasses v) : p.usage.isDead v = false ∧ p.kept.contains v = false
    ∧ p.repeated.lookup v = none ∧ p.isLoaded v = true := by
  rw [Placement.Bypasses, not_or, not_or, Bool.not_eq_true, Bool.not_eq_true,
    Option.isSome_eq_false_iff, Option.isNone_iff_eq_none] at h
  have hk : p.kept.contains v = false := by simpa using h.2.1
  exact ⟨h.1, hk, h.2.2, by rw [Placement.isLoaded, hk, h.2.2]; rfl⟩

theorem not_isLoaded (h : v ∈ p.kept ∨ (p.repeated.lookup v).isSome = true) :
    p.isLoaded v = false := by
  rw [Placement.isLoaded]
  rcases h with h | h
  · rw [List.contains_iff_mem.mpr h]
    rfl
  · rw [Option.isNone_eq_false_iff.mpr h, Bool.and_false]

theorem not_isStored (h : p.Bypasses v) : p.isStored v = false := by
  rw [Placement.isStored]
  rcases h with h | h
  · rw [h, Bool.not_true, Bool.and_false, Bool.false_and]
  · rw [not_isLoaded h, Bool.false_and, Bool.false_and]

theorem Surveyed.count_eq (hs : Surveyed g entry plans) (hg : g.Built)
    (hp : p = .ofPlans g policy plans) (v : Value) :
    p.usage.count v = (p.usage.remaining plans).count v := by
  subst hp
  exact (hs.settled hg).counts v

theorem Surveyed.settle_eq (hs : Surveyed g entry plans) (hg : g.Built)
    (hp : p = .ofPlans g policy plans) (v : Value) :
    p.settle v = if v ∈ p.usage.remaining plans then .store v else .plain .pop := by
  rw [Placement.settle, hs.count_eq hg hp]
  exact ite_congr (propext List.count_pos_iff) (fun _ => rfl) fun _ => rfl

theorem Surveyed.isStored_eq (hs : Surveyed g entry plans) (hg : g.Built)
    (hp : p = .ofPlans g policy plans) (hb : ¬p.Bypasses v) :
    p.isStored v = decide (v ∈ p.usage.remaining plans) := by
  obtain ⟨hdead, -, -, hloaded⟩ := not_bypasses hb
  rw [Placement.isStored, hloaded, hdead, hs.count_eq hg hp]
  simp [List.count_pos_iff]

theorem Surveyed.setsDown (hs : Surveyed g entry plans) (hg : g.Built)
    (hv : g.info? v = some info) (ha : info.Arises g) (hb : ¬p.Bypasses v) :
    p.SetsDown g entry plans
      (g.preheader entry ++ plans.flatMap (p.block g)) v (p.settle v) info.definition := by
  obtain ⟨b, hblock, hlists⟩ := hg.definite.recorded v info hv
  have hlabel : b.label = info.definition.block := (hg.coherent _ b hblock).label
  have hmem : b ∈ plans.map Plan.block := by
    rw [hs.blocks, (hg.coherent.order_perm hs.start).mem_iff]
    exact Array.mem_toList_iff.mpr (Array.mem_of_getElem? hblock)
  obtain ⟨q, hq, rfl⟩ := List.mem_map.mp hmem
  obtain ⟨before, after, hplans⟩ := List.append_of_mem hq
  obtain ⟨hdead, hkept, hrepeated, -⟩ := not_bypasses hb
  obtain ⟨name, type, definition⟩ := info
  cases definition with
  | parameter l k =>
    obtain ⟨rs, ts, hsplit, hk⟩ : ∃ rs ts, q.block.parameters = rs ++ ⟨v, type⟩ :: ts
        ∧ rs.length = k := by
      obtain ⟨hk, hget⟩ := List.getElem?_eq_some_iff.mp hlists
      refine ⟨q.block.parameters.take k, q.block.parameters.drop (k + 1), ?_, by simp; omega⟩
      rw [← hget, List.getElem_cons_drop, List.take_append_drop]
    have hne : q.block.label ≠ g.entry := hlabel ▸ ha
    -- Parameters are set down from the last one on, as that one lies on top.
    have harrivals : p.arrivals g q.block
        = q.block.parameters.reverse.map fun r => p.settle r.value := by
      rw [Placement.arrivals]
      simp [hne]
    refine ⟨before, q, after, rs, type, ts, hplans, hlabel, hsplit, hk, ?_⟩
    rw [hplans]
    simp only [List.flatMap_append, List.flatMap_cons, Placement.block, harrivals, hlabel, hsplit]
    simp [Definition.block]
  | instruction l i =>
    have hlisted : v ∈ q.instrs.map Prod.fst := by
      rw [hs.instrs q hq]
      exact hlists.1
    obtain ⟨⟨w, c⟩, he, rfl⟩ := List.mem_map.mp hlisted
    obtain ⟨es, fs, hinstrs⟩ := List.append_of_mem he
    have hinstr : p.instr g (w, c) = p.chunk c ++ [p.settle w] := by
      obtain ⟨i, hi⟩ := hs.instr? hg (List.mem_flatMap.mpr ⟨q, hq, he⟩)
      rw [instr_of_arises hv ha hi hdead hrepeated, hkept, if_neg Bool.false_ne_true]
    refine ⟨before, q, after, es, c, fs, hplans, hlabel, hinstrs, ?_⟩
    rw [hplans]
    simp only [List.flatMap_append, List.flatMap_cons, Placement.block, hinstrs, hinstr, hlabel]
    simp [Definition.block]

theorem surveyed_plans (hentry : g.block? g.entry = some entry)
    (h : (Select.plans ⟨g, env⟩ entry).run.run (.start g symbols) = (.ok plans, t)) :
    Surveyed g entry plans := by
  obtain ⟨hblocks, hplans⟩ := Select.plans_run hentry h
  exact ⟨hentry, hblocks, fun q hq => (hplans q hq).1,
    fun q hq c hc i hi v hv => (((hplans q hq).2 c hc).registers i hi v hv).after⟩

end Accounts

/-- Every access to a parameter or result in the stream of a graph is accounted for. -/
theorem register_traffic_accounted {g : Graph} {env : Environment} {policy : Policy}
    {symbols : Symbols} {s : Schedule} {t : Selection} (hg : g.Built)
    (h : (Select.schedule ⟨g, env⟩ policy).run.run (.start g symbols) = (.ok s, t)) :
    ∃ entry plans, g.block? g.entry = some entry
      ∧ (Select.plans ⟨g, env⟩ entry).run.run (.start g symbols) = (.ok plans, t)
      ∧ ∀ v info, g.info? v = some info → info.Arises g →
        Accounted (.ofPlans g policy plans) g entry plans s.items v info := by
  obtain ⟨entry, plans, hentry, hplans, hitems⟩ := Select.schedule_run h
  refine ⟨entry, plans, hentry, hplans, ?_⟩
  intro v info hv ha
  have hs := surveyed_plans hentry hplans
  have htraffic : Traffic (.ofPlans g policy plans) v _ _ _ := traffic_stream hs hg rfl hv ha
  rw [hitems]
  constructor
  · intro hb
    have hstored : (Placement.ofPlans g policy plans).isStored v = false := not_isStored hb
    apply htraffic.silent _ (by simp [hstored])
    rcases hb with hdead | hkept
    · have hread := ((hs.settled hg).dropped v hdead).2.2
      have hnone : ((Placement.ofPlans g policy plans).usage.remaining plans).count v = 0 :=
        List.count_eq_zero.mpr (Removal.not_mem_remaining.mpr hread)
      rw [hnone, Nat.mul_zero]
    · rw [not_isLoaded hkept, Bool.toNat_false, Nat.zero_mul]
  · intro hb
    rw [htraffic.stores, List.count_singleton_self, Nat.mul_one, hs.isStored_eq hg rfl hb]
    by_cases hread : v ∈ (Placement.ofPlans g policy plans).usage.remaining plans
    · simp [hread]
    · simp [hread]
  · intro hb
    rw [htraffic.loads, (not_bypasses hb).2.2.2, Bool.toNat_true, Nat.one_mul]
  · exact htraffic.address
  · intro hb
    rw [← hs.settle_eq hg rfl]
    exact hs.setsDown hg hv ha hb

def doublingSteps : List BuildStep :=
  let int : Ty := .int ⟨32, true⟩
  [.block "entry", .block "next",
    .parameter ⟨0⟩ none int, .parameter ⟨1⟩ none int, .parameter ⟨1⟩ none int,
    .instr ⟨0⟩ none ⟨.call ⟨.object "Task", "run", [int], int, true⟩ .static, [⟨0⟩]⟩,
    .flow ⟨0⟩ (.jump ⟨⟨1⟩, [.value ⟨3⟩, .value ⟨3⟩]⟩),
    .instr ⟨1⟩ none ⟨.intrinsic "arith.add" int [int, int], [⟨1⟩, ⟨1⟩]⟩,
    .flow ⟨1⟩ (.ret (some ⟨4⟩))]

def doubling : Graph := .ofSteps doublingSteps

theorem doubling_accounted : ∃ s t entry plans info,
    (Select.schedule ⟨doubling, {}⟩ .default).run.run (.start doubling {}) = (.ok s, t)
      ∧ s.items.count (.store ⟨3⟩) = 1 ∧ s.items.count (.load ⟨3⟩) = 2
      ∧ doubling.info? ⟨3⟩ = some info
      ∧ Accounted (.ofPlans doubling .default plans) doubling entry plans s.items ⟨3⟩ info := by
  have hbuilt : doubling.Built := by
    apply built_ofSteps
    decide +kernel
  have hcounts : ((Select.schedule ⟨doubling, {}⟩ .default).run.run
      (.start doubling {})).1.toOption.map (fun s => (s.items.count (.store ⟨3⟩),
        s.items.count (.load ⟨3⟩))) = some (1, 2) := by decide +kernel
  obtain ⟨s, t, hr, hcounts⟩ := run_of_toOption hcounts
  obtain ⟨hstore, hload⟩ := Prod.mk.inj hcounts
  obtain ⟨entry, plans, -, -, h⟩ := register_traffic_accounted hbuilt hr
  exact ⟨s, t, entry, plans, _, hr, hstore, hload, rfl, h ⟨3⟩ _ rfl nofun⟩

end StackCode
