import StackCode.Proofs.Emission
import StackCode.Proofs.Storage
import StackCode.Proofs.Streams

namespace StackCode

structure Schedule.WellFormed (s : Schedule) : Prop where
  covers : s.Covers
  clean : ∀ j, .op j ∈ s.items → j.Clean
  distinct : (s.items.filterMap Item.label?).Nodup
  placed : ∀ i ∈ s.items, i.Branches fun l => l ∈ s.items.filterMap Item.label?
  ranges : Balanced Item.isTryStart Item.isHandlerStart s.items
  handlers : Balanced Item.isHandlerStart Item.isHandlerEnd s.items

section Answers

variable {α β : Type}

theorem Answers.mono {r : Except CompileError α} {post post' : α → Prop} (h : Answers r post)
    (hp : ∀ a, post a → post' a) : Answers r post' := by
  cases r with
  | ok a => exact hp a h
  | error e => exact h

theorem Answers.found {r : Except CompileError α} {post : α → Prop} (h : Answers r post) :
    Answers r fun a => r = .ok a := by
  cases r with
  | ok a => rfl
  | error e => exact h

theorem answers_mapM {f : α → Except CompileError β} {post : α → β → Prop} {as : List α}
    (h : ∀ a ∈ as, Answers (f a) (post a)) :
    Answers (as.mapM f) fun bs => List.Forall₂ post as bs := by
  induction as with
  | nil => exact .nil
  | cons a as ih =>
    rw [List.forall_mem_cons] at h
    rw [List.mapM_cons]
    refine h.1.bind ?_
    intro b hb
    refine (ih h.2).bind ?_
    intro bs hbs
    exact .cons hb hbs

end Answers

section Pooled

variable {g : Graph} {excluded vs : List Value}

theorem pooledValues_ok (h : ∀ v ∈ vs, v ∈ excluded ∨ ∃ type, g.type? v = some type) :
    ∃ pooled, pooledValues g excluded vs = .ok pooled
      ∧ ∀ v ∈ vs, v ∈ excluded ∨ v ∈ pooled.map Prod.fst := by
  induction vs generalizing excluded with
  | nil => exact ⟨[], rfl, by simp⟩
  | cons v vs ih =>
    rw [List.forall_mem_cons] at h
    rw [pooledValues]
    split
    · rename_i hv
      obtain ⟨pooled, hp, hmem⟩ := ih h.2
      exact ⟨pooled, hp, List.forall_mem_cons.mpr ⟨.inl (List.contains_iff_mem.mp hv), hmem⟩⟩
    · rename_i hv
      obtain ⟨type, htype⟩ : ∃ type, g.type? v = some type :=
        h.1.resolve_left fun hm => hv (List.contains_iff_mem.mpr hm)
      have hrest : ∀ w ∈ vs, w ∈ v :: excluded ∨ ∃ type, g.type? w = some type := fun w hw =>
        (h.2 w hw).imp_left (List.mem_cons_of_mem v)
      obtain ⟨pooled, hp, hmem⟩ := ih hrest
      refine ⟨(v, type) :: pooled, by simp [htype, hp], ?_⟩
      rw [List.forall_mem_cons, List.map_cons]
      refine ⟨.inr List.mem_cons_self, ?_⟩
      intro w hw
      rcases hmem w hw with hm | hm
      · rcases List.mem_cons.mp hm with rfl | hm
        · exact .inr List.mem_cons_self
        · exact .inl hm
      · exact .inr (List.mem_cons_of_mem _ hm)

end Pooled

theorem ofPlans_wellFormed {g : Graph} {policy : Policy} {entry : Block} {plans : List Plan}
    {t : Selection} {labels : List Label} {items : List Item}
    (hitems : items = g.preheader entry ++ plans.flatMap
      ((Placement.ofPlans g policy plans).block g))
    (h : Formed (t.Knows g) (fun l => l ∈ labels) items labels) (hl : labels.Nodup) :
    ∃ s, Schedule.ofPlans g policy entry plans t.temporaries = .ok s ∧ s.items = items
      ∧ s.WellFormed := by
  have hknown : ∀ v ∈ items.filterMap Item.register?, v ∈ ((entry.parameters.map fun q =>
      (q.value, q.type)) ++ t.temporaries.filter fun e =>
        (items.filterMap Item.register?).contains e.1).map Prod.fst
      ∨ ∃ type, g.type? v = some type := by
    intro v hv
    obtain ⟨i, hi, hiv⟩ := List.mem_filterMap.mp hv
    rcases (h.sound i hi).register v hiv with htype | ⟨type, hm⟩
    · exact .inr htype
    · left
      refine List.mem_map.mpr ⟨(v, type), List.mem_append_right _ ?_, rfl⟩
      exact List.mem_filter.mpr ⟨hm, List.contains_iff_mem.mpr hv⟩
  obtain ⟨pooled, hpooled, hmem⟩ := pooledValues_ok hknown
  refine ⟨⟨items, entry.parameters.map fun q => (q.value, q.type), pooled,
    t.temporaries.filter fun e => (items.filterMap Item.register?).contains e.1⟩, ?_, rfl, ?_⟩
  · rw [Schedule.ofPlans, ← hitems, hpooled]
  · refine ⟨?_, ?_, ?_, ?_, h.ranges, h.handlers⟩
    · intro i hi v hv
      have := hmem v (List.mem_filterMap.mpr ⟨i, hi, hv⟩)
      simp only [List.map_append, List.mem_append] at this ⊢
      tauto
    · exact fun j hj => (h.sound _ hj).clean j rfl
    · rwa [h.labels]
    · intro i hi
      rw [h.labels]
      exact (h.sound i hi).targets

theorem Select.holds_wellFormed {ctx : Context} {policy : Policy} {symbols : Symbols}
    {calls : Machine.Opcode → Method → Prop} (hg : ctx.graph.Valid)
    (hc : ctx.graph.Calls ctx.env calls) (hs : ∀ S : Symbols, ∃ shape, Shaped calls shape S) :
    Holds ctx.graph.Wide (schedule ctx policy) (.start ctx.graph symbols) fun s t =>
      ∃ entry plans, Finished ctx calls entry symbols plans t
        ∧ s.items = ctx.graph.preheader entry
          ++ plans.flatMap ((Placement.ofPlans ctx.graph policy plans).block ctx.graph)
        ∧ s.WellFormed
        ∧ ∀ e ∈ t.temporaries, e.1 ∈ s.items.filterMap Item.register? → e ∈ s.temporaries := by
  obtain ⟨entry, he⟩ := hg.entry
  unfold schedule
  rw [he]
  refine (holds_plans hg hc he (Nat.le_refl _)).bind ?_
  rintro plans t ⟨hplans, -⟩
  have hfin : Finished ctx calls entry symbols plans t := ⟨he, hplans⟩
  obtain ⟨shape, hshape⟩ := hs t.symbols
  obtain ⟨labels, hformed, hnodup, -⟩ := formed_stream hg hfin hshape rfl
  obtain ⟨s, hok, hitems, hw⟩ := ofPlans_wellFormed rfl hformed hnodup
  have hget : Holds ctx.graph.Wide get t fun u t' => u = t ∧ t' = t := ⟨rfl, rfl⟩
  refine hget.bind ?_
  rintro _ _ ⟨rfl, rfl⟩
  rw [hok]
  refine ⟨entry, plans, hfin, hitems, hw, ?_⟩
  -- Of the scratch values, those that are accessed are listed.
  intro e he hv
  rw [Schedule.ofPlans] at hok
  split at hok
  · cases hok
  · cases hok
    exact List.mem_filter.mpr ⟨he, List.contains_iff_mem.mpr hv⟩

section Emission

variable {s : Schedule} {a : Allocation} {extra : List Ty}

theorem exists_onlyAt {items : List Item} (hd : (items.filterMap Item.label?).Nodup) {l : Label}
    (hl : l ∈ items.filterMap Item.label?) : ∃ p, OnlyAt items l p := by
  have hlabel : ∀ i : Item, i.label? = some l → i = .label l := by
    intro i hi
    cases i <;> cases hi
    rfl
  obtain ⟨i, hi, hil⟩ := List.mem_filterMap.mp hl
  obtain rfl := hlabel i hil
  obtain ⟨p, hp⟩ := List.mem_iff_getElem?.mp hi
  have hlt : ∀ m n : Nat, m < n → items[m]? = some (Item.label l) →
      items[n]? ≠ some (Item.label l) := by
    intro m n hmn hm hn
    obtain ⟨hm', hme⟩ := List.getElem?_eq_some_iff.mp hm
    obtain ⟨hn', hne⟩ := List.getElem?_eq_some_iff.mp hn
    have := List.pairwise_iff_getElem.mp (List.pairwise_filterMap.mp hd) m n hm' hn' hmn l
      (by rw [hme]; rfl) l (by rw [hne]; rfl)
    exact this rfl
  refine ⟨p, hp, ?_⟩
  intro q hq
  rcases Nat.lt_trichotomy q p with h | h | h
  · exact absurd hp (hlt q p h hq)
  · exact h
  · exact absurd hq (hlt p q h hp)

theorem Schedule.WellFormed.allocation (h : s.WellFormed) :
    Answers (Allocation.ofSchedule s) fun a =>
      ∃ l, a = .ofPooling s.parameters (.ofValues l s.pooled) s.temporaries := by
  rw [Allocation.ofSchedule]
  split
  · rfl
  · obtain ⟨c, hc⟩ := Control.ofItems_total h.ranges fun i hi l hl => by
      obtain ⟨p, hp⟩ := exists_onlyAt h.distinct (h.placed i hi l hl).1
      exact ⟨p, hp.lastAt⟩
    rw [liveness, hc]
    exact ⟨_, rfl⟩

def Machine.Instr.NamesCell (a : Allocation) (j : Machine.Instr) : Prop :=
  ∀ n, j.operand = .local n → ∃ t, (n, t) ∈ a.cells

structure Allocation.Stores (a : Allocation) (s : Schedule) : Prop where
  registers : ∀ i ∈ s.items, ∀ v, i.register? = some v → (a.register? v).isSome = true
  cells : ∀ v n t, a.register? v = some (.cell n t) → ∃ t', (n, t') ∈ a.cells
  temporaries : ∀ e ∈ s.temporaries, (a.register? e.1).isSome = true

theorem Allocation.stores_ofPooling (hc : s.Covers) (l : Liveness) :
    (ofPooling s.parameters (.ofValues l s.pooled) s.temporaries).Stores s := by
  refine ⟨fun i hi v hv => register?_isSome (hc i hi v hv), ?_, ?_⟩
  · intro v n t hv
    have hcell : ∀ n, n < (Pooling.ofValues l s.pooled).pools.length + s.temporaries.length →
        ∃ t, (n, t) ∈ (ofPooling s.parameters (.ofValues l s.pooled) s.temporaries).cells := by
      intro n hn
      have hlen : n < ((Pooling.ofValues l s.pooled).types ++ s.temporaries.map
          Prod.snd).length := by
        simpa [Pooling.types] using hn
      obtain ⟨t, hget⟩ : ∃ t, ((Pooling.ofValues l s.pooled).types
          ++ s.temporaries.map Prod.snd)[n]? = some t := ⟨_, List.getElem?_eq_getElem hlen⟩
      have hm : Register.cell n t ∈
          (ofPooling s.parameters (.ofValues l s.pooled) s.temporaries).registers :=
        List.mem_map.mpr ⟨(t, n), List.mem_zipIdx_iff_getElem?.mpr hget, rfl⟩
      exact ⟨t, List.mem_filterMap.mpr ⟨_, hm, rfl⟩⟩
    rcases register?_cases hv with ⟨m, t', hm, he⟩ | ⟨m, t', -, hlt, he⟩ | ⟨m, t', -, he⟩
    · obtain ⟨rfl, -⟩ := Register.cell.inj he
      have := (List.getElem?_eq_some_iff.mp hm).1
      exact hcell _ (by omega)
    · obtain ⟨rfl, -⟩ := Register.cell.inj he
      exact hcell _ (by omega)
    · cases he
  · intro e he
    refine register?_isSome ?_
    rw [List.map_append]
    exact List.mem_append_right _ (List.mem_map_of_mem he)

theorem Allocation.Stores.access (h : a.Stores s) (how : Access) {v : Value}
    (hv : (a.register? v).isSome = true) :
    Answers (a.access how v) fun j => j.NamesCell a := by
  obtain ⟨r, hr⟩ := Option.isSome_iff_exists.mp hv
  rw [Allocation.access, Allocation.register, hr]
  cases r with
  | argument n t =>
    rintro m ⟨⟩
  | cell n t =>
    dsimp only
    split
    · rfl
    · rintro m ⟨⟩
      exact h.cells v n t hr

structure Marks.Tallies (xs : List Item) (m : Marks) : Prop where
  tries : m.tries.length + xs.countP Item.isHandlerStart = xs.countP Item.isTryStart
  opened : m.opened.length + xs.countP Item.isHandlerEnd = xs.countP Item.isHandlerStart
  labels : ∀ l, (m.labels.lookup l).isSome = true → l ∈ xs.filterMap Item.label?

theorem Marks.Tallies.add {xs : List Item} {m : Marks} {i : Item} (h : m.Tallies xs)
    (ht : (xs ++ [i]).countP Item.isHandlerStart ≤ (xs ++ [i]).countP Item.isTryStart)
    (hh : (xs ++ [i]).countP Item.isHandlerEnd ≤ (xs ++ [i]).countP Item.isHandlerStart)
    (hl : ∀ l, i = .label l → l ∉ xs.filterMap Item.label?) (k : Nat) :
    ∃ m', m.add k i = .ok m' ∧ m'.Tallies (xs ++ [i]) := by
  have hcount : ∀ f : Item → Bool, (xs ++ [i]).countP f = xs.countP f + if f i then 1 else 0 :=
    fun f => by rw [List.countP_append, List.countP_singleton]
  have hlabels : ∀ l, (m.labels.lookup l).isSome = true
      → l ∈ (xs ++ [i]).filterMap Item.label? := by
    intro l hm
    rw [List.filterMap_append]
    exact List.mem_append_left _ (h.labels l hm)
  have h₁ := h.tries
  have h₂ := h.opened
  rw [hcount, hcount] at ht hh
  cases i with
  | label l =>
    have hnew : m.labels.lookup l = none := by
      rw [← Option.not_isSome_iff_eq_none]
      exact fun hs => hl l rfl (h.labels l hs)
    refine ⟨{ m with labels := (l, k) :: m.labels }, by simp [Marks.add, hnew], ?_, ?_, ?_⟩
    · rwa [hcount, hcount]
    · rwa [hcount, hcount]
    · intro l' hl'
      rw [List.lookup_cons] at hl'
      rw [List.filterMap_append]
      split at hl'
      · rename_i he
        rw [beq_iff_eq.mp he]
        exact List.mem_append_right _ List.mem_cons_self
      · exact List.mem_append_left _ (h.labels l' hl')
  | tryStart =>
    refine ⟨_, rfl, ?_, ?_, hlabels⟩
    · simp [hcount, Item.isHandlerStart, Item.isTryStart]
      omega
    · rwa [hcount, hcount]
  | handlerStart caught =>
    simp only [Item.isHandlerStart, Item.isTryStart, if_true, Bool.false_eq_true, if_false] at ht
    -- So far more ranges have been opened than have a handler, so one is left to close.
    obtain ⟨start, tries, hts⟩ := List.exists_cons_of_length_pos (l := m.tries) (by omega)
    rw [hts, List.length_cons] at h₁
    refine ⟨{ m with tries, opened := (start, k, caught) :: m.opened }, by simp [Marks.add, hts],
      ?_, ?_, hlabels⟩
    · simp [hcount, Item.isHandlerStart, Item.isTryStart]
      omega
    · simp [hcount, Item.isHandlerStart, Item.isHandlerEnd]
      omega
  | handlerEnd =>
    simp only [Item.isHandlerStart, Item.isHandlerEnd, if_true, Bool.false_eq_true, if_false] at hh
    obtain ⟨⟨start, handler, caught⟩, opened, hos⟩ :=
      List.exists_cons_of_length_pos (l := m.opened) (by omega)
    rw [hos, List.length_cons] at h₂
    refine ⟨{ m with opened, handlers := m.handlers ++ [⟨start, handler, handler, k, caught⟩] },
      by simp [Marks.add, hos], ?_, ?_, hlabels⟩
    · rwa [hcount, hcount]
    · simp [hcount, Item.isHandlerStart, Item.isHandlerEnd]
      omega
  | _ => exact ⟨m, rfl, by rwa [hcount, hcount], by rwa [hcount, hcount], hlabels⟩

theorem Allocation.Stores.checkAccess (h : a.Stores s) {i : Item} (hi : i ∈ s.items) :
    Answers (a.checkAccess i) fun _ => True := by
  have hr := h.registers i hi
  cases i with
  | load v => exact (h.access .load (hr v rfl)).bind fun _ _ => trivial
  | store v => exact (h.access .load (hr v rfl)).bind fun _ _ => trivial
  | address v => exact (h.access .load (hr v rfl)).bind fun _ _ => trivial
  | _ => trivial

theorem answers_marksFrom (h : s.WellFormed) (ha : a.Stores s) {xs rest : List Item}
    (hi : s.items = xs ++ rest) {m : Marks} (hm : m.Tallies xs) (k : Nat) :
    Answers (a.marksFrom (.ok m) k rest) fun m' => m'.Tallies s.items := by
  have hct := h.ranges.counts fun _ => Item.not_isHandlerStart
  have hch := h.handlers.counts fun _ => Item.not_isHandlerEnd
  induction rest generalizing xs m k with
  | nil =>
    rw [List.append_nil] at hi
    rw [hi]
    exact hm
  | cons i rest ih =>
    have hi' : s.items = (xs ++ [i]) ++ rest := by simpa using hi
    have hnew : ∀ l, i = .label l → l ∉ xs.filterMap Item.label? := by
      intro l hl hxs
      have hd := h.distinct
      rw [hi, hl, List.filterMap_append, List.nodup_append] at hd
      exact hd.2.2 l hxs l (by simp [Item.label?]) rfl
    obtain ⟨m', hadd, hm'⟩ := hm.add (hct.2 _ _ hi') (hch.2 _ _ hi') hnew k
    rw [Allocation.marksFrom]
    split
    · rw [hadd]
      exact ih hi' hm' k
    · rename_i hmark
      have hsame : m.add k i = .ok m := by cases i <;> simp_all [Marks.add, Item.isMark]
      rw [hsame] at hadd
      obtain rfl := Except.ok.inj hadd
      have hc := ha.checkAccess (i := i) (by simp [hi])
      split
      · rename_i e he
        rw [he] at hc
        exact hc
      · rename_i heq
        cases heq
      · rename_i heq
        cases heq
        exact ih hi' hm' (k + 1)

theorem answers_marks (h : s.WellFormed) (ha : a.Stores s) :
    Answers (a.marks s.items) fun _ => True := by
  have hstart : ({} : Marks).Tallies [] := ⟨rfl, rfl, by simp⟩
  have hm := answers_marksFrom h ha (List.nil_append s.items).symm hstart 0
  have hct : s.items.countP Item.isTryStart = s.items.countP Item.isHandlerStart :=
    (h.ranges.counts fun _ => Item.not_isHandlerStart).1
  have hch : s.items.countP Item.isHandlerStart = s.items.countP Item.isHandlerEnd :=
    (h.handlers.counts fun _ => Item.not_isHandlerEnd).1
  rw [Allocation.marks]
  split
  · rename_i e he
    rw [he] at hm
    exact hm
  · rename_i m he
    rw [he] at hm
    obtain ⟨htries, hopened, -⟩ : m.Tallies s.items := hm
    have h₁ : m.tries = [] := List.length_eq_zero_iff.mp (by omega)
    have h₂ : m.opened = [] := List.length_eq_zero_iff.mp (by omega)
    simp [h₁, h₂, Answers]

theorem answers_address? {labels : List (Label × Nat)} (h : s.WellFormed)
    (hl : LabelsAt s.items s.items.length labels) {i : Item} (hi : i ∈ s.items) {l : Label}
    (ht : l ∈ i.targets) : Answers (Allocation.address? labels l) fun _ => True := by
  obtain ⟨p, hp⟩ := exists_onlyAt h.distinct (h.placed i hi l ht).1
  have hlt := (List.getElem?_eq_some_iff.mp hp.1).1
  rw [Allocation.address?, (hl.found l (address s.items p)).mpr ⟨p, hlt, hp.1, rfl⟩]
  trivial

theorem answers_instr? {labels : List (Label × Nat)} (h : s.WellFormed) (ha : a.Stores s)
    (hl : LabelsAt s.items s.items.length labels) {i : Item} (hi : i ∈ s.items) :
    Answers (a.instr? labels i) fun o => ∀ j, o = some j → j.NamesCell a := by
  have hr := ha.registers i hi
  have haccess : ∀ (how : Access) (v : Value), i.register? = some v →
      Answers (do return some (← a.access how v)) fun o => ∀ j, o = some j → j.NamesCell a := by
    intro how v hv
    refine (ha.access how (hr v hv)).bind ?_
    rintro j hj k ⟨⟩
    exact hj
  cases i with
  | op j =>
    rintro k ⟨⟩ n hn
    exact absurd hn ((h.clean j hi).2 n)
  | jump o l =>
    refine (answers_address? h hl hi List.mem_cons_self).bind ?_
    rintro k - j ⟨⟩ n ⟨⟩
  | switch ls =>
    refine (answers_mapM fun l hm => answers_address? h hl hi hm).bind ?_
    rintro ks - j ⟨⟩ n ⟨⟩
  | load v => exact haccess .load v rfl
  | store v => exact haccess .store v rfl
  | address v => exact haccess .address v rfl
  | _ => rintro j ⟨⟩

theorem answers_locals (ha : a.Stores s) (extra : List Ty) :
    Answers (a.locals s.items s.temporaries extra) fun l =>
      ∀ n t, (n, t) ∈ a.cells → (l.slots.lookup n).isSome = true := by
  have hregisters : Answers (s.temporaries.mapM fun e => a.register e.1) fun _ => True := by
    have hone : ∀ e ∈ s.temporaries, Answers (a.register e.1) fun _ => True := by
      intro e he
      obtain ⟨r, hr⟩ := Option.isSome_iff_exists.mp (ha.temporaries e he)
      rw [Allocation.register, hr]
      trivial
    exact (answers_mapM hone).mono fun _ _ => trivial
  refine hregisters.bind ?_
  intro registers _
  dsimp only
  rw [Locals.arrange]
  split
  · rfl
  · intro n t hn
    have hslot : ∀ (cells : List (Nat × Ty)) (k : Nat), (n, t) ∈ cells →
        ∃ m, ((n, t), m) ∈ cells.zipIdx k := by
      intro cells k hm
      obtain ⟨i, hi⟩ := List.mem_iff_getElem?.mp hm
      exact ⟨k + i, List.mem_zipIdx_iff_le_and_getElem?_sub.mpr ⟨by omega, by simpa using hi⟩⟩
    have hlookup : ∀ (slots : List ((Nat × Ty) × Nat)) (m : Nat), ((n, t), m) ∈ slots →
        ((slots.map fun e => (e.1.1, e.2)).reverse.lookup n).isSome = true := by
      intro slots m hm
      rw [List.lookup_isSome_iff]
      exact ⟨(n, m), List.mem_reverse.mpr (List.mem_map.mpr ⟨_, hm, rfl⟩), by simp⟩
    cases hids : (registers.filterMap Register.cellId?).contains n
    · have hpooled : (n, t) ∈ a.cells.filter fun v =>
          !(registers.filterMap Register.cellId?).contains v.1 :=
        List.mem_filter.mpr ⟨hn, by rw [hids]; rfl⟩
      obtain ⟨m, hm⟩ := hslot _ 0 (List.mem_mergeSort.mpr hpooled)
      exact hlookup _ m (List.mem_append_left _ hm)
    · have hscratch : (n, t) ∈ a.cells.filter fun v =>
          (registers.filterMap Register.cellId?).contains v.1 :=
        List.mem_filter.mpr ⟨hn, hids⟩
      obtain ⟨m, hm⟩ := hslot _ _ hscratch
      exact hlookup _ m (List.mem_append_right _ hm)

theorem answers_renumber {l : Locals}
    (hl : ∀ n t, (n, t) ∈ a.cells → (l.slots.lookup n).isSome = true) {j : Machine.Instr}
    (hj : j.NamesCell a) : Answers (l.renumber j) fun _ => True := by
  have hfound : ∀ n, j.operand = .local n → ∃ m, l.slots.lookup n = some m := by
    intro n hn
    obtain ⟨t, ht⟩ := hj n hn
    exact Option.isSome_iff_exists.mp (hl n t ht)
  unfold Locals.renumber
  split
  all_goals first | trivial | skip
  all_goals
    rename_i n _ ho
    obtain ⟨m, hm⟩ := hfound n ho
    rw [hm]
    trivial

theorem answers_emit (h : s.WellFormed) (ha : a.Stores s) (extra : List Ty) :
    Answers (emit s a extra) fun _ => True := by
  refine (answers_marks h ha).found.bind ?_
  intro m hm
  refine (answers_mapM fun i hi => answers_instr? h ha (marks_at hm).1.labels hi).bind ?_
  intro code hcode
  refine (answers_locals ha extra).bind ?_
  intro l hl
  have hnames : ∀ j ∈ code.filterMap id, j.NamesCell a := by
    intro j hj
    obtain ⟨o, ho, hoj⟩ := List.mem_filterMap.mp hj
    obtain ⟨i, -, hi⟩ := forall_of_forall₂ hcode.flip ho
    exact hi j hoj
  refine (answers_mapM fun j hj => answers_renumber hl (hnames j hj)).bind ?_
  exact fun _ _ => trivial

end Emission

end StackCode
