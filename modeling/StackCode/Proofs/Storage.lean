import StackCode.Proofs.Lists
import StackCode.Proofs.Liveness
import StackCode.Stream.Allocation

namespace StackCode

section Pooling

variable {l : Liveness} {s : Pooling} {vs : List Value}

structure Pooling.Sound (l : Liveness) (s : Pooling) (vs : List Value) : Prop where
  placed : s.placed.map Prod.fst = vs.reverse
  occupies : ∀ e ∈ s.placed, ∃ pool, s.pools[e.2]? = some pool ∧ e.1 ∈ pool.occupants
  apart : ∀ pool ∈ s.pools, pool.occupants.Pairwise fun a b => l.interferes a b = false

theorem Pooling.Sound.place (h : s.Sound l vs) (e : Value × Ty) :
    (s.place l e).Sound l (vs ++ [e.1]) := by
  unfold Pooling.place
  split
  · next n hn =>
    obtain ⟨hlt, hadm, -⟩ := List.findIdx?_eq_some_iff_getElem.mp hn
    refine ⟨?_, ?_, ?_⟩
    · simp [h.placed]
    · intro f hf
      rcases List.mem_cons.mp hf with rfl | hf
      · refine ⟨s.pools[n].add e.1, ?_, by simp [Pool.add]⟩
        simp [hlt]
      · obtain ⟨pool, hp, hm⟩ := h.occupies f hf
        by_cases hfn : n = f.2
        · refine ⟨pool.add e.1, ?_, by simp [Pool.add, hm]⟩
          simp [hfn, hp]
        · refine ⟨pool, ?_, hm⟩
          simp [hfn, hp]
    · intro pool hp
      obtain ⟨k, hk⟩ := List.mem_iff_getElem?.mp hp
      rw [List.getElem?_modify] at hk
      obtain ⟨old, hold, rfl⟩ := Option.map_eq_some_iff.mp hk
      have hapart := h.apart old (List.mem_of_getElem? hold)
      split
      · next hnk =>
        subst hnk
        obtain ⟨_, rfl⟩ := List.getElem?_eq_some_iff.mp hold
        simp only [Pool.admits, Bool.and_eq_true, List.all_eq_true, Bool.not_eq_true'] at hadm
        exact List.pairwise_append.mpr ⟨hapart, by simp, fun w hw b hb => by
          rw [List.mem_singleton.mp hb]
          exact hadm.2 w hw⟩
      · exact hapart
  · refine ⟨?_, ?_, ?_⟩
    · simp [h.placed]
    · intro f hf
      rcases List.mem_cons.mp hf with rfl | hf
      · exact ⟨⟨e.2, [e.1]⟩, by simp, by simp⟩
      · obtain ⟨pool, hp, hm⟩ := h.occupies f hf
        exact ⟨pool, by rw [List.getElem?_append_left (List.getElem?_eq_some_iff.mp hp).1, hp], hm⟩
    · intro pool hp
      rcases List.mem_append.mp hp with hp | hp
      · exact h.apart pool hp
      · rw [List.mem_singleton.mp hp]
        simp

theorem Pooling.Sound.foldl (h : s.Sound l vs) (es : List (Value × Ty)) :
    (es.foldl (Pooling.place l) s).Sound l (vs ++ es.map Prod.fst) := by
  induction es generalizing s vs with
  | nil => simpa using h
  | cons e es ih => simpa using ih (h.place e)

theorem Pooling.sound_ofValues (l : Liveness) (es : List (Value × Ty)) :
    (Pooling.ofValues l es).Sound l (es.map Prod.fst) := by
  have h : ({} : Pooling).Sound l [] := ⟨by simp, by simp, by simp⟩
  exact h.foldl es

theorem Pooling.Sound.mem_iff (h : s.Sound l vs) {v : Value} :
    v ∈ vs ↔ ∃ n, (v, n) ∈ s.placed := by
  rw [← List.mem_reverse, ← h.placed]
  simp

theorem Liveness.interferes_comm (l : Liveness) (v w : Value) :
    l.interferes v w = l.interferes w v := by
  have hordered : ordered v w = ordered w v := ordered_eq_iff.mpr (.inr ⟨rfl, rfl⟩)
  rw [Liveness.interferes, Liveness.interferes, hordered]
  congr 1
  simp [eq_comm]

theorem Pooling.Sound.no_clash (h : s.Sound l vs) {v w : Value} {n : Nat} (hv : (v, n) ∈ s.placed)
    (hw : (w, n) ∈ s.placed) : l.interferes v w = false := by
  obtain ⟨pool, hp, hvp⟩ := h.occupies _ hv
  obtain ⟨pool', hp', hwp⟩ := h.occupies _ hw
  rw [hp, Option.some.injEq] at hp'
  subst hp'
  have hapart := h.apart pool (List.mem_of_getElem? hp)
  refine hapart.forall_of_forall_of_flip (by simp [Liveness.interferes]) ?_ hvp hwp
  exact hapart.imp fun h => by rwa [flip, l.interferes_comm]

end Pooling

theorem Allocation.mem_mapping_iff {parameters temporaries : List (Value × Ty)} {s : Pooling}
    {v : Value} {r : Register} : (v, r) ∈ (Allocation.ofPooling parameters s temporaries).mapping ↔
      (∃ n t, temporaries[n]? = some (v, t) ∧ r = .cell (s.pools.length + n) t)
        ∨ (∃ n t, (v, n) ∈ s.placed ∧ s.types[n]? = some t ∧ r = .cell n t)
        ∨ (∃ n t, parameters[n]? = some (v, t) ∧ r = .argument n t) := by
  simp only [ofPooling, List.mem_append, List.mem_reverse, or_assoc]
  refine or_congr ?_ (or_congr ?_ ?_)
  · simp only [List.mem_map, Prod.mk.injEq, Prod.exists, List.mem_zipIdx_iff_le_and_getElem?_sub]
    constructor
    · rintro ⟨w, t, n, ⟨hle, hn⟩, rfl, rfl⟩
      exact ⟨n - s.pools.length, t, hn, by rw [Nat.add_sub_cancel' hle]⟩
    · rintro ⟨n, t, hn, rfl⟩
      exact ⟨v, t, _, ⟨Nat.le_add_right _ _, by rwa [Nat.add_sub_cancel_left]⟩, rfl, rfl⟩
  · simp only [Pooling.mapping, List.mem_filterMap, Prod.exists, Option.map_eq_some_iff,
      Prod.mk.injEq]
    constructor
    · rintro ⟨w, n, hp, t, ht, rfl, rfl⟩
      exact ⟨n, t, hp, ht, rfl⟩
    · rintro ⟨n, t, hp, ht, rfl⟩
      exact ⟨v, n, hp, t, ht, rfl, rfl⟩
  · simp only [List.mem_map, Prod.mk.injEq, Prod.exists, List.mem_zipIdx_iff_getElem?]
    constructor
    · rintro ⟨w, t, n, hn, rfl, rfl⟩
      exact ⟨n, t, hn, rfl⟩
    · rintro ⟨n, t, hn, rfl⟩
      exact ⟨v, t, n, hn, rfl, rfl⟩

theorem Allocation.register?_cases {parameters temporaries : List (Value × Ty)} {s : Pooling}
    {v : Value} {r : Register}
    (h : (Allocation.ofPooling parameters s temporaries).register? v = some r) :
    (∃ n t, temporaries[n]? = some (v, t) ∧ r = .cell (s.pools.length + n) t)
      ∨ (∃ n t, (v, n) ∈ s.placed ∧ n < s.pools.length ∧ r = .cell n t)
      ∨ (∃ n t, parameters[n]? = some (v, t) ∧ r = .argument n t) := by
  rcases mem_mapping_iff.mp (mem_of_lookup h) with hm | ⟨n, t, hp, ht, hr⟩ | hm
  · exact .inl hm
  · have hlt := (List.getElem?_eq_some_iff.mp ht).1
    exact .inr (.inl ⟨n, t, hp, by simpa [Pooling.types] using hlt, hr⟩)
  · exact .inr (.inr hm)

theorem Allocation.register?_isSome {s : Schedule} {l : Liveness} {v : Value}
    (h : v ∈ (s.parameters ++ s.pooled ++ s.temporaries).map Prod.fst) :
    ((ofPooling s.parameters (.ofValues l s.pooled) s.temporaries).register? v).isSome = true := by
  have hs := Pooling.sound_ofValues l s.pooled
  suffices hr : ∃ r, (v, r) ∈ (ofPooling s.parameters
      (.ofValues l s.pooled) s.temporaries).mapping by
    obtain ⟨r, hr⟩ := hr
    rw [register?, List.lookup_isSome_iff]
    exact ⟨_, hr, by simp⟩
  obtain ⟨⟨v, t⟩, he, rfl⟩ := List.mem_map.mp h
  simp only [mem_mapping_iff]
  rw [List.mem_append, List.mem_append] at he
  rcases he with (he | he) | he
  · obtain ⟨n, hn⟩ := List.mem_iff_getElem?.mp he
    exact ⟨_, .inr (.inr ⟨n, t, hn, rfl⟩)⟩
  · obtain ⟨n, hp⟩ := hs.mem_iff.mp (List.mem_map_of_mem he)
    obtain ⟨pool, hpool, -⟩ := hs.occupies _ hp
    exact ⟨_, .inr (.inl ⟨n, pool.type, hp, by rw [Pooling.types, List.getElem?_map, hpool]; rfl,
      rfl⟩)⟩
  · obtain ⟨n, hn⟩ := List.mem_iff_getElem?.mp he
    exact ⟨_, .inl ⟨n, t, hn, rfl⟩⟩

theorem Allocation.shared_register {s : Schedule} {l : Liveness} {v w : Value} {r : Register}
    (hvw : v ≠ w)
    (hv : (ofPooling s.parameters (.ofValues l s.pooled) s.temporaries).register? v = some r)
    (hw : (ofPooling s.parameters (.ofValues l s.pooled) s.temporaries).register? w = some r) :
    v ∈ s.pooled.map Prod.fst ∧ w ∈ s.pooled.map Prod.fst ∧ l.interferes w v = false := by
  have hs := Pooling.sound_ofValues l s.pooled
  rcases register?_cases hv with ⟨n, t, hn, rfl⟩ | ⟨n, t, hn, hlt, rfl⟩ | ⟨n, t, hn, rfl⟩ <;>
    rcases register?_cases hw with ⟨m, u, hm, h⟩ | ⟨m, u, hm, hlt', h⟩ | ⟨m, u, hm, h⟩ <;>
    simp only [Register.cell.injEq, Register.argument.injEq, reduceCtorEq] at h
  · rw [Nat.add_left_cancel h.1, hm] at hn
    simp [hvw.symm] at hn
  · omega
  · omega
  · rw [← h.1] at hm
    exact ⟨hs.mem_iff.mpr ⟨_, hn⟩, hs.mem_iff.mpr ⟨_, hm⟩, hs.no_clash hm hn⟩
  · rw [h.1, hm] at hn
    simp [hvw.symm] at hn

theorem Allocation.ofSchedule_eq_ok {s : Schedule} {a : Allocation} (h : ofSchedule s = .ok a) :
    ∃ l, liveness s.items (s.pooled.map Prod.fst) = .ok l
      ∧ a = ofPooling s.parameters (.ofValues l s.pooled) s.temporaries := by
  unfold ofSchedule at h
  split at h
  · cases h
  · split at h
    · cases h
    · next l hl => exact ⟨l, hl, (Except.ok.inj h).symm⟩

section Paths

variable {items : List Item} {p q r : Nat} {ps qs : List Nat}

theorem Path.split (h : Path items p (ps ++ q :: qs) r) : Path items p ps q
    ∧ ∃ q', (Follows items q q' ∨ Throws items q q') ∧ Path items q' qs r := by
  generalize hl : ps ++ q :: qs = l at h
  induction h generalizing ps with
  | nil p => simp at hl
  | @run p p' r l hf h ih =>
    cases ps with
    | nil =>
      obtain ⟨rfl, rfl⟩ := List.cons.inj hl
      exact ⟨.nil _, p', .inl hf, h⟩
    | cons x ps =>
      obtain ⟨rfl, hl'⟩ := List.cons.inj hl
      exact ⟨.run hf (ih hl').1, (ih hl').2⟩
  | @throwAfter p p' r l ht h ih =>
    cases ps with
    | nil =>
      obtain ⟨rfl, rfl⟩ := List.cons.inj hl
      exact ⟨.nil _, p', .inr ht, h⟩
    | cons x ps =>
      obtain ⟨rfl, hl'⟩ := List.cons.inj hl
      exact ⟨.throwAfter ht (ih hl').1, (ih hl').2⟩
  -- No item is run where an exception comes before it, so the positions are those of the rest.
  | throwBefore ht h ih => exact ⟨.throwBefore ht (ih hl).1, (ih hl).2⟩

theorem Path.resume (h : Path items p (ps ++ q :: qs) r) :
    ∃ q', (Follows items q q' ∨ Throws items q q') ∧ Path items q' qs r := h.split.2

end Paths

def Schedule.Covers (s : Schedule) : Prop :=
  ∀ i ∈ s.items, ∀ v, i.register? = some v →
    v ∈ (s.parameters ++ s.pooled ++ s.temporaries).map Prod.fst

/-- On a path from a store of a value to a read of it, with no other store of it between them,
nothing else is stored in its register. -/
theorem stored_value_survives {s : Schedule} {a : Allocation} (hc : s.Covers)
    (h : Allocation.ofSchedule s = .ok a) {p store read : Nat} {before between : List Nat}
    (hp : Path s.items p (before ++ store :: between) read) {v : Value} {i : Item}
    (hstore : s.items[store]? = some (.store v)) (hread : s.items[read]? = some i)
    (hi : i.reads v = true) (hbetween : ∀ q ∈ between, s.items[q]? ≠ some (.store v)) :
    ∀ q ∈ between, ∀ w, s.items[q]? = some (.store w) → a.register? w ≠ a.register? v := by
  intro q hq w hqw hreg
  have hvw : v ≠ w := fun h => hbetween q hq (h ▸ hqw)
  obtain ⟨l, hl, rfl⟩ := Allocation.ofSchedule_eq_ok h
  have hm := hc _ (List.mem_of_getElem? hstore) v rfl
  obtain ⟨reg, hv⟩ := Option.isSome_iff_exists.mp (Allocation.register?_isSome (l := l) hm)
  obtain ⟨hvp, hwp, hno⟩ := Allocation.shared_register hvw hv (hreg.trans hv)
  obtain ⟨xs, ys, rfl⟩ := List.append_of_mem hq
  obtain ⟨_, -, hp⟩ := hp.resume
  obtain ⟨q', hq', hp⟩ := hp.resume
  have hlive : Live s.items v q' := by
    refine ⟨ys, read, hp, ⟨i, hread, hi⟩, ?_⟩
    intro m hm j hj
    rw [← Bool.not_eq_true, Item.stores_iff]
    rintro rfl
    exact hbetween m (by simp [hm]) hj
  rw [interferes_of_live hl hvp hwp hvw hqw hq' hlive] at hno
  cases hno

def guardedStore : Schedule :=
  ⟨[.store ⟨0⟩, .tryStart, .store ⟨1⟩, .jump .leave ⟨0⟩, .handlerStart ⟨.type, 0⟩, .load ⟨0⟩,
    .jump .leave ⟨0⟩, .handlerEnd, .label ⟨0⟩, .plain .ret], [],
    [(⟨0⟩, .signed 32), (⟨1⟩, .signed 32)], []⟩

theorem guardedStore_survives : ∃ a, Allocation.ofSchedule guardedStore = .ok a
    ∧ a.register? ⟨1⟩ ≠ a.register? ⟨0⟩ := by
  refine ⟨⟨[(⟨1⟩, .cell 1 (.signed 32)), (⟨0⟩, .cell 0 (.signed 32))],
    [.cell 0 (.signed 32), .cell 1 (.signed 32)], 0⟩, by decide +kernel, ?_⟩
  have hc : guardedStore.Covers := by
    intro i hi v hv
    simp only [guardedStore, List.mem_cons, List.not_mem_nil, or_false] at hi
    rcases hi with rfl | rfl | rfl | rfl | rfl | rfl | rfl | rfl | rfl | rfl <;>
      simp_all [Item.register?, guardedStore]
  have hthrow : Throws guardedStore.items 2 4 :=
    ⟨1, ⟨⟨_, rfl, rfl⟩, ⟨_, rfl, rfl⟩, by decide, .append (.plain rfl rfl) (.plain rfl rfl)⟩,
      by decide, by decide⟩
  have hp : Path guardedStore.items 0 ([] ++ 0 :: [1, 2, 4]) 5 :=
    .run (.next rfl rfl (by decide)) <| .run (.next rfl rfl (by decide)) <| .throwAfter hthrow <|
      .run (.next rfl rfl (by decide)) <| .nil 5
  exact stored_value_survives hc (by decide +kernel) hp rfl rfl rfl (by decide) 2
    (by decide) ⟨1⟩ rfl

end StackCode
