import Mathlib.Data.List.Nodup
import StackCode.Proofs.Storage

namespace StackCode

structure Pooling.Filled (l : Liveness) (s : Pooling) (es : List (Value × Ty)) : Prop extends
    Pooling.Sound l s (es.map Prod.fst) where
  typed : List.Forall₂ (fun e p => p.1 = e.1 ∧ s.types[p.2]? = some e.2) es.reverse s.placed
  occupied : ∀ n pool, s.pools[n]? = some pool →
    pool.occupants ≠ [] ∧ ∀ v, v ∈ pool.occupants ↔ (v, n) ∈ s.placed
  recycled : s.recycled + s.pools.length = es.length

structure Pooling.Extends (s t : Pooling) : Prop where
  placed : s.placed <:+ t.placed
  types : s.types <+: t.types

section Pooling

variable {l : Liveness} {s t : Pooling} {es : List (Value × Ty)}

theorem Pooling.place_cases (l : Liveness) (s : Pooling) (e : Value × Ty) :
    (∃ n pool, s.pools[n]? = some pool ∧ pool.admits l e.1 e.2 = true
        ∧ (∀ m < n, ∀ pool, s.pools[m]? = some pool → pool.admits l e.1 e.2 = false)
        ∧ s.place l e = ⟨s.pools.modify n (·.add e.1), (e.1, n) :: s.placed, s.recycled + 1⟩)
      ∨ (∀ pool ∈ s.pools, pool.admits l e.1 e.2 = false)
        ∧ s.place l e = ⟨s.pools ++ [⟨e.2, [e.1]⟩], (e.1, s.pools.length) :: s.placed,
          s.recycled⟩ := by
  unfold place
  split
  · next n hn =>
    obtain ⟨hlt, hadm, hfirst⟩ := List.findIdx?_eq_some_iff_getElem.mp hn
    refine .inl ⟨n, _, List.getElem?_eq_getElem hlt, hadm, ?_, rfl⟩
    intro m hm pool hp
    obtain ⟨_, rfl⟩ := List.getElem?_eq_some_iff.mp hp
    exact Bool.eq_false_iff.mpr (hfirst m hm)
  · next hn => exact .inr ⟨List.findIdx?_eq_none_iff.mp hn, rfl⟩

theorem Pool.admits_iff {pool : Pool} {v : Value} {t : Ty} : pool.admits l v t = true ↔
    pool.type = t ∧ ∀ w ∈ pool.occupants, l.interferes w v = false := by
  simp [admits]

theorem Pooling.types_modify (pools : List Pool) (n : Nat) (v : Value) :
    (pools.modify n (·.add v)).map Pool.type = pools.map Pool.type := by
  apply List.ext_getElem?
  intro m
  rw [List.getElem?_map, List.getElem?_map, List.getElem?_modify]
  cases pools[m]? with
  | none => rfl
  | some pool => by_cases h : n = m <;> simp [h, Pool.add]

theorem Pooling.Filled.entry (h : s.Filled l es) {v : Value} {n : Nat} (hp : (v, n) ∈ s.placed) :
    ∃ t, (v, t) ∈ es ∧ s.types[n]? = some t := by
  obtain ⟨⟨w, t⟩, he, rfl, ht⟩ := forall_of_forall₂ h.typed.flip hp
  exact ⟨t, List.mem_reverse.mp he, ht⟩

theorem Pooling.Filled.place_of_entry (h : s.Filled l es) {v : Value} {t : Ty} (he : (v, t) ∈ es) :
    ∃ n, (v, n) ∈ s.placed ∧ s.types[n]? = some t := by
  obtain ⟨⟨w, n⟩, hp, rfl, ht⟩ := forall_of_forall₂ h.typed (List.mem_reverse.mpr he)
  exact ⟨n, hp, ht⟩

theorem Pooling.Filled.join (h : s.Filled l es) {n : Nat} {pool : Pool}
    (hn : s.pools[n]? = some pool)
    {v : Value} (hs : Sound l ⟨s.pools.modify n (·.add v), (v, n) :: s.placed, s.recycled + 1⟩
      ((es ++ [(v, pool.type)]).map Prod.fst)) :
    Filled l ⟨s.pools.modify n (·.add v), (v, n) :: s.placed, s.recycled + 1⟩
      (es ++ [(v, pool.type)]) := by
  refine ⟨hs, ?_, ?_, ?_⟩
  · rw [List.reverse_append, types, types_modify]
    refine .cons ⟨rfl, ?_⟩ h.typed
    rw [List.getElem?_map, hn]
    rfl
  · intro m pool' hm
    rw [List.getElem?_modify] at hm
    obtain ⟨old, hold, rfl⟩ := Option.map_eq_some_iff.mp hm
    split
    · next hnm =>
      subst hnm
      rw [hn, Option.some.injEq] at hold
      subst hold
      refine ⟨by simp [Pool.add], fun w => ?_⟩
      rw [Pool.add, List.mem_append, List.mem_singleton, (h.occupied n pool hn).2, List.mem_cons,
        Prod.mk.injEq, and_iff_left rfl, or_comm]
    · next hnm =>
      refine ⟨(h.occupied m old hold).1, fun w => ?_⟩
      rw [(h.occupied m old hold).2, List.mem_cons, Prod.mk.injEq]
      exact (or_iff_right fun he => hnm he.2.symm).symm
  · have := h.recycled
    simp only [List.length_modify, List.length_append, List.length_singleton]
    omega

theorem Pooling.Filled.widen (h : s.Filled l es) {v : Value} {t : Ty}
    (hs : Sound l ⟨s.pools ++ [⟨t, [v]⟩], (v, s.pools.length) :: s.placed, s.recycled⟩
      ((es ++ [(v, t)]).map Prod.fst)) :
    Filled l ⟨s.pools ++ [⟨t, [v]⟩], (v, s.pools.length) :: s.placed, s.recycled⟩
      (es ++ [(v, t)]) := by
  have hlt : ∀ w n, (w, n) ∈ s.placed → n < s.pools.length := by
    intro w n hw
    obtain ⟨pool, hp, -⟩ := h.occupies _ hw
    exact (List.getElem?_eq_some_iff.mp hp).1
  refine ⟨hs, ?_, ?_, ?_⟩
  · rw [List.reverse_append, types, List.map_append]
    refine .cons ⟨rfl, by simp⟩ (h.typed.imp ?_)
    rintro e p ⟨he, ht⟩
    exact ⟨he, (List.getElem?_append_left (List.getElem?_eq_some_iff.mp ht).1).trans ht⟩
  · intro n pool hn
    rcases Nat.lt_or_ge n s.pools.length with hlow | hhigh
    · rw [List.getElem?_append_left hlow] at hn
      refine ⟨(h.occupied n pool hn).1, fun w => ?_⟩
      rw [(h.occupied n pool hn).2, List.mem_cons, Prod.mk.injEq]
      exact (or_iff_right fun he => Nat.ne_of_lt hlow he.2).symm
    · rw [List.getElem?_append_right hhigh, List.getElem?_singleton] at hn
      split at hn
      · next hz =>
        obtain rfl : n = s.pools.length := by omega
        cases hn
        refine ⟨by simp, fun w => ?_⟩
        rw [List.mem_singleton, List.mem_cons, Prod.mk.injEq, and_iff_left rfl]
        exact (or_iff_left fun hw => Nat.lt_irrefl _ (hlt w _ hw)).symm
      · cases hn
  · have := h.recycled
    simp only [List.length_append, List.length_singleton]
    omega

theorem Pooling.Filled.place (h : s.Filled l es) (e : Value × Ty) :
    (s.place l e).Filled l (es ++ [e]) := by
  have hsound := h.toSound.place e
  rw [← List.map_singleton (f := Prod.fst), ← List.map_append] at hsound
  obtain ⟨v, t⟩ := e
  rcases s.place_cases l (v, t) with ⟨n, pool, hn, hadm, -, hs⟩ | ⟨-, hs⟩
  · obtain ⟨rfl, -⟩ := Pool.admits_iff.mp hadm
    rw [hs] at hsound ⊢
    exact h.join hn hsound
  · rw [hs] at hsound ⊢
    exact h.widen hsound

theorem Pooling.Filled.foldl (h : s.Filled l es) (fs : List (Value × Ty)) :
    (fs.foldl (Pooling.place l) s).Filled l (es ++ fs) := by
  induction fs generalizing s es with
  | nil => simpa using h
  | cons e fs ih => simpa using ih (h.place e)

theorem Pooling.filled_ofValues (l : Liveness) (es : List (Value × Ty)) :
    (Pooling.ofValues l es).Filled l es := by
  have h : ({} : Pooling).Filled l [] := ⟨⟨rfl, by simp, by simp⟩, .nil, by simp, rfl⟩
  exact h.foldl es

theorem Pooling.extends_place (l : Liveness) (s : Pooling) (e : Value × Ty) :
    s.Extends (s.place l e) := by
  rcases s.place_cases l e with ⟨n, pool, -, -, -, hs⟩ | ⟨-, hs⟩
  · rw [hs]
    have htypes : s.types <+: (s.pools.modify n (·.add e.1)).map Pool.type :=
      types_modify s.pools n e.1 ▸ List.prefix_refl _
    exact ⟨List.suffix_cons _ _, htypes⟩
  · rw [hs]
    exact ⟨List.suffix_cons _ _, by simp [types]⟩

theorem Pooling.extends_foldl (l : Liveness) (s : Pooling) (es : List (Value × Ty)) :
    s.Extends (es.foldl (place l) s) := by
  induction es generalizing s with
  | nil => exact ⟨List.suffix_refl _, List.prefix_refl _⟩
  | cons e es ih =>
    have h₁ := extends_place l s e
    have h₂ := ih (s.place l e)
    exact ⟨h₁.placed.trans h₂.placed, h₁.types.trans h₂.types⟩

theorem Pooling.Extends.getElem? (h : s.Extends t) {n : Nat} {type : Ty}
    (hn : s.types[n]? = some type) : t.types[n]? = some type := by
  obtain ⟨rest, hrest⟩ := h.types
  rw [← hrest, List.getElem?_append_left (List.getElem?_eq_some_iff.mp hn).1, hn]

theorem Pooling.Filled.mapping_keys (h : s.Filled l es) :
    s.mapping.map Prod.fst = (es.map Prod.fst).reverse := by
  rw [← h.placed, mapping, List.map_filterMap, ← List.filterMap_eq_map]
  apply List.filterMap_congr
  rintro ⟨v, n⟩ hp
  obtain ⟨t, -, ht⟩ := h.entry hp
  simp [ht]

theorem Pooling.Filled.placed_iff {fs : List (Value × Ty)} (h : s.Filled l es) (ht : t.Filled l fs)
    (he : s.Extends t) (hd : (fs.map Prod.fst).Nodup) {v : Value} (hv : v ∈ es.map Prod.fst)
    {n : Nat} : (v, n) ∈ t.placed ↔ (v, n) ∈ s.placed := by
  refine ⟨fun hn => ?_, fun hn => he.placed.subset hn⟩
  obtain ⟨m, hm⟩ := h.mem_iff.mp hv
  have hkeys : (t.placed.map Prod.fst).Nodup := by rwa [ht.placed, List.nodup_reverse]
  have hlookup := (lookup_iff_mem hkeys).mpr (he.placed.subset hm)
  rw [(lookup_iff_mem hkeys).mpr hn, Option.some.injEq] at hlookup
  exact hlookup ▸ hm

end Pooling

namespace Allocation

def Open (a : Allocation) (es : List (Value × Ty)) (n : Nat) (t : Ty) : Prop :=
  ∃ e ∈ es, a.register? e.1 = some (.cell n t)

def Free (a : Allocation) (l : Liveness) (es : List (Value × Ty)) (v : Value) (n : Nat) (t : Ty) :
    Prop :=
  a.Open es n t ∧ ∀ e ∈ es, a.register? e.1 = some (.cell n t) → l.interferes e.1 v = false

/-- A value comes to the first free cell of its type. If there is none, it comes to the first cell
that is not open yet. -/
def FirstFit (a : Allocation) (l : Liveness) (es : List (Value × Ty)) (v : Value) (t : Ty) : Prop :=
  ∃ n, a.register? v = some (.cell n t)
    ∧ (a.Free l es v n t ∧ (∀ m < n, ¬a.Free l es v m t)
      ∨ (∀ m, ¬a.Free l es v m t) ∧ ∀ m, m < n ↔ ∃ u, a.Open es m u)

/-- Storage of the values of a schedule, with pooled values placed one after the other. -/
structure Greedy (s : Schedule) (l : Liveness) (a : Allocation) : Prop where
  arguments : ∀ n v t, s.parameters[n]? = some (v, t) → a.register? v = some (.argument n t)
  numbered : ∀ n (r : Register), a.registers[n]? = some r → ∃ t, r = .cell n t
  typed : ∀ e ∈ s.pooled ++ s.temporaries, ∃ n, a.register? e.1 = some (.cell n e.2)
    ∧ Register.cell n e.2 ∈ a.registers
  alone : ∀ e ∈ s.temporaries, ∀ v, a.register? v = a.register? e.1 → v = e.1
  apart : ∀ e ∈ s.pooled, ∀ f ∈ s.pooled, a.register? e.1 = a.register? f.1 →
    l.interferes e.1 f.1 = false
  firstFit : ∀ n v t, s.pooled[n]? = some (v, t) → a.FirstFit l (s.pooled.take n) v t
  recycled : a.recycled + (a.registers.filter fun r =>
    !s.temporaries.any fun e => a.register? e.1 = some r).length = s.pooled.length

section Registers

variable {s : Schedule} {l : Liveness} {v : Value} {r : Register}

theorem keys_zipIdx {f : (Value × Ty) × Nat → Value × Register} (hf : ∀ e, (f e).1 = e.1.1)
    (es : List (Value × Ty)) (n : Nat) : ((es.zipIdx n).map f).map Prod.fst = es.map Prod.fst := by
  rw [List.map_map, ← List.zipIdx_map_fst n es, List.map_map, List.zipIdx_map_fst]
  exact List.map_congr_left fun e _ => hf e

theorem mapping_keys (s : Schedule) (l : Liveness) :
    (ofPooling s.parameters (.ofValues l s.pooled) s.temporaries).mapping.map Prod.fst =
      ((s.parameters ++ s.pooled ++ s.temporaries).map Prod.fst).reverse := by
  simp only [ofPooling, List.map_append, List.map_reverse, List.reverse_append, List.append_assoc,
    (Pooling.filled_ofValues l s.pooled).mapping_keys]
  rw [keys_zipIdx fun _ => rfl, keys_zipIdx fun _ => rfl]

theorem getElem?_registers (parameters : List (Value × Ty)) (p : Pooling)
    (temporaries : List (Value × Ty)) (n : Nat) :
    (ofPooling parameters p temporaries).registers[n]? =
      (p.types ++ temporaries.map Prod.snd)[n]?.map (Register.cell n) := by
  simp [ofPooling, List.getElem?_zipIdx, Function.comp_def]

theorem register_numbered {parameters temporaries : List (Value × Ty)} {p : Pooling} {n : Nat}
    (h : (ofPooling parameters p temporaries).registers[n]? = some r) : ∃ t, r = .cell n t := by
  rw [getElem?_registers, Option.map_eq_some_iff] at h
  obtain ⟨t, -, rfl⟩ := h
  exact ⟨t, rfl⟩

theorem getElem?_registers_of_cell {parameters temporaries : List (Value × Ty)} {p : Pooling}
    {n : Nat} {t : Ty}
    (h : (ofPooling parameters p temporaries).register? v = some (.cell n t)) :
    (ofPooling parameters p temporaries).registers[n]? = some (.cell n t) := by
  rw [getElem?_registers, Option.map_eq_some_iff]
  refine ⟨t, ?_, rfl⟩
  rcases mem_mapping_iff.mp (mem_of_lookup h) with
    ⟨k, u, hk, hr⟩ | ⟨k, u, -, hk, hr⟩ | ⟨k, u, -, hr⟩
  · obtain ⟨rfl, rfl⟩ := Register.cell.inj hr
    have hlen : p.types.length = p.pools.length := List.length_map _
    rw [List.getElem?_append_right (by omega), hlen, Nat.add_sub_cancel_left, List.getElem?_map, hk]
    rfl
  · obtain ⟨rfl, rfl⟩ := Register.cell.inj hr
    rw [List.getElem?_append_left (List.getElem?_eq_some_iff.mp hk).1, hk]
  · cases hr

section Scratch

variable {parameters temporaries : List (Value × Ty)} {p : Pooling}
  (hd : (temporaries.map Prod.fst).Nodup)

include hd

theorem register?_scratch {k : Nat} {t : Ty} (hk : temporaries[k]? = some (v, t)) :
    (ofPooling parameters p temporaries).register? v = some (.cell (p.pools.length + k) t) := by
  have hkeys : ((temporaries.zipIdx p.pools.length).map fun e =>
      (e.1.1, Register.cell e.2 e.1.2)).reverse.map Prod.fst
        = (temporaries.map Prod.fst).reverse := by
    rw [List.map_reverse, keys_zipIdx fun _ => rfl]
  have hmem : (v, Register.cell (p.pools.length + k) t) ∈
      ((temporaries.zipIdx p.pools.length).map fun e =>
        (e.1.1, Register.cell e.2 e.1.2)).reverse := by
    rw [List.mem_reverse, List.mem_map]
    exact ⟨((v, t), p.pools.length + k),
      List.mem_zipIdx_iff_le_and_getElem?_sub.mpr ⟨by simp, by simpa using hk⟩, rfl⟩
  rw [register?, ofPooling, List.append_assoc, List.lookup_append,
    (lookup_iff_mem (by rwa [hkeys, List.nodup_reverse])).mpr hmem]
  rfl

theorem held_iff {n : Nat} (hr : (ofPooling parameters p temporaries).registers[n]? = some r) :
    (∃ e ∈ temporaries, (ofPooling parameters p temporaries).register? e.1 = some r) ↔
      p.pools.length ≤ n := by
  have hlen : p.types.length = p.pools.length := List.length_map _
  rw [getElem?_registers, Option.map_eq_some_iff] at hr
  obtain ⟨t, ht, rfl⟩ := hr
  constructor
  · rintro ⟨⟨v, u⟩, he, hv⟩
    obtain ⟨k, hk⟩ := List.mem_iff_getElem?.mp he
    rw [register?_scratch hd hk, Option.some.injEq, Register.cell.injEq] at hv
    omega
  · intro hle
    rw [List.getElem?_append_right (by omega), List.getElem?_map, Option.map_eq_some_iff,
      hlen] at ht
    obtain ⟨⟨v, t⟩, hk, rfl⟩ := ht
    refine ⟨(v, t), List.mem_of_getElem? hk, ?_⟩
    rw [register?_scratch hd hk, Nat.add_sub_cancel' hle]

theorem length_unheld : ((ofPooling parameters p temporaries).registers.filter fun r =>
    !temporaries.any fun e => (ofPooling parameters p temporaries).register? e.1 = some r).length =
      p.pools.length := by
  have hheld : ∀ n r, (ofPooling parameters p temporaries).registers[n]? = some r →
      ((!temporaries.any fun e => (ofPooling parameters p temporaries).register? e.1 = some r)
        = true ↔ n < p.pools.length) := by
    intro n r hr
    have := held_iff hd hr
    simp only [Bool.not_eq_true', ← Bool.not_eq_true, List.any_eq_true, decide_eq_true_eq, this,
      Nat.not_le]
  have hlen : p.pools.length ≤ (ofPooling parameters p temporaries).registers.length := by
    simp [ofPooling, Pooling.types]
  rw [← List.take_append_drop p.pools.length (ofPooling parameters p temporaries).registers,
    List.filter_append, List.filter_eq_self.mpr, List.filter_eq_nil_iff.mpr, List.append_nil,
    List.length_take_of_le hlen]
  · intro r hr
    obtain ⟨n, hn⟩ := List.mem_iff_getElem?.mp hr
    rw [List.getElem?_drop] at hn
    rw [hheld _ r hn]
    omega
  · intro r hr
    obtain ⟨n, hn⟩ := List.mem_iff_getElem?.mp hr
    have hlt := (List.getElem?_eq_some_iff.mp hn).1
    rw [List.length_take] at hlt
    rw [List.getElem?_take_of_lt (by omega)] at hn
    rw [hheld n r hn]
    omega

end Scratch

variable (hd : ((s.parameters ++ s.pooled ++ s.temporaries).map Prod.fst).Nodup)

include hd

theorem register?_iff : (ofPooling s.parameters (.ofValues l s.pooled) s.temporaries).register? v =
    some r ↔ (v, r) ∈ (ofPooling s.parameters (.ofValues l s.pooled) s.temporaries).mapping :=
  lookup_iff_mem (by rwa [mapping_keys, List.nodup_reverse])

theorem register?_pooled (hv : v ∈ s.pooled.map Prod.fst) {n : Nat} {t : Ty} :
    (ofPooling s.parameters (.ofValues l s.pooled) s.temporaries).register? v = some (.cell n t) ↔
      (v, n) ∈ (Pooling.ofValues l s.pooled).placed
        ∧ (Pooling.ofValues l s.pooled).types[n]? = some t := by
  rw [register?_iff hd, mem_mapping_iff]
  constructor
  · rintro (⟨m, u, hm, -⟩ | ⟨m, u, hp, hm, hr⟩ | ⟨m, u, -, hr⟩)
    · rw [List.map_append, List.nodup_append] at hd
      have hmem := List.mem_map_of_mem (f := Prod.fst) (List.mem_of_getElem? hm)
      exact absurd rfl (hd.2.2 v (by simp [hv]) v hmem)
    · obtain ⟨rfl, rfl⟩ := Register.cell.inj hr
      exact ⟨hp, hm⟩
    · cases hr
  · rintro ⟨hp, ht⟩
    exact .inr (.inl ⟨n, t, hp, ht, rfl⟩)

theorem register?_earlier {k : Nat} (hv : v ∈ (s.pooled.take k).map Prod.fst) {n : Nat} {t : Ty} :
    (ofPooling s.parameters (.ofValues l s.pooled) s.temporaries).register? v = some (.cell n t) ↔
      (v, n) ∈ (Pooling.ofValues l (s.pooled.take k)).placed
        ∧ (Pooling.ofValues l (s.pooled.take k)).types[n]? = some t := by
  have hfilled := Pooling.filled_ofValues l (s.pooled.take k)
  have hext : (Pooling.ofValues l (s.pooled.take k)).Extends (Pooling.ofValues l s.pooled) := by
    have := Pooling.extends_foldl l (Pooling.ofValues l (s.pooled.take k)) (s.pooled.drop k)
    rwa [Pooling.ofValues, ← List.foldl_append, List.take_append_drop] at this
  have hpooled : (s.pooled.map Prod.fst).Nodup := by
    rw [List.map_append, List.map_append, List.nodup_append, List.nodup_append] at hd
    exact hd.1.2.1
  have hmem : v ∈ s.pooled.map Prod.fst := by
    rw [List.map_take] at hv
    exact List.mem_of_mem_take hv
  rw [register?_pooled hd hmem,
    hfilled.placed_iff (Pooling.filled_ofValues l s.pooled) hext hpooled hv]
  refine and_congr_right fun hp => ⟨fun ht => ?_, fun ht => hext.getElem? ht⟩
  obtain ⟨u, -, hu⟩ := hfilled.entry hp
  rw [hext.getElem? hu] at ht
  rw [hu, ht]

theorem open_iff {k n : Nat} {t : Ty} :
    (ofPooling s.parameters (.ofValues l s.pooled) s.temporaries).Open (s.pooled.take k) n t ↔
      (Pooling.ofValues l (s.pooled.take k)).types[n]? = some t := by
  have hfilled := Pooling.filled_ofValues l (s.pooled.take k)
  constructor
  · rintro ⟨e, he, hr⟩
    exact ((register?_earlier hd (List.mem_map_of_mem he)).mp hr).2
  · intro ht
    obtain ⟨pool, hpool, -⟩ := Option.map_eq_some_iff.mp (List.getElem?_map ▸ ht)
    obtain ⟨hne, hocc⟩ := hfilled.occupied n pool hpool
    obtain ⟨w, hw⟩ := List.exists_mem_of_ne_nil _ hne
    have hwp := (hocc w).mp hw
    obtain ⟨u, hu, -⟩ := hfilled.entry hwp
    exact ⟨(w, u), hu, (register?_earlier hd (List.mem_map_of_mem hu)).mpr ⟨hwp, ht⟩⟩

theorem free_iff {k n : Nat} {t : Ty} :
    (ofPooling s.parameters (.ofValues l s.pooled) s.temporaries).Free l (s.pooled.take k) v n t ↔
      ∃ pool, (Pooling.ofValues l (s.pooled.take k)).pools[n]? = some pool
        ∧ pool.admits l v t = true := by
  have hfilled := Pooling.filled_ofValues l (s.pooled.take k)
  have htypes : ∀ pool, (Pooling.ofValues l (s.pooled.take k)).pools[n]? = some pool →
      (Pooling.ofValues l (s.pooled.take k)).types[n]? = some pool.type := by
    intro pool hpool
    rw [Pooling.types, List.getElem?_map, hpool, Option.map_some]
  rw [Free, open_iff hd]
  constructor
  · rintro ⟨ht, hno⟩
    obtain ⟨pool, hpool, rfl⟩ := Option.map_eq_some_iff.mp (List.getElem?_map ▸ ht)
    refine ⟨pool, hpool, Pool.admits_iff.mpr ⟨rfl, ?_⟩⟩
    intro w hw
    have hwp := ((hfilled.occupied n pool hpool).2 w).mp hw
    obtain ⟨u, hu, -⟩ := hfilled.entry hwp
    exact hno (w, u) hu ((register?_earlier hd (List.mem_map_of_mem hu)).mpr ⟨hwp, ht⟩)
  · rintro ⟨pool, hpool, hadm⟩
    obtain ⟨rfl, hno⟩ := Pool.admits_iff.mp hadm
    refine ⟨htypes pool hpool, ?_⟩
    intro e he hr
    obtain ⟨hp, -⟩ := (register?_earlier hd (List.mem_map_of_mem he)).mp hr
    exact hno e.1 (((hfilled.occupied n pool hpool).2 e.1).mpr hp)

theorem firstFit_ofPooling {k : Nat} {t : Ty} (hk : s.pooled[k]? = some (v, t)) :
    (ofPooling s.parameters (.ofValues l s.pooled) s.temporaries).FirstFit l
      (s.pooled.take k) v t := by
  have htake : s.pooled.take (k + 1) = s.pooled.take k ++ [(v, t)] := by
    rw [List.take_add_one, hk, Option.toList_some]
  have hplace : Pooling.ofValues l (s.pooled.take (k + 1)) =
      (Pooling.ofValues l (s.pooled.take k)).place l (v, t) := by
    rw [htake, Pooling.ofValues, List.foldl_append]
    rfl
  have hmem : v ∈ (s.pooled.take (k + 1)).map Prod.fst := by simp [htake]
  simp only [FirstFit, free_iff hd, open_iff hd, register?_earlier hd hmem, hplace]
  rcases Pooling.place_cases l (Pooling.ofValues l (s.pooled.take k)) (v, t) with
    ⟨n, pool, hn, hadm, hfirst, hs⟩ | ⟨hnone, hs⟩
  · rw [hs]
    refine ⟨n, ⟨List.mem_cons_self, ?_⟩, .inl ⟨⟨pool, hn, hadm⟩, ?_⟩⟩
    · rw [Pooling.types, Pooling.types_modify, List.getElem?_map, hn, Option.map_some,
        (Pool.admits_iff.mp hadm).1]
    · rintro m hm ⟨pool', hpool', hadm'⟩
      rw [hfirst m hm pool' hpool'] at hadm'
      cases hadm'
  · rw [hs]
    refine ⟨_, ⟨List.mem_cons_self, by simp [Pooling.types]⟩, .inr ⟨?_, ?_⟩⟩
    · rintro m ⟨pool, hpool, hadm⟩
      rw [hnone pool (List.mem_of_getElem? hpool)] at hadm
      cases hadm
    · intro m
      simp [List.getElem?_eq_some_iff, Pooling.types]

end Registers

variable {s : Schedule}

theorem greedy_ofPooling (hd : ((s.parameters ++ s.pooled ++ s.temporaries).map Prod.fst).Nodup)
    (l : Liveness) : Greedy s l (ofPooling s.parameters (.ofValues l s.pooled) s.temporaries) := by
  have hfilled := Pooling.filled_ofValues l s.pooled
  have hd' := hd
  rw [List.map_append, List.map_append, List.nodup_append, List.nodup_append] at hd'
  have hscratch := hd'.2.1
  refine ⟨?_, ?_, ?_, ?_, ?_, ?_, ?_⟩
  · intro n v t hn
    exact (register?_iff hd).mpr (mem_mapping_iff.mpr (.inr (.inr ⟨n, t, hn, rfl⟩)))
  · exact fun n r => register_numbered
  · intro e he
    suffices hr : ∃ n, (ofPooling s.parameters (.ofValues l s.pooled) s.temporaries).register? e.1 =
        some (.cell n e.2) by
      obtain ⟨n, hr⟩ := hr
      exact ⟨n, hr, List.mem_of_getElem? (getElem?_registers_of_cell hr)⟩
    rcases List.mem_append.mp he with he | he
    · obtain ⟨n, hp, ht⟩ := hfilled.place_of_entry he
      exact ⟨n, (register?_pooled hd (List.mem_map_of_mem he)).mpr ⟨hp, ht⟩⟩
    · obtain ⟨k, hk⟩ := List.mem_iff_getElem?.mp he
      exact ⟨_, register?_scratch hscratch hk⟩
  · intro e he v hv
    by_contra hne
    obtain ⟨k, hk⟩ := List.mem_iff_getElem?.mp he
    have hr : (ofPooling s.parameters (.ofValues l s.pooled) s.temporaries).register? e.1 =
        some (.cell _ e.2) := register?_scratch hscratch hk
    have hpooled := (shared_register hne (hv.trans hr) hr).2.1
    exact hd'.2.2 e.1 (List.mem_append_right _ hpooled) e.1 (List.mem_map_of_mem he) rfl
  · intro e he f hf hef
    by_cases hne : e.1 = f.1
    · simp [Liveness.interferes, hne]
    · obtain ⟨n, hp, ht⟩ := hfilled.place_of_entry hf
      have hr := (register?_pooled hd (List.mem_map_of_mem hf)).mpr ⟨hp, ht⟩
      rw [l.interferes_comm]
      exact (shared_register hne (hef.trans hr) hr).2.2
  · exact fun n v t hn => firstFit_ofPooling hd hn
  · rw [length_unheld hscratch]
    exact hfilled.recycled

theorem allocation_greedy {a : Allocation}
    (hd : ((s.parameters ++ s.pooled ++ s.temporaries).map Prod.fst).Nodup)
    (h : ofSchedule s = .ok a) :
    ∃ l, liveness s.items (s.pooled.map Prod.fst) = .ok l ∧ Greedy s l a := by
  obtain ⟨l, hl, rfl⟩ := ofSchedule_eq_ok h
  exact ⟨l, hl, greedy_ofPooling hd l⟩

/-- The first two pooled values overlap, the third one has another type, and the last one finds the
first cell free again. -/
def mixedStorage : Schedule :=
  ⟨[.store ⟨1⟩, .store ⟨2⟩, .load ⟨1⟩, .load ⟨2⟩, .store ⟨3⟩, .load ⟨3⟩, .load ⟨0⟩, .store ⟨4⟩,
      .load ⟨4⟩, .address ⟨5⟩, .plain .ret],
    [(⟨0⟩, .signed 32)],
    [(⟨1⟩, .signed 32), (⟨2⟩, .signed 32), (⟨3⟩, .signed 64), (⟨4⟩, .signed 32)],
    [(⟨5⟩, .signed 32)]⟩

theorem mixedStorage_greedy :
    ((mixedStorage.parameters ++ mixedStorage.pooled ++ mixedStorage.temporaries).map
      Prod.fst).Nodup
      ∧ ∃ a, ofSchedule mixedStorage = .ok a
        ∧ a.mapping = [(⟨5⟩, .cell 3 (.signed 32)), (⟨4⟩, .cell 0 (.signed 32)),
          (⟨3⟩, .cell 2 (.signed 64)), (⟨2⟩, .cell 1 (.signed 32)), (⟨1⟩, .cell 0 (.signed 32)),
          (⟨0⟩, .argument 0 (.signed 32))]
        ∧ ∃ l, liveness mixedStorage.items [⟨1⟩, ⟨2⟩, ⟨3⟩, ⟨4⟩] = .ok l
          ∧ Greedy mixedStorage l a := by
  have hd : ((mixedStorage.parameters ++ mixedStorage.pooled
      ++ mixedStorage.temporaries).map Prod.fst).Nodup := by decide
  refine ⟨hd, ⟨_, [.cell 0 (.signed 32), .cell 1 (.signed 32), .cell 2 (.signed 64),
    .cell 3 (.signed 32)], 1⟩, ?_, rfl, allocation_greedy hd ?_⟩ <;> decide +kernel

end Allocation

end StackCode
