import StackCode.Proofs.Emission
import StackCode.Proofs.Pooling

namespace StackCode

open Machine (Body Opcode)

def Machine.Opcode.accessesLocal : Opcode → Bool
  | .ldloc | .ldlocS | .ldlocAt _ | .stloc | .stlocS | .stlocAt _ | .ldloca | .ldlocaS => true
  | _ => false

def InSlot (pooled : List (Nat × Ty)) (extra : List Ty) (scratch : List (Nat × Ty)) (k : Nat)
    (c : Nat × Ty) : Prop :=
  pooled[k]? = some c ∨ ∃ j, k = pooled.length + extra.length + j ∧ scratch[j]? = some c

/-- All cells, with those of scratch values apart. Pooled cells are ordered by falling number of
accesses, and cells with the same number of accesses by their own number. -/
structure Allocation.Arranged (a : Allocation) (s : Schedule) (pooled scratch : List (Nat × Ty)) :
    Prop where
  mem_pooled : ∀ n t, (n, t) ∈ pooled ↔ .cell n t ∈ a.registers ∧ ¬a.Open s.temporaries n t
  mem_scratch : ∀ n t, (n, t) ∈ scratch ↔ .cell n t ∈ a.registers ∧ a.Open s.temporaries n t
  frequent : pooled.Pairwise fun v w => a.accesses s.items w.1 < a.accesses s.items v.1
    ∨ a.accesses s.items w.1 = a.accesses s.items v.1 ∧ v.1 < w.1
  ordered : scratch.Pairwise fun v w => v.1 < w.1

/-- Bodies whose locals are the pooled cells, the extra locals and the cells of scratch values.
Every access to a cell names its slot, and nothing else names a local. -/
structure LaidOut (s : Schedule) (a : Allocation) (extra : List Ty) (body : Body)
    (pooled scratch : List (Nat × Ty)) : Prop where
  cells : a.Arranged s pooled scratch
  locals : body.locals = pooled.map Prod.snd ++ extra ++ scratch.map Prod.snd
  accessed : ∀ p (how : Access) v n t, s.items[p]? = some (how.item v) →
    a.register? v = some (.cell n t) →
    ∃ k, body.instrs[address s.items p]? = some ⟨how.localOp, .local k⟩
      ∧ body.locals[k]? = some t ∧ InSlot pooled extra scratch k (n, t)
  shared : ∀ p q (how how' : Access) v w k k', s.items[p]? = some (how.item v) →
    s.items[q]? = some (how'.item w) →
    body.instrs[address s.items p]? = some ⟨how.localOp, .local k⟩ →
    body.instrs[address s.items q]? = some ⟨how'.localOp, .local k'⟩ →
    (k = k' ↔ a.register? v = a.register? w)
  others : ∀ j ∈ body.instrs, j.opcode.accessesLocal = true →
    ∃ (how : Access) (k : Nat), j = ⟨how.localOp, .local k⟩
      ∧ (k < pooled.length ∨ pooled.length + extra.length ≤ k)

section Slots

variable {pooled scratch : List (Nat × Ty)} {extra : List Ty} {k n : Nat} {c d : Nat × Ty}
  {l : Locals}

theorem InSlot.mem (h : InSlot pooled extra scratch k c) : c ∈ pooled ++ scratch := by
  rcases h with hc | ⟨j, -, hc⟩
  · exact List.mem_append_left _ (List.mem_of_getElem? hc)
  · exact List.mem_append_right _ (List.mem_of_getElem? hc)

theorem InSlot.bounds (h : InSlot pooled extra scratch k c) :
    k < pooled.length ∨ pooled.length + extra.length ≤ k := by
  rcases h with hc | ⟨j, hk, -⟩
  · exact .inl (List.getElem?_eq_some_iff.mp hc).1
  · exact .inr (by omega)

theorem InSlot.type (h : InSlot pooled extra scratch k c) :
    (pooled.map Prod.snd ++ extra ++ scratch.map Prod.snd)[k]? = some c.2 := by
  rcases h with hc | ⟨j, rfl, hc⟩
  · have hlt := (List.getElem?_eq_some_iff.mp hc).1
    rw [List.append_assoc, List.getElem?_append_left (by simpa using hlt), List.getElem?_map, hc]
    rfl
  · rw [List.getElem?_append_right (by simp), List.length_append, List.length_map,
      Nat.add_sub_cancel_left, List.getElem?_map, hc]
    rfl

theorem InSlot.unique (h : InSlot pooled extra scratch k c) (h' : InSlot pooled extra scratch k d) :
    c = d := by
  rcases h with hc | ⟨j, hk, hc⟩ <;> rcases h' with hd | ⟨j', hk', hd⟩
  · exact Option.some.inj (hc.symm.trans hd)
  · have := (List.getElem?_eq_some_iff.mp hc).1
    omega
  · have := (List.getElem?_eq_some_iff.mp hd).1
    omega
  · have hj : j = j' := by omega
    exact Option.some.inj (hc.symm.trans (hj ▸ hd))

theorem Locals.arrange_types (h : arrange pooled extra scratch = .ok l) :
    l.types = pooled.map Prod.snd ++ extra ++ scratch.map Prod.snd := by
  simp only [arrange] at h
  split at h
  · cases h
  · cases h
    rfl

theorem Locals.inSlot_of_lookup (h : arrange pooled extra scratch = .ok l)
    (hk : l.slots.lookup n = some k) : ∃ t, InSlot pooled extra scratch k (n, t) := by
  simp only [arrange] at h
  split at h
  · cases h
  · cases h
    have hmem := List.mem_reverse.mp (mem_of_lookup hk)
    obtain ⟨⟨⟨_, t⟩, _⟩, he, heq⟩ := List.mem_map.mp hmem
    cases heq
    refine ⟨t, ?_⟩
    rcases List.mem_append.mp he with he | he
    · exact .inl (List.mem_zipIdx_iff_getElem?.mp he)
    · obtain ⟨hle, hj⟩ := List.mem_zipIdx_iff_le_and_getElem?_sub.mp he
      exact .inr ⟨_, by omega, hj⟩

end Slots

section Cells

variable {a : Allocation} {s : Schedule} {extra : List Ty} {n : Nat} {t : Ty}

structure Allocation.Numbered (a : Allocation) : Prop where
  numbered : ∀ n (r : Register), a.registers[n]? = some r → ∃ t, r = .cell n t
  listed : ∀ v n t, a.register? v = some (.cell n t) → a.registers[n]? = some (.cell n t)

theorem Allocation.numbered_ofSchedule (h : ofSchedule s = .ok a) : a.Numbered := by
  obtain ⟨l, -, rfl⟩ := ofSchedule_eq_ok h
  exact ⟨fun n r => register_numbered, fun v n t => getElem?_registers_of_cell⟩

theorem Allocation.mem_cells_iff : (n, t) ∈ a.cells ↔ .cell n t ∈ a.registers := by
  rw [cells, List.mem_filterMap]
  constructor
  · rintro ⟨r, hr, he⟩
    cases r with
    | argument => cases he
    | cell => cases he; exact hr
  · exact fun hr => ⟨_, hr, rfl⟩

namespace Allocation.Numbered

theorem getElem?_of_mem (h : a.Numbered) (hm : .cell n t ∈ a.registers) :
    a.registers[n]? = some (.cell n t) := by
  obtain ⟨k, hk⟩ := List.mem_iff_getElem?.mp hm
  obtain ⟨u, hu⟩ := h.numbered k _ hk
  cases hu
  exact hk

theorem pairwise_cells (h : a.Numbered) : a.cells.Pairwise fun v w => v.1 < w.1 := by
  rw [cells, List.pairwise_filterMap, List.pairwise_iff_getElem]
  intro i j hi hj hij v hv w hw
  obtain ⟨t, ht⟩ := h.numbered i _ (List.getElem?_eq_getElem hi)
  obtain ⟨u, hu⟩ := h.numbered j _ (List.getElem?_eq_getElem hj)
  rw [ht] at hv
  rw [hu] at hw
  cases hv
  cases hw
  exact hij

theorem open_iff (h : a.Numbered) {registers : List Register}
    (hr : List.Forall₂ (fun e r => a.register e.1 = .ok r) s.temporaries registers)
    (hm : .cell n t ∈ a.registers) :
    n ∈ registers.filterMap Register.cellId? ↔ a.Open s.temporaries n t := by
  have hregister : ∀ v r, a.register v = .ok r ↔ a.register? v = some r := by
    intro v r
    rw [register]
    cases a.register? v <;> simp
  simp only [hregister] at hr
  rw [List.mem_filterMap]
  constructor
  · rintro ⟨r, hmem, hid⟩
    obtain ⟨e, he, her⟩ := forall_of_forall₂ hr.flip hmem
    cases r with
    | argument => cases hid
    | cell m u =>
      cases hid
      -- only numbers are compared, but cells with the same number have the same type
      have hu := h.listed e.1 n u her
      rw [h.getElem?_of_mem hm, Option.some.injEq] at hu
      exact ⟨e, he, hu ▸ her⟩
  · rintro ⟨e, he, her⟩
    obtain ⟨r, hmem, hr⟩ := forall_of_forall₂ hr he
    rw [her, Option.some.injEq] at hr
    exact ⟨r, hmem, hr ▸ rfl⟩

end Allocation.Numbered

theorem Allocation.pairwise_mergeSort_before (items : List Item) {cells : List (Nat × Ty)}
    (hd : cells.Pairwise fun v w => v.1 < w.1) :
    (cells.mergeSort (a.before items)).Pairwise fun v w =>
      a.accesses items w.1 < a.accesses items v.1
      ∨ a.accesses items w.1 = a.accesses items v.1 ∧ v.1 < w.1 := by
  have hbefore : ∀ v w, a.before items v w = true ↔ a.accesses items w.1 < a.accesses items v.1
      ∨ a.accesses items w.1 = a.accesses items v.1 ∧ v.1 ≤ w.1 := by
    intro v w
    simp [before]
  have hsorted : (cells.mergeSort (a.before items)).Pairwise fun v w => a.before items v w = true :=
    List.pairwise_mergeSort (by simp only [hbefore]; omega)
      (by simp only [Bool.or_eq_true, hbefore]; omega) cells
  -- no number occurs twice, so ties are broken strictly
  have hne : (cells.mergeSort (a.before items)).Pairwise fun v w => v.1 ≠ w.1 :=
    (List.mergeSort_perm _ _).symm.pairwise (hd.imp Nat.ne_of_lt) Ne.symm
  refine (hsorted.and hne).imp ?_
  intro v w h
  have := (hbefore v w).mp h.1
  omega

theorem Allocation.Numbered.arranged (h : a.Numbered) {l : Locals}
    (hl : a.locals s.items s.temporaries extra = .ok l) :
    ∃ pooled scratch, a.Arranged s pooled scratch
      ∧ Locals.arrange pooled extra scratch = .ok l := by
  obtain ⟨registers, hr, hl⟩ := bind_eq_ok.mp hl
  have hopen : ∀ n t, .cell n t ∈ a.registers →
      ((registers.filterMap Register.cellId?).contains n = true ↔ a.Open s.temporaries n t) := by
    intro n t hm
    rw [List.contains_iff_mem]
    exact h.open_iff (forall₂_of_mapM hr) hm
  refine ⟨_, _, ⟨?_, ?_, ?_, ?_⟩, hl⟩
  · intro n t
    rw [List.mem_mergeSort, List.mem_filter, mem_cells_iff, Bool.not_eq_true', ← Bool.not_eq_true]
    exact and_congr_right fun hm => not_congr (hopen n t hm)
  · intro n t
    rw [List.mem_filter, mem_cells_iff]
    exact and_congr_right (hopen n t)
  · exact pairwise_mergeSort_before s.items (h.pairwise_cells.filter _)
  · exact h.pairwise_cells.filter _

theorem Allocation.Arranged.mem_registers {pooled scratch : List (Nat × Ty)}
    (h : a.Arranged s pooled scratch) (hm : (n, t) ∈ pooled ++ scratch) :
    .cell n t ∈ a.registers := by
  rcases List.mem_append.mp hm with hm | hm
  · exact ((h.mem_pooled n t).mp hm).1
  · exact ((h.mem_scratch n t).mp hm).1

theorem Allocation.Arranged.inSlot {pooled scratch : List (Nat × Ty)} {l : Locals} {v : Value}
    {k : Nat} (h : a.Arranged s pooled scratch) (hn : a.Numbered)
    (hl : Locals.arrange pooled extra scratch = .ok l) (hr : a.register? v = some (.cell n t))
    (hk : l.slots.lookup n = some k) : InSlot pooled extra scratch k (n, t) := by
  obtain ⟨u, hu⟩ := Locals.inSlot_of_lookup hl hk
  have heq := hn.getElem?_of_mem (h.mem_registers hu.mem)
  rw [hn.listed v n t hr, Option.some.injEq, Register.cell.injEq] at heq
  exact heq.2 ▸ hu

end Cells

section Accesses

variable {items : List Item} {a : Allocation} {slots : List (Nat × Nat)}
  {instrs : List Machine.Instr} {p k : Nat} {how : Access} {v : Value}

theorem Access.isMark_item (how : Access) (v : Value) : (how.item v).isMark = false := by
  cases how <;> rfl

theorem emitted_access
    (h : List.Forall₂ (Emits items a slots) (items.filter fun i => !i.isMark) instrs)
    (hp : items[p]? = some (how.item v)) {n : Nat} {t : Ty}
    (hr : a.register? v = some (.cell n t)) :
    ∃ k, slots.lookup n = some k
      ∧ instrs[address items p]? = some ⟨how.localOp, .local k⟩ := by
  obtain ⟨j, hj, hemit⟩ := emitted_at h hp (how.isMark_item v)
  rcases hemit.access_cases with ⟨m, u, hr', rfl⟩ | ⟨m, u, k, hr', hk, rfl⟩
  · cases hr.symm.trans hr'
  · cases hr.symm.trans hr'
    exact ⟨k, hk, hj⟩

theorem cell_of_emitted
    (h : List.Forall₂ (Emits items a slots) (items.filter fun i => !i.isMark) instrs)
    (hp : items[p]? = some (how.item v))
    (hk : instrs[address items p]? = some ⟨how.localOp, .local k⟩) :
    ∃ n t, a.register? v = some (.cell n t) ∧ slots.lookup n = some k := by
  obtain ⟨j, hj, hemit⟩ := emitted_at h hp (how.isMark_item v)
  rw [hk, Option.some.injEq] at hj
  subst hj
  rcases hemit.access_cases with ⟨n, t, hr, heq⟩ | ⟨n, t, m, hr, hm, heq⟩
  · cases how <;> cases heq
  · cases heq
    exact ⟨n, t, hr, hm⟩

theorem Emits.accessesLocal {i : Item} {j : Machine.Instr} (h : Emits items a slots i j)
    (hi : ∀ o, i.opcode? = some o → o.accessesLocal = false) (hj : j.opcode.accessesLocal = true) :
    ∃ (how : Access) (n k : Nat), slots.lookup n = some k ∧ j = ⟨how.localOp, .local k⟩ := by
  cases h with
  | cell hr hm => exact ⟨_, _, _, hm, rfl⟩
  | @argument how => cases how <;> cases hj
  | op | renamed | jump | switch =>
    rw [hi _ rfl] at hj
    cases hj

end Accesses

theorem locals_layout {s : Schedule} {a : Allocation} {extra : List Ty} {body : Body}
    (ha : Allocation.ofSchedule s = .ok a)
    (hraw : ∀ i ∈ s.items, ∀ o, i.opcode? = some o → o.accessesLocal = false)
    (h : emit s a extra = .ok body) :
    ∃ pooled scratch, LaidOut s a extra body pooled scratch := by
  obtain ⟨l, hl, htypes, hemits⟩ := emit_instrs h
  have hn := Allocation.numbered_ofSchedule ha
  obtain ⟨pooled, scratch, hcells, harrange⟩ := hn.arranged hl
  rw [Locals.arrange_types harrange] at htypes
  refine ⟨pooled, scratch, hcells, htypes, ?_, ?_, ?_⟩
  · intro p how v n t hp hr
    obtain ⟨k, hk, hj⟩ := emitted_access hemits hp hr
    have hin := hcells.inSlot hn harrange hr hk
    exact ⟨k, hj, htypes ▸ hin.type, hin⟩
  · intro p q how how' v w k k' hp hq hk hk'
    obtain ⟨n, t, hv, hkn⟩ := cell_of_emitted hemits hp hk
    obtain ⟨m, u, hw, hkm⟩ := cell_of_emitted hemits hq hk'
    rw [hv, hw]
    constructor
    · rintro rfl
      cases (hcells.inSlot hn harrange hv hkn).unique (hcells.inSlot hn harrange hw hkm)
      rfl
    · intro heq
      cases heq
      exact Option.some.inj (hkn.symm.trans hkm)
  · intro j hj hop
    obtain ⟨i, hi, hemit⟩ := forall_of_forall₂ hemits.flip hj
    obtain ⟨how, n, k, hk, rfl⟩ := hemit.accessesLocal (hraw i (List.mem_of_mem_filter hi)) hop
    obtain ⟨t, hin⟩ := Locals.inSlot_of_lookup harrange hk
    exact ⟨how, k, rfl, hin.bounds⟩

def frequentSecond : Schedule :=
  ⟨[.op ⟨.ldcI4, .int32 1⟩, .store ⟨0⟩, .op ⟨.ldcI4, .int32 2⟩, .store ⟨1⟩, .load ⟨1⟩, .load ⟨0⟩,
      .load ⟨1⟩, .address ⟨2⟩, .plain .ret],
    [], [(⟨0⟩, .signed 32), (⟨1⟩, .signed 64)], [(⟨2⟩, .float64)]⟩

def frequentSecondStorage : Allocation :=
  ⟨[(⟨2⟩, .cell 2 .float64), (⟨1⟩, .cell 1 (.signed 64)), (⟨0⟩, .cell 0 (.signed 32))],
    [.cell 0 (.signed 32), .cell 1 (.signed 64), .cell 2 .float64], 0⟩

theorem frequentSecond_locals :
    frequentSecondStorage.locals frequentSecond.items frequentSecond.temporaries [.float32] =
      .ok ⟨[.signed 64, .signed 32, .float32, .float64], [(2, 3), (0, 1), (1, 0)]⟩ := by
  have hsort : [(0, Ty.signed 32), (1, .signed 64)].mergeSort
      (frequentSecondStorage.before frequentSecond.items) = [(1, .signed 64), (0, .signed 32)] := by
    rw [List.mergeSort]
    change ([(0, Ty.signed 32)].mergeSort _).merge ([(1, .signed 64)].mergeSort _) _ = _
    rw [List.mergeSort_singleton, List.mergeSort_singleton,
      List.cons_merge_cons_neg _ _ _ (by decide +kernel), List.merge_right]
  change Locals.arrange ([(0, Ty.signed 32), (1, .signed 64)].mergeSort _) _ [(2, .float64)] = _
  rw [hsort]
  rfl

theorem frequentSecond_layout :
    Allocation.ofSchedule frequentSecond = .ok frequentSecondStorage
      ∧ (∀ i ∈ frequentSecond.items, ∀ o, i.opcode? = some o → o.accessesLocal = false)
      ∧ ∃ body, emit frequentSecond frequentSecondStorage [.float32] = .ok body
        ∧ body.locals = [.signed 64, .signed 32, .float32, .float64]
        ∧ ∃ pooled scratch,
          LaidOut frequentSecond frequentSecondStorage [.float32] body pooled scratch := by
  have ha : Allocation.ofSchedule frequentSecond = .ok frequentSecondStorage := by decide +kernel
  have hraw : ∀ i ∈ frequentSecond.items, ∀ o, i.opcode? = some o → o.accessesLocal = false := by
    decide
  have hemit : emit frequentSecond frequentSecondStorage [.float32] = .ok
      ⟨[⟨.ldcI4, .int32 1⟩, ⟨.stloc, .local 1⟩, ⟨.ldcI4, .int32 2⟩, ⟨.stloc, .local 0⟩,
        ⟨.ldloc, .local 0⟩, ⟨.ldloc, .local 1⟩, ⟨.ldloc, .local 0⟩, ⟨.ldloca, .local 3⟩,
        ⟨.ret, .none⟩], [], [.signed 64, .signed 32, .float32, .float64], 0⟩ := by
    rw [emit, frequentSecond_locals]
    decide +kernel
  exact ⟨ha, hraw, _, hemit, rfl, locals_layout ha hraw hemit⟩

end StackCode
