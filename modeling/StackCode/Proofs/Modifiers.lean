import StackCode.Proofs.Lowering

namespace StackCode

open Machine (Opcode)

namespace Item

def isVolatile (i : Item) : Bool := i.opcode? = some .volatile

def isUnaligned (i : Item) : Bool := i.opcode? = some .unaligned

theorem not_isVolatile {i : Item} (h : i.isModifier = false) : i.isVolatile = false := by
  rw [isVolatile, decide_eq_false_iff_not]
  intro hv
  rw [isModifier, hv] at h
  cases h

theorem not_isUnaligned {i : Item} (h : i.isModifier = false) : i.isUnaligned = false := by
  rw [isUnaligned, decide_eq_false_iff_not]
  intro hu
  rw [isModifier, hu] at h
  cases h

end Item

def MemoryFlags.Asks (f : MemoryFlags) : Prop :=
  f.volatile = true ∨ ∃ n, f.Reduces n

/-- The code has the modifiers that the flags ask for, once each, and no others of their kinds. It
accesses memory once, and between a modifier and the access there are only modifiers. -/
structure Carries (f : MemoryFlags) (code : List Item) : Prop where
  volatile : code.filter Item.isVolatile = if f.volatile then [.plain .volatile] else []
  unaligned : ∀ n, f.Reduces n →
    code.filter Item.isUnaligned = [.op ⟨.unaligned, .int32 (Int32.ofNat n)⟩]
  aligned : (¬∃ n, f.Reduces n) → code.filter Item.isUnaligned = []
  access : ∃ before modifiers i, code = before ++ (modifiers ++ [i]) ∧ i.accessesMemory = true
    ∧ (∀ j ∈ modifiers, j.isModifier = true)
    ∧ ∀ j ∈ before, j.isModifier = false ∧ j.accessesMemory = false

section Code

variable {f : MemoryFlags} {before code : List Item} {i : Item}

theorem carries_modified (ha : i.accessesMemory = true) : Carries f (f.modifiers ++ [i]) := by
  have hm := Item.not_isModifier ha
  have hv : [i].filter Item.isVolatile = [] := by simp [Item.not_isVolatile hm]
  have hu : [i].filter Item.isUnaligned = [] := by simp [Item.not_isUnaligned hm]
  have hflag : ∀ j ∈ (if f.volatile then [Item.plain .volatile] else []),
      j.isVolatile = true ∧ j.isUnaligned = false ∧ j.isModifier = true := by
    cases f.volatile <;> simp [Item.isVolatile, Item.isUnaligned, Item.isModifier, Item.opcode?,
      Opcode.modifiesNext]
  have hvolatile := List.filter_eq_self.mpr fun j hj => (hflag j hj).1
  have hunaligned := List.filter_eq_nil_iff.mpr fun j hj => Bool.eq_false_iff.mp (hflag j hj).2.1
  by_cases h : ∃ n, f.Reduces n
  · obtain ⟨n, hn⟩ := h
    rw [MemoryFlags.modifiers_of_reduces hn]
    refine ⟨?_, ?_, fun h => absurd ⟨n, hn⟩ h, [], _, i, (List.nil_append _).symm, ha, ?_, by simp⟩
    · rw [List.cons_append, List.filter_cons_of_neg Bool.false_ne_true, List.filter_append, hv,
        hvolatile, List.append_nil]
    · intro m hr
      obtain rfl := Option.some.inj (hn.1.symm.trans hr.1)
      rw [List.cons_append, List.filter_cons_of_pos rfl, List.filter_append, hu, hunaligned]
      rfl
    · exact List.forall_mem_cons.mpr ⟨rfl, fun j hj => (hflag j hj).2.2⟩
  · rw [MemoryFlags.modifiers_of_not_reduces h]
    refine ⟨?_, fun n hn => absurd ⟨n, hn⟩ h, fun _ => ?_, [], _, i, (List.nil_append _).symm, ha,
      fun j hj => (hflag j hj).2.2, by simp⟩
    · rw [List.filter_append, hv, hvolatile, List.append_nil]
    · rw [List.filter_append, hu, hunaligned]
      rfl

theorem carries_bare (hb : ∀ j ∈ before, j.isModifier = false ∧ j.accessesMemory = false)
    (ha : i.accessesMemory = true) : Carries f (before ++ [i]) ↔ ¬f.Asks := by
  have hm : ∀ j ∈ before ++ [i], j.isModifier = false := by
    rw [List.forall_mem_append, List.forall_mem_singleton]
    exact ⟨fun j hj => (hb j hj).1, Item.not_isModifier ha⟩
  have hv := List.filter_eq_nil_iff.mpr fun j hj =>
    Bool.eq_false_iff.mp (Item.not_isVolatile (hm j hj))
  have hu := List.filter_eq_nil_iff.mpr fun j hj =>
    Bool.eq_false_iff.mp (Item.not_isUnaligned (hm j hj))
  constructor
  · rintro hc (hf | ⟨n, hn⟩)
    · have := hc.volatile
      rw [hv, hf] at this
      cases this
    · have := hc.unaligned n hn
      rw [hu] at this
      cases this
  · intro hno
    refine ⟨?_, fun n hn => absurd (.inr ⟨n, hn⟩) hno, fun _ => hu, before, [], i, rfl, ha, by simp,
      hb⟩
    rw [hv, if_neg fun hf => hno (.inl hf)]

theorem Modified.carries (h : Modified f code) : Carries f code := by
  obtain ⟨i, hi, rfl⟩ := h
  exact carries_modified hi

theorem Unmodified.carries_iff (h : Unmodified code) : Carries f code ↔ ¬f.Asks := by
  obtain ⟨before, i, hb, hi, rfl⟩ := h
  exact carries_bare hb hi

end Code

def Instr.Clears (g : Graph) (i : Instr) : Prop :=
  ∃ type flags pointer value, i = ⟨.store type flags, [pointer, value]⟩
    ∧ g.isDefaultValue value = true

/-- The chunk of a load or store carries its flags, unless it stores a default value and the flags
ask for modifiers. -/
theorem flags_carried_iff {ctx : Context} {i : Instr} {type : Ty} {flags : MemoryFlags}
    (hi : i.operation = .load type flags ∨ i.operation = .store type flags) {s t : Selection}
    {c : Chunk} (h : (Select.instr ctx i).run.run s = (.ok c, t)) :
    Carries flags c.code ↔ ¬(flags.Asks ∧ i.Clears ctx.graph) := by
  obtain ⟨op, operands⟩ := i
  rw [Select.instr] at h
  split at h
  · cases h
  · rename_i harity
    rw [not_not] at harity
    dsimp only at hi h harity
    rcases hi with rfl | rfl
    · obtain ⟨pointer, rfl⟩ := List.length_eq_one_iff.mp harity
      have hno : ¬Instr.Clears ctx.graph ⟨.load type flags, [pointer]⟩ := by
        rintro ⟨_, _, _, _, hi, -⟩
        cases hi
      obtain ⟨-, -, hmodified⟩ := (@Select.meets_load ctx (fun _ _ => True) s type flags
        pointer).of_run h
      exact iff_of_true hmodified.carries fun hc => hno hc.2
    · obtain ⟨pointer, value, rfl⟩ := List.length_eq_two.mp harity
      have hclears : Instr.Clears ctx.graph ⟨.store type flags, [pointer, value]⟩
          ↔ ctx.graph.isDefaultValue value = true := by
        constructor
        · rintro ⟨_, _, _, _, hi, hd⟩
          cases hi
          exact hd
        · exact fun hd => ⟨type, flags, pointer, value, rfl, hd⟩
      obtain ⟨-, -, hcode⟩ := (@Select.meets_store ctx (fun _ _ => True) s type flags
        pointer value).of_run h
      rw [hclears]
      split at hcode
      · rename_i hd
        rw [hcode.carries_iff, and_iff_left hd]
      · rename_i hd
        exact iff_of_true hcode.carries fun hc => hd hc.2

def fieldStores : Graph :=
  ⟨⟨0⟩, #[⟨⟨0⟩, "entry", [⟨⟨0⟩, .pointer .reference (.record "Point")⟩, ⟨⟨1⟩, .signed 32⟩],
      [⟨2⟩, ⟨3⟩], .ret none⟩],
    #[⟨some "p", .pointer .reference (.record "Point"), .parameter ⟨0⟩ 0⟩,
      ⟨some "v", .signed 32, .parameter ⟨0⟩ 1⟩,
      ⟨some "x", .pointer .reference (.signed 32),
        .instruction ⟨0⟩ ⟨.fieldAddress ⟨.record "Point", "x", .signed 32, false⟩, [⟨0⟩]⟩⟩,
      ⟨some "z", .signed 32, .instruction ⟨0⟩ ⟨.const .default (.signed 32), []⟩⟩]⟩

def fieldStore (value : Value) : Instr :=
  ⟨.store (.signed 32) ⟨true, some 2⟩, [⟨2⟩, value]⟩

theorem fieldStore_carries : ∃ c t,
    (Select.instr ⟨fieldStores, {}⟩ (fieldStore ⟨1⟩)).run.run (.start fieldStores {}) = (.ok c, t)
      ∧ c.code = [.op ⟨.unaligned, .int32 2⟩, .plain .volatile, .op ⟨.stfld, .field ⟨.field, 0⟩⟩]
      ∧ Carries ⟨true, some 2⟩ c.code := by
  obtain ⟨t, h⟩ : ∃ t, (Select.instr ⟨fieldStores, {}⟩ (fieldStore ⟨1⟩)).run.run
      (.start fieldStores {}) = (.ok ⟨[.op ⟨.unaligned, .int32 2⟩, .plain .volatile,
        .op ⟨.stfld, .field ⟨.field, 0⟩⟩], [⟨0⟩, ⟨1⟩]⟩, t) := ⟨_, rfl⟩
  refine ⟨_, t, h, rfl, (flags_carried_iff (.inr rfl) h).mpr ?_⟩
  rintro ⟨-, _, _, _, _, hi, hd⟩
  cases hi
  cases hd

theorem fieldStore_loses_flags : ∃ c t,
    (Select.instr ⟨fieldStores, {}⟩ (fieldStore ⟨3⟩)).run.run (.start fieldStores {}) = (.ok c, t)
      ∧ c.code = [.op ⟨.ldflda, .field ⟨.field, 0⟩⟩, .op ⟨.initobj, .type ⟨.type, 0⟩⟩]
      ∧ ¬Carries ⟨true, some 2⟩ c.code := by
  refine ⟨_, _, rfl, rfl, ?_⟩
  intro h
  have := h.volatile
  cases this

end StackCode
