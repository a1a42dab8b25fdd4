import StackCode.Proofs.Routes
import StackCode.Proofs.Words

/-!
Which flows have a lowering. The branches of a jump, of a test on one constant and of a protected
instruction are all checked. Of a jump table, only those cases are that get a label of their own,
and only the least of the constants.
-/

namespace StackCode

namespace Select

variable {α : Type} {s : Selection} {x : Select α}

def Returns (x : Select α) (s : Selection) (a : α) (t : Selection) : Prop :=
  x.run.run s = (.ok a, t)

def Gives (x : Select α) (s : Selection) (a : α) : Prop :=
  ∃ t, Returns x s a t

def Fails (x : Select α) (s : Selection) : Prop :=
  ∃ e t, x.run.run s = (.error e, t) ∧ e.isRefusal = true

def Crashes (x : Select α) (s : Selection) : Prop :=
  ∃ c t, x.run.run s = (.error (.crash c), t)

theorem Gives.not_fails {a : α} (h : Gives x s a) : ¬Fails x s := by
  obtain ⟨t, ht⟩ := h
  rintro ⟨e, u, hu, -⟩
  cases ht.symm.trans hu

theorem Meets.fails_iff {r : (Machine.Ref → Machine.Ref) → α → α} {post : α → Selection → Prop}
    {fault : CompileError → Prop} {wide lowers : Prop} (h : Meets r x s post fault)
    (hok : ∀ a t, post a t → ¬wide ∧ lowers)
    (hbad : ∀ e, fault e → e.isRefusal = true ∧ ¬wide ∧ ¬lowers ∨ e = .crash .keySpan ∧ wide) :
    (Fails x s ↔ ¬wide ∧ ¬lowers) ∧ (Crashes x s ↔ wide) := by
  have he := h.ends
  rw [Fails, Crashes]
  generalize x.run.run s = o at he
  obtain ⟨o, t⟩ := o
  cases o with
  | ok a =>
    obtain ⟨hover, hlowers⟩ := hok a t he
    refine ⟨iff_of_false ?_ fun h => h.2 hlowers, iff_of_false ?_ hover⟩
    · rintro ⟨e, u, hu, -⟩
      cases hu
    · rintro ⟨c, u, hu⟩
      cases hu
  | error e =>
    rcases hbad e he with ⟨href, hover, hlowers⟩ | ⟨rfl, hover⟩
    · refine ⟨iff_of_true ⟨e, t, rfl, href⟩ ⟨hover, hlowers⟩, iff_of_false ?_ hover⟩
      rintro ⟨c, u, hu⟩
      cases hu
      cases href
    · refine ⟨iff_of_false ?_ fun h => h.1 hover, iff_of_true ⟨_, t, rfl⟩ hover⟩
      rintro ⟨e, u, hu, he⟩
      cases hu
      cases he

theorem flow_of_switch {ctx : Context} {b : Block} {v : Value} {cases : List Case}
    {fallback : Branch} (hf : b.flow = .switch v cases fallback) :
    flow ctx b = switch ctx b v cases fallback := by
  unfold flow
  rw [hf]

end Select

section Checks

variable {ctx : Context} {b : Block} {s : Selection} {v : Value} {cases : List Case}
  {fallback : Branch} {type : Ty} {keys : List Int} {lo hi : Int}

theorem overflows_switch_iff (hf : b.flow = .switch v cases fallback) :
    b.flow.Overflows ctx s ↔ ∃ type keys lo hi, Keyed ctx s v cases fallback type keys lo hi
      ∧ IntShape.constantMax ≤ hi - lo := by
  constructor
  · rintro ⟨v', cases', fallback', type, keys, lo, hi, hf', h⟩
    obtain ⟨rfl, rfl, rfl⟩ := Flow.switch.inj (hf.symm.trans hf')
    exact ⟨type, keys, lo, hi, h⟩
  · rintro ⟨type, keys, lo, hi, h⟩
    exact ⟨v, cases, fallback, type, keys, lo, hi, hf, h⟩

theorem Tabulated.not_overflows (hf : b.flow = .switch v cases fallback)
    (h : Tabulated ctx s v cases fallback type keys lo hi) : ¬b.flow.Overflows ctx s := by
  rw [overflows_switch_iff hf]
  rintro ⟨type', keys', lo', hi', hk, hw⟩
  obtain ⟨-, -, rfl, rfl⟩ := h.unique hk
  exact absurd hw (not_le.mpr h.lt)

/-- A flow with a branch against the contract is rejected, unless it is written as a jump table that
takes the branch as it is, or the size of the table cannot be counted. -/
theorem contract_enforced_iff (h : ∃ e ∈ b.flow.edges, ¬e.2.Keeps ctx.graph e.1) :
    (Select.Fails (Select.flow ctx b) s ↔ ¬b.flow.Overflows ctx s
        ∧ ¬∃ v cases fallback type keys lo hi, b.flow = .switch v cases fallback
          ∧ Tabulated ctx s v cases fallback type keys lo hi ∧ type.Shifts lo)
      ∧ (Select.Crashes (Select.flow ctx b) s ↔ b.flow.Overflows ctx s) := by
  refine (@Select.meets_flow ctx (fun _ _ => True) b s (fun _ _ _ _ => trivial) trivial).fails_iff
    (fun cs t hr => ?_) fun e he => he
  rcases hr.keeps with hall | htab
  · obtain ⟨e, he, hbad⟩ := h
    exact absurd (hall e he) hbad
  · refine ⟨?_, htab⟩
    obtain ⟨v, cases, fallback, type, keys, lo, hi, hf, ht, -⟩ := htab
    exact ht.not_overflows hf

end Checks

def returning (l : Nat) (name : String) (parameters : List Parameter) : Block :=
  ⟨⟨l⟩, name, parameters, [], .ret none⟩

def switching (t : Ty) (cases : List Case) (fallback : Branch) : Block :=
  ⟨⟨0⟩, "entry", [⟨⟨0⟩, t⟩], [], .switch ⟨0⟩ cases fallback⟩

def bareSwitch : Block :=
  switching (.signed 32) [⟨[.int 0], ⟨⟨1⟩, []⟩⟩, ⟨[.int 1], ⟨⟨2⟩, []⟩⟩] ⟨⟨2⟩, []⟩

/-- Block `a` takes an argument, and the first case passes none. -/
def bareCase : Graph :=
  ⟨⟨0⟩, #[bareSwitch, returning 1 "a" [⟨⟨1⟩, .signed 32⟩], returning 2 "b" []],
    #[⟨some "x", .signed 32, .parameter ⟨0⟩ 0⟩, ⟨some "y", .signed 32, .parameter ⟨1⟩ 0⟩]⟩

def overfullSwitch : Block :=
  switching (.signed 32) [⟨[.int 0], ⟨⟨1⟩, []⟩⟩, ⟨[.int 1], ⟨⟨2⟩, [.value ⟨0⟩]⟩⟩] ⟨⟨2⟩, []⟩

theorem Keyed.range {ctx : Context} {s : Selection} {v : Value} {cases : List Case}
    {fallback : Branch} {type : Ty} {keys : List Int} {lo hi k l : Int}
    (h : Keyed ctx s v cases fallback type keys lo hi) (ks : List Int)
    (hc : cases.flatMap Case.constants = ks.map .int) (hr : keyRange? ks = some (k, l)) :
    lo = k ∧ hi = l := by
  obtain rfl : keys = ks :=
    List.map_injective_iff.mpr (fun _ _ => Constant.int.inj) (h.constants.symm.trans hc)
  obtain ⟨hk, hl⟩ := keyRange?_eq_some.mp hr
  exact ⟨h.least.unique hk, h.greatest.unique hl⟩

theorem overfullSwitch_rejected : (∃ e ∈ overfullSwitch.flow.edges, ¬e.2.Keeps bareCase e.1)
    ∧ Select.Fails (Select.flow ⟨bareCase, {}⟩ overfullSwitch) (.start bareCase {}) := by
  have h : ∃ e ∈ overfullSwitch.flow.edges, ¬e.2.Keeps bareCase e.1 := by decide +kernel
  refine ⟨h, (contract_enforced_iff h).1.mpr ⟨?_, ?_⟩⟩
  · rintro ⟨v, cases, fallback, type, keys, lo, hi, hf, hk, hw⟩
    cases hf
    obtain ⟨rfl, rfl⟩ := hk.range [0, 1] rfl rfl
    revert hw
    decide
  rintro ⟨v, cases, fallback, type, keys, lo, hi, hf, ht, -⟩
  cases hf
  have hchecked := ht.checked (⟨[.int 1], ⟨⟨2⟩, [.value ⟨0⟩]⟩⟩, ⟨3⟩) (by decide)
  revert hchecked
  decide +kernel

theorem bareSwitch_admitted : (∃ e ∈ bareSwitch.flow.edges, ¬e.2.Keeps bareCase e.1)
    ∧ ¬Select.Fails (Select.flow ⟨bareCase, {}⟩ bareSwitch) (.start bareCase {}) := by
  refine ⟨by decide +kernel, ?_⟩
  exact Select.Gives.not_fails ⟨_, rfl⟩

section Ranges

variable {ctx : Context} {b : Block} {s : Selection} {v : Value} {cases : List Case}
  {fallback : Branch} {shape : IntShape}

theorem pushInt_eq_ok {k : Int} {is : List Machine.Instr} (h : pushInt k (.int shape) = .ok is) :
    shape.bits ≤ 64 ∧ shape.holds k = true := by
  rw [pushInt] at h
  split at h
  · cases h
  · rename_i hfits
    simp only [Bool.or_eq_true, decide_eq_true_eq, Bool.not_eq_true', not_or,
      Bool.not_eq_false] at hfits
    exact ⟨Nat.le_of_not_lt hfits.1, hfits.2⟩

theorem exists_pushInt {k : Int} (hbits : shape.bits ≤ 64) (hk : shape.holds k = true) :
    ∃ is, pushInt k (.int shape) = .ok is := by
  rw [pushInt, if_neg (by simp [hk, hbits])]
  split
  · exact ⟨_, rfl⟩
  · exact ⟨_, rfl⟩

theorem shifts_int_iff {lo : Int} :
    (Ty.int shape).Shifts lo ↔ lo = 0 ∨ shape.bits ≤ 64 ∧ shape.holds lo = true := by
  rw [Ty.Shifts]
  by_cases hlo : lo = 0
  · exact iff_of_true ⟨[], by rw [shiftCode, if_pos hlo]⟩ (.inl hlo)
  · simp only [shiftCode, hlo, if_false, false_or]
    constructor
    · rintro ⟨shift, hs⟩
      cases hp : pushInt lo (.int shape) with
      | error e =>
        rw [hp] at hs
        cases hs
      | ok is => exact pushInt_eq_ok hp
    · rintro ⟨hbits, hk⟩
      obtain ⟨is, hp⟩ := exists_pushInt hbits hk
      exact ⟨is ++ [binary .sub], by rw [hp]; rfl⟩

theorem bits_of_isBool {bits : Nat} {signed : Bool} (h : (Ty.int ⟨bits, signed⟩).isBool = true) :
    bits = 1 := by
  by_contra hne
  simp [Ty.isBool, hne] at h

theorem bit_of_compareCode {k : Int} {whenEqual : Bool} {l : Label} {code : List Item}
    (hk : shape.holds k = false) (h : Select.compareCode (.int shape) k whenEqual l = .ok code) :
    shape = ⟨1, true⟩ ∧ k = 1 := by
  rw [Select.compareCode] at h
  split at h
  · rename_i hbit
    obtain ⟨bits, signed⟩ := shape
    obtain rfl : bits = 1 := bits_of_isBool hbit.1
    rcases hbit.2 with rfl | rfl
    · cases signed <;> revert hk <;> decide
    · cases signed
      · revert hk
        decide
      · exact ⟨rfl, rfl⟩
  · cases hp : pushInt k (.int shape) with
    | error e =>
      rw [hp] at h
      cases h
    | ok is => rw [(pushInt_eq_ok hp).2] at hk; cases hk

/-- A switch with a constant out of the range of its value is rejected, unless it is a test of a
signed bit against 1, or a jump table whose least constant is 0 or in range, or the size of the
table cannot be counted. -/
theorem range_enforced_iff (hf : b.flow = .switch v cases fallback)
    (ht : ctx.type? s v = some (.int shape))
    (hout : ∃ c ∈ cases, ∃ k, .int k ∈ c.constants ∧ shape.holds k = false) :
    (Select.Fails (Select.flow ctx b) s ↔ ¬b.flow.Overflows ctx s
        ∧ ¬((shape = ⟨1, true⟩ ∧ ∃ br, cases = [⟨[.int 1], br⟩]
            ∧ br.Keeps ctx.graph none ∧ fallback.Keeps ctx.graph none)
          ∨ ∃ keys lo hi, Tabulated ctx s v cases fallback (.int shape) keys lo hi
            ∧ (lo = 0 ∨ shape.bits ≤ 64 ∧ shape.holds lo = true)))
      ∧ (Select.Crashes (Select.flow ctx b) s ↔ b.flow.Overflows ctx s) := by
  rw [Select.flow_of_switch hf]
  simp only [← shifts_int_iff]
  refine (@Select.meets_switch ctx b s v cases fallback).fails_iff ?_ ?_
  · rintro cs t ⟨args, hfb, -, hcs⟩
    cases hcs with
    | empty =>
      obtain ⟨c, hc, -⟩ := hout
      cases hc
    | @test c branch targetArgs code t htest =>
      obtain ⟨c', hc', k, hk, hout⟩ := hout
      obtain rfl := List.mem_singleton.mp hc'
      obtain rfl := List.mem_singleton.mp hk
      obtain ⟨type, ht', hcode⟩ := htest.compared
      obtain rfl := Option.some.inj (ht'.symm.trans ht)
      obtain ⟨hshape, rfl⟩ := bit_of_compareCode hout (hcode k rfl)
      refine ⟨?_, .inl ⟨hshape, branch, rfl, htest.keeps, hfb⟩⟩
      rw [overflows_switch_iff hf]
      rintro ⟨type, keys, lo, hi, hk, -⟩
      exact hk.form.2 _ _ rfl
    | table htab =>
      obtain rfl := Option.some.inj (htab.typed.symm.trans ht)
      exact ⟨htab.not_overflows hf, .inr ⟨_, _, _, htab.toTabulated, _, htab.shifted⟩⟩
  · rintro e ⟨⟨he, hn⟩ | ⟨he, hover⟩, htest⟩
    · refine .inl ⟨he, ?_, ?_⟩
      · rw [overflows_switch_iff hf]
        rintro ⟨type, keys, lo, hi, hk, hw⟩
        exact absurd hw (not_le.mpr (hn _ _ _ _ hk).1)
      · rintro (⟨rfl, br, rfl, hbr, hfb⟩ | ⟨keys, lo, hi, htab, hs⟩)
        · exact htest 1 br rfl ⟨hfb, hbr, _, _, ht, rfl⟩
        · exact (hn _ _ _ _ htab.toKeyed).2 ⟨htab, hs⟩
    · exact .inr ⟨he, (overflows_switch_iff hf).mpr hover⟩

end Ranges

def negativeSwitch : Block :=
  switching (.unsigned 32) [⟨[.int (-1)], ⟨⟨1⟩, []⟩⟩, ⟨[.int 0], ⟨⟨2⟩, []⟩⟩] ⟨⟨3⟩, []⟩

/-- The second constant is one more than the greatest number of 32 bits. -/
def wrappedSwitch : Block :=
  switching (.unsigned 32) [⟨[.int 4294967295], ⟨⟨1⟩, []⟩⟩, ⟨[.int 4294967296], ⟨⟨2⟩, []⟩⟩]
    ⟨⟨3⟩, []⟩

def wrapped : Graph :=
  ⟨⟨0⟩, #[wrappedSwitch, returning 1 "a" [], returning 2 "b" [], returning 3 "c" []],
    #[⟨some "x", .unsigned 32, .parameter ⟨0⟩ 0⟩]⟩

theorem negativeSwitch_rejected : (IntShape.mk 32 false).holds (-1) = false
    ∧ Select.Fails (Select.flow ⟨wrapped, {}⟩ negativeSwitch) (.start wrapped {}) := by
  have hout : (IntShape.mk 32 false).holds (-1) = false := by decide
  refine ⟨hout,
    (range_enforced_iff rfl rfl ⟨_, List.mem_cons_self, -1, by decide, hout⟩).1.mpr ⟨?_, ?_⟩⟩
  · rintro ⟨v, cases, fallback, type, keys, lo, hi, hf, hk, hw⟩
    cases hf
    obtain ⟨rfl, rfl⟩ := hk.range [-1, 0] rfl rfl
    revert hw
    decide
  · rintro (⟨hshape, -⟩ | ⟨keys, lo, hi, htab, hlo⟩)
    · cases hshape
    · obtain ⟨rfl, -⟩ := htab.range [-1, 0] rfl rfl
      revert hlo
      decide

theorem wrappedSwitch_misled : ∃ cases fallback cs, wrappedSwitch.flow = .switch ⟨0⟩ cases fallback
    ∧ ⟨[.int 4294967296], ⟨⟨2⟩, []⟩⟩ ∈ cases ∧ (IntShape.mk 32 false).holds 4294967296 = false
    ∧ Select.Gives (Select.flow ⟨wrapped, {}⟩ wrappedSwitch) (.start wrapped {}) cs
    ∧ Departs cs cs (fun _ => (Ty.unsigned 32).encode 0) ⟨2⟩ [] :=
  ⟨_, _, _, rfl, by decide, by decide, ⟨_, rfl⟩, .direct rfl (by decide)⟩

end StackCode
