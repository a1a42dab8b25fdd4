import Mathlib.Data.Finset.Card
import StackCode.Proofs.References

namespace StackCode

open Machine (Ref Table)

namespace Symbols

def addAll (S : Symbols) : List Symbol → Symbols × List Ref
  | [] => (S, [])
  | y :: ys => (((S.add y).1.addAll ys).1, (S.add y).2 :: ((S.add y).1.addAll ys).2)

def count (S : Symbols) : Table → Nat
  | .type => S.types.entries.length
  | .field => S.fields.entries.length
  | .method => S.methods.entries.length

def distinct (t : Table) (ys : List Symbol) : Nat :=
  (ys.filter (·.table = t)).toFinset.card

variable {S : Symbols} {y z : Symbol} {r q : Ref} {t : Table} {ys : List Symbol}

theorem length_entries (S : Symbols) (t : Table) : (S.entries t).length = S.count t := by
  cases t <;> exact List.length_map _

structure Lists (S : Symbols) (ys : List Symbol) : Prop where
  nodup : ∀ t, (S.entries t).Nodup
  mem : ∀ t y, y ∈ S.entries t ↔ y ∈ ys ∧ y.table = t

theorem Lists.add (h : S.Lists ys) (y : Symbol) : (S.add y).1.Lists (ys ++ [y]) := by
  constructor
  · intro t
    rw [entries_add]
    split_ifs with hy
    · exact List.nodup_append.mpr ⟨h.nodup t, List.nodup_singleton y, by grind⟩
    · exact h.nodup t
  · intro t z
    have hz := h.mem t z
    have hy := h.mem t y
    rw [entries_add]
    split_ifs <;> grind

theorem Lists.addAll (h : S.Lists ys) (zs : List Symbol) : (S.addAll zs).1.Lists (ys ++ zs) := by
  induction zs generalizing S ys with
  | nil => simpa [Symbols.addAll] using h
  | cons z zs ih => simpa [Symbols.addAll] using ih (h.add z)

theorem Lists.count_eq (h : S.Lists ys) (t : Table) : S.count t = distinct t ys := by
  rw [← length_entries, ← List.toFinset_card_of_nodup (h.nodup t), distinct]
  congr 1
  ext y
  simp [h.mem]

end Symbols

end StackCode
