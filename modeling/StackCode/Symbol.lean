import StackCode.Machine.Body

namespace StackCode

open Machine (Ref Table)

variable {α : Type} [DecidableEq α]

def Inverse (entries : List α) (numbers : List (α × Nat)) : Prop :=
  ∀ a n, numbers.lookup a = some n ↔ entries[n]? = some a

theorem inverse_nil : Inverse ([] : List α) [] := by simp [Inverse]

theorem Inverse.add {entries : List α} {numbers : List (α × Nat)} {a : α}
    (h : Inverse entries numbers) (ha : numbers.lookup a = none) :
    Inverse (entries ++ [a]) ((a, entries.length) :: numbers) := by
  intro b n
  rw [List.lookup_cons, List.getElem?_append]
  by_cases hb : b = a
  · subst hb
    have hnot : entries[n]? ≠ some b := by
      intro hn
      rw [(h b n).mpr hn] at ha
      cases ha
    grind
  · have hn := h b n
    grind

/-- What has been numbered so far, by number, with the number of each entry. -/
structure Numbering (α : Type) [DecidableEq α] where
  entries : List α := []
  numbers : List (α × Nat) := []
  inverse : Inverse entries numbers := by exact inverse_nil

instance : DecidableEq (Numbering α) := fun s t =>
  decidable_of_iff (s.entries = t.entries ∧ s.numbers = t.numbers) (by cases s; cases t; simp)

def Numbering.intern (t : Numbering α) (a : α) : Numbering α × Nat :=
  match h : t.numbers.lookup a with
  | some n => (t, n)
  | none =>
    (⟨t.entries ++ [a], (a, t.entries.length) :: t.numbers, t.inverse.add h⟩, t.entries.length)

structure Symbols where
  types : Numbering Ty := {}
  fields : Numbering Field := {}
  methods : Numbering Method := {}
deriving DecidableEq

namespace Symbols

def addType (s : Symbols) (t : Ty) : Symbols × Ref :=
  let (types, n) := s.types.intern t
  ({ s with types }, ⟨.type, n⟩)

def addField (s : Symbols) (f : Field) : Symbols × Ref :=
  let (fields, n) := s.fields.intern f
  ({ s with fields }, ⟨.field, n⟩)

def addMethod (s : Symbols) (m : Method) : Symbols × Ref :=
  let (methods, n) := s.methods.intern m
  ({ s with methods }, ⟨.method, n⟩)

def type? (s : Symbols) : Ref → Option Ty
  | ⟨.type, n⟩ => s.types.entries[n]?
  | _ => none

def field? (s : Symbols) : Ref → Option Field
  | ⟨.field, n⟩ => s.fields.entries[n]?
  | _ => none

def method? (s : Symbols) : Ref → Option Method
  | ⟨.method, n⟩ => s.methods.entries[n]?
  | _ => none

def name? (s : Symbols) (r : Ref) : Option String :=
  match r.table with
  | .type => (s.type? r).map Ty.text
  | .field => (s.field? r).map Field.qualifiedName
  | .method => (s.method? r).map Method.qualifiedName

def display (s : Symbols) (r : Ref) : String :=
  (s.name? r).getD r.text

end Symbols

end StackCode
