import Mathlib.Tactic.SplitIfs
import StackCode.Proofs.Lists
import StackCode.Schedule.Plan

namespace StackCode

open Machine (Ref Table)

namespace Numbering

variable {α : Type} [DecidableEq α] (t : Numbering α) (a : α)

theorem lookup_eq_none_iff : t.numbers.lookup a = none ↔ a ∉ t.entries := by
  rw [List.mem_iff_getElem?, not_exists, Option.eq_none_iff_forall_ne_some]
  exact forall_congr' fun n => not_congr (t.inverse a n)

variable {t a} in
theorem intern_of_notMem (h : a ∉ t.entries) :
    (t.intern a).1.entries = t.entries ++ [a] ∧ (t.intern a).2 = t.entries.length := by
  rw [← lookup_eq_none_iff] at h
  unfold intern
  split
  · rename_i n hn
    rw [h] at hn
    cases hn
  · exact ⟨rfl, rfl⟩

theorem entries_intern :
    (t.intern a).1.entries = if a ∈ t.entries then t.entries else t.entries ++ [a] := by
  split_ifs with ha
  · unfold intern
    split
    · rfl
    · rename_i hnone
      exact absurd ha ((t.lookup_eq_none_iff a).mp hnone)
  · exact (intern_of_notMem ha).1

theorem getElem?_intern : (t.intern a).1.entries[(t.intern a).2]? = some a := by
  unfold intern
  split
  · rename_i n hn
    exact (t.inverse a n).mp hn
  · exact List.getElem?_concat_length

end Numbering

inductive Symbol where
  | type (t : Ty)
  | field (f : Field)
  | method (m : Method)
deriving DecidableEq

namespace Symbol

def text : Symbol → String
  | .type t => t.text
  | .field f => f.qualifiedName
  | .method m => m.qualifiedName

def table : Symbol → Table
  | .type _ => .type
  | .field _ => .field
  | .method _ => .method

end Symbol

namespace Symbols

variable {S S' T T' U : Symbols} {f f' : Ref → Ref} {r : Ref} {y : Symbol}

def add (S : Symbols) : Symbol → Symbols × Ref
  | .type t => S.addType t
  | .field f => S.addField f
  | .method m => S.addMethod m

def entries (S : Symbols) : Table → List Symbol
  | .type => S.types.entries.map .type
  | .field => S.fields.entries.map .field
  | .method => S.methods.entries.map .method

theorem entries_add (S : Symbols) (y : Symbol) (t : Table) :
    (S.add y).1.entries t =
      if y.table = t ∧ y ∉ S.entries t then S.entries t ++ [y] else S.entries t := by
  cases y <;> cases t <;>
    simp [add, addType, addField, addMethod, Numbering.entries_intern, entries, Symbol.table] <;>
    split_ifs <;> simp

def Names (S : Symbols) (r : Ref) (y : Symbol) : Prop :=
  r.table = y.table ∧ (S.entries y.table)[r.index]? = some y

theorem names_add (S : Symbols) (y : Symbol) : (S.add y).1.Names (S.add y).2 y := by
  cases y with
  | type t =>
    have h := S.types.getElem?_intern t
    exact ⟨rfl, by simp [add, addType, entries, Symbol.table, h]⟩
  | field f =>
    have h := S.fields.getElem?_intern f
    exact ⟨rfl, by simp [add, addField, entries, Symbol.table, h]⟩
  | method m =>
    have h := S.methods.getElem?_intern m
    exact ⟨rfl, by simp [add, addMethod, entries, Symbol.table, h]⟩

theorem type?_eq_some {t : Ty} : S.type? r = some t ↔ S.Names r (.type t) := by
  obtain ⟨table, n⟩ := r
  cases table <;> simp [type?, Names, entries, Symbol.table]

theorem method?_eq_some {m : Method} : S.method? r = some m ↔ S.Names r (.method m) := by
  obtain ⟨table, n⟩ := r
  cases table <;> simp [method?, Names, entries, Symbol.table]

theorem display_of_names (h : S.Names r y) : S.display r = y.text := by
  obtain ⟨table, n⟩ := r
  obtain ⟨ht, h⟩ := h
  cases y <;> cases ht <;>
    simp_all [display, name?, type?, field?, method?, entries, Symbol.table, Symbol.text]

def Extends (S T : Symbols) : Prop :=
  ∀ t, S.entries t <+: T.entries t

theorem Extends.refl (S : Symbols) : S.Extends S :=
  fun _ => List.prefix_rfl

theorem Extends.trans (h : S.Extends T) (h' : T.Extends U) : S.Extends U :=
  fun t => (h t).trans (h' t)

theorem extends_add (S : Symbols) (y : Symbol) : S.Extends (S.add y).1 := by
  intro t
  rw [entries_add]
  split_ifs
  · exact List.prefix_append _ _
  · exact List.prefix_rfl

theorem Names.mono (h : S.Names r y) (hS : S.Extends T) : T.Names r y :=
  ⟨h.1, getElem?_mono (hS y.table) h.2⟩

def Agree (S S' : Symbols) (f f' : Ref → Ref) : Prop :=
  ∀ y r r', S.Names r y → S'.Names r' y → f r = f' r'

theorem Agree.anti (h : T.Agree T' f f') (hS : S.Extends T) (hS' : S'.Extends T') :
    S.Agree S' f f' :=
  fun y r r' hr hr' => h y r r' (hr.mono hS) (hr'.mono hS')

theorem agree_const (S S' : Symbols) (r : Ref) : S.Agree S' (fun _ => r) fun _ => r :=
  fun _ _ _ _ _ => rfl

end Symbols

namespace Machine

def Operand.rename (f : Ref → Ref) : Operand → Operand
  | .type r => .type (f r)
  | .field r => .field (f r)
  | .method r arguments returns => .method (f r) arguments returns
  | o => o

def Instr.rename (f : Ref → Ref) (i : Instr) : Instr :=
  { i with operand := i.operand.rename f }

end Machine

def Item.rename (f : Ref → Ref) : Item → Item
  | .op i => .op (i.rename f)
  | .handlerStart r => .handlerStart (f r)
  | i => i

def Chunk.rename (f : Ref → Ref) (c : Chunk) : Chunk :=
  { c with code := c.code.map (·.rename f) }

def listedRename (f : Ref → Ref) (e : Value × Chunk) : Value × Chunk :=
  (e.1, e.2.rename f)

def Plan.rename (f : Ref → Ref) (p : Plan) : Plan :=
  { p with instrs := p.instrs.map (listedRename f), flow := p.flow.map (·.rename f) }

end StackCode
