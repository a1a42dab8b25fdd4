import StackCode.Proofs.Reading

namespace StackCode.Source

theorem mapM_of_forall₂ {α β γ ε : Type} {R : α → β → Prop} {f : α → Except ε γ}
    {g : β → Except ε γ} {xs : List α} {ys : List β} {zs : List γ} (h : List.Forall₂ R xs ys)
    (hfg : ∀ x y z, R x y → g y = .ok z → f x = .ok z) (hg : ys.mapM g = .ok zs) :
    xs.mapM f = .ok zs := by
  induction h generalizing zs with
  | nil => exact hg
  | cons hr _ ih =>
    rw [List.mapM_cons] at hg ⊢
    obtain ⟨z, hz, hg⟩ := bind_eq_ok.mp hg
    obtain ⟨us, hus, hg⟩ := bind_eq_ok.mp hg
    rw [hfg _ _ _ hr hz, ih hus]
    exact hg

namespace Scope

variable {s : Scope}

theorem entry_line {n m : Nat} {name : String} {e : Value × Ty} (h : s.entry n name = .ok e) :
    s.entry m name = .ok e := by
  unfold entry at h ⊢
  split at h
  · exact h
  · cases h

theorem value_line {n m : Nat} {name : String} {v : Value} (h : s.value n name = .ok v) :
    s.value m name = .ok v := by
  unfold value at h ⊢
  cases he : s.entry n name with
  | error e =>
    rw [he] at h
    cases h
  | ok e =>
    rw [he] at h
    rw [entry_line he]
    exact h

theorem instr_alike {a b : OpTree} {i : Instr} (hab : a.Alike b) (h : s.instr b = .ok i) :
    s.instr a = .ok i := by
  obtain ⟨es, hes, h⟩ := bind_eq_ok.mp h
  have hes' : a.operands.mapM (s.entry a.line) = .ok es := by
    apply mapM_of_forall₂ (R := (· = ·)) _ _ hes
    · rw [List.forall₂_eq_eq_eq]
      exact hab.2
    · rintro x _ z rfl hz
      exact entry_line hz
  rw [instr, hes', hab.1]
  exact h

theorem arg_line {n m : Nat} {a : ArgTree} {r : BranchArg} (h : s.arg n a = .ok r) :
    s.arg m a = .ok r := by
  cases a with
  | value name =>
    obtain ⟨v, hv, h⟩ := bind_eq_ok.mp h
    rw [arg, value_line hv]
    exact h
  | result | exception => exact h

theorem branch_alike {a b : BranchTree} {r : Branch} (hab : a.Alike b) (h : s.branch b = .ok r) :
    s.branch a = .ok r := by
  unfold branch at h ⊢
  rw [hab.1]
  split at h
  · cases h
  · next target ht =>
    obtain ⟨as, has, h⟩ := bind_eq_ok.mp h
    have has' : a.args.mapM (s.arg a.line) = .ok as := by
      apply mapM_of_forall₂ (R := (· = ·)) _ _ has
      · rw [List.forall₂_eq_eq_eq]
        exact hab.2
      · rintro x _ z rfl hz
        exact arg_line hz
    rw [has']
    exact h

theorem case_alike {a b : CaseTree} {r : Case} (hab : a.Alike b) (h : s.case b = .ok r) :
    s.case a = .ok r := by
  obtain ⟨br, hb, h⟩ := bind_eq_ok.mp h
  rw [case, branch_alike hab.2 hb, hab.1]
  exact h

theorem flow_alike {a b : FlowTree} {n m : Nat} {r : Flow} (hab : a.Alike b)
    (h : s.flow n b = .ok r) :
    s.flow m a = .ok r := by
  cases a <;> cases b <;> try exact hab.elim
  case ret v w =>
    obtain rfl : v = w := hab
    cases v with
    | none => exact h
    | some name =>
      obtain ⟨v, hv, h⟩ := bind_eq_ok.mp h
      rw [flow, value_line hv]
      exact h
  case jump a b =>
    obtain ⟨br, hb, h⟩ := bind_eq_ok.mp h
    rw [flow, branch_alike hab hb]
    exact h
  case switch v as a w bs b =>
    obtain ⟨rfl, has, hb⟩ := hab
    obtain ⟨x, hx, h⟩ := bind_eq_ok.mp h
    obtain ⟨cs, hcs, h⟩ := bind_eq_ok.mp h
    obtain ⟨br, hbr, h⟩ := bind_eq_ok.mp h
    rw [flow, value_line hx, mapM_of_forall₂ has (fun _ _ _ => case_alike) hcs, branch_alike hb hbr]
    exact h
  case protect =>
    obtain ⟨i, hi, h⟩ := bind_eq_ok.mp h
    obtain ⟨x, hx, h⟩ := bind_eq_ok.mp h
    obtain ⟨y, hy, h⟩ := bind_eq_ok.mp h
    rw [flow, instr_alike hab.1 hi, branch_alike hab.2.1 hx, branch_alike hab.2.2 hy]
    exact h
  case unreachable => exact h

theorem block_alike {a b : BlockTree} {n : Nat} {r : Resolved} (hab : a.Alike b)
    (h : s.block b n = .ok r) : s.block a n = .ok r := by
  obtain ⟨is, his, h⟩ := bind_eq_ok.mp h
  obtain ⟨f, hf, h⟩ := bind_eq_ok.mp h
  have his' : a.statements.mapM (fun st => return (st.name, ← s.instr st.op)) = .ok is := by
    refine mapM_of_forall₂ hab.2.2.1 ?_ his
    intro x y z hxy hz
    obtain ⟨i, hi, hz⟩ := bind_eq_ok.mp hz
    rw [instr_alike hxy.2 hi, hxy.1]
    exact hz
  rw [block, his', hab.2.1]
  dsimp only [bind, Except.bind]
  rw [flow_alike hab.2.2.2 hf]
  exact h

end Scope

theorem blockScope_alike {method method' : String} {n : Nat} {scope r : List (String × Label)}
    {as bs : List BlockTree} (hab : List.Forall₂ BlockTree.Alike as bs)
    (h : blockScope method n scope bs = .ok r) : blockScope method' n scope as = .ok r := by
  induction hab generalizing n scope with
  | nil => exact h
  | cons hr _ ih =>
    rw [blockScope] at h ⊢
    rw [hr.1]
    split at h
    · cases h
    · next hn =>
      rw [if_neg hn]
      exact ih h

theorem valueScope_alike {n : Nat} {scope r : List (String × Value × Ty)} {as bs : List Defined}
    (hab : List.Forall₂ (fun a b => a.name = b.name ∧ a.type = b.type) as bs)
    (h : valueScope n scope bs = .ok r) : valueScope n scope as = .ok r := by
  induction hab generalizing n scope with
  | nil => exact h
  | @cons a b as bs hr _ ih =>
    obtain ⟨name, t, line⟩ := a
    obtain ⟨name', t', line'⟩ := b
    obtain ⟨rfl, rfl⟩ := hr
    cases name with
    | none =>
      rw [valueScope] at h ⊢
      exact ih h
    | some name =>
      rw [valueScope] at h ⊢
      split at h
      · cases h
      · next hn =>
        rw [if_neg hn]
        exact ih h

theorem defined_alike {as bs : List BlockTree} (hab : List.Forall₂ BlockTree.Alike as bs) :
    List.Forall₂ (fun a b => a.name = b.name ∧ a.type = b.type) (as.flatMap BlockTree.defined)
      (bs.flatMap BlockTree.defined) := by
  induction hab with
  | nil => exact .nil
  | @cons a b as bs hr _ ih =>
    obtain ⟨-, hp, hs, -⟩ := hr
    rw [List.flatMap_cons, List.flatMap_cons, BlockTree.defined, BlockTree.defined, hp]
    refine List.rel_append (List.rel_append ?_ ?_) ih
    · rw [List.forall₂_map_left_iff, List.forall₂_map_right_iff, List.forall₂_same]
      exact fun _ _ => ⟨rfl, rfl⟩
    · rw [List.forall₂_map_left_iff, List.forall₂_map_right_iff]
      exact hs.imp fun _ _ h => ⟨h.1, by rw [h.2.1]⟩

theorem zipIdx_alike {as bs : List BlockTree} (hab : List.Forall₂ BlockTree.Alike as bs) (n : Nat) :
    List.Forall₂ (fun x y => x.1.Alike y.1 ∧ x.2 = y.2) (as.zipIdx n) (bs.zipIdx n) := by
  induction hab generalizing n with
  | nil => exact .nil
  | cons hr _ ih =>
    rw [List.zipIdx_cons, List.zipIdx_cons]
    exact .cons ⟨hr, rfl⟩ (ih (n + 1))

def emptied (blocks : List BlockTree) : Builder :=
  blocks.foldl (fun b t => (b.addBlock t.name).1) {}

theorem emptied_alike {as bs : List BlockTree} (hab : List.Forall₂ BlockTree.Alike as bs) :
    emptied as = emptied bs := by
  have h : as.map BlockTree.name = bs.map BlockTree.name := by
    induction hab with
    | nil => rfl
    | cons hr _ ih => rw [List.map_cons, List.map_cons, hr.1, ih]
  have hfold : ∀ ts : List BlockTree, emptied ts
      = (ts.map BlockTree.name).foldl (fun b s => (b.addBlock s).1) {} := fun ts => by
    rw [emptied, List.foldl_map]
  rw [hfold, hfold, h]

theorem MethodTree.graph_eq_ok {m : MethodTree} {g : Graph} :
    m.graph = .ok g ↔ ∃ blocks values rs, blockScope m.name 0 [] m.blocks = .ok blocks ∧
      valueScope 0 [] (m.blocks.flatMap BlockTree.defined) = .ok values ∧
      (m.blocks.zipIdx.mapM fun x => Scope.block ⟨blocks, values⟩ x.1 x.2) = .ok rs ∧
      (rs.foldl Resolved.fill (emptied m.blocks)).finish = g := by
  constructor
  · intro h
    rw [graph, bind_eq_ok] at h
    obtain ⟨s, hs, h⟩ := h
    rw [bind_eq_ok] at h
    obtain ⟨rs, hrs, h⟩ := h
    rw [scope, bind_eq_ok] at hs
    obtain ⟨blocks, hblocks, hs⟩ := hs
    rw [bind_eq_ok] at hs
    obtain ⟨values, hvalues, hs⟩ := hs
    cases hs
    cases h
    exact ⟨blocks, values, rs, hblocks, hvalues, hrs, rfl⟩
  · rintro ⟨blocks, values, rs, hblocks, hvalues, hrs, rfl⟩
    have hs : m.scope = .ok ⟨blocks, values⟩ := by
      rw [scope, hblocks, hvalues]
      rfl
    rw [graph, bind_eq_ok]
    refine ⟨_, hs, ?_⟩
    rw [bind_eq_ok]
    exact ⟨rs, hrs, rfl⟩

theorem MethodTree.graph_alike {a b : MethodTree} {g : Graph} (hab : a.Alike b)
    (h : b.graph = .ok g) :
    a.graph = .ok g := by
  obtain ⟨blocks, values, rs, hblocks, hvalues, hrs, hg⟩ := graph_eq_ok.mp h
  rw [graph_eq_ok]
  refine ⟨blocks, values, rs, blockScope_alike hab.2 hblocks,
    valueScope_alike (defined_alike hab.2) hvalues, ?_, by rw [emptied_alike hab.2]; exact hg⟩
  refine mapM_of_forall₂ (zipIdx_alike hab.2 0) ?_ hrs
  rintro ⟨x, n⟩ ⟨y, k⟩ z ⟨hxy, rfl⟩ hz
  exact Scope.block_alike hxy hz

end StackCode.Source
