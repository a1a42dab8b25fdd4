import StackCode.Proofs.Resolution

namespace StackCode.Source

def numbered (n : Nat) : List (String × Ty) → List Parameter
  | [] => []
  | (_, t) :: ps => ⟨⟨n⟩, t⟩ :: numbered (n + 1) ps

def parameterInfos (l : Label) (k : Nat) : List (String × Ty) → List ValueInfo
  | [] => []
  | (name, t) :: ps => ⟨some name, t, .parameter l k⟩ :: parameterInfos l (k + 1) ps

def instrInfo (l : Label) (x : Option String × Instr) : ValueInfo :=
  ⟨x.1, x.2.operation.resultType, .instruction l x.2⟩

namespace Resolved

def infos (r : Resolved) : List ValueInfo :=
  parameterInfos r.label 0 r.parameters ++ r.instrs.map (instrInfo r.label)

def toBlock (r : Resolved) (name : String) (n : Nat) : Block :=
  ⟨r.label, name, numbered n r.parameters,
    (List.range' (n + r.parameters.length) r.instrs.length).map Value.mk, r.flow⟩

end Resolved

theorem length_parameterInfos (l : Label) (k : Nat) (ps : List (String × Ty)) :
    (parameterInfos l k ps).length = ps.length := by
  induction ps generalizing k with
  | nil => rfl
  | cons p ps ih => simp [parameterInfos, ih]

structure Shows (b : Builder) (blocks : List Block) (values : List ValueInfo) : Prop where
  blocks : b.blocks.toList = blocks
  values : b.values.toList = values

section Steps

variable {b : Builder} {before after : List Block} {c : Block} {l : Label} {vs : List ValueInfo}

theorem modify_middle (f : Block → Block) :
    (before ++ c :: after).modify before.length f = before ++ f c :: after := by
  induction before with
  | nil => rfl
  | cons a before ih => simp [ih]

theorem Shows.size (h : Shows b (before ++ c :: after) vs) : b.values.size = vs.length := by
  rw [← h.values, Array.length_toList]

theorem Shows.modifyBlock (h : Shows b (before ++ c :: after) vs) (hl : l.id = before.length)
    (f : Block → Block) : Shows (b.modifyBlock l f) (before ++ f c :: after) vs := by
  refine ⟨?_, h.values⟩
  rw [Builder.modifyBlock, Array.toList_modify, h.blocks, hl, modify_middle]

theorem Shows.parameterCount (h : Shows b (before ++ c :: after) vs) (hl : l.id = before.length) :
    b.parameterCount l = c.parameters.length := by
  have : b.blocks[l.id]? = some c := by
    rw [← Array.getElem?_toList, h.blocks, hl]
    simp
  rw [Builder.parameterCount, this]

theorem Shows.push (h : Shows b (before ++ c :: after) vs) (x : ValueInfo) :
    Shows { b with values := b.values.push x } (before ++ c :: after) (vs ++ [x]) :=
  ⟨h.blocks, by simp [h.values]⟩

theorem Shows.addParameters (ps : List (String × Ty)) (h : Shows b (before ++ c :: after) vs)
    (hl : l.id = before.length) :
    Shows (ps.foldl (fun b (name, t) => (b.addParameter l (some name) t).1) b)
      (before ++ { c with parameters := c.parameters ++ numbered vs.length ps } :: after)
      (vs ++ parameterInfos l c.parameters.length ps) := by
  induction ps generalizing b c vs with
  | nil => simpa [numbered, parameterInfos] using h
  | cons p ps ih =>
    obtain ⟨name, t⟩ := p
    rw [List.foldl_cons]
    have hstep : Shows (b.addParameter l (some name) t).1
        (before ++ { c with parameters := c.parameters ++ [⟨⟨vs.length⟩, t⟩] } :: after)
        (vs ++ [⟨some name, t, .parameter l c.parameters.length⟩]) := by
      rw [← h.parameterCount hl, ← h.size]
      exact (h.push _).modifyBlock hl _
    have := ih hstep
    simpa [numbered, parameterInfos, List.append_assoc] using this

theorem Shows.addInstrs (is : List (Option String × Instr)) (h : Shows b (before ++ c :: after) vs)
    (hl : l.id = before.length) :
    Shows (is.foldl (fun b (name, i) => (b.addInstr l name i).1) b)
      (before ++ { c with
        instructions := c.instructions ++ (List.range' vs.length is.length).map Value.mk } :: after)
      (vs ++ is.map (instrInfo l)) := by
  induction is generalizing b c vs with
  | nil => simpa using h
  | cons x is ih =>
    obtain ⟨name, i⟩ := x
    rw [List.foldl_cons]
    have hstep : Shows (b.addInstr l name i).1
        (before ++ { c with instructions := c.instructions ++ [⟨vs.length⟩] } :: after)
        (vs ++ [instrInfo l (name, i)]) := by
      rw [← h.size]
      exact (h.push _).modifyBlock hl _
    have := ih hstep
    simpa [List.range'_succ, List.append_assoc] using this

def emptyBlock (name : String) (n : Nat) : Block :=
  ⟨⟨n⟩, name, [], [], .unreachable⟩

theorem Shows.fill {r : Resolved} {name : String}
    (h : Shows b (before ++ emptyBlock name before.length :: after) vs)
    (hl : r.label = ⟨before.length⟩) :
    Shows (r.fill b) (before ++ r.toBlock name vs.length :: after) (vs ++ r.infos) := by
  have hid : r.label.id = before.length := by rw [hl]
  have hp := h.addParameters r.parameters hid
  have hi := (hp.addInstrs r.instrs hid).modifyBlock hid fun block => { block with flow := r.flow }
  have hb : r.toBlock name vs.length = ⟨⟨before.length⟩, name, numbered vs.length r.parameters,
      (List.range' (vs.length + r.parameters.length) r.instrs.length).map Value.mk, r.flow⟩ := by
    rw [Resolved.toBlock, hl]
  rw [hb, Resolved.infos, ← List.append_assoc]
  simp only [emptyBlock, List.nil_append, List.length_nil, List.length_append,
    length_parameterInfos] at hi
  exact hi

end Steps

def assembled (n : Nat) : List BlockTree → List Resolved → List Block
  | t :: ts, r :: rs => r.toBlock t.name n :: assembled (n + r.infos.length) ts rs
  | _, _ => []

theorem label_of_block {s : Scope} {t : BlockTree} {n : Nat} {r : Resolved}
    (h : s.block t n = .ok r) :
    r.label = ⟨n⟩ := by
  rw [Scope.block, bind_eq_ok] at h
  obtain ⟨is, -, h⟩ := h
  rw [bind_eq_ok] at h
  obtain ⟨f, -, h⟩ := h
  cases h
  rfl

theorem Shows.fills {s : Scope} {b : Builder} {before : List Block} {vs : List ValueInfo}
    {ts : List BlockTree} {rs : List Resolved}
    (hrs : List.Forall₂ (fun x r => s.block x.1 x.2 = .ok r) (ts.zipIdx before.length) rs)
    (h : Shows b (before ++ (ts.zipIdx before.length).map fun x => emptyBlock x.1.name x.2) vs) :
    Shows (rs.foldl Resolved.fill b) (before ++ assembled vs.length ts rs)
      (vs ++ rs.flatMap Resolved.infos) := by
  induction ts generalizing b before vs rs with
  | nil =>
    cases hrs
    simpa [assembled] using h
  | cons t ts ih =>
    rw [List.zipIdx_cons] at hrs h
    cases hrs with
    | @cons _ r _ rs hr hrest =>
      have hstep := h.fill (label_of_block hr)
      rw [List.foldl_cons, assembled, List.flatMap_cons, List.append_cons, ← List.append_assoc]
      have hlen : before.length + 1 = (before ++ [r.toBlock t.name vs.length]).length := by simp
      rw [List.append_cons, hlen] at hstep
      rw [hlen] at hrest
      have := ih hrest hstep
      rwa [List.length_append] at this

theorem shows_addBlocks {b : Builder} {blocks : List Block} (ts : List BlockTree)
    (h : Shows b blocks []) :
    Shows (ts.foldl (fun b t => (b.addBlock t.name).1) b)
      (blocks ++ (ts.zipIdx blocks.length).map fun x => emptyBlock x.1.name x.2) [] := by
  induction ts generalizing b blocks with
  | nil => simpa using h
  | cons t ts ih =>
    have hstep : Shows (b.addBlock t.name).1 (blocks ++ [emptyBlock t.name blocks.length]) [] := by
      refine ⟨?_, h.values⟩
      simp [Builder.addBlock, emptyBlock, ← h.blocks]
    have := ih hstep
    simpa [List.zipIdx_cons] using this

theorem graph_holds {s : Scope} {ts : List BlockTree} {rs : List Resolved}
    (hrs : (ts.zipIdx.mapM fun x => s.block x.1 x.2) = .ok rs) :
    ((rs.foldl Resolved.fill (emptied ts)).finish).blocks.toList = assembled 0 ts rs ∧
      ((rs.foldl Resolved.fill (emptied ts)).finish).values.toList = rs.flatMap Resolved.infos := by
  have hempty : Shows (emptied ts) ([] ++ (ts.zipIdx 0).map fun x => emptyBlock x.1.name x.2) [] :=
    shows_addBlocks ts ⟨rfl, rfl⟩
  have hrs : List.Forall₂ _ (ts.zipIdx ([] : List Block).length) rs := forall₂_of_mapM hrs
  have := Shows.fills hrs hempty
  exact ⟨this.blocks, this.values⟩

end StackCode.Source
