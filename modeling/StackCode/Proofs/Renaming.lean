import StackCode.Compile
import StackCode.Proofs.References

namespace StackCode

open Machine (Ref)

namespace Machine

def Handler.rename (f : Ref → Ref) (h : Handler) : Handler :=
  { h with catchType := f h.catchType }

def Body.rename (f : Ref → Ref) (b : Body) : Body :=
  { b with instrs := b.instrs.map (·.rename f), handlers := b.handlers.map (·.rename f) }

def Site.rename (f : Ref → Ref) (s : Site) : Site :=
  { s with instr := s.instr.rename f }

section Listings

variable (f : Ref → Ref) (names : Ref → String)

theorem render_rename (i : Instr) : (i.rename f).render names = i.render (names ∘ f) := by
  obtain ⟨opcode, operand⟩ := i
  cases operand <;> rfl

theorem listing_rename (b : Body) : (b.rename f).listing names = b.listing (names ∘ f) := by
  simp only [Body.listing, Body.rename, List.zipIdx_map, List.map_map, Function.comp_def, Prod.map,
    render_rename, id]
  rfl

end Listings

section Depths

variable (f : Ref → Ref)

@[simp] theorem branchTargets_rename (o : Operand) :
    (o.rename f).branchTargets = o.branchTargets := by
  cases o <;> rfl

@[simp] theorem exchange_rename (i : Instr) (p d : Nat) :
    (i.rename f).exchange p d = i.exchange p d := by
  obtain ⟨opcode, operand⟩ := i
  simp only [Instr.exchange, Instr.rename]
  cases opcode.effect <;> cases operand <;> rfl

@[simp] theorem depthAfter_rename (i : Instr) (p d : Nat) :
    (i.rename f).depthAfter p d = i.depthAfter p d := by
  rw [Instr.depthAfter, exchange_rename]
  rfl

@[simp] theorem successors_rename (i : Instr) (p : Nat) :
    (i.rename f).successors p = i.successors p := by
  simp only [Instr.successors, Instr.rename, branchTargets_rename]
  rfl

-- The definition remembers what it found at a site, which stands in the way of rewriting.
theorem explore_cons (sites : Array Site) (p d : Nat) (pending : List (Nat × Nat)) :
    explore sites ((p, d) :: pending) = match sites[p]? with
      | none => .error (.fallsOff p)
      | some ⟨_, some known⟩ =>
        if known = d then explore sites pending else .error (.mismatch p known d)
      | some ⟨i, none⟩ =>
        match i.depthAfter p d with
        | .error e => .error e
        | .ok after => explore (sites.setIfInBounds p ⟨i, some d⟩)
          ((i.successors p).map (·, after) ++ pending) := by
  rw [explore]
  split
  · simp_all
  · simp_all
  · rename_i i h
    cases hd : i.depthAfter p d <;> simp only [h, hd]

theorem explore_rename (sites : Array Site) (pending : List (Nat × Nat)) :
    explore (sites.map (·.rename f)) pending
      = (explore sites pending).map fun sites => sites.map (·.rename f) := by
  fun_induction explore sites pending with
  | case1 sites =>
    rw [explore]
    rfl
  | case2 sites p d pending h =>
    rw [explore_cons, Array.getElem?_map, h]
    rfl
  | case3 sites d pending p i h ih =>
    rw [explore_cons, Array.getElem?_map, h, ← ih]
    exact if_pos rfl
  | case4 sites p d pending i known h hne =>
    rw [explore_cons, Array.getElem?_map, h]
    exact if_neg hne
  | case5 sites p d pending i h e he =>
    rw [explore_cons, Array.getElem?_map, h]
    simp only [Option.map_some, Site.rename, depthAfter_rename, he]
    rfl
  | case6 sites p d pending i h after ha ih =>
    rw [explore_cons, Array.getElem?_map, h, ← ih]
    simp only [Option.map_some, Site.rename, depthAfter_rename, ha, successors_rename,
      Array.map_setIfInBounds]

theorem peak_rename (s : Site) (p : Nat) : (s.rename f).peak p = s.peak p := by
  simp only [Site.peak, Site.rename, depthAfter_rename]

theorem occupiedTry?_rename (sites : Array Site) (h : Handler) :
    occupiedTry? (sites.map (·.rename f)) (h.rename f) = occupiedTry? sites h := by
  simp only [occupiedTry?, Handler.rename, Array.getElem?_map]
  cases sites[h.tryStart]? with
  | none => rfl
  | some s =>
    obtain ⟨i, d⟩ := s
    cases d with
    | none => rfl
    | some d => cases d <;> rfl

theorem depths_rename (b : Body) : (b.rename f).depths = b.depths := by
  have hstarts : (b.rename f).starts = b.starts := by
    simp [Body.starts, Body.rename, Handler.rename, Function.comp_def]
  have hsites : ((b.rename f).instrs.map fun i => (⟨i, none⟩ : Site)).toArray
      = (b.instrs.map fun i => (⟨i, none⟩ : Site)).toArray.map (·.rename f) := by
    simp [Body.rename, Site.rename, Function.comp_def]
  have hfault (sites : Array Site) :
      (b.rename f).handlers.findSome? (occupiedTry? (sites.map (·.rename f)))
        = b.handlers.findSome? (occupiedTry? sites) := by
    rw [Body.rename, List.findSome?_map]
    exact congrArg (fun g => b.handlers.findSome? g) (funext fun h => occupiedTry?_rename f sites h)
  rw [Body.depths, Body.depths, hstarts, hsites, explore_rename]
  cases explore (b.instrs.map fun i => (⟨i, none⟩ : Site)).toArray b.starts with
  | error e => rfl
  | ok sites =>
    simp only [Except.map, hfault, Array.toList_map, List.map_map, List.zipIdx_map,
      Function.comp_def, Prod.map, peak_rename, id]
    rfl

end Depths

section Improvements

variable (f : Ref → Ref)

@[simp] theorem storedSlot_rename (i : Instr) : (i.rename f).storedSlot = i.storedSlot := by
  obtain ⟨opcode, operand⟩ := i
  cases operand <;> first | rfl | (cases opcode <;> rfl)

@[simp] theorem loadedSlot_rename (i : Instr) : (i.rename f).loadedSlot = i.loadedSlot := by
  obtain ⟨opcode, operand⟩ := i
  cases operand <;> first | rfl | (cases opcode <;> rfl)

@[simp] theorem shortForm?_rename (i : Instr) : (i.rename f).shortForm? = i.shortForm? := by
  obtain ⟨opcode, operand⟩ := i
  cases operand <;> first | rfl | (cases opcode <;> rfl)

theorem rename_of_shortForm? {i j : Instr} (h : i.shortForm? = some j) : j.rename f = j := by
  simp only [Instr.shortForm?] at h
  repeat' split at h
  all_goals cases h
  all_goals rfl

theorem fuseFrom_rename (entered : Nat → Bool) (p : Nat) (a : Instr) (rest : List Instr) :
    (fuseFrom entered p (a.rename f) (rest.map (·.rename f))).1
      = (fuseFrom entered p a rest).1.map (·.rename f) := by
  induction rest generalizing p a with
  | nil => rfl
  | cons b rest ih =>
    have hfusable : (a.rename f).fusable (b.rename f) = a.fusable b := by
      simp only [Instr.fusable, storedSlot_rename, loadedSlot_rename]
    rw [List.map_cons, fuseFrom, fuseFrom, hfusable]
    split
    · -- The store stays behind, for the loads that follow it.
      exact congrArg (⟨.dup, .none⟩ :: ·) (ih (p + 1) a)
    · exact congrArg (a.rename f :: ·) (ih (p + 1) b)

theorem entryPoints_rename (b : Body) : (b.rename f).entryPoints = b.entryPoints := by
  simp only [Body.entryPoints, Body.rename, List.flatMap_map, Instr.rename, branchTargets_rename]
  rfl

theorem fuse_rename (b : Body) : (b.rename f).fuse.1 = b.fuse.1.rename f := by
  have hpoints := entryPoints_rename f b
  obtain ⟨instrs, handlers, locals, maxStack⟩ := b
  cases instrs with
  | nil => rfl
  | cons first rest =>
    simp only [Body.fuse, Body.rename, List.map_cons] at hpoints ⊢
    rw [hpoints, fuseFrom_rename]

theorem compact_rename (b : Body) : (b.rename f).compact.1 = b.compact.1.rename f := by
  have hshort (i : Instr) : (i.rename f).shortForm?.getD (i.rename f)
      = (i.shortForm?.getD i).rename f := by
    rw [shortForm?_rename]
    cases h : i.shortForm? with
    | none => rfl
    | some j => exact (rename_of_shortForm? f h).symm
  simp only [Body.compact, Body.rename, List.map_map, Function.comp_def, hshort]

end Improvements

end Machine

theorem improve_rename (f : Ref → Ref) (o : Options) (b : Machine.Body) :
    Compile.improve o (b.rename f) = (Compile.improve o b).rename f := by
  simp only [Compile.improve, Machine.Body.optimize]
  split
  · split
    · exact (congrArg (fun b => b.compact.1) (Machine.fuse_rename f b)).trans
        (Machine.compact_rename f b.fuse.1)
    · exact Machine.fuse_rename f b
  · split
    · exact Machine.compact_rename f b
    · rfl

section Answers

variable {α β γ δ : Type} {x : Except CompileError α} {k : α → Except CompileError β}
  {r : α → γ} {h : β → δ}

theorem bind_rename {k' : γ → Except CompileError δ} (hk : ∀ a, k' (r a) = (k a).map h) :
    (x.map r >>= k') = (x >>= k).map h := by
  cases x with
  | error e => rfl
  | ok a => exact hk a

theorem bind_same {k' : α → Except CompileError δ} (hk : ∀ a, k' a = (k a).map h) :
    (x >>= k') = (x >>= k).map h := by
  cases x with
  | error e => rfl
  | ok a => exact hk a

theorem mapM_rename {g : γ → Except CompileError δ} (hg : ∀ a, g (r a) = (k a).map h)
    (as : List α) :
    (as.map r).mapM g = (as.mapM k).map (List.map h) := by
  induction as with
  | nil => rfl
  | cons a as ih =>
    rw [List.map_cons, List.mapM_cons, List.mapM_cons, hg, ih]
    exact bind_rename fun b => bind_rename fun bs => rfl

end Answers

section Items

variable (f : Ref → Ref) (i : Item)

@[simp] theorem register?_rename : (i.rename f).register? = i.register? := by
  cases i <;> rfl

@[simp] theorem targets_rename : (i.rename f).targets = i.targets := by
  cases i <;> rfl

@[simp] theorem isMark_rename : (i.rename f).isMark = i.isMark := by
  cases i <;> rfl

@[simp] theorem fallsThrough_rename : (i.rename f).fallsThrough = i.fallsThrough := by
  cases i <;> rfl

@[simp] theorem transfers_rename : (i.rename f).transfers = i.transfers := by
  cases i <;> rfl

@[simp] theorem access?_rename : (i.rename f).access? = i.access? := by
  cases i <;> rfl

end Items

section Streams

variable (f : Ref → Ref)

theorem filterMap_zipIdx_rename {α : Type} {g : Item × Nat → Option α}
    (hg : ∀ i n, g (i.rename f, n) = g (i, n)) (items : List Item) :
    (items.map (·.rename f)).zipIdx.filterMap g = items.zipIdx.filterMap g := by
  rw [List.zipIdx_map, List.filterMap_map]
  exact congrArg (fun g => items.zipIdx.filterMap g) (funext fun e => hg e.1 e.2)

theorem labelPositions_rename (items : List Item) :
    labelPositions (items.map (·.rename f)) = labelPositions items := by
  rw [labelPositions, labelPositions, filterMap_zipIdx_rename]
  intro i n
  cases i <;> rfl

theorem regionsFrom_rename (labels : List (Label × Nat)) (tries : List Nat) (p : Nat)
    (items : List Item) :
    regionsFrom labels tries p (items.map (·.rename f)) = regionsFrom labels tries p items := by
  induction items generalizing tries p with
  | nil => rfl
  | cons i items ih =>
    rw [List.map_cons]
    generalize items.map (·.rename f) = renamed at ih
    cases i with
    | handlerStart r =>
      cases tries with
      | nil => rfl
      | cons start tries => simp only [Item.rename, regionsFrom, ih]
    | _ => simp only [Item.rename, regionsFrom, Item.targets, ih]

theorem segmentsFrom_rename (start p : Nat) (items : List Item) :
    segmentsFrom start p (items.map (·.rename f)) = segmentsFrom start p items := by
  induction items generalizing start p with
  | nil => rfl
  | cons i items ih => simp only [List.map_cons, segmentsFrom, isMark_rename, transfers_rename, ih]

def Control.rename (c : Control) : Control :=
  { c with items := c.items.map (·.rename f) }

theorem ofItems_rename (items : List Item) : Control.ofItems (items.map (·.rename f))
    = (Control.ofItems items).map (Control.rename f) := by
  rw [Control.ofItems, Control.ofItems, labelPositions_rename, regionsFrom_rename]
  cases regionsFrom (labelPositions items) [] 0 items <;> rfl

theorem controlSuccessors_rename (c : Control) (p : Nat) (i : Item) :
    (c.rename f).successors p (i.rename f) = c.successors p i := by
  simp only [Control.successors, Control.rename, targets_rename, fallsThrough_rename,
    List.length_map]

def Layout.rename (l : Layout) : Layout :=
  { l with code := l.code.map (List.map (·.rename f)) }

theorem layout_rename (c : Control) : (c.rename f).layout = c.layout.rename f := by
  have hsegments : segmentsFrom 0 0 (c.items.map (·.rename f)) = segmentsFrom 0 0 c.items :=
    segmentsFrom_rename f 0 0 c.items
  have hnext (p : Nat) :
      (c.items[p]?.map (·.rename f)).elim [] ((c.rename f).successors p)
        = c.items[p]?.elim [] (c.successors p) := by
    rw [Option.elim_map]
    congr
    exact funext (controlSuccessors_rename f c p)
  have hcode (s : Segment) : ((c.items.map (·.rename f)).drop s.start).take (s.stop - s.start)
      = ((c.items.drop s.start).take (s.stop - s.start)).map (·.rename f) := by
    rw [← List.map_drop, ← List.map_take]
  have hhandlers : (c.rename f).handlers = c.handlers := rfl
  have hitems : (c.rename f).items = c.items.map (·.rename f) := rfl
  simp only [Control.layout, Layout.rename, hitems, hsegments, List.getElem?_map, hnext, hcode,
    hhandlers, List.map_map, Function.comp_def]

theorem walk_rename (tracked always out : List Value) (code : List Item) :
    walk tracked always out (code.map (·.rename f)) = walk tracked always out code := by
  have hstep (i : Item) (w : Walk) :
      w.step tracked always (i.rename f) = w.step tracked always i := by
    rw [Walk.step, Walk.step, access?_rename]
  rw [walk, List.foldr_map]
  simp only [hstep]
  rfl

theorem layoutWalk_rename (l : Layout) (tracked : List Value) (liveIn : List (List Value))
    (n : Nat) :
    (l.rename f).walk tracked liveIn n = l.walk tracked liveIn n := by
  have hcode : (l.rename f).code.getD n [] = (l.code.getD n []).map (·.rename f) := by
    simp only [Layout.rename, List.getD_eq_getElem?_getD, List.getElem?_map]
    cases l.code[n]? <;> rfl
  rw [Layout.walk, hcode, walk_rename]
  rfl

theorem run_rename (l : Layout) (tracked : List Value) (k : Nat) (d : Dataflow) :
    Dataflow.run (l.rename f) tracked k d = Dataflow.run l tracked k d := by
  have hround (d : Dataflow) : d.round (l.rename f) tracked = d.round l tracked := by
    simp only [Dataflow.round, layoutWalk_rename]
    rfl
  induction k generalizing d with
  | zero => rfl
  | succ k ih => rw [Dataflow.run, Dataflow.run, hround, ih]

theorem liveness_rename (items : List Item) (tracked : List Value) :
    liveness (items.map (·.rename f)) tracked = liveness items tracked := by
  rw [liveness, liveness, ofItems_rename]
  cases Control.ofItems items with
  | error e => rfl
  | ok c =>
    have hlength : (c.layout.rename f).code.length = c.layout.code.length := List.length_map _
    have hrounds : (c.layout.rename f).rounds tracked = c.layout.rounds tracked := by
      rw [Layout.rounds, hlength, ← Layout.rounds]
    simp only [Except.map, layout_rename, run_rename, layoutWalk_rename, hlength, hrounds]

end Streams

def Schedule.rename (f : Ref → Ref) (s : Schedule) : Schedule :=
  { s with items := s.items.map (·.rename f) }

theorem ofSchedule_rename (f : Ref → Ref) (s : Schedule) :
    Allocation.ofSchedule (s.rename f) = Allocation.ofSchedule s := by
  simp only [Allocation.ofSchedule, Schedule.rename, liveness_rename]

def Marks.rename (f : Ref → Ref) (m : Marks) : Marks :=
  { m with
    opened := m.opened.map fun (start, handler, caught) => (start, handler, f caught)
    handlers := m.handlers.map (·.rename f) }

section Emission

variable (f : Ref → Ref) (a : Allocation)

theorem add_rename (m : Marks) (n : Nat) (i : Item) :
    (m.rename f).add n (i.rename f) = (m.add n i).map (Marks.rename f) := by
  obtain ⟨labels, tries, opened, handlers⟩ := m
  cases i with
  | label l =>
    simp only [Item.rename, Marks.rename, Marks.add]
    by_cases h : (labels.lookup l).isSome = true
    · simp only [h, if_true]
      rfl
    · simp only [h]
      rfl
  | handlerStart r => cases tries <;> rfl
  | handlerEnd =>
    cases opened with
    | nil => rfl
    | cons e opened =>
      simp [Item.rename, Marks.rename, Marks.add, Except.map, Machine.Handler.rename]
  | _ => rfl

theorem checkAccess_rename (i : Item) : a.checkAccess (i.rename f) = a.checkAccess i := by
  cases i <;> rfl

theorem marksFrom_rename (m : Except InternalFault Marks) (n : Nat) (items : List Item) :
    a.marksFrom (m.map (Marks.rename f)) n (items.map (·.rename f))
      = (a.marksFrom m n items).map (Marks.rename f) := by
  induction items generalizing m n with
  | nil => cases m <;> rfl
  | cons i items ih =>
    simp only [List.map_cons, Allocation.marksFrom, isMark_rename, checkAccess_rename]
    split
    · rw [← ih]
      cases m with
      | error e => rfl
      | ok m => exact congrArg (fun m => a.marksFrom m n _) (add_rename f m n i)
    · cases a.checkAccess i with
      | error e => rfl
      | ok _ =>
        cases m with
        | error e => rfl
        | ok m => exact ih (.ok m) (n + 1)

theorem marks_rename (items : List Item) :
    a.marks (items.map (·.rename f)) = (a.marks items).map (Marks.rename f) := by
  have hfrom := marksFrom_rename f a (.ok {}) 0 items
  rw [Allocation.marks, Allocation.marks]
  rw [show Except.map (Marks.rename f) (.ok {} : Except InternalFault Marks)
    = .ok {} from rfl] at hfrom
  rw [hfrom]
  cases a.marksFrom (.ok {}) 0 items with
  | error e => rfl
  | ok m =>
    simp only [Except.map, Marks.rename, List.isEmpty_map]
    split <;> rfl

theorem access_rename (how : Access) (v : Value) :
    (a.access how v).map (·.rename f) = a.access how v := by
  unfold Allocation.access
  split
  · rfl
  · rfl
  · split <;> rfl

theorem instr?_rename (labels : List (Label × Nat)) (i : Item) :
    a.instr? labels (i.rename f) = (a.instr? labels i).map (Option.map (·.rename f)) := by
  have haccess (how : Access) (v : Value) : (do return some (← a.access how v))
      = (do return some (← a.access how v) : Except CompileError _).map
        (Option.map (·.rename f)) := by
    have h := access_rename f a how v
    cases hv : a.access how v with
    | error e => rfl
    | ok i =>
      rw [hv] at h
      exact congrArg (fun i => Except.ok (some i)) (Except.ok.inj h).symm
  cases i with
  | jump opcode l =>
    simp only [Item.rename, Allocation.instr?]
    cases Allocation.address? labels l <;> rfl
  | switch ls =>
    simp only [Item.rename, Allocation.instr?]
    cases ls.mapM (Allocation.address? labels) <;> rfl
  | load v => exact haccess .load v
  | store v => exact haccess .store v
  | address v => exact haccess .address v
  | _ => rfl

theorem renumber_rename (l : Locals) (i : Machine.Instr) :
    l.renumber (i.rename f) = (l.renumber i).map (·.rename f) := by
  obtain ⟨opcode, operand⟩ := i
  cases operand with
  | «local» n =>
    have hrename : (⟨opcode, .local n⟩ : Machine.Instr).rename f = ⟨opcode, .local n⟩ := rfl
    rw [hrename]
    unfold Locals.renumber
    dsimp only
    split
    all_goals first | rfl | (split <;> rfl)
  | _ => cases opcode <;> rfl

theorem accesses_rename (items : List Item) (id : Nat) :
    a.accesses (items.map (·.rename f)) id = a.accesses items id := by
  rw [Allocation.accesses, List.countP_map]
  exact congrArg (fun p => items.countP p) (funext fun i => by rw [Function.comp, register?_rename])

theorem locals_rename (items : List Item) (temporaries : List (Value × Ty)) (extra : List Ty) :
    a.locals (items.map (·.rename f)) temporaries extra = a.locals items temporaries extra := by
  have hbefore : a.before (items.map (·.rename f)) = a.before items := by
    funext v w
    simp only [Allocation.before, accesses_rename]
  simp only [Allocation.locals, hbefore]

theorem emit_rename (s : Schedule) (extra : List Ty) :
    emit (s.rename f) a extra = (emit s a extra).map (·.rename f) := by
  simp only [emit, Schedule.rename, marks_rename, locals_rename]
  refine bind_rename fun m => ?_
  have hcode : (s.items.map (·.rename f)).mapM (a.instr? (m.rename f).labels)
      = (s.items.mapM (a.instr? m.labels)).map (List.map (Option.map (·.rename f))) :=
    mapM_rename (instr?_rename f a m.labels) s.items
  rw [hcode]
  refine bind_rename fun code => bind_same fun l => ?_
  have hinstrs : (code.map (Option.map (·.rename f))).filterMap id
      = (code.filterMap id).map (Machine.Instr.rename f) := by
    rw [List.filterMap_map, List.map_filterMap]
    rfl
  rw [hinstrs, mapM_rename (renumber_rename f l)]
  exact bind_rename fun instrs => rfl

end Emission

section Plans

variable (f : Ref → Ref)

@[simp] theorem deps_rename (c : Chunk) : (c.rename f).deps = c.deps := rfl

@[simp] theorem isBarrier_rename (c : Chunk) : (c.rename f).isBarrier = c.isBarrier := by
  rw [Chunk.isBarrier, Chunk.rename, List.any_map]
  refine congrArg (fun p => c.code.any p) (funext fun i => ?_)
  cases i <;> rfl

theorem chunks_rename (p : Plan) : (p.rename f).chunks = p.chunks.map (·.rename f) := by
  simp [Plan.chunks, Plan.rename, listedRename, Function.comp_def]

theorem ofPlans_rename (plans : List Plan) :
    Usage.ofPlans (plans.map (·.rename f)) = Usage.ofPlans plans := by
  simp only [Usage.ofPlans, List.flatMap_map, chunks_rename]
  rfl

theorem sweep_cons (instrs : List (Value × Chunk)) (canGo : Value → Bool) (u : Usage) (v : Value)
    (pending : List Value) : sweep instrs canGo u (v :: pending) = match instrs.find? (·.1 = v) with
      | none => sweep instrs canGo u pending
      | some e =>
        if u.removable canGo v then
          sweep instrs canGo (u.drop e.1 e.2.deps) (e.2.deps.reverse ++ pending)
        else sweep instrs canGo u pending := by
  rw [sweep]
  split
  · rename_i h
    rw [h]
  · rename_i e h
    rw [h]
    rfl

theorem sweep_rename (instrs : List (Value × Chunk)) (canGo : Value → Bool) (u : Usage)
    (pending : List Value) :
    sweep (instrs.map (listedRename f)) canGo u pending = sweep instrs canGo u pending := by
  have hfind (v : Value) : (instrs.map (listedRename f)).find? (·.1 = v)
      = (instrs.find? (·.1 = v)).map (listedRename f) := List.find?_map
  fun_induction sweep instrs canGo u pending with
  | case1 u => rw [sweep]
  | case2 u v pending h ih =>
    rw [sweep_cons, hfind, h]
    exact ih
  | case3 u v pending e h hr ih =>
    rw [sweep_cons, hfind, h]
    exact (if_pos hr).trans ih
  | case4 u v pending e h hr ih =>
    rw [sweep_cons, hfind, h]
    exact (if_neg hr).trans ih

theorem settle_rename (g : Graph) (plans : List Plan) :
    Usage.settle g (plans.map (·.rename f)) = Usage.settle g plans := by
  have hinstrs : (plans.map (·.rename f)).flatMap Plan.instrs
      = (plans.flatMap Plan.instrs).map (listedRename f) := by
    rw [List.flatMap_map, List.map_flatMap]
    rfl
  simp only [Usage.settle, hinstrs, sweep_rename, ofPlans_rename, List.map_map]
  rfl

section Kept

variable (g : Graph) (policy : Policy) (u : Usage) (kept : List Value)

theorem live_rename (p : Plan) : (p.rename f).live u = (p.live u).map (listedRename f) := by
  rw [Plan.live, Plan.rename, List.filter_map]
  rfl

theorem candidates_rename (p : Plan) :
    (p.rename f).candidates g policy u = p.candidates g policy u := by
  have hreads (v : Value) : (p.rename f).readsEarly u v = p.readsEarly u v := by
    unfold Plan.readsEarly
    rw [live_rename, Plan.rename]
    simp only [List.map_map, ← List.map_take, List.any_append, List.any_map]
    rfl
  simp only [Plan.candidates, live_rename, hreads, List.map_map]
  rfl

theorem followInstrs_rename (stack : List Value) (es : List (Value × Chunk)) :
    Plan.followInstrs kept stack (es.map (listedRename f)) = Plan.followInstrs kept stack es := by
  induction es generalizing stack with
  | nil => rfl
  | cons e es ih =>
    obtain ⟨v, c⟩ := e
    rw [List.map_cons, listedRename, Plan.followInstrs, Plan.followInstrs, isBarrier_rename,
      deps_rename]
    cases takeDeps kept stack c.deps c.isBarrier with
    | error vs => rfl
    | ok stack => exact ih _

theorem followFlow_rename (stack : List Value) (first : Bool) (cs : List Chunk) :
    Plan.followFlow kept stack first (cs.map (·.rename f))
      = Plan.followFlow kept stack first cs := by
  induction cs generalizing stack first with
  | nil => rfl
  | cons c cs ih =>
    rw [List.map_cons, Plan.followFlow, Plan.followFlow, isBarrier_rename, deps_rename]
    cases takeDeps kept stack c.deps (first || c.isBarrier) with
    | error vs => rfl
    | ok stack => exact ih _ _

theorem misfits_rename (p : Plan) : (p.rename f).misfits u kept = p.misfits u kept := by
  simp only [Plan.misfits, live_rename, followInstrs_rename]
  simp only [Plan.rename, followFlow_rename]

theorem firstMisfits_rename (plans : List Plan) :
    firstMisfits u kept (plans.map (·.rename f)) = firstMisfits u kept plans := by
  induction plans with
  | nil => rfl
  | cons p plans ih => simp only [List.map_cons, firstMisfits, misfits_rename, ih]

theorem demote_rename (plans : List Plan) :
    demote u (plans.map (·.rename f)) kept = demote u plans kept := by
  fun_induction demote u plans kept with
  | case1 kept fewer hlt ih =>
    rw [demote]
    simp only [withoutMisfits, firstMisfits_rename]
    exact (if_pos hlt).trans ih
  | case2 kept fewer hge =>
    rw [demote]
    simp only [withoutMisfits, firstMisfits_rename]
    exact if_neg hge

theorem keptValues_rename (plans : List Plan) :
    keptValues g policy u (plans.map (·.rename f)) = keptValues g policy u plans := by
  simp only [keptValues, demote_rename, List.flatMap_map, candidates_rename]

theorem repeatable_rename (plans : List Plan) :
    repeatable g policy u kept (plans.map (·.rename f))
      = (repeatable g policy u kept plans).map fun e => (e.1, e.2.map (·.rename f)) := by
  have hlive : (plans.map (·.rename f)).flatMap (Plan.live u)
      = (plans.flatMap (Plan.live u)).map (listedRename f) := by
    simp only [List.flatMap_map, live_rename, List.map_flatMap]
  have hcode (c : Chunk) : (c.rename f).code.all (·.register?.isNone)
      = c.code.all (·.register?.isNone) := by
    rw [Chunk.rename, List.all_map]
    exact congrArg (fun p => c.code.all p) (funext fun i => by rw [Function.comp, register?_rename])
  rw [repeatable, repeatable, hlive, List.filterMap_map, List.map_filterMap]
  refine congrArg (fun h => (plans.flatMap (Plan.live u)).filterMap h) (funext fun e => ?_)
  simp only [Function.comp, listedRename, hcode, deps_rename]
  cases g.instr? e.1 with
  | none => rfl
  | some i =>
    dsimp only
    split <;> rfl

end Kept

end Plans

def Placement.rename (f : Ref → Ref) (p : Placement) : Placement :=
  { p with repeated := p.repeated.map fun e => (e.1, e.2.map (·.rename f)) }

section Placements

variable (f : Ref → Ref) (g : Graph) (p : Placement)

theorem placement_rename (policy : Policy) (plans : List Plan) :
    Placement.ofPlans g policy (plans.map (·.rename f))
      = (Placement.ofPlans g policy plans).rename f := by
  simp only [Placement.ofPlans, settle_rename, keptValues_rename, repeatable_rename]
  rfl

theorem lookup_rename (v : Value) :
    (p.rename f).repeated.lookup v
      = (p.repeated.lookup v).map fun code => code.map (·.rename f) := by
  rw [Placement.rename]
  induction p.repeated with
  | nil => rfl
  | cons e repeated ih =>
    rw [List.map_cons, List.lookup_cons, List.lookup_cons, ih]
    cases v == e.1 <;> rfl

theorem fetch_rename (v : Value) : (p.rename f).fetch v = (p.fetch v).map (·.rename f) := by
  unfold Placement.fetch
  rw [lookup_rename, Placement.rename]
  by_cases h : p.kept.contains v = true
  · rw [if_pos h, if_pos h]
    rfl
  · rw [if_neg h, if_neg h]
    cases p.repeated.lookup v <;> rfl

theorem chunk_rename (c : Chunk) :
    (p.rename f).chunk (c.rename f) = (p.chunk c).map (·.rename f) := by
  have hfetch : (p.rename f).fetch = fun v => (p.fetch v).map (·.rename f) :=
    funext (fetch_rename f p)
  rw [Placement.chunk, Placement.chunk, hfetch, List.map_append, List.map_flatMap]
  rfl

theorem rename_settle (v : Value) : (p.settle v).rename f = p.settle v := by
  unfold Placement.settle
  split <;> rfl

theorem instr_rename (e : Value × Chunk) :
    (p.rename f).instr g (listedRename f e) = (p.instr g e).map (·.rename f) := by
  unfold Placement.instr
  rw [listedRename, lookup_rename, Option.isSome_map, chunk_rename, Placement.rename]
  dsimp only
  split
  · rfl
  · rw [List.map_append]
    congr 1
    split
    · rfl
    · rfl
    · split
      · rfl
      · exact congrArg (fun i => [i]) (rename_settle f p e.1).symm

theorem arrivals_rename (b : Block) :
    (p.rename f).arrivals g b = (p.arrivals g b).map (·.rename f) := by
  change p.arrivals g b = _
  unfold Placement.arrivals
  dsimp only
  split
  · rfl
  · rw [List.map_map]
    refine List.map_congr_left fun q _ => ?_
    rw [Function.comp]
    split
    · rfl
    · exact (rename_settle f p q.value).symm

theorem block_rename (q : Plan) :
    (p.rename f).block g (q.rename f) = (p.block g q).map (·.rename f) := by
  unfold Placement.block
  simp only [List.map_append, List.map_cons, ← arrivals_rename, List.map_flatMap, ← instr_rename,
    ← chunk_rename, Plan.rename, List.flatMap_map]
  rfl

theorem preheader_rename (entry : Block) :
    (g.preheader entry).map (·.rename f) = g.preheader entry := by
  unfold Graph.preheader
  split
  · rfl
  · rw [List.map_map]
    rfl

theorem schedule_rename (policy : Policy) (entry : Block) (plans : List Plan)
    (temporaries : List (Value × Ty)) :
    Schedule.ofPlans g policy entry (plans.map (·.rename f)) temporaries
      = (Schedule.ofPlans g policy entry plans temporaries).map (·.rename f) := by
  have hitems : g.preheader entry ++ (plans.map (·.rename f)).flatMap
        ((Placement.ofPlans g policy (plans.map (·.rename f))).block g)
      = (g.preheader entry ++ plans.flatMap ((Placement.ofPlans g policy plans).block g)).map
        (·.rename f) := by
    rw [placement_rename, List.flatMap_map, List.map_append, preheader_rename, List.map_flatMap]
    simp only [block_rename]
  have haccessed (items : List Item) : (items.map (·.rename f)).filterMap Item.register?
      = items.filterMap Item.register? := by
    rw [List.filterMap_map]
    exact congrArg (fun h => items.filterMap h) (funext fun i => register?_rename f i)
  unfold Schedule.ofPlans
  simp only [hitems, haccessed]
  split <;> rfl

end Placements

end StackCode
