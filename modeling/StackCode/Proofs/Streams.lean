import Mathlib.Data.List.Nodup
import Mathlib.Data.List.Perm.Basic
import StackCode.Proofs.Heights
import StackCode.Proofs.Paths

namespace StackCode

open Machine (Opcode)
open Select (Chained)

def Item.label? : Item → Option Label
  | .label l => some l
  | _ => none

def Item.Branches (ok : Label → Prop) (i : Item) : Prop :=
  ∀ l ∈ i.targets, ok l ∧ ∀ o, i.opcode? = some o → o.flow ≠ .next

structure Item.Sound (known : Value → Prop) (ok : Label → Prop) (i : Item) : Prop where
  register : ∀ v, i.register? = some v → known v
  clean : ∀ j, i = .op j → j.Clean
  targets : i.Branches ok

def Unmarked (known : Value → Prop) (ok : Label → Prop) (items : List Item) : Prop :=
  ∀ i ∈ items, i.isMark = false ∧ i.Sound known ok

structure Formed (known : Value → Prop) (ok : Label → Prop) (items : List Item)
    (labels : List Label) : Prop where
  sound : ∀ i ∈ items, i.Sound known ok
  labels : items.filterMap Item.label? = labels
  ranges : Balanced Item.isTryStart Item.isHandlerStart items
  handlers : Balanced Item.isHandlerStart Item.isHandlerEnd items

section Parts

variable {known : Value → Prop} {ok ok' : Label → Prop} {xs ys : List Item} {ls ms : List Label}

theorem Unmarked.append (hx : Unmarked known ok xs) (hy : Unmarked known ok ys) :
    Unmarked known ok (xs ++ ys) := by
  intro i hi
  rcases List.mem_append.mp hi with hi | hi
  · exact hx i hi
  · exact hy i hi

theorem unmarked_flatMap {α : Type} {as : List α} {f : α → List Item}
    (h : ∀ a ∈ as, Unmarked known ok (f a)) : Unmarked known ok (as.flatMap f) := by
  intro i hi
  obtain ⟨a, ha, hi⟩ := List.mem_flatMap.mp hi
  exact h a ha i hi

theorem unmarked_one {i : Item} (hm : i.isMark = false) (h : i.Sound known ok) :
    Unmarked known ok [i] := by
  intro j hj
  obtain rfl := List.mem_singleton.mp hj
  exact ⟨hm, h⟩

theorem Item.branches_nil {i : Item} (h : i.targets = []) : i.Branches ok := by
  simp [Branches, h]

theorem sound_op {j : Machine.Instr} (h : j.Clean) : (Item.op j).Sound known ok :=
  ⟨fun _ hv => (by cases hv), fun _ hj => Item.op.inj hj ▸ h, Item.branches_nil rfl⟩

theorem unmarked_calm {j : Machine.Instr} (h : j.isCalm = true) : Unmarked known ok [.op j] :=
  unmarked_one rfl (sound_op (Machine.Instr.clean_of_isCalm h))

theorem sound_load {v : Value} (h : known v) : (Item.load v).Sound known ok :=
  ⟨fun _ hv => Option.some.inj hv ▸ h, fun _ hj => (by cases hj), Item.branches_nil rfl⟩

theorem sound_store {v : Value} (h : known v) : (Item.store v).Sound known ok :=
  ⟨fun _ hv => Option.some.inj hv ▸ h, fun _ hj => (by cases hj), Item.branches_nil rfl⟩

theorem branches_jump {o : Opcode} (ho : o.flow ≠ .next) {l : Label} (h : ok l) :
    (Item.jump o l).Branches ok := by
  intro m hm
  obtain rfl := List.mem_singleton.mp hm
  refine ⟨h, ?_⟩
  rintro o' ⟨⟩
  exact ho

theorem sound_jump {o : Opcode} (ho : o.flow ≠ .next) {l : Label} (h : ok l) :
    (Item.jump o l).Sound known ok :=
  ⟨fun _ hv => (by cases hv), fun _ hj => (by cases hj), branches_jump ho h⟩

theorem unmarked_branch {o : Opcode} (ho : o.flow ≠ .next) {l : Label} (h : ok l) :
    Unmarked known ok [.jump o l] :=
  unmarked_one rfl (sound_jump ho h)

theorem sound_mark {i : Item} (h : i.isMark = true) : i.Sound known ok := by
  have hr : i.register? = none := by cases i <;> first | rfl | cases h
  have ht : i.targets = [] := by cases i <;> first | rfl | cases h
  refine ⟨by simp [hr], ?_, Item.branches_nil ht⟩
  rintro j rfl
  cases h

theorem balanced_of_forall {opens closes : Item → Bool} {items : List Item}
    (h : ∀ i ∈ items, opens i = false ∧ closes i = false) : Balanced opens closes items := by
  induction items with
  | nil => exact .nil
  | cons i items ih =>
    rw [List.forall_mem_cons] at h
    exact .append (.plain h.1.1 h.1.2) (ih h.2)

theorem Unmarked.formed (h : Unmarked known ok xs) : Formed known ok xs [] := by
  have hmark : ∀ i : Item, i.isMark = false → i.label? = none ∧ i.isTryStart = false
      ∧ i.isHandlerStart = false ∧ i.isHandlerEnd = false := by
    intro i hi
    cases i <;> first | exact ⟨rfl, rfl, rfl, rfl⟩ | cases hi
  refine ⟨fun i hi => (h i hi).2, ?_, balanced_of_forall ?_, balanced_of_forall ?_⟩
  · rw [List.filterMap_eq_nil_iff]
    exact fun i hi => (hmark i (h i hi).1).1
  · exact fun i hi => ⟨(hmark i (h i hi).1).2.1, (hmark i (h i hi).1).2.2.1⟩
  · exact fun i hi => (hmark i (h i hi).1).2.2

theorem Formed.append (hx : Formed known ok xs ls) (hy : Formed known ok ys ms) :
    Formed known ok (xs ++ ys) (ls ++ ms) := by
  refine ⟨?_, ?_, hx.ranges.append hy.ranges, hx.handlers.append hy.handlers⟩
  · intro i hi
    rcases List.mem_append.mp hi with hi | hi
    · exact hx.sound i hi
    · exact hy.sound i hi
  · rw [List.filterMap_append, hx.labels, hy.labels]

theorem Formed.mono (h : Formed known ok xs ls) (hok : ∀ l, ok l → ok' l) :
    Formed known ok' xs ls :=
  ⟨fun i hi => ⟨(h.sound i hi).register, (h.sound i hi).clean,
    fun l hl => ((h.sound i hi).targets l hl).imp_left (hok l)⟩, h.labels, h.ranges, h.handlers⟩

theorem formed_label (l : Label) : Formed known ok [.label l] [l] :=
  ⟨List.forall_mem_singleton.mpr (sound_mark rfl), rfl, .plain rfl rfl, .plain rfl rfl⟩

theorem formed_guarded (type : Machine.Ref) (hx : Unmarked known ok xs)
    (hy : Unmarked known ok ys) :
    Formed known ok ([.tryStart] ++ xs ++ (.handlerStart type :: (ys ++ [.handlerEnd]))) [] := by
  have hfx := hx.formed
  have hfy := hy.formed
  refine ⟨?_, ?_, ?_, ?_⟩
  · intro i hi
    simp only [List.mem_append, List.mem_cons, List.not_mem_nil, or_false] at hi
    rcases hi with (rfl | hi) | rfl | hi | rfl
    · exact sound_mark rfl
    · exact (hx i hi).2
    · exact sound_mark rfl
    · exact (hy i hi).2
    · exact sound_mark rfl
  · have hend : (ys ++ [Item.handlerEnd]).filterMap Item.label? = [] := by
      rw [List.filterMap_append, hfy.labels]
      rfl
    rw [List.filterMap_append, List.filterMap_append, hfx.labels]
    exact hend
  · have h : Balanced Item.isTryStart Item.isHandlerStart
        ((.tryStart :: (xs ++ [.handlerStart type])) ++ (ys ++ [.handlerEnd])) :=
      (Balanced.wrap rfl hfx.ranges rfl).append (hfy.ranges.append (.plain rfl rfl))
    simpa using h
  · exact ((Balanced.plain rfl rfl).append hfx.handlers).append
      (.wrap rfl hfy.handlers rfl)

end Parts

def Selection.Knows (g : Graph) (t : Selection) (v : Value) : Prop :=
  (∃ type, g.type? v = some type) ∨ ∃ type, (v, type) ∈ t.temporaries

section Knowledge

variable {g : Graph} {s t u : Selection} {v : Value}

theorem Selection.Fresh.knows (h : s.Fresh t v) (ht : t.Grows u) : u.Knows g v := by
  obtain ⟨type, hv⟩ := h.listed
  exact .inr ⟨type, ht.temporaries _ hv⟩

theorem Graph.Valid.parameter_type (hg : g.Valid) {b : Block} (hb : b ∈ g.blocks.toList)
    {q : Parameter} (hq : q ∈ b.parameters) : g.type? q.value = some q.type := by
  obtain ⟨n, hn, rfl⟩ := List.mem_iff_getElem.mp hb
  have hc := hg.coherent n _ (by rw [← Array.getElem?_toList, List.getElem?_eq_getElem hn])
  obtain ⟨name, k, hk⟩ := hc.parameters q hq
  rw [Graph.type?, Graph.info?, hk]
  rfl

theorem Graph.Valid.typed (hg : g.Valid) (hv : v ∈ g.defined) : ∃ type, g.type? v = some type := by
  obtain ⟨⟨w, name⟩, hw, rfl⟩ := List.mem_map.mp hv
  obtain ⟨b, hb, hd⟩ := List.mem_flatMap.mp hw
  obtain ⟨w', hw', he⟩ := List.mem_map.mp hd
  obtain ⟨rfl, -⟩ := Prod.mk.inj he
  rcases List.mem_append.mp hw' with hp | hl
  · obtain ⟨q, hq, rfl⟩ := List.mem_map.mp hp
    exact ⟨_, hg.parameter_type hb hq⟩
  · obtain ⟨i, hi, -⟩ := hg.instr b hb _ hl
    exact ⟨_, hg.type_of_listed hb hl hi⟩

theorem Graph.Valid.knows (hg : g.Valid) (hv : v ∈ g.defined) : t.Knows g v :=
  .inl (hg.typed hv)

theorem Instr.Valid.knows (hg : g.Valid) {i : Instr} (hi : i.Valid g)
    (hv : g.Feeds i.operands v) : t.Knows g v := by
  rcases hv with hv | ⟨p, hp, f, base, hb, hv⟩
  · exact hg.knows (hi.defined v hv)
  · exact hg.knows ((hg.instr_of_defined (hi.defined p hp) hb).defined v hv)

end Knowledge

section Pieces

variable {ctx : Context} {calls : Opcode → Method → Prop} {entry : Block} {symbols : Symbols}
  {plans : List Plan} {t : Selection} {policy : Policy}
  {shape : Machine.Instr → Option (Nat × Nat)} {p : Placement} {ok : Label → Prop}

theorem straight_of_height {code : List Item} {d e : Nat} (h : height shape code d = some e) :
    ∀ i ∈ code, i.isMark = false ∧ i.targets = [] := by
  induction code generalizing d with
  | nil => simp
  | cons i code ih =>
    rw [height] at h
    split at h
    · rename_i pops pushes hi
      split at h
      · rw [List.forall_mem_cons]
        refine ⟨?_, ih h⟩
        cases i <;> first | exact ⟨rfl, rfl⟩ | cases hi
      · cases h
    · cases h

theorem straight_of_tests {code : List Item} {d : Nat} (h : Tests shape ok code d) :
    ∀ i ∈ code, i.isMark = false ∧ i.Branches ok := by
  induction code generalizing d with
  | nil => simp
  | cons i code ih =>
    rw [List.forall_mem_cons]
    cases i with
    | jump o l =>
      obtain ⟨hf, -, hl, hrest⟩ := h
      exact ⟨⟨rfl, branches_jump (by rw [hf]; simp) hl⟩, ih hrest⟩
    | switch ls =>
      obtain ⟨-, hl, hrest⟩ := h
      refine ⟨⟨rfl, fun l hm => ⟨hl l hm, ?_⟩⟩, ih hrest⟩
      rintro o ⟨⟩
      simp [Opcode.flow]
    | op j =>
      obtain ⟨_, _, -, -, hrest⟩ := h
      exact ⟨⟨rfl, Item.branches_nil rfl⟩, ih hrest⟩
    | load v =>
      obtain ⟨_, _, -, -, hrest⟩ := h
      exact ⟨⟨rfl, Item.branches_nil rfl⟩, ih hrest⟩
    | store v =>
      obtain ⟨_, _, -, -, hrest⟩ := h
      exact ⟨⟨rfl, Item.branches_nil rfl⟩, ih hrest⟩
    | address v =>
      obtain ⟨_, _, -, -, hrest⟩ := h
      exact ⟨⟨rfl, Item.branches_nil rfl⟩, ih hrest⟩
    | _ =>
      obtain ⟨_, _, hx, -⟩ := h
      cases hx

theorem Wrote.unmarked {g : Graph} {s' t' : Selection} {code : List Item} (h : Wrote s' t' code)
    (ht : t'.Grows t) (hc : ∀ i ∈ code, i.isMark = false ∧ i.Branches ok) :
    Unmarked (t.Knows g) ok code := by
  intro i hi
  refine ⟨(hc i hi).1, ?_, ?_, (hc i hi).2⟩
  · exact fun v hv => (h.registers i hi v hv).knows ht
  · rintro j rfl
    exact h.clean j hi

theorem Lowered.unmarked {g : Graph} {s' t' : Selection} {c : Chunk} {leaves : Option Bool}
    {operands : List Value} (h : Lowered g calls leaves operands s' c t') (ht : t'.Grows t)
    (hs : Shaped calls shape t.symbols) : Unmarked (t.Knows g) ok c.code := by
  refine h.wrote.unmarked ht ?_
  have hl := h.leaves
  cases hl with
  | entries hh =>
    intro i hi
    obtain ⟨hm, htargets⟩ := straight_of_height (hh shape (hs.mono ht)) i hi
    exact ⟨hm, Item.branches_nil htargets⟩
  | never hcode =>
    rw [hcode]
    simp [Item.isMark, Item.targets, Item.Branches]

theorem unmarked_fetch (h : Finished ctx calls entry symbols plans t)
    (hs : Shaped calls shape t.symbols) (hp : p = .ofPlans ctx.graph policy plans) {v : Value}
    (hv : t.Knows ctx.graph v) : Unmarked (t.Knows ctx.graph) ok (p.fetch v) := by
  rw [Placement.fetch]
  split
  · simp [Unmarked]
  · split
    · rename_i code hcode
      obtain ⟨-, q, hq, c, i, he, rfl, -⟩ := repeated_cases hp hcode
      obtain ⟨-, s', t', ⟨-, j, -, -, -, hl, -⟩, -, ht⟩ := h.instr hq he
      exact hl.unmarked ht hs
    · exact unmarked_one rfl (sound_load hv)

theorem unmarked_deps (h : Finished ctx calls entry symbols plans t)
    (hs : Shaped calls shape t.symbols) (hp : p = .ofPlans ctx.graph policy plans)
    {deps : List Value} (hd : ∀ v ∈ deps, t.Knows ctx.graph v) :
    Unmarked (t.Knows ctx.graph) ok (deps.flatMap p.fetch) :=
  unmarked_flatMap fun v hv => unmarked_fetch h hs hp (hd v hv)

theorem sound_settle {known : Value → Prop} {v : Value} (hv : known v) :
    Unmarked known ok [p.settle v] := by
  rw [Placement.settle]
  split
  · exact unmarked_one rfl (sound_store hv)
  · exact unmarked_calm rfl

theorem unmarked_instr (hg : ctx.graph.Valid) (h : Finished ctx calls entry symbols plans t)
    (hs : Shaped calls shape t.symbols) (hp : p = .ofPlans ctx.graph policy plans) {q : Plan}
    (hq : q ∈ plans) {e : Value × Chunk} (he : e ∈ q.instrs) :
    Unmarked (t.Knows ctx.graph) ok (p.instr ctx.graph e) := by
  obtain ⟨v, c⟩ := e
  obtain ⟨hvb, s', t', ⟨-, i, hi, hval, -, hl, -⟩, -, ht⟩ := h.instr hq he
  have htype := hg.type_of_listed (h.mem_blocks hq) hvb hi
  have hchunk : Unmarked (t.Knows ctx.graph) ok (p.chunk c) :=
    (unmarked_deps h hs hp fun w hw => hval.knows hg (hl.feeds w hw)).append (hl.unmarked ht hs)
  rw [Placement.instr]
  split
  · simp [Unmarked]
  · refine hchunk.append ?_
    dsimp only
    split
    · simp [Unmarked]
    · simp [Unmarked]
    · split
      · simp [Unmarked]
      · exact sound_settle (.inl ⟨_, htype⟩)

theorem Block.Sends.knows {b : Block} (hg : ctx.graph.Valid) (hb : b ∈ ctx.graph.blocks.toList)
    {result caught : Option Value} {target : Label} {args : List Value}
    (h : b.Sends ctx.graph result caught target args)
    (hr : ∀ v, result = some v → t.Knows ctx.graph v)
    (hc : ∀ v, caught = some v → t.Knows ctx.graph v) : ∀ v ∈ args, t.Knows ctx.graph v := by
  obtain ⟨br, hbr, -, -, -, rfl, -⟩ := h
  intro v hv
  obtain ⟨a, ha, hav⟩ := List.mem_filterMap.mp hv
  cases a with
  | value w =>
    obtain rfl := Option.some.inj hav
    exact hg.knows (((hg.flow b hb).branches br hbr).defined w
      (List.mem_filterMap.mpr ⟨.value w, ha, rfl⟩))
  | result => exact hr v hav
  | exception => exact hc v hav

def Graph.Places (g : Graph) (new : List Label) (l : Label) : Prop :=
  (g.block? l).isSome = true ∨ l ∈ new

theorem Block.Sends.places {b : Block} {result caught : Option Value} {target : Label}
    {args : List Value} (h : b.Sends ctx.graph result caught target args) (new : List Label) :
    ctx.graph.Places new target := by
  obtain ⟨br, -, c, hc, rfl, -⟩ := h
  exact .inl (by rw [hc]; rfl)

theorem unmarked_jump (h : Finished ctx calls entry symbols plans t)
    (hs : Shaped calls shape t.symbols) (hp : p = .ofPlans ctx.graph policy plans) {target : Label}
    {args : List Value} (ha : ∀ v ∈ args, t.Knows ctx.graph v) (ht : ok target) :
    Unmarked (t.Knows ctx.graph) ok (p.chunk (.jump target args)) :=
  (unmarked_deps h hs hp ha).append (unmarked_branch (by simp [Opcode.flow]) ht)

theorem formed_arms (h : Finished ctx calls entry symbols plans t)
    (hs : Shaped calls shape t.symbols) (hp : p = .ofPlans ctx.graph policy plans)
    {arms : List Arm} (ha : ∀ a ∈ arms, ok a.target ∧ ∀ v ∈ a.args, t.Knows ctx.graph v) :
    Formed (t.Knows ctx.graph) ok ((arms.flatMap Arm.chunks).flatMap p.chunk)
      (arms.map Arm.label) := by
  induction arms with
  | nil => exact Unmarked.formed (by simp [Unmarked])
  | cons a arms ih =>
    rw [List.forall_mem_cons] at ha
    have hjump := (unmarked_jump h hs hp ha.1.2 ha.1.1).formed
    rw [List.flatMap_cons, List.flatMap_append, List.map_cons]
    have harm := (formed_label a.label).append (hjump.append (ih ha.2))
    simpa [Arm.chunks, Chunk.label, Placement.chunk] using harm

end Pieces

section Flows

variable {ctx : Context} {calls : Opcode → Method → Prop} {entry : Block} {symbols : Symbols}
  {plans : List Plan} {t : Selection} {policy : Policy}
  {shape : Machine.Instr → Option (Nat × Nat)} {p : Placement} {b : Block}

theorem unmarked_keep {known : Value → Prop} {ok : Label → Prop} {v : Option Value}
    (hv : ∀ w, v = some w → known w) : Unmarked known ok [Select.keep v] := by
  cases v with
  | none => exact unmarked_calm rfl
  | some w => exact unmarked_one rfl (sound_store (hv w rfl))

theorem formed_flow (hg : ctx.graph.Valid) (h : Finished ctx calls entry symbols plans t)
    (hs : Shaped calls shape t.symbols) (hp : p = .ofPlans ctx.graph policy plans)
    (hb : b ∈ ctx.graph.blocks.toList) {s' t' : Selection} {cs : List Chunk}
    (hflow : Flowed ctx calls b s' cs t') (htt : t'.Grows t) :
    ∃ new, Formed (t.Knows ctx.graph) (ctx.graph.Places new) (cs.flatMap p.chunk) new
      ∧ new.Nodup ∧ ∀ l ∈ new, s'.nextLabel ≤ l.id ∧ l.id < t'.nextLabel := by
  have hvalid := hg.flow b hb
  cases hflow with
  | @ret v hret =>
    refine ⟨[], ?_, .nil, by simp⟩
    rw [List.flatMap_singleton]
    refine ((unmarked_deps h hs hp ?_).append (unmarked_calm rfl)).formed
    intro w hw
    exact hg.knows (hvalid.reads w (by rwa [hret]))
  | stop hstop =>
    refine ⟨[], Unmarked.formed ?_, .nil, by simp⟩
    rw [List.flatMap_singleton]
    exact (unmarked_calm rfl).append (unmarked_calm rfl)
  | jump hsend =>
    refine ⟨[], ?_, .nil, by simp⟩
    rw [List.flatMap_singleton]
    exact (unmarked_jump h hs hp (hsend.knows hg hb (by simp) (by simp)) (hsend.places [])).formed
  | @test arms v cases fallback code direct _ hswitch hgrow hw htests hdirect harms =>
    refine ⟨arms.map Arm.label, ?_, harms.distinct, ?_⟩
    · have hok : ∀ l, b.Open ctx.graph arms l → ctx.graph.Places (arms.map Arm.label) l := by
        rintro l (⟨a, ha, rfl⟩ | ⟨br, -, c, hc, rfl, -⟩)
        · exact .inr (List.mem_map_of_mem ha)
        · exact .inl (by rw [hc]; rfl)
      have hcode : Unmarked (t.Knows ctx.graph) (ctx.graph.Places (arms.map Arm.label)) code := by
        refine hw.unmarked htt ?_
        intro i hi
        obtain ⟨hm, htargets⟩ := straight_of_tests (htests shape) i hi
        exact ⟨hm, fun l hl => (htargets l hl).imp_left (hok l)⟩
      have htest : Unmarked (t.Knows ctx.graph) (ctx.graph.Places (arms.map Arm.label))
          (p.chunk ⟨code, [v]⟩) := by
        refine (unmarked_deps h hs hp ?_).append hcode
        intro w hw'
        exact hg.knows (hvalid.reads w (by rwa [hswitch]))
      have hfarms := formed_arms h hs hp fun a ha =>
        ⟨(harms.sends a ha).places (arms.map Arm.label),
          (harms.sends a ha).knows hg hb (by simp) (by simp)⟩
      have hfdirect : Unmarked (t.Knows ctx.graph) (ctx.graph.Places (arms.map Arm.label))
          (direct.flatMap p.chunk) := by
        rcases hdirect with ⟨rfl, -⟩ | ⟨target, args, rfl, hsend⟩
        · simp [Unmarked]
        · rw [List.flatMap_singleton]
          exact unmarked_jump h hs hp (hsend.knows hg hb (by simp) (by simp)) (hsend.places _)
      rw [List.flatMap_cons, List.flatMap_append]
      exact htest.formed.append (hfdirect.formed.append hfarms)
    · intro l hl
      obtain ⟨a, ha, rfl⟩ := List.mem_map.mp hl
      exact harms.fresh a ha
  | @protect risky success failure result caught chunk type capture done failed s₁ s₂ s₃ s₄ _ hprot
      hr hc hl harms hk hv hh =>
    obtain ⟨hlast, hplain, -⟩ := capture_cases hh
    have h₄ : s₄.Grows t := hlast.trans htt
    have h₂ : s₂.Grows t := (hl.trans hk.grows).trans h₄
    have hresult : ∀ w, result = some w → t.Knows ctx.graph w := fun w hw =>
      (hr.2 w hw).knows (hc.1.trans h₂)
    have hcaught : ∀ w, caught = some w → t.Knows ctx.graph w := fun w hw => (hc.2 w hw).knows h₂
    have hcapture : ∀ ok, Unmarked (t.Knows ctx.graph) ok capture := by
      intro ok i hi
      have hclean := hplain i hi
      cases i with
      | op j => exact ⟨rfl, sound_op hclean⟩
      | _ => cases hclean
    -- The range and its handler come first, then the two arms, whose labels are the new ones.
    refine ⟨[done.label, failed.label], ?_, harms.distinct, ?_⟩
    · have hplaces : ∀ a ∈ [done, failed], ctx.graph.Places [done.label, failed.label] a.label :=
        fun a ha => .inr (List.mem_map_of_mem ha)
      have hkept : Unmarked (t.Knows ctx.graph) (ctx.graph.Places [done.label, failed.label])
          (if risky.operation.resultType.isVoid then [] else [Select.keep result]) := by
        split
        · simp [Unmarked]
        · exact unmarked_keep hresult
      have hdeps : Unmarked (t.Knows ctx.graph) (ctx.graph.Places [done.label, failed.label])
          (chunk.deps.flatMap p.fetch) :=
        unmarked_deps h hs hp fun w hw => (hvalid.risky _ _ _ hprot).knows hg (hk.feeds w hw)
      have hleave (a : Arm) (ha : a ∈ [done, failed]) :
          Unmarked (t.Knows ctx.graph) (ctx.graph.Places [done.label, failed.label])
            [.jump .leave a.label] := unmarked_branch (by simp [Opcode.flow]) (hplaces a ha)
      have hrisky := hdeps.append (((hk.unmarked h₄ hs).append hkept).append
        (hleave done (by simp)))
      have hhandler := ((hcapture _).append (unmarked_keep hcaught)).append
        (hleave failed (by simp))
      have hsent : ∀ a ∈ [done, failed], ctx.graph.Places [done.label, failed.label] a.target
          ∧ ∀ v ∈ a.args, t.Knows ctx.graph v := fun a ha =>
        ⟨(harms.sends a ha).places _, (harms.sends a ha).knows hg hb hresult hcaught⟩
      have hguarded := (formed_guarded type hrisky hhandler).append (formed_arms h hs hp hsent)
      simpa [guardedChunks, Placement.chunk] using hguarded
    · intro l hl'
      have hmem : l ∈ [done, failed].map Arm.label := hl'
      obtain ⟨a, ha, rfl⟩ := List.mem_map.mp hmem
      have hfresh := harms.fresh a ha
      have hs₂ := (hr.1.trans hc.1).nextLabel
      have ht' := (hk.grows.trans hlast).nextLabel
      omega

theorem unmarked_arrivals (hg : ctx.graph.Valid) (hb : b ∈ ctx.graph.blocks.toList)
    {ok : Label → Prop} : Unmarked (t.Knows ctx.graph) ok (p.arrivals ctx.graph b) := by
  rw [Placement.arrivals]
  split
  · simp [Unmarked]
  · intro i hi
    obtain ⟨x, hx, rfl⟩ := List.mem_map.mp hi
    have hknown : t.Knows ctx.graph x.value :=
      .inl ⟨_, hg.parameter_type hb (List.mem_reverse.mp hx)⟩
    split
    · exact ⟨rfl, sound_store hknown⟩
    · exact sound_settle hknown _ List.mem_cons_self

theorem formed_block (hg : ctx.graph.Valid) (h : Finished ctx calls entry symbols plans t)
    (hs : Shaped calls shape t.symbols) (hp : p = .ofPlans ctx.graph policy plans) {q : Plan}
    (hq : q ∈ plans) {s' t' : Selection} (hplan : Planned ctx calls s' b q t') (htt : t'.Grows t) :
    ∃ new, Formed (t.Knows ctx.graph) (ctx.graph.Places new) (p.block ctx.graph q) (b.label :: new)
      ∧ new.Nodup ∧ ∀ l ∈ new, s'.nextLabel ≤ l.id ∧ l.id < t'.nextLabel := by
  have hb := h.mem_blocks hq
  obtain ⟨rfl, m, hinstrs, hflow⟩ := hplan
  obtain ⟨new, hformed, hnodup, hrange⟩ := formed_flow hg h hs hp hb hflow htt
  have hm := hinstrs.grows.nextLabel
  refine ⟨new, ?_, hnodup, fun l hl => ⟨Nat.le_trans hm (hrange l hl).1, (hrange l hl).2⟩⟩
  have harrivals : Unmarked (t.Knows ctx.graph) (ctx.graph.Places new)
      (p.arrivals ctx.graph q.block) := unmarked_arrivals hg hb
  have hcode : Unmarked (t.Knows ctx.graph) (ctx.graph.Places new)
      (q.instrs.flatMap (p.instr ctx.graph)) :=
    unmarked_flatMap fun e he => unmarked_instr hg h hs hp hq he
  exact (((formed_label q.block.label).append harrivals.formed).append hcode.formed).append hformed

theorem Graph.Places.mono {g : Graph} {new more : List Label} {l : Label} (h : g.Places new l)
    (hsub : new ⊆ more) : g.Places more l :=
  h.imp_right fun hl => hsub hl

theorem formed_plans (hg : ctx.graph.Valid) (h : Finished ctx calls entry symbols plans t)
    (hs : Shaped calls shape t.symbols) (hp : p = .ofPlans ctx.graph policy plans)
    {s' t' : Selection} {bs : List Block} {qs : List Plan} (hqs : ∀ q ∈ qs, q ∈ plans)
    (hc : Chained (Planned ctx calls) s' bs qs t') (htt : t'.Grows t) :
    ∃ new labels, Formed (t.Knows ctx.graph) (ctx.graph.Places new)
        (qs.flatMap (p.block ctx.graph)) labels
      ∧ labels.Perm (bs.map Block.label ++ new) ∧ new.Nodup
      ∧ ∀ l ∈ new, s'.nextLabel ≤ l.id ∧ l.id < t'.nextLabel := by
  induction hc with
  | nil => exact ⟨[], [], Unmarked.formed (by simp [Unmarked]), .nil, .nil, by simp⟩
  | @cons s₁ s₂ s₃ b q bs qs hg₁ hplan hrest ih =>
    rw [List.forall_mem_cons] at hqs
    have h₁ := hg₁.nextLabel
    have h₂ := hrest.grows
    obtain ⟨new, hformed, hnodup, hrange⟩ := formed_block hg h hs hp hqs.1 hplan (h₂.trans htt)
    obtain ⟨more, labels, hformed', hperm, hnodup', hrange'⟩ := ih hqs.2 htt
    refine ⟨new ++ more, (b.label :: new) ++ labels, ?_, ?_, ?_, ?_⟩
    · exact (hformed.mono fun l hl => hl.mono (List.subset_append_left ..)).append
        (hformed'.mono fun l hl => hl.mono (List.subset_append_right ..))
    · have hmid : (new ++ (bs.map Block.label ++ more)).Perm
          (bs.map Block.label ++ (new ++ more)) := by
        rw [← List.append_assoc, ← List.append_assoc]
        exact List.perm_append_comm.append_right more
      exact ((hperm.append_left new).trans hmid).cons b.label
    · rw [List.nodup_append]
      refine ⟨hnodup, hnodup', ?_⟩
      intro l hl m hm he
      have := hrange l hl
      have := hrange' m hm
      subst he
      omega
    · intro l hl
      have := h₂.nextLabel
      rcases List.mem_append.mp hl with hl | hl
      · have := hrange l hl
        omega
      · have := hrange' l hl
        omega

end Flows

section Whole

variable {ctx : Context} {calls : Opcode → Method → Prop} {entry : Block} {symbols : Symbols}
  {plans : List Plan} {t : Selection} {policy : Policy}
  {shape : Machine.Instr → Option (Nat × Nat)} {p : Placement}

theorem Graph.Valid.mem_order {g : Graph} (hg : g.Valid) (he : g.block? g.entry = some entry)
    {b : Block} (hb : b ∈ g.blocks.toList) : b ∈ g.order entry := by
  by_cases hl : b.label = g.entry
  · have := hg.block?_label hb
    rw [hl, he] at this
    rw [Option.some.inj this]
    exact List.mem_cons_self
  · exact List.mem_cons_of_mem _ (List.mem_filter.mpr ⟨hb, by simpa using hl⟩)

theorem Graph.Valid.nodup_labels {g : Graph} (hg : g.Valid)
    (he : g.block? g.entry = some entry) : ((g.order entry).map Block.label).Nodup := by
  rw [order, List.map_cons, List.nodup_cons]
  constructor
  · rw [hg.entry_label he]
    intro hm
    obtain ⟨b, hb, hl⟩ := List.mem_map.mp hm
    have := (List.mem_filter.mp hb).2
    simp [hl] at this
  · exact hg.coherent.nodup_labels.sublist (List.filter_sublist.map Block.label)

theorem formed_stream (hg : ctx.graph.Valid) (h : Finished ctx calls entry symbols plans t)
    (hs : Shaped calls shape t.symbols) (hp : p = .ofPlans ctx.graph policy plans) :
    ∃ labels, Formed (t.Knows ctx.graph) (fun l => l ∈ labels)
        (ctx.graph.preheader entry ++ plans.flatMap (p.block ctx.graph)) labels
      ∧ labels.Nodup ∧ ∀ b ∈ ctx.graph.blocks.toList, b.label ∈ labels := by
  obtain ⟨new, labels, hformed, hperm, hnodup, hrange⟩ :=
    formed_plans hg h hs hp (fun _ hq => hq) h.chain (.refl t)
  have hblocks : ∀ b ∈ ctx.graph.blocks.toList, b.label ∈ labels := by
    intro b hb
    rw [hperm.mem_iff]
    exact List.mem_append_left _ (List.mem_map_of_mem (hg.mem_order h.start hb))
  refine ⟨labels, ?_, ?_, hblocks⟩
  · have hpre : Unmarked (t.Knows ctx.graph) (fun l => l ∈ labels) (ctx.graph.preheader entry) := by
      rw [Graph.preheader]
      split
      · simp [Unmarked]
      · intro i hi
        obtain ⟨x, hx, rfl⟩ := List.mem_map.mp hi
        have hentry : entry ∈ ctx.graph.blocks.toList :=
          Array.mem_toList_iff.mpr (Array.mem_of_getElem? h.start)
        exact ⟨rfl, sound_load (.inl ⟨_, hg.parameter_type hentry hx⟩)⟩
    refine hpre.formed.append (hformed.mono ?_)
    rintro l (hl | hl)
    · obtain ⟨b, hb⟩ := Option.isSome_iff_exists.mp hl
      have hm : b ∈ ctx.graph.blocks.toList := Array.mem_toList_iff.mpr (Array.mem_of_getElem? hb)
      have hid := (hg.coherent l.id b hb).label
      have := hblocks b hm
      rwa [hid] at this
    · rw [hperm.mem_iff]
      exact List.mem_append_right _ hl
  · rw [hperm.nodup_iff, List.nodup_append]
    refine ⟨hg.nodup_labels h.start, hnodup, ?_⟩
    intro l hl m hm he
    obtain ⟨b, hb, rfl⟩ := List.mem_map.mp hl
    have hsize := (hrange m hm).1
    have hmem : b ∈ ctx.graph.blocks.toList := by
      rcases List.mem_cons.mp hb with rfl | hb
      · exact Array.mem_toList_iff.mpr (Array.mem_of_getElem? h.start)
      · exact List.mem_of_mem_filter hb
    have hb' := hg.block?_label hmem
    rw [he, Graph.block?, Array.getElem?_eq_none hsize] at hb'
    cases hb'

def Ends (items : List Item) : Prop :=
  ∃ xs i, items = xs ++ [i] ∧ i.isMark = false ∧ i.fallsThrough = false

theorem Ends.append_left {ys : List Item} (h : Ends ys) (xs : List Item) : Ends (xs ++ ys) := by
  obtain ⟨zs, i, rfl, hi⟩ := h
  exact ⟨xs ++ zs, i, by rw [List.append_assoc], hi⟩

theorem ends_one {i : Item} (hm : i.isMark = false) (hf : i.fallsThrough = false) : Ends [i] :=
  ⟨[], i, rfl, hm, hf⟩

theorem ends_arms {arms : List Arm} (h : arms ≠ []) :
    Ends ((arms.flatMap Arm.chunks).flatMap p.chunk) := by
  induction arms with
  | nil => exact absurd rfl h
  | cons a arms ih =>
    rw [List.flatMap_cons, List.flatMap_append]
    cases arms with
    | nil =>
      rw [List.flatMap_nil, List.flatMap_nil, List.append_nil, Arm.chunks, List.flatMap_cons,
        List.flatMap_singleton]
      exact ((ends_one rfl rfl).append_left _).append_left _
    | cons c arms => exact (ih (by simp)).append_left _

theorem ends_flow {b : Block} {s' t' : Selection} {cs : List Chunk}
    (h : Flowed ctx calls b s' cs t') : Ends (cs.flatMap p.chunk) := by
  cases h with
  | ret =>
    rw [List.flatMap_singleton]
    exact (ends_one rfl rfl).append_left _
  | stop =>
    rw [List.flatMap_singleton]
    exact (ends_one rfl rfl).append_left [.plain .ldnull]
  | jump =>
    rw [List.flatMap_singleton]
    exact (ends_one rfl rfl).append_left _
  | test arms hf hg hw ht hd ha =>
    rw [List.flatMap_cons, List.flatMap_append]
    refine Ends.append_left ?_ _
    by_cases harms : arms = []
    · rcases hd with ⟨-, hne⟩ | ⟨target, args, rfl, -⟩
      · exact absurd harms hne
      · rw [harms, List.flatMap_nil, List.flatMap_nil, List.append_nil, List.flatMap_singleton]
        exact (ends_one rfl rfl).append_left _
    · exact (ends_arms harms).append_left _
  | protect =>
    rw [List.flatMap_append]
    exact (ends_arms (by simp)).append_left _

theorem label_position (hg : ctx.graph.Valid) (h : Finished ctx calls entry symbols plans t)
    {b : Block} (hb : b ∈ ctx.graph.blocks.toList) :
    ∃ xs ys, ctx.graph.preheader entry ++ plans.flatMap (p.block ctx.graph)
        = xs ++ .label b.label :: ys ∧ (Ends xs ∨ ∀ i ∈ xs, ∃ v, i = .load v) := by
  have hmem := hg.mem_order h.start hb
  rw [← h.blocks] at hmem
  obtain ⟨q, hq, rfl⟩ := List.mem_map.mp hmem
  obtain ⟨before, after, rfl⟩ := List.append_of_mem hq
  refine ⟨ctx.graph.preheader entry ++ before.flatMap (p.block ctx.graph),
    (p.block ctx.graph q).tail ++ after.flatMap (p.block ctx.graph), ?_, ?_⟩
  · rw [List.flatMap_append, List.flatMap_cons, ← List.append_assoc]
    rfl
  · rcases List.eq_nil_or_concat before with rfl | ⟨init, last, rfl⟩
    · right
      intro i hi
      rw [List.flatMap_nil, List.append_nil, Graph.preheader] at hi
      split at hi
      · cases hi
      · obtain ⟨x, -, rfl⟩ := List.mem_map.mp hi
        exact ⟨_, rfl⟩
    · left
      obtain ⟨s', t', hflow, -⟩ := h.flow (p := last) (by simp)
      rw [List.concat_eq_append, List.flatMap_append, List.flatMap_singleton, Placement.block]
      exact (((ends_flow hflow).append_left _).append_left _).append_left _

end Whole

end StackCode
