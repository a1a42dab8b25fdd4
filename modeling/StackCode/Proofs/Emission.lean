import StackCode.Proofs.Lists
import StackCode.Proofs.Paths
import StackCode.Stream.Emission

namespace StackCode

open Machine (Handler Ref Body)

def address (items : List Item) (p : Nat) : Nat :=
  (items.take p).countP fun i => !i.isMark

def OnlyAt (items : List Item) (l : Label) (p : Nat) : Prop :=
  items[p]? = some (.label l) ∧ ∀ q, items[q]? = some (.label l) → q = p

def Access.item : Access → Value → Item
  | .load => .load
  | .store => .store
  | .address => .address

def namesCell : Machine.Opcode → Bool
  | .ldloc | .stloc | .ldloca => true
  | _ => false

/-- What becomes of an item that is not a mark, given the slots of the cells. -/
inductive Emits (items : List Item) (a : Allocation) (slots : List (Nat × Nat)) :
    Item → Machine.Instr → Prop where
  | op {i : Machine.Instr} (h : ∀ n, i.operand = .local n → namesCell i.opcode = false) :
      Emits items a slots (.op i) i
  | renamed {opcode : Machine.Opcode} {n m : Nat} (h : namesCell opcode = true)
      (hm : slots.lookup n = some m) :
      Emits items a slots (.op ⟨opcode, .local n⟩) ⟨opcode, .local m⟩
  | jump {opcode : Machine.Opcode} {l : Label} {p : Nat} (h : OnlyAt items l p) :
      Emits items a slots (.jump opcode l) ⟨opcode, .target (address items p)⟩
  | switch {ls : List Label} {ps : List Nat} (h : List.Forall₂ (OnlyAt items) ls ps) :
      Emits items a slots (.switch ls) ⟨.switch, .targets (ps.map (address items))⟩
  | argument {how : Access} {v : Value} {n : Nat} {t : Ty}
      (h : a.register? v = some (.argument n t)) :
      Emits items a slots (how.item v) ⟨how.argumentOp, .argument n⟩
  | cell {how : Access} {v : Value} {n m : Nat} {t : Ty} (h : a.register? v = some (.cell n t))
      (hm : slots.lookup n = some m) : Emits items a slots (how.item v) ⟨how.localOp, .local m⟩

abbrev Handles : List Item → Nat → Nat → Prop := Matched Item.isHandlerStart Item.isHandlerEnd

def HandlerAt (items : List Item) (p : Nat) (h : Handler) : Prop :=
  ∃ start handler, Protects items start handler ∧ Handles items handler p
    ∧ items[handler]? = some (.handlerStart h.catchType) ∧ h.tryStart = address items start
    ∧ h.tryEnd = address items handler ∧ h.handlerStart = address items handler
    ∧ h.handlerEnd = address items p

def handlerEnds (items : List Item) (n : Nat) : List Nat :=
  (List.range n).filter fun p => items[p]? = some .handlerEnd

structure LabelsAt (items : List Item) (n : Nat) (labels : List (Label × Nat)) : Prop where
  found : ∀ l a, labels.lookup l = some a ↔
    ∃ p, p < n ∧ items[p]? = some (.label l) ∧ address items p = a
  distinct : ∀ l p q, p < n → q < n → items[p]? = some (.label l) →
    items[q]? = some (.label l) → p = q

structure Marks.At (items : List Item) (n : Nat) (m : Marks) : Prop where
  labels : LabelsAt items n m.labels
  tries : ∃ ps, m.tries = ps.map (address items)
    ∧ Opened Item.isTryStart Item.isHandlerStart items n ps
  opened : ∃ qs : List (Nat × Nat × Ref),
    m.opened = qs.map (fun q => (address items q.1, address items q.2.1, q.2.2))
      ∧ Opened Item.isHandlerStart Item.isHandlerEnd items n (qs.map (·.2.1))
      ∧ ∀ q ∈ qs, Protects items q.1 q.2.1 ∧ items[q.2.1]? = some (.handlerStart q.2.2)
  handlers : List.Forall₂ (HandlerAt items) (handlerEnds items n) m.handlers

theorem address_succ {items : List Item} {n : Nat} {i : Item} (h : items[n]? = some i) :
    address items (n + 1) = address items n + if i.isMark then 0 else 1 := by
  simp only [address, List.take_add_one, h, Option.toList_some, List.countP_append,
    List.countP_singleton]
  cases i.isMark <;> rfl

theorem handlerEnds_succ {items : List Item} {n : Nat} {i : Item} (h : items[n]? = some i) :
    handlerEnds items (n + 1) = handlerEnds items n ++ if i.isHandlerEnd then [n] else [] := by
  simp only [handlerEnds, List.range_succ, List.filter_append, List.filter_singleton, h]
  cases i <;> simp [Item.isHandlerEnd]

section Labels

variable {items : List Item} {labels : List (Label × Nat)} {n : Nat} {l : Label}

theorem lt_of_label {i : Item} {p : Nat} (hi : items[n]? = some i) (hne : i ≠ .label l)
    (hp : p < n + 1) (hpl : items[p]? = some (.label l)) : p < n := by
  have : p ≠ n := by
    rintro rfl
    rw [hi, Option.some.injEq] at hpl
    exact hne hpl
  omega

theorem LabelsAt.pass {i : Item} (h : LabelsAt items n labels) (hi : items[n]? = some i)
    (hl : ∀ l, i ≠ .label l) : LabelsAt items (n + 1) labels := by
  have hlt : ∀ p l, p < n + 1 → items[p]? = some (.label l) → p < n := fun p l =>
    lt_of_label hi (hl l)
  constructor
  · intro l a
    rw [h.found]
    constructor
    · rintro ⟨p, hp, hpl⟩
      exact ⟨p, by omega, hpl⟩
    · rintro ⟨p, hp, hpl⟩
      exact ⟨p, hlt p l hp hpl.1, hpl⟩
  · intro l p q hp hq hpl hql
    exact h.distinct l p q (hlt p l hp hpl) (hlt q l hq hql) hpl hql

theorem LabelsAt.add (h : LabelsAt items n labels) (hi : items[n]? = some (.label l))
    (hl : labels.lookup l = none) :
    LabelsAt items (n + 1) ((l, address items n) :: labels) := by
  have hnew : ∀ p, p < n + 1 → items[p]? = some (.label l) → p = n := by
    intro p hp hpl
    by_contra hne
    have := (h.found l (address items p)).mpr ⟨p, by omega, hpl, rfl⟩
    rw [hl] at this
    cases this
  have hold : ∀ k, k ≠ l → ∀ p, p < n + 1 → items[p]? = some (.label k) → p < n := fun k hk p =>
    lt_of_label hi fun he => hk (Item.label.inj he).symm
  constructor
  · intro k a
    rw [List.lookup_cons]
    by_cases hk : k = l
    · subst hk
      simp only [beq_self_eq_true, Option.some.injEq]
      constructor
      · rintro rfl
        exact ⟨n, by omega, hi, rfl⟩
      · rintro ⟨p, hp, hpl, rfl⟩
        rw [hnew p hp hpl]
    · simp only [beq_eq_false_iff_ne.mpr hk]
      rw [h.found]
      constructor
      · rintro ⟨p, hp, hpl⟩
        exact ⟨p, by omega, hpl⟩
      · rintro ⟨p, hp, hpl, ha⟩
        exact ⟨p, hold k hk p hp hpl, hpl, ha⟩
  · intro k p q hp hq hpk hqk
    by_cases hk : k = l
    · subst hk
      rw [hnew p hp hpk, hnew q hq hqk]
    · exact h.distinct k p q (hold k hk p hp hpk) (hold k hk q hq hqk) hpk hqk

end Labels

section Marks

variable {items : List Item} {n : Nat} {m m' : Marks} {i : Item}

theorem Marks.at_start : Marks.At items 0 {} :=
  ⟨⟨by simp, by simp⟩, ⟨[], rfl, .start⟩, ⟨[], rfl, .start, by simp⟩, by simp [handlerEnds]⟩

theorem Marks.At.step (h : m.At items n) (hi : items[n]? = some i)
    (hm : m.add (address items n) i = .ok m') : m'.At items (n + 1) := by
  obtain ⟨hlabels, ⟨ps, hps, htries⟩, ⟨qs, hqs, hopened, hprotects⟩, hhandlers⟩ := h
  have hends := handlerEnds_succ hi
  cases i with
  | label l =>
    simp only [Marks.add] at hm
    split at hm
    · cases hm
    · next hl =>
      cases hm
      refine ⟨hlabels.add hi (Option.not_isSome_iff_eq_none.mp hl),
        ⟨ps, hps, htries.pass hi rfl rfl⟩, ⟨qs, hqs, hopened.pass hi rfl rfl, hprotects⟩, ?_⟩
      simpa [hends, Item.isHandlerEnd] using hhandlers
  | tryStart =>
    cases hm
    refine ⟨hlabels.pass hi (by simp), ⟨n :: ps, by simp [hps], htries.enter hi rfl⟩,
      ⟨qs, hqs, hopened.pass hi rfl rfl, hprotects⟩, ?_⟩
    simpa [hends, Item.isHandlerEnd] using hhandlers
  | handlerStart caught =>
    cases ps with
    | nil => simp [Marks.add, hps] at hm
    | cons start ps =>
      -- The innermost open range ends, and its handler is open from here on.
      simp only [Marks.add, hps, List.map_cons, Except.ok.injEq] at hm
      subst hm
      refine ⟨hlabels.pass hi (by simp), ⟨ps, rfl, htries.leave hi rfl⟩,
        ⟨(start, n, caught) :: qs, by simp [hqs], hopened.enter hi rfl, ?_⟩, ?_⟩
      · intro q hq
        rcases List.mem_cons.mp hq with rfl | hq
        · exact ⟨htries.matched hi rfl, hi⟩
        · exact hprotects q hq
      · simpa [hends, Item.isHandlerEnd] using hhandlers
  | handlerEnd =>
    cases qs with
    | nil => simp [Marks.add, hqs] at hm
    | cons q qs =>
      obtain ⟨start, handler, caught⟩ := q
      simp only [Marks.add, hqs, List.map_cons, Except.ok.injEq] at hm
      subst hm
      obtain ⟨hp, hs⟩ := hprotects _ List.mem_cons_self
      refine ⟨hlabels.pass hi (by simp), ⟨ps, hps, htries.pass hi rfl rfl⟩,
        ⟨qs, rfl, hopened.leave hi rfl, fun q hq => hprotects q (List.mem_cons_of_mem _ hq)⟩, ?_⟩
      have hat : HandlerAt items n ⟨address items start, address items handler,
          address items handler, address items n, caught⟩ :=
        ⟨start, handler, hp, hopened.matched hi rfl, hs, rfl, rfl, rfl, rfl⟩
      simpa [hends, Item.isHandlerEnd] using List.rel_append hhandlers (.cons hat .nil)
  | _ =>
    cases hm
    refine ⟨hlabels.pass hi (by simp), ⟨ps, hps, htries.pass hi rfl rfl⟩,
      ⟨qs, hqs, hopened.pass hi rfl rfl, hprotects⟩, ?_⟩
    simpa [hends, Item.isHandlerEnd] using hhandlers

theorem marksFrom_error (a : Allocation) (e : InternalFault) (k : Nat) (rest : List Item) :
    a.marksFrom (.error e) k rest ≠ .ok m := by
  induction rest generalizing k with
  | nil => simp [Allocation.marksFrom, Except.mapError]
  | cons i rest ih =>
    rw [Allocation.marksFrom]
    split
    · exact ih k
    · split <;> simp_all

theorem marksFrom_cons {a : Allocation} {k : Nat} {rest : List Item}
    (h : a.marksFrom (.ok m) k (i :: rest) = .ok m') :
    ∃ m₁, m.add k i = .ok m₁
      ∧ a.marksFrom (.ok m₁) (k + if i.isMark then 0 else 1) rest = .ok m' := by
  rw [Allocation.marksFrom] at h
  split at h
  · next hmark =>
    cases hm : m.add k i with
    | error e =>
      rw [hm] at h
      exact absurd h (marksFrom_error a e k rest)
    | ok m₁ => exact ⟨m₁, rfl, by simpa [hmark, hm] using h⟩
  · next hmark =>
    have hadd : m.add k i = .ok m := by cases i <;> simp_all [Marks.add, Item.isMark]
    split at h <;> simp_all

theorem marksFrom_at {a : Allocation} {rest : List Item} (hn : n ≤ items.length)
    (hm : m.At items n) (hr : items.drop n = rest)
    (h : a.marksFrom (.ok m) (address items n) rest = .ok m') :
    m'.At items items.length := by
  induction rest generalizing n m with
  | nil =>
    have hlen := List.drop_eq_nil_iff.mp hr
    have hn : items.length = n := by omega
    cases h
    rwa [hn]
  | cons i rest ih =>
    obtain ⟨hi, hr⟩ := getElem?_of_drop hr
    obtain ⟨m₁, hadd, h⟩ := marksFrom_cons h
    rw [← address_succ hi] at h
    exact ih (List.getElem?_eq_some_iff.mp hi).1 (hm.step hi hadd) hr h

theorem marks_at {a : Allocation} (h : a.marks items = .ok m) :
    m.At items items.length ∧ m.tries = [] ∧ m.opened = [] := by
  unfold Allocation.marks at h
  split at h
  · cases h
  · next m₁ hm =>
    split at h
    · next he =>
      cases h
      simp only [Bool.and_eq_true, List.isEmpty_iff] at he
      exact ⟨marksFrom_at (Nat.zero_le _) Marks.at_start List.drop_zero hm, he⟩
    · cases h

end Marks

section Bodies

variable {s : Schedule} {a : Allocation} {extra : List Ty} {body : Body}

theorem emit_stages (h : emit s a extra = .ok body) :
    ∃ m code l, a.marks s.items = .ok m ∧ s.items.mapM (a.instr? m.labels) = .ok code
      ∧ a.locals s.items s.temporaries extra = .ok l
      ∧ (code.filterMap id).mapM l.renumber = .ok body.instrs ∧ body.handlers = m.handlers
      ∧ body.locals = l.types := by
  obtain ⟨m, hm, h⟩ := bind_eq_ok.mp h
  obtain ⟨code, hc, h⟩ := bind_eq_ok.mp h
  obtain ⟨l, hl, h⟩ := bind_eq_ok.mp h
  obtain ⟨instrs, hi, h⟩ := bind_eq_ok.mp h
  cases h
  exact ⟨m, code, l, hm, hc, hl, hi, rfl, rfl⟩

theorem LabelsAt.onlyAt {items : List Item} {labels : List (Label × Nat)} {l : Label} {k : Nat}
    (h : LabelsAt items items.length labels) (hl : labels.lookup l = some k) :
    ∃ p, OnlyAt items l p ∧ address items p = k := by
  obtain ⟨p, hp, hpl, ha⟩ := (h.found l k).mp hl
  refine ⟨p, ⟨hpl, ?_⟩, ha⟩
  intro q hq
  exact h.distinct l q p (List.getElem?_eq_some_iff.mp hq).1 hp hq hpl

theorem OnlyAt.lastAt {items : List Item} {l : Label} {p : Nat} (h : OnlyAt items l p) :
    LastAt items l p := by
  refine ⟨h.1, ?_⟩
  intro q hpq hq
  have := h.2 q hq
  omega

theorem address?_eq_ok {labels : List (Label × Nat)} {l : Label} {k : Nat}
    (h : Allocation.address? labels l = .ok k) : labels.lookup l = some k := by
  unfold Allocation.address? at h
  split at h
  · next hl =>
    cases h
    exact hl
  · cases h

theorem access_eq_ok {how : Access} {v : Value} {i : Machine.Instr}
    (h : a.access how v = .ok i) :
    (∃ n t, a.register? v = some (.argument n t) ∧ i = ⟨how.argumentOp, .argument n⟩)
      ∨ (∃ n t, a.register? v = some (.cell n t) ∧ i = ⟨how.localOp, .local n⟩) := by
  unfold Allocation.access Allocation.register at h
  cases hr : a.register? v with
  | none => simp [hr] at h
  | some r =>
    cases r with
    | argument n t =>
      simp only [hr, Except.ok.injEq] at h
      exact .inl ⟨n, t, rfl, h.symm⟩
    | cell n t =>
      simp only [hr] at h
      split at h
      · cases h
      · cases h
        exact .inr ⟨n, t, rfl, rfl⟩

theorem renumber_eq_ok {l : Locals} {i j : Machine.Instr} (h : l.renumber i = .ok j) :
    (j = i ∧ ∀ n, i.operand = .local n → namesCell i.opcode = false)
      ∨ (∃ n m, i.operand = .local n ∧ namesCell i.opcode = true ∧ l.slots.lookup n = some m
        ∧ j = ⟨i.opcode, .local m⟩) := by
  obtain ⟨opcode, operand⟩ := i
  by_cases hc : namesCell opcode = true
  · cases operand with
    | «local» n =>
      right
      cases hm : l.slots.lookup n with
      | some m =>
        have hr : l.renumber ⟨opcode, .local n⟩ = .ok ⟨opcode, .local m⟩ := by
          cases opcode <;> first | (cases hc; done) | simp only [Locals.renumber, hm]
        rw [hr] at h
        exact ⟨n, m, rfl, hc, hm, (Except.ok.inj h).symm⟩
      | none =>
        have hr : l.renumber ⟨opcode, .local n⟩ = .error (.internal (.noSlot n)) := by
          cases opcode <;> first | (cases hc; done) | simp only [Locals.renumber, hm]
        rw [hr] at h
        cases h
    | _ =>
      left
      have hr : ∀ operand, (∀ n, operand ≠ .local n) →
          l.renumber ⟨opcode, operand⟩ = .ok ⟨opcode, operand⟩ := by
        intro operand ho
        unfold Locals.renumber
        split <;> simp_all
      rw [hr _ (by simp), Except.ok.injEq] at h
      exact ⟨h.symm, by simp⟩
  · left
    have hr : l.renumber ⟨opcode, operand⟩ = .ok ⟨opcode, operand⟩ := by
      unfold Locals.renumber
      split <;> simp_all [namesCell]
    rw [hr, Except.ok.injEq] at h
    exact ⟨h.symm, fun _ _ => by simpa using hc⟩

theorem emits_access {items : List Item} {l : Locals} (how : Access) {v : Value}
    {j k : Machine.Instr} (hj : a.access how v = .ok j) (hr : l.renumber j = .ok k) :
    Emits items a l.slots (how.item v) k := by
  rcases access_eq_ok hj with ⟨n, t, hreg, rfl⟩ | ⟨n, t, hreg, rfl⟩
  · rcases renumber_eq_ok hr with ⟨rfl, -⟩ | ⟨m, _, hm, -⟩
    · exact .argument hreg
    · cases hm
  · rcases renumber_eq_ok hr with ⟨rfl, hno⟩ | ⟨n', m, hn, hc, hm, rfl⟩
    · have := hno n rfl
      cases how <;> cases this
    · cases hn
      exact .cell hreg hm

theorem emits_of_stages {items : List Item} {labels : List (Label × Nat)} {l : Locals} {i : Item}
    {j k : Machine.Instr} (hl : LabelsAt items items.length labels)
    (hi : a.instr? labels i = .ok (some j)) (hr : l.renumber j = .ok k) :
    Emits items a l.slots i k := by
  cases i with
  | op i =>
    cases hi
    rcases renumber_eq_ok hr with ⟨rfl, hno⟩ | ⟨n, m, hn, hc, hm, rfl⟩
    · exact .op hno
    · obtain ⟨opcode, operand⟩ := j
      cases hn
      exact .renamed hc hm
  | jump opcode target =>
    obtain ⟨k', hk, hj⟩ := bind_eq_ok.mp hi
    cases hj
    obtain ⟨p, hp, rfl⟩ := hl.onlyAt (address?_eq_ok hk)
    rcases renumber_eq_ok hr with ⟨rfl, -⟩ | ⟨m, _, hm, -⟩
    · exact .jump hp
    · cases hm
  | switch targets =>
    obtain ⟨ks, hk, hj⟩ := bind_eq_ok.mp hi
    cases hj
    have hps : ∃ ps, List.Forall₂ (OnlyAt items) targets ps ∧ ps.map (address items) = ks := by
      have hf := forall₂_of_mapM hk
      clear hk hi hr
      induction hf with
      | nil => exact ⟨[], .nil, rfl⟩
      | cons hx _ ih =>
        obtain ⟨p, hp, rfl⟩ := hl.onlyAt (address?_eq_ok hx)
        obtain ⟨ps, hps, rfl⟩ := ih
        exact ⟨p :: ps, .cons hp hps, rfl⟩
    obtain ⟨ps, hps, rfl⟩ := hps
    rcases renumber_eq_ok hr with ⟨rfl, -⟩ | ⟨m, _, hm, -⟩
    · exact .switch hps
    · cases hm
  | load v =>
    obtain ⟨j', hj, hj'⟩ := bind_eq_ok.mp hi
    cases hj'
    exact emits_access .load hj hr
  | store v =>
    obtain ⟨j', hj, hj'⟩ := bind_eq_ok.mp hi
    cases hj'
    exact emits_access .store hj hr
  | address v =>
    obtain ⟨j', hj, hj'⟩ := bind_eq_ok.mp hi
    cases hj'
    exact emits_access .address hj hr
  | _ => cases hi

theorem instr?_isNone {labels : List (Label × Nat)} {i : Item} {o : Option Machine.Instr}
    (h : a.instr? labels i = .ok o) : o.isNone = i.isMark := by
  cases i with
  | op i => cases h; rfl
  | jump _ _ =>
    obtain ⟨_, -, h⟩ := bind_eq_ok.mp h
    cases h; rfl
  | switch _ =>
    obtain ⟨_, -, h⟩ := bind_eq_ok.mp h
    cases h; rfl
  | load _ =>
    obtain ⟨_, -, h⟩ := bind_eq_ok.mp h
    cases h; rfl
  | store _ =>
    obtain ⟨_, -, h⟩ := bind_eq_ok.mp h
    cases h; rfl
  | address _ =>
    obtain ⟨_, -, h⟩ := bind_eq_ok.mp h
    cases h; rfl
  | _ => cases h; rfl

theorem forall₂_filter {labels : List (Label × Nat)} {items : List Item}
    {code : List (Option Machine.Instr)}
    (h : List.Forall₂ (fun i o => a.instr? labels i = .ok o) items code) :
    List.Forall₂ (fun i j => a.instr? labels i = .ok (some j)) (items.filter fun i => !i.isMark)
      (code.filterMap id) := by
  induction h with
  | nil => exact .nil
  | @cons i o is os hi _ ih =>
    have hmark := instr?_isNone hi
    cases o with
    | none => simpa [← hmark] using ih
    | some j =>
      simp only [Option.isNone_some] at hmark
      simpa [← hmark] using ⟨hi, ih⟩

theorem emit_instrs (h : emit s a extra = .ok body) :
    ∃ l, a.locals s.items s.temporaries extra = .ok l ∧ body.locals = l.types
      ∧ List.Forall₂ (Emits s.items a l.slots) (s.items.filter fun i => !i.isMark)
        body.instrs := by
  obtain ⟨m, code, l, hm, hc, hl, hi, -, ht⟩ := emit_stages h
  have hcode := forall₂_filter (forall₂_of_mapM hc)
  have hinstrs := forall₂_of_mapM hi
  refine ⟨l, hl, ht, forall₂_trans ?_ hcode hinstrs⟩
  intro i j k hx hy
  exact emits_of_stages (marks_at hm).1.labels hx hy

theorem emit_handlers (h : emit s a extra = .ok body) :
    List.Forall₂ (HandlerAt s.items) (handlerEnds s.items s.items.length) body.handlers := by
  obtain ⟨m, code, l, hm, -, -, -, hh, -⟩ := emit_stages h
  exact hh ▸ (marks_at hm).1.handlers

theorem placed_of_instr? {items : List Item} {labels : List (Label × Nat)} {i : Item}
    {o : Option Machine.Instr} (hl : LabelsAt items items.length labels)
    (h : a.instr? labels i = .ok o) : ∀ l ∈ i.targets, ∃ p, OnlyAt items l p := by
  intro l ht
  cases i with
  | jump opcode target =>
    obtain ⟨k, hk, -⟩ := bind_eq_ok.mp h
    obtain ⟨p, hp, -⟩ := hl.onlyAt (address?_eq_ok hk)
    rw [Item.targets, List.mem_singleton] at ht
    exact ⟨p, ht ▸ hp⟩
  | switch targets =>
    obtain ⟨ks, hk, -⟩ := bind_eq_ok.mp h
    obtain ⟨k, -, hk⟩ := forall_of_forall₂ (forall₂_of_mapM hk) ht
    obtain ⟨p, hp, -⟩ := hl.onlyAt (address?_eq_ok hk)
    exact ⟨p, hp⟩
  | _ => simp [Item.targets] at ht

theorem emit_control (h : emit s a extra = .ok body) : ∃ c, Control.ofItems s.items = .ok c := by
  obtain ⟨m, code, l, hm, hc, -, -, -, -⟩ := emit_stages h
  obtain ⟨hat, hno, -⟩ := marks_at hm
  obtain ⟨ps, hps, hopened⟩ := hat.tries
  rw [hno, eq_comm, List.map_eq_nil_iff] at hps
  subst hps
  rw [Opened, slice_zero_length] at hopened
  refine Control.ofItems_total hopened ?_
  intro i hi t ht
  obtain ⟨o, -, ho⟩ := forall_of_forall₂ (forall₂_of_mapM hc) hi
  obtain ⟨p, hp⟩ := placed_of_instr? hat.labels ho t ht
  exact ⟨p, hp.lastAt⟩

/-- Items that are not marks become instructions one for one, the handlers are those of the marks,
and the marks nest as the control flow of the stream takes them to nest. -/
theorem emit_faithful (h : emit s a extra = .ok body) :
    (∃ l, a.locals s.items s.temporaries extra = .ok l ∧ body.locals = l.types
        ∧ List.Forall₂ (Emits s.items a l.slots) (s.items.filter fun i => !i.isMark) body.instrs)
      ∧ List.Forall₂ (HandlerAt s.items) (handlerEnds s.items s.items.length) body.handlers
      ∧ ∃ c, Control.ofItems s.items = .ok c
        ∧ ∀ start handler, ⟨start, handler⟩ ∈ c.regions ↔ Protects s.items start handler := by
  obtain ⟨c, hc⟩ := emit_control h
  exact ⟨emit_instrs h, emit_handlers h, c, hc, fun _ _ => mem_regions_iff hc⟩

end Bodies

section Emitting

variable {items : List Item} {a : Allocation} {slots : List (Nat × Nat)}
  {instrs : List Machine.Instr} {k n : Nat}

theorem Emits.access_cases {how : Access} {v : Value} {j : Machine.Instr}
    (h : Emits items a slots (how.item v) j) :
    (∃ n t, a.register? v = some (.argument n t) ∧ j = ⟨how.argumentOp, .argument n⟩)
      ∨ (∃ n t m, a.register? v = some (.cell n t) ∧ slots.lookup n = some m
        ∧ j = ⟨how.localOp, .local m⟩) := by
  generalize hitem : how.item v = item at h
  cases h with
  | @argument how' w n t hr =>
    cases how <;> cases how' <;> cases hitem
    all_goals exact .inl ⟨n, t, hr, rfl⟩
  | @cell how' w n m t hr hm =>
    cases how <;> cases how' <;> cases hitem
    all_goals exact .inr ⟨n, t, m, hr, hm, rfl⟩
  | _ => cases how <;> cases hitem

theorem emitted_slice
    (h : List.Forall₂ (Emits items a slots) (items.filter fun i => !i.isMark) instrs)
    {piece : List Item} (hs : slice items k n = piece) (hkn : k ≤ n)
    (hm : ∀ i ∈ piece, i.isMark = false) :
    address items n = address items k + piece.length
      ∧ ∃ code, List.Forall₂ (Emits items a slots) piece code
        ∧ code <+: instrs.drop (address items k) := by
  have htake : items.take n = items.take k ++ piece := by
    rw [← hs, slice, ← List.take_add]
    congr 1
    omega
  have hpiece : piece.filter (fun i => !i.isMark) = piece := by
    rw [List.filter_eq_self]
    intro i hi
    rw [hm i hi]
    rfl
  constructor
  · rw [address, htake, List.countP_append, List.countP_eq_length_filter,
      List.countP_eq_length_filter, hpiece, address, List.countP_eq_length_filter]
  · have hfilter : items.filter (fun i => !i.isMark) = (items.take k).filter (fun i => !i.isMark)
        ++ (piece ++ (items.drop n).filter fun i => !i.isMark) := by
      conv_lhs => rw [← List.take_append_drop n items, htake]
      rw [List.append_assoc, List.filter_append, List.filter_append, hpiece]
    rw [hfilter] at h
    obtain ⟨before, rest, rfl, hbefore, hrest⟩ := forall₂_append_left h
    obtain ⟨code, after, rfl, hcode, -⟩ := forall₂_append_left hrest
    refine ⟨code, hcode, ?_⟩
    have hlen : address items k = before.length := by
      rw [← hbefore.length_eq, address, List.countP_eq_length_filter]
    rw [hlen, List.drop_left]
    exact List.prefix_append code after

theorem emitted_at (h : List.Forall₂ (Emits items a slots) (items.filter fun i => !i.isMark) instrs)
    {i : Item} (hi : items[k]? = some i) (hm : i.isMark = false) :
    ∃ j, instrs[address items k]? = some j ∧ Emits items a slots i j := by
  obtain ⟨-, code, hcode, hpre⟩ := emitted_slice h (slice_one hi) (Nat.le_succ k)
    (by simpa using hm)
  cases hcode with
  | @cons _ j _ _ hj _ => exact ⟨j, getElem?_of_isPrefix_drop (n := 0) hpre rfl, hj⟩

end Emitting

def nestedRanges : Schedule :=
  ⟨[.tryStart, .tryStart, .jump .leave ⟨0⟩, .handlerStart ⟨.type, 0⟩, .plain .pop,
    .jump .leave ⟨0⟩, .handlerEnd, .label ⟨0⟩, .jump .leave ⟨1⟩, .handlerStart ⟨.type, 1⟩,
    .plain .pop, .jump .leave ⟨1⟩, .handlerEnd, .label ⟨1⟩, .plain .ret], [], [], []⟩

theorem nestedRanges_faithful : ∃ body, emit nestedRanges ⟨[], [], 0⟩ [] = .ok body
    ∧ body.handlers = [⟨0, 1, 1, 3, ⟨.type, 0⟩⟩, ⟨0, 4, 4, 6, ⟨.type, 1⟩⟩]
    ∧ List.Forall₂ (HandlerAt nestedRanges.items) [6, 12] body.handlers := by
  have h : emit nestedRanges ⟨[], [], 0⟩ [] = .ok
      ⟨[⟨.leave, .target 3⟩, ⟨.pop, .none⟩, ⟨.leave, .target 3⟩, ⟨.leave, .target 6⟩,
        ⟨.pop, .none⟩, ⟨.leave, .target 6⟩, ⟨.ret, .none⟩],
        [⟨0, 1, 1, 3, ⟨.type, 0⟩⟩, ⟨0, 4, 4, 6, ⟨.type, 1⟩⟩], [], 0⟩ := by decide +kernel
  exact ⟨_, h, rfl, (emit_faithful h).2.1⟩

end StackCode
