import StackCode.Proofs.Execution
import StackCode.Proofs.Streams

/-!
Conditions at the notes of a stream that hold in every execution. A state is sound for a number of
steps if they hold during as many. What a piece of code needs is stated by what lies ahead of it,
and branches only have to be sound for fewer steps, so that loops need an invariant at their labels
and nothing else.
-/

namespace StackCode

open Machine (Opcode)

section Arrivals

variable {events es : List Event} {n : Nat} {i : Item}

theorem itemsOf_arrival (events : List Event) (n : Nat) :
    itemsOf (arrival events n) = (itemsOf events).drop n := by
  fun_induction arrival events n with
  | case1 es => simp
  | case2 => simp
  | case3 i es n ih => simpa using ih
  | case4 x es n ih => simpa using ih

theorem arrival_succ {notes : List Note}
    (h : arrival events n = notes.map .note ++ .item i :: es) : arrival events (n + 1) = es := by
  fun_induction arrival events n with
  | case1 events =>
    subst h
    induction notes with
    | nil => simp [arrival]
    | cons x notes ih => simpa [arrival] using ih
  | case2 => simp at h
  | case3 j events n ih => exact ih h
  | case4 x events n ih => exact ih h

theorem arrival_append (before es : List Event) : ∃ notes : List Note,
    arrival (before ++ es) (itemsOf before).length = notes.map .note ++ es := by
  induction before with
  | nil => exact ⟨[], by simp [arrival]⟩
  | cons e before ih =>
    obtain ⟨notes, h⟩ := ih
    cases e with
    | item i => exact ⟨notes, by simpa [arrival] using h⟩
    | note x =>
      cases hn : (itemsOf before).length with
      | zero =>
        rw [hn, arrival] at h
        exact ⟨x :: notes, by simp [hn, arrival, h]⟩
      | succ k =>
        rw [hn] at h
        exact ⟨notes, by simp [hn, arrival, h]⟩

def Settled (before : List Event) : Prop := before = [] ∨ ∃ xs i, before = xs ++ [.item i]

theorem settled_append {ys : List Event} (h : ∃ zs i, ys = zs ++ [.item i]) (xs : List Event) :
    Settled (xs ++ ys) := by
  obtain ⟨zs, i, rfl⟩ := h
  exact .inr ⟨xs ++ zs, i, (List.append_assoc ..).symm⟩

theorem arrival_settled {before : List Event} (h : Settled before) (es : List Event) :
    arrival (before ++ es) (itemsOf before).length = es := by
  rcases h with rfl | ⟨xs, i, rfl⟩
  · simp [arrival]
  · obtain ⟨notes, h⟩ := arrival_append xs (.item i :: es)
    have := arrival_succ h
    simpa using this

end Arrivals

section Handlers

variable {items rest : List Item} {i : Item} {n h : Nat}

theorem not_throws (hd : items.drop n = i :: rest) (hi : i.isTryStart = false)
    (hb : Balanced Item.isTryStart Item.isHandlerStart rest) : ¬ Throws items n h := by
  rintro ⟨start, hm, hle, hlt⟩
  obtain ⟨hn, hrest⟩ := getElem?_of_drop hd
  have hs : start < n := by
    rcases Nat.eq_or_lt_of_le hle with rfl | hs
    · obtain ⟨a, ha, ho⟩ := hm.opening
      rw [hn] at ha
      obtain rfl := Option.some.inj ha
      rw [hi] at ho
      cases ho
    · exact hs
  obtain ⟨c, hc, hclose⟩ := hm.closing
  -- What follows up to the handler closes one range more than the part before it leaves open.
  have hsplit : slice items (start + 1) (n + 1) ++ slice items (n + 1) h
      = slice items (start + 1) h := slice_append (by omega) (by omega)
  have hcounts := hm.between.counts fun _ => Item.not_isHandlerStart
  have htotal : (slice items (start + 1) h).countP Item.isTryStart
      = (slice items (start + 1) h).countP Item.isHandlerStart := hcounts.1
  have hfront : (slice items (start + 1) (n + 1)).countP Item.isHandlerStart
      ≤ (slice items (start + 1) (n + 1)).countP Item.isTryStart := hcounts.2 _ _ hsplit.symm
  have hback : (slice items (n + 1) (h + 1)).countP Item.isHandlerStart
      ≤ (slice items (n + 1) (h + 1)).countP Item.isTryStart := by
    refine (hb.counts fun _ => Item.not_isHandlerStart).2 _ (rest.drop (h + 1 - (n + 1))) ?_
    rw [slice, hrest, List.take_append_drop]
  have hopen : c.isTryStart = false := by
    rw [Bool.eq_false_iff]
    intro ho
    rw [Item.not_isHandlerStart ho] at hclose
    cases hclose
  rw [slice_snoc hc (by omega), List.countP_append, List.countP_append, List.countP_singleton,
    List.countP_singleton, hclose, hopen] at hback
  rw [← hsplit, List.countP_append, List.countP_append] at htotal
  simp only [if_true, Bool.false_eq_true, if_false] at hback
  omega

theorem throws_next {us : List Item} {type : Machine.Ref}
    (hd : items.drop n = us ++ .handlerStart type :: rest)
    (hu : ∀ i ∈ us, i.isHandlerStart = false)
    (hb : Balanced Item.isTryStart Item.isHandlerStart rest) (ht : Throws items n h) :
    h = n + us.length := by
  obtain ⟨start, hm, hle, hlt⟩ := ht
  have hdrop : items.drop (n + us.length) = .handlerStart type :: rest := by
    rw [← List.drop_drop, hd, List.drop_left]
  rcases Nat.lt_trichotomy h (n + us.length) with hh | hh | hh
  · obtain ⟨c, hc, hclose⟩ := hm.closing
    have hget : (items.drop n)[h - n]? = some c := by
      rw [List.getElem?_drop, ← hc]
      congr 1
      omega
    rw [hd, List.getElem?_append_left (by omega)] at hget
    rw [hu c (List.mem_of_getElem? hget)] at hclose
    cases hclose
  · exact hh
  · exact absurd ⟨start, hm, by omega, hh⟩ (not_throws hdrop rfl hb)

end Handlers

namespace Execution

variable {W : Type}

section Frames

variable {σ τ υ : State W} {F G : Value → Prop}

def Agree (F : Value → Prop) (σ τ : State W) : Prop :=
  ∀ v, F v → τ.cells v = σ.cells v ∧ τ.current v = σ.current v

theorem Agree.refl (F : Value → Prop) (σ : State W) : Agree F σ σ := fun _ _ => ⟨rfl, rfl⟩

theorem Agree.trans (h : Agree F σ τ) (h' : Agree F τ υ) : Agree F σ υ :=
  fun v hv => ⟨(h' v hv).1.trans (h v hv).1, (h' v hv).2.trans (h v hv).2⟩

theorem Agree.mono (h : Agree F σ τ) (hf : ∀ v, G v → F v) : Agree G σ τ :=
  fun v hv => h v (hf v hv)

end Frames

section Acting

variable {m : Meaning W} {i : Item} {σ τ : State W} {F : Value → Prop}

theorem Acts.agree (h : Acts m i σ τ) (hf : ∀ v, F v → ¬ m.exposed v ∧ i ≠ .store v) :
    Agree F σ τ := by
  intro v hv
  refine ⟨?_, by rw [h.current]⟩
  have hw := h.cells
  cases i with
  | store w =>
    have hne : v ≠ w := fun he => (hf v hv).2 (by rw [he])
    rw [hw, Function.update_of_ne hne]
  | op j => exact (hw v).resolve_right (hf v hv).1
  | _ => rw [show τ.cells = σ.cells from hw]

theorem Acts.exchange (h : Acts m i σ τ) {base xs : List W} {pops pushes : Nat}
    (hx : i.exchangeAt m.shape σ.stack.length = some (pops, pushes)) (hs : σ.stack = base ++ xs)
    (hle : pops ≤ xs.length) :
    ∃ results, results.length = pushes ∧ Yields m i σ (xs.drop (xs.length - pops)) results
      ∧ τ.stack = base ++ (xs.take (xs.length - pops) ++ results) := by
  obtain ⟨pops', pushes', results, hx', hr, hy, ht⟩ := h.stack
  rw [hx, Option.getD_some] at hx'
  obtain ⟨rfl, rfl⟩ := Prod.mk.inj hx'
  have hlen : σ.stack.length - pops = base.length + (xs.length - pops) := by
    rw [hs, List.length_append]
    omega
  rw [hlen, hs, List.drop_length_add_append] at hy
  rw [hlen, hs, List.take_length_add_append] at ht
  exact ⟨results, hr, hy, by rw [ht, List.append_assoc]⟩

theorem Acts.idle (h : Acts m i σ τ)
    (hx : i.exchangeAt m.shape σ.stack.length = some (0, 0)) : τ.stack = σ.stack := by
  obtain ⟨results, hr, -, hs⟩ := h.exchange hx (List.append_nil _).symm (Nat.zero_le _)
  simpa [List.length_eq_zero_iff.mp hr] using hs

theorem Acts.last (h : Acts m i σ τ) {w : W}
    (hx : i.exchangeAt m.shape σ.stack.length = some (1, 0)) (hs : σ.stack = [w]) :
    τ.stack = [] := by
  obtain ⟨results, hr, -, ht⟩ := h.exchange hx (List.nil_append _).symm (by simp [hs])
  simpa [hs, List.length_eq_zero_iff.mp hr] using ht

end Acting

structure Program (W : Type) where
  meaning : Meaning W
  events : List Event
  meets : Chunk → Bool → List Chunk → State W → Prop

namespace Program

variable (P : Program W)

abbrev items : List Item := itemsOf P.events

def Meets : Note → State W → Prop
  | .chunk c alone later, σ => P.meets c alone later σ
  | _, _ => True

def Good (notes : List Note) (σ : State W) : Prop :=
  ∀ before x after, notes = before ++ x :: after → P.Meets x (σ.noted P.meaning before)

def At (n : Nat) (es : List Event) : Prop :=
  ∃ notes : List Note, arrival P.events n = notes.map .note ++ es

/-- With `es` ahead at a position, all conditions hold for `k` steps. -/
def Sound : Nat → Nat → List Event → State W → Prop
  | 0, _, _, _ => True
  | k + 1, n, es, σ => P.Good (leading es) σ
    ∧ ∀ n' τ, Moves P.meaning P.items n (σ.noted P.meaning (leading es)) n' τ →
      Sound k n' (arrival P.events n') τ

def Later (k n : Nat) (σ : State W) : Prop :=
  ∀ j < k, P.Sound j n (arrival P.events n) σ

/-- Exceptions are dealt with from all items of a stretch, as long as the states agree. -/
def Guarded (k : Nat) (F : Value → Prop) (n length : Nat) (σ : State W) : Prop :=
  ∀ j h, n ≤ j → j < n + length → Throws P.items j h → ∀ τ e, Agree F σ τ → P.Later k h (τ.throw e)

def Quiet (n length : Nat) : Prop :=
  ∀ j h, n ≤ j → j < n + length → ¬ Throws P.items j h

variable {P} {F : Value → Prop} {σ τ : State W} {k n : Nat} {es : List Event} {i : Item}

theorem At.split {before : List Event} (h : P.events = before ++ es) :
    P.At (itemsOf before).length es := by
  rw [At, h]
  exact arrival_append before es

theorem At.of_arrival (h : StackCode.arrival P.events n = es) : P.At n es := ⟨[], h⟩

theorem At.note {x : Note} (h : P.At n (.note x :: es)) : P.At n es := by
  obtain ⟨notes, h⟩ := h
  exact ⟨notes ++ [x], by simp [h]⟩

theorem At.drop (h : P.At n es) : P.items.drop n = itemsOf es := by
  obtain ⟨notes, h⟩ := h
  have hnotes : itemsOf (notes.map Event.note) = [] := by
    simp [itemsOf, List.filterMap_map, Event.item?]
  rw [items, ← itemsOf_arrival, h, itemsOf_append, hnotes, List.nil_append]

theorem At.arrival (h : P.At n (.item i :: es)) : StackCode.arrival P.events (n + 1) = es := by
  obtain ⟨notes, h⟩ := h
  exact arrival_succ h

theorem At.next (h : P.At n (.item i :: es)) : P.At (n + 1) es := .of_arrival h.arrival

theorem At.append {xs : List Event} (h : P.At n (xs ++ es)) :
    P.At (n + (itemsOf xs).length) es := by
  induction xs generalizing n with
  | nil => exact h
  | cons e xs ih =>
    cases e with
    | item i =>
      have := ih h.next
      rwa [Nat.add_right_comm, Nat.add_assoc, ← List.length_cons, ← itemsOf_item] at this
    | note x => exact ih h.note

theorem At.items {code : List Item} (h : P.At n (code.map .item ++ es)) :
    P.At (n + code.length) es := by
  have := h.append
  rwa [itemsOf_map] at this

theorem At.get (h : P.At n (.item i :: es)) : P.items[n]? = some i :=
  (getElem?_of_drop h.drop).1

theorem Sound.succ (h : P.Sound (k + 1) n es σ) : P.Sound k n es σ := by
  induction k generalizing n es σ with
  | zero => trivial
  | succ k ih => exact ⟨h.1, fun n' τ hm => ih (h.2 n' τ hm)⟩

theorem sound_note {x : Note} (hm : P.Meets x σ) (h : P.Sound k n es (σ.note P.meaning x)) :
    P.Sound k n (.note x :: es) σ := by
  cases k with
  | zero => trivial
  | succ k =>
    refine ⟨?_, h.2⟩
    intro before y after he
    cases before with
    | nil =>
      obtain ⟨rfl, -⟩ := List.cons.inj he
      exact hm
    | cons z before =>
      obtain ⟨rfl, hrest⟩ := List.cons.inj he
      exact h.1 before y after hrest

theorem sound_item (hat : P.At n (.item i :: es))
    (hrun : ∀ τ, Acts P.meaning i σ τ → (i.fallsThrough = true → P.Sound k (n + 1) es τ)
      ∧ ∀ l ∈ i.targets, ∀ q, LastAt P.items l q → P.Later k q τ)
    (hthrow : ∀ h, Throws P.items n h → ∀ τ e, τ = σ ∨ Acts P.meaning i σ τ →
      P.Later k h (τ.throw e)) :
    P.Sound k n (.item i :: es) σ := by
  cases k with
  | zero => trivial
  | succ k =>
    have hget := hat.get
    refine ⟨fun before x after he => absurd he (by simp [leading]), ?_⟩
    intro n' τ hm
    cases hm with
    | run hi hf ha =>
      rw [hget] at hi
      obtain rfl := Option.some.inj hi
      cases hf with
      | next hi hfalls hp =>
        rw [hget] at hi
        obtain rfl := Option.some.inj hi
        rw [hat.arrival]
        exact ((hrun τ ha).1 hfalls).succ
      | jump hi hl hq =>
        rw [hget] at hi
        obtain rfl := Option.some.inj hi
        exact (hrun τ ha).2 _ hl _ hq k (Nat.lt_succ_self k)
    | throwBefore e ht => exact hthrow _ ht _ e (.inl rfl) k (Nat.lt_succ_self k)
    | throwAfter e hi ht ha =>
      rw [hget] at hi
      obtain rfl := Option.some.inj hi
      exact hthrow _ ht _ e (.inr ha) k (Nat.lt_succ_self k)

theorem Guarded.part {length n' length' : Nat} (h : P.Guarded k F n length σ) (hn : n ≤ n')
    (hl : n' + length' ≤ n + length) (ha : Agree F σ τ) : P.Guarded k F n' length' τ :=
  fun j h' hj hlt ht υ e hυ => h j h' (by omega) (by omega) ht υ e (ha.trans hυ)

theorem Guarded.thrown {length h : Nat} (hg : P.Guarded k F n (length + 1) σ)
    (hf : ∀ v, F v → ¬ P.meaning.exposed v ∧ i ≠ .store v) (ht : Throws P.items n h) (e : W)
    (hτ : τ = σ ∨ Acts P.meaning i σ τ) : P.Later k h (τ.throw e) := by
  refine hg n h (Nat.le_refl n) (by omega) ht τ e ?_
  rcases hτ with rfl | ha
  · exact .refl F _
  · exact ha.agree hf

theorem sound_pass {length : Nat} (hat : P.At n (.item i :: es)) (ht : i.targets = [])
    (hg : P.Guarded k F n (length + 1) σ)
    (hf : ∀ v, F v → ¬ P.meaning.exposed v ∧ i ≠ .store v)
    (hnext : ∀ τ, Acts P.meaning i σ τ → P.Guarded k F (n + 1) length τ →
      P.Sound k (n + 1) es τ) : P.Sound k n (.item i :: es) σ := by
  refine sound_item hat ?_ ?_
  · intro τ ha
    refine ⟨fun _ => hnext τ ha ?_, by simp [ht]⟩
    exact hg.part (by omega) (by omega) (ha.agree hf)
  · exact fun _ ht _ e hτ => hg.thrown hf ht e hτ

theorem Quiet.guarded {length : Nat} (h : P.Quiet n length) (F : Value → Prop) (σ : State W) :
    P.Guarded k F n length σ :=
  fun j h' hj hlt ht => absurd ht (h j h' hj hlt)

theorem Quiet.part {length n' length' : Nat} (h : P.Quiet n length) (hn : n ≤ n')
    (hl : n' + length' ≤ n + length) : P.Quiet n' length' :=
  fun j h' hj hlt => h j h' (by omega) (by omega)

theorem At.drop_inside {xs : List Event} {j : Nat} (hat : P.At n (xs ++ es)) (hj : n ≤ j)
    (hlt : j < n + (itemsOf xs).length) :
    ∃ i ∈ itemsOf xs, P.items.drop j = i :: ((itemsOf xs).drop (j - n + 1) ++ itemsOf es) := by
  have hjlt : j - n < (itemsOf xs).length := by omega
  refine ⟨(itemsOf xs)[j - n], List.getElem_mem hjlt, ?_⟩
  have hdrop : P.items.drop j = (P.items.drop n).drop (j - n) := by
    rw [List.drop_drop]
    congr 1
    omega
  rw [hdrop, hat.drop, itemsOf_append, List.drop_append_of_le_length (by omega),
    List.drop_eq_getElem_cons hjlt, List.cons_append]

theorem quiet_calm {xs : List Event} (hat : P.At n (xs ++ es))
    (hx : ∀ i ∈ itemsOf xs, i.isTryStart = false ∧ i.isHandlerStart = false)
    (hes : Balanced Item.isTryStart Item.isHandlerStart (itemsOf es)) :
    P.Quiet n (itemsOf xs).length := by
  intro j h hj hlt
  obtain ⟨i, hi, hdrop⟩ := hat.drop_inside hj hlt
  refine not_throws hdrop (hx i hi).1 (.append ?_ hes)
  exact balanced_of_forall fun i hi => hx i (List.mem_of_mem_drop hi)

theorem guarded_range {xs : List Event} {type : Machine.Ref} {items rest : List Item}
    (hat : P.At n (xs ++ es)) (hxs : itemsOf xs = items)
    (hx : ∀ i ∈ items, i.isHandlerStart = false)
    (hes : itemsOf es = .handlerStart type :: rest)
    (hrest : Balanced Item.isTryStart Item.isHandlerStart rest)
    (hlater : ∀ τ e, Agree F σ τ → P.Later k (n + items.length) (τ.throw e)) :
    P.Guarded k F n items.length σ := by
  subst hxs
  intro j h hj hlt hthrow τ e hτ
  obtain ⟨i, hi, hdrop⟩ := hat.drop_inside hj hlt
  rw [hes, ← List.cons_append] at hdrop
  have hh := throws_next hdrop (by
    rw [List.forall_mem_cons]
    exact ⟨hx i hi, fun i hi => hx i (List.mem_of_mem_drop hi)⟩) hrest hthrow
  rw [List.length_cons, List.length_drop] at hh
  obtain rfl : h = n + (itemsOf xs).length := by omega
  exact hlater τ e hτ

theorem targets_of_exchange? {shape : Machine.Instr → Option (Nat × Nat)} {x : Nat × Nat}
    (h : i.exchange? shape = some x) : i.targets = [] := by
  cases i <;> first | rfl | cases h

theorem sound_code {code : List Item} {d e : Nat} {base xs : List W}
    (hat : P.At n (code.map .item ++ es)) (hh : height P.meaning.shape code d = some e)
    (hf : ∀ v, F v → ¬ P.meaning.exposed v ∧ .store v ∉ code)
    (hg : P.Guarded k F n code.length σ) (hs : σ.stack = base ++ xs) (hd : xs.length = d)
    (hnext : ∀ τ ys, Agree F σ τ → τ.stack = base ++ ys → ys.length = e →
      P.Sound k (n + code.length) es τ) : P.Sound k n (code.map .item ++ es) σ := by
  induction code generalizing n σ xs d with
  | nil =>
    obtain rfl := Option.some.inj hh
    exact hnext σ xs (.refl F σ) hs hd
  | cons i code ih =>
    rw [height] at hh
    split at hh
    · rename_i pops pushes hi
      split at hh
      · rename_i hle
        have hfi : ∀ v, F v → ¬ P.meaning.exposed v ∧ i ≠ .store v := fun v hv =>
          ⟨(hf v hv).1, fun he => (hf v hv).2 (by simp [he])⟩
        refine sound_pass hat (targets_of_exchange? hi) hg hfi ?_
        intro τ ha hgτ
        obtain ⟨results, hr, -, ht⟩ := ha.exchange (Item.exchangeAt_of_exchange? hi _) hs (by omega)
        refine ih hat.next hh (fun v hv => ⟨(hf v hv).1, fun hm => (hf v hv).2 (by simp [hm])⟩)
          hgτ ht (by simp; omega) ?_
        intro υ ys hυ hys hlen
        have := hnext υ ys ((ha.agree hfi).trans hυ) hys hlen
        rwa [List.length_cons, Nat.add_comm code.length, ← Nat.add_assoc] at this
      · cases hh
    · cases hh

theorem sound_literals {code : List Item} {e : Nat} {base xs : List W}
    (hat : P.At n (code.map .item ++ es))
    (hl : ∀ i ∈ code, ∃ j, i = .op j ∧ j.opcode.isLiteral = true)
    (hh : height P.meaning.shape code xs.length = some e)
    (hf : ∀ v, F v → ¬ P.meaning.exposed v) (hg : P.Guarded k F n code.length σ)
    (hs : σ.stack = base ++ xs)
    (hnext : ∀ τ, Agree F σ τ → τ.stack = base ++ literals P.meaning.literal code xs →
      P.Sound k (n + code.length) es τ) : P.Sound k n (code.map .item ++ es) σ := by
  induction code generalizing n σ xs with
  | nil => exact hnext σ (.refl F σ) hs
  | cons i code ih =>
    rw [List.forall_mem_cons] at hl
    obtain ⟨j, rfl, hj⟩ := hl.1
    obtain ⟨pops, he, hflow⟩ := effect_of_isLiteral hj
    have hi : (Item.op j).exchange? P.meaning.shape = some (pops, 1) := by
      simp [Item.exchange?, he, hflow]
    rw [height, hi] at hh
    dsimp only at hh
    split at hh
    · rename_i hle
      have hfi : ∀ v, F v → ¬ P.meaning.exposed v ∧ Item.op j ≠ .store v := fun v hv =>
        ⟨hf v hv, by simp⟩
      refine sound_pass hat rfl hg hfi ?_
      intro τ ha hgτ
      obtain ⟨results, hr, hy, ht⟩ := ha.exchange (Item.exchangeAt_of_exchange? hi _) hs hle
      obtain rfl := hy hj
      refine ih hat.next hl.2 ?_ hgτ ht ?_
      · rw [List.length_append, List.length_take, List.length_singleton]
        rwa [Nat.min_eq_left (by omega)]
      · intro υ hυ hstack
        have := hnext υ ((ha.agree hfi).trans hυ) (by simpa only [literals, he] using hstack)
        rwa [List.length_cons, Nat.add_comm code.length, ← Nat.add_assoc] at this
    · cases hh

theorem length_literals {shape : Machine.Instr → Option (Nat × Nat)}
    {literal : Machine.Instr → List W → W} {code : List Item} {e : Nat} {xs : List W}
    (hl : ∀ i ∈ code, ∃ j, i = .op j ∧ j.opcode.isLiteral = true)
    (hh : height shape code xs.length = some e) : (literals literal code xs).length = e := by
  induction code generalizing xs with
  | nil => exact Option.some.inj hh
  | cons i code ih =>
    rw [List.forall_mem_cons] at hl
    obtain ⟨j, rfl, hj⟩ := hl.1
    obtain ⟨pops, he, hflow⟩ := effect_of_isLiteral hj
    have hi : (Item.op j).exchange? shape = some (pops, 1) := by simp [Item.exchange?, he, hflow]
    rw [height, hi] at hh
    dsimp only at hh
    split at hh
    · simp only [literals, he]
      refine ih hl.2 ?_
      rw [List.length_append, List.length_take, List.length_singleton]
      rwa [Nat.min_eq_left (by omega)]
    · cases hh

theorem sound_branch {length pops : Nat} (hat : P.At n (.item i :: es))
    (hx : i.exchangeAt P.meaning.shape σ.stack.length = some (pops, 0))
    (hs : pops = σ.stack.length) (hf : ∀ v, F v → ¬ P.meaning.exposed v ∧ i ≠ .store v)
    (hg : P.Guarded k F n (length + 1) σ)
    (hjump : ∀ l ∈ i.targets, ∀ q, LastAt P.items l q → ∀ τ, Acts P.meaning i σ τ →
      τ.stack = [] → P.Later k q τ)
    (hnext : i.fallsThrough = true → ∀ τ, Acts P.meaning i σ τ → τ.stack = [] →
      P.Guarded k F (n + 1) length τ → P.Sound k (n + 1) es τ) :
    P.Sound k n (.item i :: es) σ := by
  have hempty : ∀ τ, Acts P.meaning i σ τ → τ.stack = [] := by
    intro τ ha
    obtain ⟨results, hr, -, ht⟩ := ha.exchange hx (List.nil_append _).symm (Nat.le_of_eq hs)
    simpa [hs, List.length_eq_zero_iff.mp hr] using ht
  refine sound_item hat ?_ ?_
  · intro τ ha
    refine ⟨fun hfalls => hnext hfalls τ ha (hempty τ ha) ?_, ?_⟩
    · exact hg.part (by omega) (by omega) (ha.agree hf)
    · exact fun l hl q hq => hjump l hl q hq τ ha (hempty τ ha)
  · exact fun _ ht _ e hτ => hg.thrown hf ht e hτ

theorem sound_tests {g : Graph} {leg : Option Leg} {ok : Label → Prop} {code : List Item} {d : Nat}
    (hat : P.At n (code.flatMap (Item.events g leg) ++ es))
    (ht : Tests P.meaning.shape ok code d)
    (hf : ∀ v, F v → ¬ P.meaning.exposed v ∧ .store v ∉ code)
    (hg : P.Guarded k F n code.length σ) (hs : σ.stack.length = d)
    (hjump : ∀ l, ok l → ∀ q, LastAt P.items l q → ∀ τ, Agree F σ τ → τ.stack = [] →
      P.Later k q τ)
    (hnext : ∀ τ, Agree F σ τ → τ.stack = [] → P.Sound k (n + code.length) es τ) :
    P.Sound k n (code.flatMap (Item.events g leg) ++ es) σ := by
  induction code generalizing n σ d with
  | nil =>
    obtain rfl : d = 0 := ht
    exact hnext σ (.refl F σ) (List.length_eq_zero_iff.mp hs)
  | cons i code ih =>
    have hfi : ∀ v, F v → ¬ P.meaning.exposed v ∧ i ≠ .store v := fun v hv =>
      ⟨(hf v hv).1, fun he => (hf v hv).2 (by simp [he])⟩
    have hfrest : ∀ v, F v → ¬ P.meaning.exposed v ∧ .store v ∉ code := fun v hv =>
      ⟨(hf v hv).1, fun hm => (hf v hv).2 (by simp [hm])⟩
    -- The rest of the test, from a state that agrees with the first.
    have hrest : ∀ τ d', P.At (n + 1) (code.flatMap (Item.events g leg) ++ es) →
        Tests P.meaning.shape ok code d' → Agree F σ τ → τ.stack.length = d' →
        P.Guarded k F (n + 1) code.length τ →
        P.Sound k (n + 1) (code.flatMap (Item.events g leg) ++ es) τ := by
      intro τ d' hatτ htτ hagree hlen hgτ
      refine ih hatτ htτ hfrest hgτ hlen ?_ ?_
      · exact fun l hl q hq υ hυ => hjump l hl q hq υ (hagree.trans hυ)
      · intro υ hυ hstack
        have := hnext υ (hagree.trans hυ) hstack
        rwa [List.length_cons, Nat.add_comm code.length, ← Nat.add_assoc] at this
    rw [List.flatMap_cons, List.append_assoc] at hat ⊢
    have hpassed : ∀ τ, P.At n (.item i :: (code.flatMap (Item.events g leg) ++ es)) →
        Agree F σ τ → τ.stack.length = d →
        (∃ pops pushes, i.exchange? P.meaning.shape = some (pops, pushes) ∧ pops ≤ d
          ∧ Tests P.meaning.shape ok code (d - pops + pushes)) →
        P.Sound k n (.item i :: (code.flatMap (Item.events g leg) ++ es)) τ := by
      rintro τ hatτ hagree hlen ⟨pops, pushes, hx, hle, htests⟩
      refine sound_pass hatτ (targets_of_exchange? hx)
        (hg.part (Nat.le_refl n) (Nat.le_refl _) hagree) hfi ?_
      intro υ ha hgυ
      obtain ⟨results, hr, -, hstack⟩ := ha.exchange (Item.exchangeAt_of_exchange? hx _)
        (List.nil_append _).symm (by omega)
      refine hrest υ _ hatτ.next htests (hagree.trans (ha.agree hfi)) ?_ hgυ
      rw [hstack]
      simp
      omega
    cases i with
    | jump o l =>
      obtain ⟨hflow, he, hl, htests⟩ := ht
      have hev : (Item.jump o l).events g leg = [.item (.jump o l)] := by
        refine Item.events_of_ne (by simp) ?_
        rintro l' h
        obtain ⟨rfl, -⟩ := Item.jump.inj h
        cases hflow
      rw [hev] at hat ⊢
      have hx : (Item.jump o l).exchangeAt P.meaning.shape σ.stack.length = some (d, 0) := by
        simp [Item.exchangeAt, he]
      refine sound_branch hat hx hs.symm hfi hg ?_ ?_
      · intro l' hl'
        obtain rfl := List.mem_singleton.mp hl'
        exact fun q hq τ ha => hjump l' hl q hq τ (ha.agree hfi)
      · intro _ τ ha hstack hgτ
        exact hrest τ 0 hat.next htests (ha.agree hfi) (by simp [hstack]) hgτ
    | switch ls =>
      obtain ⟨rfl, hl, htests⟩ := ht
      have hx : (Item.switch ls).exchangeAt P.meaning.shape σ.stack.length = some (1, 0) := rfl
      refine sound_branch hat hx hs.symm hfi hg ?_ ?_
      · exact fun l hm q hq τ ha => hjump l (hl l hm) q hq τ (ha.agree hfi)
      · intro _ τ ha hstack hgτ
        exact hrest τ 0 hat.next htests (ha.agree hfi) (by simp [hstack]) hgτ
    | store v =>
      refine sound_note trivial (hpassed _ hat.note ?_ hs ht)
      intro w hw
      have hne : w ≠ v := fun he => (hfi w hw).2 (by rw [he])
      exact ⟨rfl, Function.update_of_ne hne _ _⟩
    | _ => exact hpassed σ hat (.refl F σ) hs ht

end Program

section Reaching

variable {P : Program W} {n : Nat} {σ : State W}

theorem Program.good_of_reached {n₀ : Nat} {σ₀ : State W}
    (h : ∀ k, P.Sound k n₀ (arrival P.events n₀) σ₀)
    (hr : Relation.ReflTransGen (Step P.meaning P.events) (n₀, σ₀) (n, σ)) :
    P.Good (leading (arrival P.events n)) σ := by
  have hall : ∀ k, P.Sound k n (arrival P.events n) σ := by
    -- One more step for the start gives as many as before for the state behind it.
    generalize he : (n, σ) = b at hr
    induction hr generalizing n σ with
    | refl =>
      obtain ⟨rfl, rfl⟩ := Prod.mk.inj he
      exact h
    | tail _ hstep ih =>
      subst he
      intro k
      exact (ih rfl (k + 1)).2 _ _ hstep
  exact (hall 1).1

end Reaching

end Execution

end StackCode
