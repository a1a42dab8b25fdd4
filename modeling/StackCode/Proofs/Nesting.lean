import StackCode.Stream.Item

namespace StackCode

inductive Balanced (opens closes : Item → Bool) : List Item → Prop where
  | nil : Balanced opens closes []
  | plain {i : Item} (ho : opens i = false) (hc : closes i = false) : Balanced opens closes [i]
  | append {xs ys : List Item} (hx : Balanced opens closes xs) (hy : Balanced opens closes ys) :
      Balanced opens closes (xs ++ ys)
  | wrap {i j : Item} {xs : List Item} (ho : opens i = true) (hx : Balanced opens closes xs)
      (hc : closes j = true) : Balanced opens closes (i :: (xs ++ [j]))

def slice (items : List Item) (i j : Nat) : List Item := (items.drop i).take (j - i)

structure Matched (opens closes : Item → Bool) (items : List Item) (i j : Nat) : Prop where
  opening : ∃ a, items[i]? = some a ∧ opens a = true
  closing : ∃ b, items[j]? = some b ∧ closes b = true
  lt : i < j
  between : Balanced opens closes (slice items (i + 1) j)

def Opened (opens closes : Item → Bool) (items : List Item) : Nat → List Nat → Prop
  | n, [] => Balanced opens closes (slice items 0 n)
  | n, i :: outer =>
    i < n ∧ (∃ a, items[i]? = some a ∧ opens a = true)
      ∧ Balanced opens closes (slice items (i + 1) n) ∧ Opened opens closes items i outer

section Slices

variable {items : List Item} {a : Item} {i j n : Nat}

theorem slice_self : slice items n n = [] := by simp [slice]

theorem slice_append (hij : i ≤ j) (hjn : j ≤ n) :
    slice items i j ++ slice items j n = slice items i n := by
  have hn : n - i = (j - i) + (n - j) := by omega
  have hd : (items.drop i).drop (j - i) = items.drop j := by
    rw [List.drop_drop]
    congr 1
    omega
  rw [slice, slice, slice, hn, List.take_add, hd]

theorem slice_one (h : items[n]? = some a) : slice items n (n + 1) = [a] := by
  obtain ⟨hn, rfl⟩ := List.getElem?_eq_some_iff.mp h
  rw [slice, List.drop_eq_getElem_cons hn, Nat.add_sub_cancel_left]
  rfl

theorem slice_snoc (h : items[n]? = some a) (hin : i ≤ n) :
    slice items i (n + 1) = slice items i n ++ [a] := by
  rw [← slice_append hin (Nat.le_succ n), slice_one h]

theorem slice_cons (h : items[i]? = some a) (hin : i < n) :
    slice items i n = a :: slice items (i + 1) n := by
  rw [← slice_append (Nat.le_succ i) hin, slice_one h, List.singleton_append]

theorem slice_zero_length : slice items 0 items.length = items := by simp [slice]

end Slices

section Steps

variable {opens closes : Item → Bool} {items : List Item} {a : Item} {n : Nat} {outer : List Nat}

theorem Opened.start : Opened opens closes items 0 [] := by
  rw [Opened, slice_self]
  exact .nil

theorem Opened.pass (h : Opened opens closes items n outer) (ha : items[n]? = some a)
    (ho : opens a = false) (hc : closes a = false) :
    Opened opens closes items (n + 1) outer := by
  cases outer with
  | nil =>
    rw [Opened, slice_snoc ha (Nat.zero_le n)]
    exact .append h (.plain ho hc)
  | cons i outer =>
    obtain ⟨hi, hoi, hb, hr⟩ := h
    refine ⟨by omega, hoi, ?_, hr⟩
    rw [slice_snoc ha hi]
    exact .append hb (.plain ho hc)

theorem Opened.enter (h : Opened opens closes items n outer) (ha : items[n]? = some a)
    (ho : opens a = true) : Opened opens closes items (n + 1) (n :: outer) := by
  refine ⟨by omega, ⟨a, ha, ho⟩, ?_, h⟩
  rw [slice_self]
  exact .nil

theorem Opened.matched {i : Nat} (h : Opened opens closes items n (i :: outer))
    (ha : items[n]? = some a) (hc : closes a = true) : Matched opens closes items i n :=
  ⟨h.2.1, ⟨a, ha, hc⟩, h.1, h.2.2.1⟩

theorem Matched.extend {i k : Nat} (h : Matched opens closes items i n) (hk : k ≤ i)
    (hb : Balanced opens closes (slice items k i)) :
    Balanced opens closes (slice items k (n + 1)) := by
  obtain ⟨a, ha, ho⟩ := h.opening
  obtain ⟨b, hb', hc⟩ := h.closing
  have hi := h.lt
  rw [← slice_append hk (by omega : i ≤ n + 1), slice_cons ha (by omega), slice_snoc hb' hi]
  exact .append hb (.wrap ho h.between hc)

theorem Opened.leave {i : Nat} (h : Opened opens closes items n (i :: outer))
    (ha : items[n]? = some a) (hc : closes a = true) : Opened opens closes items (n + 1) outer := by
  have hm := h.matched ha hc
  obtain ⟨hi, -, -, hr⟩ := h
  cases outer with
  | nil => exact hm.extend (Nat.zero_le i) hr
  | cons j outer =>
    obtain ⟨hj, hoj, hb, hr⟩ := hr
    exact ⟨by omega, hoj, hm.extend hj hb, hr⟩

end Steps

section Counts

variable {opens closes : Item → Bool} (hd : ∀ i, opens i = true → closes i = false)

include hd in
theorem Balanced.counts {xs : List Item} (h : Balanced opens closes xs) :
    xs.countP opens = xs.countP closes
      ∧ ∀ ys zs, xs = ys ++ zs → ys.countP closes ≤ ys.countP opens := by
  induction h with
  | nil =>
    refine ⟨rfl, ?_⟩
    intro ys zs h
    simp [List.nil_eq_append_iff.mp h]
  | @plain i ho hc =>
    refine ⟨by simp [ho, hc], ?_⟩
    intro ys zs h
    rcases List.singleton_eq_append_iff.mp h with ⟨rfl, -⟩ | ⟨rfl, -⟩ <;> simp [ho, hc]
  | @append xs ys _ _ ihx ihy =>
    refine ⟨by simp [List.countP_append, ihx.1, ihy.1], ?_⟩
    intro us vs h
    rcases List.append_eq_append_iff.mp h with ⟨as, rfl, hy⟩ | ⟨cs, hx, -⟩
    · have hx := ihx.1
      have ha := ihy.2 as vs hy
      simp only [List.countP_append]
      omega
    · exact ihx.2 us cs hx
  | @wrap i j xs ho _ hc ih =>
    have hi := hd i ho
    have hj : opens j = false := by
      refine Bool.eq_false_iff.mpr fun hj => ?_
      rw [hd j hj] at hc
      cases hc
    refine ⟨by simp [List.countP_append, ho, hc, hi, hj, ih.1], ?_⟩
    intro us vs h
    -- A part that is not empty has the opening item, which makes up for the closing one.
    cases us with
    | nil => simp
    | cons u us =>
      rw [List.cons_append, List.cons.injEq] at h
      obtain ⟨rfl, h⟩ := h
      rcases List.append_eq_append_iff.mp h with ⟨as, rfl, hj'⟩ | ⟨cs, hx, -⟩
      · rcases List.singleton_eq_append_iff.mp hj' with ⟨rfl, -⟩ | ⟨rfl, -⟩ <;>
          simp [List.countP_append, ho, hc, hi, hj, ih.1]
      · have := ih.2 us cs hx
        simp only [List.countP_cons, ho, hi, if_true]
        simp
        omega

include hd in
theorem Matched.unique {items : List Item} {i j n : Nat} (hi : Matched opens closes items i n)
    (hj : Matched opens closes items j n) : i = j := by
  -- If `i` came first, the items between it and `j` would close more than they open.
  have key : ∀ {i j : Nat}, Matched opens closes items i n → Matched opens closes items j n →
      ¬ i < j := by
    intro i j hi hj hij
    obtain ⟨a, ha, ho⟩ := hj.opening
    have hs : slice items (i + 1) n = slice items (i + 1) j ++ (a :: slice items (j + 1) n) := by
      rw [← slice_cons ha hj.lt, slice_append hij (Nat.le_of_lt hj.lt)]
    obtain ⟨hc, hp⟩ := hi.between.counts hd
    have hc' := (hj.between.counts hd).1
    have hp' := hp _ _ hs
    have ha' := hd a ho
    rw [hs] at hc
    simp only [List.countP_append, List.countP_cons, ho, ha', if_true] at hc
    simp at hc
    omega
  have h1 := key hi hj
  have h2 := key hj hi
  omega

end Counts

end StackCode
