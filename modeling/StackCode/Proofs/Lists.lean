import Mathlib.Data.List.Forall2

namespace StackCode

theorem mem_of_lookup {α β : Type} [DecidableEq α] {es : List (α × β)} {a : α} {b : β}
    (h : es.lookup a = some b) : (a, b) ∈ es := by
  obtain ⟨_, _, rfl, -⟩ := List.lookup_eq_some_iff.mp h
  simp

theorem lookup_iff_mem {α β : Type} [DecidableEq α] {es : List (α × β)}
    (hd : (es.map Prod.fst).Nodup) {a : α} {b : β} : es.lookup a = some b ↔ (a, b) ∈ es := by
  refine ⟨mem_of_lookup, ?_⟩
  intro h
  induction es with
  | nil => cases h
  | cons e es ih =>
    obtain ⟨c, d⟩ := e
    rw [List.map_cons, List.nodup_cons] at hd
    rw [List.lookup_cons]
    rcases List.mem_cons.mp h with he | h
    · cases he
      rw [beq_self_eq_true]
    · have hne : a ≠ c := fun he => hd.1 (List.mem_map.mpr ⟨(a, b), h, he⟩)
      rw [beq_eq_false_iff_ne.mpr hne]
      exact ih hd.2 h

theorem bind_eq_ok {α β ε : Type} {x : Except ε α} {f : α → Except ε β} {b : β} :
    x >>= f = .ok b ↔ ∃ a, x = .ok a ∧ f a = .ok b := by
  cases x <;> simp [bind, Except.bind]

theorem ok_of_toOption {α β ε : Type} {x : Except ε α} {f : α → β} {b : β}
    (h : x.toOption.map f = some b) : ∃ a, x = .ok a ∧ f a = b := by
  cases x with
  | error e => cases h
  | ok a => exact ⟨a, rfl, Option.some.inj h⟩

theorem run_of_toOption {α β ε σ : Type} {x : Except ε α × σ} {f : α → β} {b : β}
    (h : x.1.toOption.map f = some b) : ∃ a s, x = (.ok a, s) ∧ f a = b := by
  obtain ⟨a, ha, hb⟩ := ok_of_toOption h
  exact ⟨a, x.2, Prod.ext ha rfl, hb⟩

theorem run_bind {α β ε σ : Type} (x : ExceptT ε (StateM σ) α) (f : α → ExceptT ε (StateM σ) β)
    (s : σ) : (x >>= f).run.run s = match x.run.run s with
      | (.ok a, t) => (f a).run.run t
      | (.error e, t) => (.error e, t) := by
  simp only [ExceptT.run_bind, StateT.run_bind]
  cases x.run.run s with
  | mk r t => cases r <;> rfl

theorem forall₂_of_mapM {α β ε : Type} {f : α → Except ε β} {xs : List α} {ys : List β}
    (h : xs.mapM f = .ok ys) : List.Forall₂ (fun x y => f x = .ok y) xs ys := by
  induction xs generalizing ys with
  | nil =>
    cases h
    exact .nil
  | cons x xs ih =>
    rw [List.mapM_cons] at h
    obtain ⟨y, hx, h⟩ := bind_eq_ok.mp h
    obtain ⟨zs, hxs, h⟩ := bind_eq_ok.mp h
    cases h
    exact .cons hx (ih hxs)

theorem forall_of_forall₂ {α β : Type} {R : α → β → Prop} {xs : List α} {ys : List β}
    (h : List.Forall₂ R xs ys) {x : α} (hx : x ∈ xs) : ∃ y ∈ ys, R x y := by
  induction h with
  | nil => cases hx
  | @cons a b as bs hab _ ih =>
    rcases List.mem_cons.mp hx with rfl | hx
    · exact ⟨b, List.mem_cons_self, hab⟩
    · obtain ⟨y, hy, hr⟩ := ih hx
      exact ⟨y, List.mem_cons_of_mem _ hy, hr⟩

theorem forall₂_getElem? {α β : Type} {R : α → β → Prop} {xs : List α} {ys : List β}
    (h : List.Forall₂ R xs ys) {n : Nat} {x : α} {y : β} (hx : xs[n]? = some x)
    (hy : ys[n]? = some y) : R x y := by
  induction h generalizing n with
  | nil => cases hx
  | cons hr _ ih =>
    cases n with
    | zero =>
      obtain rfl := Option.some.inj hx
      obtain rfl := Option.some.inj hy
      exact hr
    | succ n => exact ih hx hy

theorem exists_getElem?_cons {α : Type} {a : α} {as : List α} {P : Nat → α → Prop} :
    (∃ k x, (a :: as)[k]? = some x ∧ P k x) ↔ P 0 a ∨ ∃ k x, as[k]? = some x ∧ P (k + 1) x := by
  constructor
  · rintro ⟨k, x, hx, hp⟩
    cases k with
    | zero =>
      obtain rfl := Option.some.inj hx
      exact .inl hp
    | succ k => exact .inr ⟨k, x, hx, hp⟩
  · rintro (hp | ⟨k, x, hx, hp⟩)
    · exact ⟨0, a, rfl, hp⟩
    · exact ⟨k + 1, x, hx, hp⟩

theorem forall₂_trans {α β γ : Type} {R : α → β → Prop} {S : β → γ → Prop} {T : α → γ → Prop}
    {xs : List α} {ys : List β} {zs : List γ} (h : ∀ x y z, R x y → S y z → T x z)
    (hx : List.Forall₂ R xs ys) (hy : List.Forall₂ S ys zs) : List.Forall₂ T xs zs := by
  induction hx generalizing zs with
  | nil =>
    cases hy
    exact .nil
  | cons hr _ ih =>
    cases hy with
    | cons hs hy => exact .cons (h _ _ _ hr hs) (ih hy)

theorem forall₂_imp_mem {α β : Type} {R S : α → β → Prop} {xs : List α} {ys : List β}
    (hx : List.Forall₂ R xs ys) (h : ∀ x ∈ xs, ∀ y, R x y → S x y) : List.Forall₂ S xs ys := by
  induction hx with
  | nil => exact .nil
  | cons hr _ ih =>
    rw [List.forall_mem_cons] at h
    exact .cons (h.1 _ hr) (ih h.2)

theorem forall₂_append_left {α β : Type} {R : α → β → Prop} {xs ys : List α} {zs : List β}
    (h : List.Forall₂ R (xs ++ ys) zs) :
    ∃ us vs, zs = us ++ vs ∧ List.Forall₂ R xs us ∧ List.Forall₂ R ys vs := by
  induction xs generalizing zs with
  | nil => exact ⟨[], zs, rfl, .nil, h⟩
  | cons x xs ih =>
    cases h with
    | @cons _ z _ zs hr hrest =>
      obtain ⟨us, vs, rfl, hx, hy⟩ := ih hrest
      exact ⟨z :: us, vs, rfl, .cons hr hx, hy⟩

theorem forall₂_snoc_left {α β : Type} {R : α → β → Prop} {xs : List α} {x : α} {zs : List β}
    (h : List.Forall₂ R (xs ++ [x]) zs) :
    ∃ us z, zs = us ++ [z] ∧ List.Forall₂ R xs us ∧ R x z := by
  obtain ⟨us, vs, rfl, hus, hvs⟩ := forall₂_append_left h
  cases hvs with
  | cons hz hnil =>
    cases hnil
    exact ⟨us, _, rfl, hus, hz⟩

theorem forall₂_lookup_zip {α β γ : Type} [DecidableEq α] {R : β → γ → Prop} {as : List α}
    {bs : List β} {cs : List γ} (hd : as.Nodup) (hl : as.length = bs.length)
    (h : List.Forall₂ R bs cs) :
    List.Forall₂ (fun a c => ∃ b, (as.zip bs).lookup a = some b ∧ R b c) as cs := by
  induction as generalizing bs cs with
  | nil =>
    obtain rfl := List.length_eq_zero_iff.mp hl.symm
    cases h
    exact .nil
  | cons a as ih =>
    cases h with
    | nil => cases hl
    | @cons b c bs cs hr hrest =>
      rw [List.nodup_cons] at hd
      rw [List.zip_cons_cons]
      refine .cons ⟨b, by simp, hr⟩ ?_
      refine forall₂_imp_mem (ih hd.2 (by simpa using hl) hrest) ?_
      rintro x hx y ⟨z, hz, hr⟩
      have hne : x ≠ a := fun he => hd.1 (he ▸ hx)
      exact ⟨z, by rw [List.lookup_cons, beq_eq_false_iff_ne.mpr hne]; exact hz, hr⟩

theorem exists_forall₂ {α β : Type} {R : α → β → Prop} {xs : List α} (h : ∀ x ∈ xs, ∃ y, R x y) :
    ∃ ys, List.Forall₂ R xs ys := by
  induction xs with
  | nil => exact ⟨[], .nil⟩
  | cons x xs ih =>
    rw [List.forall_mem_cons] at h
    obtain ⟨y, hy⟩ := h.1
    obtain ⟨ys, hys⟩ := ih h.2
    exact ⟨y :: ys, .cons hy hys⟩

theorem getElem?_mono {α : Type} {xs ys : List α} {n : Nat} {x : α} (h : xs <+: ys)
    (hx : xs[n]? = some x) : ys[n]? = some x := by
  obtain ⟨rest, rfl⟩ := h
  rw [List.getElem?_append_left (List.getElem?_eq_some_iff.mp hx).1, hx]

theorem getElem?_of_isPrefix_drop {α : Type} {l code : List α} {k n : Nat} {x : α}
    (h : code <+: l.drop k) (hx : code[n]? = some x) : l[k + n]? = some x := by
  rw [← List.getElem?_drop]
  exact getElem?_mono h hx

end StackCode
