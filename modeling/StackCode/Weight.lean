namespace StackCode

variable {α : Type}

def weight (f : α → Nat) : List α → Nat
  | [] => 0
  | a :: as => f a + weight f as

theorem weight_set (f : α → Nat) (as : List α) (i : Nat) (a b : α) (h : as[i]? = some a) :
    weight f (as.set i b) + f a = weight f as + f b := by
  induction as generalizing i with
  | nil => simp at h
  | cons c cs ih =>
    cases i with
    | zero =>
      simp at h
      simp [weight, h]
      omega
    | succ i =>
      have := ih i (by simpa using h)
      simp only [weight, List.set_cons_succ] at this ⊢
      omega

theorem weight_le {f g : α → Nat} {as : List α} (h : ∀ a ∈ as, f a ≤ g a) :
    weight f as ≤ weight g as := by
  induction as with
  | nil => simp [weight]
  | cons c cs ih =>
    have hc := h c (by simp)
    have hs := ih fun a ha => h a (by simp [ha])
    simp only [weight] at hs ⊢
    omega

theorem weight_add_le {f g : α → Nat} {as : List α} {a : α} (h : ∀ a ∈ as, f a ≤ g a)
    (ha : a ∈ as) : weight f as + g a ≤ weight g as + f a := by
  induction as with
  | nil => simp at ha
  | cons c cs ih =>
    have hc := h c (by simp)
    have hs : ∀ a ∈ cs, f a ≤ g a := fun a ha => h a (by simp [ha])
    rcases List.mem_cons.mp ha with rfl | ha
    · have := weight_le hs
      simp only [weight] at this ⊢
      omega
    · have := ih hs ha
      simp only [weight] at this ⊢
      omega

end StackCode
