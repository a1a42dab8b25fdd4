import StackCode.Proofs.Plans

namespace StackCode

open Machine (Opcode)
open Select (Chained)

section Chains

variable {α β : Type} {step : Selection → α → β → Selection → Prop} {s t : Selection}
  {as : List α} {bs : List β}

theorem Select.Chained.split (h : Chained step s as bs t) {xs ys : List β} {b : β}
    (hb : bs = xs ++ b :: ys) : ∃ a as₁ as₂ s' t', Chained step s as₁ xs s' ∧ step s' a b t'
      ∧ Chained step t' as₂ ys t := by
  induction h generalizing xs with
  | nil => simp at hb
  | @cons s t u a c as bs hg h hs ih =>
    cases xs with
    | nil =>
      obtain ⟨rfl, rfl⟩ := List.cons.inj hb
      exact ⟨a, [], as, s, t, .nil, h, hs⟩
    | cons x xs =>
      obtain ⟨rfl, hbs⟩ := List.cons.inj hb
      obtain ⟨a', as₁, as₂, s', t', h₁, h', h₂⟩ := ih hbs
      exact ⟨a', a :: as₁, as₂, s', t', .cons hg h h₁, h', h₂⟩

end Chains

section Addresses

variable {ctx : Context} {calls : Opcode → Method → Prop} {s t : Selection} {b : Block} {v : Value}

theorem address_not_mem_arms {arms : List Arm} {c : Chunk} (hc : c ∈ arms.flatMap Arm.chunks) :
    Item.address v ∉ c.code := by
  obtain ⟨a, -, hc⟩ := List.mem_flatMap.mp hc
  simp only [Arm.chunks, List.mem_cons, List.not_mem_nil, or_false] at hc
  rcases hc with rfl | rfl <;> simp [Chunk.label, Chunk.jump]

theorem address_not_mem_keep (w : Option Value) : Item.address v ≠ Select.keep w := by
  cases w <;> simp [Select.keep]

theorem address_of_guarded {chunk : Chunk} {void : Bool} {result caught : Option Value}
    {type : Machine.Ref} {capture : List Item} {done failed : Label} {c : Chunk}
    (hp : ∀ i ∈ capture, i.IsPlain)
    (hc : c ∈ guardedChunks chunk (if void then [] else [Select.keep result]) type capture caught
      done failed) (hv : Item.address v ∈ c.code) : Item.address v ∈ chunk.code := by
  have hk := address_not_mem_keep (v := v)
  simp only [guardedChunks, List.mem_cons, List.not_mem_nil, or_false] at hc
  rcases hc with rfl | rfl | rfl
  · simp at hv
  · simp only [List.mem_append, List.mem_singleton] at hv
    rcases hv with (hv | hv) | hv
    · exact hv
    · cases void <;> simp [hk] at hv
    · cases hv
  · simp only [List.cons_append, List.mem_cons, List.mem_append, List.not_mem_nil, or_false] at hv
    rcases hv with hv | hv | hv | hv | hv
    · cases hv
    · cases hp _ hv
    · exact absurd hv (hk caught)
    · cases hv
    · cases hv

theorem Flowed.address {cs : List Chunk} (h : Flowed ctx calls b s cs t) {c : Chunk} (hc : c ∈ cs)
    (hv : Item.address v ∈ c.code) : s.Fresh t v := by
  cases h with
  | ret =>
    obtain rfl := List.mem_singleton.mp hc
    simp at hv
  | stop =>
    obtain rfl := List.mem_singleton.mp hc
    simp at hv
  | jump =>
    obtain rfl := List.mem_singleton.mp hc
    simp [Chunk.jump] at hv
  | @test arms x cases fallback code direct _ hf hg hw ht hd ha =>
    rcases List.mem_cons.mp hc with rfl | hc
    · exact hw.registers _ hv v rfl
    · rcases List.mem_append.mp hc with hc | hc
      · rcases hd with ⟨rfl, -⟩ | ⟨target, args, rfl, -⟩
        · cases hc
        · obtain rfl := List.mem_singleton.mp hc
          simp [Chunk.jump] at hv
      · exact absurd hv (address_not_mem_arms hc)
  | @protect risky success failure result caught chunk type capture done failed s₁ s₂ s₃ s₄ _ hf
      hr hcaught hl ha hk hvoid hh =>
    rcases List.mem_append.mp hc with hc | hc
    · obtain ⟨ht, hplain, -⟩ := capture_cases hh
      have hcode := address_of_guarded hplain hc hv
      exact (((hr.1.trans hcaught.1).trans hl).fresh (hk.wrote.registers _ hcode v rfl)).mono ht
    · exact absurd hv (address_not_mem_arms hc)

theorem address_of_listed {es : List (Value × Chunk)} {vs : List Value}
    (h : Chained (Listed ctx calls) s vs es t) {e : Value × Chunk} (he : e ∈ es)
    (hv : Item.address v ∈ e.2.code) : s.Fresh t v := by
  obtain ⟨w, -, s', t', ⟨-, i, -, -, -, hl, -⟩, hs, -, ht⟩ := h.mem he
  exact (hs.fresh (hl.wrote.registers _ hv v rfl)).mono ht

theorem Planned.address {q : Plan} (h : Planned ctx calls s b q t) {c : Chunk} (hc : c ∈ q.chunks)
    (hv : Item.address v ∈ c.code) : s.Fresh t v := by
  obtain ⟨m, hi, hf⟩ := h.chunks
  rcases List.mem_append.mp hc with hc | hc
  · obtain ⟨e, he, rfl⟩ := List.mem_map.mp hc
    exact (address_of_listed hi he hv).mono hf.grows
  · exact hi.grows.fresh (hf.address hc hv)

theorem address_of_chain {bs : List Block} {qs : List Plan}
    (h : Chained (Planned ctx calls) s bs qs t) {q : Plan} (hq : q ∈ qs) {c : Chunk}
    (hc : c ∈ q.chunks) (hv : Item.address v ∈ c.code) : s.Fresh t v := by
  obtain ⟨b, -, s', t', hp, hs, -, ht⟩ := h.mem hq
  exact (hs.fresh (hp.address hc hv)).mono ht

end Addresses

section Finished

variable {ctx : Context} {calls : Opcode → Method → Prop} {entry : Block} {symbols : Symbols}
  {plans : List Plan} {t : Selection} {q : Plan} {v : Value}

theorem Finished.address (h : Finished ctx calls entry symbols plans t) (hq : q ∈ plans) {c : Chunk}
    (hc : c ∈ q.chunks) (hv : Item.address v ∈ c.code) : ctx.graph.values.size ≤ v.id :=
  (address_of_chain h.chain hq hc hv).after

theorem Finished.flow_apart (h : Finished ctx calls entry symbols plans t) (hq : q ∈ plans) :
    ∃ s' t', Flowed ctx calls q.block s' q.flow t'
      ∧ (Selection.start ctx.graph symbols).Grows s' ∧ t'.Grows t
      ∧ ∀ v, s'.nextValue ≤ v.id → v.id < t'.nextValue →
        ∀ r ∈ plans, ∀ c ∈ r.chunks, Item.address v ∈ c.code → c ∈ q.flow := by
  obtain ⟨xs, ys, hplans⟩ := List.append_of_mem hq
  obtain ⟨b, bs₁, bs₂, s', t', hbefore, hplan, hafter⟩ := h.chain.split hplans
  obtain rfl := hplan.block
  obtain ⟨m, hi, hf⟩ := hplan.chunks
  have hm := hi.grows
  have hs := hbefore.grows
  refine ⟨m, t', hf, hs.trans hm, hafter.grows, ?_⟩
  intro v hlow hhigh r hr c hc hv
  rw [hplans] at hr
  have hsm := hm.nextValue
  rcases List.mem_append.mp hr with hr | hr
  · have := (address_of_chain hbefore hr hc hv).before
    omega
  · rcases List.mem_cons.mp hr with rfl | hr
    · rcases List.mem_append.mp hc with hc | hc
      · obtain ⟨e, he, rfl⟩ := List.mem_map.mp hc
        have := (address_of_listed hi he hv).before
        omega
      · exact hc
    · have := (address_of_chain hafter hr hc hv).after
      omega

end Finished

end StackCode
