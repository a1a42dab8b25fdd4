import StackCode.Proofs.Switches

namespace StackCode

open Machine (Opcode Ref)

namespace Select

section Protected

variable {ctx : Context} {calls : Opcode → Method → Prop} {b : Block} {s t u : Selection}
  {fault : CompileError → Prop}

theorem meets_temporaryIf (needed : Bool) (type : Ty) : Meets same (temporaryIf needed type) s
    (fun v t => Outcome s v t ∧ v.isSome = needed) fault := by
  unfold temporaryIf
  cases needed with
  | false => exact meets_pure ⟨⟨.refl _, by simp⟩, rfl⟩ fun _ => rfl
  | true =>
    refine (meets_temporary type).map (fun _ _ => rfl) ?_
    rintro v t hst ⟨-, hv⟩
    refine ⟨⟨hst, ?_⟩, rfl⟩
    rintro w ⟨⟩
    exact hv

theorem wrote_keep {v : Option Value} (h : Outcome s v t) : Wrote s t [keep v] := by
  cases v with
  | none => exact wrote_calm rfl
  | some v => exact wrote_register rfl (h.2 v rfl)

theorem keep_rename (v : Option Value) (f : Ref → Ref) : (keep v).rename f = keep v := by
  cases v <;> rfl

theorem meets_handler {caught : Option Value} {l : Label} (hc : calls .call ctx.env.capture) :
    Meets Chunk.rename (handler ctx caught l) s
      (fun c t => ∃ type capture,
        c = ⟨.handlerStart type :: capture ++ [keep caught, .jump .leave l, .handlerEnd], []⟩
          ∧ t.symbols.type? type = some ctx.env.caught ∧ Glued capture
          ∧ (caught = none ∧ capture = [] ∧ s.Grows t
            ∨ caught.isSome = true
              ∧ Straight calls s 1 (ctx.env.capture.left .call) capture t)) fault := by
  unfold handler
  cases caught with
  | none =>
    refine (meets_typeRef ctx.env.caught).map (fun _ _ => rfl) fun type t hst htype => ?_
    exact ⟨type, [], rfl, htype, glued_calm rfl, .inl ⟨rfl, rfl, hst⟩⟩
  | some v =>
    refine Meets.map₂ (q := Item.rename) (g := fun type i => Chunk.mk
      (.handlerStart type :: [i] ++ [keep (some v), .jump .leave l, .handlerEnd]) [])
      (meets_typeRef ctx.env.caught) (fun _ _ _ => rfl) fun type t hst htype => ?_
    refine (meets_methodCall (by simp) hc).mono fun i u _ h => ?_
    exact ⟨type, [i], rfl, h.grows.types htype, h.glued,
      .inr ⟨rfl, hst.trans h.grows, h.plain, h.glued, h.height⟩⟩

theorem sends_boundArgs {g : Graph} {result caught : Option Value} {br : Branch}
    (hb : br ∈ b.flow.branches)
    (ht : ∃ t, g.block? br.target = some t ∧ br.args.length = t.parameters.length)
    (hr : .result ∈ br.args → result.isSome = true)
    (hc : .exception ∈ br.args → caught.isSome = true) :
    b.Sends g result caught br.target (boundArgs result caught br) := by
  obtain ⟨t, ht, hl⟩ := ht
  refine ⟨br, hb, t, ht, rfl, rfl, Eq.trans ?_ hl⟩
  refine List.filterMap_length_eq_length.mpr ?_
  intro a ha
  cases a with
  | value v => rfl
  | result => exact hr ha
  | exception => exact hc ha

theorem boundArgs_congr {result caught result' caught' : Option Value} {br : Branch}
    (hr : .result ∈ br.args → result = result') (hc : .exception ∈ br.args → caught = caught') :
    boundArgs result caught br = boundArgs result' caught' br := by
  refine List.filterMap_congr ?_
  intro a ha
  cases a with
  | value v => rfl
  | result => exact hr ha
  | exception => exact hc ha

theorem keeps_of_mark {g : Graph} {br : Branch} {m : Mark} {mark : BranchArg}
    (ht : ∃ t, g.block? br.target = some t ∧ br.args.length = t.parameters.length)
    (hm : mark.mark? = some m) (ha : ∀ x ∈ br.args, x.value?.isSome = true ∨ x = mark) :
    br.Keeps g (some m) := by
  refine ⟨ht, fun x hx m' hm' => ?_⟩
  rcases ha x hx with hv | rfl
  · cases ((isSome_value?_iff x).mp hv) m' hm'
  · exact hm.symm.trans hm'

theorem value_or_mark {br : Branch} (mark : BranchArg) {other : BranchArg}
    (hm : ∀ x : BranchArg, x.value?.isSome = true ∨ x = mark ∨ x = other) (h : other ∉ br.args) :
    ∀ x ∈ br.args, x.value?.isSome = true ∨ x = mark := by
  intro x hx
  rcases hm x with hv | hx' | rfl
  · exact .inl hv
  · exact .inr hx'
  · exact absurd hx h

theorem map_kept_rename (void : Bool) (v : Option Value) (f : Ref → Ref) :
    (if void then [] else [keep v]).map (Item.rename f) = if void then [] else [keep v] := by
  cases void with
  | true => rfl
  | false => exact congrArg (· :: []) (keep_rename v f)

section Outcomes

variable {risky : Instr} {success failure : Branch} {result caught : Option Value}
  {s₁ s₂ s₃ s₄ : Selection}

theorem written_protected {chunk : Chunk} {void : Bool} {type : Ref} {capture : List Item}
    (done failed : Arm) (hr : Outcome s result s₁) (hc : Outcome s₁ caught s₂) (hl : s₂.Grows s₃)
    (hchunk : Wrote s₃ s₄ chunk.code) (h₄ : s₃.Grows s₄) (ht : s₄.Grows t)
    (hcapture : Wrote s t capture) (hd : s.nextLabel ≤ done.label.id)
    (hf : s.nextLabel ≤ failed.label.id) :
    Written s t (guardedChunks chunk (if void then [] else [keep result]) type capture caught
      done.label failed.label ++ [done, failed].flatMap Arm.chunks) := by
  have h₃ := (hr.1.trans hc.1).trans hl
  have h₂ := hl.trans (h₄.trans ht)
  have hkept : Wrote s t (if void then [] else [keep result]) := by
    split
    · exact wrote_calm rfl
    · exact (wrote_keep hr).mono (hc.1.trans h₂)
  have hcaught : Wrote s t [keep caught] := (hr.1.wrote (wrote_keep hc)).mono h₂
  have hstart : Wrote s t [.handlerStart type] := wrote_calm rfl
  have hend : Wrote s t [.jump .leave failed.label, .handlerEnd] := wrote_calm rfl
  refine List.forall_mem_append.mpr ⟨?_, ?_⟩
  · rw [guardedChunks, List.forall_mem_cons, List.forall_mem_cons, List.forall_mem_singleton]
    exact ⟨wrote_calm rfl, (((h₃.wrote hchunk).mono ht).append hkept).append (wrote_calm rfl),
      (hstart.append hcapture).append (hcaught.append hend)⟩
  · simp only [List.flatMap_cons, List.flatMap_nil, List.append_nil, Arm.chunks, List.cons_append,
      List.nil_append, List.forall_mem_cons, List.not_mem_nil, false_imp_iff, implies_true,
      and_true]
    exact ⟨wrote_label hd, wrote_calm rfl, wrote_label hf, wrote_calm rfl⟩

theorem arms_protected (hf : b.flow = .protect risky success failure)
    (hts : ∃ t, ctx.graph.block? success.target = some t
      ∧ success.args.length = t.parameters.length)
    (htf : ∃ t, ctx.graph.block? failure.target = some t
      ∧ failure.args.length = t.parameters.length)
    (hse : .exception ∉ success.args) (hfr : .result ∉ failure.args)
    (hres : .result ∈ success.args → result.isSome = true)
    (hexc : .exception ∈ failure.args → caught.isSome = true) :
    Arms ctx.graph b result caught s
      [⟨⟨s.nextLabel⟩, success.target, boundArgs result caught success⟩,
        ⟨⟨s.nextLabel + 1⟩, failure.target, boundArgs result caught failure⟩]
      { s with nextLabel := s.nextLabel + 1 + 1 } := by
  have hb : success ∈ b.flow.branches ∧ failure ∈ b.flow.branches := by
    rw [hf]
    exact ⟨List.mem_cons_self, List.mem_cons_of_mem _ List.mem_cons_self⟩
  refine ⟨?_, ?_, ?_⟩
  · -- Each branch carries only the outcome of its own side, for which a scratch value was drawn.
    rw [List.forall_mem_cons, List.forall_mem_singleton]
    exact ⟨sends_boundArgs hb.1 hts hres fun h => absurd h hse,
      sends_boundArgs hb.2 htf (fun h => absurd h hfr) hexc⟩
  · rw [List.forall_mem_cons, List.forall_mem_singleton]
    exact ⟨⟨Nat.le_refl _, Nat.lt_succ_of_lt (Nat.lt_succ_self _)⟩, Nat.le_succ _,
      Nat.lt_succ_self _⟩
  · simp

end Outcomes

theorem meets_protect {risky : Instr} {success failure : Branch}
    (hf : b.flow = .protect risky success failure)
    (hc : ∀ e ∈ risky.operation.calls ctx.env, calls e.1 e.2)
    (hcapture : calls .call ctx.env.capture) :
    Meets (each Chunk.rename) (protect ctx b risky success failure) s
      (fun cs t => Written s t cs ∧ success.Keeps ctx.graph (some .result)
        ∧ failure.Keeps ctx.graph (some .exception)
        ∧ (ctx.graph.Valid → risky.Valid ctx.graph → Flowed ctx calls b s cs t))
      (·.isRefusal = true) := by
  unfold protect
  refine meets_guard rfl fun hse => meets_guard rfl fun hfr => ?_
  rw [List.contains_iff_mem] at hse hfr
  refine Meets.bind meets_checkArity ?_
  rintro - t - ⟨rfl, hts⟩
  refine Meets.bind meets_checkArity ?_
  rintro - t' - ⟨rfl, htf⟩
  refine meets_guard rfl fun hvoid => ?_
  refine (meets_temporaryIf _ _).bind ?_
  rintro result s₁ h₁ ⟨hr, hneed⟩
  refine (meets_temporaryIf _ _).bind ?_
  rintro caught s₂ h₂ ⟨hk, hcaught⟩
  refine meets_label.bind ?_
  rintro done s₃ h₃ ⟨rfl, rfl⟩
  refine meets_label.bind ?_
  rintro failed s₄ h₄ ⟨rfl, rfl⟩
  refine (meets_instr hc).map₂ (q := Chunk.rename) ?_ ?_
  · intro f chunk handling
    simp only [each, List.map_cons, Chunk.rename, List.map_append, map_kept_rename]
    rfl
  intro chunk s₅ h₅ hchunk
  refine (meets_handler hcapture).mono ?_
  rintro handling u h₆ ⟨type, capture, rfl, htype, hglued, hh⟩
  have hres : .result ∈ success.args → result.isSome = true := by
    intro h
    rw [hneed, List.contains_iff_mem.mpr h]
  have hexc : .exception ∈ failure.args → caught.isSome = true := by
    intro h
    rw [hcaught, List.contains_iff_mem.mpr h]
  have hsmark := value_or_mark .result
    (by rintro (_ | _ | _) <;> simp [BranchArg.value?]) hse
  have hfmark := value_or_mark .exception
    (by rintro (_ | _ | _) <;> simp [BranchArg.value?]) hfr
  have hlabel := (h₁.trans h₂).nextLabel
  have h₄ := h₃.trans h₄
  refine ⟨?_, keeps_of_mark hts rfl hsmark, keeps_of_mark htf rfl hfmark, fun hg hi => ?_⟩
  · exact written_protected ⟨⟨s₂.nextLabel⟩, _, _⟩ ⟨⟨s₂.nextLabel + 1⟩, _, _⟩ hr hk h₄ hchunk.wrote
      h₅ h₆ (wrote_plain (capture_cases hh).2.1 hglued) hlabel (hlabel.trans (Nat.le_succ _))
  refine .protect hf hr hk h₄ (arms_protected hf hts htf hse hfr hres hexc)
    (hchunk.lowered hg hi) ?_ hh ⟨?_, ?_, ?_⟩ ⟨⟨rfl, hres, hsmark⟩, rfl, hexc, hfmark⟩ htype
    hchunk.raises
  · intro hsome
    rw [hneed] at hsome
    rw [hsome, Bool.true_and, Bool.not_eq_true] at hvoid
    exact hvoid
  · exact boundArgs_congr (fun _ => rfl) fun h => absurd h hse
  · exact boundArgs_congr (fun h => absurd h hfr) fun _ => rfl
  · intro hsome
    rw [hcaught] at hsome
    exact List.contains_iff_mem.mp hsome

end Protected

end Select

def Flow.edges : Flow → List (MarkScope × Branch)
  | .protect _ success failure => [(some .result, success), (some .exception, failure)]
  | f => f.branches.map (none, ·)

def Flow.Tabulates (ctx : Context) (s : Selection) (f : Flow) : Prop :=
  ∃ v cases fallback type keys lo hi, f = .switch v cases fallback
    ∧ Tabulated ctx s v cases fallback type keys lo hi ∧ type.Shifts lo

namespace Select

variable {ctx : Context} {calls : Opcode → Method → Prop} {b : Block} {s : Selection}

structure Routed (ctx : Context) (calls : Opcode → Method → Prop) (b : Block) (s : Selection)
    (cs : List Chunk) (t : Selection) : Prop where
  written : Written s t cs
  flowed : ctx.graph.Valid → b.flow.Valid ctx.graph → ctx.graph.blocks.size ≤ s.nextLabel →
    Flowed ctx calls b s cs t
  keeps : (∀ e ∈ b.flow.edges, e.2.Keeps ctx.graph e.1) ∨ b.flow.Tabulates ctx s

theorem not_tabulates_of_ne {f : Flow} (h : ∀ v cases fallback, f ≠ .switch v cases fallback) :
    ¬f.Overflows ctx s ∧ ¬f.Tabulates ctx s := by
  constructor
  · rintro ⟨v, cases, fallback, -, -, -, -, hf, -⟩
    exact h v cases fallback hf
  · rintro ⟨v, cases, fallback, -, -, -, -, hf, -⟩
    exact h v cases fallback hf

theorem Declined.flow {v : Value} {cases : List Case} {fallback : Branch} {e : CompileError}
    (h : Declined ctx s v cases fallback e) :
    e.isRefusal = true ∧ ¬(Flow.switch v cases fallback).Overflows ctx s
        ∧ ¬(Flow.switch v cases fallback).Tabulates ctx s
      ∨ e = .crash .keySpan ∧ (Flow.switch v cases fallback).Overflows ctx s := by
  rcases h with ⟨he, hn⟩ | ⟨he, type, keys, lo, hi, hk, hw⟩
  · refine .inl ⟨he, ?_, ?_⟩
    · rintro ⟨_, _, _, type, keys, lo, hi, hf, hk, hw⟩
      obtain ⟨rfl, rfl, rfl⟩ := Flow.switch.inj hf
      exact absurd hw (not_le.mpr (hn _ _ _ _ hk).1)
    · rintro ⟨_, _, _, type, keys, lo, hi, hf, ht⟩
      obtain ⟨rfl, rfl, rfl⟩ := Flow.switch.inj hf
      exact (hn _ _ _ _ ht.1.toKeyed).2 ht
  · exact .inr ⟨he, v, cases, fallback, type, keys, lo, hi, rfl, hk, hw⟩

theorem meets_flow (hc : ∀ i, b.flow.risky? = some i → ∀ e ∈ i.operation.calls ctx.env,
    calls e.1 e.2) (hcapture : calls .call ctx.env.capture) :
    Meets (each Chunk.rename) (flow ctx b) s (Routed ctx calls b s)
      (fun e => e.isRefusal = true ∧ ¬b.flow.Overflows ctx s ∧ ¬b.flow.Tabulates ctx s
        ∨ e = .crash .keySpan ∧ b.flow.Overflows ctx s) := by
  unfold flow
  split
  · rename_i v hf
    refine meets_pure ⟨List.forall_mem_singleton.mpr (wrote_calm rfl), fun _ _ _ => .ret hf,
      .inl ?_⟩ fun _ => rfl
    rw [hf]
    exact List.forall_mem_nil _
  · rename_i br hf
    refine Meets.map (Meets.weaken meets_plainArgs
      fun e he => .inl ⟨he.1, not_tabulates_of_ne ?_⟩) (fun _ _ => rfl) ?_
    · rw [hf]
      exact nofun
    rintro args t - ⟨rfl, hk, ha⟩
    refine ⟨List.forall_mem_singleton.mpr (wrote_calm rfl),
      fun _ _ _ => .jump (hk.sends ?_ ha) ?_ ?_, .inl ?_⟩
    · rw [hf]
      exact List.mem_cons_self
    · rw [hf]
      rfl
    · rw [hf, ← values_of_args ha]
      rfl
    · rw [hf]
      exact List.forall_mem_singleton.mpr hk
  · rename_i hf
    refine meets_pure ⟨List.forall_mem_cons.mpr ⟨wrote_calm rfl, List.forall_mem_nil _⟩,
      fun _ _ _ => .stop hf, .inl ?_⟩ fun _ => rfl
    rw [hf]
    exact List.forall_mem_nil _
  · rename_i v cases fallback hf
    refine Meets.mono (Meets.weaken meets_switch fun e he => ?_) ?_
    · rw [hf]
      exact he.1.flow
    · rintro cs t hst ⟨args, hk, ha, h⟩
      refine ⟨h.written, fun _ hv hsize => h.flowed hst hk ha hf hv hsize, (h.keeps hk).imp ?_ ?_⟩
      · rw [hf]
        intro hall e he
        obtain ⟨br, hbr, rfl⟩ := List.mem_map.mp he
        exact hall br hbr
      · rintro ⟨type, keys, lo, hi, ht⟩
        exact ⟨v, cases, fallback, type, keys, lo, hi, hf, ht⟩
  · rename_i risky success failure hf
    refine Meets.mono (Meets.weaken (meets_protect hf (hc _ (by rw [hf]; rfl)) hcapture)
      fun e he => .inl ⟨he, not_tabulates_of_ne ?_⟩) ?_
    · rw [hf]
      exact nofun
    · rintro cs t - ⟨hw, hs, hx, h⟩
      refine ⟨hw, fun hg hv _ => h hg (hv.risky _ _ _ hf), .inl ?_⟩
      rw [hf]
      exact List.forall_mem_cons.mpr ⟨hs, List.forall_mem_singleton.mpr hx⟩

end Select

end StackCode
