import Mathlib.Order.Bounds.Basic
import StackCode.Proofs.Flows

namespace StackCode

open Machine (Opcode Ref)

/-- The label that a branch of a jump table gets: its target, or the new label `n` if there are
arguments to push. -/
def Branch.label (br : Branch) (n : Nat) : Label :=
  if br.args = [] then br.target else ⟨n⟩

def Branch.after (br : Branch) (n : Nat) : Nat :=
  if br.args = [] then n else n + 1

theorem le_after (br : Branch) (n : Nat) : n ≤ br.after n := by
  rw [Branch.after]
  split <;> omega

namespace Select

section Tests

variable {ctx : Context} {calls : Opcode → Method → Prop} {b : Block} {s t u : Selection}
  {v : Value} {c : Constant} {branch fallback : Branch} {args fallbackArgs : List Value}
  {code : List Item}

structure Comparison (s : Selection) (target : Label) (code : List Item)
    (t : Selection) : Prop where
  grows : s.Grows t
  wrote : Wrote s t code
  tests : ∀ shape (ok : Label → Prop), ok target → Tests shape ok code 1

def compareCode (type : Ty) (k : Int) (whenEqual : Bool) (l : Label) :
    Except CompileError (List Item) :=
  if type.isBool = true ∧ (k = 0 ∨ k = 1) then
    .ok [.jump (if (k = 1) = (whenEqual = true) then .brtrue else .brfalse) l]
  else (pushInt k type).map fun is => is.map .op ++ [.jump (if whenEqual then .beq else .bneUn) l]

theorem Pushes.comparison (h : Pushes s code t) (whenEqual : Bool) (target : Label) :
    Comparison s target (code ++ [.jump (if whenEqual then .beq else .bneUn) target]) t := by
  refine ⟨h.grows, h.wrote.append ?_, fun shape ok hok => ?_⟩
  · cases whenEqual <;> exact wrote_calm rfl
  · refine tests_of_height (height_frame (h.height shape) 1) ?_
    cases whenEqual <;> exact ⟨rfl, rfl, hok, rfl⟩

theorem meets_compare (type : Ty) (c : Constant) (whenEqual : Bool) (target : Label) :
    Meets (each Item.rename) (compare type c whenEqual target) s
      (fun code t => Comparison s target code t
        ∧ ∀ k, c = .int k → compareCode type k whenEqual target = .ok code)
      (fun e => e.isRefusal = true
        ∧ ∀ k, c = .int k → ∀ code, compareCode type k whenEqual target ≠ .ok code) := by
  unfold compare
  dsimp only
  split
  · rename_i hbit
    refine meets_pure ⟨⟨.refl _, wrote_calm ?_, fun shape ok h => ?_⟩, ?_⟩ fun _ => rfl
    · split <;> rfl
    · split <;> exact ⟨rfl, rfl, h, rfl⟩
    · rintro k rfl
      rw [compareCode, if_pos (by simpa [Constant.int?] using hbit)]
      simp [Constant.int?]
  · rename_i hbit
    by_cases hc : ∃ k, c = .int k
    · obtain ⟨k, rfl⟩ := hc
      have hcode : compareCode type k whenEqual target = (pushInt k type).map
          fun is => is.map .op ++ [.jump (if whenEqual then .beq else .bneUn) target] :=
        if_neg (by simpa [Constant.int?] using hbit)
      refine Meets.bind ((meets_pushInt k type).weaken fun e he => ⟨he.1, ?_⟩) ?_
      · rintro _ ⟨⟩ code hok
        rw [hcode, he.2] at hok
        cases hok
      · rintro _ t - ⟨rfl, is, his, hl, rfl⟩
        refine meets_pure ⟨Pushes.comparison hl.pushes whenEqual target, ?_⟩ fun f => ?_
        · rintro _ ⟨⟩
          rw [hcode, his]
          rfl
        · rw [each, List.map_append, map_op_rename, hl.computes.rename]
          rfl
    · refine Meets.map ((meets_pushConstant c type).weaken fun e he => ⟨he, ?_⟩)
        (fun f code => List.map_append) fun code t _ h => ⟨Pushes.comparison h whenEqual target, ?_⟩
      · exact fun k hk => absurd ⟨k, hk⟩ hc
      · exact fun k hk => absurd ⟨k, hk⟩ hc

def testTarget (s : Selection) (branch fallback : Branch) : Label :=
  if branch.args = [] then branch.target else fallback.label s.nextLabel

def testChunks (s : Selection) (v : Value) (branch fallback : Branch)
    (args fallbackArgs : List Value) (code : List Item) : List Chunk :=
  ⟨code, [v]⟩ :: if branch.args = [] then [.jump fallback.target fallbackArgs]
    else .jump branch.target args :: if fallback.args = [] then []
      else [.label (fallback.label s.nextLabel), .jump fallback.target fallbackArgs]

structure Tested (ctx : Context) (s : Selection) (v : Value) (c : Constant)
    (branch fallback : Branch) (args : List Value) (code : List Item) (t : Selection) : Prop where
  keeps : branch.Keeps ctx.graph none
  passed : branch.args = args.map .value
  compared : ∃ type, ctx.type? s v = some type ∧ ∀ k, c = .int k →
    compareCode type k (branch.args = []) (testTarget s branch fallback) = .ok code
  comparison : Comparison s (testTarget s branch fallback) code t
  room : branch.args ≠ [] → fallback.after s.nextLabel ≤ t.nextLabel

def Testable (ctx : Context) (s : Selection) (v : Value) (k : Int)
    (branch fallback : Branch) : Prop :=
  branch.Keeps ctx.graph none ∧ ∃ type code, ctx.type? s v = some type
    ∧ compareCode type k (branch.args = []) (testTarget s branch fallback) = .ok code

theorem meets_tested {type : Ty} (hk : branch.Keeps ctx.graph none)
    (ha : branch.args = args.map .value) (htype : ctx.type? s v = some type) (hst : s.Grows t)
    {whenEqual : Bool} {target : Label} (hw : whenEqual = decide (branch.args = []))
    (ht : target = testTarget s branch fallback)
    (hroom : branch.args ≠ [] → fallback.after s.nextLabel ≤ t.nextLabel) :
    Meets (each Item.rename) (compare type c whenEqual target) t
      (fun code u => Tested ctx s v c branch fallback args code u)
      (fun e => e.isRefusal = true ∧ ∀ k, c = .int k → ¬Testable ctx s v k branch fallback) := by
  subst hw ht
  refine Meets.mono (Meets.weaken (meets_compare type c _ _) fun e he => ⟨he.1, ?_⟩) ?_
  · rintro k hk ⟨-, type', code, htype', hcode⟩
    obtain rfl := Option.some.inj (htype.symm.trans htype')
    exact he.2 k hk code hcode
  · rintro code u htu ⟨h, hcode⟩
    refine ⟨hk, ha, ⟨type, htype, hcode⟩, ⟨hst.trans h.grows, hst.wrote h.wrote, h.tests⟩, ?_⟩
    exact fun hne => Nat.le_trans (hroom hne) htu.nextLabel

theorem meets_ifElse (hfa : fallback.args = fallbackArgs.map .value) :
    Meets (each Chunk.rename) (ifElse ctx b v c branch fallback fallbackArgs) s
      (fun cs t => ∃ args code, Tested ctx s v c branch fallback args code t
        ∧ cs = testChunks s v branch fallback args fallbackArgs code)
      (fun e => e.isRefusal = true ∧ ∀ k, c = .int k → ¬Testable ctx s v k branch fallback) := by
  unfold ifElse
  refine Meets.bind (meets_plainArgs.weaken fun e he => ⟨he.1, fun k _ h => he.2 h.1⟩) ?_
  rintro args t - ⟨rfl, hk, ha⟩
  refine Meets.bind (meets_valueType fun hnone => ⟨rfl, ?_⟩) ?_
  · rintro k - ⟨-, type, code, htype, -⟩
    rw [hnone] at htype
    cases htype
  rintro type t' - ⟨rfl, htype⟩
  have hempty : args.isEmpty = true ↔ branch.args = [] := by
    rw [ha, List.map_eq_nil_iff, List.isEmpty_iff]
  have hempty' : fallbackArgs.isEmpty = true ↔ fallback.args = [] := by
    rw [hfa, List.map_eq_nil_iff, List.isEmpty_iff]
  split
  · rename_i he
    rw [hempty] at he
    refine (meets_tested hk ha htype (.refl _) (decide_eq_true he).symm (if_pos he).symm ?_).map
      (fun _ _ => rfl) fun code u _ h => ⟨args, code, h, ?_⟩
    · exact fun hne => absurd he hne
    · rw [testChunks, if_pos he]
  · rename_i he
    rw [hempty] at he
    split
    · rename_i he'
      rw [hempty'] at he'
      refine (meets_tested hk ha htype (.refl _) (decide_eq_false he).symm ?_ ?_).map
        (fun _ _ => rfl) fun code u _ h => ⟨args, code, h, ?_⟩
      · rw [testTarget, if_neg he, Branch.label, if_pos he']
      · exact fun _ => (if_pos he').le
      · rw [testChunks, if_neg he, if_pos he']
    · rename_i he'
      rw [hempty'] at he'
      refine Meets.bind meets_label ?_
      rintro l u htu ⟨rfl, rfl⟩
      refine (meets_tested hk ha htype htu (decide_eq_false he).symm ?_ ?_).map
        (fun _ _ => rfl) fun code u _ h => ⟨args, code, h, ?_⟩
      · rw [testTarget, if_neg he, Branch.label, if_neg he']
      · exact fun _ => (if_neg he').le
      · rw [testChunks, if_neg he, if_neg he', Branch.label, if_neg he']

theorem Tested.written (h : Tested ctx s v c branch fallback args code t) :
    Written s t (testChunks s v branch fallback args fallbackArgs code) := by
  have hjump (target : Label) (args : List Value) : Wrote s t (Chunk.jump target args).code :=
    wrote_calm rfl
  rw [testChunks, Written, List.forall_mem_cons]
  refine ⟨h.comparison.wrote, ?_⟩
  split
  · exact List.forall_mem_singleton.mpr (hjump _ _)
  · rw [List.forall_mem_cons]
    refine ⟨hjump _ _, ?_⟩
    split
    · simp
    · rename_i hne
      rw [List.forall_mem_cons, List.forall_mem_singleton]
      exact ⟨wrote_label (by rw [Branch.label, if_neg hne]), hjump _ _⟩

theorem Tested.flowed (h : Tested ctx s v c branch fallback args code t)
    (hk : fallback.Keeps ctx.graph none) (hfa : fallback.args = fallbackArgs.map .value)
    (hf : b.flow = .switch v [⟨[c], branch⟩] fallback) :
    Flowed ctx calls b s (testChunks s v branch fallback args fallbackArgs code) t := by
  have hlegs : b.flow.legs = if branch.args = [] then [fallback]
      else if fallback.args = [] then [branch] else [branch, fallback] := by
    simp only [hf, Flow.legs, List.isEmpty_iff]
  have hb : branch ∈ b.flow.branches := by
    rw [hf]
    exact List.mem_cons_self
  have hfb : fallback ∈ b.flow.branches := by
    rw [hf]
    exact List.mem_cons_of_mem _ List.mem_cons_self
  have hsend := h.keeps.sends hb h.passed
  have hfsend := hk.sends hfb hfa
  have hpass : branch.passes = (branch.target, args) := by
    rw [Branch.passes, values_of_args h.passed]
  have hfpass : fallback.passes = (fallback.target, fallbackArgs) := by
    rw [Branch.passes, values_of_args hfa]
  have htests := h.comparison.tests
  by_cases he : branch.args = []
  · rw [if_pos he] at hlegs
    rw [testTarget, if_pos he] at htests
    rw [testChunks, if_pos he]
    refine .test [] hf h.comparison.grows h.comparison.wrote (fun shape => htests shape _ (.inr ?_))
      (.inr ⟨_, _, rfl, hfsend⟩) ⟨by simp, by simp, by simp⟩ (by rw [hlegs]; simp [hfpass]; rfl)
    rw [List.map_eq_nil_iff.mp (h.passed.symm.trans he)] at hsend
    exact hsend.reaches
  · rw [if_neg he] at hlegs
    rw [testTarget, if_neg he] at htests
    rw [testChunks, if_neg he]
    by_cases he' : fallback.args = []
    · rw [if_pos he'] at hlegs
      rw [Branch.label, if_pos he'] at htests
      rw [if_pos he']
      refine .test [] hf h.comparison.grows h.comparison.wrote
        (fun shape => htests shape _ (.inr ?_))
        (.inr ⟨_, _, rfl, hsend⟩) ⟨by simp, by simp, by simp⟩ (by rw [hlegs]; simp [hpass]; rfl)
      rw [List.map_eq_nil_iff.mp (hfa.symm.trans he')] at hfsend
      exact hfsend.reaches
    · rw [if_neg he'] at hlegs
      rw [if_neg he']
      have hroom := h.room he
      rw [Branch.after, if_neg he'] at hroom
      refine .test [⟨fallback.label s.nextLabel, fallback.target, fallbackArgs⟩] hf
        h.comparison.grows h.comparison.wrote
        (fun shape => htests shape _ (.inl ⟨_, List.mem_cons_self, rfl⟩)) (.inr ⟨_, _, rfl, hsend⟩)
        ⟨by simpa using hfsend, ?_, by simp⟩ (by rw [hlegs]; simp [hpass, hfpass]; rfl)
      rw [List.forall_mem_singleton, Branch.label, if_neg he']
      exact ⟨Nat.le_refl _, hroom⟩

end Tests

end Select

def caseEntries (n : Nat) : List Case → List (Case × Label)
  | [] => []
  | c :: cases => (c, c.branch.label n) :: caseEntries (c.branch.after n) cases

def casesAfter (n : Nat) : List Case → Nat
  | [] => n
  | c :: cases => casesAfter (c.branch.after n) cases

def entryChunks (e : Case × Label) : List Chunk :=
  if e.2 = e.1.branch.target then []
  else [.label e.2, .jump e.1.branch.target e.1.branch.values]

def shiftCode (t : Ty) (lo : Int) : Except CompileError (List Machine.Instr) :=
  if lo = 0 then .ok [] else (pushInt lo t).map (· ++ [binary .sub])

def guardCode (t : Ty) (span : Int) (fallback : Label) (index : Value) : List Item :=
  if t.isWide then
    [.store index, .load index]
      ++ (if t.isWord then [ldcI4 span, plain (.conv .u)] else [ldcI8 span]).map .op
      ++ [.plain (.binary .cltUn), .jump .brfalse fallback, .load index, .plain (.conv .i4)]
  else []

def tableCode (s : Selection) (cases : List Case) (fallback : Branch) (type : Ty) (lo hi : Int)
    (shift : List Machine.Instr) : List Item :=
  let l := fallback.label s.nextLabel
  shift.map .op ++ guardCode type (hi - lo + 1) l ⟨s.nextValue⟩
    ++ [.switch (tableTargets (caseEntries (fallback.after s.nextLabel) cases) l lo (hi - lo + 1))]

def tableChunks (s : Selection) (v : Value) (cases : List Case) (fallback : Branch)
    (args : List Value) (type : Ty) (lo hi : Int) (shift : List Machine.Instr) : List Chunk :=
  ⟨tableCode s cases fallback type lo hi shift, [v]⟩
    :: ((if fallback.args = [] then [] else [Chunk.label (fallback.label s.nextLabel)])
      ++ .jump fallback.target args
        :: (caseEntries (fallback.after s.nextLabel) cases).flatMap entryChunks)

structure Keyed (ctx : Context) (s : Selection) (v : Value) (cases : List Case) (fallback : Branch)
    (type : Ty) (keys : List Int) (lo hi : Int) : Prop where
  form : Tabular cases
  otherwise : fallback.Keeps ctx.graph none
  typed : ctx.type? s v = some type
  switchable : type.isSwitchable = true
  constants : cases.flatMap Case.constants = keys.map .int
  distinct : keys.Nodup
  least : IsLeast {k | k ∈ keys} lo
  greatest : IsGreatest {k | k ∈ keys} hi

/-- A switch on dense keys, for which a jump table is written. Cases that go to their target
directly are taken as they are. -/
structure Tabulated (ctx : Context) (s : Selection) (v : Value) (cases : List Case)
    (fallback : Branch) (type : Ty) (keys : List Int) (lo hi : Int) : Prop
    extends Keyed ctx s v cases fallback type keys lo hi where
  dense : hi - lo + 1 ≤ 2 * keys.length
  small : hi - lo + 1 ≤ maxTable
  checked : ∀ e ∈ caseEntries (fallback.after s.nextLabel) cases,
    e.2 = e.1.branch.target ∨ e.1.branch.Keeps ctx.graph none

def Ty.Shifts (t : Ty) (lo : Int) : Prop :=
  ∃ shift, shiftCode t lo = .ok shift

def Flow.Overflows (ctx : Context) (s : Selection) (f : Flow) : Prop :=
  ∃ v cases fallback type keys lo hi, f = .switch v cases fallback
    ∧ Keyed ctx s v cases fallback type keys lo hi ∧ IntShape.constantMax ≤ hi - lo

section Entries

variable {n : Nat} {cases : List Case} {e : Case × Label}

theorem le_casesAfter (n : Nat) (cases : List Case) : n ≤ casesAfter n cases := by
  induction cases generalizing n with
  | nil => exact Nat.le_refl n
  | cons c cases ih => exact Nat.le_trans (le_after c.branch n) (ih _)

theorem mem_caseEntries (h : e ∈ caseEntries n cases) :
    e.1 ∈ cases ∧ (e.1.branch.args = [] ∧ e.2 = e.1.branch.target
      ∨ e.1.branch.args ≠ [] ∧ n ≤ e.2.id ∧ e.2.id < casesAfter n cases) := by
  induction cases generalizing n with
  | nil => cases h
  | cons c cases ih =>
    rcases List.mem_cons.mp h with rfl | h
    · refine ⟨List.mem_cons_self, ?_⟩
      by_cases hargs : c.branch.args = []
      · exact .inl ⟨hargs, if_pos hargs⟩
      · have := le_casesAfter (c.branch.after n) cases
        rw [Branch.after, if_neg hargs] at this
        refine .inr ⟨hargs, ?_⟩
        rw [Branch.label, if_neg hargs, casesAfter, Branch.after, if_neg hargs]
        exact ⟨Nat.le_refl n, this⟩
    · obtain ⟨hc, hl⟩ := ih h
      refine ⟨List.mem_cons_of_mem _ hc, hl.imp_right ?_⟩
      exact fun h => ⟨h.1, (le_after c.branch n).trans h.2.1, h.2.2⟩

theorem zip_caseEntries (n : Nat) (cases : List Case) :
    cases.zip ((caseEntries n cases).map Prod.snd) = caseEntries n cases := by
  induction cases generalizing n with
  | nil => rfl
  | cons c cases ih => rw [caseEntries, List.map_cons, List.zip_cons_cons, ih]

def caseArms (entries : List (Case × Label)) : List Arm :=
  entries.filterMap fun (c, l) =>
    if c.branch.args.isEmpty then none else some ⟨l, c.branch.target, c.branch.values⟩

theorem caseArms_cons (c : Case) (l : Label) (entries : List (Case × Label)) :
    caseArms ((c, l) :: entries) = if c.branch.args = [] then caseArms entries
      else ⟨l, c.branch.target, c.branch.values⟩ :: caseArms entries := by
  by_cases h : c.branch.args = [] <;> simp [caseArms, h]

theorem mem_caseArms {entries : List (Case × Label)} {a : Arm} :
    a ∈ caseArms entries ↔ ∃ c l, (c, l) ∈ entries ∧ c.branch.args ≠ []
      ∧ a = ⟨l, c.branch.target, c.branch.values⟩ := by
  rw [caseArms, List.mem_filterMap]
  constructor
  · rintro ⟨⟨c, l⟩, he, ha⟩
    dsimp only at ha
    split at ha
    · cases ha
    · rename_i hne
      exact ⟨c, l, he, fun h => hne (List.isEmpty_iff.mpr h), (Option.some.inj ha).symm⟩
  · rintro ⟨c, l, he, hne, rfl⟩
    refine ⟨(c, l), he, ?_⟩
    dsimp only
    rw [if_neg fun h => hne (List.isEmpty_iff.mp h)]

theorem passes_caseArms (n : Nat) (cases : List Case) :
    (caseArms (caseEntries n cases)).map Arm.passes
      = ((cases.map Case.branch).filter fun br => !br.args.isEmpty).map Branch.passes := by
  induction cases generalizing n with
  | nil => rfl
  | cons c cases ih =>
    have hrest := ih (c.branch.after n)
    rw [caseEntries, caseArms_cons, List.map_cons, List.filter_cons]
    by_cases hc : c.branch.args = []
    · simpa [hc] using hrest
    · simpa [hc, Arm.passes, Branch.passes] using hrest

theorem fresh_caseArms {a : Arm} (h : a ∈ caseArms (caseEntries n cases)) :
    n ≤ a.label.id ∧ a.label.id < casesAfter n cases := by
  obtain ⟨c, l, he, hne, rfl⟩ := mem_caseArms.mp h
  rcases (mem_caseEntries he).2 with ⟨hnil, -⟩ | ⟨-, hl⟩
  · exact absurd hnil hne
  · exact hl

theorem nodup_caseArms (n : Nat) (cases : List Case) :
    ((caseArms (caseEntries n cases)).map Arm.label).Nodup := by
  induction cases generalizing n with
  | nil => exact List.nodup_nil
  | cons c cases ih =>
    rw [caseEntries, caseArms_cons]
    split
    · exact ih _
    · rename_i hne
      refine List.nodup_cons.mpr ⟨fun hm => ?_, ih _⟩
      obtain ⟨a, ha, hal⟩ := List.mem_map.mp hm
      have hge := (fresh_caseArms ha).1
      rw [hal, Branch.after, Branch.label, if_neg hne, if_neg hne] at hge
      exact absurd hge (by simp)

theorem flatMap_entryChunks {entries : List (Case × Label)}
    (h : ∀ e ∈ entries, e.1.branch.args = [] ↔ e.2 = e.1.branch.target) :
    entries.flatMap entryChunks = (caseArms entries).flatMap Arm.chunks := by
  induction entries with
  | nil => rfl
  | cons e entries ih =>
    obtain ⟨c, l⟩ := e
    rw [List.forall_mem_cons] at h
    rw [List.flatMap_cons, ih h.2, caseArms_cons, entryChunks]
    by_cases hc : c.branch.args = []
    · rw [if_pos (h.1.mp hc), if_pos hc]
      rfl
    · rw [if_neg (mt h.1.mpr hc), if_neg hc]
      rfl

theorem caseEntries_iff {g : Graph} (hsize : g.blocks.size ≤ n)
    (hv : ∀ c ∈ cases, c.branch.Valid g) (he : e ∈ caseEntries n cases) :
    e.1.branch.args = [] ↔ e.2 = e.1.branch.target := by
  obtain ⟨hc, ⟨hnil, hl⟩ | ⟨hne, hl, -⟩⟩ := mem_caseEntries he
  · exact iff_of_true hnil hl
  · refine iff_of_false hne fun h => ?_
    obtain ⟨t, ht, -⟩ := (hv _ hc).target
    have := (Array.getElem?_eq_some_iff.mp ht).1
    rw [h] at hl
    omega

theorem mem_tableTargets {entries : List (Case × Label)} {fallback l : Label} {lo span : Int}
    (h : l ∈ tableTargets entries fallback lo span) :
    l = fallback ∨ ∃ c, (c, l) ∈ entries := by
  rw [tableTargets] at h
  obtain ⟨n, -, rfl⟩ := List.mem_map.mp h
  cases hk : (entries.flatMap fun (c, l) =>
      (c.constants.filterMap Constant.int?).map (·, l)).lookup (lo + n) with
  | none => exact .inl rfl
  | some m =>
    obtain ⟨⟨c, l⟩, hc, hcl⟩ := List.mem_flatMap.mp (mem_of_lookup hk)
    obtain ⟨k, -, hk⟩ := List.mem_map.mp hcl
    obtain ⟨-, rfl⟩ := Prod.mk.inj hk
    exact .inr ⟨c, hc⟩

end Entries

section Keys

theorem Constant.int?_eq_some {c : Constant} {k : Int} : c.int? = some k ↔ c = .int k := by
  cases c <;> simp [Constant.int?]

theorem caseKeys_eq_ok {block : String} {seen keys : List Int} {cs : List Constant} :
    caseKeys block seen cs = .ok keys ↔ ∃ new, cs = new.map .int ∧ keys = seen.reverse ++ new
      ∧ new.Nodup ∧ ∀ k ∈ new, k ∉ seen := by
  -- Keys that were seen are kept in reverse.
  induction cs generalizing seen with
  | nil =>
    rw [caseKeys]
    constructor
    · intro h
      cases h
      exact ⟨[], rfl, by simp, by simp, by simp⟩
    · rintro ⟨new, hnew, rfl, -, -⟩
      obtain rfl := List.map_eq_nil_iff.mp hnew.symm
      simp
  | cons c cs ih =>
    rw [caseKeys]
    constructor
    · intro h
      split at h
      · cases h
      · rename_i k hk
        rw [Constant.int?_eq_some] at hk
        split at h
        · cases h
        · rename_i hseen
          rw [List.contains_iff_mem] at hseen
          obtain ⟨new, rfl, rfl, hd, hs⟩ := ih.mp h
          refine ⟨k :: new, by rw [hk]; rfl, by simp, List.nodup_cons.mpr ⟨?_, hd⟩, ?_⟩
          · exact fun hm => hs k hm List.mem_cons_self
          · refine List.forall_mem_cons.mpr ⟨hseen, fun j hj hm => ?_⟩
            exact hs j hj (List.mem_cons_of_mem _ hm)
    · rintro ⟨new, hnew, rfl, hd, hs⟩
      cases new with
      | nil => cases hnew
      | cons k new =>
        obtain ⟨rfl, rfl⟩ := List.cons.inj hnew
        rw [List.nodup_cons] at hd
        rw [List.forall_mem_cons] at hs
        dsimp only [Constant.int?]
        rw [if_neg (by rw [List.contains_iff_mem]; exact hs.1), ih]
        refine ⟨new, rfl, by simp, hd.2, ?_⟩
        intro j hj hm
        rcases List.mem_cons.mp hm with rfl | hm
        · exact hd.1 hj
        · exact hs.2 j hj hm

theorem caseKeys_refuses {block : String} {seen : List Int} {cs : List Constant} {e : CompileError}
    (h : caseKeys block seen cs = .error e) : e.isRefusal = true := by
  induction cs generalizing seen with
  | nil => cases h
  | cons c cs ih =>
    rw [caseKeys] at h
    split at h
    · cases h
      rfl
    · split at h
      · cases h
        rfl
      · exact ih h

theorem keySpan?_eq_some {lo hi span : Int} (h : keySpan? lo hi = some span) :
    span = hi - lo + 1 := by
  simp only [keySpan?, wide?, Option.bind_eq_some_iff, Option.ite_none_right_eq_some,
    Option.some.injEq] at h
  obtain ⟨n, ⟨-, rfl⟩, -, rfl⟩ := h
  rfl

theorem keySpan?_eq_none {lo hi : Int} (h : lo ≤ hi) :
    keySpan? lo hi = none ↔ IntShape.constantMax ≤ hi - lo := by
  have hmin : IntShape.constantMin ≤ 0 := by decide
  simp only [keySpan?, wide?, Option.bind_eq_none_iff, Option.ite_none_right_eq_some,
    ite_eq_right_iff, reduceCtorEq, imp_false]
  constructor
  · intro hn
    by_contra hlt
    exact hn (hi - lo) ⟨by omega, rfl⟩ ⟨by omega, by omega⟩
  · rintro hle n ⟨-, hn⟩ hfit
    cases hn
    omega

theorem keyRange?_eq_some {keys : List Int} {lo hi : Int} : keyRange? keys = some (lo, hi) ↔
    IsLeast {k | k ∈ keys} lo ∧ IsGreatest {k | k ∈ keys} hi := by
  have hlo : keys.min? = some lo ↔ IsLeast {k | k ∈ keys} lo := List.min?_eq_some_iff
  have hhi : keys.max? = some hi ↔ IsGreatest {k | k ∈ keys} hi := List.max?_eq_some_iff
  rw [keyRange?, ← hlo, ← hhi]
  cases keys.min? <;> cases keys.max? <;> simp

theorem keyRange?_eq_none {keys : List Int} (h : keyRange? keys = none) : keys = [] := by
  cases keys with
  | nil => rfl
  | cons k keys => cases h

variable {ctx : Context} {s : Selection} {v : Value} {cases : List Case} {fallback : Branch}
  {type type' : Ty} {keys keys' : List Int} {lo lo' hi hi' : Int}

theorem Keyed.caseKeys (h : Keyed ctx s v cases fallback type keys lo hi) (block : String) :
    caseKeys block [] (cases.flatMap Case.constants) = .ok keys :=
  caseKeys_eq_ok.mpr ⟨keys, h.constants, rfl, h.distinct, by simp⟩

theorem Keyed.unique (h : Keyed ctx s v cases fallback type keys lo hi)
    (h' : Keyed ctx s v cases fallback type' keys' lo' hi') :
    type = type' ∧ keys = keys' ∧ lo = lo' ∧ hi = hi' := by
  obtain rfl : keys = keys' := List.map_injective_iff.mpr (fun _ _ => Constant.int.inj)
    (h.constants.symm.trans h'.constants)
  exact ⟨Option.some.inj (h.typed.symm.trans h'.typed), rfl, h.least.unique h'.least,
    h.greatest.unique h'.greatest⟩

theorem Tabulated.lt (h : Tabulated ctx s v cases fallback type keys lo hi) :
    hi - lo < IntShape.constantMax := by
  have := h.small
  have : maxTable < IntShape.constantMax := by decide
  omega

end Keys

theorem legs_of_tabular {v : Value} {cases : List Case} {fallback : Branch} (h : Tabular cases) :
    (Flow.switch v cases fallback).legs
      = fallback :: (cases.map Case.branch).filter fun br => !br.args.isEmpty := by
  rw [Flow.legs]
  · exact h.1
  · exact h.2

section Index

variable {s t : Selection} {type : Ty} {lo span : Int} {shift : List Machine.Instr}
  {fallback : Label} {index : Value}

theorem computes_shiftCode (h : shiftCode type lo = .ok shift) : Computes 1 shift := by
  rw [shiftCode] at h
  split at h
  · cases h
    exact computes_nil
  · have ha := answers_pushInt lo type
    cases hp : pushInt lo type with
    | error e =>
      rw [hp] at h
      cases h
    | ok is =>
      rw [hp] at h ha
      cases h
      refine ⟨fun shape => ?_, ?_⟩
      · rw [List.map_append, height_append, show 1 = 0 + 1 from rfl,
          height_frame (ha.computes.height shape) 1]
        rfl
      · rw [List.all_append, ha.computes.immediate]
        rfl

theorem tests_guardCode {shape : Machine.Instr → Option (Nat × Nat)} {ok : Label → Prop}
    {rest : List Item} (hok : ok fallback) (hr : Tests shape ok rest 1) :
    Tests shape ok (guardCode type span fallback index ++ rest) 1 := by
  rw [guardCode]
  split
  · rw [List.append_assoc, List.append_assoc]
    refine tests_of_height (e := 1) rfl (tests_of_height (e := 2) (by split <;> rfl) ?_)
    exact ⟨2, 1, rfl, Nat.le_refl _, rfl, rfl, hok, 0, 1, rfl, Nat.le_refl _, 1, 1, rfl,
      Nat.le_refl _, hr⟩
  · exact hr

theorem wrote_guardCode (h : type.isWide = true → s.Fresh t index) :
    Wrote s t (guardCode type span fallback index) := by
  rw [guardCode]
  split
  · rename_i hwide
    have hi := h hwide
    have hload : Wrote s t [.load index] := wrote_register rfl hi
    have htail : Wrote s t [.load index, .plain (.conv .i4)] := hload.append (wrote_calm rfl)
    have hhead : Wrote s t [.store index, .load index] :=
      (wrote_register (i := .store index) rfl hi).append hload
    have htest : Wrote s t [.plain (.binary .cltUn), .jump .brfalse fallback] := wrote_calm rfl
    refine (hhead.append ?_).append (htest.append htail)
    split <;> exact wrote_calm rfl
  · exact wrote_calm rfl

theorem guardCode_rename (f : Ref → Ref) :
    (guardCode type span fallback index).map (·.rename f) = guardCode type span fallback index := by
  rw [guardCode]
  split
  · split <;> rfl
  · rfl

end Index

theorem tableChunks_rename {s : Selection} {v : Value} {cases : List Case} {fallback : Branch}
    {args : List Value} {type : Ty} {lo hi : Int} {shift : List Machine.Instr}
    (h : shiftCode type lo = .ok shift) (f : Ref → Ref) :
    (tableChunks s v cases fallback args type lo hi shift).map (·.rename f)
      = tableChunks s v cases fallback args type lo hi shift := by
  have hentry : (·.map (Chunk.rename f)) ∘ entryChunks = entryChunks := by
    funext e
    simp only [Function.comp_apply, entryChunks]
    split <;> rfl
  have hcode : (tableCode s cases fallback type lo hi shift).map (·.rename f)
      = tableCode s cases fallback type lo hi shift := by
    rw [tableCode, List.map_append, List.map_append, map_op_rename, (computes_shiftCode h).rename,
      guardCode_rename]
    rfl
  have hentries (entries : List (Case × Label)) :
      (entries.flatMap entryChunks).map (·.rename f) = entries.flatMap entryChunks := by
    rw [List.map_flatMap]
    exact congrArg (List.flatMap · entries) hentry
  rw [tableChunks, List.map_cons, List.map_append, List.map_cons, hentries, Chunk.rename, hcode]
  congr 2
  split <;> rfl

namespace Select

section Tables

variable {ctx : Context} {calls : Opcode → Method → Prop} {b : Block} {s t : Selection} {v : Value}
  {cases : List Case} {fallback : Branch} {args : List Value} {type : Ty} {keys : List Int}
  {lo hi : Int} {shift : List Machine.Instr} {fault : CompileError → Prop}

theorem meets_landing (br : Branch) : Meets same (landing br) s
    (fun l t => l = br.label s.nextLabel ∧ t = { s with nextLabel := br.after s.nextLabel })
    fault := by
  unfold landing Branch.label Branch.after
  split
  · rename_i h
    rw [if_pos (List.isEmpty_iff.mp h), if_pos (List.isEmpty_iff.mp h)]
    exact meets_pure ⟨rfl, rfl⟩ fun _ => rfl
  · rename_i h
    rw [if_neg (mt List.isEmpty_iff.mpr h), if_neg (mt List.isEmpty_iff.mpr h)]
    exact meets_label

theorem meets_landings (cases : List Case) : Meets same (cases.mapM fun c => landing c.branch) s
    (fun ls t => ls = (caseEntries s.nextLabel cases).map Prod.snd
      ∧ t = { s with nextLabel := casesAfter s.nextLabel cases }) fault := by
  rw [← each_same]
  refine (meets_mapM fun c _ t _ => meets_landing c.branch).mono fun ls t hst h => ?_
  clear hst
  induction h with
  | nil => exact ⟨rfl, rfl⟩
  | cons _ h _ ih =>
    obtain ⟨rfl, rfl⟩ := h
    obtain ⟨rfl, rfl⟩ := ih
    exact ⟨rfl, rfl⟩

theorem meets_tableIndex (type : Ty) (lo span : Int) (fallback : Label) :
    Meets same (tableIndex type lo span fallback) s
      (fun code t => ∃ shift, shiftCode type lo = .ok shift
        ∧ code = shift.map .op ++ guardCode type span fallback ⟨s.nextValue⟩
        ∧ (type.isWide = true → s.Fresh t ⟨s.nextValue⟩))
      (fun e => e.isRefusal = true ∧ ¬type.Shifts lo) := by
  -- The rest of the code does not depend on whether the value is shifted first.
  have hrest (shift : List Machine.Instr) (hshift : shiftCode type lo = .ok shift) :
      Meets same (if type.isWide then do
          let index ← temporary type
          let limit := if type.isWord then [ldcI4 span, plain (.conv .u)] else [ldcI8 span]
          return shift.map Item.op ++ [.store index, .load index] ++ limit.map .op
            ++ [.plain (.binary .cltUn), .jump .brfalse fallback, .load index, .plain (.conv .i4)]
        else return shift.map .op) s
        (fun code t => ∃ shift, shiftCode type lo = .ok shift
          ∧ code = shift.map .op ++ guardCode type span fallback ⟨s.nextValue⟩
          ∧ (type.isWide = true → s.Fresh t ⟨s.nextValue⟩))
        (fun e => e.isRefusal = true ∧ ¬type.Shifts lo) := by
    refine meets_ite (fun hw => (meets_temporary type).bind ?_) fun hw => ?_
    · rintro index t - ⟨rfl, hi⟩
      refine meets_pure ⟨shift, hshift, ?_, fun _ => hi⟩ fun _ => rfl
      rw [guardCode, if_pos hw]
      simp only [List.append_assoc]
    · refine meets_pure ⟨shift, hshift, ?_, fun h => absurd h hw⟩ fun _ => rfl
      rw [guardCode, if_neg hw, List.append_nil]
  unfold tableIndex
  by_cases hlo : lo = 0
  · rw [if_pos hlo]
    exact hrest [] (if_pos hlo)
  · rw [if_neg hlo]
    have hshift : shiftCode type lo = (pushInt lo type).map (· ++ [binary .sub]) := if_neg hlo
    refine Meets.bind ((meets_pushInt lo type).weaken fun e he => ⟨he.1, ?_⟩) ?_
    · rintro ⟨shift, h⟩
      rw [hshift, he.2] at h
      cases h
    · rintro _ t - ⟨rfl, is, his, -, rfl⟩
      have h := hrest (is ++ [binary .sub]) (by rw [hshift, his]; rfl)
      rw [List.map_append] at h
      exact h

theorem meets_landed (e : Case × Label) : Meets same (landed ctx b e.1.branch e.2) s
    (fun cs _ => cs = entryChunks e
      ∧ (e.2 = e.1.branch.target ∨ e.1.branch.Keeps ctx.graph none))
    (fun e' => e'.isRefusal = true
      ∧ ¬(e.2 = e.1.branch.target ∨ e.1.branch.Keeps ctx.graph none)) := by
  unfold landed entryChunks
  refine meets_ite (fun hl => ?_) fun hl => ?_
  · exact meets_pure ⟨(if_pos hl).symm, .inl hl⟩ fun _ => rfl
  · refine (meets_plainArgs.weaken fun e' he => ⟨he.1, not_or.mpr ⟨hl, he.2⟩⟩).map
      (fun _ _ => rfl) ?_
    rintro args t - ⟨rfl, hk, ha⟩
    rw [if_neg hl, values_of_args ha]
    exact ⟨rfl, .inr hk⟩

theorem meets_arms (entries : List (Case × Label)) :
    Meets same (entries.mapM fun (c, l) => landed ctx b c.branch l) s
      (fun css _ => css.flatten = entries.flatMap entryChunks
        ∧ ∀ e ∈ entries, e.2 = e.1.branch.target ∨ e.1.branch.Keeps ctx.graph none)
      (fun e' => e'.isRefusal = true
        ∧ ¬∀ e ∈ entries, e.2 = e.1.branch.target ∨ e.1.branch.Keeps ctx.graph none) := by
  rw [← each_same]
  refine Meets.mono (meets_mapM fun e he t _ => Meets.weaken (meets_landed e) ?_) ?_
  · exact fun e' he' => ⟨he'.1, fun hall => he'.2 (hall e he)⟩
  · intro css t hst h
    clear hst
    induction h with
    | nil => exact ⟨rfl, by simp⟩
    | cons _ h _ ih =>
      obtain ⟨rfl, hc⟩ := h
      refine ⟨?_, List.forall_mem_cons.mpr ⟨hc, ih.2⟩⟩
      rw [List.flatten_cons, List.flatMap_cons, ih.1]

structure Tabled (ctx : Context) (s : Selection) (v : Value) (cases : List Case) (fallback : Branch)
    (type : Ty) (keys : List Int) (lo hi : Int) (shift : List Machine.Instr) (t : Selection) : Prop
    extends Tabulated ctx s v cases fallback type keys lo hi where
  shifted : shiftCode type lo = .ok shift
  index : type.isWide = true → s.Fresh t ⟨s.nextValue⟩
  room : casesAfter (fallback.after s.nextLabel) cases ≤ t.nextLabel

def Declined (ctx : Context) (s : Selection) (v : Value) (cases : List Case) (fallback : Branch)
    (e : CompileError) : Prop :=
  e.isRefusal = true ∧ (∀ type keys lo hi, Keyed ctx s v cases fallback type keys lo hi →
      hi - lo < IntShape.constantMax
        ∧ ¬(Tabulated ctx s v cases fallback type keys lo hi ∧ type.Shifts lo))
    ∨ e = .crash .keySpan ∧ ∃ type keys lo hi, Keyed ctx s v cases fallback type keys lo hi
      ∧ IntShape.constantMax ≤ hi - lo

theorem declined_of_keyed (hk : Keyed ctx s v cases fallback type keys lo hi)
    (hlt : hi - lo < IntShape.constantMax) {e : CompileError} (he : e.isRefusal = true)
    (hn : ¬(Tabulated ctx s v cases fallback type keys lo hi ∧ type.Shifts lo)) :
    Declined ctx s v cases fallback e := by
  refine .inl ⟨he, fun type' keys' lo' hi' hk' => ?_⟩
  obtain ⟨rfl, rfl, rfl, rfl⟩ := hk.unique hk'
  exact ⟨hlt, hn⟩

theorem meets_of_landing {α : Type} {r : (Ref → Ref) → α → α} {post : α → Selection → Prop}
    {k : Label → Select α} (hempty : args.isEmpty = true ↔ fallback.args = [])
    (h : Meets r (landing fallback >>= k) s post fault) :
    Meets r (if args.isEmpty then pure fallback.target >>= k else label >>= k) s post fault := by
  rw [landing] at h
  split
  · rename_i he
    rw [if_pos (List.isEmpty_iff.mpr (hempty.mp he))] at h
    exact h
  · rename_i he
    rw [if_neg (mt (fun h => hempty.mpr (List.isEmpty_iff.mp h)) he)] at h
    exact h

theorem meets_table (hk : Keyed ctx s v cases fallback type keys lo hi)
    (hlt : hi - lo < IntShape.constantMax) (hd : hi - lo + 1 ≤ 2 * keys.length)
    (hm : hi - lo + 1 ≤ maxTable) (hempty : args.isEmpty = true ↔ fallback.args = []) :
    Meets same (do
        let l ← landing fallback
        let labels ← cases.mapM fun c => landing c.branch
        let index ← tableIndex type lo (hi - lo + 1) l
        let arms ← (cases.zip labels).mapM fun (c, l) => landed ctx b c.branch l
        return ⟨index ++ [.switch (tableTargets (cases.zip labels) l lo (hi - lo + 1))], [v]⟩
          :: ((if args.isEmpty then [] else [Chunk.label l]) ++ [.jump fallback.target args])
          ++ arms.flatten) s
      (fun cs t => ∃ type keys lo hi shift, Tabled ctx s v cases fallback type keys lo hi shift t
        ∧ cs = tableChunks s v cases fallback args type lo hi shift)
      (Declined ctx s v cases fallback) := by
  refine (meets_landing fallback).bind ?_
  rintro l s₁ - ⟨rfl, rfl⟩
  refine (meets_landings cases).bind ?_
  rintro labels s₂ - ⟨rfl, rfl⟩
  refine Meets.bind ((meets_tableIndex _ _ _ _).weaken fun e he => ?_) ?_
  · exact declined_of_keyed hk hlt he.1 fun h => he.2 h.2
  rintro code s₃ hs₃ ⟨shift, hshift, rfl, hindex⟩
  rw [zip_caseEntries]
  refine Meets.map ((meets_arms _).weaken fun e he => ?_) (fun _ _ => rfl) ?_
  · exact declined_of_keyed hk hlt he.1 fun h => he.2 h.1.checked
  · rintro arms t hs₄ ⟨harms, hchecked⟩
    have hgrows := hs₃.trans hs₄
    refine ⟨type, keys, lo, hi, shift, ⟨⟨hk, hd, hm, hchecked⟩, hshift, fun hw => ?_,
      hgrows.nextLabel⟩, ?_⟩
    · exact ⟨(hindex hw).after, ((hindex hw).mono hs₄).before, ((hindex hw).mono hs₄).listed⟩
    · rw [harms, tableChunks, tableCode]
      simp only [hempty, List.append_assoc, List.cons_append, List.nil_append]

theorem meets_caseKeys : Meets same
    (ofExcept (caseKeys b.name [] (cases.flatMap Case.constants))) s
    (fun keys t => t = s ∧ caseKeys b.name [] (cases.flatMap Case.constants) = .ok keys)
    (Declined ctx s v cases fallback) := by
  refine meets_ofExcept (fun _ _ _ => rfl) (fun keys h => ⟨rfl, h⟩) fun e he => ?_
  refine .inl ⟨caseKeys_refuses he, fun type keys lo hi hk => ?_⟩
  rw [hk.caseKeys] at he
  cases he

theorem meets_jumpTable (htab : Tabular cases) (ho : fallback.Keeps ctx.graph none)
    (hfa : fallback.args = args.map .value) :
    Meets (each Chunk.rename) (jumpTable ctx b v cases fallback args) s
      (fun cs t => ∃ type keys lo hi shift, Tabled ctx s v cases fallback type keys lo hi shift t
        ∧ cs = tableChunks s v cases fallback args type lo hi shift)
      (Declined ctx s v cases fallback) := by
  have hempty : args.isEmpty = true ↔ fallback.args = [] := by
    rw [hfa, List.map_eq_nil_iff, List.isEmpty_iff]
  refine Meets.fixed ?_ ?_
  · unfold jumpTable
    refine Meets.bind (meets_valueType fun hnone => .inl ⟨rfl, ?_⟩) ?_
    · intro type keys lo hi hk
      rw [hk.typed] at hnone
      cases hnone
    rintro type t - ⟨rfl, htype⟩
    refine meets_ite (fun hs => meets_throw (.inl ⟨rfl, ?_⟩)) fun hs => ?_
    · intro type' keys lo hi hk
      obtain rfl := Option.some.inj (htype.symm.trans hk.typed)
      rw [hk.switchable] at hs
      cases hs
    refine meets_caseKeys.bind ?_
    rintro keys t' - ⟨rfl, hkeys⟩
    split
    · rename_i hrange
      refine meets_throw (.inl ⟨rfl, fun type' keys' lo hi hk => ?_⟩)
      rw [hk.caseKeys] at hkeys
      cases hkeys
      have := hk.least.1
      rw [keyRange?_eq_none hrange] at this
      cases this
    · rename_i lo hi hrange
      obtain ⟨hlo, hhi⟩ := keyRange?_eq_some.mp hrange
      obtain ⟨_, hconstants, rfl, hdistinct, -⟩ := caseKeys_eq_ok.mp hkeys
      have hk : Keyed ctx t' v cases fallback type keys lo hi :=
        ⟨htab, ho, htype, by simpa using hs, hconstants, hdistinct, hlo, hhi⟩
      have hle : lo ≤ hi := hhi.2 hlo.1
      split
      · rename_i hspan
        exact meets_throw (.inr ⟨rfl, type, _, lo, hi, hk, (keySpan?_eq_none hle).mp hspan⟩)
      · rename_i span hspan
        obtain rfl := keySpan?_eq_some hspan
        have hlt : hi - lo < IntShape.constantMax := by
          by_contra hge
          rw [(keySpan?_eq_none hle).mpr (not_lt.mp hge)] at hspan
          cases hspan
        refine meets_ite (fun hsparse => meets_throw ?_) fun hdense => ?_
        · refine declined_of_keyed hk hlt rfl fun h => ?_
          have hd := h.1.dense
          have hm := h.1.small
          omega
        · rw [not_or, not_lt, not_lt] at hdense
          exact meets_of_landing hempty (meets_table hk hlt hdense.1 hdense.2 hempty)
  · rintro cs t ⟨type, keys, lo, hi, shift, h, rfl⟩ f
    exact tableChunks_rename h.shifted f

theorem Tabled.wrote (h : Tabled ctx s v cases fallback type keys lo hi shift t) :
    Wrote s t (tableCode s cases fallback type lo hi shift) := by
  have hc := (computes_shiftCode h.shifted).calm
  exact .append (.append (wrote_plain (plain_of_calm hc) (glued_of_calm hc))
    (wrote_guardCode h.index)) (wrote_calm rfl)

theorem Tabled.written (h : Tabled ctx s v cases fallback type keys lo hi shift t) :
    Written s t (tableChunks s v cases fallback args type lo hi shift) := by
  have hjump (target : Label) (args : List Value) : Wrote s t (Chunk.jump target args).code :=
    wrote_calm rfl
  rw [tableChunks, Written, List.forall_mem_cons, List.forall_mem_append, List.forall_mem_cons]
  refine ⟨h.wrote, ?_, hjump _ _, ?_⟩
  · split
    · simp
    · rename_i hne
      rw [List.forall_mem_singleton]
      exact wrote_label (by rw [Branch.label, if_neg hne])
  · intro c hc
    obtain ⟨e, he, hc⟩ := List.mem_flatMap.mp hc
    rw [entryChunks] at hc
    split at hc
    · cases hc
    · rename_i hne
      rcases (mem_caseEntries he).2 with ⟨-, hl⟩ | ⟨-, hl, -⟩
      · exact absurd hl hne
      · rcases List.mem_cons.mp hc with rfl | hc
        · exact wrote_label (Nat.le_trans (le_after fallback _) hl)
        · obtain rfl := List.mem_singleton.mp hc
          exact hjump _ _

section Flow

variable (h : Tabled ctx s v cases fallback type keys lo hi shift t)
  (hf : b.flow = .switch v cases fallback) (hv : b.flow.Valid ctx.graph)
  (hsize : ctx.graph.blocks.size ≤ s.nextLabel)

include hf in
theorem case_mem_branches {c : Case} (hc : c ∈ cases) : c.branch ∈ b.flow.branches := by
  rw [hf]
  exact List.mem_append_left _ (List.mem_map.mpr ⟨c, hc, rfl⟩)

include hf hv hsize in
theorem landed_iff {e : Case × Label} (he : e ∈ caseEntries (fallback.after s.nextLabel) cases) :
    e.1.branch.args = [] ↔ e.2 = e.1.branch.target :=
  caseEntries_iff (hsize.trans (le_after fallback _))
    (fun _ hc => hv.branches _ (case_mem_branches hf hc)) he

include h hf hv hsize in
theorem Tabled.arms : Arms ctx.graph b none none
    { s with nextLabel := fallback.after s.nextLabel }
    (caseArms (caseEntries (fallback.after s.nextLabel) cases)) t := by
  refine ⟨fun a ha => ?_, fun a ha => ?_, nodup_caseArms _ _⟩
  · obtain ⟨c, l, he, hne, rfl⟩ := mem_caseArms.mp ha
    have hk := (h.checked _ he).resolve_left (mt (landed_iff hf hv hsize he).mpr hne)
    exact hk.sends (case_mem_branches hf (mem_caseEntries he).1) hk.args_eq
  · have := fresh_caseArms ha
    exact ⟨this.1, this.2.trans_le h.room⟩

include h hf hv in
theorem Tabled.tests {first : List Arm} (shape : Machine.Instr → Option (Nat × Nat))
    (ho : b.Open ctx.graph first (fallback.label s.nextLabel)) :
    Tests shape
      (b.Open ctx.graph (first ++ caseArms (caseEntries (fallback.after s.nextLabel) cases)))
      (tableCode s cases fallback type lo hi shift) 1 := by
  have hopen : b.Open ctx.graph
      (first ++ caseArms (caseEntries (fallback.after s.nextLabel) cases))
      (fallback.label s.nextLabel) :=
    ho.imp (Exists.imp fun a h => ⟨List.mem_append_left _ h.1, h.2⟩) id
  rw [tableCode, List.append_assoc]
  refine tests_of_height ((computes_shiftCode h.shifted).height shape)
    (tests_guardCode hopen ⟨rfl, fun l hl => ?_, rfl⟩)
  rcases mem_tableTargets hl with rfl | ⟨c, he⟩
  · exact hopen
  · obtain ⟨hc, ⟨hnil, hl⟩ | ⟨hne, -⟩⟩ := mem_caseEntries he
    · dsimp only at hl
      rw [hl]
      have hb := case_mem_branches hf hc
      exact .inr ((hv.branches _ hb).reaches hb hnil)
    · exact .inl ⟨_, List.mem_append_right _ (mem_caseArms.mpr ⟨c, l, he, hne, rfl⟩), rfl⟩

include h hf hv hsize in
theorem Tabled.flowed_of_first (hst : s.Grows t) (direct : List Chunk) (first : List Arm)
    (ho : b.Open ctx.graph first (fallback.label s.nextLabel))
    (hd : direct = [] ∧ first ≠ [] ∨ ∃ target args, direct = [.jump target args]
      ∧ b.Sends ctx.graph none none target args)
    (ha : Arms ctx.graph b none none s first { s with nextLabel := fallback.after s.nextLabel })
    (hx : direct.filterMap Chunk.leg? ++ first.map Arm.passes = [fallback.passes]) :
    Flowed ctx calls b s (⟨tableCode s cases fallback type lo hi shift, [v]⟩
      :: (direct ++ first.flatMap Arm.chunks)
        ++ (caseEntries (fallback.after s.nextLabel) cases).flatMap entryChunks) t := by
  have hlegs : b.flow.legs.map Branch.passes = direct.filterMap Chunk.leg?
      ++ (first ++ caseArms (caseEntries (fallback.after s.nextLabel) cases)).map Arm.passes := by
    rw [List.map_append, ← List.append_assoc, hx, passes_caseArms, hf, legs_of_tabular h.form]
    rfl
  have hflow : Flowed ctx calls b s _ t :=
    .test _ hf hst h.wrote (fun shape => h.tests hf hv shape ho)
      (hd.imp (And.imp_right fun hne => by simp [hne]) id)
      (ha.append (h.arms hf hv hsize) (le_after fallback _) ((le_casesAfter _ _).trans h.room))
      hlegs
  rw [List.flatMap_append, ← List.append_assoc,
    ← flatMap_entryChunks fun _ he => landed_iff hf hv hsize he] at hflow
  exact hflow

include h hf hv hsize in
theorem Tabled.flowed (hst : s.Grows t) (hfa : fallback.args = args.map .value) :
    Flowed ctx calls b s (tableChunks s v cases fallback args type lo hi shift) t := by
  have hfb : fallback ∈ b.flow.branches := by
    rw [hf]
    exact List.mem_append_right _ List.mem_cons_self
  have hs := h.otherwise.sends hfb hfa
  have hpass : fallback.passes = (fallback.target, args) := by
    rw [Branch.passes, values_of_args hfa]
  rw [tableChunks]
  by_cases he : fallback.args = []
  · have hnil : args = [] := List.map_eq_nil_iff.mp (hfa.symm.trans he)
    have hlabel : fallback.label s.nextLabel = fallback.target := if_pos he
    have hopen : b.Open ctx.graph [] (fallback.label s.nextLabel) := by
      rw [hlabel]
      rw [hnil] at hs
      exact .inr hs.reaches
    rw [if_pos he]
    exact h.flowed_of_first hf hv hsize hst [.jump fallback.target args] [] hopen
      (.inr ⟨_, _, rfl, hs⟩) ⟨by simp, by simp, by simp⟩ (by rw [hpass]; rfl)
  · have hlabel : fallback.label s.nextLabel = ⟨s.nextLabel⟩ := if_neg he
    have hafter : fallback.after s.nextLabel = s.nextLabel + 1 := if_neg he
    rw [if_neg he]
    -- Where to go otherwise is an arm too, as there are arguments to push.
    exact h.flowed_of_first hf hv hsize hst []
      [⟨fallback.label s.nextLabel, fallback.target, args⟩]
      (.inl ⟨_, List.mem_cons_self, rfl⟩) (.inl ⟨rfl, by simp⟩)
      ⟨by simpa using hs, by simp [hlabel, hafter], by simp⟩ (by rw [hpass]; rfl)

end Flow

end Tables

section Switches

variable {ctx : Context} {calls : Opcode → Method → Prop} {b : Block} {s t : Selection} {v : Value}
  {cases : List Case} {fallback : Branch} {args : List Value} {cs : List Chunk}

inductive Switched (ctx : Context) (s : Selection) (v : Value) (fallback : Branch)
    (args : List Value) : List Case → List Chunk → Selection → Prop where
  | empty : Switched ctx s v fallback args [] [.jump fallback.target args] s
  | test {c : Constant} {branch : Branch} {targetArgs : List Value} {code : List Item}
      {t : Selection} (h : Tested ctx s v c branch fallback targetArgs code t) :
      Switched ctx s v fallback args [⟨[c], branch⟩]
        (testChunks s v branch fallback targetArgs args code) t
  | table {cases : List Case} {type : Ty} {keys : List Int} {lo hi : Int}
      {shift : List Machine.Instr} {t : Selection}
      (h : Tabled ctx s v cases fallback type keys lo hi shift t) :
      Switched ctx s v fallback args cases
        (tableChunks s v cases fallback args type lo hi shift) t

theorem meets_switch : Meets (each Chunk.rename) (switch ctx b v cases fallback) s
    (fun cs t => ∃ args, fallback.Keeps ctx.graph none ∧ fallback.args = args.map .value
      ∧ Switched ctx s v fallback args cases cs t)
    (fun e => Declined ctx s v cases fallback e ∧ ∀ k branch, cases = [⟨[.int k], branch⟩] →
      ¬(fallback.Keeps ctx.graph none ∧ Testable ctx s v k branch fallback)) := by
  unfold switch
  refine Meets.bind (meets_plainArgs.weaken fun e he => ?_) ?_
  · refine ⟨.inl ⟨he.1, fun type keys lo hi hk => absurd hk.otherwise he.2⟩, ?_⟩
    exact fun k branch _ h => he.2 h.1
  rintro args t - ⟨rfl, hk, ha⟩
  split
  · exact meets_pure ⟨args, hk, ha, .empty⟩ fun _ => rfl
  · rename_i c branch
    refine Meets.mono (Meets.weaken (meets_ifElse ha) fun e he => ⟨.inl ⟨he.1, ?_⟩, ?_⟩) ?_
    · exact fun type keys lo hi hk => absurd rfl (hk.form.2 c branch)
    · rintro k branch' hc ⟨-, ht⟩
      obtain ⟨rfl, rfl⟩ : c = .int k ∧ branch = branch' := by simpa using hc
      exact he.2 k rfl ht
    · rintro cs u - ⟨targetArgs, code, h, rfl⟩
      exact ⟨args, hk, ha, .test h⟩
  · rename_i hnil hone
    have htab : Tabular cases := ⟨hnil, fun c branch => hone c branch⟩
    refine Meets.mono (Meets.weaken (meets_jumpTable htab hk ha) fun e he => ⟨he, ?_⟩) ?_
    · exact fun k branch hc => absurd hc (hone _ _)
    · rintro cs u - ⟨type, keys, lo, hi, shift, h, rfl⟩
      exact ⟨args, hk, ha, .table h⟩

theorem Switched.written (h : Switched ctx s v fallback args cases cs t) : Written s t cs := by
  cases h with
  | empty => exact List.forall_mem_singleton.mpr (wrote_calm rfl)
  | test h => exact h.written
  | table h => exact h.written

theorem Switched.flowed (h : Switched ctx s v fallback args cases cs t) (hst : s.Grows t)
    (hk : fallback.Keeps ctx.graph none) (ha : fallback.args = args.map .value)
    (hf : b.flow = .switch v cases fallback) (hv : b.flow.Valid ctx.graph)
    (hsize : ctx.graph.blocks.size ≤ s.nextLabel) : Flowed ctx calls b s cs t := by
  cases h with
  | empty =>
    refine .jump (hk.sends ?_ ha) ?_ ?_
    · rw [hf]
      exact List.mem_cons_self
    · rw [hf]
      rfl
    · rw [hf, ← values_of_args ha]
      rfl
  | test h => exact h.flowed hk ha hf
  | table h => exact h.flowed hf hv hsize hst ha

theorem Switched.keeps (h : Switched ctx s v fallback args cases cs t)
    (hk : fallback.Keeps ctx.graph none) :
    (∀ br ∈ (Flow.switch v cases fallback).branches, br.Keeps ctx.graph none)
      ∨ ∃ type keys lo hi, Tabulated ctx s v cases fallback type keys lo hi ∧ type.Shifts lo := by
  cases h with
  | empty => exact .inl (List.forall_mem_singleton.mpr hk)
  | test h => exact .inl (List.forall_mem_cons.mpr ⟨h.keeps, List.forall_mem_singleton.mpr hk⟩)
  | table h => exact .inr ⟨_, _, _, _, h.toTabulated, _, h.shifted⟩

end Switches

end Select

end StackCode
