import StackCode.Proofs.Admission
import StackCode.Proofs.Literals

/-!
Where the chunks of a switch take control. A test and a jump table send each integer to the branch
that the switch has for it, as long as no case goes to a block that does not exist. The label of
such a block may be one of the new labels of the table, and then another branch is taken.
-/

namespace StackCode

section Codes

variable {t : Ty} {r : IntShape} {n k lo hi : Int} {cells : Value → Word} {stack : List Word}
  {code : List Item} {l : Label}

theorem Ty.Ranges.literal (h : t.Ranges r) : t.Literal r := by
  cases h with
  | int _ => exact .int r
  | word signed => exact .word signed

theorem compute_pushInt {is : List Machine.Instr} (hr : t.Ranges r) (h : pushInt k t = .ok is)
    (stack : List Word) : computeAll is stack = .ok (t.encode k :: stack) := by
  have hcode := hr.literal.literalCode k
  rw [h] at hcode
  cases hcode with
  | pushed _ _ hrun => exact hrun stack

theorem compute_shift {shift : List Machine.Instr} (hr : t.Ranges r)
    (h : shiftCode t lo = .ok shift) (n : Int) (stack : List Word) :
    computeAll shift (t.encode n :: stack) = .ok (t.encode (n - lo) :: stack) := by
  rw [shiftCode] at h
  split at h
  · rename_i hlo
    obtain rfl := Except.ok.inj h
    rw [hlo, Int.sub_zero]
    rfl
  · cases hp : pushInt lo t with
    | error e =>
      rw [hp] at h
      cases h
    | ok is =>
      rw [hp] at h
      obtain rfl := Except.ok.inj h
      rw [computeAll_append_ok (compute_pushInt hr hp _), computeAll_single]
      exact compute_binary (StackKind.word_sub _ n lo)

theorem compute_limit (hwide : t.isWide = true) {span : Int} (hs : 0 ≤ span) (hs' : span ≤ maxTable)
    (stack : List Word) :
    computeAll (if t.isWord then [ldcI4 span, plain (.conv .u)] else [ldcI8 span]) stack
      = .ok (t.encode span :: stack) := by
  rw [Ty.encode, Ty.stackKind]
  split
  · have hfits : (IntShape.mk 32 false).holds span = true := by
      rw [maxTable] at hs'
      rw [holds_iff]
      exact ⟨hs, hs'.trans (by decide)⟩
    rw [computeAll_ok (compute_ldcI4 span stack), computeAll_single]
    exact compute_toWord (k := .int32) (.inr hfits) stack
  · rw [computeAll_single, compute_ldcI8]

theorem compute_low (k : StackKind) (n : Int) (stack : List Word) :
    (plain (.conv .i4)).compute (k.word n :: stack) = .ok (StackKind.int32.word n :: stack) := by
  have hs : (IntShape.mk 32 true).Ordinary := StackKind.int32.ordinary true
  rw [compute_conv (k := .i4) rfl, StackKind.resized_word hs (.inl k.le_width),
    StackKind.word_wrap hs (.inl rfl)]

theorem ult_ofInt {w : Nat} {span : Int} (hs : 0 ≤ span) (hw : span < 2 ^ w) (n : Int) :
    (BitVec.ofInt w n).ult (BitVec.ofInt w span)
      = decide (((BitVec.ofInt w n).toNat : Int) < span) := by
  have hspan : (BitVec.ofInt w span).toNat = span.toNat := by
    rw [BitVec.toNat_ofInt, Int.emod_eq_of_lt hs (by exact_mod_cast hw)]
  rw [BitVec.ult, hspan, decide_eq_decide]
  omega

theorem run_guard (hwide : t.isWide = true) {span : Int} (hs : 0 ≤ span) (hs' : span ≤ maxTable)
    (index : Value) :
    runCode (guardCode t span l index ++ code) ⟨t.encode n :: stack, cells⟩
      = if ((BitVec.ofInt t.stackKind.width n).toNat : Int) < span then
          runCode code ⟨StackKind.int32.word n :: stack, Function.update cells index (t.encode n)⟩
        else some (some l, ⟨stack, Function.update cells index (t.encode n)⟩) := by
  have hsize : span < 2 ^ t.stackKind.width := by
    have hpow : (2 : Int) ^ 32 ≤ 2 ^ t.stackKind.width :=
      pow_le_pow_right₀ (by decide) t.stackKind.le_width
    exact (hs'.trans_lt (by decide)).trans_le hpow
  have hload : (Item.load index).run ⟨stack, Function.update cells index (t.encode n)⟩
      = some (none, ⟨t.encode n :: stack, Function.update cells index (t.encode n)⟩) := by
    change some (none, (⟨Function.update cells index (t.encode n) index :: stack, _⟩ : Evaluation))
      = _
    rw [Function.update_self]
  have hless : (binary .cltUn).compute (t.encode span :: t.encode n :: stack)
      = .ok (.ofBool (decide (((BitVec.ofInt t.stackKind.width n).toNat : Int) < span))
        :: stack) := by
    refine compute_binary ?_
    rw [← ult_ofInt hs hsize]
    exact StackKind.test_ofBits _ _ _
  rw [guardCode, if_pos hwide]
  simp only [List.append_assoc, List.cons_append, List.nil_append]
  rw [runCode_next rfl, runCode_next hload, runCode_ops (compute_limit hwide hs hs' _),
    runCode_next (run_op hless)]
  split
  · rename_i hlt
    rw [decide_eq_true hlt, runCode_next rfl, runCode_next hload]
    exact runCode_next (run_op (compute_low _ n stack))
  · rename_i hge
    rw [decide_eq_false hge]
    exact runCode_branch rfl

theorem toNat_ofInt_low {w : Nat} (hw : 32 ≤ w) (h : (BitVec.ofInt w n).toNat < 2 ^ 32) :
    (BitVec.ofInt 32 n).toNat = (BitVec.ofInt w n).toNat := by
  have hmod : n % 2 ^ w % 2 ^ 32 = n % 2 ^ 32 := Int.emod_emod_of_dvd n (pow_dvd_pow 2 hw)
  have hpos : (0 : Int) ≤ n % 2 ^ w := Int.emod_nonneg n (by positivity)
  rw [BitVec.toNat_ofInt] at h ⊢
  rw [BitVec.toNat_ofInt]
  push_cast at h ⊢
  omega

theorem run_switch (table : List Label) (n : Int) :
    runCode [.switch table] ⟨[StackKind.int32.word n], cells⟩
      = some (table[(BitVec.ofInt 32 n).toNat]?, ⟨[], cells⟩) :=
  runCode_single _ _

theorem run_table (hr : t.Ranges r) {shift : List Machine.Instr}
    (hshift : shiftCode t lo = .ok shift)
    (hn : r.holds n = true) (hlo : r.holds lo = true) (hhi : r.holds hi = true) (hle : lo ≤ hi)
    (hsmall : hi - lo + 1 ≤ maxTable) {table : List Label}
    (hsize : (table.length : Int) = hi - lo + 1)
    (l : Label) (index : Value) (cells : Value → Word) :
    ∃ cells' dest, runCode (shift.map .op ++ guardCode t (hi - lo + 1) l index ++ [.switch table])
          ⟨[t.encode n], cells⟩ = some (dest, ⟨[], cells'⟩)
      ∧ (lo ≤ n ∧ n ≤ hi → dest = table[(n - lo).toNat]?)
      ∧ (¬(lo ≤ n ∧ n ≤ hi) → dest = none ∨ dest = some l) := by
  have hin := hr.index_lt_iff hn hlo hhi hle
  -- Beyond the table, the index selects nothing.
  have hentry : (lo ≤ n ∧ n ≤ hi →
        table[(BitVec.ofInt t.stackKind.width (n - lo)).toNat]? = table[(n - lo).toNat]?)
      ∧ (¬(lo ≤ n ∧ n ≤ hi) → table[(BitVec.ofInt t.stackKind.width (n - lo)).toNat]? = none) := by
    constructor
    · intro h
      rw [hr.toNat_index hn hlo h.1]
    · intro h
      rw [List.getElem?_eq_none_iff]
      have := mt hin.mp h
      omega
  rw [List.append_assoc, runCode_ops (compute_shift hr hshift n [])]
  by_cases hwide : t.isWide = true
  · -- Only an index within the table is cut down to 32 bits, where it stays the same.
    rw [run_guard hwide (by omega) hsmall]
    split
    · rename_i hlt
      rw [maxTable] at hsmall
      rw [run_switch, toNat_ofInt_low t.stackKind.le_width (by omega)]
      exact ⟨_, _, rfl, hentry.1, fun h => .inl (hentry.2 h)⟩
    · rename_i hge
      exact ⟨_, _, rfl, fun h => absurd (hin.mpr h) hge, fun _ => .inr rfl⟩
  · have hnarrow : t.stackKind = .int32 := by
      rw [Bool.not_eq_true] at hwide
      rw [Ty.stackKind, hwide, if_neg (by simp_all [Ty.isWide])]
      rfl
    rw [guardCode, if_neg hwide, List.nil_append, Ty.encode, hnarrow, run_switch]
    rw [hnarrow] at hentry
    exact ⟨_, _, rfl, hentry.1, fun h => .inl (hentry.2 h)⟩

theorem run_bit {signed whenEqual : Bool} (hn : (IntShape.mk 1 signed).holds n = true)
    (hk : (IntShape.mk 1 signed).holds k = true) (hbit : k = 0 ∨ k = 1) :
    (Item.jump (if (k = 1) = (whenEqual = true) then .brtrue else .brfalse) l).run
        ⟨[(Ty.int ⟨1, signed⟩).encode n], cells⟩
      = some (if decide (n = k) = whenEqual then some l else none, ⟨[], cells⟩) := by
  -- A bit that is not zero is 1 or -1, and only one of them is in range.
  rw [holds_iff] at hn hk
  cases signed
  · have hn' : 0 ≤ n ∧ n ≤ 1 := hn
    obtain rfl | rfl : n = 0 ∨ n = 1 := by omega
    all_goals rcases hbit with rfl | rfl <;> cases whenEqual <;> rfl
  · have hn' : -1 ≤ n ∧ n ≤ 0 := hn
    have hk' : -1 ≤ k ∧ k ≤ 0 := hk
    obtain rfl : k = 0 := by omega
    obtain rfl | rfl : n = -1 ∨ n = 0 := by omega
    all_goals cases whenEqual <;> rfl

theorem run_compare (hr : t.Ranges r) {whenEqual : Bool} (hn : r.holds n = true)
    (hk : r.holds k = true) (h : Select.compareCode t k whenEqual l = .ok code) :
    runCode code ⟨[t.encode n], cells⟩
      = some (if decide (n = k) = whenEqual then some l else none, ⟨[], cells⟩) := by
  rw [Select.compareCode] at h
  split at h
  · rename_i hbit
    obtain rfl := Except.ok.inj h
    rw [runCode_single]
    cases hr with
    | word signed => cases hbit.1
    | int _ =>
      obtain ⟨bits, signed⟩ := r
      obtain rfl : bits = 1 := bits_of_isBool hbit.1
      exact run_bit hn hk hbit.2
  · cases hp : pushInt k t with
    | error e =>
      rw [hp] at h
      cases h
    | ok is =>
      rw [hp] at h
      obtain rfl := Except.ok.inj h
      have heq : (BitVec.ofInt t.stackKind.width n == BitVec.ofInt t.stackKind.width k)
          = decide (n = k) := by
        rw [Bool.beq_eq_decide_eq, decide_eq_decide, hr.ofInt_inj hn hk]
      rw [runCode_ops (compute_pushInt hr hp _), runCode_single]
      cases whenEqual
      all_goals
        change ((t.encode n).compare? (· == ·) (t.encode k)).bind _ = _
        rw [Ty.encode, Ty.encode, StackKind.compare?_word, heq]
        by_cases h : n = k <;> simp [h, Evaluation.branch]

end Codes

def taken (cases : List Case) (fallback : Branch) (n : Int) : Branch :=
  ((cases.find? fun c => .int n ∈ c.constants).map Case.branch).getD fallback

def LeavesBy (cs : List Chunk) (cells : Value → Word) (br : Branch) : Prop :=
  ∃ args, br.args = args.map .value ∧ Departs cs cs cells br.target args

section Entries

variable {m : Nat} {n : Int} {cases : List Case} {e : Case × Label} {l : Label}

theorem map_fst_caseEntries (m : Nat) (cases : List Case) :
    (caseEntries m cases).map Prod.fst = cases := by
  induction cases generalizing m with
  | nil => rfl
  | cons c cases ih => rw [caseEntries, List.map_cons, ih]

theorem label_mem_entryChunks : .label l ∈ entryChunks e ↔ e.2 ≠ e.1.branch.target ∧ l = e.2 := by
  rw [entryChunks]
  split
  · simp_all
  · simp_all [Chunk.label, Chunk.jump]

theorem entry_split (he : e ∈ caseEntries m cases) (hne : e.2 ≠ e.1.branch.target) :
    ∃ xs ys, (caseEntries m cases).flatMap entryChunks
        = xs ++ .label e.2 :: .jump e.1.branch.target e.1.branch.values :: ys
      ∧ .label e.2 ∉ xs := by
  induction cases generalizing m with
  | nil => cases he
  | cons c cases ih =>
    rw [caseEntries, List.flatMap_cons]
    rcases List.mem_cons.mp he with rfl | he
    · refine ⟨[], (caseEntries (c.branch.after m) cases).flatMap entryChunks, ?_, List.not_mem_nil⟩
      rw [entryChunks, if_neg hne]
      rfl
    · obtain ⟨xs, ys, hsplit, hxs⟩ := ih he
      refine ⟨entryChunks (c, c.branch.label m) ++ xs, ys, by rw [hsplit, List.append_assoc], ?_⟩
      rw [List.mem_append, not_or]
      refine ⟨fun hmem => ?_, hxs⟩
      obtain ⟨hlabel, heq⟩ := label_mem_entryChunks.mp hmem
      have hargs : c.branch.args ≠ [] := fun h => hlabel (if_pos h)
      have hid : e.2 = ⟨m⟩ := heq.trans (if_neg hargs)
      rcases (mem_caseEntries he).2 with ⟨-, htarget⟩ | ⟨-, hle, -⟩
      · exact hne htarget
      · rw [Branch.after, if_neg hargs, hid] at hle
        exact absurd hle (by simp)

theorem lookup_keys (keys : List Int) (l : Label) (rest : List (Int × Label)) (n : Int) :
    (keys.map (·, l) ++ rest).lookup n = if n ∈ keys then some l else rest.lookup n := by
  induction keys with
  | nil => simp
  | cons k keys ih =>
    rw [List.map_cons, List.cons_append, List.lookup_cons, ih]
    by_cases h : n = k
    · simp [h]
    · simp [beq_false_of_ne h, h]

theorem lookup_cases (entries : List (Case × Label)) (n : Int) :
    (entries.flatMap fun (c, l) => (c.constants.filterMap Constant.int?).map (·, l)).lookup n
      = (entries.find? fun e => .int n ∈ e.1.constants).map Prod.snd := by
  induction entries with
  | nil => rfl
  | cons e entries ih =>
    have hmem : n ∈ e.1.constants.filterMap Constant.int? ↔ .int n ∈ e.1.constants := by
      simp [List.mem_filterMap, Constant.int?_eq_some]
    rw [List.flatMap_cons, lookup_keys, List.find?_cons, ih]
    by_cases h : .int n ∈ e.1.constants
    · simp [hmem, h]
    · simp [hmem, h]

theorem getElem?_tableTargets (entries : List (Case × Label)) (l : Label) {lo hi : Int} (h : lo ≤ n)
    (h' : n ≤ hi) : (tableTargets entries l lo (hi - lo + 1))[(n - lo).toNat]?
      = some (((entries.find? fun e => .int n ∈ e.1.constants).map Prod.snd).getD l) := by
  have hlt : (n - lo).toNat < (hi - lo + 1).toNat := by omega
  have hkey : lo + ((n - lo).toNat : Int) = n := by omega
  rw [tableTargets, List.getElem?_map, List.getElem?_range hlt, Option.map_some, hkey, lookup_cases]

theorem length_tableTargets (entries : List (Case × Label)) (l : Label) {lo hi : Int}
    (h : lo ≤ hi) :
    ((tableTargets entries l lo (hi - lo + 1)).length : Int) = hi - lo + 1 := by
  rw [tableTargets, List.length_map, List.length_range]
  omega

theorem taken_eq (m : Nat) (cases : List Case) (fallback : Branch) (n : Int) :
    taken cases fallback n = match (caseEntries m cases).find? fun e => .int n ∈ e.1.constants with
      | some e => e.1.branch
      | none => fallback := by
  rw [taken]
  nth_rewrite 1 [← map_fst_caseEntries m cases]
  rw [List.find?_map]
  simp only [Function.comp_def]
  cases (caseEntries m cases).find? fun e => .int n ∈ e.1.constants <;> rfl

end Entries

section Tables

variable {ctx : Context} {s : Selection} {v : Value} {cases : List Case} {fallback : Branch}
  {args : List Value} {t : Ty} {keys : List Int} {lo hi n : Int} {shift : List Machine.Instr}
  {cells : Value → Word} {r : IntShape} {l : Label}

theorem label_mem_tableChunks : .label l ∈ tableChunks s v cases fallback args t lo hi shift ↔
    fallback.args ≠ [] ∧ l = ⟨s.nextLabel⟩
      ∨ ∃ e ∈ caseEntries (fallback.after s.nextLabel) cases, e.2 ≠ e.1.branch.target
        ∧ l = e.2 := by
  have hfirst (code : List Item) : Chunk.label l ≠ ⟨code, [v]⟩ := by simp [Chunk.label]
  have hjump : Chunk.label l ≠ .jump fallback.target args := by simp [Chunk.label, Chunk.jump]
  simp only [tableChunks, List.mem_cons, hfirst, false_or, List.mem_append, hjump, List.mem_flatMap,
    label_mem_entryChunks]
  refine or_congr_left ?_
  by_cases hargs : fallback.args = []
  · simp [hargs]
  · simp [hargs, Branch.label, Chunk.label]

theorem outside_table (hs : ctx.graph.blocks.size ≤ s.nextLabel) (hl : ctx.graph.block? l ≠ none) :
    .label l ∉ tableChunks s v cases fallback args t lo hi shift := by
  have hlt : l.id < ctx.graph.blocks.size := by
    by_contra hge
    exact hl (Array.getElem?_eq_none (Nat.le_of_not_lt hge))
  rw [label_mem_tableChunks]
  rintro (⟨-, rfl⟩ | ⟨e, he, hne, rfl⟩)
  · exact absurd hlt (Nat.not_lt.mpr hs)
  · rcases (mem_caseEntries he).2 with ⟨-, h⟩ | ⟨-, h, -⟩
    · exact hne h
    · have := le_after fallback s.nextLabel
      omega

theorem Branch.Keeps.block?_ne_none {g : Graph} {scope : MarkScope} {br : Branch}
    (h : br.Keeps g scope) : g.block? br.target ≠ none := by
  obtain ⟨b, hb, -⟩ := h.target
  rw [hb]
  exact Option.some_ne_none b

section Labels

variable (hs : ctx.graph.blocks.size ≤ s.nextLabel)
  (h : Tabulated ctx s v cases fallback t keys lo hi) (shift) (cells)

include hs h

theorem departs_fallback (args : List Value) (hargs : fallback.args ≠ []) :
    let cs := tableChunks s v cases fallback args t lo hi shift
    Departs cs (cs.dropWhile (· ≠ .label ⟨s.nextLabel⟩)) cells fallback.target args := by
  intro cs
  have hcs : cs = [⟨tableCode s cases fallback t lo hi shift, [v]⟩] ++ .label ⟨s.nextLabel⟩
      :: .jump fallback.target args
      :: (caseEntries (fallback.after s.nextLabel) cases).flatMap entryChunks := by
    simp only [cs, tableChunks, Branch.label, if_neg hargs]
    rfl
  refine departs_label hcs ?_ (outside_table hs h.otherwise.block?_ne_none)
  simp [Chunk.label]

theorem departs_entry (args : List Value) {e : Case × Label}
    (he : e ∈ caseEntries (fallback.after s.nextLabel) cases) (hne : e.2 ≠ e.1.branch.target) :
    let cs := tableChunks s v cases fallback args t lo hi shift
    Departs cs (cs.dropWhile (· ≠ .label e.2)) cells e.1.branch.target e.1.branch.values := by
  intro cs
  obtain ⟨xs, ys, hsplit, hxs⟩ := entry_split he hne
  have hkeeps := (h.checked e he).resolve_left hne
  have hcs : cs = (⟨tableCode s cases fallback t lo hi shift, [v]⟩
      :: ((if fallback.args = [] then [] else [Chunk.label (fallback.label s.nextLabel)])
        ++ .jump fallback.target args :: xs))
      ++ .label e.2 :: .jump e.1.branch.target e.1.branch.values :: ys := by
    simp only [cs, tableChunks, hsplit, List.cons_append, List.append_assoc]
  refine departs_label hcs ?_ (outside_table hs hkeeps.block?_ne_none)
  have hle : fallback.after s.nextLabel ≤ e.2.id := by
    rcases (mem_caseEntries he).2 with ⟨-, h⟩ | ⟨-, h, -⟩
    · exact absurd h hne
    · exact h
  by_cases hargs : fallback.args = []
  · simpa [hargs, Chunk.label, Chunk.jump] using hxs
  · have hid : e.2 ≠ fallback.label s.nextLabel := by
      rw [Branch.after, if_neg hargs] at hle
      rw [Branch.label, if_neg hargs]
      rintro heq
      rw [heq] at hle
      exact absurd hle (by simp)
    simpa [hargs, Chunk.label, Chunk.jump, hid] using hxs

theorem departs_placed (ha : fallback.args = args.map .value)
    (hl : .label l ∈ tableChunks s v cases fallback args t lo hi shift) :
    let cs := tableChunks s v cases fallback args t lo hi shift
    ∃ target args', Departs cs (cs.dropWhile (· ≠ .label l)) cells target args' ∧ args' ≠ []
      ∧ ctx.graph.block? target ≠ none := by
  rcases label_mem_tableChunks.mp hl with ⟨hargs, rfl⟩ | ⟨e, he, hne, rfl⟩
  · refine ⟨_, _, departs_fallback shift cells hs h args hargs, ?_, h.otherwise.block?_ne_none⟩
    rintro rfl
    exact hargs ha
  · have hkeeps := (h.checked e he).resolve_left hne
    refine ⟨_, _, departs_entry shift cells hs h args he hne, ?_, hkeeps.block?_ne_none⟩
    intro hnil
    rcases (mem_caseEntries he).2 with ⟨-, htarget⟩ | ⟨hargs, -⟩
    · exact hne htarget
    · exact hargs (by rw [hkeeps.args_eq, hnil, List.map_nil])

end Labels

theorem mem_keys (h : Tabulated ctx s v cases fallback t keys lo hi) {k : Int} :
    k ∈ keys ↔ ∃ c ∈ cases, .int k ∈ c.constants := by
  rw [← List.mem_flatMap, h.constants, List.mem_map_of_injective]
  exact fun _ _ => Constant.int.inj

theorem run_tableChunk (h : Tabulated ctx s v cases fallback t keys lo hi) (hr : t.Ranges r)
    (hkeys : ∀ k ∈ keys, r.holds k = true) (hshift : shiftCode t lo = .ok shift)
    (hn : r.holds n = true) (hv : cells v = t.encode n) :
    ∃ cells' dest, Chunk.run ⟨tableCode s cases fallback t lo hi shift, [v]⟩ cells
        = some (dest, ⟨[], cells'⟩)
      ∧ match (caseEntries (fallback.after s.nextLabel) cases).find?
            fun e => .int n ∈ e.1.constants with
        | some e => dest = some e.2
        | none => dest = none ∨ dest = some (fallback.label s.nextLabel) := by
  have hle : lo ≤ hi := h.least.2 h.greatest.1
  have hsize := length_tableTargets (caseEntries (fallback.after s.nextLabel) cases)
    (fallback.label s.nextLabel) hle
  obtain ⟨cells', dest, hrun, hin, hout⟩ := run_table hr hshift hn (hkeys lo h.least.1)
    (hkeys hi h.greatest.1) hle h.small hsize (fallback.label s.nextLabel) ⟨s.nextValue⟩ cells
  refine ⟨cells', dest, ?_, ?_⟩
  · rw [Chunk.run, List.map_singleton, hv]
    exact hrun
  · split
    · rename_i e he
      have hkey : n ∈ keys := by
        refine (mem_keys h).mpr ⟨e.1, (mem_caseEntries (List.mem_of_find?_eq_some he)).1, ?_⟩
        simpa using List.find?_some he
      have hbounds : lo ≤ n ∧ n ≤ hi := ⟨h.least.2 hkey, h.greatest.2 hkey⟩
      rw [hin hbounds, getElem?_tableTargets _ _ hbounds.1 hbounds.2, he]
      rfl
    · rename_i he
      by_cases hbounds : lo ≤ n ∧ n ≤ hi
      · rw [hin hbounds, getElem?_tableTargets _ _ hbounds.1 hbounds.2, he]
        exact .inr rfl
      · exact hout hbounds

section Landings

variable (hs : ctx.graph.blocks.size ≤ s.nextLabel)
  (h : Tabulated ctx s v cases fallback t keys lo hi)
  (ha : fallback.args = args.map .value) {cells' : Value → Word}

include hs h ha

theorem leavesBy_fallback {dest : Option Label}
    (hrun : Chunk.run ⟨tableCode s cases fallback t lo hi shift, [v]⟩ cells
      = some (dest, ⟨[], cells'⟩))
    (hdest : dest = none ∨ dest = some (fallback.label s.nextLabel)) :
    LeavesBy (tableChunks s v cases fallback args t lo hi shift) cells fallback := by
  refine ⟨args, ha, ?_⟩
  have hout : .label fallback.target ∉ tableChunks s v cases fallback args t lo hi shift :=
    outside_table hs h.otherwise.block?_ne_none
  rcases hdest with rfl | rfl
  · refine .next hrun ?_
    split
    · exact .jump hout
    · exact .next run_label (.jump hout)
  · by_cases hargs : fallback.args = []
    · rw [Branch.label, if_pos hargs] at hrun
      obtain rfl : args = [] := List.map_eq_nil_iff.mp (ha.symm.trans hargs)
      exact .direct hrun hout
    · rw [Branch.label, if_neg hargs] at hrun
      exact .inside hrun (label_mem_tableChunks.mpr (.inl ⟨hargs, rfl⟩))
        (departs_fallback shift cells' hs h args hargs)

theorem leavesBy_entry_iff {e : Case × Label}
    (he : e ∈ caseEntries (fallback.after s.nextLabel) cases)
    (hrun : Chunk.run ⟨tableCode s cases fallback t lo hi shift, [v]⟩ cells
      = some (some e.2, ⟨[], cells'⟩)) :
    LeavesBy (tableChunks s v cases fallback args t lo hi shift) cells e.1.branch ↔
      (ctx.graph.block? e.1.branch.target = none → e.1.branch.args = []
        ∧ .label e.1.branch.target ∉ tableChunks s v cases fallback args t lo hi shift) := by
  by_cases hne : e.2 ≠ e.1.branch.target
  · -- A case with a label of its own has been checked.
    have hkeeps := (h.checked e he).resolve_left hne
    refine iff_of_true ⟨e.1.branch.values, hkeeps.args_eq, ?_⟩ fun hb =>
      absurd hb hkeeps.block?_ne_none
    exact .inside hrun (label_mem_tableChunks.mpr (.inr ⟨e, he, hne, rfl⟩))
      (departs_entry shift cells' hs h args he hne)
  · rw [not_not] at hne
    rw [hne] at hrun
    by_cases hl : .label e.1.branch.target ∈ tableChunks s v cases fallback args t lo hi shift
    · -- Control ends up at another block, with arguments.
      obtain ⟨target, args', hd, hargs', hb⟩ := departs_placed shift cells' hs h ha hl
      refine iff_of_false ?_ ?_
      · rintro ⟨as, has, hd'⟩
        obtain ⟨rfl, rfl⟩ := (Departs.inside hrun hl hd).unique hd'
        exact outside_table hs hb hl
      · intro himp
        by_cases hb' : ctx.graph.block? e.1.branch.target = none
        · exact (himp hb').2 hl
        · exact outside_table hs hb' hl
    · by_cases hargs : e.1.branch.args = []
      · exact iff_of_true ⟨[], hargs, .direct hrun hl⟩ fun _ => ⟨hargs, hl⟩
      · -- The new label of the case is its target, so no block has it.
        refine iff_of_false ?_ ?_
        · rintro ⟨as, has, hd⟩
          obtain ⟨-, rfl⟩ := (Departs.direct hrun hl).unique hd
          exact hargs has
        · intro himp
          refine hargs (himp ?_).1
          rcases (mem_caseEntries he).2 with ⟨h, -⟩ | ⟨-, hle, -⟩
          · exact absurd h hargs
          · rw [hne] at hle
            have := le_after fallback s.nextLabel
            exact Array.getElem?_eq_none (by omega)

end Landings

end Tables

section Tests

variable {ctx : Context} {s : Selection} {v : Value} {branch fallback : Branch}
  {args fallbackArgs : List Value} {t : Ty} {r : IntShape} {k n : Int} {code : List Item}
  {cells : Value → Word} {l : Label}

theorem outside_test (hs : ctx.graph.blocks.size ≤ s.nextLabel) (hl : ctx.graph.block? l ≠ none) :
    .label l ∉ Select.testChunks s v branch fallback args fallbackArgs code := by
  have hid : l ≠ ⟨s.nextLabel⟩ := by
    rintro rfl
    exact hl (Array.getElem?_eq_none hs)
  rw [Select.testChunks]
  split
  · simp [Chunk.label, Chunk.jump]
  · split
    · simp [Chunk.label, Chunk.jump]
    · rename_i hargs
      simp [Chunk.label, Chunk.jump, Branch.label, hargs, hid]

theorem leavesBy_test (hs : ctx.graph.blocks.size ≤ s.nextLabel) (hb : branch.Keeps ctx.graph none)
    (ha : branch.args = args.map .value) (hf : fallback.Keeps ctx.graph none)
    (hfa : fallback.args = fallbackArgs.map .value) (hr : t.Ranges r) (hk : r.holds k = true)
    (hcode : Select.compareCode t k (branch.args = []) (Select.testTarget s branch fallback)
      = .ok code)
    (hn : r.holds n = true) (hv : cells v = t.encode n) :
    LeavesBy (Select.testChunks s v branch fallback args fallbackArgs code) cells
      (if n = k then branch else fallback) := by
  have hbout :
      .label branch.target ∉ Select.testChunks s v branch fallback args fallbackArgs code :=
    outside_test hs hb.block?_ne_none
  have hfout :
      .label fallback.target ∉ Select.testChunks s v branch fallback args fallbackArgs code :=
    outside_test hs hf.block?_ne_none
  have hrun : Chunk.run ⟨code, [v]⟩ cells = some (if decide (n = k) = decide (branch.args = [])
      then some (Select.testTarget s branch fallback) else none, ⟨[], cells⟩) := by
    rw [Chunk.run, List.map_singleton, hv]
    exact run_compare hr hn hk hcode
  unfold Select.testChunks Select.testTarget at *
  by_cases hargs : branch.args = []
  · rw [if_pos hargs] at hbout hfout hrun ⊢
    by_cases hnk : n = k
    · rw [if_pos (by simp [hnk, hargs])] at hrun
      rw [if_pos hnk]
      exact ⟨[], hargs, .direct hrun hbout⟩
    · rw [if_neg (by simp [hnk, hargs])] at hrun
      rw [if_neg hnk]
      exact ⟨fallbackArgs, hfa, .next hrun (.jump hfout)⟩
  · rw [if_neg hargs] at hbout hfout hrun ⊢
    by_cases hnk : n = k
    · rw [if_neg (by simp [hnk, hargs])] at hrun
      rw [if_pos hnk]
      exact ⟨args, ha, .next hrun (.jump hbout)⟩
    · rw [if_pos (by simp [hnk, hargs])] at hrun
      rw [if_neg hnk]
      refine ⟨fallbackArgs, hfa, ?_⟩
      by_cases hfargs : fallback.args = []
      · rw [Branch.label, if_pos hfargs] at hrun
        obtain rfl : fallbackArgs = [] := List.map_eq_nil_iff.mp (hfa.symm.trans hfargs)
        exact .direct hrun hfout
      · rw [if_neg hfargs] at hfout ⊢
        have hfirst : .label (fallback.label s.nextLabel)
            ∉ [⟨code, [v]⟩, Chunk.jump branch.target args] := by
          simp [Chunk.label, Chunk.jump]
        exact .inside hrun (by simp) (departs_label rfl hfirst hfout)

end Tests

section Switches

variable {ctx : Context} {b : Block} {s : Selection} {v : Value} {cases : List Case}
  {fallback : Branch} {t : Ty} {r : IntShape} {cs : List Chunk}

theorem eq_of_shared_key {c c' : Case} {k : Constant} (h : (cases.flatMap Case.constants).Nodup)
    (hc : c ∈ cases) (hc' : c' ∈ cases) (hk : k ∈ c.constants) (hk' : k ∈ c'.constants) :
    c = c' := by
  by_contra hne
  have : Std.Symm (Function.onFun List.Disjoint Case.constants) := ⟨fun _ _ h => h.symm⟩
  exact (List.nodup_flatMap.mp h).2.forall hc hc' hne hk hk'

def Case.Safe (c : Case) (g : Graph) (cs : List Chunk) : Prop :=
  g.block? c.branch.target = none → c.branch.args = [] ∧ .label c.branch.target ∉ cs

theorem leavesBy_table_iff {args : List Value} {keys : List Int} {lo hi : Int}
    {shift : List Machine.Instr} (hs : ctx.graph.blocks.size ≤ s.nextLabel)
    (h : Tabulated ctx s v cases fallback t keys lo hi) (ha : fallback.args = args.map .value)
    (hr : t.Ranges r) (hkeys : ∀ k ∈ keys, r.holds k = true) (hshift : shiftCode t lo = .ok shift)
    {n : Int} (hn : r.holds n = true) {cells : Value → Word} (hv : cells v = t.encode n) :
    LeavesBy (tableChunks s v cases fallback args t lo hi shift) cells (taken cases fallback n) ↔
      ∀ c ∈ cases, .int n ∈ c.constants →
        c.Safe ctx.graph (tableChunks s v cases fallback args t lo hi shift) := by
  have hnodup : (cases.flatMap Case.constants).Nodup := by
    rw [h.constants]
    exact h.distinct.map fun _ _ => Constant.int.inj
  obtain ⟨cells', dest, hrun, hdest⟩ := run_tableChunk h hr hkeys hshift hn hv
  rw [taken_eq (fallback.after s.nextLabel)]
  cases hfind : (caseEntries (fallback.after s.nextLabel) cases).find?
      fun e => .int n ∈ e.1.constants with
  | none =>
    rw [hfind] at hdest
    refine iff_of_true (leavesBy_fallback hs h ha hrun hdest) fun c hc hmem => ?_
    rw [← map_fst_caseEntries (fallback.after s.nextLabel) cases] at hc
    obtain ⟨e, he, rfl⟩ := List.mem_map.mp hc
    exact absurd (decide_eq_true hmem) (List.find?_eq_none.mp hfind e he)
  | some e =>
    rw [hfind] at hdest
    rw [hdest] at hrun
    have he := List.mem_of_find?_eq_some hfind
    have hmem : .int n ∈ e.1.constants := by simpa using List.find?_some hfind
    refine (leavesBy_entry_iff hs h ha he hrun).trans ⟨fun hsafe c hc hmem' => ?_, fun hall => ?_⟩
    · rw [eq_of_shared_key hnodup hc (mem_caseEntries he).1 hmem' hmem]
      exact hsafe
    · exact hall e.1 (mem_caseEntries he).1 hmem

theorem taken_single (k : Int) (branch fallback : Branch) (n : Int) :
    taken [⟨[.int k], branch⟩] fallback n = if n = k then branch else fallback := by
  rw [taken]
  by_cases h : n = k <;> simp [h]

theorem leavesBy_taken_iff (hs : ctx.graph.blocks.size ≤ s.nextLabel)
    (ht : ctx.type? s v = some t) (hr : t.Ranges r)
    (hc : ∀ c ∈ cases, ∀ k ∈ c.constants, ∃ n, k = .int n ∧ r.holds n = true)
    (h : Select.Gives (Select.switch ctx b v cases fallback) s cs) {n : Int} (hn : r.holds n = true)
    {cells : Value → Word} (hv : cells v = t.encode n) :
    LeavesBy cs cells (taken cases fallback n) ↔
      ∀ c ∈ cases, .int n ∈ c.constants → c.Safe ctx.graph cs := by
  obtain ⟨u, hu⟩ := h
  obtain ⟨-, args, hf, ha, hcs⟩ := Select.meets_switch.of_run hu
  cases hcs with
  | empty =>
    refine iff_of_true ⟨args, ha, .jump ?_⟩ fun c hc => absurd hc List.not_mem_nil
    simp [Chunk.label, Chunk.jump]
  | test htest =>
    obtain ⟨k, rfl, hk⟩ := hc _ List.mem_cons_self _ List.mem_cons_self
    obtain ⟨type, ht', hcode⟩ := htest.compared
    obtain rfl := Option.some.inj (ht'.symm.trans ht)
    rw [taken_single]
    refine iff_of_true (leavesBy_test hs htest.keeps htest.passed hf ha hr hk (hcode k rfl) hn hv)
      fun c hcm _ hnone => ?_
    obtain rfl := List.mem_singleton.mp hcm
    exact absurd hnone htest.keeps.block?_ne_none
  | table htab =>
    obtain rfl := Option.some.inj (htab.typed.symm.trans ht)
    refine leavesBy_table_iff hs htab.toTabulated ha hr (fun k hk => ?_) htab.shifted hn hv
    obtain ⟨c, hcm, hk⟩ := (mem_keys htab.toTabulated).mp hk
    obtain ⟨n, hkn, hn⟩ := hc c hcm _ hk
    rw [Constant.int.inj hkn]
    exact hn

/-- A switch goes where it says on all integers exactly if each case with constants that leads to an
unknown block has no arguments, and no label of its own chunks for a target. -/
theorem switch_dispatches_iff (hs : ctx.graph.blocks.size ≤ s.nextLabel)
    (ht : ctx.type? s v = some t) (hr : t.Ranges r)
    (hc : ∀ c ∈ cases, ∀ k ∈ c.constants, ∃ n, k = .int n ∧ r.holds n = true)
    (h : Select.Gives (Select.switch ctx b v cases fallback) s cs) :
    ((∀ n, r.holds n = true → ∀ cells : Value → Word, cells v = t.encode n →
          LeavesBy cs cells (taken cases fallback n)) ↔
        ∀ c ∈ cases, c.constants ≠ [] → c.Safe ctx.graph cs)
      ∧ (Tabular cases → ∃ code table lo hi rest, cs = ⟨code ++ [.switch table], [v]⟩ :: rest
          ∧ IsLeast {k | ∃ c ∈ cases, .int k ∈ c.constants} lo
          ∧ IsGreatest {k | ∃ c ∈ cases, .int k ∈ c.constants} hi
          ∧ (table.length : Int) = hi - lo + 1) := by
  refine ⟨⟨fun hall c hcm hne => ?_, fun hsafe n hn cells hv => ?_⟩, fun hform => ?_⟩
  · obtain ⟨k, hk⟩ := List.exists_mem_of_ne_nil _ hne
    obtain ⟨n, rfl, hn⟩ := hc c hcm k hk
    exact (leavesBy_taken_iff hs ht hr hc h hn rfl).mp (hall n hn (fun _ => t.encode n) rfl) c hcm
      hk
  · refine (leavesBy_taken_iff hs ht hr hc h hn hv).mpr fun c hcm hmem => ?_
    exact hsafe c hcm (List.ne_nil_of_mem hmem)
  · obtain ⟨u, hu⟩ := h
    obtain ⟨-, args, -, -, hcs⟩ := Select.meets_switch.of_run hu
    cases hcs with
    | empty => exact absurd rfl hform.1
    | test => exact absurd rfl (hform.2 _ _)
    | @table _ _ keys lo hi _ _ htab =>
      have hset : {k | ∃ c ∈ cases, .int k ∈ c.constants} = {k | k ∈ keys} :=
        Set.ext fun _ => (mem_keys htab.toTabulated).symm
      rw [hset]
      exact ⟨_, _, lo, hi, _, rfl, htab.least, htab.greatest,
        length_tableTargets _ _ (htab.least.2 htab.greatest.1)⟩

end Switches

def signCases : List Case :=
  [⟨[.int (-1)], ⟨⟨1⟩, [.value ⟨0⟩]⟩⟩, ⟨[.int 0, .int 1], ⟨⟨2⟩, []⟩⟩]

def signSwitch : Block := switching (.signed 8) signCases ⟨⟨1⟩, [.value ⟨0⟩]⟩

def sign : Graph :=
  ⟨⟨0⟩, #[signSwitch, returning 1 "a" [⟨⟨1⟩, .signed 8⟩], returning 2 "b" []],
    #[⟨some "x", .signed 8, .parameter ⟨0⟩ 0⟩, ⟨some "y", .signed 8, .parameter ⟨1⟩ 0⟩]⟩

theorem signSwitch_dispatches : ∃ cs, Select.Gives
      (Select.switch ⟨sign, {}⟩ signSwitch ⟨0⟩ signCases ⟨⟨1⟩, [.value ⟨0⟩]⟩) (.start sign {}) cs
    ∧ ∀ n, (IntShape.mk 8 true).holds n = true → ∀ cells : Value → Word,
      cells ⟨0⟩ = (Ty.signed 8).encode n → LeavesBy cs cells
        (taken signCases ⟨⟨1⟩, [.value ⟨0⟩]⟩ n) := by
  have hc : ∀ c ∈ signCases, ∀ k ∈ c.constants, ∃ n, k = .int n
      ∧ (IntShape.mk 8 true).holds n = true := by
    simp only [signCases, List.forall_mem_cons]
    exact ⟨⟨⟨-1, rfl, by decide⟩, List.forall_mem_nil _⟩,
      ⟨⟨0, rfl, by decide⟩, ⟨1, rfl, by decide⟩, List.forall_mem_nil _⟩, List.forall_mem_nil _⟩
  have hblocks : ∀ c ∈ signCases, sign.block? c.branch.target ≠ none := by decide +kernel
  obtain ⟨cs, h⟩ : ∃ cs, Select.Gives (Select.switch ⟨sign, {}⟩ signSwitch ⟨0⟩ signCases
      ⟨⟨1⟩, [.value ⟨0⟩]⟩) (.start sign {}) cs := ⟨_, _, rfl⟩
  refine ⟨cs, h, (switch_dispatches_iff (le_refl _) rfl (.int (by decide)) hc h).1.mpr ?_⟩
  exact fun c hcm _ hnone => absurd hnone (hblocks c hcm)

def strayCases : List Case := [⟨[.int 0], ⟨⟨2⟩, []⟩⟩, ⟨[.int 1], ⟨⟨1⟩, [.value ⟨0⟩]⟩⟩]

def straySwitch : Block := switching (.signed 32) strayCases ⟨⟨1⟩, [.value ⟨0⟩]⟩

/-- The first case goes to a third block, and there are two. -/
def stray : Graph :=
  ⟨⟨0⟩, #[straySwitch, returning 1 "a" [⟨⟨1⟩, .signed 32⟩]],
    #[⟨some "x", .signed 32, .parameter ⟨0⟩ 0⟩, ⟨some "y", .signed 32, .parameter ⟨1⟩ 0⟩]⟩

def strayChunks : List Chunk :=
  [⟨[.switch [⟨2⟩, ⟨3⟩]], [⟨0⟩]⟩, .label ⟨2⟩, .jump ⟨1⟩ [⟨0⟩], .label ⟨3⟩, .jump ⟨1⟩ [⟨0⟩]]

theorem straySwitch_misled : Select.Gives (Select.switch ⟨stray, {}⟩ straySwitch ⟨0⟩ strayCases
      ⟨⟨1⟩, [.value ⟨0⟩]⟩) (.start stray {}) strayChunks
    ∧ Departs strayChunks strayChunks (fun _ => (Ty.signed 32).encode 0) ⟨1⟩ [⟨0⟩]
    ∧ ¬LeavesBy strayChunks (fun _ => (Ty.signed 32).encode 0)
      (taken strayCases ⟨⟨1⟩, [.value ⟨0⟩]⟩ 0) := by
  have hsplit : strayChunks = [⟨[.switch [⟨2⟩, ⟨3⟩]], [⟨0⟩]⟩]
      ++ .label ⟨2⟩ :: .jump ⟨1⟩ [⟨0⟩] :: [.label ⟨3⟩, .jump ⟨1⟩ [⟨0⟩]] := rfl
  have hd : Departs strayChunks strayChunks (fun _ => (Ty.signed 32).encode 0) ⟨1⟩ [⟨0⟩] :=
    .inside rfl (by decide) (departs_label hsplit (by decide) (by decide))
  refine ⟨⟨_, rfl⟩, hd, ?_⟩
  rintro ⟨args, -, hd'⟩
  exact absurd (hd.unique hd').1 (by decide)

end StackCode
