import Mathlib.Data.List.Perm.Subperm
import Mathlib.Logic.Function.Iterate
import Mathlib.Tactic.Tauto
import StackCode.Proofs.Segments
import StackCode.Stream.Liveness

namespace StackCode

namespace Item

def reads (v : Value) (i : Item) : Bool :=
  i.access? = some (v, false)

def stores (v : Value) (i : Item) : Bool :=
  i.access? = some (v, true)

theorem stores_iff {v : Value} {i : Item} : i.stores v = true ↔ i = .store v := by
  cases i <;> simp [stores, access?]

end Item

section Sets

variable {α : Type} [DecidableEq α] {a : α} {set more : List α}

theorem mem_insertAll : a ∈ insertAll set more ↔ a ∈ set ∨ a ∈ more := by
  induction more generalizing set with
  | nil => simp [insertAll]
  | cons b more ih =>
    rw [insertAll, List.foldl_cons]
    refine ih.trans ?_
    rw [List.mem_insert_iff, List.mem_cons]
    tauto

theorem sameEntries_iff {xs ys : List α} : sameEntries xs ys = true ↔ ∀ a, a ∈ xs ↔ a ∈ ys := by
  simp only [sameEntries, Bool.and_eq_true, List.all_eq_true, List.contains_iff_mem]
  exact ⟨fun h a => ⟨h.1 a, h.2 a⟩, fun h => ⟨fun a => (h a).mp, fun a => (h a).mpr⟩⟩

end Sets

theorem mem_gather {sets : List (List Value)} {ns : List Nat} {v : Value} :
    v ∈ gather sets ns ↔ ∃ n ∈ ns, v ∈ sets.getD n [] := by
  have hfold : ∀ s : List Value, v ∈ ns.foldl (fun s n => insertAll s (sets.getD n [])) s ↔
      v ∈ s ∨ ∃ n ∈ ns, v ∈ sets.getD n [] := by
    induction ns with
    | nil => simp
    | cons n ns ih =>
      intro s
      rw [List.foldl_cons, ih, mem_insertAll]
      simp [or_assoc]
  exact (hfold []).trans (by simp)

section Walk

variable {tracked always out : List Value} {v : Value} {i : Item} {w : Walk} {code : List Item}

theorem mem_step_always (hw : ∀ u ∈ always, u ∈ w.live) (hv : v ∈ always) :
    v ∈ (w.step tracked always i).live := by
  unfold Walk.step
  split
  · exact hw v hv
  · split
    · split <;> exact mem_insertAll.mpr (.inr hv)
    · exact hw v hv

theorem mem_walk_always (hv : v ∈ always) : v ∈ (walk tracked always out code).live := by
  induction code generalizing v with
  | nil => exact mem_insertAll.mpr (.inr hv)
  | cons i code ih => exact mem_step_always (fun u hu => ih hu) hv

theorem mem_step_iff (hv : v ∈ tracked) (hw : ∀ u ∈ always, u ∈ w.live) :
    v ∈ (w.step tracked always i).live ↔
      v ∈ always ∨ i.reads v = true ∨ i.stores v = false ∧ v ∈ w.live := by
  have halways := hw v
  unfold Walk.step Item.reads Item.stores
  cases i.access? with
  | none =>
    simp
    tauto
  | some e =>
    obtain ⟨u, stores⟩ := e
    by_cases hu : u ∈ tracked
    · cases stores with
      | true =>
        have hcomm : u = v ↔ v = u := eq_comm
        simp [hu, mem_insertAll, hcomm]
        tauto
      | false =>
        have hcomm : u = v ↔ v = u := eq_comm
        simp [hu, mem_insertAll, hcomm]
        tauto
    · have hne : u ≠ v := fun h => hu (h ▸ hv)
      simp [hu, hne]
      tauto

theorem step_tracked (ha : ∀ u ∈ always, u ∈ tracked) (hw : ∀ u ∈ w.live, u ∈ tracked)
    (hv : v ∈ (w.step tracked always i).live) : v ∈ tracked := by
  unfold Walk.step at hv
  split at hv
  · exact hw v hv
  · rename_i u stores hu
    split at hv
    · rename_i htracked
      rw [List.contains_iff_mem] at htracked
      split at hv <;> rw [mem_insertAll] at hv
      · rcases hv with hv | hv
        · exact hw v (List.mem_filter.mp hv).1
        · exact ha v hv
      · rcases hv with hv | hv
        · rcases List.mem_insert_iff.mp hv with rfl | hv
          · exact htracked
          · exact hw v hv
        · exact ha v hv
    · exact hw v hv

theorem walk_tracked (ha : ∀ u ∈ always, u ∈ tracked) (ho : ∀ u ∈ out, u ∈ tracked)
    (hv : v ∈ (walk tracked always out code).live) : v ∈ tracked := by
  induction code generalizing v with
  | nil =>
    rcases mem_insertAll.mp hv with hv | hv
    · exact ho v hv
    · exact ha v hv
  | cons i code ih => exact step_tracked ha (fun u hu => ih hu) hv

theorem mem_stored_step {e : Value × List Value} : e ∈ (w.step tracked always i).stored ↔
    (e.1 ∈ tracked ∧ i = .store e.1 ∧ e.2 = w.live) ∨ e ∈ w.stored := by
  obtain ⟨u, live⟩ := e
  cases i with
  | store x =>
    by_cases hx : x ∈ tracked
    · simp only [Walk.step, Item.access?, List.contains_iff_mem, hx, if_true, List.mem_cons,
        Prod.mk.injEq, Item.store.injEq]
      refine or_congr_left ⟨?_, ?_⟩
      · rintro ⟨rfl, rfl⟩
        exact ⟨hx, rfl, rfl⟩
      · rintro ⟨-, rfl, rfl⟩
        exact ⟨rfl, rfl⟩
    · simp only [Walk.step, Item.access?, List.contains_iff_mem, hx, if_false, Item.store.injEq]
      refine (or_iff_right ?_).symm
      rintro ⟨hu, rfl, -⟩
      exact hx hu
  | load x | address x =>
    simp only [Walk.step, Item.access?, reduceCtorEq, false_and, and_false, false_or]
    split <;> rfl
  | _ => simp [Walk.step, Item.access?]

theorem walk_mono {always' out' : List Value} (ha : ∀ u ∈ always, u ∈ always')
    (ho : ∀ u ∈ out, u ∈ out') (hv : v ∈ tracked) (h : v ∈ (walk tracked always out code).live) :
    v ∈ (walk tracked always' out' code).live := by
  induction code with
  | nil => exact mem_insertAll.mpr ((mem_insertAll.mp h).imp (ho v) (ha v))
  | cons i code ih =>
    refine (mem_step_iff hv fun u hu => mem_walk_always hu).mpr ?_
    rcases (mem_step_iff hv fun u hu => mem_walk_always hu).mp h with h | h | ⟨hs, h⟩
    · exact .inl (ha v h)
    · exact .inr (.inl h)
    · exact .inr (.inr ⟨hs, ih h⟩)

end Walk

structure Layout.Linked (l : Layout) : Prop where
  predecessors : ∀ m n, n < l.code.length →
    (m ∈ l.predecessors.getD n [] ↔ n ∈ l.successors.getD m [])
  handlers : ∀ m n, n ∈ l.handlers.getD m [] → n ∈ l.successors.getD m []
  bound : ∀ m n, n ∈ l.successors.getD m [] → m < l.code.length

theorem getD_set {α : Type} {xs : List α} {n m : Nat} {a d : α} (hn : n < xs.length) :
    (xs.set n a).getD m d = if m = n then a else xs.getD m d := by
  simp only [List.getD_eq_getElem?_getD, List.getElem?_set, hn, if_true]
  by_cases h : m = n
  · simp [h]
  · rw [if_neg (Ne.symm h), if_neg h]

namespace Dataflow

variable {l : Layout} {tracked : List Value} {d : Dataflow} {size n m : Nat}

structure Queued (size : Nat) (d : Dataflow) : Prop where
  length : d.queued.length = size
  flag : ∀ n < size, d.queued.getD n true = true ↔ n ∈ d.queue
  nodup : d.queue.Nodup
  bound : ∀ n ∈ d.queue, n < size

theorem Queued.enqueue (h : d.Queued size) (hn : n < size) :
    (d.enqueue n).Queued size ∧ ∀ m, m ∈ (d.enqueue n).queue ↔ m = n ∨ m ∈ d.queue := by
  unfold Dataflow.enqueue
  split
  · rename_i hq
    have hmem := (h.flag n hn).mp hq
    refine ⟨h, fun m => ⟨.inr, ?_⟩⟩
    rintro (rfl | hm)
    · exact hmem
    · exact hm
  · rename_i hq
    have hmem : n ∉ d.queue := mt (h.flag n hn).mpr hq
    refine ⟨⟨by simpa using h.length, ?_, List.nodup_cons.mpr ⟨hmem, h.nodup⟩, ?_⟩, ?_⟩
    · intro m hm
      rw [getD_set (h.length ▸ hn), List.mem_cons, ← h.flag m hm]
      by_cases hmn : m = n <;> simp [hmn]
    · exact List.forall_mem_cons.mpr ⟨hn, h.bound⟩
    · exact fun m => List.mem_cons

theorem liveIn_enqueue (d : Dataflow) (n : Nat) : (d.enqueue n).liveIn = d.liveIn := by
  unfold Dataflow.enqueue
  split <;> rfl

theorem Queued.enqueueAll (h : d.Queued size) {ns : List Nat} (hn : ∀ n ∈ ns, n < size) :
    (ns.foldl Dataflow.enqueue d).Queued size
      ∧ (∀ m, m ∈ (ns.foldl Dataflow.enqueue d).queue ↔ m ∈ ns ∨ m ∈ d.queue)
      ∧ (ns.foldl Dataflow.enqueue d).liveIn = d.liveIn := by
  induction ns generalizing d with
  | nil => exact ⟨h, by simp, rfl⟩
  | cons n ns ih =>
    rw [List.forall_mem_cons] at hn
    obtain ⟨hq, hmem⟩ := h.enqueue hn.1
    obtain ⟨hqs, hmems, hlive⟩ := ih hq hn.2
    refine ⟨hqs, fun m => ?_, hlive.trans (liveIn_enqueue d n)⟩
    rw [List.foldl_cons, hmems, hmem, List.mem_cons]
    tauto

theorem Queued.dequeue {queue : List Nat} (h : d.Queued size) (hq : d.queue = n :: queue) :
    n < size ∧ Queued size { d with queue, queued := d.queued.set n false } := by
  obtain ⟨hlen, hflag, hnodup, hbound⟩ := h
  rw [hq] at hflag hnodup hbound
  rw [List.nodup_cons] at hnodup
  rw [List.forall_mem_cons] at hbound
  refine ⟨hbound.1, by simpa using hlen, ?_, hnodup.2, hbound.2⟩
  intro m hm
  rw [getD_set (hlen ▸ hbound.1)]
  by_cases hmn : m = n
  · subst hmn
    simp [hnodup.1]
  · rw [if_neg hmn, hflag m hm, List.mem_cons]
    simp [hmn]

/-- What holds from round to round: every segment that is not queued has been found what its
successors call for. -/
structure Sound (l : Layout) (tracked : List Value) (d : Dataflow) : Prop
    extends Queued l.code.length d where
  size : d.liveIn.length = l.code.length
  within : ∀ n, ∀ v ∈ d.liveIn.getD n [], v ∈ tracked
  grows : ∀ n, ∀ v ∈ d.liveIn.getD n [], v ∈ (l.walk tracked d.liveIn n).live
  settled : ∀ n < l.code.length, n ∉ d.queue →
    ∀ v ∈ (l.walk tracked d.liveIn n).live, v ∈ d.liveIn.getD n []

theorem gather_tracked {liveIn : List (List Value)} (h : ∀ n, ∀ v ∈ liveIn.getD n [], v ∈ tracked)
    (ns : List Nat) : ∀ v ∈ gather liveIn ns, v ∈ tracked := by
  intro v hv
  obtain ⟨n, -, hv⟩ := mem_gather.mp hv
  exact h n v hv

theorem walk_tracked {liveIn : List (List Value)} (h : ∀ n, ∀ v ∈ liveIn.getD n [], v ∈ tracked)
    {v : Value} (hv : v ∈ (l.walk tracked liveIn n).live) : v ∈ tracked :=
  StackCode.walk_tracked (gather_tracked h _) (gather_tracked h _) hv

theorem gather_mono {liveIn liveIn' : List (List Value)}
    (h : ∀ n, ∀ v ∈ liveIn.getD n [], v ∈ liveIn'.getD n []) (ns : List Nat) :
    ∀ v ∈ gather liveIn ns, v ∈ gather liveIn' ns := by
  intro v hv
  obtain ⟨n, hn, hv⟩ := mem_gather.mp hv
  exact mem_gather.mpr ⟨n, hn, h n v hv⟩

theorem walk_mono {liveIn liveIn' : List (List Value)}
    (h : ∀ n, ∀ v ∈ liveIn.getD n [], v ∈ liveIn'.getD n []) {v : Value} (ht : v ∈ tracked)
    (hv : v ∈ (l.walk tracked liveIn n).live) : v ∈ (l.walk tracked liveIn' n).live :=
  StackCode.walk_mono (gather_mono h _) (gather_mono h _) ht hv

theorem gather_congr {liveIn liveIn' : List (List Value)} {ns : List Nat}
    (h : ∀ n ∈ ns, liveIn.getD n [] = liveIn'.getD n []) :
    gather liveIn ns = gather liveIn' ns := by
  have hfold : ∀ s : List Value, ns.foldl (fun s n => insertAll s (liveIn.getD n [])) s
      = ns.foldl (fun s n => insertAll s (liveIn'.getD n [])) s := by
    induction ns with
    | nil => exact fun _ => rfl
    | cons n ns ih =>
      rw [List.forall_mem_cons] at h
      intro s
      rw [List.foldl_cons, List.foldl_cons, h.1, ih h.2]
  exact hfold []

theorem walk_set (hl : l.Linked) {liveIn : List (List Value)} {live : List Value}
    (hn : n < liveIn.length) (hm : n ∉ l.successors.getD m []) :
    l.walk tracked (liveIn.set n live) m = l.walk tracked liveIn m := by
  have hgather : ∀ ns : List Nat, n ∉ ns → gather (liveIn.set n live) ns = gather liveIn ns := by
    intro ns hns
    refine gather_congr fun k hk => ?_
    rw [getD_set hn, if_neg (ne_of_mem_of_not_mem hk hns)]
  rw [Layout.walk, hgather _ hm, hgather _ (mt (hl.handlers m n) hm), ← Layout.walk]

def missing (tracked : List Value) (d : Dataflow) : Nat :=
  (d.liveIn.flatMap fun live => tracked.filter fun v => !live.contains v).length

def potential (tracked : List Value) (d : Dataflow) : Nat :=
  d.missing tracked * (d.liveIn.length + 1) + d.queue.length

theorem missing_set {liveIn : List (List Value)} {live : List Value} {v : Value}
    (hn : n < liveIn.length) (hle : ∀ u ∈ liveIn.getD n [], u ∈ live) (hv : v ∈ tracked)
    (hlive : v ∈ live) (hnew : v ∉ liveIn.getD n []) :
    ((liveIn.set n live).flatMap fun live => tracked.filter fun v => !live.contains v).length
      < (liveIn.flatMap fun live => tracked.filter fun v => !live.contains v).length := by
  induction liveIn generalizing n with
  | nil => simp at hn
  | cons first rest ih =>
    cases n with
    | zero =>
      simp only [List.set_cons_zero, List.flatMap_cons, List.length_append,
        Nat.add_lt_add_iff_right, ← List.countP_eq_length_filter]
      simp only [List.getD_cons_zero] at hle hnew
      have hmono : ∀ ts : List Value, ts.countP (fun v => !live.contains v)
          ≤ ts.countP fun v => !first.contains v := fun ts =>
        List.countP_mono_left fun u _ hu => by
          simp only [Bool.not_eq_true', ← Bool.not_eq_true, List.contains_iff_mem] at hu ⊢
          exact fun h => hu (hle u h)
      obtain ⟨xs, ys, rfl⟩ := List.append_of_mem hv
      have hx := hmono xs
      have hy := hmono ys
      simp only [List.countP_append, List.countP_cons, Bool.not_eq_true', ← Bool.not_eq_true,
        List.contains_iff_mem, hlive, hnew, not_true_eq_false, not_false_eq_true, if_true, if_false]
      omega
    | succ n =>
      simp only [List.set_cons_succ, List.flatMap_cons, List.length_append, Nat.add_lt_add_iff_left]
      exact ih (Nat.lt_of_succ_lt_succ hn) hle hnew

theorem Queued.length_le (h : d.Queued size) : d.queue.length ≤ size := by
  have hsub : d.queue ⊆ List.range size := fun n hn => List.mem_range.mpr (h.bound n hn)
  simpa using (List.subperm_of_subset h.nodup hsub).length_le

theorem Queued.round {queue : List Nat} (h : d.Queued l.code.length) (hl : l.Linked)
    (hq : d.queue = n :: queue) (tracked : List Value) :
    n < l.code.length ∧ (d.round l tracked).Queued l.code.length
      ∧ ((∀ v, v ∈ (l.walk tracked d.liveIn n).live ↔ v ∈ d.liveIn.getD n [])
          ∧ (d.round l tracked).liveIn = d.liveIn ∧ (d.round l tracked).queue = queue
        ∨ (¬∀ v, v ∈ (l.walk tracked d.liveIn n).live ↔ v ∈ d.liveIn.getD n [])
          ∧ (d.round l tracked).liveIn = d.liveIn.set n (l.walk tracked d.liveIn n).live
          ∧ ∀ m, m ∈ (d.round l tracked).queue ↔ m ∈ l.predecessors.getD n [] ∨ m ∈ queue) := by
  obtain ⟨hn, hdequeued⟩ := h.dequeue hq
  have hbound : ∀ m ∈ l.predecessors.getD n [], m < l.code.length := fun m hm =>
    hl.bound m n ((hl.predecessors m n hn).mp hm)
  refine ⟨hn, ?_⟩
  rw [Dataflow.round, hq]
  dsimp only
  split
  · rename_i hsame
    exact ⟨hdequeued, .inl ⟨sameEntries_iff.mp hsame, rfl, rfl⟩⟩
  · rename_i hdiffer
    obtain ⟨hqueued, hmem, hlive⟩ := Queued.enqueueAll
      (d := ⟨d.liveIn.set n (l.walk tracked d.liveIn n).live, queue, d.queued.set n false⟩)
      ⟨hdequeued.length, hdequeued.flag, hdequeued.nodup, hdequeued.bound⟩ hbound
    exact ⟨hqueued, .inr ⟨mt sameEntries_iff.mpr hdiffer, hlive, hmem⟩⟩

/-- A round keeps what it should, and lowers the potential. Where a segment is not queued again
after a change, its successors have not changed. -/
theorem Sound.round (h : d.Sound l tracked) (hl : l.Linked) (hq : d.queue ≠ []) :
    (d.round l tracked).Sound l tracked
      ∧ (d.round l tracked).potential tracked < d.potential tracked := by
  obtain ⟨n, queue, hqueue⟩ := List.exists_cons_of_ne_nil hq
  obtain ⟨hn, hqueued, ⟨hsame, hlive, hrest⟩ | ⟨hdiffer, hlive, hmem⟩⟩ :=
    h.toQueued.round hl hqueue tracked
  · generalize d.round l tracked = d' at *
    refine ⟨⟨hqueued, hlive ▸ h.size, hlive ▸ h.within, hlive ▸ h.grows, ?_⟩, ?_⟩
    · intro m hm hout
      rw [hrest] at hout
      rw [hlive]
      by_cases hmn : m = n
      · subst hmn
        exact fun v => (hsame v).mp
      · refine h.settled m hm ?_
        rw [hqueue, List.mem_cons, not_or]
        exact ⟨hmn, hout⟩
    · rw [potential, potential, missing, missing, hlive, hrest, hqueue, List.length_cons]
      exact Nat.lt_succ_self _
  · generalize d.round l tracked = d' at *
    have hlen : n < d.liveIn.length := h.size.symm ▸ hn
    have hget : ∀ m, d'.liveIn.getD m [] =
        if m = n then (l.walk tracked d.liveIn n).live else d.liveIn.getD m [] := by
      intro m
      rw [hlive, getD_set hlen]
    have hle : ∀ m, ∀ v ∈ d.liveIn.getD m [], v ∈ d'.liveIn.getD m [] := by
      intro m v hv
      rw [hget]
      split
      · rename_i hmn
        subst hmn
        exact h.grows m v hv
      · exact hv
    have hwithin : ∀ m, ∀ v ∈ d'.liveIn.getD m [], v ∈ tracked := by
      intro m v hv
      rw [hget] at hv
      split at hv
      · exact walk_tracked h.within hv
      · exact h.within m v hv
    refine ⟨⟨hqueued, by rw [hlive]; simpa using h.size, hwithin, ?_, ?_⟩, ?_⟩
    · intro m v hv
      have ht := hwithin m v hv
      rw [hget] at hv
      split at hv
      · rename_i hmn
        subst hmn
        exact walk_mono hle ht hv
      · exact walk_mono hle ht (h.grows m v hv)
    · intro m hm hout
      rw [hmem, not_or] at hout
      have hkeeps : n ∉ l.successors.getD m [] := mt (hl.predecessors m n hn).mpr hout.1
      rw [hget, hlive, walk_set hl hlen hkeeps]
      intro v hv
      split
      · rename_i hmn
        exact hmn ▸ hv
      · rename_i hmn
        refine h.settled m hm ?_ v hv
        rw [hqueue, List.mem_cons, not_or]
        exact ⟨hmn, hout.2⟩
    · have hmissing : d'.missing tracked < d.missing tracked := by
        rw [not_forall] at hdiffer
        obtain ⟨v, hv⟩ := hdiffer
        have hnew : v ∈ (l.walk tracked d.liveIn n).live ∧ v ∉ d.liveIn.getD n [] := by
          have := h.grows n v
          tauto
        rw [missing, hlive]
        exact missing_set hlen (h.grows n) (walk_tracked h.within hnew.1) hnew.1 hnew.2
      have hmul := Nat.mul_le_mul_right (l.code.length + 1) hmissing
      have hqlen := hqueued.length_le
      rw [potential, potential, hlive, List.length_set, h.size]
      rw [Nat.succ_mul] at hmul
      omega

theorem Sound.run (h : d.Sound l tracked) (hl : l.Linked) {k : Nat} (hk : d.potential tracked ≤ k) :
    (Dataflow.run l tracked k d).Sound l tracked ∧ (Dataflow.run l tracked k d).queue = []
      ∧ ∃ j ≤ k, (Dataflow.round l tracked)^[j] d = Dataflow.run l tracked k d := by
  induction k generalizing d with
  | zero =>
    have hempty : d.queue.length = 0 := by
      rw [potential] at hk
      omega
    exact ⟨h, List.length_eq_zero_iff.mp hempty, 0, Nat.le_refl _, rfl⟩
  | succ k ih =>
    rw [Dataflow.run]
    split
    · rename_i hempty
      exact ⟨h, List.isEmpty_iff.mp hempty, 0, Nat.zero_le _, rfl⟩
    · rename_i hempty
      obtain ⟨hr, hlt⟩ := h.round hl (mt List.isEmpty_iff.mpr hempty)
      obtain ⟨hs, hq, j, hj, hiter⟩ := ih hr (by omega)
      exact ⟨hs, hq, j + 1, Nat.succ_le_succ hj, by rw [Function.iterate_succ_apply, hiter]⟩

theorem getD_replicate_nil (size n : Nat) :
    (List.replicate size ([] : List Value)).getD n [] = [] := by
  rw [List.getD_eq_getElem?_getD, List.getElem?_replicate]
  split <;> rfl

theorem sound_start (l : Layout) (tracked : List Value) :
    (start l.code.length).Sound l tracked := by
  refine ⟨⟨by simp [start], ?_, List.nodup_range, fun n hn => List.mem_range.mp hn⟩,
    by simp [start], ?_, ?_, ?_⟩
  · intro n hn
    simp [start, List.getD_eq_getElem?_getD, hn]
  · intro n v hv
    rw [start, getD_replicate_nil] at hv
    cases hv
  · intro n v hv
    rw [start, getD_replicate_nil] at hv
    cases hv
  · intro n hn hout
    exact absurd (List.mem_range.mpr hn) hout

theorem potential_start (l : Layout) (tracked : List Value) :
    (start l.code.length).potential tracked = l.rounds tracked := by
  simp [start, potential, missing, Layout.rounds]

theorem Sound.run_keeps {P : Nat → Value → Prop}
    (hP : ∀ liveIn : List (List Value), (∀ n, ∀ v ∈ liveIn.getD n [], P n v) →
      ∀ n < l.code.length, ∀ v ∈ (l.walk tracked liveIn n).live, P n v)
    (hs : d.Sound l tracked) (hl : l.Linked) (h : ∀ n, ∀ v ∈ d.liveIn.getD n [], P n v) (k : Nat) :
    ∀ n, ∀ v ∈ (Dataflow.run l tracked k d).liveIn.getD n [], P n v := by
  induction k generalizing d with
  | zero => exact h
  | succ k ih =>
    rw [Dataflow.run]
    split
    · exact h
    · rename_i hempty
      have hq := mt List.isEmpty_iff.mpr hempty
      obtain ⟨n, queue, hqueue⟩ := List.exists_cons_of_ne_nil hq
      refine ih (hs.round hl hq).1 ?_
      obtain ⟨hn, -, ⟨-, hlive, -⟩ | ⟨-, hlive, -⟩⟩ :=
        hs.toQueued.round hl hqueue tracked
      · rwa [hlive]
      · intro m v hv
        rw [hlive, getD_set (hs.size.symm ▸ hn)] at hv
        split at hv
        · rename_i hmn
          exact hmn ▸ hP d.liveIn h n hn v hv
        · exact h m v hv

end Dataflow

def Live (items : List Item) (v : Value) (p : Nat) : Prop :=
  ∃ ps r, Path items p ps r ∧ (∃ i, items[r]? = some i ∧ i.reads v = true)
    ∧ ∀ q ∈ ps, ∀ i, items[q]? = some i → i.stores v = false

def LiveAfter (items : List Item) (v : Value) (p : Nat) : Prop :=
  ∃ q, (Follows items p q ∨ Throws items p q) ∧ Live items v q

def Overlaps (items : List Item) (tracked : List Value) (w v : Value) : Prop :=
  w ∈ tracked ∧ v ∈ tracked ∧ ∃ p, items[p]? = some (.store w) ∧ LiveAfter items v p

section Live

variable {items : List Item} {v : Value} {p q : Nat} {i : Item}

theorem Follows.lt (h : Follows items p q) : p < items.length ∧ q < items.length := by
  cases h with
  | next hi _ hp => exact ⟨(List.getElem?_eq_some_iff.mp hi).1, hp⟩
  | jump hi _ hq =>
    exact ⟨(List.getElem?_eq_some_iff.mp hi).1, (List.getElem?_eq_some_iff.mp hq.1).1⟩

theorem Throws.lt (h : Throws items p q) : p < items.length ∧ q < items.length := by
  obtain ⟨start, hm, -, hp⟩ := h
  obtain ⟨b, hb, -⟩ := hm.closing
  have hq := (List.getElem?_eq_some_iff.mp hb).1
  exact ⟨by omega, hq⟩

theorem Live.throw (h : Live items v q) (ht : Throws items p q) : Live items v p := by
  obtain ⟨ps, r, hp, hr, hs⟩ := h
  exact ⟨ps, r, .throwBefore ht hp, hr, hs⟩

theorem LiveAfter.live (h : LiveAfter items v p) (hi : items[p]? = some i)
    (hs : i.stores v = false) : Live items v p := by
  obtain ⟨q, hf | ht, hq⟩ := h
  · obtain ⟨ps, r, hp, hr, hps⟩ := hq
    refine ⟨p :: ps, r, .run hf hp, hr, List.forall_mem_cons.mpr ⟨?_, hps⟩⟩
    intro j hj
    rw [hi, Option.some.injEq] at hj
    exact hj ▸ hs
  · exact hq.throw ht

theorem live_of_reads (hi : items[p]? = some i) (hr : i.reads v = true) : Live items v p :=
  ⟨[], p, .nil p, ⟨i, hi, hr⟩, by simp⟩

end Live

def Layout.walkFrom (l : Layout) (items : List Item) (tracked : List Value)
    (liveIn : List (List Value)) (n p stop : Nat) : Walk :=
  StackCode.walk tracked (gather liveIn (l.handlers.getD n []))
    (gather liveIn (l.successors.getD n [])) (slice items p stop)

section Analysis

variable {items : List Item} {c : Control} (h : Control.ofItems items = .ok c)
  {tracked : List Value} {liveIn : List (List Value)} {m n p q : Nat} {s t : Segment} {v : Value}
  {i : Item}

include h in
theorem walk_eq (hn : (segmentsFrom 0 0 items)[n]? = some s) :
    c.layout.walk tracked liveIn n = c.layout.walkFrom items tracked liveIn n s.start s.stop := by
  rw [Layout.walk, Layout.walkFrom, code_layout h hn]

theorem walkFrom_step {l : Layout} {stop : Nat} (hi : items[p]? = some i) (hp : p < stop) :
    l.walkFrom items tracked liveIn n p stop =
      (l.walkFrom items tracked liveIn n (p + 1) stop).step tracked
        (gather liveIn (l.handlers.getD n [])) i := by
  rw [Layout.walkFrom, slice_cons hi hp]
  rfl

theorem mem_walkFrom_iff {l : Layout} {stop : Nat} (hi : items[p]? = some i) (hp : p < stop)
    (hv : v ∈ tracked) : v ∈ (l.walkFrom items tracked liveIn n p stop).live ↔
      v ∈ gather liveIn (l.handlers.getD n []) ∨ i.reads v = true
        ∨ i.stores v = false ∧ v ∈ (l.walkFrom items tracked liveIn n (p + 1) stop).live := by
  rw [walkFrom_step hi hp]
  exact mem_step_iff hv fun u hu => mem_walk_always hu

include h in
theorem linked_layout : c.layout.Linked := by
  have hlen := length_layout h
  have hsegment : ∀ {m n : Nat} {table : List (List Nat)}, table.length = c.layout.code.length →
      n ∈ table.getD m [] → ∃ s, (segmentsFrom 0 0 items)[m]? = some s := by
    intro m n table htable hn
    have hlt : m < table.length := by
      by_contra hge
      rw [List.getD_eq_getElem?_getD, List.getElem?_eq_none (Nat.le_of_not_lt hge)] at hn
      cases hn
    exact ⟨_, List.getElem?_eq_getElem (by omega)⟩
  refine ⟨fun m n hn => mem_layout_predecessors hn, ?_, ?_⟩
  · intro m n hn
    obtain ⟨s, hs⟩ := hsegment (by simp [Control.layout]) hn
    obtain ⟨t, ht, hthrows⟩ := (mem_layout_handlers h hs).mp hn
    exact (mem_layout_successors h hs).mpr ⟨t, ht, .inl hthrows⟩
  · intro m n hn
    obtain ⟨s, hs⟩ := hsegment (by simp [Control.layout]) hn
    rw [hlen]
    exact (List.getElem?_eq_some_iff.mp hs).1

def Truthful (items : List Item) (tracked : List Value) (n : Nat) (v : Value) : Prop :=
  v ∈ tracked ∧ ∀ s, (segmentsFrom 0 0 items)[n]? = some s → Live items v s.start

include h in
theorem gather_handlers (hl : ∀ n, ∀ v ∈ liveIn.getD n [], Truthful items tracked n v)
    (hn : (segmentsFrom 0 0 items)[n]? = some s)
    (hv : v ∈ gather liveIn (c.layout.handlers.getD n [])) :
    v ∈ tracked ∧ ∃ q, Throws items s.start q ∧ Live items v q := by
  obtain ⟨m, hm, hv⟩ := mem_gather.mp hv
  obtain ⟨t, ht, hthrows⟩ := (mem_layout_handlers h hn).mp hm
  exact ⟨(hl m v hv).1, t.start, hthrows, (hl m v hv).2 t ht⟩

include h in
theorem before_truthful (hl : ∀ n, ∀ v ∈ liveIn.getD n [], Truthful items tracked n v)
    (hn : (segmentsFrom 0 0 items)[n]? = some s) (hs : s.start ≤ p) (hp : p < s.stop)
    (hafter : ∀ v ∈ (c.layout.walkFrom items tracked liveIn n (p + 1) s.stop).live,
      v ∈ tracked ∧ LiveAfter items v p) :
    ∀ v ∈ (c.layout.walkFrom items tracked liveIn n p s.stop).live,
      v ∈ tracked ∧ Live items v p := by
  obtain ⟨hruns, -, hlen⟩ := (cuts_segments items).segment hn
  intro v hv
  have hi := List.getElem?_eq_getElem (l := items) (i := p) (by omega)
  have htracked : v ∈ tracked := by
    rw [walkFrom_step hi hp] at hv
    exact step_tracked (fun u hu => (gather_handlers h hl hn hu).1)
      (fun u hu => (hafter u hu).1) hv
  refine ⟨htracked, ?_⟩
  rcases (mem_walkFrom_iff hi hp htracked).mp hv with hv | hr | ⟨hstore, hv⟩
  · obtain ⟨-, q, hthrows, hq⟩ := gather_handlers h hl hn hv
    exact hq.throw ((hruns.throws_iff hs hp).mpr hthrows)
  · exact live_of_reads hi hr
  · exact (hafter v hv).2.live hi hstore

include h in
theorem after_truthful (hl : ∀ n, ∀ v ∈ liveIn.getD n [], Truthful items tracked n v)
    (hn : (segmentsFrom 0 0 items)[n]? = some s) (hs : s.start ≤ p) (hp : p < s.stop) :
    ∀ v ∈ (c.layout.walkFrom items tracked liveIn n (p + 1) s.stop).live,
      v ∈ tracked ∧ LiveAfter items v p := by
  obtain ⟨hruns, -, hlen⟩ := (cuts_segments items).segment hn
  -- The induction goes back from the end of the segment.
  induction hk : s.stop - p generalizing p with
  | zero => omega
  | succ k ih =>
    intro v hv
    by_cases hlast : p + 1 < s.stop
    · obtain ⟨ht, hlive⟩ := before_truthful h hl hn (by omega) hlast
        (ih (by omega) hlast (by omega)) v hv
      exact ⟨ht, p + 1, .inl ((hruns.follows_iff hs hlast hlen).mpr rfl), hlive⟩
    · obtain rfl : p = s.stop - 1 := by omega
      rw [Layout.walkFrom, Nat.sub_add_cancel (by omega), slice_self] at hv
      rcases mem_insertAll.mp hv with hv | hv
      · obtain ⟨m, hm, hv⟩ := mem_gather.mp hv
        obtain ⟨t, ht, hedge⟩ := (mem_layout_successors h hn).mp hm
        refine ⟨(hl m v hv).1, t.start, hedge.symm.imp id fun hthrows => ?_, (hl m v hv).2 t ht⟩
        exact (hruns.throws_iff hs hp).mpr hthrows
      · obtain ⟨ht, q, hthrows, hq⟩ := gather_handlers h hl hn hv
        exact ⟨ht, q, .inr ((hruns.throws_iff hs hp).mpr hthrows), hq⟩

def Fixed (c : Control) (tracked : List Value) (liveIn : List (List Value)) : Prop :=
  ∀ n < c.layout.code.length, ∀ v ∈ (c.layout.walk tracked liveIn n).live, v ∈ liveIn.getD n []

def FoundAt (c : Control) (items : List Item) (tracked : List Value) (liveIn : List (List Value))
    (v : Value) (p : Nat) : Prop :=
  ∀ (n : Nat) (s : Segment), (segmentsFrom 0 0 items)[n]? = some s → s.start ≤ p → p < s.stop →
    v ∈ (c.layout.walkFrom items tracked liveIn n p s.stop).live

include h in
theorem Fixed.mem_liveIn (hf : Fixed c tracked liveIn)
    (hv : FoundAt c items tracked liveIn v s.start) (hn : (segmentsFrom 0 0 items)[n]? = some s) :
    v ∈ liveIn.getD n [] := by
  have hlt := ((cuts_segments items).segment hn).1.lt
  refine hf n ?_ v ?_
  · rw [length_layout h]
    exact (List.getElem?_eq_some_iff.mp hn).1
  · rw [walk_eq h hn]
    exact hv n s hn (Nat.le_refl _) hlt

include h in
theorem Fixed.mem_handlers (hf : Fixed c tracked liveIn)
    (hn : (segmentsFrom 0 0 items)[n]? = some s) (hs : s.start ≤ p) (hp : p < s.stop)
    (ht : Throws items p q) (hv : FoundAt c items tracked liveIn v q) :
    v ∈ gather liveIn (c.layout.handlers.getD n []) := by
  have hruns := ((cuts_segments items).segment hn).1
  obtain ⟨m, t, hm, rfl⟩ := start_of_throws ht
  refine mem_gather.mpr ⟨m, (mem_layout_handlers h hn).mpr ⟨t, hm, ?_⟩, hf.mem_liveIn h hv hm⟩
  exact (hruns.throws_iff hs hp).mp ht

include h in
theorem Fixed.mem_after (hf : Fixed c tracked liveIn)
    (hn : (segmentsFrom 0 0 items)[n]? = some s) (hs : s.start ≤ p) (hp : p < s.stop)
    (hstep : Follows items p q ∨ Throws items p q) (hv : FoundAt c items tracked liveIn v q) :
    v ∈ (c.layout.walkFrom items tracked liveIn n (p + 1) s.stop).live := by
  obtain ⟨hruns, -, hlen⟩ := (cuts_segments items).segment hn
  rcases hstep with hfollows | ht
  · by_cases hlast : p + 1 < s.stop
    · obtain rfl := (hruns.follows_iff hs hlast hlen).mp hfollows
      exact hv n s hn (by omega) hlast
    · obtain rfl : p = s.stop - 1 := by omega
      obtain ⟨m, t, hm, rfl⟩ := start_of_follows hn hfollows
      rw [Layout.walkFrom, Nat.sub_add_cancel (by omega), slice_self]
      refine mem_insertAll.mpr (.inl (mem_gather.mpr ⟨m, ?_, hf.mem_liveIn h hv hm⟩))
      exact (mem_layout_successors h hn).mpr ⟨t, hm, .inr hfollows⟩
  · exact mem_walk_always (hf.mem_handlers h hn hs hp ht hv)

include h in
theorem Fixed.found (hf : Fixed c tracked liveIn) (hv : v ∈ tracked) (hl : Live items v p) :
    FoundAt c items tracked liveIn v p := by
  obtain ⟨ps, r, hpath, ⟨i, hi, hr⟩, hps⟩ := hl
  induction hpath with
  | nil p =>
    intro n s hn hs hp
    exact (mem_walkFrom_iff hi hp hv).mpr (.inr (.inl hr))
  | @run p q r ps hfollows hpath ih =>
    rw [List.forall_mem_cons] at hps
    intro n s hn hs hp
    have hj := List.getElem?_eq_getElem hfollows.lt.1
    refine (mem_walkFrom_iff hj hp hv).mpr (.inr (.inr ⟨hps.1 _ hj, ?_⟩))
    exact hf.mem_after h hn hs hp (.inl hfollows) (ih hps.2 hi)
  | @throwAfter p q r ps ht hpath ih =>
    rw [List.forall_mem_cons] at hps
    intro n s hn hs hp
    have hj := List.getElem?_eq_getElem ht.lt.1
    exact (mem_walkFrom_iff hj hp hv).mpr (.inl (hf.mem_handlers h hn hs hp ht (ih hps.2 hi)))
  | @throwBefore p q r ps ht hpath ih =>
    intro n s hn hs hp
    have hj := List.getElem?_eq_getElem ht.lt.1
    exact (mem_walkFrom_iff hj hp hv).mpr (.inl (hf.mem_handlers h hn hs hp ht (ih hps hi)))

end Analysis

section Results

variable {items : List Item} {tracked : List Value} {c : Control}
  (h : Control.ofItems items = .ok c)

def Control.dataflow (c : Control) (tracked : List Value) : Dataflow :=
  Dataflow.run c.layout tracked (c.layout.rounds tracked) (.start c.layout.code.length)

include h in
theorem dataflow_sound (tracked : List Value) : (c.dataflow tracked).Sound c.layout tracked
    ∧ (c.dataflow tracked).queue = [] ∧ ∃ k ≤ c.layout.rounds tracked,
      (Dataflow.round c.layout tracked)^[k] (.start c.layout.code.length) = c.dataflow tracked :=
  (Dataflow.sound_start c.layout tracked).run (linked_layout h)
    (Nat.le_of_eq (Dataflow.potential_start c.layout tracked))

include h in
theorem dataflow_fixed : Fixed c tracked (c.dataflow tracked).liveIn := by
  obtain ⟨hs, hq, -⟩ := dataflow_sound h tracked
  intro n hn
  exact hs.settled n hn (by rw [hq]; exact List.not_mem_nil)

include h in
theorem dataflow_truthful :
    ∀ n, ∀ v ∈ (c.dataflow tracked).liveIn.getD n [], Truthful items tracked n v := by
  refine (Dataflow.sound_start c.layout tracked).run_keeps ?_ (linked_layout h) ?_ _
  · intro liveIn hl n hn v hv
    rw [length_layout h] at hn
    have hsegment := List.getElem?_eq_getElem hn
    have hruns := ((cuts_segments items).segment hsegment).1
    rw [walk_eq h hsegment] at hv
    obtain ⟨ht, hlive⟩ := before_truthful h hl hsegment (Nat.le_refl _) hruns.lt
      (after_truthful h hl hsegment (Nat.le_refl _) hruns.lt) v hv
    refine ⟨ht, fun s hs => ?_⟩
    obtain rfl := Option.some.inj (hsegment.symm.trans hs)
    exact hlive
  · intro n v hv
    rw [Dataflow.start, Dataflow.getD_replicate_nil] at hv
    cases hv

include h in
theorem mem_dataflow_iff {n : Nat} {s : Segment} {v : Value}
    (hn : (segmentsFrom 0 0 items)[n]? = some s) :
    v ∈ (c.dataflow tracked).liveIn.getD n [] ↔ v ∈ tracked ∧ Live items v s.start := by
  constructor
  · intro hv
    obtain ⟨ht, hl⟩ := dataflow_truthful h n v hv
    exact ⟨ht, hl s hn⟩
  · rintro ⟨hv, hl⟩
    exact (dataflow_fixed h).mem_liveIn h ((dataflow_fixed h).found h hv hl) hn

theorem Live.lt {v : Value} {p : Nat} (hl : Live items v p) : p < items.length := by
  obtain ⟨ps, r, hp, ⟨i, hi, -⟩, -⟩ := hl
  cases hp with
  | nil => exact (List.getElem?_eq_some_iff.mp hi).1
  | run hf => exact hf.lt.1
  | throwAfter ht => exact ht.lt.1
  | throwBefore ht => exact ht.lt.1

include h in
theorem mem_entry_iff {v : Value} :
    v ∈ (c.dataflow tracked).liveIn.headD [] ↔ v ∈ tracked ∧ Live items v 0 := by
  have hhead : (c.dataflow tracked).liveIn.headD [] = (c.dataflow tracked).liveIn.getD 0 [] := by
    cases (c.dataflow tracked).liveIn <;> rfl
  rw [hhead]
  have hcuts := cuts_segments items
  cases hs : (segmentsFrom 0 0 items)[0]? with
  | some s =>
    rw [mem_dataflow_iff h hs, hcuts.first hs]
  | none =>
    have hempty : items.length = 0 := by
      by_contra hne
      obtain ⟨n, s, hn, -⟩ := hcuts.cover (Nat.le_refl 0) (Nat.pos_of_ne_zero hne)
      rw [List.getElem?_eq_none_iff] at hs
      have := (List.getElem?_eq_some_iff.mp hn).1
      omega
    refine iff_of_false ?_ fun hl => ?_
    · have hsize := (dataflow_sound h tracked).1.size
      rw [length_layout h, Nat.le_zero.mp (List.getElem?_eq_none_iff.mp hs)] at hsize
      rw [List.length_eq_zero_iff.mp hsize]
      exact List.not_mem_nil
    · have := hl.2.lt
      omega

theorem mem_stored_iff {l : Layout} {liveIn : List (List Value)} {n p stop : Nat}
    (hstop : stop ≤ items.length) {e : Value × List Value} :
    e ∈ (l.walkFrom items tracked liveIn n p stop).stored ↔ ∃ q, p ≤ q ∧ q < stop
      ∧ items[q]? = some (.store e.1) ∧ e.1 ∈ tracked
      ∧ e.2 = (l.walkFrom items tracked liveIn n (q + 1) stop).live := by
  induction hk : stop - p generalizing p with
  | zero =>
    have hnil : slice items p stop = [] := by rw [slice, hk, List.take_zero]
    rw [Layout.walkFrom, hnil]
    refine iff_of_false List.not_mem_nil ?_
    rintro ⟨q, hpq, hq, -⟩
    omega
  | succ k ih =>
    have hi := List.getElem?_eq_getElem (l := items) (i := p) (by omega)
    rw [walkFrom_step hi (by omega), mem_stored_step, ih (by omega)]
    constructor
    · rintro (⟨ht, hstore, hlive⟩ | ⟨q, hpq, hq⟩)
      · exact ⟨p, Nat.le_refl _, by omega, by rw [hi, hstore], ht, hlive⟩
      · exact ⟨q, by omega, hq⟩
    · rintro ⟨q, hpq, hq, hstore, ht, hlive⟩
      rcases Nat.eq_or_lt_of_le hpq with rfl | hpq
      · rw [hi, Option.some.injEq] at hstore
        exact .inl ⟨ht, hstore, hlive⟩
      · exact .inr ⟨q, hpq, hq, hstore, ht, hlive⟩

include h in
theorem mem_after_iff {n p : Nat} {s : Segment} {v : Value}
    (hn : (segmentsFrom 0 0 items)[n]? = some s) (hs : s.start ≤ p) (hp : p < s.stop) :
    v ∈ (c.layout.walkFrom items tracked (c.dataflow tracked).liveIn n (p + 1) s.stop).live ↔
      v ∈ tracked ∧ LiveAfter items v p := by
  refine ⟨after_truthful h (dataflow_truthful h) hn hs hp v, ?_⟩
  rintro ⟨hv, q, hstep, hl⟩
  exact (dataflow_fixed h).mem_after h hn hs hp hstep ((dataflow_fixed h).found h hv hl)

include h in
theorem overlaps_iff {w v : Value} :
    (∃ live, (w, live) ∈ (List.range c.layout.code.length).flatMap
        (fun n => (c.layout.walk tracked (c.dataflow tracked).liveIn n).stored) ∧ v ∈ live) ↔
      Overlaps items tracked w v := by
  simp only [List.mem_flatMap, List.mem_range, length_layout h]
  constructor
  · rintro ⟨live, ⟨n, hn, he⟩, hv⟩
    have hsegment := List.getElem?_eq_getElem hn
    have hlen := ((cuts_segments items).segment hsegment).2.2
    rw [walk_eq h hsegment, mem_stored_iff hlen] at he
    obtain ⟨p, hs, hp, hstore, hw, rfl⟩ := he
    obtain ⟨ht, hafter⟩ := (mem_after_iff h hsegment hs hp).mp hv
    exact ⟨hw, ht, p, hstore, hafter⟩
  · rintro ⟨hw, hv, p, hstore, hafter⟩
    obtain ⟨n, s, hn, hs, hp⟩ := (cuts_segments items).cover (Nat.zero_le p)
      (List.getElem?_eq_some_iff.mp hstore).1
    have hlen := ((cuts_segments items).segment hn).2.2
    refine ⟨_, ⟨n, (List.getElem?_eq_some_iff.mp hn).1, ?_⟩,
      (mem_after_iff h hn hs hp).mpr ⟨hv, hafter⟩⟩
    rw [walk_eq h hn, mem_stored_iff hlen]
    exact ⟨p, hs, hp, hstore, hw, rfl⟩

end Results

theorem ordered_eq_iff {a b v w : Value} :
    ordered a b = ordered v w ↔ a = v ∧ b = w ∨ a = w ∧ b = v := by
  obtain ⟨a⟩ := a
  obtain ⟨b⟩ := b
  obtain ⟨v⟩ := v
  obtain ⟨w⟩ := w
  simp only [ordered]
  split <;> split <;> simp only [Prod.mk.injEq, Value.mk.injEq] <;> omega

section Interference

variable {items : List Item} {tracked : List Value} {l : Liveness}

theorem liveness_eq_ok (h : liveness items tracked = .ok l) : ∃ c, Control.ofItems items = .ok c
    ∧ l.liveIn = (c.dataflow tracked).liveIn
    ∧ ∀ e, e ∈ l.interference ↔ ∃ w v, Overlaps items tracked w v ∧ v ≠ w ∧ e = ordered w v := by
  unfold liveness at h
  split at h
  · cases h
  · next c hc =>
    cases h
    refine ⟨c, hc, rfl, ?_⟩
    intro e
    simp only [mem_insertAll, List.not_mem_nil, false_or, List.mem_flatMap (b := e), List.mem_map,
      List.mem_filter, decide_eq_true_eq, Prod.exists, ← overlaps_iff hc]
    constructor
    · rintro ⟨w, live, he, v, ⟨hv, hne⟩, rfl⟩
      exact ⟨w, v, ⟨live, he, hv⟩, hne, rfl⟩
    · rintro ⟨w, v, ⟨live, he, hv⟩, hne, rfl⟩
      exact ⟨w, live, he, v, ⟨hv, hne⟩, rfl⟩

theorem interferes_iff (h : liveness items tracked = .ok l) {v w : Value} (hvw : v ≠ w) :
    l.interferes v w = true ↔ Overlaps items tracked v w ∨ Overlaps items tracked w v := by
  obtain ⟨c, -, -, hclash⟩ := liveness_eq_ok h
  simp only [Liveness.interferes, Bool.and_eq_true, List.contains_iff_mem, decide_eq_true_eq,
    hclash]
  rw [and_iff_right hvw]
  constructor
  · rintro ⟨a, b, hab, -, he⟩
    rcases ordered_eq_iff.mp he with ⟨rfl, rfl⟩ | ⟨rfl, rfl⟩
    · exact .inl hab
    · exact .inr hab
  · rintro (ho | ho)
    · exact ⟨v, w, ho, hvw.symm, rfl⟩
    · exact ⟨w, v, ho, hvw, ordered_eq_iff.mpr (.inr ⟨rfl, rfl⟩)⟩

theorem interferes_of_live (h : liveness items tracked = .ok l) {v w : Value} {p q : Nat}
    (hv : v ∈ tracked) (hw : w ∈ tracked) (hvw : v ≠ w) (hp : items[p]? = some (.store w))
    (hq : Follows items p q ∨ Throws items p q) (hl : Live items v q) :
    l.interferes w v = true :=
  (interferes_iff h hvw.symm).mpr (.inl ⟨hw, hv, p, hp, q, hq, hl⟩)

/-- The worklist runs dry within the rounds it is given, and what it finds is exact: the values live
at the entry are those that some path from there reads before storing them, and values interfere if
a path from behind a store of one of them reads the other before storing it. -/
theorem liveness_exact (h : liveness items tracked = .ok l) :
    (∃ c, Control.ofItems items = .ok c ∧ ∃ k ≤ c.layout.rounds tracked, ∃ d,
        (Dataflow.round c.layout tracked)^[k] (.start c.layout.code.length) = d
          ∧ d.queue = [] ∧ d.liveIn = l.liveIn)
      ∧ (∀ v, v ∈ l.atEntry ↔ v ∈ tracked ∧ Live items v 0)
      ∧ ∀ v w, v ≠ w → (l.interferes v w = true ↔
        Overlaps items tracked v w ∨ Overlaps items tracked w v) := by
  obtain ⟨c, hc, hlive, -⟩ := liveness_eq_ok h
  obtain ⟨-, hq, k, hk, hiter⟩ := dataflow_sound hc tracked
  refine ⟨⟨c, hc, k, hk, _, hiter, hq, hlive.symm⟩, fun v => ?_,
    fun v w hvw => interferes_iff h hvw⟩
  rw [Liveness.atEntry, hlive]
  exact mem_entry_iff hc

end Interference

def guardedStores : List Item :=
  [.store ⟨0⟩, .tryStart, .label ⟨0⟩, .store ⟨1⟩, .load ⟨1⟩, .jump .brtrue ⟨0⟩, .jump .leave ⟨1⟩,
    .handlerStart ⟨.type, 0⟩, .load ⟨0⟩, .jump .leave ⟨1⟩, .handlerEnd, .label ⟨1⟩, .plain .ret]

theorem guardedStores_exact : ∃ l, liveness guardedStores [⟨0⟩, ⟨1⟩] = .ok l
    ∧ l.interferes ⟨0⟩ ⟨1⟩ = true ∧ ¬Live guardedStores ⟨0⟩ 0
    ∧ (Overlaps guardedStores [⟨0⟩, ⟨1⟩] ⟨0⟩ ⟨1⟩ ∨ Overlaps guardedStores [⟨0⟩, ⟨1⟩] ⟨1⟩ ⟨0⟩) := by
  have h : liveness guardedStores [⟨0⟩, ⟨1⟩] = .ok
      ⟨[(⟨0⟩, ⟨1⟩)], [[], [⟨0⟩], [⟨0⟩], [⟨0⟩], [⟨0⟩], [], []]⟩ := by decide +kernel
  obtain ⟨-, hentry, hclash⟩ := liveness_exact h
  refine ⟨_, h, by decide, ?_, (hclash _ _ (by decide)).mp (by decide)⟩
  intro hl
  cases (hentry ⟨0⟩).mpr ⟨by decide, hl⟩

end StackCode
