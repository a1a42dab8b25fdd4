import StackCode.Compile
import StackCode.Proofs.Acceptance
import StackCode.Proofs.Levels

/-!
Methods from graph to finished body. The heights of the stream are depths of the emitted code, and
the improvements keep them at the labels of blocks. A valid graph gets a body, or is refused for a
reason that lies in the graph.
-/

namespace StackCode

open Machine (Body Opcode)

section Levels

variable (shape : Machine.Instr → Option (Nat × Nat)) (labels : Label → Nat)

def levelAt (items : List Item) (p : Nat) : Option Nat :=
  (items.take p).foldl (fun level i => i.next shape labels level) (some 0)

theorem levelAt_succ {items : List Item} {p : Nat} {i : Item} (h : items[p]? = some i) :
    levelAt shape labels items (p + 1) = i.next shape labels (levelAt shape labels items p) := by
  rw [levelAt, List.take_add_one, h, Option.toList_some, List.foldl_append]
  rfl

variable {shape labels} {items : List Item}

theorem Leads.last {level last : Option Nat} (h : Leads shape labels items level last) :
    items.foldl (fun level i => i.next shape labels level) level = last := by
  induction items generalizing level with
  | nil => exact h
  | cons i items ih => exact ih h.2

theorem Leads.fits (h : Leads shape labels items (some 0) none) {p : Nat} {i : Item}
    (hp : items[p]? = some i) : i.Fits shape labels (levelAt shape labels items p) := by
  obtain ⟨hlt, rfl⟩ := List.getElem?_eq_some_iff.mp hp
  rw [← List.take_append_drop p items, List.drop_eq_getElem_cons hlt] at h
  obtain ⟨mid, hmid, hfits, -⟩ := leads_append.mp h
  rw [levelAt, hmid.last]
  exact hfits

theorem Leads.levelAt_length (h : Leads shape labels items (some 0) none) :
    levelAt shape labels items items.length = none := by
  rw [levelAt, List.take_length]
  exact h.last

theorem Item.next_of_mark {i : Item} {d : Nat} (hm : i.isMark = true)
    (h : i.Fits shape labels (some d)) : i.next shape labels (some d) = some d := by
  cases i with
  | label l => rw [next, h d rfl]
  | tryStart => rw [next, h d rfl]
  | handlerStart caught => cases h
  | handlerEnd => cases h
  | _ => cases hm

theorem Leads.site (h : Leads shape labels items (some 0) none) {p d : Nat} (hp : p ≤ items.length)
    (hd : levelAt shape labels items p = some d) :
    ∃ q i, items[q]? = some i ∧ i.isMark = false ∧ levelAt shape labels items q = some d
      ∧ address items q = address items p := by
  induction hk : items.length - p generalizing p with
  | zero =>
    obtain rfl : p = items.length := by omega
    rw [h.levelAt_length] at hd
    cases hd
  | succ k ih =>
    have hlt : p < items.length := by omega
    have hi := List.getElem?_eq_getElem hlt
    cases hm : items[p].isMark with
    | false => exact ⟨p, _, hi, hm, hd, rfl⟩
    | true =>
      have hfits := h.fits hi
      rw [hd] at hfits
      have hnext := levelAt_succ shape labels hi
      rw [hd, Item.next_of_mark hm hfits] at hnext
      obtain ⟨q, j, hq, hj, hdq, ha⟩ := ih (by omega) hnext (by omega)
      refine ⟨q, j, hq, hj, hdq, ?_⟩
      rw [ha, address_succ hi, hm, if_pos rfl, Nat.add_zero]

end Levels

def sites (items : List Item) : List (Item × Nat) :=
  items.zipIdx.filter fun e => !e.1.isMark

section Sites

variable {items : List Item}

theorem sites_fst (items : List Item) :
    (sites items).map Prod.fst = items.filter fun i => !i.isMark := by
  have h := List.filter_map (f := Prod.fst) (p := fun i : Item => !i.isMark) (l := items.zipIdx)
  rw [List.zipIdx_map_fst] at h
  exact h.symm

theorem getElem?_sites {q : Nat} {i : Item} (hq : items[q]? = some i) (hm : i.isMark = false) :
    (sites items)[address items q]? = some (i, q) := by
  obtain ⟨hlt, rfl⟩ := List.getElem?_eq_some_iff.mp hq
  have hsplit : items.zipIdx = (items.take q).zipIdx
      ++ (items[q], q) :: (items.drop (q + 1)).zipIdx (q + 1) := by
    conv_lhs => rw [← List.take_append_drop q items, List.drop_eq_getElem_cons hlt]
    rw [List.zipIdx_append, List.zipIdx_cons, List.length_take, Nat.min_eq_left (by omega),
      Nat.zero_add]
  have hlen : (sites (items.take q)).length = address items q := by
    rw [address, List.countP_eq_length_filter, ← sites_fst, List.length_map]
  rw [sites] at hlen ⊢
  rw [hsplit, List.filter_append, List.filter_cons_of_pos (by simp [hm]), ← hlen,
    List.getElem?_append_right (Nat.le_refl _), Nat.sub_self]
  rfl

theorem site_of_getElem? {n q : Nat} {i : Item} (h : (sites items)[n]? = some (i, q)) :
    items[q]? = some i ∧ i.isMark = false ∧ address items q = n := by
  obtain ⟨hz, hm⟩ := List.mem_filter.mp (List.mem_of_getElem? h)
  have hq := List.mem_zipIdx_iff_getElem?.mp hz
  rw [Bool.not_eq_true'] at hm
  refine ⟨hq, hm, ?_⟩
  have hnodup : (sites items).Nodup := by
    refine List.Nodup.filter _ (List.Nodup.of_map Prod.snd ?_)
    rw [List.zipIdx_map_snd]
    exact List.nodup_range'
  have hn := (List.getElem?_eq_some_iff.mp h).1
  exact ((List.getElem?_inj hn hnodup).mp (h.trans (getElem?_sites hq hm).symm)).symm

end Sites

def Machine.Instr.called (i : Machine.Instr) : Option (Nat × Nat) :=
  match i.opcode.effect, i.operand with
  | .call, .method _ arguments returns => some (arguments, returns.toNat)
  | .newObject, .method _ arguments _ => some (arguments, 1)
  | _, _ => none

def siteDepth (labels : Label → Nat) (items : List Item) (n : Nat) : Option Nat :=
  (sites items)[n]?.bind fun e => levelAt Machine.Instr.called labels items e.2

section Bodies

variable {labels : Label → Nat} {s : Schedule} {a : Allocation} {extra : List Ty} {body : Body}

theorem shaped_called (symbols : Symbols) :
    Shaped (fun o m => m.taken o < 65536) Machine.Instr.called symbols := by
  intro o ho r m _ hm
  simp only [List.mem_cons, List.not_mem_nil, or_false] at ho
  rcases ho with rfl | rfl | rfl
  · have : m.arity < 65536 := hm
    simp [Machine.Instr.called, Opcode.effect, Select.callShape, Method.taken, Method.left,
      Nat.mod_eq_of_lt this]
  · have : m.arity < 65536 := hm
    simp [Machine.Instr.called, Opcode.effect, Select.callShape, Method.taken, Method.left,
      Nat.mod_eq_of_lt this]
  · have : m.parameters.length < 65536 := hm
    simp [Machine.Instr.called, Opcode.effect, Select.callShape, Method.taken, Method.left,
      Nat.mod_eq_of_lt this]

theorem Leads.depth (h : Leads Machine.Instr.called labels s.items (some 0) none)
    (hlen : (sites s.items).length = body.instrs.length) {p d : Nat} (hp : p ≤ s.items.length)
    (hd : levelAt Machine.Instr.called labels s.items p = some d) :
    address s.items p < body.instrs.length
      ∧ siteDepth labels s.items (address s.items p) = some d := by
  obtain ⟨q, i, hq, hi, hdq, ha⟩ := h.site hp hd
  have hs := getElem?_sites hq hi
  rw [ha] at hs
  refine ⟨?_, by rw [siteDepth, hs, Option.bind_some, hdq]⟩
  rw [← hlen]
  exact (List.getElem?_eq_some_iff.mp hs).1

theorem Leads.depth_mark (h : Leads Machine.Instr.called labels s.items (some 0) none)
    (hlen : (sites s.items).length = body.instrs.length) {p d : Nat} {i : Item}
    (hp : s.items[p]? = some i) (hm : i.isMark = true)
    (hd : ∀ level, i.next Machine.Instr.called labels level = some d) :
    address s.items p < body.instrs.length
      ∧ siteDepth labels s.items (address s.items p) = some d := by
  have hlt := (List.getElem?_eq_some_iff.mp hp).1
  have hnext := levelAt_succ Machine.Instr.called labels hp
  rw [hd] at hnext
  have := h.depth hlen (by omega) hnext
  rwa [address_succ hp, hm, if_pos rfl, Nat.add_zero] at this

theorem Emits.exchange {items : List Item} {slots : List (Nat × Nat)} {i : Item}
    {j : Machine.Instr} (he : Emits items a slots i j) (hc : ∀ k, i = .op k → k.Clean) {d n : Nat}
    {e : Nat × Nat} (hx : i.exchangeAt Machine.Instr.called d = some e) :
    j.exchange n d = .ok e := by
  cases he with
  | op h =>
    rw [Machine.Instr.exchange]
    cases hk : j.opcode.effect with
    | fixed pops pushes =>
      simp only [Item.exchangeAt, hk] at hx
      obtain rfl := Option.some.inj hx
      rfl
    | call =>
      simp only [Item.exchangeAt, hk, Machine.Instr.called] at hx
      split at hx
      · rename_i ho
        obtain rfl := Option.some.inj hx
        rw [ho]
      · rename_i hf _
        cases hf
      · cases hx
    | newObject =>
      simp only [Item.exchangeAt, hk, Machine.Instr.called] at hx
      split at hx
      · rename_i hf _
        cases hf
      · rename_i ho
        obtain rfl := Option.some.inj hx
        rw [ho]
      · cases hx
    | ret =>
      simp only [Item.exchangeAt, hk] at hx
      split at hx
      · rename_i hle
        obtain rfl := Option.some.inj hx
        exact if_neg (by omega)
      · cases hx
    | leave =>
      simp only [Item.exchangeAt, hk] at hx
      obtain rfl := Option.some.inj hx
      rfl
  | renamed h hm =>
    have := hc _ rfl
    exact absurd rfl (this.2 _)
  | @jump o l p h =>
    rw [Machine.Instr.exchange]
    cases ho : o.effect with
    | fixed pops pushes =>
      simp only [Item.exchangeAt, ho, Option.some.injEq] at hx
      simp only [hx]
    | leave =>
      simp only [Item.exchangeAt, ho, Option.some.injEq] at hx
      simp only [hx]
    | _ => simp [Item.exchangeAt, ho] at hx
  | switch h =>
    obtain rfl := Option.some.inj hx
    rfl
  | @argument how v k t h =>
    cases how <;> obtain rfl := Option.some.inj hx <;> rfl
  | @cell how v k m t h hm =>
    cases how <;> obtain rfl := Option.some.inj hx <;> rfl

theorem Item.next_of_exchangeAt {shape : Machine.Instr → Option (Nat × Nat)} {i : Item}
    {d pops pushes : Nat} (hm : i.isMark = false) (hf : i.fallsThrough = true)
    (hx : i.exchangeAt shape d = some (pops, pushes)) :
    i.next shape labels (some d) = some (d - pops + pushes) := by
  have h : (if i.fallsThrough then (some d).bind fun d =>
      (i.exchangeAt shape d).map fun e => d - e.1 + e.2 else none) = some (d - pops + pushes) := by
    simp [hf, hx]
  cases i with
  | label | tryStart | handlerStart | handlerEnd => cases hm
  | _ => exact h

theorem Emits.opcode {items : List Item} {slots : List (Nat × Nat)} {i : Item} {j : Machine.Instr}
    (he : Emits items a slots i j) : i.fallsThrough = !j.opcode.endsFlow := by
  cases he with
  | @argument how => cases how <;> rfl
  | @cell how => cases how <;> rfl
  | _ => rfl

theorem Emits.targets {items : List Item} {slots : List (Nat × Nat)} {i : Item} {j : Machine.Instr}
    (he : Emits items a slots i j) (hc : ∀ k, i = .op k → k.Clean) :
    ∀ n ∈ j.operand.branchTargets, ∃ l ∈ i.targets, ∃ p, OnlyAt items l p
      ∧ address items p = n := by
  intro n hn
  cases he with
  | op =>
    rw [(hc j rfl).1] at hn
    cases hn
  | jump hp =>
    obtain rfl := List.mem_singleton.mp hn
    exact ⟨_, List.mem_cons_self, _, hp, rfl⟩
  | switch hps =>
    obtain ⟨p, hp, rfl⟩ := List.mem_map.mp hn
    obtain ⟨l, hl, hlp⟩ := forall_of_forall₂ hps.flip hp
    exact ⟨l, hl, p, hlp, rfl⟩
  | _ => cases hn

theorem emit_fits (hw : s.WellFormed) (h : emit s a extra = .ok body)
    (hl : Leads Machine.Instr.called labels s.items (some 0) none) :
    body.Fits (siteDepth labels s.items) := by
  obtain ⟨l, -, -, hemits⟩ := emit_instrs h
  have hhandlers := emit_handlers h
  rw [← sites_fst] at hemits
  have hlen : (sites s.items).length = body.instrs.length := by
    rw [← hemits.length_eq, List.length_map]
  refine ⟨?_, ?_, ?_, ?_⟩
  · intro n j d hj hd
    obtain ⟨⟨i, p⟩, hsite, hdp⟩ := Option.bind_eq_some_iff.mp hd
    obtain ⟨hp, hm, rfl⟩ := site_of_getElem? hsite
    have hi : s.items[p]? = some i := hp
    have hfst : ((sites s.items).map Prod.fst)[address s.items p]? = some i := by
      rw [List.getElem?_map, hsite]
      rfl
    have he := forall₂_getElem? hemits hfst hj
    have hclean : ∀ k, i = .op k → k.Clean := by
      rintro k rfl
      exact hw.clean k (List.mem_of_getElem? hi)
    have hfits := hl.fits hi
    rw [hdp] at hfits
    obtain ⟨pops, pushes, hx, hle, htargets⟩ : ∃ pops pushes,
        i.exchangeAt Machine.Instr.called d = some (pops, pushes) ∧ pops ≤ d
          ∧ ∀ l ∈ i.targets, labels l = d - pops + pushes := by
      cases i with
      | label | tryStart | handlerStart | handlerEnd => cases hm
      | _ => exact hfits d rfl
    refine ⟨d - pops + pushes, ?_, ?_⟩
    · rw [Machine.Instr.depthAfter, he.exchange hclean hx]
      exact if_neg (by omega)
    · intro q hq
      -- Control goes on behind the instruction, or to the address of a label.
      rcases List.mem_append.mp hq with hq | hq
      · split at hq
        · cases hq
        · rename_i hends
          obtain rfl := List.mem_singleton.mp hq
          have hnext := levelAt_succ Machine.Instr.called labels hi
          rw [hdp, Item.next_of_exchangeAt hm (by rw [he.opcode]; simpa using hends) hx] at hnext
          have hlt := (List.getElem?_eq_some_iff.mp hi).1
          have := hl.depth hlen (by omega) hnext
          rwa [address_succ hi, hm] at this
      · obtain ⟨l, hlt, p', hp', rfl⟩ := he.targets hclean q (List.mem_reverse.mp hq)
        rw [← htargets l hlt]
        exact hl.depth_mark hlen hp'.1 rfl fun _ => rfl
  · intro _
    exact (hl.depth hlen (Nat.zero_le _) rfl).2
  · intro k hk
    obtain ⟨p, -, start, handler, -, -, hi, -, -, hs, -⟩ := forall_of_forall₂ hhandlers.flip hk
    rw [hs]
    exact hl.depth_mark hlen hi rfl fun _ => rfl
  · intro k hk d hd
    obtain ⟨p, -, start, handler, hprot, -, -, hs, -⟩ := forall_of_forall₂ hhandlers.flip hk
    obtain ⟨i, hi, ht⟩ := hprot.opening
    obtain rfl : i = .tryStart := by cases i <;> first | rfl | cases ht
    rw [hs, (hl.depth_mark hlen hi rfl fun _ => rfl).2] at hd
    exact (Option.some.inj hd).symm

theorem emit_straight (hw : s.WellFormed) (h : emit s a extra = .ok body) : body.Straight := by
  obtain ⟨l, -, -, hemits⟩ := emit_instrs h
  intro j hj hslot
  have hflow : j.opcode.flow = .next := by
    rcases hslot with hs | hl
    · obtain ⟨x, hx⟩ := Option.ne_none_iff_exists'.mp hs
      exact (Machine.Instr.storedSlot_effect hx).2
    · obtain ⟨x, hx⟩ := Option.ne_none_iff_exists'.mp hl
      exact (Machine.Instr.loadedSlot_effect hx).2
  obtain ⟨i, hi, he⟩ := forall_of_forall₂ hemits.flip hj
  have hmem := (List.mem_filter.mp hi).1
  cases he with
  | op => exact (hw.clean j hmem).1
  | jump hp => exact absurd hflow ((hw.placed _ hmem _ List.mem_cons_self).2 _ rfl)
  | switch => cases hflow
  | _ => rfl

theorem improve_fits {depth : Nat → Option Nat} (h : body.Fits depth) (hs : body.Straight)
    (o : Options) : (Compile.improve o body).instrs.length = body.instrs.length
      ∧ ∃ depth', (Compile.improve o body).Fits depth'
        ∧ ∀ p, ¬ body.Between p → depth' p = depth p := by
  have hcompact : ∀ b : Body, b.compact.1.instrs.length = b.instrs.length := fun b =>
    List.length_map ..
  obtain ⟨depth', hfuse, hsame⟩ := h.fuse hs
  rw [Compile.improve]
  split
  · rw [Machine.Body.optimize]
    cases o.compact
    · exact ⟨body.length_fuse, depth', hfuse, hsame⟩
    · exact ⟨(hcompact _).trans body.length_fuse, depth', hfuse.compact, hsame⟩
  · split
    · exact ⟨hcompact _, depth, h.compact, fun _ _ => rfl⟩
    · exact ⟨rfl, depth, h, fun _ _ => rfl⟩

theorem Emits.storedSlot {items : List Item} {slots : List (Nat × Nat)} {v : Value}
    {j : Machine.Instr} (he : Emits items a slots (.load v) j) : j.storedSlot = none := by
  generalize hi : Item.load v = i at he
  cases he with
  | @argument how => cases how <;> first | rfl | cases hi
  | @cell how => cases how <;> first | rfl | cases hi
  | _ => cases hi

theorem not_between_label (h : emit s a extra = .ok body) {xs ys : List Item} {l : Label}
    (hi : s.items = xs ++ .label l :: ys) (hx : Ends xs ∨ ∀ i ∈ xs, ∃ v, i = .load v) :
    ¬ body.Between (address s.items xs.length) := by
  obtain ⟨slots, -, -, hemits⟩ := emit_instrs h
  rw [← sites_fst] at hemits
  have hemit : ∀ p i j, s.items[p]? = some i → i.isMark = false →
      body.instrs[address s.items p]? = some j → Emits s.items a slots.slots i j := by
    intro p i j hp hm hj
    refine forall₂_getElem? hemits ?_ hj
    rw [List.getElem?_map, getElem?_sites hp hm]
    rfl
  intro hbetween
  rcases hx with ⟨zs, i, rfl, hm, hf⟩ | hloads
  · have hz : s.items[zs.length]? = some i := by simp [hi]
    rw [List.length_append, List.length_singleton, address_succ hz, hm] at hbetween
    obtain ⟨j, hj, hends⟩ := hbetween.falls
    have := (hemit _ i j hz hm hj).opcode
    rw [hf, hends] at this
    cases this
  · have haddress : ∀ k ≤ xs.length, address s.items k = k := by
      intro k hk
      rw [address, hi, List.take_append_of_le_length hk, List.countP_eq_length.mpr,
        List.length_take, Nat.min_eq_left hk]
      intro i hi
      obtain ⟨v, rfl⟩ := hloads i (List.mem_of_mem_take hi)
      rfl
    rw [haddress _ (Nat.le_refl _)] at hbetween
    obtain ⟨k, hlt, j, hj, hs⟩ := hbetween.stored
    obtain ⟨v, hv⟩ := hloads xs[k] (List.getElem_mem hlt)
    have hget : s.items[k]? = some (.load v) := by
      rw [hi, List.getElem?_append_left hlt, List.getElem?_eq_getElem hlt, hv]
    exact hs (hemit k _ j hget rfl (by rwa [haddress k (by omega)])).storedSlot

end Bodies

/-- A computation ends as stated, unless it refuses the graph or crashes where it may. -/
def Settles {α : Type} (wide : Prop) (r : Except CompileError α) (post : α → Prop) : Prop :=
  match r with
  | .ok a => post a
  | .error e => e.Allowed wide

theorem Settles.exists_ok {α : Type} {wide : Prop} {r : Except CompileError α} {post : α → Prop}
    (h : Settles wide r post) (hr : r.isOk = true) : ∃ a, r = .ok a ∧ post a := by
  cases r with
  | ok a => exact ⟨a, rfl, h⟩
  | error e => cases hr

namespace Compile

variable {α β : Type} {w : Workspace} {x : Compile α} {f : α → Compile β} {post mid : α → Prop}
  {wide : Prop}

def Yields (wide : Prop) (x : Compile α) (w : Workspace) (post : α → Prop) : Prop :=
  Settles wide (x.run.run w).1 post

theorem Yields.bind {post : β → Prop} (hx : Yields wide x w mid)
    (hf : ∀ a w, mid a → Yields wide (f a) w post) : Yields wide (x >>= f) w post := by
  rw [Yields] at hx ⊢
  rw [run_bind]
  cases hr : x.run.run w with
  | mk r w =>
    rw [hr] at hx
    cases r with
    | ok a => exact hf a w hx
    | error e => exact hx

theorem yields_ofExcept {r : Except CompileError α} (h : Answers r post) :
    Yields wide (ofExcept r) w post := by
  cases r with
  | ok a => exact h
  | error e => exact .inl h

theorem yields_record (f : Session → Session) : Yields wide (record f) w fun _ => True := trivial

theorem yields_select {g : Graph} {x : Select α} {post : α → Selection → Prop}
    (h : Select.Holds wide x (.start g w.symbols) post) :
    Yields wide (select g x) w fun a => ∃ t, post a t := by
  rw [Select.Holds] at h
  have hrun : (select g x).run.run w
      = ((x.run.run (.start g w.symbols)).1,
        { w with symbols := (x.run.run (.start g w.symbols)).2.symbols }) := rfl
  rw [Yields, hrun]
  cases hr : x.run.run (.start g w.symbols) with
  | mk r t =>
    rw [hr] at h
    cases r with
    | ok a => exact ⟨t, h⟩
    | error e => exact h

variable {w' : Workspace}

theorem bind_run {b : β} (h : (x >>= f).run.run w = (.ok b, w')) :
    ∃ a v, x.run.run w = (.ok a, v) ∧ (f a).run.run v = (.ok b, w') := by
  rw [run_bind] at h
  cases hx : x.run.run w with
  | mk r v =>
    rw [hx] at h
    cases r with
    | ok a => exact ⟨a, v, rfl, h⟩
    | error e => cases h

theorem ofExcept_run {r : Except CompileError α} {a : α}
    (h : (ofExcept r).run.run w = (.ok a, w')) : r = .ok a ∧ w' = w := by
  cases r with
  | ok b =>
    cases h
    exact ⟨rfl, rfl⟩
  | error e => cases h

theorem record_run {g : Session → Session} {u : Unit} (h : (record g).run.run w = (.ok u, w')) :
    w'.symbols = w.symbols := by
  cases h
  rfl

theorem graph_run {setting : Setting} {g : Graph} {c : Compiled} (hf : g.fault? = none)
    (h : (graph setting g).run.run w = (.ok c, w')) :
    ∃ t body, (Select.schedule ⟨g, setting.env⟩ setting.policy).run.run (.start g w.symbols)
        = (.ok c.schedule, t)
      ∧ w'.symbols = t.symbols
      ∧ emit c.schedule c.allocation setting.options.extraLocals = .ok body
      ∧ c.body.instrs = (improve setting.options body).instrs
      ∧ c.body.handlers = (improve setting.options body).handlers := by
  unfold graph at h
  rw [hf] at h
  dsimp only at h
  rw [ite_self] at h
  obtain ⟨s, w₁, hselect, h⟩ := bind_run h
  obtain ⟨a, w₂, hallocate, h⟩ := bind_run h
  obtain ⟨_, w₃, hregisters, h⟩ := bind_run h
  obtain ⟨body, w₄, hemit, h⟩ := bind_run h
  obtain ⟨_, w₅, hhandlers, h⟩ := bind_run h
  split at h
  · cases h
  · obtain ⟨_, w₆, hemitted, h⟩ := bind_run h
    cases h
    rw [record_run hemitted, record_run hhandlers, (ofExcept_run hemit).2, record_run hregisters,
      (ofExcept_run hallocate).2]
    have hrun : (select g (Select.schedule ⟨g, setting.env⟩ setting.policy)).run.run w
        = (((Select.schedule ⟨g, setting.env⟩ setting.policy).run.run (.start g w.symbols)).1,
          { w with symbols := ((Select.schedule ⟨g, setting.env⟩ setting.policy).run.run
            (.start g w.symbols)).2.symbols }) := rfl
    rw [hrun] at hselect
    obtain ⟨hs, rfl⟩ := Prod.ext_iff.mp hselect
    exact ⟨_, body, Prod.ext hs rfl, rfl, (ofExcept_run hemit).1, rfl, rfl⟩

end Compile

structure Scheduled (ctx : Context) (s : Schedule) : Prop where
  wellFormed : s.WellFormed
  leads : Leads Machine.Instr.called ctx.graph.level s.items (some 0) none
  position : ∀ b ∈ ctx.graph.blocks.toList, ∃ xs ys, s.items = xs ++ .label b.label :: ys
    ∧ (Ends xs ∨ ∀ i ∈ xs, ∃ v, i = .load v)

theorem Select.holds_schedule {ctx : Context} {policy : Policy} {symbols : Symbols}
    (hg : ctx.graph.Valid) (hd : ctx.graph.Declared ctx.env)
    (hc : ctx.graph.Calls ctx.env fun o m => m.taken o < 65536)
    (henv : ctx.env.captured.isVoid = false) :
    Holds ctx.graph.Wide (schedule ctx policy) (.start ctx.graph symbols) fun s _ =>
      Scheduled ctx s := by
  refine (holds_wellFormed hg hc fun S => ⟨_, shaped_called S⟩).mono ?_
  rintro s t ⟨entry, plans, h, hitems, hw, -⟩
  refine ⟨hw, ?_, ?_⟩
  · rw [hitems]
    exact leads_stream hg hd henv h (shaped_called t.symbols) rfl
  · rw [hitems]
    exact fun b hb => label_position hg h hb

def Operation.isBounded : Operation → Bool
  | .call m _ => m.arity < 65536
  | .new m => m.parameters.length < 65536
  | _ => true

theorem Graph.calls_of_isBounded {g : Graph} {env : Environment}
    (h : ∀ i ∈ g.instrs, i.operation.isBounded = true) :
    g.Calls env fun o m => m.taken o < 65536 := by
  constructor
  · intro i hi e he
    have hb := h i hi
    cases hop : i.operation with
    | call m lookup =>
      rw [hop] at he hb
      cases lookup <;> obtain rfl := List.mem_singleton.mp he <;> exact of_decide_eq_true hb
    | new m =>
      rw [hop] at he hb
      obtain rfl := List.mem_singleton.mp he
      exact of_decide_eq_true hb
    | newDelegate type m hasReceiver lookup =>
      rw [hop] at he
      obtain rfl := List.mem_singleton.mp he
      simp [Method.taken, Environment.delegateConstructor]
    | intrinsic name type parameters =>
      rw [hop, Operation.calls] at he
      split at he
      · obtain rfl := List.mem_singleton.mp he
        simp [Method.taken, Method.arity, Environment.capture]
      · obtain rfl := List.mem_singleton.mp he
        simp [Method.taken, Method.arity, Environment.capturedSource]
      · cases he
    | _ =>
      rw [hop] at he
      cases he
  · simp [Method.taken, Method.arity, Environment.capture]

theorem Graph.Valid.level_label {g : Graph} (hg : g.Valid) {b : Block} (hb : b ∈ g.blocks.toList) :
    g.level b.label = if b.label = g.entry ∧ (g.predecessors g.entry).isEmpty then 0
      else b.parameters.length := by
  rw [Graph.level, hg.block?_label hb]

theorem Scheduled.depths {ctx : Context} {s : Schedule} (h : Scheduled ctx s) {a : Allocation}
    {extra : List Ty} {body : Body} (he : emit s a extra = .ok body) (o : Options) :
    ∃ d, (Compile.improve o body).depths = .ok d ∧ ∀ b ∈ ctx.graph.blocks.toList,
      ∃ p x, OnlyAt s.items b.label p ∧ d.depths[address s.items p]? = some x
        ∧ (x = none ∨ x = some (ctx.graph.level b.label)) := by
  have hfits := emit_fits h.wellFormed he h.leads
  obtain ⟨hlen, depth, himproved, hsame⟩ := improve_fits hfits (emit_straight h.wellFormed he) o
  obtain ⟨d, hd, hdlen, hdepth⟩ := himproved.depths
  refine ⟨d, hd, ?_⟩
  intro b hb
  obtain ⟨xs, ys, hitems, hxs⟩ := h.position b hb
  have hp : s.items[xs.length]? = some (.label b.label) := by simp [hitems]
  obtain ⟨p, honly⟩ := exists_onlyAt h.wellFormed.distinct (List.mem_filterMap.mpr
    ⟨.label b.label, List.mem_of_getElem? hp, rfl⟩)
  obtain rfl := honly.2 _ hp
  obtain ⟨slots, -, -, hemits⟩ := emit_instrs he
  rw [← sites_fst] at hemits
  have hsites : (sites s.items).length = body.instrs.length := by
    rw [← hemits.length_eq, List.length_map]
  obtain ⟨hlt, hlevel⟩ := h.leads.depth_mark hsites hp rfl (d := ctx.graph.level b.label)
    fun _ => rfl
  have hget := List.getElem?_eq_getElem (l := d.depths) (i := address s.items xs.length) (by omega)
  refine ⟨xs.length, _, honly, hget, ?_⟩
  rcases hdepth _ _ hget with hnone | hsome
  · exact .inl hnone
  · right
    rw [hsome, hsame _ (not_between_label he hitems hxs), hlevel]

/-- The depths of the code are known. At the label of a block, unless control never comes there, the
depth is the number of its parameters; those of an entry without predecessors are not on the stack.
-/
def Compiled.Balanced (g : Graph) (c : Compiled) : Prop :=
  ∃ d, c.body.depths = .ok d ∧ ∀ b ∈ g.blocks.toList, ∃ p x, OnlyAt c.schedule.items b.label p
    ∧ d.depths[address c.schedule.items p]? = some x
    ∧ (x = none ∨ x = some (if b.label = g.entry ∧ (g.predecessors g.entry).isEmpty then 0
      else b.parameters.length))

theorem stack_is_balanced {setting : Setting} {g : Graph} (hb : g.Built) (hf : g.fault? = none)
    (hd : g.Declared setting.env) (hc : ∀ i ∈ g.instrs, i.operation.isBounded = true)
    (henv : setting.env.captured.isVoid = false) (w : Workspace) :
    Settles g.Wide (Compile.graph setting g w).1 (Compiled.Balanced g) := by
  have hg := hb.valid hf
  change Compile.Yields g.Wide (Compile.graph setting g) w _
  unfold Compile.graph
  rw [hf]
  dsimp only
  rw [ite_self]
  refine (Compile.yields_select (Select.holds_schedule hg hd (Graph.calls_of_isBounded hc)
    henv)).bind ?_
  rintro s w ⟨-, hs⟩
  refine (Compile.yields_ofExcept hs.wellFormed.allocation).bind ?_
  rintro a w ⟨l, rfl⟩
  refine (Compile.yields_record _).bind ?_
  intro _ w _
  have hstores := Allocation.stores_ofPooling hs.wellFormed.covers l
  refine (Compile.yields_ofExcept (answers_emit hs.wellFormed hstores _).found).bind ?_
  intro body w hbody
  refine (Compile.yields_record _).bind ?_
  intro _ w _
  obtain ⟨d, hdepths, hlabels⟩ := hs.depths hbody setting.options
  rw [hdepths]
  refine (Compile.yields_record _).bind ?_
  intro _ w _
  refine ⟨d, hdepths, ?_⟩
  intro b hmem
  rw [← hg.level_label hmem]
  exact hlabels b hmem

def retrySteps : List BuildStep :=
  let int : Ty := .int ⟨32, true⟩
  [.block "entry", .block "work", .block "done", .block "failed",
    .parameter ⟨0⟩ none int, .parameter ⟨1⟩ none int, .parameter ⟨2⟩ none int,
    .parameter ⟨3⟩ none (.object "Captured"),
    .instr ⟨0⟩ none ⟨.const (.int 1) int, []⟩,
    .instr ⟨0⟩ none ⟨.intrinsic "arith.sub" int [int, int], [⟨0⟩, ⟨4⟩]⟩,
    .flow ⟨0⟩ (.switch ⟨5⟩ [⟨[.int 0], ⟨⟨1⟩, [.value ⟨5⟩]⟩⟩] ⟨⟨0⟩, [.value ⟨5⟩]⟩),
    .flow ⟨1⟩ (.protect ⟨.call ⟨.object "Task", "run", [int], int, true⟩ .static, [⟨1⟩]⟩
      ⟨⟨2⟩, [.result]⟩ ⟨⟨3⟩, [.exception]⟩),
    .flow ⟨2⟩ (.ret (some ⟨2⟩)),
    .flow ⟨3⟩ (.jump ⟨⟨0⟩, [.value ⟨1⟩]⟩)]

def retry : Graph := .ofSteps retrySteps

theorem retry_built : retry.Built := by
  have h : (Builder.run? {} retrySteps).isSome = true := by decide +kernel
  exact built_ofSteps h

theorem retry_declared : retry.Declared {} := by
  have h : ∀ i ∈ retry.instrs, ∀ b, i.operation.leaves {} = some b →
      i.operation.resultType.isVoid = !b := by decide +kernel
  exact h

theorem retry_is_balanced : ∃ c, (Compile.graph {} retry {}).1 = .ok c ∧ c.Balanced retry := by
  have hf : retry.fault? = none := by decide +kernel
  have hc : ∀ i ∈ retry.instrs, i.operation.isBounded = true := by decide +kernel
  have hok : (Compile.graph {} retry {}).1.isOk = true := by decide +kernel
  exact (stack_is_balanced retry_built hf retry_declared hc rfl {}).exists_ok hok

def wideSteps : List BuildStep :=
  [.block "entry", .block "a", .block "b", .block "c", .parameter ⟨0⟩ (some "x") (.signed 64),
    .flow ⟨0⟩ (.switch ⟨0⟩ [⟨[.int (-1)], ⟨⟨1⟩, []⟩⟩, ⟨[.int IntShape.constantMax], ⟨⟨2⟩, []⟩⟩]
      ⟨⟨3⟩, []⟩),
    .flow ⟨1⟩ (.ret none), .flow ⟨2⟩ (.ret none), .flow ⟨3⟩ (.ret none)]

def wideSwitch : Graph := .ofSteps wideSteps

theorem wideSwitch_crashes : wideSwitch.Built ∧ wideSwitch.fault? = none
    ∧ wideSwitch.Declared {} ∧ (∀ i ∈ wideSwitch.instrs, i.operation.isBounded = true)
    ∧ (Compile.graph {} wideSwitch {}).1 = .error (.crash .keySpan) := by
  have hsteps : (Builder.run? {} wideSteps).isSome = true := by decide +kernel
  have hd : ∀ i ∈ wideSwitch.instrs, ∀ b, i.operation.leaves {} = some b →
      i.operation.resultType.isVoid = !b := by decide +kernel
  exact ⟨built_ofSteps hsteps, by decide +kernel, hd, by decide +kernel, by decide +kernel⟩

end StackCode
