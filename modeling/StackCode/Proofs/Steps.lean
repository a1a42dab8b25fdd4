import StackCode.Proofs.References

/-!
Lowering steps. They only add to a selection, also where they fail, and they use references only to
put them into code. So from selections that differ in their references, they end with the same error
or with answers that are the same once their references are renamed.
-/

namespace StackCode

open Machine (Opcode Ref)

structure Selection.Alike (s s' : Selection) : Prop where
  nextValue : s.nextValue = s'.nextValue
  nextLabel : s.nextLabel = s'.nextLabel
  temporaries : s.temporaries = s'.temporaries

structure Selection.Grows (s t : Selection) : Prop where
  symbols : s.symbols.Extends t.symbols
  nextValue : s.nextValue ≤ t.nextValue
  nextLabel : s.nextLabel ≤ t.nextLabel
  temporaries : ∀ e ∈ s.temporaries, e ∈ t.temporaries
  drawn : ∀ e ∈ t.temporaries, e ∈ s.temporaries ∨ s.nextValue ≤ e.1.id

structure Selection.Fresh (s t : Selection) (v : Value) : Prop where
  after : s.nextValue ≤ v.id
  before : v.id < t.nextValue
  listed : ∃ type, (v, type) ∈ t.temporaries

namespace Selection

variable {s t u : Selection} {v : Value}

theorem Grows.refl (s : Selection) : s.Grows s :=
  ⟨.refl _, Nat.le_refl _, Nat.le_refl _, fun _ h => h, fun _ h => .inl h⟩

theorem Grows.trans (h : s.Grows t) (h' : t.Grows u) : s.Grows u := by
  refine ⟨h.symbols.trans h'.symbols, Nat.le_trans h.nextValue h'.nextValue,
    Nat.le_trans h.nextLabel h'.nextLabel, fun e he => h'.temporaries e (h.temporaries e he), ?_⟩
  intro e he
  rcases h'.drawn e he with he | he
  · exact h.drawn e he
  · exact .inr (Nat.le_trans h.nextValue he)

theorem Grows.types (h : s.Grows t) {r : Ref} {type : Ty} (hr : s.symbols.type? r = some type) :
    t.symbols.type? r = some type :=
  Symbols.type?_eq_some.mpr ((Symbols.type?_eq_some.mp hr).mono h.symbols)

theorem Grows.methods (h : s.Grows t) {r : Ref} {m : Method} (hr : s.symbols.method? r = some m) :
    t.symbols.method? r = some m :=
  Symbols.method?_eq_some.mpr ((Symbols.method?_eq_some.mp hr).mono h.symbols)

theorem Fresh.mono (h : s.Fresh t v) (h' : t.Grows u) : s.Fresh u v := by
  obtain ⟨type, hv⟩ := h.listed
  exact ⟨h.after, Nat.lt_of_lt_of_le h.before h'.nextValue, type, h'.temporaries _ hv⟩

theorem Grows.fresh (h : s.Grows t) (h' : t.Fresh u v) : s.Fresh u v :=
  ⟨Nat.le_trans h.nextValue h'.after, h'.before, h'.listed⟩

end Selection

def Context.type? (ctx : Context) (s : Selection) (v : Value) : Option Ty :=
  ctx.graph.type? v <|> s.temporaries.lookup v

def CompileError.isRefusal : CompileError → Bool
  | .unsupported _ | .malformed _ | .unrepresentable _ _ => true
  | .internal _ | .crash _ => false

/-- The error is about the graph, or a crash at the keys of a switch where they may be so far apart.
-/
def CompileError.Allowed (wide : Prop) (e : CompileError) : Prop :=
  e.isRefusal = true ∨ e = .crash .keySpan ∧ wide

namespace Select

variable {α β γ : Type} {x : Select α} {y : Select β} {s s' t : Selection}
  {r : (Ref → Ref) → α → α} {q : (Ref → Ref) → β → β} {p : (Ref → Ref) → γ → γ}

abbrev same : (Ref → Ref) → α → α := fun _ a => a

abbrev each (r : (Ref → Ref) → α → α) : (Ref → Ref) → List α → List α := fun f => List.map (r f)

theorem each_same : each (same : (Ref → Ref) → α → α) = same :=
  funext fun _ => List.map_id_fun

def Ends (post : α → Selection → Prop) (fault : CompileError → Prop) :
    Except CompileError α × Selection → Prop
  | (.ok a, t) => post a t
  | (.error e, _) => fault e

/-- Two runs, the second one from `s'`, that end with the same error or with answers that are the
same once their references are renamed. -/
structure Matched (r : (Ref → Ref) → α → α) (s' : Selection)
    (o o' : Except CompileError α × Selection) : Prop where
  grows : s'.symbols.Extends o'.2.symbols
  alike : o.2.Alike o'.2
  same : ∀ f f', o.2.symbols.Agree o'.2.symbols f f' → o.1.map (r f) = o'.1.map (r f')

/-- What lowering steps come to from a selection: the answer and the selection at the end, or the
error. -/
structure Meets (r : (Ref → Ref) → α → α) (x : Select α) (s : Selection)
    (post : α → Selection → Prop) (fault : CompileError → Prop) : Prop where
  grows : s.Grows (x.run.run s).2
  ends : Ends post fault (x.run.run s)
  matched : ∀ s', s.Alike s' → Matched r s' (x.run.run s) (x.run.run s')

theorem Matched.bind {k k' : α → Select β} (hx : Matched r s' (x.run.run s) (x.run.run s'))
    (hk : ∀ a a' t t', x.run.run s = (.ok a, t) → s'.symbols.Extends t'.symbols → t.Alike t' →
      (∀ f f', t.symbols.Agree t'.symbols f f' → r f a = r f' a') →
      Matched q t' ((k a).run.run t) ((k' a').run.run t')) :
    Matched q s' ((x >>= k).run.run s) ((x >>= k').run.run s') := by
  rw [run_bind, run_bind]
  obtain ⟨grows, alike, same⟩ := hx
  generalize x.run.run s = o at *
  generalize x.run.run s' = o' at *
  obtain ⟨o, t⟩ := o
  obtain ⟨o', t'⟩ := o'
  -- Constant renamings agree for any tables, so one run fails if and only if the other does.
  have hconst := same _ _ (t.symbols.agree_const t'.symbols ⟨.type, 0⟩)
  cases o with
  | error e =>
    cases o' with
    | error e' =>
      cases hconst
      exact ⟨grows, alike, fun _ _ _ => rfl⟩
    | ok a' => cases hconst
  | ok a =>
    cases o' with
    | error e' => cases hconst
    | ok a' =>
      have hs : ∀ f f', t.symbols.Agree t'.symbols f f' → r f a = r f' a' := by
        intro f f' h
        exact Except.ok.inj (same f f' h)
      have h := hk a a' t t' rfl grows alike hs
      exact ⟨grows.trans h.grows, h.alike, h.same⟩

section Rules

variable {post mid : α → Selection → Prop} {post' : β → Selection → Prop}
  {fault fault' : CompileError → Prop}

theorem Meets.of_run (hx : Meets r x s mid fault) {a : α} (h : x.run.run s = (.ok a, t)) :
    s.Grows t ∧ mid a t := by
  have hg := hx.grows
  have he := hx.ends
  rw [h] at hg he
  exact ⟨hg, he⟩

theorem Meets.ends_bind {k : α → Select β} (hx : Meets r x s mid fault)
    (hk : ∀ a t, s.Grows t → mid a t → t.Grows ((k a).run.run t).2
      ∧ Ends post' fault ((k a).run.run t)) :
    s.Grows ((x >>= k).run.run s).2 ∧ Ends post' fault ((x >>= k).run.run s) := by
  have hg := hx.grows
  have he := hx.ends
  rw [run_bind]
  cases hr : x.run.run s with
  | mk o t =>
    rw [hr] at hg he
    cases o with
    | error e => exact ⟨hg, he⟩
    | ok a =>
      obtain ⟨hg', he'⟩ := hk a t hg he
      exact ⟨hg.trans hg', he'⟩

theorem meets_pure {a : α} (h : post a s) (hr : ∀ f, r f a = a) : Meets r (pure a) s post fault :=
  ⟨.refl s, h, fun _ hs => ⟨.refl _, hs, fun f f' _ => congrArg Except.ok
    ((hr f).trans (hr f').symm)⟩⟩

theorem meets_throw {e : CompileError} (h : fault e) : Meets r (throw e) s post fault :=
  ⟨.refl s, h, fun _ hs => ⟨.refl _, hs, fun _ _ _ => rfl⟩⟩

theorem Meets.mono (hx : Meets r x s mid fault) (h : ∀ a t, s.Grows t → mid a t → post a t) :
    Meets r x s post fault := by
  refine ⟨hx.grows, ?_, hx.matched⟩
  have hg := hx.grows
  have he := hx.ends
  cases hr : x.run.run s with
  | mk o t =>
    rw [hr] at hg he
    cases o with
    | error e => exact he
    | ok a => exact h a t hg he

theorem Meets.weaken (hx : Meets r x s post fault) (h : ∀ e, fault e → fault' e) :
    Meets r x s post fault' := by
  refine ⟨hx.grows, ?_, hx.matched⟩
  have he := hx.ends
  cases hr : x.run.run s with
  | mk o t =>
    rw [hr] at he
    cases o with
    | error e => exact h e he
    | ok a => exact he

theorem Meets.run (hx : Meets r x s mid fault) :
    Meets r x s (fun a t => mid a t ∧ x.run.run s = (.ok a, t)) fault := by
  refine ⟨hx.grows, ?_, hx.matched⟩
  have he := hx.ends
  cases hr : x.run.run s with
  | mk o t =>
    rw [hr] at he
    cases o with
    | error e => exact he
    | ok a => exact ⟨he, rfl⟩

theorem Meets.fixed (hx : Meets same x s post fault) (h : ∀ a t, post a t → ∀ f, r f a = a) :
    Meets r x s post fault := by
  refine ⟨hx.grows, hx.ends, fun s' hs => ?_⟩
  obtain ⟨grows, alike, hsame⟩ := hx.matched s' hs
  have he := hx.ends
  refine ⟨grows, alike, fun f f' hf => ?_⟩
  have ho := hsame f f' hf
  generalize x.run.run s = o at *
  generalize x.run.run s' = o' at *
  obtain ⟨o, t⟩ := o
  obtain ⟨o', t'⟩ := o'
  cases o with
  | error e => cases o' <;> first | exact ho | cases ho
  | ok a =>
    cases o' with
    | error e => cases ho
    | ok a' =>
      obtain rfl : a = a' := Except.ok.inj ho
      exact congrArg Except.ok ((h a t he f).trans (h a t he f').symm)

theorem Meets.bind {k : α → Select β} (hx : Meets same x s mid fault)
    (hk : ∀ a t, s.Grows t → mid a t → Meets q (k a) t post' fault) :
    Meets q (x >>= k) s post' fault := by
  obtain ⟨hg, he⟩ := hx.ends_bind fun a t hst ha => ⟨(hk a t hst ha).grows, (hk a t hst ha).ends⟩
  refine ⟨hg, he, fun s' hs => (hx.matched s' hs).bind fun a a' t t' hr _ ht ha => ?_⟩
  obtain rfl : a = a' := ha _ _ (t.symbols.agree_const t'.symbols ⟨.type, 0⟩)
  obtain ⟨hst, hmid⟩ := hx.of_run hr
  exact (hk a t hst hmid).matched t' ht

theorem Meets.map {g : α → β} (hx : Meets r x s mid fault) (hg : ∀ f a, q f (g a) = g (r f a))
    (hp : ∀ a t, s.Grows t → mid a t → post' (g a) t) :
    Meets q (do return g (← x)) s post' fault := by
  obtain ⟨hgrows, he⟩ := hx.ends_bind (k := fun a => pure (g a)) fun a t hst ha =>
    ⟨.refl t, hp a t hst ha⟩
  refine ⟨hgrows, he, fun s' hs => (hx.matched s' hs).bind fun a a' t t' _ _ ht ha => ?_⟩
  refine ⟨.refl _, ht, fun f f' h => congrArg Except.ok ?_⟩
  rw [hg, hg, ha f f' h]

theorem Meets.map₂ {g : α → β → γ} {post' : γ → Selection → Prop} (hx : Meets r x s mid fault)
    (hg : ∀ f a b, p f (g a b) = g (r f a) (q f b))
    (hy : ∀ a t, s.Grows t → mid a t → Meets q y t (fun b u => post' (g a b) u) fault) :
    Meets p (do return g (← x) (← y)) s post' fault := by
  obtain ⟨hgrows, he⟩ := hx.ends_bind (k := fun a => do return g a (← y)) fun a t hst ha =>
    (hy a t hst ha).ends_bind (k := fun b => pure (g a b)) fun b u _ hb => ⟨.refl u, hb⟩
  refine ⟨hgrows, he, fun s' hs => (hx.matched s' hs).bind fun a a' t t' hr _ ht ha => ?_⟩
  obtain ⟨hst, hmid⟩ := hx.of_run hr
  -- Renamings that agree in the end have agreed when the first answer was given.
  have hyt := hy a t hst hmid
  refine (hyt.matched t' ht).bind fun b b' u u' hr' hu' hb hsame => ?_
  refine ⟨.refl _, hb, fun f f' h => congrArg Except.ok ?_⟩
  rw [hg, hg, ha f f' (h.anti (hyt.of_run hr').1.symbols hu'), hsame f f' h]

theorem meets_ite {c : Prop} [Decidable c] {x' : Select α} (h : c → Meets r x s post fault)
    (h' : ¬c → Meets r x' s post fault) : Meets r (if c then x else x') s post fault := by
  split
  · exact h ‹c›
  · exact h' ‹¬c›

theorem meets_guard {c : Prop} [Decidable c] {cause : ContractFault} {k : Unit → Select α}
    (hf : fault (.malformed cause)) (hk : ¬c → Meets r (k ()) s post fault) :
    Meets r (if c then reject cause >>= k else k ()) s post fault :=
  meets_ite (fun _ => (meets_throw hf : Meets same (reject cause) s (fun _ _ => False) fault).bind
    nofun) hk

theorem meets_ofExcept {o : Except CompileError α} (hr : ∀ a, o = .ok a → ∀ f, r f a = a)
    (ha : ∀ a, o = .ok a → post a s) (he : ∀ e, o = .error e → fault e) :
    Meets r (ofExcept o) s post fault := by
  cases o with
  | ok a => exact meets_pure (ha a rfl) (hr a rfl)
  | error e => exact meets_throw (he e rfl)

theorem meets_get {k : Selection → Select α} (h : ∀ s', s.Alike s' → k s' = k s)
    (hk : Meets r (k s) s post fault) : Meets r (get >>= k) s post fault := by
  have hrun (s : Selection) : (get >>= k).run.run s = (k s).run.run s := rfl
  refine ⟨?_, ?_, fun s' hs => ?_⟩
  · rw [hrun]
    exact hk.grows
  · rw [hrun]
    exact hk.ends
  · rw [hrun, hrun, h s' hs]
    exact hk.matched s' hs

end Rules

inductive Chained (step : Selection → α → β → Selection → Prop) :
    Selection → List α → List β → Selection → Prop where
  | nil {s : Selection} : Chained step s [] [] s
  | cons {s t u : Selection} {a : α} {b : β} {as : List α} {bs : List β} (hg : s.Grows t)
      (h : step s a b t) (hs : Chained step t as bs u) : Chained step s (a :: as) (b :: bs) u

section Chains

variable {step : Selection → α → β → Selection → Prop} {as : List α} {bs : List β}

theorem Chained.grows (h : Chained step s as bs t) : s.Grows t := by
  induction h with
  | nil => exact .refl _
  | cons hg _ _ ih => exact hg.trans ih

theorem Chained.mem (h : Chained step s as bs t) {b : β} (hb : b ∈ bs) :
    ∃ a ∈ as, ∃ s' t', step s' a b t' ∧ s.Grows s' ∧ s'.Grows t' ∧ t'.Grows t := by
  induction h with
  | nil => cases hb
  | @cons s t u a c as bs hg h hs ih =>
    rcases List.mem_cons.mp hb with rfl | hb
    · exact ⟨a, List.mem_cons_self, s, t, h, .refl _, hg, hs.grows⟩
    · obtain ⟨a', ha, s', t', h', hs', hg', ht'⟩ := ih hb
      exact ⟨a', List.mem_cons_of_mem _ ha, s', t', h', hg.trans hs', hg', ht'⟩

theorem Chained.map_eq (h : Chained step s as bs t) {f : β → α}
    (hf : ∀ s a b t, step s a b t → f b = a) : bs.map f = as := by
  induction h with
  | nil => rfl
  | cons _ h _ ih => rw [List.map_cons, ih, hf _ _ _ _ h]

theorem Chained.mono {step' : Selection → α → β → Selection → Prop} (h : Chained step s as bs t)
    (hstep : ∀ a ∈ as, ∀ s' b t', s.Grows s' → step s' a b t' → step' s' a b t') :
    Chained step' s as bs t := by
  induction h with
  | nil => exact .nil
  | cons hg h hs ih =>
    refine .cons hg (hstep _ List.mem_cons_self _ _ _ (.refl _) h) (ih ?_)
    exact fun a ha s' b t' hs' => hstep a (List.mem_cons_of_mem _ ha) s' b t' (hg.trans hs')

theorem meets_mapM {k : α → Select β} {fault : CompileError → Prop}
    (h : ∀ a ∈ as, ∀ t, s.Grows t → Meets q (k a) t (step t a) fault) :
    Meets (each q) (as.mapM k) s (Chained step s as) fault := by
  induction as generalizing s with
  | nil => exact meets_pure .nil fun _ => rfl
  | cons a as ih =>
    rw [List.mapM_cons]
    refine (h a List.mem_cons_self s (.refl s)).map₂ (fun _ _ _ => rfl) fun b t hst hb => ?_
    refine (ih fun a' ha' u htu => h a' (List.mem_cons_of_mem _ ha') u (hst.trans htu)).mono ?_
    exact fun bs u _ hbs => .cons hst hb hbs

end Chains

section Primitives

variable {fault : CompileError → Prop}

theorem meets_add (z : Symbol) :
    Meets (fun f => f) (modifyGet fun s => ((s.symbols.add z).2,
      { s with symbols := (s.symbols.add z).1 })) s (fun r t => t.symbols.Names r z) fault := by
  have hgrows (s : Selection) : s.Grows { s with symbols := (s.symbols.add z).1 } :=
    ⟨s.symbols.extends_add z, Nat.le_refl _, Nat.le_refl _, fun _ h => h, fun _ h => .inl h⟩
  refine ⟨hgrows s, s.symbols.names_add z, fun s' hs => ?_⟩
  refine ⟨(hgrows s').symbols, ⟨hs.nextValue, hs.nextLabel, hs.temporaries⟩, fun f f' h => ?_⟩
  exact congrArg Except.ok (h z _ _ (s.symbols.names_add z) (s'.symbols.names_add z))

theorem meets_typeRef (type : Ty) :
    Meets (fun f => f) (typeRef type) s (fun r t => t.symbols.type? r = some type) fault :=
  Meets.mono (meets_add (.type type)) fun _ _ _ h => Symbols.type?_eq_some.mpr h

theorem meets_typeOp (opcode : Opcode) (type : Ty) :
    Meets Item.rename (typeOp opcode type) s (fun i _ => ∃ r, i = .op ⟨opcode, .type r⟩) fault :=
  (meets_typeRef type).map (fun _ _ => rfl) fun r _ _ _ => ⟨r, rfl⟩

theorem meets_fieldOp (opcode : Opcode) (f : Field) :
    Meets Item.rename (fieldOp opcode f) s (fun i _ => ∃ r, i = .op ⟨opcode, .field r⟩) fault :=
  Meets.map (meets_add (.field f)) (fun _ _ => rfl) fun r _ _ _ => ⟨r, rfl⟩

theorem meets_methodOp (opcode : Opcode) (m : Method) :
    Meets Item.rename (methodOp opcode m) s (fun i t => ∃ r, t.symbols.method? r = some m
      ∧ i = .op ⟨opcode, .method r (callShape opcode m).1 (callShape opcode m).2⟩) fault :=
  Meets.map (meets_add (.method m)) (fun _ _ => rfl) fun r _ _ h =>
    ⟨r, Symbols.method?_eq_some.mpr h, rfl⟩

theorem meets_temporary (type : Ty) :
    Meets same (temporary type) s (fun v t => v = ⟨s.nextValue⟩ ∧ s.Fresh t v) fault := by
  have hrun (s : Selection) : (temporary type).run.run s = (.ok ⟨s.nextValue⟩, { s with
    nextValue := s.nextValue + 1, temporaries := s.temporaries ++ [(⟨s.nextValue⟩, type)] }) := rfl
  refine ⟨⟨.refl _, Nat.le_succ _, Nat.le_refl _, fun e he => List.mem_append_left _ he, ?_⟩,
    ⟨rfl, Nat.le_refl _, Nat.lt_succ_self _, type, List.mem_append_right _ List.mem_cons_self⟩, ?_⟩
  · intro e he
    rcases List.mem_append.mp he with he | he
    · exact .inl he
    · obtain rfl := List.mem_singleton.mp he
      exact .inr (Nat.le_refl _)
  · intro s' hs
    rw [hrun, hrun, hs.nextValue, hs.temporaries]
    exact ⟨.refl _, ⟨rfl, hs.nextLabel, rfl⟩, fun _ _ _ => rfl⟩

theorem meets_label : Meets same label s
    (fun l t => l = ⟨s.nextLabel⟩ ∧ t = { s with nextLabel := s.nextLabel + 1 }) fault := by
  have hrun (s : Selection) : label.run.run s
    = (.ok ⟨s.nextLabel⟩, { s with nextLabel := s.nextLabel + 1 }) := rfl
  refine ⟨⟨.refl _, Nat.le_refl _, Nat.le_succ _, fun _ h => h, fun _ h => .inl h⟩, ⟨rfl, rfl⟩, ?_⟩
  intro s' hs
  rw [hrun, hrun, hs.nextLabel]
  exact ⟨.refl _, ⟨hs.nextValue, rfl, hs.temporaries⟩, fun _ _ _ => rfl⟩

theorem meets_valueType {ctx : Context} {v : Value}
    (hf : ctx.type? s v = none → fault (.malformed (.unknownValue v))) :
    Meets same (valueType ctx v) s (fun type t => t = s ∧ ctx.type? s v = some type) fault := by
  unfold valueType
  unfold Context.type? at hf ⊢
  split
  · rename_i type htype
    rw [htype]
    exact meets_pure ⟨rfl, rfl⟩ fun _ => rfl
  · rename_i hnone
    rw [hnone] at hf ⊢
    refine meets_get (fun s' hs => by rw [hs.temporaries]) ?_
    split
    · rename_i type htype
      exact meets_pure ⟨rfl, htype⟩ fun _ => rfl
    · rename_i hnone'
      exact meets_throw (hf hnone')

end Primitives

end Select

end StackCode
