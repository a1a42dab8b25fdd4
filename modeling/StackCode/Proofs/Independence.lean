import Mathlib.Data.Countable.Basic
import Mathlib.Logic.Encodable.Pi
import StackCode.Proofs.Compiled
import StackCode.Proofs.Renaming

/-!
Methods of a module do not depend on each other. They share the table of references, so that a
method gets other references in company than alone. But lowering uses a reference only to put it
into code, and tables only grow. Lowered with two tables, a method therefore fails in the same way,
or gets the same code up to a renaming of references, and the names in its listing are the same.
-/

namespace StackCode

open Machine (Ref)

namespace Select

theorem matched_schedule (ctx : Context) (policy : Policy) {s s' : Selection} (hs : s.Alike s') :
    Matched Schedule.rename s' ((schedule ctx policy).run.run s)
      ((schedule ctx policy).run.run s') := by
  have hc : ctx.graph.Calls ctx.env fun _ _ => True := ⟨fun _ _ _ _ => trivial, trivial⟩
  unfold schedule
  split
  · exact ⟨.refl _, hs, fun _ _ _ => rfl⟩
  · rename_i entry hentry
    refine ((meets_plans hc hentry).matched s' hs).bind fun ps ps' t t' _ _ ht hps => ?_
    have hrun (o : Selection → Except CompileError Schedule) (t : Selection) :
        (get >>= fun t => ofExcept (o t) : Select Schedule).run.run t = (o t, t) := by
      change (ofExcept (o t)).run.run t = _
      cases o t <;> rfl
    rw [hrun, hrun]
    refine ⟨.refl _, ht, fun f f' h => ?_⟩
    dsimp only
    rw [← schedule_rename, ← schedule_rename, ht.temporaries]
    exact congrArg (Schedule.ofPlans _ _ _ · _) (hps f f' h)

end Select

def Compiled.rename (f : Ref → Ref) (c : Compiled) : Compiled :=
  { c with body := c.body.rename f, schedule := c.schedule.rename f }

namespace Compile

def finish (o : Options) (s : Schedule) : Except CompileError Compiled := do
  let allocation ← Allocation.ofSchedule s
  let emitted ← emit s allocation o.extraLocals
  let body := improve o emitted
  match body.depths with
  | .error fault => .error (.internal (.depth fault))
  | .ok depths => return ⟨{ body with maxStack := depths.maxStack }, s, allocation⟩

theorem finish_rename (f : Ref → Ref) (o : Options) (s : Schedule) :
    finish o (s.rename f) = (finish o s).map (·.rename f) := by
  unfold finish
  rw [ofSchedule_rename]
  refine bind_same fun allocation => ?_
  rw [emit_rename]
  refine bind_rename fun emitted => ?_
  dsimp only
  rw [improve_rename, Machine.depths_rename]
  split <;> rfl

def fault? (o : Options) (g : Graph) : Option ContractFault :=
  if o.verify then g.fault? else none

section Settling

variable {α β : Type} {answer : Except CompileError α} {x : Compile α}

/-- Steps that leave the references as they are, and whose answer does not depend on what is shared.
-/
def Settles (answer : Except CompileError α) (x : Compile α) : Prop :=
  ∀ w, Prod.map id Workspace.symbols (x.run.run w) = (answer, w.symbols)

theorem settles_record (h : Settles answer x) (f : Session → Session) :
    Settles answer (do record f; x) :=
  fun w => h { w with session := f w.session }

theorem settles_ofExcept {r : Except CompileError β} {k : β → Except CompileError α}
    {k' : β → Compile α} (h : ∀ b, Settles (k b) (k' b)) :
    Settles (r >>= k) (ofExcept r >>= k') := by
  cases r with
  | error e => exact fun _ => rfl
  | ok b => exact h b

theorem settles_finish (o : Options) (s : Schedule) : Settles (finish o s) (do
    let allocation ← ofExcept (Allocation.ofSchedule s)
    record (·.addRegisters allocation.registers.length allocation.recycled)
    let emitted ← ofExcept (emit s allocation o.extraLocals)
    record (·.addHandlers emitted.handlers.length)
    let body := improve o emitted
    match body.depths with
    | .error fault => throw (.internal (.depth fault))
    | .ok depths =>
      record fun s => body.instrs.foldl (fun s i => s.emit i.opcode.text) s
      return ⟨{ body with maxStack := depths.maxStack }, s, allocation⟩) := by
  refine settles_ofExcept fun allocation => settles_record ?_ _
  refine settles_ofExcept fun emitted => settles_record ?_ _
  dsimp only
  split
  · exact fun _ => rfl
  · exact settles_record (fun _ => rfl) _

theorem select_settles {g : Graph} {y : Select β} {k : β → Except CompileError α}
    {k' : β → Compile α} (h : ∀ b, Settles (k b) (k' b)) (w : Workspace) :
    Prod.map id Workspace.symbols ((select g y >>= k').run.run w)
      = ((y.run.run (.start g w.symbols)).1 >>= k,
        (y.run.run (.start g w.symbols)).2.symbols) := by
  have hrun : (select g y).run.run w = ((y.run.run (.start g w.symbols)).1,
    { w with symbols := (y.run.run (.start g w.symbols)).2.symbols }) := rfl
  simp only [ExceptT.run_bind, StateT.run_bind]
  rw [hrun]
  cases (y.run.run (.start g w.symbols)).1 with
  | error e => rfl
  | ok b => exact h b _

end Settling

def outcome (setting : Setting) (g : Graph) (S : Symbols) :
    Except CompileError Compiled × Symbols :=
  match fault? setting.options g with
  | some fault => (.error (.malformed fault), S)
  | none =>
    let o := (Select.schedule ⟨g, setting.env⟩ setting.policy).run.run (.start g S)
    (o.1 >>= finish setting.options, o.2.symbols)

section Outcomes

variable (setting : Setting) (g : Graph)

theorem graph_outcome (w : Workspace) :
    Prod.map id Workspace.symbols ((graph setting g).run.run w) = outcome setting g w.symbols := by
  unfold graph outcome fault?
  dsimp only
  split
  · cases g.fault? with
    | some fault => rfl
    | none => exact select_settles (settles_finish setting.options) w
  · exact select_settles (settles_finish setting.options) w

theorem matched_start (S S' : Symbols) :
    Select.Matched Schedule.rename (.start g S')
      ((Select.schedule ⟨g, setting.env⟩ setting.policy).run.run (.start g S))
      ((Select.schedule ⟨g, setting.env⟩ setting.policy).run.run (.start g S')) :=
  Select.matched_schedule ⟨g, setting.env⟩ setting.policy ⟨rfl, rfl, rfl⟩

theorem extends_outcome (S : Symbols) : S.Extends (outcome setting g S).2 := by
  unfold outcome
  split
  · exact .refl S
  · exact (matched_start setting g S S).grows

theorem outcome_rename {S S' : Symbols} {f f' : Ref → Ref}
    (h : (outcome setting g S).2.Agree (outcome setting g S').2 f f') :
    (outcome setting g S).1.map (·.rename f) = (outcome setting g S').1.map (·.rename f') := by
  unfold outcome at h ⊢
  cases hfault : fault? setting.options g with
  | some fault => rfl
  | none =>
    rw [hfault] at h
    dsimp only at h ⊢
    rw [← bind_rename (finish_rename f setting.options),
      ← bind_rename (finish_rename f' setting.options), (matched_start setting g S S').same f f' h]

end Outcomes

end Compile

theorem listing_of_rename {S S' : Symbols} {o o' : Except CompileError Compiled}
    (h : ∀ f f', S.Agree S' f f' → o.map (·.rename f) = o'.map (·.rename f')) :
    o.map (·.body.listing S.display) = o'.map (·.body.listing S'.display) := by
  -- References are renamed to the codes of their names, from which the names can be read again.
  have : Countable Char := Function.Injective.countable fun a b => Char.toNat_inj.mp
  have : Countable String := Function.Injective.countable fun a b => String.toList_inj.mp
  obtain ⟨code, hcode⟩ := exists_injective_nat String
  obtain ⟨decode, hdecode⟩ := hcode.hasLeftInverse
  have hlisting (T : Symbols) (a : Except CompileError Compiled) : a.map (·.body.listing T.display)
      = (a.map (·.rename fun r => ⟨.type, code (T.display r)⟩)).map
        (·.body.listing fun r => decode r.index) := by
    cases a with
    | error e => rfl
    | ok c =>
      refine congrArg Except.ok ?_
      dsimp only [Compiled.rename]
      rw [Machine.listing_rename]
      refine congrArg (fun names => c.body.listing names) (funext fun r => ?_)
      exact (hdecode (T.display r)).symm
  rw [hlisting S, hlisting S']
  refine congrArg _ (h _ _ fun y r r' hr hr' => ?_)
  rw [Symbols.display_of_names hr, Symbols.display_of_names hr']

namespace Setting

variable (setting : Setting)

theorem compile_outcome (m : NamedGraph) (w : Workspace) :
    (setting.compile m w).1 = (Compile.outcome setting m.graph w.symbols).1
      ∧ (setting.compile m w).2.symbols = (Compile.outcome setting m.graph w.symbols).2 := by
  rw [← Compile.graph_outcome setting m.graph { w with session := w.session.start m.name }]
  unfold compile
  change _ = (Compile.graph setting m.graph _).1 ∧ _ = (Compile.graph setting m.graph _).2.symbols
  cases Compile.graph setting m.graph { w with session := w.session.start m.name } with
  | mk o w => cases o <;> exact ⟨rfl, rfl⟩

theorem extends_compile (m : NamedGraph) (w : Workspace) :
    w.symbols.Extends (setting.compile m w).2.symbols := by
  rw [(setting.compile_outcome m w).2]
  exact Compile.extends_outcome setting m.graph w.symbols

theorem compileAll_cons (m : NamedGraph) (ms : List NamedGraph) (w : Workspace) :
    setting.compileAll w (m :: ms) = (do
      let o ← uncrashed (setting.compile m w).1
      let (os, w') ← setting.compileAll (setting.compile m w).2 ms
      return (o :: os, w')) :=
  rfl

variable {setting} in
theorem compileAll_cons_ok {m : NamedGraph} {ms : List NamedGraph} {w w' : Workspace}
    {os : List (Except CompileError Compiled)} (h : setting.compileAll w (m :: ms) = .ok (os, w')) :
    ∃ o rest, uncrashed (setting.compile m w).1 = .ok o
      ∧ setting.compileAll (setting.compile m w).2 ms = .ok (rest, w') ∧ os = o :: rest := by
  rw [compileAll_cons] at h
  obtain ⟨o, ho, h⟩ := bind_eq_ok.mp h
  obtain ⟨⟨rest, v⟩, hrest, h⟩ := bind_eq_ok.mp h
  cases h
  exact ⟨o, rest, ho, hrest, rfl⟩

variable {setting} in
theorem extends_compileAll {ms : List NamedGraph} {w w' : Workspace}
    {os : List (Except CompileError Compiled)} (h : setting.compileAll w ms = .ok (os, w')) :
    w.symbols.Extends w'.symbols := by
  induction ms generalizing w os with
  | nil =>
    cases h
    exact .refl _
  | cons m ms ih =>
    obtain ⟨o, rest, -, hrest, -⟩ := compileAll_cons_ok h
    exact (setting.extends_compile m w).trans (ih hrest)

def listing (m : NamedGraph) : Except CompileError (List String) :=
  (setting.compile m {}).1.map (·.body.listing (setting.compile m {}).2.symbols.display)

def listings (w : Workspace) (ms : List NamedGraph) :
    Except Crash (List (Except CompileError (List String))) :=
  (setting.compileAll w ms).map fun (os, w) =>
    os.map (Except.map (·.body.listing w.symbols.display))

variable {setting} in
theorem listing_of_extends {m : NamedGraph} {w : Workspace} {S : Symbols}
    (h : (setting.compile m w).2.symbols.Extends S) :
    (setting.compile m w).1.map (·.body.listing S.display) = setting.listing m := by
  rw [listing]
  refine listing_of_rename fun f f' hagree => ?_
  rw [(setting.compile_outcome m w).1, (setting.compile_outcome m {}).1]
  rw [(setting.compile_outcome m w).2] at h
  rw [(setting.compile_outcome m {}).2] at hagree
  exact Compile.outcome_rename setting m.graph (hagree.anti h (.refl _))

theorem uncrashed_map {α β : Type} (g : α → β) (r : Except CompileError α) :
    uncrashed (r.map g) = (uncrashed r).map (Except.map g) := by
  rcases r with e | a
  · cases e <;> rfl
  · rfl

def alone (m : NamedGraph) : Except Crash (Except CompileError (List String)) :=
  uncrashed (setting.listing m)

variable {setting} in
theorem alone_of_extends {m : NamedGraph} {w : Workspace} {S : Symbols}
    (h : (setting.compile m w).2.symbols.Extends S) : setting.alone m
      = (uncrashed (setting.compile m w).1).map (Except.map (·.body.listing S.display)) := by
  rw [alone, ← listing_of_extends h, uncrashed_map]

variable {setting} in
theorem alone_of_compileAll {ms : List NamedGraph} {w w' : Workspace} {S : Symbols}
    {os : List (Except CompileError Compiled)} (h : setting.compileAll w ms = .ok (os, w'))
    (hS : w'.symbols.Extends S) :
    ms.mapM setting.alone = .ok (os.map (Except.map (·.body.listing S.display))) := by
  induction ms generalizing w os with
  | nil =>
    cases h
    rfl
  | cons m ms ih =>
    obtain ⟨o, rest, ho, hrest, rfl⟩ := compileAll_cons_ok h
    rw [List.mapM_cons, alone_of_extends ((extends_compileAll hrest).trans hS), ho, ih hrest]
    rfl

variable {setting} in
theorem alone_of_crash {ms : List NamedGraph} {w : Workspace} {c : Crash}
    (h : setting.compileAll w ms = .error c) : ms.mapM setting.alone = .error c := by
  induction ms generalizing w with
  | nil => cases h
  | cons m ms ih =>
    rw [List.mapM_cons, alone_of_extends (.refl _)]
    rw [compileAll_cons] at h
    cases ho : uncrashed (setting.compile m w).1 with
    | error d =>
      rw [ho] at h
      cases h
      rfl
    | ok o =>
      rw [ho] at h
      cases hrest : setting.compileAll (setting.compile m w).2 ms with
      | error d =>
        dsimp only [Bind.bind, Except.bind] at h
        rw [hrest] at h
        cases h
        rw [ih hrest]
        rfl
      | ok r =>
        dsimp only [Bind.bind, Except.bind] at h
        rw [hrest] at h
        cases h

end Setting

/-- Each method of a module fails or gets its listing as if it were compiled alone: its place among
the other methods, and whether they fail, do not matter. A module crashes where one of its methods
does. -/
theorem listings_independent (setting : Setting) (w : Workspace) (ms : List NamedGraph) :
    setting.listings w ms = ms.mapM setting.alone := by
  rw [Setting.listings]
  cases h : setting.compileAll w ms with
  | error c => exact (Setting.alone_of_crash h).symm
  | ok r => exact (Setting.alone_of_compileAll h (.refl _)).symm

def idle : Graph := .ofSteps [.block "entry", .flow ⟨0⟩ (.ret none)]

theorem wideSwitch_hides_idle :
    ({} : Setting).listings {} [⟨"wide", wideSwitch⟩, ⟨"idle", idle⟩] = .error .keySpan
    ∧ ∃ l, ({} : Setting).alone ⟨"idle", idle⟩ = .ok (.ok l) := by
  refine ⟨by decide +kernel, ?_⟩
  have hok : (({} : Setting).compile ⟨"idle", idle⟩ {}).1.isOk = true := by decide +kernel
  cases hc : (({} : Setting).compile ⟨"idle", idle⟩ {}).1 with
  | error e =>
    rw [hc] at hok
    cases hok
  | ok c =>
    refine ⟨c.body.listing (({} : Setting).compile ⟨"idle", idle⟩ {}).2.symbols.display, ?_⟩
    rw [Setting.alone, Setting.listing, hc]
    rfl

end StackCode
