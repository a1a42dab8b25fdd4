import StackCode.Chunk.Instr

/-!
Chunks of flows, which run one after the other. A branch that passes arguments has to push them
right before an unconditional jump. Where control arrives there from a conditional jump, a jump
table or a protected range, the arguments are pushed after a label of their own.
-/

namespace StackCode

open Machine (Opcode)
open Select

def maxTable : Int := 4096

def Graph.checkArity (g : Graph) (b : Block) (branch : Branch) : Except CompileError Unit :=
  match g.block? branch.target with
  | none => .error (.malformed (.unknownTarget b.name branch.target))
  | some target =>
    if branch.args.length ≠ target.parameters.length then
      .error (.malformed
        (.argumentCount b.name branch.args.length target.name target.parameters.length))
    else .ok ()

def Graph.plainArgs (g : Graph) (b : Block) (branch : Branch) : Except CompileError (List Value) :=
  match g.checkArity b branch with
  | .error e => .error e
  | .ok _ =>
    if branch.args.all fun a => a.value?.isSome then .ok branch.values
    else .error (.malformed (.strayMark branch.target b.name))

def Chunk.jump (target : Label) (args : List Value) : Chunk :=
  ⟨[.jump .br target], args⟩

def Chunk.label (l : Label) : Chunk :=
  ⟨[.label l], []⟩

def caseKeys (block : String) (seen : List Int) : List Constant → Except CompileError (List Int)
  | [] => .ok seen.reverse
  | c :: cs =>
    match c.int? with
    | none => .error (.unsupported (.switchConstant block c))
    | some k =>
      if seen.contains k then .error (.malformed (.repeatedCase block k))
      else caseKeys block (k :: seen) cs

def keyRange? (keys : List Int) : Option (Int × Int) :=
  match keys.min?, keys.max? with
  | some lo, some hi => some (lo, hi)
  | _, _ => none

def wide? (n : Int) : Option Int :=
  if IntShape.constantMin ≤ n ∧ n ≤ IntShape.constantMax then some n else none

def keySpan? (lo hi : Int) : Option Int :=
  (wide? (hi - lo)).bind fun n => wide? (n + 1)

def tableTargets (cases : List (Case × Label)) (fallback : Label) (lo span : Int) : List Label :=
  let entries := cases.flatMap fun (c, l) => (c.constants.filterMap Constant.int?).map (·, l)
  (List.range span.toNat).map fun (n : Nat) => (entries.lookup (lo + n)).getD fallback

namespace Select

variable (ctx : Context) (b : Block)

def compare (t : Ty) (c : Constant) (whenEqual : Bool) (target : Label) : Select (List Item) := do
  let isBit := t.isBool && (c.int? = some 0 || c.int? = some 1)
  if isBit then
    let whenSet := (c.int? = some 1) = whenEqual
    return [.jump (if whenSet then .brtrue else .brfalse) target]
  else
    return (← pushConstant c t) ++ [.jump (if whenEqual then .beq else .bneUn) target]

def ifElse (v : Value) (c : Constant) (branch fallback : Branch) (fallbackArgs : List Value) :
    Select (List Chunk) := do
  let args ← ofExcept (ctx.graph.plainArgs b branch)
  let t ← valueType ctx v
  if args.isEmpty then
    return [⟨← compare t c true branch.target, [v]⟩, .jump fallback.target fallbackArgs]
  else if fallbackArgs.isEmpty then
    return [⟨← compare t c false fallback.target, [v]⟩, .jump branch.target args]
  else
    let l ← label
    return [⟨← compare t c false l, [v]⟩, .jump branch.target args,
      .label l, .jump fallback.target fallbackArgs]

def landing (branch : Branch) : Select Label :=
  if branch.args.isEmpty then pure branch.target else label

def tableIndex (t : Ty) (lo span : Int) (fallback : Label) : Select (List Item) := do
  let shift ← if lo = 0 then pure [] else do
    pure ((← pushConstant (.int lo) t) ++ [.plain (.binary .sub)])
  if t.isWide then
    let index ← temporary t
    let limit := if t.isWord then [ldcI4 span, plain (.conv .u)] else [ldcI8 span]
    return shift ++ [.store index, .load index] ++ limit.map .op
      ++ [.plain (.binary .cltUn), .jump .brfalse fallback, .load index, .plain (.conv .i4)]
  else return shift

def landed (branch : Branch) (l : Label) : Select (List Chunk) := do
  if l = branch.target then return []
  else return [.label l, .jump branch.target (← ofExcept (ctx.graph.plainArgs b branch))]

def jumpTable (v : Value) (cases : List Case) (fallback : Branch) (fallbackArgs : List Value) :
    Select (List Chunk) := do
  let t ← valueType ctx v
  if !t.isSwitchable then refuse (.switchType b.name t)
  else
    let keys ← ofExcept (caseKeys b.name [] (cases.flatMap Case.constants))
    match keyRange? keys with
    | none => refuse (.switchEmpty b.name)
    | some (lo, hi) =>
      match keySpan? lo hi with
      | none => throw (.crash .keySpan)
      | some span =>
        if 2 * keys.length < span ∨ maxTable < span then
          refuse (.switchSparse b.name cases.length span)
        else
          let fallbackLabel ← if fallbackArgs.isEmpty then pure fallback.target else label
          let labels ← cases.mapM fun c => landing c.branch
          let index ← tableIndex t lo span fallbackLabel
          let table := tableTargets (cases.zip labels) fallbackLabel lo span
          let otherwise :=
            (if fallbackArgs.isEmpty then [] else [Chunk.label fallbackLabel])
              ++ [.jump fallback.target fallbackArgs]
          let arms ← (cases.zip labels).mapM fun (c, l) => landed ctx b c.branch l
          return ⟨index ++ [.switch table], [v]⟩ :: otherwise ++ arms.flatten

def switch (v : Value) (cases : List Case) (fallback : Branch) : Select (List Chunk) := do
  let fallbackArgs ← ofExcept (ctx.graph.plainArgs b fallback)
  match cases with
  | [] => return [.jump fallback.target fallbackArgs]
  | [⟨[c], branch⟩] => ifElse ctx b v c branch fallback fallbackArgs
  | _ => jumpTable ctx b v cases fallback fallbackArgs

def keep (v : Option Value) : Item :=
  match v with
  | some v => .store v
  | none => .plain .pop

def boundArgs (result caught : Option Value) (branch : Branch) : List Value :=
  branch.args.filterMap fun
    | .value v => some v
    | .result => result
    | .exception => caught

def temporaryIf (needed : Bool) (t : Ty) : Select (Option Value) := do
  if needed then return some (← temporary t) else return none

def handler (caught : Option Value) (l : Label) : Select Chunk := do
  let type ← typeRef ctx.env.caught
  let capture ← if caught.isSome then do pure [← methodOp .call ctx.env.capture] else pure []
  return ⟨.handlerStart type :: capture ++ [keep caught, .jump .leave l, .handlerEnd], []⟩

def protect (risky : Instr) (success failure : Branch) : Select (List Chunk) := do
  if success.args.contains .exception then reject (.wrongEdge .exception b.name)
  if failure.args.contains .result then reject (.wrongEdge .result b.name)
  ofExcept (ctx.graph.checkArity b success)
  ofExcept (ctx.graph.checkArity b failure)
  let type := risky.operation.resultType
  let needsResult := success.args.contains .result
  if needsResult && type.isVoid then reject (.voidResult b.name)
  let result ← temporaryIf needsResult type
  let caught ← temporaryIf (failure.args.contains .exception) ctx.env.captured
  let done ← label
  let failed ← label
  let chunk ← instr ctx risky
  let kept := if type.isVoid then [] else [keep result]
  let handling ← handler ctx caught failed
  return [⟨[.tryStart], []⟩,
    { chunk with code := chunk.code ++ kept ++ [.jump .leave done] },
    handling,
    .label done, .jump success.target (boundArgs result caught success),
    .label failed, .jump failure.target (boundArgs result caught failure)]

def flow : Select (List Chunk) := do
  match b.flow with
  | .ret value => return [⟨[.plain .ret], value.toList⟩]
  | .jump branch => return [.jump branch.target (← ofExcept (ctx.graph.plainArgs b branch))]
  | .unreachable => return [⟨[.plain .ldnull, .plain .throw], []⟩]
  | .switch v cases fallback => switch ctx b v cases fallback
  | .protect risky success failure => protect ctx b risky success failure

end Select

end StackCode
