import StackCode.Graph.Basic

namespace StackCode.Source

/-- An operation on named values. The parameter types of an intrinsic are not written and left out.
-/
structure OpTree where
  operation : Operation
  operands : List String
  line : Nat
deriving DecidableEq

inductive ArgTree where
  | value (name : String)
  | result
  | exception
deriving DecidableEq

structure BranchTree where
  target : String
  args : List ArgTree
  line : Nat
deriving DecidableEq

structure CaseTree where
  constants : List Constant
  branch : BranchTree
deriving DecidableEq

inductive FlowTree where
  | ret (value : Option String)
  | jump (branch : BranchTree)
  | switch (value : String) (cases : List CaseTree) (fallback : BranchTree)
  | protect (risky : OpTree) (success failure : BranchTree)
  | unreachable
deriving DecidableEq

structure StatementTree where
  name : Option String
  op : OpTree
deriving DecidableEq

structure BlockTree where
  name : String
  line : Nat
  parameters : List (String × Ty)
  statements : List StatementTree
  flow : FlowTree
deriving DecidableEq

structure MethodTree where
  name : String
  blocks : List BlockTree
deriving DecidableEq

end StackCode.Source
