import Decompiler.Machine.Operation

/-!
What can go wrong while a routine is assembled or reconstructed.
-/

namespace Decompiler

inductive ErrorTag
  | foldInvariant
  | branchShape
  | malformedInput
  | invalidHandle
  | depthLimit
deriving DecidableEq, Inhabited, Repr

namespace ErrorTag

def text : ErrorTag → String
  | foldInvariant => "fold-invariant-violation"
  | branchShape => "unrecognized-branch-shape"
  | malformedInput => "malformed-input"
  | invalidHandle => "invalid-handle"
  | depthLimit => "recursion-limit"

end ErrorTag

inductive Error
  /-- The consumed registers of an instruction contradict a fold. -/
  | foldInvariant (site : Nat) (reason : String)
  /-- The branches of a region do not have the layout of its kind. -/
  | branchShape (block : BlockId) (site : Nat) (reason : String)
  /-- The routine or the region is not well formed. -/
  | malformedInput (reason : String)
  /-- A block, instruction or tree handle that does not exist. -/
  | invalidHandle (reason : String)
  /-- Regions are nested more deeply than allowed. -/
  | depthLimit (limit : Nat)
  /-- An error together with the routine it occurred in. -/
  | inRoutine (routine : String) (site : Nat) (tag : ErrorTag) (reason : String)
deriving DecidableEq, Inhabited, Repr

namespace Error

/-- The family of an error; it survives `scopedTo`. -/
def tag : Error → ErrorTag
  | foldInvariant _ _ => .foldInvariant
  | branchShape _ _ _ => .branchShape
  | malformedInput _ => .malformedInput
  | invalidHandle _ => .invalidHandle
  | depthLimit _ => .depthLimit
  | inRoutine _ _ tag _ => tag

def site? : Error → Option Nat
  | foldInvariant site _ => some site
  | branchShape _ site _ => some site
  | inRoutine _ site _ _ => some site
  | _ => none

def message : Error → String
  | foldInvariant site reason =>
    "Fold invariant violated at instruction " ++ toString site ++ ": " ++ reason
  | branchShape block _ reason =>
    "Unrecognized branch shape in block " ++ blockName block ++ ": " ++ reason
  | malformedInput reason => "Malformed input - " ++ reason
  | invalidHandle reason => "Invalid handle - " ++ reason
  | depthLimit limit => "Reached the maximum region depth allowed - " ++ toString limit
  | inRoutine routine site tag reason =>
    routine ++ "@" ++ toString site ++ ": " ++ tag.text ++ " - " ++ reason

/-- Names the routine an error occurred in, unless it already has one. -/
def scopedTo (routine : String) : Error → Error
  | inRoutine r site tag reason => inRoutine r site tag reason
  | e => inRoutine routine (e.site?.getD 0) e.tag e.message

end Error

end Decompiler
