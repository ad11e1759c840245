import Decompiler.Fold.State

/-!
Types of forms and the casts that operands need.  Integer constants have no type, so
they never need a cast.
-/

namespace Decompiler

/-- The type of the result of a built-in operator, given the types of its operands. -/
def Builtin.resultType (b : Builtin) (args : List (Option TypeName)) : Option TypeName :=
  match b with
  | .sqrt | .floatAbs | .floatMin | .floatMax | .toFloatRegister => some .float
  | .setLess | .setLessUnsigned => some .int
  | .typeOf => some (.named "type")
  | .toGeneralRegister | .addressOf => none
  | _ => args.findSome? id

def LoadKind.type : LoadKind → TypeName
  | signed => .int
  | unsigned => .uint
  | float => .float

/-- The type of a form, looking at operands down to a depth. -/
def TypeEnv.formTypeWithin (env : TypeEnv) (p : Pool) : Nat → FormId → Option TypeName
  | 0, _ => none
  | depth + 1, f =>
    match (p.single? f).map p.element with
    | some (.atom (.var v)) => env.variableType v
    | some (.atom (.float _)) => some .float
    | some (.atom (.symbol _)) => some .symbol
    | some (.text _) => some (.named "string")
    | some (.cast type _ _) => some type
    | some (.condition _ _ _ _ _) => some .symbol
    | some (.load _ _ _ kind _) => some kind.type
    | some (.abs source _ _) => env.formTypeWithin p depth source
    | some (.ash value _ _ _ _ _) => env.formTypeWithin p depth value
    | some (.typeOf _ _ _) => some (.named "type")
    | some (.apply (.builtin b) args) => b.resultType (args.map (env.formTypeWithin p depth))
    | some (.apply (.test _) _) => some .symbol
    | _ => none

def TypeEnv.formType (env : TypeEnv) (p : Pool) (f : FormId) : Option TypeName :=
  env.formTypeWithin p p.elements.size f

namespace Context

def formType (cx : Context) (f : FormId) : FoldM (Option TypeName) :=
  return cx.env.formType (← get).pool f

/-- Casts a form to a type if its own type is known and needs it. -/
def castTo (cx : Context) (site : Nat) (f : FormId) (desired : TypeName) : FoldM FormId := do
  if !cx.config.insertCasts then
    return f
  match ← cx.formType f with
  | none => return f
  | some actual =>
    match cx.env.coercion desired actual with
    | .none => return f
    | coercion =>
      let cast ← FoldM.addSingle (.cast desired f (coercion == .numeric))
      cx.noteForm .castInserted site cast
      return cast

/-- Casts the second of two integers to the type of the first when they differ in
signedness. -/
def matchSignedness (cx : Context) (site : Nat) (first second : FormId) : FoldM FormId := do
  match ← cx.formType first, ← cx.formType second with
  | some a, some b =>
    if a.isInteger && b.isInteger && a != b then cx.castTo site second a else return second
  | _, _ => return second

/-- Casts the second of two operands as `matchSignedness` does. -/
def matchOperands (cx : Context) (site : Nat) : List FormId → FoldM (List FormId)
  | [first, second] => return [first, ← cx.matchSignedness site first second]
  | args => return args

/-- Casts operands to a signed or an unsigned integer. -/
def forceInteger (cx : Context) (site : Nat) (args : List FormId) (signed : Bool) :
    FoldM (List FormId) :=
  args.mapM fun f => cx.castTo site f (if signed then .int else .uint)

end Context

end Decompiler
