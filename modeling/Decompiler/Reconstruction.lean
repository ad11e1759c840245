import Decompiler.Structure.Build

/-!
Reconstruction of a routine: the routine and the region are checked, the tree is built,
an assignment of the result at its end becomes its value, and the links of the finished
tree are checked.
-/

namespace Decompiler

structure Reconstruction where
  pool : Pool
  root : FormId
deriving DecidableEq, Inhabited, Repr

namespace Pool

/-- Checks that elements know the form they stand in, and their child forms know them. -/
def checkForm (p : Pool) (f : FormId) : Except Error Unit :=
  (p.elementsOf f).forM fun e => do
    if p.parentForm? e ≠ some f then
      throw (.invalidHandle (e.text ++ " is not linked to " ++ f.text))
    (p.element e).children.forM fun child => do
      if p.parentElement? child ≠ some e then
        throw (.invalidHandle (child.text ++ " is not linked to " ++ e.text))

def childForms (p : Pool) (f : FormId) : List FormId :=
  (p.elementsOf f).flatMap fun e => (p.element e).children

/-- Checks the links of a form and of the forms below it, down to a depth; of several child
forms the last one is checked first. -/
def checkLinksWithin (p : Pool) : Nat → FormId → Except Error Unit
  | 0, _ => .ok ()
  | depth + 1, f => do
    p.checkForm f
    (p.childForms f).reverse.forM (p.checkLinksWithin depth)

/-- Checks the links of a form and of all forms below it. -/
def checkLinks (p : Pool) (f : FormId) : Except Error Unit := p.checkLinksWithin p.forms.size f

end Pool

namespace Context

/-- Turns an assignment of the result at the end of a form into its value. -/
def stripResult (cx : Context) (root : FormId) : FoldM Unit := do
  let p := (← get).pool
  match (p.elementsOf root).getLast?.map p.element with
  | some (.set dst source _ _) =>
    if dst.register = cx.routine.resultRegister then
      let value ← cx.castResult dst.site source
      FoldM.changePool fun p =>
        p.setElements root ((p.elementsOf root).dropLast ++ p.elementsOf value)
  | _ => pure ()

def reconstruct (cx : Context) (region : Region) : TryFoldM Reconstruction := do
  TryFoldM.ofExcept cx.routine.validate
  TryFoldM.ofExcept (cx.routine.validateRegion cx.config.maxDepth region)
  let root ← cx.build region
  if cx.config.stripResult then
    cx.stripResult root
  let pool := (← get).pool
  TryFoldM.ofExcept (pool.checkLinks root)
  return { pool, root }

end Context

/-- Logs how a run has ended.  An error names the routine. -/
def conclude (routine : Routine) (others : Others) :
    Except Error Reconstruction × FoldState → Except Error Reconstruction × EventLog
  | (.ok tree, s) =>
    (.ok tree, (s.log.after others).record .completed (some routine.name) none
      (some (toString tree.pool.elements.size ++ " elements")))
  | (.error e, s) =>
    let e := e.scopedTo routine.name
    (.error e, (s.log.after others).record .failed (some routine.name) (some (e.site?.getD 0))
      (some e.message))

/-- Reconstructs a routine and logs the start, what happens on the way, and the outcome.  Others
may write to the log in the meantime. -/
def reconstructAmid (others : Others) (config : Config) (routine : Routine) (region : Region)
    (env : TypeEnv) (log : EventLog) : Except Error Reconstruction × EventLog :=
  let log := (log.after others).record .started (some routine.name) none none
  conclude routine others (((Context.of routine env config).reconstruct region).run
    (.start log others))

/-- Reconstructs a routine when nobody else writes to the log. -/
def reconstruct (config : Config) (routine : Routine) (region : Region) (env : TypeEnv)
    (log : EventLog) : Except Error Reconstruction × EventLog :=
  reconstructAmid .nobody config routine region env log

theorem reconstruct_eq (config : Config) (routine : Routine) (region : Region) (env : TypeEnv)
    (log : EventLog) :
    reconstruct config routine region env log =
      conclude routine .nobody (((Context.of routine env config).reconstruct region).run
        (.start (log.record .started (some routine.name) none none))) := by
  rw [reconstruct, reconstructAmid, EventLog.after_nobody]

end Decompiler
