import Decompiler.Reconstruction
import Decompiler.Typing.TypeTable

/-!
Reconstruction of many routines.  A routine that fails does not affect the others.
-/

namespace Decompiler

structure Job where
  routine : Routine
  region : Region
  env : TypeEnv

/-- A routine with its blocks one after another and nothing known about types. -/
def Job.linear (routine : Routine) : Job :=
  ⟨routine, .linear routine, ({} : TypeTable).env routine⟩

structure JobResult where
  job : Nat
  name : String
  outcome : Except Error Reconstruction
deriving Inhabited

/-- The outcomes of a batch, one for each job, in any order. -/
structure BatchReport where
  results : List JobResult
deriving Inhabited

namespace BatchReport

def job? (report : BatchReport) (job : Nat) : Option JobResult :=
  report.results.find? fun r => r.job == job

/-- The outcome of the first job with a given name. -/
def find? (report : BatchReport) (name : String) : Option JobResult :=
  let jobs := (report.results.filter fun r => r.name == name).map JobResult.job
  jobs.min?.bind report.job?

def size (report : BatchReport) : Nat := report.results.length

def isEmpty (report : BatchReport) : Bool := report.results.isEmpty

/-- The names of the routines that were reconstructed, in order. -/
def succeeded (report : BatchReport) : List String :=
  ((report.results.filter fun r => r.outcome.isOk).map JobResult.name).mergeSort
    fun a b => decide (a ≤ b)

def failure? (r : JobResult) : Option (String × Error) :=
  match r.outcome with
  | .ok _ => none
  | .error e => some (r.name, e)

/-- The routines that failed with their errors, in order of name. -/
def failed (report : BatchReport) : List (String × Error) :=
  (report.results.filterMap failure?).mergeSort fun a b => decide (a.1 ≤ b.1)

end BatchReport

def runJob (config : Config) (s : BatchReport × EventLog) (entry : Job × Nat) :
    BatchReport × EventLog :=
  let (job, index) := entry
  let (outcome, log) := reconstruct config job.routine job.region job.env s.2
  (⟨s.1.results ++ [⟨index, job.routine.name, outcome⟩]⟩, log)

def reconstructBatch (config : Config) (jobs : List Job) (log : EventLog) :
    BatchReport × EventLog :=
  jobs.zipIdx.foldl (runJob config) (⟨[]⟩, log)

end Decompiler
