import Decompiler.Batch
import Decompiler.Proofs.Structure.Tame

/-!
What a job comes to when it runs alone.  A run on any log, whatever others add to that in the
meantime, comes to the same and logs the same, so a run on an empty log tells all there is to tell.
-/

namespace Decompiler

namespace Job

variable (config : Config) (job : Job)

/-- The outcome of a job that runs alone, on an empty log. -/
def outcome : Except Error Reconstruction :=
  (reconstruct config job.routine job.region job.env .empty).1

def events : List Event := (reconstruct config job.routine job.region job.env .empty).2.toList

end Job

/-- The result of a job that runs alone, under its position among the jobs. -/
def JobResult.alone (config : Config) (entry : Job × Nat) : JobResult :=
  ⟨entry.2, entry.1.routine.name, entry.1.outcome config⟩

/-- What a job does alone it does amid others. -/
theorem Job.isolated (config : Config) (job : Job) :
    Bracketed job.routine.name (job.outcome config) (job.events config) ∧ ∀ others log,
      reconstructAmid others config job.routine job.region job.env log =
        (job.outcome config, log.amid others (job.events config)) := by
  obtain ⟨outcome', events', hbracketed, hrun⟩ :=
    exists_reconstructAmid config job.routine job.region job.env
  have halone : reconstruct config job.routine job.region job.env .empty =
      (outcome', EventLog.amid .nobody .empty events') := hrun .nobody .empty
  obtain rfl : job.outcome config = outcome' := congrArg Prod.fst halone
  obtain rfl : job.events config = events' := by
    rw [events, halone, EventLog.toList_amid_nobody]
    rfl
  exact ⟨hbracketed, hrun⟩

/-- The jobs one after the other come to what each comes to alone. -/
theorem reconstructBatch_results (config : Config) (jobs : List Job) (log : EventLog) :
    (reconstructBatch config jobs log).1.results = jobs.zipIdx.map (JobResult.alone config) := by
  have hrun : ∀ (entries : List (Job × Nat)) (s : BatchReport × EventLog),
      (entries.foldl (runJob config) s).1.results =
        s.1.results ++ entries.map (JobResult.alone config) := by
    intro entries
    induction entries with
    | nil => simp
    | cons entry entries ih =>
      intro s
      rw [List.foldl_cons, ih, runJob]
      dsimp only
      rw [reconstruct, (entry.1.isolated config).2]
      simp [JobResult.alone]
  exact hrun jobs.zipIdx (⟨[]⟩, log)

end Decompiler
