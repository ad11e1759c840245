import Decompiler.Proofs.Batch.Alone

/-!
Workers that share a log and a report.  Each job has a worker of its own, and a schedule says
whose turn it is.  In its turn a worker goes on with its run, on the log as the others have left it,
up to its next event; when there is none left, it puts its result into the report.  However the turns
fall, a job logs and reports what it does alone.
-/

namespace Decompiler

open List

/-- Puts a result into the report, in place of an earlier one of the same job. -/
def BatchReport.insert (report : BatchReport) (result : JobResult) : BatchReport :=
  ⟨report.results.filter (fun other => other.job != result.job) ++ [result]⟩

structure BatchState where
  /-- The shared log, with the job that each event comes from; events from before the batch
  come from none. -/
  log : List (Option Nat × Event)
  report : BatchReport

namespace BatchState

/-- No worker has had a turn, and there are only events from before. -/
def start (earlier : EventLog) : BatchState := ⟨earlier.toList.map fun e => (none, e), ⟨[]⟩⟩

/-- The log of some events, as the workers see it. -/
def untagged (entries : List (Option Nat × Event)) : EventLog := ⟨(entries.map Prod.snd).toArray⟩

def shared (σ : BatchState) : EventLog := untagged σ.log

def eventsOf (σ : BatchState) (i : Nat) : List Event :=
  (σ.log.filter fun entry => entry.1 == some i).map Prod.snd

/-- What a worker meets in the log when it goes on: all that was added since it was there last, up
to its own next event. -/
def others (σ : BatchState) (i : Nat) : Others := fun log =>
  ((σ.log.drop log.size).takeWhile fun entry => entry.1 != some i).map Prod.snd

/-- A turn of a worker.  Its run started on the events from before and has met what the others
added in front of each of its events.  Now it adds the event that it comes to behind all that is
in the log; if it comes to its end without one, it puts the result into the report. -/
def turn (config : Config) (jobs : List Job) (earlier : EventLog) (σ : BatchState) (i : Nat) :
    BatchState :=
  match jobs[i]? with
  | none => σ
  | some job =>
    if (σ.report.job? i).isSome then σ
    else
      let (outcome, log) :=
        reconstructAmid (σ.others i) config job.routine job.region job.env earlier
      match log.toList[σ.log.length]? with
      | some e => { σ with log := σ.log ++ [(some i, e)] }
      | none => { σ with report := σ.report.insert ⟨i, job.routine.name, outcome⟩ }

def run (config : Config) (jobs : List Job) (earlier : EventLog) (schedule : List Nat) :
    BatchState := schedule.foldl (turn config jobs earlier) (start earlier)

def Finished (jobs : List Job) (σ : BatchState) : Prop :=
  ∀ i < jobs.length, (σ.report.job? i).isSome = true

end BatchState

namespace BatchReport

theorem isSome_job? {report : BatchReport} {i : Nat} :
    (report.job? i).isSome = true ↔ ∃ r ∈ report.results, r.job = i := by
  simp [job?, find?_isSome]

end BatchReport

namespace BatchState

variable {config : Config} {jobs : List Job} {earlier : EventLog} {σ : BatchState} {i : Nat}
  {job : Job} {turns : Nat → Nat}

section Meeting

variable {done between rest : List (Option Nat × Event)}

/-- In front of its next event a worker meets what the others added before that. -/
theorem after_others (hlog : σ.log = done ++ between ++ rest)
    (hbetween : ∀ entry ∈ between, entry.1 ≠ some i) (hrest : ∀ entry ∈ rest.head?, entry.1 = some i) :
    (untagged done).after (σ.others i) = untagged (done ++ between) := by
  have hsize : (untagged done).size = done.length := by simp [untagged, EventLog.size]
  have hstop : rest.takeWhile (fun entry => entry.1 != some i) = [] := by
    cases rest with
    | nil => rfl
    | cons entry rest => simp [hrest entry rfl]
  rw [EventLog.after, others, hsize, hlog, append_assoc, drop_left,
    takeWhile_append_of_pos (by simpa using hbetween), hstop, append_nil]
  simp [untagged]

/-- A run that logs what the worker has logged by now is behind the last of these events. -/
theorem amid_logged (hlog : σ.log = done ++ rest) :
    ∃ before last, rest = before ++ last ∧ (∀ entry ∈ last, entry.1 ≠ some i) ∧
      (untagged done).amid (σ.others i)
        ((rest.filter fun entry => entry.1 == some i).map Prod.snd) = untagged (done ++ before) := by
  generalize hmine : rest.filter (fun entry => entry.1 == some i) = mine
  induction mine generalizing done rest with
  | nil =>
    refine ⟨[], rest, rfl, ?_, by rw [append_nil]; rfl⟩
    simpa [filter_eq_nil_iff] using hmine
  | cons entry mine ih =>
    obtain ⟨between, rest, rfl, hbetween, hentry, hmine⟩ := filter_eq_cons_iff.1 hmine
    rw [← append_assoc] at hlog
    have hafter : (untagged done).after (σ.others i) = untagged (done ++ between) :=
      after_others hlog (by simpa using hbetween) (by simpa using hentry)
    have hpush : (untagged (done ++ between)).push entry.2 = untagged (done ++ between ++ [entry]) := by
      simp [untagged, EventLog.push]
    rw [append_cons] at hlog
    obtain ⟨before, last, rfl, hlast, hamid⟩ := ih hlog hmine
    refine ⟨between ++ entry :: before, last, by simp, hlast, ?_⟩
    rw [map_cons, EventLog.amid, foldl_cons, hafter, hpush]
    exact hamid.trans (by simp)

variable {own : List (Option Nat × Event)} (hlog : σ.log = (start earlier).log ++ own)
include hlog

/-- Where a worker has been last: behind it there are only events of others. -/
theorem exists_amid_eventsOf (i : Nat) :
    ∃ before last, own = before ++ last ∧ (∀ entry ∈ last, entry.1 ≠ some i) ∧
      earlier.amid (σ.others i) (σ.eventsOf i) = untagged ((start earlier).log ++ before) := by
  have hearlier : untagged (start earlier).log = earlier := by
    simp [untagged, start, EventLog.toList]
  have hmine : σ.eventsOf i = (own.filter fun entry => entry.1 == some i).map Prod.snd := by
    simp [eventsOf, hlog, start, filter_append]
  obtain ⟨before, last, hown, hlast, hamid⟩ := amid_logged (i := i) hlog
  rw [hearlier, ← hmine] at hamid
  exact ⟨before, last, hown, hlast, hamid⟩

/-- The event that a worker comes to next stands behind all that is in the log. -/
theorem getElem?_amid_others (next : List Event) :
    (earlier.amid (σ.others i) (σ.eventsOf i ++ next)).toList[σ.log.length]? = next.head? := by
  obtain ⟨before, last, rfl, hlast, hamid⟩ := exists_amid_eventsOf hlog i
  rw [EventLog.amid_append, hamid]
  cases next with
  | nil => simp [EventLog.amid, untagged, EventLog.toList, hlog]
  | cons e next =>
    have hafter : (untagged ((start earlier).log ++ before)).after (σ.others i) = σ.shared := by
      rw [← append_assoc, ← append_nil (_ ++ last)] at hlog
      rw [after_others hlog hlast (by simp), shared, hlog, append_nil]
    -- What the worker logs from here on stays behind the event.
    have hkept : ∀ (events : List Event) (log : EventLog), log.toList[σ.log.length]? = some e →
        (log.amid (σ.others i) events).toList[σ.log.length]? = some e := by
      intro events
      induction events with
      | nil => exact fun _ he => he
      | cons e' events ih =>
        intro log he
        have hlonger : ((log.after (σ.others i)).push e').toList =
            log.toList ++ (σ.others i log ++ [e']) := by
          simp [EventLog.push, EventLog.after, EventLog.toList]
        refine ih _ ?_
        rwa [hlonger, getElem?_append_left (List.getElem?_eq_some_iff.1 he).1]
    refine hkept next _ ?_
    dsimp only
    rw [hafter]
    simp [shared, untagged, EventLog.push, EventLog.toList]

end Meeting

/-- The turn of a worker that is not done: its next event is that of the job alone. -/
theorem turn_eq {own : List (Option Nat × Event)} (hlog : σ.log = (start earlier).log ++ own)
    (hjob : jobs[i]? = some job) (hopen : (σ.report.job? i).isSome = false)
    (hevents : σ.eventsOf i <+: job.events config) :
    σ.turn config jobs earlier i =
      match (job.events config)[(σ.eventsOf i).length]? with
      | some e => { σ with log := σ.log ++ [(some i, e)] }
      | none => { σ with report := σ.report.insert (.alone config (job, i)) } := by
  obtain ⟨next, hnext⟩ := hevents
  unfold turn
  rw [hjob]
  dsimp only
  rw [hopen, if_neg Bool.false_ne_true, (job.isolated config).2]
  dsimp only
  rw [← hnext, getElem?_amid_others hlog, getElem?_append_right (Nat.le_refl _), Nat.sub_self,
    head?_eq_getElem?]
  rfl

/-- How far a batch is after some turns of each worker. -/
structure After (config : Config) (jobs : List Job) (earlier : EventLog) (turns : Nat → Nat)
    (σ : BatchState) : Prop where
  log_eq : ∃ own, σ.log = (start earlier).log ++ own ∧
    ∀ entry ∈ own, ∃ i < jobs.length, entry.1 = some i
  events : ∀ {i : Nat} {job : Job}, jobs[i]? = some job →
    σ.eventsOf i = (job.events config).take (turns i)
  nodup : (σ.report.results.map JobResult.job).Nodup
  results : ∀ {r : JobResult}, r ∈ σ.report.results ↔
    ∃ job, jobs[r.job]? = some job ∧ (job.events config).length < turns r.job ∧
      r = .alone config (job, r.job)

namespace After

theorem start : After config jobs earlier (fun _ => 0) (start earlier) where
  log_eq := ⟨[], (append_nil _).symm, fun _ hentry => absurd hentry not_mem_nil⟩
  events := by simp [BatchState.start, eventsOf]
  nodup := nodup_nil
  results := by simp [BatchState.start]

section Turns

variable (h : After config jobs earlier turns σ)
include h

theorem isSome_job? (hjob : jobs[i]? = some job) :
    (σ.report.job? i).isSome = true ↔ (job.events config).length < turns i := by
  rw [BatchReport.isSome_job?]
  constructor
  · rintro ⟨r, hr, rfl⟩
    obtain ⟨job', hjob', hlt, -⟩ := h.results.1 hr
    rw [hjob] at hjob'
    cases hjob'
    exact hlt
  · intro hlt
    exact ⟨.alone config (job, i), h.results.2 ⟨job, hjob, hlt, rfl⟩, rfl⟩

/-- More turns of workers that have nothing left to do change nothing. -/
theorem of_idle {turns' : Nat → Nat}
    (hidle : ∀ {i : Nat} {job : Job}, jobs[i]? = some job →
      turns' i = turns i ∨ (job.events config).length < turns i ∧ turns i ≤ turns' i) :
    After config jobs earlier turns' σ where
  log_eq := h.log_eq
  nodup := h.nodup
  events := by
    intro i job hjob
    rw [h.events hjob]
    rcases hidle hjob with heq | ⟨hlt, hle⟩
    · rw [heq]
    · rw [take_of_length_le hlt.le, take_of_length_le (hlt.le.trans hle)]
  results := by
    intro r
    rw [h.results]
    refine exists_congr fun job => and_congr_right fun hjob => and_congr_left fun _ => ?_
    rcases hidle hjob with heq | ⟨hlt, hle⟩
    · rw [heq]
    · simp [hlt, hlt.trans_le hle]

/-- A turn of a worker that has events left. -/
theorem log (hjob : jobs[i]? = some job) {e : Event}
    (he : (job.events config)[turns i]? = some e) :
    After config jobs earlier (Function.update turns i (turns i + 1))
      { σ with log := σ.log ++ [(some i, e)] } where
  log_eq := by
    obtain ⟨own, hlog, howners⟩ := h.log_eq
    refine ⟨own ++ [(some i, e)], by rw [hlog, append_assoc], ?_⟩
    intro entry hentry
    rcases mem_append.1 hentry with hentry | hentry
    · exact howners entry hentry
    · rw [mem_singleton.1 hentry]
      exact ⟨i, (List.getElem?_eq_some_iff.1 hjob).1, rfl⟩
  nodup := h.nodup
  events := by
    intro k job' hjob'
    have hkept : ({ σ with log := σ.log ++ [(some i, e)] } : BatchState).eventsOf k =
        σ.eventsOf k ++ if i = k then [e] else [] := by
      by_cases hk : i = k <;> simp [eventsOf, filter_append, hk]
    rw [hkept, h.events hjob']
    by_cases hk : i = k
    · subst hk
      rw [hjob] at hjob'
      cases hjob'
      rw [if_pos rfl, Function.update_self, take_add_one, he]
      rfl
    · rw [if_neg hk, append_nil, Function.update_of_ne (Ne.symm hk)]
  results := by
    intro r
    have hlt : turns i < (job.events config).length := (List.getElem?_eq_some_iff.1 he).1
    rw [h.results]
    refine exists_congr fun job' => and_congr_right fun hjob' => and_congr_left fun _ => ?_
    by_cases hk : r.job = i
    · rw [hk, hjob] at hjob'
      cases hjob'
      rw [hk, Function.update_self]
      omega
    · rw [Function.update_of_ne hk]

/-- The last turn of a worker. -/
theorem insert (hjob : jobs[i]? = some job)
    (hturns : turns i = (job.events config).length) :
    After config jobs earlier (Function.update turns i (turns i + 1))
      { σ with report := σ.report.insert (.alone config (job, i)) } := by
  have hnew : ∀ r ∈ σ.report.results, r.job ≠ i := by
    rintro r hr rfl
    obtain ⟨job', hjob', hlt, -⟩ := h.results.1 hr
    rw [hjob] at hjob'
    cases hjob'
    omega
  have hresults : (σ.report.insert (.alone config (job, i))).results =
      σ.report.results ++ [.alone config (job, i)] := by
    refine congrArg (· ++ _) (filter_eq_self.2 fun r hr => ?_)
    simpa [JobResult.alone] using hnew r hr
  refine ⟨h.log_eq, ?_, ?_, ?_⟩
  · intro k job' hjob'
    refine (h.events hjob').trans ?_
    by_cases hk : k = i
    · subst hk
      rw [hjob] at hjob'
      cases hjob'
      rw [Function.update_self, take_of_length_le hturns.ge, take_of_length_le (by omega)]
    · rw [Function.update_of_ne hk]
  · rw [hresults, map_append, map_singleton, nodup_append]
    refine ⟨h.nodup, nodup_singleton _, ?_⟩
    intro a ha b hb
    obtain ⟨r, hr, rfl⟩ := mem_map.1 ha
    rw [mem_singleton.1 hb]
    exact hnew r hr
  · intro r
    rw [hresults, mem_append, mem_singleton, h.results]
    constructor
    · rintro (⟨job', hjob', hlt, hr⟩ | rfl)
      · refine ⟨job', hjob', ?_, hr⟩
        have hne : r.job ≠ i := hnew r (h.results.2 ⟨job', hjob', hlt, hr⟩)
        rwa [Function.update_of_ne hne]
      · refine ⟨job, hjob, ?_, rfl⟩
        simp [JobResult.alone, hturns]
    · rintro ⟨job', hjob', hlt, hr⟩
      by_cases hk : r.job = i
      · rw [hk, hjob] at hjob'
        cases hjob'
        rw [hk] at hr
        exact .inr hr
      · rw [Function.update_of_ne hk] at hlt
        exact .inl ⟨job', hjob', hlt, hr⟩

/-- One more turn of any worker. -/
theorem turn (i : Nat) : After config jobs earlier (Function.update turns i (turns i + 1))
    (σ.turn config jobs earlier i) := by
  cases hjob : jobs[i]? with
  | none =>
    -- There is no such worker.
    rw [BatchState.turn, hjob]
    refine h.of_idle fun {k job} hk => .inl ?_
    have hne : k ≠ i := by
      rintro rfl
      rw [hjob] at hk
      cases hk
    rw [Function.update_of_ne hne]
  | some job =>
    by_cases hdone : (σ.report.job? i).isSome = true
    · -- The worker is done.
      have hlt := (h.isSome_job? hjob).1 hdone
      rw [BatchState.turn, hjob]
      dsimp only
      rw [if_pos hdone]
      refine h.of_idle fun {k job'} hk => ?_
      by_cases heq : k = i
      · subst heq
        rw [hjob] at hk
        cases hk
        rw [Function.update_self]
        exact .inr ⟨hlt, Nat.le_succ _⟩
      · rw [Function.update_of_ne heq]
        exact .inl rfl
    · have hle : turns i ≤ (job.events config).length := by
        rw [h.isSome_job? hjob] at hdone
        omega
      have hlogged : (σ.eventsOf i).length = turns i := by
        rw [h.events hjob, length_take, Nat.min_eq_left hle]
      obtain ⟨own, hlog, -⟩ := h.log_eq
      rw [turn_eq hlog hjob (Bool.eq_false_iff.2 hdone) (h.events hjob ▸ take_prefix ..), hlogged]
      cases he : (job.events config)[turns i]? with
      | some e => exact h.log hjob he
      | none => exact h.insert hjob (Nat.le_antisymm hle (List.getElem?_eq_none_iff.1 he))

end Turns

/-- A worker has as many turns as the schedule gives it. -/
theorem run (config : Config) (jobs : List Job) (earlier : EventLog) (schedule : List Nat) :
    After config jobs earlier (schedule.count ·) (BatchState.run config jobs earlier schedule) := by
  induction schedule using List.reverseRecOn with
  | nil => exact .start
  | append_singleton schedule i ih =>
    have hturn := ih.turn i
    have hcount : Function.update (schedule.count ·) i (schedule.count i + 1) =
        ((schedule ++ [i]).count ·) := by
      funext k
      by_cases hk : k = i
      · simp [hk]
      · simp [hk, count_append, Ne.symm hk]
    rw [hcount] at hturn
    rw [BatchState.run, foldl_append]
    exact hturn

variable (h : After config jobs earlier turns σ)
include h

theorem finished_iff :
    σ.Finished jobs ↔ ∀ i job, jobs[i]? = some job → (job.events config).length < turns i := by
  constructor
  · intro hfinished i job hjob
    exact (h.isSome_job? hjob).1 (hfinished i (List.getElem?_eq_some_iff.1 hjob).1)
  · intro hturns i hi
    have hjob := getElem?_eq_getElem hi
    exact (h.isSome_job? hjob).2 (hturns i _ hjob)

/-- A finished report has one result for each job. -/
theorem results_perm (hfinished : σ.Finished jobs) :
    σ.report.results.Perm (jobs.zipIdx.map (JobResult.alone config)) := by
  have hnodup : (jobs.zipIdx.map (JobResult.alone config)).Nodup := by
    apply List.Nodup.of_map JobResult.job
    rw [map_map]
    exact zipIdx_map_snd .. ▸ nodup_range'
  apply (perm_ext_iff_of_nodup (.of_map _ h.nodup) hnodup).2
  intro r
  rw [h.results, mem_map]
  constructor
  · rintro ⟨job, hjob, -, hr⟩
    exact ⟨(job, r.job), mk_mem_zipIdx_iff_getElem?.2 hjob, hr.symm⟩
  · rintro ⟨⟨job, i⟩, hentry, rfl⟩
    have hjob := mk_mem_zipIdx_iff_getElem?.1 hentry
    exact ⟨job, hjob, h.finished_iff.1 hfinished i job hjob, rfl⟩

theorem eventsOf_eq (hfinished : σ.Finished jobs) (hjob : jobs[i]? = some job) :
    σ.eventsOf i = job.events config := by
  rw [h.events hjob]
  exact take_of_length_le (h.finished_iff.1 hfinished i job hjob).le

end After

/-- Jobs of a batch do not affect each other.  A job comes to what it comes to alone and logs what
it logs alone, whatever is added to the log in the meantime.  Workers add events of jobs to the log
and nothing else, and a batch is finished once every worker has had a turn for each event of its job
and one more.  Then the report has one result for each job, that of the job alone, as has the report
of the jobs one after the other; and wherever they stand in the log, the events of a job are those
of the job alone, from its start to its end.  The run of each worker, amid what the others did add,
has left the log as it is up to its last event. -/
theorem batch_isolates_jobs (config : Config) (jobs : List Job) (earlier : EventLog)
    (schedule : List Nat) :
    (∀ job ∈ jobs, ∀ others log,
      reconstructAmid others config job.routine job.region job.env log =
        (job.outcome config, log.amid others (job.events config))) ∧
    (∃ own, (run config jobs earlier schedule).log = (start earlier).log ++ own ∧
      ∀ entry ∈ own, ∃ i < jobs.length, entry.1 = some i) ∧
    ((run config jobs earlier schedule).Finished jobs ↔
      ∀ i job, jobs[i]? = some job → (job.events config).length < schedule.count i) ∧
    ((run config jobs earlier schedule).Finished jobs →
      (run config jobs earlier schedule).report.results.Perm
        (jobs.zipIdx.map (JobResult.alone config)) ∧
      (reconstructBatch config jobs earlier).1.results =
        jobs.zipIdx.map (JobResult.alone config) ∧
      ∀ i job, jobs[i]? = some job →
        (run config jobs earlier schedule).eventsOf i = job.events config ∧
          Bracketed job.routine.name (job.outcome config) (job.events config) ∧
          (reconstructAmid ((run config jobs earlier schedule).others i) config job.routine
            job.region job.env earlier).2.toList <+:
              (run config jobs earlier schedule).shared.toList) := by
  have hafter := After.run config jobs earlier schedule
  refine ⟨fun job _ => (job.isolated config).2, hafter.log_eq, hafter.finished_iff,
    fun hfinished => ?_⟩
  refine ⟨hafter.results_perm hfinished, reconstructBatch_results config jobs earlier, ?_⟩
  intro i job hjob
  have hevents := hafter.eventsOf_eq hfinished hjob
  obtain ⟨own, hlog, -⟩ := hafter.log_eq
  obtain ⟨hbracketed, hrun⟩ := job.isolated config
  refine ⟨hevents, hbracketed, ?_⟩
  obtain ⟨before, last, rfl, -, hamid⟩ := exists_amid_eventsOf hlog i
  rw [hrun, ← hevents, hamid, shared, hlog, ← append_assoc]
  simp [untagged, EventLog.toList]

/-- Two jobs of the same name.  They start alike, but one of them goes on and fails at a comparison
that is read again. -/
def namesakes : List Job :=
  [Context.copiedTest, Context.copiedTest ++ Context.sharedTest].map fun code =>
    let routine := (assemble "z" code).toOption.getD (.empty "z")
    ⟨routine, Region.linear routine, ({} : TypeTable).env routine⟩

/-- The jobs log in turns what looks the same, and then one of them is done and the other fails. -/
theorem namesakes_isolated :
    let σ := run .standard namesakes .empty [0, 1, 1, 0, 1, 0, 1, 0]
    σ.log.map (fun entry => (entry.1, entry.2.kind)) =
        [(some 0, .started), (some 1, .started), (some 1, .warning), (some 0, .warning),
          (some 1, .failed), (some 0, .completed)] ∧
      σ.report.results.map (fun r => (r.job, r.outcome.isOk)) = [(1, false), (0, true)] ∧
      σ.Finished namesakes ∧
      σ.report.results.Perm (namesakes.zipIdx.map (JobResult.alone .standard)) := by
  intro σ
  obtain ⟨-, -, hiff, hall⟩ :=
    batch_isolates_jobs .standard namesakes .empty [0, 1, 1, 0, 1, 0, 1, 0]
  have hturns : ∀ i job, namesakes[i]? = some job →
      (job.events .standard).length < [0, 1, 1, 0, 1, 0, 1, 0].count i := by
    have hentries : ∀ entry ∈ namesakes.zipIdx,
        (entry.1.events .standard).length < [0, 1, 1, 0, 1, 0, 1, 0].count entry.2 := by
      decide +kernel
    intro i job hjob
    exact hentries (job, i) (List.mk_mem_zipIdx_iff_getElem?.2 hjob)
  exact ⟨by decide +kernel, by decide +kernel, hiff.2 hturns, (hall (hiff.2 hturns)).1⟩

end BatchState

end Decompiler
