import Decompiler.Proofs.Meaning.PendingDivisions

/-!
Straight-line code of assignments and divisions.  Of the results of a division it matters whether
an instruction has read one of them yet.  Two states of the registers that agree where registers
are live need not agree on results that were read.
-/

namespace Decompiler

open List RegisterSet

def Operand.isZero : Operand → Bool
  | .register r => r == .zero
  | _ => false

def Operand.isArithmetic (operand : Operand) : Bool := operand.isInteger || operand.isZero

def Operand.isResultCopy : Operator → List Operand → Bool
  | .identity, [.register r] => r == .hi || r == .lo
  | _, _ => false

/-- Assignments of integers and of results of divisions, divisions, and the choice of the result
register. -/
def Statement.isArithmetic : Statement → Bool
  | .resultIn _ => true
  | .divide a b _ => (Operand.register a).isArithmetic && (Operand.register b).isArithmetic
  | .set dst operator args =>
    dst.isPlain && (Operand.isResultCopy operator args ||
      operator.isInteger && args.length == operator.arity && args.all Operand.isArithmetic)
  | _ => false

inductive Operation.IsArithmetic : Operation → Prop
  | set {dst : Variable} {source : Expression} (hdst : dst.register.isPlain = true)
      (hsource : source.isInteger = true) : IsArithmetic (.set dst source)
  | read {dst v : Variable} (hdst : dst.register.isPlain = true)
      (hv : v.register = .hi ∨ v.register = .lo) :
      IsArithmetic (.set dst ⟨.identity, [.var v]⟩)
  | divide {a b : Atom} {signed : Bool} (hatoms : ∀ c ∈ [a, b], c.isInteger = true) :
      IsArithmetic (.divide a b signed)

theorem Operand.isInteger_atom_of_isArithmetic {operand : Operand}
    (h : operand.isArithmetic = true) (site : Nat) : (operand.atom site).isInteger = true := by
  rcases (Bool.or_eq_true _ _).mp h with hinteger | hzero
  · exact isInteger_atom hinteger site
  · cases operand with
    | register r =>
      rw [atom, if_pos (beq_iff_eq.1 hzero)]
      rfl
    | _ => cases hzero

theorem Operand.isResultCopy_eq_true {operator : Operator} {args : List Operand}
    (h : isResultCopy operator args = true) :
    ∃ r, operator = .identity ∧ args = [.register r] ∧ (r = .hi ∨ r = .lo) := by
  unfold isResultCopy at h
  split at h
  · rename_i r
    exact ⟨r, rfl, rfl, by simpa using h⟩
  · cases h

variable {ops : List Operation} {q : Register} {atoms : List Atom} {op : Operation}

theorem Draft.IsStraight.add_arithmetic {d : Draft} {statement : Statement} (h : d.IsStraight ops)
    (hops : ∀ op ∈ ops, op.IsArithmetic) (hstatement : statement.isArithmetic = true) :
    ∃ ops', (d.add statement).IsStraight ops' ∧ ∀ op ∈ ops', op.IsArithmetic := by
  have hpush : ∀ op : Operation, op.IsArithmetic → d.add statement = d.push op →
      ∃ ops', (d.add statement).IsStraight ops' ∧ ∀ op ∈ ops', op.IsArithmetic := by
    intro op hop hadd
    rw [hadd]
    exact h.exists_push hops hop
  cases statement with
  | resultIn r => exact ⟨ops, h, hops⟩
  | divide a b signed =>
    simp only [Statement.isArithmetic, Bool.and_eq_true] at hstatement
    refine hpush _ (.divide fun c hc => ?_) rfl
    rcases mem_pair.1 hc with rfl | rfl
    · exact Operand.isInteger_atom_of_isArithmetic hstatement.1 _
    · exact Operand.isInteger_atom_of_isArithmetic hstatement.2 _
  | set dst operator args =>
    simp only [Statement.isArithmetic, Bool.and_eq_true, Bool.or_eq_true, all_eq_true] at hstatement
    obtain ⟨hdst, hcopy | ⟨⟨hoperator, harity⟩, hargs⟩⟩ := hstatement
    · obtain ⟨r, rfl, rfl, hr⟩ := Operand.isResultCopy_eq_true hcopy
      have hatom : (Operand.register r).atom d.ops.size = .var (.read r d.ops.size) :=
        if_neg (by rcases hr with rfl | rfl <;> decide)
      refine hpush (.set (.write dst d.ops.size) ⟨.identity, [.var (.read r d.ops.size)]⟩)
        (.read hdst hr) ?_
      exact congrArg (fun a => d.push (.set _ ⟨.identity, [a]⟩)) hatom
    · refine hpush (.set (.write dst d.ops.size) _) (.set hdst ?_) rfl
      simp only [Expression.isInteger, Bool.and_eq_true, all_eq_true]
      refine ⟨⟨hoperator, ?_⟩, fun c hc => ?_⟩
      · rw [length_map]
        exact harity
      · obtain ⟨operand, hoperand, rfl⟩ := mem_map.1 hc
        exact Operand.isInteger_atom_of_isArithmetic (hargs operand hoperand) _
  | _ => cases hstatement

/-- Statements for assignments and divisions assemble to straight-line code of these. -/
theorem assemble_arithmetic {program : List Statement} (name : String)
    (h : ∀ statement ∈ program, statement.isArithmetic = true) :
    ∃ r ops, assemble name program = .ok r ∧ r.IsStraight ops ∧
      ∀ op ∈ ops, op.IsArithmetic := by
  refine assemble_straight_of Draft.IsStraight.add_arithmetic (fun hop => ?_) name h
  cases hop <;> rfl

/-- What became of the results of the latest division: there was none, no instruction has read
them yet, or one has. -/
inductive Results
  | initial
  | fresh
  | taken
deriving DecidableEq

def Operation.readsResults (op : Operation) : Bool := op.reads.contains .hi || op.reads.contains .lo

namespace Results

/-- What became of the results behind an operation. -/
def after (results : Results) : Operation → Results
  | .divide _ _ _ => .fresh
  | op => if op.readsResults && results == .fresh then .taken else results

def behind (ops : List Operation) : Results := ops.foldl after .initial

end Results

/-- Whether an instruction reads results that were read before. -/
def Routine.rereadsAt (r : Routine) (site : Nat) : Bool :=
  match r.code[site]? with
  | some instr => instr.op.readsResults &&
      Results.behind ((r.code.toList.map Instruction.op).take site) == .taken
  | none => false

theorem Atom.isPlain_of_isInteger {a : Atom} (h : a.isInteger = true) (hq : a.register? = some q) :
    q.isPlain = true := by
  cases a with
  | var v =>
    cases hq
    exact h
  | _ => cases hq

/-- Integer operands are registers other than the results of a division. -/
theorem Atom.ne_results_of_mem (h : ∀ a ∈ atoms, a.isInteger = true)
    (hq : q ∈ atoms.filterMap Atom.register?) : q ≠ .hi ∧ q ≠ .lo := by
  obtain ⟨a, ha, hreg⟩ := mem_filterMap.1 hq
  exact Register.ne_results_of_isPlain (isPlain_of_isInteger (h a ha) hreg)

theorem Operation.readsResults_of_isInteger (hreads : op.reads = Atom.registersOf atoms)
    (h : ∀ a ∈ atoms, a.isInteger = true) : op.readsResults = false := by
  have hresult : ∀ q, (q = .hi ∨ q = .lo) → op.reads.contains q = false := by
    intro q hq
    rw [hreads, Bool.eq_false_iff]
    intro hmem
    obtain ⟨hhi, hlo⟩ := Atom.ne_results_of_mem h (mem_ofList.1 hmem)
    exact hq.elim hhi hlo
  rw [readsResults, hresult .hi (.inl rfl), hresult .lo (.inr rfl)]
  rfl

theorem Operation.readsResults_read (dst : Variable) {v : Variable}
    (hv : v.register = .hi ∨ v.register = .lo) :
    (Operation.set dst ⟨.identity, [.var v]⟩).readsResults = true := by
  have hmem : (Operation.set dst ⟨.identity, [.var v]⟩).reads.contains v.register = true :=
    mem_ofList.2 mem_cons_self
  rcases hv with hv | hv
  · rw [readsResults, ← hv, hmem]
    rfl
  · rw [readsResults, ← hv, hmem, Bool.or_true]

namespace Results

theorem after_set (results : Results) (dst : Variable) (source : Expression) :
    results.after (.set dst source) =
      if (Operation.set dst source).readsResults && results == .fresh then .taken
      else results := rfl

/-- The first read takes the results, if there is a division. -/
theorem after_read (results : Results) (dst : Variable) {v : Variable}
    (hv : v.register = .hi ∨ v.register = .lo) :
    results.after (.set dst ⟨.identity, [.var v]⟩) =
      if results = .initial then .initial else .taken := by
  rw [after_set, Operation.readsResults_read dst hv]
  cases results <;> rfl

theorem behind_take_succ {ops : List Operation} {op : Operation} {k : Nat}
    (h : ops[k]? = some op) : behind (ops.take (k + 1)) = (behind (ops.take k)).after op := by
  rw [behind, take_add_one, h, foldl_append]
  rfl

/-- Registers that agree where they are live.  The results of a division only count until they
are read. -/
structure Agree (results : Results) (live : RegisterSet) (ρ τ : Registers) : Prop where
  general : ∀ q ∈ live, q ≠ .hi → q ≠ .lo → ρ q = τ q
  results : results ≠ .taken → ρ .hi = τ .hi ∧ ρ .lo = τ .lo

namespace Agree

variable {results : Results} {live : RegisterSet} {ρ ρ' τ : Registers} {op : Operation}
  {atoms : List Atom}

/-- Integer operands have the same values. -/
theorem map_value (h : Agree results ((live \ op.writes) ∪ op.reads) ρ τ)
    (hreads : op.reads = Atom.registersOf atoms) (hatoms : ∀ a ∈ atoms, a.isInteger = true)
    (consts : Constants) :
    atoms.map (Atom.value consts ρ) = atoms.map (Atom.value consts τ) := by
  refine map_congr_left fun a ha => Atom.value_congr consts fun q hq => ?_
  obtain ⟨hhi, hlo⟩ := Register.ne_results_of_isPlain (Atom.isPlain_of_isInteger (hatoms a ha) hq)
  refine h.general q (mem_union.2 (.inr ?_)) hhi hlo
  rw [hreads]
  exact mem_ofList.2 (mem_filterMap.2 ⟨a, ha, hq⟩)

/-- Popping integer operands touches no register that is live behind the operation. -/
theorem popped {consumed : RegisterSet} (h : Agree results ((live \ op.writes) ∪ op.reads) ρ τ)
    (hatoms : ∀ a ∈ atoms, a.isInteger = true)
    (hother : ∀ q, (q ∈ consumed → q ∉ atoms.filterMap Atom.register?) → ρ' q = ρ q)
    (hdead : ∀ q ∈ consumed, q ∉ op.writes → q ∉ live) :
    Agree results (live \ op.writes) ρ' τ where
  general q hq hhi hlo := by
    obtain ⟨hlive, hwrites⟩ := mem_diff.1 hq
    rw [hother q fun hmem => absurd hlive (hdead q hmem hwrites)]
    exact h.general q (mem_union.2 (.inl hq)) hhi hlo
  results hresults := by
    have hhi : ρ' .hi = ρ .hi := hother _ fun _ hmem => (Atom.ne_results_of_mem hatoms hmem).1 rfl
    have hlo : ρ' .lo = ρ .lo := hother _ fun _ hmem => (Atom.ne_results_of_mem hatoms hmem).2 rfl
    rw [hhi, hlo]
    exact h.results hresults

theorem update {r : Register} (h : Agree results (live \ .single r) ρ τ) (hr : r.isPlain = true)
    (w : Word) : Agree results live (Function.update ρ r w) (Function.update τ r w) where
  general q hq hhi hlo := by
    by_cases hqr : q = r
    · rw [hqr, Function.update_self, Function.update_self]
    · rw [Function.update_of_ne hqr, Function.update_of_ne hqr]
      refine h.general q (mem_diff.2 ⟨hq, fun hmem => ?_⟩) hhi hlo
      exact hqr (mem_single.1 hmem)
  results hresults := by
    obtain ⟨hhi, hlo⟩ := Register.ne_results_of_isPlain hr
    rw [Function.update_of_ne hhi.symm, Function.update_of_ne hhi.symm,
      Function.update_of_ne hlo.symm, Function.update_of_ne hlo.symm]
    exact h.results hresults

theorem perform {a b : Atom} {signed : Bool}
    (h : Agree results (live \ (Operation.divide a b signed).writes) ρ τ) (D : Division)
    (x y : Word) :
    Agree .fresh live (D.perform signed x y ρ) (D.perform signed x y τ) where
  general q hq hhi hlo := by
    rw [Division.perform_of_ne hhi hlo, Division.perform_of_ne hhi hlo]
    refine h.general q (mem_diff.2 ⟨hq, fun hmem => ?_⟩) hhi hlo
    simpa [hhi, hlo] using mem_ofList.1 hmem
  results _ := by simp

/-- Results that were taken need not agree any more. -/
theorem take {results' : Results} (h : Agree results ((live \ op.writes) ∪ op.reads) ρ τ)
    (hsame : SameGeneral ρ' ρ) (hresults : results' ≠ .taken → results ≠ .taken ∧ ρ' = ρ) :
    Agree results' (live \ op.writes) ρ' τ where
  general q hq hhi hlo := by
    rw [hsame q hhi hlo]
    exact h.general q (mem_union.2 (.inl hq)) hhi hlo
  results hresults' := by
    obtain ⟨hfresh, rfl⟩ := hresults hresults'
    exact h.results hfresh

end Agree

end Results

theorem Operation.IsArithmetic.exists_perform (h : op.IsArithmetic) (consts : Constants)
    (D : Division) (σ : Registers) : ∃ τ, op.perform consts D σ = some τ := by
  cases h with
  | set hdst hsource =>
    obtain ⟨w, hw⟩ := Expression.exists_value hsource consts σ
    exact ⟨_, Option.map_eq_some_iff.2 ⟨w, hw, rfl⟩⟩
  | read | divide => exact ⟨_, rfl⟩

theorem Routine.IsStraight.perform_eq {r : Routine} (h : r.IsStraight ops) (consts : Constants)
    (D : Division) (σ : Registers) :
    r.perform consts D σ = ops.foldlM (Operation.perform consts D) σ := by
  rw [perform, ← h.ops_eq, foldlM_map]

end Decompiler
