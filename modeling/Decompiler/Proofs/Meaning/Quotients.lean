import Decompiler.Proofs.Meaning.DivisionCode
import Decompiler.Proofs.Meaning.FoldedWords

/-!
Results of divisions are paired with the right division.  What the entries of the stack still have
to do agrees with the code folded so far on the registers that are live, and on the results of the
latest division as long as no instruction has read them.  The first instruction that reads one
takes the division away, so every division may be read by one instruction only.
-/

namespace Decompiler

open List

namespace Context

/-- Whether a quotient or a remainder is signed, as the division is that it comes from. -/
def signedAt (cx : Context) (log : EventLog) (e : ElementId) : Bool :=
  match cx.routine.code[cx.origin log e]? with
  | some ⟨.divide _ _ signed, _⟩ => signed
  | _ => true

def evaluator (cx : Context) (log : EventLog) (consts : Constants) (D : Division) : Evaluator :=
  ⟨consts, D, cx.signedAt log⟩

/-- Whether the operands of an assignment or a division clash. -/
def operandsClashAt (cx : Context) (log : EventLog) (site : Nat) : Bool :=
  match cx.routine.code[site]? with
  | some ⟨.divide a b _, _⟩ => cx.clashes site [a, b] (cx.foldedBefore log site)
  | _ => cx.clashesAt log site

/-- What folding the code before a position has achieved.  The entries are assignments and
divisions.  Unless operands clashed or results were read twice, they agree with the code. -/
structure Pairs (cx : Context) (ops : List Operation) (log : EventLog) (k : Nat) (s : FoldState)
    (E : List Held) : Prop where
  run : ((List.range k).forM cx.pushInstruction).run (.start log) = (.ok (), s)
  lists : s.Lists E []
  mode : s.verbatim = false
  arithmetic : ∀ held ∈ E, held.IsArithmetic cx.env (cx.signedAt log) s.pool
  undivided : Results.behind (ops.take k) = .initial → ∀ n, .division n ∉ E
  shielded : Results.behind (ops.take k) = .fresh → Held.Shielded E
  agree : (∀ site < k, cx.operandsClashAt log site = false ∧ cx.routine.rereadsAt site = false) →
    ∀ consts D σ τ, (ops.take k).foldlM (Operation.perform consts D) σ = some τ →
      Results.Agree (.behind (ops.take k))
        (Routine.liveBefore (.single cx.routine.resultRegister) (ops.drop k))
        (Held.performAll (cx.evaluator log consts D) σ E) τ

/-- What folding one more operation must achieve.  Only what becomes of the results and which
registers are live depends on the code around it. -/
structure Continues (cx : Context) (log : EventLog) (k : Nat) (results : Results)
    (live : RegisterSet) (op : Operation) (E : List Held) (s' : FoldState) (E' : List Held) :
    Prop where
  lists : s'.Lists E' []
  arithmetic : ∀ held ∈ E', held.IsArithmetic cx.env (cx.signedAt log) s'.pool
  undivided : results.after op = .initial → ∀ n, .division n ∉ E'
  shielded : results.after op = .fresh → Held.Shielded E'
  agree : cx.operandsClashAt log k = false → (op.readsResults && results == .taken) = false →
    ∀ {consts D σ ρ τ}, Results.Agree results ((live \ op.writes) ∪ op.reads)
        (Held.performAll (cx.evaluator log consts D) σ E) ρ →
      op.perform consts D ρ = some τ →
      Results.Agree (results.after op) live (Held.performAll (cx.evaluator log consts D) σ E') τ

variable {cx : Context} {ops : List Operation} {log : EventLog} {k : Nat} {s : FoldState}
  {E : List Held} {s' : FoldState} {t : FormTree}

theorem Pairs.next {op : Operation} {consumed : RegisterSet} {E' : List Held}
    (h : cx.Pairs ops log k s E) (hstraight : cx.routine.IsStraight ops)
    (hcode : cx.routine.code[k]? = some ⟨op, consumed⟩) (hop : ops[k]? = some op)
    (hdrop : ops.drop k = op :: ops.drop (k + 1))
    (hrun : (cx.pushOperation k op).run s = (.ok (), s'))
    (hnew : cx.Continues log k (.behind (ops.take k))
      (Routine.liveBefore (.single cx.routine.resultRegister) (ops.drop (k + 1))) op E s' E') :
    cx.Pairs ops log (k + 1) s' E' := by
  rw [← pushInstruction_eq hcode] at hrun
  have hbehind := Results.behind_take_succ hop
  refine ⟨run_range_succ h.run hrun, hnew.lists, ?_, hnew.arithmetic, ?_, ?_, ?_⟩
  · exact (((cx.pushInstruction_tame k).advances s).of_run hrun).mode.trans h.mode
  · rw [hbehind]
    exact hnew.undivided
  · rw [hbehind]
    exact hnew.shielded
  · intro hclear consts D σ τ hτ
    obtain ⟨ρ, hρ, hlast⟩ := Operation.foldlM_take_succ hop hτ
    have hbefore := h.agree (fun site hsite => hclear site (Nat.lt_succ_of_lt hsite))
      consts D σ ρ hρ
    rw [hdrop, Routine.liveBefore] at hbefore
    obtain ⟨hclash, hreread⟩ := hclear k (Nat.lt_succ_self k)
    rw [Routine.rereadsAt, hcode, hstraight.ops_eq] at hreread
    rw [hbehind]
    exact hnew.agree hclash hreread hbefore hlast

/-- A value that is computed from values that do not depend on results. -/
theorem ignoresResults_of_compute {operator : Operator} {atoms : List Atom}
    {os : List (Option FormTree)} (hatoms : ∀ a ∈ atoms, a.isInteger = true)
    (hos : ∀ u, some u ∈ os → u.IgnoresResults)
    (hvalue : ∀ ev σ, operator.compute ((atoms.zip os).map (operandWord ev σ)) =
      some (t.wordBy ev σ)) : t.IgnoresResults := by
  intro ev σ τ hsame
  have hwords : (atoms.zip os).map (operandWord ev σ) = (atoms.zip os).map (operandWord ev τ) := by
    refine map_congr_left ?_
    rintro ⟨a, o⟩ ho
    obtain ⟨ha, ho⟩ := of_mem_zip ho
    cases o with
    | some u => exact hos u ho ev hsame
    | none =>
      refine Atom.value_congr ev.consts fun q hq => ?_
      obtain ⟨hhi, hlo⟩ :=
        Register.ne_results_of_isPlain (Atom.isPlain_of_isInteger (hatoms a ha) hq)
      exact hsame q hhi hlo
  have hboth := hvalue ev σ
  rw [hwords, hvalue ev τ] at hboth
  exact (Option.some.inj hboth).symm

section Steps

variable {live consumed : RegisterSet} {E' : List Held} {dst : Variable}

section

variable (h : cx.Pairs ops log k s E)
include h

/-- Entries that stay on the stack stay what they are. -/
theorem Pairs.arithmetic_cons {held : Held} (hsub : E'.Sublist E)
    (hlists : s'.Lists (held :: E') []) (hheld : held.IsArithmetic cx.env (cx.signedAt log) s'.pool) :
    ∀ other ∈ held :: E', other.IsArithmetic cx.env (cx.signedAt log) s'.pool := by
  refine forall_mem_cons.2 ⟨hheld, fun other hother => ?_⟩
  have hbefore := hsub.subset hother
  exact (h.arithmetic other hbefore).of_holds
    (h.lists.owns_entries.holds _ (mem_map_of_mem hbefore))
    (hlists.owns_entries.holds _ (mem_map_of_mem (mem_cons_of_mem _ hother)))

theorem Pairs.undivided_cons {ordered : Bool} {notes : SetNotes} (hsub : E'.Sublist E)
    (hinitial : Results.behind (ops.take k) = .initial) (n : Node FormTree) :
    .division n ∉ Held.value dst t ordered notes :: E' := by
  intro hn
  rcases mem_cons.1 hn with heq | hn
  · cases heq
  · exact h.undivided hinitial n (hsub.subset hn)

/-- Popping integer operands keeps the agreement, and the words of what was popped are what the
operands are on the machine. -/
theorem Pairs.popped {op : Operation} {atoms : List Atom} {os : List (Option FormTree)}
    {consts : Constants} {D : Division} {σ ρ : Registers} {results : Results}
    (hpopped : cx.Popped k atoms s E os E')
    (hclash : cx.clashes k atoms (cx.foldedBefore log k) = false)
    (hreads : op.reads = Atom.registersOf atoms) (hatoms : ∀ a ∈ atoms, a.isInteger = true)
    (hdead : ∀ q ∈ cx.consumed s.verbatim k, q ∉ op.writes → q ∉ live)
    (hagree : Results.Agree results ((live \ op.writes) ∪ op.reads)
      (Held.performAll (cx.evaluator log consts D) σ E) ρ) :
    Results.Agree results (live \ op.writes) (Held.performAll (cx.evaluator log consts D) σ E') ρ ∧
      (atoms.zip os).map (operandWord (cx.evaluator log consts D)
          (Held.performAll (cx.evaluator log consts D) σ E')) =
        atoms.map (Atom.value consts ρ) := by
  rw [foldedBefore_eq h.run] at hclash
  obtain ⟨hother, hvalues⟩ := hpopped.performAll_eq h.lists
    (Held.keepResults_of_isArithmetic h.arithmetic) hclash (cx.evaluator log consts D) σ
  refine ⟨hagree.popped hatoms (fun q hq => hother q fun htaken => ?_) hdead,
    hvalues.trans (hagree.map_value hreads hatoms consts)⟩
  obtain ⟨hlast, hmem⟩ := mem_takes h.lists htaken
  exact hq hlast hmem

/-- Folding an assignment of an integer. -/
theorem Pairs.set {source : Expression}
    (hcode : cx.routine.code[k]? = some ⟨.set dst source, consumed⟩)
    (henv : cx.env.NoFloats source.reads) (hdst : dst.register.isPlain = true)
    (hsource : source.isInteger = true)
    (hdead : ∀ q ∈ cx.consumed s.verbatim k, q ∉ (Operation.set dst source).writes → q ∉ live) :
    ∃ s' E', (cx.pushOperation k (.set dst source)).run s = (.ok (), s') ∧
      cx.Continues log k (.behind (ops.take k)) live (.set dst source) E s' E' := by
  have hargs := Expression.isInteger_args hsource
  have hreads : (Operation.set dst source).reads = Atom.registersOf source.args := rfl
  have hafter : (Results.behind (ops.take k)).after (.set dst source) = .behind (ops.take k) := by
    rw [Results.after_set, Operation.readsResults_of_isInteger hreads hargs]
    rfl
  have hoperands := henv.isIntegral hargs
  have hwords : (cx.foldOperator k source).Ends s _ := foldOperator_wordBy (K := .words cx.env)
    henv.coercion_eq hsource (fun a ha => (hoperands a ha).atomType_ne) h.lists
    (Held.coversEntries_of_isArithmetic h.arithmetic)
  obtain ⟨os, E', t, hpopped, hid, hfolded, hword, hvalue⟩ := hwords
  obtain ⟨s', ordered, notes, hrun, -, hlists, hpool⟩ :=
    pushOperation_set dst h.mode (Expression.isInteger_operator hsource).2 hid hfolded
  rw [← hpool] at hword
  have hsub := hpopped.pops.sublist
  refine ⟨s', _, hrun, hlists, h.arithmetic_cons hsub hlists (.value hdst hword), ?_, ?_, ?_⟩
  · rw [hafter]
    exact h.undivided_cons hsub
  · rw [hafter]
    intro hfresh
    obtain ⟨hos, hshielded⟩ :=
      (h.shielded hfresh).operandPops hpopped.pops h.lists.owns_entries h.arithmetic
    exact .value (ignoresResults_of_compute hargs hos hvalue) hshielded
  · intro hclash _ consts D σ ρ τ hagree hperform
    rw [operandsClashAt, hcode] at hclash
    dsimp only at hclash
    rw [clashesAt, clashesNow, hcode] at hclash
    obtain ⟨hagree', hwords⟩ := h.popped hpopped hclash hreads hargs hdead hagree
    have hresult := hvalue (cx.evaluator log consts D)
      (Held.performAll (cx.evaluator log consts D) σ E')
    rw [hwords] at hresult
    obtain ⟨w, hw, rfl⟩ := Option.map_eq_some_iff.1 hperform
    obtain rfl := Option.some.inj (hw.symm.trans hresult)
    rw [hafter]
    exact hagree'.update hdst _

end

variable {a b : Atom} {isSigned : Bool} {v : Variable} (h : cx.Pairs ops log k s E)
include h

/-- A division comes from the instruction that added it. -/
theorem Pairs.signedAt_eq {e : ElementId}
    (hcode : cx.routine.code[k]? = some ⟨.divide a b isSigned, consumed⟩)
    (hrun : (cx.pushOperation k (.divide a b isSigned)).run s = (.ok (), s'))
    (hnew : s.pool.elements.size ≤ e.index) (hold : e.index < s'.pool.elements.size) :
    cx.signedAt log e = isSigned := by
  rw [← pushInstruction_eq hcode] at hrun
  have hnext := run_range_succ h.run hrun
  have hk : k < cx.routine.code.size := (Array.getElem?_eq_some_iff.1 hcode).1
  rw [← foldedBefore_eq h.run] at hnew
  rw [← foldedBefore_eq hnext] at hold
  rw [signedAt, origin_eq_of_run hnext (Nat.lt_succ_self k) hk hnew hold, hcode]

/-- Folding a division. -/
theorem Pairs.divide (hdivision : cx.config.allows .division = true)
    (hcode : cx.routine.code[k]? = some ⟨.divide a b isSigned, consumed⟩)
    (henv : cx.env.NoFloats (Operation.divide a b isSigned).reads)
    (hatoms : ∀ c ∈ [a, b], c.isInteger = true)
    (hdead : ∀ q ∈ cx.consumed s.verbatim k, q ∉ (Operation.divide a b isSigned).writes →
      q ∉ live) :
    ∃ s' E', (cx.pushOperation k (.divide a b isSigned)).run s = (.ok (), s') ∧
      cx.Continues log k (.behind (ops.take k)) live (.divide a b isSigned) E s' E' := by
  have hreads : (Operation.divide a b isSigned).reads = Atom.registersOf [a, b] := rfl
  have hwords : (cx.pushDivide k a b isSigned).Ends s _ :=
    pushDivide_wordBy hdivision (henv.isIntegral hatoms) h.lists h.arithmetic
  obtain ⟨os, E', t, u, e, hpopped, hlists, ht, hu, hnew, hold, hvalue⟩ := hwords
  have hrun : (cx.pushOperation k (.divide a b isSigned)).run s =
      (.ok (), (cx.pushDivide k a b isSigned s).2) := run_pushOperation h.mode rfl
  obtain rfl := h.signedAt_eq hcode hrun hnew hold
  refine ⟨_, _, hrun, hlists, h.arithmetic_cons hpopped.pops.sublist hlists (.division ht hu),
    ?_, ?_, ?_⟩
  · intro hinitial
    cases hinitial
  · intro _
    exact .division
  · intro hclash _ consts D σ ρ τ hagree hperform
    rw [operandsClashAt, hcode] at hclash
    obtain ⟨hagree', hwords⟩ := h.popped hpopped hclash hreads hatoms hdead hagree
    rw [hvalue] at hwords
    simp only [map_cons, map_nil, List.cons.injEq, and_true] at hwords
    obtain ⟨hfirst, hsecond⟩ := hwords
    cases hperform
    simp only [Held.performAll_cons, Held.perform, hfirst, hsecond]
    exact hagree'.perform D _ _

/-- A result that is read for the first time is computed from the operands of the latest division,
or read from its register. -/
theorem Pairs.quotient_eq (hv : v.register = .hi ∨ v.register = .lo)
    (hresults : Results.behind (ops.take k) ≠ .taken)
    (hread : Held.ReadsResult (cx.signedAt log) s.pool v E t E') (consts : Constants)
    (D : Division) (σ : Registers) :
    SameGeneral (Held.performAll (cx.evaluator log consts D) σ E')
        (Held.performAll (cx.evaluator log consts D) σ E) ∧
      t.wordBy (cx.evaluator log consts D) (Held.performAll (cx.evaluator log consts D) σ E') =
        Held.performAll (cx.evaluator log consts D) σ E v.register ∧
      (Results.behind (ops.take k) = .initial → E' = E) := by
  cases hread with
  | register hvalue => exact ⟨fun _ _ _ => rfl, hvalue _ _, fun _ => rfl⟩
  | divided hpops hvalue =>
    -- There is a division and it was not read yet, so what stands above it is shielded.
    have hinitial : Results.behind (ops.take k) ≠ .initial :=
      fun hinitial => h.undivided hinitial _ hpops.mem
    have hfresh : Results.behind (ops.take k) = .fresh := by
      cases hbehind : Results.behind (ops.take k) with
      | initial => exact absurd hbehind hinitial
      | fresh => rfl
      | taken => exact absurd hbehind hresults
    obtain ⟨hgeneral, hlo, hhi⟩ := hpops.performAll_eq h.lists.owns_entries h.arithmetic
      (h.shielded hfresh) (cx.evaluator log consts D) σ
    refine ⟨hgeneral, ?_, fun hnone => absurd hnone hinitial⟩
    rw [hvalue]
    rcases hv with hv | hv
    · rw [hv]
      exact hhi.symm
    · rw [hv]
      exact hlo.symm

/-- Folding a copy of a result of a division. -/
theorem Pairs.read (hdivision : cx.config.allows .division = true)
    (henv : cx.env.NoFloats (Operation.set dst ⟨.identity, [.var v]⟩).reads)
    (hdst : dst.register.isPlain = true) (hv : v.register = .hi ∨ v.register = .lo) :
    ∃ s' E', (cx.pushOperation k (.set dst ⟨.identity, [.var v]⟩)).run s = (.ok (), s') ∧
      cx.Continues log k (.behind (ops.take k)) live (.set dst ⟨.identity, [.var v]⟩) E s' E' := by
  have hafter := (Results.behind (ops.take k)).after_read dst hv
  have htype : cx.env.variableType v ≠ some .float :=
    henv.variableType_ne v (RegisterSet.mem_ofList.2 mem_cons_self)
  have hquotient : cx.foldOperator k ⟨.identity, [.var v]⟩ = cx.foldQuotient k v := if_pos hv
  have hwords : (cx.foldQuotient k v).Ends s _ :=
    foldQuotient_wordBy hdivision henv.coercion_eq htype h.lists h.arithmetic
  rw [← hquotient] at hwords
  obtain ⟨E', t, hid, hfolded, hword, hread⟩ := hwords
  obtain ⟨s', ordered, notes, hrun, -, hlists, hpool⟩ :=
    pushOperation_set dst h.mode rfl hid hfolded
  rw [← hpool] at hword
  have hsub := hread.sublist
  refine ⟨s', _, hrun, hlists, h.arithmetic_cons hsub hlists (.value hdst hword), ?_, ?_, ?_⟩
  · rw [hafter]
    intro hinitial
    split at hinitial
    · rename_i hbehind
      exact h.undivided_cons hsub hbehind
    · cases hinitial
  · rw [hafter]
    intro hfresh
    split at hfresh <;> cases hfresh
  · intro _ hreread consts D σ ρ τ hagree hperform
    rw [Operation.readsResults_read dst hv, Bool.true_and, beq_eq_false_iff_ne] at hreread
    obtain ⟨hgeneral, hvalue, hinitial⟩ := h.quotient_eq hv hreread hread consts D σ
    have hresult : Held.performAll (cx.evaluator log consts D) σ E v.register = ρ v.register := by
      obtain ⟨hhi, hlo⟩ := hagree.results hreread
      rcases hv with hv | hv
      · rw [hv, hhi]
      · rw [hv, hlo]
    cases hperform
    simp only [Held.performAll_cons, Held.perform, hvalue, hresult]
    refine (hagree.take hgeneral fun hnot => ⟨hreread, ?_⟩).update hdst _
    rw [hafter] at hnot
    rw [hinitial (by by_contra hne; exact hnot (if_neg hne))]

end Steps

/-- Folding one instruction keeps the agreement. -/
theorem Pairs.step (h : cx.Pairs ops log k s E) (hdivision : cx.config.allows .division = true)
    (hstraight : cx.routine.IsStraight ops) (hops : ∀ op ∈ ops, op.IsArithmetic)
    (henv : ∀ op ∈ ops, cx.env.NoFloats op.reads) (hk : k < ops.length) :
    ∃ s' E', cx.Pairs ops log (k + 1) s' E' := by
  obtain ⟨⟨op, consumed⟩, hcode, hop, hdrop⟩ := Routine.exists_getElem? hstraight.ops_eq hk
  have hmem := mem_of_getElem? hop
  have hfloats := henv op hmem
  have hdead : ∀ q ∈ cx.consumed s.verbatim k, q ∉ op.writes →
      q ∉ Routine.liveBefore (.single cx.routine.resultRegister) (ops.drop (k + 1)) := by
    rw [Context.consumed, h.mode, hcode]
    exact fun q => hstraight.dead hcode
  have hnext : ∃ s' E', (cx.pushOperation k op).run s = (.ok (), s') ∧
      cx.Continues log k (.behind (ops.take k))
        (Routine.liveBefore (.single cx.routine.resultRegister) (ops.drop (k + 1))) op E s' E' := by
    cases hops op hmem with
    | set hdst hsource => exact h.set hcode hfloats hdst hsource hdead
    | read hdst hv => exact h.read hdivision hfloats hdst hv
    | divide hatoms => exact h.divide hdivision hcode hfloats hatoms hdead
  obtain ⟨s', E', hrun, hnew⟩ := hnext
  exact ⟨s', E', h.next hstraight hcode hop hdrop hrun hnew⟩

/-- Folding all code up to a position. -/
theorem exists_pairs (cx : Context) (log : EventLog) (hdivision : cx.config.allows .division = true)
    (hstraight : cx.routine.IsStraight ops) (hops : ∀ op ∈ ops, op.IsArithmetic)
    (henv : ∀ op ∈ ops, cx.env.NoFloats op.reads) (hk : k ≤ ops.length) :
    ∃ s E, cx.Pairs ops log k s E := by
  induction k with
  | zero =>
    refine ⟨.start log, [], rfl, ⟨rfl, Pool.Owns.nil _⟩, rfl, by simp, by simp, ?_, ?_⟩
    · intro hfresh
      cases hfresh
    · intro _ consts D σ τ hτ
      cases hτ
      exact ⟨fun _ _ _ _ => rfl, fun _ => ⟨rfl, rfl⟩⟩
  | succ k ih =>
    obtain ⟨s, E, hpairs⟩ := ih (Nat.le_of_succ_le hk)
    exact hpairs.step hdivision hstraight hops henv hk

/-- Straight-line code of assignments and divisions can be assembled, run and folded, and what is
left on the stack can be run as well.  It leaves the same result as the code, unless operands
clash or more than one instruction reads a result of the same division. -/
theorem fold_pairs_divisions (name : String) {program : List Statement}
    (hprogram : ∀ statement ∈ program, statement.isArithmetic = true) :
    ∃ r, assemble name program = .ok r ∧ ∀ (env : TypeEnv) (config : Config) (log : EventLog)
      (consts : Constants) (D : Division) (σ : Registers),
      config.allows .division = true →
      (∀ instr ∈ r.code, env.NoFloats instr.op.reads) →
      ∃ (s : FoldState) (τ τ' : Registers),
        ((List.range r.code.size).forM (Context.of r env config).pushInstruction).run (.start log) =
          (.ok (), s) ∧
        r.perform consts D σ = some τ ∧
        (s.stack.rewrite s.pool).2.performAll
          ((Context.of r env config).evaluator log consts D) σ (s.stack.rewrite s.pool).1 =
            some τ' ∧
        ((∀ site < r.code.size, (Context.of r env config).operandsClashAt log site = false ∧
            r.rereadsAt site = false) →
          r.resultRegister ≠ .hi → r.resultRegister ≠ .lo →
          τ' r.resultRegister = τ r.resultRegister) := by
  obtain ⟨r, ops, hr, hstraight, hops⟩ := assemble_arithmetic name hprogram
  refine ⟨r, hr, fun env config log consts D σ hdivision henv => ?_⟩
  have hlength : ops.length = r.code.size := Routine.length_ops hstraight.ops_eq
  obtain ⟨s, E, hpairs⟩ := exists_pairs (.of r env config) log hdivision hstraight hops
    (hstraight.noFloats henv) (Nat.le_of_eq hlength.symm)
  obtain ⟨τ, hτ⟩ := Operation.exists_foldlM (fun op hop => (hops op hop).exists_perform consts D) σ
  refine ⟨s, τ, _, hpairs.run, (hstraight.perform_eq consts D σ).trans hτ,
    hpairs.lists.performAll_eq hpairs.arithmetic _ σ, fun hclear hhi hlo => ?_⟩
  have hagree := hpairs.agree hclear consts D σ τ
  rw [← hlength, List.take_length, List.drop_length] at hagree
  exact (hagree hτ).general _ (RegisterSet.mem_single.2 rfl) hhi hlo

/-- Two divisions, the first of which is read when one of its operands has changed. -/
def twoDivisions : List Statement :=
  [.divide ⟨4⟩ ⟨5⟩ true,
   .set ⟨4⟩ .add [.register ⟨4⟩, .int 1],
   .move ⟨8⟩ (.register .lo),
   .divide ⟨6⟩ ⟨7⟩ false,
   .move ⟨9⟩ (.register .hi),
   .set ⟨10⟩ .sub [.register ⟨8⟩, .register ⟨4⟩],
   .set .v0 .add [.register ⟨10⟩, .register ⟨9⟩]]

theorem twoDivisions_keeps_result :
    ∃ r, assemble "two-divisions" twoDivisions = .ok r ∧
      (∀ instr ∈ r.code, (untyped r).env.NoFloats instr.op.reads) ∧
      (∀ site < r.code.size, (untyped r).operandsClashAt .empty site = false ∧
        r.rereadsAt site = false) ∧
      ∀ (consts : Constants) (D : Division) (σ : Registers), ∃ (s : FoldState) (τ τ' : Registers),
          ((List.range r.code.size).forM (untyped r).pushInstruction).run (.start .empty) =
            (.ok (), s) ∧
          r.perform consts D σ = some τ ∧
          (s.stack.rewrite s.pool).2.performAll ((untyped r).evaluator .empty consts D) σ
            (s.stack.rewrite s.pool).1 = some τ' ∧
          τ' .v0 = τ .v0 := by
  have hprogram : ∀ statement ∈ twoDivisions, statement.isArithmetic = true := by decide
  have hchecked : (assemble "two-divisions" twoDivisions).toOption.any (fun r =>
      (r.code.all fun instr => Register.all.all fun q =>
        !(instr.op.reads.contains q && q.isFloat)) &&
      ((List.range r.code.size).all fun site =>
        !(untyped r).operandsClashAt .empty site && !r.rereadsAt site) &&
      r.resultRegister == .v0) = true := by decide +kernel
  obtain ⟨r, hr, hkeeps⟩ := fold_pairs_divisions "two-divisions" hprogram
  rw [hr] at hchecked
  simp only [Except.toOption, Option.any_some, Bool.and_eq_true, List.all_eq_true, List.mem_range,
    Bool.not_eq_true', beq_iff_eq] at hchecked
  obtain ⟨⟨hfloats, hclear⟩, hresult⟩ := hchecked
  have henv := noFloats_of_all hfloats
  refine ⟨r, hr, henv, hclear, fun consts D σ => ?_⟩
  obtain ⟨s, τ, τ', hrun, hτ, hτ', hsame⟩ := hkeeps _ .standard .empty consts D σ rfl henv
  rw [hresult] at hsame
  exact ⟨s, τ, τ', hrun, hτ, hτ', hsame hclear (by decide) (by decide)⟩

/-- Two divisions, of which the second one is read for its quotient and for its remainder. -/
def quotientAndRemainder : List Statement :=
  [.divide ⟨4⟩ ⟨5⟩ true,
   .divide ⟨6⟩ ⟨7⟩ true,
   .move ⟨8⟩ (.register .lo),
   .move ⟨9⟩ (.register .hi),
   .set .v0 .add [.register ⟨8⟩, .register ⟨9⟩]]

/-- Registers that divide seven by four and nine by five. -/
def sevenAndNine : Registers := fun q =>
  if q = ⟨4⟩ then 7 else if q = ⟨5⟩ then 4 else if q = ⟨6⟩ then 9 else 5

/-- The copy of the quotient pops the second division, so that the copy of the remainder pops the
first one. -/
theorem quotientAndRemainder_loses_result :
    (∀ statement ∈ quotientAndRemainder, statement.isArithmetic = true) ∧
      ∃ (r : Routine) (s : FoldState) (τ τ' : Registers),
        assemble "quotient-and-remainder" quotientAndRemainder = .ok r ∧
        ((List.range r.code.size).forM (untyped r).pushInstruction).run (.start .empty) =
          (.ok (), s) ∧
        r.perform (fun _ => 0) .truncating sevenAndNine = some τ ∧
        (s.stack.rewrite s.pool).2.performAll
          ((untyped r).evaluator .empty (fun _ => 0) .truncating) sevenAndNine
          (s.stack.rewrite s.pool).1 = some τ' ∧
        τ r.resultRegister = 5 ∧ τ' r.resultRegister = 4 := by
  have hchecked : (foldsTo "quotient-and-remainder" quotientAndRemainder fun r s =>
      (r.perform (fun _ => 0) .truncating sevenAndNine).map (fun τ => τ r.resultRegister) ==
          some 5 &&
        ((s.stack.rewrite s.pool).2.performAll
          ((untyped r).evaluator .empty (fun _ => 0) .truncating) sevenAndNine
          (s.stack.rewrite s.pool).1).map (fun τ => τ r.resultRegister) == some 4) = true := by
    decide +kernel
  obtain ⟨r, s, hr, hrun, hcheck⟩ := foldsTo_eq_true hchecked
  simp only [Bool.and_eq_true, beq_iff_eq, Option.map_eq_some_iff] at hcheck
  obtain ⟨⟨τ, hτ, hcode⟩, τ', hτ', hfolded⟩ := hcheck
  exact ⟨by decide, r, s, τ, τ', hr, hrun, hτ, hτ', hcode, hfolded⟩

end Context

end Decompiler
