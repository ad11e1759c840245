import Decompiler.Proofs.Meaning.Idioms
import Decompiler.Proofs.Meaning.Preservation

/-!
Tests that are taken out of blocks.  A captured test runs what the block computes besides and
then decides a condition.  The delay slot of the branch runs in front of the condition there, but
behind it on the machine, so it must neither write what the condition reads nor take it off the
stack.
-/

namespace Decompiler

open TryFoldM List RegisterSet

variable {c : Condition} {branch : Branch} {q : Register} {E : List Held}

def Condition.isInteger (c : Condition) : Bool :=
  !c.test.isFloat && c.args.length == c.test.arity && c.args.all Atom.isInteger

namespace Condition

variable (h : c.isInteger = true)
include h

theorem exists_truth (consts : Constants) (σ : Registers) : ∃ b, c.truth consts σ = some b := by
  obtain ⟨test, args⟩ := c
  simp only [isInteger, Bool.and_eq_true, Bool.not_eq_true', beq_iff_eq] at h
  obtain ⟨⟨htest, harity⟩, -⟩ := h
  have hone : args.length = 1 → ∃ a, args = [a] := length_eq_one_iff.1
  have htwo : args.length = 2 → ∃ a b, args = [a, b] := length_eq_two.1
  cases test
  case always | never => exact ⟨_, rfl⟩
  case zero | nonZero | truthy | falsy | lessZero | greaterZero | lessEqualZero |
      greaterEqualZero =>
    obtain ⟨a, rfl⟩ := hone harity
    exact ⟨_, rfl⟩
  case equal | notEqual | lessSigned | greaterSigned | lessEqualSigned | greaterEqualSigned |
      lessUnsigned | greaterUnsigned | lessEqualUnsigned | greaterEqualUnsigned =>
    obtain ⟨a, b, rfl⟩ := htwo harity
    exact ⟨_, rfl⟩
  all_goals cases htest

theorem isInteger_test : c.test.isFloat = false ∧ c.test.readsFlag = false := by
  obtain ⟨test, args⟩ := c
  simp only [isInteger, Bool.and_eq_true, Bool.not_eq_true'] at h
  obtain ⟨⟨htest, -⟩, -⟩ := h
  refine ⟨htest, ?_⟩
  cases test <;> first | rfl | cases htest

theorem isInteger_args : ∀ a ∈ c.args, a.isInteger = true := by
  simp only [isInteger, Bool.and_eq_true, all_eq_true] at h
  exact h.2

theorem reads_eq : c.reads = c.operandRegisters := by
  rw [reads, (isInteger_test h).2]
  rfl

end Condition

namespace Branch

variable {op : Operation}

theorem delay_eq_of_delaySlot? (h : branch.delaySlot? = some op) : branch.delay = some op :=
  (Option.filter_eq_some_iff.1 h).1

theorem mem_reads_of_condition (h : q ∈ branch.condition.reads) : q ∈ branch.reads := by
  obtain ⟨condition, likely, target, delay⟩ := branch
  exact mem_union.2 (.inl h)

theorem mem_reads_of_slot (hslot : branch.delaySlot? = some op) (h : q ∈ op.reads) :
    q ∈ branch.reads := by
  have hdelay := delay_eq_of_delaySlot? hslot
  obtain ⟨condition, likely, target, delay⟩ := branch
  cases hdelay
  exact mem_union.2 (.inr h)

/-- A branch writes what its delay slot writes. -/
theorem mem_writes_iff : q ∈ branch.writes ↔ ∃ op, branch.delaySlot? = some op ∧ q ∈ op.writes := by
  obtain ⟨condition, likely, target, delay⟩ := branch
  cases delay with
  | none => simp [Branch.writes, Operation.delayWrites, delaySlot?]
  | some op =>
    rw [Branch.writes, Operation.delayWrites, delaySlot?, Option.filter_some]
    cases hnop : op.isNop with
    | false => simp
    | true =>
      have hwrites : op.writes = ∅ := by
        unfold Operation.isNop at hnop
        split at hnop
        · rfl
        · cases hnop
      simp [hwrites]

/-- The delay slot may run in front of the condition: it runs on both ways out, and writes nothing
that the condition reads. -/
def SlotFits (branch : Branch) : Prop :=
  ∀ op, branch.delaySlot? = some op →
    branch.likely = false ∧ ∀ q ∈ branch.condition.operandRegisters, q ∉ op.writes

theorem SlotFits.not_mem_writes (h : branch.SlotFits) (hq : q ∈ branch.condition.operandRegisters) :
    q ∉ branch.writes := by
  intro hmem
  obtain ⟨op, hslot, hop⟩ := mem_writes_iff.1 hmem
  exact (h op hslot).2 q hq hop

end Branch

/-- What running a captured test gives: whether the condition holds, the words that it tests, and
the registers behind it. -/
structure TestOutcome where
  holds : Bool
  tested : List Word
  registers : Registers

/-- Runs the statements of a captured test and decides its condition. -/
def Pool.runTest (p : Pool) (consts : Constants) (σ : Registers) (f : FormId) :
    Option TestOutcome := do
  let τ ← p.execute consts σ (p.elementsOf f).dropLast
  let e ← (p.elementsOf f).getLast?
  match p.element e with
  | .condition test args _ flipped _ =>
    let tested ← args.mapM (p.value consts τ)
    let holds ← (test.flippedBy flipped).decide (consts .falsehood) tested
    return ⟨holds, tested, τ⟩
  | _ => none

/-- A tree that runs entries and then tests the values of some trees. -/
inductive FormTree.Tests (env : TypeEnv) (test : Test) (flipped : Bool) (E : List Held)
    (ts : List FormTree) : FormTree → Prop
  | intro {ns : List (Node FormTree)} {f : FormId} {e : ElementId} {consumed : RegisterSet}
      {site : Nat} (hE : ∀ held ∈ E, held.Integral env) (hts : ∀ t ∈ ts, t.Integral env)
      (hsettles : List.Forall₂ Held.Settles E.reverse ns) :
      Tests env test flipped E ts
        (.mk f (ns ++ [⟨e, .condition test (ts.map FormTree.id) consumed flipped site, ts⟩]))

variable {env : TypeEnv} {p : Pool} {rs : List Root} {ts : List FormTree}

/-- Statements in front of the last element of a form do what the entries have to do. -/
theorem Held.Settles.run_eq {ns : List (Node FormTree)} (h : List.Forall₂ Held.Settles E.reverse ns)
    (hE : ∀ held ∈ E, held.Integral env) (howns : p.Owns rs) (hns : ∀ n ∈ ns, .node n ∈ rs)
    (consts : Constants) (σ : Registers) :
    p.execute consts σ (ns.map Node.id) = some (Held.run consts σ E) := by
  rw [Held.Settles.execute_eq h (fun held hheld => hE held (mem_reverse.1 hheld)) howns hns,
    foldl_reverse]
  rfl

theorem Pool.Owns.values_eq (howns : p.Owns rs) (hmem : ∀ t ∈ ts, .tree t ∈ rs)
    (hts : ∀ t ∈ ts, t.Integral env) (consts : Constants) (σ : Registers) :
    (ts.map FormTree.id).mapM (p.value consts σ) = some (ts.map (FormTree.word consts σ)) := by
  rw [mapM_map]
  refine mapM_eq_some ?_
  rw [forall₂_map_right_iff, forall₂_same]
  intro t ht
  obtain ⟨hholds, hnodup⟩ := howns.of_mem (hmem t ht)
  exact (hholds.value_eq hnodup).trans (hts t ht).value_eq

theorem FormTree.Tests.runTest_eq {test : Test} {flipped : Bool} {t : FormTree}
    (h : t.Tests env test flipped E ts) (howns : p.Owns rs) (ht : .tree t ∈ rs)
    {consts : Constants} {σ : Registers} {b : Bool} (hb : test.decide (consts .falsehood)
      (ts.map (FormTree.word consts (Held.run consts σ E))) = some b) :
    p.runTest consts σ t.id = some ⟨b ^^ flipped,
      ts.map (FormTree.word consts (Held.run consts σ E)), Held.run consts σ E⟩ := by
  have hone : p.Owns [.tree t] := howns.one ht
  cases h with
  | @intro ns f e consumed site hE hts hsettles =>
    have hopen := Pool.Owns.openTree hone
    have hnode : p.HoldsNode ⟨e, .condition test (ts.map FormTree.id) consumed flipped site, ts⟩ :=
      hopen.holds (.node _) (by simp)
    have hkids : p.Owns (ts.map .tree) := by
      have hlast : p.Owns [.node
          ⟨e, .condition test (ts.map FormTree.id) consumed flipped site, ts⟩] :=
        hopen.one (by simp)
      refine (Pool.Owns.openNode hlast).sublist ?_
      rw [append_nil]
      exact sublist_cons_self _ _
    have hstatements := Held.Settles.run_eq hsettles hE hopen (fun n hn => by simp [hn]) consts σ
    have hvalues := hkids.values_eq (fun t ht => mem_map_of_mem ht) hts consts (Held.run consts σ E)
    rw [Pool.runTest, hone.tree_holds.elementsOf_eq, FormTree.nodes_mk,
      map_append, map_singleton, dropLast_concat, getLast?_concat, hstatements]
    simp only [Option.bind_eq_bind, Option.bind_some, hnode.element_eq, hvalues,
      Test.decide_flippedBy hb]
    rfl

/-- A state has a condition in its hands whose operands were taken from some entries.  If all is
clear, only the registers that were taken have changed, and the operands have their values. -/
def FoldState.YieldsTest (s' : FoldState) (env : TypeEnv) (c : Condition) (flipped : Bool)
    (E : List Held) (hs : List Root) (clear : Prop) (taken : Register → Prop) (f : FormId) : Prop :=
  ∃ (E' : List Held) (ts : List FormTree) (e : ElementId) (consumed : RegisterSet) (site : Nat),
    E'.Sublist E ∧ (∀ t ∈ ts, t.Integral env) ∧
    s'.Lists E' (.tree (.mk f
      [⟨e, .condition c.test (ts.map FormTree.id) consumed flipped site, ts⟩]) :: hs) ∧
    (clear → ∀ consts σ, (∀ q, ¬ taken q → Held.run consts σ E' q = Held.run consts σ E q) ∧
      ts.map (FormTree.word consts (Held.run consts σ E')) =
        c.args.map (Atom.value consts (Held.run consts σ E)))

namespace Context

variable {cx : Context} {s : FoldState} {hs : List Root} {site : Nat} {flipped : Bool}

section

variable (henv : cx.env.NoFloats c.operandRegisters) (hc : c.isInteger = true) (h : s.Lists E hs)
  (hE : ∀ held ∈ E, held.Integral cx.env)
include henv hc h hE

theorem plainCondition_yields :
    (cx.plainCondition site c.test c.args flipped true).Ends s fun f s' =>
      s'.YieldsTest cx.env c flipped E hs (cx.clashes site c.args s = false)
        (· ∈ cx.takes site c.args s) f := by
  have hoperands := henv.isIntegral (Condition.isInteger_args hc)
  rw [plainCondition]
  refine (operandsMarked_wordBy (K := .integers cx.env) (Condition.isInteger_args hc) hoperands h
    (Held.coversEntries h.owns_entries hE)).bind ?_
  rintro out s' ⟨os, E', ts, hpopped, hforms, hlists, -, hts, hwords⟩
  rw [FoldM.ends_bind, FoldM.ends_consumedNow, (Condition.isInteger_test hc).1,
    if_neg Bool.false_ne_true, hforms]
  refine ((matchOperands_lists hlists).and (matchOperands_sameWords henv.coercion_eq hts)).bind ?_
  rintro fs s'' ⟨⟨ts', rfl, -, hlists'⟩, hext, hsame⟩
  have hts' : ∀ t ∈ ts', t.Integral cx.env := fun t ht =>
    (Pool.SameWord.forall_form hsame _ (mem_map_of_mem ht)).toTree (hlists'.holds_trees t ht)
  refine (hlists'.addSingle rfl).mono fun f s₃ hnew => ?_
  obtain ⟨e, hnew⟩ := hnew
  refine ⟨E', ts', e, _, site, hpopped.pops.sublist, hts', hnew, fun hclear consts σ => ?_⟩
  obtain ⟨hother, hvalues⟩ :=
    hpopped.performAll_eq h (Held.keepResults hE) hclear (.plain consts) σ
  refine ⟨hother, Eq.trans ?_ hvalues⟩
  rw [← hwords, ← Pool.SameWord.map_wordBy hsame hlists.holds_trees hext hlists'.holds_trees]
  rfl

theorem buildCondition_yields :
    (cx.buildCondition site c.test c.args flipped true).Ends s fun f s' =>
      s'.YieldsTest cx.env c flipped E hs (cx.clashes site c.args s = false)
        (· ∈ cx.takes site c.args s) f := by
  rw [buildCondition, (Condition.isInteger_test hc).2, Bool.false_and, if_neg Bool.false_ne_true]
  exact plainCondition_yields henv hc h hE

end

/-- The value that is popped for a test of one register is what the register held. -/
theorem popTested_yields {v : Variable} {stack : Stack} {f : FormId} (h : s.Lists E hs)
    (hE : ∀ held ∈ E, held.Integral cx.env) (hargs : c.args = [.var v])
    (hpop : s.stack.popRegister s.pool v.register ∅ true = some (f, stack)) (clear : Prop)
    {taken : Register → Prop} (htaken : taken v.register) :
    (FoldM.addSingle (.condition c.test [f] ∅ flipped site)).Ends { s with stack } fun f' s' =>
      s'.YieldsTest cx.env c flipped E hs clear taken f' := by
  obtain ⟨t, E', rfl, hpops, hlists⟩ := h.popRegister hpop
  have hone : { s with stack }.Lists E' ([t].map Root.tree ++ hs) := hlists
  have hchildren : (Element.condition c.test [t.id] ∅ flipped site).children =
      [t].map FormTree.id := rfl
  refine (hone.addSingle hchildren).mono fun f' s' hnew => ?_
  obtain ⟨e, hnew⟩ := hnew
  obtain ⟨dst, ordered, notes, hmem⟩ := hpops.mem
  have ht : t.Integral cx.env := hE _ hmem
  refine ⟨E', [t], e, ∅, site, hpops.sublist, by simpa using ht, hnew, fun _ consts σ => ?_⟩
  obtain ⟨hother, hvalue⟩ :=
    hpops.performAll_eq h.owns_entries (Held.keepResults hE) (.plain consts) σ
  refine ⟨fun q hq => hother q fun heq => hq (heq ▸ htaken), ?_⟩
  rw [hargs]
  exact congrArg (fun w => [w]) hvalue

/-- What becomes of the condition of a branch.  A test of the register that holds the value of a
chain takes the pending value of that register, whether or not it is needed later. -/
theorem capturedCondition_yields {branch : Branch} {result : Option Register}
    (henv : cx.env.NoFloats branch.condition.operandRegisters)
    (hc : branch.condition.isInteger = true) (h : s.Lists E hs)
    (hE : ∀ held ∈ E, held.Integral cx.env) :
    (cx.capturedCondition site branch flipped result).Ends s fun f s' =>
      s'.YieldsTest cx.env branch.condition flipped E hs
        (cx.clashes site branch.condition.args s = false)
        (fun q => q ∈ cx.takes site branch.condition.args s ∨ result = some q) f := by
  have hbuild : (cx.buildCondition site branch.condition.test branch.condition.args flipped
      true).Ends s fun f s' => s'.YieldsTest cx.env branch.condition flipped E hs
        (cx.clashes site branch.condition.args s = false)
        (fun q => q ∈ cx.takes site branch.condition.args s ∨ result = some q) f := by
    refine (buildCondition_yields henv hc h hE).mono fun f s' hnew => ?_
    obtain ⟨E', ts, e, consumed, at', hsub, hts, hlists, hvalues⟩ := hnew
    refine ⟨E', ts, e, consumed, at', hsub, hts, hlists, fun hclear consts σ => ?_⟩
    obtain ⟨hother, hwords⟩ := hvalues hclear consts σ
    exact ⟨fun q hq => hother q fun htaken => hq (.inl htaken), hwords⟩
  unfold capturedCondition
  dsimp only
  split
  · rename_i v hargs
    split
    · rename_i hresult
      refine FoldM.ends_bind.2 (FoldM.ends_take.2 ⟨fun _ => ?_, fun f stack hpop => ?_⟩)
      · have hv : (Atom.var v).IsIntegral cx.env :=
          henv.isIntegral (Condition.isInteger_args hc) _ (hargs ▸ mem_cons_self)
        refine (atomForm_wordBy (K := .integers cx.env) rfl hv h).bind fun f s' hnew => ?_
        obtain ⟨t, rfl, hlists, hform, hvalue⟩ := hnew
        have ht : t.Integral cx.env := hform.toTree (hlists.holds mem_cons_self)
        have hone : s'.Lists E ([t].map .tree ++ hs) := hlists
        have hchildren : (Element.condition branch.condition.test [t.id] ∅ flipped site).children =
            [t].map FormTree.id := rfl
        refine (hone.addSingle hchildren).mono fun f' s'' hnew => ?_
        obtain ⟨e, hnew⟩ := hnew
        refine ⟨E, [t], e, ∅, site, .refl _, by simpa using ht, hnew, fun _ consts σ => ?_⟩
        refine ⟨fun _ _ => rfl, ?_⟩
        rw [hargs]
        exact congrArg (fun w => [w]) (hvalue (.plain consts) (Held.run consts σ E))
      · exact popTested_yields h hE hargs hpop _ (.inr hresult)
    · rw [← hargs]
      exact hbuild
  · exact hbuild

/-- A block of integer code that ends in a branch on a condition of integers, with integer code
in its delay slot. -/
structure IntegerTest (cx : Context) (id : BlockId) (block : Block) (site : Nat)
    (branch : Branch) : Prop where
  block_eq : cx.routine.blocks[id]? = some block
  terminator_eq : cx.routine.terminator id = .ok (some (site, branch))
  body : ∀ k, block.start ≤ k → k < site → cx.IntegerAt k
  condition : branch.condition.isInteger = true
  slot : ∀ op, branch.delaySlot? = some op → op.isInteger = true
  noFloats : cx.env.NoFloats branch.reads

/-- Whether the delay slot of a branch gets in the way of the test: its operands clash, or it
takes a value off the stack that the condition tests. -/
def slotClashes (cx : Context) (site : Nat) (branch : Branch) (s : FoldState) : Bool :=
  match branch.delaySlot? with
  | some (.set _ source) =>
    cx.clashes site source.args s ||
      (cx.takes site source.args s).any branch.condition.operandRegisters.contains
  | _ => false

variable {id : BlockId} {block : Block} {emitDelay : Bool} {result : Option Register}

namespace IntegerTest

variable (h : cx.IntegerTest id block site branch)
include h

theorem site_mem : site ∈ block.sites ∧ site + 1 = block.stop := by
  obtain ⟨-, hlt, rfl⟩ := Routine.lastBranch?_of_terminator h.block_eq h.terminator_eq
  exact ⟨Block.mem_sites.2 ⟨by omega, by omega⟩, by omega⟩

theorem exists_code : ∃ instr, cx.routine.code[site]? = some instr ∧
    instr.op = .branch branch := by
  obtain ⟨-, -, -, -, hbranch⟩ := Routine.terminator_eq_some h.terminator_eq
  exact hbranch

theorem noFloats_operands : cx.env.NoFloats branch.condition.operandRegisters := by
  refine ⟨fun v hv => h.noFloats.variableType_ne v (Branch.mem_reads_of_condition ?_),
    h.noFloats.coercion_eq⟩
  rwa [Condition.reads_eq h.condition]

variable {followed : Nat → Register → Prop} (hfollows : cx.routine.Follows block followed)
include hfollows

theorem followed_of_reads (hq : q ∈ branch.reads) : followed site q := by
  obtain ⟨instr, hcode, hop⟩ := h.exists_code
  refine hfollows.read h.site_mem.1 hcode ?_
  rw [hop]
  exact hq

theorem followed_of_operand (hq : q ∈ branch.condition.operandRegisters) : followed site q := by
  refine h.followed_of_reads hfollows (Branch.mem_reads_of_condition ?_)
  rwa [Condition.reads_eq h.condition]

theorem followed_of_kept (hkeep : q ∉ branch.writes) (hq : followed (site + 1) q) :
    followed site q := by
  obtain ⟨instr, hcode, hop⟩ := h.exists_code
  refine hfollows.kept h.site_mem.1 hcode ?_ hq
  rw [hop]
  exact hkeep

/-- What is popped on behalf of the branch and not written by it is not followed any further. -/
theorem not_takes (hmode : s.verbatim = false) (hlists : s.Lists E hs) {atoms : List Atom}
    (hkeep : q ∉ branch.writes) (hq : followed (site + 1) q) : q ∉ cx.takes site atoms s := by
  obtain ⟨instr, hcode, hop⟩ := h.exists_code
  intro htaken
  refine not_followed_of_takes hfollows h.site_mem.1 hcode hmode hlists htaken ?_ hq
  rw [hop]
  exact hkeep

end IntegerTest

/-- In front of a test the delay slot is folded only if it may run there. -/
theorem pushTestDelay_ends {region : Region} {Q : Unit → FoldState → Prop}
    (h : branch.SlotFits → (cx.pushDelay site branch).Ends s Q) :
    (cx.pushTestDelay region site branch).Ends s Q := by
  unfold pushTestDelay
  unfold pushDelay at h
  cases hslot : branch.delaySlot? with
  | none =>
    rw [hslot] at h
    refine h fun op hop => ?_
    cases hslot.symm.trans hop
  | some op =>
    rw [hslot] at h
    dsimp only
    split
    · simp
    rename_i hlikely
    split
    · simp
    rename_i hdisjoint
    refine h fun op' hop => ?_
    cases hslot.symm.trans hop
    exact ⟨Bool.eq_false_iff.2 hlikely, fun q hq hmem =>
      Stack.not_intersects (Bool.eq_false_iff.2 hdisjoint) hmem hq⟩

/-- What folding the delay slot in front of a test does.  Unless it gets in the way, the operands
of the condition stay what they were, and every register that is followed behind the branch gets
the word that it has behind the slot. -/
theorem pushDelay_yields (htest : cx.IntegerTest id block site branch) (hfits : branch.SlotFits)
    (hlists : s.Lists E hs) (hE : ∀ held ∈ E, held.Integral cx.env) (hmode : s.verbatim = false) :
    ∃ (s' : FoldState) (E' : List Held), (cx.pushDelay site branch).run s = (.ok (), s') ∧
      s'.verbatim = false ∧ s'.Lists E' hs ∧ (∀ held ∈ E', held.Integral cx.env) ∧
      (cx.slotClashes site branch s = false → ∀ {followed : Nat → Register → Prop},
        cx.routine.Follows block followed →
        ∀ {M : Type} (machine : Processor M) (ρ : Registers) (m : M),
          machine.AgreesAt cx.routine block followed site ρ m E →
          (∀ q ∈ branch.condition.operandRegisters, Held.run machine.consts ρ E' q =
            machine.registers (machine.reached cx.routine block site m) q) ∧
          ∀ q, followed block.stop q → Held.run machine.consts ρ E' q =
            machine.registers
              (machine.executeDelay branch (machine.reached cx.routine block site m)) q) := by
  unfold pushDelay
  cases hslot : branch.delaySlot? with
  | none =>
    have hwrites : ∀ q, q ∉ branch.writes := by
      intro q hq
      obtain ⟨op, hop, -⟩ := Branch.mem_writes_iff.1 hq
      cases hslot.symm.trans hop
    refine ⟨s, E, rfl, hmode, hlists, hE, ?_⟩
    intro _ followed hfollows M machine ρ m hagrees
    refine ⟨fun q hq => hagrees q (htest.followed_of_operand hfollows hq), fun q hq => ?_⟩
    rw [← htest.site_mem.2] at hq
    rw [Processor.executeDelay, hslot]
    exact hagrees q (htest.followed_of_kept hfollows (hwrites q) hq)
  | some op =>
    obtain ⟨dst, source, rfl, hsource⟩ := Operation.isInteger_eq_set (htest.slot op hslot)
    have hwrites : ∀ q, q ∈ branch.writes ↔ q = dst.register := by
      intro q
      rw [Branch.mem_writes_iff, hslot]
      constructor
      · rintro ⟨_, ⟨⟩, hq⟩
        exact mem_single.1 hq
      · exact fun hq => ⟨_, rfl, mem_single.2 hq⟩
    have henv : cx.env.NoFloats source.reads :=
      ⟨fun v hv => htest.noFloats.variableType_ne v (Branch.mem_reads_of_slot hslot hv),
        htest.noFloats.coercion_eq⟩
    obtain ⟨s', E', t, ordered, notes, hrun, hmode', hlists', hintegral, hvalue⟩ :=
      pushOperation_yields henv hsource hlists hE hmode
    refine ⟨s', _, hrun, hmode', hlists', hintegral, ?_⟩
    intro hclear followed hfollows M machine ρ m hagrees
    rw [slotClashes, hslot, Bool.or_eq_false_iff] at hclear
    obtain ⟨hother, hword⟩ := hvalue hclear.1 machine.consts ρ
    obtain ⟨w, hw⟩ := Expression.exists_value hsource machine.consts
      (machine.registers (machine.reached cx.routine block site m))
    have hreads : ∀ r ∈ source.reads, Held.run machine.consts ρ E r =
        machine.registers (machine.reached cx.routine block site m) r := fun r hr =>
      hagrees r (htest.followed_of_reads hfollows (Branch.mem_reads_of_slot hslot hr))
    refine ⟨fun q hq => ?_, fun q hq => ?_⟩
    · -- The slot neither writes nor takes what the condition reads.
      have hdst : q ≠ dst.register := fun heq => hfits.not_mem_writes hq ((hwrites q).2 heq)
      have hnot : q ∉ cx.takes site source.args s := fun htaken =>
        any_eq_false.1 hclear.2 q htaken hq
      rw [Held.run_value, Function.update_of_ne hdst, hother q hnot]
      exact hagrees q (htest.followed_of_operand hfollows hq)
    · rw [← htest.site_mem.2] at hq
      rw [Processor.executeDelay, hslot]
      dsimp only
      rw [Processor.registers_set hw]
      refine Held.run_assigned hreads (fun hdst => ?_) hword hw
      have hkeep : q ∉ branch.writes := fun hmem => hdst ((hwrites q).1 hmem)
      rw [hother q (htest.not_takes hfollows hmode hlists hkeep hq)]
      exact hagrees q (htest.followed_of_kept hfollows hkeep hq)

variable {depth : Nat}

/-- What capturing a test does in any case: it leaves the stack alone, takes the branch that ends
the region, and puts a delay slot in front of the condition only if it may run there. -/
theorem captureTest_captures {piece : Piece} :
    (cx.captureTest piece flipped emitDelay result depth).Ends s fun test s' =>
      s'.stack = s.stack ∧
      cx.routine.expectBranch piece.region true = .ok (test.site, test.branch) ∧
      (emitDelay = true → test.branch.SlotFits) := by
  rw [captureTest, ends_bind, ends_ofExcept]
  rintro ⟨site, branch⟩ hexpect
  rw [ends_onFreshStack]
  refine ends_true.bind fun _ s₁ _ => ?_
  have hfinish : ∀ s₂, (emitDelay = true → branch.SlotFits) →
      (liftM (cx.finishTest site branch flipped result) : TryFoldM _).Ends s₂ fun test s' =>
        { s' with stack := s.stack }.stack = s.stack ∧
        cx.routine.expectBranch piece.region true = .ok (test.site, test.branch) ∧
        (emitDelay = true → test.branch.SlotFits) := by
    intro s₂ hfits
    rw [ends_lift, finishTest]
    refine FoldM.ends_true.bind fun form s₃ _ => FoldM.ends_true.bind fun statements s₄ _ => ?_
    rw [FoldM.ends_bind, FoldM.ends_changePool]
    split
    · exact ⟨rfl, hexpect, hfits⟩
    · exact ⟨rfl, hexpect, hfits⟩
  dsimp only
  cases emitDelay with
  | true =>
    rw [if_pos rfl, ends_bind]
    exact pushTestDelay_ends fun hfits => ends_true.mono fun _ s₂ _ => hfinish s₂ fun _ => hfits
  | false => exact hfinish s₁ fun hemit => absurd hemit Bool.false_ne_true

/-- Whether values get in each other's way when the test of a block is captured: operands clash
in the block, in the delay slot or in the condition, or the slot takes what the condition
tests. -/
def testClashes (cx : Context) (id : BlockId) (emitDelay : Bool) (s : FoldState) : Bool :=
  match cx.routine.blocks[id]?, cx.routine.terminator id with
  | some block, .ok (some (site, branch)) =>
    let sites := List.range' block.start (site - block.start)
    let fresh : FoldState := { s with stack := .empty }
    let behind := ((cx.pushSites sites).run fresh).2
    cx.sitesClash sites fresh ||
      if emitDelay then
        cx.slotClashes site branch behind ||
          cx.clashes site branch.condition.args ((cx.pushDelay site branch).run behind).2
      else cx.clashes site branch.condition.args behind
  | _, _ => false

/-- The words that a captured test decides on, and the registers that it leaves, if registers
agree with a machine where the block starts.  The words are those that the branch tests.  A
register that is followed gets the word that it has behind the delay slot, or in front of it if
the slot is left out; nothing is said of the register whose value was taken for the test, and of
what a slot that is left out writes. -/
def TestsLike (cx : Context) (block : Block) (site : Nat) (branch : Branch) (emitDelay : Bool)
    (result : Option Register) (E : List Held) (ts : List FormTree) : Prop :=
  ∀ {followed : Nat → Register → Prop}, cx.routine.Follows block followed →
    ∀ {M : Type} (machine : Processor M) (ρ : Registers) (m : M),
      (∀ q, followed block.start q → ρ q = machine.registers m q) →
      ts.map (FormTree.word machine.consts (Held.run machine.consts ρ E)) =
        branch.condition.args.map (Atom.value machine.consts
          (machine.registers (machine.reached cx.routine block site m))) ∧
      ∀ q, followed block.stop q → result ≠ some q → (emitDelay = false → q ∉ branch.writes) →
        Held.run machine.consts ρ E q = machine.registers
          (if emitDelay then machine.executeDelay branch (machine.reached cx.routine block site m)
            else machine.reached cx.routine block site m) q

/-- What entries do from which the condition of a branch can be built, if registers agree with a
machine where the block starts. -/
def ReachesTest (cx : Context) (block : Block) (site : Nat) (branch : Branch) (emitDelay : Bool)
    (E : List Held) : Prop :=
  ∀ {followed : Nat → Register → Prop}, cx.routine.Follows block followed →
    ∀ {M : Type} (machine : Processor M) (ρ : Registers) (m : M),
      (∀ q, followed block.start q → ρ q = machine.registers m q) →
      (∀ q ∈ branch.condition.operandRegisters, Held.run machine.consts ρ E q =
        machine.registers (machine.reached cx.routine block site m) q) ∧
      ∀ q, followed block.stop q → (emitDelay = false → q ∉ branch.writes) →
        Held.run machine.consts ρ E q = machine.registers
          (if emitDelay then machine.executeDelay branch (machine.reached cx.routine block site m)
            else machine.reached cx.routine block site m) q

/-- What is left of the entries when the condition of a branch has been built from them. -/
theorem testsLike_of_condition {E' E₂ : List Held} {ts : List FormTree} {s₂ : FoldState}
    (htest : cx.IntegerTest id block site branch)
    (hmode : s₂.verbatim = false) (hlists : s₂.Lists E₂ hs)
    (hfits : emitDelay = true → branch.SlotFits) (hcondition : ∀ consts σ,
      (∀ q, ¬ (q ∈ cx.takes site branch.condition.args s₂ ∨ result = some q) →
        Held.run consts σ E' q = Held.run consts σ E₂ q) ∧
      ts.map (FormTree.word consts (Held.run consts σ E')) =
        branch.condition.args.map (Atom.value consts (Held.run consts σ E₂)))
    (hbefore : cx.ReachesTest block site branch emitDelay E₂) :
    cx.TestsLike block site branch emitDelay result E' ts := by
  intro followed hfollows M machine ρ m hstart
  obtain ⟨hkept, hwords⟩ := hcondition machine.consts ρ
  obtain ⟨hoperands, hbehind⟩ := hbefore hfollows machine ρ m hstart
  refine ⟨?_, fun q hq hresult hslot => ?_⟩
  · rw [hwords]
    refine map_congr_left fun a ha => Atom.value_congr _ fun r hr => hoperands r ?_
    exact mem_ofList.2 (mem_filterMap.2 ⟨a, ha, hr⟩)
  · rw [← hbehind q hq hslot]
    refine hkept q ?_
    rintro (htaken | heq)
    · have hoperand : q ∈ branch.condition.operandRegisters :=
        mem_ofList.2 (mem_takes hlists htaken).2
      have hkeep : q ∉ branch.writes := by
        cases emitDelay with
        | false => exact hslot rfl
        | true => exact (hfits rfl).not_mem_writes hoperand
      rw [← htest.site_mem.2] at hq
      exact htest.not_takes hfollows hmode hlists hkeep hq htaken
    · exact hresult heq

/-- The test that is built behind some entries is a tree that runs entries and then tests some
values. -/
theorem finishTest_tests (htest : cx.IntegerTest id block site branch) (hmode : s.verbatim = false)
    (hlists : s.Lists E hs) (hE : ∀ held ∈ E, held.Integral cx.env)
    (hfits : emitDelay = true → branch.SlotFits) :
    (cx.finishTest site branch flipped result).Ends s fun test s' =>
      ∃ (t : FormTree) (E' : List Held) (ts : List FormTree), t.id = test.form ∧
        s'.pool.Owns (.tree t :: hs) ∧ t.Tests cx.env branch.condition.test flipped E' ts ∧
        (cx.clashes site branch.condition.args s = false →
          cx.ReachesTest block site branch emitDelay E →
            cx.TestsLike block site branch emitDelay result E' ts) := by
  rw [finishTest]
  refine (capturedCondition_yields htest.noFloats_operands htest.condition hlists hE).bind
    fun form s₁ hcondition => ?_
  obtain ⟨E', ts, e, consumed, at', hsub, hts, hlists₁, hvalues⟩ := hcondition
  refine hlists₁.takeStatements.bind fun statements s₂ hstatements => ?_
  obtain ⟨ns, rfl, hlists₂, hsettles⟩ := hstatements
  rw [FoldM.ends_bind, FoldM.ends_changePool]
  let t : FormTree := .mk form (ns ++
    [⟨e, .condition branch.condition.test (ts.map FormTree.id) consumed flipped at', ts⟩])
  have htree : Pool.Owns _ ((.tree t :: hs) ++ []) := hlists₂.setElements_append.owns
  rw [append_nil] at htree
  have htests : t.Tests cx.env branch.condition.test flipped E' ts :=
    .intro (fun held hheld => hE held (hsub.subset hheld)) hts hsettles
  have hlike : cx.clashes site branch.condition.args s = false →
      cx.ReachesTest block site branch emitDelay E →
        cx.TestsLike block site branch emitDelay result E' ts := fun hclash hbefore =>
    testsLike_of_condition htest hmode hlists hfits (hvalues hclash) hbefore
  split
  · exact ⟨t, E', ts, rfl, htree, htests, hlike⟩
  · exact ⟨t, E', ts, rfl, htree, htests, hlike⟩

/-- A captured test is a tree that runs entries and then tests some values.  Unless values get in
each other's way, it tests what the branch tests and leaves what the block and its delay slot
leave. -/
theorem captureTest_tests (htest : cx.IntegerTest id block site branch)
    (howns : s.pool.Owns hs) (hmode : s.verbatim = false) :
    (cx.captureTest (cx.blockPiece id) flipped emitDelay result depth).Ends s fun test s' =>
      ∃ (t : FormTree) (E' : List Held) (ts : List FormTree), t.id = test.form ∧
        s'.pool.Owns (.tree t :: hs) ∧ t.Tests cx.env branch.condition.test flipped E' ts ∧
        (cx.testClashes id emitDelay s = false →
          cx.TestsLike block site branch emitDelay result E' ts) := by
  have hstop := htest.site_mem
  have hstart := (Block.mem_sites.1 hstop.1).1
  have hlists : { s with stack := .empty }.Lists [] hs := ⟨rfl, by simpa using howns⟩
  obtain ⟨s₁, E₁, hrun, hmode₁, hlists₁, hE₁, hagrees⟩ := pushSites_agrees
    (Nat.le_refl block.start) (n := site - block.start) (by omega)
    (fun k hle hlt => htest.body k hle (by omega)) hlists (by simp) hmode
  rw [Nat.add_sub_cancel' hstart] at hagrees
  have hclashes : cx.testClashes id emitDelay s =
      (cx.sitesClash (List.range' block.start (site - block.start)) { s with stack := .empty } ||
        if emitDelay then cx.slotClashes site branch s₁ ||
          cx.clashes site branch.condition.args ((cx.pushDelay site branch).run s₁).2
        else cx.clashes site branch.condition.args s₁) := by
    rw [testClashes, htest.block_eq, htest.terminator_eq]
    dsimp only
    rw [hrun]
  rw [captureTest, ends_bind, ends_ofExcept]
  rintro ⟨site', branch'⟩ hexpect
  have hsame := htest.terminator_eq.symm.trans (Routine.expectBranch_eq_ok hexpect).1
  cases hsame
  rw [ends_onFreshStack]
  refine pushBlockBody_runs.bind fun found s₁' hbody => ?_
  obtain ⟨block', hblock', hfound, hrun'⟩ := hbody
  cases htest.block_eq.symm.trans hblock'
  cases htest.terminator_eq.symm.trans hfound
  cases hrun.symm.trans hrun'
  dsimp only
  cases emitDelay with
  | true =>
    rw [if_pos rfl, ends_bind]
    refine pushTestDelay_ends fun hfits => ?_
    obtain ⟨s₂, E₂, hdelay, hmode₂, hlists₂, hE₂, hagree⟩ :=
      pushDelay_yields htest hfits hlists₁ hE₁ hmode₁
    refine ends_of_run hdelay (ends_lift.2 ((finishTest_tests htest hmode₂ hlists₂ hE₂
      fun _ : true = true => hfits).mono fun test s' hfinished => ?_))
    obtain ⟨t, E', ts, hid, htree, htests, hlike⟩ := hfinished
    refine ⟨t, E', ts, hid, htree, htests, fun hclear => ?_⟩
    rw [hclashes, if_pos rfl, hdelay] at hclear
    simp only [Bool.or_eq_false_iff] at hclear
    refine hlike hclear.2.2 fun hfollows M machine ρ m hρ => ?_
    have hsite := hagrees hclear.1 hfollows machine ρ m (Processor.agreesAt_start hρ)
    obtain ⟨hoperands, hbehind⟩ := hagree hclear.2.1 hfollows machine ρ m hsite
    exact ⟨hoperands, fun q hq _ => hbehind q hq⟩
  | false =>
    refine ends_lift.2 ((finishTest_tests htest hmode₁ hlists₁ hE₁
      fun hemit : false = true => absurd hemit Bool.false_ne_true).mono fun test s' hfinished => ?_)
    obtain ⟨t, E', ts, hid, htree, htests, hlike⟩ := hfinished
    refine ⟨t, E', ts, hid, htree, htests, fun hclear => ?_⟩
    rw [hclashes, if_neg Bool.false_ne_true, Bool.or_eq_false_iff] at hclear
    refine hlike hclear.2 fun hfollows M machine ρ m hρ => ?_
    have hsite := hagrees hclear.1 hfollows machine ρ m (Processor.agreesAt_start hρ)
    refine ⟨fun q hq => hsite q (htest.followed_of_operand hfollows hq), fun q hq hkeep => ?_⟩
    rw [← hstop.2] at hq
    exact hsite q (htest.followed_of_kept hfollows (hkeep rfl) hq)

/-- A test that is captured together with its delay slot decides like the branch, or the other
way round if it is flipped, and leaves every register that is live behind the branch as the
machine does, the register apart whose value was taken for the test.  Values must not get in each
other's way. -/
theorem captureTest_decides {name : String} {program : List Statement}
    (hr : assemble name program = .ok cx.routine) (htest : cx.IntegerTest id block site branch)
    {result : Option Register} {depth : Nat} {test : CapturedTest} {s' : FoldState}
    (hmode : s.verbatim = false)
    (hrun : (cx.captureTest (cx.piece (.block id)) flipped true result depth).run s =
      (.ok test, s'))
    (hclear : cx.testClashes id true s = false) {M : Type} (machine : Processor M) (m : M) :
    ∃ outcome, s'.pool.runTest machine.consts (machine.registers m) test.form = some outcome ∧
      outcome.holds =
        (machine.holds branch.condition (machine.reached cx.routine block site m) ^^ flipped) ∧
      ∀ q, cx.routine.LiveAt q ⟨id, block.stop⟩ → result ≠ some q →
        outcome.registers q =
          machine.registers (machine.executeBlock cx.routine id block m).2 q := by
  obtain ⟨-, hexpect, hslot⟩ := captureTest_captures.of_run hrun
  have hfits : branch.SlotFits := by
    cases htest.terminator_eq.symm.trans (Routine.expectBranch_eq_ok hexpect).1
    exact hslot rfl
  obtain ⟨t, E, ts, hform, howns, htests, hlike⟩ :=
    (captureTest_tests htest (Pool.Owns.nil _) hmode).of_run hrun
  obtain ⟨hwords, hregisters⟩ := hlike hclear
    (Routine.ConsumesLast.follows (Routine.consumesLast_of_assemble hr) htest.block_eq) machine
    (machine.registers m) m fun _ _ => rfl
  obtain ⟨b, hb⟩ := Condition.exists_truth htest.condition machine.consts
    (machine.registers (machine.reached cx.routine block site m))
  have hdecide := hb
  rw [Condition.truth, ← hwords] at hdecide
  refine ⟨_, hform ▸ htests.runTest_eq howns List.mem_cons_self hdecide, ?_, fun q hq hne => ?_⟩
  · rw [machine.holds_eq hb]
  · obtain ⟨hlast, -, rfl⟩ :=
      Routine.lastBranch?_of_terminator htest.block_eq htest.terminator_eq
    rw [Processor.executeBlock, hlast]
    dsimp only
    rw [Processor.follow_snd fun op hop => (hfits op hop).1]
    exact hregisters q hq hne fun hemit => absurd hemit.symm Bool.false_ne_true

/-- Tests the successor of a register, and doubles a register in the delay slot. -/
def doubleIfNext (doubled : Register) : List Statement :=
  [.set ⟨8⟩ .add [.register ⟨4⟩, .int 1],
   .branch .nonZero [.register ⟨8⟩] "end" false
     (some ⟨.v0, .mulSigned, [.register doubled, .int 2]⟩),
   .move .v0 (.int 0),
   .label "end"]

def doubleIfNextRoutine (doubled : Register) : Routine where
  name := "double-if-next"
  code := #[⟨.set (.write ⟨8⟩ 0) ⟨.add, [.var (.read ⟨4⟩ 0), .int 1]⟩, .single ⟨4⟩⟩,
    ⟨.branch ⟨⟨.nonZero, [.var (.read ⟨8⟩ 1)]⟩, false, 2,
      some (.set (.write .v0 1) ⟨.mulSigned, [.var (.read doubled 1), .int 2]⟩)⟩,
      .single ⟨8⟩ ∪ .single doubled⟩,
    ⟨.set (.write .v0 2) ⟨.identity, [.int 0]⟩, ∅⟩]
  blocks := #[⟨0, 0, 2, [1, 2]⟩, ⟨1, 2, 3, [2]⟩, ⟨2, 3, 3, []⟩]
  labels := [("end", 2), ("epilogue", 2)]
  epilogue := some 2
  resultRegister := .v0

def nextBranch (doubled : Register) : Branch where
  condition := ⟨.nonZero, [.var (.read ⟨8⟩ 1)]⟩
  likely := false
  target := 2
  delay := some (.set (.write .v0 1) ⟨.mulSigned, [.var (.read doubled 1), .int 2]⟩)

def captureNext (doubled : Register) : Except Error CapturedTest × FoldState :=
  ((untyped (doubleIfNextRoutine doubled)).captureTest
    ((untyped (doubleIfNextRoutine doubled)).piece (.block 0)) true true none 0).run (.start .empty)

theorem captureNext_eq {doubled : Register} (h : doubled ∈ [⟨5⟩, ⟨8⟩]) :
    ∃ test, captureNext doubled = (.ok test, (captureNext doubled).2) ∧ test.form = ⟨6⟩ := by
  have hchecked : ∀ doubled ∈ [(⟨5⟩ : Register), ⟨8⟩],
      (captureNext doubled).1.toOption.map CapturedTest.form = some ⟨6⟩ := by decide +kernel
  have hform := hchecked doubled h
  generalize captureNext doubled = outcome at hform ⊢
  obtain ⟨result, s'⟩ := outcome
  cases result with
  | error e => cases hform
  | ok test => exact ⟨test, rfl, Option.some.inj hform⟩

theorem integerTest_next :
    (untyped (doubleIfNextRoutine ⟨5⟩)).IntegerTest 0 ⟨0, 0, 2, [1, 2]⟩ 1 (nextBranch ⟨5⟩) := by
  have hfloats : ∀ rs : RegisterSet, (∀ q ∈ rs, q.isFloat = false) →
      (untyped (doubleIfNextRoutine ⟨5⟩)).env.NoFloats rs := fun rs h => noFloats_of_no_types _ h
  refine ⟨rfl, rfl, ?_, rfl, ?_, hfloats _ (by decide)⟩
  · intro k _ hk
    obtain rfl : k = 0 := by omega
    exact ⟨_, rfl, rfl, hfloats _ (by decide)⟩
  · rintro op ⟨⟩
    rfl

/-- The condition takes the successor off the stack, and the slot leaves it alone. -/
theorem captureNext_decides :
    assemble "double-if-next" (doubleIfNext ⟨5⟩) = .ok (doubleIfNextRoutine ⟨5⟩) ∧
    ∃ test s', captureNext ⟨5⟩ = (.ok test, s') ∧
      (untyped (doubleIfNextRoutine ⟨5⟩)).testClashes 0 true (.start .empty) = false ∧
      ∀ (consts : Constants) (m : PlainState), ∃ outcome,
        s'.pool.runTest consts m.registers test.form = some outcome ∧
        outcome.holds = ((plainMachine consts).holds (nextBranch ⟨5⟩).condition
          ((plainMachine consts).reached (doubleIfNextRoutine ⟨5⟩) ⟨0, 0, 2, [1, 2]⟩ 1 m) ^^ true) ∧
        outcome.registers .v0 = ((plainMachine consts).executeBlock (doubleIfNextRoutine ⟨5⟩) 0
          ⟨0, 0, 2, [1, 2]⟩ m).2.registers .v0 := by
  have hr : assemble "double-if-next" (doubleIfNext ⟨5⟩) = .ok (doubleIfNextRoutine ⟨5⟩) := by cbv
  have hclear : (untyped (doubleIfNextRoutine ⟨5⟩)).testClashes 0 true (.start .empty) = false := by
    decide +kernel
  have hlive : (doubleIfNextRoutine ⟨5⟩).LiveAt .v0 ⟨0, 2⟩ := by
    have hfirst : (doubleIfNextRoutine ⟨5⟩).blocks[0]? = some ⟨0, 0, 2, [1, 2]⟩ := rfl
    have hend : (doubleIfNextRoutine ⟨5⟩).blocks[2]? = some ⟨2, 3, 3, []⟩ := rfl
    exact .follow hfirst (by decide) hend (.of_uses (.leave hend rfl rfl))
  obtain ⟨test, hrun, -⟩ := captureNext_eq (by decide : (⟨5⟩ : Register) ∈ [⟨5⟩, ⟨8⟩])
  refine ⟨hr, test, _, hrun, hclear, fun consts m => ?_⟩
  obtain ⟨outcome, houtcome, hholds, hregisters⟩ :=
    captureTest_decides hr integerTest_next rfl hrun hclear (plainMachine consts) m
  exact ⟨outcome, houtcome, hholds, hregisters .v0 hlive (Option.some_ne_none _).symm⟩

/-- When the slot doubles the successor itself, it takes it off the stack, and the condition that
stands behind it reads the register before anything is assigned to it. -/
theorem captureNext_decides_otherwise :
    assemble "double-if-next" (doubleIfNext ⟨8⟩) = .ok (doubleIfNextRoutine ⟨8⟩) ∧
    ∃ test s' outcome, captureNext ⟨8⟩ = (.ok test, s') ∧
      s'.pool.runTest (fun _ => 0) (fun _ => 0) test.form = some outcome ∧
      outcome.holds = true ∧
      ((plainMachine fun _ => 0).holds (nextBranch ⟨8⟩).condition
        ((plainMachine fun _ => 0).reached (doubleIfNextRoutine ⟨8⟩) ⟨0, 0, 2, [1, 2]⟩ 1
          ⟨fun _ => 0, fun _ _ _ => 0⟩) ^^ true) = false := by
  obtain ⟨test, hrun, hform⟩ := captureNext_eq (by decide : (⟨8⟩ : Register) ∈ [⟨5⟩, ⟨8⟩])
  have houtcome : ((captureNext ⟨8⟩).2.pool.runTest (fun _ => 0) (fun _ => 0) ⟨6⟩).map
      TestOutcome.holds = some true := by decide +kernel
  obtain ⟨outcome, houtcome, hholds⟩ := Option.map_eq_some_iff.1 houtcome
  exact ⟨by cbv, test, _, outcome, hrun, hform ▸ houtcome, hholds, by decide⟩

end Context

end Decompiler
