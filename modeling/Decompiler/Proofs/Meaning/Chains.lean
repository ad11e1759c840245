import Decompiler.Proofs.Meaning.ChainTrees
import Decompiler.Proofs.Structure.Outlook

/-!
Folding chains that have a value.  The entries are captured one after another, the last block is
folded, and the assignment at its end gives way to its value.  The chain that is pushed then has
the word that running the blocks leaves in the register, if the register is right on every way out
of the blocks.
-/

namespace Decompiler

open TryFoldM List

variable {kind : ChainKind} {finish id : BlockId} {dst : Register} {site : Nat} {test : ChainTest}
  {tests : List ChainTest} {ids : List BlockId}

namespace Routine

variable {r : Routine} {branch : Branch}

/-- A register that holds the value of a chain is set at the end of its last block, which no branch
ends. -/
theorem chainResult_eq_some (hid : ∀ {block : Block}, r.blocks[id]? = some block → block.id = id)
    (h : r.chainResult tests (.block id) = .ok (some dst)) :
    chainRegister? tests = some dst ∧ ∃ block, r.blocks[id]? = some block ∧
      r.terminator id = .ok none ∧ block.start < block.stop := by
  unfold chainResult at h
  split at h
  · cases h
  rename_i register hreg
  obtain ⟨ends, hends, h⟩ := bind_eq_ok.1 h
  cases ends with
  | false => cases h
  | true =>
    cases h
    change (do
      let block ← r.block id
      if (← r.terminator block.id).isSome || block.isEmpty then return false
      let instr ← r.instruction (block.stop - 1)
      return instr.op.destination?.any _ : Except Error Bool) = _ at hends
    obtain ⟨block, hblock, hends⟩ := bind_eq_ok.1 hends
    obtain ⟨found, hfound, hends⟩ := bind_eq_ok.1 hends
    have hblock := block_eq_ok.1 hblock
    rw [hid hblock] at hfound
    split at hends
    · cases hends
    rename_i hplain
    rw [Bool.or_eq_true, not_or, Option.not_isSome_iff_eq_none] at hplain
    refine ⟨hreg, block, hblock, hplain.1 ▸ hfound, ?_⟩
    have hnonempty := hplain.2
    rw [Block.isEmpty, decide_eq_true_iff] at hnonempty
    omega

/-- What a chain with a value is planned with: a block, and what is known of its branch. -/
structure Admits (r : Routine) (kind : ChainKind) (finish : BlockId) (dst : Register)
    (id : BlockId) (test : ChainTest) : Prop where
  test_eq : r.chainTest finish (.block id) = .ok test
  kind_eq : test.kind = kind
  default_eq : ∀ v ∈ test.defaulted, v.register = dst

theorem Plans.admits {last : BlockId} {plan : ChainPlan}
    (h : r.Plans (ids.map .block) (.block last) plan) (hresult : plan.result = some dst) :
    List.Forall₂ (r.Admits plan.kind (last + 1) dst) ids plan.tests := by
  obtain ⟨block, hblock, htests⟩ := h.tests
  cases hblock
  rw [forall₂_map_left_iff] at htests
  refine forall₂_iff_get.2 ⟨htests.length_eq, fun i hi hi' => ?_⟩
  have hmem : plan.tests.get ⟨i, hi'⟩ ∈ plan.tests := get_mem _ _
  refine ⟨htests.get hi hi', h.kinds _ hmem, fun v hv => ?_⟩
  exact Option.some.inj ((h.defaults _ hmem v hv).symm.trans hresult)

/-- Where no test sets a default, they all test the register of the value. -/
theorem onlyTested?_of_chainRegister? (hnone : ∀ test ∈ tests, test.defaulted = none)
    (h : chainRegister? tests = some dst) : ∀ test ∈ tests, test.branch.onlyTested? = some dst := by
  unfold chainRegister? at h
  rw [findSome?_eq_none_iff.2 hnone] at h
  dsimp only at h
  intro test htest
  have hmem : test.branch.onlyTested? ∈ tests.map fun t => t.branch.onlyTested? :=
    mem_map_of_mem htest
  split at h
  · rename_i first rest htests
    rw [htests] at hmem
    split at h
    · rename_i hall
      cases h
      rcases mem_cons.1 hmem with hfirst | hrest
      · exact hfirst
      · exact eq_of_beq (all_eq_true.1 hall _ hrest)
    · cases h
  · cases h

/-- Where no test sets a default, the register is right on every way out. -/
theorem exitsHold_of_admits (h : List.Forall₂ (r.Admits kind finish dst) ids tests)
    (hnone : ∀ test ∈ tests, test.defaulted = none)
    (htested : ∀ test ∈ tests, test.branch.onlyTested? = some dst) (known : Bool) :
    r.exitsHold dst known ids = true := by
  induction h generalizing known with
  | nil => rfl
  | @cons id test ids tests hfirst hrest ih =>
    rw [forall_mem_cons] at hnone htested
    obtain ⟨site, hexpect, -, -, hdefaulted⟩ := chainTest_eq_ok hfirst.test_eq
    have hterm : r.terminator id = .ok (some (site, test.branch)) :=
      (expectBranch_eq_ok hexpect).1
    obtain ⟨block, hblock, -⟩ := terminator_eq_some hterm
    rw [exitsHold, hblock, hterm]
    dsimp only
    rw [← hdefaulted, hnone.1, htested.1, beq_self_eq_true]
    exact ih hnone.2 htested.2 _

/-- The branch that was captured for a test of a plan is an entry of the chain. -/
theorem Admits.entryAt (h : r.Admits kind finish dst id test)
    (hexpect : r.expectBranch (.block id) true = .ok (site, branch))
    (hfits : test.defaulted.isSome = false → branch.SlotFits) :
    branch.falseDefault? = test.defaulted ∧
      ∃ block, r.EntryAt kind finish dst id block site branch := by
  obtain ⟨site', hexpect', htarget, hkind, hdefaulted⟩ := chainTest_eq_ok h.test_eq
  cases hexpect.symm.trans hexpect'
  obtain ⟨hterm, hjump⟩ := expectBranch_eq_ok hexpect
  obtain ⟨block, hblock, -⟩ := terminator_eq_some hterm
  refine ⟨hdefaulted.symm, block, hblock, hterm, htarget, hjump, h.kind_eq ▸ hkind, ?_, ?_⟩
  · exact fun v hv => h.default_eq v (hdefaulted.trans hv)
  · exact fun hnone => hfits (by rw [hdefaulted, hnone]; rfl)

end Routine

namespace Context

variable {cx : Context} {block : Block} {plan : ChainPlan} {depth : Nat} {s s' : FoldState}
  {hs : List Root}

/-- An entry is captured from a block that is one of the chain. -/
theorem captureEntry_entryAt (h : cx.routine.Admits plan.kind finish dst id test) :
    (cx.captureEntry plan depth (cx.piece (.block id), test)).Ends s fun _ s' =>
      s'.stack = s.stack ∧ ∃ block site branch,
        cx.routine.EntryAt plan.kind finish dst id block site branch := by
  rw [captureEntry]
  refine captureTest_captures.bind fun captured s' hcaptured => ?_
  obtain ⟨hstack, hexpect, hfits⟩ := hcaptured
  rw [ends_pure]
  obtain ⟨-, block, hentry⟩ := h.entryAt hexpect fun hnone => hfits (by rw [hnone]; rfl)
  exact ⟨hstack, block, captured.site, captured.branch, hentry⟩

theorem captureEntries_entryAt (h : List.Forall₂ (cx.routine.Admits plan.kind finish dst) ids tests) :
    (((ids.map fun id => cx.piece (.block id)).zip tests).mapM (cx.captureEntry plan depth)).Ends s
      fun _ s' => s'.stack = s.stack ∧ ∀ id ∈ ids, ∃ block site branch,
        cx.routine.EntryAt plan.kind finish dst id block site branch := by
  induction h generalizing s with
  | nil =>
    rw [map_nil, zip_nil_left, mapM_nil, ends_pure]
    exact ⟨rfl, by simp⟩
  | @cons id test ids tests hfirst hrest ih =>
    rw [map_cons, zip_cons_cons, mapM_cons]
    refine (captureEntry_entryAt hfirst).bind fun entry s₁ hentry => ?_
    refine ih.bind fun entries s₂ hentries => ?_
    rw [ends_pure]
    exact ⟨hentries.1.trans hentry.1, forall_mem_cons.2 ⟨hentry.2, hentries.2⟩⟩

/-- Whether values get in each other's way when the entries of a chain are captured and its last
block is folded. -/
def chainClashes (cx : Context) (plan : ChainPlan) (depth : Nat) (last : BlockId) :
    List (BlockId × ChainTest) → FoldState → Bool
  | [], s => cx.routine.blocks[last]?.any fun block =>
    cx.sitesClash block.sites { s with stack := .empty }
  | (id, test) :: rest, s => cx.testClashes id (!test.defaulted.isSome) s ||
    cx.chainClashes plan depth last rest
      ((cx.captureEntry plan depth (cx.piece (.block id), test)).run s).2

theorem captureEntry_tests (hresult : plan.result = some dst)
    (h : cx.routine.Admits plan.kind finish dst id test)
    (hinteger : ∃ block site branch, cx.IntegerTest id block site branch)
    (howns : s.pool.Owns hs) (hmode : s.verbatim = false) :
    (cx.captureEntry plan depth (cx.piece (.block id), test)).Ends s fun entry s' =>
      s'.verbatim = false ∧ ∃ t : FormTree, t.id = entry.condition ∧
        s'.pool.Owns (.tree t :: hs) ∧
        (cx.testClashes id (!test.defaulted.isSome) s = false →
          cx.TestsEntry plan.kind finish dst id t) := by
  obtain ⟨block, site, branch, htest⟩ := hinteger
  rw [captureEntry, ends_bind, hresult]
  intro captured hok
  have htame : (cx.captureTest (cx.piece (.block id)) (plan.kind == .conjunction)
      (!test.defaulted.isSome) (some dst) depth).Tame :=
    (captureTest_bounded (piece_tame _ _) (Nat.lt_succ_self _) _ _ _).tame
  obtain ⟨-, hexpect, hfits⟩ := captureTest_captures captured hok
  obtain ⟨t, E, ts, hform, howns', htests, hlike⟩ :=
    captureTest_tests htest howns hmode captured hok
  rw [ends_pure]
  obtain ⟨hdefault, block', hentry⟩ := h.entryAt hexpect fun hnone => hfits (by rw [hnone]; rfl)
  cases htest.block_eq.symm.trans hentry.block_eq
  cases htest.terminator_eq.symm.trans hentry.terminator_eq
  refine ⟨(htame.advances s captured hok).mode.trans hmode, t, hform, howns', fun hclear => ?_⟩
  refine ⟨block, captured.site, captured.branch, E, ts, hentry, htest, htests, ?_⟩
  rw [hdefault]
  exact hlike hclear

theorem captureEntries_tests (hresult : plan.result = some dst)
    (h : List.Forall₂ (cx.routine.Admits plan.kind finish dst) ids tests)
    (hinteger : ∀ id ∈ ids, ∃ block site branch, cx.IntegerTest id block site branch)
    (howns : s.pool.Owns hs) (hmode : s.verbatim = false) (last : BlockId) :
    (((ids.map fun id => cx.piece (.block id)).zip tests).mapM (cx.captureEntry plan depth)).Ends s
      fun entries s' => s'.verbatim = false ∧ ∃ ts : List FormTree,
        entries.map ChainEntry.condition = ts.map FormTree.id ∧
        s'.pool.Owns (ts.map .tree ++ hs) ∧
        (cx.chainClashes plan depth last (ids.zip tests) s = false →
          List.Forall₂ (cx.TestsEntry plan.kind finish dst) ids ts ∧
            cx.chainClashes plan depth last [] s' = false) := by
  induction h generalizing s hs with
  | nil =>
    rw [map_nil, zip_nil_left, mapM_nil, ends_pure]
    exact ⟨hmode, [], rfl, howns, fun hclear => ⟨.nil, hclear⟩⟩
  | @cons id test ids tests hfirst hrest ih =>
    obtain ⟨hone, hmore⟩ := forall_mem_cons.1 hinteger
    rw [map_cons, zip_cons_cons, mapM_cons, ends_bind]
    intro entry hok
    obtain ⟨hmode₁, t, hid, howns₁, htests⟩ :=
      captureEntry_tests hresult hfirst hone howns hmode entry hok
    refine (ih hmore howns₁ hmode₁).bind fun entries s₂ hentries => ?_
    obtain ⟨hmode₂, ts, hids, howns₂, hall⟩ := hentries
    rw [ends_pure]
    refine ⟨hmode₂, t :: ts, ?_, howns₂.perm perm_middle, fun hclear => ?_⟩
    · rw [map_cons, map_cons, hid, hids]
    · rw [zip_cons_cons, chainClashes, Bool.or_eq_false_iff] at hclear
      obtain ⟨hothers, hend⟩ := hall hclear.2
      exact ⟨.cons (htests hclear.1) hothers, hend⟩

variable {v : Variable} {tail : FormId}

/-- Folding the last block of a chain ends with an assignment.  Unless operands clash, it assigns
what the block leaves in its register. -/
theorem pushSites_returns (hlt : block.start < block.stop)
    (hinteger : ∀ site ∈ block.sites, cx.IntegerAt site) (howns : s.pool.Owns hs)
    (hmode : s.verbatim = false) (hempty : s.stack = .empty) :
    ∃ (s' : FoldState) (v : Variable) (t : FormTree) (ordered : Bool) (notes : SetNotes)
      (E : List Held), (cx.pushSites block.sites).run s = (.ok (), s') ∧
      s'.Lists (.value v t ordered notes :: E) hs ∧
      (∀ held ∈ Held.value v t ordered notes :: E, held.Integral cx.env) ∧
      (cx.sitesClash block.sites s = false → ∀ {followed : Nat → Register → Prop},
        cx.routine.Follows block followed →
        ∀ {M : Type} (machine : Processor M) (ρ : Registers) (m : M),
          (∀ q, followed block.start q → ρ q = machine.registers m q) →
          t.word machine.consts (Held.run machine.consts ρ E) =
            machine.registers (machine.reached cx.routine block block.stop m) v.register) := by
  obtain ⟨n, hn⟩ : ∃ n, block.stop = block.start + n + 1 := ⟨block.stop - block.start - 1, by omega⟩
  have hsites : block.sites = List.range' block.start n ++ [block.start + n] := by
    rw [Block.sites, Block.size, hn, Nat.add_assoc, Nat.add_sub_cancel_left, range'_1_concat]
  have hmem : ∀ site, block.start ≤ site → site < block.stop → site ∈ block.sites :=
    fun site hle hlt => Block.mem_sites.2 ⟨hle, hlt⟩
  have hlists : s.Lists [] hs := by
    refine ⟨?_, by simpa using howns⟩
    rw [hempty]
    rfl
  obtain ⟨s₁, E₁, hrun₁, hmode₁, hlists₁, hE₁, hagrees₁⟩ := pushSites_agrees
    (Nat.le_refl block.start) (n := n) (by omega)
    (fun site hle hlt => hinteger site (hmem site hle (by omega))) hlists (by simp) hmode
  have hsite := hmem (block.start + n) (by omega) (by omega)
  obtain ⟨s₂, v, source, t, ordered, notes, E₂, -, hrun₂, -, hlists₂, hE₂, hagrees₂⟩ :=
    pushInstruction_agrees hsite (hinteger _ hsite) hlists₁ hE₁ hmode₁
  refine ⟨s₂, v, t, ordered, notes, E₂, ?_, hlists₂, hE₂, ?_⟩
  · rw [hsites, pushSites_append, run_bind_of_ok hrun₁]
    exact run_bind_of_ok hrun₂
  · intro hclear followed hfollows M machine ρ m hρ
    rw [hsites, sitesClash_concat hrun₁, Bool.or_eq_false_iff] at hclear
    have hbefore := hagrees₁ hclear.1 hfollows machine ρ m (Processor.agreesAt_start hρ)
    rw [hn]
    exact (hagrees₂ hclear.2 hfollows machine ρ m hbefore).2

/-- A block without a branch is folded instruction by instruction. -/
theorem piece_push_ends {Q : Unit → FoldState → Prop}
    (hblock : cx.routine.blocks[id]? = some block) (hnone : cx.routine.terminator id = .ok none)
    (hrun : (cx.pushSites block.sites).run s = (.ok (), s')) (h : Q () s') :
    ((cx.piece (.block id)).push depth).Ends s Q := by
  change (cx.limitDepth depth do
    if (← cx.tryIdioms [.block id]) = 0 then cx.pushBlock id).Ends s Q
  unfold limitDepth
  split
  · exact ends_throw
  rw [ends_bind]
  refine tryIdioms_ends ?_ ?_
  · rw [if_pos rfl, pushBlock]
    refine pushBlockBody_runs.bind fun found s₁ hbody => ?_
    obtain ⟨block', hblock', hfound, hrun'⟩ := hbody
    cases hblock.symm.trans hblock'
    cases hnone.symm.trans hfound
    cases hrun.symm.trans hrun'
    exact ends_pure.2 h
  · rintro id' shape ⟨rest, hleading, -, hfinds⟩
    cases hleading
    exact absurd hfinds.shape (Routine.not_hasShape_of_none hnone shape)

theorem buildPiece_stack {piece : Piece} :
    (buildPiece piece depth).Ends s fun _ s' => s'.stack = s.stack := by
  rw [buildPiece, ends_onFreshStack]
  exact ends_true.mono fun _ _ _ => rfl

/-- What folding the last block of a chain makes.  The assignment at its end can give way to its
value. -/
theorem buildPiece_returns (hblock : cx.routine.blocks[id]? = some block)
    (hnone : cx.routine.terminator id = .ok none) (hlt : block.start < block.stop)
    (hinteger : ∀ site ∈ block.sites, cx.IntegerAt site) (howns : s.pool.Owns hs)
    (hmode : s.verbatim = false) :
    (buildPiece (cx.piece (.block id)) depth).Ends s fun f s' =>
      ∃ (v : Variable) (u : FormTree), u.id = f ∧ s'.pool.trailingSet? f = some v ∧
        (s'.pool.spliceTrailing f).Owns (.tree u :: hs) ∧
        (cx.sitesClash block.sites { s with stack := .empty } = false →
          cx.ReturnsLast v.register id u) := by
  obtain ⟨s₁, v, t, ordered, notes, E, hrun, hlists, hE, hword⟩ := pushSites_returns
    hlt hinteger (s := { s with stack := .empty }) howns hmode rfl
  obtain ⟨ht, hE⟩ := forall_mem_cons.1 hE
  rw [buildPiece, ends_onFreshStack, ends_bind]
  refine piece_push_ends hblock hnone hrun ?_
  rw [ends_lift]
  refine hlists.takeForm.mono fun f s₂ hform => ?_
  obtain ⟨ns, hlists₂, hsettles⟩ := hform
  rcases hsettles with hsettles | ⟨hnil, -⟩
  · rw [← reverse_reverse ns, forall₂_reverse_iff] at hsettles
    generalize hreverse : ns.reverse = nodes at hsettles
    cases hsettles with
    | @cons _ n _ below hfirst hbelow =>
      cases hfirst with
      | value _ _ _ _ e =>
        have hns : ns = below.reverse ++ [⟨e, .set v t.id ordered notes, [t]⟩] := by
          rw [← reverse_reverse ns, hreverse, reverse_cons]
        have hown : s₂.pool.Owns (.tree (.mk f ns) :: hs) := by simpa using hlists₂.owns
        rw [hns] at hown
        obtain ⟨hset, hsplice⟩ := hown.spliceTrailing_set
        refine ⟨v, _, rfl, hset, hsplice, fun hclear => ⟨block, E, t, hblock, ?_, hword hclear⟩⟩
        exact .intro hE ht (forall₂_reverse_iff.2 hbelow)
  · cases hnil

theorem pushControlValue_records {element : Element} :
    (cx.pushControlValue site v element).Ends s fun _ s' => ∃ f ordered,
      s'.stack = s.stack.push (.assign v f ordered {} none) ∧
        s.pool.addSingle element = (f, s'.pool) := by
  rw [pushControlValue, FoldM.ends_bind, FoldM.addSingle, FoldM.ends_onPool, FoldM.ends_bind,
    FoldM.ends_get]
  dsimp only
  split
  · exact ⟨_, _, rfl, rfl⟩
  · exact ⟨_, _, rfl, rfl⟩

def lastEntry (tail : FormId) : ChainEntry where
  condition := tail
  branchSite := none
  setsResult := false
  clean := true

/-- The variable that a chain with a value assigns is that at the end of its last entry. -/
theorem chainFinal_takes {last : Region} (hresult : plan.result = some dst) :
    (cx.chainFinal plan last tail).Ends s fun final s' => ∃ v, final = some v ∧
      s.pool.trailingSet? tail = some v ∧ v.register = dst ∧
      s' = { s with pool := s.pool.spliceTrailing tail } := by
  rw [chainFinal, hresult, ends_map, takeChainValue, ends_bind, ends_get]
  split
  · rename_i v hv
    obtain ⟨hset, hreg⟩ := Option.filter_eq_some_iff.1 hv
    rw [ends_bind, ends_lift, FoldM.ends_changePool, ends_pure]
    exact ⟨v, rfl, hset, eq_of_beq hreg, rfl⟩
  · rw [ends_bind]
    exact fun _ _ => ends_throw

/-- How a chain that has a value is built: its entries are captured, its last block is folded, and
the assignment at its end gives way to its value. -/
theorem pushPlannedChain_eq_ok {entries : List Piece} {last : Piece}
    (hresult : plan.result = some dst)
    (hrun : (cx.pushPlannedChain plan entries last depth).run s = (.ok (), s')) :
    ∃ built s₁ tail s₂ v f ordered,
      ((entries.zip plan.tests).mapM (cx.captureEntry plan depth)).run s = (.ok built, s₁) ∧
      (buildPiece last (depth + 1)).run s₁ = (.ok tail, s₂) ∧
      s₂.pool.trailingSet? tail = some v ∧ v.register = dst ∧
      s'.stack = s₂.stack.push (.assign v f ordered {} none) ∧
      (s₂.pool.spliceTrailing tail).addSingle
        (.chain plan.kind (built ++ [lastEntry tail]) (some v) true true) = (f, s'.pool) := by
  obtain ⟨built, s₁, hbuilt, hrun⟩ := run_bind_eq_ok hrun
  obtain ⟨tail, s₂, htail, hrun⟩ := run_bind_eq_ok hrun
  obtain ⟨final, s₃, hfinal, hrun⟩ := run_bind_eq_ok hrun
  obtain ⟨v, rfl, hset, hreg, rfl⟩ := (chainFinal_takes hresult).of_run hfinal
  rw [hresult] at hrun
  have hpushed : (cx.pushControlValue ((built.head?.bind ChainEntry.branchSite).getD 0) v
      (.chain plan.kind (built ++ [lastEntry tail]) (some v) true true)
      { s₂ with pool := s₂.pool.spliceTrailing tail }).2 = s' := congrArg Prod.snd hrun
  obtain ⟨f, ordered, hstack, hpool⟩ : (cx.pushControlValue _ v _).Ends
    { s₂ with pool := s₂.pool.spliceTrailing tail } _ := pushControlValue_records
  rw [hpushed] at hstack hpool
  exact ⟨built, s₁, tail, s₂, v, f, ordered, hbuilt, htail, hset, hreg, hstack, hpool⟩

/-- A chain of blocks of integer code. -/
structure IntegerChain (cx : Context) (b n : Nat) : Prop where
  tests : ∀ id ∈ List.range' b n, ∃ block site branch, cx.IntegerTest id block site branch
  last : ∀ {block : Block}, cx.routine.blocks[b + n]? = some block →
    ∀ site ∈ block.sites, cx.IntegerAt site

/-- The word of a chain that has been built is the word of the blocks that it was built from. -/
theorem chainWord_eq_of_runs {program : List Statement} (hlays : cx.routine.LaysOut program)
    (hlast : cx.routine.ConsumesLast) {b n : Nat} (hresult : plan.result = some dst)
    (hadmits : List.Forall₂ (cx.routine.Admits plan.kind (b + n + 1) dst) (List.range' b n)
      plan.tests) (hblock : cx.routine.blocks[b + n]? = some block)
    (hnone : cx.routine.terminator (b + n) = .ok none) (hlt : block.start < block.stop)
    (hinteger : cx.IntegerChain b n) (hmode : s.verbatim = false) {built : List ChainEntry}
    {f : FormId} {s₁ s₂ : FoldState} {p : Pool}
    (hbuilt : ((((List.range' b n).map fun id => cx.piece (.block id)).zip plan.tests).mapM
      (cx.captureEntry plan depth)).run s = (.ok built, s₁))
    (htail : (buildPiece (cx.piece (.block (b + n))) (depth + 1)).run s₁ = (.ok tail, s₂))
    (hset : s₂.pool.trailingSet? tail = some v) (hreg : v.register = dst)
    (hpool : (s₂.pool.spliceTrailing tail).addSingle
      (.chain plan.kind (built ++ [lastEntry tail]) (some v) true true) = (f, p))
    (hclear : cx.chainClashes plan depth (b + n) ((List.range' b n).zip plan.tests) s = false)
    (hfirst : ∀ id ∈ List.range' (b + 1) n, cx.routine.readsFirst dst id = false) {M : Type}
    (machine : Processor M) (m : M) :
    p.chainWord machine.consts plan.kind ((built ++ [lastEntry tail]).map ChainEntry.condition)
        (machine.registers m) =
      machine.chainWord cx.routine plan.kind dst (List.range' b (n + 1)) m := by
  obtain ⟨hmode₁, ts, hconditions, howns₁, hclears⟩ := (captureEntries_tests hresult hadmits
    hinteger.tests (Pool.Owns.nil _) hmode (b + n)).of_run hbuilt
  obtain ⟨htests, hclear₁⟩ := hclears hclear
  obtain ⟨v', u, hu, hset', howns₂, hreturns⟩ := (buildPiece_returns hblock hnone hlt
    (hinteger.last hblock) howns₁ hmode₁).of_run htail
  cases hset.symm.trans hset'
  rw [chainClashes, hblock, Option.any_some] at hclear₁
  -- The trees of the entries, in order, are what the chain holds.
  have hids : (built ++ [lastEntry tail]).map ChainEntry.condition =
      (ts ++ [u]).map FormTree.id := by
    rw [map_append, hconditions, map_append, map_singleton, map_singleton, hu]
    rfl
  have hheld : (s₂.pool.spliceTrailing tail).Owns ((ts ++ [u]).map .tree) := by
    rw [append_nil] at howns₂
    rw [map_append]
    exact howns₂.perm (perm_append_singleton _ _).symm
  obtain ⟨rs, howns, hmem⟩ := hheld.trees_of_addSingle hpool hids
  rw [hids]
  exact chainWord_eq_of_tests hlast hlays htests (hreg ▸ hreturns hclear₁) howns hmem hfirst
    fun _ _ _ _ => rfl

/-- A chain of consecutive blocks that has a value leaves that value in its register.  On every
way through the blocks the register ends up with the false word if a test ends a conjunction, with
the word that is tested if it ends a disjunction, and else with what the last block leaves.  For
integer code that is also what the chain evaluates to.  Only where delay slots set the register to
false does it have to be checked that it is right on every way out. -/
theorem pushChain_keeps_value {name : String} {program : List Statement}
    (hr : assemble name program = .ok cx.routine) {b n : Nat}
    (hplan : cx.routine.chainPlan ((List.range' b n).map .block) (.block (b + n)) = .ok plan)
    (hresult : plan.result = some dst)
    (hrun : (cx.pushChain (((List.range' b (n + 1)).map Region.block).map cx.piece) depth).run s =
      (.ok (), s'))
    (hholds : (∃ test ∈ plan.tests, test.defaulted ≠ none) →
      cx.routine.exitsHold dst false (List.range' b n) = true) :
    ∃ v f ordered entries, v.register = dst ∧
      s'.stack = s.stack.push (.assign v f ordered {} none) ∧
      (s'.pool.single? f).map s'.pool.element =
        some (.chain plan.kind entries (some v) true true) ∧
      ∀ {M : Type} (machine : Processor M) (m : M), ∃ m',
        machine.RunsTo cx.routine (b + n + 1) b m m' ∧
        machine.chainWord cx.routine plan.kind dst (List.range' b (n + 1)) m =
          some (machine.registers m' dst) ∧
        (s.verbatim = false → cx.IntegerChain b n →
          cx.chainClashes plan depth (b + n) ((List.range' b n).zip plan.tests) s = false →
          (∀ id ∈ List.range' (b + 1) n, cx.routine.readsFirst dst id = false) →
          s'.pool.chainWord machine.consts plan.kind (entries.map ChainEntry.condition)
            (machine.registers m) = some (machine.registers m' dst)) := by
  have hlays := laysOut_of_assemble hr
  have hplans := Routine.chainPlan_plans hplan
  have hadmits := hplans.admits hresult
  obtain ⟨htested, block, hblock, hnone, hlt⟩ :=
    Routine.chainResult_eq_some hlays.id_eq (hresult ▸ hplans.result)
  have hexits : cx.routine.exitsHold dst false (List.range' b n) = true := by
    by_cases hdefault : ∃ test ∈ plan.tests, test.defaulted ≠ none
    · exact hholds hdefault
    · push Not at hdefault
      exact Routine.exitsHold_of_admits hadmits hdefault
        (Routine.onlyTested?_of_chainRegister? hdefault htested) false
  have hitems : (List.range' b (n + 1)).map Region.block =
      (List.range' b n).map .block ++ [.block (b + n)] := by
    rw [List.range'_1_concat, List.map_append, List.map_singleton]
  rw [hitems, pushChain_eq List.getLast?_concat, List.dropLast_concat, hplan] at hrun
  have hpushed : (cx.pushPlannedChain plan (((List.range' b n).map Region.block).map cx.piece)
    (cx.piece (.block (b + n))) depth).run s = (.ok (), s') := hrun
  rw [List.map_map] at hpushed
  obtain ⟨built, s₁, tail, s₂, v, f, ordered, hbuilt, htail, hset, hreg, hstack, hpool⟩ :=
    pushPlannedChain_eq_ok hresult hpushed
  obtain ⟨hstack₁, hentries⟩ := (captureEntries_entryAt hadmits).of_run hbuilt
  have hstack₂ : s₂.stack = s₁.stack := buildPiece_stack.of_run htail
  have hsingle := Pool.Extends.single?_addSingle (.refl ((s₂.pool.spliceTrailing tail).addSingle
    (.chain plan.kind (built ++ [lastEntry tail]) (some v) true true)).2)
  rw [hpool] at hsingle
  refine ⟨v, f, ordered, _, hreg, ?_, hsingle, fun {M} machine m => ?_⟩
  · rw [hstack, hstack₂, hstack₁]
  · obtain ⟨m', hruns, hword⟩ := Routine.exists_runsTo_of_exitsHold machine m
      (fun id hle hlt => hentries id (List.mem_range'_1.2 ⟨hle, hlt⟩)) ⟨block, hblock, hnone⟩ hexits
      (fun h => by cases h)
    refine ⟨m', hruns, hword, fun hmode hinteger hclear hfirst => ?_⟩
    rw [← hword]
    exact chainWord_eq_of_runs hlays (Routine.consumesLast_of_assemble hr) hresult hadmits hblock
      hnone hlt hinteger hmode hbuilt htail hset hreg hpool hclear hfirst machine m

/-- A conjunction of two tests.  One of them sets the result to false in its delay slot; the other
one relies on that, if it comes second. -/
def bothOrFalse (early : Bool) : List Statement :=
  let defaulting : Statement := .branch .zero [.register ⟨5⟩] "end" false
    (some ⟨.v0, .identity, [.symbol "#f"]⟩)
  let relying : Statement := .branch .falsy [.register ⟨4⟩] "end" false none
  (if early then [defaulting, relying] else [relying, defaulting]) ++
    [.move .v0 (.register ⟨6⟩), .label "end"]

/-- The branch that sets the result to false. -/
def defaultingTest (site : Nat) : Branch where
  condition := ⟨.zero, [.var (.read ⟨5⟩ site)]⟩
  likely := false
  target := 3
  delay := some (.set (.write .v0 site) ⟨.identity, [.falsehood]⟩)

def relyingTest (site : Nat) : Branch where
  condition := ⟨.falsy, [.var (.read ⟨4⟩ site)]⟩
  likely := false
  target := 3
  delay := none

def bothOrFalseRoutine (early : Bool) : Routine where
  name := "both-or-false"
  code := #[
    if early then ⟨.branch (defaultingTest 0), .single ⟨5⟩⟩
    else ⟨.branch (relyingTest 0), .single ⟨4⟩⟩,
    if early then ⟨.branch (relyingTest 1), .single ⟨4⟩⟩
    else ⟨.branch (defaultingTest 1), .single ⟨5⟩⟩,
    ⟨.set (.write .v0 2) ⟨.identity, [.var (.read ⟨6⟩ 2)]⟩, .single ⟨6⟩⟩]
  blocks := #[⟨0, 0, 1, [1, 3]⟩, ⟨1, 1, 2, [2, 3]⟩, ⟨2, 2, 3, [3]⟩, ⟨3, 3, 3, []⟩]
  labels := [("end", 3), ("epilogue", 3)]
  epilogue := some 3
  resultRegister := .v0

def bothOrFalsePlan (early : Bool) : ChainPlan where
  kind := .conjunction
  tests :=
    if early then [⟨defaultingTest 0, some (.write .v0 0), .conjunction⟩,
      ⟨relyingTest 1, none, .conjunction⟩]
    else [⟨relyingTest 0, none, .conjunction⟩,
      ⟨defaultingTest 1, some (.write .v0 1), .conjunction⟩]
  result := some .v0

theorem chainPlan_bothOrFalse (early : Bool) : (bothOrFalseRoutine early).chainPlan
    ((List.range' 0 2).map .block) (.block 2) = .ok (bothOrFalsePlan early) := by
  cases early <;> rfl

/-- Folds the two tests and the block behind them into a chain. -/
def pushBothOrFalse (early : Bool) : Except Error Unit × FoldState :=
  let cx := untyped (bothOrFalseRoutine early)
  (cx.pushChain (((List.range' 0 3).map Region.block).map cx.piece) 0).run (.start .empty)

theorem pushBothOrFalse_eq (early : Bool) :
    pushBothOrFalse early = (.ok (), (pushBothOrFalse early).2) := by
  have hchecked : ∀ early, (pushBothOrFalse early).1.toOption = some () := by decide +kernel
  have hok := hchecked early
  generalize pushBothOrFalse early = outcome at hok ⊢
  obtain ⟨result, s'⟩ := outcome
  cases result with
  | error e => cases hok
  | ok => rfl

theorem integerChain_bothOrFalse : (untyped (bothOrFalseRoutine true)).IntegerChain 0 2 := by
  have hfloats : ∀ rs : RegisterSet, (∀ q ∈ rs, q.isFloat = false) →
      (untyped (bothOrFalseRoutine true)).env.NoFloats rs := fun rs h => noFloats_of_no_types _ h
  constructor
  · intro id hid
    rcases mem_pair.1 hid with rfl | rfl
    · refine ⟨⟨0, 0, 1, [1, 3]⟩, 0, defaultingTest 0, rfl, rfl, ?_, rfl, ?_, hfloats _ (by decide)⟩
      · exact fun k _ hk => absurd hk (Nat.not_lt_zero k)
      · rintro op ⟨⟩
        rfl
    · refine ⟨⟨1, 1, 2, [2, 3]⟩, 1, relyingTest 1, rfl, rfl, ?_, rfl, ?_, hfloats _ (by decide)⟩
      · exact fun k hk hk' => absurd hk (Nat.not_le_of_lt hk')
      · rintro op ⟨⟩
  · rintro _ ⟨⟩ site hsite
    obtain rfl : site = 2 := mem_singleton.1 hsite
    exact ⟨_, rfl, rfl, hfloats _ (by decide)⟩

/-- When the test that sets the result comes first, the result is right on all ways out. -/
theorem pushBothOrFalse_keeps_value :
    assemble "both-or-false" (bothOrFalse true) = .ok (bothOrFalseRoutine true) ∧
    ∃ v f ordered entries s', pushBothOrFalse true = (.ok (), s') ∧ v.register = .v0 ∧
      s'.stack = Stack.empty.push (.assign v f ordered {} none) ∧
      (s'.pool.single? f).map s'.pool.element =
        some (.chain .conjunction entries (some v) true true) ∧
      ∀ (consts : Constants) (m : PlainState), ∃ m',
        (plainMachine consts).RunsTo (bothOrFalseRoutine true) 3 0 m m' ∧
        (plainMachine consts).chainWord (bothOrFalseRoutine true) .conjunction .v0 [0, 1, 2] m =
          some (m'.registers .v0) ∧
        s'.pool.chainWord consts .conjunction (entries.map ChainEntry.condition) m.registers =
          some (m'.registers .v0) := by
  have hr : assemble "both-or-false" (bothOrFalse true) = .ok (bothOrFalseRoutine true) := by cbv
  have hholds : (bothOrFalseRoutine true).exitsHold .v0 false [0, 1] = true := by decide
  have hclear : (untyped (bothOrFalseRoutine true)).chainClashes (bothOrFalsePlan true) 0 2
      ([0, 1].zip (bothOrFalsePlan true).tests) (.start .empty) = false := by decide +kernel
  have hfirst : ∀ id ∈ [1, 2], (bothOrFalseRoutine true).readsFirst .v0 id = false := by decide
  obtain ⟨v, f, ordered, entries, hv, hstack, helem, hvalue⟩ := pushChain_keeps_value
    hr (chainPlan_bothOrFalse true) rfl (pushBothOrFalse_eq true) fun _ => hholds
  refine ⟨hr, v, f, ordered, entries, _, pushBothOrFalse_eq true, hv, hstack, helem, ?_⟩
  intro consts m
  obtain ⟨m', hruns, hword, hsame⟩ := hvalue (plainMachine consts) m
  exact ⟨m', hruns, hword, hsame rfl integerChain_bothOrFalse hclear hfirst⟩

/-- When it comes second, the first test leaves in the register what it held before, where the
chain is false. -/
theorem pushBothOrFalse_keeps_old_value :
    assemble "both-or-false" (bothOrFalse false) = .ok (bothOrFalseRoutine false) ∧
    ∃ v f ordered entries s', pushBothOrFalse false = (.ok (), s') ∧ v.register = .v0 ∧
      s'.stack = Stack.empty.push (.assign v f ordered {} none) ∧
      (s'.pool.single? f).map s'.pool.element =
        some (.chain .conjunction entries (some v) true true) ∧
      ∃ m m' : PlainState,
        (plainMachine fun _ => 0).RunsTo (bothOrFalseRoutine false) 3 0 m m' ∧
        (plainMachine fun _ => 0).chainWord (bothOrFalseRoutine false) .conjunction .v0 [0, 1, 2]
          m = some 0 ∧
        s'.pool.chainWord (fun _ => 0) .conjunction (entries.map ChainEntry.condition)
          m.registers = some 0 ∧
        m'.registers .v0 = 1 := by
  let m : PlainState := ⟨fun q => if q = .v0 then 1 else 0, fun _ _ _ => 0⟩
  have hstack : (pushBothOrFalse false).2.stack =
      Stack.empty.push (.assign (.write .v0 2) ⟨6⟩ false {} none) := by decide +kernel
  have helem : ((pushBothOrFalse false).2.pool.single? ⟨6⟩).map
      (pushBothOrFalse false).2.pool.element = some (.chain .conjunction
        [⟨⟨1⟩, some 0, false, true⟩, ⟨⟨3⟩, some 1, true, true⟩, ⟨⟨5⟩, none, false, true⟩]
        (some (.write .v0 2)) true true) := by decide +kernel
  have hword : (pushBothOrFalse false).2.pool.chainWord (fun _ => 0) .conjunction [⟨1⟩, ⟨3⟩, ⟨5⟩]
      m.registers = some 0 := by decide +kernel
  have hblock : (bothOrFalseRoutine false).blocks[0]? = some ⟨0, 0, 1, [1, 3]⟩ := rfl
  have hbranch : (bothOrFalseRoutine false).terminator 0 = .ok (some (0, relyingTest 0)) := rfl
  have hruns : (plainMachine fun _ => 0).RunsTo (bothOrFalseRoutine false) 3 0 m m :=
    .taken (by decide : (0 : BlockId) ≠ 3) hblock hbranch rfl rfl
  exact ⟨by cbv, _, _, _, _, _, pushBothOrFalse_eq false, rfl, hstack, helem, m, m, hruns, rfl,
    hword, rfl⟩

end Context

end Decompiler
