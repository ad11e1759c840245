import Decompiler.Proofs.Flow.Following
import Decompiler.Proofs.Structure.Shape

/-!
Built trees follow the branches.  Each kind of region runs like its blocks if its parts do,
and so does the tree of a region as a whole.
-/

namespace Decompiler

open List Routine Region

variable {S : Pairing} {n : Node FormTree} {clean : Bool} {rest : List RegionAccount}

/-- No idioms that replace blocks or the tests of branches. -/
structure Config.KeepsBranches (config : Config) : Prop where
  abs : config.allows .abs = false
  ash : config.allows .ash = false
  typeOf : config.allows .typeOf = false
  floatCompare : config.allows .floatCompare = false

namespace Pairing

variable {b m c : Nat} {test : FormId} {items : List RegionAccount} {tests : List FormTree}

theorem leads_element (h : S.pool.HoldsNode n) {tasks : List Task}
    (htasks : n.element.tasks? n.id = some tasks) (rest : List Task) (trace : List Nat) :
    S.pool.walk.Leads S.oracle ([.element n.id] ++ rest, trace) (tasks ++ rest, trace) :=
  Pool.leads_element (by rw [h.element_eq]; exact htasks)

variable {body : FormId} {emit : Bool} {t : FormTree} {item : RegionAccount} {α : Type}
  {finish : Nat} {arms : List (RegionAccount × RegionAccount)} {bodies : List FormTree}
  {alt : Option RegionAccount}

/-- Tasks follow the blocks if they do once every longer list of branches leads there. -/
theorem follows_of_rounds {tasks : List Task} (h : ∀ bound trace,
      (∀ trace', trace.length < trace'.length → S.FollowsFrom bound trace' b tasks c) →
        S.FollowsFrom bound trace b tasks c) : S.Follows b tasks c := by
  intro bound trace
  -- Every round executes a branch, so the rounds that are left below the bound decrease.
  induction hrounds : bound + 1 - trace.length using Nat.strongRecOn generalizing trace with
  | ind rounds ih =>
    by_cases hbeyond : bound < trace.length
    · exact fun rest => .of_lt hbeyond
    · exact h bound trace fun trace' hlt => ih _ (by omega) trace' rfl

/-- A loop that tests first follows the blocks if its body leads back to the test. -/
theorem Decides.follows_while (hnode : S.pool.HoldsNode n)
    (helem : n.element = .loop .whileTrue test body clean) (htest : S.Decides b test m c)
    (hbody : S.Follows m [.form body] b) : S.Follows b [.element n.id] c := by
  refine follows_of_rounds fun bound trace ih => ?_
  refine FollowsFrom.of_leads (fun rest => leads_element hnode (by rw [helem]; rfl) rest _) ?_
  apply htest
  · intro trace' hlt
    refine (hbody bound trace').append fun trace'' hprefix => ?_
    exact ih trace'' (Nat.lt_of_lt_of_le hlt hprefix.length_le)
  · exact fun trace' _ => follows_nil c bound trace'

/-- A loop that tests last follows the blocks if its test leads back to the body. -/
theorem Decides.follows_until (hnode : S.pool.HoldsNode n)
    (helem : n.element = .loop .untilTrue test body clean) (htest : S.Decides m test c b)
    (hbody : S.Follows b [.form body] m) : S.Follows b [.element n.id] c := by
  refine follows_of_rounds fun bound trace ih => ?_
  refine FollowsFrom.of_leads (fun rest => leads_element hnode (by rw [helem]; rfl) rest _) ?_
  refine (hbody bound trace).append fun trace' hprefix => ?_
  apply htest
  · exact fun trace'' _ => follows_nil c bound trace''
  · exact fun trace'' hlt => ih trace'' (Nat.lt_of_le_of_lt hprefix.length_le hlt)

theorem Decides.follows {holds fails : Nat} {yes no : List Task}
    (htest : S.Decides b test holds fails) (hyes : S.Follows holds yes c)
    (hno : S.Follows fails no c) : S.Follows b [.test test yes no] c := fun bound trace =>
  htest bound trace yes no c (fun trace' _ => hyes bound trace') fun trace' _ => hno bound trace'

/-- A control region has no branch of its own at its end. -/
theorem controlAccount_matches {region : Region} {deposit : Deposit}
    (hregion : S.context.routine.regionTerminator region = .ok none)
    (h : ∀ b c, Spans region.blockIds b c → c ≤ S.stop → S.Runs deposit b c) :
    S.Matches (Context.controlAccount region deposit) where
  whole := h
  body b c entry _ _ hterm := by
    rw [Context.controlAccount, hregion] at hterm
    cases hterm

theorem sees_kid (hnode : S.pool.HoldsNode n) (hmarks : Structured n.marks) (ht : t ∈ n.kids) :
    S.Sees t :=
  ⟨hnode.below t ht, (structured_add.1 hmarks).2.of_mem ht⟩

/-- The first of some regions starts where all of them do. -/
theorem firstBlock_of_spans {x : BlockId}
    (hspans : Spans ((item :: rest).flatMap fun item => item.region.blockIds) b c)
    (hx : some x = item.region.firstBlock?) : x = b := by
  rw [flatMap_cons] at hspans
  obtain ⟨m, hfirst, -⟩ := hspans.append
  exact (hfirst.head hx.symm).1

theorem dropLast_getLastD (first : α) (rest : List α) :
    (first :: rest).dropLast ++ [rest.getLastD first] = first :: rest := by
  rw [← getLast_eq_getLastD]
  exact dropLast_append_getLast (cons_ne_nil first rest)

theorem spans_dropLast {first : RegionAccount}
    (hspans : Spans ((first :: rest).flatMap fun item => item.region.blockIds) b c) :
    ∃ m, Spans ((first :: rest).dropLast.flatMap fun item => item.region.blockIds) b m ∧
      Spans (rest.getLastD first).region.blockIds m c := by
  rw [← dropLast_getLastD first rest, flatMap_append, flatMap_singleton] at hspans
  exact hspans.append

theorem mem_of_mem_dropLast {a first : α} {rest : List α}
    (h : a ∈ (first :: rest).dropLast ∨ a = rest.getLastD first) : a ∈ first :: rest := by
  rw [← dropLast_getLastD first rest, mem_append, mem_singleton]
  exact h

/-- The forms of arms, as tasks name them. -/
def armForms (tests bodies : List FormTree) : List (FormId × FormId) :=
  (tests.map FormTree.id).zip (bodies.map FormTree.id)

/-- The body of an arm leads to the end of the conditional. -/
theorem follows_arm (h : S.Matches item) (hspans : Spans item.region.blockIds b c) (hc : c ≤ S.stop)
    {required : Bool} (hlast : required = false → c = finish)
    (harm : S.context.ArmMakes finish required item t) (hsees : S.Sees t) :
    S.Follows b [.form t.id] finish := by
  obtain ⟨jump, hjump, hmakes⟩ := harm
  cases jump with
  | none =>
    rw [← hlast (armJump_eq_none hjump)]
    exact (h.whole b c hspans hc).follows_of_makes hmakes hsees
  | some entry =>
    obtain ⟨site, branch⟩ := entry
    obtain ⟨hterm, hisJump, rfl⟩ := armJump_eq_some hjump
    exact (h.throughDelay hspans hc hterm hisJump).follows_of_makes hmakes hsees

theorem conditionalElement_tasks? (e : ElementId) (captured : List CapturedTest)
    (bodies : List FormId) (other : Option FormId) :
    (Context.conditionalElement captured bodies other none).tasks? e =
      some (Task.arms (other.toList.map .form) ((captured.map CapturedTest.form).zip bodies)) := by
  cases other with
  | none =>
    rw [Context.conditionalElement, Element.tasks?, map_map, zip_map_left]
    rfl
  | some alt =>
    rw [Context.conditionalElement, Element.tasks?, map_map, zip_map_left]
    rfl

variable (hconfig : S.context.config.KeepsBranches)
include hconfig

/-- A block runs like itself. -/
theorem blockAccount_matches (id : BlockId) :
    S.Matches (S.context.blockAccount id) where
  whole b c hspans hc := by
    obtain ⟨rfl, -⟩ := hspans.head rfl
    obtain ⟨rfl, -⟩ : c = id + 1 ∧ id ≤ id := hspans.last rfl
    rintro A D (⟨hidiom, -⟩ | hblock)
    · cases hidiom with
      | abs hallowed =>
        rw [hconfig.abs] at hallowed
        cases hallowed
    · revert A D
      refine Runs.seq (runs_ofMarks fun A hA hmarks => ⟨hA.quiet hmarks, follows_nil id⟩)
        (runs_ofMarks fun A hA hmarks => ?_)
      obtain ⟨terminator, hterm, hleaves⟩ := hA
      cases terminator with
      | none =>
        rw [show A = 0 from hleaves]
        exact ⟨quiet_zero, follows_of_go (flow_of_none hc hterm)⟩
      | some entry =>
        obtain ⟨site, branch⟩ := entry
        dsimp only at hleaves
        split at hleaves
        · rename_i hnext
          rw [Bool.and_eq_true, beq_iff_eq] at hnext
          refine ⟨hleaves.quiet hmarks, follows_of_go ?_⟩
          rw [← hnext.2]
          exact flow_of_jump hc hterm hnext.1
        · -- A branch that stays as it is leaves its mark.
          exfalso
          obtain ⟨block, -, -, -, instr, hcode, hop⟩ := terminator_eq_some hterm
          cases hleaves with
          | cons hinstr hbranch hrest =>
            rw [instruction_eq_ok, hcode] at hinstr
            cases hinstr
            rw [hop] at hbranch
            rw [show _ = {Mark.branch site} from hbranch, structured_add] at hmarks
            exact absurd (hmarks.1 _ (Multiset.mem_singleton_self _)) Bool.false_ne_true
  body b c entry hspans hc hterm := by
    obtain ⟨rfl, -⟩ := hspans.head rfl
    obtain ⟨hlast, -⟩ : c + 1 = id + 1 ∧ id ≤ id := hspans.last rfl
    cases Nat.succ.inj hlast
    exact runs_ofMarks fun A hA hmarks => ⟨hA.quiet hmarks, follows_nil id⟩

/-- Regions one after another run like their blocks. -/
theorem itemsDeposit_runs (h : ∀ item ∈ items, S.Matches item)
    (hspans : Spans (items.flatMap fun item => item.region.blockIds) b c) (hc : c ≤ S.stop) :
    S.Runs (S.context.ItemsDeposit items) b c := by
  intro A D hdeposit hmarks hholds
  induction hdeposit generalizing b with
  | nil =>
    obtain rfl := hspans.eq_of_nil
    exact ⟨quiet_zero, .nil (follows_nil b)⟩
  | idiom hidiom hitems hrest ih =>
    exfalso
    cases hidiom with
    | abs hallowed =>
      rw [hconfig.abs] at hallowed
      cases hallowed
    | ash hallowed =>
      rw [hconfig.ash] at hallowed
      cases hallowed
    | typeOf hallowed =>
      rw [hconfig.typeOf] at hallowed
      cases hallowed
  | @item item rest A A' D D' hitem hrest ih =>
    rw [flatMap_cons] at hspans
    obtain ⟨m, hfirst, hothers⟩ := hspans.append
    rw [map_append, sum_append, add_add_add_comm, structured_add] at hmarks
    obtain ⟨hquiet, hfollows⟩ := (h item mem_cons_self).whole b m hfirst
      (Nat.le_trans hothers.1 hc) A D hitem hmarks.1 fun n hn => hholds n (mem_append_left _ hn)
    obtain ⟨hquiet', hfollows'⟩ := ih (fun item hitem => h item (mem_cons_of_mem _ hitem))
      hothers hmarks.2 fun n hn => hholds n (mem_append_right _ hn)
    exact ⟨quiet_add.2 ⟨hquiet, hquiet'⟩, hfollows.append hfollows'⟩

theorem sequenceAccount_matches (h : ∀ item ∈ items, S.Matches item) :
    S.Matches (S.context.sequenceAccount items) where
  whole b c hspans hc := by
    rw [Context.sequenceAccount, blockIds_sequence, flatMap_map] at hspans
    exact itemsDeposit_runs hconfig h hspans hc
  body b c entry hspans hc hterm := by
    rw [Context.sequenceAccount, blockIds_sequence, flatMap_map] at hspans
    rw [Context.sequenceAccount, regionTerminator_sequence, getLast?_map] at hterm
    rcases eq_nil_or_concat items with rfl | ⟨init, last, rfl⟩
    · cases hterm
    rw [concat_eq_append] at h hspans hterm ⊢
    rw [getLast?_concat] at hterm
    rw [flatMap_append, flatMap_singleton] at hspans
    obtain ⟨m, hinit, hlast⟩ := hspans.append
    unfold Context.sequenceAccount
    dsimp only
    rw [getLast?_concat, dropLast_concat]
    refine Runs.seq (itemsDeposit_runs hconfig (fun item hitem => ?_) hinit ?_)
      ((h last (mem_append_right _ mem_cons_self)).body m c entry hlast hc hterm)
    · exact h item (mem_append_left _ hitem)
    · obtain ⟨id, hid, -⟩ := regionTerminator_eq_some hterm
      obtain ⟨hend, hle⟩ := hlast.last hid
      omega

section Loop

variable {first : RegionAccount} {test body : FormTree} {site : Nat}

section

variable (h : ∀ item ∈ first :: rest, S.Matches item)
  (hspans : Spans ((first :: rest).flatMap fun item => item.region.blockIds) b c) (hc : c ≤ S.stop)
include h hspans hc

/-- A loop that is entered at its test follows the blocks from the test on. -/
theorem follows_entersAtTest {jump : Branch}
    (hlayout : S.context.routine.LaidOut first.region (rest.getLastD first).region
      (rest.map RegionAccount.region) (.entersAtTest site jump))
    (hbody : Deposit.Makes (S.context.ItemsDeposit rest.dropLast) body)
    (htest : S.context.Captures (rest.getLastD first) false true test) (hbodySeen : S.Sees body)
    (htestSeen : S.Sees test) (hnode : S.pool.HoldsNode n)
    (helem : n.element = .loop .whileTrue test.id body.id clean) :
    S.Follows jump.target [.element n.id] c := by
  cases hlayout with
  | @entersAtTest _ backSite _ back second hsecond hjump hisJump htarget hback hbackTarget =>
    cases rest with
    | nil => cases hsecond
    | cons next more =>
      rw [getLastD_cons] at htarget hback htest
      cases hsecond
      rw [flatMap_cons] at hspans
      obtain ⟨m, -, hrest⟩ := hspans.append
      obtain ⟨l, hinit, hlast⟩ := spans_dropLast hrest
      have hl : jump.target = l := (hlast.head htarget.symm).1
      have hm : back.target = m := firstBlock_of_spans hrest hbackTarget
      have hmem : ∀ item ∈ next :: more, S.Matches item := fun item hitem =>
        h item (mem_cons_of_mem _ hitem)
      have htestDecides := (hmem _ (mem_of_mem_dropLast (.inr rfl))).decides hconfig.floatCompare
        hlast hc (expectBranch_eq_ok hback).1 htest htestSeen
      have hbodyRuns : S.Runs (S.context.ItemsDeposit (next :: more).dropLast) m l :=
        itemsDeposit_runs hconfig (fun item hitem => hmem item (mem_of_mem_dropLast (.inl hitem)))
          hinit (Nat.le_trans hlast.1 hc)
      rw [hl]
      rw [hm] at htestDecides
      exact htestDecides.follows_while hnode helem (hbodyRuns.follows_of_makes hbody hbodySeen)

/-- A loop that tests after its body follows the blocks. -/
theorem follows_testsLast
    (hlayout : S.context.routine.LaidOut first.region (rest.getLastD first).region
      (rest.map RegionAccount.region) .testsLast)
    (hbody : Deposit.Makes (S.context.ItemsDeposit (first :: rest).dropLast) body)
    (htest : S.context.Captures (rest.getLastD first) true true test)
    (hbodySeen : S.Sees body) (htestSeen : S.Sees test) (hnode : S.pool.HoldsNode n)
    (helem : n.element = .loop .untilTrue test.id body.id clean) :
    S.Follows b [.element n.id] c := by
  cases hlayout with
  | testsLast hback hisJump htarget =>
    obtain ⟨l, hinit, hlast⟩ := spans_dropLast hspans
    have hb := firstBlock_of_spans hspans htarget
    have htestDecides := (h _ (mem_of_mem_dropLast (.inr rfl))).decides hconfig.floatCompare
      hlast hc hback htest htestSeen
    have hbodyRuns : S.Runs (S.context.ItemsDeposit (first :: rest).dropLast) b l :=
      itemsDeposit_runs hconfig (fun item hitem => h item (mem_of_mem_dropLast (.inl hitem)))
        hinit (Nat.le_trans hlast.1 hc)
    rw [hb] at htestDecides
    exact htestDecides.follows_until hnode helem (hbodyRuns.follows_of_makes hbody hbodySeen)

/-- A loop that tests before its body follows the blocks. -/
theorem follows_testsFirst {back : Branch}
    (hlayout : S.context.routine.LaidOut first.region (rest.getLastD first).region
      (rest.map RegionAccount.region) (.testsFirst site back))
    (htest : S.context.Captures first true true test)
    (hbody : Deposit.Makes ((S.context.ItemsDeposit rest.dropLast).seq
      (Context.ThroughDelay (rest.getLastD first) site back)) body) (hbodySeen : S.Sees body)
    (htestSeen : S.Sees test) (hnode : S.pool.HoldsNode n)
    (helem : n.element = .loop .whileTrue test.id body.id clean) :
    S.Follows b [.element n.id] c := by
  cases hlayout with
  | testsFirst hrest hleave hleaveTarget hback htarget =>
    cases rest with
    | nil => exact absurd rfl hrest
    | cons next more =>
      rw [getLastD_cons] at hleaveTarget hback hbody
      have hb := firstBlock_of_spans hspans htarget
      rw [flatMap_cons] at hspans
      obtain ⟨m, hfirst, hothers⟩ := hspans.append
      obtain ⟨l, hinit, hlast⟩ := spans_dropLast hothers
      have hmem : ∀ item ∈ next :: more, S.Matches item := fun item hitem =>
        h item (mem_cons_of_mem _ hitem)
      obtain ⟨id, hid, hleaveEq⟩ := Option.map_eq_some_iff.1 hleaveTarget.symm
      obtain ⟨hc', -⟩ := hlast.last hid
      have htestDecides := (h first mem_cons_self).decides hconfig.floatCompare hfirst
        (Nat.le_trans hothers.1 hc) (expectBranch_eq_ok hleave).1 htest htestSeen
      obtain ⟨hterm, hjump⟩ := expectBranch_eq_ok hback
      have hbodyRuns : S.Runs ((S.context.ItemsDeposit (next :: more).dropLast).seq
          (Context.ThroughDelay (more.getLastD next) site back)) m back.target :=
        (itemsDeposit_runs hconfig (fun item hitem => hmem item (mem_of_mem_dropLast (.inl hitem)))
          hinit (Nat.le_trans hlast.1 hc)).seq
          ((hmem _ (mem_of_mem_dropLast (.inr rfl))).throughDelay hlast hc hterm hjump)
      rw [hb] at hbodyRuns
      rw [← hleaveEq, ← hc'] at htestDecides
      exact htestDecides.follows_while hnode helem (hbodyRuns.follows_of_makes hbody hbodySeen)

end

/-- A loop runs like its blocks. -/
theorem loopDeposit_runs (h : ∀ item ∈ items, S.Matches item)
    (hspans : Spans (items.flatMap fun item => item.region.blockIds) b c) (hc : c ≤ S.stop) :
    S.Runs (S.context.LoopDeposit items) b c := by
  intro A D hdeposit hmarks hholds
  cases hdeposit with
  | @entersAtTest first rest site jump A D test body clean e hlayout hfirst hbody htest =>
    rw [map_append, sum_append, ← add_assoc, structured_add, map_singleton, sum_singleton] at hmarks
    have hnode := hholds _ (mem_append_right _ mem_cons_self)
    have hlaid := loopLayout_laidOut hlayout
    have hfollows := follows_entersAtTest hconfig h hspans hc hlaid hbody htest
      (sees_kid hnode hmarks.2 (mem_cons_of_mem _ mem_cons_self))
      (sees_kid hnode hmarks.2 mem_cons_self) hnode rfl
    cases hlaid with
    | entersAtTest hsecond hjump hisJump htarget hback hbackTarget =>
      rw [flatMap_cons] at hspans
      obtain ⟨m, hstart, hothers⟩ := hspans.append
      obtain ⟨hquiet, hnodes⟩ := (h first mem_cons_self).throughDelay hstart
        (Nat.le_trans hothers.1 hc) hjump hisJump A D hfirst hmarks.1
        fun n hn => hholds n (mem_append_left _ hn)
      exact ⟨hquiet, hnodes.append (.cons hfollows (.nil (follows_nil c)))⟩
  | @testsLast first rest test body clean e hlayout hbody htest =>
    rw [zero_add, map_singleton, sum_singleton] at hmarks
    have hnode := hholds _ mem_cons_self
    have hfollows := follows_testsLast hconfig h hspans hc (loopLayout_laidOut hlayout)
      hbody htest (sees_kid hnode hmarks mem_cons_self)
      (sees_kid hnode hmarks (mem_cons_of_mem _ mem_cons_self)) hnode rfl
    exact ⟨quiet_zero, .cons hfollows (.nil (follows_nil c))⟩
  | @testsFirst first rest site back test body clean e hlayout htest hbody =>
    rw [zero_add, map_singleton, sum_singleton] at hmarks
    have hnode := hholds _ mem_cons_self
    have hfollows := follows_testsFirst hconfig h hspans hc (loopLayout_laidOut hlayout)
      htest hbody (sees_kid hnode hmarks (mem_cons_of_mem _ mem_cons_self))
      (sees_kid hnode hmarks mem_cons_self) hnode rfl
    exact ⟨quiet_zero, .cons hfollows (.nil (follows_nil c))⟩

end Loop

/-- Arms lead to the end of the conditional if what comes after them does. -/
theorem follows_arms {alt : Bool} {other : List Task} (hother : S.Follows m other finish)
    (hm : m ≤ S.stop) (hnone : alt = false → m = finish) {branches : List (Nat × Branch)}
    (htests : List.Forall₂ (fun arm t => S.context.Captures arm.1 true emit t) arms tests)
    (h : ∀ arm ∈ arms, S.Matches arm.1 ∧ S.Matches arm.2)
    (hspans : Spans (arms.flatMap fun arm => arm.1.region.blockIds ++ arm.2.region.blockIds) b m)
    (hbranches : S.context.routine.skippingBranches (some m) (arms.map fun arm => arm.1.region) =
      .ok branches) (hbodies : S.context.ArmsMake finish alt (arms.map Prod.snd) bodies)
    (htestsSeen : ∀ t ∈ tests, S.Sees t) (hbodiesSeen : ∀ t ∈ bodies, S.Sees t) :
    S.Follows b (Task.arms other (armForms tests bodies)) finish := by
  induction htests generalizing b bodies branches with
  | nil =>
    obtain rfl := hspans.eq_of_nil
    cases hbodies with
    | nil => exact hother
  | @cons arm t arms tests htest htests ih =>
    rw [map_cons] at hbodies hbranches
    rw [flatMap_cons, append_assoc] at hspans
    obtain ⟨q, htestSpans, hrest⟩ := hspans.append
    obtain ⟨next, hbodySpans, hothers⟩ := hrest.append
    obtain ⟨hmatchTest, hmatchBody⟩ := h arm mem_cons_self
    obtain ⟨site, branch, branches', hbranch, htarget, hbranches'⟩ :=
      skippingBranches_cons hbranches
    -- The branch leads to the next test, or to what comes after the arms.
    have hnext : branch.target = next := by
      cases arms with
      | nil =>
        rw [← hothers.eq_of_nil] at htarget
        exact Option.some.inj htarget
      | cons arm' arms' =>
        rw [flatMap_cons, append_assoc] at hothers
        obtain ⟨_, hfirst, -⟩ := hothers.append
        exact (hfirst.head htarget.symm).1
    cases hbodies with
    | @cons _ _ body bodies harm hbodies =>
      have hdecides := hmatchTest.decides hconfig.floatCompare htestSpans
        (Nat.le_trans hrest.1 hm) (expectBranch_eq_ok hbranch).1 htest
        (htestsSeen t mem_cons_self)
      have hbody := follows_arm hmatchBody hbodySpans (Nat.le_trans hothers.1 hm)
        (fun hrequired => ?_) harm (hbodiesSeen body mem_cons_self)
      · have hlater := ih (fun arm harm => h arm (mem_cons_of_mem _ harm)) hothers hbranches'
          hbodies (fun t ht => htestsSeen t (mem_cons_of_mem _ ht))
          (fun t ht => hbodiesSeen t (mem_cons_of_mem _ ht))
        rw [hnext] at hdecides
        exact hdecides.follows hbody hlater
      · -- Only the last arm of a conditional without an alternative need not jump.
        rw [Bool.or_eq_false_iff, Bool.not_eq_false', List.isEmpty_iff, map_eq_nil_iff]
          at hrequired
        obtain ⟨hfalse, rfl⟩ := hrequired
        rw [hothers.eq_of_nil]
        exact hnone hfalse

section

variable (h : ∀ arm ∈ arms, S.Matches arm.1 ∧ S.Matches arm.2)
  (hother : ∀ item ∈ alt, S.Matches item)
  (hspans : Spans ((arms.flatMap fun arm => arm.1.region.blockIds ++ arm.2.region.blockIds) ++
    alt.toList.flatMap fun item => item.region.blockIds) b c)
  (hc : c ≤ S.stop)
include h hother hspans hc

/-- The parts of a conditional lead to its end. -/
theorem follows_conditional {other : Option FormTree}
    (hparts : S.context.ConditionalParts arms alt emit tests bodies other)
    (hsees : ∀ t ∈ tests ++ (other.toList ++ bodies), S.Sees t) :
    S.Follows b (Task.arms (other.toList.map fun t => .form t.id) (armForms tests bodies)) c := by
  obtain ⟨⟨last, block, branches, hlast, hblock, hbranches, hbodies⟩, htests, hothers⟩ := hparts
  obtain ⟨m, harms, hrest⟩ := hspans.append
  have htestsSeen : ∀ t ∈ tests, S.Sees t := fun t ht => hsees t (mem_append_left _ ht)
  have hbodiesSeen : ∀ t ∈ bodies, S.Sees t := fun t ht =>
    hsees t (mem_append_right _ (mem_append_right _ ht))
  cases alt with
  | none =>
    cases other with
    | some t => cases hothers
    | none =>
      obtain rfl : m = c := hrest.eq_of_nil
      obtain ⟨init, rfl⟩ : ∃ init, arms = init ++ [last] := getLast?_eq_some_iff.1 hlast
      have hfinish : m = block + 1 := by
        rw [flatMap_append, flatMap_singleton] at harms
        obtain ⟨_, -, hend⟩ := harms.append
        obtain ⟨_, -, hbody⟩ := hend.append
        exact (hbody.last hblock).1
      have hskip : S.context.routine.skippingBranches (some m)
          ((init ++ [last]).map fun arm => arm.1.region) = .ok branches := by
        rw [hfinish]
        exact hbranches
      rw [← hfinish] at hbodies
      exact follows_arms hconfig (follows_nil m) hc (fun _ => rfl) htests h harms hskip hbodies
        htestsSeen hbodiesSeen
  | some item =>
    cases other with
    | none => cases hothers
    | some t =>
      obtain ⟨hmakes, -⟩ := forall₂_cons.1 hothers
      rw [Option.toList_some, flatMap_singleton] at hrest
      have hfinish : c = block + 1 := (hrest.last hblock).1
      have hskip : item.region.firstBlock? = some m := by
        cases hfirst : item.region.blockIds with
        | nil =>
          rw [Option.getD_some, Region.lastBlock?, hfirst] at hblock
          cases hblock
        | cons id ids =>
          have hhead : item.region.blockIds.head? = some id := by
            rw [hfirst]
            rfl
          rw [Region.firstBlock?, hhead, (hrest.head hhead).1]
      rw [Option.bind_some, hskip] at hbranches
      rw [← hfinish] at hbodies
      have hfollows := ((hother item rfl).whole m c hrest hc).follows_of_makes hmakes
        (hsees t (mem_append_right _ mem_cons_self))
      have hsome : (some item).isSome = false → m = c := by rintro ⟨⟩
      exact follows_arms hconfig hfollows (Nat.le_trans hrest.1 hc) hsome htests h harms hbranches
        hbodies htestsSeen hbodiesSeen

/-- A conditional runs like its blocks. -/
theorem conditionalDeposit_runs : S.Runs (S.context.ConditionalDeposit arms alt) b c := by
  intro A D hdeposit hmarks hholds
  cases hdeposit with
  | @statement tests bodies other captured e hparts hcaptured =>
    rw [zero_add, map_singleton, sum_singleton] at hmarks
    have hnode := hholds _ mem_cons_self
    have hlength : tests.length = bodies.length := by
      obtain ⟨_, _, _, -, -, -, hbodies⟩ := hparts.bodies
      rw [hbodies.length_eq, length_map, hparts.tests.length_eq]
    have hfollows := follows_conditional hconfig h hother hspans hc hparts fun t ht =>
      sees_kid hnode hmarks ((Context.conditionalKids_perm other hlength).mem_iff.1 ht)
    refine ⟨quiet_zero, .cons (Follows.of_leads (leads_element hnode ?_) hfollows)
      (.nil (follows_nil c))⟩
    rw [conditionalElement_tasks?, hcaptured, Option.toList_map, map_map]
    rfl
  | value hparts =>
    rw [add_assoc, structured_add] at hmarks
    exact absurd (hmarks.1 _ (Multiset.mem_singleton_self _)) Bool.false_ne_true

end

/-- Entries of a chain lead to its end if the last one does. -/
theorem follows_entries (kind : ChainKind) {tail : FormId} (htail : S.Follows m [.form tail] c)
    (hm : m ≤ S.stop) {entries : List RegionAccount} {plans : List ChainTest} (hplans : List.Forall₂
      (fun (entry : RegionAccount) plan => S.context.routine.chainTest c entry.region = .ok plan)
      entries plans) (htests : List.Forall₂ (fun (entry : RegionAccount × ChainTest) t =>
      S.context.Captures entry.1 (kind == .conjunction) (!entry.2.defaulted.isSome) t)
      (entries.zip plans) tests) (h : ∀ item ∈ entries, S.Matches item)
    (hspans : Spans (entries.flatMap fun item => item.region.blockIds) b m)
    (hsees : ∀ t ∈ tests, S.Sees t) :
    S.Follows b (Task.entries kind (tests.map FormTree.id ++ [tail])) c := by
  induction hplans generalizing b tests with
  | nil =>
    cases htests
    obtain rfl := hspans.eq_of_nil
    exact htail
  | @cons entry plan entries plans hplan hplans ih =>
    rw [zip_cons_cons] at htests
    cases htests with
    | @cons _ t _ tests htest htests =>
      rw [flatMap_cons] at hspans
      obtain ⟨next, hfirst, hothers⟩ := hspans.append
      obtain ⟨site, hbranch, htarget, -⟩ := chainTest_eq_ok hplan
      have hdecides := (h entry mem_cons_self).decides hconfig.floatCompare hfirst
        (Nat.le_trans hothers.1 hm) (expectBranch_eq_ok hbranch).1 htest
        (hsees t mem_cons_self)
      have hlater := ih htests (fun item hitem => h item (mem_cons_of_mem _ hitem)) hothers
        fun t ht => hsees t (mem_cons_of_mem _ ht)
      rw [htarget] at hdecides
      rw [map_cons, cons_append]
      cases kind with
      | conjunction =>
        rw [Task.entries_conjunction]
        exact hdecides.follows hlater (follows_nil c)
      | disjunction =>
        rw [Task.entries_disjunction]
        exact hdecides.follows (follows_nil c) hlater

/-- A chain runs like its blocks. -/
theorem chainDeposit_runs (h : ∀ item ∈ items, S.Matches item)
    (hspans : Spans (items.flatMap fun item => item.region.blockIds) b c) (hc : c ≤ S.stop) :
    S.Runs (S.context.ChainDeposit items) b c := by
  intro A D hdeposit hmarks hholds
  cases hdeposit with
  | @statement plan tests tail entries e hparts hresult hentries =>
    rw [zero_add, map_singleton, sum_singleton] at hmarks
    have hnode := hholds _ mem_cons_self
    obtain ⟨last, hlast, hplan, htests, htail⟩ := hparts.parts
    obtain ⟨init, rfl⟩ : ∃ init, items = init ++ [last] := getLast?_eq_some_iff.1 hlast
    rw [dropLast_concat] at hplan htests
    rw [flatMap_append, flatMap_singleton] at hspans
    obtain ⟨m, hinit, hend⟩ := hspans.append
    obtain ⟨block, hblock, hplans⟩ := (chainPlan_plans hplan).tests
    rw [← (hend.last hblock).1, forall₂_map_left_iff] at hplans
    have htailFollows :=
      ((h last (mem_append_right _ mem_cons_self)).whole m c hend hc).follows_of_makes
        htail (sees_kid hnode hmarks (mem_append_right _ mem_cons_self))
    have hfollows := follows_entries hconfig plan.kind htailFollows (Nat.le_trans hend.1 hc) hplans
      htests (fun item hitem => h item (mem_append_left _ hitem)) hinit
      fun t ht => sees_kid hnode hmarks (mem_append_left _ ht)
    refine ⟨quiet_zero, .cons (Follows.of_leads (leads_element hnode ?_) hfollows)
      (.nil (follows_nil c))⟩
    rw [Element.tasks?, hentries, map_append, map_singleton]
  | value hparts =>
    rw [add_assoc, structured_add] at hmarks
    exact absurd (hmarks.1 _ (Multiset.mem_singleton_self _)) Bool.false_ne_true

end Pairing

namespace Region

/-- Whether control never leaves a region by a jump out. -/
def exitFree : Region → Bool :=
  fold {
    block := fun _ => true
    sequence := fun items => items.all id
    loop := fun items => items.all id
    conditional := fun arms alt => (arms.all fun arm => arm.1 && arm.2) && alt.all id
    chain := fun items => items.all id
    exit := fun _ _ => false }

theorem exitFree_sequence (items : List Region) :
    (sequence items).exitFree = items.all exitFree := by
  rw [exitFree, fold, foldItems_eq_map]
  exact all_map

theorem exitFree_loop (items : List Region) : (loop items).exitFree = items.all exitFree := by
  rw [exitFree, fold, foldItems_eq_map]
  exact all_map

theorem exitFree_conditional (arms : List RegionArm) (alt : Option Region) :
    (conditional arms alt).exitFree =
      ((arms.all fun arm => arm.test.exitFree && arm.body.exitFree) && alt.all exitFree) := by
  rw [exitFree, fold, foldArms_eq_map, foldOption_eq_map]
  dsimp only
  rw [all_map, Option.all_map]
  rfl

theorem exitFree_chain (items : List Region) : (chain items).exitFree = items.all exitFree := by
  rw [exitFree, fold, foldItems_eq_map]
  exact all_map

end Region

namespace Pairing

/-- Every region without exits runs like its blocks. -/
theorem account_matches (hconfig : S.context.config.KeepsBranches) (region : Region) :
    (S.context.account region).region.exitFree = true → S.Matches (S.context.account region) := by
  have hitems : ∀ items : List RegionAccount,
      (∀ item ∈ items, item.region.exitFree = true → S.Matches item) →
        (items.map RegionAccount.region).all Region.exitFree = true →
          ∀ item ∈ items, S.Matches item := by
    intro items h hall item hitem
    exact h item hitem (all_eq_true.1 hall _ (mem_map_of_mem hitem))
  refine fold_induct S.context.accountRules
    (P := fun account => account.region.exitFree = true → S.Matches account)
    (fun id _ => blockAccount_matches hconfig id) ?_ ?_ ?_ ?_ ?_ region
  · intro items h hexits
    change (Region.sequence (items.map RegionAccount.region)).exitFree = true at hexits
    rw [exitFree_sequence] at hexits
    exact sequenceAccount_matches hconfig (hitems items h hexits)
  · intro items h hexits
    change (Region.loop (items.map RegionAccount.region)).exitFree = true at hexits
    rw [exitFree_loop] at hexits
    refine controlAccount_matches rfl fun b c hspans hc => ?_
    rw [blockIds_loop, flatMap_map] at hspans
    exact loopDeposit_runs hconfig (hitems items h hexits) hspans hc
  · intro arms alt harms hother hexits
    change (Region.conditional (arms.map fun arm => ⟨arm.1.region, arm.2.region⟩)
      (alt.map RegionAccount.region)).exitFree = true at hexits
    rw [exitFree_conditional, Bool.and_eq_true, all_map, Option.all_map] at hexits
    refine controlAccount_matches rfl fun b c hspans hc => ?_
    rw [blockIds_conditional, flatMap_map, Option.toList_map, flatMap_map] at hspans
    refine conditionalDeposit_runs hconfig (fun arm harm => ?_) (fun item hitem => ?_) hspans hc
    · have hboth := all_eq_true.1 hexits.1 arm harm
      rw [Function.comp_apply, Bool.and_eq_true] at hboth
      exact ⟨(harms arm harm).1 hboth.1, (harms arm harm).2 hboth.2⟩
    · cases hitem
      exact hother item rfl hexits.2
  · intro items h hexits
    change (Region.chain (items.map RegionAccount.region)).exitFree = true at hexits
    rw [exitFree_chain] at hexits
    refine controlAccount_matches rfl fun b c hspans hc => ?_
    rw [blockIds_chain, flatMap_map] at hspans
    exact chainDeposit_runs hconfig (hitems items h hexits) hspans hc
  · intro body dead _ _ hexits
    cases hexits

end Pairing

namespace Element

/-- A branch that was left as it is. -/
def isBranch : Element → Bool
  | branch _ _ => true
  | _ => false

/-- A control structure that was turned into a value. -/
def isRewritten : Element → Bool
  | condElse _ _ rewritten | cond _ _ _ rewritten | chain _ _ _ _ rewritten => rewritten
  | _ => false

theorem structured_marks {element : Element} (hbranch : element.isBranch = false)
    (hrewritten : element.isRewritten = false) : Structured element.marks := by
  have hsingle : ∀ mark : Mark, mark.isStructured = true → Structured {mark} := by
    intro mark hmark m hm
    rw [Multiset.mem_singleton.1 hm]
    exact hmark
  have hzero : Structured 0 := fun m hm => absurd hm (Multiset.notMem_zero m)
  cases element with
  | branch => cases hbranch
  | apply head =>
    cases head with
    | callee => exact hsingle .call rfl
    | builtin => exact hzero
    | test => exact hzero
  | condElse _ _ rewritten | cond _ _ _ rewritten | chain _ _ _ _ rewritten =>
    cases rewritten with
    | true => cases hrewritten
    | false => exact hsingle .control rfl
  | call => exact hsingle .call rfl
  | setPlace | store => exact hsingle .store rfl
  | operation site => exact hsingle (.operation site) rfl
  | loop | exit => exact hsingle .control rfl
  | _ => exact hzero

end Element

namespace Context

variable {cx : Context}

/-- The blocks of a region without exits, in layout order, and the tree that is built from it
execute the same branches whatever their outcomes are, and one finishes if and only if the
other does.  The tree must have no branches left and no control structures that were turned
into values. -/
theorem build_agrees {region : Region} {s s' : FoldState} {root : FormId} {b n : Nat}
    (hconfig : cx.config.KeepsBranches) (hexits : region.exitFree = true)
    (hlayout : region.blockIds = List.range' b n)
    (hbuild : (cx.build region).run s = (.ok root, s'))
    (hbranches : ∀ e, s'.pool.ReachesElement root e → (s'.pool.element e).isBranch = false)
    (hstatements : ∀ e, s'.pool.ReachesElement root e → (s'.pool.element e).isRewritten = false)
    (oracle : Nat → Bool) :
    Machine.Agree (cx.routine.flow (b + n)) s'.pool.walk oracle b [.form root] := by
  have hreach := (build_elementsIn hbuild).2
  have hends := cx.build_owns region s root
  rw [hbuild] at hends
  obtain ⟨t, rfl, hmakes, howns⟩ := hends rfl
  let S : Pairing := ⟨cx, s'.pool, b + n, oracle⟩
  have hsees : S.Sees t := by
    refine ⟨howns.tree_holds, ?_⟩
    rw [howns.tree_holds.marks_eq, ← howns.tree_holds.elementsIn_eq howns.tree_elements_nodup]
    intro m hm
    obtain ⟨e, he, hm⟩ := mem_sum_map.1 hm
    exact Element.structured_marks (hbranches e ((hreach e).1 he))
      (hstatements e ((hreach e).1 he)) m hm
  have hspans : Spans (cx.account region).region.blockIds b (b + n) := by
    rw [account_region, hlayout, Spans, Nat.add_sub_cancel_left]
    exact ⟨Nat.le_add_right b n, rfl⟩
  have hmatches := Pairing.account_matches (S := S) hconfig region
    (by rw [account_region]; exact hexits)
  have hfollows := (hmatches.whole b (b + n) hspans (Nat.le_refl _)).follows_of_makes hmakes hsees
  have hfinish : cx.routine.flow (b + n) (b + n) = .finish := by
    rw [Routine.flow, if_pos rfl]
  exact .of_meets (fun bound => hfollows bound [] []) hfinish rfl

/-- A routine that counts a register down and may count another one up in each round. -/
def countdown : Context where
  routine :=
    { name := "countdown"
      code := #[⟨.set (.write .v0 0) ⟨.identity, [.int 0]⟩, ∅⟩,
        ⟨.branch ⟨⟨.zero, [.var (.read ⟨4⟩ 1)]⟩, false, 5, none⟩, ∅⟩,
        ⟨.branch ⟨⟨.zero, [.var (.read ⟨5⟩ 2)]⟩, false, 4, none⟩, ∅⟩,
        ⟨.set (.write .v0 3) ⟨.add, [.var (.read .v0 3), .int 1]⟩, ∅⟩,
        ⟨.set (.write ⟨4⟩ 4) ⟨.sub, [.var (.read ⟨4⟩ 4), .int 1]⟩, ∅⟩,
        ⟨.branch ⟨⟨.always, []⟩, false, 1, none⟩, ∅⟩]
      blocks := #[⟨0, 0, 1, [1]⟩, ⟨1, 1, 2, [2, 5]⟩, ⟨2, 2, 3, [3, 4]⟩, ⟨3, 3, 4, [4]⟩,
        ⟨4, 4, 6, [1]⟩, ⟨5, 6, 6, []⟩]
      labels := []
      epilogue := some 5
      resultRegister := .v0 }
  env := { variableType := fun _ => none, variableName := Variable.text, resultType := none }
  config := .reduced
  liveAfter := #[]

/-- The loop of the routine with the conditional inside. -/
def countdownRegion : Region :=
  .sequence [.block 0, .loop [.block 1, .conditional [⟨.block 2, .block 3⟩] none, .block 4]]

theorem countdown_agrees :
    ∃ root s', (countdown.build countdownRegion).run default = (.ok root, s') ∧
      ∀ oracle, Machine.Agree (countdown.routine.flow 5) s'.pool.walk oracle 0 [.form root] := by
  have hok : (match (countdown.build countdownRegion).run default with
      | (.ok root, s') => (s'.pool.elementsIn root).all fun e =>
        !(s'.pool.element e).isBranch && !(s'.pool.element e).isRewritten
      | (.error _, _) => false) = true := by decide +kernel
  rcases hrun : (countdown.build countdownRegion).run default with ⟨e | root, s'⟩
  · rw [hrun] at hok
    cases hok
  · rw [hrun] at hok
    have hplain : ∀ e, s'.pool.ReachesElement root e → (s'.pool.element e).isBranch = false ∧
        (s'.pool.element e).isRewritten = false := by
      intro e he
      have hchecked := List.all_eq_true.1 hok e (((build_elementsIn hrun).2 e).2 he)
      rw [Bool.and_eq_true, Bool.not_eq_true', Bool.not_eq_true'] at hchecked
      exact hchecked
    refine ⟨root, s', rfl, fun oracle => ?_⟩
    exact build_agrees (b := 0) (n := 5) ⟨rfl, rfl, rfl, rfl⟩ rfl rfl hrun
      (fun e he => (hplain e he).1) (fun e he => (hplain e he).2) oracle

end Context

end Decompiler
