import Decompiler.Proofs.Structure.Effects

/-!
Effects of regions.  The account of a region has every effect of its blocks, as often as
the blocks occur, so the tree of a region has them too.
-/

namespace Decompiler

open List Routine

/-- A deposit has a mark as often as some marks do. -/
def Deposit.Counts (P : Deposit) (m : Mark) (B : Multiset Mark) : Prop :=
  ∀ A D, P A D → (A + (D.map Node.marks).sum).count m = B.count m

namespace Deposit

variable {P Q : Deposit} {m : Mark} {B B' : Multiset Mark}

theorem Counts.ofMarks {leaves : Multiset Mark → Prop}
    (h : ∀ A, leaves A → A.count m = B.count m) : (Deposit.ofMarks leaves).Counts m B := by
  rintro A D ⟨hleaves, rfl⟩
  rw [map_nil, sum_nil, add_zero, h A hleaves]

theorem Counts.seq (hP : P.Counts m B) (hQ : Q.Counts m B') : (P.seq Q).Counts m (B + B') := by
  rintro A D ⟨A₁, D₁, A₂, D₂, h₁, h₂, rfl, rfl⟩
  rw [map_append, sum_append, add_add_add_comm]
  exact count_add_congr (hP A₁ D₁ h₁) (hQ A₂ D₂ h₂)

theorem Counts.makes (hP : P.Counts m B) {t : FormTree} (ht : P.Makes t) :
    t.marks.count m = B.count m := by
  obtain ⟨A, D, hAD, hshows⟩ := ht
  rw [t.marks_eq, hshows.marks_eq, hP A D hAD]

end Deposit

/-- All and the body of a region have the effects of its blocks. -/
structure RegionAccount.Balanced (r : Routine) (m : Mark) (account : RegionAccount) : Prop where
  whole : account.whole.Counts m (r.effectsIn account.region.blockIds)
  body : account.body.Counts m (r.effectsIn account.region.blockIds)

namespace Context

variable {cx : Context} {m : Mark} {items : List RegionAccount} {tests : List FormTree}
  {item : RegionAccount} {emit flipped : Bool} {t : FormTree} {alt : Option RegionAccount}
  {arms : List (RegionAccount × RegionAccount)}

theorem controlAccount_balanced {region : Region} {P : Deposit}
    (h : P.Counts m (cx.routine.effectsIn region.blockIds)) :
    (controlAccount region P).Balanced cx.routine m := ⟨h, h⟩

/-- Trees for blocks that each have the effects of their own have all of them. -/
theorem forall₂_count {α : Type} {R : α → FormTree → Prop} {ids : α → List BlockId} {as : List α}
    {ts : List FormTree} (hts : List.Forall₂ R as ts) (h : ∀ a ∈ as, ∀ {t}, R a t →
      t.marks.count m = (cx.routine.effectsIn (ids a)).count m) :
    (ts.map FormTree.marks).sum.count m = (cx.routine.effectsIn (as.flatMap ids)).count m := by
  induction hts with
  | nil => rfl
  | cons ht hts ih =>
    rw [map_cons, sum_cons, flatMap_cons, effectsIn_append]
    exact count_add_congr (h _ mem_cons_self ht) (ih fun a ha => h a (mem_cons_of_mem _ ha))

section

variable (hm : cx.routine.Tracks m)
include hm

theorem itemsDeposit_counts (h : ∀ item ∈ items, item.Balanced cx.routine m) :
    Deposit.Counts (cx.ItemsDeposit items) m
      (cx.routine.effectsIn (items.flatMap fun item => item.region.blockIds)) := by
  intro A D hdeposit
  induction hdeposit with
  | nil => rfl
  | @idiom id count items rest A A' D hidiom hitems hrest ih =>
    have hblocks : (items.flatMap fun item => item.region.blockIds) = List.range' id count := by
      rw [← flatMap_map RegionAccount.region Region.blockIds, hitems, flatMap_map]
      exact flatMap_singleton' _
    rw [flatMap_append, hblocks, effectsIn_append, add_assoc]
    exact count_add_congr (hidiom.count_eq hm)
      (ih fun item hitem => h item (mem_append_right _ hitem))
  | @item item rest A A' D D' hitem hrest ih =>
    have hfirst := (h item mem_cons_self).whole A D hitem
    rw [flatMap_cons, effectsIn_append, map_append, sum_append, add_add_add_comm]
    exact count_add_congr hfirst (ih fun item hitem => h item (mem_cons_of_mem _ hitem))

theorem sequenceAccount_balanced (h : ∀ item ∈ items, item.Balanced cx.routine m) :
    (cx.sequenceAccount items).Balanced cx.routine m := by
  have hregion : (cx.sequenceAccount items).region.blockIds =
      items.flatMap fun item => item.region.blockIds := by
    rw [sequenceAccount, Region.blockIds_sequence, flatMap_map]
  constructor
  · rw [hregion]
    exact itemsDeposit_counts hm h
  · rw [hregion]
    unfold sequenceAccount
    dsimp only
    rcases eq_nil_or_concat items with rfl | ⟨init, last, rfl⟩
    · exact .ofMarks fun A hA => by rw [hA]; rfl
    · rw [concat_eq_append] at h ⊢
      rw [getLast?_concat, dropLast_concat, flatMap_append, flatMap_singleton, effectsIn_append]
      exact (itemsDeposit_counts hm fun item hitem => h item (mem_append_left _ hitem)).seq
        (h last (mem_append_right _ mem_cons_self)).body

/-- The effects of a control structure are those of its parts. -/
theorem controlNode_count {n : Node FormTree} (hcontrol : n.element.isControl = true) :
    n.marks.count m = (n.kids.map FormTree.marks).sum.count m := by
  have hself : n.element.marks.count m = 0 := by
    cases helem : n.element with
    | loop | exit =>
      rw [Element.marks, Multiset.count_singleton, if_neg]
      rintro rfl
      exact hm
    | condElse _ _ rewritten | cond _ _ _ rewritten | chain _ _ _ _ rewritten =>
      rw [Element.marks, Multiset.count_singleton, if_neg]
      rintro rfl
      cases rewritten <;> exact hm
    | _ => 
      rw [helem] at hcontrol
      cases hcontrol
  rw [Node.marks, Multiset.count_add, hself, zero_add]

/-- A control structure with two parts. -/
theorem pairNode_count {e : ElementId} {element : Element} {u : FormTree} {B B' : Multiset Mark}
    (hcontrol : element.isControl = true)
    (ht : t.marks.count m = B.count m) (hu : u.marks.count m = B'.count m) :
    (Node.marks ⟨e, element, [t, u]⟩).count m = (B + B').count m := by
  rw [controlNode_count hm hcontrol, map_cons, map_singleton, sum_cons, sum_singleton]
  exact count_add_congr ht hu

theorem VerbatimLeaves.count_eq {ids : List BlockId} {A : Multiset Mark}
    (h : cx.VerbatimLeaves ids A) :
    A.count m = (cx.routine.effectsIn ids).count m := by
  induction h with
  | nil => rfl
  | cons hblock hsites hrest ih =>
    rw [effectsIn_cons, sitesIn_eq (block_eq_ok.1 hblock)]
    exact count_add_congr (hsites.count_eq hm) ih

end

section

variable (hdelays : cx.routine.DelaysAssign)
include hdelays

theorem throughDelay_counts {site : Nat} {branch : Branch} (h : item.Balanced cx.routine m)
    (hbranch : cx.routine.BranchAt site branch) :
    (ThroughDelay item site branch).Counts m (cx.routine.effectsIn item.region.blockIds) := by
  have hdelay : (Deposit.ofMarks (DelayLeaves site branch)).Counts m 0 :=
    .ofMarks fun A hA => by rw [DelayLeaves.eq_zero hA hdelays hbranch]
  have hboth := h.body.seq hdelay
  rw [add_zero] at hboth
  exact hboth

/-- A test that was taken out of a region has its effects. -/
theorem Captures.count_eq (hcaptures : cx.Captures item flipped emit t)
    (h : item.Balanced cx.routine m) :
    t.marks.count m = (cx.routine.effectsIn item.region.blockIds).count m := by
  cases hcaptures with
  | @intro f site branch A A' B D ns condition hbranch hbody hdelay hcondition hshows hmarks =>
    have hzero : B = 0 := by
      have hat := regionTerminator_branchAt (expectBranch_eq_ok hbranch).1
      split at hdelay
      · exact DelayLeaves.eq_zero hdelay hdelays hat
      · exact hdelay
    rw [FormTree.marks_mk, map_append, sum_append, hshows.marks_eq, ← condition.marks_eq,
      add_right_comm, hmarks, hzero, add_zero]
    exact h.body A D hbody

section

variable (h : ∀ item ∈ items, item.Balanced cx.routine m)
include h

theorem ArmsMake.count_eq {finish : BlockId} {alt : Bool} {ts : List FormTree}
    (hmake : cx.ArmsMake finish alt items ts) :
    List.Forall₂ (fun item (t : FormTree) =>
      t.marks.count m = (cx.routine.effectsIn item.region.blockIds).count m) items ts := by
  induction hmake with
  | nil => exact .nil
  | @cons item rest t ts harm hrest ih =>
    refine .cons ?_ (ih fun item hitem => h item (mem_cons_of_mem _ hitem))
    have hitem := h item mem_cons_self
    obtain ⟨jump, hjump, hmakes⟩ := harm
    cases jump with
    | none => exact hitem.whole.makes hmakes
    | some entry =>
      have hbranch := regionTerminator_branchAt (armJump_eq_some hjump).1
      exact (throughDelay_counts hdelays hitem hbranch).makes hmakes

/-- The parts of a chain have the effects of its regions. -/
theorem ChainParts.count_eq {plan : ChainPlan} {tail : FormTree}
    (hparts : cx.ChainParts items plan tests tail) :
    ((tests ++ [tail]).map FormTree.marks).sum.count m =
      (cx.routine.effectsIn (items.flatMap fun item => item.region.blockIds)).count m := by
  obtain ⟨last, hlast, hplan, htests, htail⟩ := hparts.parts
  obtain ⟨init, rfl⟩ := getLast?_eq_some_iff.1 hlast
  rw [dropLast_concat] at hplan htests
  obtain ⟨block, -, hplanned⟩ := (chainPlan_plans hplan).tests
  rw [map_append, sum_append, map_singleton, sum_singleton,
    flatMap_append, flatMap_singleton, effectsIn_append]
  refine count_add_congr ?_ ((h last (mem_append_right _ mem_cons_self)).whole.makes htail)
  -- every entry has a test of its own in the plan, so none is lost
  have hlength := hplanned.length_eq
  rw [length_map] at hlength
  rw [← map_fst_zip hlength.le, flatMap_map]
  exact forall₂_count htests fun entry hentry _ hcaptures =>
    hcaptures.count_eq hdelays (h _ (mem_append_left _ (of_mem_zip hentry).1))

end

/-- The parts of a conditional have the effects of its regions. -/
theorem ConditionalParts.count_eq {bodies : List FormTree} {other : Option FormTree}
    (hparts : cx.ConditionalParts arms alt emit tests bodies other)
    (harms : ∀ arm ∈ arms, arm.1.Balanced cx.routine m ∧ arm.2.Balanced cx.routine m)
    (hother : ∀ item ∈ alt, item.Balanced cx.routine m) :
    ((conditionalKids tests bodies other).map FormTree.marks).sum.count m =
      (cx.routine.effectsIn
        ((arms.flatMap fun arm => arm.1.region.blockIds ++ arm.2.region.blockIds) ++
          alt.toList.flatMap fun item => item.region.blockIds)).count m := by
  obtain ⟨last, block, branches, -, -, -, hmake⟩ := hparts.bodies
  have hbodies := hmake.count_eq hdelays fun item hitem => by
    obtain ⟨arm, harm, rfl⟩ := mem_map.1 hitem
    exact (harms arm harm).2
  rw [conditionalKids, map_append, sum_append, effectsIn_append]
  refine count_add_congr ?_ ?_
  · have htests := hparts.tests
    clear hparts hmake
    induction htests generalizing bodies with
    | nil => rfl
    | @cons arm t arms tests hcaptures hrest ih =>
      rw [map_cons] at hbodies
      cases hbodies with
      | @cons _ u _ bodies hbody hmore =>
        rw [zip_cons_cons, flatMap_cons, map_append, sum_append,
          flatMap_cons, effectsIn_append, effectsIn_append, map_cons,
          map_singleton, sum_cons, sum_singleton]
        refine count_add_congr (count_add_congr ?_ hbody) ?_
        · exact hcaptures.count_eq hdelays (harms arm mem_cons_self).1
        · exact ih (fun arm harm => harms arm (mem_cons_of_mem _ harm)) hmore
  · exact forall₂_count hparts.other fun item hitem =>
      (hother item (Option.mem_toList.1 hitem)).whole.makes

end

section

variable (hm : cx.routine.Tracks m) (hdelays : cx.routine.DelaysAssign)
include hm hdelays

section

variable (h : ∀ item ∈ items, item.Balanced cx.routine m)
include h

theorem loopDeposit_counts :
    Deposit.Counts (cx.LoopDeposit items) m
      (cx.routine.effectsIn (items.flatMap fun item => item.region.blockIds)) := by
  intro A D hdeposit
  cases hdeposit with
  | @entersAtTest first rest site jump A D test body clean e hlayout hfirst hbody htest =>
    cases loopLayout_laidOut hlayout with
    | entersAtTest hsecond hjump hisJump htarget hback hbackTarget =>
      rcases eq_nil_or_concat rest with rfl | ⟨init, last, rfl⟩
      · cases hsecond
      · rw [concat_eq_append] at h hbody htest ⊢
        rw [dropLast_concat] at hbody
        rw [getLastD_concat] at htest
        have hthrough := throughDelay_counts hdelays (h first mem_cons_self)
          (regionTerminator_branchAt hjump) A D hfirst
        have hbodyCount := (itemsDeposit_counts hm fun item hitem => h item
          (mem_cons_of_mem _ (mem_append_left _ hitem))).makes hbody
        have htestCount := htest.count_eq hdelays (h last
          (mem_cons_of_mem _ (mem_append_right _ mem_cons_self)))
        rw [map_append, sum_append, map_singleton, sum_singleton,
          ← add_assoc, flatMap_cons, flatMap_append, flatMap_singleton,
          effectsIn_append, effectsIn_append,
          add_comm (cx.routine.effectsIn (init.flatMap _))]
        exact count_add_congr hthrough (pairNode_count hm rfl htestCount hbodyCount)
  | @testsLast first rest test body clean e hlayout hbody htest =>
    obtain ⟨init, last, hitems, hinit, hlast⟩ : ∃ init last, first :: rest = init ++ [last] ∧
        (first :: rest).dropLast = init ∧ rest.getLastD first = last := by
      rcases eq_nil_or_concat rest with rfl | ⟨init, last, rfl⟩
      · exact ⟨[], first, rfl, rfl, rfl⟩
      · rw [concat_eq_append, ← cons_append, getLastD_concat]
        exact ⟨first :: init, last, rfl, dropLast_concat, rfl⟩
    rw [hinit] at hbody
    rw [hlast] at htest
    rw [hitems] at h ⊢
    have hbodyCount := (itemsDeposit_counts hm fun item hitem => h item
      (mem_append_left _ hitem)).makes hbody
    have htestCount := htest.count_eq hdelays (h last (mem_append_right _ mem_cons_self))
    rw [zero_add, map_singleton, sum_singleton, flatMap_append, flatMap_singleton, effectsIn_append]
    exact pairNode_count hm rfl hbodyCount htestCount
  | @testsFirst first rest site back test body clean e hlayout htest hbody =>
    cases loopLayout_laidOut hlayout with
    | testsFirst hrest hleave hleaveTarget hback htarget =>
      rcases eq_nil_or_concat rest with rfl | ⟨init, last, rfl⟩
      · exact absurd rfl hrest
      · rw [concat_eq_append] at h hbody hback ⊢
        rw [dropLast_concat, getLastD_concat] at hbody
        rw [getLastD_concat] at hback
        have htestCount := htest.count_eq hdelays (h first mem_cons_self)
        have hthrough := throughDelay_counts hdelays (h last
          (mem_cons_of_mem _ (mem_append_right _ mem_cons_self)))
          (regionTerminator_branchAt (expectBranch_eq_ok hback).1)
        have hbodyCount := ((itemsDeposit_counts hm fun item hitem => h item
          (mem_cons_of_mem _ (mem_append_left _ hitem))).seq hthrough).makes hbody
        rw [zero_add, map_singleton, sum_singleton, flatMap_cons,
          flatMap_append, flatMap_singleton, effectsIn_append,
          effectsIn_append]
        exact pairNode_count hm rfl htestCount hbodyCount

theorem chainDeposit_counts :
    Deposit.Counts (cx.ChainDeposit items) m
      (cx.routine.effectsIn (items.flatMap fun item => item.region.blockIds)) := by
  intro A D hdeposit
  cases hdeposit with
  | statement hparts hresult hentries =>
    rw [zero_add, map_singleton, sum_singleton, controlNode_count hm rfl]
    exact hparts.count_eq hdelays h
  | value hparts =>
    rw [map_nil, sum_nil, add_zero, Multiset.count_add, Multiset.count_singleton, if_neg, zero_add]
    · exact hparts.count_eq hdelays h
    · rintro rfl
      exact hm

end

theorem blockAccount_balanced (id : BlockId) :
    (cx.blockAccount id).Balanced cx.routine m where
  whole := by
    rintro A D (⟨hidiom, rfl⟩ | hboth)
    · rw [map_nil, sum_nil, add_zero, hidiom.count_eq hm]
      rfl
    · have hbody : (Deposit.ofMarks (cx.BodyLeaves id)).Counts m (cx.routine.effectsIn [id]) :=
        .ofMarks fun A hA => BodyLeaves.count_eq hA hm
      have hterm : (Deposit.ofMarks (cx.TerminatorLeaves id)).Counts m 0 :=
        .ofMarks fun A hA => TerminatorLeaves.count_eq hA hm hdelays
      have hall := hbody.seq hterm
      rw [add_zero] at hall
      exact hall A D hboth
  body := .ofMarks fun A hA => BodyLeaves.count_eq hA hm

theorem conditionalDeposit_counts
    (harms : ∀ arm ∈ arms, arm.1.Balanced cx.routine m ∧ arm.2.Balanced cx.routine m)
    (hother : ∀ item ∈ alt, item.Balanced cx.routine m) :
    Deposit.Counts (cx.ConditionalDeposit arms alt) m
      (cx.routine.effectsIn
        ((arms.flatMap fun arm => arm.1.region.blockIds ++ arm.2.region.blockIds) ++
          alt.toList.flatMap fun item => item.region.blockIds)) := by
  intro A D hdeposit
  cases hdeposit with
  | statement hparts hcaptured =>
    rw [zero_add, map_singleton, sum_singleton,
      controlNode_count hm (conditionalElement_isControl ..)]
    exact hparts.count_eq hdelays harms hother
  | value hparts =>
    rw [map_nil, sum_nil, add_zero, Multiset.count_add, Multiset.count_singleton, if_neg, zero_add]
    · exact hparts.count_eq hdelays harms hother
    · rintro rfl
      exact hm

theorem exitDeposit_counts {body : RegionAccount} {dead : Option Region}
    (h : body.Balanced cx.routine m) :
    Deposit.Counts (cx.ExitDeposit body dead) m
      (cx.routine.effectsIn (body.region.blockIds ++ dead.toList.flatMap Region.blockIds)) := by
  intro A D hdeposit
  cases hdeposit with
  | @intro site jump kind A D code deads e hjump hcode hmarks hdead =>
    have hbranch := regionTerminator_branchAt (expectBranch_eq_ok hjump).1
    rw [zero_add, map_singleton, sum_singleton, controlNode_count hm rfl, map_cons,
      sum_cons, effectsIn_append, hmarks]
    exact count_add_congr (throughDelay_counts hdelays h hbranch A D hcode)
      (forall₂_count hdead fun region _ _ hleaves => hleaves.count_eq hm)

/-- Every region has the effects of its blocks. -/
theorem account_balanced (region : Region) : (cx.account region).Balanced cx.routine m := by
  refine Region.fold_induct cx.accountRules (fun id => blockAccount_balanced hm hdelays id)
    (fun items h => sequenceAccount_balanced hm h) ?_ ?_ ?_ ?_ region
  · intro items h
    apply controlAccount_balanced
    rw [Region.blockIds_loop, flatMap_map]
    exact loopDeposit_counts hm hdelays h
  · intro arms alt harms hother
    apply controlAccount_balanced
    rw [Region.blockIds_conditional, flatMap_map, Option.toList_map, flatMap_map]
    exact conditionalDeposit_counts hm hdelays harms hother
  · intro items h
    apply controlAccount_balanced
    rw [Region.blockIds_chain, flatMap_map]
    exact chainDeposit_counts hm hdelays h
  · intro body dead hbody hdead
    apply controlAccount_balanced
    rw [Region.blockIds_exit]
    exact exitDeposit_counts hm hdelays hbody

end

end Context

namespace Element

def isCall : Element → Bool
  | apply (.callee _) _ | call _ _ => true
  | _ => false

def isStore : Element → Bool
  | setPlace _ _ | store _ => true
  | _ => false

def isOperationAt (site : Nat) : Element → Bool
  | operation at' _ => at' == site
  | _ => false

theorem count_call (element : Element) :
    element.marks.count .call = if element.isCall then 1 else 0 := by
  cases element with
  | apply head args => cases head <;> rfl
  | condElse _ _ rewritten | cond _ _ _ rewritten | chain _ _ _ _ rewritten =>
    cases rewritten <;> rfl
  | _ => rfl

theorem count_store (element : Element) :
    element.marks.count .store = if element.isStore then 1 else 0 := by
  cases element with
  | apply head args => cases head <;> rfl
  | condElse _ _ rewritten | cond _ _ _ rewritten | chain _ _ _ _ rewritten =>
    cases rewritten <;> rfl
  | _ => rfl

theorem count_operation (site : Nat) (element : Element) :
    element.marks.count (.operation site) = if element.isOperationAt site then 1 else 0 := by
  cases element with
  | operation at' writes =>
    rw [Element.marks, Multiset.count_singleton, isOperationAt]
    by_cases h : site = at'
    · subst h
      simp
    · rw [if_neg (fun heq => h (Mark.operation.inj heq)), if_neg]
      exact fun heq => h (eq_of_beq heq).symm
  | apply head args => cases head <;> rfl
  | condElse _ _ rewritten | cond _ _ _ rewritten | chain _ _ _ _ rewritten =>
    cases rewritten <;> rfl
  | _ => rfl

end Element

theorem count_sum_map {α : Type} {m : Mark} {marks : α → Multiset Mark} {has : α → Bool}
    (h : ∀ a, (marks a).count m = if has a then 1 else 0) (as : List α) :
    (as.map marks).sum.count m = as.countP has := by
  induction as with
  | nil => rfl
  | cons a as ih =>
    rw [map_cons, sum_cons, Multiset.count_add, ih, h, countP_cons, add_comm]

namespace Operation

theorem count_effects_call (op : Operation) (site : Nat) :
    (op.effects site).count .call = if op.isCall then 1 else 0 := by
  cases op with
  | special kind => cases kind <;> rfl
  | _ => rfl

theorem count_effects_store (op : Operation) (site : Nat) :
    (op.effects site).count .store = if op.isStore then 1 else 0 := by
  cases op with
  | special kind => cases kind <;> rfl
  | _ => rfl

theorem effects_of_isOpaque {op : Operation} (h : op.isOpaque = true) (site : Nat) :
    op.effects site = {.operation site} := by
  cases op with
  | special kind =>
    cases kind with
    | nop => cases h
    | _ => rfl
  | asm => rfl
  | _ => cases h

theorem count_effects_of_ne (op : Operation) {site site' : Nat} (h : site' ≠ site) :
    (op.effects site').count (.operation site) = 0 := by
  unfold effects
  split
  · rfl
  split
  · rfl
  split
  · rw [Multiset.count_singleton, if_neg]
    exact fun heq => h (Mark.operation.inj heq).symm
  · rfl

end Operation

namespace Routine

variable {r : Routine} {site : Nat}

def anyAt (r : Routine) (has : Operation → Bool) (site : Nat) : Bool :=
  r.code[site]?.any fun instr => has instr.op

theorem count_effectsAt {m : Mark} {has : Operation → Bool}
    (h : ∀ op : Operation, (op.effects site).count m = if has op then 1 else 0) :
    (r.effectsAt site).count m = if r.anyAt has site then 1 else 0 := by
  unfold effectsAt anyAt
  cases r.code[site]? with
  | none => rfl
  | some instr => exact h instr.op

theorem tracks_of_anyAt (h : r.anyAt Operation.isOpaque site = true) :
    r.Tracks (.operation site) := by
  unfold anyAt at h
  cases hcode : r.code[site]? with
  | none =>
    rw [hcode] at h
    cases h
  | some instr =>
    rw [hcode] at h
    exact ⟨instr, hcode, h⟩

theorem count_effectsAt_operation (hsite : r.anyAt Operation.isOpaque site = true) (site' : Nat) :
    (r.effectsAt site').count (.operation site) = if site' == site then 1 else 0 := by
  by_cases h : site' = site
  · subst h
    obtain ⟨instr, hcode, hkept⟩ := tracks_of_anyAt hsite
    rw [if_pos (beq_self_eq_true site'), effectsAt, hcode, Option.map_some, Option.getD_some,
      Operation.effects_of_isOpaque hkept]
    exact Multiset.count_singleton_self _
  · rw [if_neg (fun heq => h (eq_of_beq heq)), effectsAt]
    cases r.code[site']? with
    | none => rfl
    | some instr => exact instr.op.count_effects_of_ne h

end Routine

namespace Context

variable {cx : Context}

/-- A built tree has a call for each call instruction of the blocks of the region, a store
for each store instruction and, for an instruction that is kept as it is, its operation each
time that its block occurs. -/
theorem build_keeps_effects {region : Region} {s s' : FoldState} {root : FormId}
    (hdelays : cx.routine.DelaysAssign) (hbuild : (cx.build region).run s = (.ok root, s')) :
    let elements := (s'.pool.elementsIn root).map s'.pool.element
    let sites := region.blockIds.flatMap cx.routine.sitesIn
    ((s'.pool.elementsIn root).Nodup ∧
        ∀ e, e ∈ s'.pool.elementsIn root ↔ s'.pool.ReachesElement root e) ∧
      elements.countP Element.isCall = sites.countP (cx.routine.anyAt Operation.isCall) ∧
      elements.countP Element.isStore = sites.countP (cx.routine.anyAt Operation.isStore) ∧
      ∀ site, cx.routine.anyAt Operation.isOpaque site = true →
        elements.countP (Element.isOperationAt site) = sites.count site := by
  intro elements sites
  have hends := cx.build_owns region s root
  rw [hbuild] at hends
  obtain ⟨t, rfl, hmakes, howns⟩ := hends rfl
  have hall := howns.tree_holds.elementsIn_eq howns.tree_elements_nodup
  have hcount : ∀ m, cx.routine.Tracks m →
      (elements.map Element.marks).sum.count m = (cx.routine.effectsOf sites).count m := by
    intro m hm
    have hmarks := (account_balanced hm hdelays region).whole.makes hmakes
    rw [account_region, howns.tree_holds.marks_eq, ← hall] at hmarks
    rw [List.map_map]
    exact hmarks
  refine ⟨build_elementsIn hbuild, ?_, ?_, ?_⟩
  · rw [← count_sum_map Element.count_call, hcount .call trivial]
    exact count_sum_map (fun site => Routine.count_effectsAt fun op => op.count_effects_call site) _
  · rw [← count_sum_map Element.count_store, hcount .store trivial]
    exact count_sum_map (fun site => Routine.count_effectsAt fun op => op.count_effects_store site) _
  · intro site hsite
    rw [← count_sum_map (Element.count_operation site), hcount _ (Routine.tracks_of_anyAt hsite)]
    exact count_sum_map (Routine.count_effectsAt_operation hsite) _

/-- A routine that traps and, if a register is not zero, first stores the result of a call.  The
delay slot of its branch sets a register. -/
def guardedCall : Context where
  routine :=
    { name := "guarded-call"
      code := #[⟨.branch ⟨⟨.zero, [.var (.read ⟨4⟩ 0)]⟩, false, 2,
          some (.set (.write ⟨5⟩ 0) ⟨.identity, [.int 1]⟩)⟩, ∅⟩,
        ⟨.call (.read ⟨6⟩ 1) [.read ⟨4⟩ 1] (some (.write .v0 1)), .ofList [⟨4⟩, ⟨6⟩]⟩,
        ⟨.store (.var (.read ⟨7⟩ 2)) 8 (.var (.read .v0 2)) 4 .integer, .ofList [.v0, ⟨7⟩]⟩,
        ⟨.special .trap, ∅⟩]
      blocks := #[⟨0, 0, 1, [1, 2]⟩, ⟨1, 1, 3, [2]⟩, ⟨2, 3, 4, [3]⟩, ⟨3, 4, 4, []⟩]
      labels := []
      epilogue := some 3
      resultRegister := .v0 }
  env := { variableType := fun _ => none, variableName := Variable.text, resultType := none }
  config := .standard
  liveAfter := #[]

theorem guardedCall_delaysAssign : guardedCall.routine.DelaysAssign := by
  rintro site branch op ⟨instr, hcode, hop⟩ hdelay
  match site, hcode with
  | 0, hcode =>
    cases hcode
    cases hop
    cases hdelay
    exact ⟨_, _, rfl⟩
  | 1, hcode | 2, hcode | 3, hcode =>
    cases hcode
    cases hop

theorem guardedCall_keeps_effects :
    ∃ root s', (guardedCall.build
        (.sequence [.conditional [⟨.block 0, .block 1⟩] none, .block 2])).run default =
          (.ok root, s') ∧
      ((s'.pool.elementsIn root).map s'.pool.element).countP Element.isCall = 1 ∧
      ((s'.pool.elementsIn root).map s'.pool.element).countP Element.isStore = 1 ∧
      ((s'.pool.elementsIn root).map s'.pool.element).countP (Element.isOperationAt 3) = 1 := by
  have hok : ((guardedCall.build (.sequence [.conditional [⟨.block 0, .block 1⟩] none,
      .block 2])).run default).1.toBool = true := by decide +kernel
  rcases hrun : (guardedCall.build (.sequence [.conditional [⟨.block 0, .block 1⟩] none,
      .block 2])).run default with ⟨e | root, s'⟩
  · rw [hrun] at hok
    cases hok
  · obtain ⟨-, hcalls, hstores, hoperations⟩ := build_keeps_effects guardedCall_delaysAssign hrun
    exact ⟨root, s', rfl, hcalls, hstores, hoperations 3 rfl⟩

end Context

end Decompiler
