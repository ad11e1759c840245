import Decompiler.Proofs.Structure.Pieces

/-!
What a conditional deposits: a control structure, or a value that its arms no longer
assign.
-/

namespace Decompiler

open TryFoldM List

namespace FoldState

variable {s : FoldState} {E : List Held} {hs : List Root}

/-- A trailing assignment of a form can give way to its value. -/
theorem Lists.spliceTrailing {t : FormTree} (h : s.Lists E (.tree t :: hs)) :
    ∃ t' : FormTree, t'.id = t.id ∧ t'.marks = t.marks ∧
      { s with pool := s.pool.spliceTrailing t.id }.Lists E (.tree t' :: hs) := by
  have htree : s.pool.Holds t := h.holds mem_cons_self
  unfold Pool.spliceTrailing
  split
  · rename_i dst source ordered notes hlast
    obtain ⟨init, n, value, ht, helem, hkids, rfl⟩ := htree.exists_trailingSet hlast
    have helements := htree.elementsOf_eq
    rw [ht] at h helements ⊢
    refine ⟨.mk t.id (init ++ value.nodes), rfl, ?_, ?_⟩
    · have hset : n.marks = value.marks := by
        rw [Node.marks, helem, hkids, map_singleton, sum_singleton]
        exact zero_add _
      rw [FormTree.marks_mk, FormTree.marks_mk, map_append, map_append, sum_append,
        sum_append, map_singleton, sum_singleton, hset, value.marks_eq]
    · rw [helements, FormTree.nodes_mk, map_append, map_singleton, dropLast_concat]
      exact h.onPool (h.owns.takeLast hkids).spliceForm
  · exact ⟨t, rfl, rfl, h⟩

/-- Forms in the hands stay there when their trailing assignments give way to their values. -/
theorem Gives.spliceTrailing {M : Multiset Mark} {C : List (Node FormTree)} {fs gs : List FormId}
    (h : s.Gives M C (fs ++ gs) hs) :
    { s with pool := fs.foldl Pool.spliceTrailing s.pool }.Gives M C (fs ++ gs) hs := by
  induction fs generalizing s hs with
  | nil => exact h
  | cons f fs ih =>
    obtain ⟨t, rfl, ts, hts, E, hlists, hM, hC⟩ := gives_cons_iff.1 h
    obtain ⟨t', hid, hmarks, hlists'⟩ := (hlists.perm perm_middle).spliceTrailing
    have hrest : { s with pool := s.pool.spliceTrailing t.id }.Gives M C (fs ++ gs)
        (.tree t' :: hs) := by
      refine ⟨ts, hts, E, hlists'.perm perm_middle.symm, ?_, hC⟩
      rw [← hM, Root.allMarks_append, Root.allMarks_append, Root.allMarks_cons, Root.allMarks_cons,
        Root.marks, Root.marks, hmarks]
    exact gives_cons_iff.2 ⟨t', hid, ih hrest⟩

end FoldState

namespace Context

variable {cx : Context} {depth : Nat} {s : FoldState} {hs : List Root}
  {tests bodies : List FormTree} {finish : BlockId} {α : Type} {other : Option FormTree}

theorem buildArm_builds {piece : Piece} {account : RegionAccount} {required : Bool}
    (h : piece.Meets cx account) :
    (cx.buildArm piece finish required depth).Builds (cx.ArmMakes finish required account) := by
  intro s M C hs hholds
  rw [buildArm, ends_bind, ends_ofExcept]
  intro jump hjump
  rw [h.region] at hjump
  cases jump with
  | none =>
    refine (buildPiece_builds h s M C hs hholds).mono fun f s' hbuilt => ?_
    obtain ⟨t, ht, hmakes, hholds'⟩ := hbuilt
    exact ⟨t, ht, ⟨none, hjump, hmakes⟩, hholds'⟩
  | some entry =>
    refine ((pushThroughDelay_deposits h).builds s M C hs hholds).mono fun f s' hbuilt => ?_
    obtain ⟨t, ht, hmakes, hholds'⟩ := hbuilt
    exact ⟨t, ht, ⟨some entry, hjump, hmakes⟩, hholds'⟩

variable {C : List (Node FormTree)} {M : Multiset Mark} {accounts : List RegionAccount}
  {alt : Bool} {as : List α} {β : Type} {armAccounts : List (RegionAccount × RegionAccount)}
  {arms : List (Piece × Piece)}

/-- Built arms are in the hands, with their marks. -/
theorem buildArms_holds {pieces : List Piece}
    (hmeets : List.Forall₂ (Piece.Meets cx) pieces accounts) (h : s.Holds M C hs) :
    (cx.buildArms finish alt depth pieces).Ends s fun fs s' =>
      ∃ ts : List FormTree, ts.map FormTree.id = fs ∧ cx.ArmsMake finish alt accounts ts ∧
        s'.Holds (M + (ts.map FormTree.marks).sum) C (ts.map .tree ++ hs) := by
  induction hmeets generalizing s M hs with
  | nil =>
    rw [buildArms, ends_pure]
    refine ⟨[], rfl, .nil, ?_⟩
    rw [map_nil, sum_nil, add_zero]
    exact h
  | @cons piece account pieces accounts hfirst hrest ih =>
    rw [buildArms]
    refine (buildArm_builds hfirst s M C hs h).bind fun f s₁ hbuilt => ?_
    obtain ⟨t, rfl, hmakes, h₁⟩ := hbuilt
    refine (ih h₁).bind fun fs s₂ hmore => ?_
    obtain ⟨ts, rfl, hmake, h₂⟩ := hmore
    rw [ends_pure]
    refine ⟨t :: ts, rfl, .cons ?_ hmake, ?_⟩
    · have hempty : accounts.isEmpty = pieces.isEmpty := by cases hrest <;> rfl
      rw [hempty]
      exact hmakes
    · rw [map_cons, sum_cons, ← add_assoc]
      exact h₂.perm perm_middle

theorem buildOption_holds {piece : Option Piece} {account : Option RegionAccount}
    (hmeets : Option.Rel (Piece.Meets cx) piece account) (h : s.Holds M C hs) :
    (buildOption piece depth).Ends s fun f s' =>
      ∃ t : Option FormTree, t.map FormTree.id = f ∧
        List.Forall₂ (fun item t => Deposit.Makes item.whole t) account.toList t.toList ∧
        s'.Holds (M + (t.toList.map FormTree.marks).sum) C (t.toList.map .tree ++ hs) := by
  cases hmeets with
  | none =>
    rw [buildOption, ends_pure]
    refine ⟨none, rfl, .nil, ?_⟩
    rw [Option.toList_none, map_nil, sum_nil, add_zero]
    exact h
  | some hsome =>
    rw [buildOption]
    refine (buildPiece_builds hsome s M C hs h).bind fun f s' hbuilt => ?_
    obtain ⟨t, rfl, hmakes, h'⟩ := hbuilt
    rw [ends_pure]
    refine ⟨some t, rfl, .cons hmakes .nil, ?_⟩
    rw [Option.toList_some, map_singleton, sum_singleton]
    exact h'

/-- Steps that each put one tree into the hands. -/
theorem mapM_holds {γ : Type} {step : α → TryFoldM β} (form : β → FormId) {R : γ → FormTree → Prop}
    {cs : List γ} {Q : α → γ → Prop} (hall : List.Forall₂ Q as cs)
    (hstep : ∀ a c, Q a c → ∀ s M hs, s.Holds M C hs → (step a).Ends s fun b s' =>
      ∃ t : FormTree, t.id = form b ∧ R c t ∧ s'.Holds (M + t.marks) C (.tree t :: hs))
    (h : s.Holds M C hs) :
    (as.mapM step).Ends s fun bs s' =>
      ∃ ts : List FormTree, bs.map form = ts.map FormTree.id ∧ List.Forall₂ R cs ts ∧
        s'.Holds (M + (ts.map FormTree.marks).sum) C (ts.map .tree ++ hs) := by
  induction hall generalizing s M hs with
  | nil =>
    rw [mapM_nil, ends_pure]
    refine ⟨[], rfl, .nil, ?_⟩
    rw [map_nil, sum_nil, add_zero]
    exact h
  | @cons a c as cs hfirst hrest ih =>
    rw [mapM_cons]
    refine (hstep a c hfirst s M hs h).bind fun b s₁ hone => ?_
    obtain ⟨t, ht, hR, h₁⟩ := hone
    refine (ih h₁).bind fun bs s₂ hmore => ?_
    obtain ⟨ts, hts, hRs, h₂⟩ := hmore
    rw [ends_pure]
    refine ⟨t :: ts, ?_, .cons hR hRs, ?_⟩
    · rw [map_cons, map_cons, ht, hts]
    · rw [map_cons, sum_cons, ← add_assoc]
      exact h₂.perm perm_middle

theorem ArmsMake.length_eq {ts : List FormTree} (h : cx.ArmsMake finish alt accounts ts) :
    ts.length = accounts.length := by
  induction h with
  | nil => rfl
  | cons harm hrest ih => rw [length_cons, length_cons, ih]

theorem zip_flatMap_perm {bs : List α} (h : as.length = bs.length) :
    (as ++ bs).Perm ((as.zip bs).flatMap fun pair => [pair.1, pair.2]) := by
  induction as generalizing bs with
  | nil =>
    rw [eq_nil_of_length_eq_zero h.symm]
    exact .nil
  | cons a as ih =>
    cases bs with
    | nil => cases h
    | cons b bs =>
      rw [zip_cons_cons, flatMap_cons]
      exact .cons a (perm_middle.trans (.cons b (ih (Nat.succ_inj.1 h))))

/-- The children of a conditional are its tests, its arms and its alternative. -/
theorem conditionalKids_perm (other : Option FormTree) (h : tests.length = bodies.length) :
    (tests ++ (other.toList ++ bodies)).Perm (conditionalKids tests bodies other) := by
  have hswap : (tests ++ (other.toList ++ bodies)).Perm ((tests ++ bodies) ++ other.toList) := by
    rw [append_assoc]
    exact perm_append_comm.append_left tests
  exact hswap.trans ((zip_flatMap_perm h).append_right other.toList)

theorem conditionalKids_holds (hlength : tests.length = bodies.length)
    (h : s.Holds (M + (bodies.map FormTree.marks).sum + (other.toList.map FormTree.marks).sum +
      (tests.map FormTree.marks).sum) C
      (tests.map .tree ++ (other.toList.map .tree ++ (bodies.map .tree ++ hs)))) :
    s.Holds (M + ((conditionalKids tests bodies other).map FormTree.marks).sum) C
      ((conditionalKids tests bodies other).map .tree ++ hs) := by
  have hperm := conditionalKids_perm other hlength
  have hmarks := (hperm.map FormTree.marks).sum_eq
  rw [map_append, map_append, sum_append, sum_append, add_comm,
    add_comm (other.toList.map FormTree.marks).sum] at hmarks
  rw [← hmarks, ← add_assoc, ← add_assoc]
  refine h.perm ?_
  rw [← append_assoc, ← append_assoc, ← map_append, ← map_append, append_assoc]
  exact (hperm.map Root.tree).append_right hs

/-- The arms and the alternative of a conditional can give up their trailing assignments. -/
theorem spliceArms_gives (hlength : tests.length = bodies.length)
    (h : s.Holds M C ((conditionalKids tests bodies other).map .tree ++ hs)) :
    { s with
      pool := (bodies.map FormTree.id ++ (other.map FormTree.id).toList).foldl
        Pool.spliceTrailing s.pool }.Gives M C
      ((conditionalKids tests bodies other).map FormTree.id) hs := by
  have hids : ((conditionalKids tests bodies other).map FormTree.id).Perm
      ((bodies.map FormTree.id ++ (other.map FormTree.id).toList) ++ tests.map FormTree.id) := by
    rw [Option.toList_map, ← map_append, ← map_append]
    apply List.Perm.map
    exact (conditionalKids_perm other hlength).symm.trans
      (perm_append_comm.trans (perm_append_comm.append_right _))
  have hgives : s.Gives M C ((conditionalKids tests bodies other).map FormTree.id) hs := ⟨_, rfl, h⟩
  exact (hgives.perm hids).spliceTrailing.perm hids.symm

theorem conditionalElement_children {captured : List CapturedTest} {value : Option Variable}
    (hcaptured : captured.map CapturedTest.form = tests.map FormTree.id) :
    (conditionalElement captured (bodies.map FormTree.id) (other.map FormTree.id) value).children =
      (conditionalKids tests bodies other).map FormTree.id := by
  have hzip : ∀ {captured : List CapturedTest} {tests bodies : List FormTree},
      captured.map CapturedTest.form = tests.map FormTree.id →
      ((captured.zip (bodies.map FormTree.id)).flatMap fun arm => [arm.1.form, arm.2]) =
        ((tests.zip bodies).flatMap fun arm => [arm.1, arm.2]).map FormTree.id := by
    intro captured tests bodies h
    induction captured generalizing tests bodies with
    | nil =>
      rw [map_eq_nil_iff.1 h.symm]
      rfl
    | cons first captured ih =>
      obtain ⟨t, ts, rfl, ht, hts⟩ := map_eq_cons_iff.1 h.symm
      cases bodies with
      | nil => rfl
      | cons body bodies =>
        rw [map_cons, zip_cons_cons, zip_cons_cons, flatMap_cons,
          flatMap_cons, ih hts.symm, map_append, map_cons, map_singleton, ht]
  rw [conditionalKids, map_append, ← hzip hcaptured]
  cases other with
  | none =>
    rw [Option.map_none, conditionalElement, Element.children, flatMap_map]
    exact (append_nil _).symm
  | some other =>
    rw [Option.map_some, conditionalElement, Element.children, flatMap_map]
    rfl

theorem conditionalElement_isControl (captured : List CapturedTest) (bodies : List FormId)
    (other : Option FormId) (value : Option Variable) :
    (conditionalElement captured bodies other value).isControl = true := by
  cases other <;> rfl

theorem conditionalElement_marks (captured : List CapturedTest) (bodies : List FormId)
    (other : Option FormId) (dst : Variable) :
    (conditionalElement captured bodies other (some dst)).marks = {.rewritten} := by
  cases other <;> rfl

/-- A conditional whose branches have been checked. -/
theorem pushArms_deposits {alt : Option Piece} {other : Option RegionAccount}
    {branches : List (Nat × Branch)} {block : BlockId} {last : RegionAccount × RegionAccount}
    (hmeets : List.Forall₂ (fun arm account => arm.1.Meets cx account.1 ∧ arm.2.Meets cx account.2)
      arms armAccounts) (hother : Option.Rel (Piece.Meets cx) alt other)
    (hlast : armAccounts.getLast? = some last)
    (hblock : (other.getD last.2).region.lastBlock? = some block)
    (hbranches : cx.routine.skippingBranches
      ((other.bind fun item => item.region.firstBlock?) <|> some (block + 1))
      (armAccounts.map fun arm => arm.1.region) = .ok branches) :
    (cx.pushArms arms alt branches (block + 1) depth).Deposits fun _ =>
      cx.ConditionalDeposit armAccounts other := by
  intro s M C hs hholds
  have hsome : alt.isSome = other.isSome := by cases hother <;> rfl
  have hbodies : List.Forall₂ (Piece.Meets cx) (arms.map Prod.snd) (armAccounts.map Prod.snd) :=
    forall₂_map_left_iff.2 (forall₂_map_right_iff.2 (hmeets.imp fun _ _ h => h.2))
  unfold pushArms
  rw [hsome]
  refine (buildArms_holds hbodies hholds).bind fun fs s₁ hbuilt => ?_
  obtain ⟨bodies, rfl, hmake, h₁⟩ := hbuilt
  refine (buildOption_holds hother h₁).bind fun f s₂ hbuilt => ?_
  obtain ⟨other', rfl, hmakeOther, h₂⟩ := hbuilt
  rw [ends_bind, ends_get]
  extract_lets value emit
  have hemit : value = none → emit = true := by
    intro hvalue
    rw [Bool.or_eq_true, hvalue]
    exact .inl rfl
  clear_value value emit
  refine (mapM_holds (R := fun account t => cx.Captures account.1 true emit t) CapturedTest.form
    hmeets (fun _ _ harm _ _ _ hholds => captureTest_ends harm.1 hholds) h₂).bind
      fun captured s₃ htests => ?_
  obtain ⟨tests, hcaptured, hcaptures, h₃⟩ := htests
  have hparts : cx.ConditionalParts armAccounts other emit tests bodies other' :=
    ⟨⟨last, block, branches, hlast, hblock, hbranches, hmake⟩, hcaptures, hmakeOther⟩
  have hlength : tests.length = bodies.length := by
    rw [← hcaptures.length_eq, hmake.length_eq, length_map]
  have h₄ := conditionalKids_holds hlength h₃
  have hchildren : (conditionalElement captured (bodies.map FormTree.id)
      (other'.map FormTree.id) value).children =
        (conditionalKids tests bodies other').map FormTree.id :=
    conditionalElement_children hcaptured
  extract_lets site element push
  cases value with
  | none =>
    rw [Option.isSome_none, if_neg Bool.false_ne_true]
    unfold push
    rw [ends_lift]
    refine (pushControl_holds h₄ hchildren (conditionalElement_isControl ..)).mono
      fun _ s₅ hnew => ?_
    obtain ⟨e, h₅⟩ := hnew
    rw [hemit rfl] at hparts
    rw [← add_zero M] at h₅
    exact ⟨0, _, .statement hparts hcaptured, h₅⟩
  | some dst =>
    rw [Option.isSome_some, if_pos rfl, ends_bind, ends_lift, FoldM.ends_changePool]
    unfold push
    rw [ends_lift]
    have hspliced := spliceArms_gives hlength h₄
    rw [← hchildren] at hspliced
    refine (pushControlValue_holds hspliced).mono fun _ s₅ h₅ => ?_
    rw [add_assoc, add_comm _ element.marks, conditionalElement_marks] at h₅
    refine ⟨_, [], .value hparts, ?_⟩
    rw [append_nil]
    exact h₅

theorem forall₂_getLast? {R : α → β → Prop} {bs : List β} (h : List.Forall₂ R as bs) :
    Option.Rel R as.getLast? bs.getLast? := by
  induction h with
  | nil => exact .none
  | @cons a b as bs hfirst hrest ih =>
    cases hrest with
    | nil => exact .some hfirst
    | cons hnext hrest =>
      rw [getLast?_cons_cons, getLast?_cons_cons]
      exact ih

/-- A conditional deposits a control structure or a value. -/
theorem pushConditional_deposits {alt : Option Piece} {other : Option RegionAccount}
    (hmeets : List.Forall₂ (fun arm account => arm.1.Meets cx account.1 ∧ arm.2.Meets cx account.2)
      arms armAccounts) (hother : Option.Rel (Piece.Meets cx) alt other) :
    (cx.pushConditional arms alt depth).Deposits fun _ =>
      cx.ConditionalDeposit armAccounts other := by
  have hlasts := forall₂_getLast? hmeets
  unfold pushConditional
  generalize harms : arms.getLast? = lastArm at hlasts ⊢
  generalize haccounts : armAccounts.getLast? = lastAccount at hlasts
  cases hlasts with
  | none => exact deposits_throw
  | @some arm account hlast =>
    have hregion : (alt.getD arm.2).region = (other.getD account.2).region := by
      cases hother with
      | none => exact hlast.2.region
      | some hsome => exact hsome.region
    have hfirst : (alt.bind fun piece => piece.region.firstBlock?) =
        other.bind fun item => item.region.firstBlock? := by
      cases hother with
      | none => rfl
      | some hsome => exact congrArg Region.firstBlock? hsome.region
    have htests : (arms.map fun arm => arm.1.region) = armAccounts.map fun arm => arm.1.region := by
      clear harms haccounts hregion
      induction hmeets with
      | nil => rfl
      | cons harm hrest ih => rw [map_cons, map_cons, harm.1.region, ih]
    dsimp only
    rw [hregion, hfirst, htests]
    cases hblock : (other.getD account.2).region.lastBlock? with
    | none => exact deposits_throw
    | some block =>
      intro s M C hs hholds
      rw [ends_bind, ends_ofExcept]
      intro branches hbranches
      exact pushArms_deposits hmeets hother haccounts hblock hbranches s M C hs hholds

end Context

end Decompiler
