import Decompiler.Proofs.Structure.Blocks
import Mathlib.Data.List.Forall2

/-!
The piece of a region deposits what the account of the region says.
-/

namespace Decompiler

open TryFoldM List

/-- A piece folds a region as an account says, and the account allows a block to be folded
without looking for idioms. -/
structure Piece.Meets (cx : Context) (piece : Piece) (account : RegionAccount) : Prop where
  region : piece.region = account.region
  push : ∀ depth, (piece.push depth).Deposits fun _ => account.whole
  pushBody : ∀ depth, (piece.pushBody depth).Deposits fun _ => account.body
  block : ∀ id A D, piece.region = .block id →
    (Deposit.ofMarks (cx.BodyLeaves id)).seq (.ofMarks (cx.TerminatorLeaves id)) A D →
    account.whole A D

/-- A step that builds a form puts its tree into the hands. -/
def TryFoldM.Builds (m : TryFoldM FormId) (R : FormTree → Prop) : Prop :=
  ∀ s M C hs, s.Holds M C hs →
    m.Ends s fun f s' =>
      ∃ t : FormTree, t.id = f ∧ R t ∧ s'.Holds (M + t.marks) C (.tree t :: hs)

theorem TryFoldM.builds_onFreshStack {m : TryFoldM FormId} {R : FormTree → Prop}
    (h : ∀ (s : FoldState) (hs : List Root), s.Lists [] hs → m.Ends s fun f s' =>
      ∃ t : FormTree, t.id = f ∧ R t ∧ s'.Lists [] (.tree t :: hs)) :
    (TryFoldM.onFreshStack m).Builds R := by
  intro s M C hs hholds
  refine (hholds.onFreshStack (R := fun f new =>
    ∃ t : FormTree, new = [.tree t] ∧ t.id = f ∧ R t) fun s hs hlists => ?_).mono ?_
  · refine (h s hs hlists).mono fun f s' hbuilt => ?_
    obtain ⟨t, ht, hR, hlists'⟩ := hbuilt
    exact ⟨[.tree t], hlists', t, rfl, ht, hR⟩
  · rintro f s' ⟨new, hholds', t, rfl, ht, hR⟩
    rw [Root.allMarks_cons, Root.allMarks_nil, add_zero] at hholds'
    exact ⟨t, ht, hR, hholds'⟩

/-- On a stack of its own, what a step deposits becomes a form. -/
theorem TryFoldM.Deposits.builds {m : TryFoldM Unit} {P : Deposit} (h : m.Deposits fun _ => P) :
    (TryFoldM.onFreshStack do
      m
      FoldM.takeForm).Builds P.Makes := by
  refine builds_onFreshStack fun s hs hlists => ?_
  refine (h s _ _ hs hlists.toHolds).bind fun _ s' hdeposit => ?_
  obtain ⟨A, D, hP, hholds'⟩ := hdeposit
  rw [ends_lift]
  refine hholds'.takeForm.mono fun f s'' hform => ?_
  obtain ⟨ns, A', hshows, hmarks, hlists'⟩ := hform
  obtain rfl : A' = A := by
    rw [add_comm] at hmarks
    exact add_left_cancel hmarks
  exact ⟨.mk f ns, rfl, ⟨A', D, hP, hshows⟩, hlists'⟩

namespace Context

variable {cx : Context} {depth : Nat} {pieces : List Piece} {accounts : List RegionAccount}
  {account : RegionAccount} {site : Nat} {s : FoldState} {hs : List Root} {piece : Piece}
  {branch : Branch}

theorem pushPieces_skip (skip : Nat) (pieces : List Piece) :
    cx.pushPieces depth skip pieces = cx.pushPieces depth 0 (pieces.drop skip) := by
  induction pieces generalizing skip with
  | nil =>
    rw [drop_nil]
    cases skip <;> rfl
  | cons piece rest ih =>
    cases skip with
    | zero => rfl
    | succ skip =>
      rw [pushPieces, ih, drop_succ_cons]

section

variable (h : List.Forall₂ (Piece.Meets cx) pieces accounts)
include h

theorem map_region_eq : pieces.map Piece.region = accounts.map RegionAccount.region := by
  induction h with
  | nil => rfl
  | cons hfirst hrest ih => rw [map_cons, map_cons, hfirst.region, ih]

/-- Pieces one after another deposit what their accounts say. -/
theorem pushPieces_deposits :
    (cx.pushPieces depth 0 pieces).Deposits fun _ => cx.ItemsDeposit accounts := by
  -- The induction is on the number of pieces, since an idiom takes several of them.
  induction hlength : pieces.length using Nat.strong_induction_on generalizing pieces accounts with
  | _ length ih =>
    subst hlength
    cases h with
    | nil =>
      rw [pushPieces]
      refine (deposits_pure _).mono fun _ A D hnone => ?_
      rw [hnone.1, hnone.2]
      exact .nil
    | @cons piece account rest accounts hfirst hrest =>
      rw [pushPieces]
      refine (tryIdioms_deposits.bind
        (Q := fun used _ => match used with
          | 0 => cx.ItemsDeposit (account :: accounts)
          | used + 1 => cx.ItemsDeposit (accounts.drop used)) ?_).mono ?_
      · intro used _
        cases used with
        | succ used =>
          dsimp only
          rw [pushPieces_skip]
          refine ih _ ?_ (forall₂_drop used hrest) rfl
          rw [length_drop, length_cons]
          omega
        | zero =>
          have hall : ∀ {m : TryFoldM Unit}, (m.Deposits fun _ => account.whole) →
              (m >>= fun _ => cx.pushPieces depth 0 rest).Deposits fun _ =>
                cx.ItemsDeposit (account :: accounts) := by
            intro m hone
            refine (hone.bind fun _ _ => ih _ (Nat.lt_succ_self _) hrest rfl).mono ?_
            rintro _ A D ⟨_, A₁, D₁, A₂, D₂, hwhole, hmore, rfl, rfl⟩
            exact .item hwhole hmore
          dsimp only
          split
          · rename_i id hid
            exact hall (pushBlock_deposits.mono fun _ A D hblock => hfirst.block id A D hid hblock)
          · exact hall (hfirst.push _)
      · rintro _ A D ⟨used, A₁, D₁, A₂, D₂, ⟨hD₁, htried⟩, hmore, rfl, rfl⟩
        subst hD₁
        rcases htried with ⟨rfl, rfl⟩ | ⟨hpos, id, hidiom, hprefix⟩
        · rw [zero_add]
          exact hmore
        · obtain ⟨used, rfl⟩ := Nat.exists_eq_succ_of_ne_zero (Nat.pos_iff_ne_zero.1 hpos)
          have hregions : ((account :: accounts).take (used + 1)).map RegionAccount.region =
              (List.range' id (used + 1)).map .block := by
            rw [map_take, map_region_eq (.cons hfirst hrest)] at hprefix
            have hfull := hprefix.trans (List.take_prefix 3 _)
            rw [map_take, prefix_iff_eq_take.1 hfull, length_map, length_range']
          rw [nil_append, ← take_append_drop (used + 1) (account :: accounts)]
          exact .idiom hidiom hregions hmore

theorem buildPieces_builds :
    (cx.buildPieces pieces depth).Builds (Deposit.Makes (cx.ItemsDeposit accounts)) :=
  (pushPieces_deposits h).builds

end

theorem buildPiece_builds (h : piece.Meets cx account) :
    (buildPiece piece depth).Builds (Deposit.Makes account.whole) := (h.push depth).builds

theorem pushThroughDelay_deposits (h : piece.Meets cx account) :
    (cx.pushThroughDelay piece site branch depth).Deposits fun _ =>
      ThroughDelay account site branch := by
  refine ((h.pushBody depth).bind fun _ _ => pushDelay_deposits).mono ?_
  rintro _ A D ⟨_, hboth⟩
  exact hboth

theorem pushTestDelay_deposits {region : Region} :
    (cx.pushTestDelay region site branch).Deposits fun _ =>
      .ofMarks (DelayLeaves site branch) := by
  unfold pushTestDelay DelayLeaves
  cases branch.delaySlot? with
  | none => exact deposits_pure _
  | some op =>
    dsimp only
    split
    · intro s M C hs hholds
      simp
    · split
      · intro s M C hs hholds
        simp
      · exact pushOperation_deposits

variable {C : List (Node FormTree)} {M : Multiset Mark} {flipped : Bool} {result : Option Register}
  {element : Element}

theorem capturedCondition_holds (h : s.Holds M C hs) :
    (cx.capturedCondition site branch flipped result).Ends s fun f s' =>
      ∃ t : FormTree, t.id = f ∧ ConditionTree cx site flipped t ∧ s'.Holds M C (.tree t :: hs) := by
  unfold capturedCondition
  dsimp only
  split
  · split
    · refine FoldM.ends_bind.2 (FoldM.ends_take.2 ⟨fun _ => ?_, fun f stack hpop => ?_⟩)
      · exact (atomForm_gives h).bind fun f s' hf => addCondition_holds cx hf
      · exact addCondition_holds cx (h.popRegister hpop)
    · exact buildCondition_holds h
  · exact buildCondition_holds h

/-- A test has what waits on the stack in front of the condition. -/
theorem finishTest_holds (h : s.Holds (Root.allMarks hs + M) C hs) :
    (cx.finishTest site branch flipped result).Ends s fun test s' =>
      ∃ (condition : FormTree) (ns : List (Node FormTree)) (A : Multiset Mark),
        condition.id = test.form ∧ ConditionTree cx site flipped condition ∧ Shows ns A C ∧
        A + condition.marks = M ∧
        s'.Lists [] (.tree (.mk test.form (ns ++ condition.nodes)) :: hs) := by
  rw [finishTest]
  refine (capturedCondition_holds h).bind fun form s' hcondition => ?_
  obtain ⟨condition, rfl, hcondition, hholds⟩ := hcondition
  refine hholds.takeStatements.bind fun statements s'' hstatements => ?_
  obtain ⟨ns, A, rfl, hshows, hmarks, hlists⟩ := hstatements
  rw [FoldM.ends_bind, FoldM.ends_changePool]
  have hall : A + condition.marks = M := by
    rw [Root.allMarks_cons, ← add_assoc, add_comm (Root.allMarks hs)] at hmarks
    exact add_right_cancel hmarks
  split
  · exact ⟨condition, ns, A, rfl, hcondition, hshows, hall, hlists.setElements_append⟩
  · exact ⟨condition, ns, A, rfl, hcondition, hshows, hall, hlists.setElements_append⟩

/-- A captured test has what the region computes in front of the condition. -/
theorem captureTest_ends {emit : Bool} (hmeets : piece.Meets cx account) (h : s.Holds M C hs) :
    (cx.captureTest piece flipped emit result depth).Ends s fun test s' =>
      ∃ t : FormTree, t.id = test.form ∧ cx.Captures account flipped emit t ∧
        s'.Holds (M + t.marks) C (.tree t :: hs) := by
  rw [captureTest, ends_bind, ends_ofExcept]
  rintro ⟨site, branch⟩ hbranch
  rw [hmeets.region] at hbranch
  refine (h.onFreshStack (R := fun test new => ∃ t : FormTree, new = [.tree t] ∧
    t.id = test.form ∧ cx.Captures account flipped emit t) ?_).mono ?_
  · intro s hs hlists
    refine (hmeets.pushBody _ s _ _ hs hlists.toHolds).bind fun _ s' hdeposit => ?_
    obtain ⟨A, D, hbody, hholds⟩ := hdeposit
    -- Whether or not the delay slot runs in front of the test, the rest is the same.
    have hfinish : ∀ {s : FoldState} {B : Multiset Mark},
        (if emit then DelayLeaves site branch B else B = 0) →
        s.Holds (Root.allMarks hs + A + B) D hs →
        (cx.finishTest site branch flipped result).Ends s fun test s' =>
          ∃ new, s'.Lists [] (new ++ hs) ∧ ∃ t : FormTree, new = [.tree t] ∧
            t.id = test.form ∧ cx.Captures account flipped emit t := by
      intro s B hdelay hholds
      rw [add_assoc] at hholds
      refine (finishTest_holds hholds).mono fun test s' hfinished => ?_
      obtain ⟨condition, ns, A', hid, hcondition, hshows, hall, hlists'⟩ := hfinished
      exact ⟨[.tree _], hlists', _, rfl, rfl, .intro hbranch hbody hdelay hcondition hshows hall⟩
    rw [nil_append] at hholds
    dsimp only
    split
    · rename_i hemit
      refine (pushTestDelay_deposits s' _ _ hs hholds).bind fun _ s'' hdeposit => ?_
      obtain ⟨B, D', ⟨hdelay, rfl⟩, hholds'⟩ := hdeposit
      rw [append_nil] at hholds'
      refine ends_lift.2 (hfinish ?_ hholds')
      rw [if_pos hemit]
      exact hdelay
    · rename_i hemit
      refine ends_lift.2 (hfinish (B := 0) (by rw [if_neg hemit]) ?_)
      rw [add_zero]
      exact hholds
  · rintro test s' ⟨new, hholds', t, rfl, ht, hcaptures⟩
    refine ⟨t, ht, hcaptures, ?_⟩
    rw [Root.allMarks_cons, Root.allMarks_nil, add_zero] at hholds'
    exact hholds'

theorem pushControl_holds {ts : List FormTree}
    (h : s.Holds (M + (ts.map FormTree.marks).sum) C (ts.map .tree ++ hs))
    (hchildren : element.children = ts.map FormTree.id) (hcontrol : element.isControl = true) :
    (cx.pushControl site element).Ends s fun _ s' =>
      ∃ e, s'.Holds M (C ++ [⟨e, element, ts⟩]) hs := by
  rw [pushControl]
  refine (h.pushControl hchildren hcontrol).bind fun e s' hnew => ?_
  rw [noteControl, FoldM.ends_bind, FoldM.ends_get, FoldM.ends_note]
  exact ⟨e, hnew⟩

theorem pushControlValue_holds {dst : Variable} (h : s.Gives M C element.children hs) :
    (cx.pushControlValue site dst element).Ends s fun _ s' =>
      s'.Holds (M + element.marks) C hs := by
  rw [pushControlValue]
  refine h.addSingle.bind fun f s' hf => ?_
  rw [FoldM.ends_bind, FoldM.ends_get]
  split
  · rw [FoldM.ends_bind, noteControl, FoldM.ends_bind, FoldM.ends_get, FoldM.ends_note]
    exact FoldState.Gives.ends_pushValue hf
  · exact hf.ends_pushValue

theorem meets_getLastD {first : Piece} (hfirst : first.Meets cx account)
    (h : List.Forall₂ (Piece.Meets cx) pieces accounts) :
    (pieces.getLastD first).Meets cx (accounts.getLastD account) := by
  induction h generalizing first account with
  | nil => exact hfirst
  | cons hnext hrest ih =>
    rw [getLastD_cons, getLastD_cons]
    exact ih hnext

theorem meets_dropLast (h : List.Forall₂ (Piece.Meets cx) pieces accounts) :
    List.Forall₂ (Piece.Meets cx) pieces.dropLast accounts.dropLast := by
  rw [dropLast_eq_take, dropLast_eq_take, h.length_eq]
  exact forall₂_take _ h

theorem buildLoopBody_builds {items : List Piece} {last : Piece} {back : Branch}
    (hitems : List.Forall₂ (Piece.Meets cx) items accounts) (hlast : last.Meets cx account) :
    (cx.buildLoopBody items last site back depth).Builds
      (Deposit.Makes ((cx.ItemsDeposit accounts).seq (ThroughDelay account site back))) := by
  have hboth : (do
      cx.pushPieces (depth + 1) 0 items
      cx.pushThroughDelay last site back (depth + 1)).Deposits fun _ =>
        (cx.ItemsDeposit accounts).seq (ThroughDelay account site back) := by
    refine ((pushPieces_deposits hitems).bind fun _ _ => pushThroughDelay_deposits hlast).mono ?_
    rintro _ A D ⟨_, hboth⟩
    exact hboth
  have hbuilds := hboth.builds
  rw [bind_assoc] at hbuilds
  exact hbuilds

/-- The loop element takes the marks of its test and of its body. -/
theorem pushLoopElement_holds {kind : LoopKind} {test : CapturedTest} {body : FormId}
    {t u : FormTree} (h : s.Holds (M + t.marks + u.marks) C (.tree u :: .tree t :: hs))
    (hchildren : (Element.loop kind test.form body test.clean).children = [t.id, u.id]) :
    (cx.pushLoopElement kind test body).Ends s fun _ s' =>
      ∃ e, s'.Holds M (C ++ [⟨e, .loop kind test.form body test.clean, [t, u]⟩]) hs := by
  have hboth : s.Holds (M + ([t, u].map FormTree.marks).sum) C ([t, u].map .tree ++ hs) := by
    rw [map_cons, map_singleton, sum_cons, sum_singleton, ← add_assoc]
    exact h.perm (List.Perm.swap _ _ _)
  exact pushControl_holds hboth hchildren rfl

theorem pushLoop_deposits (h : List.Forall₂ (Piece.Meets cx) pieces accounts) :
    (cx.pushLoop pieces depth).Deposits fun _ => cx.LoopDeposit accounts := by
  cases h with
  | nil => exact deposits_throw
  | @cons first account rest accounts hfirst hrest =>
    have hlast := meets_getLastD hfirst hrest
    intro s M C hs hholds
    rw [pushLoop, pushLoopParts, ends_bind, ends_ofExcept]
    intro layout hlayout
    rw [hfirst.region, hlast.region, map_region_eq hrest] at hlayout
    cases layout with
    | entersAtTest site jump =>
      dsimp only
      refine (pushThroughDelay_deposits hfirst s M C hs hholds).bind fun _ s₁ hdeposit => ?_
      obtain ⟨A, D, hthrough, h₁⟩ := hdeposit
      refine (buildPieces_builds (meets_dropLast hrest) s₁ _ _ _ h₁).bind fun f s₂ hbuilt => ?_
      obtain ⟨body, rfl, hbody, h₂⟩ := hbuilt
      refine (captureTest_ends hlast h₂).bind fun test s₃ hcaptured => ?_
      obtain ⟨t, ht, hcaptures, h₃⟩ := hcaptured
      rw [ends_lift]
      have h₄ : s₃.Holds (M + A + t.marks + body.marks) (C ++ D) (.tree body :: .tree t :: hs) := by
        rw [add_right_comm]
        exact h₃.perm (List.Perm.swap _ _ _)
      refine (pushLoopElement_holds h₄ (by rw [← ht]; rfl)).mono fun _ s₅ hnew => ?_
      obtain ⟨e, h₅⟩ := hnew
      rw [← ht, append_assoc] at h₅
      exact ⟨A, _, .entersAtTest hlayout hthrough hbody hcaptures, h₅⟩
    | testsLast =>
      dsimp only
      refine (buildPieces_builds (meets_dropLast (.cons hfirst hrest)) s M C hs hholds).bind
        fun f s₁ hbuilt => ?_
      obtain ⟨body, rfl, hbody, h₁⟩ := hbuilt
      refine (captureTest_ends hlast h₁).bind fun test s₂ hcaptured => ?_
      obtain ⟨t, ht, hcaptures, h₂⟩ := hcaptured
      rw [ends_lift]
      refine (pushLoopElement_holds h₂ (by rw [← ht]; rfl)).mono fun _ s₃ hnew => ?_
      obtain ⟨e, h₃⟩ := hnew
      rw [← ht, ← add_zero M] at h₃
      exact ⟨0, _, .testsLast hlayout hbody hcaptures, h₃⟩
    | testsFirst site back =>
      dsimp only
      refine (captureTest_ends hfirst hholds).bind fun test s₁ hcaptured => ?_
      obtain ⟨t, ht, hcaptures, h₁⟩ := hcaptured
      refine (buildLoopBody_builds (meets_dropLast hrest) hlast s₁ _ _ _ h₁).bind
        fun f s₂ hbuilt => ?_
      obtain ⟨body, rfl, hbody, h₂⟩ := hbuilt
      rw [ends_lift]
      refine (pushLoopElement_holds h₂ (by rw [← ht]; rfl)).mono fun _ s₃ hnew => ?_
      obtain ⟨e, h₃⟩ := hnew
      rw [← ht, ← add_zero M] at h₃
      exact ⟨0, _, .testsFirst hlayout hcaptures hbody, h₃⟩

end Context

end Decompiler
