import Decompiler.Proofs.Structure.Conditionals

/-!
What chains and exits deposit, and with them every region: the piece of a region meets
its account.
-/

namespace Decompiler

open TryFoldM List

namespace Context

variable {cx : Context} {depth : Nat} {s : FoldState} {hs : List Root} {account : RegionAccount}
  {accounts : List RegionAccount} {site : Nat}

theorem forall₂_zip {α β γ : Type} {R : α → β → Prop} {as : List α} {bs : List β}
    (h : List.Forall₂ R as bs) (cs : List γ) :
    List.Forall₂ (fun p q => R p.1 q.1 ∧ p.2 = q.2) (as.zip cs) (bs.zip cs) := by
  induction h generalizing cs with
  | nil => exact .nil
  | cons hfirst hrest ih =>
    cases cs with
    | nil => exact .nil
    | cons c cs => exact .cons ⟨hfirst, rfl⟩ (ih cs)

variable {C : List (Node FormTree)} {M : Multiset Mark} {plan : ChainPlan} {pieces : List Piece}
  {region : Region} {dead : Option Region} {P : Deposit}

theorem captureEntry_holds {entry : Piece × ChainTest} (hmeets : entry.1.Meets cx account)
    (h : s.Holds M C hs) :
    (cx.captureEntry plan depth entry).Ends s fun built s' =>
      ∃ t : FormTree, t.id = built.condition ∧
        cx.Captures account (plan.kind == .conjunction) (!entry.2.defaulted.isSome) t ∧
        s'.Holds (M + t.marks) C (.tree t :: hs) := by
  rw [captureEntry]
  refine (captureTest_ends hmeets h).bind fun test s' hcaptured => ?_
  rw [ends_pure]
  exact hcaptured

theorem takeChainValue_gives {last : Region} {tail : FormId} {fs : List FormId}
    {register : Register} (h : s.Gives M C (tail :: fs) hs) :
    (cx.takeChainValue last tail register).Ends s fun _ s' => s'.Gives M C (tail :: fs) hs := by
  rw [takeChainValue, ends_bind, ends_get]
  split
  · rw [ends_bind, ends_lift, FoldM.ends_changePool, ends_pure]
    have hsingle : s.Gives M C ([tail] ++ fs) hs := h
    exact hsingle.spliceTrailing
  · simp only [ends_bind, ends_ofExcept, ends_throw]
    exact fun _ _ => trivial

/-- A chain that has been checked. -/
theorem pushPlannedChain_deposits {entries : List Piece} {last : Piece} {items : List RegionAccount}
    (hitems : items.dropLast = accounts) (hgetLast : items.getLast? = some account)
    (hmeets : List.Forall₂ (Piece.Meets cx) entries accounts) (hlast : last.Meets cx account)
    (hplan : cx.routine.chainPlan (accounts.map RegionAccount.region) account.region = .ok plan) :
    (cx.pushPlannedChain plan entries last depth).Deposits fun _ => cx.ChainDeposit items := by
  intro s M C hs hholds
  have hzip : List.Forall₂ (fun entry item => entry.1.Meets cx item.1 ∧ entry.2 = item.2)
      (entries.zip plan.tests) (accounts.zip plan.tests) := forall₂_zip hmeets plan.tests
  unfold pushPlannedChain
  refine (mapM_holds (R := fun item t => cx.Captures item.1 (plan.kind == .conjunction)
    (!item.2.defaulted.isSome) t) ChainEntry.condition hzip (fun entry item hentry _ _ _ hholds => by
      rw [← hentry.2]
      exact captureEntry_holds hentry.1 hholds) hholds).bind fun built s₁ htests => ?_
  obtain ⟨tests, hbuilt, hcaptures, h₁⟩ := htests
  refine (buildPiece_builds hlast s₁ _ _ _ h₁).bind fun f s₂ htail => ?_
  obtain ⟨tail, rfl, hmakes, h₂⟩ := htail
  have hparts : cx.ChainParts items plan tests tail := by
    refine ⟨account, hgetLast, ?_⟩
    rw [hitems]
    exact ⟨hplan, hcaptures, hmakes⟩
  have h₃ : s₂.Holds (M + ((tests ++ [tail]).map FormTree.marks).sum) C
      ((tests ++ [tail]).map .tree ++ hs) := by
    rw [map_append, map_append, sum_append, map_singleton, sum_singleton, ← add_assoc, append_assoc]
    exact h₂.perm perm_middle.symm
  rw [ends_bind]
  unfold chainFinal
  cases hresult : plan.result with
  | none =>
    rw [ends_pure]
    extract_lets lastEntry site used element
    have hentries : (built ++ [lastEntry]).map ChainEntry.condition =
        (tests ++ [tail]).map FormTree.id := by
      rw [map_append, map_append, hbuilt]
      rfl
    have hchildren : element.children = (tests ++ [tail]).map FormTree.id := hentries
    rw [ends_lift]
    refine (pushControl_holds h₃ hchildren rfl).mono fun _ s₄ hnew => ?_
    obtain ⟨e, h₄⟩ := hnew
    rw [← add_zero M] at h₄
    exact ⟨0, _, .statement hparts hresult hentries, h₄⟩
  | some register =>
    have hgives : s₂.Gives (M + ((tests ++ [tail]).map FormTree.marks).sum) C
        (tail.id :: tests.map FormTree.id) hs := by
      refine FoldState.Gives.perm ⟨_, rfl, h₃⟩ ?_
      rw [map_append]
      exact perm_append_comm
    rw [ends_map]
    refine (takeChainValue_gives hgives).mono fun dst s₃ htaken => ?_
    extract_lets lastEntry site used element
    have hchildren : s₃.Gives (M + ((tests ++ [tail]).map FormTree.marks).sum) C
        element.children hs := by
      refine htaken.perm ?_
      rw [Element.children, map_append, hbuilt]
      exact (perm_append_singleton tail.id _).symm
    rw [ends_lift]
    refine (pushControlValue_holds hchildren).mono fun _ s₄ h₄ => ?_
    rw [add_assoc, add_comm _ element.marks] at h₄
    refine ⟨_, [], .value hparts, ?_⟩
    rw [append_nil]
    exact h₄

/-- A chain deposits a control structure or a value. -/
theorem pushChain_deposits (h : List.Forall₂ (Piece.Meets cx) pieces accounts) :
    (cx.pushChain pieces depth).Deposits fun _ => cx.ChainDeposit accounts := by
  have hlasts := forall₂_getLast? h
  unfold pushChain
  generalize hpieces : pieces.getLast? = last at hlasts ⊢
  generalize haccounts : accounts.getLast? = account at hlasts
  cases hlasts with
  | none => exact deposits_throw
  | some hlast =>
    intro s M C hs hholds
    dsimp only
    rw [ends_bind, ends_ofExcept]
    intro plan hplan
    rw [map_region_eq (meets_dropLast h), hlast.region] at hplan
    exact pushPlannedChain_deposits rfl haccounts (meets_dropLast h) hlast hplan s M C hs hholds

theorem castResult_gives {f : FormId} (h : s.Gives M C [f] hs) :
    (cx.castResult site f).Ends s fun g s' => s'.Gives M C [g] hs := by
  unfold castResult
  split
  · exact castTo_gives h
  · exact h

theorem popResult_gives (h : s.Holds M C hs) :
    (cx.popResult site).Ends s fun value s' => s'.Gives M C value.toList hs := by
  refine FoldM.ends_bind.2 (FoldM.ends_take.2 ⟨fun _ => .nil h, fun f stack hpop => ?_⟩)
  exact castResult_gives (h.popTop hpop)

/-- Statements and the elements of a value make a form with the marks of both. -/
theorem addExitBody_lists {ns : List (Node FormTree)} {ts : List FormTree} {value : Option FormId}
    (hvalue : ts.map FormTree.id = value.toList)
    (h : s.Lists [] (ns.map .node ++ (ts.map .tree ++ hs))) :
    (FoldM.onPool fun p =>
      p.addBody (ns.map Node.id ++ (value.map s.pool.elementsOf).getD [])).Ends s fun f s' =>
        ∃ t : FormTree, t.id = f ∧
          t.marks = (ns.map Node.marks).sum + (ts.map FormTree.marks).sum ∧
          s'.Lists [] (.tree t :: hs) := by
  obtain ⟨ms, hids, hmarks, hlists⟩ : ∃ ms : List (Node FormTree),
      (value.map s.pool.elementsOf).getD [] = ms.map Node.id ∧
        (ms.map Node.marks).sum = (ts.map FormTree.marks).sum ∧
        s.Lists [] ((ns ++ ms).map .node ++ hs) := by
    cases value with
    | none =>
      rw [map_eq_nil_iff.1 hvalue] at h ⊢
      refine ⟨[], rfl, rfl, ?_⟩
      rw [append_nil]
      exact h
    | some g =>
      obtain ⟨t, rest, rfl, rfl, hrest⟩ := map_eq_cons_iff.1 hvalue
      rw [map_eq_nil_iff.1 hrest] at h ⊢
      have htree : s.pool.Holds t := h.holds (mem_append_right _ mem_cons_self)
      refine ⟨t.nodes, htree.elementsOf_eq, ?_, ?_⟩
      · rw [map_singleton, sum_singleton, t.marks_eq]
      · cases t with
        | mk g nodes =>
          have hopen := (h.perm perm_middle).openTree.sublist (sublist_cons_self _ _)
          refine hopen.perm ?_
          rw [FormTree.nodes_mk, map_append, ← append_assoc]
          exact perm_append_comm.append_right hs
  rw [hids, ← map_append]
  refine hlists.addBody.mono fun f s' hnew => ?_
  obtain ⟨ns', hlists', hbody⟩ := hnew
  refine ⟨.mk f ns', rfl, ?_, hlists'⟩
  rw [← hmarks, ← sum_append, ← map_append, FormTree.marks_mk]
  rcases hbody with rfl | ⟨hnil, e, rfl⟩
  · rfl
  · rw [hnil]
    rfl

/-- What a jump out leaves behind is a form with the marks of what came before it. -/
theorem buildExitCode_builds {piece : Piece} {jump : Branch} {returns : Bool}
    (hmeets : piece.Meets cx account) :
    (cx.buildExitCode piece site jump returns depth).Builds fun t =>
      ∃ A D, ThroughDelay account site jump A D ∧ t.marks = A + (D.map Node.marks).sum := by
  refine builds_onFreshStack fun s hs hlists => ?_
  refine (pushThroughDelay_deposits hmeets s _ _ hs hlists.toHolds).bind fun _ s₁ hdeposit => ?_
  obtain ⟨A, D, hthrough, h₁⟩ := hdeposit
  rw [nil_append] at h₁
  extract_lets body
  have hbody : ∀ {s : FoldState} {value : Option FormId},
      s.Gives (Root.allMarks hs + A) D value.toList hs → (body value).Ends s fun f s' =>
        ∃ t : FormTree, t.id = f ∧ (∃ A D, ThroughDelay account site jump A D ∧
          t.marks = A + (D.map Node.marks).sum) ∧ s'.Lists [] (.tree t :: hs) := by
    rintro s value ⟨ts, hts, hgives⟩
    unfold body
    rw [ends_bind, ends_lift]
    refine hgives.takeStatements.mono fun statements s' hstatements => ?_
    obtain ⟨ns, A', rfl, hshows, hall, hlists'⟩ := hstatements
    rw [ends_bind, ends_get, ends_lift]
    refine (addExitBody_lists hts hlists').mono fun f s'' hnew => ?_
    obtain ⟨t, rfl, hmarks, hlists''⟩ := hnew
    refine ⟨t, rfl, ⟨A, D, hthrough, ?_⟩, hlists''⟩
    rw [Root.allMarks_append, Root.allMarks_trees, ← add_assoc, add_comm] at hall
    rw [hmarks, hshows.marks_eq, add_right_comm, add_left_cancel hall]
  split
  · rw [ends_bind, ends_lift]
    exact (popResult_gives h₁).mono fun value s' hvalue => hbody hvalue
  · rw [ends_bind, ends_pure]
    exact hbody (FoldState.Gives.nil h₁)

theorem pushVerbatim_deposits (ids : List BlockId) :
    (ids.forM fun id => do
      let block ← TryFoldM.ofExcept (cx.routine.block id)
      cx.pushSites block.sites).Deposits fun _ => .ofMarks (cx.VerbatimLeaves ids) := by
  induction ids with
  | nil =>
    refine (deposits_pure _).mono fun _ A D hnone => ⟨?_, hnone.2⟩
    rw [hnone.1]
    exact .nil
  | cons id ids ih =>
    rw [List.forM]
    refine ((deposits_ofExcept.bind
      fun block _ => pushSites_deposits).bind fun _ _ => ih).mono fun _ A D hboth => ?_
    obtain ⟨_, A₁, D₁, A₂, D₂, ⟨block, B₁, _, B₂, _, ⟨hblock, rfl, rfl⟩, ⟨hsites, rfl⟩, rfl, rfl⟩,
      ⟨hrest, rfl⟩, rfl, rfl⟩ := hboth
    refine ⟨.cons hblock ?_ hrest, rfl⟩
    rw [zero_add]
    exact hsites

/-- All instructions of a region as they are. -/
theorem buildVerbatim_builds :
    (cx.buildVerbatim region).Builds fun t => cx.VerbatimLeaves region.blockIds t.marks := by
  have hverbatim : (TryFoldM.inVerbatim (region.blockIds.forM fun id => do
      let block ← TryFoldM.ofExcept (cx.routine.block id)
      cx.pushSites block.sites)).Deposits fun _ => .ofMarks (cx.VerbatimLeaves region.blockIds) := by
    intro s M C hs hholds
    rw [ends_inVerbatim]
    exact pushVerbatim_deposits region.blockIds { s with verbatim := true } M C hs hholds
  intro s M C hs hholds
  refine (hverbatim.builds s M C hs hholds).mono fun f s' hbuilt => ?_
  obtain ⟨t, ht, ⟨A, D, ⟨hleaves, rfl⟩, hshows⟩, hholds'⟩ := hbuilt
  have hmarks : t.marks = A := by
    rw [t.marks_eq, hshows.marks_eq]
    exact add_zero A
  rw [← hmarks] at hleaves
  exact ⟨t, ht, hleaves, hholds'⟩

theorem buildDead_holds (h : s.Holds M C hs) :
    (cx.buildDead dead).Ends s fun f s' =>
      ∃ t : Option FormTree, t.map FormTree.id = f ∧
        List.Forall₂ (fun region t => cx.VerbatimLeaves region.blockIds t.marks)
          dead.toList t.toList ∧
        s'.Holds (M + (t.toList.map FormTree.marks).sum) C (t.toList.map .tree ++ hs) := by
  cases dead with
  | none =>
    rw [buildDead, ends_pure]
    refine ⟨none, rfl, .nil, ?_⟩
    rw [Option.toList_none, map_nil, sum_nil, add_zero]
    exact h
  | some region =>
    rw [buildDead, ends_map]
    refine (buildVerbatim_builds s M C hs h).mono fun f s' hbuilt => ?_
    obtain ⟨t, rfl, hleaves, h'⟩ := hbuilt
    refine ⟨some t, rfl, .cons hleaves .nil, ?_⟩
    rw [Option.toList_some, map_singleton, sum_singleton]
    exact h'

/-- An exit deposits a control structure. -/
theorem pushExit_deposits {body : Piece} (hmeets : body.Meets cx account) :
    (cx.pushExit body dead depth).Deposits fun _ => cx.ExitDeposit account dead := by
  intro s M C hs hholds
  rw [pushExit, ends_bind, ends_ofExcept, hmeets.region]
  rintro ⟨site, jump⟩ hjump
  dsimp only
  refine (buildExitCode_builds hmeets s M C hs hholds).bind fun f s₁ hbuilt => ?_
  obtain ⟨code, rfl, ⟨A, D, hthrough, hmarks⟩, h₁⟩ := hbuilt
  refine (buildDead_holds h₁).bind fun g s₂ hbuilt => ?_
  obtain ⟨deads, rfl, hdead, h₂⟩ := hbuilt
  have h₃ : s₂.Holds (M + ((code :: deads.toList).map FormTree.marks).sum) C
      ((code :: deads.toList).map .tree ++ hs) := by
    rw [map_cons, sum_cons, ← add_assoc]
    exact h₂.perm perm_middle
  rw [ends_lift]
  refine (pushControl_holds h₃ ?_ rfl).mono fun _ s₄ hnew => ?_
  · rw [Element.children, map_cons, Option.toList_map]
  · obtain ⟨e, h₄⟩ := hnew
    rw [← add_zero M] at h₄
    exact ⟨0, _, .intro hjump hthrough hmarks hdead, h₄⟩

theorem limitDepth_deposits {step : TryFoldM Unit} (h : step.Deposits fun _ => P) :
    (cx.limitDepth depth step).Deposits fun _ => P := by
  unfold limitDepth
  split
  · exact deposits_throw
  · exact h

theorem blockPiece_meets (id : BlockId) : (cx.blockPiece id).Meets cx (cx.blockAccount id) where
  region := rfl
  push depth := by
    refine limitDepth_deposits ((tryIdioms_deposits.bind
      (Q := fun used _ => match used with
        | 0 => (Deposit.ofMarks (cx.BodyLeaves id)).seq (.ofMarks (cx.TerminatorLeaves id))
        | _ + 1 => .ofMarks fun A => A = 0) ?_).mono ?_)
    · intro used _
      cases used with
      | zero => exact pushBlock_deposits
      | succ used => exact deposits_pure _
    · rintro _ A D ⟨used, A₁, D₁, A₂, D₂, ⟨rfl, htried⟩, hrest, rfl, rfl⟩
      rcases htried with ⟨rfl, rfl⟩ | ⟨hpos, first, hidiom, hprefix⟩
      · rw [zero_add]
        exact .inr hrest
      · obtain ⟨used, rfl⟩ := Nat.exists_eq_succ_of_ne_zero (Nat.pos_iff_ne_zero.1 hpos)
        obtain ⟨rfl, rfl⟩ := hrest
        have hlength := hprefix.length_le
        rw [length_map, length_range', length_singleton] at hlength
        obtain rfl : used = 0 := by omega
        cases (cons_prefix_cons.1 hprefix).1
        rw [add_zero]
        exact .inl ⟨hidiom, rfl⟩
  pushBody depth := pushBlockBody_deposits.mono fun _ A D hbody => hbody.2
  block first A D hid hblock := by
    cases hid
    exact .inr hblock

theorem sequencePiece_meets (h : List.Forall₂ (Piece.Meets cx) pieces accounts) :
    (cx.sequencePiece pieces).Meets cx (cx.sequenceAccount accounts) where
  region := congrArg Region.sequence (map_region_eq h)
  push depth := limitDepth_deposits (pushPieces_deposits h)
  pushBody depth := by
    have hlasts := forall₂_getLast? h
    unfold sequencePiece sequenceAccount
    dsimp only
    generalize pieces.getLast? = last at hlasts ⊢
    generalize accounts.getLast? = account at hlasts ⊢
    cases hlasts with
    | none => exact deposits_pure _
    | some hlast =>
      refine ((pushPieces_deposits (meets_dropLast h)).bind fun _ _ => hlast.pushBody _).mono ?_
      rintro _ A D ⟨_, hboth⟩
      exact hboth
  block id A D hid hblock := by cases hid

theorem controlPiece_meets {region' : Region} {step : Nat → TryFoldM Unit}
    (hregion : region = region') (hcontrol : ∀ id, region ≠ .block id)
    (h : ∀ depth, (step depth).Deposits fun _ => P) :
    (cx.controlPiece region step).Meets cx (controlAccount region' P) where
  region := hregion
  push depth := limitDepth_deposits (h depth)
  pushBody depth := by
    refine ((limitDepth_deposits (h depth)).bind fun _ _ => deposits_pure none).mono ?_
    rintro _ A D ⟨_, A₁, D₁, A₂, D₂, hstep, ⟨rfl, rfl⟩, rfl, rfl⟩
    rw [add_zero, append_nil]
    exact hstep
  block id A D hid hblock := absurd hid (hcontrol id)

theorem option_region_eq {piece : Option Piece} {account : Option RegionAccount}
    (h : Option.Rel (Piece.Meets cx) piece account) :
    piece.map Piece.region = account.map RegionAccount.region := by
  cases h with
  | none => rfl
  | some h => exact congrArg some h.region

theorem arms_region_eq {arms : List (Piece × Piece)}
    {accounts : List (RegionAccount × RegionAccount)}
    (h : List.Forall₂ (fun arm account => arm.1.Meets cx account.1 ∧ arm.2.Meets cx account.2)
      arms accounts) :
    (arms.map fun arm => (⟨arm.1.region, arm.2.region⟩ : RegionArm)) =
      accounts.map fun arm => ⟨arm.1.region, arm.2.region⟩ := by
  induction h with
  | nil => rfl
  | cons harm hrest ih => rw [map_cons, map_cons, harm.1.region, harm.2.region, ih]

/-- The piece of a region meets its account. -/
theorem piece_meets (region : Region) : (cx.piece region).Meets cx (cx.account region) := by
  have hitems : ∀ items : List Region,
      (∀ item ∈ items, (cx.piece item).Meets cx (cx.account item)) →
        List.Forall₂ (Piece.Meets cx) (Region.foldItems cx.pieceRules items)
          (Region.foldItems cx.accountRules items) := by
    intro items h
    rw [Region.foldItems_eq_map, Region.foldItems_eq_map, forall₂_map_left_iff,
      forall₂_map_right_iff, forall₂_same]
    exact h
  have hoption : ∀ region : Option Region,
      (∀ r ∈ region, (cx.piece r).Meets cx (cx.account r)) →
        Option.Rel (Piece.Meets cx) (Region.foldOption cx.pieceRules region)
          (Region.foldOption cx.accountRules region) := by
    intro region h
    cases region with
    | none => exact .none
    | some region => exact .some (h region rfl)
  induction region using Region.induct with
  | hblock id => exact blockPiece_meets id
  | hsequence items ih => exact sequencePiece_meets (hitems items ih)
  | hloop items ih =>
    exact controlPiece_meets (congrArg Region.loop (map_region_eq (hitems items ih)))
      (fun _ h => by cases h) fun _ => pushLoop_deposits (hitems items ih)
  | hconditional arms alt iharms ihother =>
    have harms : List.Forall₂
        (fun arm account => arm.1.Meets cx account.1 ∧ arm.2.Meets cx account.2)
        (Region.foldArms cx.pieceRules arms) (Region.foldArms cx.accountRules arms) := by
      rw [Region.foldArms_eq_map, Region.foldArms_eq_map, forall₂_map_left_iff,
        forall₂_map_right_iff, forall₂_same]
      exact iharms
    have hother := hoption alt ihother
    exact controlPiece_meets
      (congrArg₂ Region.conditional (arms_region_eq harms) (option_region_eq hother))
      (fun _ h => by cases h) fun _ => pushConditional_deposits harms hother
  | hchain items ih =>
    exact controlPiece_meets (congrArg Region.chain (map_region_eq (hitems items ih)))
      (fun _ h => by cases h) fun _ => pushChain_deposits (hitems items ih)
  | hexit body dead ihbody ihdead =>
    have hdead := option_region_eq (hoption dead ihdead)
    have hexit : ∀ depth, (cx.pushExit (cx.piece body)
        ((Region.foldOption cx.pieceRules dead).map Piece.region) depth).Deposits fun _ =>
          cx.ExitDeposit (cx.account body)
            ((Region.foldOption cx.accountRules dead).map RegionAccount.region) := by
      intro depth
      rw [hdead]
      exact pushExit_deposits ihbody
    exact controlPiece_meets (congrArg₂ Region.exit ihbody.region hdead)
      (fun _ h => by cases h) hexit

/-- Building a region gives a tree that its account allows. -/
theorem build_builds (region : Region) :
    (cx.build region).Builds (Deposit.Makes (cx.account region).whole) :=
  buildPiece_builds (piece_meets region)

end Context

end Decompiler
