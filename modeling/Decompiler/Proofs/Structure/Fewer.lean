import Decompiler.Proofs.Structure.Control
import Decompiler.Proofs.Structure.Literal

/-!
Reconstruction with fewer idioms.  A region that could be folded can still be folded when idioms
are switched off, or it ends in one of a few errors, all of which can be told from its
instructions.
-/

namespace Decompiler

open TryFoldM List Region

namespace Context

variable {cx : Context} {allows : Idiom → Bool} {errors : List Error}

/-- Folding a region covers folding it with fewer idioms, up to the errors that can be told in
advance. -/
theorem piece_covered (hmoves : (cx.allowing allows).moveErrors ⊆ errors)
    (hvalid : cx.routine.IsValid)
    (hfewer : ∀ idiom, allows idiom = true → cx.config.allows idiom = true) (region : Region)
    (hcontains : cx.routine.Contains region)
    (hrisks : ((cx.allowing allows).outlook region).risks ⊆ errors) :
    cx.Covered allows errors region := by
  induction region using Region.induct with
  | hblock id => exact block_covered hmoves hvalid hfewer (hcontains id mem_cons_self)
  | hsequence items ih =>
    rw [risks_sequence] at hrisks
    refine sequence_covered hmoves hvalid hfewer
      (fun id hid => hcontains.child hid id mem_cons_self) fun item hitem => ?_
    exact ih item hitem (hcontains.child hitem) fun e he =>
      hrisks (mem_flatMap.2 ⟨item, hitem, he⟩)
  | hloop items ih =>
    rw [risks_loop] at hrisks
    refine controlPiece_covered (fold_loop cx.pieceRules items)
      (fold_loop (cx.allowing allows).pieceRules items) fun depth => ?_
    refine pushLoop_covers hmoves hvalid hfewer
      (fun id hid => hcontains.child hid id mem_cons_self) fun item hitem => ?_
    exact ih item hitem (hcontains.child hitem) fun e he =>
      hrisks (mem_flatMap.2 ⟨item, hitem, he⟩)
  | hconditional arms alt iharms ihother =>
    rw [risks_conditional, append_subset, append_subset] at hrisks
    obtain ⟨⟨harms, hother⟩, hdelays⟩ := hrisks
    refine controlPiece_covered (fold_conditional cx.pieceRules arms alt)
      (fold_conditional (cx.allowing allows).pieceRules arms alt) fun depth => ?_
    refine pushConditional_covers hmoves hvalid hcontains (fun arm harm => ?_)
      (fun region hregion => ?_) fun hnone arm harm => ?_
    · have hboth : ((cx.allowing allows).outlook arm.test).risks ++
          ((cx.allowing allows).outlook arm.body).risks ⊆ errors := fun e he =>
        harms (mem_flatMap.2 ⟨arm, harm, he⟩)
      rw [append_subset] at hboth
      exact ⟨(iharms arm harm).1 (hcontains.arm harm).1 hboth.1,
        (iharms arm harm).2 (hcontains.arm harm).2 hboth.2⟩
    · exact ihother region hregion (hcontains.alternative hregion) fun e he =>
        hother (mem_flatMap.2 ⟨region, Option.mem_toList.2 hregion, he⟩)
    · rw [hnone] at hdelays
      exact fun e he => hdelays (mem_flatMap.2 ⟨arm, harm, he⟩)
  | hchain items ih =>
    rw [risks_chain, append_subset] at hrisks
    refine controlPiece_covered (fold_chain cx.pieceRules items)
      (fold_chain (cx.allowing allows).pieceRules items) fun depth => ?_
    refine pushChain_covers hmoves hvalid (fun item hitem => hcontains.child hitem)
      (fun item hitem => ?_) hrisks.2
    exact ih item hitem (hcontains.child hitem) fun e he =>
      hrisks.1 (mem_flatMap.2 ⟨item, hitem, he⟩)
  | hexit body dead ihbody ihdead =>
    rw [risks_exit] at hrisks
    have hdead : ∀ cx : Context, (dead.map cx.piece).map Piece.region = dead := by
      intro cx
      cases dead with
      | none => rfl
      | some region => exact congrArg some (piece_region region)
    refine controlPiece_covered (fold_exit cx.pieceRules body dead)
      (fold_exit (cx.allowing allows).pieceRules body dead) fun depth => ?_
    change (cx.pushExit (cx.piece body) ((dead.map cx.piece).map Piece.region) depth).Covers
      ((cx.allowing allows).pushExit ((cx.allowing allows).piece body)
        ((dead.map (cx.allowing allows).piece).map Piece.region) depth) errors
    rw [hdead, hdead]
    refine pushExit_covers hmoves hvalid (ihbody (hcontains.child mem_cons_self) hrisks) ?_
    exact fun region hregion =>
      hcontains.child (mem_cons_of_mem _ (Option.mem_toList.2 hregion))

/-- The errors that a region may end in when idioms are switched off.  A conditional move may
find a test that it cannot take, a chain may find that its last entry does not set the result,
and a conditional that is no value may find a delay slot that cannot run in front of its test. -/
def risks (cx : Context) (region : Region) : List Error :=
  cx.moveErrors ++ (cx.outlook region).risks

/-- Building a region covers building it with fewer idioms. -/
theorem build_covers (hvalid : cx.routine.IsValid)
    (hfewer : ∀ idiom, allows idiom = true → cx.config.allows idiom = true) {region : Region}
    (hcontains : cx.routine.Contains region) :
    (cx.build region).Covers ((cx.allowing allows).build region)
      ((cx.allowing allows).risks region) :=
  buildPiece_covers (piece_covered (subset_append_left _ _) hvalid hfewer region hcontains
    (subset_append_right _ _))

/-- A reconstruction covers the same one with fewer idioms. -/
theorem reconstruct_covers (hfewer : ∀ idiom, allows idiom = true → cx.config.allows idiom = true)
    (region : Region) :
    (cx.reconstruct region).Covers ((cx.allowing allows).reconstruct region)
      ((cx.allowing allows).risks region) := by
  intro s s' hs hs' hsound hsound'
  unfold TryFoldM.CoversAt
  rw [reconstruct, ends_bind, ends_ofExcept]
  intro _ hvalidate
  rw [ends_bind, ends_ofExcept]
  intro _ hregion
  rw [ends_bind]
  intro root hroot _ _
  have hbuild := build_covers (Routine.isValid_of_validate hvalidate) hfewer
    (Routine.contains_of_validateRegion hregion) s s' hs hs' hsound hsound' root hroot
  exact (cx.allowing allows).reconstruct_failsWith hvalidate hregion hbuild

end Context

theorem FoldState.start_sound (log : EventLog) : (FoldState.start log).Sound [] :=
  ⟨rfl, [], rfl, .nil _⟩

/-- Switching idioms off keeps a region that could be reconstructed reconstructible, if no
trouble can be told from its instructions.  If there is an error, it is one of those that can be
told. -/
theorem reconstruct_with_fewer_idioms {config : Config} {routine : Routine} {region : Region}
    {env : TypeEnv} {log log' : EventLog} {tree : Reconstruction}
    (h : reconstruct config routine region env log = (.ok tree, log')) {allows : Idiom → Bool}
    (hfewer : ∀ idiom, allows idiom = true → config.allows idiom = true) :
    let fewer := { config with allows }
    ((Context.of routine env fewer).risks region = [] →
        ∃ tree' log'', reconstruct fewer routine region env log = (.ok tree', log'')) ∧
      ∀ e log'', reconstruct fewer routine region env log = (.error e, log'') →
        ∃ risk ∈ (Context.of routine env fewer).risks region, e = risk.scopedTo routine.name := by
  intro fewer
  set started := FoldState.start (log.record .started (some routine.name) none none) with hstarted
  have hsound : started.Sound [] := FoldState.start_sound _
  have hfails : ((Context.of routine env fewer).reconstruct region).FailsWith started
      ((Context.of routine env fewer).risks region) := by
    rw [reconstruct_eq, ← hstarted] at h
    rcases hrun : ((Context.of routine env config).reconstruct region).run started with ⟨e | t, s⟩
    · rw [hrun] at h
      cases h
    · exact (Context.of routine env config).reconstruct_covers hfewer region started started [] []
        hsound hsound t (by rw [hrun])
  rw [reconstruct_eq, ← hstarted]
  rcases hrun : ((Context.of routine env fewer).reconstruct region).run started with ⟨e | t, s⟩
  · have hrisk := hfails e (by rw [hrun])
    refine ⟨fun hnone => ?_, fun _ _ herror => ⟨e, hrisk, ?_⟩⟩
    · rw [hnone] at hrisk
      cases hrisk
    · cases herror
      rfl
  · refine ⟨fun _ => ⟨t, _, rfl⟩, fun _ _ herror => ?_⟩
    cases herror

theorem exists_of_toBool {α β : Type} {outcome : Except Error α × β}
    (h : outcome.1.toBool = true) : ∃ a b, outcome = (.ok a, b) := by
  obtain ⟨e | a, b⟩ := outcome
  · cases h
  · exact ⟨a, b, rfl⟩

/-- Adds one to the smaller of a limit and the absolute value of a bound, if a flag is set. -/
def boundedSum : List Statement :=
  [.branch .falsy [.register ⟨4⟩] "end" false (some ⟨.v0, .identity, [.symbol "#f"]⟩),
   .branch .lessZero [.register ⟨5⟩] "rest" true (some ⟨⟨5⟩, .neg, [.register ⟨5⟩]⟩),
   .label "rest",
   .set ⟨8⟩ .lessSigned [.register ⟨5⟩, .register ⟨6⟩],
   .conditionalMove ⟨5⟩ (.register ⟨6⟩) ⟨8⟩ true,
   .set .v0 .add [.register ⟨5⟩, .int 1],
   .label "end",
   .move .v0 (.register .v0)]

def boundedSumRegion : Region :=
  .sequence [.chain [.block 0, .sequence [.block 1, .block 2]], .block 3]

/-- The sum can also be reconstructed when minima and maxima are all that is recognized. -/
theorem boundedSum_with_fewer_idioms :
    ∃ r tree log, assemble "bounded-sum" boundedSum = .ok r ∧
      reconstruct .standard r boundedSumRegion (({} : TypeTable).env r) .empty = (.ok tree, log) ∧
      (Context.of r (({} : TypeTable).env r) { Config.standard with
        allows := fun idiom => idiom == .minMax }).risks boundedSumRegion = [] ∧
      ∃ tree' log', reconstruct { Config.standard with allows := fun idiom => idiom == .minMax } r
        boundedSumRegion (({} : TypeTable).env r) .empty = (.ok tree', log') := by
  have hchecked : ((assemble "bounded-sum" boundedSum).toOption.any fun r =>
      (reconstruct .standard r boundedSumRegion (({} : TypeTable).env r) .empty).1.toBool &&
        ((Context.of r (({} : TypeTable).env r) { Config.standard with
          allows := fun idiom => idiom == .minMax }).risks boundedSumRegion).isEmpty) = true := by
    decide +kernel
  obtain ⟨r, hr, hcheck⟩ := exists_of_assembles hchecked
  rw [Bool.and_eq_true, List.isEmpty_iff] at hcheck
  obtain ⟨tree, log, htree⟩ := exists_of_toBool hcheck.1
  exact ⟨r, tree, log, hr, htree, hcheck.2,
    (reconstruct_with_fewer_idioms htree fun _ _ => rfl).1 hcheck.2⟩

/-- A conjunction of a flag and a comparison.  The outcome of the comparison is made a truth
value by a conditional move. -/
def boolTail : List Statement :=
  [.branch .falsy [.register ⟨4⟩] "end" false (some ⟨.v0, .identity, [.symbol "#f"]⟩),
   .set ⟨8⟩ .lessSigned [.register ⟨5⟩, .register ⟨6⟩],
   .move .v0 (.symbol "#t"),
   .conditionalMove .v0 (.symbol "#f") ⟨8⟩ true,
   .label "end",
   .move .v0 (.register .v0)]

def boolTailRegion : Region := .sequence [.chain [.block 0, .block 1], .block 2]

/-- A conditional move that is left as it is assigns nothing.  So the conjunction is lost when
conditional moves are not recognized. -/
theorem boolTail_needs_conditional_moves :
    ∃ r tree log log', assemble "bool-tail" boolTail = .ok r ∧
      reconstruct .standard r boolTailRegion (({} : TypeTable).env r) .empty = (.ok tree, log) ∧
      reconstruct { Config.standard with allows := fun idiom => idiom != .booleanMove } r
        boolTailRegion (({} : TypeTable).env r) .empty =
          (.error ((Error.foldInvariant 1 "short-circuit result v0 was not set last").scopedTo
            "bool-tail"), log') := by
  have hchecked : ((assemble "bool-tail" boolTail).toOption.any fun r =>
      (reconstruct .standard r boolTailRegion (({} : TypeTable).env r) .empty).1.toBool &&
        (reconstruct { Config.standard with allows := fun idiom => idiom != .booleanMove } r
          boolTailRegion (({} : TypeTable).env r) .empty).1 ==
            .error ((Error.foldInvariant 1 "short-circuit result v0 was not set last").scopedTo
              "bool-tail")) = true := by
    decide +kernel
  obtain ⟨r, hr, hcheck⟩ := exists_of_assembles hchecked
  rw [Bool.and_eq_true, beq_iff_eq] at hcheck
  obtain ⟨tree, log, htree⟩ := exists_of_toBool hcheck.1
  exact ⟨r, tree, log, _, hr, htree, Prod.ext hcheck.2 rfl⟩

end Decompiler
