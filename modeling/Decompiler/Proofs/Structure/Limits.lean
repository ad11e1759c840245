import Decompiler.Proofs.Structure.Literal

/-!
How deeply regions may be nested.  The check of a region counts one level for each region around
a part; as a loop folds its body two levels further down, every loop around another one needs one
level more than the check asks for.
-/

namespace Decompiler

/-- A region that passes the checks is nested within the limit. -/
theorem Routine.depth_le_of_validateRegion {r : Routine} {limit : Nat} {region : Region}
    (h : r.validateRegion limit region = .ok ()) : region.depth ≤ limit := by
  suffices hchecks : ∀ depth, region.fold (r.regionChecks limit) depth = .ok () →
      depth + region.depth ≤ limit + 1 by
    have := hchecks 1 h
    omega
  clear h
  induction region using Region.induct_children with
  | h region ih =>
    intro depth h
    obtain ⟨hdepth, hchildren⟩ := Routine.children_of_regionChecks h
    rw [region.depth_eq, Region.above]
    have hmax : (region.children.map Region.depth).foldl max 0 ≤ limit - depth := by
      refine Region.foldl_max_le_iff.2 ⟨Nat.zero_le _, fun n hn => ?_⟩
      obtain ⟨child, hchild, rfl⟩ := List.mem_map.1 hn
      have := ih child hchild (depth + 1) (hchildren child hchild)
      omega
    omega

namespace Context

variable {cx : Context}

/-- A region that is nested within a limit is not refused for its depth when it is built, if each
loop around another one has a level more. -/
theorem build_within_limit (cx : Context) {limit : Nat} {region : Region}
    (hvalid : cx.routine.validateRegion limit region = .ok ())
    (hnesting : limit + region.loopNesting ≤ cx.config.maxDepth + 1) (s : FoldState) :
    ∀ e, ((cx.build region).run s).1 = .error e → e.tag ≠ .depthLimit := by
  have hdepth := Routine.depth_le_of_validateRegion hvalid
  have hroom : 0 + (region.depth + region.loopNesting) ≤ cx.config.maxDepth + 1 := by omega
  exact (buildPiece_bounded (piece_bounded region (.inr hroom)) (Nat.le_refl 0)).shallow id s

/-- A conditional in a loop in a loop. -/
def nestedWait : List Statement :=
  [.label "top",
   .branch .zero [.register ⟨4⟩] "skip" false none,
   .move ⟨8⟩ (.register ⟨5⟩),
   .label "skip",
   .branch .nonZero [.register ⟨5⟩] "top" false none,
   .branch .nonZero [.register ⟨6⟩] "top" false none]

def nestedWaitRegion : Region :=
  .loop [.loop [.conditional [⟨.block 0, .block 1⟩] none, .block 2], .block 3]

/-- The context of a routine without declared types, with a limit. -/
def untypedWithin (r : Routine) (limit : Nat) : Context :=
  .of r (({} : TypeTable).env r) { Config.standard with maxDepth := limit }

/-- The loops are four levels deep, and five are enough to build them. -/
theorem nestedWait_within_five :
    ∃ r, assemble "nested-wait" nestedWait = .ok r ∧
      r.validateRegion 4 nestedWaitRegion = .ok () ∧
      4 + nestedWaitRegion.loopNesting ≤ (untypedWithin r 5).config.maxDepth + 1 ∧
      ∀ e, (((untypedWithin r 5).build nestedWaitRegion).run (.start .empty)).1 = .error e →
        e.tag ≠ .depthLimit := by
  have hchecked : ((assemble "nested-wait" nestedWait).toOption.any fun r =>
      r.validateRegion 4 nestedWaitRegion == .ok ()) = true := by
    decide +kernel
  obtain ⟨r, hr, hvalid⟩ := exists_of_assembles hchecked
  have hnesting : 4 + nestedWaitRegion.loopNesting ≤ 6 := by decide
  exact ⟨r, hr, beq_iff_eq.1 hvalid, hnesting,
    build_within_limit (untypedWithin r 5) (beq_iff_eq.1 hvalid) hnesting _⟩

/-- Four levels, which the check is content with, are not. -/
theorem nestedWait_exceeds_four :
    ∃ r s, assemble "nested-wait" nestedWait = .ok r ∧
      r.validateRegion (untypedWithin r 4).config.maxDepth nestedWaitRegion = .ok () ∧
      ((untypedWithin r 4).build nestedWaitRegion).run (.start .empty) =
        (.error (.depthLimit 4), s) := by
  have hchecked : ((assemble "nested-wait" nestedWait).toOption.any fun r =>
      r.validateRegion (untypedWithin r 4).config.maxDepth nestedWaitRegion == .ok () &&
      (((untypedWithin r 4).build nestedWaitRegion).run (.start .empty)).1 ==
        .error (.depthLimit 4)) = true := by
    decide +kernel
  obtain ⟨r, hr, hcheck⟩ := exists_of_assembles hchecked
  rw [Bool.and_eq_true, beq_iff_eq, beq_iff_eq] at hcheck
  exact ⟨r, _, hr, hcheck.1, Prod.ext hcheck.2 rfl⟩

end Context

end Decompiler
