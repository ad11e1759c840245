import Decompiler.Machine.Assembly
import Decompiler.Proofs.Refold.Calm
import Decompiler.Proofs.Structure.Shape

/-!
Refolding and the order of effects.  A fold moves a value behind what stands between its
assignment and its use.  No effect is lost or made twice by that, and the effects stay in
order as long as no fold moves one of them behind another.
-/

namespace Decompiler

open TryFoldM

/-- A reconstruction that succeeds gives a tree. -/
theorem Context.reconstruct_isTree (cx : Context) (region : Region) (s : FoldState) :
    (cx.reconstruct region).Ends s fun t _ => t.IsTree := by
  unfold reconstruct
  rw [ends_bind, ends_ofExcept]
  intro _ _
  rw [ends_bind, ends_ofExcept]
  intro _ _
  refine (cx.build_owns region s).bind fun root s' hbuilt => ?_
  obtain ⟨tree, rfl, -, howns⟩ := hbuilt
  extract_lets finish
  have hfinish : ∀ s'' : FoldState, (∃ tree' : FormTree, tree'.id = tree.id ∧
      s''.pool.Owns [.tree tree']) → (finish ()).Ends s'' fun t _ => t.IsTree := by
    intro s'' htree
    unfold finish
    rw [ends_bind, ends_get]
    dsimp only
    rw [ends_bind, ends_ofExcept]
    intro _ _
    rw [ends_pure]
    exact htree
  split
  · rw [ends_bind, ends_lift]
    exact (stripResult_owns howns).mono fun _ s'' => hfinish s''
  · exact hfinish s' ⟨tree, rfl, howns⟩

theorem reconstruct_isTree {config : Config} {routine : Routine} {region : Region} {env : TypeEnv}
    {log log' : EventLog} {t : Reconstruction}
    (h : reconstruct config routine region env log = (.ok t, log')) : t.IsTree := by
  rw [reconstruct_eq] at h
  have hends := (Context.of routine env config).reconstruct_isTree region
    (FoldState.start (log.record .started (some routine.name) none none))
  rcases hrun : ((Context.of routine env config).reconstruct region).run
    (FoldState.start (log.record .started (some routine.name) none none)) with ⟨e | tree, s⟩
  · rw [hrun] at h
    cases h
  · rw [hrun] at h
    cases h
    exact hends.of_run hrun

namespace Reconstruction

variable {t : Reconstruction}

def effects (t : Reconstruction) : List (ElementId × Effect) :=
  t.pool.effectsOf (t.pool.evaluated t.root)

/-- A finished tree that is refolded a number of times. -/
def refoldTimes (t : Reconstruction) (r : Routine) : Nat → Reconstruction
  | 0 => t
  | n + 1 => ((t.refoldTimes r n).refold r).1

/-- Whether a tree is calm, where some registers are assigned what acts. -/
def isCalm (t : Reconstruction) (R : RegisterSet) : Bool :=
  (t.pool.evaluated t.root).all (t.pool.isSteady R)

theorem effects_eq {tree : FormTree} (hroot : tree.id = t.root) (h : t.pool.Owns [.tree tree]) :
    t.effects = performedIn tree.evaluated := by
  rw [effects, ← hroot, h.tree_holds.evaluated_eq h.tree_elements_nodup, Pool.effectsOf,
    List.filterMap_map]
  refine List.filterMap_congr fun o ho => ?_
  rw [Function.comp_apply, h.tree_holds.element_eq_of_evaluated o ho]
  rfl

theorem IsTree.refoldTimes (h : t.IsTree) (r : Routine) (n : Nat) : (t.refoldTimes r n).IsTree := by
  induction n with
  | zero => exact h
  | succ n ih => exact ih.refold r

/-- One refold keeps all effects, and keeps them in order unless it puts one behind another. -/
theorem IsTree.effects_refold (h : t.IsTree) (r : Routine) :
    (t.refold r).1.effects.Perm t.effects ∧
      (t.refoldOvertakes r = false → (t.refold r).1.effects = t.effects) := by
  obtain ⟨tree, hroot, howns⟩ := h
  obtain ⟨k, tree', hfolds, hroot', howns', -, -⟩ := refold_refolds r hroot howns
  rw [effects_eq hroot howns, effects_eq hroot' howns']
  exact ⟨hfolds.performedIn_perm, hfolds.performedIn_eq⟩

/-- Refolding a calm tree keeps its effects in order. -/
theorem IsTree.effects_refoldTimes (h : t.IsTree) {R : RegisterSet} (hcalm : t.isCalm R = true)
    (r : Routine) (n : Nat) : (t.refoldTimes r n).effects = t.effects := by
  obtain ⟨tree, hroot, howns⟩ := h
  have htree : tree.Calm R := howns.calm fun o ho => by
    refine List.all_eq_true.1 hcalm o.1 ?_
    rw [← hroot, howns.tree_holds.evaluated_eq howns.tree_elements_nodup]
    exact List.mem_map_of_mem ho
  have hrefolds : ∃ tree' : FormTree, tree'.id = (t.refoldTimes r n).root ∧
      (t.refoldTimes r n).pool.Owns [.tree tree'] ∧ tree'.Calm R ∧
      performedIn tree'.evaluated = performedIn tree.evaluated := by
    induction n with
    | zero => exact ⟨tree, hroot, howns, htree, rfl⟩
    | succ n ih =>
      obtain ⟨tree', hroot', howns', hcalm', heq⟩ := ih
      obtain ⟨k, next, hfolds, hnext, hnext', -, -⟩ := refold_refolds r hroot' howns'
      obtain ⟨hkept, hcalmNext⟩ := hfolds.calm hcalm'
      exact ⟨next, hnext, hnext', hcalmNext, hkept.trans heq⟩
  obtain ⟨tree', hroot', howns', -, heq⟩ := hrefolds
  rw [effects_eq hroot howns, effects_eq hroot' howns', heq]

end Reconstruction

/-- Refolding a finished tree any number of times keeps all its effects.  They stay in order
if no refold puts one of them behind another.  They also do if the tree is calm: its assignments
that are no sequence points do not act, and will not as values are folded, and no operand acts in
front of one that may get a value that does. -/
theorem refold_keeps_effects {config : Config} {routine : Routine} {region : Region}
    {env : TypeEnv} {log log' : EventLog} {t : Reconstruction}
    (h : reconstruct config routine region env log = (.ok t, log')) (n : Nat) :
    (t.refoldTimes routine n).effects.Perm t.effects ∧
      ((∀ i < n, (t.refoldTimes routine i).refoldOvertakes routine = false) →
        (t.refoldTimes routine n).effects = t.effects) ∧
      ∀ R, t.isCalm R = true → (t.refoldTimes routine n).effects = t.effects := by
  have htree := reconstruct_isTree h
  rw [← and_assoc]
  refine ⟨?_, fun R hcalm => htree.effects_refoldTimes hcalm routine n⟩
  induction n with
  | zero => exact ⟨List.Perm.refl _, fun _ => rfl⟩
  | succ n ih =>
    obtain ⟨hperm, heq⟩ := (htree.refoldTimes routine n).effects_refold routine
    refine ⟨hperm.trans ih.1, fun hclear => ?_⟩
    exact (heq (hclear n (Nat.lt_succ_self n))).trans
      (ih.2 fun i hi => hclear i (Nat.lt_succ_of_lt hi))

/-- Assembles and reconstructs a program without declared types, block by block, and checks
what comes out. -/
def reconstructsTo (name : String) (program : List Statement)
    (check : Routine → Reconstruction → Bool) : Bool :=
  match assemble name program with
  | .ok r =>
    match reconstruct .standard r (.linear r) (({} : TypeTable).env r) .empty with
    | (.ok t, _) => check r t
    | (.error _, _) => false
  | .error _ => false

theorem reconstructsTo_eq_true {name : String} {program : List Statement}
    {check : Routine → Reconstruction → Bool} (h : reconstructsTo name program check = true) :
    ∃ r t log, assemble name program = .ok r ∧
      reconstruct .standard r (.linear r) (({} : TypeTable).env r) .empty = (.ok t, log) ∧
      check r t = true := by
  unfold reconstructsTo at h
  split at h
  · rename_i r hr
    split at h
    · rename_i t log ht
      exact ⟨r, t, log, hr, ht, h⟩
    · cases h
  · cases h

-- A calm tree that refolding changes: the first sum, when the call behind it has been folded.
example : (reconstructsTo "two-sums" [.set ⟨16⟩ .add [.register ⟨4⟩, .int 1], .call ⟨25⟩ [],
    .set ⟨17⟩ .add [.register ⟨16⟩, .int 1], .set ⟨18⟩ .add [.register .v0, .int 1], .call ⟨24⟩ [],
    .move .v0 (.int 0)] fun r t => t.isCalm (.single ⟨18⟩) && (t.refold r).2) = true := by
  decide +kernel

/-- Adds to the results of three calls, in the order of the calls. -/
def threeCalls : List Statement :=
  [.call ⟨25⟩ [],
   .move ⟨16⟩ (.register .v0),
   .call ⟨24⟩ [],
   .move ⟨17⟩ (.register .v0),
   .set ⟨8⟩ .add [.register ⟨16⟩, .int 1],
   .call ⟨15⟩ [],
   .set ⟨9⟩ .add [.register ⟨17⟩, .int 1],
   .set ⟨10⟩ .add [.register .v0, .int 1],
   .move .v0 (.int 0)]

theorem threeCalls_keeps_effects :
    ∃ r t log, assemble "three-calls" threeCalls = .ok r ∧
      reconstruct .standard r (.linear r) (({} : TypeTable).env r) .empty = (.ok t, log) ∧
      (t.refold r).2 = true ∧ ((t.refold r).1.refold r).2 = true ∧
      (∀ i < 2, (t.refoldTimes r i).refoldOvertakes r = false) ∧
      t.effects.map Prod.snd = [.call, .call, .call] ∧
      (t.refoldTimes r 2).effects = t.effects := by
  have hchecked : (reconstructsTo "three-calls" threeCalls fun r t =>
      (t.refold r).2 && ((t.refold r).1.refold r).2 &&
        (List.range 2).all (fun i => !(t.refoldTimes r i).refoldOvertakes r) &&
        t.effects.map Prod.snd == [.call, .call, .call]) = true := by decide +kernel
  obtain ⟨r, t, log, hr, ht, hclear⟩ := reconstructsTo_eq_true hchecked
  simp only [Bool.and_eq_true, List.all_eq_true, List.mem_range, Bool.not_eq_true',
    beq_iff_eq] at hclear
  obtain ⟨⟨⟨hfirst, hsecond⟩, hclear⟩, heffects⟩ := hclear
  exact ⟨r, t, log, hr, ht, hfirst, hsecond, hclear, heffects,
    (refold_keeps_effects ht 2).2.1 hclear⟩

/-- Adds the results of two calls, the later one first. -/
def sumOfCalls : List Statement :=
  [.call ⟨25⟩ [],
   .move ⟨16⟩ (.register .v0),
   .call ⟨24⟩ [],
   .set ⟨8⟩ .add [.register .v0, .register ⟨16⟩],
   .move .v0 (.int 0)]

/-- The second call is the first operand of the sum.  Refolding puts the first call in the
place of the second operand, behind it. -/
theorem sumOfCalls_turns_calls :
    ∃ r t log, assemble "sum-of-calls" sumOfCalls = .ok r ∧
      reconstruct .standard r (.linear r) (({} : TypeTable).env r) .empty = (.ok t, log) ∧
      (t.refold r).1.effects = t.effects.reverse ∧ (t.refold r).1.effects ≠ t.effects := by
  have hchecked : (reconstructsTo "sum-of-calls" sumOfCalls fun r t =>
      (t.refold r).1.effects == t.effects.reverse && (t.refold r).1.effects != t.effects) = true := by
    decide +kernel
  obtain ⟨r, t, log, hr, ht, hturned⟩ := reconstructsTo_eq_true hchecked
  simp only [Bool.and_eq_true, beq_iff_eq, bne_iff_ne] at hturned
  exact ⟨r, t, log, hr, ht, hturned⟩

end Decompiler
