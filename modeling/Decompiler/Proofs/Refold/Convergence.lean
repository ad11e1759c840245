import Decompiler.Proofs.Refold.Settled
import Mathlib.Data.Nat.Find
import Mathlib.Logic.Function.Iterate

/-!
Refolding comes to an end.  With a list of the forms still to be refolded, and no limit to the
depth, the list runs empty after at most as many turns as there are forms.  Every fold leaves two
elements less, so that of repeated refolds one finds nothing to do.
-/

namespace Decompiler

open List

variable {r : Routine} {p : Pool} {t : FormTree}

/-- The state of refolding a tree form by form. -/
structure RefoldLoop where
  pending : List FormId
  pool : Pool
  changed : Bool

namespace Routine

/-- Refolds the next form of those to do.  Its child forms come before the others, the last one
first. -/
def refoldTurn (r : Routine) (s : RefoldLoop) : RefoldLoop :=
  match s.pending with
  | [] => s
  | f :: pending =>
    let (pool, changedHere) := r.refoldStatements s.pool f
    ⟨(pool.childForms f).reverse ++ pending, pool, s.changed || changedHere⟩

/-- Refolding a tree within a depth touches nothing outside it. -/
theorem owns_refoldWithin (depth : Nat) (c : Bool) {rs : List Root}
    (h : p.Owns (.tree t :: rs)) : (r.refoldWithin depth (p, c) t.id).1.Owns rs := by
  have htree : p.Owns [.tree t] := h.one mem_cons_self
  obtain ⟨k, t', -, -, hrefolded⟩ :=
    refoldWithin_refolds (r := r) depth (c := c) htree fun hfalse : False => hfalse.elim
  have hone : p.Owns ([.tree t] ++ rs) := h
  have hafter : (r.refoldWithin depth (p, c) t.id).1.Owns ([] ++ rs) := by
    refine hone.change ?_ (by simp) nil_subperm nil_subperm
    simpa [Root.elements, Root.forms] using hrefolded.changes
  exact hafter

/-- If trees are done one by one in some turns, then so is a list of them. -/
theorem iterate_refoldTurn_list {depth : Nat}
    (hone : ∀ p c pending (u : FormTree), p.Owns [.tree u] → u.forms.length ≤ depth →
      ∃ n ≤ u.forms.length, r.refoldTurn^[n] ⟨u.id :: pending, p, c⟩ =
        ⟨pending, (r.refoldWithin depth (p, c) u.id).1, (r.refoldWithin depth (p, c) u.id).2⟩)
    {us : List FormTree} (h : p.Owns (us.map .tree)) (hdepth : ∀ u ∈ us, u.forms.length ≤ depth)
    (c : Bool) (pending : List FormId) :
    ∃ n ≤ (us.flatMap FormTree.forms).length,
      r.refoldTurn^[n] ⟨us.map FormTree.id ++ pending, p, c⟩ =
        ⟨pending, ((us.map FormTree.id).foldl (r.refoldWithin depth) (p, c)).1,
          ((us.map FormTree.id).foldl (r.refoldWithin depth) (p, c)).2⟩ := by
  induction us generalizing p c with
  | nil => exact ⟨0, Nat.zero_le _, rfl⟩
  | cons u us ih =>
    have htree : p.Owns [.tree u] := h.one mem_cons_self
    obtain ⟨n, hn, hturns⟩ := hone p c (us.map FormTree.id ++ pending) u htree
      (hdepth u mem_cons_self)
    obtain ⟨k, hk, hrest⟩ := ih (owns_refoldWithin depth c h)
      (fun w hw => hdepth w (mem_cons_of_mem _ hw)) (r.refoldWithin depth (p, c) u.id).2
    refine ⟨k + n, ?_, ?_⟩
    · rw [flatMap_cons, length_append]
      omega
    · rw [Function.iterate_add_apply, map_cons, cons_append, hturns, hrest, foldl_cons]

end Routine

/-- The trees right below a form are owned with it. -/
theorem Pool.Owns.kids {p : Pool} {t : FormTree} (h : p.Owns [.tree t]) :
    p.Owns ((t.nodes.flatMap Node.kids).map .tree) := by
  refine ⟨fun r hr => ?_, ?_, ?_⟩
  · obtain ⟨u, hu, rfl⟩ := mem_map.1 hr
    obtain ⟨n, hn, hu⟩ := mem_flatMap.1 hu
    exact (h.tree_holds.node n hn).below u hu
  · have hnodup := h.tree_elements_nodup
    rw [Owns.flatMap_tree_elements, flatMap_assoc]
    rw [t.elements_eq] at hnodup
    exact hnodup.sublist (List.Sublist.flatMap_right _ fun n _ => sublist_cons_self _ _)
  · have hnodup := h.tree_forms_nodup
    rw [Owns.flatMap_tree_forms, flatMap_assoc]
    rw [t.forms_eq] at hnodup
    exact (nodup_cons.1 hnodup).2

namespace Routine

/-- Turn by turn a tree is refolded as with a limit to the depth that reaches its leaves. -/
theorem iterate_refoldTurn (depth : Nat) (h : p.Owns [.tree t]) (hdepth : t.forms.length ≤ depth)
    (c : Bool) (pending : List FormId) :
    ∃ n ≤ t.forms.length, r.refoldTurn^[n] ⟨t.id :: pending, p, c⟩ =
      ⟨pending, (r.refoldWithin depth (p, c) t.id).1, (r.refoldWithin depth (p, c) t.id).2⟩ := by
  induction depth generalizing p t c pending with
  | zero =>
    rw [t.forms_eq, length_cons] at hdepth
    omega
  | succ depth ih =>
    obtain ⟨k, t', hfolds, howns, -⟩ :=
      refoldStatements_refolds (r := r) h fun hfalse : False => hfalse.elim
    have hlength := hfolds.forms_subperm.length_le
    rw [t'.forms_eq, length_cons] at hlength
    have hkids : (t'.nodes.flatMap Node.kids).flatMap FormTree.forms = t'.nodes.flatMap Node.forms :=
      flatMap_assoc
    have hchildren : ((r.refoldStatements p t.id).1.childForms t.id).reverse =
        (t'.nodes.flatMap Node.kids).reverse.map FormTree.id := by
      have hforms := childForms_eq howns.tree_holds
      rw [hfolds.id_eq] at hforms
      rw [hforms, map_reverse]
    have hshort : ∀ u ∈ (t'.nodes.flatMap Node.kids).reverse, u.forms.length ≤ depth := by
      intro u hu
      have hsub := (FormTree.sublist_flatMap_of_mem (f := FormTree.forms)
        (mem_reverse.1 hu)).length_le
      rw [hkids] at hsub
      omega
    have howns' : (r.refoldStatements p t.id).1.Owns
        ((t'.nodes.flatMap Node.kids).reverse.map .tree) :=
      howns.kids.perm (List.Perm.map _ (reverse_perm _).symm)
    obtain ⟨n, hn, hturns⟩ := iterate_refoldTurn_list
      (fun p c pending u hu hlt => ih hu hlt c pending) howns' hshort
      (c || (r.refoldStatements p t.id).2) pending
    refine ⟨n + 1, ?_, ?_⟩
    · rw [((reverse_perm _).flatMap_right FormTree.forms).length_eq, hkids] at hn
      omega
    · rw [Function.iterate_succ_apply, refoldTurn, refoldWithin]
      dsimp only
      rw [hchildren, hturns]

end Routine

namespace Reconstruction

variable {t : Reconstruction}

theorem IsTree.iterate_refoldTurn (h : t.IsTree) (r : Routine) :
    ∃ n ≤ t.pool.forms.size, r.refoldTurn^[n] ⟨[t.root], t.pool, false⟩ =
      ⟨[], (t.refold r).1.pool, (t.refold r).2⟩ := by
  obtain ⟨tree, hroot, howns⟩ := h
  obtain ⟨n, hn, hturns⟩ := r.iterate_refoldTurn t.pool.forms.size howns howns.forms_length_le
    false []
  rw [hroot] at hturns
  exact ⟨n, Nat.le_trans hn howns.forms_length_le, hturns⟩

/-- The tree of a reconstruction becomes that of another one by a number of folds, orderly or
not. -/
def FoldsTo (t : Reconstruction) (k : Nat) (t' : Reconstruction) : Prop :=
  ∃ tree tree' : FormTree, (tree.id = t.root ∧ t.pool.Owns [.tree tree]) ∧
    (tree'.id = t'.root ∧ t'.pool.Owns [.tree tree']) ∧ ∃ orderly, tree.Refolds orderly k tree'

theorem formSize_eq {tree : FormTree} (hroot : tree.id = t.root) (h : t.pool.Owns [.tree tree]) :
    t.pool.formSize t.root = tree.elements.length := by
  rw [← hroot, Pool.formSize, h.tree_holds.elementsIn_eq h.tree_elements_nodup]

/-- Every fold leaves two elements less. -/
theorem FoldsTo.formSize_eq {k : Nat} {t' : Reconstruction} (h : t.FoldsTo k t') :
    t.pool.formSize t.root = t'.pool.formSize t'.root + 2 * k := by
  obtain ⟨tree, tree', ⟨hroot, howns⟩, ⟨hroot', howns'⟩, orderly, hfolds⟩ := h
  obtain ⟨gone, hgone, hperm⟩ := hfolds.elements_perm
  rw [Reconstruction.formSize_eq hroot howns, Reconstruction.formSize_eq hroot' howns',
    hperm.length_eq, length_append, hgone]
  omega

/-- A refold makes a number of folds and says whether there were any. -/
theorem IsTree.exists_foldsTo (h : t.IsTree) (r : Routine) :
    ∃ k, t.FoldsTo k (t.refold r).1 ∧ ((t.refold r).2 = true ↔ 0 < k) ∧
      ((t.refold r).2 = false → (t.refold r).1 = t) := by
  obtain ⟨tree, hroot, howns⟩ := h
  obtain ⟨k, tree', hfolds, hroot', howns', hflag, hsame⟩ := refold_refolds r hroot howns
  refine ⟨k, ⟨tree, tree', ⟨hroot, howns⟩, ⟨hroot', howns'⟩, _, hfolds⟩, ?_, fun hfalse => hsame ?_⟩
  · rw [hflag, decide_eq_true_iff]
  · rw [hflag, decide_eq_false_iff_not] at hfalse
    omega

theorem IsTree.refold_eq (h : t.IsTree) (hfalse : (t.refold r).2 = false) :
    t.refold r = (t, false) := by
  obtain ⟨k, -, -, hsame⟩ := h.exists_foldsTo r
  exact Prod.ext (hsame hfalse) hfalse

theorem root_refoldTimes (t : Reconstruction) (r : Routine) (n : Nat) :
    (t.refoldTimes r n).root = t.root := by
  induction n with
  | zero => rfl
  | succ n ih => exact ih

/-- As long as every refold makes a fold, each leaves at least two elements less. -/
theorem IsTree.formSize_refoldTimes (h : t.IsTree) {n : Nat}
    (hchanged : ∀ i < n, ((t.refoldTimes r i).refold r).2 = true) :
    (t.refoldTimes r n).pool.formSize t.root + 2 * n ≤ t.pool.formSize t.root := by
  induction n with
  | zero => exact Nat.le_refl _
  | succ n ih =>
    have hbefore := ih fun i hi => hchanged i (Nat.lt_succ_of_lt hi)
    obtain ⟨k, hfolds, hflag, -⟩ := (h.refoldTimes r n).exists_foldsTo r
    have hk := hflag.1 (hchanged n (Nat.lt_succ_self n))
    have hstep := hfolds.formSize_eq
    change _ = (t.refoldTimes r (n + 1)).pool.formSize (t.refoldTimes r n).root + _ at hstep
    rw [root_refoldTimes] at hstep
    omega

theorem refoldTimes_eq_of_le {i j : Nat} (hij : i ≤ j)
    (hsame : (t.refoldTimes r i).refold r = (t.refoldTimes r i, false)) :
    t.refoldTimes r j = t.refoldTimes r i := by
  induction hij with
  | refl => rfl
  | step _ ih => rw [refoldTimes, ih, hsame]

/-- Repeated refolds all make folds at first, and from some point on none does. -/
theorem IsTree.exists_settled (h : t.IsTree) (r : Routine) :
    ∃ i ≤ t.pool.formSize t.root / 2, (∀ j < i, ((t.refoldTimes r j).refold r).2 = true) ∧
      ∀ j, i ≤ j → (t.refoldTimes r j).refold r = (t.refoldTimes r i, false) := by
  have hsome : ∃ i, i ≤ t.pool.formSize t.root / 2 ∧ ((t.refoldTimes r i).refold r).2 = false := by
    by_contra hnone
    have hchanged : ∀ i < t.pool.formSize t.root / 2 + 1,
        ((t.refoldTimes r i).refold r).2 = true := by
      intro i hi
      rw [← Bool.not_eq_false]
      exact fun hfalse => hnone ⟨i, Nat.le_of_lt_succ hi, hfalse⟩
    have hsize := h.formSize_refoldTimes hchanged
    omega
  have hfalse : ∃ i, ((t.refoldTimes r i).refold r).2 = false := hsome.imp fun _ hi => hi.2
  obtain ⟨bound, hbound, hat⟩ := hsome
  have hsame := (h.refoldTimes r (Nat.find hfalse)).refold_eq (Nat.find_spec hfalse)
  refine ⟨Nat.find hfalse, Nat.le_trans (Nat.find_min' hfalse hat) hbound, fun j hj => ?_,
    fun j hj => ?_⟩
  · rw [← Bool.not_eq_false]
    exact Nat.find_min hfalse hj
  · rw [refoldTimes_eq_of_le hj hsame, hsame]

end Reconstruction

/-- Refolding a tree comes to an end: the forms to do run out, and nothing depends on the limit
to the depth.  It makes a number of folds, each of which leaves two elements less, and gives a
tree again.  It says whether there was a fold, and changes nothing if there was none.  So of
repeated refolds one changes nothing, after at most half as many as there are elements, and
neither does any later one. -/
theorem refold_converges (t : Reconstruction) (r : Routine)
    (h : t.IsTree ∨ ∃ config routine region env log log',
      reconstruct config routine region env log = (.ok t, log')) :
    (∃ n ≤ t.pool.forms.size, r.refoldTurn^[n] ⟨[t.root], t.pool, false⟩ =
        ⟨[], (t.refold r).1.pool, (t.refold r).2⟩) ∧
      (∃ k, t.FoldsTo k (t.refold r).1 ∧ ((t.refold r).2 = true ↔ 0 < k) ∧
        t.pool.formSize t.root = (t.refold r).1.pool.formSize t.root + 2 * k) ∧
      ((t.refold r).2 = false → (t.refold r).1 = t) ∧
      ((t.refold r).1.IsTree ∧ (t.refold r).1.pool.IsTree t.root) ∧
      ∃ i ≤ t.pool.formSize t.root / 2, (∀ j < i, ((t.refoldTimes r j).refold r).2 = true) ∧
        ∀ j, i ≤ j → (t.refoldTimes r j).refold r = (t.refoldTimes r i, false) := by
  have htree : t.IsTree := h.elim id fun ⟨_, _, _, _, _, _, h⟩ => reconstruct_isTree h
  obtain ⟨k, hfolds, hflag, hsame⟩ := htree.exists_foldsTo r
  refine ⟨htree.iterate_refoldTurn r, ⟨k, hfolds, hflag, hfolds.formSize_eq⟩, hsame,
    ⟨htree.refold r, ?_⟩, htree.exists_settled r⟩
  obtain ⟨tree', hroot', howns'⟩ := htree.refold r
  exact hroot' ▸ howns'.isTree

/-- Two refolds make a fold each, the second in a tree that only the first one made. -/
theorem threeCalls_converges :
    ∃ r t log, assemble "three-calls" threeCalls = .ok r ∧
      reconstruct .standard r (.linear r) (({} : TypeTable).env r) .empty = (.ok t, log) ∧
      (t.refold r).2 = true ∧ t.FoldsTo 1 (t.refold r).1 ∧
      (t.refold r).1.FoldsTo 1 (t.refoldTimes r 2) ∧
      (t.refoldTimes r 2).pool.IsTree t.root ∧
      ∃ i ≤ 10, ∀ j, i ≤ j → (t.refoldTimes r j).refold r = (t.refoldTimes r i, false) := by
  have hchecked : (reconstructsTo "three-calls" threeCalls fun r t =>
      t.pool.formSize t.root == 20 && (t.refold r).1.pool.formSize t.root == 18 &&
        (t.refoldTimes r 2).pool.formSize t.root == 16) = true := by decide +kernel
  obtain ⟨r, t, log, hr, ht, hclear⟩ := reconstructsTo_eq_true hchecked
  simp only [Bool.and_eq_true, beq_iff_eq] at hclear
  obtain ⟨⟨hsize, hsize'⟩, hsize''⟩ := hclear
  obtain ⟨-, ⟨k, hfolds, hflag, hdrop⟩, -, ⟨htree, -⟩, i, hi, -, hsettled⟩ :=
    refold_converges t r (.inr ⟨_, _, _, _, _, _, ht⟩)
  obtain ⟨-, ⟨k', hfolds', -, hdrop'⟩, -, ⟨-, htree'⟩, -⟩ :=
    refold_converges (t.refold r).1 r (.inl htree)
  change (t.refold r).1.pool.formSize t.root = (t.refoldTimes r 2).pool.formSize t.root + _ at hdrop'
  obtain rfl : k = 1 := by omega
  obtain rfl : k' = 1 := by omega
  exact ⟨r, t, log, hr, ht, hflag.2 Nat.one_pos, hfolds, hfolds', htree', i, by omega, hsettled⟩

end Decompiler
