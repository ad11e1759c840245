import Decompiler.Machine.Atom

/-!
Lists of variables in order.  Such a list has no repetitions, so it is known by its members.
-/

namespace Decompiler

namespace Variable

variable {u v w : Variable} {vs ws : List Variable}

theorem before_iff : u.before v = true ↔
    u.register.index.val < v.register.index.val ∨ u.register.index.val = v.register.index.val ∧
      (u.access = .read ∧ v.access = .write ∨ u.access = v.access ∧ u.site < v.site) := by
  rw [before]
  by_cases hindex : u.register.index.val = v.register.index.val
  · rw [if_neg (not_not_intro hindex), hindex]
    cases hu : u.access <;> cases hv : v.access <;> simp [isRead, hu]
  · rw [if_pos hindex, decide_eq_true_iff, or_iff_left fun h => hindex h.1]

theorem before_asymm (h : u.before v = true) : v.before u = false := by
  rw [before_iff] at h
  rw [Bool.eq_false_iff, ne_eq, before_iff]
  grind

theorem before_trans (h : u.before v = true) (h' : v.before w = true) : u.before w = true := by
  rw [before_iff] at *
  grind

theorem before_of_not (hne : u ≠ v) (h : ¬ v.before u = true) : u.before v = true := by
  rw [before_iff] at *
  obtain ⟨⟨i⟩, a, m⟩ := u
  obtain ⟨⟨j⟩, b, n⟩ := v
  simp at *
  cases a <;> cases b <;> grind

theorem mem_insertInto : w ∈ v.insertInto vs ↔ w = v ∨ w ∈ vs := by
  induction vs with
  | nil => simp [insertInto]
  | cons u vs ih =>
    rw [insertInto]
    split
    · rename_i heq
      simp [heq]
    · split
      · simp
      · simp [ih, or_left_comm]

theorem pairwise_insertInto (h : vs.Pairwise fun v w => v.before w = true) :
    (v.insertInto vs).Pairwise fun v w => v.before w = true := by
  induction vs with
  | nil => exact List.pairwise_singleton _ _
  | cons u vs ih =>
    obtain ⟨hfirst, hrest⟩ := List.pairwise_cons.1 h
    rw [insertInto]
    split
    · exact h
    · rename_i hne
      split
      · rename_i hbefore
        refine List.pairwise_cons.2 ⟨fun w hw => ?_, h⟩
        rcases List.mem_cons.1 hw with rfl | hw
        · exact hbefore
        · exact before_trans hbefore (hfirst w hw)
      · rename_i hafter
        refine List.pairwise_cons.2 ⟨fun w hw => ?_, ih hrest⟩
        rcases mem_insertInto.1 hw with rfl | hw
        · exact before_of_not (Ne.symm hne) hafter
        · exact hfirst w hw

theorem mem_sorted : w ∈ sorted vs ↔ w ∈ vs := by
  suffices hfold : ∀ acc : List Variable,
      w ∈ vs.foldl (fun acc v => v.insertInto acc) acc ↔ w ∈ acc ∨ w ∈ vs by
    simp [sorted, hfold]
  induction vs with
  | nil => simp
  | cons v vs ih =>
    intro acc
    rw [List.foldl_cons, ih, mem_insertInto, List.mem_cons, or_assoc, or_left_comm]

theorem pairwise_sorted (vs : List Variable) :
    (sorted vs).Pairwise fun v w => v.before w = true := by
  suffices hfold : ∀ acc : List Variable, (acc.Pairwise fun v w => v.before w = true) →
      (vs.foldl (fun acc v => v.insertInto acc) acc).Pairwise fun v w => v.before w = true from
    hfold [] .nil
  induction vs with
  | nil => exact fun _ h => h
  | cons v vs ih => exact fun acc h => ih _ (pairwise_insertInto h)

/-- Variables in order are known by their members. -/
theorem sorted_congr (h : ∀ w, w ∈ vs ↔ w ∈ ws) : sorted vs = sorted ws := by
  have hnodup : ∀ us : List Variable, (sorted us).Nodup := fun us =>
    (pairwise_sorted us).imp fun {v w} hbefore hsame => by
      subst hsame
      cases (before_asymm hbefore).symm.trans hbefore
  refine List.Perm.eq_of_pairwise (fun v w _ _ hvw hwv => ?_) (pairwise_sorted vs)
    (pairwise_sorted ws) ((List.perm_ext_iff_of_nodup (hnodup vs) (hnodup ws)).2 fun w => ?_)
  · cases (before_asymm hvw).symm.trans hwv
  · rw [mem_sorted, mem_sorted, h]

theorem sorted_append (vs ws : List Variable) :
    sorted (vs ++ ws) = sorted (sorted vs ++ sorted ws) :=
  sorted_congr fun w => by simp [mem_sorted]

end Variable

end Decompiler
