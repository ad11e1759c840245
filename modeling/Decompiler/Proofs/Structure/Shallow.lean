import Decompiler.Proofs.Structure.Deposits

/-!
How deeply regions are nested, and outcomes that are not failures for it.  Depth is looked at in
one place only, when a piece is folded; all that is asked of a routine fails for other reasons.
-/

namespace Decompiler

open List

namespace Region

/-- How many loops stand around each other, not counting unreachable code. -/
def loopNesting : Region → Nat :=
  fold {
    block := fun _ => 0
    sequence := fun items => items.foldl max 0
    loop := above
    conditional := fun arms alt =>
      ((arms.flatMap fun arm => [arm.1, arm.2]) ++ alt.toList).foldl max 0
    chain := fun items => items.foldl max 0
    exit := fun body _ => body }

variable {ns : List Nat} {child region : Region}

theorem foldl_max_le_iff {least bound : Nat} :
    ns.foldl max least ≤ bound ↔ least ≤ bound ∧ ∀ n ∈ ns, n ≤ bound := by
  induction ns generalizing least with
  | nil => simp
  | cons n ns ih => rw [foldl_cons, ih, Nat.max_le, forall_mem_cons, and_assoc]

theorem le_foldl_max {n : Nat} (h : n ∈ ns) : n ≤ ns.foldl max 0 :=
  (foldl_max_le_iff.1 (Nat.le_refl _)).2 n h

theorem depth_eq (region : Region) : region.depth = above (region.children.map depth) := by
  cases region with
  | block id => rfl
  | sequence items => exact congrArg above (foldItems_eq_map _ items)
  | loop items => exact congrArg above (foldItems_eq_map _ items)
  | conditional arms alt =>
    simp only [depth, fold_conditional, children, map_append, map_flatMap, flatMap_map]
    cases alt <;> rfl
  | chain items => exact congrArg above (foldItems_eq_map _ items)
  | exit body dead =>
    simp only [depth, fold_exit, children, map_cons]
    cases dead <;> rfl

theorem depth_lt_of_mem (h : child ∈ region.children) : child.depth < region.depth := by
  have hle : child.depth ≤ (region.children.map depth).foldl max 0 :=
    le_foldl_max (mem_map_of_mem h)
  rw [region.depth_eq, above]
  omega

theorem loopNesting_loop (items : List Region) :
    (loop items).loopNesting = above (items.map loopNesting) :=
  congrArg above (foldItems_eq_map _ items)

theorem loopNesting_lt_of_mem {items : List Region} {item : Region} (h : item ∈ items) :
    item.loopNesting < (loop items).loopNesting := by
  have hle : item.loopNesting ≤ (items.map loopNesting).foldl max 0 :=
    le_foldl_max (mem_map_of_mem h)
  rw [loopNesting_loop, above]
  omega

/-- Loops in a part that is reached are loops of the region. -/
theorem loopNesting_le_of_mem (h : child ∈ region.children)
    (hexit : ∀ body dead, region ≠ .exit body dead) : child.loopNesting ≤ region.loopNesting := by
  have hle : child.loopNesting ≤ (region.children.map loopNesting).foldl max 0 :=
    le_foldl_max (mem_map_of_mem h)
  cases region with
  | block id => cases h
  | sequence items =>
    rwa [show (sequence items).loopNesting = _ from
      congrArg (List.foldl max 0) (foldItems_eq_map _ items)]
  | loop items => exact Nat.le_of_lt (loopNesting_lt_of_mem h)
  | conditional arms alt =>
    refine Nat.le_trans hle (Nat.le_of_eq ?_)
    simp only [loopNesting, fold_conditional, children, map_append, map_flatMap, flatMap_map]
    cases alt <;> rfl
  | chain items =>
    rwa [show (chain items).loopNesting = _ from
      congrArg (List.foldl max 0) (foldItems_eq_map _ items)]
  | exit body dead => exact absurd rfl (hexit body dead)

end Region

/-- Whatever error an outcome is, it is not that regions are nested too deeply. -/
def Shallow {α : Type} (result : Except Error α) : Prop :=
  ∀ e, result = .error e → e.tag ≠ .depthLimit

namespace Shallow

variable {α β : Type}

theorem ok (a : α) : Shallow (.ok a : Except Error α) := by
  rintro e ⟨⟩

theorem error {e : Error} (h : (e.tag == .depthLimit) = false) :
    Shallow (.error e : Except Error α) := by
  rintro _ ⟨⟩
  exact ne_of_beq_false h

theorem bind {x : Except Error β} {k : β → Except Error α} (hx : Shallow x)
    (hk : ∀ b, Shallow (k b)) : Shallow (x >>= k) := by
  cases x with
  | error e => exact error (beq_false_of_ne (hx e rfl))
  | ok b => exact hk b

theorem mapM {f : β → Except Error α} (hf : ∀ b, Shallow (f b)) (bs : List β) :
    Shallow (bs.mapM f) := by
  induction bs with
  | nil => exact ok _
  | cons b bs ih =>
    rw [mapM_cons]
    exact .bind (hf b) fun _ => .bind ih fun _ => ok _

end Shallow

namespace Routine

variable (r : Routine)

theorem block_shallow (id : BlockId) : Shallow (r.block id) := by
  unfold block
  split
  · exact .ok _
  · exact .error rfl

theorem instruction_shallow (i : Nat) : Shallow (r.instruction i) := by
  unfold instruction
  split
  · exact .ok _
  · exact .error rfl

theorem terminator_shallow (id : BlockId) : Shallow (r.terminator id) := by
  refine .bind (r.block_shallow id) fun block => ?_
  split
  · exact .ok _
  · exact .bind (r.instruction_shallow _) fun _ => .ok _

theorem regionTerminator_shallow (region : Region) : Shallow (r.regionTerminator region) := by
  refine Region.fold_induct _ (P := Shallow) ?_ ?_ ?_ ?_ ?_ ?_ region
  · exact r.terminator_shallow
  · intro items h
    dsimp only
    cases hlast : items.getLast? with
    | none => exact .ok _
    | some last => exact h last (mem_of_getLast? hlast)
  · exact fun _ _ => .ok _
  · exact fun _ _ _ _ => .ok _
  · exact fun _ _ => .ok _
  · exact fun _ _ _ _ => .ok _

theorem expectBranch_shallow (region : Region) (conditional : Bool) :
    Shallow (r.expectBranch region conditional) := by
  refine .bind (r.regionTerminator_shallow region) fun terminator => ?_
  split
  · split
    · exact .ok _
    · exact .error rfl
  · exact .error rfl

theorem testsFirstLayout_shallow (first last : Region) :
    Shallow (r.testsFirstLayout first last) := by
  refine .bind (r.expectBranch_shallow first true) fun leave => ?_
  dsimp only
  split
  · exact .error rfl
  · refine .bind (r.expectBranch_shallow last false) fun back => ?_
    split
    · exact .error rfl
    · exact .ok _

theorem otherLayout_shallow (first last : Region) (more : Bool) :
    Shallow (r.otherLayout first last more) := by
  refine .bind (.bind (r.regionTerminator_shallow last) fun _ => .ok _) fun back => ?_
  split
  · exact .ok _
  · split
    · exact r.testsFirstLayout_shallow first last
    · exact .error rfl

theorem loopLayout_shallow (first last : Region) (rest : List Region) :
    Shallow (r.loopLayout first last rest) := by
  unfold loopLayout
  split
  · exact r.otherLayout_shallow first last false
  · refine .bind (.bind (r.regionTerminator_shallow first) fun _ => .ok _) fun entry => ?_
    split
    · exact r.otherLayout_shallow first last true
    · refine .bind (r.expectBranch_shallow last true) fun back => ?_
      dsimp only
      split
      · exact .error rfl
      · exact .ok _

theorem skippingBranches_shallow (finish : Option BlockId) (tests : List Region) :
    Shallow (r.skippingBranches finish tests) := by
  have hone : ∀ test target, Shallow (r.skippingBranch test target) := by
    intro test target
    refine .bind (r.expectBranch_shallow test true) fun entry => ?_
    dsimp only
    split
    · exact .error rfl
    · exact .ok _
  induction tests with
  | nil => exact .ok _
  | cons test rest ih =>
    cases rest with
    | nil => exact .bind (hone test finish) fun _ => .ok _
    | cons next rest => exact .bind (hone test _) fun _ => .bind ih fun _ => .ok _

theorem armJump_shallow (body : Region) (finish : BlockId) (required : Bool) :
    Shallow (r.armJump body finish required) := by
  refine .bind (r.regionTerminator_shallow body) fun terminator => ?_
  split
  · exact .ok _
  · split
    · exact .error rfl
    · exact .ok _

theorem chainTest_shallow (finish : BlockId) (entry : Region) :
    Shallow (r.chainTest finish entry) := by
  refine .bind (r.expectBranch_shallow entry true) fun branch => ?_
  dsimp only
  split
  · exact .error rfl
  · split
    · exact .ok _
    · exact .error rfl

theorem endsBySetting_shallow (region : Region) (register : Register) :
    Shallow (r.endsBySetting region register) := by
  unfold endsBySetting
  split
  · exact .ok _
  · split
    · exact .ok _
    · refine .bind (r.block_shallow _) fun block => .bind (r.terminator_shallow _) fun last => ?_
      split
      · exact .ok _
      · exact .bind (r.instruction_shallow _) fun _ => .ok _

theorem chainPlan_shallow (entries : List Region) (last : Region) :
    Shallow (r.chainPlan entries last) := by
  have hresult : ∀ tests, Shallow (r.chainResult tests last) := by
    intro tests
    unfold chainResult
    split
    · exact .ok _
    · exact .bind (r.endsBySetting_shallow last _) fun _ => .ok _
  unfold chainPlan
  extract_lets plan
  have hplan : ∀ u, Shallow (plan u) := by
    intro u
    unfold plan
    split
    · refine .bind (.mapM (r.chainTest_shallow _) entries) fun tests => ?_
      extract_lets finish
      have hfinish : ∀ kind, Shallow (finish kind) := by
        intro kind
        refine .bind (hresult tests) fun result => ?_
        split
        · exact .error rfl
        · exact .ok _
      split
      · exact hfinish _
      · split
        · exact hfinish _
        · exact .error rfl
    · exact .error rfl
  split
  · exact .error rfl
  · exact hplan ()

theorem matchAbs_shallow (id : BlockId) : Shallow (r.matchAbs id) :=
  .bind (r.terminator_shallow id) fun _ => .ok _

theorem matchAsh_shallow (id : BlockId) : Shallow (r.matchAsh id) := by
  refine .bind (r.terminator_shallow id) fun terminator => ?_
  split
  · refine .bind (r.block_shallow _) fun right => ?_
    split
    · refine .bind (r.instruction_shallow _) fun negate => ?_
      split
      · split
        · exact .ok _
        · refine .bind (r.instruction_shallow _) fun shift => ?_
          split
          · exact .ok _
          · exact .ok _
      · exact .ok _
    · exact .ok _
  · exact .ok _

theorem matchTypeOf_shallow (id : BlockId) : Shallow (r.matchTypeOf id) := by
  refine .bind (r.block_shallow _) fun first => .bind (r.block_shallow _) fun second => ?_
  refine .bind (r.block_shallow _) fun third => ?_
  split
  · exact .ok _
  · refine .bind (r.terminator_shallow _) fun zeroTest => ?_
    split
    · split
      · split
        · refine .bind (r.instruction_shallow _) fun tag => ?_
          split
          · split
            · split
              · exact .ok _
              · refine .bind (r.terminator_shallow _) fun pairTest => ?_
                split
                · extract_lets positive
                  split
                  · exact .ok _
                  · refine .bind (r.instruction_shallow _) fun load => ?_
                    split
                    · split
                      · exact .ok _
                      · exact .ok _
                    · exact .ok _
                · exact .ok _
            · exact .ok _
          · exact .ok _
        · exact .ok _
      · exact .ok _
    · exact .ok _

end Routine

namespace TryFoldM

/-- A tame step that fails for the depth of regions only where they may be too deep. -/
structure Bounded (deep : Prop) {α : Type} (m : TryFoldM α) : Prop where
  tame : m.Tame
  shallow : ¬deep → ∀ s, Shallow (m.run s).1

namespace Bounded

variable {α β : Type} {deep : Prop} {m : TryFoldM α} {e : Error}

theorem mono (h : m.Bounded False) : m.Bounded deep :=
  ⟨h.tame, fun _ => h.shallow id⟩

theorem pure (a : α) : (Pure.pure a : TryFoldM α).Bounded deep := ⟨.pure a, fun _ _ => .ok a⟩

theorem throw (h : (e.tag == .depthLimit) = false) :
    (MonadExcept.throw e : TryFoldM α).Bounded deep := ⟨.throw e, fun _ _ => .error h⟩

theorem ofExcept {result : Except Error α} (h : Shallow result) :
    (TryFoldM.ofExcept result).Bounded deep := ⟨.ofExcept result, fun _ _ => h⟩

theorem lift {m : FoldM α} (hm : m.Tame) : (liftM m : TryFoldM α).Bounded deep :=
  ⟨.lift hm, fun _ _ => .ok _⟩

theorem bind {m : TryFoldM β} {k : β → TryFoldM α} (hm : m.Bounded deep)
    (hk : ∀ b, (k b).Bounded deep) : (m >>= k).Bounded deep := by
  refine ⟨.bind hm.tame fun b => (hk b).tame, fun hdeep s => ?_⟩
  have herror := hm.shallow hdeep s
  rcases hrun : m.run s with ⟨e | b, s'⟩
  · rw [hrun] at herror
    rw [run_bind_of_error hrun]
    exact .error (beq_false_of_ne (herror e rfl))
  · rw [run_bind_of_ok hrun]
    exact (hk b).shallow hdeep s'

theorem throw_bind (h : (e.tag == .depthLimit) = false) (k : β → TryFoldM α) :
    (MonadExcept.throw e >>= k : TryFoldM α).Bounded deep :=
  ⟨.throw_bind e k, fun _ _ => .error h⟩

theorem get_bind {k : FoldState → TryFoldM α} (hk : ∀ s, (k s).Bounded deep)
    (hlog : ∀ s log others, k (s.on log others) = k s) : (MonadState.get >>= k).Bounded deep :=
  ⟨.get_bind (fun s => (hk s).tame) hlog, fun hdeep s => (hk s).shallow hdeep s⟩

theorem map {m : TryFoldM β} (hm : m.Bounded deep) (f : β → α) : (f <$> m).Bounded deep := by
  rw [map_eq_pure_bind]
  exact .bind hm fun _ => .pure _

theorem mapM {f : β → TryFoldM α} {bs : List β} (hf : ∀ b ∈ bs, (f b).Bounded deep) :
    (bs.mapM f).Bounded deep := by
  induction bs with
  | nil => exact .pure _
  | cons b bs ih =>
    rw [mapM_cons]
    exact .bind (hf b mem_cons_self) fun _ =>
      .bind (ih fun b hb => hf b (mem_cons_of_mem _ hb)) fun _ => .pure _

theorem forM {f : β → TryFoldM PUnit} (bs : List β) (hf : ∀ b, (f b).Bounded deep) :
    (bs.forM f).Bounded deep := by
  induction bs with
  | nil => exact .pure _
  | cons b bs ih => exact .bind (hf b) fun _ => ih

theorem onFreshStack (hm : m.Bounded deep) : (TryFoldM.onFreshStack m).Bounded deep :=
  ⟨.onFreshStack hm.tame, fun hdeep s => hm.shallow hdeep { s with stack := .empty }⟩

theorem inVerbatim (hm : m.Bounded deep) : (TryFoldM.inVerbatim m).Bounded deep :=
  ⟨.inVerbatim hm.tame, fun hdeep s => hm.shallow hdeep { s with verbatim := true }⟩

end Bounded

end TryFoldM

end Decompiler
