import Decompiler.Proofs.Structure.Fits
import Decompiler.Proofs.Structure.Outlook

/-!
Folding the same regions with fewer idioms.  One step covers another when its success leaves
the other no errors but some.  Blocks and idioms cover the same blocks with fewer idioms in use:
an idiom that is not used leaves its blocks to be folded one by one, and the next idiom is looked
for behind them.
-/

namespace Decompiler

open List

namespace TryFoldM

variable {α β γ δ ι : Type} {s s' : FoldState} {errors : List Error}

/-- If the first step succeeds, the second ends in no errors but some.  The two start in states
of their own. -/
def CoversAt (m : TryFoldM α) (s : FoldState) (m' : TryFoldM β) (s' : FoldState)
    (errors : List Error) : Prop := m.Ends s fun _ _ => m'.FailsWith s' errors

/-- If the first step succeeds in any sound state, the second ends in no errors but some. -/
def Covers (m : TryFoldM α) (m' : TryFoldM β) (errors : List Error) : Prop :=
  ∀ s s' hs hs', s.Sound hs → s'.Sound hs' → m.CoversAt s m' s' errors

theorem CoversAt.bind {m : TryFoldM α} {m' : TryFoldM β} {k : α → TryFoldM γ}
    {k' : β → TryFoldM δ} (hm : m.CoversAt s m' s' errors)
    (hk : m.Ends s fun a s₁ => m'.Ends s' fun b s₁' => (k a).CoversAt s₁ (k' b) s₁' errors) :
    (m >>= k).CoversAt s (m' >>= k') s' errors := by
  rw [CoversAt, ends_bind]
  intro a ha c hc
  exact failsWith_bind.2 ⟨hm a ha, fun b hb => hk a ha b hb c hc⟩

namespace Covers

variable {m : TryFoldM α} {m' : TryFoldM β} {k : α → TryFoldM γ} {k' : β → TryFoldM δ}

theorem bind (hm : m.Covers m' errors) (hkeeps : m.KeepsSound) (hkeeps' : m'.KeepsSound)
    (hk : ∀ a b, (k a).Covers (k' b) errors) : (m >>= k).Covers (m' >>= k') errors := by
  intro s s' hs hs' hsound hsound'
  refine (hm s s' hs hs' hsound hsound').bind fun a ha b hb => ?_
  exact hk a b _ _ hs hs' (hkeeps s hs hsound a ha) (hkeeps' s' hs' hsound' b hb)

/-- A step that always succeeds is covered by anything. -/
theorem of_total (h : ∀ s, m'.FailsWith s errors) : m.Covers m' errors :=
  fun _ s' _ _ _ _ _ _ => h s'

/-- A fact that follows from success may be all that is needed. -/
theorem of_fact {P : Prop} (hm : ∀ s hs, s.Sound hs → m.Ends s fun _ _ => P)
    (hm' : P → ∀ s hs, s.Sound hs → m'.FailsWith s errors) : m.Covers m' errors :=
  fun s s' hs hs' hsound hsound' =>
    (hm s hs hsound).mono fun _ _ hP => hm' hP s' hs' hsound'

theorem bind_total (hm : m.Covers m' errors) (hk : ∀ b s, (k' b).FailsWith s errors) :
    (m >>= k).Covers (m' >>= k') errors := by
  intro s s' hs hs' hsound hsound'
  exact (hm s s' hs hs' hsound hsound').bind fun _ _ b _ _ _ => hk b _

theorem throw (e : Error) : (MonadExcept.throw e : TryFoldM α).Covers m' errors :=
  fun _ _ _ _ _ _ => ends_throw

/-- Look-ups in the routine give both steps the same. -/
theorem ofExcept_bind {result : Except Error ι} {k : ι → TryFoldM γ} {k' : ι → TryFoldM δ}
    (h : ∀ i, result = .ok i → (k i).Covers (k' i) errors) :
    (ofExcept result >>= k).Covers (ofExcept result >>= k') errors := by
  cases result with
  | error e => exact fun _ _ _ _ _ _ => ends_bind.2 (ends_ofExcept.2 (by simp))
  | ok i => exact h i rfl

theorem onFreshStack (h : m.Covers m' errors) :
    (TryFoldM.onFreshStack m).Covers (TryFoldM.onFreshStack m') errors := by
  intro s s' hs hs' hsound hsound'
  obtain ⟨fresh, hfresh⟩ := hsound.fresh
  obtain ⟨fresh', hfresh'⟩ := hsound'.fresh
  exact ends_onFreshStack.2 (h _ _ fresh fresh' hfresh hfresh')

theorem mapM {f : ι → TryFoldM α} {f' : ι → TryFoldM β} {is : List ι}
    (h : ∀ i ∈ is, (f i).Covers (f' i) errors) (hkeeps : ∀ i, (f i).KeepsSound)
    (hkeeps' : ∀ i, (f' i).KeepsSound) : (is.mapM f).Covers (is.mapM f') errors := by
  induction is with
  | nil => exact of_total fun s => by simp
  | cons i is ih =>
    rw [mapM_cons, mapM_cons]
    refine (h i mem_cons_self).bind (hkeeps i) (hkeeps' i) fun _ _ => ?_
    refine (ih fun i hi => h i (mem_cons_of_mem _ hi)).bind_total fun _ _ => failsWith_pure

end Covers

end TryFoldM

/-- A context with other idioms in use. -/
abbrev Context.allowing (cx : Context) (allows : Idiom → Bool) : Context :=
  { cx with config := { cx.config with allows } }

namespace Context

variable {cx : Context} {allows : Idiom → Bool} {depth : Nat} {errors : List Error} {id : BlockId}
  {shape : IdiomShape} {rest : List Region}

/-! Idioms in a window of regions. -/

variable {id' : BlockId} {window : List Region}

theorem FindsIn.unique {shape' : IdiomShape} (h : cx.FindsIn window id shape)
    (h' : cx.FindsIn window id' shape') : id = id' ∧ shape = shape' := by
  obtain ⟨rest, hleading, -, hfinds⟩ := h
  obtain ⟨rest', hleading', -, hfinds'⟩ := h'
  cases hleading.symm.trans hleading'
  exact ⟨rfl, hfinds.shape.unique hfinds'.shape⟩

theorem FindsIn.head_eq (h : cx.FindsIn (.block id :: rest) id' shape) : id' = id := by
  obtain ⟨rest', hleading, -⟩ := h
  cases hleading
  rfl

/-- What is found with fewer idioms is found with more. -/
theorem FindsIn.of_allowing (hfewer : ∀ idiom, allows idiom = true → cx.config.allows idiom = true)
    (h : (cx.allowing allows).FindsIn window id shape) : cx.FindsIn window id shape := by
  obtain ⟨rest, hleading, hconsecutive, hfinds⟩ := h
  exact ⟨rest, hleading, hconsecutive, hfinds.size, hfewer _ hfinds.allowed, hfinds.shape⟩

/-- Blocks that start no idiom are folded one by one. -/
theorem pushRegions_blocks (hvalid : cx.routine.IsValid) {ids : List BlockId}
    (hblocks : ∀ id, .block id ∈ ids.map Region.block ++ rest →
      ∃ block, cx.routine.blocks[id]? = some block)
    (hnone : ∀ id ∈ ids, ∀ shape, ¬cx.routine.HasShape id shape) :
    cx.pushRegions depth (ids.map Region.block ++ rest) =
      (do ids.forM cx.pushBlock; cx.pushRegions depth rest) := by
  induction ids with
  | nil => rfl
  | cons id ids ih =>
    rw [map_cons, cons_append] at hblocks ⊢
    rcases pushRegions_cons hvalid hblocks with ⟨id', shape, hfinds, -⟩ | ⟨-, heq⟩
    · cases hfinds.head_eq
      exact absurd hfinds.shape (hnone id mem_cons_self shape)
    · rw [heq, ih (fun id hid => hblocks id (mem_cons_of_mem _ hid))
        fun id hid => hnone id (mem_cons_of_mem _ hid)]
      exact (bind_assoc _ _ _).symm

/-- The blocks of an idiom that is not in use are folded one by one. -/
theorem pushRegions_unused (hvalid : cx.routine.IsValid) (hshape : cx.routine.HasShape id shape)
    (hblocks : ∀ id', .block id' ∈ (List.range' id shape.size).map Region.block ++ rest →
      ∃ block, cx.routine.blocks[id']? = some block) (hnone : ∀ id' shape',
      ¬cx.FindsIn ((List.range' id shape.size).map .block ++ rest) id' shape') :
    cx.pushRegions depth ((List.range' id shape.size).map .block ++ rest) =
      (do (List.range' id shape.size).forM cx.pushBlock; cx.pushRegions depth rest) := by
  obtain ⟨size, hsize⟩ : ∃ size, shape.size = size + 1 :=
    Nat.exists_eq_succ_of_ne_zero shape.size_pos.ne'
  have halone := hshape.alone
  rw [hsize, Nat.add_sub_cancel] at halone
  rw [hsize, range'_succ, map_cons, cons_append] at hblocks hnone ⊢
  rcases pushRegions_cons hvalid hblocks with ⟨id', shape', hfinds, -⟩ | ⟨-, heq⟩
  · exact absurd hfinds (hnone id' shape')
  · rw [heq, pushRegions_blocks hvalid (fun id hid => hblocks id (mem_cons_of_mem _ hid))
      halone]
    exact (bind_assoc _ _ _).symm

/-! Steps that cover those with fewer idioms. -/

variable (hmoves : (cx.allowing allows).moveErrors ⊆ errors)
include hmoves

theorem pushBlock_covers (id : BlockId) :
    (cx.pushBlock id).Covers ((cx.allowing allows).pushBlock id) errors :=
  .of_fact (fun _ _ hsound => pushBlock_fits hsound.1) fun hfits s _ _ =>
    pushBlock_failsWith hmoves hfits s

theorem pushBlockBody_covers (id : BlockId) :
    (cx.pushBlockBody id).Covers ((cx.allowing allows).pushBlockBody id) errors :=
  .of_fact (fun _ _ hsound => pushBlockBody_fits hsound.1) fun hfits s _ _ =>
    pushBlockBody_failsWith hmoves hfits s

theorem pushDelay_covers {site : Nat} {branch : Branch} (hbranch : cx.routine.BranchAt site branch) :
    (cx.pushDelay site branch).Covers ((cx.allowing allows).pushDelay site branch) errors :=
  .of_fact (fun _ _ hsound => pushDelay_fits hsound.1) fun hfits s _ _ =>
    pushDelay_failsWith hmoves hbranch hfits s

/-- An idiom covers itself. -/
theorem applyIdiom_covers (hshape : cx.routine.HasShape id shape) :
    (cx.applyIdiom id shape).Covers ((cx.allowing allows).applyIdiom id shape) errors := by
  refine .of_fact (P := cx.clobbersLive shape = false ∧ cx.routine.BlockFits id) ?_ ?_
  · intro s hs hsound u hu
    refine ⟨applyIdiom_clobbers shape hsound.1 u hu, applyIdiom_fits hshape hsound.1 u hu id ?_⟩
    exact mem_range'_1.2 ⟨Nat.le_refl _, Nat.lt_add_of_pos_right shape.size_pos⟩
  · rintro ⟨hclobbers, hfits⟩ s hs hsound
    exact applyIdiom_failsWith hmoves hshape hclobbers hfits.body hsound.1

/-- An idiom covers its blocks. -/
theorem applyIdiom_covers_blocks (hshape : cx.routine.HasShape id shape) :
    (cx.applyIdiom id shape).Covers
      ((List.range' id shape.size).forM (cx.allowing allows).pushBlock) errors :=
  .of_fact (fun _ _ hsound => applyIdiom_fits hshape hsound.1) fun hfits _ _ _ =>
    TryFoldM.failsWith_forM (fun id => (pushBlock_bounded id).tame.advances) fun b hb s' _ =>
      pushBlock_failsWith hmoves (hfits b hb) s'

theorem pushItem_covers {item : Region}
    (h : ∀ depth, ((cx.piece item).push depth).Covers (((cx.allowing allows).piece item).push depth)
      errors) :
    (cx.pushItem depth item).Covers ((cx.allowing allows).pushItem depth item) errors := by
  cases item with
  | block id => exact pushBlock_covers hmoves id
  | _ => exact h (depth + 1)

/-- Regions one after another cover the same regions with fewer idioms. -/
theorem pushRegions_covers (hvalid : cx.routine.IsValid)
    (hfewer : ∀ idiom, allows idiom = true → cx.config.allows idiom = true) {items : List Region}
    (hblocks : ∀ id, .block id ∈ items → ∃ block, cx.routine.blocks[id]? = some block)
    (hitems : ∀ item ∈ items, (cx.pushItem depth item).Covers
      ((cx.allowing allows).pushItem depth item) errors) :
    (cx.pushRegions depth items).Covers ((cx.allowing allows).pushRegions depth items) errors := by
  induction hlength : items.length using Nat.strong_induction_on generalizing items with
  | _ length ih =>
    subst hlength
    cases items with
    | nil => exact .of_total fun s => TryFoldM.failsWith_pure
    | cons item rest =>
      have hmore : ∀ {more : List Region}, more <:+ item :: rest →
          more.length < (item :: rest).length → (cx.pushRegions depth more).Covers
            ((cx.allowing allows).pushRegions depth more) errors := fun hsuffix hlt =>
        ih _ hlt (fun id hid => hblocks id (hsuffix.subset hid))
          (fun item hitem => hitems item (hsuffix.subset hitem)) rfl
      have hdrop : ∀ shape : IdiomShape,
          (cx.pushRegions depth ((item :: rest).drop shape.size)).Covers
            ((cx.allowing allows).pushRegions depth ((item :: rest).drop shape.size)) errors := by
        intro shape
        refine hmore (drop_suffix _ _) ?_
        have hpos := shape.size_pos
        rw [length_drop, length_cons]
        omega
      rcases pushRegions_cons hvalid hblocks with ⟨id, shape, hfinds, heq⟩ | ⟨hnone, heq⟩
      · have hkeeps := cx.applyIdiom_keepsSound id shape
        rw [heq]
        rcases (cx.allowing allows).pushRegions_cons hvalid hblocks with
          ⟨id', shape', hfinds', heq'⟩ | ⟨hnone', -⟩
        · -- The idiom is still in use.
          obtain ⟨rfl, rfl⟩ := hfinds.unique (hfinds'.of_allowing hfewer)
          rw [heq']
          exact (applyIdiom_covers hmoves hfinds.shape).bind hkeeps
            ((cx.allowing allows).applyIdiom_keepsSound id shape) fun _ _ => hdrop shape
        · -- The idiom is no longer in use, and its blocks are folded by themselves.
          have hunused : (cx.allowing allows).pushRegions depth (item :: rest) =
              (do (List.range' id shape.size).forM (cx.allowing allows).pushBlock
                  (cx.allowing allows).pushRegions depth ((item :: rest).drop shape.size)) := by
            have hwindow := hfinds.window_eq
            rw [hwindow] at hblocks hnone'
            exact (congrArg _ hwindow).trans
              ((cx.allowing allows).pushRegions_unused hvalid hfinds.shape hblocks hnone')
          rw [hunused]
          exact (applyIdiom_covers_blocks hmoves hfinds.shape).bind hkeeps
            (.forM (cx.allowing allows).pushBlock_keepsSound _) fun _ _ => hdrop shape
      · rcases (cx.allowing allows).pushRegions_cons hvalid hblocks with
          ⟨id, shape, hfinds, -⟩ | ⟨-, heq'⟩
        · exact absurd (hfinds.of_allowing hfewer) (hnone id shape)
        · rw [heq, heq']
          exact (hitems item mem_cons_self).bind
            (cx.pushItem_keepsSound item) ((cx.allowing allows).pushItem_keepsSound item) fun _ _ =>
              hmore (suffix_cons _ _) (Nat.lt_succ_self _)

end Context

end Decompiler
