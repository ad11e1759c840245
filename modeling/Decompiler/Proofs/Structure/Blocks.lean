import Decompiler.Proofs.Structure.Deposits
import Decompiler.Proofs.Structure.Shapes

/-!
What folding blocks and idioms deposits.
-/

namespace Decompiler

open TryFoldM List

/-- Whatever the account of a state, a step adds a deposit to it. -/
def TryFoldM.Deposits {α : Type} (m : TryFoldM α) (P : α → Deposit) : Prop :=
  ∀ s M C hs, s.Holds M C hs →
    m.Ends s fun a s' => ∃ A D, P a A D ∧ s'.Holds (M + A) (C ++ D) hs

namespace TryFoldM

variable {α : Type} {P : α → Deposit} {m : TryFoldM α}

theorem Deposits.mono {Q : α → Deposit} (h : m.Deposits P) (himp : ∀ a A D, P a A D → Q a A D) :
    m.Deposits Q := by
  intro s M C hs hs'
  refine (h s M C hs hs').mono fun a s' hdeposit => ?_
  obtain ⟨A, D, hP, hholds⟩ := hdeposit
  exact ⟨A, D, himp a A D hP, hholds⟩

/-- Two steps deposit one after the other. -/
theorem Deposits.bind {β : Type} {k : α → TryFoldM β} {Q : α → β → Deposit} (hm : m.Deposits P)
    (hk : ∀ a, (∃ A D, P a A D) → (k a).Deposits (Q a)) :
    (m >>= k).Deposits fun b A D => ∃ a, (P a).seq (Q a b) A D := by
  intro s M C hs hholds
  refine (hm s M C hs hholds).bind fun a s' hdeposit => ?_
  obtain ⟨A, D, hP, hholds'⟩ := hdeposit
  refine (hk a ⟨A, D, hP⟩ s' _ _ hs hholds').mono fun b s'' hdeposit' => ?_
  obtain ⟨B, D', hQ, hholds''⟩ := hdeposit'
  rw [add_assoc, append_assoc] at hholds''
  exact ⟨A + B, D ++ D', ⟨a, A, D, B, D', hP, hQ, rfl, rfl⟩, hholds''⟩

theorem deposits_pure (a : α) :
    (pure a : TryFoldM α).Deposits fun _ => .ofMarks fun A => A = 0 := by
  intro s M C hs hholds
  rw [ends_pure]
  exact ⟨0, [], ⟨rfl, rfl⟩, by rw [add_zero, append_nil]; exact hholds⟩

theorem deposits_throw {e : Error} :
    (throw e : TryFoldM α).Deposits P := fun _ _ _ _ _ => ends_throw

theorem deposits_ofExcept {result : Except Error α} :
    (ofExcept result).Deposits fun a A D => result = .ok a ∧ A = 0 ∧ D = [] := by
  intro s M C hs hholds
  rw [ends_ofExcept]
  intro a ha
  exact ⟨0, [], ⟨ha, rfl, rfl⟩, by rw [add_zero, append_nil]; exact hholds⟩

end TryFoldM

namespace Context

variable {cx : Context} {site : Nat} {id : BlockId}

theorem pushOperation_deposits {op : Operation} :
    (cx.pushOperation site op).Deposits fun _ => .ofMarks fun A => op.Leaves site A := by
  intro s M C hs hholds
  refine (pushOperation_holds hholds).mono fun _ s' hnew => ?_
  obtain ⟨A, hleaves, hholds'⟩ := hnew
  exact ⟨A, [], ⟨hleaves, rfl⟩, by rw [append_nil]; exact hholds'⟩

theorem pushInstruction_deposits :
    (cx.pushInstruction site).Deposits fun _ => .ofMarks (cx.SitesLeave [site]) := by
  unfold pushInstruction
  split
  · rename_i instr hinstr
    refine pushOperation_deposits.mono fun _ A D hleaves => ⟨?_, hleaves.2⟩
    rw [← add_zero A]
    exact .cons hinstr hleaves.1 .nil
  · exact deposits_throw

variable {sites : List Nat} {s : FoldState} {window : List Region}

theorem SitesLeave.append {sites' : List Nat} {A B : Multiset Mark} (h : cx.SitesLeave sites A)
    (h' : cx.SitesLeave sites' B) : cx.SitesLeave (sites ++ sites') (A + B) := by
  induction h with
  | nil =>
    rw [zero_add]
    exact h'
  | cons hinstr hleaves hrest ih =>
    rw [add_assoc]
    exact .cons hinstr hleaves ih

theorem pushSites_deposits :
    (cx.pushSites sites).Deposits fun _ => .ofMarks (cx.SitesLeave sites) := by
  unfold pushSites
  induction sites with
  | nil =>
    refine (deposits_pure _).mono fun _ A D hnone => ⟨?_, hnone.2⟩
    rw [hnone.1]
    exact .nil
  | cons site sites ih =>
    rw [List.forM]
    refine (pushInstruction_deposits.bind fun _ _ => ih).mono fun _ A D hboth => ?_
    obtain ⟨_, A₁, D₁, A₂, D₂, ⟨hfirst, rfl⟩, ⟨hrest, rfl⟩, rfl, rfl⟩ := hboth
    exact ⟨hfirst.append hrest, rfl⟩

theorem pushDelay_deposits {branch : Branch} :
    (cx.pushDelay site branch).Deposits fun _ => .ofMarks (DelayLeaves site branch) := by
  unfold pushDelay DelayLeaves
  cases branch.delaySlot? with
  | some op => exact pushOperation_deposits
  | none => exact deposits_pure _

theorem pushBlockBody_deposits :
    (cx.pushBlockBody id).Deposits fun terminator A D =>
      cx.routine.terminator id = .ok terminator ∧ Deposit.ofMarks (cx.BodyLeaves id) A D := by
  intro s M C hs hholds
  unfold pushBlockBody
  simp only [ends_bind, ends_ofExcept, ends_pure]
  intro block hblock terminator hterm
  refine (pushSites_deposits s M C hs hholds).mono fun _ s' hdeposit => ?_
  obtain ⟨A, D, ⟨hsites, hD⟩, hholds'⟩ := hdeposit
  exact ⟨A, D, ⟨hterm, ⟨block, terminator, hblock, hterm, hsites⟩, hD⟩, hholds'⟩

theorem pushBlock_deposits :
    (cx.pushBlock id).Deposits fun _ =>
      (Deposit.ofMarks (cx.BodyLeaves id)).seq (.ofMarks (cx.TerminatorLeaves id)) := by
  unfold pushBlock
  refine (pushBlockBody_deposits.bind
    (Q := fun terminator _ => .ofMarks fun A => terminator.elim (A = 0) fun last =>
      if last.2.isJump && last.2.target == id + 1 then DelayLeaves last.1 last.2 A
      else cx.SitesLeave [last.1] A) ?_).mono ?_
  · intro terminator _
    cases terminator with
    | none => exact deposits_pure _
    | some terminator =>
      dsimp only [Option.elim_some]
      split
      · exact pushDelay_deposits
      · exact pushInstruction_deposits
  · rintro _ A D ⟨terminator, A₁, D₁, A₂, D₂, ⟨hterm, hbody⟩, ⟨hend, hD₂⟩, rfl, rfl⟩
    refine ⟨A₁, D₁, A₂, D₂, hbody, ⟨⟨terminator, hterm, ?_⟩, hD₂⟩, rfl, rfl⟩
    cases terminator with
    | none => exact hend
    | some terminator => exact hend

theorem pushIdiom_holds {M : Multiset Mark} {C : List (Node FormTree)} {hs : List Root}
    {dst : Variable} (element : Element) (h : s.Gives M C element.children hs)
    (hmarks : element.marks = 0) :
    (cx.pushIdiom site dst element).Ends s fun _ s' => s'.Holds M C hs := by
  have hnew := h.addSingle
  rw [hmarks, add_zero] at hnew
  rw [pushIdiom]
  refine hnew.bind fun f s' hf => ?_
  rw [FoldM.ends_bind, FoldM.ends_noteForm, FoldM.ends_note]
  exact FoldState.Gives.ends_pushValue hf

theorem applyAbs_deposits {shape : AbsShape} :
    (cx.applyAbs id shape).Deposits fun _ => .ofMarks (cx.BodyLeaves id) := by
  intro s M C hs hholds
  rw [applyAbs]
  refine (pushBlockBody_deposits s M C hs hholds).bind fun _ s' hdeposit => ?_
  obtain ⟨A, D, ⟨-, hbody⟩, hholds'⟩ := hdeposit
  simp only [ends_bind, ends_lift, FoldM.ends_consumedNow]
  refine (operandsMarked_gives hholds').mono fun out s'' hout => ?_
  obtain ⟨hlength, hgives⟩ := hout
  rw [length_map] at hlength
  obtain ⟨⟨f, popped⟩, rfl⟩ := length_eq_one_iff.1 hlength
  refine (pushIdiom_holds (.abs f _ _) hgives rfl).mono fun _ s3 hnew => ?_
  exact ⟨A, D, hbody, hnew⟩

theorem applyAsh_deposits {shape : AshShape} :
    (cx.applyAsh id shape).Deposits fun _ => .ofMarks (cx.BodyLeaves id) := by
  intro s M C hs hholds
  unfold applyAsh
  simp only [ends_bind, ends_lift, FoldM.ends_consumedNow]
  split
  · simp
  · simp only [ends_bind, ends_lift, FoldM.ends_consumedNow]
    refine (pushBlockBody_deposits s M C hs hholds).mono fun _ s' hdeposit => ?_
    obtain ⟨A, D, ⟨-, hbody⟩, hholds'⟩ := hdeposit
    refine (operandsConsuming_gives hholds').mono fun out s'' hout => ?_
    obtain ⟨hlength, hgives⟩ := hout
    rw [length_map] at hlength
    obtain ⟨⟨f, popped⟩, ⟨g, popped'⟩, rfl⟩ := length_eq_two.1 hlength
    refine (pushIdiom_holds (.ash f g _ _ _ _) hgives rfl).mono fun _ s3 hnew => ?_
    exact ⟨A, D, hbody, hnew⟩

theorem applyTypeOf_deposits {shape : TypeOfShape} :
    (cx.applyTypeOf id shape).Deposits fun _ => .ofMarks fun A =>
      ∃ block, cx.routine.block id = .ok block ∧
        cx.SitesLeave (List.range' block.start (shape.tagSite - block.start)) A := by
  intro s M C hs hholds
  unfold applyTypeOf
  simp only [ends_bind, ends_lift, FoldM.ends_consumedNow]
  split
  · simp
  · simp only [ends_bind, ends_ofExcept, ends_lift]
    intro block hblock
    refine (pushSites_deposits s M C hs hholds).mono fun _ s' hdeposit => ?_
    obtain ⟨A, D, ⟨hsites, hD⟩, hholds'⟩ := hdeposit
    refine (operand_gives hholds').mono fun f s'' hf => ?_
    refine (pushIdiom_holds (.typeOf f _ _) hf rfl).mono fun _ s3 hnew => ?_
    exact ⟨A, D, ⟨⟨block, hblock, hsites⟩, hD⟩, hnew⟩

/-- What trying idioms at the start of some regions deposits. -/
def Tried (cx : Context) (window : List Region) (used : Nat) : Deposit := fun A D =>
  D = [] ∧ (used = 0 ∧ A = 0 ∨ 0 < used ∧ ∃ id, cx.IdiomLeaves id used A ∧
    (List.range' id used).map .block <+: window)

theorem tryIdioms_deposits : (cx.tryIdioms window).Deposits (cx.Tried window) := by
  intro s M C hs hholds
  apply tryIdioms_ends
  · exact ⟨0, [], ⟨rfl, .inl ⟨rfl, rfl⟩⟩, by rw [add_zero, append_nil]; exact hholds⟩
  intro id shape hfinds
  have hallowed := hfinds.allowed
  have hmatch := hfinds.shape
  have hleaves : (cx.applyIdiom id shape).Deposits
      fun _ => .ofMarks (cx.IdiomLeaves id shape.size) := by
    cases shape with
    | typeOf shape =>
      refine applyTypeOf_deposits.mono ?_
      rintro _ A D ⟨⟨block, hblock, hsites⟩, hD⟩
      exact ⟨.typeOf hallowed hmatch hblock hsites, hD⟩
    | ash shape =>
      exact applyAsh_deposits.mono fun _ A D hbody => ⟨.ash hallowed hmatch hbody.1, hbody.2⟩
    | abs shape =>
      exact applyAbs_deposits.mono fun _ A D hbody => ⟨.abs hallowed hmatch hbody.1, hbody.2⟩
  refine (hleaves s M C hs hholds).mono fun _ s' hdeposit => ?_
  obtain ⟨A, D, ⟨hidiom, hD⟩, hholds'⟩ := hdeposit
  exact ⟨A, D, ⟨hD, .inr ⟨shape.size_pos, id, hidiom, hfinds.blocks⟩⟩, hholds'⟩

end Context

end Decompiler
