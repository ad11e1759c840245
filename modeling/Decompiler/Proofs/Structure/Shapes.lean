import Decompiler.Proofs.Fold.Outcome
import Decompiler.Structure.Idiom

/-!
The shapes of idioms that span blocks.  Trying idioms at the start of some regions folds one
whose shape is found in the blocks there, or does nothing.
-/

namespace Decompiler

open TryFoldM List

inductive IdiomShape
  | typeOf (shape : TypeOfShape)
  | ash (shape : AshShape)
  | abs (shape : AbsShape)

namespace IdiomShape

def family : IdiomShape → Idiom
  | typeOf _ => .typeOf
  | ash _ => .ash
  | abs _ => .abs

def size : IdiomShape → Nat
  | typeOf _ => 3
  | ash _ => 2
  | abs _ => 1

theorem size_pos (shape : IdiomShape) : 0 < shape.size := by
  cases shape <;> exact Nat.succ_pos _

end IdiomShape

def Routine.HasShape (r : Routine) (id : BlockId) : IdiomShape → Prop
  | .typeOf shape => r.matchTypeOf id = .ok (some shape)
  | .ash shape => r.matchAsh id = .ok (some shape)
  | .abs shape => r.matchAbs id = .ok (some shape)

namespace Context

variable {cx : Context} {id : BlockId} {ids : List BlockId} {window : List Region} {s : FoldState}

def applyIdiom (cx : Context) (id : BlockId) : IdiomShape → TryFoldM Unit
  | .typeOf shape => cx.applyTypeOf id shape
  | .ash shape => cx.applyAsh id shape
  | .abs shape => cx.applyAbs id shape

/-- An idiom that may be used stands at the start of some blocks. -/
structure Finds (cx : Context) (id : BlockId) (available : Nat) (shape : IdiomShape) : Prop where
  size : shape.size ≤ available
  allowed : cx.config.allows shape.family = true
  shape : cx.routine.HasShape id shape

/-- An idiom that may be used stands at the start of a window of regions. -/
def FindsIn (cx : Context) (window : List Region) (id : BlockId) (shape : IdiomShape) : Prop :=
  ∃ rest, leadingBlocks (window.take 3) = id :: rest ∧ areConsecutive (id :: rest) = true ∧
    cx.Finds id (rest.length + 1) shape

theorem leadingBlocks_prefix (window : List Region) :
    (leadingBlocks window).map .block <+: window := by
  induction window with
  | nil => exact nil_prefix
  | cons region window ih =>
    cases region with
    | block id => exact cons_prefix_cons.2 ⟨rfl, ih⟩
    | _ => exact nil_prefix

theorem eq_range'_of_areConsecutive (h : areConsecutive (id :: ids) = true) :
    id :: ids = List.range' id (ids.length + 1) := by
  induction ids generalizing id with
  | nil => rfl
  | cons next ids ih =>
    rw [areConsecutive, Bool.and_eq_true, beq_iff_eq] at h
    rw [length_cons, range'_succ, ← h.1, ← ih h.2]

namespace FindsIn

variable {found : IdiomShape} (h : cx.FindsIn window id found)
include h

theorem allowed : cx.config.allows found.family = true := by
  obtain ⟨rest, -, -, hfinds⟩ := h
  exact hfinds.allowed

theorem shape : cx.routine.HasShape id found := by
  obtain ⟨rest, -, -, hfinds⟩ := h
  exact hfinds.shape

/-- The regions that an idiom takes are its blocks. -/
theorem blocks : (List.range' id found.size).map .block <+: window := by
  obtain ⟨rest, hleading, hconsecutive, hfinds⟩ := h
  have hstart := leadingBlocks_prefix (window.take 3)
  rw [hleading, eq_range'_of_areConsecutive hconsecutive] at hstart
  obtain ⟨more, hmore⟩ := Nat.exists_eq_add_of_le hfinds.size
  rw [hmore, ← range'_append_1, map_append] at hstart
  exact ((prefix_append _ _).trans hstart).trans (List.take_prefix 3 window)

theorem window_eq : window = (List.range' id found.size).map .block ++ window.drop found.size := by
  have htake := prefix_iff_eq_take.1 h.blocks
  rw [length_map, length_range'] at htake
  rw [htake, take_append_drop]

end FindsIn

theorem whenAllowed_ends {α : Type} {idiom : Idiom} {found : Except Error (Option α)}
    {Q : Option α → FoldState → Prop} (hnone : Q none s)
    (hsome : ∀ shape, cx.config.allows idiom = true → found = .ok (some shape) → Q (some shape) s) :
    (cx.whenAllowed idiom found).Ends s Q := by
  unfold whenAllowed
  split
  · rename_i hallowed
    rw [ends_ofExcept]
    rintro (_ | shape) hfound
    · exact hnone
    · exact hsome shape hallowed hfound
  · rw [ends_pure]
    exact hnone

variable {Q : Nat → FoldState → Prop}

theorem tryIdiomsAt_ends {available : Nat} (havailable : 0 < available) (hnone : Q 0 s)
    (hshape : ∀ shape, cx.Finds id available shape →
      (cx.applyIdiom id shape).Ends s fun _ s' => Q shape.size s') :
    (cx.tryIdiomsAt id available).Ends s Q := by
  unfold tryIdiomsAt
  extract_lets tryAbs tryAsh
  have habs : (tryAbs ()).Ends s Q := by
    unfold tryAbs
    rw [ends_bind]
    refine whenAllowed_ends (ends_pure.2 hnone) ?_
    intro shape hallowed hmatch
    simp only [ends_bind, ends_pure]
    exact hshape (.abs shape) ⟨havailable, hallowed, hmatch⟩
  have hash : (tryAsh ()).Ends s Q := by
    unfold tryAsh
    split
    · rename_i htwo
      rw [ends_bind]
      refine whenAllowed_ends habs ?_
      intro shape hallowed hmatch
      simp only [ends_bind, ends_pure]
      exact hshape (.ash shape) ⟨htwo, hallowed, hmatch⟩
    · exact habs
  split
  · rename_i hthree
    rw [ends_bind]
    refine whenAllowed_ends hash ?_
    intro shape hallowed hmatch
    simp only [ends_bind, ends_pure]
    exact hshape (.typeOf shape) ⟨hthree, hallowed, hmatch⟩
  · exact hash

/-- Trying idioms folds one that is found, or does nothing. -/
theorem tryIdioms_ends (hnone : Q 0 s)
    (hshape : ∀ id shape, cx.FindsIn window id shape →
      (cx.applyIdiom id shape).Ends s fun _ s' => Q shape.size s') :
    (cx.tryIdioms window).Ends s Q := by
  unfold tryIdioms
  dsimp only
  cases hleading : leadingBlocks (window.take 3) with
  | nil => exact ends_pure.2 hnone
  | cons id rest =>
    dsimp only
    split
    · rename_i hconsecutive
      exact tryIdiomsAt_ends (Nat.succ_pos _) hnone fun shape hfinds =>
        hshape id shape ⟨rest, hleading, hconsecutive, hfinds⟩
    · exact ends_pure.2 hnone

end Context

end Decompiler
