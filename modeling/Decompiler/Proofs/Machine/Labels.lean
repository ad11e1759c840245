import Decompiler.Machine.Assembly
import Decompiler.Proofs.Structure.Checks

/-!
How the labels of a draft are resolved.  Names must be new, and each leads to the block at
its position; the name of the epilogue need not be defined.
-/

namespace Decompiler

open List

namespace Labels

theorem lookup_cons (x name : String) (block : BlockId) (rest : Labels) :
    List.lookup x ((name, block) :: rest) = if x = name then some block else rest.lookup x := by
  by_cases hx : x = name
  · simp [hx]
  · simp [List.lookup_cons, hx, beq_eq_false_iff_ne.2 hx]

theorem lookup_insert (name : String) (block : BlockId) (labels : Labels) (x : String) :
    (Labels.insert name block labels).lookup x =
      if x = name then some block else labels.lookup x := by
  induction labels with
  | nil => exact lookup_cons x name block []
  | cons entry rest ih =>
    obtain ⟨other, target⟩ := entry
    unfold Labels.insert
    dsimp only
    split
    · rename_i heq
      subst heq
      by_cases hx : x = name <;> simp [lookup_cons, hx]
    · rename_i hne
      split
      · rw [lookup_cons]
      · rw [lookup_cons, lookup_cons, ih]
        by_cases hx : x = name
        · simp [hx, hne]
        · simp [hx]

end Labels

namespace Draft

variable {d : Draft} {name : String} {entries : List (String × Nat)} {acc labels : Labels}

theorem addLabel_eq_ok {entry : String × Nat} :
    d.addLabel name acc entry = .ok labels ↔
      acc.lookup entry.1 = none ∧
        ∃ block, d.blockAt? entry.2 = some block ∧ labels = Labels.insert entry.1 block acc := by
  unfold addLabel
  split
  · rename_i hnone
    simp [hnone]
  · rename_i block hblock
    cases hlookup : acc.lookup entry.1 with
    | none => simp [hblock, eq_comm]
    | some other => simp

/-- Labels can only be added when their names are new; each then names the block at its
position. -/
theorem foldlM_addLabel_eq_ok (h : entries.foldlM (d.addLabel name) acc = .ok labels) :
    (entries.map Prod.fst).Nodup ∧ (∀ entry ∈ entries, acc.lookup entry.1 = none) ∧
      ∀ x b, labels.lookup x = some b ↔
        acc.lookup x = some b ∨ ∃ i, (x, i) ∈ entries ∧ d.blockAt? i = some b := by
  induction entries generalizing acc with
  | nil =>
    cases pure_eq_ok.1 h
    simp
  | cons entry entries ih =>
    rw [foldlM_cons] at h
    obtain ⟨next, hfirst, hrest⟩ := bind_eq_ok.1 h
    obtain ⟨hnew, block, hblock, rfl⟩ := addLabel_eq_ok.1 hfirst
    obtain ⟨hnodup, hfresh, hlookup⟩ := ih hrest
    simp only [Labels.lookup_insert] at hfresh hlookup
    have hne : ∀ other ∈ entries, other.1 ≠ entry.1 ∧ acc.lookup other.1 = none := by
      intro other hother
      have hnone := hfresh other hother
      split at hnone
      · cases hnone
      · rename_i hne
        exact ⟨hne, hnone⟩
    refine ⟨?_, ?_, ?_⟩
    · refine nodup_cons.2 ⟨?_, hnodup⟩
      intro hmem
      obtain ⟨other, hother, heq⟩ := mem_map.1 hmem
      exact (hne other hother).1 heq
    · intro other hother
      rcases mem_cons.1 hother with rfl | hother
      · exact hnew
      · exact (hne other hother).2
    · intro x b
      rw [hlookup]
      obtain ⟨first, site⟩ := entry
      by_cases hx : x = first
      · subst hx
        have hnone : ∀ i, (x, i) ∉ entries := fun i hi => (hne _ hi).1 rfl
        simp [hnone, hnew, hblock]
      · simp [hx]

/-- Labels with new names at positions of blocks can be added. -/
theorem exists_foldlM_addLabel (hblocks : ∀ entry ∈ entries, ∃ b, d.blockAt? entry.2 = some b)
    (hnodup : (entries.map Prod.fst).Nodup) (hfresh : ∀ entry ∈ entries, acc.lookup entry.1 = none) :
    ∃ labels, entries.foldlM (d.addLabel name) acc = .ok labels := by
  induction entries generalizing acc with
  | nil => exact ⟨acc, rfl⟩
  | cons entry entries ih =>
    obtain ⟨block, hblock⟩ := hblocks entry mem_cons_self
    obtain ⟨hnot, hnodup⟩ := nodup_cons.1 hnodup
    have hfirst : d.addLabel name acc entry = .ok (Labels.insert entry.1 block acc) :=
      addLabel_eq_ok.2 ⟨hfresh entry mem_cons_self, block, hblock, rfl⟩
    have hstill : ∀ other ∈ entries, (Labels.insert entry.1 block acc).lookup other.1 = none := by
      intro other hother
      have hne : other.1 ≠ entry.1 := fun heq => hnot (heq ▸ mem_map_of_mem hother)
      rw [Labels.lookup_insert, if_neg hne]
      exact hfresh other (mem_cons_of_mem _ hother)
    rw [foldlM_cons, hfirst]
    exact ih (fun other hother => hblocks other (mem_cons_of_mem _ hother)) hnodup hstill

/-- A name that is defined leads to the block at its position, and the name of the epilogue to
the epilogue unless it is defined. -/
theorem resolveLabels_eq_ok (h : d.resolveLabels name = .ok labels)
    (hblocks : ∀ entry ∈ d.labels.toList, ∃ b, d.blockAt? entry.2 = some b) :
    (d.labels.toList.map Prod.fst).Nodup ∧ ∀ x b, labels.lookup x = some b ↔
      (∃ i, (x, i) ∈ d.labels.toList ∧ d.blockAt? i = some b) ∨
        x = epilogueLabel ∧ (∀ i, (x, i) ∉ d.labels.toList) ∧ b = d.epilogue := by
  obtain ⟨found, hfold, h⟩ := bind_eq_ok.1 h
  obtain ⟨hnodup, -, hlookup⟩ := foldlM_addLabel_eq_ok hfold
  have hfound : ∀ x b, found.lookup x = some b ↔
      ∃ i, (x, i) ∈ d.labels.toList ∧ d.blockAt? i = some b := by
    intro x b
    simpa using hlookup x b
  refine ⟨hnodup, fun x b => ?_⟩
  rw [← hfound, ← pure_eq_ok.1 h]
  cases hepilogue : found.lookup epilogueLabel with
  | some block =>
    obtain ⟨i, hi, -⟩ := (hfound _ _).1 hepilogue
    rw [if_pos Option.isSome_some]
    refine (or_iff_left ?_).symm
    rintro ⟨rfl, hnone, -⟩
    exact hnone i hi
  | none =>
    rw [if_neg (by simp), Labels.lookup_insert]
    by_cases hx : x = epilogueLabel
    · subst hx
      have hnone : ∀ i, (epilogueLabel, i) ∉ d.labels.toList := by
        intro i hi
        obtain ⟨block, hblock⟩ := hblocks _ hi
        rw [(hfound epilogueLabel block).2 ⟨i, hi, hblock⟩] at hepilogue
        cases hepilogue
      simp [hepilogue, hnone, eq_comm]
    · simp [hx]

theorem exists_resolveLabels (hblocks : ∀ entry ∈ d.labels.toList, ∃ b, d.blockAt? entry.2 = some b)
    (hnodup : (d.labels.toList.map Prod.fst).Nodup) :
    ∃ labels, d.resolveLabels name = .ok labels := by
  have hfold : ∃ found, d.labels.toList.foldlM (d.addLabel name) [] = .ok found :=
    exists_foldlM_addLabel hblocks hnodup fun _ _ => rfl
  obtain ⟨found, hfound⟩ := hfold
  exact ⟨_, bind_eq_ok.2 ⟨found, hfound, rfl⟩⟩

end Draft

end Decompiler
