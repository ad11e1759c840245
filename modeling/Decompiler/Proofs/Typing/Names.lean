import Decompiler.Typing.TypeTable
import Mathlib.Data.List.Nodup

/-!
Names of variables.  The name of a variable says where its value comes from: two variables
have the same name exactly if they are of one register and refer to the same definition.
-/

namespace Decompiler

open List

/-- Where the value of a variable comes from. -/
inductive Definition
  /-- The routine is given the value. -/
  | input
  /-- An instruction writes the value. -/
  | site (i : Nat)
deriving DecidableEq, Inhabited, Repr

namespace Register

/-- The name of a register that no instruction has written: arguments are counted. -/
def inputName (q : Register) : String :=
  match q.argument? with
  | some n => "arg" ++ toString n
  | none => q.name

/-- Two registers with one name are the same if no name of the register file comes twice. -/
theorem injective_of_nodup {f : Register → String} (h : (all.map f).Nodup) :
    Function.Injective f := by
  have hmem : ∀ q : Register, q ∈ all := fun q => mem_map.2 ⟨q.index, mem_finRange _, rfl⟩
  exact fun q q' hsame => inj_on_of_nodup_map h (hmem q) (hmem q') hsame

theorem name_injective : Function.Injective name := injective_of_nodup (by decide +kernel)

theorem inputName_injective : Function.Injective inputName := injective_of_nodup (by decide +kernel)

theorem hyphen_notMem_name (q : Register) : '-' ∉ q.name.toList := by
  obtain ⟨i⟩ := q
  have hall : ∀ i : Fin 67, '-' ∉ (name ⟨i⟩).toList := by decide +kernel
  exact hall i

theorem hyphen_notMem_inputName (q : Register) : '-' ∉ q.inputName.toList := by
  obtain ⟨i⟩ := q
  have hall : ∀ i : Fin 67, '-' ∉ (inputName ⟨i⟩).toList := by decide +kernel
  exact hall i

def versionName (q : Register) (n : Nat) : String := q.name ++ "-" ++ toString n

theorem toList_versionName (q : Register) (n : Nat) :
    (q.versionName n).toList = q.name.toList ++ '-' :: (toString n).toList := by
  simp [versionName]

/-- The register ends at the hyphen, so both parts can be read off the name. -/
theorem versionName_inj {q q' : Register} {n n' : Nat} :
    q.versionName n = q'.versionName n' ↔ q = q' ∧ n = n' := by
  refine ⟨fun h => ?_, fun h => by rw [h.1, h.2]⟩
  have hlists := congrArg String.toList h
  rw [toList_versionName, toList_versionName] at hlists
  have hupto : ∀ (q : Register) (digits : List Char),
      (q.name.toList ++ '-' :: digits).takeWhile (· != '-') = q.name.toList := by
    intro q digits
    rw [takeWhile_append_of_pos, takeWhile_cons_of_neg (by decide), append_nil]
    intro c hc
    simpa using fun hhyphen : c = '-' => q.hyphen_notMem_name (hhyphen ▸ hc)
  have hname : q.name.toList = q'.name.toList := by
    rw [← hupto q (toString n).toList, hlists, hupto]
  rw [hname, append_cancel_left_eq, cons.injEq] at hlists
  refine ⟨name_injective (String.toList_inj.1 hname), ?_⟩
  have hdigits : Nat.toDigits 10 n = Nat.toDigits 10 n' := by
    simpa [Nat.toString_eq_ofList_toDigits] using hlists.2
  rw [← Nat.ofDigitChars_ten_toDigits (n := n), hdigits, Nat.ofDigitChars_ten_toDigits]

/-- A definition has a hyphen in its name and an input has none. -/
theorem versionName_ne_inputName (q q' : Register) (n : Nat) : q.versionName n ≠ q'.inputName := by
  intro h
  apply q'.hyphen_notMem_inputName
  rw [← h, toList_versionName]
  exact mem_append_right _ mem_cons_self

end Register

namespace Routine

variable {r : Routine} {q : Register} {u v : Variable} {i n : Nat} {d d' : Definition}

def WritesAt (r : Routine) (q : Register) (i : Nat) : Prop :=
  ∃ instr, r.code[i]? = some instr ∧ q ∈ instr.op.writes

/-- The definition that a variable refers to.  A write refers to itself and a read to the closest
write before it in the code; where there is no such write, the value is an input. -/
inductive RefersTo (r : Routine) : Variable → Definition → Prop
  | write {q : Register} {i : Nat} (h : r.WritesAt q i) : RefersTo r (.write q i) (.site i)
  | unwritten {q : Register} {i : Nat} (h : ¬ r.WritesAt q i) : RefersTo r (.write q i) .input
  | read {q : Register} {i j : Nat} (hlt : i < j) (h : r.WritesAt q i)
      (hbetween : ∀ k, i < k → k < j → ¬ r.WritesAt q k) : RefersTo r (.read q j) (.site i)
  | undefined {q : Register} {j : Nat} (hbefore : ∀ k < j, ¬ r.WritesAt q k) :
      RefersTo r (.read q j) .input

theorem RefersTo.unique (h : r.RefersTo v d) (h' : r.RefersTo v d') : d = d' := by
  cases h with
  | write hi =>
    cases h' with
    | write => rfl
    | unwritten hno => exact absurd hi hno
  | unwritten hno =>
    cases h' with
    | write hi => exact absurd hi hno
    | unwritten => rfl
  | @read _ i _ hlt hi hbetween =>
    cases h' with
    | @read _ i' _ hlt' hi' hbetween' =>
      -- Neither of two closest writes stands before the other.
      rcases Nat.lt_trichotomy i i' with hless | rfl | hless
      · exact absurd hi' (hbetween i' hless hlt')
      · rfl
      · exact absurd hi (hbetween' i hless hlt)
    | undefined hbefore => exact absurd hi (hbefore i hlt)
  | undefined hbefore =>
    cases h' with
    | read hlt hi => exact absurd hi (hbefore _ hlt)
    | undefined => rfl

theorem mem_writeSites : i ∈ r.writeSites q ↔ r.WritesAt q i := by
  rw [writeSites, mem_filter, mem_range, WritesAt]
  constructor
  · rintro ⟨hlt, hwrites⟩
    rw [Array.getElem?_eq_getElem hlt] at hwrites ⊢
    exact ⟨_, rfl, hwrites⟩
  · rintro ⟨instr, hcode, hwrites⟩
    refine ⟨(Array.getElem?_eq_some_iff.1 hcode).1, ?_⟩
    rw [hcode]
    exact hwrites

theorem pairwise_writeSites (r : Routine) (q : Register) :
    (r.writeSites q).Pairwise (· < ·) :=
  pairwise_lt_range.filter _

/-- In an ascending list the smaller entries come first. -/
theorem filter_lt_prefix {sites : List Nat} (h : sites.Pairwise (· < ·)) (j : Nat) :
    sites.filter (· < j) <+: sites := by
  induction sites with
  | nil => exact prefix_refl _
  | cons i sites ih =>
    obtain ⟨hfirst, hrest⟩ := pairwise_cons.1 h
    by_cases hi : i < j
    · rw [filter_cons_of_pos (by simpa using hi)]
      exact (prefix_cons_inj i).2 (ih hrest)
    · have hnone : (i :: sites).filter (· < j) = [] := by
        rw [filter_eq_nil_iff]
        intro k hk
        have hle : i ≤ k := (mem_cons.1 hk).elim (fun h => h ▸ Nat.le_refl _)
          fun h => Nat.le_of_lt (hfirst k h)
        simp
        omega
      rw [hnone]
      exact nil_prefix

/-- The last of the smaller entries of an ascending list is found by their number. -/
theorem exists_last_before {sites : List Nat} (h : sites.Pairwise (· < ·)) {j n : Nat}
    (hlength : (sites.filter (· < j)).length = n + 1) :
    ∃ i, sites[n]? = some i ∧ i < j ∧ ∀ k ∈ sites, k < j → k ≤ i := by
  have hascending := h.filter (· < j)
  have hmem : ∀ k, k ∈ sites.filter (· < j) ↔ k ∈ sites ∧ k < j := by simp [mem_filter]
  obtain ⟨after, hsites⟩ := filter_lt_prefix h j
  generalize sites.filter (· < j) = smaller at *
  have hn : n < smaller.length := by omega
  refine ⟨smaller[n], ?_, ((hmem _).1 (getElem_mem hn)).2, fun k hk hkj => ?_⟩
  · rw [← hsites, getElem?_append_left hn, List.getElem?_eq_getElem hn]
  · obtain ⟨m, hm, rfl⟩ := getElem_of_mem ((hmem k).2 ⟨hk, hkj⟩)
    rcases Nat.lt_or_eq_of_le (show m ≤ n by omega) with hless | rfl
    · exact Nat.le_of_lt (pairwise_iff_getElem.1 hascending m n hm hn hless)
    · exact Nat.le_refl _

/-- A variable without a definition is an input of the routine. -/
theorem refersTo_input (h : r.definition? v = none) : r.RefersTo v .input := by
  obtain ⟨q, access, j⟩ := v
  cases access with
  | write =>
    refine .unwritten fun hwrites => ?_
    have hne := findIdx?_eq_none_iff.1 h j (mem_writeSites.2 hwrites)
    simp at hne
  | read =>
    refine .undefined fun k hk hwrites => ?_
    have hmem : k ∈ (r.writeSites q).filter (· < j) :=
      mem_filter.2 ⟨mem_writeSites.2 hwrites, by simpa using hk⟩
    simp only [definition?] at h
    split at h
    · rename_i hlength
      rw [eq_nil_of_length_eq_zero hlength] at hmem
      exact not_mem_nil hmem
    · cases h

/-- The number of a definition is its position among the writes of the register. -/
theorem refersTo_site (h : r.definition? v = some n) :
    ∃ i, (r.writeSites v.register)[n]? = some i ∧ r.RefersTo v (.site i) := by
  obtain ⟨q, access, j⟩ := v
  cases access with
  | write =>
    obtain ⟨hn, hsite, -⟩ := findIdx?_eq_some_iff_getElem.1 h
    have hj : (r.writeSites q)[n] = j := by simpa using hsite
    refine ⟨j, List.getElem?_eq_some_iff.2 ⟨hn, hj⟩, .write (mem_writeSites.1 ?_)⟩
    rw [← hj]
    exact getElem_mem hn
  | read =>
    simp only [definition?] at h
    split at h
    · cases h
    · rename_i m hlength
      cases h
      obtain ⟨i, hi, hlt, hlast⟩ := exists_last_before (r.pairwise_writeSites q) hlength
      refine ⟨i, hi, .read hlt (mem_writeSites.1 (List.mem_of_getElem? hi)) ?_⟩
      intro k hik hkj hwrites
      have hle := hlast k (mem_writeSites.2 hwrites) hkj
      omega

theorem variableName_eq (r : Routine) (v : Variable) :
    r.variableName v =
      match r.definition? v with
      | some n => v.register.versionName n
      | none => v.register.inputName := rfl

/-- A name holds the register and the number of the definition. -/
theorem variableName_eq_iff : r.variableName u = r.variableName v ↔
    u.register = v.register ∧ r.definition? u = r.definition? v := by
  rw [variableName_eq, variableName_eq]
  cases hu : r.definition? u with
  | none =>
    cases hv : r.definition? v with
    | none => simp [Register.inputName_injective.eq_iff]
    | some m => simpa using (v.register.versionName_ne_inputName u.register m).symm
  | some n =>
    cases hv : r.definition? v with
    | none => simpa using u.register.versionName_ne_inputName v.register n
    | some m => simp [Register.versionName_inj]

/-- Two numbers of definitions of one register are equal if the definitions are. -/
theorem definition?_eq_iff (hreg : u.register = v.register) :
    r.definition? u = r.definition? v ↔ ∃ d, r.RefersTo u d ∧ r.RefersTo v d := by
  cases hu : r.definition? u with
  | none =>
    have hinput := refersTo_input hu
    cases hv : r.definition? v with
    | none => simpa using ⟨_, hinput, refersTo_input hv⟩
    | some m =>
      obtain ⟨i, -, hsite⟩ := refersTo_site hv
      simp only [reduceCtorEq, false_iff]
      rintro ⟨d, hd, hd'⟩
      cases (hinput.unique hd).trans (hd'.unique hsite)
  | some n =>
    obtain ⟨i, hi, hsite⟩ := refersTo_site hu
    cases hv : r.definition? v with
    | none =>
      simp only [reduceCtorEq, false_iff]
      rintro ⟨d, hd, hd'⟩
      cases (hsite.unique hd).trans (hd'.unique (refersTo_input hv))
    | some m =>
      obtain ⟨i', hi', hsite'⟩ := refersTo_site hv
      rw [hreg] at hi
      constructor
      · rintro ⟨⟩
        cases hi.symm.trans hi'
        exact ⟨_, hsite, hsite'⟩
      · rintro ⟨d, hd, hd'⟩
        cases (hsite.unique hd).trans (hd'.unique hsite')
        obtain ⟨hn, hni⟩ := List.getElem?_eq_some_iff.1 hi
        obtain ⟨hm, hmi⟩ := List.getElem?_eq_some_iff.1 hi'
        have hnodup : (r.writeSites v.register).Nodup :=
          (r.pairwise_writeSites v.register).imp Nat.ne_of_lt
        exact congrArg some ((Nodup.getElem_inj_iff hnodup).1 (hni.trans hmi.symm))

end Routine

/-- Names identify definitions.  Every variable refers to one definition, and two variables have
the same name exactly if they are of one register and refer to the same definition. -/
theorem TypeTable.variableName_identifies_definition (t : TypeTable) (r : Routine) :
    (∀ v, ∃! d, r.RefersTo v d) ∧
      ∀ u v, (t.env r).variableName u = (t.env r).variableName v ↔
        u.register = v.register ∧ ∃ d, r.RefersTo u d ∧ r.RefersTo v d := by
  constructor
  · intro v
    cases hv : r.definition? v with
    | none => exact ⟨_, Routine.refersTo_input hv, fun d hd => hd.unique (Routine.refersTo_input hv)⟩
    | some n =>
      obtain ⟨i, -, hsite⟩ := Routine.refersTo_site hv
      exact ⟨_, hsite, fun d hd => hd.unique hsite⟩
  · intro u v
    change r.variableName u = r.variableName v ↔ _
    rw [Routine.variableName_eq_iff]
    exact and_congr_right fun hreg => Routine.definition?_eq_iff hreg

end Decompiler
