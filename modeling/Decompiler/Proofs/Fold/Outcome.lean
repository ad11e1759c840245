import Decompiler.Structure.Blocks

/-!
What holds when a step ends.  A step that cannot fail ends in one way; a step that can
fail is only looked at when it succeeds.  One rule for each way in which steps are put
together takes such statements apart.
-/

namespace Decompiler

/-- A property of the result and the final state of a step. -/
def FoldM.Ends {α : Type} (m : FoldM α) (s : FoldState) (Q : α → FoldState → Prop) : Prop :=
  Q (m s).1 (m s).2

/-- A property of the result and the final state of a step, if it succeeds. -/
def TryFoldM.Ends {α : Type} (m : TryFoldM α) (s : FoldState) (Q : α → FoldState → Prop) : Prop :=
  FoldM.Ends m.run s fun result s' => ∀ a, result = .ok a → Q a s'

namespace FoldM

variable {α β : Type} {s : FoldState} {Q Q' : α → FoldState → Prop} {f : FormId} {cx : Context}
  {site : Nat} {m : FoldM α} {kind : EventKind}

theorem Ends.mono (h : m.Ends s Q) (himp : ∀ a s', Q a s' → Q' a s') :
    m.Ends s Q' := himp _ _ h

theorem Ends.and (h : m.Ends s Q) (h' : m.Ends s Q') :
    m.Ends s fun a s' => Q a s' ∧ Q' a s' := ⟨h, h'⟩

@[simp] theorem ends_bind {m : FoldM β} {k : β → FoldM α} :
    (m >>= k).Ends s Q ↔ m.Ends s fun b s' => (k b).Ends s' Q := Iff.rfl

theorem Ends.bind {m : FoldM β} {k : β → FoldM α} {P : β → FoldState → Prop} (h : m.Ends s P)
    (hk : ∀ b s', P b s' → (k b).Ends s' Q) : (m >>= k).Ends s Q := hk _ _ h

@[simp] theorem ends_pure {a : α} : (pure a : FoldM α).Ends s Q ↔ Q a s := Iff.rfl

@[simp] theorem ends_get {Q : FoldState → FoldState → Prop} :
    (get : FoldM FoldState).Ends s Q ↔ Q s s := Iff.rfl

@[simp] theorem ends_onPool {f : Pool → α × Pool} :
    (onPool f).Ends s Q ↔ Q (f s.pool).1 { s with pool := (f s.pool).2 } := Iff.rfl

@[simp] theorem ends_changePool {f : Pool → Pool} {Q : Unit → FoldState → Prop} :
    (changePool f).Ends s Q ↔ Q () { s with pool := f s.pool } := Iff.rfl

@[simp] theorem ends_onStack {f : Stack → Stack} {Q : Unit → FoldState → Prop} :
    (onStack f).Ends s Q ↔ Q () { s with stack := f s.stack } := Iff.rfl

theorem ends_take {pop : Pool → Stack → Option (α × Stack)} {Q : Option α → FoldState → Prop} :
    (take pop).Ends s Q ↔ (pop s.pool s.stack = none → Q none s) ∧
      ∀ a stack, pop s.pool s.stack = some (a, stack) → Q (some a) { s with stack } := by
  rw [Ends, take]
  rcases pop s.pool s.stack with _ | ⟨a, stack⟩ <;> simp

@[simp] theorem ends_note {message : String} {Q : Unit → FoldState → Prop} :
    (cx.note kind site message).Ends s Q ↔
      Q () { s with
        log := (s.log.after s.others).record kind (some cx.routine.name) (some site)
          (some message) } :=
  Iff.rfl

@[simp] theorem ends_describe {Q : String → FoldState → Prop} :
    (cx.describe f).Ends s Q ↔ Q (cx.vocabulary.formText s.pool f) s := Iff.rfl

@[simp] theorem ends_noteForm {Q : Unit → FoldState → Prop} :
    (cx.noteForm kind site f).Ends s Q ↔
      (cx.note kind site (cx.vocabulary.formText s.pool f)).Ends s Q := by
  rw [Context.noteForm, ends_bind, ends_describe]

@[simp] theorem ends_consumedNow {Q : RegisterSet → FoldState → Prop} :
    (cx.consumedNow site).Ends s Q ↔ Q (cx.consumed s.verbatim site) s := Iff.rfl

@[simp] theorem ends_formType {Q : Option TypeName → FoldState → Prop} :
    (cx.formType f).Ends s Q ↔ Q (cx.env.formType s.pool f) s := Iff.rfl

@[simp] theorem ends_single? {Q : Option (ElementId × Element) → FoldState → Prop} :
    (single? f).Ends s Q ↔ Q ((s.pool.single? f).map fun e => (e, s.pool.element e)) s := Iff.rfl

end FoldM

namespace TryFoldM

variable {α β : Type} {s s' : FoldState} {Q Q' : α → FoldState → Prop} {m : TryFoldM α} {a : α}
  {k : β → TryFoldM α} {e : Error}

theorem Ends.mono (h : m.Ends s Q) (himp : ∀ a s', Q a s' → Q' a s') :
    m.Ends s Q' := fun a ha => himp a _ (h a ha)

theorem Ends.of_run (h : m.Ends s Q) (hrun : m.run s = (.ok a, s')) : Q a s' := by
  have hresult := h a
  rw [hrun] at hresult
  exact hresult rfl

theorem ends_of_run (hrun : m.run s = (.ok a, s')) (h : Q a s') : m.Ends s Q := by
  rintro b hb
  rw [hrun] at hb ⊢
  cases hb
  exact h

@[simp] theorem ends_bind {m : TryFoldM β} :
    (m >>= k).Ends s Q ↔ m.Ends s fun b s' => (k b).Ends s' Q := by
  rw [Ends, ExceptT.run_bind, FoldM.ends_bind]
  rcases hm : m.run s with ⟨e | b, s'⟩
  · simp only [Ends, FoldM.Ends, hm, reduceCtorEq, false_implies, implies_true, iff_true]
    rintro a ⟨⟩
  · simp [Ends, FoldM.Ends, hm]

theorem Ends.bind {m : TryFoldM β} {P : β → FoldState → Prop} (h : m.Ends s P)
    (hk : ∀ b s', P b s' → (k b).Ends s' Q) : (m >>= k).Ends s Q := ends_bind.2 (h.mono hk)

@[simp] theorem ends_pure : (pure a : TryFoldM α).Ends s Q ↔ Q a s := by
  constructor
  · intro h
    exact h a rfl
  · rintro h _ ⟨⟩
    exact h

@[simp] theorem ends_throw : (throw e : TryFoldM α).Ends s Q := by
  rintro a ha
  cases ha

@[simp] theorem ends_lift {m : FoldM α} : (liftM m : TryFoldM α).Ends s Q ↔ m.Ends s Q := by
  constructor
  · intro h
    exact h _ rfl
  · rintro h _ ⟨⟩
    exact h

@[simp] theorem ends_get {Q : FoldState → FoldState → Prop} :
    (get : TryFoldM FoldState).Ends s Q ↔ Q s s := ends_lift (m := get)

@[simp] theorem ends_ofExcept {result : Except Error α} :
    (ofExcept result).Ends s Q ↔ ∀ a, result = .ok a → Q a s := Iff.rfl

@[simp] theorem ends_onFreshStack :
    (onFreshStack m).Ends s Q ↔
      m.Ends { s with stack := .empty } fun a s' => Q a { s' with stack := s.stack } := Iff.rfl

@[simp] theorem ends_inVerbatim :
    (inVerbatim m).Ends s Q ↔
      m.Ends { s with verbatim := true } fun a s' => Q a { s' with verbatim := s.verbatim } :=
  Iff.rfl

theorem ends_map {m : TryFoldM β} {f : β → α} :
    (f <$> m).Ends s Q ↔ m.Ends s fun b s' => Q (f b) s' := by
  rw [map_eq_pure_bind, ends_bind]
  simp only [ends_pure]

/-- What a step keeps for each element of a list, a run over the list keeps. -/
theorem ends_mapM {f : β → TryFoldM α} {I : List β → List α → FoldState → Prop} {xs : List β}
    (hstep : ∀ done out x s, done ++ [x] <+: xs → I done out s →
      (f x).Ends s fun a s' => I (done ++ [x]) (out ++ [a]) s')
    (hstart : I [] [] s) : (xs.mapM f).Ends s (I xs) := by
  suffices hrun : ∀ (rest done : List β) (out : List α) (s : FoldState), done ++ rest = xs →
      I done out s → (rest.mapM f).Ends s fun more s' => I xs (out ++ more) s' from
    hrun xs [] [] s rfl hstart
  intro rest
  induction rest with
  | nil =>
    intro done out s hdone hI
    rw [List.append_nil] at hdone
    subst hdone
    rw [List.mapM_nil, ends_pure, List.append_nil]
    exact hI
  | cons x rest ih =>
    intro done out s hdone hI
    have hnow : done ++ [x] ++ rest = xs := by rw [← hdone, List.append_assoc]; rfl
    rw [List.mapM_cons]
    refine (hstep done out x s ⟨rest, hnow⟩ hI).bind fun a s' hI' => ?_
    refine (ih (done ++ [x]) (out ++ [a]) s' hnow hI').bind fun more s'' hmore => ?_
    rw [ends_pure, List.append_cons]
    exact hmore

theorem run_bind_of_ok {m : TryFoldM β} {b : β} (h : m.run s = (.ok b, s')) :
    (m >>= k).run s = (k b).run s' := by
  have hbind : ∀ {γ δ : Type} (x : FoldM γ) (g : γ → FoldM δ), (x >>= g) s = g (x s).1 (x s).2 :=
    fun _ _ => rfl
  rw [ExceptT.run_bind, hbind, h]

theorem run_bind_of_error {m : TryFoldM β} (h : m.run s = (.error e, s')) :
    (m >>= k).run s = (.error e, s') := by
  have hbind : ∀ {γ δ : Type} (x : FoldM γ) (g : γ → FoldM δ), (x >>= g) s = g (x s).1 (x s).2 :=
    fun _ _ => rfl
  rw [ExceptT.run_bind, hbind, h]
  rfl

theorem run_bind_eq_ok {m : TryFoldM β} (h : (m >>= k).run s = (.ok a, s')) :
    ∃ b s₁, m.run s = (.ok b, s₁) ∧ (k b).run s₁ = (.ok a, s') := by
  have hends : (m >>= k).Ends s fun a' s'' => ∃ b s₁, m.run s = (.ok b, s₁) ∧
      (k b).run s₁ = (.ok a', s'') := by
    rw [ends_bind]
    intro b hb a' ha
    exact ⟨b, _, Prod.ext hb rfl, Prod.ext ha rfl⟩
  exact hends.of_run h

theorem run_ofExcept_ok :
    (ofExcept (.ok a)).run s = (.ok a, s) := rfl

theorem run_liftM {m : FoldM α} :
    (liftM m : TryFoldM α).run s = (.ok (m s).1, (m s).2) := rfl

end TryFoldM

variable {α β : Type}

theorem FoldM.liftM_mapM (f : β → FoldM α) (xs : List β) :
    (liftM (xs.mapM f) : TryFoldM (List α)) = xs.mapM fun x => (liftM (f x) : TryFoldM α) := by
  induction xs with
  | nil => rfl
  | cons x xs ih => simp only [List.mapM_cons, liftM_bind, liftM_pure, ih]

/-- What a step keeps for each element of a list, a run over the list keeps. -/
theorem FoldM.ends_mapM {f : β → FoldM α} {I : List β → List α → FoldState → Prop} {xs : List β}
    {s : FoldState} (hstep : ∀ done out x s, done ++ [x] <+: xs → I done out s →
      (f x).Ends s fun a s' => I (done ++ [x]) (out ++ [a]) s') (hstart : I [] [] s) :
    (xs.mapM f).Ends s (I xs) := by
  rw [← TryFoldM.ends_lift, FoldM.liftM_mapM]
  refine TryFoldM.ends_mapM ?_ hstart
  intro done out x s hx hI
  rw [TryFoldM.ends_lift]
  exact hstep done out x s hx hI

end Decompiler
