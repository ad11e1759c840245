import Decompiler.Proofs.Tree.Traversal
import Mathlib.Logic.Function.Basic

/-!
What integer code computes.  Instructions and statements change the registers; the value
of a form is computed from the values of the forms below it and of the registers that it
reads.
-/

namespace Decompiler

open List

abbrev Registers := Register → Word

/-- The words that constants other than integers stand for. -/
abbrev Constants := Atom → Word

def Atom.value (consts : Constants) (σ : Registers) : Atom → Word
  | .var v => σ v.register
  | .int w => w
  | a => consts a

namespace Word

/-- Shifts use the low six bits of the amount. -/
def shiftAmount (w : Word) : Nat := w.toNat % 64

def ofFlag (b : Bool) : Word := if b then 1 else 0

end Word

def Operator.compute : Operator → List Word → Option Word
  | .identity, [a] => some a
  | .add, [a, b] => some (a + b)
  | .sub, [a, b] => some (a - b)
  | .mulSigned, [a, b] | .mulUnsigned, [a, b] => some (a * b)
  | .neg, [a] => some (-a)
  | .and, [a, b] => some (a &&& b)
  | .or, [a, b] => some (a ||| b)
  | .xor, [a, b] => some (a ^^^ b)
  | .nor, [a, b] => some (~~~(a ||| b))
  | .not, [a] => some (~~~a)
  | .shiftLeft, [a, b] => some (a <<< Word.shiftAmount b)
  | .shiftRightArith, [a, b] => some (a.sshiftRight (Word.shiftAmount b))
  | .shiftRightLogic, [a, b] => some (a >>> Word.shiftAmount b)
  | .lessSigned, [a, b] => some (Word.ofFlag (a.slt b))
  | .lessUnsigned, [a, b] => some (Word.ofFlag (a.ult b))
  | _, _ => none

def Builtin.compute : Builtin → List Word → Option Word
  | .add, [a, b] => some (a + b)
  | .sub, [a] => some (-a)
  | .sub, [a, b] => some (a - b)
  | .mul, [a, b] => some (a * b)
  | .logAnd, [a, b] => some (a &&& b)
  | .logIor, [a, b] => some (a ||| b)
  | .logXor, [a, b] => some (a ^^^ b)
  | .logNor, [a, b] => some (~~~(a ||| b))
  | .logNot, [a] => some (~~~a)
  | .shiftLeft, [a, b] => some (a <<< Word.shiftAmount b)
  | .shiftRightArith, [a, b] => some (a.sshiftRight (Word.shiftAmount b))
  | .shiftRightLogic, [a, b] => some (a >>> Word.shiftAmount b)
  | .setLess, [a, b] => some (Word.ofFlag (a.slt b))
  | .setLessUnsigned, [a, b] => some (Word.ofFlag (a.ult b))
  | _, _ => none

/-- The result of a conversion.  A number is cut to the width of the type; a reading of the
same bits changes nothing. -/
def TypeName.convert (type : TypeName) (numeric : Bool) (w : Word) : Option Word :=
  if numeric then
    match type with
    | .named "int32" => some ((w.setWidth 32).signExtend 64)
    | .named "int16" => some ((w.setWidth 16).signExtend 64)
    | .named "int8" => some ((w.setWidth 8).signExtend 64)
    | .named "uint32" => some ((w.setWidth 32).setWidth 64)
    | .named "uint16" => some ((w.setWidth 16).setWidth 64)
    | .named "uint8" => some ((w.setWidth 8).setWidth 64)
    | _ => none
  else some w

def Element.compute (consts : Constants) (σ : Registers) : Element → List Word → Option Word
  | .atom a, [] => some (a.value consts σ)
  | .apply (.builtin b) _, ws => b.compute ws
  | .cast type _ numeric, [w] => type.convert numeric w
  | _, _ => none

namespace Pool

def valueWithin (p : Pool) (consts : Constants) (σ : Registers) : Nat → FormId → Option Word
  | 0, _ => none
  | depth + 1, f => do
    let e ← p.single? f
    let words ← (p.element e).children.mapM (p.valueWithin consts σ depth)
    (p.element e).compute consts σ words

def value (p : Pool) (consts : Constants) (σ : Registers) (f : FormId) : Option Word :=
  p.valueWithin consts σ p.elements.size f

def step (p : Pool) (consts : Constants) (σ : Registers) (e : ElementId) : Option Registers :=
  match p.element e with
  | .set dst source _ _ => (p.value consts σ source).map (Function.update σ dst.register)
  | _ => none

def execute (p : Pool) (consts : Constants) (σ : Registers) (es : List ElementId) :
    Option Registers := es.foldlM (p.step consts) σ

end Pool

def Expression.value (consts : Constants) (σ : Registers) (e : Expression) : Option Word :=
  e.operator.compute (e.args.map (Atom.value consts σ))

def Operation.step (consts : Constants) (σ : Registers) : Operation → Option Registers
  | .set dst source => (source.value consts σ).map (Function.update σ dst.register)
  | _ => none

def Routine.execute (r : Routine) (consts : Constants) (σ : Registers) : Option Registers :=
  r.code.toList.foldlM (fun σ instr => instr.op.step consts σ) σ

theorem mapM_congr {α β : Type} {f g : α → Option β} {as : List α} (h : ∀ a ∈ as, f a = g a) :
    as.mapM f = as.mapM g := by
  induction as with
  | nil => rfl
  | cons a as ih =>
    rw [mapM_cons, mapM_cons, h a mem_cons_self, ih fun b hb => h b (mem_cons_of_mem _ hb)]

theorem mapM_eq_some {α β : Type} {f : α → Option β} {as : List α} {bs : List β}
    (h : List.Forall₂ (fun a b => f a = some b) as bs) : as.mapM f = some bs := by
  induction h with
  | nil => rfl
  | cons hfirst hrest ih =>
    rw [mapM_cons, hfirst, ih]
    rfl

theorem Element.compute_congr {consts : Constants} {σ σ' : Registers} {element : Element}
    (h : ∀ v ∈ element.localReads, σ v.register = σ' v.register) (ws : List Word) :
    element.compute consts σ ws = element.compute consts σ' ws := by
  cases element with
  | atom a =>
    cases a with
    | var v =>
      have hv : σ v.register = σ' v.register := h v mem_cons_self
      cases ws with
      | nil => simp only [compute, Atom.value, hv]
      | cons w ws => rfl
    | _ => cases ws <;> rfl
  | apply head args => cases head <;> rfl
  | cast type source numeric =>
    match ws with
    | [] | [w] | _ :: _ :: _ => rfl
  | _ => rfl

namespace FormTree

def value (consts : Constants) (σ : Registers) : FormTree → Option Word :=
  fold fun _ nodes =>
    match nodes with
    | [n] => n.kids.mapM (fun word => word) >>= n.element.compute consts σ
    | _ => none

def reads : FormTree → List Register :=
  fold fun _ nodes =>
    nodes.flatMap fun n => n.element.localReads.map Variable.register ++ n.kids.flatten

variable {consts : Constants} {σ : Registers}

theorem value_single (f : FormId) (n : Node FormTree) :
    (mk f [n]).value consts σ = n.kids.mapM (value consts σ) >>= n.element.compute consts σ := by
  rw [value, fold_mk, map_singleton]
  dsimp only
  rw [mapM_map]
  rfl

theorem value_of_ne {f : FormId} {nodes : List (Node FormTree)} (h : ∀ n, nodes ≠ [n]) :
    (mk f nodes).value consts σ = none := by
  rw [value, fold_mk]
  match nodes, h with
  | [], _ => rfl
  | [n], h => exact absurd rfl (h n)
  | _ :: _ :: _, _ => rfl

theorem reads_mk (f : FormId) (nodes : List (Node FormTree)) :
    (mk f nodes).reads = nodes.flatMap fun n =>
      n.element.localReads.map Variable.register ++ n.kids.flatMap reads := by
  rw [reads, fold_mk, flatMap_map]
  rfl

end FormTree

namespace Pool

variable {p : Pool} {t : FormTree} {consts : Constants} {σ : Registers}

theorem Holds.valueWithin_eq (h : p.Holds t) {depth : Nat} (hdepth : t.elements.length ≤ depth) :
    p.valueWithin consts σ depth t.id = t.value consts σ := by
  induction depth generalizing t with
  | zero =>
    -- A form without elements has no value.
    cases t with
    | mk f nodes =>
      have hne : ∀ n, nodes ≠ [n] := by
        rintro n rfl
        simp [Node.elements] at hdepth
      rw [FormTree.value_of_ne hne]
      rfl
  | succ depth ih =>
    cases t with
    | mk f nodes =>
      rw [valueWithin, single?, h.elementsOf_eq, FormTree.nodes_mk]
      rcases nodes with _ | ⟨n, _ | _⟩
      · rw [FormTree.value_of_ne (by simp)]
        rfl
      · have hnode : p.HoldsNode n := h.node n mem_cons_self
        rw [FormTree.elements_mk, flatMap_singleton, Node.elements, length_cons] at hdepth
        have hkids : (p.element n.id).children.mapM (p.valueWithin consts σ depth) =
            n.kids.mapM (FormTree.value consts σ) := by
          rw [hnode.element_eq, hnode.kids, mapM_map]
          refine mapM_congr fun u hu => ih (hnode.below u hu) ?_
          have hkid := (FormTree.sublist_flatMap_of_mem (f := FormTree.elements) hu).length_le
          omega
        change ((p.element n.id).children.mapM (p.valueWithin consts σ depth) >>=
          (p.element n.id).compute consts σ) = _
        rw [hkids, hnode.element_eq, FormTree.value_single]
      · rw [FormTree.value_of_ne (by simp)]
        rfl

/-- The value of a form is that of its tree. -/
theorem Holds.value_eq (h : p.Holds t) (hnodup : t.elements.Nodup) :
    p.value consts σ t.id = t.value consts σ :=
  h.valueWithin_eq (Pool.length_le_size hnodup h.elements_lt)

theorem Holds.reads_eq (h : p.Holds t) :
    t.reads = t.elements.flatMap fun e => (p.element e).localReads.map Variable.register := by
  induction t using FormTree.induct with
  | h f nodes ih =>
    rw [FormTree.reads_mk, FormTree.elements_mk, flatMap_assoc]
    refine flatMap_congr fun n hn => ?_
    have hnode : p.HoldsNode n := h.node n hn
    rw [Node.elements, flatMap_cons, hnode.element_eq, flatMap_assoc]
    congr 1
    exact flatMap_congr fun u hu => ih n hn u hu (hnode.below u hu)

end Pool

/-- The registers that a form reads are those of its tree. -/
theorem Pool.Holds.mem_formReadRegisters {p : Pool} {t : FormTree} (h : p.Holds t)
    (hnodup : t.elements.Nodup) {r : Register} : r ∈ p.formReadRegisters t.id ↔ r ∈ t.reads := by
  rw [formReadRegisters, readRegistersOf, RegisterSet.mem_ofList, h.elementsIn_eq hnodup, h.reads_eq]

end Decompiler
