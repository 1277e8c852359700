import Mathlib

/-!
# The nodes of a computation

`op_common/atvoss/util/dag.h` and `elems.h`: a node is a function bound to its arguments, and
an argument is a placeholder or another node. Two nodes are the same when the function and all
arguments are, down to the placeholders.

A node is scalar when all tensors and nodes it reads are; it takes no buffer. Of the nodes it
reads, the scalar ones and the reductions hold no buffer for it either. What is left are its
`InNonScalarFuns`.

> `mem_inNonScalarFuns`: they are the nodes among the arguments, less those two kinds.
-/

namespace OpBase.Dag

open List

/-! ## Lists of types -/

section Elems

variable {α : Type} [DecidableEq α] {a : α} {es : List α}

/-- `UniqAux`: the first one of equal elements stays. -/
def uniqAux : List α → List α → List α
  | [], uniqT => uniqT
  | t :: ts, uniqT => uniqAux ts (if t ∈ uniqT then uniqT else uniqT ++ [t])

/-- `Elems::Unique` -/
def unique (es : List α) : List α := uniqAux es []

/-- `Elems::Union` -/
def union (es fs : List α) : List α := unique (es ++ fs)

/-- `Elems::Remove` -/
def remove (es fs : List α) : List α := es.filter (· ∉ fs)

/-- `Elems::PopFront`: nothing is taken off when another element is in front. -/
def popFront (es : List α) (toPop : α) : List α :=
  match es with
  | [] => []
  | t :: ts => if t = toPop then ts else t :: ts

theorem mem_uniqAux : ∀ {es acc : List α}, a ∈ uniqAux es acc ↔ a ∈ es ∨ a ∈ acc
  | [], acc => by simp [uniqAux]
  | t :: ts, acc => by
    rw [uniqAux, mem_uniqAux, mem_cons]
    split
    next ht =>
      constructor
      · rintro (h | h)
        · exact Or.inl (Or.inr h)
        · exact Or.inr h
      · rintro ((rfl | h) | h)
        · exact Or.inr ht
        · exact Or.inl h
        · exact Or.inr h
    next =>
      rw [mem_append, mem_singleton]
      tauto

theorem nodup_uniqAux : ∀ {es acc : List α}, acc.Nodup → (uniqAux es acc).Nodup
  | [], _, h => h
  | t :: ts, acc, h => by
    rw [uniqAux]
    refine nodup_uniqAux ?_
    split
    next => exact h
    next ht =>
      refine nodup_append.mpr ⟨h, nodup_singleton t, fun a ha b hb hab => ht ?_⟩
      rw [← mem_singleton.mp hb, ← hab]
      exact ha

@[simp] theorem mem_unique : a ∈ unique es ↔ a ∈ es := by
  unfold unique
  rw [mem_uniqAux]
  exact or_iff_left (not_mem_nil)

theorem nodup_unique (es : List α) : (unique es).Nodup := nodup_uniqAux nodup_nil

@[simp] theorem mem_union {fs : List α} : a ∈ union es fs ↔ a ∈ es ∨ a ∈ fs := by
  unfold union
  rw [mem_unique, mem_append]

theorem nodup_union (es fs : List α) : (union es fs).Nodup := nodup_unique _

@[simp] theorem mem_remove {fs : List α} : a ∈ remove es fs ↔ a ∈ es ∧ a ∉ fs := by
  unfold remove
  rw [mem_filter, decide_eq_true_iff]

theorem popFront_head (t : α) (ts : List α) : popFront (t :: ts) t = ts := if_pos rfl

theorem popFront_of_notMem {t : α} (h : t ∉ es) : popFront es t = es := by
  unfold popFront
  split
  next => rfl
  next u ts =>
    exact if_neg fun he => h (mem_cons.mpr (Or.inl he.symm))

end Elems

/-! ## Functions -/

/-- A C++ type: which one it is, and its `sizeof`. -/
structure CppType where
  name : Nat
  size : Nat
deriving DecidableEq, Repr

/-- The functions a node may be bound to. The kinds that the schedule tells apart are those of
`vec.h`; any other function is a computation, or a reduction by its `FuncType` of 1. -/
inductive VecFun where
  | copyIn (t : CppType)
  | copyInBrc (t : CppType) (group : Int)
  | brc (t : CppType) (group constRank : Int)
  | copyOut (t : CppType)
  | duplicate (t : CppType)
  | reduceOp (name : Nat) (t : CppType) (tempSize : Nat)
  | compute (name : Nat) (t : CppType) (tempSize : Nat)
deriving DecidableEq, Repr

namespace VecFun

def isCopyInBrcOp : VecFun → Bool
  | copyInBrc _ _ => true
  | _ => false

def isCopyInOp : VecFun → Bool
  | copyIn _ => true
  | copyInBrc _ _ => true
  | _ => false

def isVecBrcOp : VecFun → Bool
  | brc _ _ _ => true
  | _ => false

/-- A reduction passes for a copy out. -/
def isCopyOutOp : VecFun → Bool
  | copyOut _ => true
  | reduceOp _ _ _ => true
  | _ => false

def isReduceOp : VecFun → Bool
  | reduceOp _ _ _ => true
  | _ => false

def isDuplicateOp : VecFun → Bool
  | duplicate _ => true
  | _ => false

/-- `IsSameTemplateType<Fun, Vec::CopyOut>` -/
def isCopyOut : VecFun → Bool
  | copyOut _ => true
  | _ => false

def tempSize : VecFun → Nat
  | copyInBrc _ _ => 1
  | reduceOp _ _ n => n
  | compute _ _ n => n
  | _ => 0

/-- `FunRetArgType<0>` -/
def outDataType : VecFun → CppType
  | copyIn t | copyInBrc t _ | brc t _ _ | copyOut t | duplicate t | reduceOp _ t _
  | compute _ t _ => t

end VecFun

/-! ## Nodes -/

inductive HolderScope where
  | gm
  | vector
deriving DecidableEq, Repr

/-- The arguments that are not nodes. -/
inductive Holder where
  | inHolder (pos : Nat) (t : CppType) (scope : HolderScope) (isScalar : Int)
  | outHolder (pos : Nat) (t : CppType)
  | var (name : Nat)
  | constValue (name : Nat)
deriving DecidableEq, Repr

namespace Holder

def isInHolder : Holder → Bool
  | inHolder _ _ _ _ => true
  | _ => false

def isInScalar : Holder → Bool
  | inHolder _ _ _ isScalar => isScalar = 1
  | _ => false

end Holder

mutual

inductive Bind where
  | mk (fn : VecFun) (args : Args)

inductive Args where
  | nil
  | holder (h : Holder) (rest : Args)
  | bind (b : Bind) (rest : Args)

end

deriving instance DecidableEq for Bind, Args

namespace Args

def holders : Args → List Holder
  | nil => []
  | holder h rest => h :: rest.holders
  | bind _ rest => rest.holders

def binds : Args → List Bind
  | nil => []
  | holder _ rest => rest.binds
  | bind b rest => b :: rest.binds

end Args

mutual

/-- `IsScalarOp`: the scalar placeholders are as many as the placeholders of inputs, and
the scalar nodes as many as the nodes. -/
def Bind.isScalarOp : Bind → Bool
  | .mk fn args => args.allScalar && !fn.isDuplicateOp

def Args.allScalar : Args → Bool
  | .nil => true
  | .holder h rest => (!h.isInHolder || h.isInScalar) && rest.allScalar
  | .bind b rest => b.isScalarOp && rest.allScalar

end

namespace Bind

def fn : Bind → VecFun
  | mk fn _ => fn

def args : Bind → Args
  | mk _ args => args

/-- `InHolders` -/
def inHolders (b : Bind) : List Holder := b.args.holders.filter (·.isInHolder)

/-- `InFuns` -/
def inFuns (b : Bind) : List Bind := b.args.binds

/-- `InScalarHolders` -/
def inScalarHolders (b : Bind) : List Holder := b.inHolders.filter (·.isInScalar)

/-- `InScalarFuns` -/
def inScalarFuns (b : Bind) : List Bind := b.inFuns.filter (·.isScalarOp)

/-- `InReduceOpFuns` -/
def inReduceOpFuns (b : Bind) : List Bind := b.inFuns.filter (·.fn.isReduceOp)

/-- `InNonScalarFuns` -/
def inNonScalarFuns (b : Bind) : List Bind :=
  remove (remove b.inFuns b.inScalarFuns) b.inReduceOpFuns

theorem mem_inNonScalarFuns {b f : Bind} : f ∈ b.inNonScalarFuns ↔
    f ∈ b.inFuns ∧ f.isScalarOp = false ∧ f.fn.isReduceOp = false := by
  unfold inNonScalarFuns inScalarFuns inReduceOpFuns
  rw [mem_remove, mem_remove, mem_filter, mem_filter]
  constructor
  · intro ⟨⟨hin, hscalar⟩, hreduce⟩
    exact ⟨hin, by simpa using fun h => hscalar ⟨hin, h⟩,
      by simpa using fun h => hreduce ⟨hin, h⟩⟩
  · intro ⟨hin, hscalar, hreduce⟩
    refine ⟨⟨hin, fun h => ?_⟩, fun h => ?_⟩
    · rw [hscalar] at h
      exact Bool.false_ne_true h.2
    · rw [hreduce] at h
      exact Bool.false_ne_true h.2

end Bind

theorem Args.allScalar_iff_forall : ∀ args : Args, args.allScalar = true ↔
    (∀ h ∈ args.holders, h.isInHolder = true → h.isInScalar = true) ∧
    ∀ b ∈ args.binds, b.isScalarOp = true
  | .nil => by simp [Args.allScalar, Args.holders, Args.binds]
  | .holder h rest => by
    rw [Args.allScalar, Bool.and_eq_true, allScalar_iff_forall rest]
    simp only [Args.holders, Args.binds, forall_mem_cons]
    cases h.isInHolder <;> simp [and_assoc]
  | .bind b rest => by
    rw [Args.allScalar, Bool.and_eq_true, allScalar_iff_forall rest]
    simp only [Args.holders, Args.binds, forall_mem_cons]
    tauto

/-- The recursion counts what `IsScalarOp` compares. -/
theorem Args.allScalar_iff : ∀ {args : Args}, args.allScalar = true ↔
    ((args.holders.filter (·.isInHolder)).filter (·.isInScalar)).length =
      (args.holders.filter (·.isInHolder)).length ∧
    (args.binds.filter (·.isScalarOp)).length = args.binds.length := by
  intro args
  rw [length_filter_eq_length_iff, length_filter_eq_length_iff, allScalar_iff_forall]
  refine and_congr_left' ⟨fun h a ha => ?_, fun h a ha hin => ?_⟩
  · obtain ⟨ha, hin⟩ := mem_filter.mp ha
    exact h a ha hin
  · exact h a (mem_filter.mpr ⟨ha, hin⟩)

namespace Bind

theorem isScalarOp_iff {b : Bind} : b.isScalarOp = true ↔
    b.inScalarHolders.length = b.inHolders.length ∧
    b.inScalarFuns.length = b.inFuns.length ∧ b.fn.isDuplicateOp = false := by
  obtain ⟨fn, args⟩ := b
  rw [Bind.isScalarOp, Bool.and_eq_true, Args.allScalar_iff, Bool.not_eq_true', and_assoc]
  rfl

end Bind

/-! ## What the later nodes read -/

/-- `CheckIsInput` -/
def checkIsInput (es : List Bind) (t : Bind) : Bool := es.any fun func => t ∈ func.inFuns

/-- `InputIsAbleToFreeAux`, on the nodes from `posInFuns` on -/
def inputIsAbleToFreeAux (funs : List Bind) (inArg : Bind) : Bool :=
  funs.all fun func => inArg ∉ func.inFuns

/-- `IsConnectOutput`, on the nodes from `posInFuns` on -/
def isConnectOutput (funs : List Bind) (inArg : Bind) : Bool :=
  funs.any fun func => func.fn.isCopyOutOp && (inArg ∈ func.inFuns)

theorem inputIsAbleToFreeAux_eq (funs : List Bind) (inArg : Bind) :
    inputIsAbleToFreeAux funs inArg = !checkIsInput funs inArg := by
  unfold inputIsAbleToFreeAux checkIsInput
  simp [not_any_eq_all_not]

theorem checkIsInput_iff {es : List Bind} {t : Bind} :
    checkIsInput es t = true ↔ ∃ func ∈ es, t ∈ func.inFuns := by
  unfold checkIsInput
  simp

end OpBase.Dag
