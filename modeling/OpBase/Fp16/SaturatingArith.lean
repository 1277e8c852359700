import OpBase.Fp16.ArithRounded
import OpBase.Fp16.Saturating

/-!
# Sum, difference and product in `op_common`

The three operations of `op_common/op_host/util/fp16.cpp`. Extraction, alignment and the
loops are line by line those of `composite_op/aclnn_engine`, so their definitions are taken
from there; what differs is the normalisation behind them.

> `arith_saturates`: sum, difference and product are the exact result rounded to nearest,
> ties to even, and at most 65504.
-/

namespace OpBase.Fp16.OpCommon

open OpBase.Lib
open FloatFormat (half)

/-- `NormalizeMantissa`: the loops and the rounding, then `Fp16Normalize`. -/
def normalizeMantissa (mRet eRet mTrunc shiftOut : Nat) : Nat × Nat :=
  let (eRet, mRet) := roundSum shiftOut mRet mTrunc eRet
  fp16Normalize eRet mRet

/-- `fp16Add`; `ExtractFP16Norm` is the other library's `ExtractFP16`. -/
def fp16Add (v1 v2 : Nat) : Nat :=
  let (sA, eA, mA) := extractFP16 v1
  let (sB, eB, mB) := extractFP16 v2
  let (sRet, mA, mB, shiftOut) := signedMans sA eA mA sB eB mB
  let (mRet, mTrunc) := alignMans eA mA eB mB
  let (eRet, mRet) := normalizeMantissa mRet (max eA eB) mTrunc shiftOut
  fp16Constructor sRet eRet mRet

/-- `fp16Sub` -/
def fp16Sub (v1 v2 : Nat) : Nat :=
  fp16Add v1 (((2 ^ 16 - 1 - v2) &&& FP16_SIGN_MASK) ||| (v2 &&& FP16_ABS_MAX))

/-- `fp16Mul` -/
def fp16Mul (v1 v2 : Nat) : Nat :=
  let (sA, eA, mA) := extractFP16 v1
  let (sB, eB, mB) := extractFP16 v2
  let (mulM, eRet) := mulUp ((mA * mB) % 2 ^ 32) ((eA : Int) + eB - FP16_EXP_BIAS - 10)
  let (mulM, mTrunc, eRet) := mulDown mulM 0 eRet
  let (mulM, eRet) := carryDown (roundTrunc mTrunc mulM 0) eRet
  let eRet := if eRet = 1 ∧ mulM < FP16_MAN_HIDE_BIT then 0 else eRet
  normalConstructor (sA ^^^ sB) (eRet.toNat, mulM % 2 ^ 16)

/-! ## What is normalised is what the other library normalises -/

theorem fp16Add_eq (v1 v2 : Nat) :
    fp16Add v1 v2 = normalConstructor (sumParts v1 v2).1 (sumParts v1 v2).2 := rfl

theorem fp16Mul_eq (v1 v2 : Nat) :
    fp16Mul v1 v2 = normalConstructor (productParts v1 v2).1 (productParts v1 v2).2 := rfl

/-- The pattern has the magnitude that `x` rounds to, or that of 65504. -/
def SaturatesTo (x : ℚ) (w : Nat) : Prop :=
  ∃ n, NearestEven (grid 10 half.unit) |x| n ∧ half.code w = min n (half.infinity - 1)

theorem min_wrapped (n : Nat) :
    min (wrapped n) (half.infinity - 1) = min n (half.infinity - 1) := by
  rw [half_infinity]
  unfold wrapped
  split
  · rfl
  · omega

theorem saturatesTo_of_parts {x : ℚ} {sem : Nat × Nat × Nat} (h : Parts x sem) :
    SaturatesTo x (normalConstructor sem.1 sem.2) ∧
      (x ≠ 0 → half.negative (normalConstructor sem.1 sem.2) = decide (x < 0)) := by
  obtain ⟨n, hn, hcode⟩ := h.code
  refine ⟨⟨n, hn, ?_⟩, fun hx => ?_⟩
  · rw [code_normalConstructor h.sign_lt, normalCode_eq, hcode, min_wrapped]
  · rw [negative_normalConstructor h.sign_lt]
    exact decide_eq_decide.mpr (h.sign hx)

/-! ## The three operations -/

def runArith : ArithOp → Nat → Nat → Nat
  | .add, v1, v2 => fp16Add v1 v2
  | .sub, v1, v2 => fp16Sub v1 v2
  | .mul, v1, v2 => fp16Mul v1 v2

/-- The result is the exact one, rounded and cut to the finite numbers; its sign is that of
the exact one, if that is not zero. -/
theorem arith_saturates (op : ArithOp) {v1 v2 : UInt16} (h1 : half.code v1.toNat < half.infinity)
    (h2 : half.code v2.toNat < half.infinity) :
    SaturatesTo (op.result v1 v2) (runArith op v1.toNat v2.toNat) ∧
      (op.result v1 v2 ≠ 0 → half.negative (runArith op v1.toNat v2.toNat) =
        decide (op.result v1 v2 < 0)) := by
  unfold runArith
  cases op with
  | add =>
    dsimp only
    rw [fp16Add_eq]
    exact saturatesTo_of_parts (sumParts_parts h1 h2)
  | sub =>
    dsimp only
    rw [fp16Sub, fp16Add_eq]
    exact saturatesTo_of_parts (differenceParts h1 h2 v2.toNat_lt)
  | mul =>
    dsimp only
    rw [fp16Mul_eq]
    exact saturatesTo_of_parts (productParts_parts h1 h2)

/-- The largest number and itself. -/
theorem arith_saturates_max : SaturatesTo (ArithOp.add.result 0x7BFF 0x7BFF)
        (runArith .add (0x7BFF : UInt16).toNat (0x7BFF : UInt16).toNat) ∧
      (ArithOp.add.result 0x7BFF 0x7BFF ≠ 0 → half.negative
            (runArith .add (0x7BFF : UInt16).toNat (0x7BFF : UInt16).toNat) =
          decide (ArithOp.add.result 0x7BFF 0x7BFF < 0)) :=
  arith_saturates .add max_finite max_finite

end OpBase.Fp16.OpCommon
