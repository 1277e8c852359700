import OpBase.Lib.LaneFold
import OpBase.Reduce.Bisection

/-!
# The folding trees of the product

`ReduceProdOp` of `reduce_operator.h`. The elements of a row behind the largest power of two are
multiplied onto its front; what is left is folded by 16 or 8 registers at a time, then by the
2, 4 or 8 that remain, and for a pattern AR by blocks and, in the end, one by one.

Elements are those of any commutative monoid: an equation there says that each factor is used
once. A vector operation acts on the lanes below its mask; `UpdateMask` counts the lanes of a
register off its argument. The variables of 16 bits wrap; the addresses, of 32 bits, do not.

> `reduce_folds_once`: without the short path, each element of a row is used exactly once.
-/

namespace OpBase.Reduce.ReduceProdOp

open OpBase.Lib.LaneFold Finset

variable {M : Type} [CommMonoid M]

def VL_LEN : Nat := 256

def BLOCK_SIZE : Nat := 32

def BASE_FOLD : Nat := 4

def BASE_FOLD_I64 : Nat := 3

def MAX_OFFSET : Nat := 16

/-- The types of the elements, by their bits. -/
inductive PromteT
  | b16
  | b32
  | b64

namespace PromteT

/-- `sizeof(PromteT)` -/
def size : PromteT → Nat
  | b16 => 2
  | b32 => 4
  | b64 => 8

/-- Elements of 64 bits take two registers, in which they are as wide as `float`. -/
def laneSize : PromteT → Nat
  | b64 => 4
  | T => T.size

def vLElems (T : PromteT) : Nat := VL_LEN / T.laneSize

def blkElems (T : PromteT) : Nat := BLOCK_SIZE / T.laneSize

end PromteT

/-- `for (uint16_t i = 1; i < MAX_OFFSET; i++)`, which both loops over the bits are. -/
def shiftLoop {σ : Type} (value : Nat) (body : Nat → σ → σ) : Nat → Nat → σ → σ
  | 0, _, s => s
  | rounds + 1, i, s =>
    if value >>> i = 0 then s else shiftLoop value body rounds (i + 1) (body i s)

def mainR (dimR : Nat) (isAR : Bool) (blkElems : Nat) : Nat :=
  let mainR := shiftLoop dimR (fun i _ => 1 <<< i) (MAX_OFFSET - 1) 1 1
  if isAR ∧ dimR < blkElems then dimR else mainR

def calcFolds (base : Nat) : Nat := shiftLoop base (fun _ folds => folds + 1) (MAX_OFFSET - 1) 1 0

/-- `2 ^ j` registers, `offset` apart, are multiplied down to one. -/
def foldRegs (j offset : Nat) (mem : Nat → M) (addr mask : Nat) : Nat → M :=
  mulTree mask j fun k lane => mem (addr + offset * k + lane)

/-- `fold1`, `fold2` and `fold3`, each a loop of one round or none -/
def foldRest (fold : Nat → (Nat → M) → Nat → M) (fold1 fold2 fold3 : Bool) (mem : Nat → M) :
    Nat → M :=
  let mem := if fold1 then fold 1 mem else mem
  let mem := if fold2 then fold 2 mem else mem
  if fold3 then fold 3 mem else mem

/-! ## The pattern AR -/

/-- A block is multiplied by the ones behind it, one after the other. -/
def blkRegs (blkElems blkRepeats : Nat) (mem : Nat → M) (addr mask : Nat) : Nat → M :=
  (List.range blkRepeats).foldl
    (fun vreg0 loopR =>
      mulLanes mask vreg0 fun lane => mem (addr + blkElems + blkElems * loopR + lane))
    fun lane => mem (addr + lane)

def reduceARFoldBase (T : PromteT) (dimR loopANum : Nat) (fold1 fold2 fold3 isBlkRepeat : Bool)
    (blkRepeats : Nat) (src : Nat → M) : Nat → M :=
  let src := foldRest
    (fun j => foldLoop loopANum 1 (fun loopA _ => loopA * dimR) (fun _ _ => T.vLElems)
      (foldRegs j T.vLElems)) fold1 fold2 fold3 src
  if isBlkRepeat then
    foldLoop loopANum 1 (fun loopA _ => loopA * dimR)
      (fun _ _ => updateMask T.vLElems T.blkElems 0) (blkRegs T.blkElems blkRepeats) src
  else src

/-- The body that `ReduceAR` and `ReduceARI64` share. The latter passes 0 for `fold3`; it folds
by 8, so that `tailFolds` is below 3. -/
def reduceARBy (baseFold : Nat) (T : PromteT) (dst src : Nat → M) (dimA dimR mainR : Nat) :
    Nat → M :=
  let vLElems := T.vLElems
  let tailR := (dimR - mainR) % 2 ^ 16
  let inplaceRepeats := (tailR + vLElems - 1) / vLElems % 2 ^ 16
  let base := mainR / vLElems % 2 ^ 16
  let folds := calcFolds base
  let mainTimes := folds / baseFold
  let tailFolds := folds % baseFold
  let rNum := if mainR < vLElems then mainR else vLElems
  let blkRepeats : Int := (rNum / T.blkElems : Nat) - 1
  let reservedR := if rNum < T.blkElems then rNum else T.blkElems
  let loopANum := dimA % 2 ^ 16
  let addr := fun loopA loopR => loopA * dimR + loopR * vLElems
  let src := if 0 < tailR then
      foldLoop loopANum inplaceRepeats addr (fun _ loopR => updateMask vLElems tailR loopR)
        (foldRegs 1 mainR) src
    else src
  let src := ((foldStep baseFold fun loopRNum =>
    foldLoop loopANum loopRNum addr (fun _ _ => vLElems)
      (foldRegs baseFold (loopRNum * vLElems % 2 ^ 16)))^[mainTimes] (base, src)).2
  let src := reduceARFoldBase T dimR loopANum (tailFolds = 1) (tailFolds = 2) (tailFolds = 3)
    (0 < blkRepeats) (blkRepeats % 2 ^ 16).toNat src
  (List.range loopANum).foldl
    (fun dst loopA => storeLanes dst (loopA * 1) (updateMask vLElems 1 0)
      ((List.range reservedR).foldl
        (fun vreg0 loopR => mulLanes (updateMask vLElems 1 0) vreg0 fun _ =>
          src (loopA * dimR + loopR)) fun _ => 1)) dst

/-- `ReduceAR`, past the test for the short path -/
def reduceAR (T : PromteT) (dst src : Nat → M) (dimA dimR mainR : Nat) : Nat → M :=
  reduceARBy BASE_FOLD T dst src dimA dimR mainR

/-- `ReduceARI64`, past the test for the short path -/
def reduceARI64 (dst src : Nat → M) (dimA dimR mainR : Nat) : Nat → M :=
  reduceARBy BASE_FOLD_I64 .b64 dst src dimA dimR mainR

/-! ## The pattern RA -/

def reduceRAFoldBase (dst src : Nat → M) (dimA vLElems loopANum : Nat)
    (fold0 fold1 fold2 fold3 : Bool) : Nat → M :=
  let fold := fun j dst => (List.range loopANum).foldl
    (fun dst loopA =>
      let mask := updateMask vLElems dimA loopA
      storeLanes dst (loopA * vLElems) mask (foldRegs j dimA src (loopA * vLElems) mask)) dst
  foldRest fold fold1 fold2 fold3 (if fold0 then fold 0 dst else dst)

/-- The body that `ReduceRA` and `ReduceRAI64` share; for 0 as `fold3`, see `reduceARBy`. -/
def reduceRABy (baseFold : Nat) (T : PromteT) (dst src : Nat → M) (dimA dimR mainR : Nat) :
    Nat → M :=
  let vLElems := T.vLElems
  let tailR := (dimR - mainR) % 2 ^ 16
  let folds := calcFolds mainR
  let mainTimes := folds / baseFold
  let tailFolds := folds % baseFold
  let loopANum := (dimA + vLElems - 1) / vLElems % 2 ^ 16
  let addr := fun loopA loopR => loopA * vLElems + loopR * dimA
  let mask := fun loopA (_ : Nat) => updateMask vLElems dimA loopA
  let src := if 0 < tailR then
      foldLoop loopANum tailR addr mask (foldRegs 1 (mainR * dimA)) src
    else src
  let src := ((foldStep baseFold fun loopRNum =>
    foldLoop loopANum loopRNum addr mask (foldRegs baseFold (loopRNum * dimA % 2 ^ 16)))^[mainTimes]
      (mainR % 2 ^ 16, src)).2
  reduceRAFoldBase dst src dimA vLElems loopANum (tailFolds = 0) (tailFolds = 1) (tailFolds = 2)
    (tailFolds = 3)

def reduceRA (T : PromteT) (dst src : Nat → M) (dimA dimR mainR : Nat) : Nat → M :=
  reduceRABy BASE_FOLD T dst src dimA dimR mainR

def reduceRAI64 (dst src : Nat → M) (dimA dimR mainR : Nat) : Nat → M :=
  reduceRABy BASE_FOLD_I64 .b64 dst src dimA dimR mainR

/-! ## Powers of two -/

theorem shiftLoop_mainR {dimR : Nat} : ∀ rounds i, 2 ^ i ≤ dimR →
    ∃ b, shiftLoop dimR (fun i _ => 1 <<< i) rounds (i + 1) (2 ^ i) = 2 ^ b ∧ 2 ^ b ≤ dimR ∧
      b ≤ i + rounds ∧ (dimR < 2 ^ (b + 1) ∨ b = i + rounds)
  | 0, i, hle => ⟨i, rfl, hle, Nat.le_refl i, .inr rfl⟩
  | rounds + 1, i, hle => by
    unfold shiftLoop
    rw [Nat.shiftRight_eq_div_pow]
    split
    next hzero =>
      exact ⟨i, rfl, hle, by omega, .inl ((Nat.div_eq_zero_iff_lt (Nat.two_pow_pos _)).mp hzero)⟩
    next hne =>
      obtain ⟨b, hb, hle', hbi, hlt⟩ := shiftLoop_mainR rounds (i + 1)
        (Nat.le_of_not_lt fun h => hne (Nat.div_eq_of_lt h))
      rw [Nat.shiftLeft_eq, Nat.one_mul]
      exact ⟨b, hb, hle', by omega, by omega⟩

theorem mainR_spec {dimR blkElems : Nat} {isAR : Bool} (hpos : 1 ≤ dimR) (hdim : dimR ≤ 65536)
    (hlong : ¬ (isAR ∧ dimR < blkElems)) :
    ∃ b ≤ 15, mainR dimR isAR blkElems = 2 ^ b ∧ 2 ^ b ≤ dimR ∧ dimR ≤ 2 ^ (b + 1) ∧
      ∀ q ≤ 15, 2 ^ q ≤ dimR → q ≤ b := by
  obtain ⟨b, hb, hle, hb15, hlt⟩ := shiftLoop_mainR 15 0 hpos
  rw [Nat.zero_add] at hb15 hlt
  refine ⟨b, hb15, ?_, hle, ?_, fun q hq hqle => ?_⟩
  · unfold mainR
    rw [if_neg hlong]
    exact hb
  · rcases hlt with hlt | rfl
    · exact hlt.le
    · exact hdim
  · rcases hlt with hlt | rfl
    · have := (Nat.pow_lt_pow_iff_right (by decide)).mp (Nat.lt_of_le_of_lt hqle hlt)
      omega
    · exact hq

theorem calcFolds_two_pow : ∀ b ≤ 15, calcFolds (2 ^ b) = b := by decide

/-! ## Masks and registers -/

theorem lt_updateMask {vLElems sreg i l : Nat} :
    l < updateMask vLElems sreg i ↔ l < vLElems ∧ i * vLElems + l < sreg := by
  unfold updateMask
  omega

theorem div_lt_repeats {width n r : Nat} (hwidth : 0 < width) (hr : r < n) :
    r / width < (n + width - 1) / width := by
  have h := Nat.div_le_div_right (c := width) (show r + width ≤ n + width - 1 by omega)
  rwa [Nat.add_div_right r hwidth] at h

theorem add_sub_one_mul {n : Nat} (hn : 0 < n) (m : Nat) : m + (n - 1) * m = n * m := by
  rw [Nat.add_comm, ← Nat.succ_mul, Nat.succ_eq_add_one, Nat.sub_add_cancel hn]

theorem foldRegs_eq (j offset : Nat) (mem : Nat → M) (addr mask l : Nat) (hl : l < mask) :
    foldRegs j offset mem addr mask l = ∏ k ∈ range (2 ^ j), mem (addr + offset * k + l) :=
  mulTree_eq hl j _

theorem blkRegs_eq (blkElems : Nat) (mem : Nat → M) (addr mask l : Nat) (hl : l < mask) :
    ∀ blkRepeats, blkRegs blkElems blkRepeats mem addr mask l =
      ∏ k ∈ range (blkRepeats + 1), mem (addr + blkElems * k + l)
  | 0 => (prod_range_one fun k => mem (addr + blkElems * k + l)).symm
  | blkRepeats + 1 => by
    have hprev := blkRegs_eq blkElems mem addr mask l hl blkRepeats
    unfold blkRegs at hprev ⊢
    rw [List.range_succ, List.foldl_append, List.foldl_cons, List.foldl_nil, mulLanes, if_pos hl,
      hprev, prod_range_succ _ (blkRepeats + 1), Nat.mul_succ, Nat.add_assoc addr blkElems,
      Nat.add_comm blkElems]

theorem reduceTo1_eq {mask : Nat} (hmask : 0 < mask) (f : Nat → M) : ∀ n,
    (List.range n).foldl (fun vreg0 r => mulLanes mask vreg0 fun _ => f r) (fun _ => 1) 0 =
      ∏ r ∈ range n, f r
  | 0 => rfl
  | n + 1 => by
    rw [List.range_succ, List.foldl_append, List.foldl_cons, List.foldl_nil, mulLanes, if_pos hmask,
      reduceTo1_eq hmask f n, prod_range_succ]

omit [CommMonoid M] in
theorem foldRest_eq {rest : Nat} (hrest : rest < 4) (fold : Nat → (Nat → M) → Nat → M)
    (mem : Nat → M) : foldRest fold (rest = 1) (rest = 2) (rest = 3) mem =
      if rest = 0 then mem else fold rest mem := by
  obtain rfl | rfl | rfl | rfl : rest = 0 ∨ rest = 1 ∨ rest = 2 ∨ rest = 3 := by omega
  all_goals rfl

theorem PromteT.exists_blk (T : PromteT) :
    ∃ q, 3 ≤ q ∧ q ≤ 4 ∧ T.blkElems = 2 ^ q ∧ T.vLElems = 2 ^ (q + 3) := by
  cases T with
  | b16 => exact ⟨4, by decide⟩
  | b32 | b64 => exact ⟨3, by decide⟩

/-! ## Rows of the pattern AR -/

section AR

variable {dimA dimR : Nat}

/-- The rounds go over each row in pieces of `width`. -/
theorem ar_rounds (dimA dimR : Nat) {inner width n N T : Nat} {addr mask : Nat → Nat → Nat}
    (haddr : ∀ o, ∀ c < inner, addr o c = o * dimR + c * width)
    (hmask : ∀ o, ∀ c < inner, ∀ l, l < mask o c ↔ l < width ∧ c * width + l < T)
    (hinner : ∀ r < T, r / width < inner) (hwidth : 0 < width) (hle : T ≤ N) (hn : 0 < n)
    (hfits : T + (n - 1) * N ≤ dimR) :
    Rounds (fun a r => a * dimR + r) dimA dimR dimA inner addr mask n N N T
      fun a r => (a, r / width, r % width) where
  inj a _ r hr a' _ r' hr' h := by
    have hdiv : ∀ a, ∀ r < dimR, (a * dimR + r) / dimR = a := fun a r hr => by
      rw [Nat.add_comm, Nat.add_mul_div_right _ _ (Nat.zero_lt_of_lt hr), Nat.div_eq_of_lt hr,
        Nat.zero_add]
    have ha : a = a' := by rw [← hdiv a r hr, ← hdiv a' r' hr', h]
    subst ha
    exact ⟨rfl, Nat.add_left_cancel h⟩
  le := hle
  regs := hn
  fits := hfits
  lane a ha r hr := by
    have hc := hinner r hr
    have hsum := Nat.div_add_mod' r width
    have hlt : r / width * width + r % width < T := by rwa [hsum]
    refine ⟨ha, hc, (hmask a _ hc _).mpr ⟨Nat.mod_lt _ hwidth, hlt⟩, fun k => ?_⟩
    dsimp only
    rw [haddr a _ hc, Nat.mul_comm N]
    omega
  onto o ho c hc l hl := by
    obtain ⟨hl, hlt⟩ := (hmask o c hc l).mp hl
    refine ⟨o, ho, c * width + l, hlt, ?_⟩
    rw [Nat.add_comm, Nat.add_mul_div_right _ _ hwidth, Nat.div_eq_of_lt hl, Nat.zero_add,
      Nat.add_mul_mod_self_right, Nat.mod_eq_of_lt hl]

variable {T : PromteT} (mem : Nat → M) {a : Nat}

theorem ar_tail {b : Nat} (hle : 2 ^ b ≤ dimR) (hhalf : dimR ≤ 2 ^ (b + 1)) (ha : a < dimA) :
    ∏ r ∈ range (2 ^ b), foldLoop dimA ((dimR - 2 ^ b + T.vLElems - 1) / T.vLElems)
        (fun loopA loopR => loopA * dimR + loopR * T.vLElems)
        (fun _ loopR => updateMask T.vLElems (dimR - 2 ^ b) loopR) (foldRegs 1 (2 ^ b)) mem
        (a * dimR + r) =
      ∏ r ∈ range dimR, mem (a * dimR + r) := by
  have hv : 0 < T.vLElems := by cases T <;> decide
  have hrounds := ar_rounds dimA dimR (fun _ _ _ => rfl)
    (fun _ _ _ _ => lt_updateMask) (fun _ => div_lt_repeats hv) hv
    (show dimR - 2 ^ b ≤ 2 ^ b by omega) (show 0 < 2 by decide) (by omega)
  rw [foldLoop_tail hrounds (foldRegs_eq 1 (2 ^ b)) mem ha, Nat.add_sub_cancel' hle]

theorem ar_fold {inner width n : Nat} {addr mask : Nat → Nat → Nat}
    {value : (Nat → M) → Nat → Nat → Nat → M}
    (haddr : ∀ o, ∀ c < inner, addr o c = o * dimR + c * width)
    (hmask : ∀ o, ∀ c < inner, mask o c = width) (hwidth : 0 < width) (hn : 0 < n)
    (hfits : n * (inner * width) ≤ dimR)
    (hvalue : ∀ mem addr mask, ∀ l < mask,
      value mem addr mask l = ∏ k ∈ range n, mem (addr + inner * width * k + l)) (ha : a < dimA) :
    ∏ r ∈ range (inner * width), foldLoop dimA inner addr mask value mem (a * dimR + r) =
      ∏ r ∈ range (n * (inner * width)), mem (a * dimR + r) := by
  have hlanes : ∀ o, ∀ c < inner, ∀ l,
      l < mask o c ↔ l < width ∧ c * width + l < inner * width := fun o c hc l => by
    have := Nat.mul_le_mul_right width (Nat.succ_le_of_lt hc)
    rw [Nat.succ_mul] at this
    rw [hmask o c hc]
    omega
  have hrounds := ar_rounds dimA dimR haddr hlanes
    (fun r hr => Nat.div_lt_of_lt_mul (by rwa [Nat.mul_comm])) hwidth
    (Nat.le_refl (inner * width)) hn ((add_sub_one_mul hn _).trans_le hfits)
  exact foldLoop_prod hrounds hvalue mem ha

/-- The last fold of a row leaves a block with the product of its first `2 ^ rest * 2 ^ c`
elements. -/
theorem ar_foldBase {rest c q : Nat} (hrest : rest < 4) (hblk : T.blkElems = 2 ^ q) (hq : q ≤ c)
    (hc : c < 16) (hfits : 2 ^ rest * 2 ^ c ≤ dimR) (hfull : rest ≠ 0 → 2 ^ c = T.vLElems)
    (ha : a < dimA) :
    ∏ r ∈ range T.blkElems, reduceARFoldBase T dimR dimA (rest = 1) (rest = 2) (rest = 3)
        (0 < ((2 ^ c / T.blkElems : Nat) - 1 : Int))
        (((2 ^ c / T.blkElems : Nat) - 1 : Int) % 2 ^ 16).toNat mem (a * dimR + r) =
      ∏ r ∈ range (2 ^ rest * 2 ^ c), mem (a * dimR + r) := by
  have hv : 0 < T.vLElems := by cases T <;> decide
  have haddr : ∀ width o, ∀ c < 1, (fun loopA (_ : Nat) => loopA * dimR) o c =
      o * dimR + c * width := fun width o c hc => by rw [Nat.lt_one_iff.mp hc, Nat.zero_mul]; rfl
  -- the folds of the rest leave `2 ^ c` elements in front of every row
  have hfolded : ∀ mem' : Nat → M, mem' = foldRest (fun j => foldLoop dimA 1
      (fun loopA _ => loopA * dimR) (fun _ _ => T.vLElems) (foldRegs j T.vLElems))
        (rest = 1) (rest = 2) (rest = 3) mem →
      ∏ r ∈ range (2 ^ c), mem' (a * dimR + r) =
        ∏ r ∈ range (2 ^ rest * 2 ^ c), mem (a * dimR + r) := fun mem' h => by
    rw [h, foldRest_eq hrest]
    split
    next hzero => rw [hzero, Nat.pow_zero, Nat.one_mul]
    next hne =>
      have hw : 1 * T.vLElems = 2 ^ c := by rw [Nat.one_mul, hfull hne]
      have h : ∏ r ∈ range (1 * T.vLElems), foldLoop dimA 1 (fun loopA _ => loopA * dimR)
          (fun _ _ => T.vLElems) (foldRegs rest T.vLElems) mem (a * dimR + r) = _ :=
        ar_fold mem (haddr T.vLElems) (fun _ _ _ => rfl) hv (Nat.two_pow_pos rest)
          (by rw [hw]; exact hfits) (by rw [Nat.one_mul]; exact foldRegs_eq rest T.vLElems) ha
      rw [hw] at h
      exact h
  unfold reduceARFoldBase
  generalize hmem : foldRest _ _ _ _ mem = mem'
  rw [← hfolded mem' hmem.symm]
  obtain ⟨d, rfl⟩ := Nat.exists_eq_add_of_le hq
  have hn : 2 ^ (q + d) / T.blkElems = 2 ^ d := by
    rw [hblk, Nat.pow_add, Nat.mul_div_cancel_left _ (Nat.two_pow_pos q)]
  have hd : 2 ^ d ≤ 2 ^ 15 := Nat.pow_le_pow_right (by decide) (by omega)
  have hpos := Nat.two_pow_pos d
  rw [hn, hblk]
  split
  next hrepeat =>
    -- one block folds with each repeat
    have hreps : (((2 ^ d : Nat) - 1 : Int) % 2 ^ 16).toNat + 1 = 2 ^ d := by omega
    generalize (((2 ^ d : Nat) - 1 : Int) % 2 ^ 16).toNat = reps at hreps ⊢
    have h : ∏ r ∈ range (1 * 2 ^ q), foldLoop dimA 1 (fun loopA _ => loopA * dimR)
        (fun _ _ => updateMask T.vLElems (2 ^ q) 0)
        (blkRegs (2 ^ q) reps) mem' (a * dimR + r) = _ :=
      ar_fold mem' (haddr (2 ^ q)) (fun _ _ _ => by rw [← hblk]; cases T <;> rfl)
        (Nat.two_pow_pos q) hpos (by
          rw [Nat.one_mul, ← Nat.pow_add, Nat.add_comm d]
          exact (Nat.le_mul_of_pos_left _ (Nat.two_pow_pos rest)).trans hfits)
        (fun mem addr mask l hl => by
          rw [Nat.one_mul, ← hreps]
          exact blkRegs_eq _ mem addr mask l hl _) ha
    rw [Nat.one_mul, ← Nat.pow_add, Nat.add_comm d] at h
    exact h
  next hnone =>
    have hone : 2 ^ d = 1 := by
      rw [decide_eq_true_eq] at hnone
      omega
    rw [Nat.pow_add, hone, Nat.mul_one]

/-- Of every row the product, whatever the width of the folds: tail, folds by width, last fold and
blocks in turn. -/
theorem reduceARBy_eq {bits : Nat} (hbits : bits = 3 ∨ bits = 4) (T : PromteT)
    (dst src : Nat → M) (hA : dimA < 2 ^ 16) (hR : 1 ≤ dimR) (hdim : dimR ≤ 65536) (ha : a < dimA) :
    reduceARBy bits T dst src dimA dimR (mainR dimR true T.blkElems) a =
      ∏ r ∈ range dimR, src (a * dimR + r) := by
  obtain ⟨q, hq3, hq4, hblk, hv⟩ := T.exists_blk
  have hone : updateMask T.vLElems 1 0 = 1 := by cases T <;> rfl
  have hlast : ∀ (n : Nat) (mem : Nat → M), (List.range dimA).foldl
      (fun dst loopA => storeLanes dst (loopA * 1) (updateMask T.vLElems 1 0)
        ((List.range n).foldl (fun vreg0 loopR =>
          mulLanes (updateMask T.vLElems 1 0) vreg0 fun _ => mem (loopA * dimR + loopR))
            fun _ => 1)) dst a = ∏ r ∈ range n, mem (a * dimR + r) := fun n mem => by
    rw [hone]
    have h := foldl_storeLanes_blocks (fun _ => Nat.le_refl 1)
      (fun loopA => (List.range n).foldl (fun vreg0 loopR =>
        mulLanes 1 vreg0 fun _ => mem (loopA * dimR + loopR)) fun _ => 1) dst
      (a := a) (Nat.mod_lt a Nat.one_pos) dimA (by rwa [Nat.div_one])
    rw [Nat.div_one, Nat.mod_one] at h
    exact h.trans (reduceTo1_eq Nat.one_pos _ n)
  by_cases hshort : dimR < T.blkElems
  · -- such a row has neither a tail nor folds
    have hm : mainR dimR true T.blkElems = dimR := if_pos ⟨rfl, hshort⟩
    have hvl : dimR < T.vLElems := by rw [hv, Nat.pow_add, ← hblk]; omega
    have hreps : ¬ (0 < ((dimR / T.blkElems : Nat) - 1 : Int)) := by
      rw [Nat.div_eq_of_lt hshort]
      decide
    unfold reduceARBy
    rw [hm, Nat.sub_self, Nat.div_eq_of_lt hvl, if_pos hvl]
    rw [if_pos hshort, Nat.mod_eq_of_lt hA, hlast]
    refine prod_congr rfl fun r _ => ?_
    unfold reduceARFoldBase
    rw [if_neg (by rw [decide_eq_true_eq]; exact hreps)]
    obtain rfl | rfl := hbits
    all_goals rfl
  · obtain ⟨b, hb15, hm, hle, hhalf, hmax⟩ := mainR_spec hR hdim fun h => hshort h.2
    have hqb : q ≤ b := hmax q (by omega) (by rw [← hblk]; omega)
    have hpow : 2 ^ b ≤ 2 ^ 15 := Nat.pow_le_pow_right (by decide) hb15
    have hpow' : 2 ^ (b + 1) = 2 * 2 ^ b := by rw [Nat.pow_succ, Nat.mul_comm]
    have hvl : T.vLElems ≤ 128 := by cases T <;> decide
    have hreps : (dimR - 2 ^ b + T.vLElems - 1) / T.vLElems % 2 ^ 16 =
        (dimR - 2 ^ b + T.vLElems - 1) / T.vLElems :=
      Nat.mod_eq_of_lt (Nat.lt_of_le_of_lt (Nat.div_le_self _ _) (by omega))
    unfold reduceARBy
    rw [hm, Nat.mod_eq_of_lt hA, hlast, Nat.mod_eq_of_lt (show dimR - 2 ^ b < 2 ^ 16 by omega),
      hreps]
    generalize hsrc : (if 0 < dimR - 2 ^ b then _ else src) = src₁
    have h₁ : ∏ r ∈ range (2 ^ b), src₁ (a * dimR + r) = ∏ r ∈ range dimR, src (a * dimR + r) := by
      rw [← hsrc]
      split
      next => exact ar_tail src hle hhalf ha
      next hzero => rw [show dimR = 2 ^ b by omega]
    rw [← h₁]
    have hqpow : 2 ^ q ≤ 2 ^ (q + 3) := Nat.pow_le_pow_right (by decide) (by omega)
    by_cases hbv : b < q + 3
    · have hlt : 2 ^ b < T.vLElems := by
        rw [hv]
        exact (Nat.pow_lt_pow_iff_right (by decide)).mpr hbv
      have hge : ¬ 2 ^ b < T.blkElems := by
        rw [hblk]
        exact Nat.not_lt.mpr (Nat.pow_le_pow_right (by decide) hqb)
      have hzero : calcFolds (2 ^ b / T.vLElems % 2 ^ 16) = 0 := by rw [Nat.div_eq_of_lt hlt]; rfl
      rw [if_pos hlt, if_neg hge, hzero, Nat.zero_mod, Nat.zero_div]
      have h := ar_foldBase src₁ (show 0 < 4 by decide) hblk hqb (by omega)
        (show 2 ^ 0 * 2 ^ b ≤ dimR by rwa [Nat.pow_zero, Nat.one_mul]) (absurd rfl) ha
      rw [Nat.pow_zero, Nat.one_mul] at h
      exact h
    · obtain ⟨k, rfl⟩ := Nat.exists_eq_add_of_le' (Nat.not_lt.mp hbv)
      have hk : 2 ^ (k + (q + 3)) = 2 ^ k * T.vLElems := by rw [hv, Nat.pow_add]
      have hkpow : 2 ^ k < 2 ^ 16 := (Nat.pow_lt_pow_iff_right (by decide)).mpr (by omega)
      have hle1 := Nat.le_mul_of_pos_left T.vLElems (Nat.two_pow_pos k)
      have hge : ¬ 2 ^ (k + (q + 3)) < T.vLElems := by omega
      have hv0 : 0 < T.vLElems := by rw [hv]; exact Nat.two_pow_pos _
      have hge' : ¬ T.vLElems < T.blkElems := by rw [hv, hblk]; exact Nat.not_lt.mpr hqpow
      have hsum := Nat.div_add_mod k bits
      have h8 : 2 ^ 3 ≤ 2 ^ bits := Nat.pow_le_pow_right (by decide) (by omega)
      have hmain := foldStep_prod (fun r => a * dimR + r) dimR T.vLElems bits (k % bits)
        (fun loopRNum => foldLoop dimA loopRNum
          (fun loopA loopR => loopA * dimR + loopR * T.vLElems) (fun _ _ => T.vLElems)
          (foldRegs bits (loopRNum * T.vLElems % 2 ^ 16)))
        (fun n mem h => by
          have hn := (Nat.mul_le_mul_right (n * T.vLElems) h8).trans h
          rw [Nat.mod_eq_of_lt (show n * T.vLElems < 2 ^ 16 by omega)]
          exact ar_fold mem (fun _ _ _ => rfl) (fun _ _ _ => rfl) hv0 (Nat.two_pow_pos bits) h
            (foldRegs_eq bits _) ha) (k / bits) src₁ (by rw [hsum, ← hk]; exact hle)
      rw [hsum, ← hk] at hmain
      rw [if_neg hge, if_neg hge', hk, Nat.mul_div_cancel _ hv0, Nat.mod_eq_of_lt hkpow,
        calcFolds_two_pow k (by omega), ← hk, ← hmain]
      have hrest := Nat.mod_lt k (show 0 < bits by omega)
      generalize ((foldStep bits _)^[k / bits] (2 ^ k, src₁)).2 = src₂
      have hpart := Nat.mul_le_mul_right T.vLElems
        (Nat.pow_le_pow_right (show 0 < 2 by decide) (Nat.mod_le k bits))
      have hfits : 2 ^ (k % bits) * 2 ^ (q + 3) ≤ dimR := by rw [← hv]; omega
      have h := ar_foldBase src₂ (show k % bits < 4 by omega) hblk (by omega) (by omega) hfits
        (fun _ => hv.symm) ha
      rw [← hv] at h
      exact h

end AR

/-! ## Columns of the pattern RA -/

section RA

variable {dimA dimR : Nat}

/-- The rounds go over the rows, each in pieces of `width`. -/
theorem ra_rounds (dimA : Nat) {width n N T : Nat} (hwidth : 0 < width) (hle : T ≤ N) (hn : 0 < n)
    (hfits : T + (n - 1) * N ≤ dimR) :
    Rounds (fun a r => r * dimA + a) dimA dimR ((dimA + width - 1) / width) T
      (fun loopA loopR => loopA * width + loopR * dimA)
      (fun loopA _ => updateMask width dimA loopA) n (N * dimA) N T
      fun a r => (a / width, r, a % width) where
  inj a ha r _ a' ha' r' _ h := by
    have hdiv : ∀ r, ∀ a < dimA, (r * dimA + a) / dimA = r := fun r a ha => by
      rw [Nat.add_comm, Nat.add_mul_div_right _ _ (Nat.zero_lt_of_lt ha), Nat.div_eq_of_lt ha,
        Nat.zero_add]
    have hr : r = r' := by rw [← hdiv r a ha, ← hdiv r' a' ha', h]
    subst hr
    exact ⟨Nat.add_left_cancel h, rfl⟩
  le := hle
  regs := hn
  fits := hfits
  lane a ha r hr := by
    have hsum := Nat.div_add_mod' a width
    refine ⟨div_lt_repeats hwidth ha, hr, ?_, fun k => ?_⟩
    · exact lt_updateMask.mpr ⟨Nat.mod_lt _ hwidth, by rwa [hsum]⟩
    · dsimp only
      rw [Nat.add_mul, Nat.mul_right_comm, Nat.mul_comm N k]
      omega
  onto o ho c hc l hl := by
    obtain ⟨hl, hlt⟩ := lt_updateMask.mp hl
    refine ⟨o * width + l, hlt, c, hc, ?_⟩
    rw [Nat.add_comm, Nat.add_mul_div_right _ _ hwidth, Nat.div_eq_of_lt hl, Nat.zero_add,
      Nat.add_mul_mod_self_right, Nat.mod_eq_of_lt hl]

variable {T : PromteT} (mem : Nat → M) {a : Nat}

/-- The last fold of the columns gives the product of `2 ^ rest` rows. -/
theorem ra_foldBase {rest : Nat} (hrest : rest < 4) (dst : Nat → M) (ha : a < dimA) :
    reduceRAFoldBase dst mem dimA T.vLElems ((dimA + T.vLElems - 1) / T.vLElems) (rest = 0)
        (rest = 1) (rest = 2) (rest = 3) a =
      ∏ r ∈ range (2 ^ rest), mem (r * dimA + a) := by
  have hv : 0 < T.vLElems := by cases T <;> decide
  have hsum := Nat.div_add_mod' a T.vLElems
  have hlane : a % T.vLElems < updateMask T.vLElems dimA (a / T.vLElems) :=
    lt_updateMask.mpr ⟨Nat.mod_lt _ hv, by rwa [hsum]⟩
  have hfold : ∀ dst : Nat → M, (List.range ((dimA + T.vLElems - 1) / T.vLElems)).foldl
      (fun dst loopA => storeLanes dst (loopA * T.vLElems) (updateMask T.vLElems dimA loopA)
        (foldRegs rest dimA mem (loopA * T.vLElems) (updateMask T.vLElems dimA loopA))) dst a =
      ∏ r ∈ range (2 ^ rest), mem (r * dimA + a) := fun dst => by
    have hmask : ∀ o, updateMask T.vLElems dimA o ≤ T.vLElems := fun _ => Nat.min_le_left _ _
    rw [foldl_storeLanes_blocks hmask (fun loopA => foldRegs rest dimA mem (loopA * T.vLElems)
      (updateMask T.vLElems dimA loopA)) dst hlane _ (div_lt_repeats hv ha),
      foldRegs_eq rest dimA mem _ _ _ hlane]
    refine prod_congr rfl fun k _ => congrArg mem ?_
    rw [Nat.mul_comm k]
    omega
  unfold reduceRAFoldBase
  dsimp only
  rw [foldRest_eq hrest]
  split
  next hzero =>
    subst hzero
    exact hfold dst
  next => exact hfold _

/-- Of every column the product, whatever the width of the folds: tail, folds by width and last fold
in turn. -/
theorem reduceRABy_eq {bits : Nat} (hbits : bits = 3 ∨ bits = 4) (T : PromteT)
    (dst src : Nat → M) (hR : 1 ≤ dimR) (hsize : dimA * dimR ≤ 65536) (ha : a < dimA) :
    reduceRABy bits T dst src dimA dimR (mainR dimR false T.blkElems) a =
      ∏ r ∈ range dimR, src (r * dimA + a) := by
  have hdim := (Nat.le_mul_of_pos_left dimR (Nat.zero_lt_of_lt ha)).trans hsize
  have hdimA := (Nat.le_mul_of_pos_right dimA hR).trans hsize
  have hv : 64 ≤ T.vLElems := by cases T <;> decide
  obtain ⟨b, hb15, hm, hle, hhalf, -⟩ := mainR_spec hR hdim
    (show ¬ (false = true ∧ dimR < T.blkElems) from fun h => Bool.false_ne_true h.1)
  have hpow : 2 ^ b ≤ 2 ^ 15 := Nat.pow_le_pow_right (by decide) hb15
  have hloop : (dimA + T.vLElems - 1) / T.vLElems < 2 ^ 16 := Nat.div_lt_of_lt_mul (by omega)
  unfold reduceRABy
  rw [hm, Nat.mod_eq_of_lt hloop, Nat.mod_eq_of_lt (show dimR - 2 ^ b < 2 ^ 16 by omega),
    Nat.mod_eq_of_lt (show 2 ^ b < 2 ^ 16 by omega), calcFolds_two_pow b hb15]
  generalize hsrc : (if 0 < dimR - 2 ^ b then _ else src) = src₁
  -- the rows behind the main part are multiplied onto its first ones
  have h₁ : ∏ r ∈ range (2 ^ b), src₁ (r * dimA + a) = ∏ r ∈ range dimR, src (r * dimA + a) := by
    rw [← hsrc]
    split
    next =>
      have hrounds := ra_rounds dimA (show 0 < T.vLElems by omega)
        (show dimR - 2 ^ b ≤ 2 ^ b by omega) (show 0 < 2 by decide) (show _ ≤ dimR by omega)
      rw [foldLoop_tail hrounds (foldRegs_eq 1 (2 ^ b * dimA)) src ha, Nat.add_sub_cancel' hle]
    next hzero => rw [show dimR = 2 ^ b by omega]
  have hsum := Nat.div_add_mod b bits
  have h8 : 2 ^ 3 ≤ 2 ^ bits := Nat.pow_le_pow_right (by decide) (by omega)
  have hmain := foldStep_prod (fun r => r * dimA + a) dimR 1 bits (b % bits)
    (fun loopRNum => foldLoop ((dimA + T.vLElems - 1) / T.vLElems) loopRNum
      (fun loopA loopR => loopA * T.vLElems + loopR * dimA)
      (fun loopA _ => updateMask T.vLElems dimA loopA) (foldRegs bits (loopRNum * dimA % 2 ^ 16)))
    (fun n mem h => by
      rw [Nat.mul_one] at h ⊢
      have hn := Nat.mul_le_mul_right dimA ((Nat.mul_le_mul_right n h8).trans h)
      rw [Nat.mul_assoc, Nat.mul_comm dimR] at hn
      rw [Nat.mod_eq_of_lt (show n * dimA < 2 ^ 16 by omega)]
      have hrounds := ra_rounds dimA (show 0 < T.vLElems by omega) (Nat.le_refl n)
        (Nat.two_pow_pos bits) ((add_sub_one_mul (Nat.two_pow_pos bits) n).trans_le h)
      exact foldLoop_prod hrounds (foldRegs_eq bits _) mem ha) (b / bits) src₁
    (by rwa [hsum, Nat.mul_one])
  rw [hsum, Nat.mul_one, Nat.mul_one] at hmain
  have hrest := Nat.mod_lt b (show 0 < bits by omega)
  rw [← h₁, ← hmain]
  exact ra_foldBase _ (by omega) dst ha

end RA

/-- Without the short path, each element of a row or a column is used exactly once. -/
theorem reduce_folds_once (dst src : Nat → M) (dimA dimR : Nat) (hA : 1 ≤ dimA) (hR : 1 ≤ dimR)
    (hsize : dimA * dimR ≤ 65536) :
    (∀ T ≠ PromteT.b64, BLOCK_SIZE / T.size ∣ dimR → ∀ a < dimA,
      reduceAR T dst src dimA dimR (mainR dimR true T.blkElems) a =
        ∏ r ∈ range dimR, src (a * dimR + r)) ∧
    (BLOCK_SIZE / PromteT.b64.size ∣ dimR → ∀ a < dimA,
      reduceARI64 dst src dimA dimR (mainR dimR true PromteT.b64.blkElems) a =
        ∏ r ∈ range dimR, src (a * dimR + r)) ∧
    (∀ T ≠ PromteT.b64, ∀ a < dimA,
      reduceRA T dst src dimA dimR (mainR dimR false T.blkElems) a =
        ∏ r ∈ range dimR, src (r * dimA + a)) ∧
    ∀ a < dimA, reduceRAI64 dst src dimA dimR (mainR dimR false PromteT.b64.blkElems) a =
      ∏ r ∈ range dimR, src (r * dimA + a) := by
  have hdim := (Nat.le_mul_of_pos_left dimR hA).trans hsize
  -- a row of whole blocks has at least four elements
  have hrows : ∀ T : PromteT, BLOCK_SIZE / T.size ∣ dimR → dimA < 2 ^ 16 := fun T hdvd => by
    have hblk : 4 ≤ BLOCK_SIZE / T.size := by cases T <;> decide
    have := Nat.mul_le_mul_left dimA (hblk.trans (Nat.le_of_dvd hR hdvd))
    omega
  refine ⟨?_, ?_, ?_, ?_⟩
  · intro T _ hdvd a ha
    exact reduceARBy_eq (.inr rfl) T dst src (hrows T hdvd) hR hdim ha
  · intro hdvd a ha
    exact reduceARBy_eq (.inl rfl) .b64 dst src (hrows .b64 hdvd) hR hdim ha
  · intro T _ a ha
    exact reduceRABy_eq (.inr rfl) T dst src hR hsize ha
  · intro a ha
    exact reduceRABy_eq (.inl rfl) .b64 dst src hR hsize ha

/-- Rows of 3000 elements and columns of 200, 300 side by side: each has a tail, folds of sixteen
parts (of eight for `int64_t`), folds of the rest and more than one register. -/
theorem reduce_folds_once_blocks :
    (reduceAR .b32 (fun _ => 0) id 21 3000 (mainR 3000 true PromteT.b32.blkElems) 20 =
        ∏ r ∈ range 3000, (20 * 3000 + r) ∧
      reduceARI64 (fun _ => 0) id 21 3000 (mainR 3000 true PromteT.b64.blkElems) 20 =
        ∏ r ∈ range 3000, (20 * 3000 + r)) ∧
    reduceRA .b32 (fun _ => 0) id 300 200 (mainR 200 false PromteT.b32.blkElems) 299 =
        ∏ r ∈ range 200, (r * 300 + 299) ∧
      reduceRAI64 (fun _ => 0) id 300 200 (mainR 200 false PromteT.b64.blkElems) 299 =
        ∏ r ∈ range 200, (r * 300 + 299) := by
  obtain ⟨hrows, hrows64, -⟩ :=
    reduce_folds_once (fun _ => 0) id 21 3000 (by decide) (by decide) (by decide)
  obtain ⟨-, -, hcols, hcols64⟩ :=
    reduce_folds_once (fun _ => 0) id 300 200 (by decide) (by decide) (by decide)
  exact ⟨⟨hrows .b32 nofun (by decide) 20 (by decide), hrows64 (by decide) 20 (by decide)⟩,
    hcols .b32 nofun 299 (by decide), hcols64 299 (by decide)⟩

end OpBase.Reduce.ReduceProdOp
