import OpBase.Lib.Memory

/-!
# Arrays of words, and lists that end at a mark

A list of 64-bit words is written to an array slot by slot, and read back up to the
first slot that has the mark, or to the end of the array. Nothing is said about the
slots behind the list, so whatever stood there is read as well if the mark is
missing.

> `takeMarked_eq_iff`: what is read back is the list that was written, exactly if the
> mark is not in the list and stands right behind it or the array is full.
-/

namespace OpBase.Lib

/-! ## Words in memory -/

namespace Mem

/-- The slot `k` of the array at `a`. -/
def word (m : Mem) (a k : Nat) : UInt64 := UInt64.ofNat (m.load (a + 8 * k) 8)

/-- The stores of the words `ws`, from the slot at `a` on. -/
def wordStores : Nat → List UInt64 → List (Nat × UInt64)
  | _, [] => []
  | a, w :: ws => (a, w) :: wordStores (a + 8) ws

def storeWord (m : Mem) (st : Nat × UInt64) : Mem := m.store st.1 8 st.2.toNat

def storeWords (m : Mem) (a : Nat) (ws : List UInt64) : Mem :=
  (wordStores a ws).foldl storeWord m

theorem storeWords_cons (m : Mem) (a : Nat) (w : UInt64) (ws : List UInt64) :
    m.storeWords a (w :: ws) = (m.storeWord (a, w)).storeWords (a + 8) ws := rfl

theorem wordStores_within : ∀ {a : Nat} {ws : List UInt64}, ∀ st ∈ wordStores a ws,
    a ≤ st.1 ∧ st.1 + 8 ≤ a + 8 * ws.length
  | a, w :: ws, st, h => by
    rw [List.length_cons]
    rcases List.mem_cons.mp h with rfl | h
    · omega
    · have := wordStores_within st h
      omega

theorem word_store (m : Mem) (a : Nat) (w : UInt64) : (m.storeWord (a, w)).word a 0 = w := by
  unfold word storeWord
  rw [Nat.mul_zero, Nat.add_zero, load_store_of_lt w.toNat_lt, UInt64.ofNat_toNat]

theorem word_store_of_apart {m : Mem} {a b w k : Nat} (v : Nat)
    (h : b + 8 * k + 8 ≤ a ∨ a + w ≤ b + 8 * k) : (m.store a w v).word b k = m.word b k := by
  unfold word
  rw [load_store_of_apart m v h]

theorem word_zero (m : Mem) (a k : Nat) : m.word (a + 8 * k) 0 = m.word a k := by
  unfold word
  rw [Nat.mul_zero, Nat.add_zero]

theorem word_succ (m : Mem) (a k : Nat) : m.word a (k + 1) = m.word (a + 8) k := by
  unfold word
  rw [show a + 8 * (k + 1) = a + 8 + 8 * k by omega]

/-- Storing words changes nothing outside of them. -/
theorem storeWords_of_apart : ∀ {ws : List UInt64} {m : Mem} {a x : Nat},
    x < a ∨ a + 8 * ws.length ≤ x → m.storeWords a ws x = m x
  | [], _, _, _, _ => rfl
  | w :: ws, m, a, x, h => by
    rw [List.length_cons] at h
    rw [storeWords_cons, storeWords_of_apart (by omega)]
    exact store_of_apart m _ (by omega)

theorem word_frame {m m' : Mem} {a k : Nat}
    (h : ∀ x, a + 8 * k ≤ x → x < a + 8 * k + 8 → m' x = m x) : m'.word a k = m.word a k := by
  unfold word
  rw [load_congr fun i hi => h (a + 8 * k + i) (by omega) (by omega)]

theorem word_shift (m : Mem) (b a k : Nat) : word (fun i => m (b + i)) a k = m.word (b + a) k := by
  unfold word
  rw [load_congr (m := fun i => m (b + i)) (b := b + a + 8 * k) fun i _ => by
    rw [show b + a + 8 * k + i = b + (a + 8 * k + i) by omega]]

/-- The words are read back where they were stored. -/
theorem word_storeWords : ∀ {ws : List UInt64} {m : Mem} {a : Nat} (k : Nat),
    (m.storeWords a ws).word a k = ws.getD k (m.word a k)
  | [], _, _, _ => rfl
  | w :: ws, m, a, 0 => by
    rw [List.getD_cons_zero, storeWords_cons]
    conv_rhs => rw [← word_store m a w]
    apply word_frame
    intro x hx hx'
    exact storeWords_of_apart (by omega)
  | w :: ws, m, a, k + 1 => by
    have hslot : (m.storeWord (a, w)).word (a + 8) k = m.word (a + 8) k :=
      word_store_of_apart _ (by omega)
    rw [List.getD_cons_succ, word_succ, word_succ, storeWords_cons, word_storeWords k, hslot]

theorem Holds.word {m : Mem} {a off k : Nat} {s : Str} (h : m.Holds a s)
    (hk : off + 8 * k + 8 ≤ s.size) : m.word (a + off) k = s.byte.word off k := by
  unfold Mem.word
  rw [Nat.add_assoc, h.load hk]

end Mem

/-! ## Lists that end at a mark -/

section Marked

variable {α : Type} [DecidableEq α] (mark : α)

/-- The slots up to the mark, of `n` slots. -/
def takeMarked : (Nat → α) → Nat → List α
  | _, 0 => []
  | f, n + 1 => if f 0 = mark then [] else f 0 :: takeMarked (fun i => f (i + 1)) n

/-- The list is read back just when it does not contain the mark, and is full or has the mark behind
it. -/
theorem takeMarked_eq_iff : ∀ {ds : List α} {f : Nat → α} {n : Nat}, ds.length ≤ n →
    (∀ i (h : i < ds.length), f i = ds[i]) →
    (takeMarked mark f n = ds ↔ mark ∉ ds ∧ (ds.length = n ∨ f ds.length = mark))
  | [], f, 0, _, _ => by simp [takeMarked]
  | [], f, n + 1, _, _ => by simp [takeMarked]
  | d :: ds, f, 0, hlen, _ => by simp at hlen
  | d :: ds, f, n + 1, hlen, hf => by
    have hd : f 0 = d := hf 0 (by simp)
    have hrest : takeMarked mark (fun i => f (i + 1)) n = ds ↔ _ :=
      takeMarked_eq_iff (by simpa using hlen) (fun i h => hf (i + 1) (by simpa using h))
    rw [takeMarked, hd]
    by_cases hmark : d = mark
    · simp [hmark]
    · rw [if_neg hmark, List.cons.injEq, List.length_cons, Nat.add_right_cancel_iff]
      have hne : mark ≠ d := fun h => hmark h.symm
      simp [hrest, hne]

theorem takeMarked_congr : ∀ {f g : Nat → α} {n : Nat}, (∀ i, i < n → f i = g i) →
    takeMarked mark f n = takeMarked mark g n
  | _, _, 0, _ => rfl
  | f, g, n + 1, h => by
    rw [takeMarked, takeMarked, h 0 (by omega),
      takeMarked_congr (f := fun i => f (i + 1)) (g := fun i => g (i + 1)) fun i hi =>
        h (i + 1) (by omega)]

/-- Only the entries up to the mark matter. -/
theorem takeMarked_upto : ∀ {ds : List α} {f : Nat → α} {n : Nat},
    (∀ i, i < n → i ≤ ds.length → f i = ds.getD i mark) →
    takeMarked mark f n = takeMarked mark (ds.getD · mark) n
  | _, _, 0, _ => rfl
  | [], f, n + 1, hf => by
    have hmark : f 0 = mark := hf 0 (by omega) (by simp)
    rw [takeMarked, takeMarked, if_pos hmark, if_pos List.getD_nil]
  | d :: ds, f, n + 1, hf => by
    have hd : f 0 = d := hf 0 (by omega) (by simp)
    have hrest : takeMarked mark (fun i => f (i + 1)) n = takeMarked mark (ds.getD · mark) n :=
      takeMarked_upto fun i hi hle => hf (i + 1) (by omega) (by simpa using hle)
    rw [takeMarked, takeMarked, hd, hrest]
    rfl

end Marked

end OpBase.Lib
