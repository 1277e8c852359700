import OpBase.Lib.Bytes

/-!
# Memory by address, and the structures laid out in it

A value of `w` bytes is stored and loaded least significant byte first. `Str` is a
buffer with a size of its own, `Holds` says that the memory has it at an address.
A `Packed` structure says where its fields lie; what is proved of it needs only that
no two of them share a byte.

> `load_store`, `load_store_of_apart`: a load finds the last value stored there, and
> no store beside it.
>
> `Packed.get_set`, `Packed.get_set_of_ne`: the same for the fields of a structure.
-/

namespace OpBase.Lib

/-- What every address holds. -/
abbrev Mem := Nat → Byte

variable {m : Mem} {a : Nat}

namespace Mem

open Function (update)

/-- The `w` bytes from `a` on as a number. -/
def load (m : Mem) (a : Nat) : Nat → Nat
  | 0 => 0
  | w + 1 => (m a).toNat + 256 * load m (a + 1) w

/-- Write the lowest `w` bytes of `v` from `a` on. -/
def store (m : Mem) (a : Nat) : Nat → Nat → Mem
  | 0, _ => m
  | w + 1, v => update (store m (a + 1) w (v / 256)) a (UInt8.ofNat v)

theorem load_congr {m' : Mem} : ∀ {a b w : Nat},
    (∀ i, i < w → m (a + i) = m' (b + i)) → load m a w = load m' b w
  | _, _, 0, _ => rfl
  | a, b, w + 1, h => by
    have hrest : load m (a + 1) w = load m' (b + 1) w := by
      apply load_congr
      intro i hi
      have := h (i + 1) (by omega)
      rwa [show a + (i + 1) = a + 1 + i by omega, show b + (i + 1) = b + 1 + i by omega] at this
    have hfirst : m a = m' b := h 0 (by omega)
    rw [load, load, hrest, hfirst]

/-- Memories that give the same number hold the same bytes. -/
theorem load_inj {m' : Mem} : ∀ {a b w : Nat}, load m a w = load m' b w →
    ∀ i, i < w → m (a + i) = m' (b + i)
  | _, _, 0, _, _, hi => absurd hi (Nat.not_lt_zero _)
  | a, b, w + 1, h, i, hi => by
    rw [load, load] at h
    have hlow := (m a).toNat_lt
    have hlow' := (m' b).toNat_lt
    match i with
    | 0 =>
      show m a = m' b
      exact UInt8.toNat_inj.mp (by omega)
    | i + 1 =>
      have hrest := load_inj (show load m (a + 1) w = load m' (b + 1) w by omega) i (by omega)
      rwa [show a + (i + 1) = a + 1 + i by omega, show b + (i + 1) = b + 1 + i by omega]

theorem store_of_apart (m : Mem) : ∀ {a w x : Nat} (v : Nat),
    x < a ∨ a + w ≤ x → store m a w v x = m x
  | _, 0, _, _, _ => rfl
  | a, w + 1, x, v, h => by
    rw [store, Function.update_of_ne (by omega)]
    exact store_of_apart m _ (by omega)

/-- The low bytes of what was stored. -/
theorem load_store_of_le (m : Mem) : ∀ {a w k : Nat} (v : Nat), k ≤ w →
    load (store m a w v) a k = v % 256 ^ k
  | _, _, 0, v, _ => (Nat.mod_one v).symm
  | a, w + 1, k + 1, v, h => by
    have hrest : load (store m a (w + 1) v) (a + 1) k = v / 256 % 256 ^ k := by
      rw [← load_store_of_le m (a := a + 1) (v / 256) (Nat.le_of_succ_le_succ h)]
      apply load_congr
      intro i _
      rw [store, Function.update_of_ne (by omega)]
    rw [load, hrest, store, Function.update_self, UInt8.toNat_ofNat']
    show v % 256 + 256 * (v / 256 % 256 ^ k) = v % 256 ^ (k + 1)
    rw [Nat.pow_succ', Nat.mod_mul]

/-- What is loaded is what was stored, cut to the width. -/
theorem load_store (m : Mem) (a w v : Nat) : load (store m a w v) a w = v % 256 ^ w :=
  load_store_of_le m v (Nat.le_refl w)

theorem load_store_of_lt {w v : Nat} (h : v < 256 ^ w) :
    load (store m a w v) a w = v := by
  rw [load_store, Nat.mod_eq_of_lt h]

/-- A store elsewhere is not seen. -/
theorem load_store_of_apart (m : Mem) {w b k : Nat} (v : Nat) (h : b + k ≤ a ∨ a + w ≤ b) :
    load (store m a w v) b k = load m b k := by
  apply load_congr
  intro i hi
  exact store_of_apart m v (by omega)

end Mem

/-! ## Buffers -/

/-- A buffer. What `byte` says past the size means nothing. -/
structure Str where
  size : Nat
  byte : Mem

namespace Str

def empty : Str := ⟨0, fun _ => 0⟩

def fill (n : Nat) (b : Byte) : Str := ⟨n, fun _ => b⟩

def ofList (bs : List Byte) : Str := ⟨bs.length, fun i => bs.getD i 0⟩

def append (s t : Str) : Str :=
  ⟨s.size + t.size, fun i => if i < s.size then s.byte i else t.byte (i - s.size)⟩

/-- Write a value in place. -/
def store (s : Str) (a w v : Nat) : Str := { s with byte := s.byte.store a w v }

@[simp] theorem size_append (s t : Str) : (s.append t).size = s.size + t.size := rfl

theorem ofList_append (bs cs : List Byte) : ofList (bs ++ cs) = (ofList bs).append (ofList cs) := by
  unfold ofList append
  rw [List.length_append]
  congr 1
  funext i
  show (bs ++ cs).getD i 0 = if i < bs.length then bs.getD i 0 else cs.getD (i - bs.length) 0
  split
  next hi => exact List.getD_append bs cs 0 i hi
  next hi => exact List.getD_append_right bs cs 0 i (Nat.le_of_not_lt hi)

end Str

variable {s : Str}

namespace Mem

/-- The memory has the buffer at `a`. -/
def Holds (m : Mem) (a : Nat) (s : Str) : Prop := ∀ i, i < s.size → m (a + i) = s.byte i

/-- Copy a buffer to `a`. -/
def place (m : Mem) (a : Nat) (s : Str) : Mem := fun x =>
  if a ≤ x ∧ x < a + s.size then s.byte (x - a) else m x

theorem holds_place (m : Mem) (a : Nat) (s : Str) : (m.place a s).Holds a s := by
  intro i hi
  unfold place
  rw [if_pos (by omega), Nat.add_sub_cancel_left]

theorem Holds.place {b : Nat} (hs : m.Holds a s) (t : Str) (h : a + s.size ≤ b) :
    (m.place b t).Holds a s := by
  intro i hi
  rw [← hs i hi]
  exact if_neg (by omega)

theorem exists_holds {b : Nat} {t : Str} (h : a + s.size ≤ b) :
    ∃ m : Mem, m.Holds a s ∧ m.Holds b t :=
  ⟨_, (holds_place (fun _ => 0) a s).place t h, holds_place _ b t⟩

/-- A number loaded from where a text is held is in the text. -/
theorem Holds.load {k w : Nat} (h : m.Holds a s) (hw : k + w ≤ s.size) :
    m.load (a + k) w = s.byte.load k w := by
  apply load_congr
  intro i hi
  rw [Nat.add_assoc]
  exact h (k + i) (by omega)

theorem Holds.left {t : Str} (h : m.Holds a (s.append t)) : m.Holds a s := by
  intro i hi
  rw [h i (by rw [Str.size_append]; omega)]
  exact if_pos hi

theorem Holds.right {t : Str} (h : m.Holds a (s.append t)) :
    m.Holds (a + s.size) t := by
  intro i hi
  rw [Nat.add_assoc, h (s.size + i) (by rw [Str.size_append]; omega)]
  show (if s.size + i < s.size then _ else _) = _
  rw [if_neg (by omega), Nat.add_sub_cancel_left]

/-- Two texts held one behind the other are their concatenation. -/
theorem Holds.append {t : Str} (hs : m.Holds a s) (ht : m.Holds (a + s.size) t) :
    m.Holds a (s.append t) := by
  intro i hi
  show m (a + i) = if i < s.size then s.byte i else t.byte (i - s.size)
  split
  next h => exact hs i h
  next h =>
    rw [Str.size_append] at hi
    rw [← ht (i - s.size) (by omega)]
    congr 1
    omega

end Mem

/-! ## Structures -/

/-- Where the fields of a packed structure lie; `width` has their sizes. -/
structure Packed (F : Type) (width : F → Nat) where
  size : Nat
  off : F → Nat
  inside : ∀ f, off f + width f ≤ size
  apart : ∀ f g, f ≠ g → off f + width f ≤ off g ∨ off g + width g ≤ off f

namespace Packed

variable {F : Type} {width : F → Nat} (P : Packed F width)

/-- The field `f` of the structure at `a`. -/
def get (m : Mem) (a : Nat) (f : F) : Nat := m.load (a + P.off f) (width f)

/-- Assign it. -/
def set (m : Mem) (a : Nat) (f : F) (v : Nat) : Mem := m.store (a + P.off f) (width f) v

/-- A field has the value it was set to. -/
theorem get_set {f : F} {v : Nat} (h : v < 256 ^ width f) :
    P.get (P.set m a f v) a f = v := Mem.load_store_of_lt h

/-- The other fields keep theirs. -/
theorem get_set_of_ne (m : Mem) (a : Nat) {f g : F} (v : Nat) (h : g ≠ f) :
    P.get (P.set m a f v) a g = P.get m a g := by
  have := P.apart f g (Ne.symm h)
  exact Mem.load_store_of_apart m v (by omega)

theorem set_of_apart (m : Mem) {x : Nat} (f : F) (v : Nat) (h : x < a ∨ a + P.size ≤ x) :
    P.set m a f v x = m x := by
  have := P.inside f
  exact Mem.store_of_apart m v (by omega)

/-- A field is read from its own bytes only. -/
theorem get_frame {m' : Mem} {f : F}
    (h : ∀ x, a + P.off f ≤ x → x < a + P.off f + width f → m' x = m x) :
    P.get m' a f = P.get m a f :=
  Mem.load_congr fun i hi => h (a + P.off f + i) (by omega) (by omega)

theorem get_holds {k : Nat} (h : m.Holds a s) (hs : k + P.size ≤ s.size) (f : F) :
    P.get m (a + k) f = P.get s.byte k f := by
  have := P.inside f
  unfold get
  rw [Nat.add_assoc, h.load (by omega)]

end Packed

end OpBase.Lib
