import OpBase.Lib.Run
import OpBase.Lib.Slots

/-!
# Small vectors

`include/nnopbase/opdev/small_vector.h`: a vector with room for `N` elements
inside the object and one heap buffer when that is not enough. The model keeps
the storage as slots, live or raw (`Lib.Slots`), so that every loop of the source
is a loop over slots here and a read of a destroyed element is an error, not a
stale value, unless there is nothing to destroy in an element.

The functions are partial: `none` stands for a step that touches a slot outside
the buffer, reads a raw slot or destroys one. Sizes are of type `size_t`, and sums
of them wrap; allocation always succeeds.
-/

namespace OpBase.Util

open Function (update)
open OpBase.Lib

variable {T : Type} [Destructible T]

/-- A `SmallVector<T, N>`: `inlineStorage` has `N` slots; `allocatedStorage` is the
heap buffer, if there is one. -/
structure SmallVector (T : Type) where
  inlineStorage : Slots T
  allocatedStorage : Option (Slots T)
  size : Nat
  capacity : Nat

namespace SmallVector

/-- The slots behind `GetPointer()`. -/
def storage (v : SmallVector T) : Slots T :=
  match v.allocatedStorage with
  | none => v.inlineStorage
  | some buf => buf

def setStorage (v : SmallVector T) (s : Slots T) : SmallVector T :=
  match v.allocatedStorage with
  | none => { v with inlineStorage := s }
  | some _ => { v with allocatedStorage := some s }

/-- An object whose members have not been set, with `N` raw inline slots. -/
def uninit (N : Nat) : SmallVector T := ⟨Slots.raw N, none, 0, 0⟩

def initStorage (N : Nat) (v : SmallVector T) (size : Nat) : SmallVector T :=
  if size > N then
    { v with size := size, capacity := size, allocatedStorage := some (Slots.raw size) }
  else
    { v with size := size, capacity := N, allocatedStorage := none }

def freeStorage (v : SmallVector T) : SmallVector T := { v with allocatedStorage := none }

def clearElements (v : SmallVector T) : Option (SmallVector T) :=
  (v.storage.destroyAll 0 v.size).map v.setStorage

/-- `CopyRange` and `uninitialized_fill_n`, to slot `i` of the current storage. -/
def copyRange (v : SmallVector T) (i : Nat) (xs : List T) : Option (SmallVector T) :=
  (v.storage.constructAll i xs).map v.setStorage

/-- `MoveFrom`: both vectors afterwards. A heap buffer changes hands; inline
elements are moved one by one. -/
def moveFrom (N : Nat) (v other : SmallVector T) : Option (SmallVector T × SmallVector T) :=
  match other.allocatedStorage with
  | some buf =>
    some ({ v with size := other.size, capacity := other.capacity, allocatedStorage := some buf },
      initStorage N other 0)
  | none => do
    let (dst, src) ← Slots.moveAll v.inlineStorage other.inlineStorage 0 0 other.size
    some (⟨dst, none, other.size, other.capacity⟩,
      initStorage N { other with inlineStorage := src } 0)

/-- `v.MoveFrom(v)`: the same statements on one object. -/
def moveFromSelf (N : Nat) (v : SmallVector T) : Option (SmallVector T) :=
  match v.allocatedStorage with
  | some _ => some (initStorage N v 0)
  | none => do
    let s ← v.inlineStorage.shiftDown 0 0 v.size
    some (initStorage N { v with inlineStorage := s } 0)

/-- A sum or product of two `size_t`. -/
def wrap (n : Nat) : Nat := n % 2 ^ 64

/-- `PtrAdd`, from slot `i` of a buffer of `n`; slot `n` stands for a null pointer. -/
def ptrAdd (n i maxBufLen idx : Nat) : Nat := if idx < maxBufLen then i + idx else n

/-- `ExpandCap`: move to a new heap buffer, leaving a gap. The old buffer is freed
with whatever it still holds. -/
def expandCap (v : SmallVector T) (rangeBegin rangeLen : Nat) : Option (SmallVector T) := do
  let newCap := max (wrap (v.capacity * 2)) (wrap (v.size + rangeLen))
  let (new, old) ← Slots.moveAll (Slots.raw newCap) v.storage 0 0 rangeBegin
  let (new, old) ← Slots.moveAll new old
    (ptrAdd newCap rangeBegin (wrap (newCap + 1)) rangeLen) rangeBegin (v.size - rangeBegin)
  some { (v.setStorage old).freeStorage with allocatedStorage := some new, capacity := newCap }

/-- `ExpandSize`: shift the tail up in place. -/
def expandSize (v : SmallVector T) (rangeBegin rangeLen : Nat) : Option (SmallVector T) := do
  let newSize := wrap (v.size + rangeLen)
  let s ← v.storage.shiftUp v.size newSize (v.size - rangeBegin)
  some { v.setStorage s with size := newSize }

def expand (v : SmallVector T) (rangeBegin rangeLen : Nat) : Option (SmallVector T) :=
  if wrap (rangeLen + v.size) > v.capacity then do
    let v ← v.expandCap rangeBegin rangeLen
    some { v with size := wrap (v.size + rangeLen) }
  else
    v.expandSize rangeBegin rangeLen

/-- `Shrink`: destroy the range, shift the tail down over it. -/
def shrink (v : SmallVector T) (rangeBegin rangeEnd : Nat) : Option (SmallVector T) := do
  let s ← v.storage.destroyAll rangeBegin (rangeEnd - rangeBegin)
  let s ← s.shiftDown rangeBegin rangeEnd (v.size - rangeEnd)
  some { v.setStorage s with size := rangeBegin + (v.size - rangeEnd) }

/-! ## The interface -/

/-- The default constructor. -/
def default (N : Nat) : SmallVector T := { uninit N with size := 0, capacity := N }

/-- Construction from an initializer list, or by copying the elements `xs`. -/
def ofList (N : Nat) (xs : List T) : Option (SmallVector T) :=
  (initStorage N (uninit N) xs.length).copyRange 0 xs

/-- Construction from a range of the elements `xs`; `mem` is what the memory of the object
holds before. The guard is that of the source: it returns for every range that is one. -/
def ofRange (N : Nat) (mem : SmallVector T) (xs : List T) : Option (SmallVector T) :=
  let count : Int := xs.length
  if count ≥ 0 then some mem else (initStorage N mem count.toNat).copyRange 0 xs

def clear (N : Nat) (v : SmallVector T) : Option (SmallVector T) := do
  let v ← v.clearElements
  some { v.freeStorage with capacity := N, size := 0 }

/-- `assign`, in all its forms: the elements `xs` instead of the old ones. -/
def assign (N : Nat) (v : SmallVector T) (xs : List T) : Option (SmallVector T) := do
  let v ← v.clearElements
  if v.capacity < xs.length then
    (initStorage N v.freeStorage xs.length).copyRange 0 xs
  else
    copyRange { v with size := xs.length } 0 xs

def reserve (v : SmallVector T) (newCap : Nat) : Option (SmallVector T) :=
  if newCap > v.capacity then v.expandCap v.size (newCap - v.size) else some v

/-- `insert` of a range, of `count` copies or of an initializer list. -/
def insertRange (v : SmallVector T) (index : Nat) (xs : List T) : Option (SmallVector T) := do
  let v ← v.expand index xs.length
  v.copyRange index xs

/-- `emplace`, and `insert` of one element. -/
def emplace (v : SmallVector T) (index : Nat) (x : T) : Option (SmallVector T) := do
  let v ← v.expand index 1
  v.copyRange index [x]

/-- `push_back` and `emplace_back`. -/
def pushBack (v : SmallVector T) (x : T) : Option (SmallVector T) := do
  let w ← v.expand v.size 1
  w.copyRange v.size [x]

/-- On an empty vector `size_ - 1` would wrap; that call is outside the interface. -/
def popBack (v : SmallVector T) : Option (SmallVector T) := v.shrink (v.size - 1) v.size

def eraseAt (v : SmallVector T) (index : Nat) : Option (SmallVector T) :=
  if index = v.size then some v else v.shrink index (index + 1)

def eraseRange (v : SmallVector T) (first last : Nat) : Option (SmallVector T) :=
  if first = last then some v else v.shrink first last

/-- `resize(count, value)`; `resize(count)` constructs the default value. -/
def resize (v : SmallVector T) (count : Nat) (x : T) : Option (SmallVector T) :=
  if count < v.size then v.shrink count v.size
  else do
    let w ← v.expand v.size (count - v.size)
    w.copyRange v.size (List.replicate (count - v.size) x)

/-- `v.swap(w)`: both vectors afterwards, in the order given. -/
def swap (N : Nat) (v w : SmallVector T) : Option (SmallVector T × SmallVector T) := do
  if w.capacity > N then
    let (tmp, w) ← moveFrom N (default N) w
    let (w, v) ← moveFrom N w v
    let (v, _) ← moveFrom N v tmp
    some (v, w)
  else
    let (tmp, v) ← moveFrom N (default N) v
    let (v, w) ← moveFrom N v w
    let (w, _) ← moveFrom N w tmp
    some (v, w)

/-- `v.swap(v)`. -/
def swapSelf (N : Nat) (v : SmallVector T) : Option (SmallVector T) := do
  let (tmp, v) ← moveFrom N (default N) v
  let v ← moveFromSelf N v
  let (v, _) ← moveFrom N v tmp
  some v

/-- The elements a reader sees between `begin()` and `end()`; `none` when one of
them is not alive. -/
def elements (v : SmallVector T) : Option (List T) := (v.storage.take v.size).mapM id

end SmallVector

/-! ## Programs over several vectors -/

/-- A call on one vector. -/
inductive Call (T : Type) where
  | pushBack (x : T)
  | popBack
  | emplace (index : Nat) (x : T)
  | insertRange (index : Nat) (xs : List T)
  | eraseAt (index : Nat)
  | eraseRange (first last : Nat)
  | resize (count : Nat) (x : T)
  | reserve (newCap : Nat)
  | assign (xs : List T)
  | clear

/-- A statement of a program over vectors named by numbers: construction, calls,
and the operations on two vectors. -/
inductive Stmt (T : Type) where
  | default (i : Nat)
  | ofList (i : Nat) (xs : List T)
  | copy (i j : Nat)
  | move (i j : Nat)
  | call (i : Nat) (c : Call T)
  | copyAssign (i j : Nat)
  | moveAssign (i j : Nat)
  | swap (i j : Nat)

def SmallVector.call (N : Nat) (v : SmallVector T) : Call T → Option (SmallVector T)
  | .pushBack x => v.pushBack x
  | .popBack => v.popBack
  | .emplace index x => v.emplace index x
  | .insertRange index xs => v.insertRange index xs
  | .eraseAt index => v.eraseAt index
  | .eraseRange first last => v.eraseRange first last
  | .resize count x => v.resize count x
  | .reserve newCap => v.reserve newCap
  | .assign xs => v.assign N xs
  | .clear => v.clear N

/-- The vectors that are alive. -/
abbrev Vectors (T : Type) := Nat → Option (SmallVector T)

/-- Copying reads the elements of the other vector. -/
def SmallVector.copyOf (N : Nat) (other : SmallVector T) : Option (SmallVector T) :=
  other.elements.bind (SmallVector.ofList N)

/-- One statement. Constructors need a free name, the others existing vectors. -/
def exec (N : Nat) (st : Vectors T) : Stmt T → Option (Vectors T)
  | .default i =>
    match st i with
    | none => some (update st i (some (SmallVector.default N)))
    | some _ => none
  | .ofList i xs =>
    match st i with
    | none => (SmallVector.ofList N xs).map fun v => update st i (some v)
    | some _ => none
  | .copy i j =>
    match st i, st j with
    | none, some other => (other.copyOf N).map fun v => update st i (some v)
    | _, _ => none
  | .move i j =>
    match st i, st j with
    | none, some other =>
      (SmallVector.moveFrom N (SmallVector.uninit N) other).map fun (v, other) =>
        update (update st j (some other)) i (some v)
    | _, _ => none
  | .call i c =>
    match st i with
    | some v => (v.call N c).map fun v => update st i (some v)
    | none => none
  | .copyAssign i j =>
    match st i, st j with
    | some v, some other =>
      if i = j then some st
      else (other.elements.bind (v.assign N)).map fun v => update st i (some v)
    | _, _ => none
  | .moveAssign i j =>
    match st i, st j with
    | some v, some other =>
      if i = j then some st
      else ((v.clear N).bind fun v => SmallVector.moveFrom N v other).map fun (v, other) =>
        update (update st j (some other)) i (some v)
    | _, _ => none
  | .swap i j =>
    match st i, st j with
    | some v, some w =>
      if i = j then (v.swapSelf N).map fun v => update st i (some v)
      else (SmallVector.swap N v w).map fun (v, w) => update (update st j (some w)) i (some v)
    | _, _ => none

/-! ## Lists -/

end OpBase.Util
