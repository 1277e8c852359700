import OpBase.Lib.Bytes

/-!
# Writing on into a buffer

A buffer with the offset that is written next, the way a serialiser moves a pointer through
memory it did not clear. A store outside the buffer is `none`; what a store leaves around
it stays.

A function that appends a fixed string whatever the buffer has is `Writes f bytes`. Such
functions compose, so a whole serialiser comes down to the string it writes.

> `Writes.bind`, `Writes.foldlM`: one after the other, the strings are joined.
>
> `take_of_put`: in front of the offset lies what lay there, then the string.
-/

namespace OpBase.Lib

open List

variable {off : Nat} {buf : List Byte}

theorem length_patch {new : List Byte} (h : off + new.length ≤ buf.length) :
    (patch off new buf).length = buf.length := by
  unfold patch
  rw [length_append, length_append, length_take, length_drop]
  omega

theorem patch_nil (off : Nat) (buf : List Byte) : patch off [] buf = buf := by
  unfold patch
  rw [append_nil]
  exact take_append_drop off buf

theorem patch_patch {new more : List Byte} (h : off + new.length ≤ buf.length) :
    patch (off + new.length) more (patch off new buf) = patch off (new ++ more) buf := by
  have hfront : (buf.take off ++ new).length = off + new.length := by
    rw [length_append, length_take]
    omega
  have htake : (patch off new buf).take (off + new.length) = buf.take off ++ new := by
    unfold patch
    rw [← hfront, take_left]
  have hdrop : (patch off new buf).drop (off + new.length + more.length) =
      buf.drop (off + (new ++ more).length) := by
    unfold patch
    rw [← drop_drop, ← hfront, drop_left, drop_drop, hfront, length_append, Nat.add_assoc]
  show (patch off new buf).take (off + new.length) ++ more ++ _ = buf.take off ++ (new ++ more) ++ _
  rw [htake, hdrop, append_assoc (buf.take off) new more]

/-- The front of a patched buffer depends on the front of the buffer only. -/
theorem take_patch {n : Nat} (new buf : List Byte) (h : off ≤ n) :
    (patch off new buf).take n = (patch off new (buf.take n)).take n := by
  by_cases hlen : off ≤ buf.length
  · have hfront : (buf.take off ++ new).length = off + new.length := by
      rw [length_append, length_take_of_le hlen]
    have hsplit : ∀ rest, (buf.take off ++ new ++ rest).take n =
        (buf.take off ++ new).take n ++ rest.take (n - (off + new.length)) := fun _ => by
      rw [take_append, hfront]
    unfold patch
    rw [take_take, Nat.min_eq_left h, drop_take, hsplit, hsplit, take_take, Nat.min_self]
  · rw [take_of_length_le (show buf.length ≤ n by omega)]

theorem take_patch_self (new : List Byte) (h : off ≤ buf.length) :
    (patch off new buf).take off = buf.take off := by
  unfold patch
  rw [append_assoc, take_append_of_le_length (length_take_of_le h).ge, take_take, Nat.min_self]

/-- A buffer and the offset that is written next. -/
@[ext]
structure Cursor where
  buf : List Byte
  pos : Nat
  within : pos ≤ buf.length

namespace Cursor

/-- At the start of a buffer. -/
def start (buf : List Byte) : Cursor := ⟨buf, 0, Nat.zero_le _⟩

/-- Go on at an offset of the buffer. -/
def seek (buf : List Byte) (pos : Nat) : Option Cursor :=
  if h : pos ≤ buf.length then some ⟨buf, pos, h⟩ else none

/-- Bytes are stored and the offset moves behind them. -/
def put (c : Cursor) (bytes : List Byte) : Option Cursor :=
  if h : c.pos + bytes.length ≤ c.buf.length then
    some ⟨patch c.pos bytes c.buf, c.pos + bytes.length, by rwa [length_patch h]⟩
  else none

variable {c c' : Cursor} {bytes more : List Byte}

theorem seek_of_le {pos : Nat} (h : pos ≤ buf.length) :
    seek buf pos = some ⟨buf, pos, h⟩ := dif_pos h

theorem seek_eq_some {pos : Nat} (h : seek buf pos = some c) :
    c.buf = buf ∧ c.pos = pos := by
  unfold seek at h
  split at h
  next =>
    cases h
    exact ⟨rfl, rfl⟩
  next => cases h

theorem put_of_le (h : c.pos + bytes.length ≤ c.buf.length) :
    c.put bytes = some ⟨patch c.pos bytes c.buf, c.pos + bytes.length, by rwa [length_patch h]⟩ :=
  dif_pos h

theorem put_eq_none (h : c.buf.length < c.pos + bytes.length) : c.put bytes = none :=
  dif_neg (Nat.not_le.mpr h)

/-- What a write that succeeds has done. -/
theorem put_eq_some (h : c.put bytes = some c') :
    c.pos + bytes.length ≤ c.buf.length ∧ c'.buf = patch c.pos bytes c.buf ∧
      c'.pos = c.pos + bytes.length := by
  unfold put at h
  split at h
  next hle =>
    cases h
    exact ⟨hle, rfl, rfl⟩
  next => cases h

theorem put_isSome : (c.put bytes).isSome ↔ c.pos + bytes.length ≤ c.buf.length := by
  unfold put
  split
  next h => exact ⟨fun _ => h, fun _ => rfl⟩
  next h => exact ⟨(nomatch ·), fun hle => absurd hle h⟩

theorem put_nil (c : Cursor) : c.put [] = some c := by
  rw [put_of_le (show c.pos + 0 ≤ c.buf.length from c.within)]
  congr 1
  exact Cursor.ext (patch_nil c.pos c.buf) rfl

/-- Two writes, one behind the other, are one. -/
theorem put_bind (c : Cursor) (bytes more : List Byte) :
    ((c.put bytes).bind fun d => d.put more) = c.put (bytes ++ more) := by
  by_cases h : c.pos + bytes.length ≤ c.buf.length
  · rw [put_of_le h, Option.bind_some]
    by_cases hmore : c.pos + (bytes ++ more).length ≤ c.buf.length
    · rw [put_of_le hmore]
      rw [length_append] at hmore
      rw [put_of_le (by
        show c.pos + bytes.length + more.length ≤ (patch c.pos bytes c.buf).length
        rw [length_patch h]
        omega)]
      congr 1
      refine Cursor.ext (patch_patch h) ?_
      show c.pos + bytes.length + more.length = c.pos + (bytes ++ more).length
      rw [length_append, Nat.add_assoc]
    · rw [put_eq_none (Nat.not_le.mp hmore)]
      rw [length_append] at hmore
      apply put_eq_none
      show (patch c.pos bytes c.buf).length < c.pos + bytes.length + more.length
      rw [length_patch h]
      omega
  · rw [put_eq_none (Nat.not_le.mp h)]
    refine (put_eq_none ?_).symm
    rw [length_append]
    omega

/-- The bytes written so far. -/
def written (c : Cursor) : List Byte := c.buf.take c.pos

/-- A write is appended to what was written. -/
theorem take_of_put (h : c.put bytes = some c') : c'.written = c.written ++ bytes := by
  obtain ⟨hle, hbuf, hpos⟩ := put_eq_some h
  have hfront : (c.buf.take c.pos ++ bytes).length = c.pos + bytes.length := by
    rw [length_append, length_take]
    omega
  show c'.buf.take c'.pos = c.buf.take c.pos ++ bytes
  rw [hbuf, hpos, ← hfront]
  exact take_left

theorem length_of_put (h : c.put bytes = some c') : c'.buf.length = c.buf.length := by
  obtain ⟨hle, hbuf, -⟩ := put_eq_some h
  rw [hbuf, length_patch hle]

end Cursor

/-! ## Functions that append -/

/-- The function appends `bytes`, and nothing else. -/
def Writes (f : Cursor → Option Cursor) (bytes : List Byte) : Prop := ∀ c, f c = c.put bytes

variable {f g : Cursor → Option Cursor} {p q : List Byte}

theorem Writes.put (bytes : List Byte) : Writes (·.put bytes) bytes := fun _ => rfl

theorem Writes.nothing : Writes some [] := fun c => (c.put_nil).symm

/-- Two writers, one behind the other, write both texts. -/
theorem Writes.bind (hf : Writes f p) (hg : Writes g q) :
    Writes (fun c => (f c).bind g) (p ++ q) := by
  intro c
  show (f c).bind g = c.put (p ++ q)
  rw [hf c, show g = fun d => d.put q from funext hg]
  exact c.put_bind p q

theorem Writes.ite {b : Prop} [Decidable b] (hf : b → Writes f p) (hg : ¬ b → Writes g q) :
    Writes (fun c => if b then f c else g c) (if b then p else q) := by
  intro c
  split
  next h => exact hf h c
  next h => exact hg h c

/-- A loop of writers writes their texts in order. -/
theorem Writes.foldlM {α : Type} {f : Cursor → α → Option Cursor} {bytes : α → List Byte}
    {xs : List α} (h : ∀ x ∈ xs, Writes (f · x) (bytes x)) :
    Writes (fun c => xs.foldlM f c) (xs.flatMap bytes) := by
  induction xs with
  | nil => exact Writes.nothing
  | cons x xs ih =>
    have htail := ih fun y hy => h y (mem_cons_of_mem x hy)
    exact (h x mem_cons_self).bind htail

end OpBase.Lib
