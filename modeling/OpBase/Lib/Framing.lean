import OpBase.Lib.Bytes

/-!
# Reading an encoding from its end

Encodings written one after the other, without lengths in front: a reader that
knows some side information about the values can still take them off the end one
by one. `Framed enc side val x y` says so for two values: whatever stands in front
of their encodings and of their side information, equal strings and equal side
information make the values agree on `val` and leave the same in front.

> `Framed.flatMap`: lists of framed values are framed.
>
> `Framed.option`: so is an optional value, if no encoding ends in the mark for
> the missing one.
-/

namespace OpBase.Lib

open List

variable {α β ρ : Type} {enc : α → List Byte} {side : α → List ρ} {val : α → β} {mark : Byte}

/-- From the end of both strings the two values are read off alike. -/
def Framed (enc : α → List Byte) (side : α → List ρ) (val : α → β) (x y : α) : Prop :=
  ∀ ⦃u v : List Byte⦄ ⦃r s : List ρ⦄, u ++ enc x = v ++ enc y → r ++ side x = s ++ side y →
    val x = val y ∧ u = v ∧ r = s

/-- Encodings whose length the side information tells are framed if they are injective. -/
theorem Framed.of_side {x y : α} (hside : (side x).length = (side y).length)
    (henc : side x = side y → (enc x).length = (enc y).length)
    (hval : side x = side y → enc x = enc y → val x = val y) : Framed enc side val x y := by
  intro u v r s h hs
  obtain ⟨hr, hsxy⟩ := append_inj' hs hside
  obtain ⟨hu, hxy⟩ := append_inj' h (henc hsxy)
  exact ⟨hval hsxy hxy, hu, hr⟩

theorem Framed.of_length {x y : α} (henc : (enc x).length = (enc y).length)
    (hval : enc x = enc y → val x = val y) : Framed enc (fun _ => ([] : List ρ)) val x y :=
  Framed.of_side rfl (fun _ => henc) fun _ => hval

/-- Framing carries over to values with the same encoding. -/
theorem Framed.congr {π γ : Type} {enc' : π → List Byte} {side' : π → List ρ} {val' : π → γ}
    {x y : α} {x' y' : π} (h : Framed enc side val x y) (f : β → γ) (hx : enc' x' = enc x)
    (hy : enc' y' = enc y) (hsx : side' x' = side x) (hsy : side' y' = side y)
    (hvx : val' x' = f (val x)) (hvy : val' y' = f (val y)) : Framed enc' side' val' x' y' := by
  intro u v r s henc hside
  rw [hx, hy] at henc
  rw [hsx, hsy] at hside
  obtain ⟨hval, hrest⟩ := h henc hside
  exact ⟨by rw [hvx, hvy, hval], hrest⟩

/-- A list of framed encodings is framed, given the same number of them. -/
theorem Framed.flatMap : ∀ {xs ys : List α}, List.Forall₂ (Framed enc side val) xs ys →
    Framed (List.flatMap enc) (List.flatMap side) (List.map val) xs ys
  | [], _, .nil => fun u v r s h hs => by
    rw [flatMap_nil, append_nil, append_nil] at h
    rw [flatMap_nil, append_nil, append_nil] at hs
    exact ⟨rfl, h, hs⟩
  | x :: xs, y :: ys, .cons hxy hrest => fun u v r s h hs => by
    -- the rest comes off first, the head is then at the end
    rw [flatMap_cons, flatMap_cons, ← append_assoc, ← append_assoc] at h
    rw [flatMap_cons, flatMap_cons, ← append_assoc, ← append_assoc] at hs
    obtain ⟨hvals, hu, hr⟩ := Framed.flatMap hrest h hs
    obtain ⟨hval, hu, hr⟩ := hxy hu hr
    exact ⟨by rw [map_cons, map_cons, hval, hvals], hu, hr⟩

/-- The encoding of an optional value: a mark for the missing one. -/
def optional (mark : Byte) (enc : α → List Byte) : Option α → List Byte
  | none => [mark]
  | some x => enc x

/-- The string ends in another byte than the mark. -/
def EndsOff (mark : Byte) (e : List Byte) : Prop := ∃ e' b, e = e' ++ [b] ∧ b ≠ mark

theorem EndsOff.append {e : List Byte} (h : EndsOff mark e) (d : List Byte) :
    EndsOff mark (d ++ e) := by
  obtain ⟨e', b, he, hb⟩ := h
  exact ⟨d ++ e', b, by rw [he, append_assoc], hb⟩

theorem EndsOff.ne {e u v : List Byte} (h : EndsOff mark e) :
    u ++ [mark] ≠ v ++ e := by
  obtain ⟨e', b, he, hb⟩ := h
  intro heq
  rw [he, ← append_assoc] at heq
  have hlast := append_inj_right' heq rfl
  exact hb (singleton_inj.mp hlast).symm

/-- An optional value is framed, if no encoding ends in the mark for the missing one. -/
theorem Framed.option {x y : Option α} (hx : ∀ a ∈ x, EndsOff mark (enc a))
    (hy : ∀ b ∈ y, EndsOff mark (enc b)) (h : ∀ a ∈ x, ∀ b ∈ y, Framed enc side val a b) :
    Framed (optional mark enc) (fun o => o.elim [] side) (Option.map val) x y := by
  cases x with
  | none =>
    cases y with
    | none => exact Framed.of_side rfl (fun _ => rfl) fun _ _ => rfl
    | some b => exact fun u v r s h _ => absurd h (hy b rfl).ne
  | some a =>
    cases y with
    | none => exact fun u v r s h _ => absurd h.symm (hx a rfl).ne
    | some b =>
      intro u v r s henc hside
      obtain ⟨hval, hu, hr⟩ := h a rfl b rfl henc hside
      exact ⟨congrArg some hval, hu, hr⟩

theorem le_succ_last : ∀ (n x : Nat), le (n + 1) x = le n x ++ [UInt8.ofNat (x / 256 ^ n)]
  | 0, x => by
    show [UInt8.ofNat x] = [UInt8.ofNat (x / 256 ^ 0)]
    rw [Nat.pow_zero, Nat.div_one]
  | n + 1, x => by
    have hdiv : x / 256 ^ (n + 1) = x / 256 / 256 ^ n := by
      rw [Nat.div_div_eq_div_mul, Nat.pow_succ, Nat.mul_comm]
    rw [hdiv]
    exact congrArg (UInt8.ofNat x :: ·) (le_succ_last n (x / 256))

/-- A list with its length behind it. -/
def counted (enc : α → List Byte) (xs : List α) : List Byte :=
  xs.flatMap enc ++ le8 (UInt64.ofNat xs.length)

theorem forall₂_of_forall {P : α → α → Prop} : ∀ {xs ys : List α}, xs.length = ys.length →
    (∀ x ∈ xs, ∀ y ∈ ys, P x y) → List.Forall₂ P xs ys
  | [], [], _, _ => .nil
  | x :: _, y :: _, hlen, h =>
    .cons (h x mem_cons_self y mem_cons_self)
      (forall₂_of_forall (Nat.succ.inj hlen) fun a ha b hb =>
        h a (mem_cons_of_mem x ha) b (mem_cons_of_mem y hb))

/-- A list with its length behind it is framed, and needs no side information for that length. -/
theorem Framed.counted {xs ys : List α} (hx : xs.length < 2 ^ 64) (hy : ys.length < 2 ^ 64)
    (h : ∀ x ∈ xs, ∀ y ∈ ys, Framed enc side val x y) :
    Framed (counted enc) (List.flatMap side) (List.map val) xs ys := by
  intro u v r s henc hside
  unfold Lib.counted at henc
  rw [← append_assoc, ← append_assoc] at henc
  obtain ⟨hmembers, hcount⟩ := append_inj' henc (by rw [length_le8, length_le8])
  have hlen : xs.length = ys.length := by
    have := congrArg UInt64.toNat (le8_inj.mp hcount)
    rwa [UInt64.toNat_ofNat_of_lt' hx, UInt64.toNat_ofNat_of_lt' hy] at this
  exact Framed.flatMap (forall₂_of_forall hlen h) hmembers hside

theorem length_le_flatMap (hpos : ∀ x, 0 < (enc x).length) : ∀ xs : List α,
    xs.length ≤ (xs.flatMap enc).length
  | [] => Nat.le_refl 0
  | x :: xs => by
    have := length_le_flatMap hpos xs
    have := hpos x
    rw [flatMap_cons, length_append, length_cons]
    omega

/-- The last byte of the length is zero, which is not the mark. -/
theorem EndsOff.counted {xs : List α} (hmark : mark ≠ 0) (hlen : xs.length < 2 ^ 56) :
    EndsOff mark (Lib.counted enc xs) := by
  refine EndsOff.append ⟨le 7 (UInt64.ofNat xs.length).toNat, 0, ?_, hmark.symm⟩ _
  have hzero : (UInt64.ofNat xs.length).toNat / 256 ^ 7 = 0 := by
    have hsize : xs.length < UInt64.size := Nat.lt_trans hlen (by decide)
    rw [UInt64.toNat_ofNat_of_lt' hsize]
    omega
  unfold le8
  rw [le_succ_last, hzero]
  rfl

/-- Lists of encodings of one length are told apart by their bytes. -/
theorem flatMap_inj {f : α → List Byte} {n : Nat} (hlen : ∀ a, (f a).length = n)
    (hinj : ∀ {a b}, f a = f b → a = b) : ∀ {xs ys : List α}, xs.length = ys.length →
    xs.flatMap f = ys.flatMap f → xs = ys
  | [], [], _, _ => rfl
  | x :: xs, y :: ys, hl, h => by
    rw [flatMap_cons, flatMap_cons] at h
    obtain ⟨hx, hxs⟩ := append_inj h (by rw [hlen, hlen])
    rw [hinj hx, flatMap_inj hlen hinj (Nat.succ.inj hl) hxs]

end OpBase.Lib
