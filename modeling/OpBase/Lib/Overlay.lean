import Mathlib

/-!
# Lists combined from the front

Where single elements may be combined, if they fit together, lists can be combined element by
element, and the longer list goes on as it is. The laws of the elements are those of the
lists, with failure taken as a result: it does not matter which comes first (`overlay_comm`)
nor where the brackets are (`overlay_assoc`), although the lists differ in length.
-/

namespace OpBase.Lib.Overlay

variable {α : Type} {f g : α → α → Option α}

/-- A combination that may fail. -/
structure Laws (f : α → α → Option α) : Prop where
  comm : ∀ x y, f x y = f y x
  assoc : ∀ x y z, (f x y).bind (f · z) = (f y z).bind (f x)

def overlay (f : α → α → Option α) : List α → List α → Option (List α)
  | [], ys => some ys
  | xs, [] => some xs
  | x :: xs, y :: ys => do
    let z ← f x y
    let zs ← overlay f xs ys
    some (z :: zs)

theorem overlay_nil_left (ys : List α) : overlay f [] ys = some ys := by
  cases ys <;> rfl

theorem overlay_nil_right (xs : List α) : overlay f xs [] = some xs := by
  cases xs <;> rfl

theorem overlay_cons (x y : α) (xs ys : List α) : overlay f (x :: xs) (y :: ys) =
    (f x y).bind fun z => (overlay f xs ys).map (z :: ·) := by
  rw [overlay]
  cases f x y with
  | none => rfl
  | some z => cases overlay f xs ys <;> rfl

theorem overlay_cons_eq_some {x y : α} {xs ys r : List α} :
    overlay f (x :: xs) (y :: ys) = some r ↔
      ∃ z zs, f x y = some z ∧ overlay f xs ys = some zs ∧ r = z :: zs := by
  simp only [overlay_cons, Option.bind_eq_some_iff, Option.map_eq_some_iff]
  constructor
  · rintro ⟨z, hz, zs, hzs, rfl⟩
    exact ⟨z, zs, hz, hzs, rfl⟩
  · rintro ⟨z, zs, hz, hzs, rfl⟩
    exact ⟨z, hz, zs, hzs, rfl⟩

/-- If the operation on entries is commutative, so is the overlay. -/
theorem overlay_comm (hf : Laws f) : ∀ xs ys : List α, overlay f xs ys = overlay f ys xs
  | [], ys => by rw [overlay_nil_left, overlay_nil_right]
  | x :: xs, [] => by rw [overlay_nil_left, overlay_nil_right]
  | x :: xs, y :: ys => by rw [overlay_cons, overlay_cons, hf.comm x y, overlay_comm hf xs ys]

theorem bind_overlay_eq_some {x y z : α} {xs ys zs r : List α} :
    (overlay f (x :: xs) (y :: ys)).bind (overlay f · (z :: zs)) = some r ↔
      ∃ e es, (f x y).bind (f · z) = some e ∧
        (overlay f xs ys).bind (overlay f · zs) = some es ∧ r = e :: es := by
  simp only [Option.bind_eq_some_iff]
  constructor
  · intro ⟨_, hxy, h⟩
    obtain ⟨d, ds, hd, hds, rfl⟩ := overlay_cons_eq_some.mp hxy
    obtain ⟨e, es, he, hes, rfl⟩ := overlay_cons_eq_some.mp h
    exact ⟨e, es, ⟨d, hd, he⟩, ⟨ds, hds, hes⟩, rfl⟩
  · rintro ⟨e, es, ⟨d, hd, he⟩, ⟨ds, hds, hes⟩, rfl⟩
    exact ⟨d :: ds, overlay_cons_eq_some.mpr ⟨d, ds, hd, hds, rfl⟩,
      overlay_cons_eq_some.mpr ⟨e, es, he, hes, rfl⟩⟩

/-- If the operation on entries is associative, so is the overlay, also in where it fails. -/
theorem overlay_assoc (hf : Laws f) : ∀ xs ys zs : List α,
    (overlay f xs ys).bind (overlay f · zs) = (overlay f ys zs).bind (overlay f xs)
  | [], ys, zs => by
    rw [overlay_nil_left, Option.bind_some, funext overlay_nil_left, Option.bind_fun_some]
  | x :: xs, [], zs => by
    rw [overlay_nil_left, overlay_nil_right, Option.bind_some, Option.bind_some]
  | x :: xs, y :: ys, [] => by
    rw [overlay_nil_right, Option.bind_some, funext overlay_nil_right, Option.bind_fun_some]
  | x :: xs, y :: ys, z :: zs => by
    -- the right side is the left side of the reversed triple
    have hswap : (overlay f (y :: ys) (z :: zs)).bind (overlay f (x :: xs)) =
        (overlay f (z :: zs) (y :: ys)).bind (overlay f · (x :: xs)) := by
      rw [overlay_comm hf (y :: ys), funext (overlay_comm hf (x :: xs))]
    have helems : (f x y).bind (f · z) = (f z y).bind (f · x) := by
      rw [hf.assoc, hf.comm y z, funext (hf.comm x)]
    have hrests : (overlay f xs ys).bind (overlay f · zs) =
        (overlay f zs ys).bind (overlay f · xs) := by
      rw [overlay_assoc hf xs ys zs, overlay_comm hf ys zs, funext (overlay_comm hf xs)]
    ext r
    rw [hswap, bind_overlay_eq_some, bind_overlay_eq_some, helems, hrests]

theorem overlay_congr {p : α → Prop} (hfg : ∀ x y, p x → p y → f x y = g x y) :
    ∀ {xs ys : List α}, (∀ x ∈ xs, p x) → (∀ y ∈ ys, p y) → overlay f xs ys = overlay g xs ys
  | [], ys, _, _ => by rw [overlay_nil_left, overlay_nil_left]
  | x :: xs, [], _, _ => by rw [overlay_nil_right, overlay_nil_right]
  | x :: xs, y :: ys, hx, hy => by
    rw [List.forall_mem_cons] at hx hy
    rw [overlay_cons, overlay_cons, hfg x y hx.1 hy.1, overlay_congr hfg hx.2 hy.2]

theorem overlay_forall {p : α → Prop} (hf : ∀ x y z, p x → p y → f x y = some z → p z) :
    ∀ {xs ys r : List α}, (∀ x ∈ xs, p x) → (∀ y ∈ ys, p y) → overlay f xs ys = some r →
      ∀ z ∈ r, p z
  | [], ys, r, _, hy, h => by
    rw [overlay_nil_left] at h
    exact Option.some.inj h ▸ hy
  | x :: xs, [], r, hx, _, h => by
    rw [overlay_nil_right] at h
    exact Option.some.inj h ▸ hx
  | x :: xs, y :: ys, r, hx, hy, h => by
    rw [List.forall_mem_cons] at hx hy
    obtain ⟨z, zs, hz, hzs, rfl⟩ := overlay_cons_eq_some.mp h
    exact List.forall_mem_cons.mpr ⟨hf x y z hx.1 hy.1 hz, overlay_forall hf hx.2 hy.2 hzs⟩

/-! ## Lists of one length -/

/-- Lists of one length can be overlaid in two parts. -/
theorem overlay_append : ∀ {xs ys : List α}, xs.length = ys.length → ∀ xs' ys' : List α,
    overlay f (xs ++ xs') (ys ++ ys') =
      (overlay f xs ys).bind fun r => (overlay f xs' ys').map (r ++ ·)
  | [], [], _, xs', ys' => by
    rw [overlay_nil_left, Option.bind_some]
    exact Option.map_id'.symm
  | x :: xs, y :: ys, h, xs', ys' => by
    rw [List.cons_append, List.cons_append, overlay_cons, overlay_cons,
      overlay_append (Nat.succ.inj h) xs' ys']
    cases f x y with
    | none => rfl
    | some z =>
      cases overlay f xs ys with
      | none => rfl
      | some zs => cases overlay f xs' ys' <;> rfl

/-- Lists of one length can be overlaid from either end. -/
theorem overlay_reverse : ∀ {xs ys : List α}, xs.length = ys.length →
    overlay f xs.reverse ys.reverse = (overlay f xs ys).map List.reverse
  | [], [], _ => rfl
  | x :: xs, y :: ys, h => by
    have hl : xs.reverse.length = ys.reverse.length := by
      rw [List.length_reverse, List.length_reverse, Nat.succ.inj h]
    rw [List.reverse_cons, List.reverse_cons, overlay_append hl, overlay_reverse (Nat.succ.inj h),
      overlay_cons, overlay_cons]
    cases overlay f xs ys with
    | none => cases f x y <;> rfl
    | some zs =>
      cases f x y with
      | none => rfl
      | some z => exact congrArg some (List.reverse_cons).symm

end OpBase.Lib.Overlay
