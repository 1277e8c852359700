import Mathlib

/-!
# Intrusive bucket lists

Singly linked lists with a back pointer to the *cell* that holds them: the
`first` cell of a bucket head or the `next` cell of the node before. A node can
then be unlinked without its bucket being known.

`Seg H l xs` says that the list held in cell `l` is `xs`, back pointers included.

> `Seg.add`: adding to a bucket puts the node in front.
>
> `Seg.del`: deleting a node leaves the others in order.
>
> `Seg.frame`: a list sees only its own cells.
-/

namespace OpBase.Lib

open List

open Function (update update_of_ne)

variable {α β : Type}

/-- A cell that holds a pointer to a node: `first` of a head or `next` of a node. -/
inductive Cell (α β : Type) where
  | first (b : β)
  | next (x : α)
deriving DecidableEq

/-- What every cell holds, and the back pointer of every node. -/
structure Hlist (α β : Type) where
  cell : Cell α β → Option α
  pprev : α → Cell α β

/-- The list held in cell `l` is `xs`. -/
def Seg (H : Hlist α β) : Cell α β → List α → Prop
  | l, [] => H.cell l = none
  | l, x :: xs => H.cell l = some x ∧ H.pprev x = l ∧ Seg H (.next x) xs

variable {H : Hlist α β} {x : α} {ys : List α}

theorem Seg.cell_eq {l : Cell α β} : ∀ {xs : List α}, Seg H l xs → H.cell l = xs.head?
  | [], h => h
  | _ :: _, h => h.1

/-- A segment survives changes outside its cells. -/
theorem Seg.frame {H H' : Hlist α β} : ∀ {xs : List α} {l : Cell α β}, Seg H l xs →
    H'.cell l = H.cell l → (∀ x ∈ xs, H'.cell (.next x) = H.cell (.next x) ∧
      H'.pprev x = H.pprev x) → Seg H' l xs
  | [], _, h, hl, _ => hl.trans h
  | x :: xs, _, h, hl, hsame => by
    obtain ⟨hcell, hback, hrest⟩ := h
    refine ⟨hl.trans hcell, (hsame x mem_cons_self).2.trans hback, ?_⟩
    exact hrest.frame (hsame x mem_cons_self).1 fun y hy => hsame y (mem_cons_of_mem _ hy)

theorem Seg.tail : ∀ {xs : List α} {l : Cell α β},
    Seg H l (xs ++ x :: ys) → Seg H (.next x) ys
  | [], _, h => h.2.2
  | _ :: _, _, h => Seg.tail h.2.2

theorem Seg.pprev_cases : ∀ {xs : List α} {l : Cell α β},
    Seg H l (xs ++ x :: ys) → H.pprev x = l ∨ ∃ z ∈ xs, H.pprev x = .next z
  | [], _, h => Or.inl h.2.1
  | z :: xs, _, h => by
    rcases Seg.pprev_cases h.2.2 with hz | ⟨w, hw, hz⟩
    · exact Or.inr ⟨z, mem_cons_self, hz⟩
    · exact Or.inr ⟨w, mem_cons_of_mem _ hw, hz⟩

/-- Walking a list from its cell, with a bound on the steps: the first node that
passes the test, or `none` inside when the end is reached. -/
def Hlist.scan (H : Hlist α β) (test : α → Bool) : Nat → Cell α β → Option (Option α)
  | 0, _ => none
  | fuel + 1, l =>
    match H.cell l with
    | none => some none
    | some x => if test x then some (some x) else H.scan test fuel (.next x)

/-- The scan finds the first node that passes the test, given fuel for the segment. -/
theorem Seg.scan {test : α → Bool} : ∀ {xs : List α} {l : Cell α β} {fuel : Nat},
    Seg H l xs → xs.length < fuel → H.scan test fuel l = some (xs.find? test)
  | [], l, fuel + 1, h, _ => by
    unfold Hlist.scan
    rw [h.cell_eq]
    rfl
  | x :: xs, l, fuel + 1, h, hlt => by
    unfold Hlist.scan
    rw [h.1]
    have hrec : H.scan test fuel (.next x) = some (xs.find? test) :=
      h.2.2.scan (Nat.lt_of_succ_lt_succ hlt)
    simp only [find?_cons, hrec]
    cases test x with
    | false => rfl
    | true => rfl

/-! ## Edits -/

variable [DecidableEq α] [DecidableEq β] {b : β}

namespace Hlist

/-- Put `x` in front of bucket `b`. -/
def add (H : Hlist α β) (b : β) (x : α) : Hlist α β :=
  let first := H.cell (.first b)
  let H := { H with cell := update H.cell (.next x) first }
  let H := match first with
    | none => H
    | some y => { H with pprev := update H.pprev y (.next x) }
  let H := { H with cell := update H.cell (.first b) (some x) }
  { H with pprev := update H.pprev x (.first b) }

/-- Unlink `x` from the cell that holds it. -/
def del (H : Hlist α β) (x : α) : Hlist α β :=
  let next := H.cell (.next x)
  let pprev := H.pprev x
  let H := { H with cell := update H.cell pprev next }
  match next with
  | none => H
  | some y => { H with pprev := update H.pprev y pprev }

section

variable (H : Hlist α β)

theorem add_cell (b : β) (x : α) : (H.add b x).cell
      = update (update H.cell (.next x) (H.cell (.first b))) (.first b) (some x) := by
  unfold add
  cases H.cell (.first b) <;> rfl

theorem add_pprev_self (b : β) (x : α) : (H.add b x).pprev x = .first b := by
  unfold add
  cases H.cell (.first b) <;> simp

theorem add_pprev_first {y : α} (hy : H.cell (.first b) = some y) (hne : y ≠ x) :
    (H.add b x).pprev y = .next x := by
  unfold add
  simp [hy, update, hne]

theorem add_pprev_of_ne {z : α} (hz : H.cell (.first b) ≠ some z) (hne : z ≠ x) :
    (H.add b x).pprev z = H.pprev z := by
  unfold add
  cases hy : H.cell (.first b) with
  | none => simp [update, hne]
  | some y =>
    have : z ≠ y := by rintro rfl; exact hz hy
    simp [update, hne, this]

theorem del_cell (x : α) :
    (H.del x).cell = update H.cell (H.pprev x) (H.cell (.next x)) := by
  unfold del
  cases H.cell (.next x) <;> rfl

theorem del_pprev_next {y : α} (hy : H.cell (.next x) = some y) :
    (H.del x).pprev y = H.pprev x := by
  unfold del
  simp [hy]

theorem del_pprev_of_ne {z : α} (hz : H.cell (.next x) ≠ some z) :
    (H.del x).pprev z = H.pprev z := by
  unfold del
  cases hy : H.cell (.next x) with
  | none => rfl
  | some y =>
    have : z ≠ y := by rintro rfl; exact hz hy
    simp [update, this]

end

end Hlist

/-- Adding puts the node in front of its bucket. -/
theorem Seg.add {xs : List α} (h : Seg H (.first b) xs) (hnd : xs.Nodup) (hx : x ∉ xs) :
    Seg (H.add b x) (.first b) (x :: xs) := by
  refine ⟨by simp [Hlist.add_cell], H.add_pprev_self b x, ?_⟩
  have hnext : (H.add b x).cell (.next x) = H.cell (.first b) := by simp [Hlist.add_cell]
  cases xs with
  | nil => exact hnext.trans h
  | cons y ys =>
    obtain ⟨hcell, -, hrest⟩ := h
    obtain ⟨hy, -⟩ := nodup_cons.mp hnd
    have hyx : y ≠ x := fun heq => hx (heq ▸ mem_cons_self)
    refine ⟨hnext.trans hcell, H.add_pprev_first hcell hyx, hrest.frame ?_ ?_⟩
    · simp [Hlist.add_cell, hyx]
    · intro z hz
      have hzx : z ≠ x := fun heq => hx (heq ▸ mem_cons_of_mem _ hz)
      have hzy : H.cell (.first b) ≠ some z := by
        rw [hcell]
        rintro heq
        exact hy (Option.some.inj heq ▸ hz)
      exact ⟨by simp [Hlist.add_cell, hzx], H.add_pprev_of_ne hzy hzx⟩

/-- Adding to a bucket leaves the other ones alone. -/
theorem Seg.add_frame {b' : β} {xs : List α} (hb : Seg H (.first b) xs) (h : Seg H (.first b') ys)
    (hne : b' ≠ b) (hx : x ∉ ys) (hdisj : ∀ z ∈ ys, z ∉ xs) : Seg (H.add b x) (.first b') ys := by
  refine h.frame (by simp [Hlist.add_cell, hne]) ?_
  intro z hz
  have hzx : z ≠ x := fun heq => hx (heq ▸ hz)
  refine ⟨by simp [Hlist.add_cell, hzx], H.add_pprev_of_ne ?_ hzx⟩
  rw [hb.cell_eq]
  intro heq
  exact hdisj z hz (mem_of_mem_head? heq)

/-- Deleting takes the node out of its segment, by its back pointer alone. -/
theorem Seg.del : ∀ {xs : List α} {l : Cell α β},
    Seg H l (xs ++ x :: ys) → (xs ++ x :: ys).Nodup → (∀ z ∈ xs ++ x :: ys, l ≠ .next z) →
    Seg (H.del x) l (xs ++ ys)
  | [], l, h, hnd, hl => by
    obtain ⟨-, hback, hrest⟩ := h
    obtain ⟨hx, hnd'⟩ := nodup_cons.mp hnd
    -- the cell in front points behind `x` now
    have hcell : (H.del x).cell l = H.cell (.next x) := by simp [Hlist.del_cell, hback]
    cases ys with
    | nil => exact hcell.trans hrest
    | cons y ys =>
      obtain ⟨hnext, -, hrest⟩ := hrest
      obtain ⟨hy, -⟩ := nodup_cons.mp hnd'
      refine ⟨hcell.trans hnext, (H.del_pprev_next hnext).trans hback, hrest.frame ?_ ?_⟩
      · rw [Hlist.del_cell, hback, update_of_ne (hl y (by simp)).symm]
      · intro z hz
        refine ⟨?_, H.del_pprev_of_ne ?_⟩
        · rw [Hlist.del_cell, hback, update_of_ne (hl z (by simp [hz])).symm]
        · rw [hnext]
          intro heq
          exact hy (Option.some.inj heq ▸ hz)
  | c :: xs, l, h, hnd, hl => by
    obtain ⟨hcell, hback, hrest⟩ := h
    obtain ⟨hc, hnd'⟩ := nodup_cons.mp hnd
    have hxl : H.pprev x ≠ l := by
      rcases hrest.pprev_cases with h | ⟨z, hz, h⟩
      · rw [h]; exact (hl c (by simp)).symm
      · rw [h]; exact (hl z (by simp [hz])).symm
    have hnext : H.cell (.next x) ≠ some c := by
      rw [hrest.tail.cell_eq]
      intro heq
      exact hc (by simp [mem_of_mem_head? heq])
    refine ⟨?_, (H.del_pprev_of_ne hnext).trans hback, hrest.del hnd' ?_⟩
    · rw [Hlist.del_cell, update_of_ne hxl.symm]
      exact hcell
    · intro z hz heq
      cases heq
      exact hc hz

/-- Deleting from a bucket leaves the other ones alone. -/
theorem Seg.del_frame {b' : β} {xs : List α} (hb : Seg H (.first b) xs) (hx : x ∈ xs)
    (h : Seg H (.first b') ys) (hne : b' ≠ b) (hdisj : ∀ z ∈ ys, z ∉ xs) :
    Seg (H.del x) (.first b') ys := by
  obtain ⟨xs₁, xs₂, rfl⟩ := append_of_mem hx
  have hnext : ∀ z ∈ ys, H.cell (.next x) ≠ some z := by
    intro z hz heq
    rw [hb.tail.cell_eq] at heq
    exact hdisj z hz (by simp [mem_of_mem_head? heq])
  have hcell : ∀ l, (l = .first b' ∨ ∃ z ∈ ys, l = .next z) → l ≠ H.pprev x := by
    rintro l hl rfl
    rcases hb.pprev_cases with h | ⟨w, hw, h⟩
    · rcases hl with hl | ⟨z, -, hl⟩
      · rw [h] at hl; cases hl; exact hne rfl
      · rw [h] at hl; cases hl
    · rcases hl with hl | ⟨z, hz, hl⟩
      · rw [h] at hl; cases hl
      · rw [h] at hl
        cases hl
        exact hdisj w hz (by simp [hw])
  refine h.frame ?_ fun z hz => ⟨?_, H.del_pprev_of_ne (hnext z hz)⟩
  · rw [Hlist.del_cell, update_of_ne (hcell _ (Or.inl rfl))]
  · rw [Hlist.del_cell, update_of_ne (hcell _ (Or.inr ⟨z, hz, rfl⟩))]

end OpBase.Lib
