import Mathlib

/-!
# Items in places

A resource manager keeps its items on lists: free lists, caches, the set handed
out. `Placed U content` says that the lists `content p`, one for each place `p`,
hold every item of `U` exactly once and nothing else.

> `Placed.put`: an item that was nowhere is put on a list.
>
> `Placed.remove`: an item is taken off its list.
>
> `Placed.move`: an item goes from one list to another.
>
> `Placed.regroup`: two lists are dealt out anew, some of their items lost.
>
> `Placed.sum_length`: the lengths add up.

`Linked R xs` is the other half of such a list: `R x o` holds of each item and
the item behind it (`none` at the end), as an intrusive link field stores it.
-/

namespace OpBase.Lib

open List

open Function (update update_of_ne update_self)

variable {α ι : Type}

/-- Every item of `U` is on exactly one of the lists, once, and no other item is. -/
structure Placed (U : α → Prop) (content : ι → List α) : Prop where
  nodup : ∀ p, (content p).Nodup
  only : ∀ {p q x}, x ∈ content p → x ∈ content q → p = q
  mem_iff : ∀ x, (∃ p, x ∈ content p) ↔ U x

namespace Placed

variable {U V : α → Prop} {content : ι → List α} {p q : ι} {x : α} {xs : List α}

theorem known (h : Placed U content) (hx : x ∈ content p) : U x :=
  (h.mem_iff x).mp ⟨p, hx⟩

theorem congr (h : Placed U content) (hU : ∀ y, V y ↔ U y) : Placed V content :=
  ⟨h.nodup, h.only, fun y => (h.mem_iff y).trans (hU y).symm⟩

/-- Each item of `U` has one place. -/
theorem existsUnique (h : Placed U content) (hx : U x) : ∃! p, x ∈ content p := by
  obtain ⟨p, hp⟩ := (h.mem_iff x).mpr hx
  exact ⟨p, hp, fun q hq => h.only hq hp⟩

/-- Each item is in one place: the lengths of all places add up to the number of items. -/
theorem sum_length (h : Placed U content) {us : List α} (hus : us.Nodup)
    (hU : ∀ x, U x ↔ x ∈ us) {ps : List ι} (hps : ps.Nodup)
    (hall : ∀ p x, x ∈ content p → p ∈ ps) :
    (ps.map fun p => (content p).length).sum = us.length := by
  have hflat : (ps.flatMap content).Nodup := by
    refine nodup_flatMap.mpr ⟨fun p _ => h.nodup p, ?_⟩
    apply hps.imp
    intro p q hpq x hp hq
    exact hpq (h.only hp hq)
  have hperm : (ps.flatMap content).Perm us := by
    apply (perm_ext_iff_of_nodup hflat hus).mpr
    intro x
    rw [← hU, ← h.mem_iff, mem_flatMap]
    constructor
    · intro hx
      obtain ⟨p, -, hp⟩ := hx
      exact ⟨p, hp⟩
    · intro hx
      obtain ⟨p, hp⟩ := hx
      exact ⟨p, hall p x hp, hp⟩
  rw [← hperm.length_eq, length_flatMap]

variable [DecidableEq ι]

theorem mem_update {ys : List α} {r : ι} {y : α} :
    y ∈ update content p ys r ↔ (r = p ∧ y ∈ ys) ∨ (r ≠ p ∧ y ∈ content r) := by
  by_cases hr : r = p
  · subst hr
    simp
  · simp [hr]

/-- A new item is put in one place. -/
theorem put (h : Placed U content) (hx : ¬ U x) (hxs : xs.Perm (x :: content p)) :
    Placed (fun y => y = x ∨ U y) (update content p xs) := by
  have hnone : ∀ r, x ∉ content r := fun r hr => hx (h.known hr)
  have hmem : ∀ y, y ∈ xs ↔ y = x ∨ y ∈ content p := fun y => by
    rw [hxs.mem_iff, mem_cons]
  have hback : ∀ {r y}, y ∈ update content p xs r → (r = p ∧ y = x) ∨ y ∈ content r := by
    intro r y hy
    rcases mem_update.mp hy with ⟨hr, hnew⟩ | ⟨-, hold⟩
    · subst hr
      rcases (hmem y).mp hnew with heq | hold
      · exact Or.inl ⟨rfl, heq⟩
      · exact Or.inr hold
    · exact Or.inr hold
  constructor
  · intro r
    by_cases hr : r = p
    · subst hr
      rw [update_self, hxs.nodup_iff, nodup_cons]
      exact ⟨hnone r, h.nodup r⟩
    · rw [update_of_ne hr]
      exact h.nodup r
  · intro r t y hy hy'
    -- `x` is in two places only if both are `p`
    rcases hback hy with ⟨hr, hyx⟩ | hy <;> rcases hback hy' with ⟨ht, hyx'⟩ | hy'
    · exact hr.trans ht.symm
    · exact absurd (hyx ▸ hy') (hnone t)
    · exact absurd (hyx' ▸ hy) (hnone r)
    · exact h.only hy hy'
  · intro y
    constructor
    · intro hy
      obtain ⟨r, hr⟩ := hy
      rcases hback hr with ⟨-, hyx⟩ | hy
      · exact Or.inl hyx
      · exact Or.inr (h.known hy)
    · intro hy
      have hfront : y = x ∨ y ∈ content p → ∃ r, y ∈ update content p xs r := fun hy =>
        ⟨p, by rw [update_self]; exact (hmem y).mpr hy⟩
      rcases hy with hy | hy
      · exact hfront (Or.inl hy)
      · obtain ⟨r, hr⟩ := (h.mem_iff y).mpr hy
        by_cases hrp : r = p
        · exact hfront (Or.inr (hrp ▸ hr))
        · exact ⟨r, by rw [update_of_ne hrp]; exact hr⟩

/-- An item is taken out of its place, and of all of them. -/
theorem remove (h : Placed U content) (hxs : (content p).Perm (x :: xs)) :
    Placed (fun y => y ≠ x ∧ U y) (update content p xs) := by
  have hp := hxs.nodup_iff.mp (h.nodup p)
  obtain ⟨hx, hnd⟩ := nodup_cons.mp hp
  have hxp : x ∈ content p := hxs.mem_iff.mpr mem_cons_self
  have hback : ∀ {r y}, y ∈ update content p xs r → y ∈ content r ∧ y ≠ x := by
    intro r y hy
    rcases mem_update.mp hy with ⟨hr, hrest⟩ | ⟨hr, hold⟩
    · subst hr
      exact ⟨hxs.mem_iff.mpr (mem_cons_of_mem _ hrest), fun he => hx (he ▸ hrest)⟩
    · exact ⟨hold, fun he => hr (h.only (he ▸ hold) hxp)⟩
  constructor
  · intro r
    by_cases hr : r = p
    · subst hr
      rw [update_self]
      exact hnd
    · rw [update_of_ne hr]
      exact h.nodup r
  · intro r t y hy hy'
    exact h.only (hback hy).1 (hback hy').1
  · intro y
    constructor
    · intro hy
      obtain ⟨r, hr⟩ := hy
      exact ⟨(hback hr).2, h.known (hback hr).1⟩
    · intro hy
      obtain ⟨r, hr⟩ := (h.mem_iff y).mpr hy.2
      by_cases hrp : r = p
      · subst hrp
        refine ⟨r, ?_⟩
        rw [update_self]
        exact (mem_cons.mp (hxs.mem_iff.mp hr)).resolve_left hy.1
      · exact ⟨r, by rw [update_of_ne hrp]; exact hr⟩

/-- An item goes from one place to another. -/
theorem move {ys : List α} (h : Placed U content) (hpq : p ≠ q)
    (hxs : (content p).Perm (x :: xs)) (hys : ys.Perm (x :: content q)) :
    Placed U (update (update content p xs) q ys) := by
  have hx : U x := h.known (hxs.mem_iff.mpr mem_cons_self)
  have hgone : ¬ (x ≠ x ∧ U x) := fun hne => hne.1 rfl
  have hq : update content p xs q = content q := update_of_ne hpq.symm _ _
  refine ((h.remove hxs).put hgone (hq.symm ▸ hys)).congr fun y => ?_
  by_cases hy : y = x
  · simp [hy, hx]
  · simp [hy]

omit [DecidableEq ι] in
/-- The items of two lists are dealt out anew, and some are lost. -/
theorem regroup {content' : ι → List α} {lost : List α} (h : Placed U content) (hpq : p ≠ q)
    (hrest : ∀ r, r ≠ p → r ≠ q → content' r = content r)
    (hperm : (content' p ++ content' q ++ lost).Perm (content p ++ content q)) :
    Placed (fun y => U y ∧ y ∉ lost) content' := by
  have hnd : (content' p ++ content' q ++ lost).Nodup := by
    rw [hperm.nodup_iff]
    apply List.Nodup.append (h.nodup p) (h.nodup q)
    intro y hp hq
    exact hpq (h.only hp hq)
  obtain ⟨hnd', -, hlost⟩ := nodup_append'.mp hnd
  obtain ⟨hndp, hndq, hdisj⟩ := nodup_append'.mp hnd'
  have hmem : ∀ y, (y ∈ content' p ∨ y ∈ content' q) ∨ y ∈ lost ↔ y ∈ content p ∨ y ∈ content q :=
    fun y => by simpa only [mem_append] using hperm.mem_iff (a := y)
  -- Off the two lists nothing moves, and what is on them was on them.
  have hback : ∀ {r y}, y ∈ content' r → y ∉ lost ∧
      (y ∈ content r ∧ r ≠ p ∧ r ≠ q ∨ (r = p ∨ r = q) ∧ (y ∈ content p ∨ y ∈ content q)) := by
    intro r y hy
    by_cases hr : r = p ∨ r = q
    · have hy' : y ∈ content' p ∨ y ∈ content' q := by
        rcases hr with hr | hr
        · exact Or.inl (hr ▸ hy)
        · exact Or.inr (hr ▸ hy)
      exact ⟨fun hl => hlost (mem_append.mpr hy') hl,
        Or.inr ⟨hr, (hmem y).mp (Or.inl hy')⟩⟩
    · obtain ⟨hrp, hrq⟩ := not_or.mp hr
      have hold : y ∈ content r := hrest r hrp hrq ▸ hy
      refine ⟨fun hl => ?_, Or.inl ⟨hold, hrp, hrq⟩⟩
      rcases (hmem y).mp (Or.inr hl) with hy' | hy'
      · exact hrp (h.only hold hy')
      · exact hrq (h.only hold hy')
  constructor
  · intro r
    by_cases hr : r = p ∨ r = q
    · rcases hr with hr | hr
      · exact hr ▸ hndp
      · exact hr ▸ hndq
    · obtain ⟨hrp, hrq⟩ := not_or.mp hr
      exact hrest r hrp hrq ▸ h.nodup r
  · intro r t y hy hy'
    rcases (hback hy).2 with ⟨hr, hrp, hrq⟩ | ⟨hr, hr'⟩ <;>
      rcases (hback hy').2 with ⟨ht, htp, htq⟩ | ⟨ht, ht'⟩
    · exact h.only hr ht
    · rcases ht' with ht' | ht'
      · exact absurd (h.only hr ht') hrp
      · exact absurd (h.only hr ht') hrq
    · rcases hr' with hr' | hr'
      · exact absurd (h.only ht hr') htp
      · exact absurd (h.only ht hr') htq
    · rcases hr with hr | hr <;> rcases ht with ht | ht <;> subst hr <;> subst ht
      · rfl
      · exact (hdisj hy hy').elim
      · exact (hdisj hy' hy).elim
      · rfl
  · intro y
    constructor
    · intro hy
      obtain ⟨r, hr⟩ := hy
      obtain ⟨hlost, ⟨hr', -, -⟩ | ⟨-, hr' | hr'⟩⟩ := hback hr
      · exact ⟨h.known hr', hlost⟩
      · exact ⟨h.known hr', hlost⟩
      · exact ⟨h.known hr', hlost⟩
    · intro hy
      obtain ⟨r, hr⟩ := (h.mem_iff y).mpr hy.1
      by_cases hrpq : r = p ∨ r = q
      · have hy' : y ∈ content p ∨ y ∈ content q := by
          rcases hrpq with hrp | hrq
          · exact Or.inl (hrp ▸ hr)
          · exact Or.inr (hrq ▸ hr)
        rcases ((hmem y).mpr hy').resolve_right hy.2 with hp | hq
        · exact ⟨p, hp⟩
        · exact ⟨q, hq⟩
      · obtain ⟨hrp, hrq⟩ := not_or.mp hrpq
        exact ⟨r, hrest r hrp hrq ▸ hr⟩

theorem perm (h : Placed U content) (hxs : xs.Perm (content p)) :
    Placed U (update content p xs) := by
  have hmem : ∀ r y, y ∈ update content p xs r ↔ y ∈ content r := by
    intro r y
    by_cases hr : r = p
    · subst hr
      rw [update_self]
      exact hxs.mem_iff
    · rw [update_of_ne hr]
  constructor
  · intro r
    by_cases hr : r = p
    · subst hr
      rw [update_self, hxs.nodup_iff]
      exact h.nodup r
    · rw [update_of_ne hr]
      exact h.nodup r
  · intro r t y hy hy'
    exact h.only ((hmem r y).mp hy) ((hmem t y).mp hy')
  · intro y
    rw [← h.mem_iff y]
    exact exists_congr fun r => hmem r y

end Placed

/-- Each item is related to the item behind it. -/
def Linked (R : α → Option α → Prop) : List α → Prop
  | [] => True
  | x :: xs => R x xs.head? ∧ Linked R xs

theorem Linked.frame {R S : α → Option α → Prop} : ∀ {xs : List α}, Linked R xs →
    (∀ x ∈ xs, ∀ o, R x o → S x o) → Linked S xs
  | [], _, _ => trivial
  | x :: _, h, hRS => ⟨hRS x mem_cons_self _ h.1,
      h.2.frame fun y hy => hRS y (mem_cons_of_mem x hy)⟩

end OpBase.Lib
