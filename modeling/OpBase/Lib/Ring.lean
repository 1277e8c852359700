import Mathlib

/-!
# Intrusive circular lists

A heap of nodes with a `prev` and a `next` field each, and the two edits that
such lists know: `add` a node behind a head and `del` a node from wherever it
is. `Ring L h xs` says that the nodes `xs` hang in a circle on the head `h`.

> `Ring.add`: the added node comes first.
>
> `Ring.del`: the deleted node is gone, the rest keeps its order.
>
> `Ring.del_self`: deleting a node that points to itself touches no ring.
-/

namespace OpBase.Lib

open List

open Function (update update_of_ne)

variable {α : Type}

/-- The link fields of every node. -/
structure Links (α : Type) where
  prev : α → α
  next : α → α

/-- `a` and `b` are neighbours. -/
def Joined (L : Links α) (a b : α) : Prop := L.next a = b ∧ L.prev b = a

/-- From `a` through `xs` to `b`, neighbour by neighbour. -/
def Path (L : Links α) : α → List α → α → Prop
  | a, [], b => Joined L a b
  | a, x :: xs, b => Joined L a x ∧ Path L x xs b

variable {L : Links α}

theorem path_append : ∀ {xs ys : List α} {a y b : α},
    Path L a (xs ++ y :: ys) b ↔ Path L a xs y ∧ Path L y ys b
  | [], _, _, _, _ => Iff.rfl
  | _ :: xs, _, _, _, _ => by
    show _ ∧ Path L _ (xs ++ _ :: _) _ ↔ (_ ∧ _) ∧ _
    rw [path_append, and_assoc]

/-- A path reads `next` of all its nodes but the last, `prev` of all but the first. -/
theorem Path.frame {L L' : Links α} : ∀ {xs : List α} {a b : α}, Path L a xs b →
    (∀ x ∈ a :: xs, L'.next x = L.next x) → (∀ x ∈ xs ++ [b], L'.prev x = L.prev x) →
    Path L' a xs b
  | [], a, b, h, hnext, hprev =>
    ⟨(hnext a (by simp)).trans h.1, (hprev b (by simp)).trans h.2⟩
  | x :: xs, a, b, h, hnext, hprev => by
    refine ⟨⟨(hnext a (by simp)).trans h.1.1, (hprev x (by simp)).trans h.1.2⟩, ?_⟩
    exact Path.frame h.2 (fun y hy => hnext y (mem_cons_of_mem _ hy))
      fun y hy => hprev y (mem_cons_of_mem _ hy)

theorem Path.prev_mem : ∀ {xs : List α} {a b : α}, Path L a xs b → L.prev b ∈ a :: xs
  | [], a, _, h => by rw [h.2]; exact mem_singleton_self a
  | _ :: _, _, _, h => mem_cons_of_mem _ (Path.prev_mem h.2)

variable {xs : List α} {h : α}

theorem Path.next_mem {a b : α} (h : Path L a xs b) : L.next a ∈ xs ++ [b] := by
  cases xs with
  | nil => rw [h.1]; exact mem_singleton_self b
  | cons x xs => rw [h.1.1]; exact mem_cons_self

theorem Path.ne_next {a b : α} (h : Path L a xs b)
    (hnd : (a :: xs).Nodup) (hb : b ≠ a) : a ≠ L.next a := by
  intro heq
  have hmem := h.next_mem
  rw [← heq, mem_append, mem_singleton] at hmem
  rcases hmem with hmem | rfl
  · exact (nodup_cons.mp hnd).1 hmem
  · exact hb rfl

/-- The nodes `xs`, all different, in a circle on the head `h`. -/
structure Ring (L : Links α) (h : α) (xs : List α) : Prop where
  path : Path L h xs h
  nodup : (h :: xs).Nodup

theorem Ring.frame {L L' : Links α} (hr : Ring L h xs)
    (hsame : ∀ x ∈ h :: xs, L'.next x = L.next x ∧ L'.prev x = L.prev x) : Ring L' h xs := by
  refine ⟨hr.path.frame (fun x hx => (hsame x hx).1) fun x hx => (hsame x ?_).2, hr.nodup⟩
  rw [mem_append, mem_singleton] at hx
  rw [mem_cons]
  exact hx.symm

theorem Ring.next_head (hr : Ring L h xs) : L.next h = xs.headD h := by
  cases xs with
  | nil => exact hr.path.1
  | cons x xs => exact hr.path.1.1

theorem Ring.prev_head (hr : Ring L h xs) : L.prev h = xs.getLastD h := by
  rcases eq_nil_or_concat xs with rfl | ⟨ys, y, rfl⟩
  · exact hr.path.2
  · rw [concat_eq_append, getLastD_concat]
    have hpath := hr.path
    rw [concat_eq_append, path_append] at hpath
    exact hpath.2.2

theorem Ring.next_at {x : α} {xs ys : List α} (hr : Ring L h (xs ++ x :: ys)) :
    L.next x = ys.headD h := by
  have hpath := (path_append.mp hr.path).2
  cases ys with
  | nil => exact hpath.1
  | cons y ys => exact hpath.1.1

/-! ## Backwards -/

/-- The links of the other direction. -/
def Links.reverse (L : Links α) : Links α := ⟨L.next, L.prev⟩

theorem Path.reverse : ∀ {xs : List α} {a b : α}, Path L a xs b → Path L.reverse b xs.reverse a
  | [], _, _, h => ⟨h.2, h.1⟩
  | x :: xs, _, _, h => by
    rw [reverse_cons, path_append]
    exact ⟨Path.reverse h.2, h.1.2, h.1.1⟩

theorem Ring.reverse (hr : Ring L h xs) : Ring L.reverse h xs.reverse where
  path := hr.path.reverse
  nodup := by
    have hnd := nodup_cons.mp hr.nodup
    exact nodup_cons.mpr ⟨fun hx => hnd.1 (mem_reverse.mp hx),
      (reverse_perm xs).nodup_iff.mpr hnd.2⟩

/-! ## Edits -/

variable [DecidableEq α]

namespace Links

/-- A node made to point to itself. -/
def init (L : Links α) (x : α) : Links α := ⟨update L.prev x x, update L.next x x⟩

/-- Insert `x` right behind `head`. -/
def add (L : Links α) (x head : α) : Links α :=
  let L := { L with prev := update L.prev (L.next head) x }
  let L := { L with next := update L.next x (L.next head) }
  let L := { L with prev := update L.prev x head }
  { L with next := update L.next head x }

/-- Unlink `x` from its neighbours; its own fields stay. -/
def del (L : Links α) (x : α) : Links α :=
  let L := { L with prev := update L.prev (L.next x) (L.prev x) }
  { L with next := update L.next (L.prev x) (L.next x) }

end Links

theorem Links.del_eq {x : α} (hx : x ≠ L.next x) :
    L.del x = ⟨update L.prev (L.next x) (L.prev x), update L.next (L.prev x) (L.next x)⟩ := by
  simp [Links.del, update_of_ne hx]

/-- Unlinking `x` joins the path before it to the path behind it. -/
theorem Path.del {x b : α} {ys : List α} : ∀ {xs : List α} {a : α},
    Path L a xs x → Path L x ys b → (a :: xs ++ x :: ys).Nodup → b ∉ xs ++ x :: ys →
    Path (L.del x) a (xs ++ ys) b
  | [], a, hax, hxb, hnd, hb => by
    rw [Links.del_eq (hxb.ne_next (nodup_append.mp hnd).2.1 fun h => hb (by simp [h])), hax.2]
    cases ys with
    | nil => exact ⟨by simp [hxb.1], by simp [hxb.1]⟩
    | cons y ys =>
      obtain ⟨⟨hnext, -⟩, hpath⟩ := hxb
      rw [hnext]
      refine ⟨⟨by simp, by simp⟩, hpath.frame ?_ ?_⟩
      · intro z hz
        have : z ≠ a := by
          rintro rfl
          exact (nodup_cons.mp hnd).1 (by simp [mem_cons.mp hz])
        exact update_of_ne this _ _
      · intro z hz
        have : z ≠ y := by
          rintro rfl
          simp only [mem_append, mem_singleton] at hz
          rcases hz with hz | rfl
          · simp [hz] at hnd
          · simp at hb
        exact update_of_ne this _ _
  | c :: xs, a, hax, hxb, hnd, hb => by
    obtain ⟨hac, hcx⟩ := hax
    have hnd' : (c :: xs ++ x :: ys).Nodup := (nodup_cons.mp hnd).2
    have ha : a ∉ c :: xs ++ x :: ys := (nodup_cons.mp hnd).1
    refine ⟨?_, hcx.del hxb hnd' fun h => hb (mem_cons_of_mem _ h)⟩
    -- the neighbours of `x` lie further on, so `a` and `c` stay joined
    have hp : L.prev x ∈ c :: xs := hcx.prev_mem
    have hn : L.next x ∈ ys ++ [b] := hxb.next_mem
    have hcn : c ≠ L.next x := by
      intro h
      rw [← h, mem_append, mem_singleton] at hn
      rcases hn with hn | rfl
      · exact (nodup_cons.mp hnd').1 (by simp [hn])
      · simp at hb
    have hap : a ≠ L.prev x := by
      intro h
      rw [← h] at hp
      exact ha (mem_append_left _ hp)
    rw [Links.del_eq (hxb.ne_next (nodup_append.mp hnd').2.1 fun h => hb (by simp [h]))]
    exact ⟨(update_of_ne hap _ _).trans hac.1, (update_of_ne hcn _ _).trans hac.2⟩

/-- A node is linked in behind the head. -/
theorem Ring.add {x : α} (hr : Ring L h xs) (hx : x ∉ h :: xs) :
    Ring (L.add x h) h (x :: xs) := by
  obtain ⟨hxh, hxs⟩ := not_or.mp (mem_cons.not.mp hx)
  refine ⟨?_, ?_⟩
  · have hn : x ≠ L.next h := by
      intro hn
      have := hr.path.next_mem
      rw [← hn, mem_append, mem_singleton] at this
      exact this.elim hxs hxh
    have hadd : L.add x h = ⟨update (update L.prev (L.next h) x) x h,
        update (update L.next x (L.next h)) h x⟩ := by
      simp [Links.add]
    rw [hadd]
    refine ⟨⟨by simp, by simp⟩, ?_⟩
    cases xs with
    | nil =>
      -- alone in the ring, `h` was its own neighbour
      have hnext : L.next h = h := hr.path.1
      exact ⟨by simp [update, hxh, hnext], by simp [update, Ne.symm hxh, hnext]⟩
    | cons y ys =>
      obtain ⟨⟨hnext, -⟩, hpath⟩ := hr.path
      -- `y` was first and comes behind `x` now
      rw [hnext] at hn ⊢
      have hnd := hr.nodup
      simp only [nodup_cons, mem_cons, not_or] at hnd
      refine ⟨⟨by simp [update, hxh], by simp [update, Ne.symm hn]⟩, hpath.frame ?_ ?_⟩
      · intro z hz
        have hzx : z ≠ x := by rintro rfl; exact hxs hz
        have hzh : z ≠ h := by
          rintro rfl
          exact (mem_cons.mp hz).elim hnd.1.1 hnd.1.2
        simp [update, hzx, hzh]
      · intro z hz
        rw [mem_append, mem_singleton] at hz
        have hzx : z ≠ x := by
          rintro rfl
          rcases hz with hz | rfl
          · exact hxs (mem_cons_of_mem _ hz)
          · exact hxh rfl
        have hzy : z ≠ y := by
          rintro rfl
          rcases hz with hz | rfl
          · exact hnd.2.1 hz
          · exact hnd.1.1 rfl
        simp [update, hzx, hzy]
  · have hnd := hr.nodup
    simp only [nodup_cons, mem_cons, not_or] at hnd ⊢
    exact ⟨⟨Ne.symm hxh, hnd.1⟩, hxs, hnd.2⟩

/-- A node is taken out by its own two links. -/
theorem Ring.del {x : α} {xs ys : List α} (hr : Ring L h (xs ++ x :: ys)) :
    Ring (L.del x) h (xs ++ ys) := by
  have hpath := path_append.mp hr.path
  refine ⟨hpath.1.del hpath.2 hr.nodup (nodup_cons.mp hr.nodup).1, ?_⟩
  exact hr.nodup.sublist (by simp)

/-- A node that is linked to itself only is not in the ring, which deleting it leaves alone. -/
theorem Ring.del_self {x : α} (hr : Ring L h xs) (hprev : L.prev x = x) (hnext : L.next x = x) :
    Ring (L.del x) h xs := by
  have hdel : L.del x = L := by
    unfold Links.del
    simp [hprev, hnext]
    have hp : update L.prev x x = L.prev := by rw [← hprev]; simp [hprev]
    have hn : update L.next x x = L.next := by rw [← hnext]; simp [hnext]
    rw [hp, hn]
  rw [hdel]
  exact hr

end OpBase.Lib
