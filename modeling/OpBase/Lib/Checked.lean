import Mathlib

/-!
# Computations that may fail

What a computation in `Except` that came back well has computed: the parts of a sequence
(`bind_eq_ok`), and the elements of a list that were computed one by one (`mapM_eq_ok`).

`Ends` bounds both ways out, the errors that may happen and what holds of the value; it
goes through a sequence part by part (`Ends.bind`).
-/

namespace OpBase.Lib.Checked

open List

variable {ε α β : Type}

variable {f : α → Except ε β} {l : List α} {r : List β}

/-- Peels the first computation off one that succeeds. -/
theorem bind_eq_ok {x : Except ε α} {b : β} : (x >>= f) = .ok b ↔ ∃ a, x = .ok a ∧ f a = .ok b := by
  cases x with
  | error e => exact ⟨(nomatch ·), fun ⟨_, h, _⟩ => (nomatch h)⟩
  | ok a =>
    refine ⟨fun h => ⟨a, rfl, h⟩, ?_⟩
    rintro ⟨_, ⟨⟩, h⟩
    exact h

theorem ok_bind (a : α) (f : α → Except ε β) : (.ok a >>= f) = f a := rfl

theorem bind_ne_error {x : Except ε α} {e : ε} (hx : x ≠ .error e)
    (hf : ∀ a, f a ≠ .error e) : x >>= f ≠ .error e := by
  cases x with
  | error e' => exact fun h => hx (congrArg Except.error (Except.error.inj h))
  | ok a => exact hf a

theorem mapM_eq_ok :
    ∀ {l : List α} {r : List β}, l.mapM f = .ok r ↔ List.Forall₂ (fun a b => f a = .ok b) l r
  | [], r => by
    rw [mapM_nil, forall₂_nil_left_iff]
    exact ⟨fun h => (Except.ok.inj h).symm, fun h => congrArg Except.ok h.symm⟩
  | a :: l, r => by
    rw [mapM_cons, bind_eq_ok, forall₂_cons_left_iff]
    constructor
    · intro ⟨b, hb, h⟩
      obtain ⟨s, hs, ⟨⟩⟩ := bind_eq_ok.mp h
      exact ⟨b, s, hb, mapM_eq_ok.mp hs, rfl⟩
    · rintro ⟨b, s, hb, hs, rfl⟩
      exact ⟨b, hb, bind_eq_ok.mpr ⟨s, mapM_eq_ok.mpr hs, rfl⟩⟩

/-- If each success is that of a plain function, so is a list of them. -/
theorem mapM_eq_map {g : α → β} {p : α → Prop} (hf : ∀ a b, f a = .ok b → p a ∧ b = g a)
    (h : l.mapM f = .ok r) :
    (∀ a ∈ l, p a) ∧ r = l.map g := by
  have h2 := (mapM_eq_ok.mp h).imp hf
  rw [forall₂_and_left] at h2
  refine ⟨h2.1, ?_⟩
  rw [← forall₂_eq_eq_eq, forall₂_map_right_iff]
  exact h2.2.flip

theorem mapM_getElem? (h : l.mapM f = .ok r) {k : ℕ} {b : β} (hb : r[k]? = some b) :
    ∃ a, l[k]? = some a ∧ f a = .ok b := by
  obtain ⟨hlen, hget⟩ := forall₂_iff_get.mp (mapM_eq_ok.mp h)
  obtain ⟨hk, rfl⟩ := List.getElem?_eq_some_iff.mp hb
  have hk' : k < l.length := hlen ▸ hk
  exact ⟨l[k], getElem?_eq_getElem hk', hget k hk' hk⟩

theorem mapM_length (h : l.mapM f = .ok r) : r.length = l.length :=
  (mapM_eq_ok.mp h).length_eq.symm

/-! ## Both ways out -/

/-- The computation fails in an allowed way or comes back with `post`. -/
def Ends (allowed : ε → Prop) (post : α → Prop) : Except ε α → Prop
  | .error e => allowed e
  | .ok a => post a

variable {allowed : ε → Prop} {post post' : α → Prop} {x : Except ε α}

/-- Errors and the postcondition of two computations, one behind the other. -/
theorem Ends.bind {postf : β → Prop} (hx : Ends allowed post x)
    (hf : ∀ a, post a → Ends allowed postf (f a)) : Ends allowed postf (x >>= f) := by
  cases x with
  | error e => exact hx
  | ok a => exact hf a hx

theorem Ends.mono (hx : Ends allowed post x) (h : ∀ a, post a → post' a) :
    Ends allowed post' x := by
  cases x with
  | error e => exact hx
  | ok a => exact h a hx

/-- What every turn keeps holds at the end of the loop. -/
theorem Ends.foldlM {f : α → β → Except ε α} :
    ∀ {l : List β} {a : α}, (∀ b ∈ l, ∀ a, post a → Ends allowed post (f a b)) → post a →
      Ends allowed post (l.foldlM f a)
  | [], _, _, ha => ha
  | b :: l, a, h, ha => by
    rw [foldlM_cons]
    refine (h b mem_cons_self a ha).bind fun a' ha' => ?_
    exact Ends.foldlM (fun b' hb' => h b' (mem_cons_of_mem b hb')) ha'

theorem Ends.of_eq_ok {a : α} (hx : Ends allowed post x) (h : x = .ok a) : post a := by
  rw [h] at hx
  exact hx

theorem Ends.ne_error {e : ε} (hx : Ends allowed post x) (he : ¬ allowed e) : x ≠ .error e := by
  intro h
  rw [h] at hx
  exact he hx

end OpBase.Lib.Checked
