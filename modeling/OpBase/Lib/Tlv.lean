import OpBase.Lib.Halting
import OpBase.Lib.Memory

/-!
# Walking a type-length-value stream

Entries one behind the other in memory, each with a header that has its type and the
length of its body. `walk` visits them with an offset that wraps around at `M`, as a
counter of fixed width does; on a stream that lies to it, it may never come to an
end, so it takes fuel.

> `walk_entries`: on a stream that is made of entries, and shorter than `M`, the walk
> visits each entry once and stops behind the last.
>
> `walk_ends_iff`: on any stream, it stops if and only if it does not come to an offset
> twice with the same state, as far as that decides which entries are accepted.
-/

namespace OpBase.Lib

inductive TlvField
  | type
  | len
  deriving DecidableEq

/-- The header of an entry; the body lies behind it. -/
abbrev TlvHead := Packed TlvField fun _ => 4

section Walk

variable (H : TlvHead) {σ ε : Type} (step : σ → Nat → Nat → Nat → Except ε σ)

theorem TlvHead.size_pos : 0 < H.size := by
  have := H.inside .type
  omega

/-- Visit the entries from `off` on while there is room for a header. The visitor is
given the type, the length and the address of the entry. -/
def walk (M : Nat) (m : Mem) (base total : Nat) : Nat → Nat → σ → Option (Except ε σ)
  | 0, _, _ => none
  | fuel + 1, off, s =>
    if off + H.size ≤ total then
      let len := H.get m (base + off) .len
      match step s (H.get m (base + off) .type) len (base + off) with
      | .error e => some (.error e)
      | .ok s' => walk M m base total fuel ((off + H.size + len) % M) s'
    else some (.ok s)

/-- The entries in memory from `a` on, each a type and a length. -/
def Entries (m : Mem) : Nat → List (Nat × Nat) → Prop
  | _, [] => True
  | a, (ty, len) :: es =>
    (H.get m a .type = ty ∧ H.get m a .len = len) ∧ Entries m (a + H.size + len) es

def entriesSize : List (Nat × Nat) → Nat
  | [] => 0
  | (_, len) :: es => H.size + len + entriesSize es

/-- The bytes of the bodies of the entries whose type is one of `P`. -/
def InBodies (P : Nat → Prop) : Nat → List (Nat × Nat) → Nat → Prop
  | _, [], _ => False
  | a, (ty, len) :: es, x =>
    (P ty ∧ a + H.size ≤ x ∧ x < a + H.size + len) ∨ InBodies P (a + H.size + len) es x

/-- The visitor at each entry in turn. -/
def visit : Nat → List (Nat × Nat) → σ → Except ε σ
  | _, [], s => .ok s
  | a, (ty, len) :: es, s =>
    match step s ty len a with
    | .error e => .error e
    | .ok s' => visit (a + H.size + len) es s'

variable {H} {step} {m : Mem} {base : Nat}

/-- One entry that the step takes. -/
theorem walk_ok {M t n k : Nat} {s s' : σ} (hroom : k + H.size ≤ t)
    (hstep : step s (H.get m (base + k) .type) (H.get m (base + k) .len) (base + k) = .ok s') :
    walk H step M m base t (n + 1) k s
      = walk H step M m base t n ((k + H.size + H.get m (base + k) .len) % M) s' := by
  rw [walk, if_pos hroom]
  dsimp only
  rw [hstep]

/-- One entry that the step refuses. -/
theorem walk_error {M t n k : Nat} {s : σ} {e : ε} (hroom : k + H.size ≤ t)
    (hstep : step s (H.get m (base + k) .type) (H.get m (base + k) .len) (base + k) = .error e) :
    walk H step M m base t (n + 1) k s = some (.error e) := by
  rw [walk, if_pos hroom]
  dsimp only
  rw [hstep]

/-- The walk over entries that fill their block visits them in order. -/
theorem walk_entries {M total : Nat} :
    ∀ {es : List (Nat × Nat)} {fuel off : Nat} {s : σ}, Entries H m (base + off) es →
      off + entriesSize H es = total → total < M → es.length < fuel →
      walk H step M m base total fuel off s = some (visit H step (base + off) es s)
  | [], fuel, off, s, _, hsize, _, hfuel => by
    obtain ⟨fuel, rfl⟩ : ∃ f, fuel = f + 1 := ⟨fuel - 1, by omega⟩
    have := TlvHead.size_pos H
    rw [entriesSize] at hsize
    rw [walk, if_neg (by omega), visit]
  | (ty, len) :: es, fuel, off, s, h, hsize, hM, hfuel => by
    obtain ⟨fuel, rfl⟩ : ∃ f, fuel = f + 1 := ⟨fuel - 1, by omega⟩
    obtain ⟨⟨hty, hlen⟩, hrest⟩ := h
    rw [entriesSize] at hsize
    rw [List.length_cons] at hfuel
    have hroom : off + H.size ≤ total := by omega
    rw [visit]
    cases hstep : step s ty len (base + off) with
    | error e =>
      rw [← hty, ← hlen] at hstep
      exact walk_error hroom hstep
    | ok s' =>
      -- below the limit the offset does not wrap
      have hoff : (off + H.size + len) % M = off + H.size + len := Nat.mod_eq_of_lt (by omega)
      have haddr : base + off + H.size + len = base + (off + H.size + len) := by omega
      rw [haddr] at hrest
      rw [← hty, ← hlen] at hstep
      rw [walk_ok hroom hstep, hlen, hoff]
      dsimp only
      rw [haddr]
      exact walk_entries hrest (by omega) hM (by omega)

/-! ## Entries one behind the other -/

theorem entries_append : ∀ {es es' : List (Nat × Nat)} {a : Nat},
    Entries H m a (es ++ es') ↔ Entries H m a es ∧ Entries H m (a + entriesSize H es) es'
  | [], es', a => by simp [Entries, entriesSize]
  | (ty, len) :: es, es', a => by
    have haddr : a + H.size + len + entriesSize H es = a + (H.size + len + entriesSize H es) := by
      omega
    rw [List.cons_append, Entries, Entries, entries_append, entriesSize, haddr, and_assoc,
      and_assoc, and_assoc]

theorem entriesSize_append : ∀ es es' : List (Nat × Nat),
    entriesSize H (es ++ es') = entriesSize H es + entriesSize H es'
  | [], es' => by rw [List.nil_append, entriesSize, Nat.zero_add]
  | (ty, len) :: es, es' => by
    rw [List.cons_append, entriesSize, entriesSize, entriesSize_append es es']
    omega

theorem length_le_entriesSize : ∀ es : List (Nat × Nat), es.length ≤ entriesSize H es
  | [] => Nat.le_refl 0
  | (ty, len) :: es => by
    have := TlvHead.size_pos H
    have := length_le_entriesSize es
    rw [List.length_cons, entriesSize]
    omega

theorem InBodies.head_le {P : Nat → Prop} : ∀ {es : List (Nat × Nat)} {a x : Nat},
    InBodies H P a es x → a + H.size ≤ x
  | [], _, _, h => h.elim
  | (ty, len) :: es, a, x, h => by
    rcases h with ⟨-, h, -⟩ | h
    · exact h
    · have := InBodies.head_le h
      omega

/-- Changes in the bodies leave the entries where they are. -/
theorem Entries.frame {P : Nat → Prop} {m' : Mem} : ∀ {es : List (Nat × Nat)} {a : Nat},
    Entries H m a es → (∀ x, a ≤ x → ¬ InBodies H P a es x → m' x = m x) → Entries H m' a es
  | [], _, _, _ => trivial
  | (ty, len) :: es, a, ⟨⟨hty, hlen⟩, hrest⟩, hkeep => by
    have hhead : ∀ x, a ≤ x → x < a + H.size → m' x = m x := by
      intro x hx hx'
      refine hkeep x hx fun hin => ?_
      have := InBodies.head_le hin
      omega
    have hget : ∀ f, H.get m' a f = H.get m a f := by
      intro f
      have := H.inside f
      exact H.get_frame fun x hx hx' => hhead x (by omega) (by omega)
    refine ⟨⟨(hget .type).trans hty, (hget .len).trans hlen⟩, ?_⟩
    refine hrest.frame (P := P) fun x hx hout => ?_
    refine hkeep x (by omega) fun hin => ?_
    rcases hin with ⟨-, -, hlt⟩ | hin
    · omega
    · exact hout hin

/-- The same from the start of the block, with fuel for every byte of it. -/
theorem walk_visits {M total : Nat} {es : List (Nat × Nat)} {s : σ} (h : Entries H m base es)
    (hsize : entriesSize H es = total) (hM : total < M) :
    walk H step M m base total (total + 1) 0 s = some (visit H step base es s) := by
  have := length_le_entriesSize (H := H) es
  rw [← Nat.add_zero base] at h
  rw [walk_entries h (by omega) hM (by omega), Nat.add_zero]

end Walk

/-! ## Whether it stops -/

section Ends

variable {H : TlvHead} {σ ε κ : Type} {step : σ → Nat → Nat → Nat → Except ε σ}

/-- The walk, with as much of the visitor's state as decides what is accepted. -/
def advance (H : TlvHead) (accept : κ → Nat → Nat → Nat → Option κ) (M : Nat) (m : Mem)
    (base total : Nat) (c : Nat × κ) : Option (Nat × κ) :=
  if c.1 + H.size ≤ total then
    (accept c.2 (H.get m (base + c.1) .type) (H.get m (base + c.1) .len) (base + c.1)).map
      fun k => ((c.1 + H.size + H.get m (base + c.1) .len) % M, k)
  else none

/-- `accept` tells which entries the visitor accepts, and what it has then. -/
def Decides (step : σ → Nat → Nat → Nat → Except ε σ) (part : σ → κ)
    (accept : κ → Nat → Nat → Nat → Option κ) : Prop :=
  ∀ s type len a, accept (part s) type len a = (step s type len a).toOption.map part

variable {part : σ → κ} {accept : κ → Nat → Nat → Nat → Option κ} {M total base : Nat} {m : Mem}

theorem walk_eq_none_iff (hdec : Decides step part accept) : ∀ (fuel off : Nat) (s : σ),
    walk H step M m base total fuel off s = none ↔
      trace (advance H accept M m base total) (off, part s) fuel ≠ none
  | 0, _, _ => ⟨fun _ => Option.some_ne_none _, fun _ => rfl⟩
  | fuel + 1, off, s => by
    rw [walk, trace, advance]
    by_cases hroom : off + H.size ≤ total
    · rw [if_pos hroom, if_pos hroom]
      dsimp only
      rw [hdec]
      cases hstep : step s (H.get m (base + off) .type) (H.get m (base + off) .len)
          (base + off) with
      | error e => exact ⟨fun h => absurd h (by simp), fun h => absurd rfl h⟩
      | ok s' => exact walk_eq_none_iff hdec fuel _ s'
    · rw [if_neg hroom, if_neg hroom]
      exact ⟨fun h => absurd h (by simp), fun h => absurd rfl h⟩

theorem finite_advance [Finite κ] (hM : 0 < M) (c : Nat × κ) :
    {d | Relation.ReflTransGen (Steps (advance H accept M m base total)) c d}.Finite := by
  have hfin : ({c} ∪ ({i | i < M}) ×ˢ (Set.univ : Set κ)).Finite :=
    (Set.finite_singleton c).union ((Set.finite_lt_nat M).prod Set.finite_univ)
  refine hfin.subset fun d hd => ?_
  rcases Relation.ReflTransGen.cases_tail hd with rfl | ⟨e, -, he⟩
  · exact Or.inl rfl
  · right
    unfold Steps advance at he
    split at he
    · obtain ⟨k, -, rfl⟩ := Option.map_eq_some_iff.mp he
      exact ⟨Nat.mod_lt _ hM, trivial⟩
    · exact absurd he (by simp)

/-- The walk ends just when no offset comes again with the same part of the state. -/
theorem walk_ends_iff [Finite κ] (hdec : Decides step part accept) (hM : 0 < M) (off : Nat)
    (s : σ) : (∃ fuel, (walk H step M m base total fuel off s).isSome = true) ↔
      ¬ Circles (advance H accept M m base total) (off, part s) := by
  rw [← halts_iff (finite_advance hM _)]
  refine exists_congr fun fuel => ?_
  rw [Option.isSome_iff_ne_none, ne_eq, walk_eq_none_iff hdec, not_not]

/-- There is an entry that the visitor does not accept. -/
def Refused (H : TlvHead) (accept : κ → Nat → Nat → Nat → Option κ) (m : Mem) (base total : Nat)
    (c : Nat × κ) : Prop :=
  c.1 + H.size ≤ total ∧
    accept c.2 (H.get m (base + c.1) .type) (H.get m (base + c.1) .len) (base + c.1) = none

theorem walk_refused (hdec : Decides step part accept) {c : Nat × κ} {off : Nat} {s : σ}
    (hc : c = (off, part s)) (href : Refused H accept m base total c) :
    ∃ e, walk H step M m base total 1 off s = some (.error e) := by
  subst hc
  obtain ⟨hroom, hnone⟩ := href
  rw [hdec] at hnone
  cases hstep : step s (H.get m (base + off) .type) (H.get m (base + off) .len) (base + off) with
  | error e => exact ⟨e, walk_error hroom hstep⟩
  | ok s' =>
    dsimp only at hnone
    rw [hstep] at hnone
    exact absurd hnone (by simp [Except.toOption])

/-- The walk ends in an error just when it comes to an entry that is refused. -/
theorem walk_error_iff (hdec : Decides step part accept) (off : Nat) (s : σ) :
    (∃ fuel e, walk H step M m base total fuel off s = some (.error e)) ↔
      ∃ c, Relation.ReflTransGen (Steps (advance H accept M m base total)) (off, part s) c ∧
        Refused H accept m base total c := by
  constructor
  · rintro ⟨fuel, e, h⟩
    induction fuel generalizing off s with
    | zero => exact absurd h (by simp [walk])
    | succ fuel ih =>
      rw [walk] at h
      split at h
      next hroom =>
        dsimp only at h
        have hd := hdec s (H.get m (base + off) .type) (H.get m (base + off) .len) (base + off)
        cases hstep : step s (H.get m (base + off) .type) (H.get m (base + off) .len)
            (base + off) with
        | error e' =>
          rw [hstep] at hd
          exact ⟨_, Relation.ReflTransGen.refl, hroom, hd⟩
        | ok s' =>
          rw [hstep] at h hd
          obtain ⟨c, hc, href⟩ := ih _ s' h
          refine ⟨c, hc.head ?_, href⟩
          -- the step goes on, so there is an edge
          unfold Steps advance
          rw [if_pos hroom, hd]
          rfl
      next => exact absurd h (by simp)
  · rintro ⟨c, hc, href⟩
    obtain ⟨c₀, hc₀⟩ : ∃ c₀, c₀ = (off, part s) := ⟨_, rfl⟩
    rw [← hc₀] at hc
    induction hc using Relation.ReflTransGen.head_induction_on generalizing off s with
    | refl => exact ⟨1, walk_refused hdec hc₀ href⟩
    | @head a d had _ ih =>
      subst hc₀
      unfold Steps advance at had
      split at had
      next hroom =>
        -- the edge is the step that the walk takes
        rw [hdec] at had
        cases hstep : step s (H.get m (base + off) .type) (H.get m (base + off) .len)
            (base + off) with
        | error e =>
          dsimp only at had
          rw [hstep] at had
          exact absurd had (by simp [Except.toOption])
        | ok s' =>
          dsimp only at had
          rw [hstep] at had
          obtain ⟨fuel, e, hfuel⟩ := ih _ s' (Option.some.inj had).symm
          exact ⟨fuel + 1, e, (walk_ok hroom hstep).trans hfuel⟩
      next => exact absurd had (by simp)

end Ends

end OpBase.Lib
