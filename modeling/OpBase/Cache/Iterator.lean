import OpBase.Cache.ContainerRefines

/-!
# The iterators of the container

`OpCacheContainerIterator` of `include/nnopbase/opdev/op_cache_container.h`: a pointer, the
sentinel of the recency list, and a direction. Its copy constructor is written out and copies
the pointer only, where the assignment, which the compiler supplies, copies all three. C++17
makes no copy of what `begin`, `rbegin`, `find`, `end` and `rend` return, but `insert` hands its
iterator to `std::make_pair`, which does.

> `iterator_visits_iff`: an iterator visits what is left of the entries in order and is then
> equal to the end, exactly if it does not come from `insert` and was not copied before its end.
-/

namespace OpBase.Cache

open List OpBase.Lib

variable {K V : Type} {T : Traits K V}

/-! ## The class -/

/-- A pointer to a node of the recency list: null, the sentinel, or an entry. -/
abbrev Pointer := Option (Option Nat)

structure Iterator where
  ptr : Pointer
  sentinel : Pointer
  reverse : Bool
deriving DecidableEq

namespace Iterator

/-- The copy constructor; the other members get their default values. -/
def copy (it : Iterator) : Iterator := ⟨it.ptr, none, false⟩

/-- `operator==` -/
def equals (it it' : Iterator) : Bool := it.ptr == it'.ptr

/-- `operator++`. Refused for the null pointer, whose links cannot be read. -/
def next (L : Links (Option Nat)) (it : Iterator) : Option Iterator :=
  it.ptr.map fun node =>
    let ptr := if it.reverse then L.prev node else L.next node
    { it with ptr := if some ptr = it.sentinel then none else some ptr }

end Iterator

namespace Container

/-- `iterator(value, lru_.Sentinel())` -/
def iteratorAt (p : Nat) : Iterator := ⟨some (some p), some none, false⟩

/-- `end()`, and `rend()` too. -/
def endIterator : Iterator := ⟨none, some none, false⟩

def beginIterator (c : Container V) : Iterator :=
  if c.entryNum = 0 then endIterator else ⟨some (c.lru.next none), some none, false⟩

def rbeginIterator (c : Container V) : Iterator :=
  if c.entryNum = 0 then endIterator else ⟨some (c.lru.prev none), some none, true⟩

def findIterator (c : Container V) (T : Traits K V) (key : K) : Option (Iterator × Container V) :=
  (c.find T key).map fun (found, c) =>
    (match found with
      | some p => iteratorAt p
      | none => endIterator, c)

/-- `std::make_pair` copies the iterator. -/
def insertIterator (c : Container V) (T : Traits K V) (v : V) : Option (Iterator × Container V) :=
  (c.insert T v).map fun ((p, _), c) => ((iteratorAt p).copy, c)

end Container

/-! ## Where iterators come from -/

inductive Source (T : Traits K V) where
  | begin
  | rbegin
  | find (key : K)
  | insert (v : V)

namespace Source

/-- The iterator, and the container after the call. -/
def get (c : Container V) : Source T → Option (Iterator × Container V)
  | .begin => some (c.beginIterator, c)
  | .rbegin => some (c.rbeginIterator, c)
  | .find key => c.findIterator T key
  | .insert v => c.insertIterator T v

/-- What the call does to the container. -/
def ops : Source T → List (Op T)
  | .begin => []
  | .rbegin => []
  | .find key => [.find key]
  | .insert v => [.insert v]

/-- The entries to visit, from those in recency order after the call: from the one with the
key on for `find` and `insert`. -/
def order {α : Type} (key : α → K) (es : List α) : Source T → List α
  | .begin => es
  | .rbegin => es.reverse
  | .find k => es.dropWhile fun e => !T.equal k (key e)
  | .insert v => es.dropWhile fun e => !T.equal (T.key v) (key e)

/-- The iterator is made where it is wanted. -/
def Elided : Source T → Prop
  | .insert _ => False
  | _ => True

end Source

/-- What is done with an iterator: it is the copy that is gone on with, or it is moved on. -/
inductive Use where
  | copy
  | incr
deriving DecidableEq

def Use.apply (L : Links (Option Nat)) (it : Iterator) : Use → Option Iterator
  | .copy => some it.copy
  | .incr => it.next L

/-- With `n` entries ahead, no copy is made before they are all passed. -/
def CopiedAtEnd : Nat → List Use → Prop
  | _, [] => True
  | n, .copy :: uses => n = 0 ∧ CopiedAtEnd n uses
  | n, .incr :: uses => CopiedAtEnd (n - 1) uses

/-- `++` takes the iterator from value to value through the list, and then to the end. -/
def Container.Visits (c : Container V) : Iterator → List V → Prop
  | it, [] => it.equals endIterator
  | it, v :: vs => (∃ p, it.ptr = some (some p) ∧ c.value p = v) ∧
      ∃ it', it.next c.lru = some it' ∧ c.Visits it' vs

/-! ## Iterators that have kept everything -/

/-- The links in the direction of an iterator. -/
def Iterator.links (it : Iterator) (L : Links (Option Nat)) : Links (Option Nat) :=
  if it.reverse then L.reverse else L

theorem Iterator.next_eq {L : Links (Option Nat)} {it : Iterator} {node : Option Nat}
    (h : it.ptr = some node) : it.next L =
      some { it with
        ptr := if some ((it.links L).next node) = it.sentinel then none
          else some ((it.links L).next node) } := by
  unfold Iterator.next Iterator.links
  rw [h]
  cases it.reverse <;> rfl

/-- The iterator is where `rest`, the end of `order`, begins, and knows its way. At the end it
need not. -/
structure Follows (L : Links (Option Nat)) (order rest : List Nat) (it : Iterator) : Prop where
  suffix : rest <:+ order
  ptr : it.ptr = rest.head?.map some
  way : rest ≠ [] → it.sentinel = some none ∧ Ring (it.links L) none (order.map some)

namespace Follows

variable {L : Links (Option Nat)} {order rest : List Nat} {it : Iterator} {p : Nat}

theorem next (h : Follows L order (p :: rest) it) :
    ∃ it', it.next L = some it' ∧ Follows L order rest it' := by
  obtain ⟨hsent, hring⟩ := h.way (cons_ne_nil _ _)
  obtain ⟨pre, rfl⟩ := h.suffix
  have hat := hring
  rw [map_append, map_cons] at hat
  rw [Iterator.next_eq h.ptr, hat.next_at, hsent]
  refine ⟨_, rfl, ⟨⟨pre ++ [p], by rw [append_assoc]; rfl⟩, ?_, fun _ => ⟨rfl, hring⟩⟩⟩
  cases rest with
  | nil => rfl
  | cons q rest => rfl

theorem copy_nil (h : Follows L order [] it) : Follows L order [] it.copy where
  suffix := h.suffix
  ptr := h.ptr
  way hne := absurd rfl hne

end Follows

theorem Follows.visits {c : Container V} {order : List Nat} : ∀ {rest : List Nat} {it : Iterator},
    Follows c.lru order rest it → c.Visits it (rest.map c.value)
  | [], it, h => by
    show (it.ptr == none) = true
    rw [h.ptr]
    rfl
  | p :: rest, it, h => by
    obtain ⟨it', hnext, hrest⟩ := h.next
    exact ⟨⟨p, h.ptr, rfl⟩, it', hnext, hrest.visits⟩

/-! ## Iterators that have lost the sentinel -/

/-- Without a sentinel the pointer is never set to null. -/
structure Lost (it : Iterator) : Prop where
  sentinel : it.sentinel = none
  ptr : it.ptr ≠ none

theorem Lost.next {L : Links (Option Nat)} {it it' : Iterator} (h : Lost it)
    (hnext : it.next L = some it') : Lost it' := by
  obtain ⟨node, hnode⟩ := Option.ne_none_iff_exists'.mp h.ptr
  rw [Iterator.next_eq hnode, h.sentinel] at hnext
  cases hnext
  exact ⟨rfl, Option.some_ne_none _⟩

theorem Lost.copy {it : Iterator} (h : it.ptr ≠ none) : Lost it.copy := ⟨rfl, h⟩

theorem Lost.not_visits {c : Container V} : ∀ {vs : List V} {it : Iterator}, Lost it →
    ¬ c.Visits it vs
  | [], it, h, hv => h.ptr (beq_iff_eq.mp hv)
  | _ :: _, it, h, hv => by
    obtain ⟨-, it', hnext, hv⟩ := hv
    exact (h.next hnext).not_visits hv

theorem Lost.apply {L : Links (Option Nat)} (it : Iterator) (u : Use) (it' : Iterator)
    (h : Lost it) (hu : u.apply L it = some it') : Lost it' := by
  cases u with
  | copy => exact Option.some.inj hu ▸ Lost.copy h.ptr
  | incr => exact h.next hu

/-! ## Uses of an iterator -/

/-- By induction on the entries left: the iterator visits them just when its copies are made at the
end. -/
theorem Follows.visits_iff {c : Container V} {order : List Nat} : ∀ {uses : List Use}
    {rest : List Nat} {it it' : Iterator}, Follows c.lru order rest it →
    run (Use.apply c.lru) it uses = some it' →
      (c.Visits it' ((rest.map c.value).drop (uses.count .incr)) ↔ CopiedAtEnd rest.length uses)
  | [], rest, it, it', h, hrun => by
    cases hrun
    exact iff_of_true h.visits trivial
  | .copy :: uses, [], it, it', h, hrun => by
    have hrec := h.copy_nil.visits_iff hrun
    rw [count_cons_of_ne (by decide)]
    exact hrec.trans (and_iff_right rfl).symm
  | .copy :: uses, p :: rest, it, it', h, hrun => by
    have hptr : it.ptr ≠ none := by
      rw [h.ptr]
      exact Option.some_ne_none _
    -- a copy that is not at the end has lost its place
    have hlost := run_invariant Lost.apply uses (Lost.copy hptr) hrun
    exact iff_of_false hlost.not_visits fun hend => Nat.succ_ne_zero _ hend.1
  | .incr :: uses, [], it, it', h, hrun => by
    obtain ⟨it₁, hnext, -⟩ := run_cons_eq_some.mp hrun
    rw [Use.apply, Iterator.next, h.ptr] at hnext
    cases hnext
  | .incr :: uses, p :: rest, it, it', h, hrun => by
    obtain ⟨it₁, hnext, hrun⟩ := run_cons_eq_some.mp hrun
    obtain ⟨it₂, hnext', hfollows⟩ := h.next
    have heq : it₁ = it₂ := Option.some.inj (hnext.symm.trans hnext')
    subst heq
    rw [count_cons_self]
    exact hfollows.visits_iff hrun

/-! ## The iterators of a container -/

section Sources

variable {c c' : Container V} {ids : List Nat} {it : Iterator}

theorem Source.order_map (src : Source T) (f : Nat → V) (ids : List Nat) :
    src.order T.key (ids.map f) = (src.order (fun p => T.key (f p)) ids).map f := by
  cases src with
  | begin => rfl
  | rbegin => exact map_reverse.symm
  | find _ | insert _ => exact dropWhile_map

theorem follows_end (L : Links (Option Nat)) (order : List Nat) :
    Follows L order [] Container.endIterator where
  suffix := nil_suffix
  ptr := rfl
  way hne := absurd rfl hne

theorem follows_front {p : Nat} (h : Represents T c (p :: ids)) :
    Follows c.lru (p :: ids) (p :: ids) (Container.iteratorAt p) where
  suffix := suffix_rfl
  ptr := rfl
  way _ := ⟨rfl, h.ring⟩

theorem begin_follows (h : Represents T c ids) : Follows c.lru ids ids c.beginIterator := by
  have hnext := h.ring.next_head
  unfold Container.beginIterator
  rw [h.size]
  cases ids with
  | nil => exact follows_end _ _
  | cons p ids =>
    rw [hnext]
    exact follows_front h

theorem rbegin_follows (h : Represents T c ids) :
    Follows c.lru ids.reverse ids.reverse c.rbeginIterator := by
  have hring := h.ring.reverse
  rw [← map_reverse] at hring
  have hprev : c.lru.prev none = (ids.reverse.map some).headD none := hring.next_head
  unfold Container.rbeginIterator
  rw [h.size, ← length_reverse, hprev]
  generalize ids.reverse = back at hring
  cases back with
  | nil => exact follows_end _ _
  | cons p back => exact ⟨suffix_rfl, rfl, fun _ => ⟨rfl, hring⟩⟩

/-- What a source gives: an iterator that follows its order, or, from `insert`, one that has
lost the sentinel at once. -/
theorem Source.spec (h : Represents T c ids) {src : Source T} (hget : src.get c = some (it, c')) :
    ∃ ids', Represents T c' ids' ∧
      run Lru.step (ids.map c.value) src.ops = some (ids'.map c'.value) ∧
      ((src.Elided ∧ ∃ order,
          Follows c'.lru order (src.order (fun p => T.key (c'.value p)) ids') it) ∨
        ¬ src.Elided ∧ Lost it) := by
  cases src with
  | begin =>
    cases hget
    exact ⟨ids, h, rfl, .inl ⟨trivial, _, begin_follows h⟩⟩
  | rbegin =>
    cases hget
    exact ⟨ids, h, rfl, .inl ⟨trivial, _, rbegin_follows h⟩⟩
  | find k =>
    simp only [Source.get, Container.findIterator, Container.find] at hget
    simp only [Source.ops, run, Lru.step]
    rcases lookup_cases h k with ⟨hlook, hmiss, hnone⟩ | ⟨p, xs, ys, rfl, hp, -, hlook, hhit, hwo⟩
    · -- a miss: the iterator that passes over every entry is the end
      rw [hlook] at hget
      cases hget
      refine ⟨ids, h, by rw [hmiss]; rfl, .inl ⟨trivial, [], ?_⟩⟩
      have hpassed : ids.dropWhile (fun q => !T.equal k (T.key (c.value q))) = [] := by
        refine dropWhile_eq_nil_iff.mpr fun q hq => ?_
        simpa using hnone q hq
      show Follows c.lru [] (ids.dropWhile _) Container.endIterator
      rw [hpassed]
      exact follows_end _ _
    · -- a hit: the entry stands in front now
      rw [hlook] at hget
      cases hget
      refine ⟨_, h.active, by rw [hhit, hwo]; rfl, .inl ⟨trivial, p :: (xs ++ ys), ?_⟩⟩
      have hfound : (p :: (xs ++ ys)).dropWhile (fun q => !T.equal k (T.key (c.value q))) =
          p :: (xs ++ ys) := dropWhile_cons_of_neg (by simp [hp])
      show Follows (c.active p).lru _ ((p :: (xs ++ ys)).dropWhile fun q =>
        !T.equal k (T.key (c.value q))) (Container.iteratorAt p)
      rw [hfound]
      exact follows_front h.active
  | insert v =>
    simp only [Source.get, Container.insertIterator, Container.insert] at hget
    simp only [Source.ops, run, Lru.step]
    rcases lookup_cases h (T.key v) with
      ⟨hlook, hmiss, hnone⟩ | ⟨p, xs, ys, rfl, -, -, hlook, hhit, hwo⟩
    · rw [hlook] at hget
      cases hget
      refine ⟨_, h.addEntry (T.equal_refl _) hnone, ?_,
        .inr ⟨id, Lost.copy (Option.some_ne_none _)⟩⟩
      rw [hmiss]
      exact congrArg some (addEntry_values h _ v).symm
    · rw [hlook] at hget
      cases hget
      exact ⟨_, h.active, by rw [hhit, hwo]; rfl, .inr ⟨id, Lost.copy (Option.some_ne_none _)⟩⟩

end Sources

/-! ## Reachable containers -/

section Reachable

variable [Inhabited V] {c c' : Container V} {es : List V}

/-- Each operation that is carried out does what the list's does. -/
theorem refines_step {op : Op T} (h : Refines T c es) (hstep : c.step op = some c') :
    ∃ es', Lru.step es op = some es' ∧ Refines T c' es' := by
  cases hop : Lru.step es op with
  | some es' =>
    obtain ⟨c'', hstep', hc''⟩ := step_refines h hop
    have heq : c' = c'' := Option.some.inj (hstep.symm.trans hstep')
    exact ⟨es', rfl, heq ▸ hc''⟩
  | none =>
    -- Only `erase` of a key without an entry is refused, and the container refuses it too.
    obtain ⟨ids, hrep, rfl⟩ := h
    cases op with
    | find k =>
      simp only [Lru.step] at hop
      split at hop <;> cases hop
    | insert v =>
      simp only [Lru.step] at hop
      split at hop <;> cases hop
    | assign k v _ => cases hop
    | erase k =>
      simp only [Container.step, Lru.step] at hop hstep
      have hscan := hrep.scan_eq k
      have hget : Lru.get T (ids.map c.value) k = _ := get_map k
      cases hfind : ids.find? fun p => T.equal k (T.key (c.value p)) with
      | none =>
        rw [hscan, hfind] at hstep
        cases hstep
      | some p =>
        rw [hget, hfind] at hop
        cases hop

theorem refines_run {ops : List (Op T)} (h : Refines T c es)
    (hrun : run Container.step c ops = some c') :
    ∃ es', run Lru.step es ops = some es' ∧ Refines T c' es' := by
  have hsim : ∀ (es : List V) (c : Container V) (op : Op T) (c' : Container V), Refines T c es →
      c.step op = some c' → ∃ es', Lru.step es op = some es' ∧ Refines T c' es' :=
    fun _ _ _ _ hR hstep => refines_step hR hstep
  exact run_simulates hsim ops h hrun

/-- From any container that operations lead to: the entries are visited in the order that the
same operations give the abstract list. -/
theorem iterator_visits_iff {capacity : Nat} {c₀ : Container V} (ops : List (Op T))
    (src : Source T) (uses : List Use) {it₀ it : Iterator}
    (hinit : Container.init capacity = some c₀) (hrun : run Container.step c₀ ops = some c)
    (hget : src.get c = some (it₀, c')) (huse : run (Use.apply c'.lru) it₀ uses = some it) :
    ∃ es, run Lru.step [] (ops ++ src.ops) = some es ∧
      (c'.Visits it ((src.order T.key es).drop (uses.count .incr)) ↔
        src.Elided ∧ CopiedAtEnd (src.order T.key es).length uses) := by
  obtain ⟨es, hops, ids, hrep, rfl⟩ := refines_run (init_refines hinit) hrun
  obtain ⟨ids', -, hsrc, hit⟩ := Source.spec hrep hget
  refine ⟨ids'.map c'.value, by rw [run_append, hops]; exact hsrc, ?_⟩
  rw [src.order_map, length_map]
  rcases hit with ⟨helided, order, hfollows⟩ | ⟨helided, hlost⟩
  · rw [hfollows.visits_iff huse]
    exact (and_iff_right helided).symm
  · have hlost := run_invariant Lost.apply uses hlost huse
    exact iff_of_false hlost.not_visits fun h => helided h.1

/-- Two entries from the back, the first of them passed. -/
theorem iterator_visits_back : ∃ (c₀ c : Container (Nat × Nat)) (it₀ it : Iterator),
    Container.init 10 = some c₀ ∧
    run Container.step c₀ ([.insert (1, 10), .insert (3, 30)] : List (Op pairTraits)) = some c ∧
    Source.get c (.rbegin : Source pairTraits) = some (it₀, c) ∧
    run (Use.apply c.lru) it₀ [.incr] = some it ∧ c.Visits it [(3, 30)] := by
  obtain ⟨c₀, hinit⟩ : ∃ c₀ : Container (Nat × Nat), Container.init 10 = some c₀ := ⟨_, rfl⟩
  obtain rfl := Option.some.inj hinit
  obtain ⟨es, hes, h⟩ := iterator_visits_iff (T := pairTraits)
    [.insert (1, 10), .insert (3, 30)] .rbegin [.incr] hinit rfl rfl rfl
  cases hes
  exact ⟨_, _, _, _, hinit, rfl, rfl, rfl, h.mpr ⟨trivial, trivial⟩⟩

/-- A copy of `begin()` for a single entry does not find the end. -/
theorem copied_iterator_lost : ∃ (c₀ c : Container (Nat × Nat)) (it₀ it : Iterator),
    Container.init 10 = some c₀ ∧
    run Container.step c₀ ([.insert (1, 10)] : List (Op pairTraits)) = some c ∧
    Source.get c (.begin : Source pairTraits) = some (it₀, c) ∧
    run (Use.apply c.lru) it₀ [.copy] = some it ∧ ¬ c.Visits it [(1, 10)] := by
  obtain ⟨c₀, hinit⟩ : ∃ c₀ : Container (Nat × Nat), Container.init 10 = some c₀ := ⟨_, rfl⟩
  obtain rfl := Option.some.inj hinit
  exact ⟨_, _, _, _, hinit, rfl, rfl, rfl, (Lost.copy (Option.some_ne_none _)).not_visits⟩

end Reachable

end OpBase.Cache
