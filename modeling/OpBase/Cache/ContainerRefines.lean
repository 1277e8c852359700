import OpBase.Cache.Container

/-!
# The container refines a map with a recency list

`Represents T c ids` couples the two linked structures: the recency list holds
the entries `ids`, most recent first, and every bucket chain holds exactly the
entries of `ids` whose hash falls into it. Every operation keeps it, and moves
`ids` the way `Lru.step` moves the list of values.

> `container_refines`: after any sequence of operations the container represents
> the list that `Lru.step` gives, and `find`, `size`, `begin` and `rbegin` read
> the finite map and the recency list off it.
>
> `init_getCacheSizeLimit`: whatever the environment sets, the table has a prime number of
> buckets above the limit.
-/

namespace OpBase.Cache

open List

open Function (update update_of_ne update_self)
open OpBase.Lib

variable {K V : Type} {T : Traits K V} {c : Container V} {ids : List Nat} {v : V}

/-- The container holds the entries `ids`, most recently touched first. -/
structure Represents (T : Traits K V) (c : Container V) (ids : List Nat) : Prop where
  ring : Ring c.lru none (ids.map some)
  chain : ∀ b < c.bucketNum, ∃ xs, Seg c.hlist (.first b) xs ∧ xs.Nodup ∧
    ∀ p, p ∈ xs ↔ p ∈ ids ∧ c.bucket T (T.key (c.value p)) = b
  size : c.entryNum = ids.length
  distinct : ids.Pairwise fun p q => ¬ T.equal (T.key (c.value p)) (T.key (c.value q)) = true
  lt : ∀ p ∈ ids, p < c.nextId
  pos : 0 < c.bucketNum

namespace Represents

theorem nodup (h : Represents T c ids) : ids.Nodup := by
  have := (nodup_cons.mp h.ring.nodup).2
  exact List.Nodup.of_map _ this

theorem bucket_lt (h : Represents T c ids) (k : K) : c.bucket T k < c.bucketNum :=
  Nat.mod_lt _ h.pos

theorem bucket_eq {a b : K} (h : T.equal a b) : c.bucket T a = c.bucket T b := by
  unfold Container.bucket
  rw [T.hash_eq a b h]

variable {p : Nat}

theorem eq_of_equal (h : Represents T c ids) {q : Nat} (hp : p ∈ ids) (hq : q ∈ ids)
    (heq : T.equal (T.key (c.value p)) (T.key (c.value q))) : p = q := by
  obtain ⟨i, hi, rfl⟩ := getElem_of_mem hp
  obtain ⟨j, hj, rfl⟩ := getElem_of_mem hq
  rcases Nat.lt_trichotomy i j with hlt | rfl | hgt
  · exact absurd heq (pairwise_iff_getElem.mp h.distinct i j hi hj hlt)
  · rfl
  · exact absurd (T.equal_symm _ _ heq) (pairwise_iff_getElem.mp h.distinct j i hj hi hgt)

/-- The entries with another key than `k`, when `p` is the one with key `k`. -/
theorem filter_eq {xs ys : List Nat} (h : Represents T c (xs ++ p :: ys)) {k : K}
    (hpk : T.equal k (T.key (c.value p))) :
    (xs ++ p :: ys).filter (fun q => !T.equal k (T.key (c.value q))) = xs ++ ys := by
  have hkeep : ∀ q ∈ xs ++ ys, T.equal k (T.key (c.value q)) = false := by
    intro q hq
    rw [← Bool.not_eq_true]
    intro hqk
    have hqi : q ∈ xs ++ p :: ys := by
      rcases mem_append.mp hq with hq | hq <;> simp [hq]
    have heq : q = p := h.eq_of_equal hqi (by simp) (T.equal_trans _ _ _ (T.equal_symm _ _ hqk) hpk)
    have hnd := h.nodup
    rw [nodup_middle, nodup_cons] at hnd
    exact hnd.1 (heq ▸ hq)
  have hall : ∀ zs : List Nat, (∀ q ∈ zs, q ∈ xs ++ ys) →
      zs.filter (fun q => !T.equal k (T.key (c.value q))) = zs := fun zs hzs =>
    filter_eq_self.mpr fun q hq => by rw [hkeep q (hzs q hq)]; rfl
  rw [filter_append, filter_cons, hall xs fun q hq => by simp [hq],
    hall ys fun q hq => by simp [hq], hpk]
  rfl

/-! ## The edits -/

/-- `Active` moves an entry to the front. -/
theorem active {xs ys : List Nat} (h : Represents T c (xs ++ p :: ys)) :
    Represents T (c.active p) (p :: (xs ++ ys)) := by
  have hmem : ∀ q, q ∈ p :: (xs ++ ys) ↔ q ∈ xs ++ p :: ys := fun q => by
    simp only [mem_cons, mem_append]
    exact or_left_comm
  refine ⟨?_, ?_, ?_, ?_, fun q hq => h.lt q ((hmem q).mp hq), h.pos⟩
  · have hring := h.ring
    rw [map_append, map_cons] at hring
    have hnd := hring.nodup
    rw [map_cons, map_append]
    refine hring.del.add ?_
    rw [nodup_cons, nodup_middle, nodup_cons] at hnd
    intro hp
    rcases mem_cons.mp hp with hp | hp
    · cases hp
    · exact hnd.2.1 hp
  · intro b hb
    obtain ⟨chain, hseg, hnd, hin⟩ := h.chain b hb
    exact ⟨chain, hseg, hnd, fun q => by rw [hmem]; exact hin q⟩
  · have := h.size
    simp only [length_append, length_cons] at this ⊢
    show c.entryNum = _
    omega
  · refine h.distinct.perm perm_middle ?_
    intro p q hpq heq
    exact hpq (T.equal_symm _ _ heq)

/-- `erase` takes an entry out of both lists. -/
theorem erase {xs ys : List Nat} (h : Represents T c (xs ++ p :: ys)) :
    Represents T (c.erase p) (xs ++ ys) := by
  have hsub : (xs ++ ys).Sublist (xs ++ p :: ys) := by simp
  have hnd := h.nodup
  rw [nodup_middle, nodup_cons] at hnd
  refine ⟨?_, ?_, ?_, h.distinct.sublist hsub, fun q hq => h.lt q (hsub.subset hq), h.pos⟩
  · have hring := h.ring
    rw [map_append, map_cons] at hring
    rw [map_append]
    exact hring.del
  · obtain ⟨chain, hseg, hcnd, hin⟩ := h.chain _ (h.bucket_lt (T.key (c.value p)))
    have hp : p ∈ chain := (hin p).mpr ⟨by simp, rfl⟩
    have hstay : ∀ q, q ∈ xs ++ ys ↔ q ∈ xs ++ p :: ys ∧ q ≠ p := by
      intro q
      constructor
      · intro hq
        exact ⟨hsub.subset hq, fun heq => hnd.1 (heq ▸ hq)⟩
      · intro ⟨hq, hne⟩
        simp only [mem_append, mem_cons, hne, false_or] at hq
        exact mem_append.mpr hq
    -- Only the bucket of `p` loses an element; every other chain is apart from it.
    intro b hb
    by_cases hbp : b = c.bucket T (T.key (c.value p))
    · obtain ⟨us, vs, rfl⟩ := append_of_mem hp
      refine ⟨us ++ vs, ?_, hcnd.sublist (by simp), ?_⟩
      · rw [hbp]
        exact hseg.del hcnd fun z _ hz => by cases hz
      · intro q
        have hq := hin q
        rw [nodup_middle, nodup_cons] at hcnd
        rw [hstay q]
        constructor
        · intro hquv
          have hne : q ≠ p := fun heq => hcnd.1 (heq ▸ hquv)
          have hqi := hq.mp (by rcases mem_append.mp hquv with h | h <;> simp [h])
          exact ⟨⟨hqi.1, hne⟩, hqi.2.trans hbp.symm⟩
        · intro ⟨⟨hqi, hne⟩, hqb⟩
          have := hq.mpr ⟨hqi, hqb.trans hbp⟩
          simp only [mem_append, mem_cons, hne, false_or] at this
          exact mem_append.mpr this
    · obtain ⟨zs, hzseg, hznd, hzin⟩ := h.chain b hb
      refine ⟨zs, hseg.del_frame hp hzseg hbp ?_, hznd, ?_⟩
      · intro z hz hzc
        exact hbp (((hzin z).mp hz).2.symm.trans ((hin z).mp hzc).2)
      · intro q
        rw [hstay q, hzin q]
        constructor
        · intro ⟨hqi, hqb⟩
          refine ⟨⟨hqi, ?_⟩, hqb⟩
          rintro rfl
          exact hbp hqb.symm
        · intro ⟨⟨hqi, _⟩, hqb⟩
          exact ⟨hqi, hqb⟩
  · have := h.size
    simp only [length_append, length_cons] at this ⊢
    show c.entryNum - 1 = _
    omega

section

variable (h : Represents T c ids)
include h

/-- The scan of a bucket finds the entry with the key, if there is one. -/
theorem scan_eq (k : K) :
    c.scan T k = some (ids.find? fun p => T.equal k (T.key (c.value p))) := by
  obtain ⟨xs, hseg, hnd, hmem⟩ := h.chain _ (h.bucket_lt k)
  have hlen : xs.length < c.nextId + 1 := by
    have hsub : xs ⊆ List.range c.nextId := fun p hp =>
      mem_range.mpr (h.lt p ((hmem p).mp hp).1)
    have := (hnd.subperm hsub).length_le
    rw [length_range] at this
    omega
  unfold Container.scan
  rw [hseg.scan hlen]
  congr 1
  cases hids : ids.find? fun p => T.equal k (T.key (c.value p)) with
  | none =>
    rw [find?_eq_none] at hids ⊢
    intro p hp
    exact hids p ((hmem p).mp hp).1
  | some p =>
    have hp : p ∈ ids := mem_of_find?_eq_some hids
    have hpk : T.equal k (T.key (c.value p)) := by simpa using find?_some hids
    have hpx : p ∈ xs := (hmem p).mpr ⟨hp, (bucket_eq hpk).symm⟩
    obtain ⟨q, hq⟩ := Option.isSome_iff_exists.mp
      (find?_isSome.mpr ⟨p, hpx, hpk⟩ :
        (xs.find? fun p => T.equal k (T.key (c.value p))).isSome)
    have hqk : T.equal k (T.key (c.value q)) := by simpa using find?_some hq
    have hqi : q ∈ ids := ((hmem q).mp (mem_of_find?_eq_some hq)).1
    rw [hq, h.eq_of_equal hqi hp (T.equal_trans _ _ _ (T.equal_symm _ _ hqk) hpk)]

/-- `new value_type` changes nothing for the entries there are. -/
theorem alloc (v : V) : Represents T (c.alloc v).2 ids := by
  have hne : ∀ p ∈ ids, p ≠ c.nextId := fun p hp => Nat.ne_of_lt (h.lt p hp)
  -- the new object is none of those in the list
  have hvalue : ∀ p ∈ ids, (c.alloc v).2.value p = c.value p := fun p hp =>
    update_of_ne (hne p hp) _ _
  refine ⟨?_, ?_, h.size, ?_, fun p hp => Nat.lt_succ_of_lt (h.lt p hp), h.pos⟩
  · refine h.ring.frame ?_
    intro x hx
    have hx' : x ≠ some c.nextId := by
      rintro rfl
      rcases mem_cons.mp hx with hx | hx
      · cases hx
      · obtain ⟨p, hp, heq⟩ := mem_map.mp hx
        exact hne p hp (Option.some.inj heq)
    exact ⟨update_of_ne hx' _ _, update_of_ne hx' _ _⟩
  · intro b hb
    obtain ⟨chain, hseg, hnd, hin⟩ := h.chain b hb
    refine ⟨chain, hseg.frame ?_ ?_, hnd, ?_⟩
    · simp [Container.alloc]
    · intro p hp
      have hpn : (Lib.Cell.next p : Lib.Cell Nat Nat) ≠ .next c.nextId := fun heq =>
        hne p ((hin p).mp hp).1 (Lib.Cell.next.inj heq)
      exact ⟨update_of_ne hpn _ _, rfl⟩
    · intro p
      rw [hin p]
      constructor
      · intro ⟨hp, hb⟩
        rw [hvalue p hp]
        exact ⟨hp, hb⟩
      · intro ⟨hp, hb⟩
        rw [hvalue p hp] at hb
        exact ⟨hp, hb⟩
  · refine h.distinct.imp_of_mem ?_
    intro p q hp hq hpq
    rw [hvalue p hp, hvalue q hq]
    exact hpq

/-- A new entry for a key that has none: it comes first, on the chain of its hash. -/
theorem addEntry {k : K} (hkv : T.equal k (T.key v))
    (hnone : ∀ p ∈ ids, ¬ T.equal k (T.key (c.value p)) = true) :
    Represents T (c.addEntry T k v).2 (c.nextId :: ids) := by
  have halloc := h.alloc v
  have hnew : c.nextId ∉ ids := fun hp => Nat.lt_irrefl _ (h.lt _ hp)
  have hvalue : ∀ p ∈ ids, update c.value c.nextId v p = c.value p := fun p hp =>
    update_of_ne (Nat.ne_of_lt (h.lt p hp)) _ _
  have hself : update c.value c.nextId v c.nextId = v := update_self _ _ _
  refine ⟨?_, ?_, ?_, ?_, ?_, h.pos⟩
  · rw [map_cons]
    refine (halloc.ring.del_self ?_ ?_).add ?_
    · exact update_self _ _ _
    · exact update_self _ _ _
    · intro hx
      rcases mem_cons.mp hx with hx | hx
      · cases hx
      · obtain ⟨p, hp, heq⟩ := mem_map.mp hx
        exact hnew (Option.some.inj heq ▸ hp)
  · intro b hb
    obtain ⟨chain, hseg, hnd, hin⟩ := halloc.chain _ (h.bucket_lt k)
    obtain ⟨zs, hzseg, hznd, hzin⟩ := halloc.chain b hb
    have hnew' : ∀ us : List Nat, (∀ p ∈ us, p ∈ ids) → c.nextId ∉ us := fun us hus hp =>
      hnew (hus _ hp)
    -- The new entry joins the chain of its own bucket, at the front.
    by_cases hbk : b = c.bucket T k
    · refine ⟨c.nextId :: chain, ?_, ?_, ?_⟩
      · rw [hbk]
        exact hseg.add hnd (hnew' _ fun p hp => ((hin p).mp hp).1)
      · exact nodup_cons.mpr ⟨hnew' _ fun p hp => ((hin p).mp hp).1, hnd⟩
      · intro p
        rw [mem_cons, mem_cons, hin p, hbk]
        constructor
        · rintro (rfl | ⟨hp, hb⟩)
          · refine ⟨Or.inl rfl, ?_⟩
            show c.bucket T (T.key (update c.value c.nextId v c.nextId)) = _
            rw [hself]
            exact (bucket_eq hkv).symm
          · exact ⟨Or.inr hp, hb⟩
        · rintro ⟨rfl | hp, hb⟩
          · exact Or.inl rfl
          · exact Or.inr ⟨hp, hb⟩
    · refine ⟨zs, hseg.add_frame hzseg hbk (hnew' _ fun p hp => ((hzin p).mp hp).1) ?_, hznd, ?_⟩
      · intro z hz hzc
        exact hbk (((hzin z).mp hz).2.symm.trans ((hin z).mp hzc).2)
      · intro p
        rw [hzin p, mem_cons]
        constructor
        · intro ⟨hp, hb⟩
          exact ⟨Or.inr hp, hb⟩
        · rintro ⟨rfl | hp, hb⟩
          -- The new entry has the key's bucket, so it is in no other chain.
          · have hb : c.bucket T (T.key (update c.value c.nextId v c.nextId)) = b := hb
            rw [hself] at hb
            exact absurd (hb.symm.trans (bucket_eq hkv).symm) hbk
          · exact ⟨hp, hb⟩
  · show c.entryNum + 1 = (c.nextId :: ids).length
    rw [length_cons, h.size]
  · refine pairwise_cons.mpr ⟨?_, halloc.distinct⟩
    intro q hq
    show ¬ T.equal (T.key (update c.value c.nextId v c.nextId))
      (T.key (update c.value c.nextId v q)) = true
    rw [hself, hvalue q hq]
    exact fun heq => hnone q hq (T.equal_trans _ _ _ hkv heq)
  · intro p hp
    show p < c.nextId + 1
    rcases mem_cons.mp hp with rfl | hp
    · exact Nat.lt_succ_self _
    · exact Nat.lt_succ_of_lt (h.lt p hp)

theorem setValue (hp : p ∈ ids) (hkey : T.equal (T.key (c.value p)) (T.key v)) :
    Represents T { c with value := update c.value p v } ids := by
  have hequal : ∀ q, T.equal (T.key (c.value q)) (T.key (update c.value p v q)) := by
    intro q
    by_cases hq : q = p
    · subst hq; rw [update_self]; exact hkey
    · rw [update_of_ne hq]; exact T.equal_refl _
  refine ⟨h.ring, ?_, h.size, ?_, h.lt, h.pos⟩
  · intro b hb
    obtain ⟨chain, hseg, hnd, hin⟩ := h.chain b hb
    refine ⟨chain, hseg, hnd, ?_⟩
    intro q
    rw [hin q]
    show _ ↔ _ ∧ c.bucket T (T.key (update c.value p v q)) = b
    rw [bucket_eq (hequal q)]
  · refine h.distinct.imp ?_
    intro q r hqr heq
    exact hqr (T.equal_trans _ _ _ (T.equal_trans _ _ _ (hequal q) heq)
      (T.equal_symm _ _ (hequal r)))

end

end Represents

/-! ## The operations -/

/-- The container represents the values `es`, most recently touched first. -/
def Refines (T : Traits K V) (c : Container V) (es : List V) : Prop :=
  ∃ ids, Represents T c ids ∧ ids.map c.value = es

theorem get_map (k : K) : Lru.get T (ids.map c.value) k =
    (ids.find? fun p => T.equal k (T.key (c.value p))).map c.value := by
  unfold Lru.get
  rw [find?_map]
  rfl

theorem without_map (k : K) : Lru.without T (ids.map c.value) k =
    (ids.filter fun p => !T.equal k (T.key (c.value p))).map c.value := by
  unfold Lru.without
  rw [filter_map]
  rfl

/-- A lookup finds nothing, or an entry that it moves to the front as the list does. -/
theorem lookup_cases (h : Represents T c ids) (k : K) :
    (c.lookup T k = some (none, c) ∧ Lru.get T (ids.map c.value) k = none ∧
      ∀ p ∈ ids, ¬ T.equal k (T.key (c.value p)) = true) ∨
    ∃ p xs ys, ids = xs ++ p :: ys ∧ T.equal k (T.key (c.value p)) ∧
      c.scan T k = some (some p) ∧ c.lookup T k = some (some p, c.active p) ∧
      Lru.get T (ids.map c.value) k = some (c.value p) ∧
      Lru.without T (ids.map c.value) k = (xs ++ ys).map c.value := by
  have hscan := h.scan_eq k
  have hget : Lru.get T (ids.map c.value) k = _ := get_map k
  unfold Container.lookup
  cases hfind : ids.find? fun p => T.equal k (T.key (c.value p)) with
  | none =>
    rw [hfind] at hscan hget
    refine Or.inl ⟨by rw [hscan], hget, fun p hp => ?_⟩
    simpa using find?_eq_none.mp hfind p hp
  | some p =>
    rw [hfind] at hscan hget
    have hpk : T.equal k (T.key (c.value p)) := by simpa using find?_some hfind
    obtain ⟨xs, ys, rfl⟩ := append_of_mem (mem_of_find?_eq_some hfind)
    refine Or.inr ⟨p, xs, ys, rfl, hpk, hscan, by rw [hscan], hget, ?_⟩
    rw [without_map, h.filter_eq hpk]

/-- A new entry stands in front. -/
theorem addEntry_values (h : Represents T c ids) (k : K) (v : V) :
    (c.nextId :: ids).map (c.addEntry T k v).2.value = v :: ids.map c.value := by
  show (c.nextId :: ids).map (update c.value c.nextId v) = _
  rw [map_cons, update_self]
  congr 1
  refine map_congr_left fun p hp => ?_
  exact update_of_ne (Nat.ne_of_lt (h.lt p hp)) _ _

theorem addEntry_assign (k : K) (v w : V) :
    { (c.addEntry T k w).2 with value := update (c.addEntry T k w).2.value c.nextId v }
      = (c.addEntry T k v).2 := by
  simp [Container.addEntry, Container.alloc, Container.active, Container.bucket]

theorem lru_distinct (h : Represents T c ids) :
    (ids.map c.value).Pairwise fun v w => ¬ T.equal (T.key v) (T.key w) = true :=
  pairwise_map.mpr h.distinct

variable [Inhabited V] {es : List V} {capacity : Nat}

/-- Every operation the abstract map admits, the container performs alike. -/
theorem step_refines {es' : List V} (h : Refines T c es) {op : Op T}
    (hop : Lru.step es op = some es') : ∃ c', c.step op = some c' ∧ Refines T c' es' := by
  obtain ⟨ids, hrep, rfl⟩ := h
  cases op with
  | find k =>
    simp only [Container.step, Container.find, Lru.step] at hop ⊢
    rcases lookup_cases hrep k with ⟨hlook, hget, -⟩ | ⟨p, xs, ys, rfl, -, -, hlook, hget, hwo⟩
    · rw [hget] at hop
      rw [hlook]
      cases hop
      exact ⟨c, rfl, ids, hrep, rfl⟩
    · rw [hget, hwo] at hop
      rw [hlook]
      cases hop
      exact ⟨c.active p, rfl, _, hrep.active, rfl⟩
  | insert v =>
    simp only [Container.step, Container.insert, Lru.step] at hop ⊢
    rcases lookup_cases hrep (T.key v) with
      ⟨hlook, hget, hnone⟩ | ⟨p, xs, ys, rfl, -, -, hlook, hget, hwo⟩
    · rw [hget] at hop
      rw [hlook]
      cases hop
      refine ⟨_, rfl, _, hrep.addEntry (T.equal_refl _) hnone, ?_⟩
      exact addEntry_values hrep _ v
    · rw [hget, hwo] at hop
      rw [hlook]
      cases hop
      exact ⟨c.active p, rfl, _, hrep.active, rfl⟩
  | assign k v hkv =>
    simp only [Container.step, Container.assign, Container.index, Lru.step] at hop ⊢
    cases hop
    rcases lookup_cases hrep k with ⟨hlook, hget, hnone⟩ | ⟨p, xs, ys, rfl, hpk, -, hlook, -, hwo⟩
    -- A new key: there is nothing to take out of the list first.
    · have hwo : Lru.without T (ids.map c.value) k = ids.map c.value := by
        refine filter_eq_self.mpr fun v hv => ?_
        obtain ⟨p, hp, rfl⟩ := mem_map.mp hv
        simpa using hnone p hp
      rw [hlook, hwo]
      refine ⟨_, rfl, c.nextId :: ids, ?_, ?_⟩
      · show Represents T { (c.addEntry T k default).2 with
          value := update (c.addEntry T k default).2.value c.nextId v } _
        rw [addEntry_assign]
        exact hrep.addEntry hkv hnone
      · rw [← addEntry_values hrep k v, ← addEntry_assign k v default]
        rfl
    · rw [hlook, hwo]
      -- A known key: the entry is moved to the front and its value overwritten in place.
      have hkey : T.equal (T.key (c.value p)) (T.key v) :=
        T.equal_trans _ _ _ (T.equal_symm _ _ hpk) hkv
      refine ⟨_, rfl, _, hrep.active.setValue mem_cons_self hkey, ?_⟩
      have hnd := hrep.active.nodup
      show (p :: (xs ++ ys)).map (update c.value p v) = _
      rw [map_cons, update_self]
      congr 1
      refine map_congr_left fun q hq => update_of_ne ?_ _ _
      rintro rfl
      exact (nodup_cons.mp hnd).1 hq
  | erase k =>
    simp only [Container.step, Lru.step] at hop ⊢
    rcases lookup_cases hrep k with ⟨-, hget, -⟩ | ⟨p, xs, ys, rfl, -, hscan, -, hget, hwo⟩
    · rw [hget] at hop
      cases hop
    · rw [hget, hwo] at hop
      rw [hscan]
      cases hop
      exact ⟨c.erase p, rfl, _, hrep.erase, rfl⟩

/-! ## The finite map -/

section

omit [Inhabited V]

theorem get_congr {k k' : K} (h : T.equal k k') (es : List V) :
    Lru.get T es k = Lru.get T es k' := by
  unfold Lru.get
  congr 1
  funext v
  rw [Bool.eq_iff_iff]
  constructor
  · exact T.equal_trans _ _ _ (T.equal_symm _ _ h)
  · exact T.equal_trans _ _ _ h

theorem get_cons (v : V) (es : List V) (k : K) :
    Lru.get T (v :: es) k = if T.equal k (T.key v) then some v else Lru.get T es k := by
  unfold Lru.get
  rw [find?_cons]
  cases T.equal k (T.key v) <;> rfl

theorem get_without (es : List V) (key k : K) :
    Lru.get T (Lru.without T es key) k = if T.equal k key then none else Lru.get T es k := by
  unfold Lru.get Lru.without
  rw [find?_filter]
  split
  next h =>
    rw [find?_eq_none]
    intro v _ hv
    rw [decide_eq_true_eq] at hv
    have := T.equal_trans _ _ _ (T.equal_symm _ _ h) hv.2
    rw [this] at hv
    exact absurd hv.1 (by decide)
  next h =>
    congr 1
    funext v
    cases hv : T.equal k (T.key v) with
    | false => simp
    | true =>
      have : T.equal key (T.key v) = false := by
        rw [← Bool.not_eq_true]
        exact fun hkey => h (T.equal_trans _ _ _ hv (T.equal_symm _ _ hkey))
      simp [this]

theorem get_some_equal {k : K} (h : Lru.get T es k = some v) :
    T.equal k (T.key v) := by
  simpa using find?_some h

/-- Moving the value of `key` to the front leaves the map as it is. -/
theorem get_touch {key : K} (h : Lru.get T es key = some v) (k : K) :
    Lru.get T (v :: Lru.without T es key) k = Lru.get T es k := by
  rw [get_cons, get_without]
  have hv := get_some_equal h
  by_cases hk : T.equal k key = true
  · rw [if_pos (T.equal_trans _ _ _ hk hv), get_congr hk, h]
  · rw [if_neg fun hkv => hk (T.equal_trans _ _ _ hkv (T.equal_symm _ _ hv)), if_neg hk]

/-- What a key has after an operation depends on what it had only. -/
theorem get_step {es' : List V} {op : Op T} (h : Lru.step es op = some es') :
    Lru.get T es' = Lru.content (Lru.get T es) op := by
  funext k
  cases op with
  | find key =>
    simp only [Lru.step, Lru.content] at h ⊢
    split at h
    next => cases h; rfl
    next v hv => cases h; exact get_touch hv k
  | insert v =>
    simp only [Lru.step, Lru.content] at h ⊢
    split at h
    next hnone =>
      cases h
      rw [get_cons]
      by_cases hk : T.equal k (T.key v) = true
      · rw [if_pos hk, if_pos hk, get_congr hk, hnone]
        rfl
      · rw [if_neg hk, if_neg hk]
    next w hw =>
      cases h
      rw [get_touch hw k]
      by_cases hk : T.equal k (T.key v) = true
      · rw [if_pos hk, get_congr hk, hw]
        rfl
      · rw [if_neg hk]
  | assign key v hkv =>
    simp only [Lru.step, Lru.content] at h ⊢
    cases h
    rw [get_cons, get_without]
    by_cases hk : T.equal k (T.key v) = true
    · rw [if_pos hk, if_pos hk]
    · rw [if_neg hk, if_neg hk, if_neg]
      exact fun hkey => hk (T.equal_trans _ _ _ hkey hkv)
  | erase key =>
    simp only [Lru.step, Lru.content] at h ⊢
    split at h
    next => cases h
    next => cases h; exact get_without es key k

theorem get_run : ∀ (ops : List (Op T)) {es es' : List V}, run Lru.step es ops = some es' →
    Lru.get T es' = ops.foldl Lru.content (Lru.get T es)
  | [], es, es', h => by cases h; rfl
  | op :: ops, es, es', h => by
    obtain ⟨es₁, h₁, hrun⟩ := run_cons_eq_some.mp h
    rw [get_run ops hrun, get_step h₁]
    rfl

end

/-! ## Every run -/

/-- What can be seen of a container that holds the values `es`, most recently
touched first, as the finite map `m`. -/
structure Behaves (T : Traits K V) (c : Container V) (es : List V) (m : K → Option V) : Prop where
  /-- Every entry is once on the recency list and once on the chain of its hash. -/
  linked : Refines T c es
  find : ∀ k, ∃ p c', c.find T k = some (p, c') ∧ p.map c'.value = m k
  insert : ∀ v, ∃ p c', c.insert T v = some ((p, (m (T.key v)).isNone), c')
  size : c.entryNum = es.length
  keys : es.Pairwise fun v w => ¬ T.equal (T.key v) (T.key w) = true
  present : ∀ k, (m k).isSome ↔ ∃ v ∈ es, T.equal k (T.key v) = true
  first : c.begin.map c.value = es.head?
  last : c.rbegin.map c.value = es.getLast?

omit [Inhabited V] in
/-- A container that refines a list behaves as the list does. -/
theorem refines_behaves (h : Refines T c es) : Behaves T c es (Lru.get T es) := by
  obtain ⟨ids, hrep, rfl⟩ := h
  refine ⟨⟨ids, hrep, rfl⟩, ?_, ?_, ?_, lru_distinct hrep, ?_, ?_, ?_⟩
  · intro k
    rcases lookup_cases hrep k with ⟨hlook, hget, -⟩ | ⟨p, xs, ys, -, -, -, hlook, hget, -⟩
    · exact ⟨none, c, hlook, hget.symm⟩
    · exact ⟨some p, c.active p, hlook, hget.symm⟩
  · intro v
    unfold Container.insert
    rcases lookup_cases hrep (T.key v) with
      ⟨hlook, hget, -⟩ | ⟨p, xs, ys, -, -, -, hlook, hget, -⟩
    · rw [hlook, hget]
      exact ⟨_, _, rfl⟩
    · rw [hlook, hget]
      exact ⟨_, _, rfl⟩
  · rw [length_map, hrep.size]
  · intro k
    unfold Lru.get
    rw [find?_isSome]
  · unfold Container.begin
    rw [hrep.ring.next_head, hrep.size]
    cases ids with
    | nil => rfl
    | cons p ids => rfl
  · unfold Container.rbegin
    rw [hrep.ring.prev_head, hrep.size]
    rcases eq_nil_or_concat ids with rfl | ⟨xs, p, rfl⟩
    · rfl
    · simp

/-! ## The table size -/

theorem lowerBound_mem (n : Nat) : lowerBound n ∈ primeList := by
  unfold lowerBound
  cases hfind : primeList.dropLast.find? (n ≤ ·) with
  | none => decide +kernel
  | some p => exact dropLast_subset _ (mem_of_find?_eq_some hfind)

theorem lowerBound_pos (n : Nat) : 0 < lowerBound n := by
  have hall : ∀ p ∈ primeList, 0 < p := by decide +kernel
  exact hall _ (lowerBound_mem n)

theorem lowerBound_le (n : Nat) : lowerBound n ≤ 4294967291 := by
  have hall : ∀ p ∈ primeList, p ≤ 4294967291 := by decide +kernel
  exact hall _ (lowerBound_mem n)

theorem min_le_lowerBound (n : Nat) : min n 4294967291 ≤ lowerBound n := by
  unfold lowerBound
  cases hfind : primeList.dropLast.find? (n ≤ ·) with
  | none => exact Nat.min_le_right _ _
  | some p =>
    have hp : n ≤ p := by simpa using find?_some hfind
    exact Nat.le_trans (Nat.min_le_left _ _) hp

/-- The loop at least doubles `n` in each round, up to twice the last prime. -/
theorem growPast_isSome (h : capacity < 8589934582) : ∀ (fuel n : Nat),
    capacity < n * 2 ^ fuel → (growPast capacity (fuel + 1) n).isSome
  | 0, n, hn => by
    unfold growPast
    rw [if_neg (by omega)]
    rfl
  | fuel + 1, n, hn => by
    unfold growPast
    split
    next hle =>
      refine growPast_isSome h fuel _ ?_
      have hgrow := min_le_lowerBound n
      have hpow : 0 < 2 ^ fuel := Nat.two_pow_pos fuel
      rcases Nat.le_total n 4294967291 with hsmall | hbig
      · rw [Nat.min_eq_left hsmall] at hgrow
        have : n * 2 ^ (fuel + 1) ≤ lowerBound n * 2 * 2 ^ fuel := by
          rw [Nat.pow_succ, Nat.mul_comm (2 ^ fuel) 2, ← Nat.mul_assoc]
          exact Nat.mul_le_mul_right _ (Nat.mul_le_mul_right _ hgrow)
        omega
      · rw [Nat.min_eq_right hbig] at hgrow
        have : 8589934582 * 1 ≤ lowerBound n * 2 * 2 ^ fuel :=
          Nat.mul_le_mul (by omega) hpow
        omega
    next => rfl

theorem growPast_eq_none (h : 8589934582 ≤ capacity) : ∀ (fuel n : Nat),
    n ≤ 8589934582 → growPast capacity fuel n = none
  | 0, _, _ => rfl
  | fuel + 1, n, hn => by
    unfold growPast
    rw [if_pos (by omega)]
    have := lowerBound_le n
    exact growPast_eq_none h fuel _ (by omega)

theorem lowerBound_iterate_le : ∀ rounds : Nat, (lowerBound · * 2)^[rounds] 3 ≤ 8589934582
  | 0 => by decide
  | rounds + 1 => by
    rw [Function.iterate_succ_apply']
    have := lowerBound_le ((lowerBound · * 2)^[rounds] 3)
    omega

/-- Twice the last prime is not passed. -/
theorem lowerBound_iterate_eq {rounds : Nat} (h : 64 ≤ rounds) :
    (lowerBound · * 2)^[rounds] 3 = 8589934582 := by
  have hreached : (lowerBound · * 2)^[64] 3 = 8589934582 := by decide +kernel
  have hstays : lowerBound 8589934582 * 2 = 8589934582 := by decide +kernel
  obtain ⟨more, rfl⟩ := Nat.exists_eq_add_of_le' h
  rw [Function.iterate_add_apply, hreached]
  exact Function.iterate_fixed hstays more

/-- `init` returns for exactly these capacities. For the others no number of rounds is enough:
the search stays at twice the last prime. -/
theorem init_isSome_iff (capacity : Nat) :
    ((Container.init capacity : Option (Container V)).isSome ↔ capacity < 8589934582) ∧
    (8589934582 ≤ capacity → ∀ rounds, growPast capacity rounds 3 = none) ∧
    ∀ rounds, (lowerBound · * 2)^[rounds] 3 ≤ 8589934582 ∧
      (64 ≤ rounds → (lowerBound · * 2)^[rounds] 3 = 8589934582) := by
  refine ⟨?_, fun h rounds => growPast_eq_none h rounds 3 (by decide),
    fun rounds => ⟨lowerBound_iterate_le rounds, lowerBound_iterate_eq⟩⟩
  unfold Container.init initBucketNum
  rw [Option.isSome_map, Option.isSome_map]
  constructor
  · intro h
    by_contra hge
    rw [growPast_eq_none (by omega) 64 3 (by decide)] at h
    cases h
  · intro h
    exact growPast_isSome h 63 3 (by omega)

theorem growPast_mem {m : Nat} : ∀ {fuel n : Nat}, growPast capacity fuel n = some m →
    capacity < m ∧ m ∈ List.iterate (lowerBound · * 2) n fuel
  | 0, _, h => nomatch h
  | fuel + 1, n, h => by
    unfold growPast at h
    rw [List.iterate]
    split at h
    next =>
      have ⟨hlt, hmem⟩ := growPast_mem h
      exact ⟨hlt, mem_cons_of_mem _ hmem⟩
    next hlt =>
      cases h
      exact ⟨by omega, mem_cons_self⟩

theorem growPast_add {m : Nat} (more : Nat) : ∀ {fuel n : Nat},
    growPast capacity fuel n = some m → growPast capacity (fuel + more) n = some m
  | 0, _, h => nomatch h
  | fuel + 1, n, h => by
    rw [Nat.add_right_comm]
    unfold growPast at h ⊢
    split at h
    next hle => rw [if_pos hle, growPast_add more h]
    next hlt => rw [if_neg hlt, h]

/-- What `n` is in the first rounds, and the buckets there would be. -/
theorem lowerBound_iterate : ∀ n ∈ List.iterate (lowerBound · * 2) 3 24,
    n ≤ lowerBound n ∧ (lowerBound n).Prime := by
  have hlist : (List.iterate (lowerBound · * 2) 3 24).map lowerBound =
      [3, 7, 17, 37, 79, 167, 337, 709, 1493, 3209, 6427, 12983, 26267, 53201, 107897, 218971,
        444487, 902483, 1832561, 3721303, 7556579, 15345007, 31160981, 63278561] := by
    decide +kernel
  have hprimes : ∀ p ∈ [3, 7, 17, 37, 79, 167, 337, 709, 1493, 3209, 6427, 12983, 26267, 53201,
      107897, 218971, 444487, 902483, 1832561, 3721303, 7556579, 15345007, 31160981, 63278561],
      Nat.Prime p := by
    norm_num
  have hle : ∀ n ∈ List.iterate (lowerBound · * 2) 3 24, n ≤ lowerBound n := by decide +kernel
  intro n hn
  refine ⟨hle n hn, hprimes _ ?_⟩
  rw [← hlist]
  exact mem_map_of_mem hn

/-- **The table has more buckets than entries.** Whatever `ACLNN_CACHE_LIMIT` is set to, the
search ends with a listed prime above the limit, and every hash falls into one of the buckets. -/
theorem init_getCacheSizeLimit (T : Traits K V) (ut : Bool) (cacheLimit : Option (List Char)) :
    ∃ c : Container V, Container.init (getCacheSizeLimit ut cacheLimit) = some c ∧
      c.bucketNum ∈ primeList ∧ c.bucketNum.Prime ∧
      getCacheSizeLimit ut cacheLimit < c.bucketNum ∧ ∀ key, c.bucket T key < c.bucketNum := by
  have hlimit : getCacheSizeLimit ut cacheLimit ≤ 10000000 := Nat.min_le_left _ _
  generalize getCacheSizeLimit ut cacheLimit = capacity at hlimit ⊢
  obtain ⟨n, hn⟩ := Option.isSome_iff_exists.mp
    (growPast_isSome (by omega : capacity < 8589934582) 23 3 (by omega))
  have ⟨hlt, hmem⟩ := growPast_mem hn
  have ⟨hle, hprime⟩ := lowerBound_iterate n hmem
  unfold Container.init initBucketNum
  rw [growPast_add 40 hn]
  exact ⟨_, rfl, lowerBound_mem n, hprime, Nat.lt_of_lt_of_le hlt hle,
    fun key => Nat.mod_lt _ (lowerBound_pos n)⟩

/-- A new container refines the empty list. -/
theorem init_refines (h : Container.init capacity = some c) : Refines T c [] := by
  unfold Container.init initBucketNum at h
  obtain ⟨bucketNum, hnum, rfl⟩ := Option.map_eq_some_iff.mp h
  obtain ⟨n, -, rfl⟩ := Option.map_eq_some_iff.mp hnum
  refine ⟨[], ⟨⟨⟨rfl, rfl⟩, by simp⟩, ?_, rfl, List.Pairwise.nil, by simp, lowerBound_pos n⟩, rfl⟩
  intro b _
  exact ⟨[], rfl, nodup_nil, by simp⟩

/-- **The container is a finite map with a recency list.** Whatever the lawful
hash and equality, the capacity and the sequence of operations (erasing entries
that are there), the container ends in a state that shows the map the history
leaves and the recency list it leaves. -/
theorem container_refines {c₀ : Container V} (hinit : Container.init capacity = some c₀)
    (ops : List (Op T)) (hops : run Lru.step [] ops = some es) :
    ∃ c, run Container.step c₀ ops = some c ∧
      Behaves T c es (ops.foldl Lru.content fun _ => none) := by
  have hsim : ∀ (c : Container V) (es : List V) (op : Op T) (es' : List V), Refines T c es →
      Lru.step es op = some es' → ∃ c', c.step op = some c' ∧ Refines T c' es' :=
    fun _ _ _ _ hR hstep => step_refines hR hstep
  obtain ⟨c, hrun, hc⟩ := run_simulates hsim ops (init_refines hinit) hops
  refine ⟨c, hrun, ?_⟩
  have hmap := get_run ops hops
  have hb := refines_behaves hc
  rw [hmap] at hb
  exact hb

/-- Pairs with the first component as key, hashed to two values only. -/
def pairTraits : Traits Nat (Nat × Nat) where
  key := (·.1)
  hash := (· % 2)
  equal := (· == ·)
  equal_refl := by simp
  equal_symm := by simp +contextual
  equal_trans := by simp
  hash_eq := by simp +contextual

/-- Colliding keys, a touch, an overwritten value and an erased one. -/
theorem container_refines_pairs : ∃ c₀ c : Container (Nat × Nat), Container.init 10 = some c₀ ∧
    run Container.step c₀ ([.insert (1, 10), .insert (3, 30), .find 1, .insert (5, 50),
      .assign 3 (3, 31) rfl, .erase 5] : List (Op pairTraits)) = some c ∧
    Behaves pairTraits c [(3, 31), (1, 10)]
      (([.insert (1, 10), .insert (3, 30), .find 1, .insert (5, 50), .assign 3 (3, 31) rfl,
        .erase 5] : List (Op pairTraits)).foldl Lru.content fun _ => none) := by
  obtain ⟨c₀, hinit⟩ : ∃ c₀ : Container (Nat × Nat), Container.init 10 = some c₀ := ⟨_, rfl⟩
  obtain ⟨c, hrun, hc⟩ := container_refines hinit ([.insert (1, 10), .insert (3, 30), .find 1,
    .insert (5, 50), .assign 3 (3, 31) rfl, .erase 5] : List (Op pairTraits)) rfl
  exact ⟨c₀, c, hinit, hrun, hc⟩

end OpBase.Cache
