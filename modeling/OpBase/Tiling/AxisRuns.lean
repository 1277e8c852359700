import OpBase.Tiling.DimensionCollapse

/-!
# Which axes are merged

`collapseLoop` sees sizes, and never the axes that it merges. `runs` is the same loop with
the axes themselves in the place of their products: the groups of neighbouring axes that
become one.

> `collapse_eq_runs`: every collapsed size is the product over a group, and the groups are
> the same for all shapes.

An axis of the output's size one belongs anywhere. A group is `Alike` when the other axes
in it have one flag. One way leads to a group that is not.

> `alike_iff`: every group is alike, unless an axis along which every input repeats is
> followed by axes of size one and these by an axis along which some input does not.
-/

namespace OpBase.Tiling

open List OpBase.Lib.Checked

variable (flag : Axis → ℤ) (target : ℤ)

def runsLoop : ℤ → ℤ → List Axis → List Axis → List (List Axis)
  | _, _, cur, [] => [cur]
  | prevFlag, prevOut, cur, a :: rest =>
    if prevFlag = flag a ∨ (prevFlag = target ∧ prevOut = 1) then
      runsLoop (flag a) a.out (cur ++ [a]) rest
    else if flag a = target ∧ a.out = 1 then runsLoop prevFlag a.out (cur ++ [a]) rest
    else cur :: runsLoop (flag a) a.out [a] rest

def runs : List Axis → List (List Axis)
  | [] => []
  | a :: rest => runsLoop flag target (flag a) a.out [a] rest

theorem runsLoop_flatten : ∀ (pf po : ℤ) (cur rest : List Axis),
    (runsLoop flag target pf po cur rest).flatten = cur ++ rest
  | pf, po, cur, [] => by
    unfold runsLoop
    rw [flatten_cons, flatten_nil]
  | pf, po, cur, a :: rest => by
    unfold runsLoop
    split
    · rw [runsLoop_flatten, append_assoc, singleton_append]
    · split
      · rw [runsLoop_flatten, append_assoc, singleton_append]
      · rw [flatten_cons, runsLoop_flatten, singleton_append]

theorem runs_flatten : ∀ l : List Axis, (runs flag target l).flatten = l
  | [] => rfl
  | a :: rest => runsLoop_flatten flag target (flag a) a.out [a] rest

/-! ## The loop multiplies groups together -/

variable {flag target}

theorem int64_eq_ok {z p : ℤ} (h : int64 z = .ok p) : p = z := by
  unfold int64 at h
  split at h
  · exact (Except.ok.inj h).symm
  · cases h

/-- By induction on the axes: the loop gives the products of the runs. -/
theorem collapseLoop_eq_runs {v : Axis → ℤ} : ∀ {rest : List Axis} {pf po : ℤ} {cur : List Axis}
    {dims : List ℤ}, (∀ a ∈ rest, flag a = target → a.out = 1 → v a = 1) →
    collapseLoop target pf po (cur.map v).prod
      (rest.map fun a => (v a, flag a, a.out)) = .ok dims →
    dims = (runsLoop flag target pf po cur rest).map fun r => (r.map v).prod
  | [], pf, po, cur, dims, _, h => by
    cases h
    rfl
  | a :: rest, pf, po, cur, dims, hv, h => by
    have hv' : ∀ b ∈ rest, flag b = target → b.out = 1 → v b = 1 :=
      fun b hb => hv b (mem_cons_of_mem a hb)
    have hprod : ((cur ++ [a]).map v).prod = v a * (cur.map v).prod := by
      rw [map_append, prod_append, map_singleton, prod_singleton, mul_comm]
    rw [map_cons] at h
    unfold collapseLoop at h
    unfold runsLoop
    split at h
    next hmerge =>
      obtain ⟨p, hp, h⟩ := bind_eq_ok.mp h
      rw [if_pos hmerge]
      rw [int64_eq_ok hp, ← hprod] at h
      exact collapseLoop_eq_runs hv' h
    next hmerge =>
      rw [if_neg hmerge]
      split at h
      next hskip =>
        -- the axis that is left out would be a factor of one
        rw [if_pos hskip]
        rw [← one_mul (cur.map v).prod, ← hv a mem_cons_self hskip.1 hskip.2, ← hprod] at h
        exact collapseLoop_eq_runs hv' h
      next hskip =>
        obtain ⟨ds, hds, ⟨⟩⟩ := bind_eq_ok.mp h
        rw [if_neg hskip, map_cons]
        congr 1
        refine collapseLoop_eq_runs hv' ?_
        rwa [map_singleton, prod_singleton]

/-- Collapsing gives the products of the runs of one flag. -/
theorem collapse_eq_runs {v : Axis → ℤ} {l : List Axis} {dims : List ℤ}
    (hv : ∀ a ∈ l, flag a = target → a.out = 1 → v a = 1)
    (h : collapse target (l.map flag) (l.map Axis.out) (l.map v) = .ok dims) :
    dims = (runs flag target l).map fun r => (r.map v).prod := by
  cases l with
  | nil => cases h
  | cons a rest =>
    refine collapseLoop_eq_runs (fun b hb => hv b (mem_cons_of_mem a hb)) ?_
    rw [map_singleton, prod_singleton, ← h, map_cons, map_cons, map_cons]
    show _ = collapseLoop target (flag a) a.out (v a) _
    congr 1
    rw [zip_map', zip_map']

/-! ## Groups that are alike -/

/-- Apart from axes of size one, the axes have one flag. -/
def Alike (flag : Axis → ℤ) (r : List Axis) : Prop := ∃ f, ∀ a ∈ r, a.out = 1 ∨ flag a = f

/-- All inputs are repeated along `p`, and not all along `q`. What stands between them has
size one. -/
def Bridged (l : List Axis) : Prop :=
  ∃ l₁ p mid q l₂, l = l₁ ++ p :: (mid ++ q :: l₂) ∧ mid ≠ [] ∧
    (p.out ≠ 1 ∧ ∀ v ∈ p.values, v = 1) ∧ (∀ u ∈ mid, u.out = 1) ∧ ∃ v ∈ q.values, v ≠ 1

theorem exists_last_not {P : Axis → Prop} : ∀ {l : List Axis}, ¬ (∀ a ∈ l, P a) →
    ∃ l₁ p l₂, l = l₁ ++ p :: l₂ ∧ ¬ P p ∧ ∀ a ∈ l₂, P a
  | [], h => absurd (fun a ha => nomatch ha) h
  | a :: l, h => by
    by_cases hl : ∀ b ∈ l, P b
    · refine ⟨[], a, l, rfl, fun ha => h fun b hb => ?_, hl⟩
      rcases mem_cons.mp hb with rfl | hb
      · exact ha
      · exact hl b hb
    · obtain ⟨l₁, p, l₂, rfl, hp, hl₂⟩ := exists_last_not hl
      exact ⟨a :: l₁, p, l₂, rfl, hp, hl₂⟩

/-- The state of the loop between two axes. -/
structure LoopInv (flag : Axis → ℤ) (prevFlag prevOut : ℤ) (cur : List Axis) : Prop where
  alike : ∀ a ∈ cur, a.out = 1 ∨ flag a = prevFlag
  last : ∃ c a, cur = c ++ [a] ∧ a.out = prevOut

theorem LoopInv.singleton (a : Axis) : LoopInv flag (flag a) a.out [a] :=
  ⟨fun _ hb => Or.inr (mem_singleton.mp hb ▸ rfl), [], a, rfl, rfl⟩

theorem LoopInv.concat {cur : List Axis} {a : Axis} {f : ℤ}
    (hcur : ∀ b ∈ cur, b.out = 1 ∨ flag b = f) (ha : a.out = 1 ∨ flag a = f) :
    LoopInv flag f a.out (cur ++ [a]) := by
  refine ⟨fun b hb => ?_, cur, a, rfl, rfl⟩
  rcases mem_append.mp hb with hb | hb
  · exact hcur b hb
  · exact mem_singleton.mp hb ▸ ha

theorem LoopInv.merge_target {po : ℤ} {cur rest : List Axis} {a : Axis} {pre : List Axis}
    (hf : ∀ b ∈ pre ++ (cur ++ a :: rest), flag b = target ↔ ∀ v ∈ b.values, v = 1)
    (hb : ¬ Bridged (pre ++ (cur ++ a :: rest))) (hi : LoopInv flag target po cur) (hpo : po = 1)
    (ha : flag a ≠ target) : ∀ b ∈ cur, b.out = 1 := by
  by_contra hcur
  obtain ⟨l₁, p, mid, rfl, hp, hmid⟩ := exists_last_not hcur
  have hmem : ∀ b ∈ l₁ ++ p :: mid, b ∈ pre ++ (l₁ ++ p :: mid ++ a :: rest) :=
    fun b hb => mem_append_right _ (mem_append_left _ hb)
  have hpmem : p ∈ l₁ ++ p :: mid := mem_append_right _ mem_cons_self
  have hpt : flag p = target := (hi.alike p hpmem).resolve_left hp
  have hamem : a ∈ pre ++ (l₁ ++ p :: mid ++ a :: rest) :=
    mem_append_right _ (mem_append_right _ mem_cons_self)
  have hq : ∃ v ∈ a.values, v ≠ 1 := by
    by_contra hq
    push Not at hq
    exact ha ((hf a hamem).mpr hq)
  refine hb ⟨pre ++ l₁, p, mid, a, rest, ?_, ?_, ⟨hp, (hf p (hmem p hpmem)).mp hpt⟩, hmid, hq⟩
  · simp only [append_assoc, cons_append]
  · -- the last axis of the group has size one, so it is not `p`
    rintro rfl
    obtain ⟨c, _, hc, hbo⟩ := hi.last
    have := (append_inj' hc rfl).2
    rw [List.cons.injEq] at this
    exact hp (this.1 ▸ hbo.trans hpo)

/-- By induction on the axes: without a bridge the axes of a run are alike. -/
theorem runsLoop_alike : ∀ (rest pre : List Axis) {pf po : ℤ} {cur : List Axis},
    (∀ b ∈ pre ++ (cur ++ rest), flag b = target ↔ ∀ v ∈ b.values, v = 1) →
    ¬ Bridged (pre ++ (cur ++ rest)) → LoopInv flag pf po cur →
    ∀ r ∈ runsLoop flag target pf po cur rest, Alike flag r
  | [], _, pf, _, cur, _, _, hi, r, hr => by
    rw [mem_singleton.mp hr]
    exact ⟨pf, hi.alike⟩
  | a :: rest, pre, pf, po, cur, hf, hb, hi, r, hr => by
    have hassoc : pre ++ (cur ++ a :: rest) = pre ++ (cur ++ [a] ++ rest) := by
      rw [append_assoc, singleton_append]
    unfold runsLoop at hr
    split at hr
    -- The axis joins the open run. Where the flags differ the run ends in a target axis of
    -- output 1, and then no axis of it may carry anything but ones.
    next hmerge =>
      have hi' : LoopInv flag (flag a) a.out (cur ++ [a]) := by
        by_cases hpf : pf = flag a
        · exact .concat (hpf ▸ hi.alike) (Or.inr rfl)
        · obtain ⟨rfl, hpo⟩ := hmerge.resolve_left hpf
          have hone := hi.merge_target hf hb hpo (Ne.symm hpf)
          exact .concat (fun b hb => Or.inl (hone b hb)) (Or.inr rfl)
      rw [hassoc] at hf hb
      exact runsLoop_alike rest pre hf hb hi' r hr
    next hmerge =>
      split at hr
      -- An axis of output 1 is passed over and the run stays open.
      next hskip =>
        rw [hassoc] at hf hb
        exact runsLoop_alike rest pre hf hb (.concat hi.alike (Or.inl hskip.2)) r hr
      -- The run is closed and the axis opens the next one.
      next hskip =>
        rcases mem_cons.mp hr with rfl | hr
        · exact ⟨pf, hi.alike⟩
        · have hassoc : pre ++ (cur ++ a :: rest) = pre ++ cur ++ ([a] ++ rest) := by
            rw [append_assoc, singleton_append]
          rw [hassoc] at hf hb
          exact runsLoop_alike rest (pre ++ cur) hf hb (.singleton a) r hr

/-! ## Groups that are not -/

theorem runsLoop_keeps : ∀ (rest : List Axis) (pf po : ℤ) (cur : List Axis),
    ∃ r ∈ runsLoop flag target pf po cur rest, cur ⊆ r
  | [], _, _, cur => ⟨cur, mem_singleton_self cur, List.Subset.refl cur⟩
  | a :: rest, pf, po, cur => by
    unfold runsLoop
    split
    · obtain ⟨r, hr, hsub⟩ := runsLoop_keeps rest (flag a) a.out (cur ++ [a])
      exact ⟨r, hr, fun b hb => hsub (mem_append_left _ hb)⟩
    · split
      · obtain ⟨r, hr, hsub⟩ := runsLoop_keeps rest pf a.out (cur ++ [a])
        exact ⟨r, hr, fun b hb => hsub (mem_append_left _ hb)⟩
      · exact ⟨cur, mem_cons_self, List.Subset.refl cur⟩

/-- Behind `p` and axes of size one the loop no longer tells what comes. -/
theorem runsLoop_bridge {p q : Axis} : ∀ {mid l₂ cur : List Axis} {po : ℤ}, p ∈ cur →
    (mid ≠ [] ∨ po = 1) → (∀ u ∈ mid, u.out = 1 ∧ flag u = target) →
    ∃ r ∈ runsLoop flag target target po cur (mid ++ q :: l₂), p ∈ r ∧ q ∈ r
  | [], l₂, cur, po, hp, hmid, _ => by
    have hpo := hmid.resolve_left (fun h => h rfl)
    rw [nil_append]
    unfold runsLoop
    rw [if_pos (Or.inr ⟨rfl, hpo⟩)]
    obtain ⟨r, hr, hsub⟩ := runsLoop_keeps l₂ (flag q) q.out (cur ++ [q])
    exact ⟨r, hr, hsub (mem_append_left _ hp),
      hsub (mem_append_right _ (mem_singleton_self q))⟩
  | u :: mid, l₂, cur, po, hp, _, hu => by
    obtain ⟨hu1, hut⟩ := hu u mem_cons_self
    rw [cons_append]
    unfold runsLoop
    rw [if_pos (Or.inl hut.symm), hut]
    exact runsLoop_bridge (mem_append_left _ hp) (Or.inr hu1)
      fun b hb => hu b (mem_cons_of_mem u hb)

theorem runsLoop_bridged {p q : Axis} {mid l₂ : List Axis} (hmid : mid ≠ [])
    (hp : flag p = target) (hp1 : p.out ≠ 1) (hu : ∀ u ∈ mid, u.out = 1 ∧ flag u = target) :
    ∀ (l₁ : List Axis) (pf po : ℤ) (cur : List Axis),
      ∃ r ∈ runsLoop flag target pf po cur (l₁ ++ p :: (mid ++ q :: l₂)), p ∈ r ∧ q ∈ r
  | [], pf, po, cur => by
    rw [nil_append]
    unfold runsLoop
    rw [hp]
    split
    · exact runsLoop_bridge (mem_append_right _ (mem_singleton_self p)) (Or.inl hmid) hu
    · rw [if_neg (fun h => hp1 h.2)]
      obtain ⟨r, hr, h⟩ := runsLoop_bridge (mem_singleton_self p) (Or.inl hmid) hu
      exact ⟨r, mem_cons_of_mem cur hr, h⟩
  | a :: l₁, pf, po, cur => by
    rw [cons_append]
    unfold runsLoop
    split
    · exact runsLoop_bridged hmid hp hp1 hu l₁ (flag a) a.out (cur ++ [a])
    · split
      · exact runsLoop_bridged hmid hp hp1 hu l₁ pf a.out (cur ++ [a])
      · obtain ⟨r, hr, h⟩ := runsLoop_bridged hmid hp hp1 hu l₁ (flag a) a.out [a]
        exact ⟨r, mem_cons_of_mem cur hr, h⟩

theorem runs_bridged {p q : Axis} {mid l₁ l₂ : List Axis} (hmid : mid ≠ [])
    (hp : flag p = target) (hp1 : p.out ≠ 1) (hu : ∀ u ∈ mid, u.out = 1 ∧ flag u = target) :
    ∃ r ∈ runs flag target (l₁ ++ p :: (mid ++ q :: l₂)), p ∈ r ∧ q ∈ r := by
  cases l₁ with
  | nil =>
    rw [nil_append]
    show ∃ r ∈ runsLoop flag target (flag p) p.out [p] _, _
    rw [hp]
    exact runsLoop_bridge (mem_singleton_self p) (Or.inl hmid) hu
  | cons a l₁ => exact runsLoop_bridged hmid hp hp1 hu l₁ (flag a) a.out [a]

/-- The axes of every run are alike just when no axis of size one bridges two flags. -/
theorem alike_iff {l : List Axis} (hf : ∀ a ∈ l, flag a = target ↔ ∀ v ∈ a.values, v = 1)
    (hone : ∀ a ∈ l, a.out = 1 → ∀ v ∈ a.values, v = 1) :
    (∀ r ∈ runs flag target l, Alike flag r) ↔ ¬ Bridged l := by
  constructor
  · rintro halike ⟨l₁, p, mid, q, l₂, rfl, hmid, ⟨hp1, hp⟩, hu, w, hw, hw1⟩
    have hpmem : p ∈ l₁ ++ p :: (mid ++ q :: l₂) := mem_append_right _ mem_cons_self
    have hrest : ∀ b ∈ mid ++ q :: l₂, b ∈ l₁ ++ p :: (mid ++ q :: l₂) :=
      fun b hb => mem_append_right _ (mem_cons_of_mem p hb)
    have hqmem := hrest q (mem_append_right _ mem_cons_self)
    have hpt := (hf p hpmem).mpr hp
    have hut : ∀ u ∈ mid, u.out = 1 ∧ flag u = target := fun u hum =>
      have hmem := hrest u (mem_append_left _ hum)
      ⟨hu u hum, (hf u hmem).mpr (hone u hmem (hu u hum))⟩
    -- The two ends of a bridge fall into one run, and no flag fits both.
    obtain ⟨r, hr, hpr, hqr⟩ :
        ∃ r ∈ runs flag target (l₁ ++ p :: (mid ++ q :: l₂)), p ∈ r ∧ q ∈ r :=
      runs_bridged hmid hpt hp1 hut
    obtain ⟨f, hall⟩ := halike r hr
    have hpf := (hall p hpr).resolve_left hp1
    have hq1 : q.out ≠ 1 := fun h => hw1 (hone q hqmem h w hw)
    have hqf := (hall q hqr).resolve_left hq1
    exact hw1 ((hf q hqmem).mp (hqf.trans (hpf.symm.trans hpt)) w hw)
  · intro hb
    cases l with
    | nil => exact fun r hr => nomatch hr
    | cons a rest => exact runsLoop_alike rest [] hf hb (.singleton a)

end OpBase.Tiling
