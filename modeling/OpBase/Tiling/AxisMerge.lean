import OpBase.Tiling.ReduceAxes

/-!
# Merging axes of one kind

`MergeAxis` decides about an axis by looking for it in the list, which it changes as it
goes. What it changes lies behind it: the entries from axis `j` on, and their order, are
still those that it started with. So the new shape has the products of the runs of axes of
one kind (`runProducts`), and only one thing can go wrong. An iterator into the list is kept
over each run of reduced axes, and it is no longer valid when an entry in front of it is
erased (`Valid`).

> `mergeAxis_iff`: what `MergeAxis` computes, and when.
-/

namespace OpBase.Tiling

open List OpBase.Lib OpBase.Lib.Checked

/-- The axes from `j` on, each with its kind: is it in the list? -/
def marked (axes : List ℤ) : ℕ → List ℤ → List (Bool × ℤ)
  | _, [] => []
  | j, dim :: dims => (decide ((j : ℤ) ∈ axes), dim) :: marked axes (j + 1) dims

/-- The products of the runs, the first of which has kind `b` and product `s` so far. -/
def runProducts (b : Bool) (s : ℤ) : List (Bool × ℤ) → List ℤ
  | [] => [s]
  | a :: l =>
    if a.1 = b then runProducts b (uint64 (s * a.2)) l else s :: runProducts a.1 a.2 l

/-- No axis of a reduced run is found in front of the run's first axis `i`. -/
def Valid (axes : List ℤ) (b : Bool) (i : ℕ) (j : ℕ) : List (Bool × ℤ) → Prop
  | [] => True
  | a :: l =>
    if a.1 = b then
      (b = true → (j : ℤ) ∉ axes.takeWhile (· ≠ (i : ℤ))) ∧ Valid axes b i (j + 1) l
    else Valid axes a.1 j (j + 1) l

/-! ## The list of axes on the way -/

theorem idxOf?_append_cons {a : ℤ} : ∀ {u w : List ℤ}, a ∉ u →
    (u ++ a :: w).idxOf? a = some u.length
  | [], w, _ => by rw [nil_append, idxOf?_cons, if_pos (beq_self_eq_true a)]; rfl
  | b :: u, w, h => by
    have hb : ¬ (b == a) = true := fun hba => h (by rw [eq_of_beq hba]; exact mem_cons_self)
    rw [cons_append, idxOf?_cons, if_neg hb, idxOf?_append_cons fun hu => h (mem_cons_of_mem b hu)]
    rfl

theorem eraseIdx_append_cons (a : ℤ) (u w : List ℤ) : (u ++ a :: w).eraseIdx u.length = u ++ w := by
  rw [eraseIdx_append_of_length_le le_rfl, Nat.sub_self, eraseIdx_cons_zero]

theorem set_append_cons (a b : ℤ) (u w : List ℤ) : (u ++ a :: w).set u.length b = u ++ b :: w := by
  rw [set_append_right _ _ le_rfl, Nat.sub_self, set_cons_zero]

/-- The entries from `j` on. -/
def entriesFrom (j : ℕ) (l : List ℤ) : List ℤ := l.filter ((j : ℤ) ≤ ·)

theorem mem_entriesFrom {j : ℕ} {l : List ℤ} : (j : ℤ) ∈ entriesFrom j l ↔ (j : ℤ) ∈ l := by
  unfold entriesFrom
  rw [mem_filter, decide_eq_true_eq]
  exact and_iff_left le_rfl

theorem entriesFrom_append_cons {j : ℕ} {a : ℤ} (ha : a < j) (u w : List ℤ) :
    entriesFrom j (u ++ a :: w) = entriesFrom j u ++ entriesFrom j w := by
  unfold entriesFrom
  rw [filter_append, filter_cons_of_neg (by simpa using ha)]

theorem entriesFrom_succ {j : ℕ} {l l' : List ℤ} (h : entriesFrom j l = entriesFrom j l') :
    entriesFrom (j + 1) l = entriesFrom (j + 1) l' := by
  have hsub : ∀ m : List ℤ, entriesFrom (j + 1) m = entriesFrom (j + 1) (entriesFrom j m) := by
    intro m
    unfold entriesFrom
    rw [filter_filter]
    refine filter_congr fun x _ => ?_
    rw [← Bool.decide_and, decide_eq_decide]
    omega
  rw [hsub, h, ← hsub]

theorem entriesFrom_takeWhile {j : ℕ} {u w u' w' : List ℤ} (hu : (j : ℤ) ∉ u) (hu' : (j : ℤ) ∉ u')
    (h : entriesFrom j (u ++ (j : ℤ) :: w) = entriesFrom j (u' ++ (j : ℤ) :: w')) :
    entriesFrom j u = entriesFrom j u' := by
  have hsplit : ∀ v x : List ℤ,
      entriesFrom j (v ++ (j : ℤ) :: x) = entriesFrom j v ++ (j : ℤ) :: entriesFrom j x := by
    intro v x
    unfold entriesFrom
    rw [filter_append, filter_cons_of_pos (by simp)]
  have ht := congrArg (List.takeWhile (· ≠ (j : ℤ))) h
  rwa [hsplit, hsplit, takeWhile_append_cons fun hm => hu (mem_entriesFrom.mp hm),
    takeWhile_append_cons fun hm => hu' (mem_entriesFrom.mp hm)] at ht

/-! ## The loop -/

theorem mergeLoop_invalid : ∀ (dims : List ℤ) (s : ℤ) (idx : ℕ) (axes : List ℤ) (j : ℕ)
    (r : List ℤ × List ℤ), mergeLoop true none s idx axes j dims ≠ .ok r
  | [], s, idx, axes, j, r => fun h => nomatch h
  | d :: dims, s, idx, axes, j, r => by
    unfold mergeLoop
    cases axes.idxOf? (j : ℤ) with
    | none => exact fun h => nomatch h
    | some p => exact mergeLoop_invalid dims _ idx _ (j + 1) r

/-- Before axis `j`: the entries from `j` on are the given ones, and in a reduced run that began
with axis `i` the iterator points to the entry for `i`, with the given ones in front of it. -/
structure MergeInv (given axes : List ℤ) (b : Bool) (iter0 : Option ℕ) (idx i j : ℕ) : Prop where
  idx_lt : idx < j
  start_lt : i < j
  same : entriesFrom j axes = entriesFrom j given
  iter : b = true → ∃ u w, axes = u ++ (i : ℤ) :: w ∧ iter0 = some u.length ∧
    entriesFrom j u = entriesFrom j (given.takeWhile (· ≠ (i : ℤ)))

section

variable {given axes : List ℤ} {b : Bool} {iter0 : Option ℕ} {idx i j : ℕ}

theorem MergeInv.mem (h : MergeInv given axes b iter0 idx i j) :
    (j : ℤ) ∈ axes ↔ (j : ℤ) ∈ given := by
  rw [← mem_entriesFrom, h.same, mem_entriesFrom]

theorem MergeInv.kept (h : MergeInv given axes false iter0 idx i j) :
    MergeInv given axes false iter0 idx i (j + 1) :=
  ⟨h.idx_lt.trans (Nat.lt_succ_self j), h.start_lt.trans (Nat.lt_succ_self j),
    entriesFrom_succ h.same, fun hb => nomatch hb⟩

/-- One reduced axis: its entry is erased, or left to be skipped. -/
theorem MergeInv.reduced (h : MergeInv given axes true iter0 idx i j) (hj : (j : ℤ) ∈ given) :
    ∃ p, axes.idxOf? (j : ℤ) = some p ∧
      (((j : ℤ) ∈ given.takeWhile (· ≠ (i : ℤ)) ∧ eraseKeeps iter0 p = none) ∨
        ((j : ℤ) ∉ given.takeWhile (· ≠ (i : ℤ)) ∧
          MergeInv given (axes.eraseIdx p) true (eraseKeeps iter0 p) idx i (j + 1))) := by
  obtain ⟨u, w, rfl, rfl, hu⟩ := h.iter rfl
  have hne : (j : ℤ) ≠ i := by
    have := h.start_lt
    omega
  have hfront : (j : ℤ) ∈ u ↔ (j : ℤ) ∈ given.takeWhile (· ≠ (i : ℤ)) := by
    rw [← mem_entriesFrom, hu, mem_entriesFrom]
  -- The entries are `u ++ i :: w`: which side of the run's own entry `j` is on decides.
  by_cases hju : (j : ℤ) ∈ u
  -- In front of it: the erase makes the saved iterator invalid.
  · obtain ⟨u₁, u₂, rfl, hu₁⟩ := eq_append_cons_of_mem hju
    refine ⟨u₁.length, ?_, Or.inl ⟨hfront.mp hju, ?_⟩⟩
    · rw [append_assoc, cons_append, idxOf?_append_cons hu₁]
    · refine if_neg ?_
      rw [length_append]
      omega
  -- Behind it: the iterator stays valid, and the erased list keeps the shape.
  · have hjw : (j : ℤ) ∈ w := by
      rcases mem_append.mp (h.mem.mpr hj) with hm | hm
      · exact absurd hm hju
      · exact (mem_cons.mp hm).resolve_left hne
    obtain ⟨w₁, w₂, rfl, hw₁⟩ := eq_append_cons_of_mem hjw
    have hsplit : u ++ (i : ℤ) :: (w₁ ++ (j : ℤ) :: w₂) =
        (u ++ (i : ℤ) :: w₁) ++ (j : ℤ) :: w₂ := by
      rw [append_assoc, cons_append]
    have hnot : (j : ℤ) ∉ u ++ (i : ℤ) :: w₁ := fun hm => by
      rcases mem_append.mp hm with hm | hm
      · exact hju hm
      · exact ((mem_cons.mp hm).resolve_left hne) |> hw₁
    refine ⟨(u ++ (i : ℤ) :: w₁).length, by rw [hsplit, idxOf?_append_cons hnot],
      Or.inr ⟨fun hm => hju (hfront.mpr hm), ?_⟩⟩
    have hkeeps : eraseKeeps (some u.length) (u ++ (i : ℤ) :: w₁).length = some u.length := by
      refine if_pos ?_
      rw [length_append, length_cons]
      omega
    rw [hkeeps, hsplit, eraseIdx_append_cons]
    refine ⟨h.idx_lt.trans (Nat.lt_succ_self j), h.start_lt.trans (Nat.lt_succ_self j), ?_, fun _ =>
      ⟨u, w₁ ++ w₂, by rw [append_assoc, cons_append], rfl, entriesFrom_succ hu⟩⟩
    have hsame := entriesFrom_succ h.same
    rw [hsplit, entriesFrom_append_cons (by omega)] at hsame
    rw [← hsame]
    exact filter_append ..

theorem MergeInv.first (hidx : idx < j) (h : entriesFrom j axes = entriesFrom j given) :
    (axes.idxOf? (j : ℤ)).isSome = decide ((j : ℤ) ∈ given) ∧
      MergeInv given axes (axes.idxOf? (j : ℤ)).isSome (axes.idxOf? (j : ℤ)) (idx + 1) j
        (j + 1) := by
  have hmem : (j : ℤ) ∈ axes ↔ (j : ℤ) ∈ given := by rw [← mem_entriesFrom, h, mem_entriesFrom]
  by_cases hj : (j : ℤ) ∈ axes
  · obtain ⟨u, w, rfl, hu⟩ := eq_append_cons_of_mem hj
    rw [idxOf?_append_cons hu]
    refine ⟨(decide_eq_true (hmem.mp hj)).symm, Nat.succ_lt_succ hidx, Nat.lt_succ_self j,
      entriesFrom_succ h, fun _ => ⟨u, w, rfl, rfl, ?_⟩⟩
    obtain ⟨u', w', rfl, hu'⟩ := eq_append_cons_of_mem (hmem.mp hj)
    rw [takeWhile_append_cons hu']
    exact entriesFrom_succ (entriesFrom_takeWhile hu hu' h)
  · have hnone : axes.idxOf? (j : ℤ) = none := idxOf?_eq_none_iff.mpr hj
    rw [hnone]
    exact ⟨(decide_eq_false fun hm => hj (hmem.mpr hm)).symm, Nat.succ_lt_succ hidx,
      Nat.lt_succ_self j, entriesFrom_succ h, fun hb => nomatch hb⟩

theorem MergeInv.closeRun (h : MergeInv given axes b iter0 idx i j) :
    ∃ axes', closeRun b iter0 idx axes = .ok axes' ∧ entriesFrom j axes' = entriesFrom j given := by
  cases b with
  | false => exact ⟨axes, rfl, h.same⟩
  | true =>
    obtain ⟨u, w, rfl, rfl, -⟩ := h.iter rfl
    refine ⟨_, rfl, ?_⟩
    have hi := h.start_lt
    have hidx := h.idx_lt
    rw [set_append_cons, entriesFrom_append_cons (by omega), ← h.same,
      entriesFrom_append_cons (by omega)]

end

theorem mergeLoop_next {dims axes : List ℤ} {b : Bool} {iter0 : Option ℕ} {s d : ℤ} {idx j : ℕ}
    (hb : (axes.idxOf? (j : ℤ)).isSome ≠ b) :
    mergeLoop b iter0 s idx axes j (d :: dims) = closeRun b iter0 idx axes >>= fun axes =>
        mergeLoop (axes.idxOf? (j : ℤ)).isSome (axes.idxOf? (j : ℤ)) d (idx + 1) axes (j + 1)
          dims >>= fun p => .ok (s :: p.1, p.2) := by
  rw [mergeLoop.eq_def]
  dsimp only
  cases hidx : axes.idxOf? (j : ℤ) with
  | none =>
    rw [hidx] at hb
    cases b with
    | false => exact absurd rfl hb
    | true => rfl
  | some p =>
    rw [hidx] at hb
    cases b with
    | false => rfl
    | true => exact absurd rfl hb

/-- By induction on the axes: the loop succeeds with the products of the runs, as long as no erased
entry is asked for. -/
theorem mergeLoop_iff {given : List ℤ} : ∀ {dims axes : List ℤ} {b : Bool} {iter0 : Option ℕ}
    {s : ℤ} {idx i j : ℕ} {r : List ℤ}, MergeInv given axes b iter0 idx i j →
    ((∃ axes', mergeLoop b iter0 s idx axes j dims = .ok (r, axes')) ↔
      Valid given b i j (marked given j dims) ∧ r = runProducts b s (marked given j dims))
  | [], axes, b, iter0, s, idx, i, j, r, h => by
    obtain ⟨axes', hclose, -⟩ := h.closeRun
    unfold mergeLoop
    rw [hclose, ok_bind]
    constructor
    · rintro ⟨_, ⟨⟩⟩
      exact ⟨trivial, rfl⟩
    · rintro ⟨-, rfl⟩
      exact ⟨axes', rfl⟩
  | d :: dims, axes, b, iter0, s, idx, i, j, r, h => by
    have hmarked : marked given j (d :: dims) =
        (decide ((j : ℤ) ∈ given), d) :: marked given (j + 1) dims := rfl
    have hmem : (axes.idxOf? (j : ℤ)).isSome = decide ((j : ℤ) ∈ given) := by
      rw [Bool.eq_iff_iff, decide_eq_true_eq, ← h.mem, isSome_idxOf?]
    -- An axis of the run's own kind extends the run; any other closes it and opens the next.
    by_cases hb : decide ((j : ℤ) ∈ given) = b
    · rw [hmarked, Valid, if_pos hb, runProducts, if_pos hb]
      cases b with
      | false =>
        have hnone : axes.idxOf? (j : ℤ) = none := by
          rw [← Option.not_isSome_iff_eq_none, hmem, hb]
          decide
        rw [mergeLoop.eq_def]
        dsimp only
        rw [hnone]
        dsimp only
        rw [mergeLoop_iff h.kept]
        exact and_congr_left fun _ =>
          ⟨fun hv => ⟨(absurd · Bool.false_ne_true), hv⟩, fun hv => hv.2⟩
      | true =>
        -- A reduced axis is erased from the list, which is where the run can fail.
        obtain ⟨p, hp, hcase⟩ := h.reduced (of_decide_eq_true hb)
        rw [mergeLoop.eq_def]
        dsimp only
        rw [hp]
        dsimp only
        rcases hcase with ⟨hin, hkeeps⟩ | ⟨hout, hinv⟩
        · rw [hkeeps]
          refine iff_of_false (fun ⟨axes', hrun⟩ => mergeLoop_invalid _ _ _ _ _ _ hrun) ?_
          exact fun hv => hv.1.1 rfl hin
        · rw [mergeLoop_iff hinv]
          exact and_congr_left fun _ => ⟨fun hv => ⟨fun _ => hout, hv⟩, fun hv => hv.2⟩
    · obtain ⟨axes₁, hclose, hfrom⟩ := h.closeRun
      obtain ⟨hsome, hinv⟩ := MergeInv.first h.idx_lt hfrom
      rw [mergeLoop_next (by rwa [hmem]), hclose, ok_bind, hmarked, Valid, if_neg hb, runProducts,
        if_neg hb, ← hsome]
      constructor
      · intro ⟨axes', hrun⟩
        obtain ⟨⟨r', axes''⟩, hrest, ⟨⟩⟩ := bind_eq_ok.mp hrun
        obtain ⟨hvalid, rfl⟩ := (mergeLoop_iff hinv).mp ⟨axes'', hrest⟩
        exact ⟨hvalid, rfl⟩
      · rintro ⟨hvalid, rfl⟩
        obtain ⟨axes'', hrest⟩ := (mergeLoop_iff (s := d) hinv).mpr ⟨hvalid, rfl⟩
        exact ⟨axes'', by rw [hrest]; rfl⟩

/-- The merge gives the products of the runs of kept and reduced axes, unless it asks for an erased
entry. -/
theorem mergeAxis_iff {axes dims r : List ℤ} {d : ℤ} (h0 : (0 : ℤ) ∉ axes) :
    (∃ axes', mergeAxis axes (d :: dims) = .ok (r, axes')) ↔
      Valid axes false 0 1 (marked axes 1 dims) ∧ r = runProducts false d (marked axes 1 dims) := by
  have hnone : axes.idxOf? (0 : ℤ) = none := idxOf?_eq_none_iff.mpr h0
  have hinv : MergeInv axes axes false none 0 0 1 :=
    ⟨Nat.one_pos, Nat.one_pos, rfl, fun hb => nomatch hb⟩
  unfold mergeAxis
  rw [hnone]
  exact mergeLoop_iff hinv

/-! ## Valid runs by position -/

/-- The axes from `s` to `t` are reduced. -/
def AllReduced (l : List (Bool × ℤ)) (s t : ℕ) : Prop :=
  ∀ u, s ≤ u → u ≤ t → ∃ a, l[u]? = some a ∧ a.1 = true

/-- No reduced axis stands in front of `s`. -/
def Starts (b : Bool) (l : List (Bool × ℤ)) : ℕ → Prop
  | 0 => b = false
  | s + 1 => ∀ a, l[s]? = some a → a.1 = false

variable {l : List (Bool × ℤ)} {a : Bool × ℤ}

theorem allReduced_cons_zero {t : ℕ} :
    AllReduced (a :: l) 0 (t + 1) ↔ a.1 = true ∧ AllReduced l 0 t := by
  constructor
  · intro h
    obtain ⟨x, ⟨⟩, ha⟩ := h 0 le_rfl (Nat.zero_le _)
    exact ⟨ha, fun u _ hu => h (u + 1) (Nat.zero_le _) (Nat.succ_le_succ hu)⟩
  · intro ⟨ha, h⟩ u _ hu
    cases u with
    | zero => exact ⟨a, rfl, ha⟩
    | succ u => exact h u (Nat.zero_le _) (Nat.le_of_succ_le_succ hu)

theorem allReduced_cons_succ {s t : ℕ} :
    AllReduced (a :: l) (s + 1) (t + 1) ↔ AllReduced l s t := by
  constructor
  · exact fun h u hs ht => h (u + 1) (Nat.succ_le_succ hs) (Nat.succ_le_succ ht)
  · intro h u hs ht
    cases u with
    | zero => omega
    | succ u => exact h u (Nat.le_of_succ_le_succ hs) (Nat.le_of_succ_le_succ ht)

theorem starts_cons {b : Bool} {s : ℕ} :
    Starts b (a :: l) (s + 1) ↔ Starts a.1 l s := by
  cases s with
  | zero => exact ⟨fun h => h a rfl, fun h x hx => Option.some.inj hx ▸ h⟩
  | succ s => exact Iff.rfl

theorem AllReduced.head {t : ℕ} (h : AllReduced (a :: l) 0 t) : a.1 = true := by
  obtain ⟨x, ⟨⟩, ha⟩ := h 0 le_rfl (Nat.zero_le t)
  exact ha

/-- No entry is asked for after it was erased, put without the loop. -/
theorem valid_iff {axes : List ℤ} : ∀ {l : List (Bool × ℤ)} {b : Bool} {i j : ℕ},
    Valid axes b i j l ↔
      (b = true → ∀ t, AllReduced l 0 t → ((j + t : ℕ) : ℤ) ∉ axes.takeWhile (· ≠ (i : ℤ))) ∧
      ∀ s t, s < t → Starts b l s → AllReduced l s t →
        ((j + t : ℕ) : ℤ) ∉ axes.takeWhile (· ≠ ((j + s : ℕ) : ℤ))
  | [], b, i, j => by
    refine iff_of_true trivial ⟨fun _ t h => ?_, fun s t hst _ h => ?_⟩
    · obtain ⟨a, ha, -⟩ := h t (Nat.zero_le t) le_rfl
      exact nomatch ha
    · obtain ⟨a, ha, -⟩ := h t hst.le le_rfl
      exact nomatch ha
  | a :: l, b, i, j => by
    have hshift : ∀ t, j + (t + 1) = j + 1 + t := fun t => by omega
    unfold Valid
    split
    -- The axis continues the run: position 0 of the tail's run is position 1 of this one.
    next hab =>
      rw [valid_iff]
      constructor
      · intro ⟨hj, hrun, hlater⟩
        refine ⟨fun hb t ht => ?_, fun s t hst hs ht => ?_⟩
        · cases t with
          | zero => exact hj hb
          | succ t =>
            rw [hshift]
            exact hrun hb t (allReduced_cons_zero.mp ht).2
        · obtain ⟨t, rfl⟩ : ∃ u, t = u + 1 := ⟨t - 1, by omega⟩
          cases s with
          | zero => exact absurd (ht.head.symm.trans (hab.trans hs)) (by decide)
          | succ s =>
            rw [hshift t, hshift s]
            exact hlater s t (Nat.lt_of_succ_lt_succ hst) (hab ▸ starts_cons.mp hs)
              (allReduced_cons_succ.mp ht)
      · intro ⟨hrun, hlater⟩
        refine ⟨fun hb => hrun hb 0 ?_, fun hb t ht => ?_, fun s t hst hs ht => ?_⟩
        · intro u _ hu
          obtain rfl : u = 0 := by omega
          exact ⟨a, rfl, hab.trans hb⟩
        · rw [← hshift]
          exact hrun hb (t + 1) (allReduced_cons_zero.mpr ⟨hab.trans hb, ht⟩)
        · rw [← hshift, ← hshift]
          exact hlater (s + 1) (t + 1) (Nat.succ_lt_succ hst) (starts_cons.mpr (hab.symm ▸ hs))
            (allReduced_cons_succ.mpr ht)
    -- The axis opens a run of its own: what the tail says of its running run is what the list
    -- says of the run that starts at 0.
    next hab =>
      rw [valid_iff]
      constructor
      · intro ⟨hrun, hlater⟩
        refine ⟨fun hb t ht => absurd (ht.head.trans hb.symm) hab, fun s t hst hs ht => ?_⟩
        obtain ⟨t, rfl⟩ : ∃ u, t = u + 1 := ⟨t - 1, by omega⟩
        cases s with
        | zero =>
          rw [hshift]
          obtain ⟨ha, ht⟩ := allReduced_cons_zero.mp ht
          exact hrun ha t ht
        | succ s =>
          rw [hshift t, hshift s]
          exact hlater s t (Nat.lt_of_succ_lt_succ hst) (starts_cons.mp hs)
            (allReduced_cons_succ.mp ht)
      · intro ⟨_, hlater⟩
        refine ⟨fun ha t ht => ?_, fun s t hst hs ht => ?_⟩
        · rw [← hshift]
          have hb : b = false := by
            rw [ha] at hab
            exact Bool.eq_false_iff.mpr (Ne.symm hab)
          exact hlater 0 (t + 1) (Nat.succ_pos t) hb (allReduced_cons_zero.mpr ⟨ha, ht⟩)
        · rw [← hshift, ← hshift]
          exact hlater (s + 1) (t + 1) (Nat.succ_lt_succ hst) (starts_cons.mpr hs)
            (allReduced_cons_succ.mpr ht)

end OpBase.Tiling
