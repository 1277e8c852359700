import OpBase.Dag.BufferRoom

/-!
# The books of the scan and of the pass

`DAGSch` counts the buffers from one scan and hands them out in another pass. On a well
formed list the two keep the same books: what the pass holds before a node is what the scan has
alive. So a node finds its buffers if each share has as many as are wanted at its place, and
that is the only thing that can go wrong.

> `orderStep_outcome`: a node on the list either goes through, and the books agree behind it,
> or finds no free buffer.
>
> `generateBufferIdOrder_outcome`: the ids come out, unless a place of the list does not fit.
-/

namespace OpBase.Dag

open List

/-! ## The books -/

section Books

variable {n : DagNodeInfo} {memLvl : MemLevel} {useNddma cacheBrc : Bool} {counts : BufferCounts}
  {l : BufLists}

/-- The node wants buffers of a share so many times. -/
def demand (n : DagNodeInfo) (memLvl : MemLevel) (useNddma : Bool) (c : Nat) (f : Bind) : Nat :=
  wanted memLvl c (wantsOf useNddma (checkIsInput n.outList f) f)

/-- Before node `k`: the pass holds buffers for the nodes that are live, no more of a share
than these want, and everything else of the pool is free. -/
structure Books (n : DagNodeInfo) (memLvl : MemLevel) (useNddma cacheBrc : Bool)
    (counts : BufferCounts) (k : Nat) (s : OrderState) : Prop where
  split : (counts.pool memLvl).IsSplit s.bufListList s.toReleaseEs
  sorted : Sorted memLvl s.bufListList
  nodup : (s.toReleaseEs.map (·.bind)).Nodup
  live : ∀ f, f ∈ s.toReleaseEs.map (·.bind) ↔ LiveBefore cacheBrc n.funList k f
  within : ∀ m ∈ s.toReleaseEs, ∀ c,
    m.buffers.countP (inShare memLvl c) ≤ demand n memLvl useNddma c m.bind

/-- At a place, the nodes alive want no more of any share than there is. -/
def Fits (n : DagNodeInfo) (memLvl : MemLevel) (useNddma cacheBrc : Bool) (counts : BufferCounts)
    (k : Nat) : Prop :=
  ∀ c, ((aliveAt cacheBrc n.funList k).map (demand n memLvl useNddma c)).sum ≤
    (counts.lists memLvl).toList.countP (inShare memLvl c)

theorem pool_noPong {tr : List Mapping} (h : (counts.pool memLvl).IsSplit l tr)
    (hlvl : memLvl ≠ .level0) {w : BufferWrapper} (hw : w ∈ l.toList ∨ w ∈ held tr) :
    w.pingPong = BUF_PING := by
  have hall : w ∈ (counts.lists memLvl).toList := h.mem_all hw
  rcases BufLists.mem_toList.mp hall with hw | hw | hw | hw
  · exact (mem_generateBufferWrappers.mp hw).1.2
  · exact (mem_generateBufferWrappers.mp hw).1.2
  · exact (mem_generateBufferWrappers.mp hw).1.2
  · have hnil : (counts.lists memLvl).pongMte3 = [] := if_neg hlvl
    rw [hnil] at hw
    exact absurd hw not_mem_nil

theorem filter_bind_eq : ∀ {tr : List Mapping} {f : Bind}, (tr.map (·.bind)).Nodup →
    f ∈ tr.map (·.bind) → ∃ m, tr.filter (·.bind = f) = [m]
  | m :: tr, f, hnodup, hf => by
    rw [map_cons, nodup_cons] at hnodup
    rw [filter_cons]
    by_cases hm : m.bind = f
    · refine ⟨m, ?_⟩
      rw [if_pos (decide_eq_true hm)]
      refine congrArg (m :: ·) (filter_eq_nil_iff.mpr fun m' hm' => ?_)
      rw [decide_eq_true_iff]
      intro heq
      exact hnodup.1 (mem_map.mpr ⟨m', hm', heq.trans hm.symm⟩)
    · rw [if_neg (by rwa [decide_eq_true_iff])]
      refine filter_bind_eq hnodup.2 ?_
      rw [map_cons] at hf
      exact (mem_cons.mp hf).resolve_left (Ne.symm hm)

section Release

variable {later : List Bind} {tr : List Mapping} {inFuns : List Bind}

theorem releaseBufferByType_exists {type side : Nat} : ∀ {fs : List Bind},
    (∀ f ∈ fs, ∃ m, tr.filter (·.bind = f) = [m]) →
    ∃ ws, releaseBufferByType cacheBrc later tr type side fs = .ok ws
  | [], _ => ⟨[], rfl⟩
  | f :: fs, h => by
    obtain ⟨m, hm⟩ := h f mem_cons_self
    obtain ⟨ws, hws⟩ := releaseBufferByType_exists fun g hg => h g (mem_cons_of_mem _ hg)
    rw [releaseBufferByType, hm]
    dsimp only
    rw [hws]
    exact ⟨_, rfl⟩

theorem releaseUnusedInputAux_exists : ∀ {fs : List Bind},
    (∀ f ∈ fs, ∃ m, tr.filter (·.bind = f) = [m]) →
    ∃ ms, releaseUnusedInputAux cacheBrc later tr fs = .ok ms
  | [], _ => ⟨[], rfl⟩
  | f :: fs, h => by
    obtain ⟨m, hm⟩ := h f mem_cons_self
    obtain ⟨ms, hms⟩ := releaseUnusedInputAux_exists fun g hg => h g (mem_cons_of_mem _ hg)
    rw [releaseUnusedInputAux, hm, if_neg (by simp)]
    rw [hms]
    exact ⟨_, rfl⟩

theorem releaseAndUpdateEs_exists {fs : List Bind} (l : BufLists)
    (h : ∀ f ∈ fs, ∃ m, tr.filter (·.bind = f) = [m]) :
    ∃ r, releaseAndUpdateEs cacheBrc later fs l tr = .ok r := by
  have hby : ∀ type side, ∃ ws, releaseBufferByType cacheBrc later tr type side fs = .ok ws :=
    fun _ _ => releaseBufferByType_exists h
  obtain ⟨mte2, h₂⟩ := hby BUF_TYPE_MTE2 BUF_PING
  obtain ⟨mte3, h₃⟩ := hby BUF_TYPE_MTE3 BUF_PING
  obtain ⟨temp, hₜ⟩ := hby BUF_TYPE_TEMP BUF_PING
  obtain ⟨pong, hₚ⟩ := hby BUF_TYPE_MTE3 BUF_PONG
  obtain ⟨need, hneed⟩ : ∃ ms, releaseUnusedInputAux cacheBrc later tr fs = .ok ms :=
    releaseUnusedInputAux_exists h
  unfold releaseAndUpdateEs
  simp only [h₂, h₃, hₜ, hₚ, hneed, Bind.bind, Except.bind]
  exact ⟨_, rfl⟩

theorem Sorted.giveBack {back : BufLists} (hl : Sorted memLvl l)
    (hpong : memLvl ≠ .level0 → ∀ w ∈ held tr, w.pingPong = BUF_PING)
    (hback : GivesBack cacheBrc later inFuns tr back) : Sorted memLvl
      ⟨l.mte2 ++ back.mte2, l.mte3 ++ back.mte3, l.temp ++ back.temp,
        l.pongMte3 ++ back.pongMte3⟩ where
  mte2 w hw := (mem_append.mp hw).elim (hl.mte2 w) fun hw => ((hback.mte2 w).mp hw).1.1
  mte3 w hw := (mem_append.mp hw).elim (hl.mte3 w) fun hw => ((hback.mte3 w).mp hw).1
  temp w hw := (mem_append.mp hw).elim (hl.temp w) fun hw => ((hback.temp w).mp hw).1.1
  pongMte3 w hw :=
    (mem_append.mp hw).elim (hl.pongMte3 w) fun hw => ((hback.pongMte3 w).mp hw).1
  noPong hlvl := by
    refine append_eq_nil_iff.mpr ⟨hl.noPong hlvl, eq_nil_iff_forall_not_mem.mpr fun w hw => ?_⟩
    obtain ⟨⟨-, hside⟩, m, hm, -, hmem⟩ := (hback.pongMte3 w).mp hw
    rw [hpong hlvl w (mem_held.mpr ⟨m, hm, hmem⟩)] at hside
    exact absurd hside (by decide)

theorem keptBehind_nil : keptBehind cacheBrc later [] tr = tr :=
  filter_eq_self.mpr fun _ _ => decide_eq_true fun h => absurd h.1 not_mem_nil

theorem mem_keptBehind_bind {f : Bind} :
    f ∈ (keptBehind cacheBrc later inFuns tr).map (·.bind) ↔
      f ∈ tr.map (·.bind) ∧ ¬ Released cacheBrc later inFuns f := by
  rw [mem_map, mem_map]
  constructor
  · rintro ⟨m, hm, rfl⟩
    obtain ⟨hm, hrel⟩ := mem_keptBehind.mp hm
    exact ⟨⟨m, hm, rfl⟩, hrel⟩
  · rintro ⟨⟨m, hm, rfl⟩, hrel⟩
    exact ⟨m, mem_keptBehind.mpr ⟨hm, hrel⟩, rfl⟩

theorem released_iff (hbrc : n.supportBrc = true ∨ cacheBrc = false) {f : Bind}
    (hf : f ∈ n.funList) : Released cacheBrc later inFuns f ↔
      f ∈ tryDelInOutAux later (n.rsvList cacheBrc) inFuns := by
  unfold Released ableToRelease tryDelInOutAux
  rw [mem_filter, inputIsAbleToFreeAux_eq]
  have hrsv := mem_rsvList hbrc hf
  cases hcache : isCacheBrcNode cacheBrc f with
  | true => simp [hrsv.mpr hcache]
  | false => simp [mt hrsv.mp (by rw [hcache]; exact Bool.false_ne_true)]

end Release

/-! ## One node -/

section Node

variable {k : Nat} {s : OrderState} {func : Bind} {later : List Bind}

section

variable (hb : Books n memLvl useNddma cacheBrc counts k s)
include hb

theorem Books.noPong :
    memLvl ≠ .level0 → ∀ w ∈ held s.toReleaseEs, w.pingPong = BUF_PING := fun hlvl _ hw =>
  pool_noPong hb.split hlvl (Or.inr hw)

section

variable (hwf : WellFormed n) (hfunc : n.funList[k]? = some func)
include hwf hfunc

theorem Books.mappings :
    ∀ f ∈ func.inNonScalarFuns, ∃ m, s.toReleaseEs.filter (·.bind = f) = [m] := fun f hf =>
  filter_bind_eq hb.nodup ((hb.live f).mpr (hwf.live_of_read hfunc hf))

theorem Books.release (later : List Bind) (hl : Sorted memLvl l) : ∃ l',
      releaseAndUpdateEs cacheBrc later func.inNonScalarFuns l s.toReleaseEs =
        .ok (l', keptBehind cacheBrc later func.inNonScalarFuns s.toReleaseEs) ∧
      Sorted memLvl l' := by
  obtain ⟨⟨l', tr'⟩, hrun⟩ := releaseAndUpdateEs_exists l (hb.mappings hwf hfunc)
  obtain ⟨rfl, back, hback, rfl⟩ := releaseAndUpdateEs_ok hrun
  exact ⟨_, hrun, hl.giveBack hb.noPong hback⟩

theorem Books.releaseFor (later : List Bind) (hl : Sorted memLvl l) :
    ∃ l', releaseFor cacheBrc func later l s.toReleaseEs =
      .ok (l', keptBehind cacheBrc later func.inNonScalarFuns s.toReleaseEs) ∧
      Sorted memLvl l' := by
  unfold OpBase.Dag.releaseFor
  cases hin : func.fn.isCopyInOp with
  | true =>
    have hnil : func.inNonScalarFuns = [] := by
      unfold Bind.inNonScalarFuns
      rw [(hwf.copyIn func (mem_of_getElem? hfunc) hin).1]
      rfl
    exact ⟨l, by rw [hnil, keptBehind_nil, if_pos rfl], hl⟩
  | false =>
    rw [if_neg Bool.false_ne_true]
    exact hb.release hwf hfunc later hl

end

end

theorem inNonScalarFuns_of_scalar (h : func.isScalarOp = true) : func.inNonScalarFuns = [] := by
  obtain ⟨-, hfuns, -⟩ := Bind.isScalarOp_iff.mp h
  refine eq_nil_iff_forall_not_mem.mpr fun f hf => ?_
  obtain ⟨hin, hscalar, -⟩ := Bind.mem_inNonScalarFuns.mp hf
  have hall := length_filter_eq_length_iff.mp hfuns f hin
  rw [hscalar] at hall
  exact Bool.false_ne_true hall

theorem Books.live_kept (hb : Books n memLvl useNddma cacheBrc counts k s) (hwf : WellFormed n)
    (hbrc : n.supportBrc = true ∨ cacheBrc = false) (hdrop : n.funList.drop k = func :: later)
    (hfunc : n.funList[k]? = some func) (f : Bind) :
    (f ∈ (keptBehind cacheBrc later func.inNonScalarFuns s.toReleaseEs).map (·.bind) ∨
      (TakesBuffer func ∧ f = func)) ↔ LiveBefore cacheBrc n.funList (k + 1) f := by
  rw [← hwf.live_succ hbrc hdrop hb.live, mem_keptBehind_bind, mem_remove, mem_aliveNodes]
  have hmem : ∀ {f}, f ∈ s.toReleaseEs.map (·.bind) → f ∈ n.funList := fun hf => by
    obtain ⟨i, -, hi, -⟩ := (hb.live _).mp hf
    exact mem_of_getElem? hi
  have hread : ∀ {f}, f ∈ func.inNonScalarFuns → f ∈ s.toReleaseEs.map (·.bind) := fun hf =>
    (hb.live _).mpr (hwf.live_of_read hfunc hf)
  constructor
  · rintro (⟨hkeys, hrel⟩ | ⟨htakes, rfl⟩)
    · exact ⟨Or.inl hkeys, mt (released_iff hbrc (hmem hkeys)).mpr hrel⟩
    · refine ⟨Or.inr (Or.inr ⟨htakes, rfl⟩), fun hdel => ?_⟩
      obtain ⟨i, hik, hi, -⟩ := (hb.live f).mp (hread (mem_filter.mp hdel).1)
      exact absurd (hwf.index_unique hi hfunc) hik.ne
  · rintro ⟨hkeys | hin | htakes, hdel⟩
    · exact Or.inl ⟨hkeys, mt (released_iff hbrc (hmem hkeys)).mp hdel⟩
    · exact Or.inl ⟨hread hin, mt (released_iff hbrc (hmem (hread hin))).mp hdel⟩
    · exact Or.inr htakes

/-- The later nodes tell whether a node feeds an output. -/
theorem WellFormed.connected (hwf : WellFormed n) (hdrop : n.funList.drop k = func :: later)
    (hfunc : n.funList[k]? = some func) (htakes : TakesBuffer func) :
    isConnectOutput later func = checkIsInput n.outList func := by
  rw [Bool.eq_iff_iff, checkIsInput_iff]
  unfold isConnectOutput
  rw [any_eq_true]
  have hlater : later = n.funList.drop (k + 1) := by
    rw [← drop_drop, hdrop]
    rfl
  constructor
  · rintro ⟨g, hg, hboth⟩
    obtain ⟨hout, hin⟩ := Bool.and_eq_true_iff.mp hboth
    rw [hlater] at hg
    exact ⟨g, hwf.outs.mem_iff.mpr (mem_filter.mpr ⟨mem_of_mem_drop hg, hout⟩),
      of_decide_eq_true hin⟩
  · rintro ⟨g, hg, hin⟩
    obtain ⟨hg, hout⟩ := mem_filter.mp (hwf.outs.mem_iff.mp hg)
    obtain ⟨p, hp⟩ := mem_iff_getElem?.mp hg
    -- an output reads it at a later place
    obtain ⟨i, hip, hi, -⟩ : LiveBefore false n.funList p func :=
      hwf.live_of_read hp (inNonScalarFuns_of_takes htakes hin)
    have hik := hwf.index_unique hi hfunc
    refine ⟨g, ?_, Bool.and_eq_true_iff.mpr ⟨hout, decide_eq_true hin⟩⟩
    rw [hlater]
    refine mem_iff_getElem?.mpr ⟨p - (k + 1), ?_⟩
    rw [getElem?_drop, show k + 1 + (p - (k + 1)) = p by omega]
    exact hp

section

variable (hb : Books n memLvl useNddma cacheBrc counts k s)
include hb

/-- If the counts are enough at a node, the free lists are. -/
theorem Books.room (hwf : WellFormed n)
    (hfunc : n.funList[k]? = some func) (htakes : TakesBuffer func)
    (hfits : Fits n memLvl useNddma cacheBrc counts k) (c : Nat) :
    demand n memLvl useNddma c func ≤ s.bufListList.toList.countP (inShare memLvl c) := by
  have hsplit := hb.split.countP_eq (inShare memLvl c)
  have hheld : (held s.toReleaseEs).countP (inShare memLvl c) ≤
      ((s.toReleaseEs.map (·.bind)).map (demand n memLvl useNddma c)).sum := by
    unfold held
    rw [countP_flatMap, map_map]
    exact sum_le_sum fun m hm => hb.within m hm c
  -- the nodes held, and this one, are those alive here
  have hperm : (s.toReleaseEs.map (·.bind) ++ [func]).Perm (aliveAt cacheBrc n.funList k) := by
    refine (perm_ext_iff_of_nodup ?_ (hwf.nodup_aliveAt k)).mpr fun f => ?_
    · refine nodup_append'.mpr ⟨hb.nodup, nodup_singleton _, fun f hf hf' => ?_⟩
      obtain rfl := mem_singleton.mp hf'
      obtain ⟨i, hik, hi, -⟩ := (hb.live f).mp hf
      exact absurd (hwf.index_unique hi hfunc) hik.ne
    · rw [mem_aliveAt, ← hwf.mem_alive_iff hfunc hb.live, mem_aliveNodes, mem_append, mem_singleton]
      constructor
      · rintro (hf | hf)
        · exact Or.inl hf
        · exact Or.inr (Or.inr ⟨htakes, hf⟩)
      · rintro (hf | hf | hf)
        · exact Or.inl hf
        · exact Or.inl ((hb.live f).mpr (hwf.live_of_read hfunc hf))
        · exact Or.inr hf.2
  have hsum := (hperm.map (demand n memLvl useNddma c)).sum_eq
  have hc := hfits c
  rw [map_append, sum_append, map_singleton, sum_singleton] at hsum
  rw [countP_append] at hsplit
  have hall : (counts.pool memLvl).all.countP (inShare memLvl c) =
      (counts.lists memLvl).toList.countP (inShare memLvl c) := rfl
  omega

theorem Books.keptBehind_nodup :
    ((keptBehind cacheBrc later func.inNonScalarFuns s.toReleaseEs).map (·.bind)).Nodup :=
  hb.nodup.sublist (filter_sublist.map _)

/-- A node goes through and leaves the books in order, or it finds no free buffer; and it
finds one where its place fits. -/
theorem orderStep_outcome (hwf : WellFormed n)
    (hbrc : n.supportBrc = true ∨ cacheBrc = false) (hdrop : n.funList.drop k = func :: later) :
    (∃ s', orderStep memLvl useNddma cacheBrc func later s = .ok s' ∧
      Books n memLvl useNddma cacheBrc counts (k + 1) s') ∨
    (orderStep memLvl useNddma cacheBrc func later s = .error .noFreeBuffer ∧
      ¬ Fits n memLvl useNddma cacheBrc counts k) := by
  have hfunc : n.funList[k]? = some func := by
    have hhead : (n.funList.drop k)[0]? = some func := by rw [hdrop]; rfl
    rwa [getElem?_drop, Nat.add_zero] at hhead
  have hlive := hb.live_kept hwf hbrc hdrop hfunc
  have hkeptMem : ∀ m ∈ keptBehind cacheBrc later func.inNonScalarFuns s.toReleaseEs, ∀ c,
      m.buffers.countP (inShare memLvl c) ≤ demand n memLvl useNddma c m.bind := fun m hm =>
    hb.within m (mem_keptBehind.mp hm).1
  -- a scalar takes no buffer, an output only releases, any other node takes its own first
  cases hscalar : func.isScalarOp with
  | true =>
    left
    refine ⟨_, orderStep_scalar hscalar, hb.split, hb.sorted, hb.nodup, fun f => ?_, hb.within⟩
    rw [← hlive f, inNonScalarFuns_of_scalar hscalar, keptBehind_nil]
    exact (or_iff_left fun h => absurd (hscalar.symm.trans h.1.1) (by decide)).symm
  | false =>
    cases hout : func.fn.isCopyOutOp with
    | true =>
      left
      obtain ⟨l', hrel, hsorted⟩ := hb.release hwf hfunc later hb.sorted
      have hstep : orderStep memLvl useNddma cacheBrc func later s = .ok ⟨l',
          s.allocEs ++ [⟨-1, BUF_TYPE_PLACEHOLDER, BUF_PING⟩],
          keptBehind cacheBrc later func.inNonScalarFuns s.toReleaseEs, s.scalarIdx⟩ := by
        rw [orderStep_copyOut hscalar hout, hrel]
        rfl
      refine ⟨_, hstep, orderStep_pool hb.split hstep, hsorted, hb.keptBehind_nodup, fun f => ?_,
        hkeptMem⟩
      rw [← hlive f]
      exact (or_iff_left fun h => absurd (hout.symm.trans h.1.2) (by decide)).symm
    | false =>
      have htakes : TakesBuffer func := ⟨hscalar, hout⟩
      have hconn := hwf.connected hdrop hfunc htakes
      have hfree := hb.split.nodup_free
      -- the free lists are enough just when the counts are
      cases halloc : allocFor memLvl useNddma func later s.bufListList with
      | error e =>
        right
        rw [allocFor_eq, hconn] at halloc
        refine ⟨?_, fun hfits => ?_⟩
        · rw [orderStep_holds hscalar hout, allocFor_eq, hconn, halloc, allocWants_error halloc]
          rfl
        · obtain ⟨r, hr⟩ := allocWants_exists hb.sorted hfree (hb.room hwf hfunc htakes hfits)
          rw [halloc] at hr
          exact absurd hr (by simp)
      | ok r =>
        left
        obtain ⟨l₀, bufs⟩ := r
        have hwants := halloc
        rw [allocFor_eq, hconn] at hwants
        obtain ⟨hsorted₀, hcount⟩ := allocWants_ok hb.sorted hfree hwants
        obtain ⟨l', hrel, hsorted⟩ := hb.releaseFor hwf hfunc later hsorted₀
        have hstep : orderStep memLvl useNddma cacheBrc func later s = .ok ⟨l',
            s.allocEs ++ [wrapperOf bufs],
            keptBehind cacheBrc later func.inNonScalarFuns s.toReleaseEs ++ [⟨func, bufs⟩],
            s.scalarIdx⟩ := by
          rw [orderStep_holds hscalar hout, halloc]
          show (releaseFor _ _ _ _ _ >>= _) = _
          rw [hrel]
          rfl
        refine ⟨_, hstep, orderStep_pool hb.split hstep, hsorted, ?_, fun f => ?_, fun m hm c => ?_⟩
        · -- no node that is kept has the new number
          rw [map_append, map_singleton]
          refine nodup_append'.mpr ⟨hb.keptBehind_nodup, nodup_singleton _,
            fun f hf hf' => ?_⟩
          obtain rfl := mem_singleton.mp hf'
          obtain ⟨i, hik, hi, -⟩ := (hb.live f).mp (mem_keptBehind_bind.mp hf).1
          exact absurd (hwf.index_unique hi hfunc) hik.ne
        · rw [← hlive f, map_append, map_singleton, mem_append, mem_singleton]
          exact or_congr_right (and_iff_right htakes).symm
        · rcases mem_append.mp hm with hm | hm
          · exact hkeptMem m hm c
          · obtain rfl := mem_singleton.mp hm
            exact hcount c

end

end Node

/-! ## A whole run -/

section Run

variable {k : Nat} {s : OrderState} {later : List Bind}

/-- By induction on the nodes: the allocation succeeds, or the counts are too small at one of
them. -/
theorem orderRun_outcome (hwf : WellFormed n) (hbrc : n.supportBrc = true ∨ cacheBrc = false) :
    ∀ {later : List Bind} {k : Nat} {s : OrderState},
    Books n memLvl useNddma cacheBrc counts k s → n.funList.drop k = later →
    (∃ s', orderRun memLvl useNddma cacheBrc later s = .ok s') ∨
    (orderRun memLvl useNddma cacheBrc later s = .error .noFreeBuffer ∧
      ∃ j, j < n.funList.length ∧ ¬ Fits n memLvl useNddma cacheBrc counts j)
  | [], _, s, _, _ => Or.inl ⟨s, rfl⟩
  | func :: later, k, s, hb, hdrop => by
    have hk : k < n.funList.length := by
      by_contra hge
      rw [drop_eq_nil_of_le (by omega)] at hdrop
      exact absurd hdrop (by simp)
    have htail : n.funList.drop (k + 1) = later := by
      rw [← drop_drop, hdrop]
      rfl
    rw [orderRun]
    rcases orderStep_outcome hb hwf hbrc hdrop with ⟨s', hstep, hb'⟩ | ⟨hstep, hfits⟩
    · rw [hstep]
      exact orderRun_outcome hwf hbrc hb' htail
    · rw [hstep]
      exact Or.inr ⟨rfl, k, hk, hfits⟩

theorem allocWants_mte3 (hlvl : memLvl ≠ .level0) : ∀ {us : List Want} {l l' : BufLists}
    {bufs : List BufferWrapper}, Sorted memLvl l → l.toList.Nodup →
    allocWants memLvl us l = .ok (l', bufs) → Want.mte3 ∈ us → ∃ w ∈ l.toList, isMte3 w = true
  | [], _, _, _, _, _, _, hin => absurd hin not_mem_nil
  | u :: us, l, l', bufs, hl, hnodup, h, hin => by
    obtain ⟨l₁, w, ws, hw, hperm, hl₁, hnodup₁, hws, -⟩ := allocWants_cons hl hnodup h
    rcases mem_cons.mp hin with rfl | hin
    · obtain ⟨es, hes, hmem⟩ := allocWant_mem hw
      unfold lookedAt at hes
      rw [if_pos hlvl, if_pos hlvl, if_pos hlvl] at hes
      have hmte3 : w ∈ l.mte3 := by
        simp only [mem_cons, not_mem_nil, or_false] at hes
        rcases hes with rfl | rfl | rfl | rfl
        · exact hmem
        all_goals exact absurd hmem not_mem_nil
      exact ⟨w, BufLists.mem_toList.mpr (Or.inr (Or.inl hmte3)), isMte3_of_mte3 hl.toTyped hmte3⟩
    · obtain ⟨v, hv, hmte3⟩ := allocWants_mte3 hlvl hl₁ hnodup₁ hws hin
      exact ⟨v, hperm.mem_iff.mpr (mem_cons_of_mem _ hv), hmte3⟩

/-- If the allocation succeeds and a node wants an MTE3 buffer, there was one. -/
theorem orderRun_mte3 (hwf : WellFormed n) (hbrc : n.supportBrc = true ∨ cacheBrc = false)
    (hlvl : memLvl ≠ .level0) : ∀ {later : List Bind} {k : Nat} {s s' : OrderState},
    Books n memLvl useNddma cacheBrc counts k s → n.funList.drop k = later →
    orderRun memLvl useNddma cacheBrc later s = .ok s' → ∀ f ∈ later, TakesBuffer f →
    Want.mte3 ∈ wantsOf useNddma (checkIsInput n.outList f) f →
    ∃ w ∈ (counts.lists memLvl).toList, isMte3 w = true
  | [], _, _, _, _, _, _, f, hf, _, _ => absurd hf not_mem_nil
  | func :: later, k, s, s', hb, hdrop, h, f, hf, htakes, hwant => by
    obtain ⟨s₁, hstep, hrun⟩ := orderRun_cons h
    rcases mem_cons.mp hf with rfl | hf
    · -- this node takes the buffer
      have hfunc : n.funList[k]? = some f := by
        have hhead : (n.funList.drop k)[0]? = some f := by rw [hdrop]; rfl
        rwa [getElem?_drop, Nat.add_zero] at hhead
      rcases orderStep_cases hstep with ⟨hscalar, -⟩ | ⟨-, -, ⟨-, hout⟩, -⟩ |
        ⟨l₀, bufs, -, -, -, halloc, -⟩
      · exact absurd (hscalar.symm.trans htakes.1) (by decide)
      · exact absurd (hout.symm.trans htakes.2) (by decide)
      · rw [allocFor_eq, hwf.connected hdrop hfunc htakes] at halloc
        obtain ⟨w, hw, hmte3⟩ :=
          allocWants_mte3 hlvl hb.sorted hb.split.nodup_free halloc hwant
        exact ⟨w, hb.split.mem_all (Or.inl hw), hmte3⟩
    · -- one of the later nodes takes it
      have htail : n.funList.drop (k + 1) = later := by
        rw [← drop_drop, hdrop]
        rfl
      rcases orderStep_outcome hb hwf hbrc hdrop with ⟨s₂, hstep₂, hb'⟩ | ⟨hstep₂, -⟩
      · obtain rfl := Except.ok.inj (hstep.symm.trans hstep₂)
        exact orderRun_mte3 hwf hbrc hlvl hb' htail hrun f hf htakes hwant
      · rw [hstep] at hstep₂
        exact absurd hstep₂ (by simp)

/-- Before the first node nothing is held. -/
theorem books_init : Books n memLvl useNddma cacheBrc counts 0
    ⟨counts.lists memLvl, [], [], 0⟩ where
  split := by
    unfold Pool.IsSplit held
    rw [flatMap_nil, append_nil]
    exact List.Perm.refl _
  sorted :=
    { mte2 := fun _ hw => (mem_generateBufferWrappers.mp hw).1.1
      mte3 := fun _ hw => (mem_generateBufferWrappers.mp hw).1
      temp := fun _ hw => (mem_generateBufferWrappers.mp hw).1.1
      pongMte3 := fun w hw => by
        unfold BufferCounts.lists at hw
        dsimp only at hw
        split at hw
        next => exact (mem_generateBufferWrappers.mp hw).1
        next => exact absurd hw not_mem_nil
      noPong := fun hlvl => if_neg hlvl }
  nodup := nodup_nil
  live := fun f => ⟨fun hf => absurd hf not_mem_nil,
    fun ⟨i, hi, _⟩ => absurd hi (Nat.not_lt_zero i)⟩
  within := fun _ hm => absurd hm not_mem_nil

/-- The allocation fails only for want of a buffer, at a node where the counts are too small. -/
theorem generateBufferIdOrder_outcome (hwf : WellFormed n)
    (hbrc : n.supportBrc = true ∨ cacheBrc = false) (off : Int) :
    (∃ r, generateBufferIdOrder memLvl useNddma cacheBrc n.funList (counts.lists memLvl) off =
      .ok r) ∨
    (generateBufferIdOrder memLvl useNddma cacheBrc n.funList (counts.lists memLvl) off =
      .error .noFreeBuffer ∧
      ∃ j, j < n.funList.length ∧ ¬ Fits n memLvl useNddma cacheBrc counts j) := by
  unfold generateBufferIdOrder
  have hb : Books n memLvl useNddma cacheBrc counts 0 ⟨counts.lists memLvl, [], [], 0⟩ :=
    books_init
  rcases orderRun_outcome hwf hbrc hb drop_zero with ⟨s', hrun⟩ | ⟨hrun, hfits⟩
  · obtain ⟨ws, hws, hlen, -⟩ := orderRun_held hb.split hrun
    rw [hrun]
    dsimp only
    rw [hws, nil_append, if_pos hlen.symm]
    exact Or.inl ⟨_, rfl⟩
  · rw [hrun]
    exact Or.inr ⟨rfl, hfits⟩

end Run

end Books

end OpBase.Dag
