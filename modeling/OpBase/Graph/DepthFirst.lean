import OpBase.Graph.Links

/-!
# The depth-first sort

`CalcIndegrees` counts by one rule and `TopologicalSortDFS` releases by another: a
peer on the own node is never counted, but an output that has one is passed over
with all its peers. The links that are counted and not released are `skipped`; an
entry left over from an earlier sort acts like one of them. With both taken as the
excess of the table, the loop is the sweep of `Kahn` with a stack.

> `topologicalSortDFS_spec`: the sort succeeds exactly if nothing was left over or
> skipped and no cycle is made of the released links, and then it is a
> topological sort.
-/

namespace OpBase.Graph

open Lib Lib.Kahn List

/-! ## Counting -/

/-- Counting links adds to each node the number of its own. -/
theorem increments : ∀ (ts : List Nat) (deg : List Int), (∀ t ∈ ts, t < deg.length) →
    ∃ deg', ts.foldlM increment deg = some deg' ∧ deg'.length = deg.length ∧
      ∀ v < deg.length, deg'.getD v 0 = deg.getD v 0 + (ts.count v : Int)
  | [], deg, _ => ⟨deg, rfl, rfl, by simp⟩
  | t :: ts, deg, h => by
    have ht := h t mem_cons_self
    have hinc : increment deg t = some (deg.modify t (· + 1)) := if_pos ht
    have hlen : (deg.modify t (· + 1)).length = deg.length := length_modify ..
    obtain ⟨deg', hrun, hlen', hcount⟩ := increments ts (deg.modify t (· + 1)) fun x hx => by
      rw [hlen]
      exact h x (mem_cons_of_mem _ hx)
    refine ⟨deg', ?_, hlen'.trans hlen, fun v hv => ?_⟩
    · rw [foldlM_cons, hinc]
      exact hrun
    · rw [hcount v (hlen ▸ hv), getD_modify _ ht]
      by_cases hvt : v = t
      · subst hvt
        rw [if_pos rfl, count_cons_self]
        omega
      · rw [if_neg hvt, count_cons_of_ne (Ne.symm hvt)]

variable {n : Nat}

theorem startCount_eq (h : n ≤ 2 ^ 31) : KernelGraph.startCount n = n := by
  unfold KernelGraph.startCount
  rw [Int.bmod_eq_of_le_mul_two (by omega) (by omega)]
  omega

theorem foldr_filter (p : Nat → Prop) [DecidablePred p] : ∀ xs : List Nat,
    xs.foldr (fun i stack => if p i then i :: stack else stack) [] = xs.filter fun i => p i
  | [] => rfl
  | x :: xs => by
    rw [foldr_cons, foldr_filter p xs]
    by_cases hx : p x
    · rw [if_pos hx, filter_cons_of_pos (by simpa)]
    · rw [if_neg hx, filter_cons_of_neg (by simpa)]

/-! ## Released and skipped links -/

/-- The links of an output of `n` that the loop releases, … -/
def KernelTensor.released (n : Nat) (t : KernelTensor) : List Nat :=
  if n ∈ t.consumers then [] else t.consumers

/-- … and those that are counted and never released. -/
def KernelTensor.skipped (n : Nat) (t : KernelTensor) : List Nat :=
  if n ∈ t.consumers then t.consumers.filter (· ≠ n) else []

def released (nodes : Nodes) (n : Nat) : List Nat :=
  (nodes n).outputs.flatMap (KernelTensor.released n)

def skipped (nodes : Nodes) (n : Nat) : List Nat :=
  (nodes n).outputs.flatMap (KernelTensor.skipped n)

theorem counted_eq (n : Nat) (t : KernelTensor) :
    t.consumers.filter (· ≠ n) = t.released n ++ t.skipped n := by
  unfold KernelTensor.released KernelTensor.skipped
  by_cases h : n ∈ t.consumers
  · rw [if_pos h, if_pos h, nil_append]
  · rw [if_neg h, if_neg h, append_nil]
    refine filter_eq_self.mpr fun v hv => ?_
    rw [decide_eq_true_eq]
    exact fun hvn => h (hvn ▸ hv)

variable {nodes : Nodes}

theorem mem_successors {v : Nat} :
    v ∈ successors nodes n ↔ ∃ t ∈ (nodes n).outputs, v ∈ t.consumers := mem_flatMap

theorem mem_released {v : Nat} (h : v ∈ released nodes n) :
    v ∈ successors nodes n ∧ n ≠ v := by
  obtain ⟨t, ht, hv⟩ := mem_flatMap.mp h
  unfold KernelTensor.released at hv
  split at hv
  next => simp at hv
  next hself => exact ⟨mem_successors.mpr ⟨t, ht, hv⟩, fun heq => hself (heq ▸ hv)⟩

/-- Skipped are the consumers of a tensor that the node consumes itself. -/
theorem mem_skipped {v : Nat} :
    v ∈ skipped nodes n ↔ ∃ t ∈ (nodes n).outputs, n ∈ t.consumers ∧ v ∈ t.consumers ∧ v ≠ n := by
  unfold skipped KernelTensor.skipped
  rw [mem_flatMap]
  refine exists_congr fun t => and_congr_right fun _ => ?_
  by_cases h : n ∈ t.consumers
  · rw [if_pos h, mem_filter, decide_eq_true_eq]
    exact ⟨fun hv => ⟨h, hv⟩, fun hv => hv.2⟩
  · rw [if_neg h]
    exact iff_of_false (by simp) fun hv => h hv.1

/-- A consumer is released or skipped. -/
theorem released_or_skipped {v : Nat} (h : v ∈ successors nodes n) (hne : n ≠ v) :
    v ∈ released nodes n ∨ v ∈ skipped nodes n := by
  obtain ⟨t, ht, hv⟩ := mem_successors.mp h
  have hmem : v ∈ t.consumers.filter (· ≠ n) :=
    mem_filter.mpr ⟨hv, by simpa using Ne.symm hne⟩
  rw [counted_eq, mem_append] at hmem
  rcases hmem with hmem | hmem
  · exact Or.inl (mem_flatMap.mpr ⟨t, ht, hmem⟩)
  · exact Or.inr (mem_flatMap.mpr ⟨t, ht, hmem⟩)

namespace KernelGraph

/-! ## The start of the loop -/

/-- The state in which the sort's tables fit its graph: the links stay inside, the
node at place `i` has `originalId` `i`, and an index fits an `int32_t`. -/
structure Numbered (g : KernelGraph) : Prop where
  inside : g.LinksInside
  originalId : ∀ i n, g.kernelNodes[i]? = some n → (g.nodes n).originalId = i
  size : g.kernelNodes.length ≤ 2 ^ 31

variable {g : KernelGraph}

/-- The table before the first count. -/
def resized (g : KernelGraph) : List Int :=
  g.indegrees.take g.kernelNodes.length ++
    List.replicate (g.kernelNodes.length - g.indegrees.length) 0

theorem resized_length (g : KernelGraph) : g.resized.length = g.kernelNodes.length := by
  unfold resized
  rw [length_append, length_take, length_replicate]
  omega

/-- What the table holds beyond the links to be released: what an earlier sort left
there, and the skipped links. -/
def excess (g : KernelGraph) (v : Nat) : Int :=
  g.resized.getD v 0 + (((g.kernelNodes.flatMap (skipped g.nodes)).map g.kernelNodes.idxOf).count v)

/-- The nodes' memory after `CalcIndegrees`. -/
def withRefs (g : KernelGraph) : Nodes := fun n =>
  if n ∈ g.kernelNodes then
    { g.nodes n with outputs := (g.nodes n).outputs.map (setRefTensor g.nodes n) }
  else g.nodes n

theorem withRefs_originalId (g : KernelGraph) (n : Nat) :
    (g.withRefs n).originalId = (g.nodes n).originalId := by
  unfold withRefs
  split
  next => rfl
  next => rfl

theorem withRefs_successors (g : KernelGraph) (n : Nat) :
    successors g.withRefs n = successors g.nodes n := by
  unfold successors withRefs
  split
  next =>
    rw [flatMap_map]
    rfl
  next => rfl

theorem foldl_ref_isSome (p : Port → Prop) [DecidablePred p] : ∀ (peers : List Port)
    (ref : Option Port),
    (peers.foldl (fun ref peer => if p peer then some peer else ref) ref).isSome ↔
      ref.isSome ∨ ∃ x ∈ peers, p x
  | [], ref => by simp
  | x :: peers, ref => by
    rw [foldl_cons, foldl_ref_isSome p peers]
    by_cases hx : p x
    · simp [hx]
    · simp [hx]

section

variable (h : g.Numbered)
include h

theorem Numbered.nodup : g.kernelNodes.Nodup :=
  nodup_of_place fun i n => h.originalId i n

theorem Numbered.originalId_eq (hn : n ∈ g.kernelNodes) :
    (g.nodes n).originalId = g.kernelNodes.idxOf n :=
  h.originalId _ n (getElem?_idxOf hn)

theorem Numbered.map_originalId {vs : List Nat}
    (hvs : ∀ v ∈ vs, v ∈ g.kernelNodes) :
    (vs.map fun v => (g.nodes v).originalId) = vs.map g.kernelNodes.idxOf :=
  map_congr_left fun v hv => h.originalId_eq (hvs v hv)

theorem Numbered.closed : Kahn.Closed g.kernelNodes (released g.nodes) :=
  ⟨h.nodup, fun u hu v hv => h.inside u hu v (mem_released hv).1⟩

/-- After `CalcIndegrees` the references tell which outputs feed their own node. -/
theorem Numbered.setRefTensor_isSome (hrefs : RefsSelf g.nodes) (hn : n ∈ g.kernelNodes)
    {t : KernelTensor} (ht : t ∈ (g.nodes n).outputs) :
    (setRefTensor g.nodes n t).refTensor.isSome ↔ n ∈ t.consumers := by
  unfold setRefTensor
  rw [foldl_ref_isSome]
  constructor
  · rintro (href | ⟨p, hp, hid⟩)
    · exact hrefs n t ht href
    · -- equal numbers, so the peer's owner is `n`
      have hmem : p.node ∈ t.consumers := mem_map_of_mem hp
      have hin := h.inside n hn p.node (mem_successors.mpr ⟨t, ht, hmem⟩)
      rw [h.originalId_eq hin, h.originalId_eq hn] at hid
      rwa [(idxOf_inj hin).mp hid] at hmem
  · intro hmem
    obtain ⟨p, hp, hpn⟩ := mem_map.mp hmem
    exact Or.inr ⟨p, hp, by rw [hpn]⟩

theorem Numbered.withRefs_refsSelf (hrefs : RefsSelf g.nodes) :
    RefsSelf g.withRefs := by
  intro n t ht href
  unfold withRefs at ht
  split at ht
  next hn =>
    obtain ⟨t', ht', rfl⟩ := mem_map.mp ht
    exact (h.setRefTensor_isSome hrefs hn ht').mp href
  next => exact hrefs n t ht href

theorem Numbered.releasedPeers_eq (hrefs : RefsSelf g.nodes) (hn : n ∈ g.kernelNodes) :
    releasedPeers g.withRefs n = (released g.nodes n).map g.kernelNodes.idxOf := by
  have houtputs : (g.withRefs n).outputs = (g.nodes n).outputs.map (setRefTensor g.nodes n) := by
    unfold withRefs
    rw [if_pos hn]
  unfold releasedPeers released
  rw [houtputs, flatMap_map, map_flatMap]
  refine flatMap_congr fun t ht => ?_
  have hin : ∀ v ∈ t.consumers, v ∈ g.kernelNodes := fun v hv =>
    h.inside n hn v (mem_successors.mpr ⟨t, ht, hv⟩)
  unfold KernelTensor.released
  by_cases hself : n ∈ t.consumers
  · rw [if_pos ((h.setRefTensor_isSome hrefs hn ht).mpr hself), if_pos hself]
    rfl
  · rw [if_neg (mt (h.setRefTensor_isSome hrefs hn ht).mp hself), if_neg hself]
    rw [← h.map_originalId hin]
    exact map_congr_left fun v _ => g.withRefs_originalId v

theorem Numbered.countedPeers_eq (hn : n ∈ g.kernelNodes) :
    countedPeers g.nodes n = ((g.nodes n).outputs.flatMap fun t =>
      t.released n ++ t.skipped n).map g.kernelNodes.idxOf := by
  unfold countedPeers
  rw [map_flatMap]
  refine flatMap_congr fun t ht => ?_
  have hin : ∀ v ∈ t.consumers, v ∈ g.kernelNodes := fun v hv =>
    h.inside n hn v (mem_successors.mpr ⟨t, ht, hv⟩)
  rw [← counted_eq, h.map_originalId hin, h.originalId_eq hn, filter_map]
  refine congrArg (List.map _) (filter_congr fun v hv => ?_)
  rw [Function.comp_apply, decide_eq_decide, ne_eq, idxOf_inj (hin v hv)]

/-- `CalcIndegrees` starts a sweep over the released links. -/
theorem Numbered.calcIndegrees_eq :
    ∃ indegrees, g.calcIndegrees = some ({ g with indegrees := indegrees, nodes := g.withRefs },
        ready g.kernelNodes.length indegrees) ∧
      Counts (byIndex g.kernelNodes (released g.nodes)) g.kernelNodes.length g.excess
        indegrees := by
  -- A peer is counted once for each link: those of the outputs that the loop releases, and
  -- those of the outputs it passes over because one of their peers is on the own node.
  have hperm : (g.kernelNodes.flatMap (countedPeers g.nodes)).Perm
      ((g.kernelNodes.flatMap (released g.nodes)).map g.kernelNodes.idxOf ++
        (g.kernelNodes.flatMap (skipped g.nodes)).map g.kernelNodes.idxOf) := by
    rw [← map_append, flatMap_congr fun u hu => h.countedPeers_eq hu, ← map_flatMap]
    refine List.Perm.map _ (List.Perm.trans ?_ (flatMap_append_perm _ _ _).symm)
    refine List.Perm.flatMap_left _ fun u _ => ?_
    exact (flatMap_append_perm _ _ _).symm
  have hlt : ∀ t ∈ g.kernelNodes.flatMap (countedPeers g.nodes), t < g.resized.length := by
    intro t ht
    rw [g.resized_length]
    rw [hperm.mem_iff, ← map_append, mem_map] at ht
    obtain ⟨v, hv, rfl⟩ := ht
    refine idxOf_lt_length_iff.mpr ?_
    rcases mem_append.mp hv with hv | hv
    · obtain ⟨u, hu, hv⟩ := mem_flatMap.mp hv
      exact h.inside u hu v (mem_released hv).1
    · obtain ⟨u, hu, hv⟩ := mem_flatMap.mp hv
      obtain ⟨t, ht, -, hv, -⟩ := mem_skipped.mp hv
      exact h.inside u hu v (mem_successors.mpr ⟨t, ht, hv⟩)
  obtain ⟨indegrees, hrun, hlen, hcount⟩ := increments _ g.resized hlt
  rw [g.resized_length] at hlen hcount
  refine ⟨indegrees, ?_, hlen, fun v hv => ?_⟩
  · have hstack := foldr_filter (fun i => indegrees.getD i 0 = 0) (List.range g.kernelNodes.length)
    show Option.map _ ((g.kernelNodes.flatMap (countedPeers g.nodes)).foldlM increment
      g.resized) = _
    rw [hrun, Option.map_some, startCount_eq h.size, hstack]
    rfl
  · rw [hcount v hv, hperm.count_eq, List.count_append, pending_byIndex]
    unfold excess
    omega

end

/-! ## The loop -/

/-- The variables of the loop stand for a sweep: the nodes reached so far are in front
in `sortedNodes_` and numbered by their places there. -/
structure Simulates (g : KernelGraph) (s : Sweep) (f : DfsFrame) : Prop where
  stack : f.stack = s.work
  indegrees : f.indegrees = s.deg
  realIndex : f.realIndex = s.order.length
  length : f.sortedNodes.length = g.kernelNodes.length
  sorted : f.sortedNodes.take s.order.length = names g.kernelNodes s.order
  topoId : ∀ i u, (names g.kernelNodes s.order)[i]? = some u → (f.nodes u).topoId = i
  originalId : ∀ u, (f.nodes u).originalId = (g.withRefs u).originalId
  outputs : ∀ u, (f.nodes u).outputs = (g.withRefs u).outputs

/-- What the loop does in one round. -/
def round (node : Nat) (stack : List Nat) (f : DfsFrame) : DfsFrame :=
  let s := (releasedPeers f.nodes node).foldl (release List.cons) (f.indegrees, stack)
  { nodes := setTopoId f.nodes node f.realIndex
    stack := s.2
    indegrees := s.1
    sortedNodes := f.sortedNodes.set f.realIndex node
    realIndex := f.realIndex + 1 }

theorem Simulates.releasedPeers_eq (hg : g.Numbered) (hrefs : RefsSelf g.nodes)
    {s : Sweep} {f : DfsFrame} (h : g.Simulates s f) {v node : Nat}
    (hnode : g.kernelNodes[v]? = some node) :
    releasedPeers f.nodes node = byIndex g.kernelNodes (released g.nodes) v := by
  rw [mem_byIndex hnode, ← hg.releasedPeers_eq hrefs (mem_of_getElem? hnode)]
  unfold releasedPeers
  simp only [h.originalId, h.outputs]

/-- One node taken from the stack, in the code and in the sweep. -/
theorem Simulates.round (hg : g.Numbered) (hrefs : RefsSelf g.nodes)
    {deg : List Int} {v node : Nat} {work order : List Nat} {f : DfsFrame}
    (hs : Sound (byIndex g.kernelNodes (released g.nodes)) g.kernelNodes.length g.excess
      ⟨deg, v :: work, order⟩)
    (h : g.Simulates ⟨deg, v :: work, order⟩ f) (hnode : g.kernelNodes[v]? = some node) :
    g.Simulates
      ⟨((byIndex g.kernelNodes (released g.nodes) v).foldl (release List.cons) (deg, work)).1,
        ((byIndex g.kernelNodes (released g.nodes) v).foldl (release List.cons) (deg, work)).2,
        order ++ [v]⟩ (KernelGraph.round node work f) := by
  have hv : v < g.kernelNodes.length := hs.frontier.lt v (by simp)
  have hlt : ∀ i ∈ order, i < g.kernelNodes.length := fun i hi =>
    hs.frontier.lt i (mem_append_left _ hi)
  have hroom : order.length < f.sortedNodes.length := by
    have hle := hs.frontier.length_le
    rw [h.length]
    simp only [length_append, length_cons] at hle
    omega
  have hreal : f.realIndex = order.length := h.realIndex
  have hnames : names g.kernelNodes (order ++ [v]) = names g.kernelNodes order ++ [node] :=
    names_concat hnode
  -- the node just taken was not reached before, so its number disturbs no other
  have hnew : node ∉ names g.kernelNodes order := by
    rw [mem_names hg.nodup hlt, ← (getElem?_idxOf_iff hg.nodup hv).mp hnode]
    exact fun hmem => (nodup_append.mp hs.frontier.nodup).2.2 v hmem.2 v mem_cons_self rfl
  have hlen : (names g.kernelNodes order).length = order.length := names_length hg.nodup hlt
  unfold KernelGraph.round
  rw [h.releasedPeers_eq hg hrefs hnode, h.indegrees]
  dsimp only
  refine ⟨rfl, rfl, ?_, ?_, ?_, ?_, ?_, ?_⟩
  · simp [hreal]
  · simpa using h.length
  · show (f.sortedNodes.set f.realIndex node).take (order ++ [v]).length = _
    rw [hnames, hreal, length_append, length_singleton, take_add_one,
      take_set_of_le (Nat.le_refl _), getElem?_set_self hroom]
    exact congrArg (· ++ [node]) h.sorted
  · intro i u hu
    show (setTopoId f.nodes node f.realIndex u).topoId = i
    rw [hnames] at hu
    by_cases hi : i < (names g.kernelNodes order).length
    · rw [getElem?_append_left hi] at hu
      have hne : u ≠ node := fun heq => hnew (heq ▸ mem_of_getElem? hu)
      rw [setTopoId_of_ne _ _ hne]
      exact h.topoId i u hu
    · rw [getElem?_append_right (by omega)] at hu
      obtain ⟨hone, -⟩ := List.getElem?_eq_some_iff.mp hu
      rw [length_singleton] at hone
      obtain rfl : i = (names g.kernelNodes order).length := by omega
      obtain rfl : node = u := by simpa using hu
      rw [setTopoId_topoId_self, hreal, hlen]
  · intro u
    exact (setTopoId_originalId ..).trans (h.originalId u)
  · intro u
    exact (setTopoId_outputs ..).trans (h.outputs u)

/-- By induction on the fuel: the loop simulates the sweep. -/
theorem dfsLoop_sweep (hg : g.Numbered) (hrefs : RefsSelf g.nodes)
    (hr : ∀ v, 0 ≤ g.excess v) : ∀ (fuel : Nat) {s : Sweep} {f : DfsFrame},
    Sound (byIndex g.kernelNodes (released g.nodes)) g.kernelNodes.length g.excess s →
    g.Simulates s f → g.kernelNodes.length ≤ s.order.length + fuel →
    ∃ f', dfsLoop g.kernelNodes (fuel + 1) f = some (.success, f') ∧
      g.Simulates (sweep List.cons (byIndex g.kernelNodes (released g.nodes)) fuel s) f'
  | 0, s, f, hs, h, hlen => by
    have hput : ∀ (v : Nat) (w : List Nat), (v :: w).Perm (v :: w) := fun _ _ => List.Perm.refl _
    have hwork : s.work = [] := sweep_work hput hr hg.closed.byIndex_lt 0 hs hlen
    refine ⟨f, ?_, h⟩
    unfold dfsLoop
    rw [h.stack, hwork]
  | fuel + 1, ⟨deg, work, order⟩, f, hs, h, hlen => by
    match work, hs, h with
    | [], hs, h =>
      -- nothing is ready: the loop ends
      refine ⟨f, ?_, h⟩
      unfold dfsLoop
      rw [h.stack]
    | v :: work, hs, h =>
      -- one round of the loop is one step of the sweep
      have hv : v < g.kernelNodes.length := hs.frontier.lt v (by simp)
      have hnode := getElem?_eq_getElem hv
      obtain ⟨f', hrun, hsim⟩ := dfsLoop_sweep hg hrefs hr fuel
        (hs.step (fun _ _ => List.Perm.refl _) hr hg.closed.byIndex_lt)
        (h.round hg hrefs hs hnode)
        (by simp only [length_append, length_singleton] at *; omega)
      refine ⟨f', ?_, hsim⟩
      unfold dfsLoop
      rw [h.stack]
      simp only [hnode]
      exact hrun

/-- What `TopologicalSortDFS` does: a sweep over the released links, read off into
`sortedNodes_` and the numbers. -/
theorem Numbered.topologicalSortDFS_spec (h : g.Numbered)
    (hrefs : RefsSelf g.nodes) (hlen : g.sortedNodes.length = g.kernelNodes.length)
    (hr : ∀ v, 0 ≤ g.excess v) :
    ∃ status s f, g.topologicalSortDFS = some (status, { g with
        nodes := f.nodes, indegrees := s.deg, sortedNodes := f.sortedNodes }) ∧
      Swept (byIndex g.kernelNodes (released g.nodes)) g.kernelNodes.length g.excess s ∧
      g.Simulates s f ∧ (status = .success ↔ s.order.length = g.kernelNodes.length) := by
  obtain ⟨indegrees, hcalc, hcounts⟩ := h.calcIndegrees_eq
  have hput : ∀ (v : Nat) (w : List Nat), (v :: w).Perm (v :: w) := fun _ _ => List.Perm.refl _
  -- Nothing is placed before the loop, so the run and the sweep start alike.
  have hstart : g.Simulates ⟨indegrees, ready g.kernelNodes.length indegrees, []⟩
      ⟨g.withRefs, ready g.kernelNodes.length indegrees, indegrees, g.sortedNodes, 0⟩ :=
    ⟨rfl, rfl, rfl, hlen, rfl, fun i u hu => by simp [names] at hu, fun _ => rfl, fun _ => rfl⟩
  obtain ⟨f, hrun, hsim⟩ := dfsLoop_sweep h hrefs hr _ hcounts.sound hstart (Nat.le_add_left ..)
  have hswept := hcounts.swept hput hr h.closed.byIndex_lt
  refine ⟨if f.realIndex = g.kernelNodes.length then .success else .errInner, _, f, ?_, hswept,
    hsim, ?_⟩
  · unfold topologicalSortDFS
    rw [hcalc]
    simp only [Option.bind_eq_bind, Option.bind_some]
    rw [hrun, ← hsim.indegrees]
    by_cases hreal : f.realIndex = g.kernelNodes.length
    · simp [hreal]
    · simp [hreal]
  · rw [hsim.realIndex]
    split
    next heq => exact iff_of_true rfl heq
    next hne => exact iff_of_false (by simp) hne

end KernelGraph

end OpBase.Graph
