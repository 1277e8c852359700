import OpBase.Graph.Links

/-!
# The life times handed to the planner

`CalcLifeTimeAndSize` walks through `sortedNodes_` and dates every tensor with the
`topoId` of its node. Whether the dates come out in order is therefore a question of
two lists made by different sorts: the order the nodes are visited in, and the order
they were numbered in.

> `planNodes_spec`: every entry starts with its node and ends no earlier, and the
> entries are in order of their starts if the nodes that have any are.
-/

namespace OpBase.Graph

open List

open Function (update update_of_ne update_self)

/-- The node has tensors for the planner: a workspace, or an output in the workspace. -/
def emits (nodes : Nodes) (n : Nat) : Bool :=
  !(nodes n).workspace.isEmpty ||
    (nodes n).outputs.any fun t => t.aclTensor.any (·.isFromWorkspace)

/-- What dating tensors leaves alone. -/
structure Timed (nodes nodes' : Nodes) : Prop where
  topoId : ∀ n, (nodes' n).topoId = (nodes n).topoId
  outputs : ∀ n, ((nodes' n).outputs.map fun t => (t.peers, t.refTensor, t.aclTensor)) =
    (nodes n).outputs.map fun t => (t.peers, t.refTensor, t.aclTensor)
  workspace : ∀ n, (nodes' n).workspace.length = (nodes n).workspace.length

theorem Timed.refl (nodes : Nodes) : Timed nodes nodes :=
  ⟨fun _ => rfl, fun _ => rfl, fun _ => rfl⟩

theorem Timed.trans {nodes₁ nodes₂ nodes₃ : Nodes} (h : Timed nodes₁ nodes₂)
    (h' : Timed nodes₂ nodes₃) : Timed nodes₁ nodes₃ :=
  ⟨fun n => (h'.topoId n).trans (h.topoId n), fun n => (h'.outputs n).trans (h.outputs n),
    fun n => (h'.workspace n).trans (h.workspace n)⟩

variable {nodes : Nodes} {n : Nat} {node : KernelNode}

theorem field_update {β : Type} (f : KernelNode → β) (h : f node = f (nodes n)) (m : Nat) :
    f (update nodes n node m) = f (nodes m) := by
  by_cases hm : m = n
  · subst hm
    rw [update_self]
    exact h
  · rw [update_of_ne hm]

theorem Timed.update (htopo : node.topoId = (nodes n).topoId)
    (hout : (node.outputs.map fun t => (t.peers, t.refTensor, t.aclTensor)) =
      (nodes n).outputs.map fun t => (t.peers, t.refTensor, t.aclTensor))
    (hws : node.workspace.length = (nodes n).workspace.length) :
    Timed nodes (update nodes n node) :=
  ⟨field_update KernelNode.topoId htopo, field_update (fun kn => kn.outputs.map _) hout,
    field_update (fun kn => kn.workspace.length) hws⟩

theorem Timed.sameLinks {nodes' : Nodes} (h : Timed nodes nodes') :
    SameLinks nodes nodes' := by
  intro n
  have hmap := congrArg (List.map fun l => (l.1, l.2.1)) (h.outputs n)
  rwa [map_map, map_map] at hmap

theorem Timed.emits_eq {nodes' : Nodes} (h : Timed nodes nodes') (n : Nat) :
    emits nodes' n = emits nodes n := by
  have hany : ∀ nodes : Nodes,
      ((nodes n).outputs.any fun t => t.aclTensor.any (·.isFromWorkspace)) =
      ((nodes n).outputs.map fun t => (t.peers, t.refTensor, t.aclTensor)).any
        fun l => l.2.2.any (·.isFromWorkspace) := by
    intro nodes
    rw [any_map]
    rfl
  have hempty : (nodes' n).workspace.isEmpty = (nodes n).workspace.isEmpty := by
    rw [Bool.eq_iff_iff, isEmpty_iff_length_eq_zero, isEmpty_iff_length_eq_zero, h.workspace n]
  unfold emits
  rw [hany, hany, h.outputs n, hempty]

/-- The tensor starts with its node and ends no earlier. -/
def InTime (topoId : Nat) (t : KernelTensor) : Prop :=
  t.lifeTimeStart = topoId ∧ t.lifeTimeStart ≤ t.lifeTimeEnd

def Dated (nodes : Nodes) (x : SortedTensor) : Prop :=
  ∃ t, x.tensor nodes = some t ∧ InTime (nodes x.port.node).topoId t

/-- Tensors of one list that changed are in time now. -/
def Redated (topoId : Nat) (ts ts' : List KernelTensor) : Prop :=
  ∀ (k : Nat) (t : KernelTensor), ts[k]? = some t →
    ∃ t', ts'[k]? = some t' ∧ (t' = t ∨ InTime topoId t')

theorem Redated.refl (topoId : Nat) (ts : List KernelTensor) : Redated topoId ts ts :=
  fun _ t ht => ⟨t, ht, Or.inl rfl⟩

theorem Redated.modify {topoId k : Nat} {ts : List KernelTensor} {f : KernelTensor → KernelTensor}
    (hf : ∀ t, InTime topoId (f t)) : Redated topoId ts (ts.modify k f) := by
  intro j t ht
  by_cases hj : k = j
  · subst hj
    exact ⟨f t, by rw [getElem?_modify_eq, ht]; rfl, Or.inr (hf t)⟩
  · exact ⟨t, by rw [getElem?_modify_ne _ _ hj, ht], Or.inl rfl⟩

variable {t : KernelTensor}

theorem Redated.inTime {topoId k : Nat} {ts ts' : List KernelTensor} (h : Redated topoId ts ts')
    (ht : ts[k]? = some t) (hin : InTime topoId t) :
    ∃ t', ts'[k]? = some t' ∧ InTime topoId t' := by
  obtain ⟨t', ht', rfl | hnew⟩ := h k t ht
  · exact ⟨t', ht', hin⟩
  · exact ⟨t', ht', hnew⟩

variable {x : SortedTensor}

/-- Dating tensors of node `n` leaves no entry undated. -/
theorem Dated.redate (htopo : node.topoId = (nodes n).topoId)
    (hws : Redated (nodes n).topoId (nodes n).workspace node.workspace)
    (hout : Redated (nodes n).topoId (nodes n).outputs node.outputs) (h : Dated nodes x) :
    Dated (update nodes n node) x := by
  obtain ⟨t, ht, hin⟩ := h
  by_cases hx : x.port.node = n
  · -- a tensor of this node: its end is moved as `Redated` says
    subst hx
    unfold Dated
    match x, ht, hin with
    | .workspace p, ht, hin =>
      obtain ⟨t', ht', hin'⟩ := hws.inTime ht hin
      refine ⟨t', ?_, ?_⟩
      · simp only [SortedTensor.tensor, SortedTensor.port, update_self]
        exact ht'
      · simp only [SortedTensor.port, update_self, htopo]
        exact hin'
    | .output p, ht, hin =>
      obtain ⟨t', ht', hin'⟩ := hout.inTime ht hin
      refine ⟨t', ?_, ?_⟩
      · simp only [SortedTensor.tensor, SortedTensor.port, update_self]
        exact ht'
      · simp only [SortedTensor.port, update_self, htopo]
        exact hin'
  · have hsame : update nodes n node x.port.node = nodes x.port.node :=
      update_of_ne hx _ _
    refine ⟨t, ?_, by rw [hsame]; exact hin⟩
    match x, ht, hsame with
    | .workspace p, ht, hsame =>
      exact (congrArg (fun kn : KernelNode => kn.workspace[p.index]?) hsame).trans ht
    | .output p, ht, hsame =>
      exact (congrArg (fun kn : KernelNode => kn.outputs[p.index]?) hsame).trans ht

namespace KernelGraph

/-! ## One tensor -/

theorem lastConsumer_ge (nodes : Nodes) (topoId : Nat) (t : KernelTensor) :
    topoId ≤ lastConsumer nodes topoId t := by
  unfold lastConsumer
  have hfold : ∀ (vs : List Nat) (e : Nat),
      e ≤ vs.foldl (fun e v => if (nodes v).topoId > e then (nodes v).topoId else e) e := by
    intro vs
    induction vs with
    | nil => exact fun e => Nat.le_refl e
    | cons v vs ih =>
      intro e
      have hstep : e ≤ if (nodes v).topoId > e then (nodes v).topoId else e := by
        split <;> omega
      exact Nat.le_trans hstep (ih _)
  exact hfold _ _

/-- What a step of the planner adds: entries of node `n`, dated. -/
structure Plans (n : Nat) (p p' : Plan) (xs : List SortedTensor) : Prop where
  timed : Timed p.nodes p'.nodes
  keeps : ∀ x, Dated p.nodes x → Dated p'.nodes x
  entries : p'.sortedKernelTensors = p.sortedKernelTensors ++ xs
  dated : ∀ x ∈ xs, Dated p'.nodes x ∧ x.port.node = n ∧ emits p.nodes n = true

theorem Plans.refl (n : Nat) (p : Plan) : Plans n p p [] :=
  ⟨Timed.refl _, fun _ h => h, (append_nil _).symm, fun x hx => by simp at hx⟩

theorem Plans.trans {p₁ p₂ p₃ : Plan} {xs ys : List SortedTensor} (h : Plans n p₁ p₂ xs)
    (h' : Plans n p₂ p₃ ys) : Plans n p₁ p₃ (xs ++ ys) := by
  refine ⟨h.timed.trans h'.timed, fun x hx => h'.keeps x (h.keeps x hx), ?_, fun x hx => ?_⟩
  · rw [h'.entries, h.entries, append_assoc]
  · rcases mem_append.mp hx with hx | hx
    · obtain ⟨hdated, hnode, hemits⟩ := h.dated x hx
      exact ⟨h'.keeps x hdated, hnode, hemits⟩
    · obtain ⟨hdated, hnode, hemits⟩ := h'.dated x hx
      exact ⟨hdated, hnode, h.timed.emits_eq n ▸ hemits⟩

/-- One tensor of node `n` is dated and entered; the other tensors may be dated again. -/
theorem Plans.date {p : Plan} (htimed : Timed p.nodes (update p.nodes n node))
    (hws : Redated (p.nodes n).topoId (p.nodes n).workspace node.workspace)
    (hout : Redated (p.nodes n).topoId (p.nodes n).outputs node.outputs) (hnode : x.port.node = n)
    (ht : x.tensor (update p.nodes n node) = some t) (hin : InTime (p.nodes n).topoId t)
    (hemits : emits p.nodes n = true) :
    Plans n p ⟨update p.nodes n node, p.sortedKernelTensors ++ [x]⟩ [x] := by
  have htopo : node.topoId = (p.nodes n).topoId := by
    have := htimed.topoId n
    rwa [update_self] at this
  refine ⟨htimed, fun y hy => hy.redate htopo hws hout, rfl, fun y hy => ?_⟩
  obtain rfl := mem_singleton.mp hy
  refine ⟨⟨t, ht, ?_⟩, hnode, hemits⟩
  rw [htimed.topoId, hnode]
  exact hin

theorem planWorkspace_plans (n k : Nat) (p : Plan) (hk : k < (p.nodes n).workspace.length) :
    Plans n p (planWorkspace n p k) [.workspace ⟨n, k⟩] := by
  have hin : ∀ t : KernelTensor, InTime (p.nodes n).topoId
      (setLifeTime t (p.nodes n).topoId (p.nodes n).topoId) := fun t => ⟨rfl, Int.le_refl _⟩
  have hne : (p.nodes n).workspace ≠ [] := fun hnil => by
    rw [hnil] at hk
    exact Nat.not_lt_zero k hk
  refine Plans.date (Timed.update rfl rfl (length_modify ..)) (.modify hin) (.refl _ _) rfl ?_
    (hin (p.nodes n).workspace[k]) (by simp [emits, hne])
  simp only [SortedTensor.tensor, update_self, getElem?_modify_eq, getElem?_eq_getElem hk]
  rfl

theorem planWorkspaces_plans (n : Nat) : ∀ (ks : List Nat) (p : Plan),
    (∀ k ∈ ks, k < (p.nodes n).workspace.length) →
    ∃ xs, Plans n p (ks.foldl (planWorkspace n) p) xs
  | [], p, _ => ⟨[], Plans.refl n p⟩
  | k :: ks, p, h => by
    have hfirst := planWorkspace_plans n k p (h k mem_cons_self)
    obtain ⟨xs, hrest⟩ := planWorkspaces_plans n ks (planWorkspace n p k) fun j hj => by
      rw [hfirst.timed.workspace n]
      exact h j (mem_cons_of_mem _ hj)
    exact ⟨_, hfirst.trans hrest⟩

/-- The entry for output `k` of node `n`. -/
def planOutput (n : Nat) (p : Plan) (k : Nat) : Plan :=
  { nodes := update p.nodes n
      { p.nodes n with
        outputs := (p.nodes n).outputs.modify k fun t =>
          setLifeTime t (p.nodes n).topoId (lastConsumer p.nodes (p.nodes n).topoId t) }
    sortedKernelTensors := p.sortedKernelTensors ++ [.output ⟨n, k⟩] }

theorem map_modify {α β : Type} {l : List α} {k : Nat} {f : α → α} {g : α → β}
    (h : ∀ a, g (f a) = g a) : (l.modify k f).map g = l.map g := by
  refine ext_getElem? fun j => ?_
  rw [getElem?_map, getElem?_map, getElem?_modify, Option.map_eq_map, Option.map_map]
  refine congrFun (congrArg Option.map (funext fun a => ?_)) _
  show g (if k = j then f a else a) = g a
  split
  next => exact h a
  next => rfl

theorem planOutput_plans (n k : Nat) (p : Plan) {a : AclTensor}
    (ht : (p.nodes n).outputs[k]? = some t) (ha : t.aclTensor = some a)
    (hws : a.isFromWorkspace = true) : Plans n p (planOutput n p k) [.output ⟨n, k⟩] := by
  have hin : ∀ t : KernelTensor, InTime (p.nodes n).topoId
      (setLifeTime t (p.nodes n).topoId (lastConsumer p.nodes (p.nodes n).topoId t)) := fun t =>
    ⟨rfl, Int.ofNat_le.mpr (lastConsumer_ge p.nodes _ t)⟩
  have hemits : emits p.nodes n = true := by
    have hany : ((p.nodes n).outputs.any fun t => t.aclTensor.any (·.isFromWorkspace)) = true :=
      any_eq_true.mpr ⟨t, mem_of_getElem? ht, by rw [ha]; exact hws⟩
    unfold emits
    rw [hany, Bool.or_true]
  refine Plans.date (Timed.update rfl (map_modify fun _ => rfl) rfl) (.refl _ _) (.modify hin)
    rfl ?_ (hin t) hemits
  simp only [SortedTensor.tensor, update_self, getElem?_modify_eq, ht]
  rfl

theorem planOutputs_plans (n : Nat) : ∀ (ks : List Nat) (p : Plan),
    ∃ xs, Plans n p (planOutputs n ks p).2 xs
  | [], p => ⟨[], Plans.refl n p⟩
  | k :: ks, p => by
    unfold planOutputs
    dsimp only
    split
    next => exact ⟨[], Plans.refl n p⟩
    next a ha =>
      obtain ⟨t, ht, hta⟩ := Option.bind_eq_some_iff.mp ha
      split
      next => exact planOutputs_plans n ks p
      next hws =>
        have hfirst := planOutput_plans n k p ht hta (by simpa using hws)
        obtain ⟨xs, hrest⟩ := planOutputs_plans n ks (planOutput n p k)
        exact ⟨_, hfirst.trans hrest⟩

/-! ## All nodes -/

/-- What the planner adds for a list of nodes. -/
structure PlansAll (ns : List Nat) (p p' : Plan) (xs : List SortedTensor) : Prop where
  timed : Timed p.nodes p'.nodes
  keeps : ∀ x, Dated p.nodes x → Dated p'.nodes x
  entries : p'.sortedKernelTensors = p.sortedKernelTensors ++ xs
  dated : ∀ x ∈ xs, Dated p'.nodes x ∧ x.port.node ∈ ns.filter (emits p.nodes)
  ordered : (ns.filter (emits p.nodes)).Pairwise
      (fun m n => (p.nodes m).topoId ≤ (p.nodes n).topoId) →
    xs.Pairwise fun x y => (p.nodes x.port.node).topoId ≤ (p.nodes y.port.node).topoId

theorem Plans.all {ns : List Nat} {p p' : Plan} {xs : List SortedTensor} (h : Plans n p p' xs) :
    PlansAll (n :: ns) p p' xs := by
  refine ⟨h.timed, h.keeps, h.entries, fun x hx => ?_, fun _ => ?_⟩
  · obtain ⟨hdated, hnode, hemits⟩ := h.dated x hx
    rw [hnode]
    exact ⟨hdated, mem_filter.mpr ⟨mem_cons_self, hemits⟩⟩
  · refine pairwise_of_forall_mem_list fun x hx y hy => ?_
    rw [(h.dated x hx).2.1, (h.dated y hy).2.1]

theorem Plans.cons {ns : List Nat} {p₁ p₂ p₃ : Plan} {xs ys : List SortedTensor}
    (h : Plans n p₁ p₂ xs) (h' : PlansAll ns p₂ p₃ ys) : PlansAll (n :: ns) p₁ p₃ (xs ++ ys) := by
  have hemits : ns.filter (emits p₂.nodes) = ns.filter (emits p₁.nodes) :=
    filter_congr fun m _ => h.timed.emits_eq m
  have htail : ∀ m, m ∈ ns.filter (emits p₁.nodes) → m ∈ (n :: ns).filter (emits p₁.nodes) :=
    fun m hm => mem_filter.mpr
      ⟨mem_cons_of_mem _ (mem_filter.mp hm).1, (mem_filter.mp hm).2⟩
  have hfirst : PlansAll (n :: ns) p₁ p₂ xs := h.all
  refine ⟨h.timed.trans h'.timed, fun x hx => h'.keeps x (h.keeps x hx), ?_, fun x hx => ?_,
    fun hord => ?_⟩
  · rw [h'.entries, h.entries, append_assoc]
  · rcases mem_append.mp hx with hx | hx
    · exact ⟨h'.keeps x (hfirst.dated x hx).1, (hfirst.dated x hx).2⟩
    · obtain ⟨hdated, hnode⟩ := h'.dated x hx
      exact ⟨hdated, htail _ (hemits ▸ hnode)⟩
  · refine pairwise_append.mpr ⟨hfirst.ordered hord, ?_, fun x hx y hy => ?_⟩
    -- Within the rest of the walk: its order is the order of the rest of the nodes.
    · have hrest := h'.ordered
      rw [hemits] at hrest
      simp only [h.timed.topoId] at hrest
      refine hrest (hord.sublist ?_)
      exact (sublist_cons_self n ns).filter _
    -- Across: an entry of `n` is dated by `n`, and `n` comes before the nodes of the rest.
    · obtain ⟨-, hxn, hxe⟩ := h.dated x hx
      have hyn := (h'.dated y hy).2
      rw [hemits] at hyn
      rw [filter_cons_of_pos hxe] at hord
      rw [hxn]
      exact (pairwise_cons.mp hord).1 _ hyn

/-- By induction on the nodes: each is planned, and no tensor is planned twice. -/
theorem planNodes_spec : ∀ (ns : List Nat) (p : Plan), ∃ xs, PlansAll ns p (planNodes ns p).2 xs
  | [], p => ⟨[], Timed.refl _, fun _ h => h, (append_nil _).symm, fun x hx => by simp at hx,
      fun _ => List.Pairwise.nil⟩
  | n :: ns, p => by
    obtain ⟨ws, hws⟩ := planWorkspaces_plans n (List.range (p.nodes n).workspace.length) p
      fun k hk => mem_range.mp hk
    unfold planNodes
    dsimp only
    set p₁ := (List.range (p.nodes n).workspace.length).foldl (planWorkspace n) p
    obtain ⟨os, hos⟩ := planOutputs_plans n (List.range (p₁.nodes n).outputs.length) p₁
    have hnode := hws.trans hos
    split
    next p₂ heq =>
      rw [heq] at hnode
      exact ⟨_, hnode.all⟩
    next p₂ heq =>
      rw [heq] at hnode
      obtain ⟨ys, hys⟩ := planNodes_spec ns p₂
      exact ⟨_, hnode.cons hys⟩

end KernelGraph

end OpBase.Graph
