import OpBase.Mem.Lifetime
import OpBase.Mem.MaxAllocator

/-!
# The workspace plan of a composite op

`aclOpExecutor::GetWorkspaceSize`: sort the kernel tensors of the graph, hand
them to `MaxAllocator`, return the total. This file puts the graph and the
allocator together and asks whether two storages that are alive at the same
moment can share bytes.

They can. The planner keeps one lifetime for each storage, the one of the first
`KernelTensor` over it, and that lifetime stops growing at the second op that
lists the storage as output (`Track.again`): an in-place op hides every later
use. `plan_safe` names what a sequence of ops has to keep to for the plan to be
sound, and proves that it then is.
-/

namespace OpBase.Mem

open List
open KernelGraph (build build_track)
open MaxAllocator (InOrder allocate firstOver)

/-! ## Live ranges -/

namespace OpCall

/-- Op `op` lists a tensor over `S` as output, or as its own scratch workspace. -/
def writes (op : OpCall) (S : Nat) : Bool :=
  (op.outputs.map some).any (atop S) || op.workspace.any (atop S)

/-- Op `op` lists a tensor over `S`. -/
def uses (op : OpCall) (S : Nat) : Bool := op.inputs.any (atop S) || op.writes S

/-- The tensors op `op` lists. -/
def listed (op : OpCall) : List (Option AclTensor) :=
  op.inputs ++ op.outputs.map some ++ op.workspace

/-- The tensors of op `op` the planner has to place, in its order. -/
def planned (op : OpCall) (fromWorkspace : Nat → Bool) : List (Option AclTensor) :=
  op.workspace ++ (op.outputs.filter fun t => fromWorkspace t.storage).map some

end OpCall

/-- Position `x` lies in the live range of `S`: some op up to `x` writes `S`, and
some op from `x` on lists it. -/
def LiveAt (ops : List OpCall) (S x : Nat) : Prop :=
  (∃ (i : Nat) (op : OpCall), ops[i]? = some op ∧ op.writes S ∧ i ≤ x) ∧
    ∃ (j : Nat) (op : OpCall), ops[j]? = some op ∧ op.uses S ∧ x ≤ j

/-- `CalcSize`; a null tensor keeps the initial size. -/
def tensorBytes (t : Option AclTensor) : Int :=
  match t with
  | none => 0
  | some t => t.size

/-- The bytes a storage needs: those of the largest tensor listed over it. -/
def storageSize (ops : List OpCall) (S : Nat) : Nat :=
  (((ops.flatMap OpCall.listed).filter (atop S)).map fun t => (tensorBytes t).toNat).foldr max 0

/-- `GetWorkspaceSize` on the graph of `ops`, the storages being new: the
returned total, which includes `aicpuMem` bytes for AI CPU tasks, and the
`workspaceOffset_` of every storage. -/
def getWorkspaceSize (ops : List OpCall) (fromWorkspace : Nat → Bool) (aicpuMem : Nat) :
    Nat × (Nat → Nat) :=
  let tensors := (build ops).calcLifeTimeAndSize fromWorkspace
  let (total, workspaceOffset) := allocate tensors fun _ => 0
  ((total + aicpuMem) % 2 ^ 64, workspaceOffset)

/-- The byte range the plan gives to storage `S`. -/
def planRange (ops : List OpCall) (fromWorkspace : Nat → Bool) (aicpuMem S : Nat) : Set Nat :=
  Set.Ico ((getWorkspaceSize ops fromWorkspace aicpuMem).2 S)
    ((getWorkspaceSize ops fromWorkspace aicpuMem).2 S + storageSize ops S)

/-- Storages alive together share no byte, and every range lies inside the workspace. -/
structure NoAlias (ops : List OpCall) (fromWorkspace : Nat → Bool) (aicpuMem : Nat) : Prop where
  disjoint : ∀ S₁ S₂ x, S₁ ≠ S₂ → fromWorkspace S₁ → fromWorkspace S₂ →
    LiveAt ops S₁ x → LiveAt ops S₂ x →
    Disjoint (planRange ops fromWorkspace aicpuMem S₁) (planRange ops fromWorkspace aicpuMem S₂)
  inside : ∀ S x, fromWorkspace S → LiveAt ops S x → planRange ops fromWorkspace aicpuMem S ⊆
      Set.Ico 0 (getWorkspaceSize ops fromWorkspace aicpuMem).1

/-- How often the ops list a tensor over `S` as output. -/
def outputCount (S : Nat) (ops : List OpCall) : Nat :=
  (ops.flatMap fun op => op.outputs.map some).countP (atop S)

/-- What a sequence of ops has to keep to. -/
structure Plannable (ops : List OpCall) (fromWorkspace : Nat → Bool) (aicpuMem : Nat) : Prop where
  /-- A scratch workspace is listed by one op only. -/
  scratch : ∀ (S i j : Nat) (op op' : OpCall), fromWorkspace S → ops[i]? = some op →
    ops[j]? = some op' → op.workspace.any (atop S) → op'.uses S → i = j
  /-- No op lists a storage after the op that is the second to list it as output. -/
  noLateUse : ∀ (S j : Nat) (op : OpCall), fromWorkspace S → ops[j]? = some op → op.uses S →
    outputCount S (ops.take j) ≤ 1
  /-- The first tensor written over a storage is the largest one over it. -/
  firstLargest : ∀ (S : Nat) (t : Option AclTensor), fromWorkspace S →
    (ops.flatMap (·.planned fromWorkspace)).find? (atop S) = some t →
    storageSize ops S ≤ (tensorBytes t).toNat
  /-- All aligned sizes together fit `uint64_t`. -/
  fits : ((ops.flatMap (·.planned fromWorkspace)).map fun t =>
    align (tensorBytes t % 2 ^ 64).toNat).sum + aicpuMem < 2 ^ 64

/-! ## What the tracker covers -/

theorem any_over_iff {S : Nat} {ts : List (Option AclTensor)} :
    ts.any (atop S) = true ↔ 0 < ts.countP (atop S) := by
  rw [any_eq_true, countP_pos_iff]

theorem Track.input_foldl (S j : Nat) (ts : List (Option AclTensor)) (tr : Track) :
    ts.foldl (fun tr t => if atop S t then tr.input j else tr) tr =
      if ts.any (atop S) then tr.input j else tr := by
  induction ts generalizing tr with
  | nil => rfl
  | cons t ts ih =>
    rw [foldl_cons, ih, any_cons]
    cases atop S t with
    | false => simp
    | true => cases tr <;> cases ts.any (atop S) <;> simp [Track.input]

theorem Track.output_foldl (S j : Nat) (ts : List (Option AclTensor)) (tr : Track) :
    ts.foldl (fun tr t => if atop S t then tr.output j else tr) tr =
      match ts.countP (atop S) with
      | 0 => tr
      | 1 => tr.output j
      | _ + 2 => (tr.output j).output j := by
  induction ts generalizing tr with
  | nil => rfl
  | cons t ts ih =>
    rw [foldl_cons, ih, countP_cons]
    cases atop S t with
    | false => simp
    | true =>
      rcases ts.countP (atop S) with _ | _ | n
      · rfl
      · rfl
      · cases tr <;> simp [Track.output]

/-- `[a, e]` contains the range of `S` from its first output listing to its last listing. -/
structure Spans (ops : List OpCall) (S a e : Nat) : Prop where
  lt : a < ops.length
  start : ∀ (i : Nat) (op : OpCall), ops[i]? = some op → (op.outputs.map some).any (atop S) → a ≤ i
  stop : ∀ (j : Nat) (op : OpCall), ops[j]? = some op →
    op.inputs.any (atop S) || (op.outputs.map some).any (atop S) → a ≤ j → j ≤ e

theorem getElem?_concat {α : Type _} {xs : List α} {x y : α} {i : Nat}
    (h : (xs ++ [x])[i]? = some y) : xs[i]? = some y ∨ i = xs.length ∧ x = y := by
  rcases Nat.lt_trichotomy i xs.length with hlt | rfl | hgt
  · rw [getElem?_append_left hlt] at h; exact Or.inl h
  · rw [getElem?_concat_length] at h; exact Or.inr ⟨rfl, Option.some.inj h⟩
  · rw [getElem?_eq_none (by simp; omega)] at h; cases h

variable {op : OpCall}

theorem Spans.concat {ops : List OpCall} {S a e e' : Nat} (h : Spans ops S a e) (hle : e ≤ e')
    (hlast : op.inputs.any (atop S) || (op.outputs.map some).any (atop S) → ops.length ≤ e') :
    Spans (ops ++ [op]) S a e' := by
  refine ⟨by have := h.lt; simp; omega, ?_, ?_⟩
  · intro i op' hi hout
    rcases getElem?_concat hi with hi | ⟨rfl, rfl⟩
    · exact h.start i op' hi hout
    · exact Nat.le_of_lt h.lt
  · intro j op' hj huse hge
    rcases getElem?_concat hj with hj | ⟨rfl, rfl⟩
    · exact Nat.le_trans (h.stop j op' hj huse hge) hle
    · exact hlast huse

theorem outputCount_concat (S : Nat) (ops : List OpCall) (op : OpCall) :
    outputCount S (ops ++ [op]) = outputCount S ops + (op.outputs.map some).countP (atop S) := by
  simp [outputCount]

/-- The first op to list `S` as output starts the range. -/
theorem spans_first {ops : List OpCall} {S : Nat} (h : outputCount S ops = 0) :
    Spans (ops ++ [op]) S ops.length ops.length := by
  refine ⟨by simp, ?_, ?_⟩
  · intro i op' hi hout
    rcases getElem?_concat hi with hi | ⟨rfl, -⟩
    · rw [any_over_iff, countP_pos_iff] at hout
      obtain ⟨t, ht, hover⟩ := hout
      rw [outputCount, countP_eq_zero] at h
      exact absurd hover (h t (mem_flatMap.mpr ⟨op', mem_of_getElem? hi, ht⟩))
    · exact Nat.le_refl _
  · intro j op' hj _ hge
    have := (List.getElem?_eq_some_iff.mp hj).1
    simp only [length_append, length_cons, length_nil] at this
    omega

/-- What a tracker state says about the ops behind it. -/
def Covers (ops : List OpCall) (S : Nat) : Track → Prop
  | .unseen => outputCount S ops = 0
  | .once a e => outputCount S ops = 1 ∧ Spans ops S a e
  | .again a e => 2 ≤ outputCount S ops ∧ Spans ops S a e

/-- One op more: what is tracked covers all uses. -/
theorem trackOp_covers {ops : List OpCall} {S : Nat} {tr : Track} (h : Covers ops S tr)
    (hlate : op.uses S → outputCount S ops ≤ 1) :
    Covers (ops ++ [op]) S (trackOp S ops.length op tr) := by
  unfold trackOp
  rw [Track.input_foldl, Track.output_foldl]
  have hout : (op.outputs.map some).any (atop S) = true ↔
      0 < (op.outputs.map some).countP (atop S) := any_over_iff
  have hcount := outputCount_concat S ops op
  have huses : op.inputs.any (atop S) || (op.outputs.map some).any (atop S) → op.uses S := by
    unfold OpCall.uses OpCall.writes
    cases op.inputs.any (atop S) <;> cases (op.outputs.map some).any (atop S) <;> simp
  cases tr with
  | unseen =>
    have hin : (if op.inputs.any (atop S) then Track.unseen.input ops.length else .unseen)
        = .unseen := by split <;> rfl
    have h : outputCount S ops = 0 := h
    rw [hin]
    split
    next hn => rw [hn] at hcount; exact hcount.trans h
    next hn => exact ⟨by omega, spans_first h⟩
    next n hn => exact ⟨by omega, by simpa [Track.output] using spans_first h⟩
  | once a e =>
    obtain ⟨h1, hs⟩ := h
    obtain ⟨e', he', hin⟩ : ∃ e', (e ≤ e' ∧ (op.inputs.any (atop S) → ops.length ≤ e')) ∧
        (if op.inputs.any (atop S) then (Track.once a e).input ops.length else .once a e)
          = .once a e' := by
      cases op.inputs.any (atop S) with
      | false => exact ⟨e, ⟨Nat.le_refl _, fun h => by cases h⟩, rfl⟩
      | true => exact ⟨max e ops.length, ⟨Nat.le_max_left _ _, fun _ => Nat.le_max_right _ _⟩, rfl⟩
    rw [hin]
    split
    next hn =>
      refine ⟨by omega, hs.concat he'.1 ?_⟩
      intro huse
      rcases Bool.or_eq_true_iff.mp huse with hi | ho
      · exact he'.2 hi
      · have := hout.mp ho; omega
    next hn =>
      exact ⟨by omega, hs.concat (Nat.le_trans he'.1 (Nat.le_max_left _ _))
        fun _ => Nat.le_max_right _ _⟩
    next n hn =>
      exact ⟨by omega, hs.concat (Nat.le_trans he'.1 (Nat.le_max_left _ _))
        fun _ => Nat.le_max_right _ _⟩
  | again a e =>
    obtain ⟨h2, hs⟩ := h
    -- the lifetime is frozen, and no late use asks for more
    have hno : ¬ (op.inputs.any (atop S) || (op.outputs.map some).any (atop S)) = true := by
      intro huse
      have := hlate (huses huse)
      omega
    rw [Bool.or_eq_true_iff, not_or] at hno
    have hn : (op.outputs.map some).countP (atop S) = 0 := by
      have := hno.2; rw [hout] at this; omega
    rw [if_neg hno.1, hn]
    refine ⟨by omega, hs.concat (Nat.le_refl _) fun huse => ?_⟩
    rcases Bool.or_eq_true_iff.mp huse with hi | ho
    · exact absurd hi hno.1
    · exact absurd ho hno.2

/-- Without late uses, the recorded lifetime spans every output and input of `S`. -/
theorem track_covers {S : Nat} (ops : List OpCall)
    (hlate : ∀ (j : Nat) (op : OpCall), ops[j]? = some op → op.uses S →
      outputCount S (ops.take j) ≤ 1) : Covers ops S (track S ops) := by
  induction ops using List.reverseRecOn with
  | nil => rfl
  | append_singleton ops op ih =>
    rw [track_concat]
    refine trackOp_covers (ih ?_) ?_
    · intro j op' hj huse
      have hlt := (List.getElem?_eq_some_iff.mp hj).1
      have := hlate j op' (by rw [getElem?_append_left hlt]; exact hj) huse
      rwa [take_append_of_le_length (Nat.le_of_lt hlt)] at this
    · intro huse
      have := hlate ops.length op (by simp) huse
      rwa [take_left] at this

/-! ## The sorted tensors of a built graph -/

namespace KernelGraph

/-- The entries of one node. -/
def nodeEntries (g : KernelGraph) (fromWorkspace : Nat → Bool) (node : KernelNode) :
    List SortedTensor :=
  node.workspace.map (g.workspaceEntry node) ++
    node.outputs.filterMap (g.outputEntry fromWorkspace node)

theorem le_lifeTimeEnd (g : KernelGraph) (k : Nat) : g.topoId k ≤ g.lifeTimeEnd k := by
  unfold lifeTimeEnd
  generalize (g.kts k).peers = peers
  generalize g.topoId k = e
  induction peers generalizing e with
  | nil => exact Nat.le_refl _
  | cons p peers ih =>
    refine Nat.le_trans ?_ (ih _)
    show e ≤ if g.topoId p > e then g.topoId p else e
    split <;> omega

variable {node : KernelNode} {e : SortedTensor}

theorem outputEntry_eq_some {g : KernelGraph} {fromWorkspace : Nat → Bool} {k : Nat}
    (h : g.outputEntry fromWorkspace node k = some e) :
    e.aclTensor = (g.kts k).aclTensor ∧ e.lifeTimeStart = node.topoId ∧
      e.lifeTimeEnd = g.lifeTimeEnd k ∧ e.tensorSize = tensorBytes e.aclTensor := by
  unfold outputEntry at h
  split at h
  next => cases h
  next t ht =>
    split at h
    next => cases h; exact ⟨ht.symm, rfl, rfl, rfl⟩
    next => cases h

variable {j : Nat}

theorem nodeEntries_spec {g : KernelGraph} {fromWorkspace : Nat → Bool} (hd : Describes g node op j)
    (he : e ∈ g.nodeEntries fromWorkspace node) :
    e.lifeTimeStart = j ∧ j ≤ e.lifeTimeEnd ∧ e.tensorSize = tensorBytes e.aclTensor := by
  rcases mem_append.mp he with he | he
  · obtain ⟨k, -, rfl⟩ := mem_map.mp he
    exact ⟨hd.topoId, Nat.le_of_eq hd.topoId.symm, rfl⟩
  · obtain ⟨k, hk, he⟩ := mem_filterMap.mp he
    obtain ⟨-, hstart, hend, hsize⟩ := outputEntry_eq_some he
    refine ⟨hstart.trans hd.topoId, ?_, hsize⟩
    rw [hend, ← hd.owner k hk]
    exact g.le_lifeTimeEnd k

theorem nodeEntries_planned {g : KernelGraph} (fromWorkspace : Nat → Bool)
    (hd : Describes g node op j) :
    (g.nodeEntries fromWorkspace node).map (·.aclTensor) = op.planned fromWorkspace := by
  unfold nodeEntries OpCall.planned
  rw [map_append]
  congr 1
  · rw [map_map, ← hd.workspace]
    rfl
  · have hout := hd.outputs
    generalize node.outputs = ks at hout
    generalize op.outputs = ts at hout
    induction ks generalizing ts with
    | nil => cases ts <;> simp_all
    | cons k ks ih =>
      cases ts with
      | nil => simp at hout
      | cons t ts =>
        simp only [map_cons, List.cons.injEq] at hout
        have hentry : g.outputEntry fromWorkspace node k =
            if fromWorkspace t.storage then some ⟨some t, node.topoId, g.lifeTimeEnd k, t.size,
              node.inputs.map fun i => (g.kts i).aclTensor⟩ else none := by
          unfold outputEntry
          rw [hout.1]
        cases hfw : fromWorkspace t.storage with
        | true | false => simp [hentry, hfw, ih ts hout.2]

theorem flatMap_nodes {g : KernelGraph} {ops : List OpCall} (h : Built g ops) {α : Type}
    {F : KernelNode → List α} {G : OpCall → List α}
    (hFG : ∀ node op j, Describes g node op j → F node = G op) :
    g.kernelNodes.flatMap F = ops.flatMap G := by
  have hmap : g.kernelNodes.map F = ops.map G := by
    refine ext_getElem (by simp [h.length]) ?_
    intro j hj₁ hj₂
    simp only [length_map] at hj₁ hj₂
    simp only [getElem_map]
    exact hFG _ _ j (h.nodes j _ _ (getElem?_eq_getElem hj₁) (getElem?_eq_getElem hj₂))
  rw [flatMap_def, flatMap_def, hmap]

theorem calcLifeTimeAndSize_planned {g : KernelGraph} {ops : List OpCall} (h : Built g ops)
    (fromWorkspace : Nat → Bool) :
    (g.calcLifeTimeAndSize fromWorkspace).map (·.aclTensor)
      = ops.flatMap (·.planned fromWorkspace) := by
  show (g.kernelNodes.flatMap (g.nodeEntries fromWorkspace)).map _ = _
  rw [map_flatMap]
  exact flatMap_nodes h fun node op j hd => nodeEntries_planned fromWorkspace hd

theorem Built.describes {g : KernelGraph} {ops : List OpCall} (h : Built g ops)
    (hj : g.kernelNodes[j]? = some node) :
    ∃ op, ops[j]? = some op ∧ Describes g node op j := by
  have hlt : j < ops.length := h.length ▸ (List.getElem?_eq_some_iff.mp hj).1
  exact ⟨ops[j], getElem?_eq_getElem hlt, h.nodes j _ _ hj (getElem?_eq_getElem hlt)⟩

/-- The life times come in the order of their starts. -/
theorem calcLifeTimeAndSize_inOrder {g : KernelGraph} {ops : List OpCall} (h : Built g ops)
    (fromWorkspace : Nat → Bool) : InOrder (g.calcLifeTimeAndSize fromWorkspace) := by
  have hspec : ∀ (j : Nat) (node : KernelNode), g.kernelNodes[j]? = some node →
      ∀ e ∈ g.nodeEntries fromWorkspace node, e.lifeTimeStart = j ∧ j ≤ e.lifeTimeEnd := by
    intro j node hj e he
    obtain ⟨op, -, hd⟩ := h.describes hj
    exact ⟨(nodeEntries_spec hd he).1, (nodeEntries_spec hd he).2.1⟩
  refine ⟨?_, ?_⟩
  · show (g.kernelNodes.flatMap (g.nodeEntries fromWorkspace)).Pairwise _
    rw [pairwise_flatMap]
    refine ⟨?_, ?_⟩
    · intro node hnode
      obtain ⟨j, hj⟩ := getElem?_of_mem hnode
      rw [pairwise_iff_getElem]
      intro i₁ i₂ hi₁ hi₂ _
      rw [(hspec j node hj _ (getElem_mem hi₁)).1, (hspec j node hj _ (getElem_mem hi₂)).1]
    · rw [pairwise_iff_getElem]
      intro i j hi hj hij x hx y hy
      rw [(hspec i _ (getElem?_eq_getElem hi) x hx).1, (hspec j _ (getElem?_eq_getElem hj) y hy).1]
      exact Nat.le_of_lt hij
  · intro e he
    obtain ⟨node, hnode, he⟩ := mem_flatMap.mp he
    obtain ⟨j, hj⟩ := getElem?_of_mem hnode
    obtain ⟨hstart, hend⟩ := hspec j node hj e he
    rw [hstart]
    exact hend

theorem storage?_beq (S : Nat) (t : SortedTensor) :
    (t.storage? == some S) = atop S t.aclTensor := by
  unfold SortedTensor.storage? atop
  cases t.aclTensor with
  | none => rfl
  | some a => simp

theorem outputEntry_of_isOver {g : KernelGraph} {fromWorkspace : Nat → Bool} {S k : Nat}
    (hS : fromWorkspace S) (hk : g.isOver S k = true) (node : KernelNode) :
    ∃ e, g.outputEntry fromWorkspace node k = some e := by
  unfold isOver atop at hk
  unfold outputEntry
  cases ht : (g.kts k).aclTensor with
  | none => rw [ht] at hk; cases hk
  | some t =>
    rw [ht, Option.any_some, beq_iff_eq] at hk
    simp only [hk, hS, if_true]
    exact ⟨_, rfl⟩

theorem find?_outputEntry {g : KernelGraph} {fromWorkspace : Nat → Bool} {S : Nat}
    (hS : fromWorkspace S) (node : KernelNode) : ∀ ks : List Nat,
    (ks.filterMap (g.outputEntry fromWorkspace node)).find? (fun t => atop S t.aclTensor) =
      (ks.find? (g.isOver S)).bind (g.outputEntry fromWorkspace node)
  | [] => rfl
  | k :: ks => by
    have ih := find?_outputEntry (g := g) hS node ks
    cases hentry : g.outputEntry fromWorkspace node k with
    | none =>
      have hk : g.isOver S k = false := by
        rw [← Bool.not_eq_true]
        intro hk
        obtain ⟨e, he⟩ := outputEntry_of_isOver hS hk node
        rw [hentry] at he
        cases he
      rw [filterMap_cons_none hentry, find?_cons, hk]
      exact ih
    | some e =>
      have hover : atop S e.aclTensor = g.isOver S k := by
        rw [(outputEntry_eq_some hentry).1]
        rfl
      rw [filterMap_cons_some hentry, find?_cons, find?_cons, hover]
      cases g.isOver S k with
      | false => exact ih
      | true => exact hentry.symm

/-- Where the first entry over `S` comes from: from a workspace listing of some op
`j`, or from the first output `KernelTensor` over `S`. -/
theorem firstOver_cases {g : KernelGraph} {ops : List OpCall} (h : Built g ops)
    {fromWorkspace : Nat → Bool} {S : Nat} (hS : fromWorkspace S)
    (he : firstOver (g.calcLifeTimeAndSize fromWorkspace) S = some e) :
    ∃ (j : Nat) (op : OpCall), ops[j]? = some op ∧ op.writes S ∧ e.lifeTimeStart = j ∧
      j ≤ e.lifeTimeEnd ∧ e.tensorSize = tensorBytes e.aclTensor ∧
      (op.workspace.any (atop S) ∨
        ∃ k, g.outs.find? (g.isOver S) = some k ∧ g.topoId k = j ∧
          e.lifeTimeEnd = g.lifeTimeEnd k) := by
  have he' : g.kernelNodes.findSome? (fun node => (g.nodeEntries fromWorkspace node).find?
      fun t => atop S t.aclTensor) = some e := by
    rw [← find?_flatMap, ← he]
    unfold firstOver calcLifeTimeAndSize
    simp only [storage?_beq]
    rfl
  obtain ⟨before, node, after, hnodes, hfind, hbefore⟩ := findSome?_eq_some_iff.mp he'
  have hj : g.kernelNodes[before.length]? = some node := by rw [hnodes]; simp
  obtain ⟨op, hop, hd⟩ := h.describes hj
  obtain ⟨hstart, hend, hsize⟩ := nodeEntries_spec hd (mem_of_find?_eq_some hfind)
  unfold nodeEntries at hfind
  rw [find?_append] at hfind
  cases hws : (node.workspace.map (g.workspaceEntry node)).find? fun t => atop S t.aclTensor with
  | some e' =>
    obtain ⟨k, hk, rfl⟩ := mem_map.mp (mem_of_find?_eq_some hws)
    have hover' : atop S (g.workspaceEntry node k).aclTensor = true := by
      simpa using find?_some hws
    have hany : op.workspace.any (atop S) := by
      rw [← hd.workspace, any_map]
      exact any_eq_true.mpr ⟨k, hk, hover'⟩
    exact ⟨before.length, op, hop, by simp [OpCall.writes, hany], hstart, hend, hsize, Or.inl hany⟩
  | none =>
    rw [hws, Option.none_or] at hfind
    rw [find?_outputEntry hS] at hfind
    obtain ⟨k, hk, hentry⟩ := Option.bind_eq_some_iff.mp hfind
    obtain ⟨-, -, hlife, -⟩ := outputEntry_eq_some hentry
    have hmem := mem_of_find?_eq_some hk
    have hout : (op.outputs.map some).any (atop S) := by
      rw [← hd.outputs, any_map]
      exact any_eq_true.mpr ⟨k, hmem, find?_some hk⟩
    refine ⟨before.length, op, hop, by simp [OpCall.writes, hout], hstart, hend, hsize,
      Or.inr ⟨k, ?_, hd.owner k hmem, hlife⟩⟩
    -- no earlier node has an output over `S`
    have hnone : (before.flatMap (·.outputs)).find? (g.isOver S) = none := by
      rw [find?_flatMap, findSome?_eq_none_iff]
      intro nd hnd
      have := hbefore nd hnd
      rw [nodeEntries, find?_append, find?_outputEntry hS, Option.or_eq_none_iff] at this
      cases hf : nd.outputs.find? (g.isOver S) with
      | none => rfl
      | some k' =>
        obtain ⟨e', he'⟩ := outputEntry_of_isOver hS (find?_some hf) nd
        rw [hf, Option.bind_some, he'] at this
        cases this.2
    unfold outs
    rw [hnodes, flatMap_append, find?_append, hnone, flatMap_cons, find?_append, hk]
    rfl

end KernelGraph

/-! ## The plan -/

section

variable {ops : List OpCall} {fromWorkspace : Nat → Bool} {aicpuMem : Nat} {t : SortedTensor}

/-- The list the allocator works on. -/
def planTensors (ops : List OpCall) (fromWorkspace : Nat → Bool) : List SortedTensor :=
  (build ops).calcLifeTimeAndSize fromWorkspace

theorem planTensors_inOrder : InOrder (planTensors ops fromWorkspace) :=
  KernelGraph.calcLifeTimeAndSize_inOrder (build_track ops) fromWorkspace

theorem mem_planTensors_size (ht : t ∈ planTensors ops fromWorkspace) :
    t.tensorSize = tensorBytes t.aclTensor := by
  obtain ⟨node, hnode, ht⟩ := mem_flatMap.mp ht
  obtain ⟨j, hj⟩ := getElem?_of_mem hnode
  obtain ⟨op, -, hd⟩ := (build_track ops).describes hj
  exact (KernelGraph.nodeEntries_spec hd ht).2.2

theorem planTensors_bytes :
    ((planTensors ops fromWorkspace).map (·.alignedSize)).sum =
      ((ops.flatMap (·.planned fromWorkspace)).map fun t =>
        align (tensorBytes t % 2 ^ 64).toNat).sum := by
  rw [← KernelGraph.calcLifeTimeAndSize_planned (build_track ops) fromWorkspace, map_map]
  refine congrArg List.sum (map_congr_left fun t ht => ?_)
  simp only [Function.comp, SortedTensor.alignedSize, mem_planTensors_size ht]

theorem firstOver_of_liveAt {S x : Nat} (hS : fromWorkspace S) (h : LiveAt ops S x) :
    ∃ t, firstOver (planTensors ops fromWorkspace) S = some t := by
  obtain ⟨⟨i, op, hi, hw, -⟩, -⟩ := h
  have hmem : ∃ t ∈ ops.flatMap (·.planned fromWorkspace), atop S t = true := by
    simp only [OpCall.writes, Bool.or_eq_true, any_eq_true] at hw
    rcases hw with ⟨t, ht, hover⟩ | ⟨t, ht, hover⟩
    · obtain ⟨a, ha, rfl⟩ := mem_map.mp ht
      have hSa : a.storage = S := by simpa [atop] using hover
      refine ⟨some a, mem_flatMap.mpr ⟨op, mem_of_getElem? hi, ?_⟩, hover⟩
      refine mem_append_right _ (mem_map_of_mem (mem_filter.mpr ⟨ha, ?_⟩))
      rw [hSa]
      exact hS
    · exact ⟨t, mem_flatMap.mpr ⟨op, mem_of_getElem? hi, mem_append_left _ ht⟩,
        hover⟩
  rw [← KernelGraph.calcLifeTimeAndSize_planned (build_track ops) fromWorkspace] at hmem
  obtain ⟨t, ht, hover⟩ := hmem
  obtain ⟨e, he, rfl⟩ := mem_map.mp ht
  refine Option.isSome_iff_exists.mp (MaxAllocator.firstOver_isSome_of_mem he ?_)
  have := KernelGraph.storage?_beq S e
  rw [hover] at this
  simpa using this

/-- A storage is planned for the whole of its life. -/
theorem lifetime_covers (h : Plannable ops fromWorkspace aicpuMem) {S x : Nat}
    (hS : fromWorkspace S) (hlive : LiveAt ops S x)
    (ht : firstOver (planTensors ops fromWorkspace) S = some t) :
    t.lifeTimeStart ≤ x ∧ x ≤ t.lifeTimeEnd := by
  have hb := build_track ops
  obtain ⟨j, op, hop, hw, hstart, hend, -, hcase⟩ := KernelGraph.firstOver_cases hb hS ht
  obtain ⟨⟨i, opi, hi, hwi, hix⟩, ⟨l, opl, hl, hul, hxl⟩⟩ := hlive
  have huses : ∀ o : OpCall, o.writes S → o.uses S := fun o ho => by simp [OpCall.uses, ho]
  by_cases hws : op.workspace.any (atop S)
  · -- a scratch workspace: everything happens in op `j`
    have := h.scratch S j i op opi hS hop hi hws (huses _ hwi)
    have := h.scratch S j l op opl hS hop hl hws hul
    omega
  · -- no op at all has `S` as scratch, since op `j` writes it
    have hno : ∀ (m : Nat) (o : OpCall), ops[m]? = some o → ¬ o.workspace.any (atop S) = true := by
      intro m o hm ho
      have := h.scratch S m j o op hS hm hop ho (huses _ hw)
      subst this
      rw [hop] at hm
      cases hm
      exact hws ho
    have hwi' : (opi.outputs.map some).any (atop S) := by
      simpa [OpCall.writes, hno i opi hi] using hwi
    have hul' : opl.inputs.any (atop S) || (opl.outputs.map some).any (atop S) := by
      simpa [OpCall.uses, OpCall.writes, hno l opl hl] using hul
    obtain ⟨k, hfind, htopo, hlife⟩ := hcase.resolve_left hws
    have hcov := track_covers ops fun m o hm ho => h.noLateUse S m o hS hm ho
    have htr := hb.tracks S
    have hspan : Spans ops S j t.lifeTimeEnd := by
      cases htrack : track S ops with
      | unseen =>
        rw [htrack] at htr
        rw [htr.2] at hfind
        cases hfind
      | once a e =>
        rw [htrack] at htr hcov
        obtain ⟨k', -, hfind', htopo', hlife'⟩ := htr
        obtain rfl : k = k' := Option.some.inj (hfind.symm.trans hfind')
        rw [hlife, hlife', ← htopo, htopo']
        exact hcov.2
      | again a e =>
        rw [htrack] at htr hcov
        obtain ⟨k', -, -, -, hfind', htopo', hlife'⟩ := htr
        obtain rfl : k = k' := Option.some.inj (hfind.symm.trans hfind')
        rw [hlife, hlife', ← htopo, htopo']
        exact hcov.2
    have hji := hspan.start i opi hi hwi'
    have := hspan.stop l opl hl hul' (by omega)
    omega

theorem storageSize_le (h : Plannable ops fromWorkspace aicpuMem) {S : Nat} (hS : fromWorkspace S)
    (ht : firstOver (planTensors ops fromWorkspace) S = some t) :
    storageSize ops S ≤ t.alignedSize := by
  have hmem := mem_of_find?_eq_some ht
  have hsize := mem_planTensors_size hmem
  have hfirst : (ops.flatMap (·.planned fromWorkspace)).find? (atop S) = some t.aclTensor := by
    rw [← KernelGraph.calcLifeTimeAndSize_planned (build_track ops) fromWorkspace, find?_map]
    have hcomp : (atop S ∘ fun e : SortedTensor => e.aclTensor)
        = fun e : SortedTensor => e.storage? == some S :=
      funext fun e => (KernelGraph.storage?_beq S e).symm
    rw [hcomp]
    exact congrArg (Option.map _) ht
  refine Nat.le_trans (h.firstLargest S _ hS hfirst) ?_
  rw [← hsize]
  refine MaxAllocator.size_le_alignedSize ?_
  rw [hsize]
  unfold tensorBytes
  cases t.aclTensor with
  | none => decide
  | some a => exact calcSize_lt _ _

/-- **The plan of a well-behaved op sequence is sound.** Whatever the ops, if
scratch workspaces stay private, no storage is listed after its second output
listing, the first tensor over a storage is its largest and the sizes fit 64
bits, then storages alive together get disjoint ranges inside the workspace. -/
theorem plan_safe (h : Plannable ops fromWorkspace aicpuMem) :
    NoAlias ops fromWorkspace aicpuMem := by
  have hord := @planTensors_inOrder ops fromWorkspace
  have hw : MaxAllocator.Unmarked (planTensors ops fromWorkspace) fun _ => 0 := fun _ _ _ _ =>
    (by decide : (0 : Nat) ≠ OFFSET_PLACEHOLDER)
  have hfit := h.fits
  rw [← planTensors_bytes] at hfit
  have hfit' : ((planTensors ops fromWorkspace).map (·.alignedSize)).sum < 2 ^ 64 := by omega
  refine ⟨?_, ?_⟩
  · intro S₁ S₂ x hne hS₁ hS₂ hlive₁ hlive₂
    obtain ⟨t₁, ht₁⟩ := firstOver_of_liveAt hS₁ hlive₁
    obtain ⟨t₂, ht₂⟩ := firstOver_of_liveAt hS₂ hlive₂
    -- while both are alive the life times of their tensors meet
    obtain ⟨hlo₁, hhi₁⟩ := lifetime_covers h hS₁ hlive₁ ht₁
    obtain ⟨hlo₂, hhi₂⟩ := lifetime_covers h hS₂ hlive₂ ht₂
    have hdisj := MaxAllocator.allocate_disjoint hord hw hfit' ht₁ ht₂ hne (by omega) (by omega)
    refine hdisj.mono ?_ ?_
    · exact Set.Ico_subset_Ico_right (Nat.add_le_add_left (storageSize_le h hS₁ ht₁) _)
    · exact Set.Ico_subset_Ico_right (Nat.add_le_add_left (storageSize_le h hS₂ ht₂) _)
  · intro S x hS hlive
    obtain ⟨t, ht⟩ := firstOver_of_liveAt hS hlive
    have hin := MaxAllocator.allocate_inside hord hw hfit' ht
    have htotal := MaxAllocator.allocate_total_le hord hw hfit'
    have hsize := storageSize_le h hS ht
    refine Set.Ico_subset_Ico (Nat.zero_le _) ?_
    show (allocate (planTensors ops fromWorkspace) fun _ => 0).2 S +
      storageSize ops S ≤
      ((allocate (planTensors ops fromWorkspace) fun _ => 0).1 + aicpuMem) % 2 ^ 64
    rw [Nat.mod_eq_of_lt (by omega)]
    omega

end

/-- Three ops in a row: the second reads what the first wrote and has a scratch
workspace, the third reads what the second wrote. -/
def chainOps : List OpCall :=
  let tensor (ptr storage : Nat) (n : Int) : AclTensor := ⟨ptr, storage, .DT_FLOAT, n⟩
  [⟨[some (tensor 10 9 256)], [tensor 11 0 256], []⟩,
   ⟨[some (tensor 11 0 256)], [tensor 12 1 100], [some (tensor 13 2 1000)]⟩,
   ⟨[some (tensor 12 1 100)], [tensor 14 8 256], []⟩]

theorem plan_safe_chain : NoAlias chainOps (fun S => decide (S < 3)) 64 := by
  refine plan_safe ⟨?_, ?_, ?_, by decide⟩
  · have hall : ∀ S < 3, ∀ i < 3, ∀ j < 3, ∀ op ∈ chainOps[i]?, ∀ op' ∈ chainOps[j]?,
        op.workspace.any (atop S) → op'.uses S → i = j := by decide
    intro S i j op op' hS hi hj
    exact hall S (by simpa using hS) i (List.getElem?_eq_some_iff.mp hi).1 j
      (List.getElem?_eq_some_iff.mp hj).1 op hi op' hj
  · have hall : ∀ S < 3, ∀ j < 3, ∀ op ∈ chainOps[j]?, op.uses S →
        outputCount S (chainOps.take j) ≤ 1 := by decide
    intro S j op hS hj
    exact hall S (by simpa using hS) j (List.getElem?_eq_some_iff.mp hj).1 op hj
  · have hall : ∀ S < 3,
        ∀ t ∈ (chainOps.flatMap (·.planned fun S => decide (S < 3))).find? (atop S),
        storageSize chainOps S ≤ (tensorBytes t).toNat := by decide
    intro S t hS ht
    exact hall S (by simpa using hS) t ht

/-- A storage written by op 0, updated in place by op 1 and read again by op 3,
while op 2 writes another storage. -/
def inplaceOps : List OpCall :=
  let a : AclTensor := ⟨11, 0, .DT_FLOAT, 256⟩
  let b : AclTensor := ⟨12, 1, .DT_FLOAT, 256⟩
  let x : AclTensor := ⟨13, 9, .DT_FLOAT, 256⟩
  let y : AclTensor := ⟨14, 8, .DT_FLOAT, 256⟩
  [⟨[some x], [a], []⟩, ⟨[some a], [a], []⟩, ⟨[some x], [b], []⟩, ⟨[some a, some b], [y], []⟩]

/-- The in-place op hides the last use: both storages are alive at op 2 and get
the same bytes. -/
theorem plan_aliases_inplace : ¬ NoAlias inplaceOps (fun S => decide (S < 2)) 0 := by
  intro h
  have hlive : ∀ S < 2, LiveAt inplaceOps S 2 := by
    intro S hS
    have hS' : S = 0 ∨ S = 1 := by omega
    rcases hS' with rfl | rfl
    · exact ⟨⟨0, _, rfl, rfl, by decide⟩, ⟨3, _, rfl, rfl, by decide⟩⟩
    · exact ⟨⟨2, _, rfl, rfl, by decide⟩, ⟨3, _, rfl, rfl, by decide⟩⟩
  have hdisj := h.disjoint 0 1 2 (by decide) rfl rfl (hlive 0 (by decide)) (hlive 1 (by decide))
  have hmem : ∀ S < 2, 0 ∈ planRange inplaceOps (fun S => decide (S < 2)) 0 S := by
    intro S hS
    have hrange : ∀ S < 2, (getWorkspaceSize inplaceOps (fun S => decide (S < 2)) 0).2 S = 0 ∧
        0 < storageSize inplaceOps S := by decide
    obtain ⟨hoff, hsize⟩ := hrange S hS
    rw [planRange, hoff]
    exact ⟨Nat.le_refl _, by omega⟩
  exact Set.disjoint_left.mp hdisj (hmem 0 (by decide)) (hmem 1 (by decide))

end OpBase.Mem
