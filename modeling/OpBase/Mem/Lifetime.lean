import OpBase.Mem.KernelGraph

/-!
# Lifetimes: what the peer links of a kernel graph record

`KernelGraph.calcLifeTimeAndSize` computes the lifetime of an output
`KernelTensor` from pointers that earlier `BuildGraph` calls left behind. This
file removes the pointers: `track S ops` replays the op list for one storage `S`
with a three-state tracker, and `build_track` shows that the first output
`KernelTensor` over `S` gets exactly the tracker's lifetime.

The tracker shows the planner's blind spot at a glance: once a storage has been
listed as output a second time (`again`), later listings change nothing, because
they link to the newer `KernelTensor`.
-/

namespace OpBase.Mem

open List

open Function (update)

/-! ## The tracker -/

/-- What the graph knows about one storage: never an output, an output once
(with the lifetime recorded so far), or an output again (lifetime frozen). -/
inductive Track where
  | unseen
  | once (start stop : Nat)
  | again (start stop : Nat)
deriving DecidableEq, Repr

/-- Op `j` lists the storage as input. -/
def Track.input (j : Nat) : Track → Track
  | .once a e => .once a (max e j)
  | tr => tr

/-- Op `j` lists the storage as output. -/
def Track.output (j : Nat) : Track → Track
  | .unseen => .once j j
  | .once a e => .again a (max e j)
  | .again a e => .again a e

/-- Whether a listed tensor is a tensor over storage `S`. -/
def atop (S : Nat) (t : Option AclTensor) : Bool := t.any (·.storage == S)

/-- One op, number `j`: its inputs are linked before its outputs. -/
def trackOp (S j : Nat) (op : OpCall) (tr : Track) : Track :=
  (op.outputs.map some).foldl (fun tr t => if atop S t then tr.output j else tr)
    (op.inputs.foldl (fun tr t => if atop S t then tr.input j else tr) tr)

/-- The ops from number `j` on. -/
def trackFrom (S : Nat) : Nat → List OpCall → Track → Track
  | _, [], tr => tr
  | j, op :: ops, tr => trackFrom S (j + 1) ops (trackOp S j op tr)

def track (S : Nat) (ops : List OpCall) : Track := trackFrom S 0 ops .unseen

theorem trackFrom_append (S : Nat) : ∀ (xs ys : List OpCall) (j : Nat) (tr : Track),
    trackFrom S j (xs ++ ys) tr = trackFrom S (j + xs.length) ys (trackFrom S j xs tr)
  | [], ys, j, tr => rfl
  | x :: xs, ys, j, tr => by
    show trackFrom S (j + 1) (xs ++ ys) _ = _
    rw [trackFrom_append S xs ys (j + 1)]
    show trackFrom S (j + 1 + xs.length) ys _ = trackFrom S (j + (xs.length + 1)) ys _
    rw [Nat.add_right_comm, ← Nat.add_assoc]
    rfl

theorem track_concat (S : Nat) (ops : List OpCall) (op : OpCall) :
    track S (ops ++ [op]) = trackOp S ops.length op (track S ops) := by
  unfold track
  rw [trackFrom_append, Nat.zero_add]
  rfl

/-! ## Heap facts -/

namespace KernelGraph

/-- Whether the `KernelTensor` at `k` is over storage `S`. -/
def isOver (g : KernelGraph) (S k : Nat) : Bool := atop S (g.kts k).aclTensor

variable (g : KernelGraph) (k p : Nat)

@[simp] theorem addPeer_extend : (g.addPeer k p).extend = g.extend := rfl

@[simp] theorem addPeer_aclTensor (k p j : Nat) :
    ((g.addPeer k p).kts j).aclTensor = (g.kts j).aclTensor := by
  by_cases h : j = k
  · subst h; simp [addPeer]
  · simp [addPeer, update, h]

@[simp] theorem addPeer_topoId (k p j : Nat) : (g.addPeer k p).topoId j = g.topoId j := by
  by_cases h : j = k
  · subst h; simp [addPeer, topoId]
  · simp [addPeer, topoId, update, h]

@[simp] theorem addPeer_isOver (k p S j : Nat) : (g.addPeer k p).isOver S j = g.isOver S j := by
  simp [isOver]

theorem addPeer_peers_ne {k j : Nat} (p : Nat) (h : j ≠ k) :
    ((g.addPeer k p).kts j).peers = (g.kts j).peers := by
  simp [addPeer, update, h]

theorem addPeer_peers_self : ((g.addPeer k p).kts k).peers = (g.kts k).peers ++ [p] := by
  simp [addPeer]

theorem lifeTimeEnd_addPeer_ne {k j : Nat} (p : Nat) (h : j ≠ k) :
    (g.addPeer k p).lifeTimeEnd j = g.lifeTimeEnd j := by
  simp [lifeTimeEnd, addPeer_peers_ne g p h]

theorem lifeTimeEnd_addPeer_self :
    (g.addPeer k p).lifeTimeEnd k = max (g.lifeTimeEnd k) (g.topoId p) := by
  simp only [lifeTimeEnd, addPeer_peers_self, addPeer_topoId, foldl_append, foldl_cons, foldl_nil]
  split <;> omega

/-- Bookkeeping of the heap: `outs` are the output `KernelTensor`s made so far. -/
structure WellFormed (g : KernelGraph) (outs : List Nat) : Prop where
  outs_lt : ∀ k ∈ outs, k < g.nextKt
  peers_lt : ∀ k, ∀ p ∈ (g.kts k).peers, p < g.nextKt
  extend_mem : ∀ S k, g.extend S = some k → k ∈ outs ∧ g.isOver S k = true

/-- The tracker state `tr` describes storage `S` in graph `g`. -/
def Tracks (g : KernelGraph) (outs : List Nat) (S : Nat) : Track → Prop
  | .unseen => g.extend S = none ∧ outs.find? (g.isOver S) = none
  | .once a e => ∃ k, g.extend S = some k ∧ outs.find? (g.isOver S) = some k ∧
      g.topoId k = a ∧ g.lifeTimeEnd k = e
  | .again a e => ∃ k k', k ≠ k' ∧ g.extend S = some k' ∧
      outs.find? (g.isOver S) = some k ∧ g.topoId k = a ∧ g.lifeTimeEnd k = e

theorem isOver_unique {g : KernelGraph} {S S' k : Nat} (h : g.isOver S k = true)
    (h' : g.isOver S' k = true) : S = S' := by
  unfold isOver atop at h h'
  cases ht : (g.kts k).aclTensor with
  | none => rw [ht] at h; simp at h
  | some t =>
    rw [ht] at h h'
    simp only [Option.any_some, beq_iff_eq] at h h'
    exact h.symm.trans h'

theorem find?_mem_over {g : KernelGraph} {outs : List Nat} {S k : Nat}
    (h : outs.find? (g.isOver S) = some k) : k ∈ outs ∧ g.isOver S k = true :=
  ⟨mem_of_find?_eq_some h, find?_some h⟩

/-- A change of the graph that `S` and its first output do not see. -/
theorem Tracks.frame {g g' : KernelGraph} {outs outs' : List Nat} {S : Nat} {tr : Track}
    (ht : Tracks g outs S tr) (hext : g'.extend S = g.extend S)
    (hfind : outs'.find? (g'.isOver S) = outs.find? (g.isOver S))
    (hkeep : ∀ k, outs.find? (g.isOver S) = some k →
      g'.topoId k = g.topoId k ∧ g'.lifeTimeEnd k = g.lifeTimeEnd k) :
    Tracks g' outs' S tr := by
  cases tr with
  | unseen => exact ⟨hext.trans ht.1, hfind.trans ht.2⟩
  | once a e =>
    obtain ⟨k, hk, hfk, htopo, hlife⟩ := ht
    exact ⟨k, hext.trans hk, hfind.trans hfk, (hkeep k hfk).1.trans htopo,
      (hkeep k hfk).2.trans hlife⟩
  | again a e =>
    obtain ⟨k, k', hne, hk, hfk, htopo, hlife⟩ := ht
    exact ⟨k, k', hne, hext.trans hk, hfind.trans hfk, (hkeep k hfk).1.trans htopo,
      (hkeep k hfk).2.trans hlife⟩

/-! ## Fresh tensors -/

/-- `g'` has the same objects as `g` below `g.nextKt`, and nothing else of the
graph changed. -/
structure Grows (g g' : KernelGraph) : Prop where
  le : g.nextKt ≤ g'.nextKt
  kts : ∀ k < g.nextKt, g'.kts k = g.kts k
  peers : ∀ k, g.nextKt ≤ k → (g'.kts k).peers = [] ∨ g'.kts k = g.kts k
  extend : g'.extend = g.extend
  kernelNodes : g'.kernelNodes = g.kernelNodes

theorem Grows.refl : Grows g g :=
  ⟨Nat.le_refl _, fun _ _ => rfl, fun _ _ => Or.inr rfl, rfl, rfl⟩

theorem newTensor_grows (node : Nat) (t : Option AclTensor) : Grows g (g.newTensor node t) := by
  refine ⟨Nat.le_succ _, ?_, ?_, rfl, rfl⟩
  · intro k hk
    simp [newTensor, update, Nat.ne_of_lt hk]
  · intro k _
    by_cases h : k = g.nextKt
    · subst h; left; simp [newTensor]
    · right; simp [newTensor, update, h]

theorem Grows.trans {g₁ g₂ g₃ : KernelGraph} (h₁ : Grows g₁ g₂) (h₂ : Grows g₂ g₃) :
    Grows g₁ g₃ := by
  refine ⟨Nat.le_trans h₁.le h₂.le, ?_, ?_, h₂.extend.trans h₁.extend,
    h₂.kernelNodes.trans h₁.kernelNodes⟩
  · intro k hk
    rw [h₂.kts k (Nat.lt_of_lt_of_le hk h₁.le), h₁.kts k hk]
  · intro k hk
    rcases Nat.lt_or_ge k g₂.nextKt with hlt | hge
    · rw [h₂.kts k hlt]; exact h₁.peers k hk
    · rcases h₂.peers k hge with h | h
      · exact Or.inl h
      · rw [h]; exact h₁.peers k hk

theorem newTensors_grows (node : Nat) : ∀ (ts : List (Option AclTensor)) (g : KernelGraph),
    Grows g (g.newTensors node ts)
  | [], g => Grows.refl g
  | t :: ts, g => (newTensor_grows g node t).trans (newTensors_grows node ts (g.newTensor node t))

theorem newTensors_nextKt (node : Nat) : ∀ (ts : List (Option AclTensor)) (g : KernelGraph),
    (g.newTensors node ts).nextKt = g.nextKt + ts.length
  | [], g => rfl
  | t :: ts, g => by
    show ((g.newTensor node t).newTensors node ts).nextKt = _
    rw [newTensors_nextKt node ts]
    show g.nextKt + 1 + ts.length = g.nextKt + (ts.length + 1)
    omega

/-- The new objects hold the listed tensors, in order, and belong to `node`. -/
theorem newTensors_kts (node : Nat) : ∀ (ts : List (Option AclTensor)) (g : KernelGraph),
    (List.range' g.nextKt ts.length).map (fun k => ((g.newTensors node ts).kts k).aclTensor) = ts ∧
    ∀ k ∈ List.range' g.nextKt ts.length,
      (g.newTensors node ts).topoId k = node ∧ ((g.newTensors node ts).kts k).peers = []
  | [], g => ⟨rfl, fun k hk => absurd hk (by simp)⟩
  | t :: ts, g => by
    obtain ⟨htensors, hfresh⟩ := newTensors_kts node ts (g.newTensor node t)
    have hhead : ((g.newTensor node t).newTensors node ts).kts g.nextKt = ⟨t, [], node⟩ := by
      rw [(newTensors_grows node ts (g.newTensor node t)).kts g.nextKt (Nat.lt_succ_self _)]
      simp [newTensor]
    have hrange : List.range' g.nextKt (t :: ts).length
        = g.nextKt :: List.range' (g.newTensor node t).nextKt ts.length := by
      simp [newTensor, range'_succ]
    refine ⟨?_, ?_⟩
    · rw [hrange, map_cons]
      exact congrArg₂ List.cons (congrArg KernelTensor.aclTensor hhead) htensors
    · intro k hk
      rw [hrange] at hk
      rcases mem_cons.mp hk with rfl | hk'
      · show ((g.newTensor node t).newTensors node ts).topoId g.nextKt = node ∧
          (((g.newTensor node t).newTensors node ts).kts g.nextKt).peers = []
        rw [topoId, hhead]
        exact ⟨rfl, rfl⟩
      · exact hfresh k hk'

theorem Grows.wellFormed {g g' : KernelGraph} {outs : List Nat} (h : Grows g g')
    (hw : WellFormed g outs) : WellFormed g' outs := by
  refine ⟨fun k hk => Nat.lt_of_lt_of_le (hw.outs_lt k hk) h.le, ?_, ?_⟩
  · intro k p hp
    rcases Nat.lt_or_ge k g.nextKt with hlt | hge
    · rw [h.kts k hlt] at hp
      exact Nat.lt_of_lt_of_le (hw.peers_lt k p hp) h.le
    · rcases h.peers k hge with hnil | heq
      · rw [hnil] at hp; exact absurd hp (by simp)
      · rw [heq] at hp
        exact Nat.lt_of_lt_of_le (hw.peers_lt k p hp) h.le
  · intro S k hk
    rw [h.extend] at hk
    obtain ⟨hmem, hover⟩ := hw.extend_mem S k hk
    refine ⟨hmem, ?_⟩
    unfold isOver at hover ⊢
    rw [h.kts k (hw.outs_lt k hmem)]
    exact hover

theorem Grows.lifeTimeEnd {g g' : KernelGraph} {outs : List Nat} (h : Grows g g')
    (hw : WellFormed g outs) {k : Nat} (hk : k < g.nextKt) :
    g'.lifeTimeEnd k = g.lifeTimeEnd k := by
  have htopo : ∀ p < g.nextKt, g'.topoId p = g.topoId p := fun p hp => by
    unfold topoId; rw [h.kts p hp]
  unfold KernelGraph.lifeTimeEnd
  rw [h.kts k hk, htopo k hk]
  refine foldl_ext _ _ _ ?_
  intro e p hp
  rw [htopo p (hw.peers_lt k p hp)]

theorem Grows.find? {g g' : KernelGraph} {outs : List Nat} (h : Grows g g')
    (hw : WellFormed g outs) (S : Nat) :
    outs.find? (g'.isOver S) = outs.find? (g.isOver S) := by
  have hsame : ∀ k ∈ outs, g'.isOver S k = g.isOver S k := fun k hk => by
    unfold isOver
    rw [h.kts k (hw.outs_lt k hk)]
  clear hw
  induction outs with
  | nil => rfl
  | cons k outs ih =>
    rw [find?_cons, find?_cons, hsame k mem_cons_self,
      ih fun j hj => hsame j (mem_cons_of_mem _ hj)]

theorem Grows.tracks {g g' : KernelGraph} {outs : List Nat} (h : Grows g g')
    (hw : WellFormed g outs) {S : Nat} {tr : Track} (ht : Tracks g outs S tr) :
    Tracks g' outs S tr := by
  refine ht.frame (by rw [h.extend]) (h.find? hw S) ?_
  intro k hk
  have hlt : k < g.nextKt := hw.outs_lt k (find?_mem_over hk).1
  refine ⟨?_, h.lifeTimeEnd hw hlt⟩
  unfold topoId
  rw [h.kts k hlt]

/-! ## Linking -/

/-- What linking leaves alone: tensors, owners and the node list. -/
structure Linked (g g' : KernelGraph) : Prop where
  aclTensor : ∀ k, (g'.kts k).aclTensor = (g.kts k).aclTensor
  topoId : ∀ k, g'.topoId k = g.topoId k
  nextKt : g'.nextKt = g.nextKt
  kernelNodes : g'.kernelNodes = g.kernelNodes

theorem Linked.refl : Linked g g :=
  ⟨fun _ => rfl, fun _ => rfl, rfl, rfl⟩

theorem Linked.trans {g₁ g₂ g₃ : KernelGraph} (h₁ : Linked g₁ g₂) (h₂ : Linked g₂ g₃) :
    Linked g₁ g₃ :=
  ⟨fun k => (h₂.aclTensor k).trans (h₁.aclTensor k), fun k => (h₂.topoId k).trans (h₁.topoId k),
    h₂.nextKt.trans h₁.nextKt, h₂.kernelNodes.trans h₁.kernelNodes⟩

theorem Linked.isOver {g g' : KernelGraph} (h : Linked g g') (S : Nat) :
    g'.isOver S = g.isOver S := by
  funext k
  unfold KernelGraph.isOver
  rw [h.aclTensor]

/-- Two `KernelTensor`s made peers of each other. -/
theorem peering_linked : Linked g ((g.addPeer k p).addPeer p k) :=
  ⟨fun j => by simp, fun j => by simp, rfl, rfl⟩

theorem peering_wellFormed {g : KernelGraph} {outs : List Nat} (hw : WellFormed g outs)
    {k p : Nat} (hk : k < g.nextKt) (hp : p < g.nextKt) :
    WellFormed ((g.addPeer k p).addPeer p k) outs := by
  have hstep : ∀ (g : KernelGraph) (k p : Nat), p < g.nextKt →
      (∀ j, ∀ q ∈ (g.kts j).peers, q < g.nextKt) →
      ∀ j, ∀ q ∈ ((g.addPeer k p).kts j).peers, q < (g.addPeer k p).nextKt := by
    intro g k p hp hpeers j q hq
    by_cases h : j = k
    · subst h
      rw [addPeer_peers_self] at hq
      rcases mem_append.mp hq with hq | hq
      · exact hpeers j q hq
      · rw [mem_singleton.mp hq]; exact hp
    · rw [addPeer_peers_ne g p h] at hq
      exact hpeers j q hq
  refine ⟨hw.outs_lt, hstep _ p k hk (hstep g k p hp hw.peers_lt), ?_⟩
  intro S j hj
  simpa using hw.extend_mem S j hj

/-- Peering `k` with a tensor `p` of another storage list: only `k` and `p` can
change their lifetime. -/
theorem peering_lifeTimeEnd_ne {k p j : Nat} (hk : j ≠ k) (hp : j ≠ p) :
    ((g.addPeer k p).addPeer p k).lifeTimeEnd j = g.lifeTimeEnd j := by
  rw [lifeTimeEnd_addPeer_ne _ _ hp, lifeTimeEnd_addPeer_ne _ _ hk]

theorem peering_lifeTimeEnd {k p : Nat} (h : k ≠ p) :
    ((g.addPeer k p).addPeer p k).lifeTimeEnd k = max (g.lifeTimeEnd k) (g.topoId p) := by
  rw [lifeTimeEnd_addPeer_ne _ _ h, lifeTimeEnd_addPeer_self]

/-- Making `k` and `p` peers, for a storage whose first output is neither. -/
theorem peering_tracks {g : KernelGraph} {outs : List Nat} {S k p : Nat} {tr : Track}
    (ht : Tracks g outs S tr) (hne : ∀ j, outs.find? (g.isOver S) = some j → j ≠ k ∧ j ≠ p) :
    Tracks ((g.addPeer k p).addPeer p k) outs S tr := by
  have hlink := peering_linked g k p
  refine ht.frame rfl (by rw [hlink.isOver]) ?_
  intro j hj
  exact ⟨hlink.topoId j, peering_lifeTimeEnd_ne g (hne j hj).1 (hne j hj).2⟩

/-- One input linked: the tracker takes one `input` step for its storage. -/
theorem linkInput_tracks {g : KernelGraph} {outs : List Nat} {S j kt : Nat} {tr : Track}
    (hw : WellFormed g outs) (ht : Tracks g outs S tr) (hnew : kt ∉ outs)
    (hj : g.topoId kt = j) :
    Tracks (g.linkInput kt) outs S (if g.isOver S kt then tr.input j else tr) := by
  unfold linkInput
  split
  next h =>
    have hover : g.isOver S kt = false := by simp [isOver, atop, h]
    rw [hover]
    exact ht
  next t h =>
    have hover : g.isOver S kt = (t.storage == S) := by simp [isOver, atop, h]
    rw [hover]
    split
    next hext =>
      -- no output for this storage so far, so nothing is linked
      by_cases hS : t.storage = S
      · subst hS
        cases tr with
        | unseen => simpa [Track.input] using ht
        | once a e => obtain ⟨k, hk, _⟩ := ht; rw [hext] at hk; cases hk
        | again a e => obtain ⟨k, k', _, hk, _⟩ := ht; rw [hext] at hk; cases hk
      · simpa [hS] using ht
    next ktp hext =>
      obtain ⟨hmem, hktp⟩ := hw.extend_mem _ _ hext
      have hlink := peering_linked g ktp kt
      have hkt : ∀ k, outs.find? (g.isOver S) = some k → k ≠ kt := fun k hfind h =>
        hnew (h ▸ (find?_mem_over hfind).1)
      -- the input reads the storage in question, or another one
      by_cases hS : t.storage = S
      · rw [beq_iff_eq.mpr hS, if_pos rfl]
        cases tr with
        | unseen => rw [← hS, Tracks, hext] at ht; cases ht.1
        | once a e =>
          obtain ⟨k, hk, hfind, htopo, hlife⟩ := ht
          obtain rfl : ktp = k := by rw [hS, hk] at hext; exact (Option.some.inj hext).symm
          refine ⟨ktp, hk, by rw [hlink.isOver]; exact hfind, by rw [hlink.topoId]; exact htopo, ?_⟩
          rw [peering_lifeTimeEnd g (hkt ktp hfind), hlife, hj]
        | again a e =>
          refine peering_tracks ht fun k hfind => ⟨?_, hkt k hfind⟩
          obtain ⟨k₀, k', hne, hk, hfind₀, _⟩ := ht
          rw [hfind₀] at hfind
          rw [hS, hk] at hext
          rw [← Option.some.inj hfind, ← Option.some.inj hext]
          exact hne
      · have hfalse : (t.storage == S) = false := by simpa using hS
        rw [hfalse, if_neg Bool.false_ne_true]
        refine peering_tracks ht fun k hfind => ⟨fun h => hS ?_, hkt k hfind⟩
        exact isOver_unique hktp (h ▸ (find?_mem_over hfind).2)

/-- What else one linked input does: nothing outside the `peers` of `kt` and of
the output it links to. -/
theorem linkInput_frame {g : KernelGraph} {outs : List Nat} {kt : Nat} (hw : WellFormed g outs)
    (hkt : kt < g.nextKt) :
    WellFormed (g.linkInput kt) outs ∧ Linked g (g.linkInput kt) ∧
      (∀ k, k ∉ outs → k ≠ kt → ((g.linkInput kt).kts k).peers = (g.kts k).peers) := by
  unfold linkInput
  split
  next => exact ⟨hw, Linked.refl g, fun _ _ _ => rfl⟩
  next t _ =>
    split
    next => exact ⟨hw, Linked.refl g, fun _ _ _ => rfl⟩
    next ktp hext =>
      have hmem := (hw.extend_mem _ _ hext).1
      refine ⟨peering_wellFormed hw (hw.outs_lt _ hmem) hkt, peering_linked g ktp kt, ?_⟩
      intro k hk hne
      have hktp : k ≠ ktp := fun h => hk (h ▸ hmem)
      rw [addPeer_peers_ne _ _ hne, addPeer_peers_ne _ _ hktp]

/-- One output linked: the tracker takes one `output` step for its storage. -/
theorem linkOutput_tracks {g : KernelGraph} {outs : List Nat} {S j out : Nat} {tr : Track}
    (hw : WellFormed g outs) (ht : Tracks g outs S tr) (hnew : out ∉ outs)
    (hj : g.topoId out = j) (hpeers : (g.kts out).peers = []) :
    Tracks (g.linkOutput out) (outs ++ [out]) S (if g.isOver S out then tr.output j else tr) := by
  have hout : ∀ k, outs.find? (g.isOver S) = some k → k ≠ out := fun k hfind h =>
    hnew (h ▸ (find?_mem_over hfind).1)
  unfold linkOutput
  split
  next h =>
    have hover : g.isOver S out = false := by simp [isOver, atop, h]
    rw [hover]
    refine ht.frame rfl ?_ fun _ _ => ⟨rfl, rfl⟩
    rw [find?_append, find?_singleton, hover]
    simp
  next t h =>
    have hover : g.isOver S out = (t.storage == S) := by simp [isOver, atop, h]
    rw [hover]
    split
    -- The first output over this storage: it starts the life time.
    next hext =>
      by_cases hS : t.storage = S
      · subst hS
        rw [beq_self_eq_true, if_pos rfl]
        cases tr with
        | unseen =>
          refine ⟨out, by simp, ?_, hj, ?_⟩
          · show (outs ++ [out]).find? (g.isOver t.storage) = some out
            rw [find?_append, ht.2, find?_singleton, hover]
            simp
          · show g.lifeTimeEnd out = j
            unfold lifeTimeEnd
            rw [hpeers]
            exact hj
        | once a e => obtain ⟨k, hk, _⟩ := ht; rw [hext] at hk; cases hk
        | again a e => obtain ⟨k, k', _, hk, _⟩ := ht; rw [hext] at hk; cases hk
      · have hfalse : (t.storage == S) = false := by simpa using hS
        rw [hfalse, if_neg Bool.false_ne_true]
        refine ht.frame (by simp [update, Ne.symm hS]) ?_ fun _ _ => ⟨rfl, rfl⟩
        show (outs ++ [out]).find? (g.isOver S) = _
        rw [find?_append, find?_singleton, hover, hfalse]
        simp
    -- A later output is linked to the latest one over it: only the second prolongs the first.
    next outPeer hext =>
      obtain ⟨hmem, hpeer⟩ := hw.extend_mem _ _ hext
      have hlink := peering_linked g outPeer out
      have hfound : ∀ {k}, outs.find? (g.isOver S) = some k → (outs ++ [out]).find?
          (((g.addPeer outPeer out).addPeer out outPeer).isOver S) = some k := fun hfind => by
        rw [hlink.isOver, find?_append, hfind]
        rfl
      by_cases hS : t.storage = S
      · subst hS
        rw [beq_self_eq_true, if_pos rfl]
        cases tr with
        | unseen => rw [Tracks, hext] at ht; cases ht.1
        | once a e =>
          obtain ⟨k, hk, hfind, htopo, hlife⟩ := ht
          obtain rfl : outPeer = k := by rw [hk] at hext; exact (Option.some.inj hext).symm
          refine ⟨outPeer, out, hout _ hfind, by simp, hfound hfind,
            (hlink.topoId _).trans htopo, ?_⟩
          show ((g.addPeer outPeer out).addPeer out outPeer).lifeTimeEnd outPeer = _
          rw [peering_lifeTimeEnd g (hout _ hfind), hlife, hj]
        | again a e =>
          obtain ⟨k, k', hne, hk, hfind, htopo, hlife⟩ := ht
          obtain rfl : outPeer = k' := by rw [hk] at hext; exact (Option.some.inj hext).symm
          exact ⟨k, out, hout _ hfind, by simp, hfound hfind, (hlink.topoId _).trans htopo,
            (peering_lifeTimeEnd_ne g hne (hout _ hfind)).trans hlife⟩
      · have hfalse : (t.storage == S) = false := by simpa using hS
        rw [hfalse, if_neg Bool.false_ne_true]
        refine ht.frame (by simp [update, Ne.symm hS]) ?_ ?_
        · show (outs ++ [out]).find? (((g.addPeer outPeer out).addPeer out outPeer).isOver S) = _
          rw [hlink.isOver, find?_append, find?_singleton, hover, hfalse]
          simp
        · intro k hk
          have hne : k ≠ outPeer := fun h => hS (isOver_unique hpeer (h ▸ (find?_mem_over hk).2))
          exact ⟨hlink.topoId k, peering_lifeTimeEnd_ne g hne (hout k hk)⟩

/-- Linking an output changes its peers only. -/
theorem linkOutput_frame {g : KernelGraph} {outs : List Nat} {out : Nat} (hw : WellFormed g outs)
    (hout : out < g.nextKt) :
    WellFormed (g.linkOutput out) (outs ++ [out]) ∧ Linked g (g.linkOutput out) ∧
      (∀ k, k ∉ outs → k ≠ out → ((g.linkOutput out).kts k).peers = (g.kts k).peers) := by
  have hlt : ∀ k ∈ outs ++ [out], k < g.nextKt := by
    intro k hk
    rcases mem_append.mp hk with hk | hk
    · exact hw.outs_lt k hk
    · rw [mem_singleton.mp hk]; exact hout
  unfold linkOutput
  split
  next =>
    refine ⟨⟨hlt, hw.peers_lt, ?_⟩, Linked.refl g, fun _ _ _ => rfl⟩
    intro S k hk
    exact ⟨mem_append_left _ (hw.extend_mem S k hk).1, (hw.extend_mem S k hk).2⟩
  next t h =>
    have hext' : ∀ g' : KernelGraph, Linked g g' → WellFormed g' outs →
        WellFormed { g' with extend := update g'.extend t.storage (some out) } (outs ++ [out]) := by
      intro g' hl hw'
      refine ⟨fun k hk => by rw [← hl.nextKt] at hlt; exact hlt k hk, hw'.peers_lt, ?_⟩
      intro S k hk
      by_cases hS : S = t.storage
      · subst hS
        have hkout : out = k := by simpa using hk
        subst hkout
        refine ⟨by simp, ?_⟩
        show g'.isOver t.storage out = true
        rw [hl.isOver]
        simp [KernelGraph.isOver, atop, h]
      · have hk' : g'.extend S = some k := by simpa [update, hS] using hk
        exact ⟨mem_append_left _ (hw'.extend_mem S k hk').1, (hw'.extend_mem S k hk').2⟩
    split
    next => exact ⟨hext' g (Linked.refl g) hw, ⟨fun _ => rfl, fun _ => rfl, rfl, rfl⟩,
        fun _ _ _ => rfl⟩
    next outPeer hext =>
      -- the earlier output becomes its peer
      have hmem := (hw.extend_mem _ _ hext).1
      have hlink := peering_linked g outPeer out
      refine ⟨hext' _ hlink (peering_wellFormed hw (hw.outs_lt _ hmem) hout),
        ⟨hlink.aclTensor, hlink.topoId, rfl, rfl⟩, ?_⟩
      intro k hk hne
      have hpeer : k ≠ outPeer := fun h => hk (h ▸ hmem)
      show (((g.addPeer outPeer out).addPeer out outPeer).kts k).peers = _
      rw [addPeer_peers_ne _ _ hne, addPeer_peers_ne _ _ hpeer]

theorem linkInputs_tracks (j : Nat) : ∀ (kts : List Nat) {g : KernelGraph} {outs : List Nat},
    WellFormed g outs → (∀ k ∈ kts, k ∉ outs ∧ k < g.nextKt ∧ g.topoId k = j) →
    WellFormed (kts.foldl linkInput g) outs ∧ Linked g (kts.foldl linkInput g) ∧
      (∀ k, k ∉ outs → k ∉ kts → ((kts.foldl linkInput g).kts k).peers = (g.kts k).peers) ∧
      ∀ S tr, Tracks g outs S tr → Tracks (kts.foldl linkInput g) outs S
        ((kts.map fun k => (g.kts k).aclTensor).foldl
          (fun tr t => if atop S t then tr.input j else tr) tr)
  | [], g, outs, hw, _ => ⟨hw, Linked.refl g, fun _ _ _ => rfl, fun _ _ ht => ht⟩
  | kt :: kts, g, outs, hw, hkts => by
    obtain ⟨hnew, hlt, hj⟩ := hkts kt mem_cons_self
    obtain ⟨hw', hl, hp⟩ := linkInput_frame hw hlt
    obtain ⟨hw'', hl', hp', ht'⟩ := linkInputs_tracks j kts hw' fun k hk => by
      rw [hl.nextKt, hl.topoId]
      exact hkts k (mem_cons_of_mem _ hk)
    refine ⟨hw'', hl.trans hl', ?_, ?_⟩
    · intro k hk hmem
      rw [mem_cons, not_or] at hmem
      exact (hp' k hk hmem.2).trans (hp k hk hmem.1)
    · intro S tr ht
      have hmap : (kts.map fun k => ((g.linkInput kt).kts k).aclTensor)
          = kts.map fun k => (g.kts k).aclTensor := map_congr_left fun k _ => hl.aclTensor k
      have := ht' S _ (linkInput_tracks hw ht hnew hj)
      rw [hmap] at this
      exact this

/-- By induction on the outputs: linking them tracks each storage. -/
theorem linkOutputs_tracks (j : Nat) : ∀ (kts : List Nat) {g : KernelGraph} {outs : List Nat},
    WellFormed g outs → kts.Nodup →
    (∀ k ∈ kts, k ∉ outs ∧ k < g.nextKt ∧ g.topoId k = j ∧ (g.kts k).peers = []) →
    WellFormed (kts.foldl linkOutput g) (outs ++ kts) ∧ Linked g (kts.foldl linkOutput g) ∧
      ∀ S tr, Tracks g outs S tr → Tracks (kts.foldl linkOutput g) (outs ++ kts) S
        ((kts.map fun k => (g.kts k).aclTensor).foldl
          (fun tr t => if atop S t then tr.output j else tr) tr)
  | [], g, outs, hw, _, _ => by
    rw [append_nil]
    exact ⟨hw, Linked.refl g, fun _ _ ht => ht⟩
  | out :: kts, g, outs, hw, hnd, hkts => by
    obtain ⟨hnew, hlt, hj, hpeers⟩ := hkts out mem_cons_self
    obtain ⟨hw', hl, hp⟩ := linkOutput_frame hw hlt
    obtain ⟨hnotin, hnd'⟩ := nodup_cons.mp hnd
    obtain ⟨hw'', hl', ht'⟩ := linkOutputs_tracks j kts hw' hnd' fun k hk => by
      obtain ⟨hk₁, hk₂, hk₃, hk₄⟩ := hkts k (mem_cons_of_mem _ hk)
      have hne : k ≠ out := fun h => hnotin (h ▸ hk)
      refine ⟨?_, by rw [hl.nextKt]; exact hk₂, by rw [hl.topoId]; exact hk₃, ?_⟩
      · rw [mem_append, mem_singleton, not_or]
        exact ⟨hk₁, hne⟩
      · rw [hp k hk₁ hne]; exact hk₄
    rw [append_assoc] at hw'' ht'
    refine ⟨hw'', hl.trans hl', ?_⟩
    intro S tr ht
    have hmap : (kts.map fun k => ((g.linkOutput out).kts k).aclTensor)
        = kts.map fun k => (g.kts k).aclTensor := map_congr_left fun k _ => hl.aclTensor k
    have := ht' S _ (linkOutput_tracks hw ht hnew hj hpeers)
    rw [hmap] at this
    exact this

/-! ## One op, and a whole graph -/

/-- Node `node` stands for op `op`, number `j`. -/
structure Describes (g : KernelGraph) (node : KernelNode) (op : OpCall) (j : Nat) : Prop where
  topoId : node.topoId = j
  inputs : (node.inputs.map fun k => (g.kts k).aclTensor) = op.inputs
  outputs : (node.outputs.map fun k => (g.kts k).aclTensor) = op.outputs.map some
  workspace : (node.workspace.map fun k => (g.kts k).aclTensor) = op.workspace
  owner : ∀ k ∈ node.outputs, g.topoId k = j
  lt : ∀ k ∈ node.inputs ++ node.outputs ++ node.workspace, k < g.nextKt

/-- All output `KernelTensor`s, in build order. -/
def outs (g : KernelGraph) : List Nat := g.kernelNodes.flatMap (·.outputs)

/-- The graph that `build ops` leaves behind. -/
structure Built (g : KernelGraph) (ops : List OpCall) : Prop where
  wellFormed : WellFormed g g.outs
  tracks : ∀ S, Tracks g g.outs S (track S ops)
  length : g.kernelNodes.length = ops.length
  nodes : ∀ j node op, g.kernelNodes[j]? = some node → ops[j]? = some op → Describes g node op j

theorem Describes.frame {g g' : KernelGraph} {node : KernelNode} {op : OpCall} {j : Nat}
    (h : Describes g node op j) (hle : g.nextKt ≤ g'.nextKt)
    (hacl : ∀ k < g.nextKt, (g'.kts k).aclTensor = (g.kts k).aclTensor)
    (htopo : ∀ k < g.nextKt, g'.topoId k = g.topoId k) : Describes g' node op j := by
  have hin : ∀ ks : List Nat, (∀ k ∈ ks, k ∈ node.inputs ++ node.outputs ++ node.workspace) →
      (ks.map fun k => (g'.kts k).aclTensor) = ks.map fun k => (g.kts k).aclTensor :=
    fun ks hks => map_congr_left fun k hk => hacl k (h.lt k (hks k hk))
  refine ⟨h.topoId, ?_, ?_, ?_, ?_, fun k hk => Nat.lt_of_lt_of_le (h.lt k hk) hle⟩
  · rw [hin node.inputs fun k hk => by simp [hk]]; exact h.inputs
  · rw [hin node.outputs fun k hk => by simp [hk]]; exact h.outputs
  · rw [hin node.workspace fun k hk => by simp [hk]]; exact h.workspace
  · intro k hk
    rw [htopo k (h.lt k (by simp [hk]))]
    exact h.owner k hk

/-- What `newNode` hands to the linking loops. -/
structure Fresh (g g' : KernelGraph) (node : KernelNode) : Prop where
  grows : Grows g g'
  inputs_ge : ∀ k ∈ node.inputs, g.nextKt ≤ k
  outputs_ge : ∀ k ∈ node.outputs, g.nextKt ≤ k ∧ k ∉ node.inputs
  nodup : node.outputs.Nodup
  inputs_owner : ∀ k ∈ node.inputs, g'.topoId k = node.topoId
  peers : ∀ k ∈ node.outputs, (g'.kts k).peers = []

theorem newNode_spec (op : OpCall) :
    Fresh g (g.newNode op).2 (g.newNode op).1 ∧
      Describes (g.newNode op).2 (g.newNode op).1 op g.kernelNodes.length := by
  simp only [newNode]
  set j := g.kernelNodes.length
  set g₁ := g.newTensors j op.inputs
  set g₂ := g₁.newTensors j (op.outputs.map some) with hg₂
  set g₃ := g₂.newTensors j op.workspace
  have hn₁ : g₁.nextKt = g.nextKt + op.inputs.length := newTensors_nextKt j _ g
  have hn₂ : g₂.nextKt = g₁.nextKt + op.outputs.length := by
    rw [hg₂, newTensors_nextKt, length_map]
  have hn₃ : g₃.nextKt = g₂.nextKt + op.workspace.length := newTensors_nextKt j _ g₂
  have hgrow₂ : Grows g₁ g₂ := newTensors_grows j _ g₁
  have hgrow₃ : Grows g₂ g₃ := newTensors_grows j _ g₂
  obtain ⟨hin, hinFresh⟩ := newTensors_kts j op.inputs g
  obtain ⟨hout, houtFresh⟩ := newTensors_kts j (op.outputs.map some) g₁
  obtain ⟨hws, -⟩ := newTensors_kts j op.workspace g₂
  rw [length_map] at hout houtFresh
  -- the later allocations leave the earlier objects alone
  have hktsIn : ∀ k ∈ List.range' g.nextKt op.inputs.length, g₃.kts k = g₁.kts k := by
    intro k hk
    rw [mem_range'_1] at hk
    rw [hgrow₃.kts k (by omega), hgrow₂.kts k (by omega)]
  have hktsOut : ∀ k ∈ List.range' g₁.nextKt op.outputs.length, g₃.kts k = g₂.kts k := by
    intro k hk
    rw [mem_range'_1] at hk
    rw [hgrow₃.kts k (by omega)]
  constructor
  · refine ⟨((newTensors_grows j _ g).trans hgrow₂).trans hgrow₃, ?_, ?_, nodup_range', ?_, ?_⟩
    · intro k hk
      exact (mem_range'_1.mp hk).1
    · intro k hk
      simp only [mem_range'_1] at hk ⊢
      omega
    · intro k hk
      unfold KernelGraph.topoId
      rw [hktsIn k hk]
      exact (hinFresh k hk).1
    · intro k hk
      rw [hktsOut k hk]
      exact (houtFresh k hk).2
  · refine ⟨rfl, ?_, ?_, hws, ?_, ?_⟩
    · exact (map_congr_left fun k hk => by rw [hktsIn k hk]).trans hin
    · exact (map_congr_left fun k hk => by rw [hktsOut k hk]).trans hout
    · intro k hk
      unfold KernelGraph.topoId
      rw [hktsOut k hk]
      exact (houtFresh k hk).1
    · intro k hk
      simp only [mem_append, mem_range'_1] at hk
      omega

/-- One op more keeps the graph in step with the ops. -/
theorem buildGraph_built {g : KernelGraph} {ops : List OpCall} (h : Built g ops) (op : OpCall) :
    Built (g.buildGraph op) (ops ++ [op]) := by
  obtain ⟨hfresh, hdesc⟩ := newNode_spec g op
  unfold buildGraph
  rw [h.length] at hdesc
  set kn := (g.newNode op).1
  set g₁ := (g.newNode op).2
  have houtsLt : ∀ k ∈ g.outs, k < g.nextKt := h.wellFormed.outs_lt
  have hnotOuts : ∀ k, g.nextKt ≤ k → k ∉ g.outs := fun k hk hmem =>
    absurd (houtsLt k hmem) (Nat.not_lt.mpr hk)
  have hw₁ : WellFormed g₁ g.outs := hfresh.grows.wellFormed h.wellFormed
  -- Inputs first, as the code does: the new outputs have no peers until then.
  obtain ⟨hw₂, hl₂, hp₂, ht₂⟩ := linkInputs_tracks ops.length kn.inputs hw₁ fun k hk =>
    ⟨hnotOuts k (hfresh.inputs_ge k hk), hdesc.lt k (by simp [hk]),
      (hfresh.inputs_owner k hk).trans hdesc.topoId⟩
  set g₂ := kn.inputs.foldl linkInput g₁
  obtain ⟨hw₃, hl₃, ht₃⟩ := linkOutputs_tracks ops.length kn.outputs hw₂ hfresh.nodup fun k hk => by
    obtain ⟨hge, hin⟩ := hfresh.outputs_ge k hk
    refine ⟨hnotOuts k hge, by rw [hl₂.nextKt]; exact hdesc.lt k (by simp [hk]), ?_, ?_⟩
    · rw [hl₂.topoId]; exact hdesc.owner k hk
    · rw [hp₂ k (hnotOuts k hge) hin]; exact hfresh.peers k hk
  set g₃ := kn.outputs.foldl linkOutput g₂
  have hl : Linked g₁ g₃ := hl₂.trans hl₃
  have hnodes : g₃.kernelNodes = g.kernelNodes := by
    rw [hl.kernelNodes, hfresh.grows.kernelNodes]
  show Built { g₃ with kernelNodes := g₃.kernelNodes ++ [kn] } (ops ++ [op])
  rw [hnodes]
  set g' : KernelGraph := { g₃ with kernelNodes := g.kernelNodes ++ [kn] }
  have houts' : g'.outs = g.outs ++ kn.outputs := by
    show (g.kernelNodes ++ [kn]).flatMap (·.outputs) = _
    rw [flatMap_append]
    simp [outs]
  refine ⟨?_, ?_, ?_, ?_⟩
  · rw [houts']
    exact ⟨hw₃.outs_lt, hw₃.peers_lt, hw₃.extend_mem⟩
  · intro S
    -- The tracks of one storage through the three stages.
    have hS := ht₃ S _ (ht₂ S _ (hfresh.grows.tracks h.wellFormed (h.tracks S)))
    have hmap : (kn.outputs.map fun k => (g₂.kts k).aclTensor) = op.outputs.map some := by
      rw [← hdesc.outputs]
      exact map_congr_left fun k _ => hl₂.aclTensor k
    rw [hdesc.inputs, hmap] at hS
    rw [houts', track_concat, trackOp]
    exact hS.frame rfl rfl fun _ _ => ⟨rfl, rfl⟩
  · show (g.kernelNodes ++ [kn]).length = (ops ++ [op]).length
    rw [length_append, length_append, h.length]
    rfl
  · intro i nd o hnd ho
    have hnd : (g.kernelNodes ++ [kn])[i]? = some nd := hnd
    rcases Nat.lt_or_ge i ops.length with hi | hi
    · rw [getElem?_append_left (by rw [h.length]; exact hi)] at hnd
      rw [getElem?_append_left hi] at ho
      refine (h.nodes i nd o hnd ho).frame ?_ ?_ ?_
      · exact hl.nextKt ▸ hfresh.grows.le
      · intro k hk
        show (g₃.kts k).aclTensor = _
        rw [hl.aclTensor, hfresh.grows.kts k hk]
      · intro k hk
        show g₃.topoId k = _
        rw [hl.topoId]
        unfold KernelGraph.topoId
        rw [hfresh.grows.kts k hk]
    · rw [getElem?_append_right (by rw [h.length]; exact hi), h.length] at hnd
      rw [getElem?_append_right hi] at ho
      rw [getElem?_singleton] at hnd ho
      obtain rfl : i = ops.length := by
        by_contra hne
        rw [if_neg (by omega)] at hnd
        cases hnd
      rw [Nat.sub_self, if_pos rfl] at hnd ho
      cases hnd
      cases ho
      exact hdesc.frame (Nat.le_of_eq hl.nextKt.symm) (fun k _ => hl.aclTensor k)
        fun k _ => hl.topoId k

theorem create_built : Built create [] :=
  ⟨⟨fun _ hk => absurd hk (by simp [outs, create]), fun _ _ hp => absurd hp (by simp [create]),
    fun _ _ hk => absurd hk (by simp [create])⟩, fun _ => ⟨rfl, rfl⟩, rfl,
    fun _ _ _ hnode _ => absurd hnode (by simp [create])⟩

/-- The graph of all ops. -/
theorem build_track (ops : List OpCall) : Built (build ops) ops := by
  induction ops using List.reverseRecOn with
  | nil => exact create_built
  | append_singleton ops op ih =>
    unfold build
    rw [foldl_append]
    exact buildGraph_built ih op

end KernelGraph

end OpBase.Mem
