import OpBase.Launch.Spelled

/-!
# Replaying a launch

When does a recorded launch give the runtime what a fresh one would? Recording
adds bytes to the buffer and a rule for each address among them; `UpdateTensorAddr`
writes the addresses the rules give over them. `Grows c c' tasks B` says that for
all addresses the bytes added from `c` to `c'` end up as `B` has them, and each
function that records is one lemma about it (`addLaunchTensor_grows` up to
`record_grows`). `RunFromCache` then reads the launch back (`view_runFromCache`).

> `replay_eq_fresh`: a replayed launch equals the fresh one exactly when no listed
> workspace tensor is a view that starts behind its storage, and the overflow address is the one
> that the process has kept from its first launch.

The rule of a workspace tensor keeps the offset in the workspace and drops the
view offset that `GetData` adds (`ruleAddr_eq_iff`).
-/

namespace OpBase.Launch

open List OpBase.Lib OpExecCache
open Option (bind_eq_some_iff)

variable {S : Storages}

/-! ## Rules -/

/-- The address of a tensor by the rule recorded for it. -/
def ruleAddr (env : Addrs S) (t : Tensor) : UInt64 :=
  (addrRule S t).elim 0 (AddrRule.apply env)

theorem ofInt_eq_zero_iff {x : Int} (hlow : -2 ^ 63 ≤ x) (hhigh : x < 2 ^ 63) :
    UInt64.ofInt x = 0 ↔ x = 0 := by
  refine ⟨fun h => ?_, fun h => by rw [h]; rfl⟩
  have hnat := congrArg UInt64.toNat h
  rw [UInt64.ofInt, UInt64.toNat_ofNat', UInt64.toNat_zero] at hnat
  omega

theorem wrapInt64_ge (x : Int) : -2 ^ 63 ≤ wrapInt64 x := by
  have := Int.le_bmod (x := x) (m := 2 ^ 64) (by omega)
  unfold wrapInt64
  omega

/-- A byte count is an `int64_t`. -/
theorem calcShapeBytes_range (size : Int) (dataType : DataType) :
    -2 ^ 63 ≤ calcShapeBytes size dataType true ∧ calcShapeBytes size dataType true < 2 ^ 63 := by
  unfold calcShapeBytes mulOverflow
  have hlow := wrapInt64_ge ((typeSize dataType - kDataTypeSizeBitOffset : Nat) * size)
  have hhigh := wrapInt64_lt ((typeSize dataType - kDataTypeSizeBitOffset : Nat) * size)
  split
  · simp only [Bool.not_true, Bool.false_eq_true, if_false, Int.shiftRight_eq_div_pow]
    omega
  · exact ⟨wrapInt64_ge _, wrapInt64_lt _⟩

theorem getD_map_idxOf {s : Nat} {ss : List Nat} (f : Nat → UInt64) (h : s ∈ ss) :
    (ss.map f).getD (ss.idxOf s) 0 = f s := by
  rw [getD_eq_getElem?_getD, getElem?_map, getElem?_idxOf h]
  rfl

/-- The rule gives the address of the data, except for a tensor of the workspace at an offset. -/
theorem ruleAddr_eq_iff (env : Addrs S) {t : Tensor} (h : (addrRule S t).isSome) :
    ruleAddr env t = t.getData env ↔
      (t.fromWorkspace → calcShapeBytes t.viewOffset t.dataType true = 0) := by
  obtain ⟨hlow, hhigh⟩ := calcShapeBytes_range t.viewOffset t.dataType
  by_cases hws : t.fromWorkspace
  · have hrule : ruleAddr env t = env.workspace + t.workspaceOffset := by
      unfold ruleAddr addrRule
      rw [if_pos hws]
      rfl
    unfold Tensor.getData
    rw [hrule, if_pos hws, eq_comm, UInt64.add_eq_left, ofInt_eq_zero_iff hlow hhigh]
    exact ⟨fun h _ => h, fun h => h hws⟩
  · refine ⟨fun _ h => absurd h hws, fun _ => ?_⟩
    unfold ruleAddr Tensor.getData
    unfold addrRule at h ⊢
    rw [if_neg hws] at h ⊢
    rw [if_neg hws]
    -- cached itself, or by the storage that it is related to
    by_cases hmem : t.storage ∈ S.cachedStorageList
    · rw [if_pos hmem]
      show (S.cachedStorageList.map env.storage).getD _ 0 + _ = _
      rw [getD_map_idxOf env.storage hmem]
    · rw [if_neg hmem] at h ⊢
      cases hrel : S.storageRelation t.storage with
      | none =>
        rw [hrel] at h
        cases h
      | some rel =>
        simp only [hrel] at h ⊢
        by_cases hmem' : rel ∈ S.cachedStorageList
        · rw [if_pos hmem']
          show (S.cachedStorageList.map env.storage).getD _ 0 + _ = _
          rw [getD_map_idxOf env.storage hmem', env.related _ _ hrel]
        · rw [if_neg hmem'] at h
          cases h

/-! ## Recording -/

/-- `UpdateTensorAddr` on a buffer. -/
def applyRules (env : Addrs S) (rules : List (Nat × AddrRule)) (buf : List Byte) : List Byte :=
  rules.foldl (fun buf e => patch e.1 (le8 (AddrRule.apply env e.2)) buf) buf

/-- The rules turn the bytes `b` at offset `n` into `b'` and touch nothing else. -/
def Patches (env : Addrs S) (n : Nat) (rules : List (Nat × AddrRule)) (b b' : List Byte) : Prop :=
  b'.length = b.length ∧ ∀ pre post : List Byte, pre.length = n →
    applyRules env rules (pre ++ (b ++ post)) = pre ++ (b' ++ post)

theorem Patches.none (env : Addrs S) (n : Nat) (b : List Byte) : Patches env n [] b b :=
  ⟨rfl, fun _ _ _ => rfl⟩

theorem Patches.rule (env : Addrs S) (n : Nat) (rule : AddrRule) {b : List Byte}
    (hb : b.length = 8) : Patches env n [(n, rule)] b (le8 (AddrRule.apply env rule)) := by
  refine ⟨by rw [hb, length_le8], fun pre post hn => ?_⟩
  show patch n _ (pre ++ (b ++ post)) = _
  rw [← hn, patch_append (by rw [hb, length_le8])]

theorem Patches.append {env : Addrs S} {n m : Nat} {rules rules' : List (Nat × AddrRule)}
    {b b' c c' : List Byte} (h : Patches env n rules b b') (hm : m = n + b.length)
    (h' : Patches env m rules' c c') :
    Patches env n (rules ++ rules') (b ++ c) (b' ++ c') := by
  refine ⟨by rw [length_append, length_append, h.1, h'.1], fun pre post hn => ?_⟩
  have hpre : (pre ++ b').length = m := by rw [length_append, hn, h.1, hm]
  calc applyRules env (rules ++ rules') (pre ++ (b ++ c ++ post))
      = applyRules env rules' (applyRules env rules (pre ++ (b ++ (c ++ post)))) := by
        rw [applyRules, foldl_append, append_assoc]
        rfl
    _ = applyRules env rules' ((pre ++ b') ++ (c ++ post)) := by
        rw [h.2 pre (c ++ post) hn, append_assoc]
    _ = pre ++ (b' ++ c' ++ post) := by
        rw [h'.2 (pre ++ b') post hpre]
        simp only [append_assoc]

/-- What recording adds: launches, and bytes that end up as `B` has them. -/
def Grows (c c' : OpExecCache) (tasks : List Task) (B : Addrs S → List Byte → Prop) : Prop :=
  c'.taskQueue = c.taskQueue ++ tasks ∧
    ∃ b rules, c'.buf = c.buf ++ b ∧ c'.addrUpdateRelation = c.addrUpdateRelation ++ rules ∧
      ∀ env, ∃ b', Patches env c.buf.length rules b b' ∧ B env b'

theorem Grows.refl (c : OpExecCache) : Grows (S := S) c c [] (fun _ b => b = []) :=
  ⟨(append_nil _).symm, [], [], (append_nil _).symm, (append_nil _).symm,
    fun env => ⟨[], Patches.none env _ _, rfl⟩⟩

theorem Grows.mono {c c' : OpExecCache} {tasks : List Task} {B B' : Addrs S → List Byte → Prop}
    (h : Grows c c' tasks B) (hB : ∀ env b, B env b → B' env b) : Grows c c' tasks B' := by
  obtain ⟨htasks, b, rules, hbuf, hrules, henv⟩ := h
  refine ⟨htasks, b, rules, hbuf, hrules, fun env => ?_⟩
  obtain ⟨b', hpatch, hb'⟩ := henv env
  exact ⟨b', hpatch, hB env b' hb'⟩

theorem Grows.trans {c c' c'' : OpExecCache} {tasks tasks' : List Task}
    {B B' B'' : Addrs S → List Byte → Prop} (h : Grows c c' tasks B) (h' : Grows c' c'' tasks' B')
    (hB : ∀ env b b', B env b → B' env b' → B'' env (b ++ b')) :
    Grows c c'' (tasks ++ tasks') B'' := by
  obtain ⟨htasks, b, rules, hbuf, hrules, henv⟩ := h
  obtain ⟨htasks', b', rules', hbuf', hrules', henv'⟩ := h'
  refine ⟨by rw [htasks', htasks, append_assoc], b ++ b', rules ++ rules', ?_, ?_, ?_⟩
  · rw [hbuf', hbuf, append_assoc]
  · rw [hrules', hrules, append_assoc]
  · intro env
    obtain ⟨d, hpatch, hd⟩ := henv env
    obtain ⟨d', hpatch', hd'⟩ := henv' env
    have hlen : c'.buf.length = c.buf.length + b.length := by rw [hbuf, length_append]
    exact ⟨d ++ d', hpatch.append hlen hpatch', hB env d d' hd hd'⟩

variable {old : Nat → Byte} {c c' : OpExecCache} {args : List ArgAddr}

theorem addLaunchData_grows {bytes : List Byte} (h : c.addLaunchData bytes = some c') :
    Grows (S := S) c c' [] (fun _ b => b = bytes) := by
  unfold addLaunchData at h
  split at h
  next => cases h
  next =>
    cases h
    exact ⟨(append_nil _).symm, bytes, [], rfl, (append_nil _).symm,
      fun env => ⟨bytes, Patches.none env _ _, rfl⟩⟩

theorem addStaleData_grows {len : Nat} (h : c.addStaleData old len = some c') :
    Grows (S := S) c c' [] (fun _ b => b.length = len) :=
  (addLaunchData_grows h).mono fun _ b hb => by rw [hb, length_stale]

/-- A tensor is recorded as the rule for its address. -/
theorem addLaunchTensor_grows {tensor : Option Tensor}
    (h : c.addLaunchTensor S old tensor = some c') :
    (∀ t ∈ tensor.toList, (addrRule S t).isSome) ∧
      Grows c c' [] (fun (env : Addrs S) b => b = le8 (tensor.elim 0 (ruleAddr env))) := by
  cases tensor with
  | none => exact ⟨nofun, addLaunchData_grows h⟩
  | some t =>
    unfold addLaunchTensor at h
    cases hrule : addrRule S t with
    | none =>
      simp only [hrule] at h
      cases h
    | some rule =>
      simp only [hrule] at h
      refine ⟨fun t' ht' => ?_, ?_⟩
      · rw [mem_singleton.mp ht', hrule]
        rfl
      · unfold addStaleData addLaunchData at h
        split at h
        next => cases h
        next =>
          cases h
          refine ⟨(append_nil _).symm, _, [_], rfl, rfl, fun env => ?_⟩
          refine ⟨_, Patches.rule env _ rule (length_stale _ _ _), ?_⟩
          show _ = le8 (ruleAddr env t)
          rw [ruleAddr, hrule]
          rfl

theorem foldlM_grows {α : Type} {f : OpExecCache → α → Option OpExecCache} {P : α → Prop}
    (B : Addrs S → List α → List Byte → Prop)
    (hf : ∀ {c c' : OpExecCache} {a : α}, f c a = some c' →
      P a ∧ Grows c c' [] (fun (env : Addrs S) b => B env [a] b))
    (hnil : ∀ env, B env [] [])
    (happend : ∀ env a as b b', B env [a] b → B env as b' → B env (a :: as) (b ++ b')) :
    ∀ {as : List α} {c c' : OpExecCache}, as.foldlM f c = some c' →
      (∀ a ∈ as, P a) ∧ Grows c c' [] (fun (env : Addrs S) b => B env as b)
  | [], c, _, h => by
    cases h
    refine ⟨nofun, (Grows.refl c).mono ?_⟩
    intro env b hb
    rw [hb]
    exact hnil env
  | a :: as, c, c', h => by
    rw [foldlM_cons] at h
    obtain ⟨c₁, ha, has⟩ := bind_eq_some_iff.mp h
    obtain ⟨hP, hgrow⟩ := hf ha
    obtain ⟨hPs, hgrows⟩ := foldlM_grows B hf hnil happend has
    refine ⟨forall_mem_cons.mpr ⟨hP, hPs⟩, ?_⟩
    exact hgrow.trans hgrows fun env b b' hb hb' => happend env a as b b' hb hb'

theorem addLaunchTensors_grows {tensors : List (Option Tensor)}
    (h : tensors.foldlM (addLaunchTensor S old) c = some c') :
    (∀ t ∈ tensors.filterMap id, (addrRule S t).isSome) ∧
      Grows c c' [] (fun (env : Addrs S) b =>
        b = tensors.flatMap fun t => le8 (t.elim 0 (ruleAddr env))) := by
  have hf : ∀ {c c' : OpExecCache} {a : Option Tensor}, c.addLaunchTensor S old a = some c' →
      (∀ t ∈ a.toList, (addrRule S t).isSome) ∧ Grows c c' [] (fun (env : Addrs S) b =>
        b = [a].flatMap fun t => le8 (t.elim 0 (ruleAddr env))) := by
    intro c c' a ha
    obtain ⟨hP, hgrow⟩ := addLaunchTensor_grows ha
    refine ⟨hP, hgrow.mono fun env b hb => ?_⟩
    rw [hb, flatMap_cons, flatMap_nil, append_nil]
  obtain ⟨hP, hgrows⟩ := foldlM_grows
    (fun env ts b => b = ts.flatMap fun t => le8 (t.elim 0 (ruleAddr env))) hf (fun _ => rfl)
    (fun env a as b b' hb hb' => by
      rw [hb, hb', ← flatMap_append]
      rfl) h
  refine ⟨fun t ht => ?_, hgrows⟩
  obtain ⟨a, ha, hat⟩ := mem_filterMap.mp ht
  exact hP a ha t (Option.mem_toList.mpr hat)

theorem addSlots_grows (h : args.foldlM (addSlot S old) c = some c') :
    (∀ a ∈ args, ∀ tensor, a = .device tensor → ∀ t ∈ tensor.toList, (addrRule S t).isSome) ∧
      Grows c c' [] (fun (env : Addrs S) b => SlotBytes (args.map (entry (ruleAddr env))) b) := by
  refine foldlM_grows (fun env as b => SlotBytes (as.map (entry (ruleAddr env))) b)
    (fun {c c' a} ha => ?_) (fun _ => rfl) (fun _ _ _ _ _ hb hb' => hb.append hb') h
  -- a slot that is the runtime's to fill is eight bytes of any kind
  have hzero : c.addLaunchData (le8 0) = some c' →
      Grows (S := S) c c' [] (fun _ b => ∃ junk rest, b = junk ++ rest ∧ junk.length = 8 ∧
        rest = []) := fun h =>
    (addLaunchData_grows h).mono fun _ b hb =>
      ⟨b, [], (append_nil _).symm, by rw [hb, length_le8], rfl⟩
  cases a with
  | device tensor =>
    obtain ⟨hP, hgrow⟩ := addLaunchTensor_grows ha
    refine ⟨fun tensor' heq => ?_, hgrow.mono fun env b hb => ?_⟩
    · cases heq
      exact hP
    · exact ⟨[], by rw [hb, append_nil], length_le8 _, rfl⟩
  | host _ | devicePtr _ => exact ⟨nofun, hzero ha⟩

theorem addBlocks_grows (h : args.foldlM (addBlock S old) c = some c') :
    (∀ a ∈ args, ∀ ts, a = .devicePtr ts → ∀ t ∈ ts.filterMap id, (addrRule S t).isSome) ∧
      Grows c c' [] (fun (env : Addrs S) b => ValueBytes (args.map (entry (ruleAddr env))) b) := by
  refine foldlM_grows (fun env as b => ValueBytes (as.map (entry (ruleAddr env))) b)
    (fun {c c' a} ha => ?_) (fun _ => rfl) (fun _ _ _ _ _ hb hb' => hb.append hb') h
  cases a with
  | device tensor =>
    cases ha
    exact ⟨nofun, Grows.refl c⟩
  | host data =>
    refine ⟨nofun, (addLaunchData_grows ha).mono fun env b hb => ?_⟩
    exact ⟨[], [], by rw [hb, append_nil, append_nil], rfl, rfl⟩
  | devicePtr tensors =>
    obtain ⟨c₂, hlist, hpad⟩ := bind_eq_some_iff.mp ha
    obtain ⟨c₁, hhead, htensors⟩ := bind_eq_some_iff.mp hlist
    obtain ⟨hP, hgrow⟩ := addLaunchTensors_grows htensors
    have hwritten : Grows c c₂ [] (fun env b => b = listBytes (ruleAddr env) tensors) :=
      (addLaunchData_grows hhead).trans hgrow fun env b b' hb hb' => by
        rw [hb, hb']
        rfl
    refine ⟨fun ts heq => ?_, hwritten.trans (addStaleData_grows hpad) fun env b b' hb hb' => ?_⟩
    · cases heq
      exact hP
    · exact ⟨b', [], by rw [hb, append_nil], hb', rfl⟩

/-- The bytes of a recorded launch, for given addresses. -/
def LaunchBytes (l : KernelLaunch) (env : Addrs S) (b : List Byte) : Prop :=
  ∃ head ffts slots junk flow values : List Byte,
    b = head ++ (ffts ++ (slots ++ (junk ++ (flow ++ (values ++ zeroPadded l.tilingData))))) ∧
    head.length = launchArgCacheSize + argNum l * argInfoSize ∧
    ffts.length = 8 * firstSlot l ∧
    SlotBytes (l.args.map (entry (ruleAddr env))) slots ∧ junk.length = 8 ∧ flow.length = 8 ∧
    ValueBytes (l.args.map (entry (ruleAddr env))) values

/-- Every tensor the launch lists has a rule. -/
def Placed (S : Storages) (l : KernelLaunch) : Prop :=
  ∀ a ∈ l.args, ∀ t ∈ a.tensors, (addrRule S t).isSome

variable {l : KernelLaunch} {kept : UInt64}

/-- The arguments are recorded with rules for the addresses in them. -/
theorem addArgInfo_grows (h : c.addArgInfo S old l = some c') :
    Placed S l ∧ Grows c c' [] (fun (env : Addrs S) b => ∀ head : List Byte,
      head.length = launchArgCacheSize + argNum l * argInfoSize →
      LaunchBytes l env (head ++ b)) := by
  unfold addArgInfo at h
  obtain ⟨c₁, hffts, h⟩ := bind_eq_some_iff.mp h
  obtain ⟨c₂, hslots, h⟩ := bind_eq_some_iff.mp h
  obtain ⟨c₃, htail, h⟩ := bind_eq_some_iff.mp h
  obtain ⟨c₄, hblocks, htiling⟩ := bind_eq_some_iff.mp h
  obtain ⟨hdevice, hslots⟩ := addSlots_grows hslots
  obtain ⟨hptr, hblocks⟩ := addBlocks_grows hblocks
  have hffts : Grows (S := S) c c₁ [] (fun _ b => b.length = 8 * firstSlot l) := by
    unfold firstSlot
    split at hffts
    next hsync =>
      rw [if_pos hsync]
      exact addStaleData_grows hffts
    next hsync =>
      rw [if_neg hsync]
      cases hffts
      exact (Grows.refl c).mono fun _ b hb => congrArg List.length hb
  refine ⟨fun a ha t ht => ?_, ?_⟩
  · cases a with
    | device tensor => exact hdevice _ ha _ rfl t ht
    | host data => cases ht
    | devicePtr tensors => exact hptr _ ha _ rfl t ht
  · -- put together from the end: values, flow and junk, slots
    have hdata : Grows c₃ c' [] (fun (env : Addrs S) b => ∃ values : List Byte,
        b = values ++ zeroPadded l.tilingData ∧
        ValueBytes (l.args.map (entry (ruleAddr env))) values) :=
      hblocks.trans (addLaunchData_grows htiling) fun env b b' hb hb' => ⟨b, by rw [hb'], hb⟩
    have hbehind : Grows c₂ c' [] (fun (env : Addrs S) b => ∃ junk flow values : List Byte,
        b = junk ++ (flow ++ (values ++ zeroPadded l.tilingData)) ∧ junk.length = 8 ∧
        flow.length = 8 ∧ ValueBytes (l.args.map (entry (ruleAddr env))) values) := by
      refine (addStaleData_grows htail).trans hdata fun env b b' hb hb' => ?_
      obtain ⟨values, hb', hvalues⟩ := hb'
      refine ⟨b.take 8, b.drop 8, values, ?_, ?_, ?_, hvalues⟩
      · rw [hb', ← append_assoc (b.take 8), take_append_drop]
      · rw [length_take, hb]
        rfl
      · rw [length_drop, hb]
    have hraw : Grows c₁ c' [] (fun (env : Addrs S) b => ∃ slots junk flow values : List Byte,
        b = slots ++ (junk ++ (flow ++ (values ++ zeroPadded l.tilingData))) ∧
        SlotBytes (l.args.map (entry (ruleAddr env))) slots ∧ junk.length = 8 ∧
        flow.length = 8 ∧ ValueBytes (l.args.map (entry (ruleAddr env))) values) := by
      refine hslots.trans hbehind fun env b b' hb hb' => ?_
      obtain ⟨junk, flow, values, hb', hrest⟩ := hb'
      exact ⟨b, junk, flow, values, by rw [hb'], hb, hrest⟩
    refine hffts.trans hraw fun env b b' hb hb' head hhead => ?_
    obtain ⟨slots, junk, flow, values, hb', hrest⟩ := hb'
    exact ⟨head, b, slots, junk, flow, values, by rw [hb'], hhead, hb, hrest⟩

theorem Grows.task {task : Task} {B : Addrs S → List Byte → Prop}
    (h : Grows { c with taskQueue := c.taskQueue ++ [task] } c' [] B) : Grows c c' [task] B := by
  obtain ⟨htasks, hbytes⟩ := h
  rw [append_nil] at htasks
  exact ⟨htasks, hbytes⟩

theorem dumpToCache_grows (h : c.dumpToCache S old l = some c') :
    l.tilingData.length ≠ 0 ∧ Placed S l ∧
      Grows c c' [⟨c.buf.length, argInfos l⟩] (LaunchBytes (S := S) l) := by
  unfold dumpToCache at h
  split at h
  next => cases h
  next htiling =>
    obtain ⟨c₁, hhead, hargs⟩ := bind_eq_some_iff.mp h
    obtain ⟨hplaced, hgrow⟩ := addArgInfo_grows hargs
    refine ⟨fun h => htiling (.inl h), hplaced, ?_⟩
    exact ((addStaleData_grows hhead).trans hgrow fun env b b' hb hb' => hb' b hb).task

/-! ## The launches of a recorded call -/

theorem length_argInfos (htiling : l.tilingData.length ≠ 0) : (argInfos l).length = argNum l := by
  unfold argInfos
  rw [argNum_eq htiling, length_append, length_append, length_map]
  unfold firstSlot
  split <;> rfl

theorem rawArgSize_argInfos (addr : Tensor → UInt64)
    (htiling : l.tilingData.length ≠ 0) : rawArgSize (argInfos l) =
      8 * argNum l + (Entry.rooms (l.args.map (entry addr)) + alignSize l.tilingData.length) := by
  unfold rawArgSize
  rw [length_argInfos htiling]
  unfold argInfos Entry.rooms
  rw [map_append, map_append, sum_append, sum_append, map_map, map_map]
  congr 1
  congr 1
  · have hsync : ∀ f : ArgInfo → Nat, f ⟨.fftsAddr, 0⟩ = 0 →
        ((if l.hasFftsAddr then [⟨.fftsAddr, 0⟩] else []).map f).sum = 0 := by
      intro f hf
      split
      · simp [hf]
      · rfl
    rw [hsync _ rfl, Nat.zero_add]
    congr 1
    refine map_congr_left fun a _ => ?_
    show _ = (entry addr a).room
    rw [entry_room]
    cases a <;> rfl
  · show _ + (0 + 0) = _
    rw [← length_zeroPadded]
    rfl

theorem LaunchBytes.length {env : Addrs S} {b : List Byte}
    (htiling : l.tilingData.length ≠ 0) (h : LaunchBytes l env b) :
    b.length = launchArgCacheSize + argNum l * argInfoSize + rawArgSize (argInfos l) := by
  obtain ⟨head, ffts, slots, junk, flow, values, hb, hhead, hffts, hslots, hjunk, hflow,
    hvalues⟩ := h
  rw [rawArgSize_argInfos (ruleAddr env) htiling, argNum_eq htiling, hb]
  simp only [length_append, hhead, hffts, hslots.length, hjunk, hflow, hvalues.length,
    length_zeroPadded, length_map, argNum_eq htiling]
  omega

/-- The tasks of launches recorded one after the other from `off` on. -/
def tasksFrom : Nat → List KernelLaunch → List Task
  | _, [] => []
  | off, l :: ls => ⟨off, argInfos l⟩ :: tasksFrom
      (off + (launchArgCacheSize + argNum l * argInfoSize + rawArgSize (argInfos l))) ls

/-- The bytes of launches recorded one after the other. -/
def Launches : List KernelLaunch → Addrs S → List Byte → Prop
  | [], _, b => b = []
  | l :: ls, env, b => ∃ b₁ b₂, b = b₁ ++ b₂ ∧ LaunchBytes l env b₁ ∧ Launches ls env b₂

/-- What a recorded launch has been checked for. -/
structure Recorded (kept : UInt64) (env₀ : Addrs S) (old : Nat → Byte) (l : KernelLaunch) :
    Prop where
  filled : (fillArgs kept env₀ old l).isSome
  tiling : l.tilingData.length ≠ 0
  placed : Placed S l

theorem record_grows {env₀ : Addrs S} :
    ∀ {ls : List KernelLaunch} {c c' : OpExecCache},
    ls.foldlM (launchAndDump kept env₀ old) c = some c' →
    (∀ l ∈ ls, Recorded kept env₀ old l) ∧
      Grows c c' (tasksFrom c.buf.length ls) (Launches (S := S) ls)
  | [], c, _, h => by
    cases h
    exact ⟨nofun, Grows.refl c⟩
  | l :: ls, c, c', h => by
    rw [foldlM_cons] at h
    obtain ⟨c₁, hl, hls⟩ := bind_eq_some_iff.mp h
    obtain ⟨filled, hfill, hdump⟩ := bind_eq_some_iff.mp hl
    obtain ⟨htiling, hplaced, hgrow⟩ := dumpToCache_grows hdump
    obtain ⟨hrecorded, hgrows⟩ := record_grows hls
    have hlen : c₁.buf.length = c.buf.length +
        (launchArgCacheSize + argNum l * argInfoSize + rawArgSize (argInfos l)) := by
      obtain ⟨_, b, rules, hbuf, _, henv⟩ := hgrow
      obtain ⟨b', hpatch, hb'⟩ := henv env₀
      rw [hbuf, length_append, ← hpatch.1, hb'.length htiling]
    rw [hlen] at hgrows
    refine ⟨forall_mem_cons.mpr ⟨⟨?_, htiling, hplaced⟩, hrecorded⟩, ?_⟩
    · rw [hfill]
      rfl
    · exact hgrow.trans hgrows fun env b b' hb hb' => ⟨b, b', rfl, hb, hb'⟩

/-- Where launch `k` lies. -/
theorem launches_at : ∀ {ls : List KernelLaunch} {k : Nat} {l : KernelLaunch} (off : Nat),
    (∀ l ∈ ls, l.tilingData.length ≠ 0) → ls[k]? = some l →
    ∃ n, (tasksFrom off ls)[k]? = some ⟨off + n, argInfos l⟩ ∧
      ∀ (env : Addrs S) (b : List Byte), Launches ls env b →
        ∃ pre mid post, b = pre ++ (mid ++ post) ∧ pre.length = n ∧ LaunchBytes l env mid
  | [], _, _, _, _, h => by cases h
  | l :: ls, 0, _, off, _, h => by
    cases h
    refine ⟨0, rfl, fun env b hb => ?_⟩
    obtain ⟨b₁, b₂, hb, hl, _⟩ := hb
    exact ⟨[], b₁, b₂, hb, rfl, hl⟩
  | l :: ls, k + 1, l', off, htiling, h => by
    obtain ⟨n, htask, hbytes⟩ := launches_at
      (off + (launchArgCacheSize + argNum l * argInfoSize + rawArgSize (argInfos l)))
      (fun l hl => htiling l (mem_cons_of_mem _ hl)) h
    refine ⟨launchArgCacheSize + argNum l * argInfoSize + rawArgSize (argInfos l) + n, ?_, ?_⟩
    · rw [← Nat.add_assoc]
      exact htask
    · intro env b hb
      obtain ⟨b₁, b₂, hb, hl, hls⟩ := hb
      obtain ⟨pre, mid, post, hb₂, hpre, hmid⟩ := hbytes env b₂ hls
      refine ⟨b₁ ++ pre, mid, post, ?_, ?_, hmid⟩
      · rw [hb, hb₂, append_assoc]
      · rw [length_append, hl.length (htiling l mem_cons_self), hpre]

/-! ## Replay -/

section Run

variable {env : Addrs S} {l : KernelLaunch} {ph : List PlaceHolder}

/-- `RunFromCache` places the data of the arguments one after the other. -/
theorem runLoop_args (addr : Tensor → UInt64) (devAddrLen : Nat) (rest : List ArgInfo) :
    ∀ (args : List ArgAddr) (i currHostDataLen : Nat) (r : RtArgs),
    runLoop env devAddrLen i currHostDataLen (args.map argInfo ++ rest) r =
      runLoop env devAddrLen (i + args.length)
        (currHostDataLen + Entry.rooms (args.map (entry addr))) rest
        { r with placeHolders := r.placeHolders ++
            placeHoldersOf i (locate (devAddrLen + currHostDataLen) (args.map (entry addr))) }
  | [], i, n, r => by
    show _ = runLoop env devAddrLen i n rest { r with placeHolders := r.placeHolders ++ [] }
    rw [append_nil]
    rfl
  | a :: args, i, n, r => by
    have hroom := entry_room addr a
    have hrooms : Entry.rooms ((a :: args).map (entry addr)) =
        (argInfo a).dataLen + Entry.rooms (args.map (entry addr)) := by
      rw [← hroom]
      rfl
    rw [hrooms, length_cons, Nat.add_comm args.length, ← Nat.add_assoc, ← Nat.add_assoc]
    -- the two kinds with a placeholder differ in the length of their data alone
    have hdata : ∀ d pad, entry addr a = .data d pad →
        runLoop env devAddrLen i n ((a :: args).map argInfo ++ rest) r =
          runLoop env devAddrLen (i + 1) (n + (argInfo a).dataLen) (args.map argInfo ++ rest)
            { r with placeHolders := r.placeHolders ++ [⟨8 * i, devAddrLen + n⟩] } →
        runLoop env devAddrLen i n ((a :: args).map argInfo ++ rest) r =
          runLoop env devAddrLen (i + 1 + args.length)
            (n + (argInfo a).dataLen + Entry.rooms (args.map (entry addr))) rest
            { r with placeHolders := r.placeHolders ++
                placeHoldersOf i (locate (devAddrLen + n) ((a :: args).map (entry addr))) } := by
      intro d pad hd hstep
      have hlen : d.length + pad = (argInfo a).dataLen := by
        rw [← hroom, hd]
        rfl
      rw [hstep, runLoop_args addr devAddrLen rest args, map_cons, hd, locate, placeHoldersOf,
        hlen, append_assoc, singleton_append, Nat.add_assoc devAddrLen]
    cases a with
    | device tensor => exact runLoop_args addr devAddrLen rest args (i + 1) n r
    | host _ | devicePtr _ => exact hdata _ _ rfl rfl

/-- The slot of the `fftsAddr` gets its address. -/
theorem runLoop_ffts {devAddrLen : Nat} {rest : List ArgInfo} {ffts body : List Byte}
    (hffts : ffts.length = 8 * firstSlot l) :
    runLoop env devAddrLen 0 0 ((if l.hasFftsAddr then [⟨.fftsAddr, 0⟩] else []) ++ rest)
      ⟨ffts ++ body, ph⟩ =
    runLoop env devAddrLen (firstSlot l) 0 rest ⟨syncSlot env l ++ body, ph⟩ := by
  unfold firstSlot at hffts ⊢
  unfold syncSlot
  by_cases hsync : l.hasFftsAddr
  · rw [if_pos hsync] at hffts
    rw [if_pos hsync, if_pos hsync, if_pos hsync]
    have hpatch : patch ([] : List Byte).length (le8 env.hardwareSync) ([] ++ (ffts ++ body)) =
        [] ++ (le8 env.hardwareSync ++ body) := patch_append (hffts.trans (length_le8 _).symm)
    show runLoop env devAddrLen 1 0 rest ⟨patch 0 _ (ffts ++ body), ph⟩ = _
    exact congrArg (fun args => runLoop env devAddrLen 1 0 rest ⟨args, ph⟩) hpatch
  · rw [if_neg hsync] at hffts
    rw [if_neg hsync, if_neg hsync, if_neg hsync, length_eq_zero_iff.mp hffts]
    rfl

theorem runLoop_tail {devAddrLen i n len : Nat} {front flow rest : List Byte}
    (hfront : front.length = 8 * (i + 1)) (hflow : flow.length = 8) :
    runLoop env devAddrLen i n [⟨.tilingData, len⟩, ⟨.overflowAddr, 0⟩]
      ⟨front ++ (flow ++ rest), ph⟩ =
    ⟨front ++ (le8 env.floatOverflow ++ rest), ph ++ [⟨8 * i, devAddrLen + n⟩]⟩ := by
  show RtArgs.mk (patch (8 * (i + 1)) _ _) _ = _
  rw [← hfront, patch_append (hflow.trans (length_le8 _).symm)]

/-- The block that `RunFromCache` makes: the tiling data is the last. -/
theorem runFromCache_eq {off : Nat} {pre mid post : List Byte}
    (htiling : l.tilingData.length ≠ 0) (hbuf : c.buf = pre ++ (mid ++ post))
    (hpre : pre.length = off) (hmid : LaunchBytes l env mid) :
    ∃ slots junk values : List Byte, SlotBytes (l.args.map (entry (ruleAddr env))) slots ∧
      junk.length = 8 ∧ ValueBytes (l.args.map (entry (ruleAddr env))) values ∧
      runFromCache env c ⟨off, argInfos l⟩ =
        { args := block env l slots junk (values ++ zeroPadded l.tilingData)
          placeHolders := placeHoldersOf (firstSlot l)
            (locate (8 * argNum l) (l.args.map (entry (ruleAddr env)))) ++
            [⟨8 * (firstSlot l + l.args.length), 8 * argNum l + values.length⟩] } := by
  have hmidlen := hmid.length htiling
  obtain ⟨head, ffts, slots, junk, flow, values, hb, hhead, hffts, hslots, hjunk, hflow, hvalues⟩ :=
    hmid
  refine ⟨slots, junk, values, hslots, hjunk, hvalues, ?_⟩
  -- the raw arguments of the task, cut out of the buffer
  have hread : (c.buf.drop (off + (launchArgCacheSize + (argInfos l).length * argInfoSize))).take
      (rawArgSize (argInfos l)) =
        ffts ++ (slots ++ (junk ++ (flow ++ (values ++ zeroPadded l.tilingData)))) := by
    have hsplit : c.buf = (pre ++ head) ++ (ffts ++ (slots ++ (junk ++ (flow ++ (values ++
        zeroPadded l.tilingData)))) ++ post) := by
      rw [hbuf, hb]
      simp only [append_assoc]
    have hlen : (pre ++ head).length =
        off + (launchArgCacheSize + (argInfos l).length * argInfoSize) := by
      rw [length_append, hpre, hhead, length_argInfos htiling]
    rw [hsplit, drop_left' hlen, take_left']
    rw [hb, length_append, hhead] at hmidlen
    omega
  have hfront : (syncSlot env l ++ (slots ++ junk)).length =
      8 * (firstSlot l + l.args.length + 1) := by
    rw [length_append, length_append, length_syncSlot, hslots.length, hjunk, length_map]
    omega
  have hbody : syncSlot env l ++ (slots ++ (junk ++ (flow ++ (values ++
      zeroPadded l.tilingData)))) = (syncSlot env l ++ (slots ++ junk)) ++ (flow ++ (values ++
      zeroPadded l.tilingData)) := by
    simp only [append_assoc]
  unfold runFromCache
  simp only
  rw [hread, length_argInfos htiling]
  unfold argInfos
  rw [append_assoc, runLoop_ffts hffts, runLoop_args (ruleAddr env), hbody,
    runLoop_tail hfront hflow, Nat.zero_add, ← hvalues.length, block]
  simp only [append_assoc, nil_append, Nat.add_zero]

theorem view_runFromCache {off : Nat} {pre mid post : List Byte}
    (htiling : l.tilingData.length ≠ 0) (hbuf : c.buf = pre ++ (mid ++ post))
    (hpre : pre.length = off) (hmid : LaunchBytes l env mid) :
    view (runFromCache env c ⟨off, argInfos l⟩) (dataLens l) =
      launchSlots env (ruleAddr env) l := by
  obtain ⟨slots, junk, values, hslots, hjunk, hvalues, hrun⟩ :=
    runFromCache_eq htiling hbuf hpre hmid
  have htilingAt : values ++ zeroPadded l.tilingData =
      values ++ (zeroPadded l.tilingData ++ []) := by
    rw [append_nil]
  rw [hrun]
  exact view_block htiling rfl hslots hjunk (nil_append _).symm rfl hvalues htilingAt rfl rfl

end Run

/-! ## Replay and fresh launch -/

/-- The runtime is handed the same launch twice: as many slots, a block of the same size,
placeholders for the same slots, and in every slot the same address or data. -/
structure SameLaunch (l : KernelLaunch) (task : Task) (replayed fresh : RtArgs) : Prop where
  slots : task.argInfo.length = argNum l
  size : replayed.args.length = fresh.args.length
  placeHolders : replayed.placeHolders.map (·.addrOffset) = fresh.placeHolders.map (·.addrOffset)
  view : view replayed (dataLens l) = view fresh (dataLens l)

theorem listBytes_inj {addr addr' : Tensor → UInt64} : ∀ {tensors : List (Option Tensor)},
    (tensors.flatMap fun t => le8 (t.elim 0 addr)) =
      (tensors.flatMap fun t => le8 (t.elim 0 addr')) ↔
    ∀ t ∈ tensors.filterMap id, addr t = addr' t
  | [] => ⟨fun _ => nofun, fun _ => rfl⟩
  | tensor :: tensors => by
    have hsplit : ∀ {x y : UInt64} {b b' : List Byte},
        le8 x ++ b = le8 y ++ b' ↔ x = y ∧ b = b' := by
      intro x y b b'
      refine ⟨fun h => ?_, fun h => by rw [h.1, h.2]⟩
      obtain ⟨hx, hb⟩ := append_inj h (by rw [length_le8, length_le8])
      exact ⟨le8_inj.mp hx, hb⟩
    rw [flatMap_cons, flatMap_cons, hsplit, listBytes_inj]
    cases tensor with
    | none => simp
    | some t => simp

theorem entry_slot_inj {addr addr' : Tensor → UInt64} {a : ArgAddr} :
    (entry addr a).slot = (entry addr' a).slot ↔ ∀ t ∈ a.tensors, addr t = addr' t := by
  cases a with
  | device tensor =>
    show Slot.address _ = Slot.address _ ↔ _
    rw [Slot.address.injEq, le8_inj]
    cases tensor with
    | none | some _ => simp [ArgAddr.tensors]
  | host data => simp [entry, Entry.slot, ArgAddr.tensors]
  | devicePtr tensors =>
    show Slot.data (ptrListHead tensors ++ _) = Slot.data (ptrListHead tensors ++ _) ↔ _
    rw [Slot.data.injEq, append_cancel_left_eq, listBytes_inj]
    rfl

theorem keeping_floatOverflow {env : Addrs S} :
    (env.keeping kept).floatOverflow = env.floatOverflow ↔ kept = 0 ∨ kept = env.floatOverflow := by
  unfold Addrs.keeping
  dsimp only
  split
  next h => exact iff_of_true rfl (Or.inl h)
  next h => exact (or_iff_right h).symm

theorem launchSlots_inj {env : Addrs S} {addr addr' : Tensor → UInt64} :
    launchSlots env addr l = launchSlots (env.keeping kept) addr' l ↔
      (∀ a ∈ l.args, ∀ t ∈ a.tensors, addr t = addr' t) ∧
        (kept = 0 ∨ kept = env.floatOverflow) := by
  have hslots : (l.args.map fun a => (entry addr a).slot) = l.args.map (fun a =>
      (entry addr' a).slot) ↔ ∀ a ∈ l.args, ∀ t ∈ a.tensors, addr t = addr' t := by
    rw [map_eq_map_iff]
    exact forall_congr' fun a => imp_congr_right fun _ => entry_slot_inj
  rw [← hslots, ← keeping_floatOverflow]
  unfold launchSlots
  rw [append_assoc, append_assoc]
  refine ⟨fun h => ?_, fun h => by rw [h.1, h.2]; rfl⟩
  obtain ⟨hargs, hlast⟩ := append_inj ((append_right_inj _).mp h) (by rw [length_map, length_map])
  simp only [cons.injEq, Slot.address.injEq, le8_inj] at hlast
  exact ⟨hargs, hlast.2.1.symm⟩

/-- A recorded launch is replayed as a fresh one exactly when no workspace tensor among its
arguments is a view that starts behind the tensor's place in the workspace, and the fresh one does
not write the overflow address of another context that the process has kept. -/
theorem replay_eq_fresh {env₀ : Addrs S} {ls : List KernelLaunch} {k : Nat} {l : KernelLaunch}
    (hrecord : record kept env₀ old ls = some c) (hl : ls[k]? = some l) :
    ∃ task, c.taskQueue[k]? = some task ∧
      ∀ (kept' : UInt64) (env : Addrs S) (old' : Nat → Byte), ∃ fresh,
        fillArgs kept' env old' l = some fresh ∧
        (SameLaunch l task (runFromCache env (c.updateTensorAddr env) task) fresh ↔
          (∀ a ∈ l.args, ∀ t ∈ a.tensors, t.fromWorkspace →
            calcShapeBytes t.viewOffset t.dataType true = 0) ∧
          (kept' = 0 ∨ kept' = env.floatOverflow)) := by
  obtain ⟨hrecorded, htasks, b, rules, hbuf, hrules, henv⟩ := record_grows hrecord
  have hbuf : c.buf = b := hbuf
  have hrules : c.addrUpdateRelation = rules := hrules
  obtain ⟨hfilled, htiling, hplaced⟩ := hrecorded l (mem_of_getElem? hl)
  obtain ⟨n, htask, hbytes⟩ := launches_at (S := S) 0 (fun l hl => (hrecorded l hl).tiling) hl
  refine ⟨_, by rw [htasks]; exact htask, fun kept' env old' => ?_⟩
  obtain ⟨fresh, hfresh⟩ := fillArgs_isSome kept' env old' hfilled
  refine ⟨fresh, hfresh, ?_⟩
  -- the launch in the updated buffer
  obtain ⟨b', hpatch, hlaunches⟩ := henv env
  obtain ⟨pre, mid, post, hb', hpre, hmid⟩ := hbytes env b' hlaunches
  have hupdated : (c.updateTensorAddr env).buf = pre ++ (mid ++ post) := by
    have happly := hpatch.2 [] [] rfl
    rw [append_nil, append_nil] at happly
    show applyRules env c.addrUpdateRelation c.buf = _
    rw [hbuf, hrules, ← hb']
    exact happly
  rw [← Nat.zero_add n] at hpre
  have hviews : view (runFromCache env (c.updateTensorAddr env) ⟨0 + n, argInfos l⟩) (dataLens l) =
      view fresh (dataLens l) ↔ (∀ a ∈ l.args, ∀ t ∈ a.tensors, t.fromWorkspace →
        calcShapeBytes t.viewOffset t.dataType true = 0) ∧
          (kept' = 0 ∨ kept' = env.floatOverflow) := by
    rw [view_runFromCache htiling hupdated hpre hmid, view_fillArgs htiling hfresh, launchSlots_inj]
    refine and_congr_left fun _ => ?_
    exact forall₂_congr fun a ha => forall₂_congr fun t ht =>
      ruleAddr_eq_iff env (hplaced a ha t ht)
  refine ⟨fun h => hviews.mp h.view, fun h => ⟨length_argInfos htiling, ?_, ?_, hviews.mpr h⟩⟩
  · obtain ⟨slots, junk, values, hS, hjunk, hV, hfresh⟩ := fillArgs_eq htiling hfresh
    obtain ⟨slots', junk', values', hS', hjunk', hV', hrun⟩ :=
      runFromCache_eq htiling hupdated hpre hmid
    obtain ⟨front, hfront, hlen⟩ :=
      block_eq (env.keeping kept') (zeroPadded l.tilingData ++ values) htiling hS hjunk
    obtain ⟨front', hfront', hlen'⟩ :=
      block_eq env (values' ++ zeroPadded l.tilingData) htiling hS' hjunk'
    rw [hrun, hfresh]
    show (block _ _ _ _ _).length = (block _ _ _ _ _).length
    rw [hfront, hfront']
    simp only [length_append, hlen, hlen', hV.length, hV'.length]
    rw [rooms_entry (ruleAddr env) (Tensor.getData env)]
    omega
  · obtain ⟨_, _, _, _, _, _, hfresh⟩ := fillArgs_eq htiling hfresh
    obtain ⟨_, _, _, _, _, _, hrun⟩ := runFromCache_eq htiling hupdated hpre hmid
    rw [hrun, hfresh]
    simp only [map_append]
    rw [addrOffset_placeHoldersOf (ruleAddr env) (Tensor.getData env)]
    rfl

/-- A call on two storages, a third made from the second. -/
def exampleStorages : Storages where
  cachedStorageList := [1, 2]
  storageRelation m := if m = 3 then some 2 else none

/-- The addresses of a call whose workspace and storages lie from `base` on. -/
def exampleAddrs (base : UInt64) : Addrs exampleStorages where
  workspace := base
  storage m := if m = 1 then base + 4096 else base + 8192
  related m o h := by
    unfold exampleStorages at h
    simp only at h
    split at h
    next hm =>
      cases h
      rw [hm]
      rfl
    next => cases h
  hardwareSync := 16
  floatOverflow := 32

/-- A float tensor of the call, or of the workspace, viewed from an element on. -/
def exampleTensor (storage : Nat) (fromWorkspace : Bool) (viewOffset : Int) : Tensor where
  storage := storage
  fromWorkspace := fromWorkspace
  workspaceOffset := 512
  storageOffset := 1
  viewOffset := viewOffset
  dataType := .DT_FLOAT
  storageShape := [2, 3]

/-- A launch with an argument of each kind. -/
def exampleLaunch (workspaceView : Int) : KernelLaunch where
  hasFftsAddr := true
  args := [.device (some (exampleTensor 1 false 2)), .device none,
    .device (some (exampleTensor 9 true workspaceView)), .host [7, 8, 9],
    .devicePtr [some (exampleTensor 3 false 5), none]]
  tilingData := [1, 2, 3, 4]
  capacity := 1024

theorem replay_eq_fresh_kinds : ∃ c,
    record 0 (exampleAddrs 65536) (fun _ => 255) [exampleLaunch 0, exampleLaunch 0] = some c ∧
    ∃ task, c.taskQueue[1]? = some task ∧ ∀ (env : Addrs exampleStorages) old', ∃ fresh,
      fillArgs env.floatOverflow env old' (exampleLaunch 0) = some fresh ∧
      SameLaunch (exampleLaunch 0) task (runFromCache env (c.updateTensorAddr env) task) fresh := by
  have hrecord : (record 0 (exampleAddrs 65536) (fun _ => 255)
      [exampleLaunch 0, exampleLaunch 0]).isSome := by decide +kernel
  obtain ⟨c, hc⟩ := Option.isSome_iff_exists.mp hrecord
  obtain ⟨task, htask, hreplay⟩ := replay_eq_fresh (k := 1) hc rfl
  refine ⟨c, hc, task, htask, fun env old' => ?_⟩
  obtain ⟨fresh, hfresh, hiff⟩ := hreplay env.floatOverflow env old'
  refine ⟨fresh, hfresh, hiff.mpr ⟨?_, Or.inr rfl⟩⟩
  unfold exampleLaunch
  simp only [forall_mem_cons, ArgAddr.tensors]
  decide +kernel

/-- The view of a workspace tensor from element 4 on: the fresh launch gets an address 16
bytes behind the replayed one. -/
theorem replay_drops_view_offset : ∃ c,
    record 0 (exampleAddrs 65536) (fun _ => 255) [exampleLaunch 4] = some c ∧
    ∃ task, c.taskQueue[0]? = some task ∧ ∃ fresh,
      fillArgs 32 (exampleAddrs 131072) (fun _ => 0) (exampleLaunch 4) = some fresh ∧
      (view (runFromCache (exampleAddrs 131072) (c.updateTensorAddr (exampleAddrs 131072)) task)
        (dataLens (exampleLaunch 4)))[3]? = some (.address (le8 (131072 + 512))) ∧
      (view fresh (dataLens (exampleLaunch 4)))[3]? = some (.address (le8 (131072 + 512 + 16))) ∧
      ¬ SameLaunch (exampleLaunch 4) task
        (runFromCache (exampleAddrs 131072)
          (c.updateTensorAddr (exampleAddrs 131072)) task) fresh := by
  have hreplay : ((record 0 (exampleAddrs 65536) (fun _ => 255) [exampleLaunch 4]).bind fun c =>
      c.taskQueue[0]?.bind fun task =>
        (view (runFromCache (exampleAddrs 131072) (c.updateTensorAddr (exampleAddrs 131072)) task)
          (dataLens (exampleLaunch 4)))[3]?) = some (.address (le8 (131072 + 512))) := by
    decide +kernel
  have hfresh : ((fillArgs 32 (exampleAddrs 131072) (fun _ => 0)
      (exampleLaunch 4)).bind fun fresh => (view fresh (dataLens (exampleLaunch 4)))[3]?) =
        some (.address (le8 (131072 + 512 + 16))) := by
    decide +kernel
  obtain ⟨c, hc, hreplay⟩ := bind_eq_some_iff.mp hreplay
  obtain ⟨task, htask, hreplay⟩ := bind_eq_some_iff.mp hreplay
  obtain ⟨fresh, hfill, hfresh⟩ := bind_eq_some_iff.mp hfresh
  refine ⟨c, hc, task, htask, fresh, hfill, hreplay, hfresh, fun h => ?_⟩
  rw [h.view, hfresh] at hreplay
  revert hreplay
  decide

end OpBase.Launch
