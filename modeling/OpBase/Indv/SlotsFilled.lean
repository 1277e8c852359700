import OpBase.Indv.AddTensors

/-!
# The slots after adding

A slot that is not null holds a tensor, a null one nothing: this is the slot's `content`.
Once every parameter of the signature has its argument, the contents of the slots are those
of the arguments one after the other, with nulls behind, and a parameter that has slots knows
where they begin.

> `addArgs_filled`: adding arguments that the signature admits succeeds and fills the slots
> in the order of the signature.

The induction is on the parameters left. `Filling` says what holds between two of them: the
slots in use are `usedNum`, those behind are null, and there are more than the parameters
left can need.
-/

namespace OpBase.Indv

open List OpBase.Lib

/-- The tensor of a slot. -/
def ExtTensor.content (t : ExtTensor) : Option GertTensor :=
  if t.isNull then none else some t.rt2Tensor

/-- A parameter, with what is given for it. -/
abbrev Given := ParamInstance × Arg

/-- What the slots of an argument hold. -/
def Arg.contents (formatCheckOption : FormatCheckOption) (a : Arg) : List (Option GertTensor) :=
  a.slots.map fun t => t.map (AclTensor.saved formatCheckOption)

/-- The slots of all the arguments, one after the other. -/
def flat (formatCheckOption : FormatCheckOption) (params : List Given) : List (Option GertTensor) :=
  params.flatMap fun x => x.2.contents formatCheckOption

namespace Tensors

def contents (ts : Tensors) : List (Option GertTensor) := ts.extTensors.map ExtTensor.content

/-- The parameter knows its slots; `offset` is where they begin. -/
structure Known (offset : Nat) (x : Given) : Prop where
  admits : x.1.cfgNum.Admits x.2
  starts : x.2.slots ≠ [] → x.1.startIndex = offset
  counts : x.1.cfgNum = .dynamic → x.2.slots ≠ [] → x.1.num = x.2.slots.length

/-- What adding comes to. -/
structure Filled (formatCheckOption : FormatCheckOption) (ts : Tensors) (params : List Given) :
    Prop where
  instances : ts.instances = params.map Prod.fst
  contents : ∃ m, ts.contents = flat formatCheckOption params ++ List.replicate m none
  known : ∀ front x back, params = front ++ x :: back →
    Known (flat formatCheckOption front).length x

/-- What holds between two launches, whatever the slots have. -/
structure Shaped (paramDesc : List ParamType) (ts : Tensors) : Prop where
  signature : ts.signature = paramDesc
  spare : ts.hasDynamic → ts.nonDynamicCnt < ts.extTensors.length
  wide : ts.hasDynamic = false → ts.instances.length ≤ ts.extTensors.length
  fixed : ts.hasDynamic = false → ∀ i (p : ParamInstance), ts.instances[i]? = some p →
    p.startIndex = i
  plain : ts.hasDynamic = false → ts.num = ts.nonDynamicCnt
  sizes : ∀ p ∈ ts.instances, p.cfgNum = .dynamic → p.num ≤ dynamicParamDefNum

/-- What holds when the parameters `done` have their arguments and `todo` have not. -/
structure Filling (paramDesc : List ParamType) (formatCheckOption : FormatCheckOption)
    (ts : Tensors) (done : List Given) (todo : List ParamInstance) : Prop
    extends Shaped paramDesc ts where
  instances : ts.instances = done.map Prod.fst ++ todo
  contents : ∃ m, ts.contents = flat formatCheckOption done ++ List.replicate m none
  known : ∀ front x back, done = front ++ x :: back → Known (flat formatCheckOption front).length x
  expected : ts.expectIndex ≤ done.length
  passed : ((done.map Prod.fst).drop ts.expectIndex).countP (·.cfgNum ≠ .dynamic) = 0
  used : ts.hasDynamic → ts.usedNum = (flat formatCheckOption done).length
  counted : (flat formatCheckOption done).length =
    (done.map Prod.fst).countP (·.cfgNum ≠ .dynamic) + ts.dynamicCnt
  sum : ts.num = ts.nonDynamicCnt + ts.dynamicCnt
  room : ts.hasDynamic → ts.num < ts.extTensors.length
  single : ts.hasDynamic = false → (flat formatCheckOption done).length = done.length

/-! ## Slots -/

variable {paramDesc : List ParamType} {opt : FormatCheckOption} {ts ts' : Tensors}
  {done : List Given} {todo : List ParamInstance}

theorem modifySlot_of_lt {i : Nat} (f : ExtTensor → ExtTensor) (h : i < ts.extTensors.length) :
    ts.modifySlot i f = some { ts with extTensors := ts.extTensors.modify i f } :=
  if_pos h

theorem map_modify_same {α β : Type} {g : α → β} {f : α → α} (h : ∀ a, g (f a) = g a)
    (xs : List α) (i : Nat) : (xs.modify i f).map g = xs.map g := by
  apply ext_getElem?
  intro k
  rw [getElem?_map, getElem?_map, getElem?_modify]
  cases xs[k]? with
  | none => rfl
  | some a =>
    show some (g (if i = k then f a else a)) = some (g a)
    split
    next => rw [h]
    next => rfl

theorem map_modify_set {f : ExtTensor → ExtTensor} {c : Option GertTensor}
    (hf : ∀ t, (f t).content = c) (i : Nat) (slots : List ExtTensor) :
    (slots.modify i f).map ExtTensor.content = (slots.map ExtTensor.content).set i c := by
  apply ext_getElem?
  intro k
  rw [getElem?_map, getElem?_modify, getElem?_set, length_map, getElem?_map]
  by_cases hk : i = k
  · subst hk
    by_cases hi : i < slots.length
    · rw [getElem?_eq_getElem hi, if_pos rfl, if_pos hi]
      show some ((if i = i then f slots[i] else slots[i]).content) = some c
      rw [if_pos rfl, hf]
    · rw [getElem?_eq_none (Nat.not_lt.mp hi), if_pos rfl, if_neg hi]
      rfl
  · simp only [if_neg hk, Functor.map, Option.map_id']

theorem set_behind (front : List (Option GertTensor)) (c : Option GertTensor) (m : Nat) :
    (front ++ List.replicate (m + 1) none).set front.length c =
      (front ++ [c]) ++ List.replicate m none := by
  rw [set_append_right _ _ (Nat.le_refl _), Nat.sub_self, replicate_succ,
    set_cons_zero, append_assoc]
  rfl

theorem modify_front (front : List ParamInstance) (p : ParamInstance)
    (back : List ParamInstance) (f : ParamInstance → ParamInstance) :
    (front ++ p :: back).modify front.length f = (front ++ [f p]) ++ back := by
  rw [modify_eq_take_cons_drop (by simp), take_left, append_assoc,
    getElem_append_right (Nat.le_refl _), ← drop_drop, drop_left]
  simp

theorem hasDynamic_eq_of_signature {ts ts' : Tensors} (h : ts.signature = ts'.signature) :
    ts.hasDynamic = ts'.hasDynamic := by
  have hlen : ts.instances.length = ts'.instances.length := by
    have := congrArg List.length h
    unfold signature at this
    rwa [length_map, length_map] at this
  unfold hasDynamic nonDynamicCnt
  rw [h, hlen]

theorem hasDynamic_of_mem {p : ParamInstance} (hp : p ∈ ts.instances)
    (hdyn : p.cfgNum = .dynamic) : ts.hasDynamic = true := by
  have hlt : ts.signature.countP (· ≠ .dynamic) < ts.signature.length := by
    refine Nat.lt_of_le_of_ne countP_le_length fun h => ?_
    have := countP_eq_length.mp h p.cfgNum (mem_map_of_mem hp)
    rw [hdyn] at this
    exact absurd this (by decide)
  unfold hasDynamic nonDynamicCnt
  unfold signature at hlt ⊢
  rw [length_map] at hlt
  exact decide_eq_true hlt

/-- Only slots differ, and the count of host inputs. -/
structure SameParams (ts ts' : Tensors) : Prop where
  instances : ts'.instances = ts.instances
  usedNum : ts'.usedNum = ts.usedNum
  num : ts'.num = ts.num
  expectIndex : ts'.expectIndex = ts.expectIndex
  dynamicCnt : ts'.dynamicCnt = ts.dynamicCnt

theorem SameParams.trans {ts'' : Tensors} (h : SameParams ts ts') (h' : SameParams ts' ts'') :
    SameParams ts ts'' :=
  ⟨h'.instances.trans h.instances, h'.usedNum.trans h.usedNum, h'.num.trans h.num,
    h'.expectIndex.trans h.expectIndex, h'.dynamicCnt.trans h.dynamicCnt⟩

theorem saveTensor_of_lt (opt : FormatCheckOption) {i : Nat} (t : AclTensor)
    (h : i < ts.extTensors.length) :
    ∃ ts', ts.saveTensor opt i t = some ts' ∧ SameParams ts ts' ∧
      ts'.contents = ts.contents.set i (some (t.saved opt)) := by
  unfold saveTensor
  rw [modifySlot_of_lt _ h]
  have hcontents : (ts.extTensors.modify i fun slot =>
        { slot with rt2Tensor := t.saved opt, isNull := false }).map ExtTensor.content =
      ts.contents.set i (some (t.saved opt)) := by
    apply map_modify_set
    intro slot
    rfl
  cases t.onDevice with
  | true | false => exact ⟨_, rfl, ⟨rfl, rfl, rfl, rfl, rfl⟩, hcontents⟩

/-! ## The elements of a list -/

theorem length_contents (ts : Tensors) : ts.contents.length = ts.extTensors.length :=
  length_map _

/-- A tensor is saved in the first of the empty slots. -/
theorem saveElement_behind (opt : FormatCheckOption) {front : List (Option GertTensor)} {m : Nat}
    (e : Option AclTensor) (h : ts.contents = front ++ List.replicate (m + 1) none) :
    ∃ ts', saveElement opt ts (e, front.length) = some ts' ∧ SameParams ts ts' ∧
      ts'.contents = front ++ [e.map (·.saved opt)] ++ List.replicate m none := by
  have hlt : front.length < ts.extTensors.length := by
    rw [← length_contents, h, length_append, length_replicate]
    omega
  -- The mark of the slot is not its content.
  have hmark : ∀ {saved : Tensors}, SameParams ts saved →
      saved.contents = front ++ [e.map (·.saved opt)] ++ List.replicate m none →
      ∃ ts', (saved.modifySlot front.length fun slot => { slot with isRequired := false }) =
          some ts' ∧ SameParams ts ts' ∧
        ts'.contents = front ++ [e.map (·.saved opt)] ++ List.replicate m none := by
    intro saved hsame hcontents
    have hlt' : front.length < saved.extTensors.length := by
      rw [← length_contents, hcontents]
      simp
    refine ⟨_, modifySlot_of_lt _ hlt', hsame.trans ⟨rfl, rfl, rfl, rfl, rfl⟩, ?_⟩
    rw [← hcontents]
    apply map_modify_same
    intro slot
    rfl
  unfold saveElement
  cases e with
  | none =>
    refine hmark ⟨rfl, rfl, rfl, rfl, rfl⟩ ?_
    rw [h, replicate_succ, append_assoc]
    rfl
  | some t =>
    obtain ⟨saved, hsaved, hsame, hcontents⟩ := saveTensor_of_lt opt t hlt
    simp only [hsaved, Option.bind_eq_bind, Option.bind_some]
    refine hmark hsame ?_
    rw [hcontents, h, set_behind]
    rfl

theorem checkAndSaveTensor_behind (opt : FormatCheckOption) (tensorList : List (Option AclTensor)) :
    ∀ {ts : Tensors} {front : List (Option GertTensor)} {m : Nat},
      ts.contents = front ++ List.replicate (tensorList.length + m) none →
      ∃ ts', ts.checkAndSaveTensor opt tensorList front.length = some ts' ∧ SameParams ts ts' ∧
        ts'.contents = front ++ tensorList.map (fun t => t.map (·.saved opt)) ++
          List.replicate m none := by
  induction tensorList with
  | nil =>
    intro ts front m h
    refine ⟨ts, rfl, ⟨rfl, rfl, rfl, rfl, rfl⟩, ?_⟩
    rw [h, length_nil, Nat.zero_add, map_nil, append_nil]
  | cons e tensorList ih =>
    intro ts front m h
    rw [length_cons, Nat.add_right_comm] at h
    obtain ⟨saved, hsaved, hsame, hcontents⟩ := saveElement_behind opt e h
    obtain ⟨ts', hts', hsame', hcontents'⟩ := ih hcontents
    refine ⟨ts', ?_, hsame.trans hsame', ?_⟩
    · unfold checkAndSaveTensor
      rw [zipIdx_cons, foldlM_cons, hsaved]
      rw [length_append] at hts'
      exact hts'
    · rw [hcontents', map_cons, append_assoc front]
      rfl

/-! ## One argument -/

namespace Filling

variable {p : ParamInstance}

theorem nonDynamicCnt (h : Filling paramDesc opt ts done todo) :
    ts.nonDynamicCnt = (done.map Prod.fst).countP (·.cfgNum ≠ .dynamic) +
      todo.countP (·.cfgNum ≠ .dynamic) := by
  unfold Tensors.nonDynamicCnt Tensors.signature
  rw [h.instances, countP_map, countP_append]
  rfl

theorem behind (h : Filling paramDesc opt ts done todo)
    (hfits : (flat opt done).length < ts.extTensors.length) :
    ∃ m, ts.contents = flat opt done ++ List.replicate (m + 1) none := by
  obtain ⟨m, hm⟩ := h.contents
  have hlen := congrArg List.length hm
  rw [length_contents, length_append, length_replicate] at hlen
  obtain ⟨m, rfl⟩ := Nat.exists_eq_add_of_lt (show 0 < m by omega)
  exact ⟨m, by rwa [Nat.zero_add] at hm⟩

theorem flat_snoc (done : List Given) (x : Given) :
    flat opt (done ++ [x]) = flat opt done ++ x.2.contents opt := by
  unfold flat
  rw [flatMap_append, flatMap_singleton]

theorem length_contents_arg (a : Arg) : (a.contents opt).length = a.slots.length :=
  length_map _

section

variable (h : Filling paramDesc opt ts done (p :: todo))
include h

theorem next :
    ts.instances[done.length]? = some p := by
  rw [h.instances, getElem?_append_right (Nat.le_of_eq (length_map _)), length_map, Nat.sub_self]
  rfl

theorem skipped : ts.skipped done.length = 0 := by
  unfold Tensors.skipped
  rw [h.instances, show done.length = (done.map Prod.fst).length from (length_map _).symm,
    take_left]
  exact h.passed

theorem fits (hp : p.cfgNum ≠ .dynamic) :
    (flat opt done).length < ts.extTensors.length := by
  cases hdyn : ts.hasDynamic with
  | true =>
    have hroom := h.room hdyn
    have hsum := h.sum
    have hcounted := h.counted
    have hcnt := h.nonDynamicCnt
    rw [countP_cons_of_pos (by simpa using hp)] at hcnt
    omega
  | false =>
    have hwide := h.wide hdyn
    rw [h.instances, length_append, length_map, length_cons] at hwide
    rw [h.single hdyn]
    omega

/-- `NnopbaseExecutorUpdateTensorsIndex` gives the parameter the first slot not in use. -/
theorem updateTensorsIndex (hp : p.cfgNum ≠ .dynamic) :
    ∃ ts', ts.updateTensorsIndex done.length = some ts' ∧
      ts'.instances =
        done.map Prod.fst ++ { p with startIndex := (flat opt done).length } :: todo ∧
      ts'.contents = ts.contents ∧ ts'.expectIndex = done.length + 1 ∧
      (ts.hasDynamic → ts'.usedNum = (flat opt done).length + 1) ∧ ts'.num = ts.num ∧
      ts'.dynamicCnt = ts.dynamicCnt := by
  unfold Tensors.updateTensorsIndex
  rw [if_neg (Nat.not_lt.mpr h.expected), h.next]
  cases hdyn : ts.hasDynamic with
  | true =>
    -- the next slot is the one behind those that are filled
    have hstart : ts.usedNum + ts.skipped done.length = (flat opt done).length := by
      rw [h.skipped, h.used hdyn, Nat.add_zero]
    simp only [if_true, hstart]
    refine ⟨_, if_pos (h.fits hp), ?_, ?_, rfl, fun _ => rfl, rfl, rfl⟩
    · show ts.instances.modify done.length _ = _
      rw [h.instances, show done.length = (done.map Prod.fst).length from (length_map _).symm,
        modify_front, append_assoc]
      rfl
    · apply map_modify_same
      intro slot
      rfl
  | false =>
    simp only [Bool.false_eq_true, if_false]
    refine ⟨_, rfl, ?_, rfl, rfl, nofun, rfl, rfl⟩
    -- without a dynamic parameter every slot number is settled
    have hstart : p.startIndex = (flat opt done).length := by
      rw [h.single hdyn]
      exact h.fixed hdyn done.length p h.next
    show ts.instances = _
    rw [h.instances, ← hstart]

/-- What adding one argument, which brings `size` elements of a list, has to leave. -/
theorem snoc {p' : ParamInstance} {a : Arg}
    {size : Nat} (hcfg : p'.cfgNum = p.cfgNum)
    (hslots : p.cfgNum = .dynamic ∧ a.slots.length = size ∨
      p.cfgNum ≠ .dynamic ∧ a.slots.length = 1 ∧ size = 0)
    (hknown : Known (flat opt done).length (p', a))
    (hinstances : ts'.instances = done.map Prod.fst ++ p' :: todo)
    (hcontents : ∃ m, ts'.contents = flat opt done ++ a.contents opt ++ List.replicate m none)
    (hexpected : ts'.expectIndex = done.length + 1 ∨
      ts'.expectIndex = ts.expectIndex ∧ p.cfgNum = .dynamic)
    (hused : ts.hasDynamic → ts'.usedNum = (flat opt done).length + a.slots.length)
    (hnum : ts'.num = ts.num + size) (hcnt : ts'.dynamicCnt = ts.dynamicCnt + size)
    (hroom : ts.hasDynamic → ts'.num < ts'.extTensors.length)
    (hwide : ts.hasDynamic = false → ts'.extTensors.length = ts.extTensors.length)
    (hsizes : p'.cfgNum = .dynamic → p'.num ≤ dynamicParamDefNum) :
    Filling paramDesc opt ts' (done ++ [(p', a)]) todo := by
  have hsignature : ts'.signature = ts.signature := by
    unfold Tensors.signature
    rw [hinstances, h.instances, map_append, map_append, map_cons, map_cons, hcfg]
  have hdynamic := hasDynamic_eq_of_signature hsignature
  have hnonDynamic : ts'.nonDynamicCnt = ts.nonDynamicCnt := by
    unfold Tensors.nonDynamicCnt
    rw [hsignature]
  -- without a dynamic parameter there is none at hand
  have hnot : ts.hasDynamic = false → p.cfgNum ≠ .dynamic := fun hdyn hp =>
    absurd (hasDynamic_of_mem (mem_of_getElem? h.next) hp) (by rw [hdyn]; decide)
  have hmap : (done ++ [(p', a)]).map Prod.fst = done.map Prod.fst ++ [p'] := map_append
  have hlen : (done ++ [(p', a)]).length = done.length + 1 := length_append
  exact
    { instances := by rw [hinstances, hmap, append_assoc]; rfl
      signature := hsignature.trans h.signature
      contents := by rwa [flat_snoc]
      known := by
        intro front x back hsplit
        rcases eq_nil_or_concat back with rfl | ⟨back, y, rfl⟩
        · obtain ⟨rfl, hx⟩ := append_inj' hsplit rfl
          cases hx
          exact hknown
        · rw [concat_eq_append, ← cons_append, ← append_assoc] at hsplit
          exact h.known front x back (append_inj' hsplit rfl).1
      expected := by
        have := h.expected
        omega
      passed := by
        rw [hmap]
        rcases hexpected with hexp | ⟨hexp, hp⟩
        · rw [hexp, drop_of_length_le (by simp)]
          rfl
        · rw [hexp, drop_append_of_le_length (by rw [length_map]; exact h.expected),
            countP_append, h.passed]
          simp [hcfg, hp]
      used := by
        intro hdyn
        rw [flat_snoc, length_append, length_contents_arg]
        exact hused (hdynamic ▸ hdyn)
      counted := by
        rw [flat_snoc, length_append, length_contents_arg, h.counted, hmap, countP_append, hcnt]
        rcases hslots with ⟨hp, hslots⟩ | ⟨hp, hslots, hsize⟩
        · rw [countP_cons_of_neg (by simpa [hcfg] using hp), countP_nil]
          show _ + a.slots.length = _
          omega
        · rw [countP_cons_of_pos (by simpa [hcfg] using hp), countP_nil]
          show _ + a.slots.length = _
          omega
      sum := by
        rw [hnum, hcnt, hnonDynamic, h.sum]
        omega
      room := fun hdyn => hroom (hdynamic ▸ hdyn)
      spare := by
        intro hdyn
        have := hroom (hdynamic ▸ hdyn)
        have := h.sum
        omega
      plain := by
        intro hdyn
        rw [hdynamic] at hdyn
        rcases hslots with ⟨hp, -⟩ | ⟨-, -, hsize⟩
        · exact absurd hp (hnot hdyn)
        · rw [hnum, hsize, hnonDynamic, h.plain hdyn, Nat.add_zero]
      sizes := by
        intro q hq hqdyn
        rw [hinstances] at hq
        rcases mem_append.mp hq with hq | hq
        · exact h.sizes q (by rw [h.instances]; exact mem_append_left _ hq) hqdyn
        · rcases mem_cons.mp hq with rfl | hq
          · exact hsizes hqdyn
          · refine h.sizes q ?_ hqdyn
            rw [h.instances]
            exact mem_append_right _ (mem_cons_of_mem _ hq)
      wide := by
        intro hdyn
        rw [hdynamic] at hdyn
        have := h.wide hdyn
        rw [h.instances] at this
        rw [hinstances, hwide hdyn]
        simpa using this
      fixed := by
        intro hdyn i q hq
        rw [hdynamic] at hdyn
        have hold := h.fixed hdyn i
        rw [hinstances] at hq
        rw [h.instances] at hold
        rcases Nat.lt_trichotomy i done.length with hi | rfl | hi
        · rw [getElem?_append_left (by rwa [length_map])] at hq hold
          exact hold q hq
        · rw [getElem?_append_right (Nat.le_of_eq (length_map _)), length_map, Nat.sub_self] at hq
          cases hq
          rcases hslots with ⟨hp, -⟩ | ⟨-, hslots, -⟩
          · exact absurd hp (hnot hdyn)
          · rw [← h.single hdyn]
            exact hknown.starts (ne_nil_of_length_pos (by rw [hslots]; exact Nat.one_pos))
        · rw [getElem?_append_right (by rw [length_map]; omega), length_map,
            show i - done.length = (i - done.length - 1) + 1 by omega,
            getElem?_cons_succ] at hq hold
          exact hold q hq
      single := by
        intro hdyn
        rw [hdynamic] at hdyn
        rw [flat_snoc, length_append, length_contents_arg, h.single hdyn, hlen]
        rcases hslots with ⟨hp, -⟩ | ⟨-, hslots, -⟩
        · exact absurd hp (hnot hdyn)
        · rw [hslots] }

end

/-- A single tensor fills the slot of its parameter. -/
theorem tensor (h : Filling paramDesc opt ts done (p :: todo)) (hp : p.cfgNum ≠ .dynamic)
    (tensor : Option AclTensor) :
    ∃ (ts' : Tensors) (p' : ParamInstance),
      ts.addArg opt (.tensor tensor, done.length) = some ts' ∧ p'.cfgNum = p.cfgNum ∧
      Filling paramDesc opt ts' (done ++ [(p', .tensor tensor)]) todo := by
  obtain ⟨updated, hupdated, hinstances, hcontents, hexpected, hused, hnum, hcnt⟩ :=
    h.updateTensorsIndex hp
  have hlength : updated.extTensors.length = ts.extTensors.length := by
    rw [← length_contents, hcontents, length_contents]
  have hadmits : p.cfgNum.Admits (.tensor tensor) := by
    cases hcfg : p.cfgNum with
    | dynamic => exact absurd hcfg hp
    | optional => trivial
    | required => trivial
  obtain ⟨m, hm⟩ := h.behind (h.fits hp)
  -- Whatever becomes of the slot, the parameter has it.
  have hdone : ∀ ts' num, ts'.instances = done.map Prod.fst ++
        { p with startIndex := (flat opt done).length, num } :: todo →
      ts'.contents = updated.contents.set (flat opt done).length (tensor.map (·.saved opt)) →
      ts'.usedNum = updated.usedNum → ts'.num = updated.num →
      ts'.expectIndex = updated.expectIndex → ts'.dynamicCnt = updated.dynamicCnt →
      Filling paramDesc opt ts'
        (done ++ [({ p with startIndex := (flat opt done).length, num }, .tensor tensor)])
        todo := by
    intro ts' num hi hc hu hn he hd
    have hlength' : ts'.extTensors.length = ts.extTensors.length := by
      rw [← length_contents, hc, length_set, length_contents, hlength]
    have hknown : Known (flat opt done).length
        ({ p with startIndex := (flat opt done).length, num }, .tensor tensor) :=
      ⟨hadmits, fun _ => rfl, fun hdyn => absurd hdyn hp⟩
    refine h.snoc rfl (Or.inr ⟨hp, rfl, rfl⟩) hknown hi ⟨m, ?_⟩
      (Or.inl (he.trans hexpected)) (fun hdyn => hu.trans (hused hdyn)) (hn.trans hnum)
      (hd.trans hcnt) ?_ (fun _ => hlength') fun hdyn => absurd hdyn hp
    · rw [hc, hcontents, hm, set_behind]
      rfl
    · intro hdyn
      rw [hn, hnum, hlength']
      exact h.room hdyn
  have hmodify : ∀ num, updated.instances.modify done.length (fun p => { p with num }) =
      done.map Prod.fst ++ { p with startIndex := (flat opt done).length, num } :: todo := by
    intro num
    rw [hinstances, show done.length = (done.map Prod.fst).length from (length_map _).symm,
      modify_front, append_assoc]
    rfl
  unfold addArg
  simp only [hupdated, Option.bind_eq_bind, Option.bind_some]
  cases tensor with
  | none =>
    refine ⟨updated.modifyInstance done.length fun p => { p with num := 0 },
      { p with startIndex := (flat opt done).length, num := 0 }, rfl, rfl,
      hdone _ 0 (hmodify 0) ?_ rfl rfl rfl rfl⟩
    show updated.contents = _
    rw [hcontents, hm, Option.map_none, set_behind, append_assoc]
    rfl
  | some t =>
    have hnext : updated.instances[done.length]? =
        some { p with startIndex := (flat opt done).length } := by
      rw [hinstances, getElem?_append_right (Nat.le_of_eq (length_map _)), length_map, Nat.sub_self]
      rfl
    obtain ⟨saved, hsaved, hsame, hcontents'⟩ :=
      saveTensor_of_lt opt t (hlength ▸ h.fits hp)
    unfold executorAddTensor
    simp only [hnext, Option.bind_eq_bind, Option.bind_some, hsaved]
    refine ⟨saved.modifyInstance done.length fun p => { p with num := 1 },
      { p with startIndex := (flat opt done).length, num := 1 }, rfl, rfl,
      hdone _ 1 ?_ hcontents' hsame.usedNum hsame.num hsame.expectIndex hsame.dynamicCnt⟩
    show saved.instances.modify done.length _ = _
    rw [hsame.instances]
    exact hmodify 1

/-- Making room leaves enough empty slots behind the filled ones. -/
theorem extended (h : Filling paramDesc opt ts done (p :: todo)) (hdyn : ts.hasDynamic)
    (startIndex : Nat) {size : Nat} (hsize : 0 < size) :
    ∃ m, ts.num ≤ (flat opt done).length + m ∧
      (ts.countElements startIndex size done.length).makeRoom.contents =
        flat opt done ++ List.replicate (size + (m + 1)) none := by
  have hcnt := h.nonDynamicCnt
  have hsum := h.sum
  have hcounted := h.counted
  have hroom := h.room hdyn
  obtain ⟨m, hm⟩ := h.contents
  have hlength := congrArg List.length hm
  rw [length_contents, length_append, length_replicate] at hlength
  unfold makeRoom
  rw [show (ts.countElements startIndex size done.length).extTensors = ts.extTensors from rfl,
    show (ts.countElements startIndex size done.length).num = ts.num + size from rfl]
  split
  next hle =>
    -- the tables grow to twice the number of slots
    refine ⟨m + (2 * (ts.num + size) - ts.extTensors.length) - size - 1, by omega, ?_⟩
    have happend : (ts.countElements startIndex size done.length).extendIoCaches.contents =
        ts.contents ++ List.replicate (2 * (ts.num + size) - ts.extTensors.length) none := by
      unfold extendIoCaches Tensors.contents
      rw [map_append, map_replicate]
      rfl
    rw [happend, hm, append_assoc, replicate_append_replicate]
    congr 2
    omega
  next hlt =>
    refine ⟨m - size - 1, by omega, ?_⟩
    show ts.contents = _
    rw [hm]
    congr 2
    omega

theorem sameParams_makeRoom (ts : Tensors) : SameParams ts ts.makeRoom := by
  unfold makeRoom
  split
  next => exact ⟨rfl, rfl, rfl, rfl, rfl⟩
  next => exact ⟨rfl, rfl, rfl, rfl, rfl⟩

/-- The tensors of a list fill the slots behind the filled ones. -/
theorem addElements (h : Filling paramDesc opt ts done (p :: todo)) (hp : p.cfgNum = .dynamic)
    {elements : List (Option AclTensor)} (hne : elements ≠ []) :
    ∃ ts', ts.addElements opt elements done.length = some ts' ∧
      ts'.instances = done.map Prod.fst ++
        { p with startIndex := (flat opt done).length, num := elements.length } :: todo ∧
      (∃ m, ts.num ≤ (flat opt done).length + m ∧ ts'.contents = flat opt done ++
        elements.map (fun t => t.map (·.saved opt)) ++ List.replicate (m + 1) none) ∧
      ts'.expectIndex = done.length + 1 ∧
      ts'.usedNum = (flat opt done).length + elements.length ∧
      ts'.num = ts.num + elements.length ∧ ts'.dynamicCnt = ts.dynamicCnt + elements.length := by
  have hdyn := hasDynamic_of_mem (mem_of_getElem? h.next) hp
  have hstart : ts.usedNum + ts.skipped done.length = (flat opt done).length := by
    rw [h.skipped, h.used hdyn, Nat.add_zero]
  obtain ⟨m, hnum, hm⟩ :=
    h.extended hdyn (flat opt done).length (length_pos_iff.mpr hne)
  obtain ⟨saved, hsaved, hsame, hcontents⟩ := checkAndSaveTensor_behind opt elements hm
  have hall := (sameParams_makeRoom _).trans hsame
  have hlt : (flat opt done).length < saved.extTensors.length := by
    rw [← length_contents, hcontents, length_append, length_append, length_replicate]
    omega
  unfold Tensors.addElements
  simp only [hstart, hsaved, Option.bind_eq_bind, Option.bind_some]
  refine ⟨_, if_pos hlt, ?_, ⟨m, hnum, ?_⟩, rfl, hall.usedNum, hall.num, hall.dynamicCnt⟩
  · show saved.instances = _
    rw [hall.instances]
    show ts.instances.modify done.length _ = _
    rw [h.instances, show done.length = (done.map Prod.fst).length from (length_map _).symm,
      modify_front, append_assoc]
    rfl
  · rw [← hcontents]
    apply map_modify_same
    intro slot
    rfl

/-- A list fills the slots of its parameter, and an empty one none. -/
theorem tensorList (h : Filling paramDesc opt ts done (p :: todo)) (hp : p.cfgNum = .dynamic)
    (tensorList : Option (List (Option AclTensor)))
    (hadmits : p.cfgNum.Admits (.tensorList tensorList)) :
    ∃ (ts' : Tensors) (p' : ParamInstance),
      ts.addArg opt (.tensorList tensorList, done.length) = some ts' ∧ p'.cfgNum = p.cfgNum ∧
      (tensorList.getD [] = [] → ts' = ts ∧ p' = p) ∧
      Filling paramDesc opt ts' (done ++ [(p', .tensorList tensorList)]) todo := by
  have hmem : p ∈ ts.instances := mem_of_getElem? h.next
  have hdyn := hasDynamic_of_mem hmem hp
  show ∃ (ts' : Tensors) (p' : ParamInstance), ts.executorAddDynamicTensors opt tensorList
    done.length = some ts' ∧ _
  unfold executorAddDynamicTensors
  by_cases hempty : tensorList.getD [] = []
  · -- an empty list fills no slot
    simp only [hempty, if_true]
    refine ⟨ts, p, rfl, rfl, fun _ => ⟨rfl, rfl⟩, ?_⟩
    have hslots : (Arg.tensorList tensorList).slots = [] := hempty
    refine h.snoc rfl (Or.inl ⟨hp, by rw [hslots]⟩)
      ⟨hadmits, fun hne => absurd hslots hne, fun _ hne => absurd hslots hne⟩ h.instances ?_
      (Or.inr ⟨rfl, hp⟩) ?_ rfl rfl h.room (fun _ => rfl) (h.sizes p hmem)
    · unfold Arg.contents
      rw [hslots, map_nil, append_nil]
      exact h.contents
    · rw [hslots]
      exact h.used
  · have hlength : ¬ dynamicParamDefNum < (tensorList.getD []).length := by
      rw [hp] at hadmits
      exact Nat.not_lt.mpr hadmits
    have hindex : ¬ ts.instances.length ≤ done.length := by
      rw [h.instances, length_append, length_map, length_cons]
      omega
    simp only [hempty, if_false, Nat.not_lt.mpr h.expected, hindex, hlength, or_self]
    obtain ⟨ts', hts', hinstances, ⟨m, hm, hcontents⟩, hexpected, hused, hnum, hcnt⟩ :=
      h.addElements hp hempty
    refine ⟨ts', { p with startIndex := (flat opt done).length
                          num := (tensorList.getD []).length }, hts', rfl,
      False.elim, h.snoc rfl (Or.inl ⟨hp, rfl⟩) ⟨hadmits, fun _ => rfl, fun _ _ => rfl⟩ hinstances
      ⟨m + 1, hcontents⟩ (Or.inl hexpected) (fun _ => hused) hnum hcnt ?_
      (fun hno => absurd hdyn (by rw [hno]; decide))
      fun _ => Nat.not_lt.mp hlength⟩
    intro _
    have hlen := congrArg List.length hcontents
    rw [length_contents, length_append, length_append, length_map, length_replicate] at hlen
    rw [hnum, hlen]
    omega

theorem arg (h : Filling paramDesc opt ts done (p :: todo)) {a : Arg}
    (hadmits : p.cfgNum.Admits a) :
    ∃ (ts' : Tensors) (p' : ParamInstance), ts.addArg opt (a, done.length) = some ts' ∧
      Filling paramDesc opt ts' (done ++ [(p', a)]) todo := by
  cases a with
  | tensor tensor =>
    obtain ⟨ts', p', hts', -, h'⟩ :=
      h.tensor (ParamType.ne_dynamic_of_admits hadmits) tensor
    exact ⟨ts', p', hts', h'⟩
  | tensorList tensorList =>
    obtain ⟨ts', p', hts', -, -, h'⟩ :=
      h.tensorList (ParamType.eq_dynamic_of_admits hadmits) tensorList hadmits
    exact ⟨ts', p', hts', h'⟩

/-- By induction on the arguments: all of them fill their slots in order. -/
theorem args (todo : List ParamInstance) :
    ∀ {ts : Tensors} {done : List Given} {as : List Arg}, Filling paramDesc opt ts done todo →
      List.Forall₂ (fun p a => p.cfgNum.Admits a) todo as →
      ∃ (ts' : Tensors) (params : List Given),
        (as.zipIdx done.length).foldlM (addArg opt) ts = some ts' ∧
        params.map Prod.snd = as ∧ Filling paramDesc opt ts' (done ++ params) [] := by
  induction todo with
  | nil =>
    intro ts done as h hadmits
    cases hadmits
    exact ⟨ts, [], rfl, rfl, by rwa [append_nil]⟩
  | cons p todo ih =>
    intro ts done as h hadmits
    cases as with
    | nil => cases hadmits
    | cons a as =>
    obtain ⟨hfirst, hrest⟩ := forall₂_cons.mp hadmits
    obtain ⟨mid, p', hmid, hfilling⟩ := h.arg hfirst
    obtain ⟨ts', params, hts', hparams, hfilled⟩ := ih hfilling hrest
    refine ⟨ts', (p', a) :: params, ?_, ?_, ?_⟩
    · rw [zipIdx_cons, foldlM_cons, hmid]
      rw [length_append] at hts'
      exact hts'
    · rw [map_cons, hparams]
    · rwa [append_assoc] at hfilled

theorem filled (h : Filling paramDesc opt ts done []) : Filled opt ts done :=
  ⟨by rw [h.instances, append_nil], h.contents, h.known⟩

end Filling

/-! ## Launches -/

theorem clearExtTensors_instances (ts : Tensors) : ts.clearExtTensors.instances = ts.instances := by
  unfold clearExtTensors
  split
  next => rfl
  next => rfl

theorem clearExtTensors_length (ts : Tensors) :
    ts.clearExtTensors.extTensors.length = ts.extTensors.length := by
  unfold clearExtTensors
  split
  next => exact length_map _
  next => exact length_map _

theorem clearExtTensors_num {ts : Tensors} (h : ts.hasDynamic = false → ts.num = ts.nonDynamicCnt) :
    ts.clearExtTensors.num = ts.nonDynamicCnt ∧ ts.clearExtTensors.dynamicCnt = 0 ∧
      ts.clearExtTensors.expectIndex = 0 ∧
      (ts.hasDynamic → ts.clearExtTensors.usedNum = 0) := by
  unfold clearExtTensors
  split
  next => exact ⟨rfl, rfl, rfl, fun _ => rfl⟩
  next hno =>
    exact ⟨h (eq_false_of_ne_true hno), rfl, rfl, fun hdyn => absurd hdyn hno⟩

theorem clearExtTensors_contents (ts : Tensors) :
    ts.clearExtTensors.contents = List.replicate ts.extTensors.length none := by
  unfold clearExtTensors
  split
  next =>
    refine eq_replicate_iff.mpr ⟨by simp [contents], ?_⟩
    simp [contents, ExtTensor.content]
  next =>
    refine eq_replicate_iff.mpr ⟨by simp [contents], ?_⟩
    simp [contents, ExtTensor.content]

/-- With a dynamic parameter there are `normDefIoNums` slots more than parameters, otherwise
one for each, in its place. -/
theorem shaped_initIoTensor (paramDesc : List ParamType) :
    Shaped paramDesc (initIoTensor paramDesc) := by
  -- with a dynamic parameter the slots are counted, without one each parameter has its own
  by_cases hdyn : ParamType.dynamic ∈ paramDesc
  · have hsignature : (initIoTensor paramDesc).signature = paramDesc := by
      unfold initIoTensor signature
      rw [if_pos hdyn, map_map]
      exact map_id paramDesc
    have htrue : (initIoTensor paramDesc).hasDynamic = true := by
      obtain ⟨p, hp, hcfg⟩ := mem_map.mp (hsignature.symm ▸ hdyn)
      exact hasDynamic_of_mem hp hcfg
    refine ⟨hsignature, ?_, fun h => absurd htrue (by rw [h]; decide),
      fun h => absurd htrue (by rw [h]; decide), fun h => absurd htrue (by rw [h]; decide), ?_⟩
    · intro _
      have hle : paramDesc.countP (· ≠ .dynamic) ≤ paramDesc.length := countP_le_length
      unfold nonDynamicCnt
      rw [hsignature]
      unfold initIoTensor
      rw [if_pos hdyn, length_append, length_map, length_replicate]
      unfold normDefIoNums
      omega
    · intro p hp hcfg
      unfold initIoTensor at hp
      rw [if_pos hdyn] at hp
      obtain ⟨q, -, rfl⟩ := mem_map.mp hp
      show (if q = .dynamic then 0 else 1) ≤ _
      rw [if_pos hcfg]
      exact Nat.zero_le _
  · have hsignature : (initIoTensor paramDesc).signature = paramDesc := by
      unfold initIoTensor signature
      rw [if_neg hdyn]
      apply ext_getElem?
      intro i
      rw [getElem?_map, getElem?_mapIdx, Option.map_map]
      cases paramDesc[i]? with
      | none => rfl
      | some p => rfl
    have hlength : (initIoTensor paramDesc).instances.length = paramDesc.length := by
      unfold initIoTensor
      rw [if_neg hdyn, length_mapIdx]
    have hall : (initIoTensor paramDesc).nonDynamicCnt = paramDesc.length := by
      unfold nonDynamicCnt
      rw [hsignature, countP_eq_length]
      intro p hp
      exact decide_eq_true fun hcfg => hdyn (hcfg ▸ hp)
    have hfalse : (initIoTensor paramDesc).hasDynamic = false := by
      unfold hasDynamic
      rw [hall, hlength]
      exact decide_eq_false (Nat.lt_irrefl _)
    refine ⟨hsignature, fun h => absurd h (by rw [hfalse]; decide), fun _ => ?_, fun _ => ?_,
      fun _ => ?_, ?_⟩
    · rw [hlength]
      unfold initIoTensor
      rw [if_neg hdyn]
      exact Nat.le_of_eq (length_map _).symm
    · intro i p hp
      unfold initIoTensor at hp
      rw [if_neg hdyn, getElem?_mapIdx] at hp
      obtain ⟨q, -, rfl⟩ := Option.map_eq_some_iff.mp hp
      rfl
    · unfold nonDynamicCnt
      rw [hsignature]
      unfold initIoTensor
      rw [if_neg hdyn]
    · intro p hp hcfg
      exact absurd hcfg fun hcfg => hdyn (hsignature ▸ hcfg ▸ mem_map_of_mem hp)

section

variable (h : Shaped paramDesc ts) (opt : FormatCheckOption) {args : List Arg}
include h

/-- Cleared slots are ready to be filled. -/
theorem Shaped.clear :
    Filling paramDesc opt ts.clearExtTensors [] ts.clearExtTensors.instances := by
  have hinstances := clearExtTensors_instances ts
  have hlength := clearExtTensors_length ts
  have hsignature : ts.clearExtTensors.signature = ts.signature :=
    congrArg (List.map ParamInstance.cfgNum) hinstances
  have hdynamic := hasDynamic_eq_of_signature hsignature
  have hnonDynamic : ts.clearExtTensors.nonDynamicCnt = ts.nonDynamicCnt := by
    unfold nonDynamicCnt
    rw [hsignature]
  obtain ⟨hnum, hcnt, hexpect, hused⟩ := clearExtTensors_num h.plain
  exact
    { signature := hsignature.trans h.signature
      spare := by
        rw [hdynamic, hnonDynamic, hlength]
        exact h.spare
      wide := by
        rw [hdynamic, hinstances, hlength]
        exact h.wide
      fixed := by
        rw [hdynamic, hinstances]
        exact h.fixed
      plain := fun _ => hnum.trans hnonDynamic.symm
      sizes := by
        rw [hinstances]
        exact h.sizes
      instances := rfl
      contents := ⟨_, clearExtTensors_contents ts⟩
      known := by
        intro front x back hsplit
        cases front with
        | nil | cons _ _ => cases hsplit
      expected := Nat.le_of_eq hexpect
      passed := by rw [hexpect]; rfl
      used := by
        rw [hdynamic]
        exact hused
      counted := by rw [hcnt]; rfl
      sum := by rw [hnum, hcnt, hnonDynamic, Nat.add_zero]
      room := by
        rw [hdynamic, hlength, hnum]
        exact h.spare
      single := fun _ => rfl }

theorem Shaped.addArgs_filling (hadmits : List.Forall₂ ParamType.Admits paramDesc args) :
    ∃ (ts' : Tensors) (params : List Given), ts.clearExtTensors.addArgs opt args = some ts' ∧
      params.map Prod.snd = args ∧ Filling paramDesc opt ts' params [] := by
  have hclear := h.clear opt
  have hadmits' :
      List.Forall₂ (fun p a => p.cfgNum.Admits a) ts.clearExtTensors.instances args := by
    rw [← hclear.signature] at hadmits
    exact forall₂_map_left_iff.mp hadmits
  exact hclear.args _ hadmits'

/-- Admitted arguments fill the slots, and the parameters keep their shape. -/
theorem Shaped.addArgs (hadmits : List.Forall₂ ParamType.Admits paramDesc args) :
    ∃ (ts' : Tensors) (params : List Given), ts.clearExtTensors.addArgs opt args = some ts' ∧
      params.map Prod.snd = args ∧ Shaped paramDesc ts' ∧ Filled opt ts' params := by
  obtain ⟨ts', params, hadded, hparams, hfilling⟩ := h.addArgs_filling opt hadmits
  exact ⟨ts', params, hadded, hparams, hfilling.toShaped, hfilling.filled⟩

end

/-- Every state that is reached has the shape that the parameters declare. -/
theorem Reached.shaped (h : Reached paramDesc ts) : Shaped paramDesc ts := by
  induction h with
  | init => exact (shaped_initIoTensor paramDesc).clear .default |>.toShaped
  | launch before admits added ih =>
    obtain ⟨ts', params, hadded, -, hshaped, -⟩ := ih.addArgs _ admits
    cases added.symm.trans hadded
    exact hshaped

end Tensors

end OpBase.Indv
