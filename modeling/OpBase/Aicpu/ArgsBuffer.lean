import OpBase.Aicpu.ArgsHandler

/-!
# What a launch writes into the buffer

`embedded` is what the loop over the inputs copies into the reserve, and where: it takes the
same way as the loop. `Writes` says of any part of a launch what it does to the handler.

> `embedded_laid`: the inputs lie in the reserve one behind the other.
>
> `embedded_holds`: each is in the buffer when the launch begins.
-/

namespace OpBase.Aicpu

open List OpBase.Lib

/-- Rounding up adds less than the alignment. -/
theorem roundUp_bounds {v a : Nat} (ha : 0 < a) (ha64 : a ≤ 64) (hv : v < 2 ^ 63) :
    v ≤ roundUp v a ∧ roundUp v a < v + a := by
  unfold roundUp
  rw [if_neg (by omega), Nat.mod_eq_of_lt (by omega), Nat.mul_comm]
  have hdiv := Nat.div_add_mod (v + a - 1) a
  have hmod := Nat.mod_lt (v + a - 1) ha
  omega

theorem dvd_roundUp (v a : Nat) : a ∣ roundUp v a := by
  unfold roundUp
  split
  · exact Nat.dvd_zero a
  · exact Nat.dvd_mul_left _ _

theorem ofNat_mod (n : Nat) : UInt32.ofNat (n % 2 ^ 64) = UInt32.ofNat n := by
  apply UInt32.toNat_inj.mp
  rw [UInt32.toNat_ofNat', UInt32.toNat_ofNat']
  exact Nat.mod_mod_of_dvd n (by decide)

/-- The slot of an input and the offset of its data, as the runtime is told. -/
def ArgsLayout.placeHolder (l : ArgsLayout) (p : Nat × Extent) : UInt32 × UInt32 :=
  (UInt32.ofNat (l.ioAddrOffset + p.1 * 8), UInt32.ofNat p.2.start)

namespace ArgsHandler

variable {env : LaunchEnv} {h h' h'' : ArgsHandler} {i j k : Nat} {t : IoTensor}
  {ps : List (Nat × Extent)}

/-! ## What is embedded -/

/-- An input is copied into the buffer: it lies on the host, and the reserve has room for it. -/
def Embeds (h : ArgsHandler) (t : IoTensor) : Prop :=
  t.placement = .onHost ∧ ¬ t.size < 0 ∧
    (h.hostInputSize + roundUp t.size.toInt.toNat h.alignBytes) % 2 ^ 64 ≤ kMaxTotalHostLen

instance (h : ArgsHandler) (t : IoTensor) : Decidable (h.Embeds t) := by
  unfold Embeds
  infer_instance

def placed (h : ArgsHandler) (i : Nat) (t : IoTensor) : List (Nat × Extent) :=
  if h.Embeds t then
    [(i, ⟨(h.hostMemOffset + h.hostInputSize) % 2 ^ 64, t.size.toInt.toNat⟩)]
  else []

/-- The inputs from `i` on that are copied into the buffer, and where. -/
def embedded (env : LaunchEnv) : ArgsHandler → Nat → List IoTensor → List (Nat × Extent)
  | _, _, [] => []
  | h, i, t :: ts => h.placed i t ++
    if (h.updateInput env i t).2 then embedded env (h.updateInput env i t).1 (i + 1) ts else []

/-! ## One input -/

/-- The handler with an input copied, and noted. -/
def embed (h : ArgsHandler) (idx : Nat) (data : Str) : ArgsHandler :=
  { h with
    hostBuffer := h.hostBuffer.place ((h.hostMemOffset + h.hostInputSize) % 2 ^ 64) data
    hostInputInfoNum := h.hostInputInfoNum + 1
    hostInputInfo := h.hostInputInfo ++ [h.placeHolder
      (idx, ⟨(h.hostMemOffset + h.hostInputSize) % 2 ^ 64, data.size⟩)] }

/-- A copy that fits is done. -/
theorem memcpyS_of_le {m : Mem} {dest destMax : Nat} {src : Str} (hpos : 0 < destMax)
    (hmax : destMax ≤ memMaxLen) (hsrc : src.size ≤ destMax) :
    memcpyS m dest destMax src = (m.place dest src, true) := by
  unfold memcpyS
  rw [if_neg (by omega), if_neg (by omega)]

theorem place_empty (m : Mem) (a : Nat) {s : Str} (hs : s.size = 0) : m.place a s = m := by
  funext x
  exact if_neg (by omega)

theorem addHostInput_eq (h : ArgsHandler) (idx : Nat) (data : Str) {alignSize : Nat}
    (hroom : h.hostInputSize + alignSize ≤ kMaxTotalHostLen) (hdata : data.size ≤ alignSize) :
    h.addHostInput idx data alignSize =
      if (h.embed idx data).hostInputInfoNum.toNat ≠ (h.embed idx data).hostInputInfo.length then
        (h.embed idx data, false)
      else ({ h.embed idx data with hostInputSize := h.hostInputSize + alignSize }, true) := by
  have hmod : (h.hostInputSize + alignSize) % 2 ^ 64 = h.hostInputSize + alignSize :=
    Nat.mod_eq_of_lt (by unfold kMaxTotalHostLen at hroom; omega)
  have hcopy : (if 0 < data.size then memcpyS h.hostBuffer
        ((h.hostMemOffset + h.hostInputSize) % 2 ^ 64)
        ((2 ^ 64 + kMaxTotalHostLen - h.hostInputSize) % 2 ^ 64) data
      else (h.hostBuffer, true)) =
      (h.hostBuffer.place ((h.hostMemOffset + h.hostInputSize) % 2 ^ 64) data, true) := by
    unfold kMaxTotalHostLen at hroom ⊢
    split
    · exact memcpyS_of_le (by omega) (by unfold memMaxLen; omega) (by omega)
    · rw [place_empty _ _ (by omega)]
  unfold addHostInput
  rw [hmod, if_neg (by omega)]
  dsimp only
  rw [hcopy]
  unfold embed ArgsLayout.placeHolder emplaceInfo
  dsimp only
  rw [if_neg (by decide), ofNat_mod, hmod]

/-- Where the inputs are aligned, and how much of the reserve is used. -/
structure Ready (h : ArgsHandler) : Prop where
  used : h.hostInputSize ≤ kMaxTotalHostLen
  align_pos : 0 < h.alignBytes
  align_le : h.alignBytes ≤ 64

/-- The size of an input can be rounded up and added without wrapping. -/
theorem Ready.room (hready : h.Ready) (t : IoTensor) :
    t.size.toInt.toNat ≤ roundUp t.size.toInt.toNat h.alignBytes ∧
    (h.hostInputSize + roundUp t.size.toInt.toNat h.alignBytes) % 2 ^ 64 =
      h.hostInputSize + roundUp t.size.toInt.toNat h.alignBytes := by
  have hsize := t.size.toInt_lt
  have hused := hready.used
  have halign := hready.align_le
  obtain ⟨hle, hlt⟩ := roundUp_bounds hready.align_pos halign
    (show t.size.toInt.toNat < 2 ^ 63 by omega)
  unfold kMaxTotalHostLen at hused
  exact ⟨hle, Nat.mod_eq_of_lt (by omega)⟩

/-! ## Parts of a launch -/

/-- A part of a launch, of the tensors from `i` up to `j`: it copies the inputs `ps`. -/
structure Writes (h h' : ArgsHandler) (i j : Nat) (ps : List (Nat × Extent)) : Prop where
  layout : h'.toArgsLayout = h.toArgsLayout
  info : h'.hostInputInfo = h.hostInputInfo ++ ps.map h.placeHolder
  frame : ∀ x, x < h.ioAddrOffset + i * 8 ∨ h.ioAddrOffset + j * 8 ≤ x →
    (∀ p ∈ ps, x < p.2.start ∨ p.2.stop ≤ x) → h'.hostBuffer x = h.hostBuffer x

theorem Writes.refl (h : ArgsHandler) (i : Nat) : Writes h h i i [] :=
  ⟨rfl, (append_nil _).symm, fun _ _ _ => rfl⟩

theorem Writes.trans {qs : List (Nat × Extent)} (hps : Writes h h' i j ps)
    (hqs : Writes h' h'' j k qs) (hij : i ≤ j) (hjk : j ≤ k) : Writes h h'' i k (ps ++ qs) := by
  refine ⟨hqs.layout.trans hps.layout, ?_, fun x hx hout => ?_⟩
  · rw [hqs.info, hps.info, hps.layout, map_append, append_assoc]
  · have hio : h'.ioAddrOffset = h.ioAddrOffset := congrArg ArgsLayout.ioAddrOffset hps.layout
    rw [hqs.frame x (by rw [hio]; omega) fun p hp => hout p (mem_append_right _ hp)]
    exact hps.frame x (by omega) fun p hp => hout p (mem_append_left _ hp)

theorem storeAddr_writes (h : ArgsHandler) (i : Nat) (addr : UInt64) :
    Writes h (h.storeAddr i addr) i (i + 1) [] :=
  ⟨rfl, (append_nil _).symm, fun _ hx _ => Mem.store_of_apart _ _ (by omega)⟩

theorem Writes.congr (hps : Writes h h' i j ps) (hlayout : h''.toArgsLayout = h'.toArgsLayout)
    (hinfo : h''.hostInputInfo = h'.hostInputInfo) (hbuffer : h''.hostBuffer = h'.hostBuffer) :
    Writes h h'' i j ps :=
  ⟨hlayout.trans hps.layout, hinfo.trans hps.info,
    fun x hx hout => (congrFun hbuffer x).trans (hps.frame x hx hout)⟩

theorem Writes.widen (hps : Writes h h' i j ps) (_ : j ≤ k) :
    Writes h h' i k ps :=
  ⟨hps.layout, hps.info, fun x hx hout => hps.frame x (by omega) hout⟩

theorem place_of_apart (m : Mem) {a x : Nat} (s : Str) (hx : x < a ∨ a + s.size ≤ x) :
    m.place a s x = m x :=
  if_neg (by omega)

theorem embed_writes (h : ArgsHandler) (i : Nat) (data : Str) : Writes h (h.embed i data) i i
      [(i, ⟨(h.hostMemOffset + h.hostInputSize) % 2 ^ 64, data.size⟩)] :=
  ⟨rfl, rfl, fun _ _ hout => place_of_apart _ _ (hout _ (mem_singleton.mpr rfl))⟩

theorem placed_of_embeds (i : Nat) (he : h.Embeds t) : h.placed i t =
    [(i, ⟨(h.hostMemOffset + h.hostInputSize) % 2 ^ 64, t.size.toInt.toNat⟩)] :=
  if_pos he

theorem placed_of_not_embeds (i : Nat) (he : ¬ h.Embeds t) : h.placed i t = [] :=
  if_neg he

/-! ## All inputs -/

section

variable (env : LaunchEnv)

/-- An input that fits is copied behind those before it. -/
theorem updateInput_embeds (i : Nat) (hready : h.Ready) (he : h.Embeds t) :
    ∃ ok, h.updateInput env i t =
      ({ h.embed i ⟨t.size.toInt.toNat, t.content⟩ with
        hostInputSize := if ok then h.hostInputSize + roundUp t.size.toInt.toNat h.alignBytes
          else h.hostInputSize }, ok) := by
  obtain ⟨hhost, hsize, hroom⟩ := he
  obtain ⟨hle, hmod⟩ := hready.room t
  unfold updateInput
  rw [hhost]
  dsimp only
  rw [if_neg hsize, if_pos hroom]
  rw [hmod] at hroom
  rw [addHostInput_eq h i _ hroom hle]
  split
  · exact ⟨false, rfl⟩
  · exact ⟨true, rfl⟩

theorem getDeviceCacheAddr_writes (h : ArgsHandler) (i : Nat) :
    Writes h (h.getDeviceCacheAddr env).1 i i [] ∧
      (h.getDeviceCacheAddr env).1.hostInputSize = h.hostInputSize := by
  unfold getDeviceCacheAddr
  dsimp only
  split
  · exact ⟨(Writes.refl h i).congr rfl rfl rfl, rfl⟩
  · exact ⟨Writes.refl h i, rfl⟩

theorem addDeviceInput_writes (h : ArgsHandler) (i a : Nat) :
    Writes h (h.addDeviceInput env i a).1 i (i + 1) [] ∧
      (h.addDeviceInput env i a).1.hostInputSize = h.hostInputSize := by
  unfold addDeviceInput
  split
  · exact ⟨(Writes.refl h i).widen (Nat.le_succ i), rfl⟩
  · obtain ⟨hcache, hsize⟩ := getDeviceCacheAddr_writes env h i
    generalize h.getDeviceCacheAddr env = r at hcache hsize
    obtain ⟨h₁, deviceAddr⟩ := r
    dsimp only
    split
    · exact ⟨hcache.widen (Nat.le_succ i), hsize⟩
    · have hstore := hcache.trans (storeAddr_writes h₁ i deviceAddr) (Nat.le_refl i) (Nat.le_succ i)
      exact ⟨hstore.congr rfl rfl rfl, hsize⟩

/-- Any other input leaves the reserve as it is. -/
theorem updateInput_not_embeds (i : Nat) (he : ¬ h.Embeds t) :
    Writes h (h.updateInput env i t).1 i (i + 1) [] ∧
      (h.updateInput env i t).1.hostInputSize = h.hostInputSize := by
  unfold updateInput
  split
  next hhost =>
    split
    · exact ⟨(Writes.refl h i).widen (Nat.le_succ i), rfl⟩
    next hsize =>
      dsimp only
      rw [if_neg fun hroom => he ⟨hhost, hsize, hroom⟩]
      exact addDeviceInput_writes env h i _
  · exact ⟨storeAddr_writes h i t.data, rfl⟩

/-- One input writes its own address, and what is embedded of it. -/
theorem updateInput_writes (i : Nat) (t : IoTensor) (hready : h.Ready) :
    Writes h (h.updateInput env i t).1 i (i + 1) (h.placed i t) ∧
      (h.updateInput env i t).1.Ready := by
  by_cases he : h.Embeds t
  · obtain ⟨ok, hok⟩ := updateInput_embeds env i hready he
    have hroom := he.2.2
    rw [(hready.room t).2] at hroom
    rw [placed_of_embeds i he, hok]
    refine ⟨((embed_writes h i ⟨t.size.toInt.toNat, t.content⟩).widen (Nat.le_succ i)).congr
      rfl rfl rfl, ?_, hready.align_pos, hready.align_le⟩
    cases ok with
    | false => exact hready.used
    | true => exact hroom
  · obtain ⟨hwrites, hsize⟩ := updateInput_not_embeds env i he
    have halign := congrArg ArgsLayout.alignBytes hwrites.layout
    rw [placed_of_not_embeds i he]
    exact ⟨hwrites, hsize ▸ hready.used, halign ▸ hready.align_pos, halign ▸ hready.align_le⟩

/-- What is embedded for one input lies behind what was there, inside the reserve. -/
theorem placed_laid (i : Nat) (t : IoTensor) (hready : h.Ready)
    (hmem : h.hostMemOffset + kMaxTotalHostLen < 2 ^ 64) :
    Extent.Laid (h.hostMemOffset + h.hostInputSize) ((h.placed i t).map Prod.snd)
      (if (h.updateInput env i t).2 then
        h.hostMemOffset + (h.updateInput env i t).1.hostInputSize
      else h.hostMemOffset + kMaxTotalHostLen) := by
  have hused := hready.used
  by_cases he : h.Embeds t
  · obtain ⟨ok, hok⟩ := updateInput_embeds env i hready he
    obtain ⟨hle, hmod⟩ := hready.room t
    have hroom := he.2.2
    rw [hmod] at hroom
    rw [placed_of_embeds i he, hok, Nat.mod_eq_of_lt (by omega)]
    refine ⟨Nat.le_refl _, ?_⟩
    cases ok with
    | false =>
      show h.hostMemOffset + h.hostInputSize + t.size.toInt.toNat
        ≤ h.hostMemOffset + kMaxTotalHostLen
      omega
    | true =>
      show h.hostMemOffset + h.hostInputSize + t.size.toInt.toNat
        ≤ h.hostMemOffset + (h.hostInputSize + roundUp t.size.toInt.toNat h.alignBytes)
      omega
  · rw [placed_of_not_embeds i he, (updateInput_not_embeds env i he).2]
    show h.hostMemOffset + h.hostInputSize ≤ if (h.updateInput env i t).2 then
      h.hostMemOffset + h.hostInputSize else h.hostMemOffset + kMaxTotalHostLen
    split <;> omega

theorem embedded_cons (h : ArgsHandler) (i : Nat) (t : IoTensor)
    (ts : List IoTensor) : embedded env h i (t :: ts) = h.placed i t ++
      if (h.updateInput env i t).2 then embedded env (h.updateInput env i t).1 (i + 1) ts
      else [] := rfl

end

theorem updateInputs_writes (env : LaunchEnv) : ∀ (ts : List IoTensor) (h : ArgsHandler) (i : Nat),
    h.Ready → Writes h (h.updateInputs env i ts).1 i (i + ts.length) (embedded env h i ts)
  | [], h, i, _ => Writes.refl h i
  | t :: ts, h, i, hready => by
    obtain ⟨hwrites, hready'⟩ := updateInput_writes env i t hready
    rw [embedded_cons, updateInputs, length_cons]
    split
    · have hrest := updateInputs_writes env ts _ (i + 1) hready'
      have hall := hwrites.trans hrest (Nat.le_succ i) (Nat.le_add_right _ _)
      rwa [show i + 1 + ts.length = i + (ts.length + 1) by omega] at hall
    · rw [append_nil]
      exact hwrites.widen (by omega)

/-- By induction on the inputs: what is embedded is laid in order, inside the reserve. -/
theorem embedded_laid (env : LaunchEnv) : ∀ (ts : List IoTensor) (h : ArgsHandler) (i : Nat),
    h.Ready → h.hostMemOffset + kMaxTotalHostLen < 2 ^ 64 →
    Extent.Laid (h.hostMemOffset + h.hostInputSize) ((embedded env h i ts).map Prod.snd)
      (h.hostMemOffset + kMaxTotalHostLen)
  | [], h, _, hready, _ => Nat.add_le_add_left hready.used _
  | t :: ts, h, i, hready, hmem => by
    obtain ⟨hwrites, hready'⟩ := updateInput_writes env i t hready
    have hfirst := placed_laid env i t hready hmem
    have hoff : (h.updateInput env i t).1.hostMemOffset = h.hostMemOffset :=
      congrArg ArgsLayout.hostMemOffset hwrites.layout
    rw [embedded_cons, map_append]
    split
    next hok =>
      rw [if_pos hok] at hfirst
      have hrest := embedded_laid env ts _ (i + 1) hready' (by rw [hoff]; exact hmem)
      rw [hoff] at hrest
      exact hfirst.append hrest
    next hok =>
      rw [if_neg hok] at hfirst
      rwa [map_nil, append_nil]

theorem holds_later (env : LaunchEnv) {ts : List IoTensor} {a : Nat} {s : Str} (hready : h.Ready)
    (hmem : h.hostMemOffset + kMaxTotalHostLen < 2 ^ 64)
    (hio : h.ioAddrOffset + (i + ts.length) * 8 ≤ a)
    (hbehind : a + s.size ≤ h.hostMemOffset + h.hostInputSize) (hholds : h.hostBuffer.Holds a s) :
    (h.updateInputs env i ts).1.hostBuffer.Holds a s := by
  intro x hx
  rw [← hholds x hx]
  refine (updateInputs_writes env ts h i hready).frame _ (Or.inr (by omega)) fun p hp => Or.inl ?_
  have := ((embedded_laid env ts h i hready hmem).bounds _ (mem_map_of_mem hp)).1
  omega

/-- By induction on the inputs: each embedded input is held where it was placed, since the later
ones are placed behind it. -/
theorem embedded_holds (env : LaunchEnv) : ∀ (ts : List IoTensor) (h : ArgsHandler) (i : Nat),
    h.Ready → h.hostMemOffset + kMaxTotalHostLen < 2 ^ 64 →
    h.ioAddrOffset + (i + ts.length) * 8 ≤ h.hostMemOffset →
    ∀ p ∈ embedded env h i ts, i ≤ p.1 ∧ ∃ t, ts[p.1 - i]? = some t ∧ t.placement = .onHost ∧
      p.2.len = t.size.toInt.toNat ∧
      (h.updateInputs env i ts).1.hostBuffer.Holds p.2.start ⟨p.2.len, t.content⟩
  | [], _, _, _, _, _, p, hp => absurd hp not_mem_nil
  | t :: ts, h, i, hready, hmem, hio, p, hp => by
    obtain ⟨hwrites, hready'⟩ := updateInput_writes env i t hready
    have hlayout := hwrites.layout
    have hmemOff : (h.updateInput env i t).1.hostMemOffset = h.hostMemOffset :=
      congrArg ArgsLayout.hostMemOffset hlayout
    have hioOff : (h.updateInput env i t).1.ioAddrOffset = h.ioAddrOffset :=
      congrArg ArgsLayout.ioAddrOffset hlayout
    rw [length_cons] at hio
    rw [embedded_cons] at hp
    rw [updateInputs]
    rcases mem_append.mp hp with hp | hp
    · -- this input is the embedded one: the later inputs are placed behind it
      by_cases he : h.Embeds t
      · have hlaid := placed_laid env i t hready hmem
        obtain ⟨ok, hok⟩ := updateInput_embeds env i hready he
        rw [placed_of_embeds i he] at hp hlaid
        obtain rfl := mem_singleton.mp hp
        refine ⟨Nat.le_refl i, t, by rw [Nat.sub_self]; rfl, he.1, rfl, ?_⟩
        have hplaced : (h.updateInput env i t).1.hostBuffer.Holds
            ((h.hostMemOffset + h.hostInputSize) % 2 ^ 64) ⟨t.size.toInt.toNat, t.content⟩ := by
          rw [hok]
          exact Mem.holds_place _ _ _
        split
        next h2 =>
          rw [if_pos h2] at hlaid
          have hstart := hlaid.1
          have hstop := hlaid.2
          dsimp only at hstart
          refine holds_later env hready' (by rw [hmemOff]; exact hmem) ?_ ?_ hplaced
          · rw [hioOff]
            dsimp only
            omega
          · rw [hmemOff]
            exact hstop
        next => exact hplaced
      · rw [placed_of_not_embeds i he] at hp
        exact absurd hp not_mem_nil
    · -- a later one: the induction hypothesis, one input further on
      split at hp
      next hok =>
        rw [if_pos hok]
        obtain ⟨hle, t', ht', hrest⟩ := embedded_holds env ts _ (i + 1) hready'
          (by rw [hmemOff]; exact hmem) (by rw [hioOff, hmemOff]; omega) p hp
        refine ⟨by omega, t', ?_, hrest⟩
        rwa [show p.1 - i = p.1 - (i + 1) + 1 by omega, getElem?_cons_succ]
      next => exact absurd hp not_mem_nil

/-! ## The outputs -/

theorem updateOutputs_writes : ∀ (ts : List IoTensor) (h : ArgsHandler) (i : Nat),
    Writes h (h.updateOutputs i ts).1 i (i + ts.length) []
  | [], h, i => Writes.refl h i
  | t :: ts, h, i => by
    rw [updateOutputs, length_cons]
    split
    · exact (Writes.refl h i).widen (by omega)
    · have hall := (storeAddr_writes h i t.data).trans
        (updateOutputs_writes ts (h.storeAddr i t.data) (i + 1)) (Nat.le_succ i)
        (Nat.le_add_right _ _)
      rwa [show i + 1 + ts.length = i + (ts.length + 1) by omega] at hall

/-- A launch writes the addresses of its tensors and the embedded inputs. -/
theorem updateIoAddr_writes (env : LaunchEnv) (inputs outputs : List IoTensor) (hready : h.Ready) :
    Writes h (h.updateIoAddr env inputs outputs).1 0 (inputs.length + outputs.length)
      (embedded env h 0 inputs) := by
  have hin := updateInputs_writes env inputs h 0 hready
  rw [Nat.zero_add] at hin
  unfold updateIoAddr
  dsimp only
  split
  · have hall := hin.trans (updateOutputs_writes outputs _ inputs.length) (Nat.zero_le _)
      (Nat.le_add_right _ _)
    rwa [append_nil] at hall
  · exact hin.widen (Nat.le_add_right _ _)

/-- After a launch every embedded input is in the buffer. -/
theorem updateIoAddr_holds {env : LaunchEnv} {inputs outputs : List IoTensor} (hready : h.Ready)
    (hused : h.hostInputSize = 0) (hmem : h.hostMemOffset + kMaxTotalHostLen < 2 ^ 64)
    (hio : h.ioAddrOffset + (inputs.length + outputs.length) * 8 ≤ h.hostMemOffset)
    {p : Nat × Extent} (hp : p ∈ embedded env h 0 inputs) :
    ∃ t, inputs[p.1]? = some t ∧ t.placement = .onHost ∧ p.2.len = t.size.toInt.toNat ∧
      (h.updateIoAddr env inputs outputs).1.hostBuffer.Holds p.2.start ⟨p.2.len, t.content⟩ := by
  obtain ⟨-, t, ht, hhost, hlen, hholds⟩ :=
    embedded_holds env inputs h 0 hready hmem (by omega) p hp
  refine ⟨t, ht, hhost, hlen, ?_⟩
  unfold updateIoAddr
  dsimp only
  split
  · intro x hx
    have hstart := ((embedded_laid env inputs h 0 hready hmem).bounds _ (mem_map_of_mem hp)).1
    have hlayout := (updateInputs_writes env inputs h 0 hready).layout
    have hioOff := congrArg ArgsLayout.ioAddrOffset hlayout
    rw [← hholds x hx]
    refine (updateOutputs_writes outputs _ inputs.length).frame _ (Or.inr ?_)
      fun _ hnone => absurd hnone not_mem_nil
    rw [hioOff]
    omega
  · exact hholds

end ArgsHandler

end OpBase.Aicpu
