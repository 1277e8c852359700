import OpBase.Tiling.AxisRuns

/-!
# What dimension collapse preserves

The flag of an axis is a number whose bits say which inputs have size one there, and
`target` is the number with all bits set. So axes with one flag repeat for the same inputs,
and merging them keeps every element where it was. `Preserves` says what the collapsed
shapes are for.

> `collapse_strides`: the strides are the row-major ones of the collapsed shapes.
>
> `collapse_preserves_iff`: the collapsed shapes address the inputs as the given ones do,
> if and only if the output has no elements or no axes are bridged.
-/

namespace OpBase.Tiling

open List OpBase.Lib OpBase.Lib.Checked
open RowMajor (ins merged outs strides)

/-! ## Flags -/

/-- Where the inputs have size one along an axis. -/
def ones (values : List ℤ) : List Bool := values.map fun v => decide (v = 1)

def bits : List Bool → ℤ → ℤ
  | [], flag => flag
  | b :: bs, flag => bits bs (flag * 2 + if b then 1 else 0)

def flagOf (a : Axis) : ℤ := bits (ones a.values) 0

/-- The flag of an axis tells which inputs have size one there; the others have the output's. -/
theorem axisFlag_eq_ok {out : ℤ} : ∀ {values : List ℤ} {flag f : ℤ},
    axisFlag out values flag = .ok f →
    f = bits (ones values) flag ∧ ∀ v ∈ values, 0 < v ∧ (v = 1 ∨ v = out)
  | [], flag, f, h => by
    cases h
    exact ⟨rfl, fun _ hv => nomatch hv⟩
  | x :: xs, flag, f, h => by
    unfold axisFlag at h
    obtain ⟨s, hs, h⟩ := bind_eq_ok.mp h
    split at h
    next => cases h
    next hx =>
      split at h
      next => cases h
      next hpos =>
        obtain ⟨hf, hxs⟩ := axisFlag_eq_ok h
        constructor
        · rw [hf, int64_eq_ok hs]
          show bits (ones xs) _ = bits (ones xs) (flag * 2 + if decide (x = 1) then 1 else 0)
          congr 1
          by_cases h1 : x = 1
          · rw [if_pos h1, if_pos (decide_eq_true h1)]
          · rw [if_neg h1, if_neg (by rwa [decide_eq_true_eq]), add_zero]
        · intro v hv
          rcases mem_cons.mp hv with rfl | hv
          · exact ⟨by omega, by omega⟩
          · exact hxs v hv

theorem bits_inj : ∀ {bs cs : List Bool} {f g : ℤ}, bs.length = cs.length →
    bits bs f = bits cs g → f = g ∧ bs = cs
  | [], [], _, _, _, h => ⟨h, rfl⟩
  | b :: bs, c :: cs, f, g, hlen, h => by
    obtain ⟨hfg, rfl⟩ := bits_inj (Nat.succ.inj hlen) h
    have hbc : f = g ∧ b = c := by
      cases b with
      | false =>
        cases c with
        | false => exact ⟨by simp only [Bool.false_eq_true, if_false] at hfg; omega, rfl⟩
        | true => simp only [Bool.false_eq_true, if_false, if_true] at hfg; omega
      | true =>
        cases c with
        | false => simp only [Bool.false_eq_true, if_false, if_true] at hfg; omega
        | true => exact ⟨by simp only [if_true] at hfg; omega, rfl⟩
    exact ⟨hbc.1, by rw [hbc.2]⟩

theorem bits_replicate : ∀ (n : ℕ) (f : ℤ), bits (List.replicate n true) f = f * 2 ^ n + 2 ^ n - 1
  | 0, f => by
    show f = _
    ring
  | n + 1, f => by
    show bits (List.replicate n true) (f * 2 + 1) = _
    rw [bits_replicate n, pow_succ]
    ring

variable {a : Axis} {n : ℕ}

theorem flagOf_eq_target (hlen : a.values.length = n) :
    flagOf a = 2 ^ n - 1 ↔ ∀ v ∈ a.values, v = 1 := by
  have htarget : (2 : ℤ) ^ n - 1 = bits (List.replicate n true) 0 := by
    rw [bits_replicate]
    ring
  have hones : (ones a.values).length = (List.replicate n true).length := by
    rw [ones, length_map, length_replicate, hlen]
  rw [htarget]
  constructor
  · intro h v hv
    have heq := (bits_inj hones h).2
    have hmem : decide (v = 1) ∈ List.replicate n true := by
      rw [← heq]
      exact mem_map.mpr ⟨v, hv, rfl⟩
    exact of_decide_eq_true (eq_of_mem_replicate hmem)
  · intro h
    have : ones a.values = List.replicate n true := by
      rw [eq_replicate_iff]
      refine ⟨by rw [ones, length_map, hlen], fun b hb => ?_⟩
      obtain ⟨v, hv, rfl⟩ := mem_map.mp hb
      exact decide_eq_true (h v hv)
    rw [flagOf, this]

/-! ## Axes of the inputs -/

/-- The size of input `k` along an axis. -/
def value (k : ℕ) (a : Axis) : ℤ := a.values.getD k 1

theorem axes_map_out (inputs : List (List ℤ)) (out : List ℤ) :
    (axes inputs out).map Axis.out = out := by
  unfold axes
  rw [map_map]
  exact zipIdx_map_fst 0 out

variable {inputs : List (List ℤ)}

theorem axes_length_values {out : List ℤ} (ha : a ∈ axes inputs out) :
    a.values.length = inputs.length := by
  obtain ⟨p, _, rfl⟩ := mem_map.mp ha
  exact length_map ..

variable {x : List ℤ} {k : ℕ}

theorem axes_map_value {out : List ℤ} (hk : inputs[k]? = some x) (hx : x.length = out.length) :
    (axes inputs out).map (value k) = x := by
  unfold axes
  rw [map_map]
  refine ext_getElem (by rw [length_map, length_zipIdx, hx]) fun i h₁ h₂ => ?_
  rw [getElem_map, getElem_zipIdx]
  show (inputs.map (·.getD (0 + i) 1)).getD k 1 = x[i]
  rw [getD_eq_getElem?_getD, getElem?_map, hk, Nat.zero_add]
  show x.getD i 1 = x[i]
  rw [getD_eq_getElem x 1 h₂]

theorem padded_length {maxDim : ℕ} (h : x.length ≤ maxDim) :
    (padded maxDim x).length = maxDim := by
  rw [padded, length_append, length_replicate]
  omega

theorem padded_prod (maxDim : ℕ) (x : List ℤ) : (padded maxDim x).prod = x.prod := by
  rw [padded, prod_append, prod_replicate, one_pow, one_mul]

/-- An axis that passed the checks, for an output that has elements. -/
structure Axis.Checked (n : ℕ) (a : Axis) : Prop where
  length : a.values.length = n
  pos : 0 < a.out
  values : ∀ v ∈ a.values, 0 < v ∧ (v = 1 ∨ v = a.out)

theorem Axis.Checked.value (h : a.Checked n) (hk : k < n) :
    0 < value k a ∧ (value k a = 1 ∨ value k a = a.out) := by
  unfold Tiling.value
  rw [getD_eq_getElem _ _ (h.length ▸ hk)]
  exact h.values _ (getElem_mem _)

/-- The axes of input `k` in a group, with the sizes they are read with. -/
def pairs (k : ℕ) (r : List Axis) : List (ℤ × ℤ) := r.map fun a => (value k a, a.out)

theorem flagOf_eq_iff {b : Axis} (ha : a.Checked n) (hb : b.Checked n) :
    flagOf a = flagOf b ↔ ∀ k < n, value k a = 1 ↔ value k b = 1 := by
  have hlen : (ones a.values).length = (ones b.values).length := by
    rw [ones, ones, length_map, length_map, ha.length, hb.length]
  have hval : ∀ {c : Axis} (hc : c.Checked n) {k : ℕ} (hk : k < n)
      (h : k < (ones c.values).length), (ones c.values)[k] = decide (value k c = 1) := by
    intro c hc k hk h
    rw [value, getD_eq_getElem _ _ (hc.length ▸ hk)]
    exact getElem_map ..
  constructor
  · intro h k hk
    have heq := (bits_inj hlen h).2
    have hka : k < (ones a.values).length := by rw [ones, length_map, ha.length]; exact hk
    have hkb : k < (ones b.values).length := hlen ▸ hka
    rw [← decide_eq_decide, ← hval ha hk hka, ← hval hb hk hkb]
    congr 1
  · intro h
    have : ones a.values = ones b.values := by
      refine ext_getElem hlen fun k h₁ h₂ => ?_
      have hk : k < n := by rwa [ones, length_map, ha.length] at h₁
      rw [hval ha hk h₁, hval hb hk h₂, decide_eq_decide]
      exact h k hk
    rw [flagOf, flagOf, this]

/-- A run is uniform for every input just when its axes are alike. -/
theorem uniform_iff_alike {r : List Axis} (hr : ∀ a ∈ r, a.Checked n) :
    (∀ k < n, RowMajor.Uniform (pairs k r)) ↔ Alike flagOf r := by
  by_cases hone : ∀ a ∈ r, a.out = 1
  · -- every size is one
    refine iff_of_true (fun k hk => Or.inr fun p hp => ?_) ⟨0, fun a ha => Or.inl (hone a ha)⟩
    obtain ⟨a, ha, rfl⟩ := mem_map.mp hp
    rcases ((hr a ha).value hk).2 with h | h
    · exact h
    · exact h.trans (hone a ha)
  push Not at hone
  obtain ⟨a, ha, ha1⟩ := hone
  constructor
  · refine fun hu => ⟨flagOf a, fun b hb => or_iff_not_imp_left.mpr fun hb1 => ?_⟩
    rw [flagOf_eq_iff (hr b hb) (hr a ha)]
    intro k hk
    have hmem : ∀ {c : Axis}, c ∈ r → (value k c, c.out) ∈ pairs k r :=
      fun hc => mem_map.mpr ⟨_, hc, rfl⟩
    rcases hu k hk with hfull | hall
    · have hva : value k a = a.out := hfull _ (hmem ha)
      have hvb : value k b = b.out := hfull _ (hmem hb)
      rw [hva, hvb]
      exact iff_of_false hb1 ha1
    · exact iff_of_true (hall _ (hmem hb)) (hall _ (hmem ha))
  · intro ⟨f, hf⟩ k hk
    have hflag : ∀ b ∈ r, b.out ≠ 1 → (value k b = 1 ↔ value k a = 1) := fun b hb hb1 =>
      (flagOf_eq_iff (hr b hb) (hr a ha)).mp
        (((hf b hb).resolve_left hb1).trans ((hf a ha).resolve_left ha1).symm) k hk
    by_cases hva : value k a = 1
    · refine Or.inr fun p hp => ?_
      obtain ⟨b, hb, rfl⟩ := mem_map.mp hp
      show value k b = 1
      by_cases hb1 : b.out = 1
      · exact ((hr b hb).value hk).2.elim id (·.trans hb1)
      · exact (hflag b hb hb1).mpr hva
    · refine Or.inl fun p hp => ?_
      obtain ⟨b, hb, rfl⟩ := mem_map.mp hp
      show value k b = b.out
      by_cases hb1 : b.out = 1
      · exact ((hr b hb).value hk).2.elim (·.trans hb1.symm) id
      · exact ((hr b hb).value hk).2.resolve_left fun h => hva ((hflag b hb hb1).mp h)

/-! ## What an accepted call computes -/

/-- If the strides fit, they are the row-major ones. -/
theorem strideLoop_eq_ok {isOutput : Bool} : ∀ {l : List (ℤ × ℤ)} {s : List ℤ} {b : ℤ},
    (isOutput = true → ∀ a ∈ l, a.1 = a.2) → strideLoop isOutput l = .ok (s, b) →
    s = strides l ∧ b = ins l
  | [], s, b, _, h => by
    cases h
    exact ⟨rfl, rfl⟩
  | (d, o) :: l, s, b, hout, h => by
    unfold strideLoop at h
    obtain ⟨⟨ss, base⟩, hl, h⟩ := bind_eq_ok.mp h
    obtain ⟨rfl, rfl⟩ :=
      strideLoop_eq_ok (fun ho a ha => hout ho a (mem_cons_of_mem _ ha)) hl
    dsimp only at h
    rw [strides, RowMajor.ins_cons, RowMajor.stride]
    dsimp only
    split at h
    -- A broadcast axis: stride 0, and the base is left as it is.
    next hz =>
      cases h
      rw [if_pos ⟨hz.1, hz.2.2⟩, hz.1, one_mul]
      exact ⟨rfl, rfl⟩
    -- Any other axis takes the base and multiplies it; an output never has a broadcast axis.
    next hz =>
      obtain ⟨p, hp, ⟨⟩⟩ := bind_eq_ok.mp h
      have hn : ¬ (d = 1 ∧ o ≠ 1) := by
        intro hd
        cases isOutput with
        | false => exact hz ⟨hd.1, rfl, hd.2⟩
        | true => exact hd.2 ((hout rfl _ mem_cons_self).symm.trans hd.1)
      rw [if_neg hn, int64_eq_ok hp, mul_comm]
      exact ⟨rfl, rfl⟩

theorem zip_self (l : List ℤ) : l.zip l = l.map fun x => (x, x) := by
  have h : (l.map id).zip (l.map id) = _ := zip_map'
  rwa [map_id] at h

theorem shapeStrides_eq_ok {isOutput : Bool} {outDims dims s : List ℤ}
    (hout : isOutput = true → dims = outDims) (h : shapeStrides isOutput outDims dims = .ok s) :
    s = strides (dims.zip outDims) := by
  obtain ⟨⟨s', b⟩, hs, ⟨⟩⟩ := bind_eq_ok.mp h
  refine (strideLoop_eq_ok (fun ho a ha => ?_) hs).1
  rw [hout ho, zip_self] at ha
  obtain ⟨x, _, rfl⟩ := mem_map.mp ha
  rfl

/-- The axes of the shapes, all with the output's rank. -/
def shapeAxes (inShapes : List (List ℤ)) (outShapes : List ℤ) : List Axis :=
  axes (inShapes.map (padded outShapes.length)) outShapes

/-- The groups of axes that are merged. -/
def groups (inShapes : List (List ℤ)) (outShapes : List ℤ) : List (List Axis) :=
  runs flagOf (2 ^ inShapes.length - 1) (shapeAxes inShapes outShapes)

/-- What the code has checked, and the sizes and strides it has computed. -/
structure Collapses (inShapes : List (List ℤ)) (outShapes : List ℤ) (r : Collapsed) : Prop where
  rank : ∀ x ∈ inShapes, x.length ≤ outShapes.length
  values : ∀ a ∈ shapeAxes inShapes outShapes, ∀ v ∈ a.values, 0 < v ∧ (v = 1 ∨ v = a.out)
  length : r.inDims.length = inShapes.length
  inDims : ∀ (k : ℕ) (d : List ℤ), r.inDims[k]? = some d →
    d = (groups inShapes outShapes).map fun g => (g.map (value k)).prod
  outDims : r.outDims = (groups inShapes outShapes).map fun g => (g.map Axis.out).prod
  inStrides : r.inStrides = r.inDims.map fun d => strides (d.zip r.outDims)
  outStrides : shapeStrides true r.outDims r.outDims = .ok r.outStrides

theorem padShape_eq_ok {maxDim : ℕ} {y : List ℤ} (h : padShape maxDim x = .ok y) :
    y = padded maxDim x ∧ x.length ≤ maxDim := by
  unfold padShape at h
  split at h
  next => cases h
  next hle => exact ⟨(Except.ok.inj h).symm, by omega⟩

theorem targetFlag_eq_ok {t : ℤ} (h : targetFlag n = .ok t) : t = 2 ^ n - 1 := by
  unfold targetFlag at h
  split at h
  next => exact (Except.ok.inj h).symm
  next => cases h

variable {d : List ℤ}

theorem collapse_eq_groups {inShapes : List (List ℤ)} {outShapes : List ℤ} {v : Axis → ℤ}
    (hv : ∀ a ∈ shapeAxes inShapes outShapes, (∀ w ∈ a.values, w = 1) → a.out = 1 → v a = 1)
    (h : collapse (2 ^ inShapes.length - 1) ((shapeAxes inShapes outShapes).map flagOf) outShapes
      ((shapeAxes inShapes outShapes).map v) = .ok d) :
    d = (groups inShapes outShapes).map fun g => (g.map v).prod := by
  refine collapse_eq_runs (fun a ha hf ho => hv a ha ?_ ho) ?_
  · refine (flagOf_eq_target ?_).mp hf
    rw [axes_length_values ha, length_map]
  · rw [← h, shapeAxes, axes_map_out]

/-- What an accepted call has computed. -/
theorem dimensionCollapse_eq_ok {inShapes : List (List ℤ)} {outShapes : List ℤ} {r : Collapsed}
    (h : dimensionCollapse inShapes outShapes = .ok r) : Collapses inShapes outShapes r := by
  unfold dimensionCollapse at h
  -- Each checked step that succeeded is replaced by the value it computed.
  obtain ⟨inputs, hin, h⟩ := bind_eq_ok.mp h
  obtain ⟨hrank, rfl⟩ := mapM_eq_map (fun _ _ h => (padShape_eq_ok h).symm) hin
  split at h
  next => cases h
  next hne =>
    obtain ⟨flags, hflags, h⟩ := bind_eq_ok.mp h
    obtain ⟨hvalues, rfl⟩ := mapM_eq_map (fun _ _ h => (axisFlag_eq_ok h).symm) hflags
    obtain ⟨target, htarget, h⟩ := bind_eq_ok.mp h
    obtain ⟨inDims, hinDims, h⟩ := bind_eq_ok.mp h
    obtain ⟨outDims, houtDims, h⟩ := bind_eq_ok.mp h
    obtain ⟨inStrides, hinStrides, h⟩ := bind_eq_ok.mp h
    obtain ⟨outStrides, houtStrides, ⟨⟩⟩ := bind_eq_ok.mp h
    rw [targetFlag_eq_ok htarget, length_map] at hinDims houtDims
    have hstrides : ∀ d s, shapeStrides false outDims d = .ok s →
        True ∧ s = strides (d.zip outDims) :=
      fun d s hs => ⟨trivial, shapeStrides_eq_ok (absurd · Bool.false_ne_true) hs⟩
    exact {
      rank := hrank
      values := hvalues
      length := by rw [mapM_length hinDims, length_map]
      inDims := by
        intro k d hd
        obtain ⟨x, hx, hxd⟩ := mapM_getElem? hinDims hd
        have hxlen : x.length = outShapes.length := by
          obtain ⟨y, hy, rfl⟩ := mem_map.mp (mem_of_getElem? hx)
          exact padded_length (hrank y hy)
        -- A group's product leaves out only axes whose every value is 1.
        refine collapse_eq_groups (fun a ha hone _ => ?_) ?_
        · have hk : k < inShapes.length := by
            have := (List.getElem?_eq_some_iff.mp hx).1
            rwa [length_map] at this
          have hlen := axes_length_values ha
          rw [length_map] at hlen
          rw [value, getD_eq_getElem _ _ (hlen ▸ hk)]
          exact hone _ (getElem_mem _)
        · rw [shapeAxes, axes_map_value hx hxlen]
          exact hxd
      outDims := by
        refine collapse_eq_groups (fun a _ _ ho => ho) ?_
        rw [shapeAxes, axes_map_out]
        exact houtDims
      inStrides := (mapM_eq_map hstrides hinStrides).2
      outStrides := houtStrides }

/-! ## Addressing -/

/-- The collapsed shapes have one rank and the products of the given ones, and each element
of the output is read from the same element of every input. -/
structure Preserves (inShapes : List (List ℤ)) (outShapes : List ℤ) (r : Collapsed) : Prop where
  length : r.inDims.length = inShapes.length
  rank : ∀ d ∈ r.inDims, d.length = r.outDims.length
  outProd : r.outDims.prod = outShapes.prod
  inProd : ∀ (k : ℕ) (x d : List ℤ), inShapes[k]? = some x → r.inDims[k]? = some d → d.prod = x.prod
  select : ∀ (k : ℕ) (x d : List ℤ), inShapes[k]? = some x → r.inDims[k]? = some d →
    ∀ n, 0 ≤ n → n < outShapes.prod →
      RowMajor.select (d.zip r.outDims) n =
        RowMajor.select ((padded outShapes.length x).zip outShapes) n

theorem prod_groups (gs : List (List Axis)) (v : Axis → ℤ) :
    (gs.map fun g => (g.map v).prod).prod = (gs.flatten.map v).prod := by
  rw [map_flatten, prod_flatten, map_map]
  rfl

theorem groups_flatten (inShapes : List (List ℤ)) (outShapes : List ℤ) :
    (groups inShapes outShapes).flatten = shapeAxes inShapes outShapes :=
  runs_flatten ..

section

variable {inShapes : List (List ℤ)} {outShapes : List ℤ} {r : Collapsed}

theorem shapeAxes_map_value (hx : inShapes[k]? = some x) (hlen : x.length ≤ outShapes.length) :
    (shapeAxes inShapes outShapes).map (value k) = padded outShapes.length x := by
  refine axes_map_value ?_ (padded_length hlen)
  rw [getElem?_map, hx]
  rfl

section

variable (h : Collapses inShapes outShapes r)
include h

theorem Collapses.outProd :
    r.outDims.prod = outShapes.prod := by
  rw [h.outDims, prod_groups, groups_flatten, shapeAxes, axes_map_out]

theorem Collapses.inProd (hx : inShapes[k]? = some x) (hd : r.inDims[k]? = some d) :
    d.prod = x.prod := by
  rw [h.inDims k d hd, prod_groups, groups_flatten,
    shapeAxes_map_value hx (h.rank x (mem_of_getElem? hx)), padded_prod]

theorem Collapses.zip_outDims (hd : r.inDims[k]? = some d) :
    d.zip r.outDims = ((groups inShapes outShapes).map (pairs k)).map merged := by
  rw [h.inDims k d hd, h.outDims, zip_map', map_map]
  refine map_congr_left fun g _ => ?_
  unfold merged ins outs pairs
  dsimp only [Function.comp]
  rw [map_map, map_map]
  rfl

theorem Collapses.padded_zip (hx : inShapes[k]? = some x) :
    (padded outShapes.length x).zip outShapes =
      ((groups inShapes outShapes).map (pairs k)).flatten := by
  have hval := shapeAxes_map_value hx (h.rank x (mem_of_getElem? hx))
  have hout : (shapeAxes inShapes outShapes).map Axis.out = outShapes := axes_map_out ..
  calc (padded outShapes.length x).zip outShapes
      = ((shapeAxes inShapes outShapes).map (value k)).zip
          ((shapeAxes inShapes outShapes).map Axis.out) := by rw [hval, hout]
    _ = pairs k (shapeAxes inShapes outShapes) := zip_map'
    _ = ((groups inShapes outShapes).map (pairs k)).flatten := by
      rw [← groups_flatten]
      exact map_flatten

theorem Collapses.checked (hpos : ∀ o ∈ outShapes, 0 < o) (ha : a ∈ shapeAxes inShapes outShapes) :
    a.Checked inShapes.length where
  length := by rw [axes_length_values ha, length_map]
  pos := by
    refine hpos _ ?_
    rw [← axes_map_out (inShapes.map (padded outShapes.length)) outShapes]
    exact mem_map.mpr ⟨a, ha, rfl⟩
  values := h.values a ha

end

theorem pairs_broadcast {gs : List (List Axis)} (hk : k < n) (h : ∀ a ∈ gs.flatten, a.Checked n) :
    RowMajor.Broadcast (gs.map (pairs k)).flatten := by
  intro p hp
  obtain ⟨l, hl, hp⟩ := mem_flatten.mp hp
  obtain ⟨g, hg, rfl⟩ := mem_map.mp hl
  obtain ⟨a, ha, rfl⟩ := mem_map.mp hp
  have hc := h a (mem_flatten.mpr ⟨g, hg, ha⟩)
  exact ⟨(hc.value hk).1, hc.pos, (hc.value hk).2⟩

theorem outs_pairs (k : ℕ) (gs : List (List Axis)) :
    outs (gs.map (pairs k)).flatten = (gs.flatten.map Axis.out).prod := by
  unfold outs
  rw [map_flatten, map_map, map_flatten]
  congr 2
  refine map_congr_left fun g _ => ?_
  show (g.map _).map _ = _
  rw [map_map]
  rfl

/-- The collapsed axes select the elements that the axes do just when every group is alike. -/
theorem Collapses.select_iff (h : Collapses inShapes outShapes r) (hpos : ∀ o ∈ outShapes, 0 < o) :
    (∀ (k : ℕ) (x d : List ℤ), inShapes[k]? = some x → r.inDims[k]? = some d →
      ∀ n, 0 ≤ n → n < outShapes.prod →
        RowMajor.select (d.zip r.outDims) n =
          RowMajor.select ((padded outShapes.length x).zip outShapes) n) ↔
      ∀ g ∈ groups inShapes outShapes, Alike flagOf g := by
  have hchecked : ∀ a ∈ (groups inShapes outShapes).flatten, a.Checked inShapes.length := by
    intro a ha
    rw [groups_flatten] at ha
    exact h.checked hpos ha
  have hgroup : ∀ g ∈ groups inShapes outShapes, ∀ a ∈ g, a.Checked inShapes.length :=
    fun g hg a ha => hchecked a (mem_flatten.mpr ⟨g, hg, ha⟩)
  have houts : ∀ k, outs ((groups inShapes outShapes).map (pairs k)).flatten = outShapes.prod := by
    intro k
    rw [outs_pairs, groups_flatten, shapeAxes, axes_map_out]
  constructor
  -- One input that reads the same decides its own runs; all inputs together, the groups.
  · intro hsel g hg
    refine (uniform_iff_alike (hgroup g hg)).mp fun k hk => ?_
    have hx := getElem?_eq_getElem hk
    have hd := getElem?_eq_getElem (h.length ▸ hk : k < r.inDims.length)
    refine (RowMajor.select_merged_iff (pairs_broadcast hk hchecked)).mp ?_ _
      (mem_map.mpr ⟨g, hg, rfl⟩)
    rw [houts, ← h.zip_outDims hd, ← h.padded_zip hx]
    exact hsel k _ _ hx hd
  · intro halike k x d hx hd n h0 hn
    have hk := (List.getElem?_eq_some_iff.mp hx).1
    rw [h.zip_outDims hd, h.padded_zip hx]
    refine (RowMajor.select_merged_iff (pairs_broadcast hk hchecked)).mpr ?_ n h0 (houts k ▸ hn)
    intro l hl
    obtain ⟨g, hg, rfl⟩ := mem_map.mp hl
    exact (uniform_iff_alike (hgroup g hg)).mpr (halike g hg) k hk

theorem Collapses.alike_iff (h : Collapses inShapes outShapes r) :
    (∀ g ∈ groups inShapes outShapes, Alike flagOf g) ↔
      ¬ Bridged (shapeAxes inShapes outShapes) := by
  refine Tiling.alike_iff (fun a ha => flagOf_eq_target ?_) fun a ha ho v hv => ?_
  · rw [axes_length_values ha, length_map]
  · exact (h.values a ha v hv).2.elim id (·.trans ho)

theorem collapse_strides (h : dimensionCollapse inShapes outShapes = .ok r) :
    r.inStrides = r.inDims.map (fun d => strides (d.zip r.outDims)) ∧
      r.outStrides = strides (r.outDims.zip r.outDims) :=
  have hc := dimensionCollapse_eq_ok h
  ⟨hc.inStrides, shapeStrides_eq_ok (fun _ => rfl) hc.outStrides⟩

/-- What `DimensionCollapse` accepts it collapses rightly, but for bridged axes. -/
theorem collapse_preserves_iff (hout : ∀ o ∈ outShapes, 0 ≤ o)
    (h : dimensionCollapse inShapes outShapes = .ok r) :
    Preserves inShapes outShapes r ↔ 0 ∈ outShapes ∨ ¬ Bridged (shapeAxes inShapes outShapes) := by
  have hc := dimensionCollapse_eq_ok h
  have hall : Preserves inShapes outShapes r ↔
      ∀ (k : ℕ) (x d : List ℤ), inShapes[k]? = some x → r.inDims[k]? = some d →
        ∀ n, 0 ≤ n → n < outShapes.prod →
          RowMajor.select (d.zip r.outDims) n =
            RowMajor.select ((padded outShapes.length x).zip outShapes) n := by
    refine ⟨Preserves.select, fun hsel => ⟨hc.length, ?_, hc.outProd, ?_, hsel⟩⟩
    · intro d hd
      obtain ⟨k, hk⟩ := getElem?_of_mem hd
      rw [hc.inDims k d hk, hc.outDims, length_map, length_map]
    · exact fun k x d => hc.inProd
  rw [hall]
  by_cases h0 : 0 ∈ outShapes
  · -- no elements
    refine iff_of_true (fun k x d _ _ n hn hlt => ?_) (Or.inl h0)
    rw [prod_eq_zero h0] at hlt
    omega
  · have hpos : ∀ o ∈ outShapes, 0 < o := by
      intro o ho
      have := hout o ho
      have hne : o ≠ 0 := fun hz => h0 (hz ▸ ho)
      omega
    rw [hc.select_iff hpos, hc.alike_iff]
    exact ⟨Or.inr, fun hb => hb.resolve_left h0⟩

/-- A column that is read for each of three rows. -/
theorem collapse_preserves_column :
    Preserves [[2, 1]] [2, 3] ⟨[[2, 1]], [2, 3], [[1, 0]], [3, 1]⟩ := by
  refine (collapse_preserves_iff (by decide) rfl).mpr (Or.inr ?_)
  intro ⟨l₁, p, mid, q, l₂, heq, hmid, _⟩
  -- bridged axes are three or more
  have hlen : 2 = (l₁ ++ p :: (mid ++ q :: l₂)).length := congrArg List.length heq
  rw [length_append, length_cons, length_append, length_cons] at hlen
  have := length_pos_iff.mpr hmid
  omega

/-- Three elements are read for each of five rows, with an axis of size one in between. The
collapsed input has size 3 where the output has 15. -/
theorem collapse_bridged :
    dimensionCollapse [[1, 1, 3]] [5, 1, 3] = .ok ⟨[[3]], [15], [[1]], [1]⟩ ∧
      ¬ Preserves [[1, 1, 3]] [5, 1, 3] ⟨[[3]], [15], [[1]], [1]⟩ := by
  refine ⟨rfl, fun h => ?_⟩
  have := h.select 0 [1, 1, 3] [3] rfl rfl 3 (by decide) (by decide)
  exact absurd this (by decide)

end

end OpBase.Tiling
