import Mathlib

/-!
# Broadcasting over row-major arrays, and merging axes

An axis is a pair: the size that an array has there, and the size it is read with. Where
the two differ the array has one element, which is read again and again. `select` is the
element of the array that element `n` of the larger shape is read from.

Neighbouring axes can be taken together as one, whose sizes are their products, if the
array is read in full along all of them, or has one element along all of them.

> `select_merged`: merging such runs of axes changes nothing.
>
> `select_merged_iff`: merging other runs does.
-/

namespace OpBase.Lib.RowMajor

open List

/-- Element `n` of an array of these sizes has this offset with these strides. -/
def offset : List ℤ → List ℤ → ℤ → ℤ
  | s :: ss, _ :: os, n => n / os.prod * s + offset ss os (n % os.prod)
  | _, _, _ => 0

/-- The number of elements that the array has, and that it is read with. -/
def ins (l : List (ℤ × ℤ)) : ℤ := (l.map Prod.fst).prod
def outs (l : List (ℤ × ℤ)) : ℤ := (l.map Prod.snd).prod

/-- The stride of an axis in front of others: none along an axis that repeats. -/
def stride (a : ℤ × ℤ) (l : List (ℤ × ℤ)) : ℤ := if a.1 = 1 ∧ a.2 ≠ 1 then 0 else ins l

def strides : List (ℤ × ℤ) → List ℤ
  | [] => []
  | a :: l => stride a l :: strides l

def select (l : List (ℤ × ℤ)) (n : ℤ) : ℤ := offset (strides l) (l.map Prod.snd) n

theorem ins_append (l l' : List (ℤ × ℤ)) : ins (l ++ l') = ins l * ins l' := by
  unfold ins
  rw [map_append, prod_append]

theorem outs_append (l l' : List (ℤ × ℤ)) : outs (l ++ l') = outs l * outs l' := by
  unfold outs
  rw [map_append, prod_append]

section

variable (a : ℤ × ℤ) (l : List (ℤ × ℤ))

theorem ins_cons : ins (a :: l) = a.1 * ins l := rfl

theorem outs_cons : outs (a :: l) = a.2 * outs l := rfl

theorem select_cons (n : ℤ) :
    select (a :: l) n = n / outs l * stride a l + select l (n % outs l) := rfl

end

theorem outs_pos : ∀ {l : List (ℤ × ℤ)}, (∀ a ∈ l, 0 < a.2) → 0 < outs l
  | [], _ => zero_lt_one
  | a :: l, h => by
    rw [outs_cons]
    exact mul_pos (h a mem_cons_self) (outs_pos fun b hb => h b (mem_cons_of_mem a hb))

theorem ins_pos : ∀ {l : List (ℤ × ℤ)}, (∀ a ∈ l, 0 < a.1) → 0 < ins l
  | [], _ => zero_lt_one
  | a :: l, h => by
    rw [ins_cons]
    exact mul_pos (h a mem_cons_self) (ins_pos fun b hb => h b (mem_cons_of_mem a hb))

/-! ## Elements at the front of an array -/

theorem select_zero : ∀ l : List (ℤ × ℤ), select l 0 = 0
  | [] => rfl
  | a :: l => by rw [select_cons, Int.zero_ediv, Int.zero_emod, select_zero l, zero_mul, add_zero]

theorem select_nonneg : ∀ {l : List (ℤ × ℤ)} {n : ℤ}, (∀ a ∈ l, 0 < a.1 ∧ 0 < a.2) → 0 ≤ n →
    0 ≤ select l n
  | [], _, _, _ => le_refl 0
  | a :: l, n, h, h0 => by
    have htail : ∀ b ∈ l, 0 < b.1 ∧ 0 < b.2 := fun b hb => h b (mem_cons_of_mem a hb)
    have hO := outs_pos fun b hb => (htail b hb).2
    have hI := ins_pos fun b hb => (htail b hb).1
    have hstride : 0 ≤ stride a l := by
      unfold stride
      split
      · exact le_refl 0
      · exact hI.le
    rw [select_cons]
    exact add_nonneg (mul_nonneg (Int.ediv_nonneg h0 hO.le) hstride)
      (select_nonneg htail (Int.emod_nonneg n hO.ne'))

theorem select_append : ∀ {l l' : List (ℤ × ℤ)} {n : ℤ}, (∀ a ∈ l, 0 < a.2) → 0 ≤ n →
    n < outs l' → select (l ++ l') n = select l' n
  | [], _, _, _, _, _ => rfl
  | a :: l, l', n, h, h0, hn => by
    have hl := outs_pos fun b hb => h b (mem_cons_of_mem a hb)
    have hlt : n < outs (l ++ l') := by
      rw [outs_append]
      nlinarith
    rw [cons_append, select_cons, Int.ediv_eq_zero_of_lt h0 hlt, Int.emod_eq_of_lt h0 hlt,
      zero_mul, zero_add]
    exact select_append (fun b hb => h b (mem_cons_of_mem a hb)) h0 hn

/-! ## Runs of axes -/

/-- The one axis that a run of axes becomes. -/
def merged (r : List (ℤ × ℤ)) : ℤ × ℤ := (ins r, outs r)

/-- The array is read in full along the run, or has one element along it. -/
def Uniform (r : List (ℤ × ℤ)) : Prop := (∀ a ∈ r, a.1 = a.2) ∨ ∀ a ∈ r, a.1 = 1

variable {r : List (ℤ × ℤ)}

theorem Uniform.tail {a : ℤ × ℤ} (h : Uniform (a :: r)) : Uniform r :=
  h.imp (fun h b hb => h b (mem_cons_of_mem a hb))
    fun h b hb => h b (mem_cons_of_mem a hb)

theorem ins_eq_outs : ∀ {r : List (ℤ × ℤ)}, (∀ a ∈ r, a.1 = a.2) → ins r = outs r
  | [], _ => rfl
  | a :: r, h => by
    rw [ins_cons, outs_cons, h a mem_cons_self, ins_eq_outs fun b hb => h b (mem_cons_of_mem a hb)]

theorem ins_eq_one : ∀ {r : List (ℤ × ℤ)}, (∀ a ∈ r, a.1 = 1) → ins r = 1
  | [], _ => rfl
  | a :: r, h => by
    rw [ins_cons, h a mem_cons_self, ins_eq_one fun b hb => h b (mem_cons_of_mem a hb),
      mul_one]

/-- Within a uniform run, quotient and remainder add up to the stride of the merged axis. -/
theorem stride_merged {a : ℤ × ℤ} {l : List (ℤ × ℤ)} (hu : Uniform (a :: r)) (hr : ∀ b ∈ r, 0 < b.2)
    {c : ℤ} (h0 : 0 ≤ c) (hc : c < a.2 * outs r) :
    c / outs r * stride a (r ++ l) + c % outs r * stride (merged r) l =
      c * stride (merged (a :: r)) l := by
  have hpos := outs_pos hr
  unfold stride merged
  dsimp only
  rcases hu with hfull | hone
  · -- read in full: no stride is zero
    have ha := hfull a mem_cons_self
    have hins := ins_eq_outs fun b hb => hfull b (mem_cons_of_mem a hb)
    rw [if_neg (fun h => h.2 (ha ▸ h.1)), if_neg (fun h => h.2 (hins ▸ h.1)), if_neg, ins_append,
      hins]
    · calc c / outs r * (outs r * ins l) + c % outs r * ins l
          = (outs r * (c / outs r) + c % outs r) * ins l := by ring
        _ = c * ins l := by rw [Int.mul_ediv_add_emod]
    · rw [ins_eq_outs hfull]
      exact fun h => h.2 h.1
  · -- one element: every stride is zero, or the position is
    have ha := hone a mem_cons_self
    have hzero : ∀ {x y s : ℤ}, 0 ≤ x → x < y → x * (if (1 : ℤ) = 1 ∧ y ≠ 1 then 0 else s) = 0 := by
      intro x y s hx hxy
      by_cases hy : y = 1
      · rw [show x = 0 by omega, zero_mul]
      · rw [if_pos ⟨rfl, hy⟩, mul_zero]
    rw [ha, ins_eq_one fun b hb => hone b (mem_cons_of_mem a hb), ins_eq_one hone,
      hzero (Int.ediv_nonneg h0 hpos.le) ((Int.ediv_lt_iff_lt_mul hpos).mpr hc),
      hzero (Int.emod_nonneg _ hpos.ne') (Int.emod_lt_of_pos _ hpos), outs_cons, hzero h0 hc,
      zero_add]

theorem emod_mul_ediv {c : ℤ} (hc : 0 < c) (d n : ℤ) : n % (d * c) / c = n / c % d := by
  rw [mul_comm d c, Int.emod_def, ← Int.ediv_ediv_of_nonneg hc.le, Int.emod_def (n / c),
    show n - c * d * (n / c / d) = n + c * -(d * (n / c / d)) by ring,
    Int.add_mul_ediv_left _ _ hc.ne']
  ring

/-- A uniform run selects as one axis does. -/
theorem select_run : ∀ {r l : List (ℤ × ℤ)} {n : ℤ}, Uniform r → (∀ a ∈ r, 0 < a.2) →
    (∀ a ∈ l, 0 < a.2) → 0 ≤ n → n < outs r * outs l →
    select (r ++ l) n = n / outs l * stride (merged r) l + select l (n % outs l)
  | [], l, n, _, _, _, h0, hn => by
    have hn' : n < outs l := by
      have : outs [] * outs l = outs l := one_mul _
      linarith
    rw [Int.ediv_eq_zero_of_lt h0 hn', Int.emod_eq_of_lt h0 hn', zero_mul, zero_add]
    rfl
  | a :: r, l, n, hu, hr, hl, h0, hn => by
    have hr' : ∀ b ∈ r, 0 < b.2 := fun b hb => hr b (mem_cons_of_mem a hb)
    have hR := outs_pos hr'
    have hL := outs_pos hl
    have hRL := mul_pos hR hL
    rw [outs_cons] at hn
    have hc0 := Int.ediv_nonneg h0 hL.le
    have hc : n / outs l < a.2 * outs r := (Int.ediv_lt_iff_lt_mul hL).mpr hn
    -- Cutting `n` at the run's tail first and at `l` next cuts it as the merged axis does.
    have hdiv : n / (outs r * outs l) = n / outs l / outs r := by
      rw [mul_comm, Int.ediv_ediv_of_nonneg hL.le]
    have hmod : n % (outs r * outs l) / outs l = n / outs l % outs r := by
      rw [emod_mul_ediv hL]
    have hlow : n % (outs r * outs l) % outs l = n % outs l :=
      Int.emod_emod_of_dvd n (Dvd.intro_left _ rfl)
    rw [cons_append, select_cons, outs_append,
      select_run hu.tail hr' hl (Int.emod_nonneg _ hRL.ne') (Int.emod_lt_of_pos _ hRL), hdiv, hmod,
      hlow, ← add_assoc, stride_merged hu hr' hc0 hc]

/-- An input that is not repeated is read in order. -/
theorem select_full {l : List (ℤ × ℤ)} {n : ℤ} (h : ∀ a ∈ l, a.1 = a.2) (hpos : ∀ a ∈ l, 0 < a.2)
    (h0 : 0 ≤ n) (hn : n < outs l) : select l n = n := by
  have hrun := select_run (l := []) (Or.inl h) hpos (fun a ha => absurd ha not_mem_nil) h0
    (hn.trans_eq (mul_one _).symm)
  have hstride : stride (merged l) [] = 1 := if_neg fun hc => hc.2 ((ins_eq_outs h).symm.trans hc.1)
  rw [append_nil, hstride, mul_one] at hrun
  have hone : n / outs [] = n := Int.ediv_one n
  rw [hrun, hone]
  exact add_zero n

theorem ins_merged : ∀ rs : List (List (ℤ × ℤ)), ins (rs.map merged) = ins rs.flatten
  | [] => rfl
  | r :: rs => by
    rw [map_cons, ins_cons, flatten_cons, ins_append, ins_merged rs]
    rfl

theorem outs_merged : ∀ rs : List (List (ℤ × ℤ)), outs (rs.map merged) = outs rs.flatten
  | [] => rfl
  | r :: rs => by
    rw [map_cons, outs_cons, flatten_cons, outs_append, outs_merged rs]
    rfl

theorem stride_congr {a : ℤ × ℤ} {l l' : List (ℤ × ℤ)} (h : ins l = ins l') :
    stride a l = stride a l' := by
  unfold stride
  rw [h]

/-- Merging uniform runs does not change which element is selected. -/
theorem select_merged : ∀ {rs : List (List (ℤ × ℤ))} {n : ℤ}, (∀ r ∈ rs, Uniform r) →
    (∀ a ∈ rs.flatten, 0 < a.2) → 0 ≤ n → n < outs rs.flatten →
    select (rs.map merged) n = select rs.flatten n
  | [], _, _, _, _, _ => rfl
  | r :: rs, n, hu, hpos, h0, hn => by
    rw [flatten_cons] at hpos hn ⊢
    have hr : ∀ a ∈ r, 0 < a.2 := fun a ha => hpos a (mem_append_left _ ha)
    have hl : ∀ a ∈ rs.flatten, 0 < a.2 := fun a ha => hpos a (mem_append_right _ ha)
    have hL := outs_pos hl
    rw [outs_append] at hn
    rw [select_run (hu r mem_cons_self) hr hl h0 hn, map_cons, select_cons, outs_merged,
      stride_congr (ins_merged rs),
      select_merged (fun q hq => hu q (mem_cons_of_mem r hq)) hl
        (Int.emod_nonneg _ hL.ne') (Int.emod_lt_of_pos _ hL)]

/-! ## Axes of size one -/

theorem ins_filter : ∀ l : List (ℤ × ℤ), ins (l.filter (· ≠ (1, 1))) = ins l
  | [] => rfl
  | a :: l => by
    by_cases ha : a = (1, 1)
    · rw [filter_cons_of_neg (by simp [ha]), ins_filter l, ins_cons, ha, one_mul]
    · rw [filter_cons_of_pos (by simp [ha]), ins_cons, ins_filter l, ins_cons]

theorem outs_filter : ∀ l : List (ℤ × ℤ), outs (l.filter (· ≠ (1, 1))) = outs l
  | [] => rfl
  | a :: l => by
    by_cases ha : a = (1, 1)
    · rw [filter_cons_of_neg (by simp [ha]), outs_filter l, outs_cons, ha, one_mul]
    · rw [filter_cons_of_pos (by simp [ha]), outs_cons, outs_filter l, outs_cons]

/-- Axes of size one do not change which element is selected. -/
theorem select_filter : ∀ {l : List (ℤ × ℤ)} {n : ℤ}, (∀ a ∈ l, 0 < a.2) → 0 ≤ n → n < outs l →
    select (l.filter (· ≠ (1, 1))) n = select l n
  | [], _, _, _, _ => rfl
  | a :: l, n, hpos, h0, hn => by
    have hl : ∀ b ∈ l, 0 < b.2 := fun b hb => hpos b (mem_cons_of_mem a hb)
    have hL := outs_pos hl
    by_cases ha : a = (1, 1)
    · rw [outs_cons, ha, one_mul] at hn
      rw [filter_cons_of_neg (by simp [ha]), select_filter hl h0 hn, select_cons,
        Int.ediv_eq_zero_of_lt h0 hn, Int.emod_eq_of_lt h0 hn, zero_mul, zero_add]
    · rw [filter_cons_of_pos (by simp [ha]), select_cons, select_cons, outs_filter,
        stride_congr (ins_filter l),
        select_filter hl (Int.emod_nonneg _ hL.ne') (Int.emod_lt_of_pos _ hL)]

/-! ## Runs that must not be merged -/

/-- Each axis of the array has the size it is read with, or one element. -/
def Broadcast (l : List (ℤ × ℤ)) : Prop := ∀ a ∈ l, 0 < a.1 ∧ 0 < a.2 ∧ (a.1 = 1 ∨ a.1 = a.2)

theorem Broadcast.left {l l' : List (ℤ × ℤ)} (h : Broadcast (l ++ l')) : Broadcast l :=
  fun a ha => h a (mem_append_left _ ha)

theorem Broadcast.right {l l' : List (ℤ × ℤ)} (h : Broadcast (l ++ l')) : Broadcast l' :=
  fun a ha => h a (mem_append_right _ ha)

theorem Broadcast.outs_pos {l : List (ℤ × ℤ)} (h : Broadcast l) : 0 < outs l :=
  RowMajor.outs_pos fun a ha => (h a ha).2.1

theorem Broadcast.ins_pos {l : List (ℤ × ℤ)} (h : Broadcast l) : 0 < ins l :=
  RowMajor.ins_pos fun a ha => (h a ha).1

theorem ins_ne_one (h : Broadcast r) {b : ℤ × ℤ} (hb : b ∈ r) (h1 : b.1 ≠ 1) :
    ins r ≠ 1 := by
  obtain ⟨r₁, r₂, rfl⟩ := append_of_mem hb
  have h₁ := h.left.ins_pos
  have h₂ : 0 < ins r₂ := Broadcast.ins_pos fun a ha => h.right a (mem_cons_of_mem b ha)
  have hb1 := (h b hb).1
  rw [ins_append, ins_cons]
  have h2 : 2 ≤ b.1 * ins r₂ := by nlinarith [show 2 ≤ b.1 by omega]
  nlinarith

/-- The element behind the first one along an axis that repeats is the first one again, but the
merged axis does not repeat. -/
theorem select_merged_ne {pre post : List (List (ℤ × ℤ))} {r₁ r₂ : List (ℤ × ℤ)} {a b : ℤ × ℤ}
    (h : Broadcast (pre ++ (r₁ ++ a :: r₂) :: post).flatten) (ha : a.1 = 1) (ha' : a.2 ≠ 1)
    (hb : b ∈ r₁ ++ a :: r₂) (hb' : b.1 ≠ 1) :
    let n := outs (r₂ ++ post.flatten)
    n < outs (pre ++ (r₁ ++ a :: r₂) :: post).flatten ∧
      select (pre ++ (r₁ ++ a :: r₂) :: post).flatten n = 0 ∧
      select ((pre ++ (r₁ ++ a :: r₂) :: post).map merged) n ≠ 0 := by
  have hflat : (pre ++ (r₁ ++ a :: r₂) :: post).flatten =
      (pre.flatten ++ r₁) ++ (a :: (r₂ ++ post.flatten)) := by
    rw [flatten_append, flatten_cons]
    simp only [append_assoc, cons_append]
  rw [hflat] at h
  have hfront := h.left
  have hback := h.right
  have ha2 : 2 ≤ a.2 := by
    have := (hback a mem_cons_self).2.1
    omega
  have hrest : Broadcast (r₂ ++ post.flatten) := fun c hc => hback c (mem_cons_of_mem a hc)
  have hn : 0 < outs (r₂ ++ post.flatten) := hrest.outs_pos
  have hlt : outs (r₂ ++ post.flatten) < outs (a :: (r₂ ++ post.flatten)) := by
    rw [outs_cons]
    nlinarith
  have hfrontPos := hfront.outs_pos
  refine ⟨?_, ?_, ?_⟩
  -- `n` is one step along the broadcast axis `a`, so it is in range.
  · rw [hflat, outs_append (pre.flatten ++ r₁)]
    nlinarith
  -- Unmerged, that step has stride 0.
  · have hstride : stride a (r₂ ++ post.flatten) = 0 := if_pos ⟨ha, ha'⟩
    rw [hflat, select_append (fun c hc => (hfront c hc).2.1) hn.le hlt, select_cons, hstride,
      mul_zero, Int.emod_self, select_zero, add_zero]
  -- Merged, the run is not all ones (because of `b`), so the same step moves by the
  -- input's size behind the run.
  · have hrun : Broadcast (r₁ ++ a :: r₂) := by
      intro c hc
      rcases mem_append.mp hc with hc | hc
      · exact hfront c (mem_append_right _ hc)
      · rcases mem_cons.mp hc with rfl | hc
        · exact hback _ mem_cons_self
        · exact hrest c (mem_append_left _ hc)
    have hpost := hrest.right
    have hr₂ := hrest.left.outs_pos
    have hpre : ∀ c ∈ pre.map merged, 0 < c.2 := by
      intro c hc
      obtain ⟨r, hr, rfl⟩ := mem_map.mp hc
      exact outs_pos fun d hd =>
        (hfront d (mem_append_left _ (mem_flatten.mpr ⟨r, hr, hd⟩))).2.1
    have hrange : outs (r₂ ++ post.flatten) < outs ((r₁ ++ a :: r₂) :: post |>.map merged) := by
      rw [map_cons, outs_cons, outs_merged]
      show _ < outs (r₁ ++ a :: r₂) * _
      rw [outs_append, outs_append r₁]
      have hr₁ := hrun.left.outs_pos
      rw [outs_cons]
      have hp := hpost.outs_pos
      have h1 : outs r₂ < outs r₁ * (a.2 * outs r₂) := by nlinarith [mul_pos hr₁ hr₂]
      exact mul_lt_mul_of_pos_right h1 hp
    have hdiv : outs (r₂ ++ post.flatten) / outs post.flatten = outs r₂ := by
      rw [outs_append, Int.mul_ediv_cancel _ hpost.outs_pos.ne']
    have hmod : outs (r₂ ++ post.flatten) % outs post.flatten = 0 := by
      rw [outs_append, Int.mul_emod_left]
    have hstride : stride (merged (r₁ ++ a :: r₂)) (post.map merged) = ins post.flatten := by
      rw [stride, if_neg (fun hc => ins_ne_one hrun hb hb' hc.1), ins_merged]
    rw [map_append, select_append hpre hn.le hrange, map_cons, select_cons, outs_merged,
      hdiv, hmod, hstride, select_zero, add_zero]
    exact (mul_pos hr₂ hpost.ins_pos).ne'

/-- Merging is right only for uniform runs. -/
theorem select_merged_iff {rs : List (List (ℤ × ℤ))} (h : Broadcast rs.flatten) :
    (∀ n, 0 ≤ n → n < outs rs.flatten → select (rs.map merged) n = select rs.flatten n) ↔
      ∀ r ∈ rs, Uniform r := by
  refine ⟨fun hsel r hr => ?_, fun hu n => select_merged hu fun a ha => (h a ha).2.1⟩
  obtain ⟨pre, post, rfl⟩ := append_of_mem hr
  by_contra hu
  have hrun : Broadcast r := fun a ha => h a (mem_flatten.mpr ⟨r, hr, ha⟩)
  have hfull : ¬ ∀ a ∈ r, a.1 = a.2 := fun hc => hu (Or.inl hc)
  have hone : ¬ ∀ a ∈ r, a.1 = 1 := fun hc => hu (Or.inr hc)
  push Not at hfull hone
  obtain ⟨a, ha, hne⟩ := hfull
  obtain ⟨b, hb, hb1⟩ := hone
  obtain ⟨r₁, r₂, rfl⟩ := append_of_mem ha
  have ha1 : a.1 = 1 := (hrun a ha).2.2.resolve_right hne
  obtain ⟨hlt, hzero, hsome⟩ := select_merged_ne h ha1 (fun hc => hne (ha1.trans hc.symm)) hb hb1
  have hn : 0 ≤ outs (r₂ ++ post.flatten) := by
    refine (outs_pos fun c hc => ?_).le
    rcases mem_append.mp hc with hc | hc
    · exact (hrun c (mem_append_right _ (mem_cons_of_mem a hc))).2.1
    · refine (h c ?_).2.1
      rw [flatten_append, flatten_cons]
      exact mem_append_right _ (mem_append_right _ hc)
  exact hsome ((hsel _ hn hlt).trans hzero)

end OpBase.Lib.RowMajor
