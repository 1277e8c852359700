import OpBase.Indv.VerbKeyText

/-!
# Room for a converted key

`NnopbaseCollecterAddRepoInfo` has a buffer of `MAX_BIN_KEY_MULTIPLIER` bytes for every
character of a key. That is plenty for the scanners that write a byte for a character. A static
key has eight bytes for a mark, for a setting and for a numeral, and needs two characters for
each to make up for them; a text where marks follow one another does not have them.

> `key_room`: customized and dynamic keys always fit. A static key fits if and only if its words
> do, counted in the text, and every long numeral begins in front of position 2³¹.
-/

namespace OpBase.Indv.VerbKey

open List OpBase.Lib
open OpBase.Indv.BinKey (nullMark)

/-- `MAX_BIN_KEY_MULTIPLIER`. -/
def maxBinKeyMultiplier : Nat := 4

/-- The size of the buffer that `NnopbaseCollecterAddRepoInfo` allocates. -/
def binKeyLen (strKey : List Byte) : Nat := strKey.length * maxBinKeyMultiplier

/-- The conversion comes to an end, and the key is in the buffer. -/
def Fits (convert : List Byte → Option (List Byte × UInt32)) (strKey : List Byte) : Prop :=
  ∃ r, convert strKey = some r ∧ r.1.length ≤ binKeyLen strKey

/-! ## A byte for a character -/

section

variable {σ : Type} {append : Byte → List Byte} {restChar : RestChar σ}

section

variable (happend : ∀ d, (append d).length ≤ 1)
  (hrest : ∀ i c key st, ∃ r, restChar i c key st = some r ∧ r.1.length ≤ key.length + 1) (i : Nat)
  (s : Scan σ)
include happend hrest i s

theorem scanChar_adds (c : Byte) :
    ∃ s', scanChar append restChar i s c = some s' ∧ s'.key.length ≤ s.key.length + 1 := by
  unfold scanChar
  cases s.index with
  | opType =>
    refine ⟨_, rfl, ?_⟩
    unfold opTypeChar
    split
    next => exact Nat.le_of_eq length_append
    next => exact Nat.le_succ _
  | compileArgs =>
    refine ⟨_, rfl, ?_⟩
    unfold compileArgsChar
    split
    next =>
      split
      next =>
        exact Nat.le_trans (Nat.le_of_eq length_append) (Nat.add_le_add_left (happend _) _)
      next => exact Nat.le_succ _
    next => exact Nat.le_succ _
  | rest =>
    obtain ⟨r, hr, hle⟩ := hrest i c s.key s.st
    exact ⟨_, by rw [hr]; rfl, hle⟩

theorem scan_adds (cs : List Byte) :
    ∃ s', scan append restChar i s cs = some s' ∧ s'.key.length ≤ s.key.length + cs.length := by
  induction cs generalizing i s with
  | nil => exact ⟨s, rfl, Nat.le_refl _⟩
  | cons c cs ih =>
    obtain ⟨s₁, hstep, hle₁⟩ := scanChar_adds happend hrest i s c
    obtain ⟨s₂, hrun, hle₂⟩ := ih (i + 1) s₁
    refine ⟨s₂, ?_, ?_⟩
    · show (scanChar append restChar i s c).bind _ = _
      rw [hstep]
      exact hrun
    · rw [length_cons]
      omega

end

end

theorem length_text_le (strKey : List Byte) : (text strKey).length ≤ strKey.length :=
  (List.takeWhile_prefix _).length_le

theorem customized_fits (strKey : List Byte) : Fits convertCustomizedVerbKey strKey := by
  have hlen := length_text_le strKey
  have hstep : ∀ (i : Nat) (c : Byte) (key : List Byte) (st : Unit),
      ∃ r, some (key ++ [c], st) = some r ∧ r.1.length ≤ key.length + 1 :=
    fun i c key st => ⟨_, rfl, Nat.le_of_eq length_append⟩
  obtain ⟨s, hscan, hle⟩ := scan_adds (fun d => Nat.le_refl [d].length) hstep 0 ⟨.opType, [], ()⟩
    (text strKey)
  refine ⟨sized s.key, ?_, ?_⟩
  · unfold convertCustomizedVerbKey
    rw [hscan]
    rfl
  · rw [length_nil] at hle
    unfold binKeyLen maxBinKeyMultiplier
    show s.key.length ≤ _
    omega

theorem dynamicChar_adds (i : Nat) (c : Byte) (key : List Byte) (st : DynamicScan) :
    ∃ r, dynamicChar i c key st = some r ∧ r.1.length ≤ key.length + 1 := by
  unfold dynamicChar
  split
  next => exact ⟨_, rfl, Nat.le_succ _⟩
  next => exact ⟨_, rfl, Nat.le_of_eq length_append⟩

theorem dynamicEnd_le (key : List Byte) (st : DynamicScan) :
    (dynamicEnd key st).length ≤ key.length + 1 := by
  unfold dynamicEnd
  split
  next => exact Nat.le_of_eq length_append
  next => exact Nat.le_succ _

theorem dynamic_fits (strKey : List Byte) : Fits convertDynamicVerbKey strKey := by
  have hlen := length_text_le strKey
  cases strKey with
  | nil => exact ⟨sized [], rfl, Nat.le_refl 0⟩
  | cons c cs =>
    obtain ⟨s, hscan, hle⟩ := scan_adds (fun d => Nat.le_refl [d].length) dynamicChar_adds 0
      ⟨.opType, [], ⟨0, false⟩⟩ (text (c :: cs))
    refine ⟨sized (dynamicEnd s.key s.st), ?_, ?_⟩
    · unfold convertDynamicVerbKey
      rw [hscan]
      rfl
    · -- the last number is written behind the text
      have hend := dynamicEnd_le s.key s.st
      rw [length_nil] at hle
      rw [length_cons] at hlen
      unfold binKeyLen maxBinKeyMultiplier
      show (dynamicEnd s.key s.st).length ≤ _
      rw [length_cons]
      omega

/-! ## Words for a static key -/

/-- The words of a numeral at a position. One that ends behind position 2³¹ has none. -/
def numeralWords (p : Nat) (seg : List Byte) : Nat :=
  if (digitsOf seg).length < 16 then ((digitsOf seg).length + 15) / 16
  else if p + seg.length ≤ 2 ^ 31 then ((digitsBehind seg).length + 15) / 16
  else 0

/-- A long numeral ends in front of position 2³², where positions come round again. -/
def Reaches (p : Nat) (seg : List Byte) : Prop :=
  16 ≤ (digitsOf seg).length → p + seg.length ≤ 2 ^ 32

/-- A long numeral has its sixteenth digit in front of position 2³¹. -/
def StartsEarly (p : Nat) (seg : List Byte) : Prop :=
  16 ≤ (digitsOf seg).length → p + marksBefore 16 seg + 15 < 2 ^ 31

theorem length_marksBytes (seg : List Byte) :
    (marksBytes seg).length = 8 * seg.count underscore := by
  unfold marksBytes
  rw [length_flatten, map_replicate, sum_replicate_nat, length_le8, Nat.mul_comm]

theorem length_numeralBytes (seg : List Byte) :
    (numeralBytes seg).length = 8 * (((digitsOf seg).length + 15) / 16) := by
  unfold numeralBytes
  rw [length_wordsOf, Nat.mul_comm]

variable {t : List Byte} {p : Nat} {seg : List Byte} {others : List (Byte × List Byte)}
  {strKey : List Byte}

theorem segment_adds {front back : List Byte} (hseg : ∀ c ∈ seg, isWordChar c)
    (ht : t = front ++ seg ++ back) (hreach : Reaches front.length seg)
    (hstart : StartsEarly front.length seg) :
    ∃ bytes, Adds t front.length seg bytes ∧
      bytes.length = 8 * (seg.count underscore + numeralWords front.length seg) := by
  have hmarks := length_marksBytes seg
  unfold numeralWords
  by_cases hshort : (digitsOf seg).length < 16
  · refine ⟨_, adds_short front.length hseg hshort, ?_⟩
    rw [if_pos hshort, length_append, hmarks, length_numeralBytes, Nat.mul_add]
  · have hlong : 16 ≤ (digitsOf seg).length := Nat.le_of_not_lt hshort
    rw [if_neg hshort]
    by_cases hend : front.length + seg.length ≤ 2 ^ 31
    · obtain ⟨bytes, hadds, hlen⟩ := adds_long hseg ht hlong hend
      refine ⟨_, hadds, ?_⟩
      rw [if_pos hend, length_append, hmarks, hlen, Nat.mul_add]
    · refine ⟨_, adds_marks hseg hlong (Nat.lt_of_not_le hend) (hreach hlong) (hstart hlong), ?_⟩
      rw [if_neg hend, hmarks, Nat.add_zero]

theorem segment_refuses (hseg : ∀ c ∈ seg, isWordChar c) (hreach : Reaches p seg)
    (hstart : ¬ StartsEarly p seg) : Refuses t p seg := by
  obtain ⟨hlong, hlate⟩ := Classical.not_imp.mp hstart
  exact refuses_late hseg hlong (hreach hlong) (Nat.le_of_not_lt hlate)

/-! ## All segments of a text -/

/-- The segments. -/
def segments (rest : List Byte) : List (List Byte) := rest.splitOnP fun c => !isWordChar c

/-- What holds of every segment, the first one beginning at `p`. -/
def EverySegment (P : Nat → List Byte → Prop) : Nat → List (List Byte) → Prop
  | _, [] => True
  | p, seg :: segs => P p seg ∧ EverySegment P (p + seg.length + 1) segs

/-- The words of all numerals. -/
def segmentsWords : Nat → List (List Byte) → Nat
  | _, [] => 0
  | p, seg :: segs => numeralWords p seg + segmentsWords (p + seg.length + 1) segs

theorem isSeparator_iff {c : Byte} : IsSeparator c ↔ ¬ isWordChar c := by
  unfold IsSeparator isWordChar
  rw [Bool.or_eq_true, decide_eq_true_eq, not_or, Option.not_isSome_iff_eq_none]

theorem segments_joined (rest : List Byte) :
    ∃ first others, rest = joined first others ∧ segments rest = first :: others.map Prod.snd ∧
      (∀ c ∈ first, isWordChar c) ∧
      ∀ x ∈ others, IsSeparator x.1 ∧ ∀ c ∈ x.2, isWordChar c := by
  induction rest with
  | nil => exact ⟨[], [], rfl, rfl, fun _ h => (nomatch h), fun _ h => (nomatch h)⟩
  | cons c cs ih =>
    obtain ⟨first, others, hjoined, hsegs, hfirst, hothers⟩ := ih
    unfold segments at hsegs ⊢
    rw [splitOnP_cons_eq_if_modifyHead, hsegs]
    by_cases hc : isWordChar c = true
    · refine ⟨c :: first, others, congrArg (c :: ·) hjoined, ?_, ?_, hothers⟩
      · rw [hc]
        rfl
      · intro e he
        rcases mem_cons.mp he with rfl | he
        · exact hc
        · exact hfirst e he
    · refine ⟨[], (c, first) :: others, congrArg (c :: ·) hjoined, ?_, fun _ h => (nomatch h), ?_⟩
      · rw [Bool.eq_false_iff.mpr hc]
        rfl
      · intro x hx
        rcases mem_cons.mp hx with rfl | hx
        · exact ⟨isSeparator_iff.mpr hc, hfirst⟩
        · exact hothers x hx

theorem count_joined {c : Byte} (hc : IsSeparator c) (seg next : List Byte)
    (others : List (Byte × List Byte)) :
    (joined seg ((c, next) :: others)).count underscore =
      seg.count underscore + (joined next others).count underscore := by
  rw [show joined seg ((c, next) :: others) = seg ++ c :: joined next others from rfl,
    List.count_append, count_cons_of_ne hc.1]

/-- If every numeral starts early enough and reaches its end, each adds its words. -/
theorem segments_add {front first : List Byte} (ht : t = front ++ joined first others)
    (hfirst : ∀ c ∈ first, isWordChar c)
    (hothers : ∀ x ∈ others, IsSeparator x.1 ∧ ∀ c ∈ x.2, isWordChar c)
    (hreach : EverySegment Reaches front.length (first :: others.map Prod.snd))
    (hstart : EverySegment StartsEarly front.length (first :: others.map Prod.snd)) :
    ∃ bytes, Adds t front.length (joined first others) bytes ∧
      bytes.length = 8 * ((joined first others).count underscore +
        segmentsWords front.length (first :: others.map Prod.snd)) := by
  induction others generalizing first front with
  | nil =>
    unfold joined at ht ⊢
    rw [flatMap_nil, append_nil] at ht ⊢
    have hback : t = front ++ first ++ [] := by rwa [append_nil]
    exact segment_adds hfirst hback hreach.1 hstart.1
  | cons x others ih =>
    obtain ⟨hx, hothers⟩ := forall_mem_cons.mp hothers
    obtain ⟨ht₁, ht₂, hlen⟩ := behind_first ht
    obtain ⟨bytes, hadds, hcount⟩ := segment_adds hfirst ht₁ hreach.1 hstart.1
    rw [map_cons] at hreach hstart ⊢
    obtain ⟨more, hmore, hmoreCount⟩ := ih ht₂ hx.2 hothers (by rw [hlen]; exact hreach.2)
      (by rw [hlen]; exact hstart.2)
    rw [hlen] at hmore hmoreCount
    refine ⟨bytes ++ more, fun key => ?_, ?_⟩
    · rw [← append_assoc]
      exact (segmentKey_joined_adds hx.1 hadds x.2 others key).trans (hmore _)
    · have hsum : segmentsWords front.length (first :: x.2 :: others.map Prod.snd) =
          numeralWords front.length first +
            segmentsWords (front.length + first.length + 1) (x.2 :: others.map Prod.snd) := rfl
      rw [length_append, hcount, hmoreCount, count_joined hx.1, hsum]
      omega

theorem segments_refuse {front first : List Byte} (ht : t = front ++ joined first others)
    (hfirst : ∀ c ∈ first, isWordChar c)
    (hothers : ∀ x ∈ others, IsSeparator x.1 ∧ ∀ c ∈ x.2, isWordChar c)
    (hreach : EverySegment Reaches front.length (first :: others.map Prod.snd))
    (hstart : ¬ EverySegment StartsEarly front.length (first :: others.map Prod.snd)) :
    Refuses t front.length (joined first others) := by
  induction others generalizing first front with
  | nil =>
    unfold joined
    rw [flatMap_nil, append_nil]
    exact segment_refuses hfirst hreach.1 fun h => hstart ⟨h, trivial⟩
  | cons x others ih =>
    obtain ⟨hx, hrest⟩ := forall_mem_cons.mp hothers
    obtain ⟨ht₁, ht₂, hlen⟩ := behind_first ht
    by_cases hearly : StartsEarly front.length first
    · obtain ⟨bytes, hadds, -⟩ := segment_adds hfirst ht₁ hreach.1 hearly
      have hrefuses := ih ht₂ hx.2 hrest (by rw [hlen]; exact hreach.2)
        (fun h => hstart ⟨hearly, by rw [hlen] at h; exact h⟩)
      rw [hlen] at hrefuses
      exact fun key => (segmentKey_joined_adds hx.1 hadds x.2 others key).trans (hrefuses _)
    · exact refuses_joined (segment_refuses hfirst hreach.1 hearly) fun y hy => (hothers y hy).1

/-! ## The buffer of a static key -/

/-- The bytes of a static key: the op type, and a word for each setting, mark and numeral. -/
def staticLength (t : List Byte) : Nat :=
  (opPart t).length + 8 * ((settingChars (behind t)).length + (restPart t).count underscore +
    segmentsWords (restStart t) (segments (restPart t)))

/-- What holds of every segment of a key. -/
def EverySegmentOf (P : Nat → List Byte → Prop) (t : List Byte) : Prop :=
  EverySegment P (restStart t) (segments (restPart t))

/-- When a static key has room. -/
structure StaticRoom (strKey : List Byte) : Prop where
  reaches : EverySegmentOf Reaches (text strKey)
  startsEarly : EverySegmentOf StartsEarly (text strKey)
  room : staticLength (text strKey) ≤ binKeyLen strKey

theorem take_restStart (t : List Byte) :
    t = t.take (restStart t) ++ restPart t ∧ (t.take (restStart t)).length = restStart t := by
  have hsuffix : restPart t <:+ t := (behind_suffix (behind t)).trans (behind_suffix t)
  refine ⟨(suffix_iff_eq_append.mp hsuffix).symm, ?_⟩
  unfold restStart
  rw [length_take]
  omega

theorem length_frontBytes (t : List Byte) :
    (frontBytes settingWord t).length =
      (opPart t).length + 8 * (settingChars (behind t)).length := by
  have hword : ∀ c : Byte, (settingWord (c - 48)).length = 8 := fun _ => length_le8 _
  unfold frontBytes settingBytes
  rw [length_append, length_flatMap_of hword, Nat.mul_comm]

theorem convertStatic_outcome (hreach : EverySegmentOf Reaches (text strKey)) :
    (EverySegmentOf StartsEarly (text strKey) →
      ∃ r, convertStaticVerbKey strKey = some r ∧ r.1.length = staticLength (text strKey)) ∧
    (¬ EverySegmentOf StartsEarly (text strKey) → convertStaticVerbKey strKey = none) := by
  obtain ⟨hsplit, hfront⟩ := take_restStart (text strKey)
  obtain ⟨first, others, hjoined, hsegs, hfirst, hothers⟩ :=
    segments_joined (restPart (text strKey))
  unfold EverySegmentOf at hreach ⊢
  rw [hsegs, ← hfront] at hreach ⊢
  rw [hjoined] at hsplit
  rw [convertStaticVerbKey_segment]
  constructor
  · intro hstart
    obtain ⟨bytes, hadds, hlen⟩ := segments_add hsplit hfirst hothers hreach hstart
    rw [← hjoined, hfront] at hadds hlen
    refine ⟨_, congrArg (Option.map fun r => sized r.1) (hadds _), ?_⟩
    show (_ ++ bytes).length = _
    unfold staticLength
    rw [length_append, length_frontBytes, hlen, hsegs]
    omega
  · intro hstart
    have hrefuses := segments_refuse hsplit hfirst hothers hreach hstart
    rw [← hjoined, hfront] at hrefuses
    exact congrArg (Option.map fun r => sized r.1) (hrefuses _)

theorem staticRoom_of_fits (hreach : EverySegmentOf Reaches (text strKey))
    (h : Fits convertStaticVerbKey strKey) : StaticRoom strKey := by
  obtain ⟨hadds, hrefuses⟩ := convertStatic_outcome hreach
  obtain ⟨r, hr, hle⟩ := h
  by_cases hstart : EverySegmentOf StartsEarly (text strKey)
  · obtain ⟨r', hr', hlen⟩ := hadds hstart
    cases hr.symm.trans hr'
    exact ⟨hreach, hstart, by rwa [← hlen]⟩
  · cases (hrefuses hstart).symm.trans hr

theorem fits_of_staticRoom (h : StaticRoom strKey) :
    Fits convertStaticVerbKey strKey := by
  obtain ⟨r, hr, hlen⟩ := (convertStatic_outcome h.reaches).1 h.startsEarly
  exact ⟨r, hr, by rw [hlen]; exact h.room⟩

/-! ## All keys -/

/-- When a key that is converted fits its buffer. -/
theorem key_room (strKey : List Byte) :
    Fits convertCustomizedVerbKey strKey ∧ Fits convertDynamicVerbKey strKey ∧
      (StaticRoom strKey → Fits convertStaticVerbKey strKey) ∧
      (EverySegmentOf Reaches (text strKey) → Fits convertStaticVerbKey strKey →
        StaticRoom strKey) :=
  ⟨customized_fits strKey, dynamic_fits strKey, fits_of_staticRoom, staticRoom_of_fits⟩

/-- `a/0/____`: four marks after one another. -/
theorem key_room_marks : ¬ Fits convertStaticVerbKey [97, 47, 48, 47, 95, 95, 95, 95] := by
  rintro ⟨r, hr, hle⟩
  have hlen : (convertStaticVerbKey [97, 47, 48, 47, 95, 95, 95, 95]).map (·.1.length) =
      some 41 := by
    decide
  rw [hr] at hlen
  rw [show r.1.length = 41 from Option.some.inj hlen] at hle
  exact absurd hle (by decide)

end OpBase.Indv.VerbKey
