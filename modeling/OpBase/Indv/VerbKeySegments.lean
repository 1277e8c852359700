import OpBase.Indv.VerbKeyScan

/-!
# The segments of a static key

Behind the second slash a static key is made of segments: the digits of a numeral and any
number of `'_'`, which are converted at once and do not end the numeral. `Behind` is the state
after a segment, with `start` once there are 16 digits. What ends the segment brings the scanner
back to where it began, so that every segment adds its bytes whatever is in front of it.

> `adds_digits`: a numeral adds its words if it has less than 16 digits or ends in front of
> position 2³¹. `adds_nothing`: otherwise it adds none, or the text is read in front of its start.
>
> `adds_short`, `adds_long`: the same with marks between the digits, as far as the number of
> bytes goes.
-/

namespace OpBase.Indv.VerbKey

open List OpBase.Lib
open OpBase.Indv.BinKey (nullMark)
open Option (bind_assoc bind_some map_some)

/-! ## Segments -/

/-- A character of a numeral, or the mark for a null tensor. -/
def isWordChar (c : Byte) : Bool := c = underscore || (hexDigit c).isSome

/-- The characters that are no digits in front of the `n`-th digit. -/
def marksBefore : Nat → List Byte → Nat
  | 0, _ => 0
  | _, [] => 0
  | n + 1, c :: cs =>
    if (hexDigit c).isSome then marksBefore n cs else marksBefore (n + 1) cs + 1

variable {xs : List Byte}

theorem marksBefore_append {n : Nat} (h : n ≤ (digitsOf xs).length) (ys : List Byte) :
    marksBefore n (xs ++ ys) = marksBefore n xs := by
  induction xs generalizing n with
  | nil =>
    obtain rfl : n = 0 := Nat.le_zero.mp h
    unfold marksBefore
    rfl
  | cons c cs ih =>
    cases n with
    | zero =>
      unfold marksBefore
      rfl
    | succ n =>
      rw [cons_append]
      unfold marksBefore
      cases hc : hexDigit c with
      | none =>
        rw [digitsOf_cons_none cs hc] at h
        exact congrArg (· + 1) (ih h)
      | some d =>
        rw [digitsOf_cons_some cs hc] at h
        exact ih (Nat.le_of_succ_le_succ h)

/-- The marks in front of the first `n` digits, and these, are in the segment. -/
theorem marksBefore_add_le {n : Nat} {cs : List Byte} (h : n ≤ (digitsOf cs).length) :
    marksBefore n cs + n ≤ cs.length := by
  induction cs generalizing n with
  | nil =>
    obtain rfl : n = 0 := Nat.le_zero.mp h
    unfold marksBefore
    exact Nat.le_refl 0
  | cons c cs ih =>
    cases n with
    | zero =>
      unfold marksBefore
      exact Nat.zero_le _
    | succ n =>
      unfold marksBefore
      rw [length_cons]
      cases hc : hexDigit c with
      | none =>
        rw [digitsOf_cons_none cs hc] at h
        have := ih h
        rw [if_neg (by simp)]
        omega
      | some d =>
        rw [digitsOf_cons_some cs hc] at h
        have := ih (Nat.le_of_succ_le_succ h)
        rw [if_pos (show (some d).isSome = true from rfl)]
        omega

variable {c : Byte}

/-- The `n`-th digit is the last character. -/
theorem marksBefore_snoc (hc : (hexDigit c).isSome) :
    marksBefore ((digitsOf xs).length + 1) (xs ++ [c]) + (digitsOf xs).length = xs.length := by
  induction xs with
  | nil =>
    show marksBefore 1 [c] + 0 = 0
    unfold marksBefore
    rw [if_pos hc]
    rfl
  | cons e xs ih =>
    rw [cons_append]
    unfold marksBefore
    cases he : hexDigit e with
    | none =>
      rw [digitsOf_cons_none xs he, if_neg (by simp), length_cons, ← ih]
      omega
    | some d =>
      rw [digitsOf_cons_some xs he, if_pos (show (some d).isSome = true from rfl), length_cons,
        length_cons, ← ih]
      omega

/-- `start` behind a segment at a position. -/
def segmentStart (p : Nat) (seg : List Byte) : ℤ :=
  if (digitsOf seg).length < 16 then -1 else asInt32 (p + marksBefore 16 seg + 15 : Nat) - 15

theorem digitsOf_append (xs ys : List Byte) : digitsOf (xs ++ ys) = digitsOf xs ++ digitsOf ys :=
  filterMap_append

theorem segmentStart_append {p : Nat} (h : 16 ≤ (digitsOf xs).length) (ys : List Byte) :
    segmentStart p (xs ++ ys) = segmentStart p xs := by
  unfold segmentStart
  rw [digitsOf_append, length_append, if_neg (by omega), if_neg (by omega),
    marksBefore_append h]

theorem segmentStart_lt {p : Nat} {seg : List Byte} (h : (digitsOf seg).length < 16) :
    segmentStart p seg = -1 := if_pos h

/-- The words for the marks of a segment. -/
def marksBytes (seg : List Byte) : List Byte :=
  (List.replicate (seg.count underscore) (le8 nullMark)).flatten

theorem marksBytes_append (xs ys : List Byte) :
    marksBytes (xs ++ ys) = marksBytes xs ++ marksBytes ys := by
  unfold marksBytes
  rw [List.count_append, replicate_add, flatten_append]

theorem marksBytes_digit (hc : c ≠ underscore) : marksBytes [c] = [] := by
  unfold marksBytes
  rw [count_singleton, if_neg (by simpa using hc)]
  rfl

/-- `start` is told from `-1`. -/
theorem segmentStart_ne {p : Nat} {seg : List Byte} (h : 16 ≤ (digitsOf seg).length)
    (hpos : p + seg.length ≤ 2 ^ 32) : segmentStart p seg ≠ -1 := by
  have := marksBefore_add_le h
  unfold segmentStart asInt32
  rw [if_neg (by omega)]
  omega

theorem segmentStart_snoc {p : Nat} (h : (digitsOf xs).length = 15)
    (hlen : (digitsOf (xs ++ [c])).length = 16) (hc : (hexDigit c).isSome) :
    segmentStart p (xs ++ [c]) = asInt32 (p + xs.length : Nat) - 15 := by
  have hsnoc : marksBefore ((digitsOf xs).length + 1) (xs ++ [c]) + _ = _ := marksBefore_snoc hc
  rw [h] at hsnoc
  unfold segmentStart
  rw [if_neg (by omega), ← hsnoc, Nat.add_assoc]

variable {t : List Byte}

/-- The state behind a segment without its end. -/
structure Behind (p : Nat) (seg key : List Byte) (s : Scan StaticScan) : Prop where
  index : s.index = .rest
  key : s.key = key ++ marksBytes seg
  bitNum : s.st.bitNum = (digitsOf seg).length % 16
  isAppend : s.st.isAppend = decide ((digitsOf seg).length % 16 ≠ 0)
  start : s.st.start = segmentStart p seg
  type : (digitsOf seg).length < 16 → s.st.type = UInt64.ofNat (hexValue (digitsOf seg))

/-- By induction on the segment: where the scan stands behind it. -/
theorem scan_segment (p : Nat) (seg key : List Byte) (hseg : ∀ c ∈ seg, isWordChar c)
    (hpos : 16 ≤ (digitsOf seg).length → p + seg.length ≤ 2 ^ 32) :
    ∃ s, scan settingWord (staticChar t) p ⟨.rest, key, .clean⟩ seg = some s ∧
      Behind p seg key s := by
  induction seg using List.reverseRecOn with
  | nil =>
    exact ⟨_, rfl, rfl, (append_nil key).symm, rfl, rfl, rfl, fun _ => rfl⟩
  | append_singleton xs c ih =>
    have hlength : (digitsOf xs).length ≤ (digitsOf (xs ++ [c])).length := by
      rw [digitsOf_append, length_append]
      exact Nat.le_add_right _ _
    rw [length_append] at hpos
    obtain ⟨s, hscan, hs⟩ := ih (fun e he => hseg e (mem_append_left _ he)) (by omega)
    obtain ⟨index, key', st⟩ := s
    obtain rfl : index = .rest := hs.index
    rw [scan_append, hscan, bind_some, scan_rest_cons]
    cases hc : hexDigit c with
    | none =>
      -- the mark for a null tensor
      have hmark : c = underscore := by
        have := hseg c (mem_append_right _ mem_cons_self)
        unfold isWordChar at this
        rw [hc] at this
        simpa using this
      subst hmark
      have hdigits : digitsOf (xs ++ [underscore]) = digitsOf xs := by
        rw [digitsOf_append, digitsOf_cons_none [] hc]
        exact append_nil _
      have hstart : segmentStart p (xs ++ [underscore]) = segmentStart p xs := by
        by_cases hlong : 16 ≤ (digitsOf xs).length
        · exact segmentStart_append hlong _
        · rw [segmentStart_lt (by rw [hdigits]; omega), segmentStart_lt (by omega)]
      refine ⟨⟨.rest, key' ++ le8 nullMark, st⟩, rfl, rfl, ?_, ?_, ?_, ?_, ?_⟩
      · show key' ++ le8 nullMark = key ++ marksBytes (xs ++ [underscore])
        rw [show key' = _ from hs.key, marksBytes_append, append_assoc]
        rfl
      · rw [hdigits]
        exact hs.bitNum
      · rw [hdigits]
        exact hs.isAppend
      · rw [hstart]
        exact hs.start
      · rw [hdigits]
        exact hs.type
    | some d =>
      have hmark : c ≠ underscore := by
        rintro rfl
        cases hc
      have hstep : staticChar t (p + xs.length) c key' st = some (key',
          sixteenDigits (p + xs.length)
            ⟨st.type <<< 4 ||| d.toUInt64, st.bitNum + 1, true, st.start⟩) := by
        unfold staticChar
        rw [if_neg hmark, hc]
      have hdigits : digitsOf (xs ++ [c]) = digitsOf xs ++ [d] := by
        rw [digitsOf_append, digitsOf_cons_some [] hc]
        rfl
      have hlen : (digitsOf (xs ++ [c])).length = (digitsOf xs).length + 1 := by
        rw [hdigits, length_append]
        rfl
      have hbit : st.bitNum = (digitsOf xs).length % 16 := hs.bitNum
      rw [hstep, bind_some]
      refine ⟨_, rfl, rfl, ?_, ?_, ?_, ?_, ?_⟩
      · show key' = key ++ marksBytes (xs ++ [c])
        rw [show key' = _ from hs.key, marksBytes_append, marksBytes_digit hmark, append_nil]
      · rw [hlen]
        show (sixteenDigits _ _).bitNum = _
        unfold sixteenDigits
        split
        next h16 =>
          dsimp only at h16 ⊢
          omega
        next h16 =>
          dsimp only at h16 ⊢
          omega
      · rw [hlen]
        show (sixteenDigits _ _).isAppend = _
        unfold sixteenDigits
        split
        next h16 =>
          dsimp only at h16
          exact (decide_eq_false (by omega)).symm
        next h16 =>
          dsimp only at h16
          exact (decide_eq_true (by omega)).symm
      · show (sixteenDigits _ _).start = _
        have hstart : st.start = segmentStart p xs := hs.start
        unfold sixteenDigits
        rw [hstart]
        split
        next h16 =>
          dsimp only at h16 ⊢
          by_cases hlong : 16 ≤ (digitsOf xs).length
          · rw [if_neg (segmentStart_ne hlong (by omega)), segmentStart_append hlong]
          · rw [if_pos (segmentStart_lt (by omega)),
              segmentStart_snoc (by omega) (by omega) (by rw [hc]; rfl)]
        next h16 =>
          dsimp only at h16 ⊢
          by_cases hlong : 16 ≤ (digitsOf xs).length
          · rw [segmentStart_append hlong]
          · rw [segmentStart_lt (by omega), segmentStart_lt (by omega)]
      · intro hshort
        have htype : st.type = UInt64.ofNat (hexValue (digitsOf xs)) := hs.type (by omega)
        have hvalue : hexValue (digitsOf xs) < _ := hexValue_lt fun e he => digitsOf_lt he
        have hpow : 16 ^ (digitsOf xs).length ≤ 16 ^ 14 :=
          Nat.pow_le_pow_right (by decide) (by omega)
        show (sixteenDigits _ _).type = _
        unfold sixteenDigits
        rw [if_neg (by dsimp only; omega), hdigits, hexValue_snoc, htype, ← UInt64.ofNat_uInt8ToNat]
        exact shiftLeft_or_ofNat (Nat.lt_of_lt_of_le hvalue (Nat.le_trans hpow (by decide)))
          (hexDigit_lt hc)

/-! ## The end of a segment -/

/-- The key behind a segment and its end. -/
def segmentKey (t : List Byte) (p : Nat) (seg key : List Byte) : Option (List Byte × StaticScan) :=
  (scan settingWord (staticChar t) p ⟨.rest, key, .clean⟩ seg).bind fun s =>
    numeralEnd t (p + seg.length) s.key s.st

/-- The segment adds bytes to the key. -/
def Adds (t : List Byte) (p : Nat) (seg bytes : List Byte) : Prop :=
  ∀ key, segmentKey t p seg key = some (key ++ bytes, .clean)

/-- At the end of the segment there is a read outside the text. -/
def Refuses (t : List Byte) (p : Nat) (seg : List Byte) : Prop :=
  ∀ key, segmentKey t p seg key = none

/-- The bytes of a number with so many digits. -/
def numeralBytes (seg : List Byte) : List Byte :=
  wordsOf (((digitsOf seg).length + 15) / 16) (hexValue (digitsOf seg))

variable {p : Nat} {seg key : List Byte} {s : Scan StaticScan} {others : List (Byte × List Byte)}

theorem numeralEnd_short (hs : Behind p seg key s) (h : (digitsOf seg).length < 16) (i : Nat) :
    numeralEnd t i s.key s.st = some (key ++ (marksBytes seg ++ numeralBytes seg), .clean) := by
  obtain ⟨index, key', type, bitNum, isAppend, start⟩ := s
  obtain ⟨-, hkey, hbitNum, hisAppend, hstart, htype⟩ := hs
  dsimp only at hkey hbitNum hisAppend hstart htype ⊢
  rw [segmentStart_lt h] at hstart
  subst hkey hstart hisAppend hbitNum
  rw [htype h]
  unfold numeralEnd copyBeyond
  rw [if_neg (fun hne => hne rfl), map_some]
  unfold appendType numeralBytes
  by_cases hzero : (digitsOf seg).length = 0
  · rw [hzero, length_eq_zero_iff.mp hzero,
      if_neg (show ¬ decide (0 % 16 ≠ 0) = true by decide), ← append_assoc]
    exact congrArg (fun key => some (key, StaticScan.clean)) (append_nil _).symm
  · rw [if_pos (decide_eq_true (by omega)), show ((digitsOf seg).length + 15) / 16 = 1 by omega,
      wordsOf_succ, ← append_assoc]
    exact congrArg (fun word => some (_ ++ word, StaticScan.clean)) (append_nil _).symm

theorem numeralEnd_start {st : StaticScan} (h : st.start ≠ -1) (i : Nat) (key : List Byte) :
    numeralEnd t i key st = (beyond8BtyeCopy st.start (asInt32 (i - 1)) t key).map
      fun key => (key, .clean) := by
  unfold numeralEnd copyBeyond
  rw [if_pos h, Option.map_map]
  rfl

/-- What `NnopbaseBeyond8BtyeCopy` makes of a segment that ends in front of position 2³¹. -/
theorem numeralEnd_long {front back : List Byte} (hs : Behind front.length seg key s)
    (ht : t = front ++ seg ++ back) (h : 16 ≤ (digitsOf seg).length)
    (hpos : front.length + seg.length ≤ 2 ^ 31) :
    numeralEnd t (front.length + seg.length) s.key s.st =
      some (beyondEnd ((seg.drop (marksBefore 16 seg)).reverse.foldl beyondChar ⟨0, 0, 0, s.key⟩),
        .clean) := by
  have hmarks := marksBefore_add_le h
  have hne := segmentStart_ne (p := front.length) h (by omega)
  have hstart : s.st.start = ((front.length + marksBefore 16 seg : Nat) : ℤ) := by
    rw [hs.start]
    unfold segmentStart asInt32
    rw [if_neg (by omega)]
    omega
  -- up to `2 ^ 31` characters no position wraps
  have hlast : asInt32 ((front.length + seg.length : Nat) - 1) =
      ((front.length + seg.length - 1 : Nat) : ℤ) := by
    unfold asInt32
    omega
  have hlen : t.length = front.length + seg.length + back.length := by
    rw [ht, length_append, length_append]
  rw [numeralEnd_start (by rw [hs.start]; exact hne), hlast, hstart]
  unfold beyond8BtyeCopy
  rw [if_neg (by omega), if_neg (by omega), map_some]
  have hchars : ((t.drop ((front.length + marksBefore 16 seg : Nat) : ℤ).toNat).take
      (((front.length + seg.length - 1 : Nat) : ℤ) -
        ((front.length + marksBefore 16 seg : Nat) : ℤ) +
        1).toNat) = seg.drop (marksBefore 16 seg) := by
    have hcount : (((front.length + seg.length - 1 : Nat) : ℤ) -
        ((front.length + marksBefore 16 seg : Nat) : ℤ) + 1).toNat =
          (seg.drop (marksBefore 16 seg)).length := by
      rw [length_drop]
      omega
    rw [hcount, Int.toNat_natCast, ht, append_assoc, drop_length_add_append,
      drop_append_of_le_length (by omega), take_left]
  rw [hchars]

/-- A segment of fewer than sixteen digits adds its marks and its numeral. -/
theorem adds_short (p : Nat) (hseg : ∀ c ∈ seg, isWordChar c) (h : (digitsOf seg).length < 16) :
    Adds t p seg (marksBytes seg ++ numeralBytes seg) := by
  intro key
  obtain ⟨s, hscan, hs⟩ := scan_segment (t := t) p seg key hseg (fun hlong => by omega)
  unfold segmentKey
  rw [hscan, bind_some]
  exact numeralEnd_short hs h _

/-- The digits of a segment that `NnopbaseBeyond8BtyeCopy` goes through. -/
def digitsBehind (seg : List Byte) : List Byte := digitsOf (seg.drop (marksBefore 16 seg))

/-- A longer one adds as many words as its digits make. -/
theorem adds_long {front back : List Byte} (hseg : ∀ c ∈ seg, isWordChar c)
    (ht : t = front ++ seg ++ back) (h : 16 ≤ (digitsOf seg).length)
    (hpos : front.length + seg.length ≤ 2 ^ 31) :
    ∃ bytes, Adds t front.length seg (marksBytes seg ++ bytes) ∧
      bytes.length = 8 * (((digitsBehind seg).length + 15) / 16) := by
  obtain ⟨bytes, heq, hbytes⟩ := beyond_length (seg.drop (marksBefore 16 seg)).reverse
    (Nat.zero_lt_succ 15) 0 0
  refine ⟨bytes, fun key => ?_, ?_⟩
  · obtain ⟨s, hscan, hs⟩ := scan_segment (t := t) front.length seg key hseg (fun _ => by omega)
    unfold segmentKey
    rw [hscan, bind_some, numeralEnd_long hs ht h hpos, heq, hs.key, append_assoc]
  · unfold digitsBehind
    rw [hbytes]
    unfold digitsOf
    rw [filterMap_reverse, length_reverse, Nat.zero_add]

/-- A long numeral that ends behind position 2³¹: nothing is copied if its sixteenth digit is in
front of it, otherwise the text is read in front of its start. -/
theorem numeralEnd_late (hs : Behind p seg key s) (h : 16 ≤ (digitsOf seg).length)
    (hlow : 2 ^ 31 < p + seg.length) (hhigh : p + seg.length ≤ 2 ^ 32) :
    numeralEnd t (p + seg.length) s.key s.st =
      if p + marksBefore 16 seg + 15 < 2 ^ 31 then some (s.key, .clean) else none := by
  have hmarks := marksBefore_add_le h
  -- the position has wrapped and is negative
  have hlast : asInt32 ((p + seg.length : Nat) - 1) = (p + seg.length : ℤ) - 1 - 2 ^ 32 := by
    unfold asInt32
    omega
  have hstart : s.st.start = asInt32 (p + marksBefore 16 seg + 15 : Nat) - 15 := by
    rw [hs.start]
    unfold segmentStart
    rw [if_neg (by omega)]
  have hne : s.st.start ≠ -1 := by
    rw [hs.start]
    exact segmentStart_ne h hhigh
  rw [numeralEnd_start hne, hlast, hstart]
  unfold beyond8BtyeCopy
  by_cases hfirst : p + marksBefore 16 seg + 15 < 2 ^ 31
  · have hempty : (p + seg.length : ℤ) - 1 - 2 ^ 32 <
        asInt32 (p + marksBefore 16 seg + 15 : Nat) - 15 := by
      unfold asInt32
      omega
    rw [if_pos hempty, if_pos hfirst]
    rfl
  · have hfront : asInt32 (p + marksBefore 16 seg + 15 : Nat) - 15 <
        min 0 ((p + seg.length : ℤ) - 1 - 2 ^ 32) := by
      unfold asInt32
      omega
    rw [if_neg (by omega), if_pos (.inl (by omega)), if_neg hfirst]
    rfl

/-- If only its end lies behind `2 ^ 31`, it adds nothing but its marks. -/
theorem adds_marks (hseg : ∀ c ∈ seg, isWordChar c) (h : 16 ≤ (digitsOf seg).length)
    (hlow : 2 ^ 31 < p + seg.length) (hhigh : p + seg.length ≤ 2 ^ 32)
    (hfirst : p + marksBefore 16 seg + 15 < 2 ^ 31) : Adds t p seg (marksBytes seg) := by
  intro key
  obtain ⟨s, hscan, hs⟩ := scan_segment (t := t) p seg key hseg fun _ => hhigh
  unfold segmentKey
  rw [hscan, bind_some, numeralEnd_late hs h hlow hhigh, if_pos hfirst, hs.key]

/-- If its sixteenth digit lies behind `2 ^ 31`, the key is refused. -/
theorem refuses_late (hseg : ∀ c ∈ seg, isWordChar c) (h : 16 ≤ (digitsOf seg).length)
    (hhigh : p + seg.length ≤ 2 ^ 32) (hfirst : 2 ^ 31 ≤ p + marksBefore 16 seg + 15) :
    Refuses t p seg := by
  intro key
  have hmarks := marksBefore_add_le h
  obtain ⟨s, hscan, hs⟩ := scan_segment (t := t) p seg key hseg fun _ => hhigh
  unfold segmentKey
  rw [hscan, bind_some, numeralEnd_late hs h (by omega) hhigh,
    if_neg (Nat.not_lt.mpr hfirst)]

section

variable (hseg : ∀ c ∈ seg, (hexDigit c).isSome)
include hseg

theorem digits_only :
    (∀ c ∈ seg, isWordChar c) ∧ marksBytes seg = [] ∧ (digitsOf seg).length = seg.length ∧
      ∀ n, marksBefore n seg = 0 := by
  induction seg with
  | nil =>
    refine ⟨fun _ h => (nomatch h), rfl, rfl, fun n => ?_⟩
    cases n <;> rfl
  | cons c cs ih =>
    obtain ⟨hword, hmarks, hlen, hbefore⟩ := ih fun e he => hseg e (mem_cons_of_mem c he)
    obtain ⟨d, hc⟩ := Option.isSome_iff_exists.mp (hseg c mem_cons_self)
    have hne : c ≠ underscore := by
      rintro rfl
      cases hc
    refine ⟨?_, ?_, ?_, fun n => ?_⟩
    · intro e he
      unfold isWordChar
      rw [hseg e he, Bool.or_true]
    · rw [← singleton_append, marksBytes_append, marksBytes_digit hne, hmarks]
      rfl
    · rw [digitsOf_cons_some cs hc, length_cons, length_cons, hlen]
    · cases n with
      | zero =>
        unfold marksBefore
        rfl
      | succ n =>
        unfold marksBefore
        rw [hc]
        exact hbefore n

/-- A segment of digits only adds its numeral. -/
theorem adds_digits {front back : List Byte}
    (ht : t = front ++ seg ++ back) (hpos : 16 ≤ seg.length → front.length + seg.length ≤ 2 ^ 31) :
    Adds t front.length seg (numeralBytes seg) := by
  obtain ⟨hword, hmarks, hlen, hbefore⟩ := digits_only hseg
  by_cases h : (digitsOf seg).length < 16
  · have hadds := adds_short (t := t) front.length hword h
    rwa [hmarks] at hadds
  · have hlong : 16 ≤ (digitsOf seg).length := Nat.le_of_not_lt h
    intro key
    obtain ⟨s, hscan, hs⟩ := scan_segment (t := t) front.length seg key hword fun _ => by
      have := hpos (by omega)
      omega
    unfold segmentKey
    rw [hscan, bind_some, numeralEnd_long hs ht hlong (hpos (by omega)), hbefore,
      drop_zero, hs.key, hmarks, append_nil]
    have hwords := beyond_words seg.reverse (fun c hc => hseg c (mem_reverse.mp hc))
      (m := 0) (x := 0) (by decide) (by decide) key
    rw [Nat.zero_add, Nat.zero_add, Nat.pow_zero, Nat.one_mul, length_reverse, ← hlen] at hwords
    unfold numeralBytes hexValue
    unfold digitsOf at hwords ⊢
    rw [filterMap_reverse] at hwords
    exact congrArg (fun key => some (key, StaticScan.clean)) hwords

/-- A numeral that begins in front of position 2³¹ and ends behind it is lost; one that begins
behind it has the text read in front of its start. -/
theorem adds_nothing (h : 16 ≤ seg.length)
    (hlow : 2 ^ 31 < p + seg.length) (hhigh : p + seg.length ≤ 2 ^ 32) :
    Adds t p seg [] ∨ Refuses t p seg := by
  obtain ⟨hword, hmarks, hlen, -⟩ := digits_only hseg
  by_cases hfirst : p + marksBefore 16 seg + 15 < 2 ^ 31
  · rw [← hmarks]
    exact .inl (adds_marks hword (by rwa [hlen]) hlow hhigh hfirst)
  · exact .inr (refuses_late hword (by rwa [hlen]) hhigh (Nat.le_of_not_lt hfirst))

end

/-! ## All segments -/

/-- Segments behind one separator each, but for the first. -/
def joined (first : List Byte) (others : List (Byte × List Byte)) : List Byte :=
  first ++ others.flatMap fun x => x.1 :: x.2

/-- A character that ends a numeral. -/
def IsSeparator (c : Byte) : Prop := c ≠ underscore ∧ hexDigit c = none

theorem behind_first {t front seg next : List Byte}
    (ht : t = front ++ joined seg ((c, next) :: others)) :
    t = front ++ seg ++ (c :: joined next others) ∧
      t = front ++ seg ++ [c] ++ joined next others ∧
      (front ++ seg ++ [c]).length = front.length + seg.length + 1 := by
  have hjoined : joined seg ((c, next) :: others) = seg ++ c :: joined next others := rfl
  rw [hjoined, ← append_assoc] at ht
  refine ⟨ht, ?_, ?_⟩
  · rw [ht, append_assoc _ [c]]
    rfl
  · rw [length_append, length_append]
    rfl

theorem staticChar_separator (hc : IsSeparator c) (i : Nat) (key : List Byte) (st : StaticScan) :
    staticChar t i c key st =
      (numeralEnd t i key st).map fun r => (r.1, sixteenDigits i r.2) := by
  unfold staticChar
  rw [if_neg hc.1, hc.2]

theorem segmentKey_joined (hc : IsSeparator c) (p : Nat) (seg next : List Byte)
    (others : List (Byte × List Byte)) (key : List Byte) :
    segmentKey t p (joined seg ((c, next) :: others)) key = (segmentKey t p seg key).bind fun r =>
        (scan settingWord (staticChar t) (p + seg.length + 1)
          ⟨.rest, r.1, sixteenDigits (p + seg.length) r.2⟩ (joined next others)).bind fun s =>
            numeralEnd t (p + seg.length + 1 + (joined next others).length) s.key s.st := by
  have hjoined : joined seg ((c, next) :: others) = seg ++ c :: joined next others := rfl
  have hlen : p + (joined seg ((c, next) :: others)).length =
      p + seg.length + 1 + (joined next others).length := by
    rw [hjoined, length_append, length_cons]
    omega
  unfold segmentKey
  rw [hlen, hjoined, scan_append, bind_assoc, bind_assoc]
  refine Option.bind_congr fun s hs => ?_
  obtain ⟨index, key', st⟩ := s
  obtain rfl : index = .rest := scan_rest_index hs
  rw [scan_rest_cons, staticChar_separator hc, Option.bind_map, bind_assoc]
  rfl

/-- A segment that adds its bytes leaves the scan to the ones behind. -/
theorem segmentKey_joined_adds (hc : IsSeparator c) {bytes : List Byte} (h : Adds t p seg bytes)
    (next : List Byte) (others : List (Byte × List Byte)) (key : List Byte) :
    segmentKey t p (joined seg ((c, next) :: others)) key =
      segmentKey t (p + seg.length + 1) (joined next others) (key ++ bytes) := by
  rw [segmentKey_joined hc, h key]
  rfl

/-- A segment that is refused refuses the key. -/
theorem refuses_joined (h : Refuses t p seg) (hothers : ∀ x ∈ others, IsSeparator x.1) :
    Refuses t p (joined seg others) := by
  intro key
  cases others with
  | nil =>
    unfold joined
    rw [flatMap_nil, append_nil]
    exact h key
  | cons x others =>
    rw [segmentKey_joined (hothers x mem_cons_self), h key]
    rfl

/-- The conversion of a static key, segment by segment. -/
theorem convertStaticVerbKey_segment (strKey : List Byte) :
    convertStaticVerbKey strKey =
      (segmentKey (text strKey) (restStart (text strKey)) (restPart (text strKey))
        (frontBytes settingWord (text strKey))).map fun r => sized r.1 := by
  have h₁ := length_behind_le (text strKey)
  have h₂ := length_behind_le (behind (text strKey))
  have hlen : restStart (text strKey) + (restPart (text strKey)).length = (text strKey).length := by
    unfold restStart restPart
    omega
  unfold segmentKey
  rw [convertStaticVerbKey_eq, hlen, Option.map_eq_bind, bind_assoc]
  rfl

end OpBase.Indv.VerbKey
