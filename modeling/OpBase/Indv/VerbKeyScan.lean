import OpBase.Indv.VerbKey

/-!
# The parts of a key text

The three scanners go through the same parts, so each conversion comes down to its scan of
what is behind the second slash. `NnopbaseBeyond8BtyeCopy` takes digits from the right: after
16 of them the word is full.

> `convertDynamicVerbKey_eq`, `convertStaticVerbKey_eq`: the parts of a conversion.
>
> `beyond_words`: the words of a numeral. `beyond_length`: how many there are, whatever lies
> between the digits.
-/

namespace OpBase.Indv.VerbKey

open List OpBase.Lib
open OpBase.Indv.BinKey (nullMark)

/-! ## The parts of a text -/

/-- In front of the first slash. -/
def opPart (t : List Byte) : List Byte := t.takeWhile (· ≠ slash)

/-- Behind the first slash. -/
def behind (t : List Byte) : List Byte := (t.dropWhile (· ≠ slash)).tail

/-- The settings among the characters in front of the first slash. -/
def settingChars (t : List Byte) : List Byte :=
  (opPart t).filter fun c => c = 48 ∨ c = 49 ∨ c = 50

/-- Behind the second slash. -/
def restPart (t : List Byte) : List Byte := behind (behind t)

theorem behind_cons (c : Byte) (cs : List Byte) :
    behind (c :: cs) = if c = slash then cs else behind cs := by
  unfold behind
  rw [dropWhile_cons]
  by_cases hc : c = slash
  · rw [if_pos hc, if_neg (by simp [hc])]
    rfl
  · rw [if_neg hc, if_pos (by simp [hc])]

theorem opPart_cons (c : Byte) (cs : List Byte) :
    opPart (c :: cs) = if c = slash then [] else c :: opPart cs := by
  unfold opPart
  rw [takeWhile_cons]
  by_cases hc : c = slash
  · rw [if_pos hc, if_neg (by simp [hc])]
  · rw [if_neg hc, if_pos (by simp [hc])]

theorem behind_suffix (t : List Byte) : behind t <:+ t :=
  (tail_suffix _).trans (dropWhile_suffix _)

theorem length_behind_le (t : List Byte) : (behind t).length ≤ t.length :=
  (behind_suffix t).length_le

section

variable {σ : Type} {append : Byte → List Byte} {restChar : RestChar σ}

/-- The bytes of the settings. -/
def settingBytes (append : Byte → List Byte) (t : List Byte) : List Byte :=
  (settingChars t).flatMap fun c => append (c - 48)

def Scan.result (s : Scan σ) : List Byte × σ := (s.key, s.st)

/-- The scan of two texts, one behind the other. -/
theorem scan_append (i : Nat) (s : Scan σ) (xs ys : List Byte) :
    scan append restChar i s (xs ++ ys) =
      (scan append restChar i s xs).bind fun s => scan append restChar (i + xs.length) s ys := by
  induction xs generalizing i s with
  | nil => rfl
  | cons x xs ih =>
    show (scanChar append restChar i s x).bind _ = ((scanChar append restChar i s x).bind _).bind _
    rw [Option.bind_assoc]
    refine Option.bind_congr fun s' _ => (ih (i + 1) s').trans ?_
    rw [length_cons, Nat.add_assoc, Nat.add_comm 1]

theorem settingBytes_cons (c : Byte) (cs : List Byte) :
    settingBytes append (c :: cs) =
      if c = slash then []
      else
        (if c = 48 ∨ c = 49 ∨ c = 50 then append (c - 48) else []) ++ settingBytes append cs := by
  unfold settingBytes settingChars
  rw [opPart_cons]
  by_cases hc : c = slash
  · rw [if_pos hc, if_pos hc]
    rfl
  · rw [if_neg hc, if_neg hc, filter_cons]
    by_cases hd : c = 48 ∨ c = 49 ∨ c = 50
    · rw [if_pos hd, if_pos (decide_eq_true hd), flatMap_cons]
    · rw [if_neg hd, if_neg (by rwa [decide_eq_true_eq]), nil_append]

theorem scan_compileArgs (i : Nat) (key : List Byte) (st : σ) (cs : List Byte) :
    (scan append restChar i ⟨.compileArgs, key, st⟩ cs).map Scan.result =
      (scan append restChar (i + (cs.length - (behind cs).length))
        ⟨.rest, key ++ settingBytes append cs, st⟩ (behind cs)).map Scan.result := by
  induction cs generalizing i key with
  | nil => exact congrArg (fun key => some (key, st)) (append_nil key).symm
  | cons c cs ih =>
    have hle := length_behind_le cs
    show (scan append restChar (i + 1) (compileArgsChar append ⟨.compileArgs, key, st⟩ c) cs).map _
      = _
    unfold compileArgsChar
    rw [behind_cons, settingBytes_cons, length_cons]
    by_cases hc : c = slash
    · rw [if_neg (fun hne => hne hc), if_pos hc, if_pos hc, Nat.add_sub_cancel_left,
        append_nil]
    · rw [if_pos hc, if_neg hc, if_neg hc, ← append_assoc,
        show i + (cs.length + 1 - (behind cs).length) =
          i + 1 + (cs.length - (behind cs).length) by omega]
      by_cases hd : c = 48 ∨ c = 49 ∨ c = 50
      · rw [if_pos hd, if_pos hd]
        exact ih (i + 1) _
      · rw [if_neg hd, if_neg hd, append_nil]
        exact ih (i + 1) key

theorem scan_opType (i : Nat) (key : List Byte) (st : σ) (cs : List Byte) :
    (scan append restChar i ⟨.opType, key, st⟩ cs).map Scan.result =
      (scan append restChar (i + (cs.length - (behind cs).length))
        ⟨.compileArgs, key ++ opPart cs, st⟩ (behind cs)).map Scan.result := by
  induction cs generalizing i key with
  | nil => exact congrArg (fun key => some (key, st)) (append_nil key).symm
  | cons c cs ih =>
    have hle := length_behind_le cs
    show (scan append restChar (i + 1) (opTypeChar ⟨.opType, key, st⟩ c) cs).map _ = _
    unfold opTypeChar
    rw [behind_cons, opPart_cons, length_cons]
    by_cases hc : c = slash
    · rw [if_neg (fun hne => hne hc), if_pos hc, if_pos hc, Nat.add_sub_cancel_left,
        append_nil]
    · rw [if_pos hc, if_neg hc, if_neg hc, append_cons key c (opPart cs),
        show i + (cs.length + 1 - (behind cs).length) =
          i + 1 + (cs.length - (behind cs).length) by omega]
      exact ih (i + 1) _

theorem scan_parts (st : σ) (t : List Byte) :
    (scan append restChar 0 ⟨.opType, [], st⟩ t).map Scan.result =
      (scan append restChar (t.length - (restPart t).length)
        ⟨.rest, opPart t ++ settingBytes append (behind t), st⟩ (restPart t)).map Scan.result := by
  have h₁ := length_behind_le t
  have h₂ := length_behind_le (behind t)
  rw [scan_opType, scan_compileArgs, nil_append]
  unfold restPart
  rw [show 0 + (t.length - (behind t).length) + ((behind t).length - (behind (behind t)).length) =
    t.length - (behind (behind t)).length by omega]

theorem scan_parts_bind {τ : Type} (f : List Byte → σ → Option τ) (st : σ) (t : List Byte) :
    ((scan append restChar 0 ⟨.opType, [], st⟩ t).bind fun s => f s.key s.st) =
      (scan append restChar (t.length - (restPart t).length)
        ⟨.rest, opPart t ++ settingBytes append (behind t), st⟩ (restPart t)).bind
          fun s => f s.key s.st := by
  have hparts : (scan append restChar 0 ⟨.opType, [], st⟩ t).map Scan.result = _ := scan_parts st t
  have h := congrArg (Option.bind · fun r => f r.1 r.2) hparts
  rwa [Option.bind_map, Option.bind_map] at h

theorem scan_rest_cons (i : Nat) (key : List Byte) (st : σ) (c : Byte) (cs : List Byte) :
    scan append restChar i ⟨.rest, key, st⟩ (c :: cs) =
      (restChar i c key st).bind fun r => scan append restChar (i + 1) ⟨.rest, r.1, r.2⟩ cs :=
  Option.bind_map

end

theorem scan_rest_index {σ : Type} {append : Byte → List Byte} {restChar : RestChar σ} {i : Nat}
    {key : List Byte} {st : σ} {cs : List Byte} {s : Scan σ}
    (h : scan append restChar i ⟨.rest, key, st⟩ cs = some s) : s.index = .rest := by
  induction cs generalizing i key st with
  | nil =>
    cases h
    rfl
  | cons c cs ih =>
    rw [scan_rest_cons] at h
    obtain ⟨r, -, hr⟩ := Option.bind_eq_some_iff.mp h
    exact ih hr

/-- What is in front of the rest in a dynamic or customized key, and in a static one. -/
def frontBytes (append : Byte → List Byte) (t : List Byte) : List Byte :=
  opPart t ++ settingBytes append (behind t)

/-- Where the rest begins. -/
def restStart (t : List Byte) : Nat := t.length - (restPart t).length

/-- The conversion of a dynamic key, as a scan of what is behind the settings. -/
theorem convertDynamicVerbKey_eq (strKey : List Byte) :
    convertDynamicVerbKey strKey =
      ((scan (fun d => [d]) dynamicChar (restStart (text strKey))
        ⟨.rest, frontBytes (fun d => [d]) (text strKey), ⟨0, false⟩⟩ (restPart (text strKey))).map
          fun s => dynamicEnd s.key s.st).map sized := by
  unfold convertDynamicVerbKey
  rw [Option.map_map, Option.map_eq_bind, Option.map_eq_bind]
  exact scan_parts_bind (fun key st => some (sized (dynamicEnd key st))) ⟨0, false⟩ (text strKey)

/-- The bytes of a setting in a static key. -/
def settingWord (d : Byte) : List Byte := le8 d.toUInt64

/-- The conversion of a static key, as a scan of what is behind the settings. -/
theorem convertStaticVerbKey_eq (strKey : List Byte) :
    convertStaticVerbKey strKey =
      (scan settingWord (staticChar (text strKey)) (restStart (text strKey))
        ⟨.rest, frontBytes settingWord (text strKey), .clean⟩ (restPart (text strKey))).bind
          fun s => (numeralEnd (text strKey) (text strKey).length s.key s.st).bind
            fun r => some (sized r.1) :=
  scan_parts_bind
    (fun key st => (numeralEnd (text strKey) (text strKey).length key st).bind
      fun r => some (sized r.1)) .clean (text strKey)

/-! ## Numerals from the right -/

/-- The values of the digits. -/
def digitsOf (cs : List Byte) : List Byte := cs.filterMap hexDigit

variable (cs : List Byte)

theorem digitsOf_cons_none {c : Byte} (hc : hexDigit c = none) :
    digitsOf (c :: cs) = digitsOf cs := filterMap_cons_none hc

theorem digitsOf_cons_some {c d : Byte} (hc : hexDigit c = some d) :
    digitsOf (c :: cs) = d :: digitsOf cs := filterMap_cons_some hc

/-- The number with these digits, the highest first. -/
def hexValue (ds : List Byte) : Nat := Nat.ofDigits 16 (ds.reverse.map UInt8.toNat)

theorem hexValue_snoc (ds : List Byte) (d : Byte) :
    hexValue (ds ++ [d]) = 16 * hexValue ds + d.toNat := by
  unfold hexValue
  rw [reverse_append, reverse_singleton, singleton_append, map_cons,
    Nat.ofDigits_cons, Nat.add_comm]

theorem hexValue_lt {ds : List Byte} (h : ∀ d ∈ ds, d.toNat < 16) :
    hexValue ds < 16 ^ ds.length := by
  have hlt := Nat.ofDigits_lt_base_pow_length (b := 16) (by decide)
    (l := ds.reverse.map UInt8.toNat) (by
      intro x hx
      obtain ⟨d, hd, rfl⟩ := mem_map.mp hx
      exact h d (mem_reverse.mp hd))
  rwa [length_map, length_reverse] at hlt

theorem digitsOf_lt {cs : List Byte} {d : Byte} (h : d ∈ digitsOf cs) : d.toNat < 16 := by
  obtain ⟨c, -, hc⟩ := mem_filterMap.mp h
  exact hexDigit_lt hc

theorem beyondChar_none {c : Byte} (hc : hexDigit c = none) {bitNum : Nat} (h : bitNum < 16)
    (type : UInt64) (j : Nat) (verKey : List Byte) :
    beyondChar ⟨type, bitNum, j, verKey⟩ c = ⟨type, bitNum, j + 1, verKey⟩ := by
  unfold beyondChar beyondDigit beyondWord
  rw [hc]
  exact if_neg (Nat.ne_of_lt h)

theorem beyondChar_some {c d : Byte} (hc : hexDigit c = some d) (s : Beyond) :
    beyondChar s c = beyondWord ⟨s.type ||| d.toUInt64 <<< UInt64.ofNat (4 * s.j), s.bitNum + 1,
      s.j + 1, s.verKey⟩ := by
  unfold beyondChar beyondDigit
  rw [hc]

/-- How many words the digits behind the first sixteen become. -/
theorem beyond_length {bitNum : Nat} (h : bitNum < 16) (type : UInt64) (j : Nat) :
    ∃ bytes, (∀ verKey, beyondEnd (cs.foldl beyondChar ⟨type, bitNum, j, verKey⟩) =
        verKey ++ bytes) ∧
      bytes.length = 8 * ((bitNum + (digitsOf cs).length + 15) / 16) := by
  induction cs generalizing bitNum type j with
  | nil =>
    unfold beyondEnd
    rcases Nat.eq_zero_or_pos bitNum with rfl | hpos
    · exact ⟨[], fun verKey => (append_nil verKey).symm, rfl⟩
    · refine ⟨le8 type, fun verKey => if_pos hpos, ?_⟩
      rw [length_le8]
      show 8 = 8 * ((bitNum + 0 + 15) / 16)
      omega
  | cons c cs ih =>
    cases hc : hexDigit c with
    | none =>
      rw [digitsOf_cons_none cs hc]
      obtain ⟨bytes, heq, hbytes⟩ := ih h type (j + 1)
      refine ⟨bytes, fun verKey => ?_, hbytes⟩
      rw [foldl_cons, beyondChar_none hc h]
      exact heq verKey
    | some d =>
      rw [digitsOf_cons_some cs hc, length_cons]
      by_cases h16 : bitNum + 1 = 16
      · -- the word is full
        obtain ⟨bytes, heq, hbytes⟩ := ih (Nat.zero_lt_succ 15) 0 0
        refine ⟨le8 (type ||| d.toUInt64 <<< UInt64.ofNat (4 * j)) ++ bytes, fun verKey => ?_, ?_⟩
        · rw [foldl_cons, beyondChar_some hc, ← append_assoc]
          unfold beyondWord
          rw [if_pos h16]
          exact heq _
        · rw [length_append, length_le8, hbytes]
          omega
      · obtain ⟨bytes, heq, hbytes⟩ := ih (Nat.lt_of_le_of_ne h h16)
          (type ||| d.toUInt64 <<< UInt64.ofNat (4 * j)) (j + 1)
        refine ⟨bytes, fun verKey => ?_, ?_⟩
        · rw [foldl_cons, beyondChar_some hc]
          unfold beyondWord
          rw [if_neg h16]
          exact heq verKey
        · rw [hbytes]
          congr 3
          omega

/-- Which words the digits behind the first sixteen become. -/
theorem beyond_words (hcs : ∀ c ∈ cs, (hexDigit c).isSome) {m x : Nat} (hm : m < 16)
    (hx : x < 16 ^ m) (verKey : List Byte) :
    beyondEnd (cs.foldl beyondChar ⟨UInt64.ofNat x, m, m, verKey⟩) =
      verKey ++ wordsOf ((m + cs.length + 15) / 16)
        (x + 16 ^ m * Nat.ofDigits 16 ((digitsOf cs).map UInt8.toNat)) := by
  induction cs generalizing m x verKey with
  | nil =>
    unfold beyondEnd
    rw [foldl_nil]
    have hvalue : x + 16 ^ m * Nat.ofDigits 16 ((digitsOf []).map UInt8.toNat) = x := Nat.add_zero x
    rw [hvalue]
    rcases Nat.eq_zero_or_pos m with rfl | hpos
    · exact (append_nil verKey).symm
    · rw [show (m + ([] : List Byte).length + 15) / 16 = 1 by rw [length_nil]; omega,
        if_pos hpos, wordsOf_succ]
      exact congrArg _ (append_nil _).symm
  | cons c cs ih =>
    obtain ⟨d, hc⟩ := Option.isSome_iff_exists.mp (hcs c mem_cons_self)
    have hrest := fun e he => hcs e (mem_cons_of_mem c he)
    have hd := hexDigit_lt hc
    have hpow : 2 ^ (4 * m) = 16 ^ m := Nat.pow_mul 2 4 m
    have hplace : 16 ^ m * d.toNat + x < 16 ^ (m + 1) := by
      have := Nat.mul_le_mul_left (16 ^ m) hd
      rw [Nat.mul_succ] at this
      rw [Nat.pow_succ]
      omega
    have htop : 16 ^ (m + 1) ≤ 16 ^ 16 := Nat.pow_le_pow_right (by decide) hm
    have htype : UInt64.ofNat x ||| d.toUInt64 <<< UInt64.ofNat (4 * m) =
        UInt64.ofNat (16 ^ m * d.toNat + x) := by
      rw [← UInt64.ofNat_uInt8ToNat, ← hpow]
      exact ofNat_or_shiftLeft (by omega) (by rwa [hpow]) (by rw [hpow]; omega)
    rw [foldl_cons, beyondChar_some hc, htype, digitsOf_cons_some cs hc, map_cons,
      Nat.ofDigits_cons]
    generalize hD : Nat.ofDigits 16 ((digitsOf cs).map UInt8.toNat) = D at ih
    have hsum : x + 16 ^ m * (d.toNat + 16 * D) = 16 ^ m * d.toNat + x + 16 ^ (m + 1) * D := by
      rw [Nat.mul_add, Nat.pow_succ, Nat.mul_assoc]
      omega
    rw [hsum, length_cons]
    unfold beyondWord
    split
    next h16 =>
      -- the word is full
      obtain rfl : m = 15 := Nat.succ.inj h16
      have hnext := ih hrest (m := 0) (x := 0) (by decide) (by decide)
        (verKey ++ le8 (UInt64.ofNat (16 ^ 15 * d.toNat + x)))
      refine hnext.trans ?_
      rw [show (15 + (cs.length + 1) + 15) / 16 = (cs.length + 15) / 16 + 1 by omega,
        show 16 ^ (15 + 1) = 2 ^ 64 from rfl, wordsOf_add (Nat.lt_of_lt_of_le hplace htop),
        Nat.zero_add, Nat.zero_add, Nat.pow_zero, Nat.one_mul, append_assoc]
    next h16 =>
      have hnext := ih hrest (Nat.lt_of_le_of_ne hm h16) hplace verKey
      rwa [show m + 1 + cs.length = m + (cs.length + 1) by omega] at hnext

end OpBase.Indv.VerbKey
