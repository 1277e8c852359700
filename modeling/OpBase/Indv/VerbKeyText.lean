import OpBase.Indv.BinKeyHistory
import OpBase.Indv.VerbKeySegments

/-!
# Keys as text

The texts that keys are written as, and what they are converted into. A dynamic key has
decimal numbers behind the settings, which come down to their lowest bytes. A static key has
tokens, `'_'` or a hexadecimal numeral of any length, with the words of its value.

> `convertDynamicVerbKey_text`: the op type, the settings and the bytes of the numbers.
>
> `staticAgrees_of_endEarly`, `endEarly_of_staticAgrees`: the op type, the settings and the
> words of the tokens, as long as long numerals end early enough.

The scanner keeps the position a long numeral begins at in 32 bits. One that ends behind
position 2³¹ is left out or reads in front of the text, so the key comes out shorter or not at
all; texts of more than 2³² bytes, whose positions come round again, are not looked into.
-/

namespace OpBase.Indv.VerbKey

open List OpBase.Lib
open OpBase.Indv.BinKey (nullMark)

/-! ## The text in front -/

/-- The name of an op, as a text may have it in front of the first slash. -/
abbrev Name := { s : List Byte // 0 ∉ s ∧ slash ∉ s }

/-- The digit of a setting. -/
def digit (d : Fin 3) : Byte := UInt8.ofNat (48 + d.val)

/-- `opType/det,prec/` and what follows. -/
def keyText (op : Name) (det prec : Fin 3) (rest : List Byte) : List Byte :=
  op.val ++ slash :: digit det :: 44 :: digit prec :: slash :: rest

/-- Where the rest begins. -/
def restPosition (op : Name) : Nat := op.val.length + 5

variable {front : List Byte}

theorem opPart_append (h : slash ∉ front) (t : List Byte) :
    opPart (front ++ slash :: t) = front ∧ behind (front ++ slash :: t) = t := by
  induction front with
  | nil => exact ⟨by rw [nil_append, opPart_cons, if_pos rfl],
      by rw [nil_append, behind_cons, if_pos rfl]⟩
  | cons c cs ih =>
    have hc : c ≠ slash := fun heq => h (heq ▸ mem_cons_self)
    obtain ⟨hop, hbehind⟩ := ih fun hmem => h (mem_cons_of_mem c hmem)
    rw [cons_append, opPart_cons, behind_cons, if_neg hc, if_neg hc, hop, hbehind]
    exact ⟨rfl, rfl⟩

theorem slash_notin_settings (det prec : Fin 3) :
    slash ∉ [digit det, 44, digit prec] ∧ (0 : Byte) ∉ [digit det, 44, digit prec] := by
  revert det prec
  decide

/-- The parts that the scan tells apart in the text of a key. -/
theorem keyText_parts (append : Byte → List Byte) (op : Name) (det prec : Fin 3)
    (rest : List Byte) :
    frontBytes append (keyText op det prec rest) =
        op.val ++ (append (UInt8.ofNat det.val) ++ append (UInt8.ofNat prec.val)) ∧
      restPart (keyText op det prec rest) = rest ∧
      restStart (keyText op det prec rest) = restPosition op := by
  obtain ⟨hop, hbehind⟩ := opPart_append op.property.2
    (digit det :: 44 :: digit prec :: slash :: rest)
  obtain ⟨hset, hrest⟩ := opPart_append (slash_notin_settings det prec).1 rest
  have hchars : ∀ det prec : Fin 3, [digit det, 44, digit prec].filter
      (fun c => c = 48 ∨ c = 49 ∨ c = 50) = [digit det, digit prec] := by decide
  have hdigit : ∀ d : Fin 3, digit d - 48 = UInt8.ofNat d.val := by decide
  have hpart : restPart (keyText op det prec rest) = rest := by
    unfold restPart keyText
    rw [hbehind]
    exact hrest
  refine ⟨?_, hpart, ?_⟩
  · unfold keyText frontBytes settingBytes settingChars
    rw [hop, hbehind, show digit det :: 44 :: digit prec :: slash :: rest =
      [digit det, 44, digit prec] ++ slash :: rest from rfl, hset, hchars, flatMap_cons,
      flatMap_cons, hdigit, hdigit, flatMap_nil, append_nil]
  · unfold restStart
    rw [hpart]
    unfold keyText restPosition
    rw [length_append]
    simp only [length_cons]
    omega

variable (op : Name) {t : List Byte}

theorem text_keyText (det prec : Fin 3) {rest : List Byte} (h : 0 ∉ rest) :
    text (keyText op det prec rest) = keyText op det prec rest := by
  unfold text
  rw [takeWhile_eq_self_iff]
  intro c hc
  rw [decide_eq_true_eq]
  rintro rfl
  rcases mem_append.mp hc with hop | hc
  · exact op.property.1 hop
  · rcases mem_cons.mp hc with heq | hc
    · cases heq
    · rcases mem_append.mp
        (show (0 : Byte) ∈ [digit det, 44, digit prec] ++ slash :: rest from hc) with hset | hc
      · exact (slash_notin_settings det prec).2 hset
      · rcases mem_cons.mp hc with heq | hrest
        · cases heq
        · exact h hrest

/-! ## Dynamic keys -/

/-- A number as text. -/
def decimal (n : Nat) : List Byte := (Nat.toDigits 10 n).map fun c => UInt8.ofNat c.toNat

/-- A character that ends a decimal number. -/
abbrev DecimalSeparator := { c : Byte // c ≠ 0 ∧ ¬ (48 ≤ c ∧ c ≤ 57) }

/-- Numbers with a separator between two of them. -/
def numbersText (items : List (DecimalSeparator × Nat)) : List Byte :=
  (items.flatMap fun x => x.1.val :: decimal x.2).tail

theorem dynamicChar_digit (i : Nat) (key : List Byte) (n : Nat) (b : Bool) {d : Nat} (hd : d < 10) :
    dynamicChar i (UInt8.ofNat (Nat.digitChar d).toNat) key ⟨UInt8.ofNat n, b⟩ =
      some (key, ⟨UInt8.ofNat (10 * n + d), true⟩) := by
  have hdigits : ∀ d : Fin 10, 48 ≤ UInt8.ofNat (48 + d.val) ∧ UInt8.ofNat (48 + d.val) ≤ 57 := by
    decide
  unfold dynamicChar
  rw [Nat.toNat_digitChar_of_lt_ten hd, if_pos (hdigits ⟨d, hd⟩), UInt8.ofNat_add, UInt8.ofNat_add,
    UInt8.ofNat_mul]
  have h48 : UInt8.ofNat 48 = 48 := rfl
  have h10 : UInt8.ofNat 10 = 10 := rfl
  rw [h48, h10, UInt8.mul_comm, UInt8.add_comm 48, ← UInt8.add_assoc, UInt8.add_sub_cancel]

theorem scan_decimal (i : Nat) (key : List Byte) (n : Nat) (b : Bool) :
    scan append dynamicChar i ⟨.rest, key, ⟨0, b⟩⟩ (decimal n) =
      some ⟨.rest, key, ⟨UInt8.ofNat n, true⟩⟩ := by
  induction n using Nat.strong_induction_on generalizing b with
  | _ n ih =>
    unfold decimal
    rw [Nat.toDigits_eq_if (by decide)]
    split
    next hlt =>
      have hstep := dynamicChar_digit i key 0 b hlt
      rw [Nat.mul_zero, Nat.zero_add] at hstep
      rw [map_singleton, scan_rest_cons]
      exact congrArg (Option.bind · _) hstep
    next hge =>
      have hfront := ih (n / 10) (by omega) b
      rw [map_append, scan_append]
      unfold decimal at hfront
      rw [hfront, map_singleton, Option.bind_some, scan_rest_cons,
        dynamicChar_digit _ _ _ _ (Nat.mod_lt n (by decide)), Nat.div_add_mod]
      rfl

theorem scan_numbers (i : Nat) (key : List Byte) (type : Byte)
    (items : List (DecimalSeparator × Nat)) :
    (scan append dynamicChar i ⟨.rest, key, ⟨type, true⟩⟩
        (items.flatMap fun x => x.1.val :: decimal x.2)).map (fun s => dynamicEnd s.key s.st) =
      some (key ++ type :: items.map fun x => UInt8.ofNat x.2) := by
  induction items generalizing i key type with
  | nil => rfl
  | cons x items ih =>
    rw [flatMap_cons, cons_append, scan_rest_cons]
    have hsep : dynamicChar i x.1.val key ⟨type, true⟩ = some (key ++ [type], ⟨0, true⟩) :=
      if_neg x.1.property.2
    rw [hsep, Option.bind_some, scan_append, scan_decimal, Option.bind_some, ih, map_cons,
      append_assoc]
    rfl

/-- The bytes of a dynamic key. -/
def dynamicBytes (op : Name) (det prec : Fin 3) (numbers : List Nat) : List Byte :=
  op.val ++ [UInt8.ofNat det.val, UInt8.ofNat prec.val] ++ numbers.map UInt8.ofNat

theorem zero_notin_decimal (n : Nat) : 0 ∉ decimal n := by
  intro h
  obtain ⟨c, hc, hzero⟩ := mem_map.mp h
  have hdigit := Nat.isDigit_of_mem_toDigits (by decide) (by decide) hc
  unfold Char.isDigit at hdigit
  rw [Bool.and_eq_true, decide_eq_true_eq, decide_eq_true_eq] at hdigit
  have hlow : 48 ≤ c.toNat := UInt32.le_iff_toNat_le.mp hdigit.1
  have hhigh : c.toNat ≤ 57 := UInt32.le_iff_toNat_le.mp hdigit.2
  have hnat := congrArg UInt8.toNat hzero
  rw [UInt8.toNat_ofNat'] at hnat
  have h0 : UInt8.toNat 0 = 0 := rfl
  omega

theorem zero_notin_numbersText (items : List (DecimalSeparator × Nat)) : 0 ∉ numbersText items := by
  intro h
  obtain ⟨x, -, hx⟩ := mem_flatMap.mp (mem_of_mem_tail h)
  rcases mem_cons.mp hx with heq | hmem
  · exact x.1.property.1 heq.symm
  · exact zero_notin_decimal x.2 hmem

/-- The text of a dynamic key becomes the bytes of its numbers. -/
theorem convertDynamicVerbKey_text (det prec : Fin 3) (items : List (DecimalSeparator × Nat)) :
    convertDynamicVerbKey (keyText op det prec (numbersText items)) =
      some (sized (dynamicBytes op det prec (items.map Prod.snd))) := by
  obtain ⟨hfront, hpart, hstart⟩ :=
    keyText_parts (fun d => [d]) op det prec (numbersText items)
  rw [convertDynamicVerbKey_eq, text_keyText op det prec (zero_notin_numbersText items), hfront,
    hpart, hstart]
  refine Option.map_eq_some_iff.mpr ⟨_, ?_, rfl⟩
  cases items with
  | nil => exact congrArg some (append_nil _).symm
  | cons x items =>
    show (scan _ _ _ _ (decimal x.2 ++ items.flatMap fun x => x.1.val :: decimal x.2)).map _ = _
    rw [scan_append, scan_decimal, Option.bind_some, scan_numbers]
    unfold dynamicBytes
    rw [map_cons, map_cons, map_map]
    rfl

/-! ## Static keys -/

/-- What a static key has for a null tensor, or a numeral. -/
inductive Token where
  | null
  | numeral (digits : { ds : List (Fin 16) // ds ≠ [] })

def Token.text : Token → List Byte
  | null => [underscore]
  | numeral ds => ds.val.map hexChar

/-- The number of the numeral. -/
def digitsValue (ds : List (Fin 16)) : Nat := Nat.ofDigits 16 (ds.reverse.map Fin.val)

/-- The words of a token: a word for 16 digits, the lowest first. -/
def Token.words : Token → List Byte
  | null => le8 nullMark
  | numeral ds => wordsOf ((ds.val.length + 15) / 16) (digitsValue ds.val)

/-- A character that ends a numeral. -/
abbrev HexSeparator := { c : Byte // c ≠ 0 ∧ IsSeparator c }

/-- Tokens with a separator between two of them. -/
def tokensText (items : List (HexSeparator × Token)) : List Byte :=
  (items.flatMap fun x => x.1.val :: x.2.text).tail

/-- The bytes of a static key. -/
def staticBytes (op : Name) (det prec : Fin 3) (tokens : List Token) : List Byte :=
  op.val ++ (le8 (UInt64.ofNat det.val) ++ le8 (UInt64.ofNat prec.val)) ++
    tokens.flatMap Token.words

/-- Numerals of 16 digits or more end in front of position 2³¹, the first token beginning at
`p`. -/
def EndEarly : Nat → List (HexSeparator × Token) → Prop
  | _, [] => True
  | p, x :: items =>
    (16 ≤ x.2.text.length → p + x.2.text.length ≤ 2 ^ 31) ∧ EndEarly (p + x.2.text.length + 1) items

theorem digits_numeral (ds : List (Fin 16)) :
    (∀ c ∈ ds.map hexChar, (hexDigit c).isSome) ∧
      numeralBytes (ds.map hexChar) = wordsOf ((ds.length + 15) / 16) (digitsValue ds) := by
  have hdigits : digitsOf (ds.map hexChar) = ds.map fun d => UInt8.ofNat d.val := by
    unfold digitsOf
    rw [filterMap_map, ← filterMap_eq_map']
    exact filterMap_congr fun d _ => hexDigit_hexChar d
  have hval : ∀ d : Fin 16, (UInt8.ofNat d.val).toNat = d.val := by decide
  constructor
  · intro c hc
    obtain ⟨d, -, rfl⟩ := mem_map.mp hc
    rw [hexDigit_hexChar]
    rfl
  · unfold numeralBytes hexValue digitsValue
    rw [hdigits, length_map, ← map_reverse, map_map]
    congr 3
    exact funext hval

theorem token_adds {back : List Byte} (tok : Token) (ht : t = front ++ tok.text ++ back)
    (hpos : 16 ≤ tok.text.length → front.length + tok.text.length ≤ 2 ^ 31) :
    Adds t front.length tok.text tok.words := by
  cases tok with
  | null =>
    have hmark : ∀ c ∈ [underscore], isWordChar c := forall_mem_singleton.mpr (by decide)
    exact adds_short front.length hmark (by decide)
  | numeral ds =>
    obtain ⟨hds, hwords⟩ := digits_numeral ds.val
    have hadds := adds_digits hds ht hpos
    rwa [hwords] at hadds

theorem token_lost {p : Nat} (tok : Token) (h : 16 ≤ tok.text.length)
    (hlow : 2 ^ 31 < p + tok.text.length) (hhigh : p + tok.text.length ≤ 2 ^ 32) :
    (Adds t p tok.text [] ∨ Refuses t p tok.text) ∧ 0 < tok.words.length := by
  cases tok with
  | null => exact absurd h (by decide)
  | numeral ds =>
    refine ⟨adds_nothing (digits_numeral ds.val).1 h hlow hhigh, ?_⟩
    rw [show (Token.numeral ds).text = ds.val.map hexChar from rfl, length_map] at h
    unfold Token.words
    rw [length_wordsOf]
    omega

/-- The segments of the tokens behind the first. -/
def segmentsOf (items : List (HexSeparator × Token)) : List (Byte × List Byte) :=
  items.map fun x => (x.1.val, x.2.text)

variable {items : List (HexSeparator × Token)}

theorem separator_segmentsOf : ∀ x ∈ segmentsOf items, IsSeparator x.1 := by
  intro x hx
  obtain ⟨y, -, rfl⟩ := mem_map.mp hx
  exact y.1.property.2

theorem joined_nil (seg : List Byte) : joined seg (segmentsOf []) = seg := append_nil seg

theorem tokensText_cons (x : HexSeparator × Token) (items : List (HexSeparator × Token)) :
    tokensText (x :: items) = joined x.2.text (segmentsOf items) := by
  unfold joined segmentsOf
  rw [flatMap_map]
  rfl

theorem tokens_add (sep : HexSeparator) (tok : Token) (items : List (HexSeparator × Token))
    (ht : t = front ++ joined tok.text (segmentsOf items))
    (hend : EndEarly front.length ((sep, tok) :: items)) :
    Adds t front.length (joined tok.text (segmentsOf items))
      (tok.words ++ items.flatMap (·.2.words)) := by
  induction items generalizing tok front sep with
  | nil =>
    rw [joined_nil] at ht ⊢
    rw [flatMap_nil, append_nil]
    rw [← append_nil (front ++ tok.text)] at ht
    exact token_adds tok ht hend.1
  | cons x items ih =>
    obtain ⟨ht₁, ht₂, hlen⟩ := behind_first ht
    have hrest := ih x.1 x.2 ht₂ (by rw [hlen]; exact hend.2)
    rw [hlen] at hrest
    intro key
    have hfirst := segmentKey_joined_adds x.1.property.2 (token_adds tok ht₁ hend.1) x.2.text
      (segmentsOf items) key
    refine hfirst.trans ((hrest _).trans ?_)
    rw [flatMap_cons, append_assoc]

theorem token_outcome {back : List Byte} (hmax : t.length ≤ 2 ^ 32) (tok : Token)
    (ht : t = front ++ tok.text ++ back) :
    Refuses t front.length tok.text ∨
      ∃ bytes, Adds t front.length tok.text bytes ∧ bytes.length ≤ tok.words.length ∧
        (bytes.length = tok.words.length →
          16 ≤ tok.text.length → front.length + tok.text.length ≤ 2 ^ 31) := by
  rw [ht, length_append, length_append] at hmax
  by_cases hearly : 16 ≤ tok.text.length → front.length + tok.text.length ≤ 2 ^ 31
  · exact .inr ⟨_, token_adds tok ht hearly, Nat.le_refl _, fun _ => hearly⟩
  · obtain ⟨hlong, hlate⟩ := Classical.not_imp.mp hearly
    obtain ⟨hlost, hwords⟩ := token_lost (t := t) tok hlong (Nat.lt_of_not_le hlate) (by omega)
    refine hlost.symm.imp_right fun hadds => ⟨[], hadds, Nat.zero_le _, fun heq => ?_⟩
    rw [← heq] at hwords
    exact absurd hwords (Nat.lt_irrefl 0)

/-- By induction on the tokens: the text is refused, or adds at most their words, and all of them
only if every numeral ends early. -/
theorem tokens_outcome (hmax : t.length ≤ 2 ^ 32) (sep : HexSeparator) (tok : Token)
    (items : List (HexSeparator × Token)) (ht : t = front ++ joined tok.text (segmentsOf items)) :
    Refuses t front.length (joined tok.text (segmentsOf items)) ∨
      ∃ bytes, Adds t front.length (joined tok.text (segmentsOf items)) bytes ∧
        bytes.length ≤ (tok.words ++ items.flatMap (·.2.words)).length ∧
        (bytes.length = (tok.words ++ items.flatMap (·.2.words)).length →
          EndEarly front.length ((sep, tok) :: items)) := by
  induction items generalizing tok front sep with
  | nil =>
    rw [joined_nil] at ht ⊢
    rw [flatMap_nil, append_nil]
    have ht' : t = front ++ tok.text ++ [] := by rwa [append_nil]
    refine (token_outcome hmax tok ht').imp_right ?_
    exact fun ⟨bytes, hadds, hle, hiff⟩ => ⟨bytes, hadds, hle, fun heq => ⟨hiff heq, trivial⟩⟩
  | cons x items ih =>
    obtain ⟨ht₁, ht₂, hlen⟩ := behind_first ht
    have hrest := ih x.1 x.2 ht₂
    rw [hlen] at hrest
    rcases token_outcome hmax tok ht₁ with hrefuses | ⟨bytes, hadds, hle, hiff⟩
    · exact .inl (refuses_joined hrefuses separator_segmentsOf)
    · have hfirst := segmentKey_joined_adds x.1.property.2 hadds x.2.text (segmentsOf items)
      rcases hrest with hrefuses | ⟨more, hmore, hmoreLe, hmoreIff⟩
      · exact .inl fun key => (hfirst key).trans (hrefuses _)
      · refine .inr ⟨bytes ++ more, fun key => ?_, ?_, fun heq => ?_⟩
        · rw [← append_assoc]
          exact (hfirst key).trans (hmore _)
        · rw [length_append, length_append, flatMap_cons]
          omega
        · rw [length_append, length_append, flatMap_cons] at heq
          exact ⟨hiff (by omega), hmoreIff (by omega)⟩

/-! ## Texts and keys -/

/-- The text is converted into the key. -/
def StaticAgrees (op : Name) (det prec : Fin 3) (items : List (HexSeparator × Token)) : Prop :=
  convertStaticVerbKey (keyText op det prec (tokensText items)) =
    some (sized (staticBytes op det prec (items.map Prod.snd)))

theorem zero_notin_tokensText (items : List (HexSeparator × Token)) : 0 ∉ tokensText items := by
  intro h
  obtain ⟨x, -, hx⟩ := mem_flatMap.mp (mem_of_mem_tail h)
  rcases mem_cons.mp hx with heq | hmem
  · exact x.1.property.1 heq.symm
  · cases htok : x.2 with
    | null =>
      rw [htok] at hmem
      exact absurd hmem (by decide)
    | numeral ds =>
      rw [htok] at hmem
      obtain ⟨d, -, hd⟩ := mem_map.mp hmem
      revert d
      decide

theorem convertStaticVerbKey_text (det prec : Fin 3) (items : List (HexSeparator × Token)) :
    convertStaticVerbKey (keyText op det prec (tokensText items)) =
      (segmentKey (keyText op det prec (tokensText items)) (restPosition op) (tokensText items)
        (op.val ++ (le8 (UInt64.ofNat det.val) ++ le8 (UInt64.ofNat prec.val)))).map
          fun r => sized r.1 := by
  obtain ⟨hfront, hpart, hstart⟩ := keyText_parts settingWord op det prec (tokensText items)
  have hword : ∀ d : Fin 3, settingWord (UInt8.ofNat d.val) = le8 (UInt64.ofNat d.val) := by decide
  rw [convertStaticVerbKey_segment, text_keyText op det prec (zero_notin_tokensText items), hfront,
    hpart, hstart, hword, hword]

theorem keyText_split (det prec : Fin 3) :
    ∃ front : List Byte, front.length = restPosition op ∧
      ∀ rest, keyText op det prec rest = front ++ rest := by
  refine ⟨op.val ++ [slash, digit det, 44, digit prec, slash], ?_, fun rest => ?_⟩
  · rw [length_append]
    rfl
  · rw [append_assoc]
    rfl

/-- If every numeral ends early, the text becomes the words of its tokens. -/
theorem staticAgrees_of_endEarly (det prec : Fin 3)
    (h : EndEarly (restPosition op) items) : StaticAgrees op det prec items := by
  obtain ⟨front, hfront, hsplit⟩ := keyText_split op det prec
  unfold StaticAgrees
  rw [convertStaticVerbKey_text]
  cases items with
  | nil =>
    have hadds : Adds (keyText op det prec (tokensText [])) (restPosition op) [] _ :=
      adds_short _ (fun _ h => (nomatch h)) (by decide)
    exact congrArg (Option.map fun r => sized r.1) (hadds _)
  | cons x items =>
    rw [← hfront] at h ⊢
    rw [tokensText_cons]
    have hadds := tokens_add x.1 x.2 items (hsplit _) h
    refine (congrArg (Option.map fun r => sized r.1) (hadds _)).trans ?_
    unfold staticBytes
    rw [map_cons, flatMap_cons, flatMap_map]
    rfl

/-- Up to 4 GiB, only such texts do. -/
theorem endEarly_of_staticAgrees (det prec : Fin 3)
    (hmax : (keyText op det prec (tokensText items)).length ≤ 2 ^ 32)
    (h : StaticAgrees op det prec items) : EndEarly (restPosition op) items := by
  obtain ⟨front, hfront, hsplit⟩ := keyText_split op det prec
  unfold StaticAgrees at h
  rw [convertStaticVerbKey_text] at h
  cases items with
  | nil => trivial
  | cons x items =>
    rw [tokensText_cons] at h hmax
    rw [← hfront] at h ⊢
    rcases tokens_outcome hmax x.1 x.2 items (hsplit _) with hrefuses | ⟨bytes, hadds, -, hiff⟩
    · have hnone := congrArg (Option.map fun r => sized r.1) (hrefuses
        (op.val ++ (le8 (UInt64.ofNat det.val) ++ le8 (UInt64.ofNat prec.val))))
      cases hnone.symm.trans h
    · have hsome := congrArg (Option.map fun r => sized r.1) (hadds
        (op.val ++ (le8 (UInt64.ofNat det.val) ++ le8 (UInt64.ofNat prec.val))))
      have heq := congrArg Prod.fst (Option.some.inj (hsome.symm.trans h))
      unfold sized staticBytes at heq
      rw [map_cons, flatMap_cons, flatMap_map] at heq
      exact hiff (congrArg List.length (append_cancel_left heq))

end OpBase.Indv.VerbKey
