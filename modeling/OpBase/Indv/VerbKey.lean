import OpBase.Indv.BinKey
import OpBase.Lib.Hex

/-!
# The keys in kernel files

`individual_op/executor/indv_collecter.cpp`: a kernel file has its key as text, the op type,
the settings and the rest behind one slash each. `NnopbaseCollecterAddRepoInfo` converts it
into the bytes that an executor looks the kernel up with, with one of three scanners. They
have the first two parts in common, but for the width of a setting. Behind the second slash
a customized key is copied; a dynamic key is a list of decimal numbers, a byte each; a static
key is a list of hexadecimal numerals and of `'_'`, with a word each.

A numeral of 16 digits or more is not converted while it is read: `start` remembers where it
begins, and at its end `NnopbaseBeyond8BtyeCopy` goes through it once more from the right.
Positions are 32-bit integers there. A read in front of the text or behind it is `none`; a
shift by 64 bits or more is one by the rest modulo 64, as on the machines this runs on.
-/

namespace OpBase.Indv.VerbKey

open OpBase.Lib
open OpBase.Indv.BinKey (nullMark)

/-- `'/'`. -/
def slash : Byte := 47

/-- `'_'`. -/
def underscore : Byte := 95

/-- What `strlen` counts. -/
def text (strKey : List Byte) : List Byte := strKey.takeWhile (· ≠ 0)

/-! ## The parts -/

/-- `index`: `NNOPBASE_OP_TYPE_INDEX`, `NNOPBASE_COMPILE_ARGS_INDEX` or more. -/
inductive Index where
  | opType | compileArgs | rest
deriving DecidableEq

/-- A scanner between two characters; `st` is what the part behind the second slash needs. -/
structure Scan (σ : Type) where
  index : Index
  key : List Byte
  st : σ

/-- What a scanner does with a character behind the second slash, at a position. -/
abbrev RestChar (σ : Type) := Nat → Byte → List Byte → σ → Option (List Byte × σ)

section

variable {σ : Type} (append : Byte → List Byte) (restChar : RestChar σ)

def opTypeChar (s : Scan σ) (c : Byte) : Scan σ :=
  if c ≠ slash then { s with key := s.key ++ [c] } else { s with index := .compileArgs }

def compileArgsChar (s : Scan σ) (c : Byte) : Scan σ :=
  if c ≠ slash then
    if c = 48 ∨ c = 49 ∨ c = 50 then { s with key := s.key ++ append (c - 48) } else s
  else { s with index := .rest }

/-- The body of the loops. -/
def scanChar (i : Nat) (s : Scan σ) (c : Byte) : Option (Scan σ) :=
  match s.index with
  | .opType => some (opTypeChar s c)
  | .compileArgs => some (compileArgsChar append s c)
  | .rest => (restChar i c s.key s.st).map fun r => ⟨.rest, r.1, r.2⟩

/-- The loops, from a position on. -/
def scan : Nat → Scan σ → List Byte → Option (Scan σ)
  | _, s, [] => some s
  | i, s, c :: cs => (scanChar append restChar i s c).bind fun s => scan (i + 1) s cs

end

/-- The key and `size`. -/
def sized (key : List Byte) : List Byte × UInt32 := (key, UInt32.ofNat key.length)

/-! ## Customized and dynamic keys -/

/-- `NnopbaseCollecterConvertCustomizedVerbKey`. -/
def convertCustomizedVerbKey (strKey : List Byte) : Option (List Byte × UInt32) :=
  (scan (fun d => [d]) (fun _ c key st => some (key ++ [c], st)) 0 ⟨.opType, [], ()⟩
    (text strKey)).map fun s => sized s.key

/-- What a dynamic key needs behind the second slash. -/
structure DynamicScan where
  type : Byte
  isReplayStaticKey : Bool
deriving DecidableEq

def dynamicChar : RestChar DynamicScan := fun _ c key st =>
  if 48 ≤ c ∧ c ≤ 57 then some (key, ⟨st.type * 10 + c - 48, true⟩)
  else some (key ++ [st.type], ⟨0, true⟩)

/-- The last number. -/
def dynamicEnd (key : List Byte) (st : DynamicScan) : List Byte :=
  if st.isReplayStaticKey then key ++ [st.type] else key

/-- `NnopbaseCollecterConvertDynamicVerbKey`. -/
def convertDynamicVerbKey (strKey : List Byte) : Option (List Byte × UInt32) :=
  (scan (fun d => [d]) dynamicChar 0 ⟨.opType, [], ⟨0, false⟩⟩ (text strKey)).map
    fun s => sized (dynamicEnd s.key s.st)

/-! ## Static keys -/

/-- What `NnopbaseBeyond8BtyeCopy` has between two characters. -/
structure Beyond where
  type : UInt64
  bitNum : Nat
  j : Nat
  verKey : List Byte

def beyondDigit (s : Beyond) (c : Byte) : Beyond :=
  match hexDigit c with
  | some d =>
    { s with type := s.type ||| d.toUInt64 <<< UInt64.ofNat (4 * s.j), bitNum := s.bitNum + 1 }
  | none => s

def beyondWord (s : Beyond) : Beyond :=
  if s.bitNum = 16 then ⟨0, 0, 0, s.verKey ++ le8 s.type⟩ else s

def beyondChar (s : Beyond) (c : Byte) : Beyond :=
  let s := beyondDigit s c
  beyondWord { s with j := s.j + 1 }

def beyondEnd (s : Beyond) : List Byte :=
  if 0 < s.bitNum then s.verKey ++ le8 s.type else s.verKey

/-- `NnopbaseBeyond8BtyeCopy`. -/
def beyond8BtyeCopy (start last : ℤ) (strKey verKey : List Byte) : Option (List Byte) :=
  if last < start then some verKey
  else if start < 0 ∨ strKey.length ≤ last then none
  else
    let chars := (strKey.drop start.toNat).take (last - start + 1).toNat
    some (beyondEnd (chars.reverse.foldl beyondChar ⟨0, 0, 0, verKey⟩))

/-- What a static key needs behind the second slash. -/
structure StaticScan where
  type : UInt64
  bitNum : Nat
  isAppend : Bool
  start : ℤ
deriving DecidableEq

/-- Between two numerals. -/
def StaticScan.clean : StaticScan := ⟨0, 0, false, -1⟩

/-- A numeral of 16 digits or more ends in front of the position. -/
def copyBeyond (strKey : List Byte) (i : Nat) (key : List Byte) (st : StaticScan) :
    Option (List Byte × StaticScan) :=
  if st.start ≠ -1 then
    (beyond8BtyeCopy st.start (asInt32 (i - 1)) strKey key).map fun key => (key, .clean)
  else some (key, st)

/-- A shorter one does. -/
def appendType (key : List Byte) (st : StaticScan) : List Byte × StaticScan :=
  if st.isAppend then (key ++ le8 st.type, { st with type := 0, bitNum := 0, isAppend := false })
  else (key, st)

/-- A numeral ends in front of the position. -/
def numeralEnd (strKey : List Byte) (i : Nat) (key : List Byte) (st : StaticScan) :
    Option (List Byte × StaticScan) :=
  (copyBeyond strKey i key st).map fun r => appendType r.1 r.2

/-- After 16 digits. -/
def sixteenDigits (i : Nat) (st : StaticScan) : StaticScan :=
  if st.bitNum = 16 then ⟨0, 0, false, if st.start = -1 then asInt32 i - 15 else st.start⟩ else st

def staticChar (strKey : List Byte) : RestChar StaticScan := fun i c key st =>
  if c = underscore then some (key ++ le8 nullMark, st)
  else
    match hexDigit c with
    | some d =>
      some (key, sixteenDigits i ⟨st.type <<< 4 ||| d.toUInt64, st.bitNum + 1, true, st.start⟩)
    | none => (numeralEnd strKey i key st).map fun r => (r.1, sixteenDigits i r.2)

/-- `NnopbaseCollecterConvertStaticVerbKey`. -/
def convertStaticVerbKey (strKey : List Byte) : Option (List Byte × UInt32) := do
  let s ← scan (fun d => le8 d.toUInt64) (staticChar (text strKey)) 0 ⟨.opType, [], .clean⟩
    (text strKey)
  let r ← numeralEnd (text strKey) (text strKey).length s.key s.st
  return sized r.1

end OpBase.Indv.VerbKey
