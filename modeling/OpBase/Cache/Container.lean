import OpBase.Lib.Hlist
import OpBase.Lib.Ring
import OpBase.Lib.Run

/-!
# The cache container

`include/nnopbase/opdev/op_cache_container.h`: `OpCacheContainer` is a hash table
whose entries carry their own links, one pair for the bucket chain (`HlistNode`)
and one pair for the recency list (`ListHead`), which hangs on the sentinel of
`lru_`.

The model keeps the links as they are: `Lib.Hlist` for the chains, `Lib.Ring` for
the recency list, entries addressed by allocation order. What the container is
*for* is the abstract `Lru`: a list of values, most recently touched first, no
two with equal keys. `container_refines` says that every sequence of operations
takes the one to a representation of the other.
-/

namespace OpBase.Cache

open Function (update)
open OpBase.Lib

variable {K V : Type}

/-- A key type with its hasher and its equality, and the key part of a value.
The pair is lawful: equal keys have equal hashes. -/
structure Traits (K V : Type) where
  key : V → K
  hash : K → Nat
  equal : K → K → Bool
  equal_refl : ∀ a, equal a a
  equal_symm : ∀ a b, equal a b → equal b a
  equal_trans : ∀ a b c, equal a b → equal b c → equal a c
  hash_eq : ∀ a b, equal a b → hash a = hash b

/-! ## The table size -/

/-- `primeList`. -/
def primeList : List Nat :=
  [2, 3, 5, 7, 11, 13, 17, 19, 23, 29, 31, 37, 41, 43, 47, 53, 59, 61, 67, 71, 73, 79, 83, 89, 97,
   103, 109, 113, 127, 137, 139, 149, 157, 167, 179, 193, 199, 211, 227, 241, 257, 277, 293, 313,
   337, 359, 383, 409, 439, 467, 503, 541, 577, 619, 661, 709, 761, 823, 887, 953, 1031, 1109,
   1193, 1289, 1381, 1493, 1613, 1741, 1879, 2029, 2179, 2357, 2549, 2753, 2971, 3209, 3469, 3739,
   4027, 4349, 4703, 5087, 5503, 5953, 6427, 6949, 7517, 8123, 8783, 9497, 10273, 11113, 12011,
   12983, 14033, 15173, 16411, 17749, 19183, 20753, 22447, 24281, 26267, 28411, 30727, 33223,
   35933, 38873, 42043, 45481, 49201, 53201, 57557, 62233, 67307, 72817, 78779, 85229, 92203,
   99733, 107897, 116731, 126271, 136607, 147793, 159871, 172933, 187091, 202409, 218971, 236897,
   256279, 277261, 299951, 324503, 351061, 379787, 410857, 444487, 480881, 520241, 562841, 608903,
   658753, 712697, 771049, 834181, 902483, 976369, 1056323, 1142821, 1236397, 1337629, 1447153,
   1565659, 1693859, 1832561, 1982627, 2144977, 2320627, 2510653, 2716249, 2938679, 3179303,
   3439651, 3721303, 4026031, 4355707, 4712381, 5098259, 5515729, 5967347, 6456007, 6984629,
   7556579, 8175383, 8844859, 9569143, 10352717, 11200489, 12117689, 13109983, 14183539, 15345007,
   16601593, 17961079, 19431899, 21023161, 22744717, 24607243, 26622317, 28802401, 31160981,
   33712729, 36473443, 39460231, 42691603, 46187573, 49969847, 54061849, 58488943, 63278561,
   68460391, 74066549, 80131819, 86693767, 93793069, 101473717, 109783337, 118773397, 128499677,
   139022417, 150406843, 162723577, 176048909, 190465427, 206062531, 222936881, 241193053,
   260944219, 282312799, 305431229, 330442829, 357502601, 386778277, 418451333, 452718089,
   489790921, 529899637, 573292817, 620239453, 671030513, 725980837, 785430967, 849749479,
   919334987, 994618837, 1076067617, 1164186217, 1259520799, 1362662261, 1474249943, 1594975441,
   1725587117, 1866894511, 2019773507, 2185171673, 2364114217, 2557710269, 2767159799, 2993761039,
   3238918481, 3504151727, 3791104843, 4101556399, 4294967291]

/-- `*std::lower_bound(primeList, primeList + size - 1, n)`: the first listed prime
that is not below `n`; the search leaves the last prime out, so it is also what
the end position holds. -/
def lowerBound (n : Nat) : Nat := (primeList.dropLast.find? (n ≤ ·)).getD 4294967291

/-- The `while` loop of `init`, with a bound on its rounds. -/
def growPast (capacity : Nat) : Nat → Nat → Option Nat
  | 0, _ => none
  | fuel + 1, n => if n ≤ capacity then growPast capacity fuel (lowerBound n * 2) else some n

/-- The bucket count `init` chooses. -/
def initBucketNum (capacity : Nat) : Option Nat := (growPast capacity 64 3).map lowerBound

def kCacheLimit : Nat := 10000

def kMaxCacheLimit : Nat := 10000000

def isSpace (c : Char) : Bool := c = ' ' || (9 ≤ c.toNat && c.toNat ≤ 13)

/-- `std::stoull` in base ten; `none` is an exception. -/
def stoull (str : List Char) : Option Nat :=
  let s := str.dropWhile isSpace
  let digits := (if s.head? = some '-' ∨ s.head? = some '+' then s.tail else s).takeWhile
    Char.isDigit
  let value := digits.foldl (fun n c => n * 10 + (c.toNat - '0'.toNat)) 0
  if digits = [] ∨ 2 ^ 64 ≤ value then none
  else some (if s.head? = some '-' then (2 ^ 64 - value) % 2 ^ 64 else value)

example : stoull " -5x".toList = some (2 ^ 64 - 5) := by decide

/-- `GetCacheSizeLimit` of `op_cache.cpp`, by what the environment sets; a build for tests (`ut`)
has a default of its own. -/
def getCacheSizeLimit (ut : Bool) (cacheLimit : Option (List Char)) : Nat :=
  min kMaxCacheLimit ((cacheLimit.bind stoull).getD (if ut then 1 else kCacheLimit))

/-! ## The container -/

/-- The entries by address, the recency list on the sentinel `none`, the bucket
chains, and the counters. -/
structure Container (V : Type) where
  value : Nat → V
  nextId : Nat
  lru : Links (Option Nat)
  hlist : Hlist Nat Nat
  entryNum : Nat
  bucketNum : Nat

namespace Container

/-- A constructed container after `init(capacity)`. -/
def init [Inhabited V] (capacity : Nat) : Option (Container V) :=
  (initBucketNum capacity).map fun bucketNum =>
    { value := fun _ => default
      nextId := 0
      lru := ⟨id, id⟩
      hlist := ⟨fun _ => none, fun _ => .first 0⟩
      entryNum := 0
      bucketNum := bucketNum }

def bucket (c : Container V) (T : Traits K V) (key : K) : Nat := T.hash key % c.bucketNum

/-- `new value_type(...)`: an entry that is linked nowhere. -/
def alloc (c : Container V) (v : V) : Nat × Container V :=
  (c.nextId,
    { c with
      value := update c.value c.nextId v
      nextId := c.nextId + 1
      lru := c.lru.init (some c.nextId)
      hlist := { c.hlist with cell := update c.hlist.cell (.next c.nextId) none } })

/-- `Lru::Active`. -/
def active (c : Container V) (p : Nat) : Container V :=
  { c with lru := (c.lru.del (some p)).add (some p) none }

/-- The walk down a bucket chain. A chain holds each entry once, so as many steps
as there are entries, and one to see the end, are enough. -/
def scan (c : Container V) (T : Traits K V) (key : K) : Option (Option Nat) :=
  c.hlist.scan (fun p => T.equal key (T.key (c.value p))) (c.nextId + 1) (.first (c.bucket T key))

/-- The loop that `find`, `insert` and `operator[]` share: walk the bucket of `key`
and touch the entry found. The outer `none` would be a walk that does not end. -/
def lookup (c : Container V) (T : Traits K V) (key : K) : Option (Option Nat × Container V) :=
  match c.scan T key with
  | none => none
  | some none => some (none, c)
  | some (some p) => some (some p, c.active p)

/-- The part that `insert` and `operator[]` share when there is no such entry. -/
def addEntry (c : Container V) (T : Traits K V) (key : K) (v : V) : Nat × Container V :=
  let (pv, c) := c.alloc v
  let c := { c with hlist := c.hlist.add (c.bucket T key) pv }
  let c := c.active pv
  (pv, { c with entryNum := c.entryNum + 1 })

def find (c : Container V) (T : Traits K V) (key : K) : Option (Option Nat × Container V) :=
  c.lookup T key

def insert (c : Container V) (T : Traits K V) (v : V) : Option ((Nat × Bool) × Container V) :=
  match c.lookup T (T.key v) with
  | none => none
  | some (some p, c) => some ((p, false), c)
  | some (none, c) =>
    let (pv, c) := c.addEntry T (T.key v) v
    some ((pv, true), c)

/-- `operator[]`. -/
def index [Inhabited V] (c : Container V) (T : Traits K V) (key : K) : Option (Nat × Container V) :=
  match c.lookup T key with
  | none => none
  | some (some p, c) => some (p, c)
  | some (none, c) => some (c.addEntry T key default)

/-- `c[key] = v`; the assignment operator of a value leaves its links alone. -/
def assign [Inhabited V] (c : Container V) (T : Traits K V) (key : K) (v : V) :
    Option (Container V) :=
  (c.index T key).map fun (p, c) => { c with value := update c.value p v }

/-- `erase(*p)`. -/
def erase (c : Container V) (p : Nat) : Container V :=
  { c with hlist := c.hlist.del p, lru := c.lru.del (some p), entryNum := c.entryNum - 1 }

/-- `begin()`, or `none` for `end()`. -/
def begin (c : Container V) : Option Nat := if c.entryNum = 0 then none else c.lru.next none

/-- `rbegin()`, or `none` for `rend()`. -/
def rbegin (c : Container V) : Option Nat := if c.entryNum = 0 then none else c.lru.prev none

end Container

/-- An operation on the container. The value of an assignment carries the key it
is assigned to; the entry to erase is named by its key. -/
inductive Op (T : Traits K V) where
  | find (key : K)
  | insert (v : V)
  | assign (key : K) (v : V) (h : T.equal key (T.key v))
  | erase (key : K)

/-- One operation. `erase` takes a reference to an entry of the container, so
there has to be one. -/
def Container.step [Inhabited V] {T : Traits K V} (c : Container V) : Op T → Option (Container V)
  | .find key => (c.find T key).map (·.2)
  | .insert v => (c.insert T v).map (·.2)
  | .assign key v _ => c.assign T key v
  | .erase key =>
    match c.scan T key with
    | some (some p) => some (c.erase p)
    | _ => none

/-! ## The abstract map -/

namespace Lru

/-- The value under a key. -/
def get (T : Traits K V) (es : List V) (key : K) : Option V :=
  es.find? fun v => T.equal key (T.key v)

/-- The other values. -/
def without (T : Traits K V) (es : List V) (key : K) : List V :=
  es.filter fun v => !T.equal key (T.key v)

/-- One operation on the list of values, most recently touched first. -/
def step {T : Traits K V} (es : List V) : Op T → Option (List V)
  | .find key =>
    match get T es key with
    | none => some es
    | some v => some (v :: without T es key)
  | .insert v =>
    match get T es (T.key v) with
    | none => some (v :: es)
    | some w => some (w :: without T es (T.key v))
  | .assign key v _ => some (v :: without T es key)
  | .erase key =>
    match get T es key with
    | none => none
    | some _ => some (without T es key)

/-- The finite map a history leaves, key by key: what was inserted under an equal
key and not erased since, with the last value assigned. -/
def content {T : Traits K V} (m : K → Option V) : Op T → K → Option V
  | .find _, k => m k
  | .insert v, k => if T.equal k (T.key v) then some ((m k).getD v) else m k
  | .assign _ v _, k => if T.equal k (T.key v) then some v else m k
  | .erase key, k => if T.equal k key then none else m k

end Lru

end OpBase.Cache
