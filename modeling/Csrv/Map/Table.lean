import Csrv.Lib.LinearProbe
import Csrv.Lib.Rounding
import Mathlib.Logic.Function.Basic

/-!
# The hash table of `map.c`

The table as compiled, with `__HASHMAP_REMOVABLE`: linear probing, tombstones, a linked list of
the used buckets in insertion order, and a resize that doubles the capacity and rebuilds that list
in place.

A pointer to a bucket is its index in the bucket array, `NULL` is `none`. A key pointer together
with its size is the byte string it designates. `calloc` succeeds. The counters are `int`s in the
source and naturals here, which is the same while `Hashmap.Ints` holds; the load test compares
them as `float`s. A loop that would never end returns `none`.
-/

namespace Csrv.Map

open LinearProbe

abbrev Key := List UInt8

/-- `struct bucket`. -/
structure Bucket where
  next : Option ℕ
  key : Option Key
  hash : UInt32
  value : ℕ
  deriving DecidableEq

/-- A bucket as `calloc` leaves it. -/
def Bucket.empty : Bucket := ⟨none, none, 0, 0⟩

/-- `struct hashmap`. `last = none` is the address of `first`. -/
structure Hashmap where
  buckets : ℕ → Bucket
  capacity : ℕ
  count : ℕ
  tombstoneCount : ℕ
  first : Option ℕ
  last : Option ℕ

def hashmapDefaultCapacity : ℕ := 20
def hashmapResizeFactor : ℕ := 2

/-- The counters are `int`s, and the capacity still is one after another resize. -/
structure Hashmap.Ints (m : Hashmap) : Prop where
  capacity : m.capacity * hashmapResizeFactor < 2 ^ 31
  count : m.count < 2 ^ 31
  tombstoneCount : m.tombstoneCount < 2 ^ 31

/-- The value `hashmap_remove` leaves in a bucket. -/
def tombstone : ℕ := 0xDEAD

def hashmapCreate : Hashmap :=
  ⟨fun _ => .empty, hashmapDefaultCapacity, 0, 0, none, none⟩

/-! ## Hashing -/

def hashmapHashInit : UInt64 := 2166136261

/-- The bytes `data`, little endian, starting at bit `shift`. -/
def packBytes (shift : UInt64) : List UInt8 → UInt64
  | [] => 0
  | b :: bs => b.toUInt64 <<< shift ||| packBytes (shift + 8) bs

/-- The loop over the `nblocks` blocks of eight bytes. -/
def hashBlocks : ℕ → List UInt8 → UInt64 → UInt64 × List UInt8
  | 0, data, hash => (hash, data)
  | nblocks + 1, data, hash =>
    hashBlocks nblocks (data.drop 8)
      ((hash ^^^ packBytes 0 (data.take 8)) * 0xbf58476d1ce4e5b9)

def hashData (data : List UInt8) : UInt32 :=
  let size := data.length
  let (hash, rest) := hashBlocks (size / 8) data hashmapHashInit
  let last := UInt64.ofNat (size &&& 0xff) ||| packBytes 8 rest
  let hash := if size % 8 = 0 then hash else (hash ^^^ last) * 0xd6e8feb86659fd93
  (hash ^^^ hash >>> 32).toUInt32

/-! ## Links -/

namespace Hashmap

/-- `m->last->next`. -/
def lastNext (m : Hashmap) : Option ℕ :=
  match m.last with
  | none => m.first
  | some i => (m.buckets i).next

def setBucket (m : Hashmap) (i : ℕ) (b : Bucket) : Hashmap :=
  { m with buckets := Function.update m.buckets i b }

/-- `m->last->next = p`. -/
def setLastNext (m : Hashmap) (p : Option ℕ) : Hashmap :=
  match m.last with
  | none => { m with first := p }
  | some i => m.setBucket i { m.buckets i with next := p }

def setLast (m : Hashmap) (p : Option ℕ) : Hashmap := { m with last := p }

/-- `hash % m->capacity`. -/
def home (m : Hashmap) (hash : UInt32) : ℕ := hash.toNat % m.capacity

end Hashmap

/-! ## Searching -/

/-- `find_entry`: the matching bucket, or the empty one that ends the probe sequence. -/
def findEntry (m : Hashmap) (key : Key) (hash : UInt32) : Option ℕ :=
  let stop := fun i =>
    let entry := m.buckets i
    let nullKey := entry.key.isNone
    let nullValue := entry.value == 0
    (nullKey && nullValue) || (!nullKey && entry.hash == hash && entry.key == some key)
  scan m.capacity stop m.capacity (m.home hash)

/-! ## Resizing -/

/-- `resize_entry`, up to the copy: the bucket of the new array that receives the entry. -/
def resizeEntry (m : Hashmap) (oldEntry : Bucket) : Option ℕ :=
  scan m.capacity (fun i => (m.buckets i).key.isNone) m.capacity (m.home oldEntry.hash)

/-- The `do … while` of `hashmap_resize`. At its head `m->last->next` still points into
`old`; a copied entry carries its old `next` along until the next round overwrites it. -/
def resizeLoop (old : ℕ → Bucket) : ℕ → Hashmap → Option Hashmap
  | 0, _ => none
  | fuel + 1, m => do
    let cur ← m.lastNext
    let current := old cur
    let m ←
      if current.key.isNone then
        some (m.setLastNext current.next)
      else do
        let entry ← resizeEntry m current
        some (((m.setBucket entry current).setLastNext (some entry)).setLast (some entry))
    if m.lastNext.isNone then some m else resizeLoop old fuel m

def hashmapResize (m : Hashmap) : Option Hashmap :=
  resizeLoop m.buckets m.capacity
    { m with
      capacity := m.capacity * hashmapResizeFactor
      buckets := fun _ => .empty
      last := none
      count := m.count - m.tombstoneCount
      tombstoneCount := 0 }

/-- The conversion of a counter to `float`. -/
def toFloat (n : ℕ) : ℕ := Rounding.roundBits 24 n

/-- `m->count + 1 > HASHMAP_MAX_LOAD * m->capacity`, with both sides multiplied by four, which no
`float` rounds. -/
def needsResize (m : Hashmap) : Bool :=
  toFloat (3 * toFloat m.capacity) < 4 * toFloat (m.count + 1)

/-- The two lines every insertion starts with. -/
def resizeIfFull (m : Hashmap) : Option Hashmap :=
  if needsResize m then hashmapResize m else some m

/-! ## Operations -/

/-- `hashmap_set_free`, with the keys and values it passes to the callback `c`. -/
def hashmapSetFree (m : Hashmap) (key : Key) (val : ℕ) : Option (Hashmap × List (Key × ℕ)) := do
  let m ← resizeIfFull m
  let hash := hashData key
  let i ← findEntry m key hash
  let entry := m.buckets i
  match entry.key with
  | none =>
    let m := (m.setLastNext (some i)).setLast (some i)
    let m := m.setBucket i ⟨none, some key, hash, val⟩
    some ({ m with count := m.count + 1 }, [])
  | some old =>
    some (m.setBucket i { entry with key := some key, value := val }, [(old, entry.value)])

/-- `hashmap_get`: the return value and `*out_val`. -/
def hashmapGet (m : Hashmap) (key : Key) : Option (Bool × ℕ) := do
  let i ← findEntry m key (hashData key)
  some ((m.buckets i).key.isSome, (m.buckets i).value)

def hashmapRemove (m : Hashmap) (key : Key) : Option Hashmap := do
  let i ← findEntry m key (hashData key)
  let entry := m.buckets i
  if entry.key.isSome then
    let m := m.setBucket i { entry with key := none, value := tombstone }
    some { m with tombstoneCount := m.tombstoneCount + 1 }
  else
    some m

/-- The callbacks made from bucket `current` on, over at most `fuel` list nodes. -/
def iterateFrom (buckets : ℕ → Bucket) : ℕ → Option ℕ → List (Key × ℕ)
  | 0, _ => []
  | _ + 1, none => []
  | fuel + 1, some i =>
    let current := buckets i
    let rest := iterateFrom buckets fuel current.next
    match current.key with
    | none => rest
    | some key => (key, current.value) :: rest

/-- The list nodes `hashmap_iterate` visits before `co > 1000` makes it break. -/
def iterateLimit : ℕ := 1002

/-- `hashmap_iterate`: the keys and values passed to the callback, in order. -/
def hashmapIterate (m : Hashmap) : List (Key × ℕ) :=
  iterateFrom m.buckets iterateLimit m.first

end Csrv.Map
