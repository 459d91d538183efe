import StagedScript.Token.Keyword

/-!
# Looking up reserved words

Words are told apart from names by a minimal perfect hash.  Every word first hashes with seed `0`
into a bucket.  The buckets are placed in decreasing order of size: each searches for a seed that
sends all of its words to free slots of a table exactly as large as the set of words.
-/

namespace StagedScript

/-- A perfect hash table of reserved words. -/
structure KeywordTable where
  seeds : Array UInt32
  slots : Array (Bytes × Keyword)
  deriving Inhabited

namespace KeywordTable

def maxSeed : Nat := 0x100000

def hash (seed : UInt32) (word : Bytes) : UInt32 :=
  let start := 2166136261 ^^^ (seed * 0x9e3779b9)
  let h := word.foldl (fun h c => (h ^^^ c.toUInt32) * 16777619) start
  let h := (h ^^^ (h >>> 16)) * 0x85ebca6b
  h ^^^ (h >>> 13)

def bucketOf (n : Nat) (word : Bytes) : Nat := (hash 0 word).toNat % n

def slotOf (n : Nat) (seed : UInt32) (word : Bytes) : Nat := (hash seed word).toNat % n

/-- Words with their meanings, the bucket of a set of words. -/
abbrev Bucket := List (Bytes × Keyword)

/-- The slots of the words of a bucket, if they are free and pairwise different. -/
def place? (table : Array (Option (Bytes × Keyword))) (slot : Bytes → Nat) :
    (taken : List Nat) → Bucket → Option (List Nat)
  | taken, [] => some taken.reverse
  | taken, (word, _) :: rest =>
    match table[slot word]? with
    | some none =>
      if taken.contains (slot word) then none else place? table slot (slot word :: taken) rest
    | _ => none

/-- The least seed from `seed` on under which a bucket can be placed, and the slots of its words. -/
def findSeed (table : Array (Option (Bytes × Keyword))) (bucket : Bucket) :
    (fuel : Nat) → (seed : Nat) → Option (UInt32 × List Nat)
  | 0, _ => none
  | fuel + 1, seed =>
    match place? table (slotOf table.size seed.toUInt32) [] bucket with
    | some slots => some (seed.toUInt32, slots)
    | none => findSeed table bucket fuel (seed + 1)

def fill (table : Array (Option (Bytes × Keyword))) :
    List Nat → Bucket → Array (Option (Bytes × Keyword))
  | s :: slots, entry :: bucket => fill (table.setIfInBounds s (some entry)) slots bucket
  | _, _ => table

def placeAll : List (Nat × Bucket) → Array UInt32 → Array (Option (Bytes × Keyword)) →
    Except Bucket (Array UInt32 × Array (Option (Bytes × Keyword)))
  | [], seeds, table => .ok (seeds, table)
  | (i, bucket) :: rest, seeds, table =>
    if bucket.isEmpty then placeAll rest seeds table
    else match findSeed table bucket (maxSeed - 1) 1 with
      | some (seed, slots) => placeAll rest (seeds.setIfInBounds i seed) (fill table slots bucket)
      | none => .error bucket

def addWord (words : Bucket) (word : Bytes) (k : Keyword) : Bucket :=
  if words.any (·.1 = word) then words.map fun e => if e.1 = word then (word, k) else e
  else words ++ [(word, k)]

/-- Builds the table of a set of words with different spellings. The order of the words does not
matter, since buckets are sorted. -/
def build (words : Bucket) : Except Bucket KeywordTable :=
  let n := words.length
  if n = 0 then .ok ⟨#[], #[]⟩
  else
    let count := n / 2 + 1
    let sorted := words.mergeSort fun a b => Bytes.le a.1 b.1
    let buckets := (List.range count).map fun i =>
      (i, sorted.filter fun e => bucketOf count e.1 = i)
    let ordered := buckets.mergeSort fun a b => b.2.length ≤ a.2.length
    match placeAll ordered (Array.replicate count 0) (Array.replicate n none) with
    | .ok (seeds, table) => .ok ⟨seeds, table.filterMap id⟩
    | .error bucket => .error bucket

def lookup (t : KeywordTable) (word : Bytes) : Option Keyword :=
  if t.slots.isEmpty then none
  else
    let seed := t.seeds.getD (bucketOf t.seeds.size word) 0
    match t.slots[slotOf t.slots.size seed word]? with
    | some (key, k) => if key = word then some k else none
    | none => none

def words (t : KeywordTable) : List Bytes := Bytes.sort (t.slots.toList.map (·.1))

def standardWords : Bucket := Keyword.all.map fun k => (k.name, k)

def standard : KeywordTable :=
  match build standardWords with
  | .ok t => t
  | .error _ => ⟨#[], #[]⟩

def unplacedMessage (bucket : Bucket) : Bytes :=
  "compiler: no perfect hash for keyword bucket [" ++ Bytes.join " " (bucket.map (·.1)) ++ "]"

end KeywordTable

end StagedScript
