import StagedScript.Code.Wire
import StagedScript.Text.Blake2b

/-!
# A cache of compiled functions

Functions are kept in their recorded form under a key made of the name of the source, its text, and
a salt for the settings it was compiled with.
-/

namespace StagedScript

namespace Cache

/-- A text after its length, so that several of them in a row can be told apart. -/
def measured (s : Bytes) : Bytes := Bytes.ofNat s.length ++ ":" ++ s

def keyText (source text salt : Bytes) : Bytes := measured source ++ measured text ++ measured salt

structure Item where
  version : Int
  code : Bytes

/-- What a cache is built on: a hash for keys, a form of records in bytes, and a table.  What is found
in a table under a key was put there. -/
class Backend (S : Type) where
  hash : Bytes → Bytes
  write : FuncRecord → Bytes
  read? : Bytes → Option FuncRecord
  empty : S
  find? : S → Bytes → Option Item
  insert : S → Bytes → Item → S
  erase : S → Bytes → S
  find?_empty (key : Bytes) : find? empty key = none
  find?_insert {table : S} {key key' : Bytes} {item item' : Item} :
    find? (insert table key item) key' = some item' →
      key' = key ∧ item' = item ∨ find? table key' = some item'
  find?_erase {table : S} {key key' : Bytes} {item : Item} :
    find? (erase table key) key' = some item → find? table key' = some item

def keyFor (S : Type) [Backend S] (source text salt : Bytes) : Bytes :=
  Backend.hash (S := S) (keyText source text salt)

abbrev Items := List (Bytes × Item)

def Items.erase (items : Items) (key : Bytes) : Items := items.filter fun i => i.1 ≠ key

theorem Items.lookup_of_erase {items : Items} {key key' : Bytes} {item : Item}
    (h : (items.erase key).lookup key' = some item) : items.lookup key' = some item := by
  have hkey : key' ≠ key := by
    rintro rfl
    obtain ⟨front, rest, herase, -⟩ := List.lookup_eq_some_iff.1 h
    have hmem : (key', item) ∈ items.erase key' := by simp [herase]
    simp [erase] at hmem
  induction items with
  | nil => exact h
  | cons i items ih =>
    rw [List.lookup_cons]
    by_cases hi : i.1 = key
    · rw [show erase (i :: items) key = erase items key by simp [erase, hi]] at h
      rw [hi, beq_false_of_ne hkey]
      exact ih h
    · rw [show erase (i :: items) key = i :: erase items key by simp [erase, hi],
        List.lookup_cons] at h
      cases hb : key' == i.1 with
      | true => rwa [hb] at h
      | false =>
        rw [hb] at h
        exact ih h

instance : Backend Items where
  hash := Blake2b.hash
  write r := r.toCbor.encode
  read? s := (Cbor.decode s).toOption.bind fun c => (FuncRecord.ofCbor c).toOption
  empty := []
  find? items key := items.lookup key
  insert items key item := (key, item) :: items.erase key
  erase := Items.erase
  find?_empty _ := rfl
  find?_insert {_ key key' _ _} h := by
    rw [List.lookup_cons] at h
    by_cases hkey : key' = key
    · simp_all
    · simp only [beq_false_of_ne hkey] at h
      exact .inr (Items.lookup_of_erase h)
  find?_erase := Items.lookup_of_erase

def keyOf (source text salt : Bytes) : Bytes := keyFor Items source text salt

end Cache

/-- Compiled functions by key, and how often they were asked for since the cache was opened. -/
structure Cache (S : Type := Cache.Items) where
  items : S
  hits : Nat := 0
  misses : Nat := 0

namespace Cache

def size (c : Cache) : Nat := c.items.length

def clear (c : Cache) : Cache := { c with items := [] }

def modify (c : Cache) (key : Bytes) (f : Item → Item) : Cache :=
  { c with items := c.items.map fun i => if i.1 = key then (i.1, f i.2) else i }

variable {S : Type} [Backend S]

instance : EmptyCollection (Cache S) := ⟨{ items := Backend.empty }⟩

def reopen (c : Cache S) : Cache S := { items := c.items }

def erase (c : Cache S) (key : Bytes) : Cache S := { c with items := Backend.erase c.items key }

def insert (c : Cache S) (key code : Bytes) : Cache S :=
  { c with items := Backend.insert c.items key ⟨FuncRecord.currentVersion, code⟩ }

def miss (c : Cache S) : Cache S := { c with misses := c.misses + 1 }

/-- Finds the function kept under a key. One whose record cannot be read is dropped. -/
def get (c : Cache S) (key : Bytes) : Option Func × Cache S :=
  match Backend.find? c.items key with
  | none => (none, c.miss)
  | some item =>
    if item.version ≠ FuncRecord.currentVersion then (none, c.miss)
    else match (Backend.read? (S := S) item.code).bind fun r => r.func.toOption with
      | none => (none, (c.erase key).miss)
      | some fn => (some fn, { c with hits := c.hits + 1 })

def put (c : Cache S) (key : Bytes) (fn : Func) : Except Unrecordable (Cache S) := do
  return c.insert key (Backend.write (S := S) (← fn.record))

/-! ### Storage -/

def itemToCbor (i : Bytes × Item) : Cbor :=
  .array [.bytes i.1, .int i.2.version, .bytes i.2.code]

def toBytes (c : Cache) : Bytes := (Cbor.array (c.items.map itemToCbor)).encode

def itemOfCbor? : Cbor → Option (Bytes × Item)
  | .array [.bytes key, .unsigned version, .bytes code] => some (key, ⟨version, code⟩)
  | _ => none

def ofBytes? (s : Bytes) : Option Cache :=
  match Cbor.decode s with
  | .ok (.array items) => (items.mapM itemOfCbor?).map fun items => { items }
  | _ => none

end Cache

end StagedScript
