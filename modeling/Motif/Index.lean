import Motif.Bag
import Motif.Event
import Motif.Fault
import Motif.Issue
import Motif.Value.Order

/-!
Tuples found by signature. An index keeps the tuples of one width in buckets, one for each signature
its mask projects them to; no bucket is empty. Every change says whether a signature came or went,
so that readers may pass over changes inside a bucket.
-/
set_option autoImplicit false
namespace Motif

open Std (ExtTreeMap)

structure IndexWork where
  inserts : Nat := 0
  removals : Nat := 0
  lookups : Nat := 0
  deriving DecidableEq, Repr

/-- A change that took place. -/
structure IndexChange where
  signature : Tuple
  /-- the signature was absent before the insert, or is absent after the removal -/
  transition : Bool
  deriving DecidableEq, Repr

/-- In a `unique` index no tuple occurs twice. -/
structure Index where
  name : String
  mask : Mask
  unique : Bool
  buckets : ExtTreeMap Tuple (Bag Tuple) := ∅
  size : Nat := 0
  work : IndexWork := {}

namespace Index

def bucket? (ix : Index) (signature : Tuple) : Option (Bag Tuple) := ix.buckets[signature]?

def bucket (ix : Index) (signature : Tuple) : Bag Tuple := (ix.bucket? signature).getD ∅

def probe (ix : Index) (signature : Tuple) : Index × Option (Bag Tuple) :=
  (⟨ix.name, ix.mask, ix.unique, ix.buckets, ix.size,
    { ix.work with lookups := ix.work.lookups + 1 }⟩, ix.bucket? signature)

/-- A unique index refuses a tuple it holds. -/
def insert (ix : Index) (t : Tuple) : Except Fault (Index × Except Issue IndexChange) := do
  let signature ← ix.mask.project t
  let old := ix.bucket signature
  if ix.unique && old.contains t then
    return (ix, .error (.duplicateInsert ix.name t))
  return ({ ix with
      buckets := ix.buckets.insert signature (old.add t)
      size := ix.size + 1
      work := { ix.work with inserts := ix.work.inserts + 1 } },
    .ok ⟨signature, old.isEmpty⟩)

def remove (ix : Index) (t : Tuple) : Except Fault (Index × Except Issue IndexChange) := do
  let signature ← ix.mask.project t
  let old := ix.bucket signature
  if old.contains t then
    let left := old.remove t
    return ({ ix with
        buckets :=
          if left.isEmpty then ix.buckets.erase signature else ix.buckets.insert signature left
        size := ix.size - 1
        work := { ix.work with removals := ix.work.removals + 1 } },
      .ok ⟨signature, left.isEmpty⟩)
  return (ix, .error (.missingTuple ix.name t))

def update (ix : Index) (e : Event) : Except Fault (Index × Except Issue IndexChange) :=
  match e.direction with
  | .insert => ix.insert e.tuple
  | .revoke => ix.remove e.tuple

def clear (ix : Index) : Index := { ix with buckets := ∅, size := 0 }

end Index
end Motif
