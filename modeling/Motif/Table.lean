set_option autoImplicit false
namespace Motif

structure Table (κ ν : Type) where
  entries : List (κ × ν)
  nodup : (entries.map Prod.fst).Nodup

namespace Table
variable {κ ν : Type}

theorem nodup_filter {p : κ × ν → Bool} {es : List (κ × ν)} (h : (es.map Prod.fst).Nodup) :
    ((es.filter p).map Prod.fst).Nodup :=
  h.sublist (List.filter_sublist.map _)

def empty : Table κ ν := ⟨[], List.nodup_nil⟩

instance : Inhabited (Table κ ν) := ⟨empty⟩

def keys (t : Table κ ν) : List κ := t.entries.map Prod.fst

def values (t : Table κ ν) : List ν := t.entries.map Prod.snd

def size (t : Table κ ν) : Nat := t.entries.length

def isEmpty (t : Table κ ν) : Bool := t.entries.isEmpty

variable [DecidableEq κ]

def get? (t : Table κ ν) (k : κ) : Option ν := (t.entries.find? fun e => e.1 = k).map Prod.snd

def contains (t : Table κ ν) (k : κ) : Bool := (t.get? k).isSome

def setIn (k : κ) (v : ν) : List (κ × ν) → List (κ × ν)
  | [] => [(k, v)]
  | e :: rest => if e.1 = k then (k, v) :: rest else e :: setIn k v rest

theorem mem_keys_setIn {k k' : κ} {v : ν} {es : List (κ × ν)} :
    k' ∈ (setIn k v es).map Prod.fst ↔ k' = k ∨ k' ∈ es.map Prod.fst := by
  induction es with
  | nil => simp [setIn]
  | cons e rest ih =>
    by_cases h : e.1 = k
    · simp [setIn, h]
    · simp only [setIn, h, if_false, List.map_cons, List.mem_cons, ih]
      grind

theorem nodup_setIn {k : κ} {v : ν} {es : List (κ × ν)} (h : (es.map Prod.fst).Nodup) :
    ((setIn k v es).map Prod.fst).Nodup := by
  induction es with
  | nil => simp [setIn]
  | cons e rest ih =>
    rw [List.map_cons, List.nodup_cons] at h
    by_cases hk : e.1 = k
    · subst hk
      simpa [setIn] using h
    · simp only [setIn, hk, if_false, List.map_cons, List.nodup_cons]
      exact ⟨fun hm => (mem_keys_setIn.1 hm).elim hk h.1, ih h.2⟩

def set (t : Table κ ν) (k : κ) (v : ν) : Table κ ν := ⟨setIn k v t.entries, nodup_setIn t.nodup⟩

def erase (t : Table κ ν) (k : κ) : Table κ ν :=
  ⟨t.entries.filter fun e => e.1 ≠ k, nodup_filter t.nodup⟩

/-- Replaces the entry of `k` by what `f` makes of it; `none` stands for no entry. -/
def alter (t : Table κ ν) (k : κ) (f : Option ν → Option ν) : Table κ ν :=
  match f (t.get? k) with
  | some v => t.set k v
  | none => t.erase k

def ofList (es : List (κ × ν)) : Table κ ν := es.foldl (fun t e => t.set e.1 e.2) empty

end Table
end Motif
