import Motif.Bag
import Motif.Event
import Motif.Sequence

/-!
Object graphs. A model keeps, for every class, its instances, and for every holder and feature, the
values held, with the converse beside it. Each write appends to a log what it changes in the base
relations.
-/
set_option autoImplicit false
namespace Motif

open Std (ExtTreeMap ExtTreeSet)

structure Model where
  schema : Schema := {}
  /-- the number of objects created so far, which is the last one's number -/
  created : Nat := 0
  /-- objects with the class each was created in -/
  objects : ExtTreeMap UInt64 String := ∅
  /-- instances by class, those of subclasses included -/
  extents : ExtTreeMap String (ExtTreeSet Value) := ∅
  /-- values by holder and feature, in the order they were added -/
  slots : ExtTreeMap (Value × String) (List Value) := ∅
  /-- holders by feature and value, once for every time one holds the value -/
  holders : ExtTreeMap (String × Value) (List Value) := ∅
  /-- what changed since the log was taken last, the latest first -/
  log : List Change := []

inductive Write where
  | create (cls : String)
  | removeObject (id : UInt64)
  | addInstance (cls : String) (v : Value)
  | removeInstance (cls : String) (v : Value)
  | addValue (holder : Value) (feature : String) (v : Value)
  | removeValue (holder : Value) (feature : String) (v : Value)
  | setValue (holder : Value) (feature : String) (v : Value)
  deriving DecidableEq, Repr

/-- What a write answers: the object made, or whether anything changed. -/
inductive Written where
  | object (id : UInt64)
  | changed (yes : Bool)
  | nothing
  deriving DecidableEq, Repr

namespace Model

def extent (m : Model) (cls : String) : ExtTreeSet Value := m.extents.getD cls ∅

def instancesOf (m : Model) (cls : String) : List Value := (m.extent cls).toList

def valuesOf (m : Model) (holder : Value) (feature : String) : List Value :=
  m.slots.getD (holder, feature) []

def holdersOf (m : Model) (feature : String) (v : Value) : List Value :=
  m.holders.getD (feature, v) []

def featureBag (m : Model) (feature : String) : Bag Tuple :=
  .ofList ((m.slots.toList.filter fun e => e.1.2 = feature).flatMap fun e =>
    e.2.map fun v => [e.1.1, v])

def featureTuples (m : Model) (feature : String) : List Tuple := (m.featureBag feature).items

def tuples (m : Model) : Relation → List Tuple
  | .extent cls => (m.instancesOf cls).map fun v => [v]
  | .feature name => m.featureTuples name

def contains (m : Model) (id : UInt64) : Bool := m.objects.contains id

def record (m : Model) (direction : Direction) (relation : Relation) (t : Tuple) : Model :=
  { m with log := ⟨relation, ⟨direction, t⟩⟩ :: m.log }

def drain (m : Model) : Model × List Change := ({ m with log := [] }, m.log.reverse)

def addInstance (m : Model) (cls : String) (v : Value) : Model × Bool :=
  let extent := m.extent cls
  if v ∈ extent then (m, false)
  else
    (({ m with extents := m.extents.insert cls (extent.insert v) }).record .insert (.extent cls) [v],
      true)

def removeInstance (m : Model) (cls : String) (v : Value) : Model × Bool :=
  let extent := m.extent cls
  if v ∈ extent then
    (({ m with extents := m.extents.insert cls (extent.erase v) }).record .revoke (.extent cls) [v],
      true)
  else (m, false)

def create (m : Model) (cls : String) : Model × UInt64 :=
  let id := UInt64.ofNat (m.created + 1)
  let made := { m with created := m.created + 1, objects := m.objects.insert id cls }
  ((m.schema.supertypesOf cls).foldl (fun m c => (m.addInstance c (.object id)).1) made, id)

/-- Puts `v` at the end of the holder's values. A unique feature passes over a value it has. -/
def addValue (m : Model) (holder : Value) (feature : String) (v : Value) : Model × Bool :=
  let held := m.valuesOf holder feature
  if m.schema.isUniqueFeature feature && held.contains v then (m, false)
  else
    (({ m with
        slots := m.slots.insert (holder, feature) (held ++ [v])
        holders := m.holders.insert (feature, v) (m.holdersOf feature v ++ [holder]) }).record
      .insert (.feature feature) [holder, v], true)

def without {α : Type} [DecidableEq α] (l : List α) (a : α) : Option (List α) :=
  match l.erase a with
  | [] => none
  | left => some left

/-- Takes away the first occurrence of `v` among the holder's values. -/
def removeValue (m : Model) (holder : Value) (feature : String) (v : Value) : Model × Bool :=
  if (m.valuesOf holder feature).contains v then
    (({ m with
        slots := m.slots.alter (holder, feature) fun l => without (l.getD []) v
        holders := m.holders.alter (feature, v) fun l => without (l.getD []) holder }).record
      .revoke (.feature feature) [holder, v], true)
  else (m, false)

def setValue (m : Model) (holder : Value) (feature : String) (v : Value) : Model :=
  let bare := (m.valuesOf holder feature).foldl (fun m old => (m.removeValue holder feature old).1) m
  (bare.addValue holder feature v).1

/-- Deletes an object with the values it holds, with itself as a value of others, and from its class
and those above; answers whether it was there. -/
def removeObject (m : Model) (id : UInt64) : Model × Bool :=
  match m.objects[id]? with
  | none => (m, false)
  | some cls =>
    let object := Value.object id
    let m := { m with objects := m.objects.erase id }
    let held := (m.slots.toList.filter fun e => e.1.1 = object).flatMap fun e =>
      e.2.map fun v => (e.1.2, v)
    let m := held.foldl (fun m p => (m.removeValue object p.1 p.2).1) m
    let referring := (m.holders.toList.filter fun e => e.1.2 = object).flatMap fun e =>
      e.2.map fun h => (e.1.1, h)
    let m := referring.foldl (fun m p => (m.removeValue p.2 p.1 object).1) m
    ((m.schema.supertypesOf cls).foldl (fun m c => (m.removeInstance c object).1) m, true)

def write (m : Model) : Write → Model × Written
  | .create cls => let (m, id) := m.create cls; (m, .object id)
  | .removeObject id => let (m, yes) := m.removeObject id; (m, .changed yes)
  | .addInstance cls v => let (m, yes) := m.addInstance cls v; (m, .changed yes)
  | .removeInstance cls v => let (m, yes) := m.removeInstance cls v; (m, .changed yes)
  | .addValue h f v => let (m, yes) := m.addValue h f v; (m, .changed yes)
  | .removeValue h f v => let (m, yes) := m.removeValue h f v; (m, .changed yes)
  | .setValue h f v => (m.setValue h f v, .nothing)

def writeAll (m : Model) (ws : List Write) : Model × List Written := runAll write m ws

end Model

/-- Read access to an object graph. -/
structure Graph where
  schema : Schema
  instancesOf : String → List Value
  valuesOf : Value → String → List Value
  holdersOf : String → Value → List Value
  featureTuples : String → List Tuple
  isInstance : String → Value → Bool
  hasValue : Value → String → Value → Bool

namespace Graph

def tuples (g : Graph) : Relation → List Tuple
  | .extent cls => (g.instancesOf cls).map fun v => [v]
  | .feature name => g.featureTuples name

end Graph

def Model.graph (m : Model) : Graph where
  schema := m.schema
  instancesOf := m.instancesOf
  valuesOf := m.valuesOf
  holdersOf := m.holdersOf
  featureTuples := m.featureTuples
  isInstance cls v := v ∈ m.extent cls
  hasValue holder feature v := (m.valuesOf holder feature).contains v

end Motif
