import Motif.Model
import Motif.Proofs.Algebra.Value
import Motif.Proofs.Bag
import Motif.Proofs.Reach
import Motif.Proofs.Traversal

set_option autoImplicit false
namespace Motif

open Std (ExtTreeMap ExtTreeSet)

namespace Model
variable {m : Model} {cls feature : String} {h v : Value}

/-- What writes make of an empty model. The log may be taken at any time. -/
inductive Reached : Model → Prop
  | start (schema : Schema) : Reached { schema }
  | write {m : Model} (w : Write) : Reached m → Reached (m.write w).1
  | drain {m : Model} : Reached m → Reached m.drain.1

theorem Reached.writeAll (h : m.Reached) (ws : List Write) : (m.writeAll ws).1.Reached :=
  runAll_keeps (fun _ w h => h.write w) h ws

def Typed (m : Model) : Prop :=
  ∀ feature cls, m.schema.sourceClass? feature = some cls →
    ∀ h, m.valuesOf h feature ≠ [] → h ∈ m.extent cls

/-- A holder is listed for a value as often as the value for the holder. -/
def Converse (m : Model) : Prop :=
  ∀ h feature v, (m.holdersOf feature v).count h = (m.valuesOf h feature).count v

theorem Converse.mem_holdersOf (hm : m.Converse) :
    h ∈ m.holdersOf feature v ↔ v ∈ m.valuesOf h feature := by
  rw [← List.count_pos_iff, hm, List.count_pos_iff]

theorem Converse.of_eq {m' : Model} (hm : m.Converse) (hs : m'.slots = m.slots)
    (hh : m'.holders = m.holders) : m'.Converse := by
  intro h feature v
  rw [holdersOf, valuesOf, hs, hh]
  exact hm h feature v

theorem getD_without {α : Type} [DecidableEq α] (l : List α) (a : α) :
    (without l a).getD [] = l.erase a := by
  unfold without
  split
  · rename_i e
    rw [e]
    rfl
  · rfl

theorem converse_start (schema : Schema) : Converse { schema } := by
  intro h feature v
  rw [holdersOf, valuesOf, ExtTreeMap.getD_empty, ExtTreeMap.getD_empty, List.count_nil,
    List.count_nil]

theorem Converse.addValue (hm : m.Converse) (h : Value) (feature : String) (v : Value) :
    (m.addValue h feature v).1.Converse := by
  rw [Model.addValue]
  split
  · exact hm
  intro h' feature' v'
  have same := hm h' feature' v'
  simp only [holdersOf, valuesOf, record, ExtTreeMap.getD_insert] at same ⊢
  by_cases hf : feature = feature'
  · subst hf
    by_cases hh : h = h' <;> by_cases hv : v = v' <;> simp_all [List.count_append]
  · simpa [hf] using same

theorem Converse.removeValue (hm : m.Converse) (h : Value) (feature : String) (v : Value) :
    (m.removeValue h feature v).1.Converse := by
  rw [Model.removeValue]
  split
  · intro h' feature' v'
    have same := hm h' feature' v'
    simp only [holdersOf, valuesOf, record, ExtTreeMap.getD_alter] at same ⊢
    by_cases hf : feature = feature'
    · subst hf
      by_cases hh : h = h' <;> by_cases hv : v = v' <;>
        simp_all [getD_without, List.count_erase, ExtTreeMap.getD_eq_getD_getElem?]
    · simpa [hf] using same
  · exact hm

/-- A write goes by single steps. What relates a model to the next after each of them, it relates
to the one after the write. -/
theorem write_relates {R : Model → Model → Prop} (refl : ∀ m, R m m)
    (trans : ∀ {m m' m''}, R m m' → R m' m'' → R m m'')
    (objects : ∀ m : Model, ∀ created objects, R m { m with created, objects })
    (join : ∀ (m : Model) cls v, R m (m.addInstance cls v).1)
    (leave : ∀ (m : Model) cls v, R m (m.removeInstance cls v).1)
    (add : ∀ (m : Model) h feature v, R m (m.addValue h feature v).1)
    (remove : ∀ (m : Model) h feature v, R m (m.removeValue h feature v).1) (m : Model) (w : Write) :
    R m (m.write w).1 := by
  have fold : ∀ {α : Type} (step : Model → α → Model), (∀ m a, R m (step m a)) →
      ∀ (l : List α) {m₀ m : Model}, R m₀ m → R m₀ (l.foldl step m) := by
    intro α step hs l
    induction l with
    | nil => exact fun hm => hm
    | cons a rest ih => exact fun hm => ih (trans hm (hs _ a))
  cases w with
  | create cls => exact fold _ (fun m c => join m c _) _ (objects m _ _)
  | removeObject id =>
    simp only [Model.write, Model.removeObject]
    split
    · exact refl m
    · dsimp only
      refine fold _ (fun m c => leave m c _) _ ?_
      refine fold _ (fun m (p : String × Value) => remove m p.2 p.1 _) _ ?_
      exact fold _ (fun m (p : String × Value) => remove m _ p.1 p.2) _ (objects m _ _)
  | addInstance cls v => exact join m cls v
  | removeInstance cls v => exact leave m cls v
  | addValue h f v => exact add m h f v
  | removeValue h f v => exact remove m h f v
  | setValue h f v => exact trans (fold _ (fun m old => remove m h f old) _ (refl m)) (add _ h f v)

theorem write_keeps {P : Model → Prop}
    (same : ∀ m m' : Model, m'.schema = m.schema → m'.slots = m.slots → m'.holders = m.holders →
      P m → P m')
    (add : ∀ (m : Model) h feature v, P m → P (m.addValue h feature v).1)
    (remove : ∀ (m : Model) h feature v, P m → P (m.removeValue h feature v).1) (hm : P m)
    (w : Write) : P (m.write w).1 := by
  refine write_relates (R := fun m m' => P m → P m') (fun _ h => h) (fun h h' hm => h' (h hm))
    (fun m _ _ => same m _ rfl rfl rfl) (fun m cls v hm => ?_) (fun m cls v hm => ?_) add remove m w hm
  · rw [Model.addInstance]
    split
    · exact hm
    · exact same m _ rfl rfl rfl hm
  · rw [Model.removeInstance]
    split
    · exact same m _ rfl rfl rfl hm
    · exact hm

theorem Reached.converse (hm : m.Reached) : m.Converse := by
  induction hm with
  | start schema => exact converse_start schema
  | write w _ ih =>
    exact write_keeps (fun m m' _ hs hh hm => hm.of_eq hs hh) (fun m h f v hm => hm.addValue h f v)
      (fun m h f v hm => hm.removeValue h f v) ih w
  | drain _ ih => exact ih.of_eq rfl rfl

def Sets (m : Model) : Prop :=
  ∀ feature, m.schema.isUniqueFeature feature = true → ∀ h, (m.valuesOf h feature).Nodup

theorem Sets.addValue (hm : m.Sets) (h : Value) (feature : String) (v : Value) :
    (m.addValue h feature v).1.Sets := by
  rw [Model.addValue]
  split
  · exact hm
  rename_i new
  intro feature' hu h'
  replace hu : m.schema.isUniqueFeature feature' = true := hu
  have held := hm feature' hu
  rw [show valuesOf _ h' feature' = (m.slots.insert (h, feature) (m.valuesOf h feature ++ [v])).getD
    (h', feature') [] from rfl, ExtTreeMap.getD_insert]
  split
  · rename_i heq
    cases Std.LawfulEqCmp.eq_of_compare heq
    rw [hu, Bool.true_and, List.contains_iff_mem] at new
    refine List.nodup_append.2 ⟨held h, List.nodup_singleton v, fun w hw u hu' e => new ?_⟩
    rwa [← List.mem_singleton.1 hu', ← e]
  · exact held h'

theorem Sets.removeValue (hm : m.Sets) (h : Value) (feature : String) (v : Value) :
    (m.removeValue h feature v).1.Sets := by
  rw [Model.removeValue]
  split
  · intro feature' hu h'
    have held := hm feature' hu
    rw [show valuesOf _ h' feature' = (m.slots.alter (h, feature) fun l => without (l.getD []) v).getD
      (h', feature') [] from rfl, ExtTreeMap.getD_alter]
    split
    · rename_i heq
      cases Std.LawfulEqCmp.eq_of_compare heq
      rw [getD_without]
      refine List.Nodup.erase v ?_
      have := held h
      rwa [valuesOf, ExtTreeMap.getD_eq_getD_getElem?] at this
    · exact held h'
  · exact hm

theorem Reached.sets (hm : m.Reached) : m.Sets := by
  induction hm with
  | start schema =>
    intro feature _ h
    rw [valuesOf, ExtTreeMap.getD_empty]
    exact List.nodup_nil
  | write w _ ih =>
    refine write_keeps (P := Sets) (fun m m' hs ht _ hm feature hu h => ?_)
      (fun m h f v hm => hm.addValue h f v) (fun m h f v hm => hm.removeValue h f v) ih w
    rw [valuesOf, ht]
    exact hm feature (hs ▸ hu) h
  | drain _ ih => exact ih

theorem mem_featureTuples {t : Tuple} :
    t ∈ m.featureTuples feature ↔ ∃ h v, v ∈ m.valuesOf h feature ∧ t = [h, v] := by
  rw [featureTuples, Bag.mem_items, featureBag, Bag.toMultiset_ofList, Multiset.mem_coe,
    List.mem_flatMap]
  constructor
  · rintro ⟨⟨⟨h, f⟩, vs⟩, he, ht⟩
    obtain ⟨held, hf⟩ := List.mem_filter.1 he
    obtain ⟨v, hv, rfl⟩ := List.mem_map.1 ht
    obtain rfl : f = feature := of_decide_eq_true hf
    rw [ExtTreeMap.mem_toList_iff_getElem?_eq_some] at held
    refine ⟨h, v, ?_, rfl⟩
    rw [valuesOf, ExtTreeMap.getD_eq_getD_getElem?, held]
    exact hv
  · rintro ⟨h, v, hv, rfl⟩
    rw [valuesOf, ExtTreeMap.getD_eq_getD_getElem?] at hv
    cases he : m.slots[(h, feature)]? with
    | none =>
      rw [he] at hv
      cases hv
    | some vs =>
      rw [he] at hv
      have held : ((h, feature), vs) ∈ m.slots.toList :=
        ExtTreeMap.mem_toList_iff_getElem?_eq_some.2 he
      refine ⟨((h, feature), vs), List.mem_filter.2 ⟨held, by simp⟩, ?_⟩
      exact List.mem_map.2 ⟨v, hv, rfl⟩

theorem pair_mem_featureTuples : [h, v] ∈ m.featureTuples feature ↔ v ∈ m.valuesOf h feature := by
  simp [mem_featureTuples]

theorem singleton_mem_extent : [v] ∈ m.tuples (.extent cls) ↔ v ∈ m.extent cls := by
  simp [tuples, instancesOf]

theorem length_of_mem_tuples {r : Relation} {t : Tuple} (ht : t ∈ m.tuples r) :
    t.length = r.arity := by
  cases r with
  | extent cls =>
    obtain ⟨v, -, rfl⟩ := List.mem_map.1 ht
    rfl
  | feature name =>
    obtain ⟨h, v, -, rfl⟩ := mem_featureTuples.1 ht
    rfl

def base (m : Model) (r : Relation) : Set Tuple := {t | t ∈ m.tuples r}

theorem tuples_graph (m : Model) (r : Relation) : m.graph.tuples r = m.tuples r := by
  cases r <;> rfl

def facts {c : Catalog} (m : Model) (found : String → Finset Tuple)
    (widths : ∀ name q, c.queries[name]? = some q → ∀ t ∈ found name, t.length = q.arity) :
    Facts c where
  holds r := ↑(m.tuples r)
  found := found
  length_holds _ _ ht := length_of_mem_tuples (Multiset.mem_coe.1 ht)
  length_found := widths

@[simp] theorem facts_found {c : Catalog} {found : String → Finset Tuple}
    (widths : ∀ name q, c.queries[name]? = some q → ∀ t ∈ found name, t.length = q.arity) :
    (m.facts found widths).found = found := rfl

theorem nodup_tuples_extent : (m.tuples (.extent cls)).Nodup :=
  List.Nodup.map (fun _ _ h => List.head_eq_of_cons_eq h) (nodup_toList _)

/-- No tuple of a relation that is declared to be a set occurs twice. -/
theorem Sets.nodup_tuples (hm : m.Sets) {r : Relation} (hr : m.schema.isUnique r = true) :
    (m.tuples r).Nodup := by
  cases r with
  | extent cls => exact nodup_tuples_extent
  | feature name =>
    rw [tuples, featureTuples, ← Multiset.coe_nodup]
    change (m.featureBag name).toMultiset.Nodup
    rw [featureBag, Bag.toMultiset_ofList, Multiset.coe_nodup, List.nodup_flatMap]
    constructor
    · rintro ⟨⟨h, f⟩, vs⟩ he
      obtain ⟨held, hf⟩ := List.mem_filter.1 he
      obtain rfl : f = name := of_decide_eq_true hf
      rw [ExtTreeMap.mem_toList_iff_getElem?_eq_some] at held
      have nodup := hm f hr h
      rw [valuesOf, ExtTreeMap.getD_eq_getD_getElem?, held] at nodup
      exact nodup.map fun v w e => by simpa using e
    · have keys : (m.slots.toList.filter fun e => e.1.2 = name).Pairwise
          fun a b => ¬compare a.1 b.1 = .eq := ExtTreeMap.distinct_keys_toList.filter _
      refine keys.imp_of_mem fun {a b} ha hb hne t hta htb => hne ?_
      obtain ⟨v, -, rfl⟩ := List.mem_map.1 hta
      obtain ⟨w, -, e⟩ := List.mem_map.1 htb
      have hfa : a.1.2 = name := of_decide_eq_true (List.mem_filter.1 ha).2
      have hfb : b.1.2 = name := of_decide_eq_true (List.mem_filter.1 hb).2
      have same : a.1 = b.1 := Prod.ext (List.head_eq_of_cons_eq e).symm (hfa.trans hfb.symm)
      rw [same]
      exact Std.ReflCmp.compare_self

end Model
end Motif
