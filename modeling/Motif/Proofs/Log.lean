import Motif.Proofs.Event
import Motif.Proofs.Model

set_option autoImplicit false
namespace Motif

open Std (ExtTreeMap ExtTreeSet)

def Change.apply (c : Change) (held : Relation → Multiset Tuple) : Relation → Multiset Tuple :=
  Function.update held c.relation (c.event.apply (held c.relation))

def Change.Suits (c : Change) (s : Schema) (held : Relation → Multiset Tuple) : Prop :=
  c.event.Suits c.relation.arity (s.isUnique c.relation = true) (held c.relation)

def Schema.Leads (s : Schema) :
    (Relation → Multiset Tuple) → List Change → (Relation → Multiset Tuple) → Prop
  | held, [], held' => held = held'
  | held, c :: rest, held' => c.Suits s held ∧ s.Leads (c.apply held) rest held'

theorem Schema.Leads.trans {s : Schema} {held held' held'' : Relation → Multiset Tuple}
    {cs cs' : List Change} (h : s.Leads held cs held') (h' : s.Leads held' cs' held'') :
    s.Leads held (cs ++ cs') held'' := by
  induction cs generalizing held with
  | nil =>
    cases h
    exact h'
  | cons c rest ih => exact ⟨h.1, ih h.2⟩

namespace Model

def held (m : Model) (r : Relation) : Multiset Tuple := ↑(m.tuples r)

theorem count_held (m : Model) (r : Relation) (t : Tuple) :
    (m.held r).count t = (m.tuples r).count t := by
  rw [held, Multiset.coe_count]
  convert rfl

theorem held_graph (m : Model) : (fun r => (↑(m.graph.tuples r) : Multiset Tuple)) = m.held :=
  funext fun r => congrArg _ (m.tuples_graph r)

variable {m m' m'' : Model} {cls feature : String} {h v : Value}

theorem count_flatMap {α β : Type} [BEq β] [LawfulBEq β] {f : α → List β} {l before after : List α}
    {a : α} {b : β} (hl : l = before ++ a :: after) (others : ∀ x ∈ before ++ after, b ∉ f x) :
    (l.flatMap f).count b = (f a).count b := by
  have none : ∀ part : List α, (∀ x ∈ part, b ∉ f x) → (part.flatMap f).count b = 0 := by
    intro part hpart
    refine List.count_eq_zero_of_not_mem fun hm => ?_
    obtain ⟨x, hx, hb⟩ := List.mem_flatMap.1 hm
    exact hpart x hx hb
  rw [hl, List.flatMap_append, List.flatMap_cons, List.count_append, List.count_append,
    none before fun x hx => others x (List.mem_append.2 (.inl hx)),
    none after fun x hx => others x (List.mem_append.2 (.inr hx)), Nat.zero_add, Nat.add_zero]

/-- How often an entry lists an item, counted over all entries whose keys have a property. -/
theorem count_entries {κ α β : Type} [Ord κ] [Std.TransOrd κ] [Std.LawfulEqOrd κ] [BEq α]
    [LawfulBEq α] [BEq β] [LawfulBEq β] (entries : ExtTreeMap κ (List α)) (p : κ → Bool)
    (f : κ → α → β) (inj : ∀ k k' a a', p k = true → p k' = true → f k a = f k' a' → k = k' ∧ a = a')
    {k : κ} (hk : p k = true) (a : α) :
    ((entries.toList.filter fun e => p e.1).flatMap fun e => e.2.map (f e.1)).count (f k a) =
      (entries.getD k []).count a := by
  obtain ⟨l, hl⟩ : ∃ l, l = entries.toList.filter fun e => p e.1 := ⟨_, rfl⟩
  have mem : ∀ e, e ∈ l ↔ entries[e.1]? = some e.2 ∧ p e.1 = true := by
    intro e
    rw [hl, List.mem_filter, ← ExtTreeMap.mem_toList_iff_getElem?_eq_some]
  have key : ∀ e ∈ l, f k a ∈ e.2.map (f e.1) → e.1 = k := by
    intro e he hm
    obtain ⟨a', -, heq⟩ := List.mem_map.1 hm
    exact (inj _ _ _ _ ((mem e).1 he).2 hk heq).1
  rw [← hl, ExtTreeMap.getD_eq_getD_getElem?]
  cases hs : entries[k]? with
  | none =>
    refine List.count_eq_zero_of_not_mem fun hm => ?_
    obtain ⟨e, he, hm⟩ := List.mem_flatMap.1 hm
    have := ((mem e).1 he).1
    rw [key e he hm, hs] at this
    cases this
  | some as =>
    have keys : l.Pairwise fun a b => ¬compare a.1 b.1 = .eq :=
      hl ▸ ExtTreeMap.distinct_keys_toList.filter _
    obtain ⟨before, after, hsplit⟩ := List.append_of_mem ((mem (k, as)).2 ⟨hs, hk⟩)
    rw [hsplit] at keys
    obtain ⟨-, hafter, hbefore⟩ := List.pairwise_append.1 keys
    rw [count_flatMap hsplit fun e he hm => ?_]
    · exact List.count_map_of_injective _ (f k) (fun a a' e => (inj k k a a' hk hk e).2) a
    -- The entries of other keys list nothing of this one.
    have same : e.1 = k := by
      refine key e ?_ hm
      rw [hsplit, List.mem_append, List.mem_cons]
      exact (List.mem_append.1 he).imp_right .inr
    rcases List.mem_append.1 he with he | he
    · exact hbefore e he _ List.mem_cons_self (by rw [same]; exact Std.ReflCmp.compare_self)
    · exact (List.pairwise_cons.1 hafter).1 e he (by rw [same]; exact Std.ReflCmp.compare_self)

theorem count_featureTuples (m : Model) (h : Value) (feature : String) (v : Value) :
    (m.featureTuples feature).count [h, v] = (m.valuesOf h feature).count v := by
  have items : (↑(m.featureTuples feature) : Multiset Tuple) = (m.featureBag feature).toMultiset := rfl
  rw [featureBag, Bag.toMultiset_ofList, Multiset.coe_eq_coe] at items
  rw [items.count_eq]
  refine count_entries m.slots (fun k => decide (k.2 = feature)) (fun k w => [k.1, w])
    (fun k k' w w' hk hk' e => ?_) (k := (h, feature)) (decide_eq_true rfl) v
  simp only [List.cons.injEq, and_true] at e
  exact ⟨Prod.ext e.1 ((of_decide_eq_true hk).trans (of_decide_eq_true hk').symm), e.2⟩

theorem count_held_feature :
    (m.held (.feature feature)).count [h, v] = (↑(m.valuesOf h feature) : Multiset Value).count v := by
  rw [count_held, Multiset.coe_count]
  exact m.count_featureTuples h feature v

theorem length_of_mem_held {r : Relation} {t : Tuple} (ht : t ∈ m.held r) : t.length = r.arity :=
  length_of_mem_tuples (Multiset.mem_coe.1 ht)

theorem held_extent_cons (hv : v ∉ m.extent cls)
    (mem : ∀ w, w ∈ m'.extent cls ↔ w = v ∨ w ∈ m.extent cls) :
    m'.held (.extent cls) = [v] ::ₘ m.held (.extent cls) := by
  have new : ([v] : Tuple) ∉ m.held (.extent cls) := fun h => hv (singleton_mem_extent.1 h)
  refine (Multiset.Nodup.ext (Multiset.coe_nodup.2 nodup_tuples_extent)
    (Multiset.nodup_cons.2 ⟨new, Multiset.coe_nodup.2 nodup_tuples_extent⟩)).2 fun t => ?_
  by_cases ht : t.length = 1
  · obtain ⟨w, rfl⟩ := List.length_eq_one_iff.1 ht
    have same : [w] ∈ m'.held (.extent cls) ↔ w = v ∨ [w] ∈ m.held (.extent cls) :=
      singleton_mem_extent.trans ((mem w).trans (or_congr_right singleton_mem_extent.symm))
    refine same.trans ?_
    rw [Multiset.mem_cons]
    simp
  · refine iff_of_false (fun h => ht (length_of_mem_held h)) fun h => ht ?_
    exact (Multiset.mem_cons.1 h).elim (fun e => e ▸ rfl) length_of_mem_held

theorem pairs_ext {s s' : Multiset Tuple} (hs : ∀ t ∈ s, t.length = 2) (hs' : ∀ t ∈ s', t.length = 2)
    (same : ∀ h v : Value, s.count [h, v] = s'.count [h, v]) : s = s' := by
  refine Multiset.ext' fun t => ?_
  by_cases ht : t.length = 2
  · obtain ⟨h, v, rfl⟩ := List.length_eq_two.1 ht
    exact same h v
  · rw [Multiset.count_eq_zero_of_notMem fun hm => ht (hs t hm),
      Multiset.count_eq_zero_of_notMem fun hm => ht (hs' t hm)]

theorem held_feature_congr (same : ∀ k, m'.valuesOf k feature = m.valuesOf k feature) :
    m'.held (.feature feature) = m.held (.feature feature) :=
  pairs_ext (fun _ => length_of_mem_held) (fun _ => length_of_mem_held) fun k w => by
    rw [count_held_feature, count_held_feature, same]

theorem held_feature_cons (count : ∀ k w, (↑(m'.valuesOf k feature) : Multiset Value).count w =
      (↑(m.valuesOf k feature) : Multiset Value).count w + if k = h ∧ w = v then 1 else 0) :
    m'.held (.feature feature) = [h, v] ::ₘ m.held (.feature feature) := by
  refine pairs_ext (fun _ => length_of_mem_held) (fun t ht => ?_) fun k w => ?_
  · exact (Multiset.mem_cons.1 ht).elim (fun e => e ▸ rfl) length_of_mem_held
  · rw [Multiset.count_cons, count_held_feature, count_held_feature, count]
    simp

/-- The log of the second model tells `news` besides what the log of the first one tells, and that
leads from what the first holds to what the second holds. -/
structure Logs (m m' : Model) (news : List Change) : Prop where
  schema : m'.schema = m.schema
  log : m'.log = news.reverse ++ m.log
  leads : m.schema.Leads m.held news m'.held

theorem logs_of_eq (hs : m'.schema = m.schema) (hl : m'.log = m.log) (he : m'.extents = m.extents)
    (hf : m'.slots = m.slots) : Logs m m' [] := by
  refine ⟨hs, hl, funext fun r => ?_⟩
  cases r with
  | extent cls => simp only [held, tuples, instancesOf, extent, he]
  | feature name => simp only [held, tuples, featureTuples, featureBag, hf]

theorem Logs.trans {news news' : List Change} (a : Logs m m' news) (a' : Logs m' m'' news') :
    Logs m m'' (news ++ news') where
  schema := a'.schema.trans a.schema
  log := by rw [a'.log, a.log, List.reverse_append, List.append_assoc]
  leads := a.leads.trans (a.schema ▸ a'.leads)

theorem logs_of_change (c : Change) (hs : m'.schema = m.schema) (hl : m'.log = c :: m.log)
    (suits : c.Suits m.schema m.held)
    (same : ∀ r, r ≠ c.relation → m'.held r = m.held r)
    (changed : m'.held c.relation = c.event.apply (m.held c.relation)) : Logs m m' [c] := by
  refine ⟨hs, hl, suits, funext fun r => ?_⟩
  rw [Change.apply, Function.update_apply]
  split
  · rename_i hr
    rw [hr, changed]
  · rename_i hr
    rw [same r hr]

theorem held_of_ne_extent (m : Model) {cls : String} (s : ExtTreeSet Value) (d : Direction)
    (t : Tuple) {r : Relation} (hr : r ≠ .extent cls) :
    (({ m with extents := m.extents.insert cls s } : Model).record d (.extent cls) t).held r =
      m.held r := by
  cases r with
  | extent c =>
    have hne : cls ≠ c := fun e => hr (by rw [e])
    simp [held, tuples, instancesOf, extent, record, ExtTreeMap.getD_insert, hne]
  | feature name => rfl

theorem logs_addInstance (m : Model) (cls : String) (v : Value) :
    ∃ news, Logs m (m.addInstance cls v).1 news := by
  rw [addInstance]
  split
  · exact ⟨[], logs_of_eq rfl rfl rfl rfl⟩
  rename_i new
  refine ⟨_, logs_of_change ⟨.extent cls, .insert, [v]⟩ rfl rfl ?_
    (fun r hr => m.held_of_ne_extent _ _ _ hr) ?_⟩
  · exact Event.suits_insert.2 ⟨rfl, fun _ hm => new (singleton_mem_extent.1 hm)⟩
  · refine held_extent_cons new fun w => ?_
    rw [show extent _ cls = (m.extents.insert cls ((m.extent cls).insert v)).getD cls ∅ from rfl,
      ExtTreeMap.getD_insert_self, ExtTreeSet.mem_insert, Std.LawfulEqCmp.compare_eq_iff_eq, eq_comm]

theorem logs_removeInstance (m : Model) (cls : String) (v : Value) :
    ∃ news, Logs m (m.removeInstance cls v).1 news := by
  rw [removeInstance]
  split
  · rename_i there
    refine ⟨_, logs_of_change ⟨.extent cls, .revoke, [v]⟩ rfl rfl ?_
      (fun r hr => m.held_of_ne_extent _ _ _ hr) ?_⟩
    · exact Event.suits_revoke.2 ⟨rfl, singleton_mem_extent.2 there⟩
    · obtain ⟨m', hm'⟩ : ∃ m' : Model, m' = ({ m with
          extents := m.extents.insert cls ((m.extent cls).erase v) }).record .revoke (.extent cls)
          [v] := ⟨_, rfl⟩
      have mem : ∀ w, w ∈ m'.extent cls ↔ w ≠ v ∧ w ∈ m.extent cls := by
        intro w
        rw [hm', show extent _ cls = (m.extents.insert cls ((m.extent cls).erase v)).getD cls ∅ from rfl,
          ExtTreeMap.getD_insert_self, ExtTreeSet.mem_erase, ne_eq, Std.LawfulEqCmp.compare_eq_iff_eq,
          ne_eq, eq_comm]
      -- What was held is what is held now and the tuple that went.
      have before : m.held (.extent cls) = [v] ::ₘ m'.held (.extent cls) := by
        refine held_extent_cons (fun h => ((mem v).1 h).1 rfl) fun w => ?_
        rw [mem]
        by_cases hw : w = v
        · simp [hw, there]
        · simp [hw]
      rw [← hm', before, Event.apply_revoke, Multiset.erase_cons_head]
  · exact ⟨[], logs_of_eq rfl rfl rfl rfl⟩

theorem logs_addValue (m : Model) (holder : Value) (feature : String) (v : Value) :
    ∃ news, Logs m (m.addValue holder feature v).1 news := by
  rw [addValue]
  split
  · exact ⟨[], logs_of_eq rfl rfl rfl rfl⟩
  rename_i new
  have values : ∀ k name, (m.slots.insert (holder, feature) (m.valuesOf holder feature ++ [v])).getD
      (k, name) [] = if k = holder ∧ name = feature then m.valuesOf k name ++ [v]
        else m.valuesOf k name := by
    intro k name
    rw [ExtTreeMap.getD_insert]
    by_cases hk : k = holder ∧ name = feature
    · rw [if_pos hk, hk.1, hk.2, if_pos Std.ReflCmp.compare_self]
    · rw [if_neg hk, if_neg fun e => hk ?_]
      · rfl
      · cases Std.LawfulEqCmp.eq_of_compare e
        exact ⟨rfl, rfl⟩
  refine ⟨_, logs_of_change ⟨.feature feature, .insert, [holder, v]⟩ rfl rfl ?_ (fun r hr => ?_) ?_⟩
  · refine Event.suits_insert.2 ⟨rfl, fun hu hm => new ?_⟩
    rw [Bool.and_eq_true, List.contains_iff_mem]
    exact ⟨hu, pair_mem_featureTuples.1 hm⟩
  · cases r with
    | extent c => rfl
    | feature name =>
      refine held_feature_congr fun k => (values k name).trans (if_neg fun e => hr ?_)
      rw [e.2]
  · refine held_feature_cons fun k w => ?_
    refine (congrArg (fun l : List Value => (↑l : Multiset Value).count w) (values k feature)).trans ?_
    by_cases hk : k = holder
    · by_cases hw : w = v
      · simp [hk, hw]
      · simp [hk, hw, Ne.symm hw]
    · simp [hk]

theorem logs_removeValue (m : Model) (holder : Value) (feature : String) (v : Value) :
    ∃ news, Logs m (m.removeValue holder feature v).1 news := by
  rw [removeValue]
  split
  · rename_i there
    rw [List.contains_iff_mem] at there
    obtain ⟨m', hm'⟩ : ∃ m' : Model, m' = ({ m with
        slots := m.slots.alter (holder, feature) fun l => without (l.getD []) v
        holders := m.holders.alter (feature, v) fun l => without (l.getD []) holder }).record
          .revoke (.feature feature) [holder, v] := ⟨_, rfl⟩
    have values : ∀ k name, m'.valuesOf k name =
        if k = holder ∧ name = feature then (m.valuesOf k name).erase v else m.valuesOf k name := by
      intro k name
      rw [hm', show valuesOf _ k name = (m.slots.alter (holder, feature) fun l =>
        without (l.getD []) v).getD (k, name) [] from rfl, ExtTreeMap.getD_alter]
      by_cases hk : k = holder ∧ name = feature
      · rw [if_pos hk, hk.1, hk.2, if_pos Std.ReflCmp.compare_self, getD_without, valuesOf,
          ExtTreeMap.getD_eq_getD_getElem?]
      · rw [if_neg hk, if_neg fun e => hk ?_]
        · rfl
        · cases Std.LawfulEqCmp.eq_of_compare e
          exact ⟨rfl, rfl⟩
    rw [← hm']
    refine ⟨_, logs_of_change ⟨.feature feature, .revoke, [holder, v]⟩ (hm' ▸ rfl) (hm' ▸ rfl) ?_
      (fun r hr => ?_) ?_⟩
    · exact Event.suits_revoke.2 ⟨rfl, pair_mem_featureTuples.2 there⟩
    · cases r with
      | extent c =>
        rw [hm']
        rfl
      | feature name =>
        refine held_feature_congr fun k => (values k name).trans (if_neg fun e => hr ?_)
        rw [e.2]
    · -- What was held is what is held now and the tuple that went.
      have before : m.held (.feature feature) = [holder, v] ::ₘ m'.held (.feature feature) := by
        refine held_feature_cons fun k w => ?_
        rw [values]
        by_cases hk : k = holder
        · subst hk
          rw [if_pos ⟨rfl, rfl⟩, ← Multiset.coe_erase]
          by_cases hw : w = v
          · subst hw
            rw [if_pos ⟨rfl, rfl⟩, Multiset.count_erase_self,
              Nat.sub_add_cancel (Multiset.count_pos.2 there)]
          · rw [if_neg fun e => hw e.2, add_zero, Multiset.count_erase_of_ne hw]
        · rw [if_neg fun e => hk e.1, if_neg fun e => hk e.1, add_zero]
      rw [before, Event.apply_revoke, Multiset.erase_cons_head]
  · exact ⟨[], logs_of_eq rfl rfl rfl rfl⟩

theorem logs_write (m : Model) (w : Write) : ∃ news, Logs m (m.write w).1 news :=
  write_relates (R := fun m m' => ∃ news, Logs m m' news) (fun _ => ⟨[], logs_of_eq rfl rfl rfl rfl⟩)
    (fun ⟨_, h⟩ ⟨_, h'⟩ => ⟨_, h.trans h'⟩) (fun _ _ _ => ⟨[], logs_of_eq rfl rfl rfl rfl⟩)
    logs_addInstance logs_removeInstance logs_addValue logs_removeValue m w

theorem logs_writeAll (m : Model) (ws : List Write) : ∃ news, Logs m (m.writeAll ws).1 news := by
  induction ws generalizing m with
  | nil => exact ⟨[], logs_of_eq rfl rfl rfl rfl⟩
  | cons w rest ih =>
    rw [writeAll, runAll_cons]
    obtain ⟨_, first⟩ := m.logs_write w
    obtain ⟨_, others⟩ := ih (m.write w).1
    exact ⟨_, first.trans others⟩

end Model
end Motif
