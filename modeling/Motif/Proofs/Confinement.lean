import Motif.Proofs.Receive
import Motif.Proofs.Respond

/-!
Where the tuples of a node stay. A node that is sent tuples of one set and keeps tuples of another
answers any change within them, also one that does not suit what it keeps: it then reports a problem.
No order of the changes is assumed, so this holds in networks that are never at rest.
-/
set_option autoImplicit false
namespace Motif

open Std (ExtTreeMap)

def Issue.IsRelational : Issue → Prop
  | duplicateInsert index _ | missingTuple index _ => ∃ r : Relation, index = r.text
  | _ => False

theorem Relation.take_text (r : Relation) :
    r.text.toList.take 2 = ['c', 'l'] ∨ r.text.toList.take 2 = ['f', 'e'] := by
  cases r <;> simp [text]

theorem Issue.not_isRelational {index : String} {t : Tuple}
    (h : index.toList.take 2 ≠ ['c', 'l'] ∧ index.toList.take 2 ≠ ['f', 'e']) :
    ¬(duplicateInsert index t).IsRelational ∧ ¬(missingTuple index t).IsRelational := by
  constructor <;> rintro ⟨r, rfl⟩ <;> exact r.take_text.elim h.1 h.2

theorem Issue.isFailure.not_isRelational {i : Issue} (h : i.isFailure) : ¬i.IsRelational := by
  cases i <;> first | exact id | cases h

namespace Node

/-- What the node makes of tuples of `fed`, or of what indexes hold, is in `out`. -/
def Carries (masks : IndexId → Mask) (fed : Set Tuple) (held : IndexId → Set Tuple)
    (out : Set Tuple) : Node → Prop
  | input .. | constant _ => True
  | trim mask => ∀ t ∈ fed, mask.signature t ∈ out
  | constantFilter .. | equalityFilter _ | inequalityFilter .. | uniqueness _ | production .. =>
    fed ⊆ out
  | expression x => ∀ t ∈ fed, ∀ u ∈ x.evaluator.result x.inputs x.mode t, u ∈ out
  | join p s complement => ∀ a ∈ held p, ∀ b ∈ held s, a ++ complement.signature b ∈ out
  | existence p _ _ => held p ⊆ out
  | outerJoin p s complement defaults => ∀ a ∈ held p,
      a ++ defaults ∈ out ∧ ∀ b ∈ held s, a ++ complement.signature b ∈ out
  | grouping g => ∀ t ∈ held g.source, ∀ v : Value, (masks g.source).signature t ++ [v] ∈ out
  | closure _ => ∀ a b c d : Value, [a, b] ∈ fed → [c, d] ∈ fed → [a, d] ∈ out

/-- What the node keeps comes from `fed`, and what it would take back is in `out`. -/
def Confined (fed out : Set Tuple) : Node → Prop
  | input _ _ memory | uniqueness memory | production _ memory => ∀ t ∈ memory.toMultiset, t ∈ out
  | constant rows => ∀ t ∈ rows, t ∈ out
  | expression x => ∀ (t : Tuple) (u : Option Tuple) (n : Nat),
      x.cache[t]? = some (u, n) → ∀ r ∈ u, r ∈ out
  | grouping g => ∀ (s : Tuple) (v : Value), g.groups[s]? = some v → s ++ [v] ∈ out
  | closure state => ∃ edges : Multiset Tuple, state.Represents edges ∧ ∀ t ∈ edges, t ∈ fed
  | _ => True

def steady : Node → Side → Bool
  | join .., _ | existence .., .primary | outerJoin .., .primary => true
  | _, _ => false

structure Answers (fed out : Set Tuple) (n : Node) (e : Event) (reply : Reply) : Prop where
  bare : reply.node.bare = n.bare
  confined : reply.node.Confined fed out
  out : ∀ o ∈ reply.out, o.direction = e.direction ∧ o.tuple ∈ out
  issue : ∀ i, reply.issue = some i → ¬i.IsRelational

variable {masks : IndexId → Mask} {fed out : Set Tuple} {held : IndexId → Set Tuple}
  {width arity : Nat} {e : Event}

theorem Confined.mono {n : Node} {fed' out' : Set Tuple} (h : n.Confined fed out) (hf : n.isFed = true → fed ⊆ fed')
    (ho : out ⊆ out') : n.Confined fed' out' := by
  cases n with
  | input _ _ _ | uniqueness _ | production _ _ | constant _ => exact fun t ht => ho (h t ht)
  | expression x => exact fun t u n ht r hr => ho (h t u n ht r hr)
  | grouping g => exact fun s v hs => ho (h s v hs)
  | closure state =>
    obtain ⟨edges, hr, he⟩ := h
    exact ⟨edges, hr, fun t ht => hf rfl (he t ht)⟩
  | _ => trivial

theorem Answers.of_out {n : Node} {events : List Event} (hc : n.Confined fed out)
    (h : ∀ o ∈ events, o.direction = e.direction ∧ o.tuple ∈ out) :
    n.Answers fed out e { node := n, out := events } :=
  ⟨rfl, hc, h, by simp⟩

theorem answers_filter {n : Node} {q : Prop} [Decidable q] (hc : n.Confined fed out)
    (he : e.tuple ∈ out) : n.Answers fed out e { node := n, out := if q then [e] else [] } :=
  .of_out hc fun o ho => by
    split at ho
    · exact (List.mem_singleton.1 ho).symm ▸ ⟨rfl, he⟩
    · cases ho

theorem receive_trim_confined {mask : Mask} (hw : e.tuple.length = mask.width)
    (he : mask.signature e.tuple ∈ out) : ∃ reply, (trim mask).receive e = .ok reply ∧
      (trim mask).Answers fed out e reply := by
  refine ⟨{ node := trim mask, out := [⟨e.direction, mask.signature e.tuple⟩] }, ?_,
    .of_out trivial fun o ho => List.mem_singleton.1 ho ▸ ⟨rfl, he⟩⟩
  rw [receive, Mask.project_eq hw]
  rfl

theorem receive_expression_confined {x : Expression} (hi : ∀ i ∈ x.inputs, i < e.tuple.length)
    (hr : ∀ u ∈ x.evaluator.result x.inputs x.mode e.tuple, u ∈ out)
    (hc : (expression x).Confined fed out) : ∃ reply, (expression x).receive e = .ok reply ∧
      (expression x).Answers fed out e reply := by
  obtain ⟨d, t⟩ := e
  -- What is put out, and what may stand in the cache beside any tuple, is in `out`.
  have events : ∀ {d : Direction} {u : Option Tuple}, (∀ r ∈ u, r ∈ out) →
      ∀ o ∈ u.toList.map (Event.mk d), o.direction = d ∧ o.tuple ∈ out := by
    intro d u hu o ho
    obtain ⟨r, hr, rfl⟩ := List.mem_map.1 ho
    exact ⟨rfl, hu r (Option.mem_toList.1 hr)⟩
  have stored : ∀ {u : Option Tuple} {n : Nat}, (∀ r ∈ u, r ∈ out) →
      (expression { x with cache := x.cache.insert t (u, n) }).Confined fed out := by
    intro u n hu s u' n' hs
    dsimp only at hs
    rw [ExtTreeMap.getElem?_insert] at hs
    split at hs
    · cases hs
      exact hu
    · exact hc s u' n' hs
  have erased : (expression { x with cache := x.cache.erase t }).Confined fed out := by
    intro s u' n' hs
    dsimp only at hs
    rw [ExtTreeMap.getElem?_erase] at hs
    split at hs
    · cases hs
    · exact hc s u' n' hs
  cases ht : x.cache[t]? with
  | some entry =>
    obtain ⟨u, n⟩ := entry
    cases d with
    | insert =>
      refine ⟨⟨expression { x with cache := x.cache.insert t (u, n + 1) }, _, none⟩, ?_, rfl,
        stored (hc t u n ht), events (hc t u n ht), by simp⟩
      rw [receive, Expression.receive, ht]
      rfl
    | revoke =>
      refine ⟨⟨expression { x with cache :=
        if n ≤ 1 then x.cache.erase t else x.cache.insert t (u, n - 1) }, _, none⟩, ?_, rfl, ?_,
        events (hc t u n ht), by simp⟩
      · rw [receive, Expression.receive, ht]
        rfl
      · split
        · exact erased
        · exact stored (hc t u n ht)
  | none =>
    cases d with
    | insert =>
      obtain ⟨issue, ho, hf⟩ := output_eq (x := x) (t := t) hi
      refine ⟨⟨expression { x with
          cache := x.cache.insert t (x.evaluator.result x.inputs x.mode t, 1) }, _, issue⟩,
        ?_, rfl, stored hr, events hr, fun i h => (hf i h).not_isRelational⟩
      rw [receive, Expression.receive, ht]
      dsimp only
      rw [ho]
      rfl
    | revoke =>
      refine ⟨⟨expression x, [], some (.missingTuple ("expression " ++ x.evaluator.name) t)⟩, ?_,
        rfl, hc, by simp, ?_⟩
      · rw [receive, Expression.receive, ht]
        rfl
      · rintro _ ⟨⟩
        exact (Issue.not_isRelational (by simp)).2

theorem mem_of_mem_linkedPairs {edges : Multiset Tuple} {t : Tuple}
    (ho : ∀ a b c d : Value, [a, b] ∈ fed → [c, d] ∈ fed → [a, d] ∈ out)
    (he : ∀ t ∈ edges, t ∈ fed) (ht : t ∈ linkedPairs edges) : t ∈ out := by
  obtain ⟨a, d, rfl, h⟩ := mem_linkedPairs.1 ht
  obtain ⟨b, hb, -⟩ := Relation.TransGen.head'_iff.1 (edgePath_of_linked h)
  obtain ⟨c, -, hc⟩ := Relation.TransGen.tail'_iff.1 (edgePath_of_linked h)
  exact ho a b c d (he _ hb) (he _ hc)

theorem receive_closure_confined {state : Closure} (hw : e.tuple.length = 2) (he : e.tuple ∈ fed)
    (ho : ∀ a b c d : Value, [a, b] ∈ fed → [c, d] ∈ fed → [a, d] ∈ out)
    (hc : (closure state).Confined fed out) : ∃ reply, (closure state).receive e = .ok reply ∧
      (closure state).Answers fed out e reply := by
  obtain ⟨d, t⟩ := e
  obtain ⟨a, b, rfl⟩ : ∃ a b, t = [a, b] := List.length_eq_two.1 hw
  obtain ⟨edges, hr, hedges⟩ := hc
  have events : ∀ {d : Direction} {l : List Edge}, (∀ t ∈ Closure.rows l, t ∈ out) →
      ∀ o ∈ l.map (fun p => Event.mk d [p.1, p.2]), o.direction = d ∧ o.tuple ∈ out := by
    intro d l hl o ho
    obtain ⟨p, hp, rfl⟩ := List.mem_map.1 ho
    exact ⟨rfl, hl _ (Closure.mem_rows.2 hp)⟩
  cases d with
  | insert =>
    obtain ⟨hr', hl⟩ := hr.insert a b
    have hedges' : ∀ t ∈ [a, b] ::ₘ edges, t ∈ fed := by simpa using ⟨he, hedges⟩
    refine ⟨_, rfl, rfl, ⟨_, hr', hedges'⟩, events fun t ht => ?_, by simp [receiveEdge]⟩
    exact mem_of_mem_linkedPairs ho hedges' (hl ▸ Multiset.mem_add.2 (.inr ht))
  | revoke =>
    by_cases hm : [a, b] ∈ edges
    · obtain ⟨state', stale, hs, hr', hl⟩ := hr.remove? hm
      refine ⟨⟨closure state', stale.map fun p => ⟨.revoke, [p.1, p.2]⟩, none⟩, ?_, rfl,
        ⟨_, hr', fun t ht => hedges t (Multiset.mem_of_mem_erase ht)⟩, events fun t ht => ?_,
        by simp⟩
      · simp only [receive, receiveEdge, hs]
      · exact mem_of_mem_linkedPairs ho hedges (hl ▸ Multiset.mem_add.2 (.inr ht))
    · have hs : state.remove? a b = none := Closure.remove?_eq_none hr.toBased hm
      refine ⟨⟨closure state, [], some (.missingTuple "transitive closure" [a, b])⟩, ?_, rfl,
        ⟨_, hr, hedges⟩, by simp, ?_⟩
      · simp only [receive, receiveEdge, hs]
      · rintro _ ⟨⟩
        exact (Issue.not_isRelational (by decide)).2

inductive Counts (memory memory' : Bag Tuple) (e : Event) : List Event → Prop where
  | still : memory'.toMultiset.toFinset = memory.toMultiset.toFinset → Counts memory memory' e []
  | comes : e.direction = .insert → e.tuple ∉ memory.toMultiset →
      memory'.toMultiset.toFinset = insert e.tuple memory.toMultiset.toFinset →
      Counts memory memory' e [e]
  | goes : e.direction = .revoke → e.tuple ∈ memory.toMultiset →
      memory'.toMultiset.toFinset = memory.toMultiset.toFinset.erase e.tuple →
      Counts memory memory' e [e]

theorem Counts.subset {memory memory' : Bag Tuple} {l : List Event}
    (h : Counts memory memory' e l) (he : e.tuple ∈ out) (hm : ∀ t ∈ memory.toMultiset, t ∈ out) :
    (∀ t ∈ memory'.toMultiset, t ∈ out) ∧ ∀ o ∈ l, o.direction = e.direction ∧ o.tuple ∈ out := by
  simp only [← Multiset.mem_toFinset] at hm ⊢
  cases h with
  | still h => exact ⟨h ▸ hm, by simp⟩
  | comes _ _ h => exact ⟨by rw [h]; simpa using ⟨he, by simpa using hm⟩, by simpa using he⟩
  | goes _ _ h => exact ⟨fun t ht => hm t (Finset.mem_of_mem_erase (h ▸ ht)), by simpa using he⟩

theorem receiveCounted_counts (rebuild : Bag Tuple → Node) (index : String) (memory : Bag Tuple)
    (e : Event) : ∃ memory' l issue, receiveCounted rebuild index memory e =
        { node := rebuild memory', out := l, issue } ∧ Counts memory memory' e l ∧
      ∀ i, issue = some i → i = .missingTuple index e.tuple := by
  by_cases hs : e.direction = .revoke → e.tuple ∈ memory.toMultiset
  · have suits : e.Suits e.tuple.length False memory.toMultiset := ⟨rfl, fun _ h => h.elim, hs⟩
    obtain ⟨after, hcount, hafter⟩ := countEvent_eq suits rfl
    obtain ⟨d, t⟩ := e
    by_cases hm : t ∈ (Event.mk d t).rest memory.toMultiset
    · rw [decide_eq_false (by simpa using hm)] at hcount
      refine ⟨after, [], none, by rw [receiveCounted, hcount], .still ?_, by simp⟩
      rw [hafter]
      cases d with
      | insert =>
        have hm : t ∈ memory.toMultiset := hm
        simp [hm]
      | revoke =>
        have hm : t ∈ memory.toMultiset.erase t := hm
        rw [Event.apply_revoke, ← Multiset.cons_erase (hs rfl)]
        simp [hm]
    · rw [decide_eq_true hm] at hcount
      refine ⟨after, [⟨d, t⟩], none, by rw [receiveCounted, hcount], ?_, by simp⟩
      cases d with
      | insert => exact .comes rfl hm (by simp [hafter])
      | revoke =>
        have hm : t ∉ memory.toMultiset.erase t := hm
        refine .goes rfl (hs rfl) ?_
        rw [hafter, Event.apply_revoke, ← Multiset.cons_erase (hs rfl)]
        simp [hm]
  · obtain ⟨d, t⟩ := e
    obtain ⟨rfl, hm⟩ := Classical.not_imp.1 hs
    have hcount : memory.countEvent ⟨.revoke, t⟩ = (memory, none) := by
      have hd := Bag.decrement_snd memory t
      rw [← Bag.count_toMultiset, Multiset.count_eq_zero_of_notMem hm] at hd
      have hd : memory.decrement t = ((memory.decrement t).1, .missing) := Prod.ext rfl hd
      rw [Bag.countEvent, hd]
    exact ⟨memory, [], some (.missingTuple index t), by rw [receiveCounted, hcount], .still rfl,
      by simp⟩

/-- A node that is fed tuples of its parents' sets answers within its own. -/
theorem receive_confined {n : Node} (hn : n.isFed = true) (hf : n.Fits masks width arity)
    (hw : e.tuple.length = width) (he : e.tuple ∈ fed) (hm : n.Carries masks fed held out)
    (hc : n.Confined fed out) :
    ∃ reply, n.receive e = .ok reply ∧ n.Answers fed out e reply := by
  cases n with
  | trim mask => exact receive_trim_confined (hw.trans hf.1.symm) (hm _ he)
  | constantFilter column value =>
    refine ⟨_, ?_, answers_filter (q := e.tuple[column]? = some value) trivial (hm he)⟩
    have hc : column < e.tuple.length := hw ▸ hf.1
    rw [receive, Tuple.column_eq hc, List.getElem?_eq_getElem hc]
    simp [bind, Except.bind, pure, Except.pure]
  | equalityFilter groups =>
    refine ⟨_, ?_, answers_filter (q := e.tuple.equalIn groups) trivial (hm he)⟩
    rw [receive, Tuple.agreeIn_eq fun g hg c h => hw ▸ hf.1 g hg c h]
    simp [bind, Except.bind, pure, Except.pure]
  | inequalityFilter left right =>
    refine ⟨_, ?_, answers_filter (q := e.tuple[left]? ≠ e.tuple[right]?) trivial (hm he)⟩
    obtain ⟨hl, hr, -⟩ := hf
    rw [← hw] at hl hr
    rw [receive, Tuple.column_eq hl, Tuple.column_eq hr, List.getElem?_eq_getElem hl,
      List.getElem?_eq_getElem hr]
    simp [bind, Except.bind, pure, Except.pure]
  | expression x =>
    exact receive_expression_confined (fun i hi => hw ▸ hf.1 i hi) (hm _ he) hc
  | closure state => exact receive_closure_confined (hw.trans hf.1) he hm hc
  | uniqueness memory =>
    obtain ⟨memory', l, issue, hr, hl, hi⟩ :=
      receiveCounted_counts uniqueness "uniqueness" memory e
    obtain ⟨hc', ho⟩ := hl.subset (hm he) hc
    refine ⟨_, congrArg Except.ok hr, rfl, hc', ho, fun i h => ?_⟩
    exact hi i h ▸ (Issue.not_isRelational (by decide)).2
  | production query memory =>
    obtain ⟨memory', l, issue, hr, hl, hi⟩ :=
      receiveCounted_counts (production query) ("production " ++ query) memory e
    obtain ⟨hc', ho⟩ := hl.subset (hm he) hc
    refine ⟨_, congrArg Except.ok hr, rfl, hc', ho, fun i h => ?_⟩
    exact hi i h ▸ (Issue.not_isRelational (by simp)).2
  | _ => cases hn

structure Hears (masks : IndexId → Mask) (held : IndexId → Set Tuple) (n : Node) (side : Side)
    (e : Event) (change : IndexChange) (bucket : Option (Bag Tuple)) (I : IndexId) : Prop where
  source : n.source side = some I
  tuple : e.tuple ∈ held I
  signature : change.signature = (masks I).signature e.tuple
  width : ∀ (side : Side) (J : IndexId), n.source side = some J →
    ∀ t ∈ held J, t.length = (masks J).width
  bucket : ∀ t ∈ (bucket.getD ∅).items, ∃ J, n.consults side change = some J ∧ t ∈ held J

structure Reacts (fed out : Set Tuple) (n : Node) (side : Side) (e : Event) (n' : Node)
    (events : List Event) : Prop where
  bare : n'.bare = n.bare
  confined : n'.Confined fed out
  out : ∀ o ∈ events, o.tuple ∈ out
  steady : n.steady side = true → ∀ o ∈ events, o.direction = e.direction

variable {n : Node} {side : Side} {change : IndexChange} {bucket : Option (Bag Tuple)} {I : IndexId}

theorem Hears.mem_of_consults (h : n.Hears masks held side e change bucket I) {J : IndexId}
    (hJ : n.consults side change = some J) : ∀ t ∈ (bucket.getD ∅).items, t ∈ held J := by
  intro t ht
  obtain ⟨K, hK, hm⟩ := h.bucket t ht
  exact Option.some.inj (hK.symm.trans hJ) ▸ hm

theorem mem_or_eq_of_mem_previousView {shared : Bool} {t : Tuple} (h : t ∈ previousView bucket shared e) :
    t ∈ (bucket.getD ∅).items ∨ (shared = true ∧ t = e.tuple) := by
  rw [previousView] at h
  cases shared with
  | false => exact .inl h
  | true =>
    rw [if_pos rfl] at h
    cases hd : e.direction with
    | insert =>
      rw [hd, Bag.mem_items, Bag.toMultiset_remove] at h
      exact .inl (Bag.mem_items.2 (Multiset.mem_of_mem_erase h))
    | revoke =>
      rw [hd, Bag.mem_items, Bag.toMultiset_add, Multiset.mem_cons] at h
      exact h.elim (fun h => .inr ⟨rfl, h⟩) fun h => .inl (Bag.mem_items.2 h)

theorem Hears.mem_of_mem_previousView {p s : IndexId} (h : n.Hears masks held .primary e change bucket p)
    (hs : n.consults .primary change = some s) :
    ∀ t ∈ previousView bucket (decide (p = s)) e, t ∈ held s := by
  intro t ht
  obtain hm | ⟨hp, rfl⟩ := mem_or_eq_of_mem_previousView ht
  · exact h.mem_of_consults hs t hm
  · exact of_decide_eq_true hp ▸ h.tuple

theorem Hears.combine_primary {p s : IndexId} {c : Mask}
    (h : n.Hears masks held .primary e change bucket p) (hs : n.consults .primary change = some s)
    (hn : n.source .secondary = some s) (hc : c.width = (masks s).width)
    (ho : ∀ b ∈ held s, e.tuple ++ c.signature b ∈ out) :
    ∃ rows : List Tuple, (∀ t ∈ rows, t ∈ out) ∧
      ((previousView bucket (decide (p = s)) e).mapM fun b =>
        do return Event.mk e.direction (← c.combine e.tuple b)) =
      .ok (rows.map (Event.mk e.direction)) := by
  have hm := h.mem_of_mem_previousView hs
  refine ⟨_, fun t ht => ?_, mapM_combine_right e.direction fun b hb => ?_⟩
  · obtain ⟨b, hb, rfl⟩ := List.mem_map.1 ht
    exact ho b (hm b hb)
  · exact (h.width .secondary s hn b (hm b hb)).trans hc.symm

theorem Hears.combine_secondary {p s : IndexId} {c : Mask}
    (h : n.Hears masks held .secondary e change bucket s)
    (hs : n.consults .secondary change = some p) (hc : c.width = (masks s).width)
    (ho : ∀ a ∈ held p, a ++ c.signature e.tuple ∈ out) :
    ∃ rows : List Tuple, (∀ t ∈ rows, t ∈ out) ∧
      ((bucket.getD ∅).items.mapM fun a => do return Event.mk e.direction (← c.combine a e.tuple)) =
      .ok (rows.map (Event.mk e.direction)) := by
  refine ⟨_, fun t ht => ?_, mapM_combine_left _ e.direction ?_⟩
  · obtain ⟨a, ha, rfl⟩ := List.mem_map.1 ht
    exact ho a (h.mem_of_consults hs a ha)
  · exact (h.width .secondary s h.source e.tuple h.tuple).trans hc.symm

theorem Reacts.of_rows {rows : List Tuple} (hc : n.Confined fed out) (h : ∀ t ∈ rows, t ∈ out) :
    n.Reacts fed out side e n (rows.map (Event.mk e.direction)) := by
  refine ⟨rfl, hc, fun o ho => ?_, fun _ o ho => ?_⟩ <;> obtain ⟨t, ht, rfl⟩ := List.mem_map.1 ho
  · exact h t ht
  · rfl

theorem respond_join_confined {p s : IndexId} {c : Mask} (hf : (join p s c).Fits masks width arity)
    (hm : (join p s c).Carries masks fed held out)
    (h : (join p s c).Hears masks held side e change bucket I) :
    ∃ n' events, (join p s c).respond side e change bucket = .ok (n', events) ∧
      (join p s c).Reacts fed out side e n' events := by
  obtain ⟨rfl, -⟩ := hf
  cases side with
  | primary =>
    obtain rfl : p = I := Option.some.inj h.source
    obtain ⟨rows, hr, ho⟩ := h.combine_primary (c := (masks s).complement) rfl rfl
      (Mask.width_complement _) (hm _ h.tuple)
    refine ⟨_, _, ?_, .of_rows trivial hr⟩
    rw [respond, respondJoin, ho]
    rfl
  | secondary =>
    obtain rfl : s = I := Option.some.inj h.source
    obtain ⟨rows, hr, ho⟩ := h.combine_secondary (c := (masks s).complement) rfl
      (Mask.width_complement _) fun a ha => hm a ha _ h.tuple
    refine ⟨_, _, ?_, .of_rows trivial hr⟩
    rw [respond, respondJoin, ho]
    rfl

theorem respond_existence_confined {p s : IndexId} {negative : Bool}
    (hm : (existence p s negative).Carries masks fed held out)
    (h : (existence p s negative).Hears masks held side e change bucket I) :
    ∃ n' events, (existence p s negative).respond side e change bucket = .ok (n', events) ∧
      (existence p s negative).Reacts fed out side e n' events := by
  refine ⟨_, _, rfl, rfl, trivial, ?_, ?_⟩
  · cases side with
    | primary =>
      obtain rfl : p = I := Option.some.inj h.source
      simp only [respondExistence]
      split
      all_goals
        split
        · simp
        · simpa using hm h.tuple
    | secondary =>
      intro o ho
      simp only [respondExistence] at ho
      split at ho
      · next ht =>
        obtain ⟨a, ha, rfl⟩ := List.mem_map.1 ho
        exact hm (h.mem_of_consults (if_pos ht) a ha)
      · cases ho
  · cases side with
    | primary =>
      intro _
      simp only [respondExistence]
      split <;> split <;> simp
    | secondary => intro hs; cases hs

theorem respond_outerJoin_confined {p s : IndexId} {c : Mask} {d : Tuple}
    (hf : (outerJoin p s c d).Fits masks width arity)
    (hm : (outerJoin p s c d).Carries masks fed held out)
    (h : (outerJoin p s c d).Hears masks held side e change bucket I) :
    ∃ n' events, (outerJoin p s c d).respond side e change bucket = .ok (n', events) ∧
      (outerJoin p s c d).Reacts fed out side e n' events := by
  obtain ⟨rfl, -, -⟩ := hf
  cases side with
  | primary =>
    obtain rfl : p = I := Option.some.inj h.source
    obtain ⟨rows, hr, ho⟩ := h.combine_primary (c := (masks s).complement) rfl rfl
      (Mask.width_complement _) (hm _ h.tuple).2
    rw [respond, respondOuterJoin]
    cases hv : previousView bucket (decide (p = s)) e with
    | nil =>
      refine ⟨_, [e.tuple ++ d].map (Event.mk e.direction), rfl, .of_rows trivial ?_⟩
      simpa using (hm _ h.tuple).1
    | cons b partners =>
      refine ⟨_, rows.map (Event.mk e.direction), ?_, .of_rows trivial hr⟩
      rw [hv] at ho
      simp only [ho]
      rfl
  | secondary =>
    obtain rfl : s = I := Option.some.inj h.source
    obtain ⟨rows, hr, ho⟩ := h.combine_secondary (c := (masks s).complement) rfl
      (Mask.width_complement _) fun a ha => (hm a ha).2 _ h.tuple
    rw [respond, respondOuterJoin, ho]
    refine ⟨_, _, rfl, rfl, trivial, fun o ho => ?_, fun hs => by cases hs⟩
    have defaulted : ∀ o ∈ (if change.transition = true then (bucket.getD ∅).items.map fun a =>
        (⟨e.direction.opposite, a ++ d⟩ : Event) else []), o.tuple ∈ out := by
      intro o ho
      split at ho
      · obtain ⟨a, ha, rfl⟩ := List.mem_map.1 ho
        exact (hm a (h.mem_of_consults rfl a ha)).1
      · cases ho
    have joined : ∀ o ∈ rows.map (Event.mk e.direction), o.tuple ∈ out := by
      intro o ho
      obtain ⟨t, ht, rfl⟩ := List.mem_map.1 ho
      exact hr t ht
    cases hd : e.direction <;> rw [hd] at ho defaulted joined
    · exact (List.mem_append.1 ho).elim (defaulted o) (joined o)
    · exact (List.mem_append.1 ho).elim (joined o) (defaulted o)

theorem respond_grouping_confined {g : Grouping} (hf : (grouping g).Fits masks width arity)
    (hm : (grouping g).Carries masks fed held out) (hc : (grouping g).Confined fed out)
    (h : (grouping g).Hears masks held side e change bucket I) :
    ∃ n' events, (grouping g).respond side e change bucket = .ok (n', events) ∧
      (grouping g).Reacts fed out side e n' events := by
  cases side with
  | secondary => cases h.source
  | primary =>
    obtain rfl : g.source = I := Option.some.inj h.source
    -- The columns that are folded are there.
    obtain ⟨fresh, hfold⟩ : ∃ fresh, g.fold bucket = .ok fresh := by
      cases bucket with
      | none => exact ⟨none, rfl⟩
      | some b =>
        refine ⟨_, fold_some fun t ht c hcol => ?_⟩
        rw [h.width .primary g.source rfl t (h.mem_of_consults rfl t ht)]
        exact hf.1 c hcol
    have row : ∀ v : Value, change.signature ++ [v] ∈ out := fun v => h.signature ▸ hm _ h.tuple v
    rw [respond, Grouping.respond, hfold]
    simp only [bind, Except.bind]
    by_cases hsame : g.groups[change.signature]? = fresh
    · exact ⟨grouping g, [], by rw [if_pos hsame]; rfl, rfl, hc, by simp, fun hs => by cases hs⟩
    · refine ⟨grouping { g with groups := replaced g.groups change.signature fresh }, _,
        by rw [if_neg hsame]; rfl, rfl, fun s v hs => ?_, fun o ho => ?_, fun hs => by cases hs⟩
      · dsimp only at hs
        rw [getElem?_replaced] at hs
        split at hs
        · next e => exact e ▸ row v
        · exact hc s v hs
      · obtain ho | ho := List.mem_append.1 ho
        all_goals
          obtain ⟨v, -, rfl⟩ := List.mem_map.1 ho
          exact row v

theorem respond_confined (hf : n.Fits masks width arity) (hm : n.Carries masks fed held out)
    (hc : n.Confined fed out) (h : n.Hears masks held side e change bucket I) :
    ∃ n' events, n.respond side e change bucket = .ok (n', events) ∧
      n.Reacts fed out side e n' events := by
  cases n with
  | join p s c => exact respond_join_confined hf hm h
  | existence p s negative => exact respond_existence_confined hm h
  | outerJoin p s c d => exact respond_outerJoin_confined hf hm h
  | grouping g => exact respond_grouping_confined hf hm hc h
  | _ => cases h.source

end Node
end Motif
