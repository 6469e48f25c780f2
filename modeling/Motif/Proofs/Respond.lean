import Motif.Proofs.Event
import Motif.Proofs.Node
import Motif.Proofs.Traversal

set_option autoImplicit false
namespace Motif

open Std (ExtTreeMap)

section group
variable {m : Mask} {S : Multiset Tuple} {e : Event}

theorem group_cons_self (t : Tuple) (S : Multiset Tuple) :
    group m (t ::ₘ S) (m.signature t) = t ::ₘ group m S (m.signature t) :=
  Multiset.filter_cons_of_pos (p := fun u => m.signature u = m.signature t) _ rfl

theorem group_eq_zero_iff {s : Tuple} : group m S s = 0 ↔ ∀ t ∈ S, m.signature t ≠ s :=
  Multiset.filter_eq_nil

theorem mem_group {s t : Tuple} : t ∈ group m S s ↔ t ∈ S ∧ m.signature t = s :=
  Multiset.mem_filter

end group

structure Finds (bucket : Option (Bag Tuple)) (G : Multiset Tuple) : Prop where
  tuples : (bucket.getD ∅).toMultiset = G
  none : bucket = none ↔ G = 0

namespace Node

/-- What the index consulted on a change holds: on the primary side it is a change ahead if it is
the index that has changed. -/
def consulted (n : Node) (side : Side) (e : Event) (view : Side → Multiset Tuple) :
    Multiset Tuple :=
  match side, n.source .secondary with
  | .primary, none => e.apply (view .primary)
  | .primary, some s =>
    if n.source .primary = some s then e.apply (view .secondary) else view .secondary
  | .secondary, _ => view .primary

theorem consulted_primary_of_none {n : Node} {e : Event} {view : Side → Multiset Tuple}
    (h : n.source .secondary = none) : n.consulted .primary e view = e.apply (view .primary) := by
  unfold consulted
  rw [h]

theorem consulted_primary_of_some {n : Node} {e : Event} {view : Side → Multiset Tuple}
    {s : IndexId} (h : n.source .secondary = some s) : n.consulted .primary e view =
      if n.source .primary = some s then e.apply (view .secondary) else view .secondary := by
  unfold consulted
  rw [h]

theorem consulted_secondary {n : Node} {e : Event} {view : Side → Multiset Tuple} :
    n.consulted .secondary e view = view .primary := by
  unfold consulted
  cases n.source .secondary <;> rfl

structure Told (masks : IndexId → Mask) (unique : IndexId → Bool) (n : Node) (side : Side)
    (e : Event) (change : IndexChange) (view : Side → Multiset Tuple) (I : IndexId) : Prop where
  source : n.source side = some I
  suits : e.Suits (masks I).width (unique I = true) (view side)
  signature : change.signature = (masks I).signature e.tuple
  transition : change.transition = true ↔
    ∀ u ∈ e.rest (view side), (masks I).signature u ≠ (masks I).signature e.tuple
  widths : n.Widths masks view
  nodup : ∀ side J, n.source side = some J → unique J = true → (view side).Nodup
  behind : side = .primary → n.source .secondary = some I → view .secondary = view .primary

structure Responds (masks : IndexId → Mask) (fed : Multiset Tuple) (arity : Nat) (flat : Prop)
    (n : Node) (view view' : Side → Multiset Tuple) (n' : Node) (out : List Event) : Prop where
  bare : n'.bare = n.bare
  holds : n'.Holds masks fed view'
  leads : Leads arity flat (n.output masks fed view) out (n.output masks fed view')

variable {masks : IndexId → Mask} {unique : IndexId → Bool} {n : Node} {side : Side} {e : Event}
  {change : IndexChange} {view : Side → Multiset Tuple} {I : IndexId} {bucket : Option (Bag Tuple)}
  {arity : Nat} {fed : Multiset Tuple}

theorem Told.nodup_cons_rest (h : n.Told masks unique side e change view I) (hu : unique I = true) :
    (e.tuple ::ₘ e.rest (view side)).Nodup :=
  h.suits.nodup_cons_rest hu (h.nodup side I h.source hu)

theorem Told.width_cons_rest (h : n.Told masks unique side e change view I) :
    ∀ u ∈ e.tuple ::ₘ e.rest (view side), u.length = (masks I).width :=
  h.suits.width_cons_rest (h.widths side I h.source)

theorem Told.exists_of_not_transition (h : n.Told masks unique side e change view I)
    (ht : ¬change.transition = true) :
    ∃ u ∈ e.rest (view side), (masks I).signature u = (masks I).signature e.tuple := by
  by_contra hn
  push Not at hn
  exact ht (h.transition.2 hn)

theorem Told.coe_items {p : IndexId} (h : n.Told masks unique .secondary e change view I)
    (hb : Finds bucket (group (masks p) (n.consulted .secondary e view) change.signature)) :
    (↑(bucket.getD ∅).items : Multiset Tuple) =
      (view .primary).filter fun a => (masks p).signature a = (masks I).signature e.tuple := by
  have hv := hb.tuples
  rw [h.signature, consulted_secondary] at hv
  exact hv

theorem Told.length_items {p : IndexId} (h : n.Told masks unique .secondary e change view I)
    (hp : n.source .primary = some p)
    (hb : Finds bucket (group (masks p) (n.consulted .secondary e view) change.signature)) :
    ∀ a ∈ (bucket.getD ∅).items, a.length = (masks p).width := by
  intro a ha
  rw [← Multiset.mem_coe, h.coe_items hb] at ha
  exact h.widths .primary p hp a (Multiset.mem_filter.1 ha).1

theorem coe_previousView {m : Mask} {s : Tuple} {shared : Bool} {S : Multiset Tuple}
    (hs : shared = true → s = m.signature e.tuple ∧ (e.direction = .revoke → e.tuple ∈ S))
    (hb : Finds bucket (group m (if shared then e.apply S else S) s)) :
    (↑(previousView bucket shared e) : Multiset Tuple) = group m S s := by
  obtain ⟨d, t⟩ := e
  cases shared with
  | false => exact hb.tuples
  | true =>
    obtain ⟨rfl, hr⟩ := hs rfl
    cases d with
    | insert =>
      have h : ((bucket.getD ∅).remove t).toMultiset = group m S (m.signature t) := by
        rw [Bag.toMultiset_remove, hb.tuples, if_pos rfl, Event.apply_insert, group_cons_self,
          Multiset.erase_cons_head]
      exact h
    | revoke =>
      have h : ((bucket.getD ∅).add t).toMultiset = group m S (m.signature t) := by
        rw [Bag.toMultiset_add, hb.tuples, if_pos rfl, Event.apply_revoke, ← group_cons_self,
          Multiset.cons_erase (hr rfl)]
      exact h

theorem Told.coe_previousView {p s : IndexId} (h : n.Told masks unique .primary e change view p)
    (hs : n.source .secondary = some s)
    (hb : Finds bucket (group (masks s) (n.consulted .primary e view) change.signature)) :
    (↑(previousView bucket (decide (p = s)) e) : Multiset Tuple) =
      partners (masks p) (masks s) (view .secondary) e.tuple := by
  have hc : n.consulted .primary e view =
      if (decide (p = s)) = true then e.apply (view .secondary) else view .secondary := by
    simp [consulted, hs, h.source]
  rw [hc, h.signature] at hb
  refine Node.coe_previousView (fun hd => ?_) hb
  obtain rfl : p = s := of_decide_eq_true hd
  exact ⟨rfl, fun hr => h.behind rfl hs ▸ h.suits.revoke hr⟩

theorem mapM_combine_right {c : Mask} {a : Tuple} {l : List Tuple} (d : Direction)
    (h : ∀ b ∈ l, b.length = c.width) :
    (l.mapM fun b => do return Event.mk d (← c.combine a b)) =
      .ok ((l.map fun b => a ++ c.signature b).map (Event.mk d)) := by
  rw [List.map_map]
  refine mapM_ok fun b hb => ?_
  rw [Mask.combine_eq (h b hb)]
  rfl

theorem mapM_combine_left {c : Mask} {b : Tuple} (l : List Tuple) (d : Direction)
    (h : b.length = c.width) :
    (l.mapM fun a => do return Event.mk d (← c.combine a b)) =
      .ok ((l.map fun a => a ++ c.signature b).map (Event.mk d)) := by
  rw [List.map_map]
  refine mapM_ok fun a _ => ?_
  rw [Mask.combine_eq h]
  rfl

theorem Told.leads {flat : Prop} {l : List Tuple} (h : n.Told masks unique side e change view I)
    (hF : n.output masks fed (onSide side (e.tuple ::ₘ e.rest (view side)) view) =
      n.output masks fed (onSide side (e.rest (view side)) view) + ↑l)
    (hw : ∀ t ∈ l, t.length = arity)
    (hn : flat → (n.output masks fed (onSide side (e.tuple ::ₘ e.rest (view side)) view)).Nodup) :
    Leads arity flat (n.output masks fed view) (l.map (Event.mk e.direction))
      (n.output masks fed (onSide side (e.apply (view side)) view)) := by
  have hl := Leads.of_rest (F := fun m => n.output masks fed (onSide side m view)) h.suits hF hw hn
  simpa only [onSide_eta] using hl

section join
variable {p s : IndexId} {c : Mask} {flat : Prop} {width : Nat}

theorem Told.length_partners (h : n.Told masks unique side e change view I)
    (hs : n.source .secondary = some s) {a b : Tuple}
    (hb : b ∈ partners (masks p) (masks s) (view .secondary) a) : b.length = (masks s).width :=
  h.widths _ _ hs b (mem_partners.1 hb).1

theorem respond_join (hf : (join p s c).Fits masks width arity)
    (h : (join p s c).Told masks unique side e change view I)
    (hb : ∀ J, (join p s c).consults side change = some J → Finds bucket
      (group (masks J) ((join p s c).consulted side e view) change.signature)) :
    ∃ n' out, (join p s c).respond side e change bucket = .ok (n', out) ∧
      (join p s c).Responds masks fed arity ((join p s c).Flat unique flat) view
        (onSide side (e.apply (view side)) view) n' out := by
  obtain ⟨rfl, rfl⟩ := hf
  cases side with
  | primary =>
    obtain rfl : p = I := Option.some.inj h.source
    have hv := h.coe_previousView rfl (hb s rfl)
    have hw : ∀ b ∈ previousView bucket (decide (p = s)) e, b.length = (masks s).width :=
      fun b hm => h.length_partners rfl (hv ▸ Multiset.mem_coe.2 hm)
    refine ⟨join p s (masks s).complement, ((previousView bucket (decide (p = s)) e).map fun b =>
      e.tuple ++ (masks s).complement.signature b).map (Event.mk e.direction), ?_, rfl, trivial, ?_⟩
    · rw [respond, respondJoin, mapM_combine_right (c := (masks s).complement) _ hw]
      rfl
    · refine h.leads ?_ ?_ ?_
      · simp only [output, onSide_self, onSide_primary_secondary, naturalJoin_cons_left, ← hv]
        rw [add_comm, Multiset.map_coe]
      · intro t ht
        obtain ⟨b, hm, rfl⟩ := List.mem_map.1 ht
        rw [List.length_append, h.suits.width, Mask.length_signature (m := (masks s).complement) (hw b hm)]
      · rintro ⟨hp, hs⟩
        simp only [output, onSide_self, onSide_primary_secondary]
        exact nodup_naturalJoin (h.nodup_cons_rest hp) (h.nodup .secondary s rfl hs)
          h.width_cons_rest (h.widths .secondary s rfl)
  | secondary =>
    obtain rfl : s = I := Option.some.inj h.source
    have hv := h.coe_items (hb p rfl)
    refine ⟨join p s (masks s).complement, ((bucket.getD ∅).items.map fun a =>
      a ++ (masks s).complement.signature e.tuple).map (Event.mk e.direction), ?_, rfl, trivial, ?_⟩
    · rw [respond, respondJoin, mapM_combine_left (c := (masks s).complement) _ _ h.suits.width]
      rfl
    · refine h.leads ?_ ?_ ?_
      · simp only [output, onSide_self, onSide_secondary_primary, naturalJoin_cons_right]
        rw [add_comm, ← Multiset.map_coe, hv]
      · intro t ht
        obtain ⟨a, hm, rfl⟩ := List.mem_map.1 ht
        rw [List.length_append, h.length_items rfl (hb p rfl) a hm,
          Mask.length_signature (m := (masks s).complement) h.suits.width]
      · rintro ⟨hp, hs⟩
        simp only [output, onSide_self, onSide_secondary_primary]
        exact nodup_naturalJoin (h.nodup .primary p rfl hp) (h.nodup_cons_rest hs)
          (h.widths .primary p rfl) h.width_cons_rest

end join

section existence
variable {p s : IndexId} {negative : Bool} {flat : Prop} {width : Nat}

/-- Whether a primary tuple that comes or goes has a partner. -/
theorem Told.present_iff (h : (existence p s negative).Told masks unique .primary e change view p)
    (hb : ∀ J, (existence p s negative).consults .primary change = some J → Finds bucket
      (group (masks J) ((existence p s negative).consulted .primary e view) change.signature)) :
    (if decide (p = s) = true then decide (e.direction = .revoke) || !change.transition
      else bucket.isSome) = !decide (partners (masks p) (masks s) (view .secondary) e.tuple = 0) := by
  by_cases hp : p = s
  · subst hp
    have hv := h.behind rfl rfl
    rw [if_pos (decide_eq_true rfl), hv]
    cases hd : e.direction with
    | insert =>
      have ht := h.transition
      rw [Event.rest_of_insert hd, ← partners_eq_zero_iff] at ht
      simp [← ht]
    | revoke =>
      have hm : partners (masks p) (masks p) (view .primary) e.tuple ≠ 0 := by
        rw [Ne, partners_eq_zero_iff]
        exact fun hz => hz e.tuple (h.suits.revoke hd) rfl
      simp [hm]
  · have hc : (existence p s negative).consulted .primary e view = view .secondary :=
      if_neg fun e => hp (Option.some.inj e)
    have hf := hb s (by simp [consults, hp])
    rw [hc, h.signature] at hf
    have hi : bucket = none ↔ partners (masks p) (masks s) (view .secondary) e.tuple = 0 := hf.none
    rw [if_neg (by simpa using hp)]
    by_cases hn : bucket = none
    · simp [hn, hi.1 hn]
    · have hz := mt hi.2 hn
      simp [hz, Option.isSome_iff_ne_none, hn]

theorem respond_existence (hf : (existence p s negative).Fits masks width arity)
    (h : (existence p s negative).Told masks unique side e change view I)
    (hb : ∀ J, (existence p s negative).consults side change = some J → Finds bucket
      (group (masks J) ((existence p s negative).consulted side e view) change.signature)) :
    ∃ n' out, (existence p s negative).respond side e change bucket = .ok (n', out) ∧
      (existence p s negative).Responds masks fed arity
        ((existence p s negative).Flat unique flat) view (onSide side (e.apply (view side)) view)
        n' out := by
  obtain rfl : arity = (masks p).width := hf
  cases side with
  | primary =>
    obtain rfl : p = I := Option.some.inj h.source
    have hp := h.present_iff hb
    have hout : respondExistence (decide (p = s)) negative .primary e change bucket =
        (if partners (masks p) (masks s) (view .secondary) e.tuple = 0 ↔ negative = true
          then [e.tuple] else []).map (Event.mk e.direction) := by
      simp only [respondExistence, hp]
      by_cases hz : partners (masks p) (masks s) (view .secondary) e.tuple = 0
      · cases negative <;> simp [hz]
      · cases negative <;> simp [hz]
    refine ⟨existence p s negative, _, by rw [respond, hout], rfl, trivial, h.leads ?_ ?_ ?_⟩
    · simp only [output, onSide_self, onSide_primary_secondary, matching_cons_left]
      rw [add_comm]
      split <;> simp
    · intro t ht
      split at ht
      · rw [List.mem_singleton.1 ht, h.suits.width]
      · cases ht
    · intro hu
      simp only [output, onSide_self, onSide_primary_secondary]
      exact (h.nodup_cons_rest hu).filter _
  | secondary =>
    obtain rfl : s = I := Option.some.inj h.source
    obtain ⟨more, first⟩ := @matching_cons_right (masks p) (masks s) negative e.tuple
      (view .primary) (e.rest (view .secondary))
    have nodup : (existence p s negative).Flat unique flat →
        ∀ S, (matching (masks p) (masks s) negative (view .primary) S).Nodup :=
      fun hu S => (h.nodup .primary p rfl hu).filter _
    by_cases ht : change.transition = true
    · have found := hb p (by simp [consults, ht])
      have hw := h.length_items rfl found
      have first := first (h.transition.1 ht)
      rw [← h.coe_items found] at first
      cases negative with
      | true =>
        refine ⟨existence p s true, (bucket.getD ∅).items.map (Event.mk e.direction.opposite),
          by simp [respond, respondExistence, ht], rfl, trivial, ?_⟩
        have hl : Leads (masks p).width ((existence p s true).Flat unique flat) _ _ _ :=
          Leads.of_rest_opposite (F := fun m => (existence p s true).output masks fed (onSide .secondary m view))
          h.suits first hw fun hu => nodup hu _
        simpa only [onSide_eta] using hl
      | false =>
        exact ⟨existence p s false, (bucket.getD ∅).items.map (Event.mk e.direction),
          by simp [respond, respondExistence, ht], rfl, trivial,
          h.leads first hw fun hu => nodup hu _⟩
    · refine ⟨existence p s negative, [], by simp [respond, respondExistence, ht], rfl, trivial, ?_⟩
      have hr := h.exists_of_not_transition ht
      have hl : Leads (masks p).width ((existence p s negative).Flat unique flat)
          ((existence p s negative).output masks fed view) [] _ := h.leads (l := [])
        ((more hr).trans (by simp [output])) (by simp) fun hu => nodup hu _
      exact hl

end existence

section outerJoin
variable {p s : IndexId} {c : Mask} {d : Tuple} {width : Nat}

theorem respondOuterJoin_primary {m : Mask} {S : Multiset Tuple} {shared : Bool}
    (hl : (↑(previousView bucket shared e) : Multiset Tuple) = partners m c S e.tuple)
    (hw : ∀ b ∈ previousView bucket shared e, b.length = c.complement.width) :
    ∃ rows : List Tuple, (↑rows : Multiset Tuple) = outerRows m c c.complement d S e.tuple ∧
      respondOuterJoin shared c.complement d .primary e change bucket =
        .ok (rows.map (Event.mk e.direction)) := by
  rw [outerRows, respondOuterJoin]
  generalize previousView bucket shared e = l at hl hw
  rw [← hl]
  cases l with
  | nil => exact ⟨[e.tuple ++ d], by simp, rfl⟩
  | cons b rest =>
    refine ⟨(b :: rest).map fun b => e.tuple ++ c.complement.signature b, by simp, ?_⟩
    exact mapM_combine_right e.direction hw

/-- Old rows go before new ones come, in the order of the change that replaces them. -/
def exchange (d : Direction) (defaulted joined : List Tuple) : List Event :=
  match d with
  | .insert => defaulted.map (Event.mk .revoke) ++ joined.map (Event.mk .insert)
  | .revoke => joined.map (Event.mk .revoke) ++ defaulted.map (Event.mk .insert)

theorem respondOuterJoin_secondary {shared : Bool} (h : e.tuple.length = c.width) :
    respondOuterJoin shared c d .secondary e change bucket = .ok (exchange e.direction
      (if change.transition then (bucket.getD ∅).items.map (· ++ d) else [])
      ((bucket.getD ∅).items.map (· ++ c.signature e.tuple))) := by
  rw [respondOuterJoin, mapM_combine_left (c := c) _ _ h]
  cases e.direction <;> cases change.transition <;>
    simp [exchange, bind, Except.bind, pure, Except.pure, Function.comp_def, Direction.opposite]

theorem respond_outerJoin_primary
    (hd : d.length = (masks s).complement.arity)
    (h : (outerJoin p s (masks s).complement d).Told masks unique .primary e change view p)
    (hb : Finds bucket
      (group (masks s) ((outerJoin p s (masks s).complement d).consulted .primary e view)
        change.signature)) {flat : Prop} :
    ∃ rows : List Tuple, respondOuterJoin (decide (p = s)) (masks s).complement d .primary e change
        bucket = .ok (rows.map (Event.mk e.direction)) ∧
      Leads ((masks p).width + (masks s).complement.arity)
        ((outerJoin p s (masks s).complement d).Flat unique flat)
        ((outerJoin p s (masks s).complement d).output masks fed view)
        (rows.map (Event.mk e.direction))
        ((outerJoin p s (masks s).complement d).output masks fed
          (onSide .primary (e.apply (view .primary)) view)) := by
  have hv := h.coe_previousView rfl hb
  obtain ⟨rows, hr, ho⟩ := respondOuterJoin_primary (d := d) hv fun b hm =>
    h.length_partners rfl (hv ▸ Multiset.mem_coe.2 hm)
  refine ⟨rows, ho, h.leads ?_ ?_ ?_⟩
  · simp only [output, onSide_self, onSide_primary_secondary, leftJoin_cons_left, ← hr]
    rw [add_comm]
  · intro t ht
    rw [← Multiset.mem_coe, hr] at ht
    rw [length_of_mem_outerRows (c := (masks s).complement) (h.widths .secondary s rfl) hd ht,
      h.suits.width]
  · rintro ⟨hp, hs⟩
    simp only [output, onSide_self, onSide_primary_secondary]
    exact nodup_leftJoin (h.nodup_cons_rest hp) (h.nodup .secondary s rfl hs) h.width_cons_rest
      (h.widths .secondary s rfl)

section secondary
variable {flat : Prop} {joined defaulted : List Tuple} {arity : Nat}
  (h : (outerJoin p s (masks s).complement d).Told masks unique .secondary e change view s)
  (hjoined : (↑joined : Multiset Tuple) =
    ((view .primary).filter fun a => (masks p).signature a = (masks s).signature e.tuple).map
      (· ++ (masks s).complement.signature e.tuple))
  (wide : ∀ t ∈ joined, t.length = arity)
include h

theorem Told.nodup_leftJoin (hf : (outerJoin p s (masks s).complement d).Flat unique flat) :
    (leftJoin (masks p) (masks s) (masks s).complement d (view .primary)
      (e.tuple ::ₘ e.rest (view .secondary))).Nodup :=
  Motif.nodup_leftJoin (h.nodup .primary p rfl hf.1) (h.nodup_cons_rest hf.2)
    (h.widths .primary p rfl) h.width_cons_rest

include hjoined wide

/-- With the first partner or the last one, the defaults go or come. -/
theorem Told.leads_exchange (ht : change.transition = true)
    (hdefaulted : (↑defaulted : Multiset Tuple) =
      ((view .primary).filter fun a => (masks p).signature a = (masks s).signature e.tuple).map
        (· ++ d))
    (wide' : ∀ t ∈ defaulted, t.length = arity) :
    Leads arity ((outerJoin p s (masks s).complement d).Flat unique flat)
      ((outerJoin p s (masks s).complement d).output masks fed view)
      (exchange e.direction defaulted joined)
      ((outerJoin p s (masks s).complement d).output masks fed
        (onSide .secondary (e.apply (view .secondary)) view)) := by
  obtain ⟨before, after⟩ := leftJoin_cons_of_forall_ne (p := masks p) (c := (masks s).complement)
    (d := d) (P := view .primary) (h.transition.1 ht)
  have nodup := fun hf : (outerJoin p s (masks s).complement d).Flat unique flat =>
    h.nodup_leftJoin hf
  rw [← hdefaulted] at before
  rw [← hjoined] at after
  simp only [exchange, output, onSide_self, onSide_secondary_primary]
  cases hdir : e.direction with
  | insert =>
    rw [Event.rest_of_insert hdir] at before after nodup
    rw [Event.apply_of_insert hdir, Event.rest_of_insert hdir, before, after]
    exact (Leads.revokes wide').trans (Leads.inserts wide fun hf => after ▸ nodup hf)
  | revoke =>
    rw [← h.suits.cons_rest hdir] at after
    rw [Event.apply_of_revoke hdir, before, after]
    refine (Leads.revokes wide).trans (Leads.inserts wide' fun hf => before ▸ ?_)
    exact Motif.nodup_leftJoin (h.nodup .primary p rfl hf.1)
      (Multiset.nodup_cons.1 (h.nodup_cons_rest hf.2)).2 (h.widths .primary p rfl)
      fun u hu => h.width_cons_rest u (Multiset.mem_cons_of_mem hu)

theorem Told.leads_joined (ht : ¬change.transition = true) :
    Leads arity ((outerJoin p s (masks s).complement d).Flat unique flat)
      ((outerJoin p s (masks s).complement d).output masks fed view)
      (exchange e.direction [] joined)
      ((outerJoin p s (masks s).complement d).output masks fed
        (onSide .secondary (e.apply (view .secondary)) view)) := by
  have more := leftJoin_cons_of_exists (p := masks p) (c := (masks s).complement) (d := d)
    (P := view .primary) (h.exists_of_not_transition ht)
  rw [← hjoined] at more
  have hl : Leads _ ((outerJoin p s (masks s).complement d).Flat unique flat)
      ((outerJoin p s (masks s).complement d).output masks fed view) _ _ :=
    h.leads (l := joined) more wide h.nodup_leftJoin
  cases hdir : e.direction with
  | insert => simpa [exchange, hdir] using hl
  | revoke => simpa [exchange, hdir] using hl

end secondary

theorem respond_outerJoin (hf : (outerJoin p s c d).Fits masks width arity)
    (h : (outerJoin p s c d).Told masks unique side e change view I)
    {flat : Prop} (hb : ∀ J, (outerJoin p s c d).consults side change = some J → Finds bucket
      (group (masks J) ((outerJoin p s c d).consulted side e view) change.signature)) :
    ∃ n' out, (outerJoin p s c d).respond side e change bucket = .ok (n', out) ∧
      (outerJoin p s c d).Responds masks fed arity ((outerJoin p s c d).Flat unique flat) view
        (onSide side (e.apply (view side)) view) n' out := by
  obtain ⟨rfl, hd, rfl⟩ := hf
  cases side with
  | primary =>
    obtain rfl : p = I := Option.some.inj h.source
    obtain ⟨rows, ho, leads⟩ := respond_outerJoin_primary hd h (hb s rfl)
    exact ⟨outerJoin p s (masks s).complement d, _, by rw [respond, ho]; rfl, rfl, trivial, leads⟩
  | secondary =>
    obtain rfl : s = I := Option.some.inj h.source
    have items := h.coe_items (hb p rfl)
    have rows : ∀ r : Tuple, r.length = (masks s).complement.arity →
        ∀ t ∈ (bucket.getD ∅).items.map (· ++ r),
          t.length = (masks p).width + (masks s).complement.arity := by
      intro r hr t ht
      obtain ⟨a, ha, rfl⟩ := List.mem_map.1 ht
      rw [List.length_append, h.length_items rfl (hb p rfl) a ha, hr]
    have told (r : Tuple) : (↑((bucket.getD ∅).items.map (· ++ r)) : Multiset Tuple) = _ :=
      (Multiset.map_coe (· ++ r) _).symm.trans (congrArg (Multiset.map (· ++ r)) items)
    have wide := rows _ (Mask.length_signature (m := (masks s).complement) h.suits.width)
    have hout : (outerJoin p s (masks s).complement d).respond .secondary e change bucket =
        .ok (outerJoin p s (masks s).complement d, exchange e.direction
          (if change.transition then (bucket.getD ∅).items.map (· ++ d) else [])
          ((bucket.getD ∅).items.map (· ++ (masks s).complement.signature e.tuple))) := by
      rw [respond, respondOuterJoin_secondary (c := (masks s).complement) h.suits.width]
      rfl
    refine ⟨outerJoin p s (masks s).complement d, _, hout, rfl, trivial, ?_⟩
    by_cases ht : change.transition = true
    · rw [if_pos ht]
      exact h.leads_exchange (told _) wide ht (told d) (rows d hd)
    · rw [if_neg ht]
      exact h.leads_joined (told _) wide ht

end outerJoin

section grouping
variable {g : Grouping} {width : Nat} {flat : Prop}

theorem fold_some {b : Bag Tuple} (wide : ∀ t ∈ b.items, ∀ c, g.column = some c → c < t.length) :
    g.fold (some b) = .ok (g.operator.fold (b.items.map (foldedValue g.column))) := by
  rw [Grouping.fold, mapM_ok (g := foldedValue g.column)]
  · rfl
  · intro t ht
    cases h : g.column with
    | none => rfl
    | some c =>
      have hlt : c < t.length := wide t ht c h
      simp [foldedValue, Tuple.column_eq hlt, List.getElem?_eq_getElem hlt]

theorem fold_eq {m : Mask} {S : Multiset Tuple} {s : Tuple} (hw : ∀ t ∈ S, t.length = m.width)
    (hc : ∀ c, g.column = some c → c < m.width) (hb : Finds bucket (group m S s)) :
    g.fold bucket = .ok (g.operator.groupValue g.column (group m S s)) := by
  rw [Aggregator.groupValue]
  cases bucket with
  | none =>
    rw [if_pos (hb.none.1 rfl)]
    rfl
  | some b =>
    have hz : group m S s ≠ 0 := fun h => by simpa using hb.none.2 h
    have ht : b.toMultiset = group m S s := hb.tuples
    have wide : ∀ t ∈ b.items, ∀ c, g.column = some c → c < t.length := by
      intro t hm c h
      rw [Bag.mem_items, ht, mem_group] at hm
      exact (hw t hm.1).symm ▸ hc c h
    rw [if_neg hz, fold_some wide, ← ht, Aggregator.valueOf, ascending_toMultiset]

def replaced (groups : ExtTreeMap Tuple Value) (s : Tuple) (fresh : Option Value) :
    ExtTreeMap Tuple Value :=
  match fresh with
  | some v => groups.insert s v
  | none => groups.erase s

theorem getElem?_replaced (groups : ExtTreeMap Tuple Value) (s : Tuple) (fresh : Option Value)
    (t : Tuple) : (replaced groups s fresh)[t]? = if s = t then fresh else groups[t]? := by
  cases fresh <;> simp [replaced, ExtTreeMap.getElem?_insert, ExtTreeMap.getElem?_erase]

theorem group_apply_of_ne {m : Mask} {S : Multiset Tuple} {s : Tuple} {w : Nat}
    (hs : e.Suits w flat S) (h : m.signature e.tuple ≠ s) : group m (e.apply S) s = group m S s := by
  cases hd : e.direction with
  | insert => rw [Event.apply_of_insert hd, Event.rest_of_insert hd, group_cons_of_ne h]
  | revoke =>
    rw [Event.apply_of_revoke hd, ← group_cons_of_ne (m := m) (S := e.rest S) h,
      ← hs.cons_rest hd]

theorem otherRows_apply {m : Mask} {op : Aggregator} {column : Option Nat} {S : Multiset Tuple}
    {w : Nat} (hs : e.Suits w flat S) : otherRows m op column (e.apply S) (m.signature e.tuple) =
      otherRows m op column S (m.signature e.tuple) := by
  cases hd : e.direction with
  | insert => rw [Event.apply_of_insert hd, Event.rest_of_insert hd, otherRows_cons]
  | revoke => rw [Event.apply_of_revoke hd, ← otherRows_cons (e.rest S), ← hs.cons_rest hd]

theorem respond_grouping (hf : (grouping g).Fits masks width arity)
    (hh : (grouping g).Holds masks fed view)
    (h : (grouping g).Told masks unique side e change view I)
    (hb : ∀ J, (grouping g).consults side change = some J → Finds bucket
      (group (masks J) ((grouping g).consulted side e view) change.signature)) :
    ∃ n' out, (grouping g).respond side e change bucket = .ok (n', out) ∧
      (grouping g).Responds masks fed arity ((grouping g).Flat unique flat) view
        (onSide side (e.apply (view side)) view) n' out := by
  obtain ⟨hc, rfl⟩ := hf
  cases side with
  | secondary => cases h.source
  | primary =>
    obtain rfl : g.source = I := Option.some.inj h.source
    have hw : ∀ t ∈ e.apply (view .primary), t.length = (masks g.source).width :=
      (Leads.single h.suits).width_right (h.widths .primary g.source rfl)
    have hv := hb g.source rfl
    have hc' : (grouping g).consulted .primary e view = e.apply (view .primary) := rfl
    rw [hc', h.signature] at hv
    have hfold := fold_eq hw hc hv
    have hold : g.groups[change.signature]? = g.operator.groupValue g.column
        (group (masks g.source) (view .primary) ((masks g.source).signature e.tuple)) :=
      h.signature ▸ hh _
    obtain ⟨old, ho⟩ : ∃ old, old = g.operator.groupValue g.column
      (group (masks g.source) (view .primary) ((masks g.source).signature e.tuple)) := ⟨_, rfl⟩
    obtain ⟨fresh, hfr⟩ : ∃ fresh, fresh = g.operator.groupValue g.column (group (masks g.source)
      (e.apply (view .primary)) ((masks g.source).signature e.tuple)) := ⟨_, rfl⟩
    rw [← ho] at hold
    rw [← hfr] at hfold
    have before : groupRows (masks g.source) g.operator g.column (view .primary) = _ :=
      groupRows_eq_add (view .primary) ((masks g.source).signature e.tuple)
    have after : groupRows (masks g.source) g.operator g.column (e.apply (view .primary)) = _ :=
      groupRows_eq_add (e.apply (view .primary)) ((masks g.source).signature e.tuple)
    rw [groupRow, ← ho] at before
    rw [groupRow, ← hfr, otherRows_apply h.suits] at after
    have others : ∀ s, s ≠ change.signature → g.groups[s]? = g.operator.groupValue g.column
        (group (masks g.source) (e.apply (view .primary)) s) := by
      intro s hs
      rw [group_apply_of_ne h.suits (h.signature ▸ hs.symm)]
      exact hh s
    rw [respond, Grouping.respond, hfold]
    simp only [bind, Except.bind, hold]
    by_cases hsame : old = fresh
    · refine ⟨grouping g, [], by simp [hsame, pure, Except.pure], rfl, fun s => ?_, ?_⟩
      · by_cases hs : s = change.signature
        · rw [hs, hold, hsame, hfr, h.signature]
          rfl
        · exact others s hs
      · simp only [output, onSide_self, before, after, hsame]
        exact Leads.refl _
    · have widths : ∀ v : Option Value, ∀ t ∈ (v.map fun v =>
          (masks g.source).signature e.tuple ++ [v]).toList,
          t.length = (masks g.source).arity + 1 := by
        intro v t ht
        rw [Option.mem_toList, Option.map_eq_some_iff] at ht
        obtain ⟨v, -, rfl⟩ := ht
        rw [List.length_append, Mask.length_signature h.suits.width]
        rfl
      have leads : Leads _ ((grouping g).Flat unique flat) _ _ _ := (Leads.revokes
        (m := otherRows (masks g.source) g.operator g.column (view .primary)
          ((masks g.source).signature e.tuple)) (widths old)).trans
        (Leads.inserts (widths fresh) fun _ => after ▸ nodup_groupRows _)
      rw [← before, ← after] at leads
      refine ⟨grouping { g with groups := replaced g.groups change.signature fresh },
        (old.toList.map fun v => ⟨.revoke, change.signature ++ [v]⟩) ++
          fresh.toList.map fun v => ⟨.insert, change.signature ++ [v]⟩,
        by simp only [if_neg hsame]; rfl, rfl, fun s => ?_, ?_⟩
      · by_cases hs : s = change.signature
        · dsimp only
          rw [hs, getElem?_replaced, if_pos rfl, hfr, h.signature]
          rfl
        · dsimp only
          rw [getElem?_replaced, if_neg (Ne.symm hs)]
          exact others s hs
      · simpa [output, h.signature, Function.comp_def, Option.toList_map] using leads

end grouping

/-- A node over indexes answers the change of one with the change of its output, and then keeps what
it has to keep. -/
theorem respond_responds {width : Nat} (flat : Prop) (hf : n.Fits masks width arity)
    (hh : n.Holds masks fed view) (h : n.Told masks unique side e change view I)
    (hb : ∀ J, n.consults side change = some J → Finds bucket
      (group (masks J) (n.consulted side e view) change.signature)) :
    ∃ n' out, n.respond side e change bucket = .ok (n', out) ∧
      n.Responds masks fed arity (n.Flat unique flat) view (onSide side (e.apply (view side)) view)
        n' out := by
  cases n with
  | join p s c => exact respond_join hf h hb
  | existence p s negative => exact respond_existence hf h hb
  | outerJoin p s c d => exact respond_outerJoin hf h hb
  | grouping g => exact respond_grouping hf hh h hb
  | _ => cases h.source

end Node
end Motif
