import Motif.Proofs.Respond

/-!
Rows with where they come from. An outer join holds for each primary tuple its pairs, or the tuple
alone; a grouping holds one row for a signature. Both answer a change by taking rows away before they
bring others, so that what is held in between is part of what is held before or after.
-/
set_option autoImplicit false
namespace Motif

open Std (ExtTreeMap)

def RevokesFirst (out : List Event) : Prop :=
  out.Pairwise fun e e' => e.direction = .insert → e'.direction = .insert

section moves
variable {α : Type} {P : Multiset α → Prop} {m m' m'' : Multiset α}

/-- Rows come and go one by one, none goes that is not there, and at every point what is held has the
property. -/
def Throughout [DecidableEq α] (P : Multiset α → Prop) : Multiset α → List (Direction × α) → Multiset α → Prop
  | m, [], m' => P m ∧ m = m'
  | m, (.insert, x) :: rest, m' => P m ∧ Throughout P (x ::ₘ m) rest m'
  | m, (.revoke, x) :: rest, m' => P m ∧ x ∈ m ∧ Throughout P (m.erase x) rest m'

namespace Throughout
variable [DecidableEq α]

theorem trans {moves moves' : List (Direction × α)} (h : Throughout P m moves m')
    (h' : Throughout P m' moves' m'') : Throughout P m (moves ++ moves') m'' := by
  induction moves generalizing m with
  | nil =>
    obtain ⟨-, rfl⟩ := h
    exact h'
  | cons move rest ih =>
    obtain ⟨d, x⟩ := move
    cases d with
    | insert => exact ⟨h.1, ih h.2⟩
    | revoke => exact ⟨h.1, h.2.1, ih h.2.2⟩

variable (closed : ∀ m m' : Multiset α, m ≤ m' → P m' → P m)
include closed

theorem revokes {l : List α} (h : P (m + ↑l)) :
    Throughout P (m + ↑l) (l.map (Direction.revoke, ·)) m := by
  induction l with
  | nil => exact ⟨h, by rw [Multiset.coe_nil, add_zero]⟩
  | cons x rest ih =>
    have first : m + ↑(x :: rest) = x ::ₘ (m + ↑rest) := by
      rw [← Multiset.cons_coe, Multiset.add_cons]
    rw [first] at h ⊢
    refine ⟨h, Multiset.mem_cons_self _ _, ?_⟩
    rw [Multiset.erase_cons_head]
    exact ih (closed _ _ (Multiset.le_cons_self _ _) h)

theorem inserts {l : List α} (h : P (m + ↑l)) :
    Throughout P m (l.map (Direction.insert, ·)) (m + ↑l) := by
  induction l generalizing m with
  | nil => exact ⟨closed _ _ (Multiset.le_add_right _ _) h, by rw [Multiset.coe_nil, add_zero]⟩
  | cons x rest ih =>
    have first : m + ↑(x :: rest) = x ::ₘ m + ↑rest := by
      rw [← Multiset.cons_coe, Multiset.add_cons, Multiset.cons_add]
    rw [first] at h ⊢
    exact ⟨closed _ _ ((Multiset.le_cons_self _ _).trans (Multiset.le_add_right _ _)) h, ih h⟩

end Throughout

def Swaps (row : α → Tuple) (before after : Multiset α) (out : List Event) : Prop :=
  ∃ (kept : Multiset α) (gone come : List α), before = kept + ↑gone ∧ after = kept + ↑come ∧
    out = (gone.map fun x => ⟨.revoke, row x⟩) ++ come.map fun x => ⟨.insert, row x⟩

namespace Swaps
variable {row : α → Tuple} {before after : Multiset α} {out : List Event}

theorem revokesFirst (h : Swaps row before after out) : RevokesFirst out := by
  obtain ⟨kept, gone, come, -, -, rfl⟩ := h
  refine List.pairwise_append.2 ⟨?_, ?_, ?_⟩
  · rw [List.pairwise_map]
    exact List.pairwise_of_forall fun _ _ h => nomatch h
  · rw [List.pairwise_map]
    exact List.pairwise_of_forall fun _ _ _ => rfl
  · intro _ _ _ h _
    obtain ⟨_, -, rfl⟩ := List.mem_map.1 h
    rfl

/-- Before the first row comes all is held that is held before, or less, and then no more than is held
after. -/
theorem throughout [DecidableEq α] (h : Swaps row before after out)
    (closed : ∀ m m' : Multiset α, m ≤ m' → P m' → P m) (hb : P before) (ha : P after) :
    ∃ moves : List (Direction × α), out = moves.map (fun x => ⟨x.1, row x.2⟩) ∧
      Throughout P before moves after := by
  obtain ⟨kept, gone, come, rfl, rfl, rfl⟩ := h
  refine ⟨gone.map (Direction.revoke, ·) ++ come.map (Direction.insert, ·), ?_,
    (Throughout.revokes closed hb).trans (Throughout.inserts closed ha)⟩
  rw [List.map_append, List.map_map, List.map_map]
  rfl

/-- What a function of the multiset gains by the tuple comes when the tuple comes, and goes when it
goes. -/
theorem of_rest {F : Multiset Tuple → Multiset α} {l : List α} {e : Event} {w : Nat} {flat : Prop}
    {S : Multiset Tuple} (h : e.Suits w flat S) (hF : F (e.tuple ::ₘ e.rest S) = F (e.rest S) + ↑l) :
    Swaps row (F S) (F (e.apply S)) (l.map fun x => ⟨e.direction, row x⟩) := by
  cases hd : e.direction with
  | insert =>
    refine ⟨F (e.rest S), [], l, ?_, ?_, rfl⟩
    · rw [Event.rest_of_insert hd, Multiset.coe_nil, add_zero]
    · rw [Event.apply_of_insert hd, hF]
  | revoke =>
    refine ⟨F (e.rest S), l, [], ?_, ?_, (List.append_nil _).symm⟩
    · rw [← hF, ← h.cons_rest hd]
    · rw [Event.apply_of_revoke hd, Multiset.coe_nil, add_zero]

end Swaps
end moves

/-- A primary tuple with one of its partners, or without any. -/
abbrev Pairing := Tuple × Option Tuple

def Pairing.row (c : Mask) (d : Tuple) (x : Pairing) : Tuple := x.1 ++ x.2.elim d c.signature

def Unmixed (m : Multiset Pairing) : Prop := ∀ a b, (a, none) ∈ m → (a, some b) ∉ m

theorem Unmixed.mono (m m' : Multiset Pairing) (h : m ≤ m') (hm : Unmixed m') : Unmixed m :=
  fun a b ha hb => hm a b (Multiset.mem_of_le h ha) (Multiset.mem_of_le h hb)

def pairings (p s : Mask) (P S : Multiset Tuple) : Multiset Pairing :=
  (P.bind fun a => (partners p s S a).map fun b => (a, some b)) +
    (matching p s true P S).map (·, none)

def pairingsOf (p s : Mask) (S : Multiset Tuple) (a : Tuple) : Multiset Pairing :=
  if partners p s S a = 0 then {(a, none)} else (partners p s S a).map fun b => (a, some b)

section pairings
variable {p s c : Mask} {d : Tuple} {P S : Multiset Tuple}

theorem pairings_eq_bind (P S : Multiset Tuple) :
    pairings p s P S = P.bind (pairingsOf p s S) := by
  have alone : (matching p s true P S).map (·, (none : Option Tuple)) =
      P.bind fun a => if partners p s S a = 0 then {(a, none)} else 0 := by
    rw [bind_ite_singleton, matching]
    simp only [iff_true]
  rw [pairings, alone, ← Multiset.bind_add]
  refine Multiset.bind_congr fun a _ => ?_
  rw [pairingsOf]
  split
  · rename_i h
    rw [h, Multiset.map_zero, zero_add]
  · rw [add_zero]

theorem map_row_pairings (P S : Multiset Tuple) :
    (pairings p s P S).map (Pairing.row c d) = leftJoin p s c d P S := by
  rw [pairings_eq_bind, Multiset.map_bind, leftJoin]
  refine Multiset.bind_congr fun a _ => ?_
  rw [pairingsOf, outerRows]
  split
  · rfl
  · rw [Multiset.map_map]
    rfl

theorem pairings_cons_left (a : Tuple) (P S : Multiset Tuple) :
    pairings p s (a ::ₘ P) S = pairings p s P S + pairingsOf p s S a := by
  rw [pairings_eq_bind, pairings_eq_bind, Multiset.cons_bind, add_comm]

theorem unmixed_pairings (P S : Multiset Tuple) : Unmixed (pairings p s P S) := by
  intro a b ha hb
  rw [pairings_eq_bind, Multiset.mem_bind] at ha hb
  obtain ⟨a', -, ha⟩ := ha
  obtain ⟨b', -, hb⟩ := hb
  rw [pairingsOf] at ha hb
  split at ha <;> split at hb <;> simp_all

theorem pairs_cons (b : Tuple) (P S : Multiset Tuple) :
    (P.bind fun a => (partners p s (b ::ₘ S) a).map fun b => (a, some b)) =
      (P.bind fun a => (partners p s S a).map fun b => (a, some b)) +
        (P.filter fun a => p.signature a = s.signature b).map fun a => (a, some b) := by
  rw [← bind_ite_singleton, ← Multiset.bind_add]
  refine Multiset.bind_congr fun a _ => ?_
  rw [partners_cons, Multiset.map_add, add_comm]
  by_cases h : p.signature a = s.signature b
  · rw [if_pos h, if_pos h, Multiset.map_singleton]
  · rw [if_neg h, if_neg h, Multiset.map_zero]

theorem pairings_cons_of_exists {b : Tuple} (h : ∃ u ∈ S, s.signature u = s.signature b) :
    pairings p s P (b ::ₘ S) = pairings p s P S +
      (P.filter fun a => p.signature a = s.signature b).map fun a => (a, some b) := by
  rw [pairings, pairings, pairs_cons, matching_cons_right.1 h, add_right_comm]

theorem pairings_cons_of_forall_ne {b : Tuple} (h : ∀ u ∈ S, s.signature u ≠ s.signature b) :
    ∃ kept, pairings p s P S = kept +
        (P.filter fun a => p.signature a = s.signature b).map (·, none) ∧
      pairings p s P (b ::ₘ S) = kept +
        (P.filter fun a => p.signature a = s.signature b).map fun a => (a, some b) := by
  have alone := (@matching_cons_right p s true b P S).2 h
  rw [if_pos rfl, if_pos rfl] at alone
  refine ⟨(P.bind fun a => (partners p s S a).map fun b => (a, some b)) +
    (matching p s true P (b ::ₘ S)).map (·, none), ?_, ?_⟩
  · rw [pairings, alone, Multiset.map_add, add_assoc]
  · rw [pairings, pairs_cons, add_right_comm]

end pairings

def groupEntry (x : Tuple × Value) : Tuple := x.1 ++ [x.2]

def Single (m : Multiset (Tuple × Value)) : Prop := (m.map Prod.fst).Nodup

theorem Single.mono (m m' : Multiset (Tuple × Value)) (h : m ≤ m') (hm : Single m') : Single m :=
  Multiset.nodup_of_le (Multiset.map_le_map h) hm

theorem single_toList (groups : ExtTreeMap Tuple Value) : Single ↑groups.toList := by
  rw [Single, Multiset.map_coe, ExtTreeMap.map_fst_toList_eq_keys]
  exact Multiset.coe_nodup.2 ExtTreeMap.nodup_keys

/-- The entries of a map are those of the other keys and that of the key, if there is one. -/
theorem coe_toList_eq_add (groups : ExtTreeMap Tuple Value) (s : Tuple) :
    (↑groups.toList : Multiset (Tuple × Value)) =
      ↑(groups.erase s).toList + ↑(groups[s]?.toList.map (s, ·)) := by
  have nodup := fun groups : ExtTreeMap Tuple Value => Multiset.Nodup.of_map _ (single_toList groups)
  have mem : ∀ (groups : ExtTreeMap Tuple Value) (k : Tuple) (v : Value),
      (k, v) ∈ groups.toList ↔ groups[k]? = some v :=
    fun _ _ _ => ExtTreeMap.mem_toList_iff_getElem?_eq_some
  have one : ∀ k v, (k, v) ∈ groups[s]?.toList.map (s, ·) ↔ s = k ∧ groups[s]? = some v := by
    simp [and_comm]
  have erased : ∀ k : Tuple, (groups.erase s)[k]? = if s = k then none else groups[k]? := fun k => by
    rw [ExtTreeMap.getElem?_erase]
    simp only [Std.LawfulEqCmp.compare_eq_iff_eq]
  have apart : (↑(groups.erase s).toList + ↑(groups[s]?.toList.map (s, ·)) :
      Multiset (Tuple × Value)).Nodup := by
    refine Multiset.nodup_add.2 ⟨nodup _, ?_, Multiset.disjoint_left.2 ?_⟩
    · cases groups[s]? <;> simp
    · rintro ⟨k, v⟩ hk ho
      rw [Multiset.mem_coe, mem, erased, if_pos ((one k v).1 ho).1] at hk
      cases hk
  refine (Multiset.Nodup.ext (nodup groups) apart).2 fun ⟨k, v⟩ => ?_
  rw [Multiset.mem_add, Multiset.mem_coe, Multiset.mem_coe, Multiset.mem_coe, mem, mem, one, erased]
  by_cases h : s = k
  · subst h
    simp
  · simp [h]

namespace Node
variable {masks : IndexId → Mask} {unique : IndexId → Bool} {side : Side} {e : Event}
  {change : IndexChange} {view : Side → Multiset Tuple} {I : IndexId} {bucket : Option (Bag Tuple)}
  {n' : Node} {out : List Event} {width arity : Nat}

section outerJoin
variable {p s : IndexId} {c : Mask} {d : Tuple}

theorem respondOuterJoin_pairings {m : Mask} {S : Multiset Tuple} {shared : Bool}
    (hl : (↑(previousView bucket shared e) : Multiset Tuple) = partners m c S e.tuple)
    (hw : ∀ b ∈ previousView bucket shared e, b.length = c.complement.width) :
    ∃ l : List Pairing, (↑l : Multiset Pairing) = pairingsOf m c S e.tuple ∧
      respondOuterJoin shared c.complement d .primary e change bucket =
        .ok (l.map fun x => ⟨e.direction, x.row c.complement d⟩) := by
  rw [pairingsOf, respondOuterJoin]
  generalize previousView bucket shared e = l at hl hw
  rw [← hl]
  cases l with
  | nil => exact ⟨[(e.tuple, none)], rfl, rfl⟩
  | cons b rest =>
    refine ⟨(b :: rest).map fun b => (e.tuple, some b), by simp, ?_⟩
    dsimp only
    rw [mapM_combine_right e.direction hw, List.map_map, List.map_map]
    rfl

theorem swaps_outerJoin (hf : (outerJoin p s c d).Fits masks width arity)
    (h : (outerJoin p s c d).Told masks unique side e change view I)
    (hb : ∀ J, (outerJoin p s c d).consults side change = some J → Finds bucket
      (group (masks J) ((outerJoin p s c d).consulted side e view) change.signature))
    (hr : (outerJoin p s c d).respond side e change bucket = .ok (n', out)) :
    let view' := onSide side (e.apply (view side)) view
    Swaps (Pairing.row c d) (pairings (masks p) (masks s) (view .primary) (view .secondary))
      (pairings (masks p) (masks s) (view' .primary) (view' .secondary)) out := by
  obtain ⟨rfl, -, -⟩ := hf
  cases side with
  | primary =>
    obtain rfl : p = I := Option.some.inj h.source
    have hv := h.coe_previousView rfl (hb s rfl)
    obtain ⟨l, hl, ho⟩ := respondOuterJoin_pairings (d := d) hv fun b hm =>
      h.length_partners rfl (hv ▸ Multiset.mem_coe.2 hm)
    rw [respond, ho] at hr
    cases hr
    refine Swaps.of_rest (F := fun P => pairings (masks p) (masks s) P (view .secondary)) h.suits ?_
    rw [pairings_cons_left, hl]
  | secondary =>
    obtain rfl : s = I := Option.some.inj h.source
    have hv := (hb p rfl).tuples
    rw [h.signature] at hv
    rw [respond, respondOuterJoin_secondary (c := (masks s).complement) h.suits.width] at hr
    cases hr
    obtain ⟨l, hl⟩ : ∃ l, l = (bucket.getD ∅).items := ⟨_, rfl⟩
    have hm : (↑l : Multiset Tuple) = (view .primary).filter fun a =>
      (masks p).signature a = (masks s).signature e.tuple := hl ▸ hv
    rw [← hl]
    dsimp only
    rw [onSide_self, onSide_secondary_primary]
    by_cases ht : change.transition = true
    · obtain ⟨kept, before, after⟩ := pairings_cons_of_forall_ne (p := masks p) (P := view .primary)
        (h.transition.1 ht)
      rw [← hm, Multiset.map_coe] at before after
      rw [if_pos ht]
      cases hd : e.direction with
      | insert =>
        rw [Event.apply_of_insert hd, after, ← Event.rest_of_insert hd (m := view .secondary), before]
        refine ⟨kept, _, _, rfl, rfl, ?_⟩
        simp [exchange, Pairing.row, Function.comp_def]
      | revoke =>
        rw [Event.apply_of_revoke hd, before, h.suits.cons_rest hd, after]
        refine ⟨kept, _, _, rfl, rfl, ?_⟩
        simp [exchange, Pairing.row, Function.comp_def]
    · have seen : ∃ u ∈ e.rest (view .secondary),
          (masks s).signature u = (masks s).signature e.tuple := by
        by_contra hn
        push Not at hn
        exact ht (h.transition.2 hn)
      have more := pairings_cons_of_exists (p := masks p) (P := view .primary) seen
      rw [← hm, Multiset.map_coe] at more
      rw [if_neg ht]
      have swaps : Swaps (Pairing.row (masks s).complement d) _ _ _ :=
        Swaps.of_rest (F := pairings (masks p) (masks s) (view .primary)) h.suits more
      cases hd : e.direction <;> simpa [exchange, hd, Pairing.row, Function.comp_def] using swaps

end outerJoin

theorem swaps_grouping {g : Grouping} {signature : Tuple} {g' : Grouping}
    (h : g.respond signature bucket = .ok (g', out)) :
    Swaps groupEntry ↑g.groups.toList ↑g'.groups.toList out := by
  obtain ⟨fresh, -, h⟩ := bind_ok h
  dsimp only at h
  split at h
  · cases h
    exact ⟨_, [], [], (add_zero _).symm, (add_zero _).symm, rfl⟩
  · cases h
    have before := coe_toList_eq_add g.groups signature
    have after := coe_toList_eq_add (replaced g.groups signature fresh) signature
    have others : (replaced g.groups signature fresh).erase signature = g.groups.erase signature := by
      refine ExtTreeMap.ext_getElem? fun s => ?_
      rw [ExtTreeMap.getElem?_erase, ExtTreeMap.getElem?_erase, getElem?_replaced]
      split
      · rfl
      · rename_i hne
        exact if_neg fun h : signature = s => hne (by rw [h]; exact Std.ReflCmp.compare_self)
    rw [others, getElem?_replaced, if_pos rfl] at after
    refine ⟨_, _, _, before, after, ?_⟩
    simp [groupEntry, Function.comp_def]

end Node
end Motif
