import Mathlib.Data.Set.Finite.List
import Motif.Proofs.Network.Insertion

/-!
In a positive network every propagation of insertions ends, cycles or not. A task leads to tasks that
are closer to an end until a node puts out what it has not put out before, and of that there is only
so much: the sets of what nodes put out stay within a closed family, and there is a finite one, since
no value is put out that was not given from outside or is among the constants. When nothing is left to
do, the nodes have put out the least closed family.
-/
set_option autoImplicit false
namespace Motif
namespace Network

/-- What the nodes have not put out of a finite family. -/
def missing (room : Finset (NodeId × Tuple)) (out : NodeId → Multiset Tuple) : Nat :=
  (room.filter fun x => x.2 ∉ out x.1).card

section missing
variable {room : Finset (NodeId × Tuple)} {out out' : NodeId → Multiset Tuple}

theorem missing_le (h : ∀ q, ∀ t ∈ out q, t ∈ out' q) : missing room out' ≤ missing room out := by
  refine Finset.card_le_card fun x hx => ?_
  rw [Finset.mem_filter] at hx ⊢
  exact ⟨hx.1, fun hm => hx.2 (h _ _ hm)⟩

theorem missing_lt (h : ∀ q, ∀ t ∈ out q, t ∈ out' q) {q : NodeId} {t : Tuple}
    (hroom : (q, t) ∈ room) (hn : t ∉ out q) (hm : t ∈ out' q) :
    missing room out' < missing room out := by
  refine Finset.card_lt_card ((Finset.ssubset_iff_of_subset fun x hx => ?_).2 ⟨(q, t), ?_, ?_⟩)
  · rw [Finset.mem_filter] at hx ⊢
    exact ⟨hx.1, fun hx' => hx.2 (h _ _ hx')⟩
  · exact Finset.mem_filter.2 ⟨hroom, hn⟩
  · rw [Finset.mem_filter, not_and, not_not]
    exact fun _ => hm

end missing

variable {s net : Network} {base fed out : NodeId → Multiset Tuple}

def Clears (s : Network) (base : NodeId → Multiset Tuple) (net : Network) (tasks rest : Agenda)
    (out : NodeId → Multiset Tuple) : Prop :=
  ∃ net' fed' out', Settles net tasks net' ∧ Spreading s base net' rest fed' out' ∧
    ∀ q, ∀ t ∈ out q, t ∈ out' q

def ClearsWithin (s : Network) (base : NodeId → Multiset Tuple) (room : Finset (NodeId × Tuple))
    (n : Nat) (task : Task) : Prop :=
  ∀ net rest fed out, Spreading s base net (task :: rest) fed out → missing room out ≤ n →
    Clears s base net [task] rest out

theorem clears_all {room : Finset (NodeId × Tuple)} {n : Nat} {tasks rest : Agenda}
    (clears : ∀ task ∈ tasks, ClearsWithin s base room n task)
    (h : Spreading s base net (tasks ++ rest) fed out) (hn : missing room out ≤ n) :
    Clears s base net tasks rest out := by
  induction tasks generalizing net fed out with
  | nil => exact ⟨net, fed, out, .nil net, h, fun _ _ ht => ht⟩
  | cons task tasks ih =>
    obtain ⟨net₁, fed₁, out₁, hs, h₁, le₁⟩ := clears task (by simp) net (tasks ++ rest) fed out h hn
    obtain ⟨net₂, fed₂, out₂, hs', h₂, le₂⟩ := ih (fun x hx => clears x (by simp [hx])) h₁
      ((missing_le le₁).trans hn)
    exact ⟨net₂, fed₂, out₂, hs.append hs', h₂, fun q t ht => le₂ q t (le₁ q t ht)⟩

theorem clearsWithin (w : s.Wired) (pos : s.Positive) {room : Finset (NodeId × Tuple)}
    (hroom : s.Closed base fun q => {t | (q, t) ∈ room}) (n : Nat) (task : Task) :
    ClearsWithin s base room n task := by
  induction n using Nat.strong_induction_on generalizing task with
  | _ n missing_ih =>
    obtain ⟨k, hk⟩ : ∃ k, s.rank task = k := ⟨_, rfl⟩
    induction k using Nat.strong_induction_on generalizing task with
    | _ k rank_ih =>
      intro net rest fed out h hn
      obtain ⟨net₁, more, fed₁, out₁, hstep, h₁, le₁, hlower | ⟨q, t, hold, hnew⟩⟩ :=
        h.advances w pos
      · obtain ⟨net₂, fed₂, out₂, hs, h₂, le₂⟩ := clears_all
          (fun x hx => rank_ih _ (hk ▸ hlower x hx) x rfl) h₁ ((missing_le le₁).trans hn)
        exact ⟨net₂, fed₂, out₂, .cons hstep hs (.nil _), h₂, fun q t ht => le₂ q t (le₁ q t ht)⟩
      · have hlt : missing room out₁ < missing room out :=
          missing_lt le₁ (h₁.least _ hroom q t hnew) hold hnew
        obtain ⟨net₂, fed₂, out₂, hs, h₂, le₂⟩ := clears_all
          (fun x _ => missing_ih _ (hlt.trans_le hn) x) h₁ le_rfl
        exact ⟨net₂, fed₂, out₂, .cons hstep hs (.nil _), h₂, fun q t ht => le₂ q t (le₁ q t ht)⟩

theorem Spreading.mem_out_iff (pos : s.Positive) (h : Spreading s base net [] fed out) {q : NodeId}
    {v : Vertex} (hv : net.vertices[q]? = some v) {t : Tuple} :
    t ∈ out q ↔ t ∈ v.node.output s.maskOf (fed q) (net.reading v) := by
  refine ⟨h.made q v hv t, fun ht => ?_⟩
  cases hs : v.node.source .primary with
  | none => exact h.makes q v hv hs t ht
  | some I =>
    obtain ⟨p, i, c, hn⟩ := Node.eq_join_of_source (h.positive pos hv) hs
    rw [hn] at ht
    obtain ⟨a, ha, b, hb, hab, rfl⟩ := mem_naturalJoin.1 ht
    rw [reading_of_source (I := p) (by rw [hn]; rfl)] at ha
    rw [reading_of_source (I := i) (by rw [hn]; rfl)] at hb
    refine (h.joins q v p i c hv hn a ha b hb hab).resolve_right ?_
    rintro ⟨c', -, hm⟩
    simp at hm

/-- When nothing is left to do, the nodes have put out the least closed family. -/
theorem Spreading.least_of_nil (w : s.Wired) (pos : s.Positive)
    (h : Spreading s base net [] fed out) : s.Least base out := by
  refine ⟨(closed_supports_iff pos).2 fun q v₀ hv₀ t ht => ?_, fun M hM q t ht => h.least M hM q t ht⟩
  obtain ⟨v, hv, rfl⟩ := h.exists_vertex hv₀
  rw [show v.bare.node.output s.maskOf _ _ = _ from Node.output_bare _ _ _] at ht
  have arrived : ∀ q R, R ∈ s.receiversOf q → ∀ t ∈ out q, t ∈ net.got fed R := by
    intro q R hR t ht
    simpa using h.reached q R hR t ht
  have hfed : ∀ u ∈ fedFrom base out q v.bare, u ∈ fed q := by
    intro u hu
    cases hf : v.bare.node.isFed with
    | true =>
      obtain ⟨p, hp, hm⟩ := (mem_fedFrom hf).1 hu
      exact arrived p (.node q) ((w.mem_receiversOf_node hv₀ hf).2 hp) u hm
    | false =>
      rw [fedFrom, if_neg (by simp [hf])] at hu
      rw [h.given q v hv ((Node.isFed_bare _).symm.trans hf)]
      exact hu
  have hview : ∀ side, ∀ u ∈ s.viewBy out v.bare side, u ∈ net.reading v side := by
    intro side u hu
    cases hs : v.node.source side with
    | none =>
      have hs' : v.bare.node.source side = none := (Node.source_bare _ _).trans hs
      simp [viewBy, hs'] at hu
    | some I =>
      have hs' : v.bare.node.source side = some I := (Node.source_bare _ _).trans hs
      rw [viewBy_of_source hs'] at hu
      rw [reading_of_source hs]
      obtain ⟨b, hb⟩ := w.exists_arrangement hv₀ hs'
      rw [parentOf_eq hb] at hu
      exact arrived b.parent (.index I) ((w.mem_receiversOf_index hb).2 rfl) u hu
  exact (h.mem_out_iff pos hv).2 (Node.output_mono (h.positive pos hv) hfed hview ht)

end Network

theorem Mask.mem_of_mem_signature {m : Mask} {t : Tuple} {x : Value} (h : x ∈ m.signature t) :
    x ∈ t := by
  obtain ⟨i, -, hi⟩ := List.mem_filterMap.1 h
  exact List.mem_of_getElem? hi

def Tuple.Over (D : Set Value) (t : Tuple) : Prop := ∀ x ∈ t, x ∈ D

namespace Node

def rows : Node → List Tuple
  | constant rows => rows
  | _ => []

theorem over_of_mem_output {masks : IndexId → Mask} {n : Node} {fed : Multiset Tuple}
    {view : Side → Multiset Tuple} {D : Set Value} (hn : n.isPositive = true)
    (hf : ∀ t ∈ fed, t.Over D) (hv : ∀ side, ∀ t ∈ view side, t.Over D)
    (hr : ∀ t ∈ n.rows, t.Over D) : ∀ t ∈ n.output masks fed view, t.Over D := by
  intro t ht
  cases n with
  | input _ _ _ => exact hf t ht
  | constant rows => exact hr t ht
  | trim mask =>
    obtain ⟨u, hu, rfl⟩ := Multiset.mem_map.1 ht
    exact fun x hx => hf u hu x (Mask.mem_of_mem_signature hx)
  | constantFilter _ _ | equalityFilter _ | inequalityFilter _ _ =>
    exact hf t (Multiset.mem_of_mem_filter ht)
  | expression x =>
    obtain ⟨u, hu, hres⟩ := (Multiset.mem_filterMap _ _).1 ht
    obtain ⟨-, rfl⟩ | ⟨hm, -⟩ := eq_of_mem_result hres
    · exact hf t hu
    · rw [isPositive, hm] at hn
      cases hn
  | join p s c =>
    obtain ⟨a, ha, b, hb, -, rfl⟩ := mem_naturalJoin.1 ht
    intro x hx
    rcases List.mem_append.1 hx with hx | hx
    · exact hv _ a ha x hx
    · exact hv _ b hb x (Mask.mem_of_mem_signature hx)
  | closure state =>
    obtain ⟨a, b, rfl, hl⟩ := mem_linkedPairs.1 ht
    obtain ⟨c, hc, -⟩ := Relation.TransGen.head'_iff.1 (edgePath_of_linked hl)
    obtain ⟨d, -, hd⟩ := Relation.TransGen.tail'_iff.1 (edgePath_of_linked hl)
    intro x hx
    rcases List.mem_pair.1 hx with rfl | rfl
    · exact hf _ hc x (by simp)
    · exact hf _ hd x (by simp)
  | uniqueness _ | production _ _ => exact hf t (Multiset.mem_dedup.1 ht)
  | _ => cases hn

end Node

theorem finite_over {D : Set Value} (hD : D.Finite) (n : Nat) :
    {t : Tuple | t.length = n ∧ t.Over D}.Finite := by
  have : Finite D := hD
  refine ((List.finite_length_eq D n).image (List.map Subtype.val)).subset ?_
  rintro t ⟨hn, ht⟩
  lift t to List D using ht
  exact ⟨t, by simpa using hn, rfl⟩

namespace Network
variable {s net : Network} {base : NodeId → Multiset Tuple}

def known (s : Network) (base : NodeId → Multiset Tuple) (q : NodeId) : Multiset Tuple :=
  base q + s.vertices[q]?.elim 0 fun v => ↑v.node.rows

/-- The values that a network has been given. -/
def activeDomain (s : Network) (base : NodeId → Multiset Tuple) : Set Value :=
  {x | ∃ q < s.vertices.size, ∃ t ∈ s.known base q, x ∈ t}

theorem finite_activeDomain : (s.activeDomain base).Finite := by
  have union : s.activeDomain base = ⋃ q ∈ {q | q < s.vertices.size},
      ⋃ t ∈ {t | t ∈ s.known base q}, {x | x ∈ t} := by
    ext x
    simp [activeDomain]
  rw [union]
  exact (Set.finite_lt_nat _).biUnion fun q _ =>
    (s.known base q).finite_toSet.biUnion fun t _ => t.finite_toSet

/-- The tuples of the right width over the values given are a closed family. -/
theorem closed_over (w : s.Wired) (pos : s.Positive)
    (hb : ∀ (q : NodeId) (v : Vertex), s.vertices[q]? = some v → v.node.isInput = true →
      ∀ t ∈ base q, t.length = v.arity) :
    s.Closed base fun q =>
      {t | ∃ v, s.vertices[q]? = some v ∧ t.length = v.arity ∧ t.Over (s.activeDomain base)} := by
  intro q v hv val hval t ht
  have hq : q < s.vertices.size := (Array.getElem?_eq_some_iff.1 hv).1
  have view : ∀ side, ∀ u ∈ s.viewBy val v side, ∃ p u', s.vertices[p]? = some u' ∧
      (∀ I, v.node.source side = some I → s.parentOf I = p) ∧ u.length = u'.arity ∧
      u.Over (s.activeDomain base) := by
    intro side u hu
    cases hs : v.node.source side with
    | none => simp [viewBy, hs] at hu
    | some I =>
      rw [viewBy_of_source hs] at hu
      obtain ⟨u', hu', hlen, hover⟩ := hval _ u hu
      exact ⟨_, u', hu', fun J hJ => by rw [Option.some.inj hJ], hlen, hover⟩
  obtain ⟨width, hfits, hparents⟩ := w.fits q v hv
  refine ⟨v, hv, ?_, ?_⟩
  · refine Node.length_of_mem_output hfits (fun hk u hu => ?_) (fun side I hs u hu => ?_) t ht
    · rcases hk with hf | hi
      · obtain ⟨p, hp, hm⟩ := (mem_fedFrom hf).1 hu
        obtain ⟨u', hu', hlen, -⟩ := hval p u hm
        have hw := hparents hf p hp
        rw [widthOf, hu'] at hw
        exact hlen.trans hw
      · have hnf : v.node.isFed = false := by
          cases hn : v.node <;> rw [hn] at hi <;> first | rfl | cases hi
        rw [fedFrom, if_neg (by simp [hnf])] at hu
        rw [hb q v hv hi u hu]
        cases hn : v.node <;> rw [hn] at hi hfits <;> first | exact hfits | cases hi
    · obtain ⟨p, u', hu', hp, hlen, -⟩ := view side u hu
      obtain ⟨a, ha⟩ := w.exists_arrangement hv hs
      rw [maskOf_eq ha, w.width I a ha, ← parentOf_eq ha, hp I hs, widthOf, hu']
      exact hlen
  · refine Node.over_of_mem_output (pos.nodes q v hv) (fun u hu => ?_) (fun side u hu => ?_)
      (fun u hu x hx => ?_) t ht
    · cases hf : v.node.isFed with
      | true =>
        obtain ⟨p, -, hm⟩ := (mem_fedFrom hf).1 hu
        obtain ⟨-, -, -, hover⟩ := hval p u hm
        exact hover
      | false =>
        rw [fedFrom, if_neg (by simp [hf])] at hu
        exact fun x hx => ⟨q, hq, u, Multiset.mem_add.2 (.inl hu), hx⟩
    · obtain ⟨-, -, -, -, -, hover⟩ := view side u hu
      exact hover
    · refine ⟨q, hq, u, Multiset.mem_add.2 (.inr ?_), hx⟩
      rw [hv]
      exact hu

theorem exists_room (w : s.Wired) (pos : s.Positive)
    (hb : ∀ (q : NodeId) (v : Vertex), s.vertices[q]? = some v → v.node.isInput = true →
      ∀ t ∈ base q, t.length = v.arity) :
    ∃ room : Finset (NodeId × Tuple), s.Closed base fun q => {t | (q, t) ∈ room} := by
  have finite : {x : NodeId × Tuple | ∃ v, s.vertices[x.1]? = some v ∧ x.2.length = v.arity ∧
      x.2.Over (s.activeDomain base)}.Finite := by
    have union : {x : NodeId × Tuple | ∃ v, s.vertices[x.1]? = some v ∧ x.2.length = v.arity ∧
        x.2.Over (s.activeDomain base)} ⊆ ⋃ q ∈ {q | q < s.vertices.size},
          (q, ·) '' {t : Tuple | t.length = s.widthOf q ∧ t.Over (s.activeDomain base)} := by
      rintro ⟨q, t⟩ ⟨v, hv, hlen, hover⟩
      refine Set.mem_biUnion (show q < s.vertices.size from
        (Array.getElem?_eq_some_iff.1 hv).1) ⟨t, ⟨?_, hover⟩, rfl⟩
      rw [widthOf, hv]
      exact hlen
    exact ((Set.finite_lt_nat _).biUnion fun q _ =>
      (finite_over finite_activeDomain _).image _).subset union
  refine ⟨finite.toFinset, ?_⟩
  simpa using closed_over w pos hb

end Network
end Motif
