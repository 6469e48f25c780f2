import Motif.Proofs.Network.Additions
import Motif.Proofs.Network.Confinement
import Motif.Proofs.Network.Settling

set_option autoImplicit false
namespace Motif

open Std (ExtTreeMap)

/-- The computation ends with a result that has a property, or it has no end. -/
def Arrives {α : Type} (r : Except Fault α) (P : α → Prop) : Prop :=
  (∃ a, r = .ok a ∧ P a) ∨ r = .error .unsettled

namespace Arrives
variable {α β : Type} {r : Except Fault α} {P : α → Prop} {Q : β → Prop}

theorem ok {a : α} (h : P a) : Arrives (.ok a) P := .inl ⟨a, rfl, h⟩

theorem mono {P' : α → Prop} (h : Arrives r P) (hP : ∀ a, P a → P' a) : Arrives r P' :=
  h.imp_left fun ⟨a, hr, ha⟩ => ⟨a, hr, hP a ha⟩

theorem bind {g : α → Except Fault β} (h : Arrives r P) (hg : ∀ a, P a → Arrives (g a) Q) :
    Arrives (r >>= g) Q := by
  obtain ⟨a, rfl, ha⟩ | rfl := h
  · exact hg a ha
  · exact .inr rfl

theorem of_ok (h : Arrives r P) {a : α} (ha : r = .ok a) : P a := by
  obtain ⟨b, hb, hP⟩ | hu := h
  · cases ha.symm.trans hb
    exact hP
  · cases ha.symm.trans hu

theorem error_eq (h : Arrives r P) {f : Fault} (hf : r = .error f) : f = .unsettled := by
  obtain ⟨b, hb, -⟩ | hu := h
  · cases hf.symm.trans hb
  · exact Except.error.inj (hf.symm.trans hu)

end Arrives

/-- What is fed has the width of a node, and what it reads that of the masks: then what it makes has
the width of its output. -/
theorem Node.Fits.carries {n : Node} {masks : IndexId → Mask} {fed : Set Tuple}
    {held : IndexId → Set Tuple} {width arity : Nat} (h : n.Fits masks width arity)
    (hf : n.isFed = true → ∀ t ∈ fed, t.length = width)
    (hv : ∀ (side : Side) (I : IndexId), n.source side = some I →
      ∀ t ∈ held I, t.length = (masks I).width) :
    n.Carries masks fed held {t | t.length = arity} := by
  cases n with
  | input _ _ _ | constant _ => trivial
  | trim mask =>
    intro t ht
    exact (Mask.length_signature ((hf rfl t ht).trans h.1.symm)).trans h.2.symm
  | constantFilter _ _ | equalityFilter _ => exact fun t ht => (hf rfl t ht).trans h.2.symm
  | inequalityFilter _ _ => exact fun t ht => (hf rfl t ht).trans h.2.2.symm
  | uniqueness _ | production _ _ => exact fun t ht => (hf rfl t ht).trans h.symm
  | expression x =>
    intro t ht u hu
    show u.length = arity
    rw [length_of_mem_result hu, h.2, hf rfl t ht]
  | join p s c =>
    obtain ⟨rfl, rfl⟩ := h
    intro a ha b hb
    show (a ++ _).length = _
    rw [List.length_append, hv .primary p rfl a ha,
      Mask.length_signature (m := (masks s).complement) (hv .secondary s rfl b hb)]
  | existence p s _ => exact fun t ht => (hv .primary p rfl t ht).trans h.symm
  | outerJoin p s c d =>
    obtain ⟨rfl, hd, rfl⟩ := h
    intro a ha
    refine ⟨?_, fun b hb => ?_⟩
    · show (a ++ d).length = _
      rw [List.length_append, hv .primary p rfl a ha, hd]
    · show (a ++ _).length = _
      rw [List.length_append, hv .primary p rfl a ha,
        Mask.length_signature (m := (masks s).complement) (hv .secondary s rfl b hb)]
  | grouping g =>
    intro t ht v
    show (_ ++ [v]).length = arity
    rw [List.length_append, Mask.length_signature (hv .primary g.source rfl t ht), h.2]
    rfl
  | closure _ => exact fun a b c d _ _ => h.2.symm

namespace Network
variable {s net : Network} {dom : NodeId → Set Tuple} {U : Set NodeId}

inductive Cascade (net : Network) (agenda : Agenda) : Network → Agenda → Prop
  | start : Cascade net agenda net agenda
  | step {net₁ net₂ : Network} {task : Task} {rest more : Agenda} :
      Cascade net agenda net₁ (task :: rest) → net₁.step task = .ok (net₂, more) →
      Cascade net agenda net₂ (more ++ rest)

theorem settle_arrives (I : Network → Agenda → Prop)
    (step : ∀ net task rest, I net (task :: rest) →
      ∃ net' more, net.step task = .ok (net', more) ∧ I net' (more ++ rest))
    {agenda : Agenda} (h : I net agenda) : Arrives (net.settle agenda) (I · []) := by
  have ends : ∀ r, net.settle? agenda = some r → I net agenda → ∃ net', r = .ok net' ∧ I net' [] := by
    refine Network.settle?.partial_correctness
      (fun net agenda r => I net agenda → ∃ net', r = .ok net' ∧ I net' []) ?_ net agenda
    intro settle ih net agenda r hr h
    cases agenda with
    | nil => exact ⟨net, (Option.some.inj hr).symm, h⟩
    | cons task rest =>
      obtain ⟨net', more, hstep, h'⟩ := step net task rest h
      simp only [hstep] at hr
      exact ih net' (more ++ rest) r hr h'
  rw [settle]
  cases hr : net.settle? agenda with
  | none => exact .inr rfl
  | some r =>
    obtain ⟨net', rfl, h'⟩ := ends r hr h
    exact .ok h'

/-- A task leads to tasks of the same kind, and to no problem with a base relation. -/
theorem Within.step (hB : s.Bounds dom U) (h : Within s dom net) {task : Task}
    (ht : s.Concerns dom U task) : ∃ net' more, net.step task = .ok (net', more) ∧
      Within s dom net' ∧ Spares net net' {m | ∃ q ∈ U, s.Feeds q m} Set.univ ∧
      ∀ t ∈ more, s.Concerns dom U t := by
  cases task with
  | propagate q e =>
    obtain ⟨hq, hlt, he⟩ := ht
    obtain ⟨v, hv⟩ : ∃ v, net.vertices[q]? = some v :=
      ⟨_, Array.getElem?_eq_getElem (size_of_bare_eq h.bare ▸ hlt)⟩
    refine ⟨{ net with propagated := net.propagated + 1 }, v.receivers.map (Task.deliver · e), ?_,
      h.of_eq rfl rfl rfl, ⟨fun _ _ => rfl, fun _ _ => rfl, [], rfl, by simp⟩, fun t ht => ?_⟩
    · rw [Network.step, vertex, hv]
      rfl
    · obtain ⟨R, hR, rfl⟩ := List.mem_map.1 ht
      refine ⟨q, hq, ?_, he⟩
      rw [← receiversOf_of_bare_eq h.bare, receiversOf_eq hv]
      exact hR
  | deliver R e =>
    obtain ⟨q, hq, hR, he⟩ := ht
    cases R with
    | node m =>
      obtain ⟨v, reply, hv, -, -, ha, hstep, hW, hS⟩ := h.deliver_node hB hq hR he
      have hfeeds : s.Feeds q m := .inl hR
      refine ⟨_, _, hstep, hW, hS.mono ?_ (Set.subset_univ _), fun t ht => ?_⟩
      · rintro _ rfl
        exact ⟨q, hq, hfeeds⟩
      · obtain ⟨o, ho, rfl⟩ := List.mem_map.1 ht
        refine ⟨(hB.sends q hq m hfeeds).1, ?_, (ha.out o ho).2⟩
        exact size_of_bare_eq h.bare ▸ (Array.getElem?_eq_some_iff.1 hv).1
    | index I =>
      obtain ⟨net', more, hstep, hW, -, hS, hmore⟩ := h.deliver_index hB hR he
      refine ⟨net', more, hstep, hW, hS.mono (Set.empty_subset _) (Set.subset_univ _), ?_⟩
      obtain rfl | ⟨c, hc, rfl⟩ := hmore
      · simp
      · intro t ht
        obtain ⟨l, hl, rfl⟩ := List.mem_map.1 ht
        exact ⟨q, hq, I, hR, hl, he, hc⟩
  | notify m side e c =>
    obtain ⟨q, hq, I, hR, hl, he, hc⟩ := ht
    obtain ⟨v, net', out, hv, hs, hstep, hW, hS, hout, -⟩ := h.notify hB hq hR hl he hc
    have hfeeds : s.Feeds q m := .inr ⟨I, side, hR, hl⟩
    refine ⟨net', _, hstep, hW, hS.mono ?_ (Set.subset_univ _), fun t ht => ?_⟩
    · rintro _ rfl
      exact ⟨q, hq, hfeeds⟩
    · obtain ⟨o, ho, rfl⟩ := List.mem_map.1 ht
      exact ⟨(hB.sends q hq m hfeeds).1,
        size_of_bare_eq h.bare ▸ (Array.getElem?_eq_some_iff.1 hv).1, hout o ho⟩

theorem Within.settle (hB : s.Bounds dom U) (h : Within s dom net) {agenda : Agenda}
    (ht : ∀ t ∈ agenda, s.Concerns dom U t) : Arrives (net.settle agenda) fun net' =>
      Within s dom net' ∧ Spares net net' {m | ∃ q ∈ U, s.Feeds q m} Set.univ := by
  refine (settle_arrives (fun net' agenda => Within s dom net' ∧
    Spares net net' {m | ∃ q ∈ U, s.Feeds q m} Set.univ ∧ ∀ t ∈ agenda, s.Concerns dom U t)
    (fun net' task rest h' => ?_) ⟨h, .refl net, ht⟩).mono fun net' h' => ⟨h'.1, h'.2.1⟩
  obtain ⟨hW, hS, hmore⟩ := h'
  obtain ⟨net₁, more, hstep, hW₁, hS₁, hmore₁⟩ := hW.step hB (hmore task (by simp))
  refine ⟨net₁, more, hstep, hW₁, hS.trans hS₁, fun t ht => ?_⟩
  exact (List.mem_append.1 ht).elim (hmore₁ t) fun hr => hmore t (by simp [hr])

def widths (net : Network) (q : NodeId) : Set Tuple := {t | t.length = net.widthOf q}

/-- All that nodes and indexes keep has the right width. Every node but the productions comes after
those that feed it. -/
structure Regular (net : Network) : Prop where
  wired : net.Wired
  within : Within net net.widths net
  apart : ∀ (I : IndexId) (a : Arrangement), net.arrangements[I]? = some a → a.index.Apart
  ordered : ∀ (q m : NodeId) (v : Vertex), net.Feeds q m → net.vertices[m]? = some v →
    v.node.isProduction = false → q < m

structure Onward (net net' : Network) : Prop where
  regular : net'.Regular
  bare : net'.bare = net.bare
  given : net'.given = net.given
  issues : ∃ l, net'.issues = l ++ net.issues ∧ ∀ i ∈ l, ¬i.IsRelational

theorem widths_of_bare_eq {net' : Network} (h : net'.bare = net.bare) : net'.widths = net.widths := by
  funext q
  rw [widths, widths, widthOf_of_bare_eq h]

theorem concerns_of_bare_eq {net' : Network} (h : net'.bare = net.bare) :
    net'.Concerns dom U = net.Concerns dom U := by
  funext t
  cases t <;> simp only [Concerns, receiversOf_of_bare_eq h, listenersOf_of_bare_eq h,
    maskOf_of_bare_eq h, size_of_bare_eq h]

theorem Wired.isInput_eq_false {net : Network} (w : net.Wired) {q m : NodeId} {v : Vertex}
    (hf : net.Feeds q m) (hv : net.vertices[m]? = some v) : v.node.isInput = false := by
  obtain hr | ⟨I, side, -, hl⟩ := hf
  · obtain ⟨u, hu, hfed⟩ := w.fed q m hr
    cases hv.symm.trans hu
    exact Node.isInput_of_isFed hfed
  · obtain ⟨u, hu, hs⟩ := (w.listens m side I).1 hl
    cases hv.symm.trans hu
    exact (isFed_of_source hs).2

namespace Regular

theorem bounds (h : net.Regular) : net.Bounds net.widths Set.univ where
  wired := h.wired
  width _ _ ht := ht
  sends q _ m hf := by
    refine ⟨trivial, fun v hv => ?_⟩
    obtain ⟨width, hfits, hp⟩ := h.wired.fits m v hv
    rw [widths, show net.widthOf m = v.arity by rw [widthOf, hv]; rfl]
    refine hfits.carries (fun hfed t ht => ?_) fun side I hs t ht => ?_
    · obtain ⟨p, hmem, ht⟩ := ht
      exact Eq.trans ht (hp hfed p hmem)
    · obtain ⟨a, ha⟩ := h.wired.exists_arrangement hv hs
      rw [maskOf_eq ha, h.wired.width I a ha, ← parentOf_eq ha]
      exact ht
  apart := h.apart

theorem of_within {net' : Network} (h : net.Regular) (hW : Within net net.widths net') :
    net'.Regular where
  wired := h.wired.of_bare_eq hW.bare
  within := by
    rw [widths_of_bare_eq hW.bare]
    exact ⟨rfl, hW.nodes, hW.indexes⟩
  apart I a ha := by
    obtain ⟨b, hb, hbare⟩ := exists_arrangement_of_bare_eq hW.bare ha
    exact (h.apart I b hb).of_bare_eq (congrArg Arrangement.index hbare).symm
  ordered q m v hf hv hp := by
    obtain ⟨u, hu, hbare⟩ := exists_vertex_of_bare_eq hW.bare hv
    rw [feeds_of_bare_eq hW.bare] at hf
    refine h.ordered q m u hf hu ?_
    rw [← hp]
    exact Node.isProduction_of_bare_eq (Vertex.eq_of_bare_eq hbare).1.symm

theorem onward {net' : Network} (h : net.Regular) (hW : Within net net.widths net')
    (hS : Spares net net' {m | ∃ q ∈ U, net.Feeds q m} Set.univ) : Onward net net' := by
  refine ⟨h.of_within hW, hW.bare, funext fun q => ?_, hS.issues⟩
  by_cases hq : ∃ p ∈ U, net.Feeds p q
  · obtain ⟨p, -, hp⟩ := hq
    have zero : ∀ {net' : Network}, net'.Wired → net'.Feeds p q → net'.given q = 0 :=
      fun {net'} w hf => given_eq_zero fun v hv => w.isInput_eq_false hf hv
    rw [zero h.wired hp, zero (h.wired.of_bare_eq hW.bare) (feeds_of_bare_eq hW.bare ▸ hp)]
  · rw [given, given, hS.vertices q hq]

theorem settle (h : net.Regular) {agenda : Agenda}
    (ht : ∀ t ∈ agenda, net.Concerns net.widths Set.univ t) :
    Arrives (net.settle agenda) (Onward net) :=
  (h.within.settle h.bounds ht).mono fun _ h' => h.onward h'.1 h'.2

/-- In a cascade of a regular network all tuples have the widths of the nodes that they come from, and
no step fails. -/
theorem cascade (h : net.Regular) {agenda agenda' : Agenda} {net' : Network}
    (ht : ∀ t ∈ agenda, net.Concerns net.widths Set.univ t) (c : Cascade net agenda net' agenda') :
    net'.Regular ∧ ∀ t ∈ agenda', net'.Concerns net'.widths Set.univ t ∧
      ∃ r, net'.step t = .ok r := by
  suffices within : Within net net.widths net' ∧ ∀ t ∈ agenda', net.Concerns net.widths Set.univ t by
    have h' := h.of_within within.1
    have same := within.1.bare
    have concerned : ∀ t ∈ agenda', net'.Concerns net'.widths Set.univ t := fun t ht => by
      rw [concerns_of_bare_eq same, widths_of_bare_eq same]
      exact within.2 t ht
    refine ⟨h', fun t ht => ⟨concerned t ht, ?_⟩⟩
    obtain ⟨net₁, more, hstep, -⟩ := h'.within.step h'.bounds (concerned t ht)
    exact ⟨_, hstep⟩
  induction c with
  | start => exact ⟨h.within, ht⟩
  | step _ hstep ih =>
    obtain ⟨hW, hc⟩ := ih
    obtain ⟨hhead, hrest⟩ := List.forall_mem_cons.1 hc
    obtain ⟨net₁, more, hstep', hW', -, hmore⟩ := hW.step h.bounds hhead
    cases hstep.symm.trans hstep'
    exact ⟨hW', fun t ht => (List.mem_append.1 ht).elim (hmore t) (hrest t)⟩

end Regular

namespace Onward
variable {net' net'' : Network}

theorem refl (h : net.Regular) : Onward net net := ⟨h, rfl, rfl, [], rfl, by simp⟩

theorem trans (h : Onward net net') (h' : Onward net' net'') : Onward net net'' := by
  refine ⟨h'.regular, h'.bare.trans h.bare, h'.given.trans h.given, ?_⟩
  obtain ⟨l, e, hl⟩ := h.issues
  obtain ⟨l', e', hl'⟩ := h'.issues
  refine ⟨l' ++ l, by rw [e', e, List.append_assoc], fun i hi => ?_⟩
  exact (List.mem_append.1 hi).elim (hl' i) (hl i)

end Onward

/-- A node that is fed tuples of the right width one by one passes on what it makes of them. -/
theorem Regular.feed (h : net.Regular) {p m : NodeId} (hr : .node m ∈ net.receiversOf p)
    {rows : List Tuple} (hw : ∀ t ∈ rows, t.length = net.widthOf p) :
    Arrives (net.feed m rows) (Onward net) := by
  induction rows generalizing net with
  | nil => exact .ok (.refl h)
  | cons t rest ih =>
    have concerns : net.Concerns net.widths Set.univ (.deliver (.node m) ⟨.insert, t⟩) :=
      ⟨p, trivial, hr, hw t (by simp)⟩
    rw [Network.feed]
    refine (h.settle (by simpa using concerns)).bind fun net' h' => ?_
    refine (ih h'.regular (by rw [receiversOf_of_bare_eq h'.bare]; exact hr) fun u hu => ?_).mono
      fun net'' h'' => h'.trans h''
    rw [widthOf_of_bare_eq h'.bare]
    exact hw u (by simp [hu])

theorem Regular.exists_index (h : net.Regular) {q : NodeId} {v : Vertex}
    (hv : net.vertices[q]? = some v) {side : Side} {I : IndexId}
    (hs : v.node.source side = some I) : ∃ ix, net.index I = .ok ix ∧ ix.Sound ∧
      ix.content = net.reading v side ∧ ix.mask = net.maskOf I ∧
      ∀ t ∈ net.reading v side, t.length = (net.maskOf I).width := by
  obtain ⟨a, ha⟩ := h.wired.exists_arrangement hv hs
  obtain ⟨hsound, hcontent⟩ := h.within.indexes I a ha
  have content : a.index.content = net.reading v side := by
    rw [reading_of_source hs, contentOf_eq ha]
  refine ⟨a.index, index_eq ha, hsound, content, (maskOf_eq ha).symm, fun t ht => ?_⟩
  rw [maskOf_eq ha, h.wired.width I a ha]
  exact hcontent t (content ▸ ht)

theorem Regular.pullWithin_of_stateful (h : net.Regular) {depth : Nat} {q : NodeId} {v : Vertex}
    (hv : net.vertices[q]? = some v) (hs : v.node.isStateful = true) :
    ∃ rows, net.pullWithin (depth + 1) q = .ok rows ∧ ∀ t ∈ rows, t.length = v.arity := by
  obtain ⟨width, hfits, -⟩ := h.wired.fits q v hv
  have hc : v.node.Confined (fedIn net.widths v) (net.widths q) := h.within.nodes q v hv
  have harity : net.widthOf q = v.arity := by
    rw [widthOf, hv]
    rfl
  rw [widths, harity] at hc
  rw [Network.pullWithin, show net.vertex q = .ok v by rw [vertex, hv]]
  simp only [bind, Except.bind]
  obtain ⟨n, parents, receivers, arity⟩ := v
  cases n with
  | input r u memory => exact ⟨_, rfl, fun t ht => hc t (Bag.mem_items.1 ht)⟩
  | expression x =>
    refine ⟨_, rfl, fun t ht => ?_⟩
    obtain ⟨⟨t', u, n⟩, he, ht⟩ := List.mem_flatMap.1 ht
    obtain ⟨l, hl, ht⟩ := List.mem_flatten.1 ht
    obtain rfl := List.eq_of_mem_replicate hl
    exact hc t' u n (ExtTreeMap.mem_toList_iff_getElem?_eq_some.1 he) t (Option.mem_toList.1 ht)
  | grouping g =>
    refine ⟨_, rfl, fun t ht => ?_⟩
    obtain ⟨⟨s, v⟩, he, rfl⟩ := List.mem_map.1 ht
    exact hc s v (ExtTreeMap.mem_toList_iff_getElem?_eq_some.1 he)
  | closure state =>
    refine ⟨_, rfl, fun t ht => ?_⟩
    obtain ⟨p, -, rfl⟩ := List.mem_map.1 ht
    exact hfits.2.symm
  | uniqueness memory | production _ memory =>
    exact ⟨_, rfl, fun t ht => hc t (Bag.mem_distinct.1 ht)⟩
  | _ => cases hs

/-- A node that keeps no tuples is read from its parent or its indexes. -/
theorem Regular.pullWithin_of_stateless (h : net.Regular) {depth width : Nat} {q : NodeId}
    {v : Vertex} (hv : net.vertices[q]? = some v) (hs : v.node.isStateful = false)
    (hfits : v.node.Fits net.maskOf width v.arity)
    (parent : v.node.isFed = true → ∃ p rows, v.parent = .ok p ∧
      net.pullWithin depth p = .ok rows ∧ ∀ t ∈ rows, t.length = width) :
    ∃ rows, net.pullWithin (depth + 1) q = .ok rows ∧ ∀ t ∈ rows, t.length = v.arity := by
  obtain ⟨fed, hfed⟩ : ∃ fed : List Tuple, v.node.isFed = true → (∀ t ∈ fed, t.length = width) ∧
      ∃ p, v.parent = .ok p ∧ net.pullWithin depth p = .ok fed := by
    by_cases hf : v.node.isFed = true
    · obtain ⟨p, rows, hp, hrows, hw⟩ := parent hf
      exact ⟨rows, fun _ => ⟨hw, p, hp, hrows⟩⟩
    · exact ⟨[], fun hf' => absurd hf' hf⟩
  have legible : net.Legible depth v ↑fed (net.reading v) width := {
    fits := hfits
    holds := Node.holds_of_isStateful_eq_false hs
    parent := fun hf _ => by
      obtain ⟨hw, p, hp, hrows⟩ := hfed hf
      exact ⟨p, fed, hp, hrows, rfl, hw⟩
    source := fun side I hI => by
      obtain ⟨ix, hix, sound, content, mask, -⟩ := h.exists_index hv hI
      exact ⟨ix, hix, sound, content, mask⟩ }
  obtain ⟨rows, hrows, hcoe⟩ := legible.pullWithin hv
  refine ⟨rows, hrows, fun t ht => ?_⟩
  rw [← Multiset.mem_coe, hcoe] at ht
  refine Node.length_of_mem_output hfits (fun hf => ?_) (fun side I hI => ?_) t ht
  · rcases hf with hf | hi
    · exact (hfed hf).1
    · obtain ⟨r, u, memory, hn⟩ := Node.exists_input hi
      rw [hn] at hs
      cases hs
  · obtain ⟨ix, -, -, -, -, hw⟩ := h.exists_index hv hI
    exact hw

theorem Regular.pullWithin (h : net.Regular) {depth : Nat} {q : NodeId}
    (hq : q < net.vertices.size) (hd : q < depth) :
    ∃ rows, net.pullWithin depth q = .ok rows ∧ ∀ t ∈ rows, t.length = net.widthOf q := by
  induction depth generalizing q with
  | zero => exact absurd hd (Nat.not_lt_zero q)
  | succ depth ih =>
    obtain ⟨v, hv⟩ : ∃ v, net.vertices[q]? = some v := ⟨_, Array.getElem?_eq_getElem hq⟩
    rw [widthOf, hv]
    cases hs : v.node.isStateful with
    | true => exact h.pullWithin_of_stateful hv hs
    | false =>
      obtain ⟨width, hfits, hparents⟩ := h.wired.fits q v hv
      refine h.pullWithin_of_stateless hv hs hfits fun hf => ?_
      obtain ⟨p, hpar, hlt⟩ := h.wired.earlier q v hv hf
        (Node.isProduction_of_isStateful_eq_false hs)
      obtain ⟨rows, hrows, hw⟩ := ih (hlt.trans hq)
        (Nat.lt_of_lt_of_le hlt (Nat.le_of_lt_succ hd))
      refine ⟨p, rows, by rw [Vertex.parent, hpar], hrows, fun t ht => ?_⟩
      rw [hw t ht, hparents hf p (by simp [hpar])]

theorem Regular.pull (h : net.Regular) {q : NodeId} (hq : q < net.vertices.size) :
    ∃ rows, net.pull q = .ok rows ∧ ∀ t ∈ rows, t.length = net.widthOf q :=
  h.pullWithin hq hq

section update
variable {r : Relation} {id : NodeId} {e : Event}

def Accepts (net : Network) (id : NodeId) (unique : Bool) (e : Event) : Prop :=
  (e.direction = .insert → unique = true → e.tuple ∉ net.given id) ∧
    (e.direction = .revoke → e.tuple ∈ net.given id)

structure Fed (net net' : Network) (id : NodeId) (e : Event) : Prop where
  regular : net'.Regular
  bare : net'.bare = net.bare
  given : net'.given = Function.update net.given id (e.apply (net.given id))
  issues : ∃ l, net'.issues = l ++ net.issues ∧ ∀ i ∈ l, ¬i.IsRelational

theorem changeMemory_of_accepts {unique : Bool} {memory : Bag Tuple} {v : Vertex}
    (hv : net.vertices[id]? = some v) (hn : v.node = .input r unique memory)
    (h : net.Accepts id unique e) :
    ∃ memory', changeMemory r unique memory e = .ok memory' ∧
      memory'.toMultiset = e.apply (net.given id) := by
  rw [Accepts, given_of_input hv hn] at h
  rw [given_of_input hv hn]
  obtain ⟨d, t⟩ := e
  cases d with
  | insert =>
    refine ⟨memory.add t, ?_, Bag.toMultiset_add _ _⟩
    have : (unique && memory.contains t) = false := by
      cases unique with
      | false => rfl
      | true => simpa using mt Bag.contains_iff_mem.1 (h.1 rfl rfl)
    simp [changeMemory, this]
  | revoke =>
    refine ⟨memory.remove t, ?_, Bag.toMultiset_remove _ _⟩
    simp [changeMemory, Bag.contains_iff_mem.2 (h.2 rfl)]

theorem Regular.update (h : net.Regular) (hid : net.inputs[r]? = some id)
    (hw : e.tuple.length = net.widthOf id) {v : Vertex} {unique : Bool} {memory : Bag Tuple}
    (hv : net.vertices[id]? = some v) (hn : v.node = .input r unique memory) :
    (∃ issue, changeMemory r unique memory e = .error issue ∧
      net.update r e = .ok (net.report issue, true)) ∨
    ∃ memory', changeMemory r unique memory e = .ok memory' ∧
      (net.setNode id (.input r unique memory')).Regular ∧
      (net.setNode id (.input r unique memory')).bare = net.bare ∧
      net.update r e = (do
        return (← (net.setNode id (.input r unique memory')).settle [.propagate id e], true)) := by
  cases hm : changeMemory r unique memory e with
  | error issue =>
    refine .inl ⟨issue, rfl, ?_⟩
    simp only [update_eq, hid, node, vertex, hv, Functor.map, Except.map, bind, Except.bind, hn, hm]
    rfl
  | ok memory' =>
    have hupdate : net.update r e = (do
        return (← (net.setNode id (.input r unique memory')).settle [.propagate id e], true)) := by
      simp only [update_eq, hid, node, vertex, hv, Functor.map, Except.map, bind, Except.bind, hn,
        hm]
    have hbare : (Node.input r unique memory').bare = v.node.bare := by
      rw [hn]
      rfl
    have held : ∀ t ∈ memory'.toMultiset, t.length = net.widthOf id := by
      have hold : v.node.Confined (fedIn net.widths v) (net.widths id) := h.within.nodes id v hv
      rw [hn] at hold
      intro t ht
      rw [changeMemory] at hm
      cases hd : e.direction <;> rw [hd] at hm <;> dsimp only at hm <;> split at hm <;>
        cases hm
      · rw [Bag.toMultiset_add, Multiset.mem_cons] at ht
        exact ht.elim (fun e => e ▸ hw) (hold t)
      · rw [Bag.toMultiset_remove] at ht
        exact hold t (Multiset.mem_of_mem_erase ht)
    refine .inr ⟨memory', rfl, h.of_within (h.within.setNode hv hbare held),
      bare_setNode hv hbare, hupdate⟩

theorem Regular.update_accepted (h : net.Regular) (hid : net.inputs[r]? = some id)
    (hw : e.tuple.length = net.widthOf id) {v : Vertex} {unique : Bool} {memory : Bag Tuple}
    (hv : net.vertices[id]? = some v) (hn : v.node = .input r unique memory)
    (ha : net.Accepts id unique e) :
    Arrives (net.update r e) fun p => p.2 = true ∧ Fed net p.1 id e := by
  obtain ⟨memory', hm, hgiven⟩ := changeMemory_of_accepts hv hn ha
  obtain ⟨issue, hm', -⟩ | ⟨memory₁, hm', hreg, hbare, hupdate⟩ := h.update hid hw hv hn
  · cases hm.symm.trans hm'
  · cases hm.symm.trans hm'
    have concerns : (net.setNode id (.input r unique memory')).Concerns
        (net.setNode id (.input r unique memory')).widths Set.univ (.propagate id e) := by
      refine ⟨trivial, ?_, ?_⟩
      · rw [size_of_bare_eq hbare]
        exact (Array.getElem?_eq_some_iff.1 hv).1
      · rw [widths_of_bare_eq hbare]
        exact hw
    rw [hupdate]
    refine (hreg.settle (by simpa using concerns)).bind fun net' h' => .ok ⟨rfl, h'.regular,
      h'.bare.trans hbare, h'.given.trans (funext fun q => ?_), h'.issues⟩
    by_cases hq : q = id
    · subst hq
      rw [Function.update_self, given_of_input (vertex_setNode hv) rfl, hgiven]
    · rw [Function.update_of_ne hq, given, vertex_setNode_of_ne hq, given]

end update

end Network
end Motif
