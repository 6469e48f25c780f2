import Motif.Proofs.Network.Growth
import Motif.Proofs.Network.Updating

set_option autoImplicit false
namespace Motif
namespace Network

variable {net net' : Network} {val : NodeId → Multiset Tuple}

theorem mem_sum_map {ps : List NodeId} {f : NodeId → Multiset Tuple} {t : Tuple} :
    t ∈ (ps.map f).sum ↔ ∃ p ∈ ps, t ∈ f p := by
  induction ps with
  | nil => simp
  | cons p rest ih => simp [ih]

theorem viewBy_congr {val' : NodeId → Multiset Tuple} {u u' : Vertex} (hn : u'.node = u.node)
    (h : ∀ side I, u.node.source side = some I → val' (net'.parentOf I) = val (net.parentOf I))
    (side : Side) : net'.viewBy val' u' side = net.viewBy val u side := by
  rw [viewBy, viewBy, hn]
  cases hs : u.node.source side with
  | none => rfl
  | some I => exact h side I hs

theorem fedBy_congr {val' : NodeId → Multiset Tuple} {u u' : Vertex} (hn : u'.node = u.node)
    (hp : u'.parents = u.parents) (h : u.node.isFed = true → ∀ p ∈ u.parents, val' p = val p)
    (hk : u.node.isFed = true ∨ u.node.isInput = true) : fedBy val' u' = fedBy val u := by
  rcases hk with hf | hi
  · rw [fedBy_of_isFed (hn ▸ hf), fedBy_of_isFed hf, hp]
    exact congrArg List.sum (List.map_congr_left (h hf))
  · cases hu : u.node with
    | input r b memory => rw [fedBy_of_isInput hu, fedBy_of_isInput (hn.trans hu)]
    | _ =>
      rw [hu] at hi
      cases hi

theorem AtRest.widths (h : net.AtRest val) {v : Vertex} {width : Nat}
    (hp : v.node.isFed = true → ∀ p ∈ v.parents, p < net.vertices.size ∧ net.widthOf p = width)
    (hs : ∀ side I, v.node.source side = some I → ∃ a, net.arrangements[I]? = some a) :
    (v.node.isFed = true → ∀ t ∈ fedBy val v, t.length = width) ∧
      v.node.Widths net.maskOf (net.viewBy val v) := by
  refine ⟨fun hf t ht => ?_, fun side I hsrc t ht => ?_⟩
  · rw [fedBy_of_isFed hf, mem_sum_map] at ht
    obtain ⟨p, hm, ht⟩ := ht
    obtain ⟨hlt, rfl⟩ := hp hf p hm
    exact h.width_of_mem hlt t ht
  · obtain ⟨a, ha⟩ := hs side I hsrc
    rw [viewBy_of_source hsrc, parentOf_eq ha, ← (h.index I a ha).2] at ht
    rw [maskOf_eq ha]
    exact (h.index I a ha).1.width ht

theorem Keeps.reads (k : Keeps net net') (val' : NodeId → Multiset Tuple) {u u' : Vertex}
    (hn : u'.node = u.node) (hpar : u'.parents = u.parents)
    (fed : u.node.isFed = true → ∀ q ∈ u.parents, val' q = val q)
    (sources : ∀ side I, u.node.source side = some I → ∃ a, net.arrangements[I]? = some a ∧
      val' a.parent = val a.parent) :
    u'.node.output net'.maskOf (fedBy val' u') (net'.viewBy val' u') =
        u.node.output net.maskOf (fedBy val u) (net.viewBy val u) ∧
      (u'.node.Holds net'.maskOf (fedBy val' u') (net'.viewBy val' u') ↔
        u.node.Holds net.maskOf (fedBy val u) (net.viewBy val u)) := by
  have hview : ∀ side I, u.node.source side = some I →
      net'.viewBy val' u' side = net.viewBy val u side := fun side _ _ =>
    viewBy_congr hn (fun side I hs => by
      obtain ⟨a, ha, e⟩ := sources side I hs
      rw [k.parentOf ha, parentOf_eq ha, e]) side
  have hmask : ∀ side I, u.node.source side = some I → net'.maskOf I = net.maskOf I := by
    intro side I hs
    obtain ⟨a, ha, -⟩ := sources side I hs
    exact k.maskOf ha
  have hfed := fedBy_congr hn hpar fed
  rw [hn, Node.output_masks_congr hmask, Node.holds_masks_congr hmask]
  exact ⟨Node.output_congr hfed hview, Node.holds_congr hfed hview⟩

section pushed
variable (w : net.Wired) (h : net.AtRest val) {v : Vertex} (ad : net.Admits v)
  (p : Pushed net net' v)
include w h ad p

/-- A new node makes no tuple twice if the network says so of it. -/
theorem AtRest.nodup_of_pushed (hin : v.node.isInput = true → fedBy val v = 0)
    (hf : net'.Flat net.vertices.size) :
    (v.node.output net.maskOf (fedBy val v) (net.viewBy val v)).Nodup := by
  have k := p.keeps
  cases hi : v.node.isInput with
  | true =>
    have hz : v.node.output net.maskOf (fedBy val v) (net.viewBy val v) = 0 := by
      rw [hin hi]
      cases hn : v.node <;> rw [hn] at hi <;> first | rfl | cases hi
    rw [hz]
    exact Multiset.nodup_zero
  | false =>
    obtain ⟨width, hfits, hw⟩ := ad.fits
    obtain ⟨wfed, wview⟩ := h.widths (fun hf q hq => ⟨ad.parents hf q hq, hw hf q hq⟩) ad.sources
    refine Node.nodup_output hi hfits wfed wview (fun hfed hp => ?_) (fun side I hs hu => ?_)
      (hf.node p.fresh)
    · obtain ⟨q, rest, hpar, hq⟩ := hp
      have hrest : rest = [] := by
        have := ad.single hfed
        rw [hpar, List.length_cons] at this
        exact List.length_eq_zero_iff.1 (by omega)
      have hlt := ad.parents hfed q (by simp [hpar])
      rw [fedBy_of_isFed hfed, hpar, hrest, List.map_singleton, List.sum_singleton]
      exact h.flat q hlt ((k.flat_iff w hlt).1 hq)
    · obtain ⟨a, ha⟩ := ad.sources side I hs
      obtain ⟨a', ha', -, hix⟩ := k.arrangement I a ha
      rw [uniqueOf, ha', Option.elim_some, hix] at hu
      rw [viewBy_of_source hs, parentOf_eq ha]
      exact h.flat _ (w.lt_size_parent ha) (w.unique I a ha hu)

theorem AtRest.pushed (hin : v.node.isInput = true → fedBy val v = 0)
    (holds : v.node.Holds net.maskOf (fedBy val v) (net.viewBy val v)) :
    net'.AtRest (Function.update val net.vertices.size
      (v.node.output net.maskOf (fedBy val v) (net.viewBy val v))) := by
  have k := p.keeps
  obtain ⟨val', hval'⟩ : ∃ f, f = Function.update val net.vertices.size
    (v.node.output net.maskOf (fedBy val v) (net.viewBy val v)) := ⟨_, rfl⟩
  rw [← hval']
  have hold : ∀ q, q < net.vertices.size → val' q = val q := fun q hq => by
    rw [hval', Function.update_of_ne (Nat.ne_of_lt hq)]
  have hnew : val' net.vertices.size =
      v.node.output net.maskOf (fedBy val v) (net.viewBy val v) := by
    rw [hval', Function.update_self]
  have old : ∀ (q : NodeId) (u u' : Vertex), net.vertices[q]? = some u → u'.node = u.node →
      u'.parents = u.parents → _ := fun q u u' hu hn hpar => k.reads val' hn hpar
    (fun hf r hr => hold r (w.lt_size_of_mem_parents hu hf hr)) fun side I hs => by
      obtain ⟨a, ha⟩ := w.exists_arrangement hu hs
      exact ⟨a, ha, hold _ (w.lt_size_parent ha)⟩
  have new := k.reads val' (rfl : v.node = v.node) rfl
    (fun hf r hr => hold r (ad.parents hf r hr)) fun side I hs => by
      obtain ⟨a, ha⟩ := ad.sources side I hs
      exact ⟨a, ha, hold _ (w.lt_size_parent ha)⟩
  constructor
  case means =>
    intro q u' hu'
    obtain ⟨rfl, rfl⟩ | ⟨u, -, hu, hn, hpar, -⟩ := p.cases hu'
    · rw [hnew, new.1]
    · rw [hold q (Array.getElem?_eq_some_iff.1 hu).1, (old q u u' hu hn hpar).1]
      exact h.means q u hu
  case holds =>
    intro q u' hu'
    obtain ⟨rfl, rfl⟩ | ⟨u, -, hu, hn, hpar, -⟩ := p.cases hu'
    · exact new.2.2 holds
    · exact (old q u u' hu hn hpar).2.2 (h.holds q u hu)
  case width =>
    intro q u' hu'
    obtain ⟨rfl, rfl⟩ | ⟨u, -, hu, -, -, ha⟩ := p.cases hu'
    · obtain ⟨width, hfits, hw⟩ := ad.fits
      obtain ⟨wfed, wview⟩ := h.widths (fun hf q hq => ⟨ad.parents hf q hq, hw hf q hq⟩) ad.sources
      rw [hnew]
      exact Node.length_of_mem_output hfits (fun hk => hk.elim wfed fun hi => by simp [hin hi]) wview
    · rw [hold q (Array.getElem?_eq_some_iff.1 hu).1, ha]
      exact h.width q u hu
  case flat =>
    intro q hq hf
    rcases Nat.lt_trichotomy q net.vertices.size with hlt | rfl | hgt
    · rw [hold q hlt]
      exact h.flat q hlt ((k.flat_iff w hlt).1 hf)
    · rw [hnew]
      exact h.nodup_of_pushed w ad p hin hf
    · obtain ⟨rfl, -⟩ | ⟨u, -, hu, -⟩ := p.cases (Array.getElem?_eq_getElem hq)
      · exact absurd hgt (Nat.lt_irrefl _)
      · exact absurd (Array.getElem?_eq_some_iff.1 hu).1 (Nat.not_lt.2 hgt.le)
  case index =>
    intro I a' ha'
    rw [p.arrangement, Option.map_eq_some_iff] at ha'
    obtain ⟨a, ha, rfl⟩ := ha'
    rw [hold _ (w.lt_size_parent ha)]
    exact h.index I a ha

end pushed

theorem AtRest.indexed (w : net.Wired) (h : net.AtRest val) {a : Arrangement}
    (x : Indexed net net' a) (hs : a.index.Sound) (hc : a.index.content = val a.parent) :
    net'.AtRest val := by
  have k := x.keeps
  have reads : ∀ (q : NodeId) (u u' : Vertex), net.vertices[q]? = some u → u'.node = u.node →
      u'.parents = u.parents → _ := fun q u u' hu hn hpar => k.reads val hn hpar
    (fun _ _ _ => rfl) fun side I hs => (w.exists_arrangement hu hs).imp fun _ ha => ⟨ha, rfl⟩
  refine ⟨fun q u' hu' => ?_, fun q u' hu' => ?_, fun q u' hu' => ?_, fun q hq hf => ?_,
    fun I b hb => ?_⟩
  · obtain ⟨u, hu, hn, hpar, -⟩ := x.cases hu'
    rw [(reads q u u' hu hn hpar).1]
    exact h.means q u hu
  · obtain ⟨u, hu, hn, hpar, -⟩ := x.cases hu'
    exact (reads q u u' hu hn hpar).2.2 (h.holds q u hu)
  · obtain ⟨u, hu, -, -, ha⟩ := x.cases hu'
    rw [ha]
    exact h.width q u hu
  · obtain ⟨u, hu, -⟩ := x.cases (Array.getElem?_eq_getElem hq)
    have hlt := (Array.getElem?_eq_some_iff.1 hu).1
    exact h.flat q hlt ((k.flat_iff w hlt).1 hf)
  · obtain ⟨rfl, rfl⟩ | hb := x.cases_arrangement hb
    · exact ⟨hs, hc⟩
    · exact h.index I b hb

section hooked
variable {p m : NodeId} (x : Hooked net net' p m) (w : net'.Wired) (hp : p < net.vertices.size)
include x hp

theorem Hooked.mem_slots :
    (p, (net.receiversOf p).length) ∈ net'.bare.slots (.node m) := by
  rw [Network.mem_slots, receiversOf_bare, x.receiversOf hp, if_pos rfl,
    List.getElem?_append_right (Nat.le_refl _), Nat.sub_self]
  rfl

theorem Hooked.notMem_slots {R : Receiver} (hR : R ≠ .node m) :
    (p, (net.receiversOf p).length) ∉ net'.bare.slots R := by
  intro hmem
  have hslot := x.mem_slots hp
  rw [Network.mem_slots] at hslot hmem
  exact hR (Option.some.inj (hmem.symm.trans hslot))

include w in
/-- As long as nothing has come through the new place, a node has been fed what it was. -/
theorem Hooked.fedTo_eq {q : NodeId} {u u' : Vertex} (hu : net.vertices[q]? = some u)
    (hu' : net'.vertices[q]? = some u') (hk : u.node.isFed = true ∨ u.node.isInput = true) :
    net'.bare.fedTo net.given (atSlot p (net.receiversOf p).length 0 fun q _ => val q) q =
      fedBy val u := by
  have hslot := x.mem_slots hp
  obtain ⟨u₂, hu₂, hn, hpar, -⟩ := x.cases hu'
  cases hu.symm.trans hu₂
  rcases hk with hf | hi
  · have whole : net'.bare.inflow (fun q _ => val q) (.node q) = (u'.parents.map val).sum :=
      net'.bare.sum_slots (fun n => w.bare.parents n q _ (vertex_bare hu')
        ((Node.isFed_bare _).trans (hn ▸ hf))) val
    rw [fedTo, given_of_isFed hu hf, zero_add, fedBy_of_isFed hf]
    by_cases hq : q = m
    · subst hq
      rw [hpar, if_pos rfl, List.map_append, List.sum_append, List.map_singleton,
        List.sum_singleton, net'.bare.inflow_eq_add hslot, add_comm] at whole
      rw [net'.bare.inflow_eq_add hslot, atSlot, if_pos ⟨rfl, rfl⟩, zero_add]
      refine (Finset.sum_congr rfl fun y hy => if_neg ?_).trans (add_right_cancel whole)
      rintro ⟨h₁, h₂⟩
      have e : y = (p, (net.receiversOf p).length) := Prod.ext h₁ h₂
      exact Finset.notMem_erase _ _ (e ▸ hy)
    · rw [net'.bare.inflow_atSlot_of_notMem (x.notMem_slots hp fun e => hq (Receiver.node.inj e)),
        whole, hpar, if_neg hq, List.append_nil]
  · cases hnode : u.node with
    | input r b memory =>
      have hnf : u'.bare.node.isFed = false := (Node.isFed_bare _).trans (by rw [hn, hnode]; rfl)
      rw [fedTo_of_not_isFed w.bare (vertex_bare hu') hnf, given_of_input hu hnode,
        fedBy_of_isInput hnode]
    | _ =>
      rw [hnode] at hi
      cases hi

end hooked

def viewAt (net : Network) (val : NodeId → Multiset Tuple) (q : NodeId) : Side → Multiset Tuple :=
  net.vertices[q]?.elim (fun _ => 0) (net.viewBy val)

theorem viewAt_eq {q : NodeId} {v : Vertex} (hv : net.vertices[q]? = some v) :
    net.viewAt val q = net.viewBy val v := by rw [viewAt, hv]; rfl

theorem AtRest.hooked (h : net.AtRest val) {p m : NodeId} (x : Hooked net net' p m)
    (w : net'.Wired) (hp : p < net.vertices.size) {rows : List Tuple}
    (hrows : (↑rows : Multiset Tuple) = val p)
    (flat : ∀ q, q < net.vertices.size → net'.Flat q → (val q).Nodup) :
    ∃ view, Flowing net'.bare net.given net'
      (atSlot p (net.receiversOf p).length (rows.map (Event.mk .insert)) fun _ _ => [])
      (fun _ _ => none) (atSlot p (net.receiversOf p).length 0 fun q _ => val q) view := by
  have hout : ∀ (q : NodeId) (u u' : Vertex), net.vertices[q]? = some u →
      net'.vertices[q]? = some u' → u'.node.output net'.bare.maskOf (net'.bare.fedTo net.given
        (atSlot p (net.receiversOf p).length 0 fun q _ => val q) q) (net.viewAt val q) = val q := by
    intro q u u' hu hu'
    obtain ⟨u₂, hu₂, hn, -⟩ := x.cases hu'
    cases hu.symm.trans hu₂
    rw [h.means q u hu, maskOf_bare, x.maskOf, viewAt_eq hu, hn]
    exact Node.output_congr (x.fedTo_eq w hp hu hu') fun _ _ _ => rfl
  have nodup : ∀ {q u}, net.vertices[q]? = some u → net'.bare.Flat q → (val q).Nodup :=
    fun hu hfl => flat _ (Array.getElem?_eq_some_iff.1 hu).1 ((net'.flat_bare _).1 hfl)
  refine ⟨net.viewAt val, ?_⟩
  constructor
  case bare => rfl
  case inside =>
    intro q u' hu' hfd
    obtain ⟨u, hu, hn, -⟩ := x.cases hu'
    exact given_of_isFed hu (hn ▸ hfd)
  case holds =>
    intro q u' hu'
    obtain ⟨u, hu, hn, -⟩ := x.cases hu'
    rw [maskOf_bare, x.maskOf, viewAt_eq hu, hn,
      Node.holds_congr (x.fedTo_eq w hp hu hu') fun _ _ _ => rfl]
    exact h.holds q u hu
  case width =>
    intro q u' hu'
    obtain ⟨u, hu, -, -, ha⟩ := x.cases hu'
    rw [hout q u u' hu hu', ha]
    exact h.width q u hu
  case flat =>
    intro q u' hu' hfl
    obtain ⟨u, hu, -⟩ := x.cases hu'
    rw [hout q u u' hu hu']
    exact nodup hu hfl
  case slot =>
    intro q u' k hu' hk
    obtain ⟨u, hu, -, -, ha⟩ := x.cases hu'
    rw [hout q u u' hu hu', ha]
    by_cases hq : q = p ∧ k = (net.receiversOf p).length
    · obtain ⟨rfl, rfl⟩ := hq
      rw [atSlot, if_pos ⟨rfl, rfl⟩, atSlot, if_pos ⟨rfl, rfl⟩, ← hrows]
      refine ⟨?_, fun _ => Multiset.nodup_zero⟩
      have : Leads u.arity (net'.bare.Flat q) 0 _ (0 + ↑rows) := Leads.inserts
        (fun t ht => h.width q u hu t (hrows ▸ ht)) fun hfl => by
          rw [zero_add, hrows]
          exact nodup hu hfl
      rwa [zero_add] at this
    · rw [atSlot, if_neg hq, atSlot, if_neg hq]
      exact ⟨Leads.refl _, nodup hu⟩
  case index =>
    intro I a ha
    rw [x.arrangements] at ha
    refine ⟨(h.index I a ha).1, ?_⟩
    have ha' : net'.bare.arrangements[I]? = some a.bare := arrangement_bare (x.arrangements ▸ ha)
    obtain ⟨k, hk⟩ := exists_slot_of_index w.bare ha'
    rw [net'.bare.inflow_atSlot_of_notMem (x.notMem_slots hp (by simp)) 0, (h.index I a ha).2, inflow,
      (Flowing.slots_index w.bare ha' hk).2, Finset.sum_singleton]
    rfl
  case side =>
    intro q u' side I a hu' hs ha
    obtain ⟨u, hu, hn, -⟩ := x.cases hu'
    have hlt := x.size ▸ w.lt_size_parent ha
    have hunique := w.unique I a ha
    rw [x.arrangements] at ha
    have content := (h.index I a ha).2
    rw [viewAt_eq hu, viewBy_of_source (hn ▸ hs), parentOf_eq ha, ← content]
    exact ⟨rfl, fun hu => content ▸ flat _ hlt (hunique hu)⟩

theorem flushes_of_receiversOf_eq_nil {s : Network} {n : NodeId} (h : s.receiversOf n = []) :
    Flushes s n := by
  intro hn base net lag due seen view es hflow still
  induction es generalizing net seen view with
  | nil => exact .refl hflow
  | cons e es ih =>
    obtain ⟨v, hv, -⟩ := hflow.exists_vertex (Array.getElem?_eq_getElem hn)
    have hstep : net.step (.propagate n e) =
        .ok ({ net with propagated := net.propagated + 1 }, []) := by
      rw [Network.step, Network.vertex, hv]
      have hr := hflow.receiversOf hv
      rw [h] at hr
      simp only [bind, Except.bind, ← hr]
      rfl
    have next : Flowing s base { net with propagated := net.propagated + 1 }
        (Function.update lag n fun _ => e :: es) due seen view := hflow.of_eq rfl rfl rfl
    have hlag : Flowing s base { net with propagated := net.propagated + 1 }
        (Function.update lag n fun _ => es) due seen view := by
      refine next.congr_lag fun q k hk => ?_
      by_cases hq : q = n
      · subst hq
        rw [h] at hk
        cases hk
      · rw [Function.update_of_ne hq, Function.update_of_ne hq]
    exact Leaves.cons hstep (.of_eq rfl) (.refl hlag) fun _ _ _ h' => ih _ _ _ h'

/-- A node receives the tuples that are still to come through a place, each with all that follows
from it. -/
theorem Flowing.feed {s : Network} {base : NodeId → Multiset Tuple} (w : s.Wired) {p m : NodeId}
    {k : Nat} (hr : (s.receiversOf p)[k]? = some (.node m)) (hne : m ≠ p) (below : ¬s.Below m p)
    (flushes : Flushes s m) {seen : NodeId → Nat → Multiset Tuple}
    {view : NodeId → Side → Multiset Tuple} {rows : List Tuple}
    (h : Flowing s base net (atSlot p k (rows.map (Event.mk .insert)) fun _ _ => [])
      (fun _ _ => none) seen view) :
    ∃ net' seen' view', net.feed m rows = .ok net' ∧ OnlyFailures net net' ∧
      Flowing s base net' (fun _ _ => []) (fun _ _ => none) seen' view' := by
  induction rows generalizing net seen view with
  | nil =>
    have hlag : atSlot p k [] (fun _ _ => []) = (fun _ _ => [] : NodeId → Nat → List Event) := by
      funext q j
      exact ite_self _
    exact ⟨net, seen, view, rfl, .of_eq rfl, hlag ▸ h⟩
  | cons t rest ih =>
    obtain ⟨lag, hlag⟩ : ∃ f, f = atSlot p k (rest.map (Event.mk .insert)) fun _ _ => [] := ⟨_, rfl⟩
    have hat : atSlot p k ((t :: rest).map (Event.mk .insert)) (fun _ _ => []) p k =
        ⟨.insert, t⟩ :: rest.map (Event.mk .insert) := if_pos ⟨rfl, rfl⟩
    have hm : atSlot p k ((t :: rest).map (Event.mk .insert)) (fun _ _ => []) m = fun _ => [] :=
      funext fun j => if_neg fun e => hne e.1
    obtain ⟨net₁, out, seen₁, hstep, honly, h₁⟩ := h.deliver_node w hr hat hne hm
    have hpassed : atSlot p k (rest.map (Event.mk .insert))
        (atSlot p k ((t :: rest).map (Event.mk .insert)) fun _ _ => []) = lag := by
      rw [hlag]
      funext q j
      by_cases hq : q = p ∧ j = k
      · rw [atSlot, if_pos hq, atSlot, if_pos hq]
      · rw [atSlot, if_neg hq, atSlot, if_neg hq, atSlot, if_neg hq]
    rw [hpassed] at h₁
    have quiet : ∀ q, q ≠ p → lag q = fun _ => [] := fun q hq => by
      rw [hlag]
      exact funext fun j => if_neg fun e => hq e.1
    obtain ⟨v, hv, -⟩ := w.fed p m (List.mem_of_getElem? hr)
    obtain ⟨net₂, seen₂, view₂, hset, honly₂, h₂⟩ := flushes (Array.getElem?_eq_some_iff.1 hv).1
      base net₁ lag (fun _ _ => none) seen₁ view out h₁ fun q hq =>
        ⟨quiet q fun e => below (e ▸ hq), fun _ => rfl⟩
    rw [← quiet m hne, Function.update_eq_self, hlag] at h₂
    obtain ⟨net₃, seen₃, view₃, hfeed, honly₃, h₃⟩ := ih h₂
    refine ⟨net₃, seen₃, view₃, ?_, honly.trans (honly₂.trans honly₃), h₃⟩
    have hsettle : net.settle [.deliver (.node m) ⟨.insert, t⟩] = .ok net₂ :=
      (Settles.cons hstep hset (.nil _)).settle_eq
    rw [Network.feed, hsettle]
    exact hfeed

end Network
end Motif
