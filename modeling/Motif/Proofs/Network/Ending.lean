import Motif.Proofs.Network.Regular

set_option autoImplicit false
namespace Motif
namespace Network

/-- The task and all that follows from it come to an end, and what held before holds then. -/
def Finishes (P : Network → Prop) (task : Task) : Prop :=
  ∀ net, P net → ∃ net', Settles net [task] net' ∧ P net'

namespace Finishes
variable {P P' : Network → Prop} {task : Task}

theorem all {tasks : Agenda} (h : ∀ t ∈ tasks, Finishes P t) {net : Network} (hP : P net) :
    ∃ net', Settles net tasks net' ∧ P net' := by
  induction tasks generalizing net with
  | nil => exact ⟨net, .nil net, hP⟩
  | cons t rest ih =>
    obtain ⟨net₁, hs, hP₁⟩ := h t List.mem_cons_self net hP
    obtain ⟨net', hs', hP'⟩ := ih (fun t ht => h t (List.mem_cons_of_mem _ ht)) hP₁
    exact ⟨net', hs.append hs', hP'⟩

theorem of_step (h : ∀ net, P net → ∃ net₁ more P', net.step task = .ok (net₁, more) ∧ P' net₁ ∧
    (∀ t ∈ more, Finishes P' t) ∧ ∀ net, P' net → P net) : Finishes P task := by
  intro net hP
  obtain ⟨net₁, more, P', hstep, hP₁, hmore, back⟩ := h net hP
  obtain ⟨net', hs, hP'⟩ := all hmore hP₁
  exact ⟨net', .cons hstep hs (.nil net'), back net' hP'⟩

end Finishes

variable {s s' net : Network} {q m p : NodeId}

def Ends (s : Network) (q : NodeId) : Prop :=
  ∀ e : Event, e.tuple.length = s.widthOf q → Finishes (Within s s.widths) (.propagate q e)

theorem within_of_bare_eq (h : s'.bare = s.bare) :
    Within s' s'.widths net ↔ Within s s.widths net := by
  rw [widths_of_bare_eq h]
  exact ⟨fun w => ⟨w.bare.trans h, w.nodes, w.indexes⟩,
    fun w => ⟨w.bare.trans h.symm, w.nodes, w.indexes⟩⟩

theorem Ends.of_bare_eq (ends : s.Ends q) (h : s'.bare = s.bare) : s'.Ends q := by
  intro e he net hW
  obtain ⟨net', hs, hW'⟩ := ends e (by rw [← widthOf_of_bare_eq h]; exact he) net
    ((within_of_bare_eq h).1 hW)
  exact ⟨net', hs, (within_of_bare_eq h).2 hW'⟩

theorem ends_of_receiversOf_eq_nil (hq : q < s.vertices.size) (h : s.receiversOf q = []) :
    s.Ends q := by
  refine fun e _ => .of_step fun net hW => ?_
  obtain ⟨v, hv⟩ : ∃ v, net.vertices[q]? = some v :=
    ⟨_, Array.getElem?_eq_getElem (size_of_bare_eq hW.bare ▸ hq)⟩
  refine ⟨{ net with propagated := net.propagated + 1 }, [], Within s s.widths, ?_,
    hW.of_eq rfl rfl rfl, by simp, fun _ h => h⟩
  have : v.receivers = [] := by rw [← receiversOf_eq hv, receiversOf_of_bare_eq hW.bare, h]
  rw [step, vertex, hv]
  simp only [bind, Except.bind, this]
  rfl

section regular
variable (h : s.Regular) {e : Event}
include h

theorem Regular.finishes_deliver (hr : .node m ∈ s.receiversOf p)
    (he : e.tuple.length = s.widthOf p) (ends : s.Ends m) :
    Finishes (Within s s.widths) (.deliver (.node m) e) := by
  refine .of_step fun net hW => ?_
  obtain ⟨v, reply, -, -, -, ha, hstep, hW', -⟩ :=
    hW.deliver_node h.bounds (Set.mem_univ p) hr he
  refine ⟨_, _, Within s s.widths, hstep, hW', fun t ht => ?_, fun _ h => h⟩
  obtain ⟨o, ho, rfl⟩ := List.mem_map.1 ht
  exact ends o (ha.out o ho).2

theorem Regular.settle_of_finishes {task : Task} (ht : s.Concerns s.widths Set.univ task)
    (hf : Finishes (Within s s.widths) task) : ∃ net', s.settle [task] = .ok net' ∧ Onward s net' := by
  obtain ⟨net', hs, -⟩ := hf s h.within
  have arrives : Arrives (s.settle [task]) (Onward s) := h.settle (by simpa using ht)
  exact ⟨net', hs.settle_eq, arrives.of_ok hs.settle_eq⟩

theorem Regular.feed_of_ends (hr : .node m ∈ s.receiversOf p) (ends : s.Ends m) {rows : List Tuple}
    (hw : ∀ t ∈ rows, t.length = s.widthOf p) :
    ∃ net', s.feed m rows = .ok net' ∧ Onward s net' := by
  induction rows generalizing s with
  | nil => exact ⟨s, rfl, .refl h⟩
  | cons t rest ih =>
    have ht := hw t List.mem_cons_self
    obtain ⟨net₁, hsettle, h₁⟩ := h.settle_of_finishes
      (show s.Concerns s.widths Set.univ (.deliver (.node m) ⟨.insert, t⟩) from ⟨p, trivial, hr, ht⟩)
      (h.finishes_deliver hr ht ends)
    obtain ⟨net', hfeed, h'⟩ := ih h₁.regular (by rw [receiversOf_of_bare_eq h₁.bare]; exact hr)
      (ends.of_bare_eq h₁.bare) fun u hu => by
        rw [widthOf_of_bare_eq h₁.bare]
        exact hw u (List.mem_cons_of_mem _ hu)
    refine ⟨net', ?_, h₁.trans h'⟩
    rw [Network.feed, hsettle]
    exact hfeed

theorem Regular.exists_update {r : Relation} {id : NodeId} (hid : s.inputs[r]? = some id)
    (hw : e.tuple.length = s.widthOf id) {v : Vertex} {unique : Bool} {memory : Bag Tuple}
    (hv : s.vertices[id]? = some v) (hn : v.node = .input r unique memory) (ends : s.Ends id) :
    ∃ p, s.update r e = .ok p ∧ p.1.Regular ∧ p.1.bare = s.bare := by
  obtain ⟨issue, -, hupdate⟩ | ⟨memory', -, hreg, hbare, hupdate⟩ := h.update hid hw hv hn
  · exact ⟨_, hupdate, h.of_within (h.within.of_eq rfl rfl rfl), rfl⟩
  · obtain ⟨net', hsettle, onward⟩ := hreg.settle_of_finishes
      (show (s.setNode id (.input r unique memory')).Concerns _ Set.univ (.propagate id e) from
        ⟨trivial, size_of_bare_eq hbare ▸ (Array.getElem?_eq_some_iff.1 hv).1, by
          rw [widths_of_bare_eq hbare]
          exact hw⟩)
      (ends.of_bare_eq hbare e (by rw [widthOf_of_bare_eq hbare]; exact hw))
    exact ⟨(net', true), by rw [hupdate, hsettle]; rfl, onward.regular, onward.bare.trans hbare⟩

omit h in
/-- So do changes of any relations, one after the other. -/
theorem Regular.exists_updateAll (h : s.Regular)
    (inputs : ∀ (r : Relation) (id : NodeId), s.inputs[r]? = some id →
      s.widthOf id = r.arity ∧ s.Ends id)
    {cs : List Change} (hw : ∀ c ∈ cs, c.event.tuple.length = c.relation.arity) :
    ∃ s', s.updateAll cs = .ok s' := by
  induction cs generalizing s with
  | nil => exact ⟨s, rfl⟩
  | cons c rest ih =>
    obtain ⟨p, hp, regular, bare⟩ : ∃ p, s.update c.relation c.event = .ok p ∧ p.1.Regular ∧
        p.1.bare = s.bare := by
      cases hid : s.inputs[c.relation]? with
      | none => exact ⟨(s, false), update_of_none c.event hid, h, rfl⟩
      | some id =>
        obtain ⟨v, unique, memory, hv, hn⟩ := (h.wired.inputs c.relation id).1 hid
        obtain ⟨width, ends⟩ := inputs c.relation id hid
        exact h.exists_update hid ((hw c List.mem_cons_self).trans width.symm) hv hn ends
    have same : p.1.inputs = s.inputs :=
      (congrArg Network.inputs bare : p.1.bare.inputs = s.bare.inputs)
    obtain ⟨s', hs'⟩ := ih regular (fun r id hid => by
      obtain ⟨width, ends⟩ := inputs r id (same ▸ hid)
      exact ⟨by rw [widthOf_of_bare_eq bare]; exact width, ends.of_bare_eq bare⟩)
      fun c' hc' => hw c' (List.mem_cons_of_mem c hc')
    exact ⟨s', by rw [updateAll, hp]; exact hs'⟩

theorem Regular.update_of_ends {r : Relation} {id : NodeId} (hid : s.inputs[r]? = some id)
    (hw : e.tuple.length = s.widthOf id) {v : Vertex} {unique : Bool} {memory : Bag Tuple}
    (hv : s.vertices[id]? = some v) (hn : v.node = .input r unique memory)
    (ha : s.Accepts id unique e) (ends : s.Ends id) :
    ∃ net', s.update r e = .ok (net', true) ∧ Fed s net' id e := by
  obtain ⟨⟨net', told⟩, hupdate, -⟩ := h.exists_update hid hw hv hn ends
  obtain ⟨rfl, fed⟩ := (h.update_accepted hid hw hv hn ha).of_ok hupdate
  exact ⟨net', hupdate, fed⟩

end regular
end Network
end Motif
