import Motif.Proofs.Network.Traces

/-!
Changes of base relations that are refused. The network counts a tuple before it knows whether it may,
and counts back when it may not; what is left of a refused change is its report. Reports are never
read by a propagation, so that a run with refused changes goes as the run without them.
-/
set_option autoImplicit false
namespace Motif
namespace Network

def since (net : Network) (older : List Issue) : Network :=
  { net with issues := net.issues ++ older }

def quiet (net : Network) : Network := { net with issues := [] }

def problems (net : Network) : Multiset Issue := ↑net.issues

theorem since_quiet (net : Network) : net.quiet.since net.issues = net := rfl

theorem quiet_report (net : Network) (issue : Issue) : (net.report issue).quiet = net.quiet := rfl

section since
variable (net : Network) (older : List Issue)

theorem deliverToNode_since (id : NodeId) (e : Event) :
    (net.since older).deliverToNode id e =
      (fun p => (p.1.since older, p.2)) <$> net.deliverToNode id e := by
  change (net.vertex id >>= _) = _
  rw [deliverToNode]
  cases net.vertex id with
  | error f => rfl
  | ok v =>
    simp only [bind, Except.bind]
    cases v.node.receive e with
    | error f => rfl
    | ok reply =>
      obtain ⟨n, out, issue?⟩ := reply
      cases issue? <;> cases v.node.isProduction <;> rfl

theorem deliverToIndex_since (id : IndexId) (e : Event) :
    (net.since older).deliverToIndex id e =
      (fun p => (p.1.since older, p.2)) <$> net.deliverToIndex id e := by
  change (net.arrangement id >>= _) = _
  rw [deliverToIndex]
  cases net.arrangement id with
  | error f => rfl
  | ok a =>
    simp only [bind, Except.bind]
    cases a.index.update e with
    | error f => rfl
    | ok p =>
      obtain ⟨ix, outcome⟩ := p
      cases outcome <;> rfl

theorem consult_since (id? : Option IndexId) (signature : Tuple) :
    (net.since older).consult id? signature =
      (fun p => (p.1.since older, p.2)) <$> net.consult id? signature := by
  cases id? with
  | none => rfl
  | some id =>
    change (net.index id >>= _) = (fun p => _) <$> (net.index id >>= _)
    cases net.index id <;> rfl

theorem notifyNode_since (id : NodeId) (side : Side) (e : Event) (change : IndexChange) :
    (net.since older).notifyNode id side e change =
      (fun p => (p.1.since older, p.2)) <$> net.notifyNode id side e change := by
  change (net.node id >>= _) = (fun p => _) <$> (net.node id >>= _)
  cases net.node id with
  | error f => rfl
  | ok n =>
    simp only [bind, Except.bind, consult_since]
    cases net.consult (n.consults side change) change.signature with
    | error f => rfl
    | ok p =>
      simp only [Except.map_ok]
      cases n.respond side e change p.2 <;> rfl

theorem step_since (task : Task) :
    (net.since older).step task = (fun p => (p.1.since older, p.2)) <$> net.step task := by
  cases task with
  | propagate id e =>
    change (net.vertex id >>= _) = (fun p => _) <$> (net.vertex id >>= _)
    cases net.vertex id <;> rfl
  | deliver receiver e =>
    cases receiver with
    | node id => exact deliverToNode_since net older id e
    | index id => exact deliverToIndex_since net older id e
  | notify id side e change => exact notifyNode_since net older id side e change

theorem settle_since (agenda : Agenda) :
    (net.since older).settle agenda = (·.since older) <$> net.settle agenda := by
  rw [settle, settle, settle?_map fun net task => step_since net older task]
  cases net.settle? agenda <;> rfl

theorem changeInput_since (r : Relation) (id : NodeId) (e : Event) :
    (net.since older).changeInput r id e =
      (fun p => (p.1.since older, p.2)) <$> net.changeInput r id e := by
  change (net.node id >>= _) = (fun p => _) <$> (net.node id >>= _)
  cases net.node id with
  | error f => rfl
  | ok n => cases n <;> rfl

theorem update_since (r : Relation) (e : Event) :
    (net.since older).update r e = (fun p => (p.1.since older, p.2)) <$> net.update r e := by
  rw [update, update, show (net.since older).inputs = net.inputs from rfl]
  cases net.inputs[r]? with
  | none => rfl
  | some id =>
    simp only [changeInput_since, bind, Except.bind]
    cases net.changeInput r id e with
    | error f => rfl
    | ok p =>
      obtain ⟨net', issue?⟩ := p
      cases issue? with
      | some issue => rfl
      | none =>
        simp only [Except.map_ok, settle_since]
        cases net'.settle [.propagate id e] <;> rfl

theorem updateAll_since (cs : List Change) :
    (net.since older).updateAll cs = (·.since older) <$> net.updateAll cs := by
  induction cs generalizing net with
  | nil => rfl
  | cons c rest ih =>
    simp only [updateAll, update_since, bind, Except.bind]
    cases net.update c.relation c.event with
    | error f => rfl
    | ok p => exact ih p.1

end since

def refusal? (net : Network) (c : Change) : Option Issue :=
  match net.inputs[c.relation]?.bind (net.vertices[·]?) with
  | some ⟨.input _ unique memory, _, _, _⟩ =>
    match c.event.direction with
    | .insert =>
      if unique = true ∧ 0 < memory.count c.event.tuple then
        some (.duplicateInsert c.relation.text c.event.tuple)
      else none
    | .revoke =>
      if memory.count c.event.tuple = 0 then some (.missingTuple c.relation.text c.event.tuple)
      else none
  | _ => none

/-- The changes of a run, each with what was wrong with it when its turn came. -/
def verdicts (net : Network) : List Change → List (Change × Option Issue)
  | [] => []
  | c :: rest => (c, net.refusal? c) ::
    match net.update c.relation c.event with
    | .ok (net, _) => net.verdicts rest
    | .error _ => rest.map (·, none)

def taken (net : Network) (cs : List Change) : List Change :=
  ((net.verdicts cs).filter fun v => v.2.isNone).map Prod.fst

def refusals (net : Network) (cs : List Change) : Multiset Issue :=
  ↑((net.verdicts cs).filterMap Prod.snd)

section verdicts
variable {net : Network} {c : Change}

theorem refusal?_eq_some_iff {issue : Issue} : net.refusal? c = some issue ↔
    ∃ id key unique memory, net.inputs[c.relation]? = some id ∧
      net.node id = .ok (.input key unique memory) ∧
      changeMemory c.relation unique memory c.event = .error issue := by
  obtain ⟨r, d, t⟩ := c
  have refused : ∀ unique memory, changeMemory r unique memory ⟨d, t⟩ = .error issue ↔
      (match d with
        | .insert =>
          if unique = true ∧ 0 < memory.count t then some (.duplicateInsert r.text t) else none
        | .revoke => if memory.count t = 0 then some (.missingTuple r.text t) else none) =
        some issue := by
    intro unique memory
    cases d
    · by_cases held : 0 < memory.count t <;> cases unique <;>
        simp [changeMemory, Bag.contains_iff, held]
    · by_cases held : memory.count t = 0
      · simp [changeMemory, Bag.contains_iff, held]
      · simp [changeMemory, Bag.contains_iff, held, Nat.pos_of_ne_zero held]
  constructor
  · intro h
    cases hid : net.inputs[r]? with
    | none => simp [refusal?, hid] at h
    | some id =>
      cases hv : net.vertices[id]? with
      | none => simp [refusal?, hid, hv] at h
      | some v =>
        obtain ⟨n, parents, receivers, arity⟩ := v
        cases n with
        | input key unique memory =>
          refine ⟨id, key, unique, memory, rfl, by simp [node, vertex, hv], (refused _ _).2 ?_⟩
          simpa only [refusal?, hid, hv, Option.bind_some] using h
        | _ => simp [refusal?, hid, hv] at h
  · rintro ⟨id, key, unique, memory, hid, hn, hm⟩
    cases hv : net.vertices[id]? with
    | none => simp [node, vertex, hv] at hn
    | some v =>
      obtain ⟨n, parents, receivers, arity⟩ := v
      obtain rfl : n = .input key unique memory := by simpa [node, vertex, hv] using hn
      simpa only [refusal?, hid, hv, Option.bind_some] using (refused _ _).1 hm

theorem update_of_refusal {issue : Issue} (h : net.refusal? c = some issue) :
    net.update c.relation c.event = .ok (net.report issue, true) := by
  obtain ⟨id, key, unique, memory, hid, hn, hm⟩ := refusal?_eq_some_iff.1 h
  simp only [update_eq, hid, hn, hm, bind, Except.bind, pure, Except.pure]

theorem used_of_update {net' : Network} {used : Bool}
    (h : net.update c.relation c.event = .ok (net', used)) :
    used = (net.inputs[c.relation]?).isSome := by
  rw [update] at h
  cases hid : net.inputs[c.relation]? with
  | none =>
    rw [hid] at h
    cases h
    rfl
  | some id =>
    rw [hid] at h
    obtain ⟨⟨net₁, issue?⟩, -, h⟩ := bind_ok h
    cases issue? with
    | some issue =>
      cases h
      rfl
    | none =>
      obtain ⟨net₂, -, h⟩ := bind_ok h
      cases h
      rfl

theorem quiet_updateAll (net : Network) (cs : List Change) :
    quiet <$> net.updateAll cs = quiet <$> net.quiet.updateAll cs := by
  conv_lhs => rw [← since_quiet net, updateAll_since]
  cases net.quiet.updateAll cs <;> rfl

theorem verdicts_since (net : Network) (older : List Issue) (cs : List Change) :
    (net.since older).verdicts cs = net.verdicts cs := by
  induction cs generalizing net with
  | nil => rfl
  | cons c rest ih =>
    rw [verdicts, verdicts, update_since]
    refine congrArg _ ?_
    cases net.update c.relation c.event with
    | error f => rfl
    | ok p => exact ih p.1

theorem map_fst_verdicts (net : Network) (cs : List Change) :
    (net.verdicts cs).map Prod.fst = cs := by
  induction cs generalizing net with
  | nil => rfl
  | cons c rest ih =>
    rw [verdicts, List.map_cons]
    refine congrArg _ ?_
    cases net.update c.relation c.event with
    | error f => simp [Function.comp_def]
    | ok p => exact ih p.1

theorem taken_sublist (net : Network) (cs : List Change) : (net.taken cs).Sublist cs := by
  conv_rhs => rw [← map_fst_verdicts net cs]
  exact List.filter_sublist.map Prod.fst

theorem verdicts_report (net : Network) (issue : Issue) (cs : List Change) :
    (net.report issue).verdicts cs = net.verdicts cs := by
  rw [← since_quiet (net.report issue), ← since_quiet net, verdicts_since, verdicts_since]
  rfl

theorem quiet_updateAll_report (net : Network) (issue : Issue) (cs : List Change) :
    quiet <$> (net.report issue).updateAll cs = quiet <$> net.updateAll cs := by
  rw [quiet_updateAll, quiet_report, ← quiet_updateAll]

end verdicts

theorem taken_cons_of_update {net : Network} {c : Change} {p : Network × Bool}
    (accepted : net.refusal? c = none) (hu : net.update c.relation c.event = .ok p)
    (rest : List Change) : net.taken (c :: rest) = c :: p.1.taken rest := by
  simp [taken, verdicts, accepted, hu]

theorem quiet_updateAll_taken (net : Network) (cs : List Change) :
    quiet <$> net.updateAll cs = quiet <$> net.updateAll (net.taken cs) := by
  induction cs generalizing net with
  | nil => rfl
  | cons c rest ih =>
    cases hr : net.refusal? c with
    | some issue =>
      have skipped : net.taken (c :: rest) = (net.report issue).taken rest := by
        simp [taken, verdicts, hr, update_of_refusal hr]
      rw [skipped, updateAll, update_of_refusal hr, ← quiet_updateAll_report net issue]
      exact ih _
    | none =>
      cases hu : net.update c.relation c.event with
      | error f => simp [taken, verdicts, hr, updateAll, hu, bind, Except.bind]
      | ok p =>
        rw [taken_cons_of_update hr hu, updateAll, updateAll, hu]
        exact ih p.1

theorem problems_updateAll_report (net : Network) (issue : Issue) (cs : List Change) :
    problems <$> (net.report issue).updateAll cs =
      (fun n => issue ::ₘ n.problems) <$> net.updateAll cs := by
  rw [← since_quiet (net.report issue), ← since_quiet net, updateAll_since, updateAll_since]
  change _ <$> _ <$> net.quiet.updateAll cs = _ <$> _ <$> net.quiet.updateAll cs
  cases net.quiet.updateAll cs with
  | error f => rfl
  | ok q => exact congrArg Except.ok (Multiset.coe_eq_coe.2 List.perm_middle)

/-- The problems met are those of the run without the refused changes, and one for each of these. -/
theorem problems_updateAll_taken (net : Network) (cs : List Change) :
    problems <$> net.updateAll cs =
      (fun n => net.refusals cs + n.problems) <$> net.updateAll (net.taken cs) := by
  induction cs generalizing net with
  | nil => simp [updateAll, refusals, taken, verdicts]
  | cons c rest ih =>
    cases hr : net.refusal? c with
    | some issue =>
      have skipped : net.taken (c :: rest) = net.taken rest := by
        simp [taken, verdicts, hr, update_of_refusal hr, verdicts_report]
      have more : net.refusals (c :: rest) = issue ::ₘ net.refusals rest := by
        simp [refusals, verdicts, hr, update_of_refusal hr, verdicts_report]
      calc problems <$> net.updateAll (c :: rest)
          = problems <$> (net.report issue).updateAll rest := by
            rw [updateAll, update_of_refusal hr]
            rfl
        _ = (fun n => issue ::ₘ n.problems) <$> net.updateAll rest :=
            problems_updateAll_report net issue rest
        _ = (issue ::ₘ ·) <$> problems <$> net.updateAll rest := by simp
        _ = (fun n => net.refusals (c :: rest) + n.problems) <$>
              net.updateAll (net.taken (c :: rest)) := by
            simp [ih, skipped, more]
    | none =>
      cases hu : net.update c.relation c.event with
      | error f => simp [taken, verdicts, hr, updateAll, hu, bind, Except.bind]
      | ok p =>
        have same : net.refusals (c :: rest) = p.1.refusals rest := by
          simp [refusals, verdicts, hr, hu]
        rw [taken_cons_of_update hr hu, same, updateAll, updateAll, hu]
        exact ih p.1

/-- A refused change is not seen in what the network is and puts out, at any time after. -/
theorem refused_changes_invisible (net : Network) (cs : List Change) :
    (net.taken cs).Sublist cs ∧
      quiet <$> net.updateAll cs = quiet <$> net.updateAll (net.taken cs) ∧
      problems <$> net.updateAll cs =
        (fun n => net.refusals cs + n.problems) <$> net.updateAll (net.taken cs) ∧
      ∀ c : Change,
        (∀ issue, net.refusal? c = some issue →
          net.update c.relation c.event = .ok (net.report issue, true)) ∧
        (net.inputs[c.relation]? = none → net.update c.relation c.event = .ok (net, false)) ∧
        ∀ net' used, net.update c.relation c.event = .ok (net', used) →
          used = (net.inputs[c.relation]?).isSome :=
  ⟨taken_sublist net cs, quiet_updateAll_taken net cs, problems_updateAll_taken net cs, fun c =>
    ⟨fun _ => update_of_refusal, fun h => by rw [update, h]; rfl, fun _ _ => used_of_update⟩⟩

end Network
end Motif
