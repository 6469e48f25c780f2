import Motif.Proofs.Network.Exact

set_option autoImplicit false
namespace Motif
namespace Network

inductive Does : Network → Agenda → List Task → Network → Prop where
  | nil (net : Network) : Does net [] [] net
  | cons {net net₁ net' : Network} {task : Task} {more rest : Agenda} {done : List Task} :
      net.step task = .ok (net₁, more) → Does net₁ (more ++ rest) done net' →
      Does net (task :: rest) (task :: done) net'

section settle
variable {net net' : Network} {agenda : Agenda}

theorem settle?_cons_of_ok {net₁ : Network} {task : Task} {more rest : Agenda}
    (h : net.step task = .ok (net₁, more)) :
    net.settle? (task :: rest) = net₁.settle? (more ++ rest) := by
  rw [settle?.eq_def]
  simp only [h]

theorem settle?_cons_of_error {task : Task} {rest : Agenda} {f : Fault}
    (h : net.step task = .error f) : net.settle? (task :: rest) = some (.error f) := by
  rw [settle?.eq_def]
  simp only [h]

theorem settle?_nil : net.settle? [] = some (.ok net) := by rw [settle?.eq_def]

/-- What commutes with every step commutes with settling. -/
theorem settle?_map {f : Network → Network}
    (h : ∀ net task, (f net).step task = (fun p => (f p.1, p.2)) <$> net.step task) :
    (f net).settle? agenda = (net.settle? agenda).map (f <$> ·) := by
  have forth : ∀ net agenda r, net.settle? agenda = some r →
      (f net).settle? agenda = some (f <$> r) := by
    refine settle?.partial_correctness
      (fun net agenda r => (f net).settle? agenda = some (f <$> r)) ?_
    intro settle ih net agenda r hr
    cases agenda with
    | nil =>
      cases hr
      exact settle?_nil
    | cons task rest =>
      cases hs : net.step task with
      | error fault =>
        simp only [hs] at hr
        cases hr
        exact settle?_cons_of_error (by rw [h, hs]; rfl)
      | ok p =>
        simp only [hs] at hr
        have hf : (f net).step task = .ok (f p.1, p.2) := by
          rw [h, hs]
          rfl
        rw [settle?_cons_of_ok hf]
        exact ih _ _ _ hr
  have back : ∀ net' agenda r, settle? net' agenda = some r → ∀ net, net' = f net →
      ∃ r', net.settle? agenda = some r' := by
    refine settle?.partial_correctness
      (fun net' agenda _ => ∀ net, net' = f net → ∃ r', net.settle? agenda = some r') ?_
    rintro settle ih _ agenda r hr net rfl
    cases agenda with
    | nil => exact ⟨_, settle?_nil⟩
    | cons task rest =>
      cases hs : net.step task with
      | error fault => exact ⟨_, settle?_cons_of_error hs⟩
      | ok p =>
        obtain ⟨net₁, more⟩ := p
        simp only [h, hs, Except.map_ok] at hr
        rw [settle?_cons_of_ok hs]
        exact ih _ _ _ hr _ rfl
  cases hn : net.settle? agenda with
  | some r => exact forth net agenda r hn
  | none =>
    cases hf : (f net).settle? agenda with
    | none => rfl
    | some r =>
      obtain ⟨r', hr'⟩ := back _ _ r hf net rfl
      cases hn.symm.trans hr'

theorem exists_settle?_of_append {rest : Agenda} {r : Except Fault Network}
    (h : net.settle? (agenda ++ rest) = some r) : ∃ r', net.settle? agenda = some r' := by
  refine settle?.partial_correctness
    (fun net whole _ => ∀ agenda rest, whole = agenda ++ rest → ∃ r', net.settle? agenda = some r')
    ?_ net (agenda ++ rest) r h agenda rest rfl
  intro settle ih net whole r hr agenda rest hw
  cases agenda with
  | nil => exact ⟨_, settle?_nil⟩
  | cons task agenda =>
    subst hw
    cases hs : net.step task with
    | error f => exact ⟨_, settle?_cons_of_error hs⟩
    | ok p =>
      obtain ⟨net₁, more⟩ := p
      simp only [List.cons_append, hs] at hr
      rw [settle?_cons_of_ok hs]
      exact ih net₁ _ r hr (more ++ agenda) rest (List.append_assoc more agenda rest).symm

theorem settle?_append_of_some (rest : Agenda) (r : Except Fault Network) :
    net.settle? agenda = some r → net.settle? (agenda ++ rest) =
      match r with
      | .error f => some (.error f)
      | .ok net' => net'.settle? rest := by
  refine settle?.partial_correctness (fun net agenda r => net.settle? (agenda ++ rest) =
    match r with
    | .error f => some (.error f)
    | .ok net' => net'.settle? rest) ?_ net agenda r
  intro settle ih net agenda r hr
  cases agenda with
  | nil =>
    cases hr
    rfl
  | cons task agenda =>
    cases hs : net.step task with
    | error f =>
      simp only [hs] at hr
      cases hr
      exact settle?_cons_of_error hs
    | ok p =>
      obtain ⟨net₁, more⟩ := p
      simp only [hs] at hr
      rw [List.cons_append, settle?_cons_of_ok hs, ← List.append_assoc]
      exact ih net₁ _ r hr

theorem settle_append (net : Network) (agenda rest : Agenda) :
    net.settle (agenda ++ rest) = (do (← net.settle agenda).settle rest) := by
  rw [settle, settle]
  cases h : net.settle? agenda with
  | some r =>
    rw [settle?_append_of_some rest r h]
    cases r <;> rfl
  | none =>
    cases h' : net.settle? (agenda ++ rest) with
    | none => rfl
    | some r =>
      obtain ⟨r', hr'⟩ := exists_settle?_of_append h'
      cases h.symm.trans hr'

theorem Does.settle?_eq {done : List Task} (h : Does net agenda done net') :
    net.settle? agenda = some (.ok net') := by
  induction h with
  | nil => exact settle?_nil
  | cons hstep _ ih => rw [settle?_cons_of_ok hstep, ih]

theorem settle_eq_ok_iff : net.settle agenda = .ok net' ↔ ∃ done, Does net agenda done net' := by
  constructor
  · intro h
    cases hr : net.settle? agenda with
    | none =>
      rw [settle, hr] at h
      cases h
    | some r =>
      rw [settle, hr] at h
      obtain rfl : r = .ok net' := h
      refine settle?.partial_correctness
        (fun net agenda r => ∀ net', r = .ok net' → ∃ done, Does net agenda done net')
        ?_ net agenda (.ok net') hr net' rfl
      intro settle ih net agenda r hr net' hok
      subst hok
      cases agenda with
      | nil =>
        cases hr
        exact ⟨[], .nil net⟩
      | cons task rest =>
        cases hs : net.step task with
        | error f =>
          simp only [hs] at hr
          cases hr
        | ok p =>
          obtain ⟨net₁, more⟩ := p
          simp only [hs] at hr
          obtain ⟨done, hd⟩ := ih net₁ _ _ hr net' rfl
          exact ⟨task :: done, .cons hs hd⟩
  · rintro ⟨done, h⟩
    rw [settle, h.settle?_eq]
    rfl

end settle

def arrivals (id : NodeId) (rows : List Tuple) : Agenda :=
  rows.map fun t => .deliver (.node id) ⟨.insert, t⟩

theorem settle_nil (net : Network) : net.settle [] = .ok net := by
  rw [settle, settle?_nil]
  rfl

theorem feed_eq_settle (net : Network) (id : NodeId) (rows : List Tuple) :
    net.feed id rows = net.settle (arrivals id rows) := by
  induction rows generalizing net with
  | nil => exact (settle_nil net).symm
  | cons t rest ih =>
    have first : arrivals id (t :: rest) =
        [.deliver (.node id) ⟨.insert, t⟩] ++ arrivals id rest := rfl
    rw [first, settle_append, feed]
    simp only [ih]

def launchChild (net : Network) (parent : NodeId) (n : Node) (arity : Nat) :
    Except Fault (Network × Agenda) := do
  discard (net.vertex parent)
  let (net, id) := net.push n [parent] arity
  let net := net.addReceiver parent (.node id)
  if n.isStateful then return (net, arrivals id (← net.pull parent)) else return (net, [])

/-- The network as a call changes it at once, and the agenda that the call then settles. -/
def launch (net : Network) : Call → Except Fault (Network × Agenda)
  | .trim p mask => net.launchChild p (.trim mask) mask.arity
  | .constantFilter p column value => do
    net.launchChild p (.constantFilter column value) (← net.arity p)
  | .equalityFilter p groups => do net.launchChild p (.equalityFilter groups) (← net.arity p)
  | .inequalityFilter p left right => do
    net.launchChild p (.inequalityFilter left right) (← net.arity p)
  | .expression p evaluator inputs mode => do
    let width ← net.arity p
    net.launchChild p (.expression { evaluator, inputs, mode })
      (match mode with | .check => width | .bind => width + 1)
  | .closure p => do
    if (← net.arity p) ≠ 2 then throw .closureWidth
    net.launchChild p (.closure {}) 2
  | .uniqueness p => do net.launchChild p (.uniqueness ∅) (← net.arity p)
  | .connect m p => do
    if (← net.arity m) ≠ (← net.arity p) then throw .productionWidth
    let net := { net with
      vertices := net.vertices.modify m fun v => { v with parents := v.parents ++ [p] } }
    let net := net.addReceiver p (.node m)
    return (net, arrivals m (← net.pull p))
  | .update r e =>
    match net.inputs[r]? with
    | none => return (net, [])
    | some id => do
      match ← net.node id with
      | .input key unique memory =>
        match changeMemory r unique memory e with
        | .error issue => return (net.report issue, [])
        | .ok memory => return (net.setNode id (.input key unique memory), [.propagate id e])
      | _ => return (net, [.propagate id e])
  | c => do return (← net.perform c, [])

/-- A call that settles nothing is the change itself. -/
theorem made_of_unsettled {net' : Network} {agenda : Agenda} {x : Except Fault (Network × Nat)}
    (h : (do return (← Prod.fst <$> x, ([] : Agenda))) = .ok (net', agenda)) :
    ∃ id, x = .ok (net', id) ∧ agenda = [] := by
  cases x with
  | error f => cases h
  | ok p =>
    cases h
    exact ⟨p.2, rfl, rfl⟩

theorem addChild_eq (net : Network) (parent : NodeId) (n : Node) (arity : Nat) :
    Prod.fst <$> net.addChild parent n arity =
      net.launchChild parent n arity >>= fun p => p.1.settle p.2 := by
  rw [addChild, launchChild, map_bind, bind_assoc]
  congr 1
  funext v
  cases n.isStateful with
  | false => exact (settle_nil _).symm
  | true =>
    simp only [if_true, map_bind, bind_assoc, pure_bind, map_pure, feed_eq_settle, bind_pure]

/-- A call changes the network at once and then settles an agenda. -/
theorem perform_eq (net : Network) (c : Call) :
    net.perform c = net.launch c >>= fun p => p.1.settle p.2 := by
  have quiet : ∀ c, net.perform c = (do return (← net.perform c, ([] : Agenda))) >>= fun p =>
      p.1.settle p.2 := fun c => by
    simp only [bind_assoc, pure_bind, settle_nil]
    exact (bind_pure _).symm
  cases c with
  | input _ _ _ | constant _ _ | index _ _ | join _ _ _ _ | existence _ _ _ _ _
  | outerJoin _ _ _ _ _ | grouping _ _ _ _ | production _ _ => exact quiet _
  | trim p mask => exact addChild_eq net p _ _
  | constantFilter p _ _ | equalityFilter p _ | inequalityFilter p _ _ | uniqueness p
  | expression p _ _ _ =>
    refine (map_bind ..).trans (Eq.trans ?_ (bind_assoc ..).symm)
    congr 1
    funext width
    exact addChild_eq net p _ _
  | closure p =>
    refine (map_bind ..).trans (Eq.trans ?_ (bind_assoc ..).symm)
    congr 1
    funext width
    split
    · rfl
    · exact addChild_eq net p _ _
  | connect m p =>
    rw [perform, connect, launch]
    simp only [bind_assoc, feed_eq_settle]
    congr 1
    funext width
    congr 1
    funext width'
    split
    · rfl
    · simp only [bind_assoc, pure_bind]
  | update r e =>
    rw [perform, update_eq, launch]
    cases net.inputs[r]? with
    | none => exact (settle_nil net).symm
    | some id =>
      simp only [map_bind, bind_assoc]
      congr 1
      funext n
      cases n with
      | input key unique memory =>
        simp only
        cases changeMemory r unique memory e with
        | error issue => exact (settle_nil _).symm
        | ok memory => exact (map_bind ..).trans (bind_pure _)
      | _ => exact (map_bind ..).trans (bind_pure _)

/-- What is asked of a network: a call, or the changes of its productions since they were last
taken. -/
inductive Demand where
  | call (c : Call)
  | events

def meet (p : Network × List ProductionEvent) : Demand → Except Fault (Network × List ProductionEvent)
  | .call c => do return (← p.1.perform c, p.2)
  | .events => .ok (p.1.takeEvents.1, p.2 ++ p.1.takeEvents.2)

inductive Runs : Network × List ProductionEvent → List Demand → List Task →
    Network × List ProductionEvent → Prop where
  | nil (p : Network × List ProductionEvent) : Runs p [] [] p
  | call {net net₁ net₂ : Network} {taken : List ProductionEvent} {c : Call} {agenda : Agenda}
      {ds : List Demand} {done rest : List Task} {p : Network × List ProductionEvent} :
      net.launch c = .ok (net₁, agenda) → Does net₁ agenda done net₂ →
      Runs (net₂, taken) ds rest p → Runs (net, taken) (.call c :: ds) (done ++ rest) p
  | events {net : Network} {taken : List ProductionEvent} {ds : List Demand} {rest : List Task}
      {p : Network × List ProductionEvent} :
      Runs (net.takeEvents.1, taken ++ net.takeEvents.2) ds rest p →
      Runs (net, taken) (.events :: ds) rest p

theorem perform_eq_ok_iff {net net' : Network} {c : Call} : net.perform c = .ok net' ↔
    ∃ net₁ agenda done, net.launch c = .ok (net₁, agenda) ∧ Does net₁ agenda done net' := by
  rw [perform_eq]
  constructor
  · intro h
    obtain ⟨⟨net₁, agenda⟩, hl, hs⟩ := bind_ok h
    obtain ⟨done, hd⟩ := settle_eq_ok_iff.1 hs
    exact ⟨net₁, agenda, done, hl, hd⟩
  · rintro ⟨net₁, agenda, done, hl, hd⟩
    rw [hl]
    exact settle_eq_ok_iff.2 ⟨done, hd⟩

theorem foldlM_meet_eq_ok_iff {p p' : Network × List ProductionEvent} {ds : List Demand} :
    ds.foldlM meet p = .ok p' ↔ ∃ done, Runs p ds done p' := by
  constructor
  · intro h
    induction ds generalizing p with
    | nil =>
      cases h
      exact ⟨[], .nil _⟩
    | cons d ds ih =>
      obtain ⟨net, taken⟩ := p
      rw [List.foldlM_cons] at h
      obtain ⟨p₁, hd, hrest⟩ := bind_ok h
      obtain ⟨rest, hr⟩ := ih hrest
      cases d with
      | call c =>
        obtain ⟨net₂, hc, hp⟩ := bind_ok hd
        cases hp
        obtain ⟨net₁, agenda, done, hl, hdone⟩ := perform_eq_ok_iff.1 hc
        exact ⟨done ++ rest, .call hl hdone hr⟩
      | events =>
        cases hd
        exact ⟨rest, .events hr⟩
  · rintro ⟨done, h⟩
    induction h with
    | nil => rfl
    | call hl hd _ ih =>
      rw [List.foldlM_cons, meet, perform_eq_ok_iff.2 ⟨_, _, _, hl, hd⟩]
      exact ih
    | events _ ih =>
      rw [List.foldlM_cons]
      exact ih

end Network
end Motif
