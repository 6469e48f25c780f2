import Motif.Proofs.Network.Announcing

/-!
The history of the matches. In a run of calls the changes that productions have announced are, for each
match, its comings and goings in turn, and it is held if it came last. What has been announced has also
been passed on, in the same order.
-/
set_option autoImplicit false
namespace Motif

def Direction.Alternate : Direction → List Direction → Prop
  | _, [] => True
  | d, d' :: rest => d' = d ∧ d.opposite.Alternate rest

namespace ProductionEvent
variable {before after : Set (NodeId × Tuple)} {log log' : List ProductionEvent}

def turns (log : List ProductionEvent) (s : NodeId × Tuple) : List Direction :=
  (log.filter (·.subject = s)).map (·.event.direction)

theorem turns_cons_of_eq {e : ProductionEvent} {s : NodeId × Tuple} (h : e.subject = s) :
    turns (e :: log) s = e.event.direction :: turns log s := by
  rw [turns, List.filter_cons_of_pos (by simpa using h)]
  rfl

theorem turns_cons_of_ne {e : ProductionEvent} {s : NodeId × Tuple} (h : e.subject ≠ s) :
    turns (e :: log) s = turns log s := by
  rw [turns, List.filter_cons_of_neg (by simpa using h)]
  rfl

/-- A match that is there goes next, and one that is absent comes next. -/
theorem Happens.alternate (h : Happens before log after) (s : NodeId × Tuple) {d : Direction}
    (hd : d = .revoke ↔ s ∈ before) : d.Alternate (turns log s) := by
  induction log generalizing before d with
  | nil => trivial
  | cons e rest ih =>
    obtain ⟨suits, h⟩ := h
    rw [suits_iff] at suits
    by_cases hs : e.subject = s
    · have hdir : e.event.direction = d := by
        rw [hs, ← hd] at suits
        cases d <;> cases he : e.event.direction <;> simp_all
      rw [turns_cons_of_eq hs]
      refine ⟨hdir, ih h ?_⟩
      rw [mem_apply, if_pos hs, hdir]
      cases d <;> simp [Direction.opposite]
    · rw [turns_cons_of_ne hs]
      refine ih h ?_
      rw [mem_apply, if_neg hs]
      exact hd

theorem Happens.mem_iff (h : Happens before log after) (s : NodeId × Tuple) : s ∈ after ↔
    (turns log s).getLast? = some .insert ∨ turns log s = [] ∧ s ∈ before := by
  induction log generalizing before with
  | nil =>
    cases h
    simp [turns]
  | cons e rest ih =>
    rw [ih h.2, mem_apply]
    by_cases hs : e.subject = s
    · rw [turns_cons_of_eq hs, if_pos hs]
      cases turns rest s with
      | nil => simp
      | cons d ds => simp [List.getLast?_cons]
    · rw [turns_cons_of_ne hs, if_neg hs]

end ProductionEvent

open ProductionEvent

namespace Network
variable {net net' : Network} {log : List ProductionEvent}

section run
variable {p p' : Network × List ProductionEvent} {done new : List Task}

def past (p : Network × List ProductionEvent) : List ProductionEvent := p.2 ++ p.1.takeEvents.2

structure Chronicled (p : Network × List ProductionEvent) (done : List Task) : Prop where
  apart : p.1.Apart
  happens : Happens ∅ (past p) p.1.allMatched
  passed : done.filterMap p.1.announcement? = past p
  within : ∀ q e, .propagate q e ∈ done → q < p.1.vertices.size

theorem chronicled_empty : Chronicled ({}, []) [] where
  apart r id h := by
    rw [show ({} : Network).inputs[r]? = none from Std.ExtTreeMap.getElem?_empty] at h
    cases h
  happens := Set.ext fun s => iff_of_false (Set.notMem_empty s) (by simp [allMatched, matchedAt])
  passed := rfl
  within := nofun

theorem Alters.filterMap_announcement? (h : Alters net net' log)
    (within : ∀ q e, .propagate q e ∈ done → q < net.vertices.size) :
    done.filterMap net'.announcement? = done.filterMap net.announcement? := by
  refine List.filterMap_congr fun t ht => ?_
  cases t with
  | propagate q e => simp only [Network.announcement?, h.produces q (within q e ht)]
  | deliver _ _ | notify _ _ _ _ => rfl

theorem Chronicled.alters {taken : List ProductionEvent} (h : Chronicled (net, taken) done)
    (a : Alters net net' log) (hnew : new.filterMap net'.announcement? = log)
    (within : ∀ q e, .propagate q e ∈ new → q < net'.vertices.size) :
    Chronicled (net', taken) (done ++ new) := by
  have grown : past (net', taken) = past (net, taken) ++ log := by
    show taken ++ net'.events.reverse = taken ++ net.events.reverse ++ log
    rw [a.events, List.reverse_append, List.reverse_reverse, List.append_assoc]
  refine ⟨a.apart h.apart, ?_, ?_, fun q e ht => ?_⟩
  · rw [grown]
    exact h.happens.append a.happens
  · rw [List.filterMap_append, a.filterMap_announcement? h.within, h.passed, hnew, grown]
  · rcases List.mem_append.1 ht with ht | ht
    · exact (h.within q e ht).trans_le a.size
    · exact within q e ht

theorem Chronicled.takeEvents {taken : List ProductionEvent} (h : Chronicled (net, taken) done) :
    Chronicled (net.takeEvents.1, taken ++ net.takeEvents.2) done := by
  have same : past (net.takeEvents.1, taken ++ net.takeEvents.2) = past (net, taken) :=
    List.append_nil _
  exact ⟨h.apart, same ▸ h.happens, same ▸ h.passed, h.within⟩

theorem Runs.chronicled {ds : List Demand} (run : Runs p ds new p') (h : Chronicled p done) :
    Chronicled p' (done ++ new) := by
  induction run generalizing done with
  | nil p => rwa [List.append_nil]
  | @call net net₁ net₂ taken _ _ _ _ _ _ hl hd _ ih =>
    obtain ⟨launched, quiet⟩ := launch_alters h.apart hl
    obtain ⟨log, alters, passed, within⟩ := hd.announces (filterMap_tail_eq_nil quiet)
    rw [quiet, List.nil_append] at passed
    have before : Chronicled (net₁, taken) (done ++ []) := h.alters launched rfl nofun
    rw [List.append_nil] at before
    rw [← List.append_assoc]
    exact ih (before.alters alters ((alters.filterMap_announcement? within).trans passed)
      fun q e ht => (within q e ht).trans_le alters.size)
  | events _ ih => exact ih h.takeEvents

/-- The events `past` are the history of the productions of a network, and `done` what was done. -/
structure Chronicle (net : Network) (past : List ProductionEvent) (done : List Task) : Prop where
  /-- a match comes and goes in turn, and comes first -/
  alternate : ∀ s, Direction.insert.Alternate (turns past s)
  /-- a match is held if it came last -/
  held : ∀ (q : NodeId) (memory : Bag Tuple), net.productionMemory? q = some memory →
    ∀ t, memory.contains t = true ↔ (turns past (q, t)).getLast? = some .insert
  /-- productions have passed on what they have announced, in the same order -/
  passed : done.filterMap net.announcement? = past

theorem matchedAt_of_productionMemory? {q : NodeId} {memory : Bag Tuple}
    (h : net.productionMemory? q = some memory) :
    net.matchedAt q = memory.toMultiset.toFinset := by
  rw [productionMemory?] at h
  split at h
  · next hv =>
    cases h
    rw [matchedAt, hv]
    rfl
  · cases h

theorem Chronicled.chronicle {taken : List ProductionEvent} (h : Chronicled (net, taken) done) :
    Chronicle net (past (net, taken)) done where
  alternate s := h.happens.alternate s (by simp)
  held q memory hq t := by
    have mem : (q, t) ∈ net.allMatched ↔ t ∈ memory.toMultiset.toFinset := by
      rw [← matchedAt_of_productionMemory? hq]
      rfl
    rw [Bag.contains_iff_mem, ← Multiset.mem_toFinset, ← mem, h.happens.mem_iff]
    simp
  passed := h.passed

/-- In every run that completes, the changes recorded of a production are the history of its matches,
and it passes the same changes on. -/
theorem run_chronicle {ds : List Demand} {net : Network} {taken : List ProductionEvent}
    (run : ds.foldlM meet ({}, []) = .ok (net, taken)) :
    (∃ done, Runs ({}, []) ds done (net, taken)) ∧
      ∀ done, Runs ({}, []) ds done (net, taken) → Chronicle net (past (net, taken)) done :=
  ⟨foldlM_meet_eq_ok_iff.1 run, fun _ h => (h.chronicled chronicled_empty).chronicle⟩

def supported (r : Relation) : List Demand :=
  [.call (.input r 1 false), .call (.production "p" 1), .call (.connect 1 0),
    .call (.update r ⟨.insert, [.null]⟩), .events, .call (.update r ⟨.insert, [.null]⟩),
    .call (.update r ⟨.revoke, [.null]⟩), .call (.update r ⟨.revoke, [.null]⟩),
    .call (.connect 1 1), .call (.update r ⟨.insert, [.null]⟩)]

theorem supported_runs : ∃ done p, Runs ({}, []) (supported (.extent "c")) done p ∧
    past p = [⟨1, ⟨.insert, [.null]⟩⟩, ⟨1, ⟨.revoke, [.null]⟩⟩, ⟨1, ⟨.insert, [.null]⟩⟩] :=
  ⟨_, _, by
    apply Runs.call rfl (.nil _)
    apply Runs.call rfl (.nil _)
    apply Runs.call rfl (.nil _)
    apply Runs.call rfl (by repeat first | exact .nil _ | apply Does.cons rfl)
    apply Runs.events
    apply Runs.call rfl (by repeat first | exact .nil _ | apply Does.cons rfl)
    apply Runs.call rfl (by repeat first | exact .nil _ | apply Does.cons rfl)
    apply Runs.call rfl (by repeat first | exact .nil _ | apply Does.cons rfl)
    apply Runs.call rfl (.nil _)
    apply Runs.call rfl (by repeat first | exact .nil _ | apply Does.cons rfl)
    exact .nil _, by rfl⟩

theorem supported_chronicle : ∃ net taken,
    (supported (.extent "c")).foldlM meet ({}, []) = .ok (net, taken) ∧
    past (net, taken) = [⟨1, ⟨.insert, [.null]⟩⟩, ⟨1, ⟨.revoke, [.null]⟩⟩,
      ⟨1, ⟨.insert, [.null]⟩⟩] ∧
    (∃ done, Runs ({}, []) (supported (.extent "c")) done (net, taken)) ∧
    ∀ done, Runs ({}, []) (supported (.extent "c")) done (net, taken) →
      Chronicle net (past (net, taken)) done := by
  obtain ⟨done, ⟨net, taken⟩, run, told⟩ := supported_runs
  have completes := foldlM_meet_eq_ok_iff.2 ⟨done, run⟩
  exact ⟨net, taken, completes, told, run_chronicle completes⟩

end run

end Network
end Motif
