import Motif.Proofs.Engine.Isolation
import Motif.Proofs.Engine.Relevance
import Motif.Proofs.Network.Chronicle

/-!
What a listener has heard. One that was told of the matches there were when it came, and has been told
of all changes since, has heard the history of its query: every match comes and goes in turn, and is
there if it came last.
-/
set_option autoImplicit false
namespace Motif

open ProductionEvent

namespace ProductionEvent
variable {before after : Set (NodeId × Tuple)} {log : List ProductionEvent} {q : NodeId}

/-- What happens to the matches of one production are the events of that production. -/
theorem Happens.at (h : Happens before log after) (q : NodeId) :
    Happens {s ∈ before | s.1 = q} (log.filter (·.node = q)) {s ∈ after | s.1 = q} := by
  induction log generalizing before with
  | nil =>
    cases h
    rfl
  | cons e rest ih =>
    obtain ⟨suits, h⟩ := h
    rw [suits_iff] at suits
    have rest := ih h
    by_cases he : e.node = q
    · rw [List.filter_cons_of_pos (by simpa using he)]
      refine ⟨?_, ?_⟩
      · rw [suits_iff, ← suits]
        exact and_iff_left he
      · have same : e.apply {s ∈ before | s.1 = q} = {s ∈ e.apply before | s.1 = q} := by
          ext s
          simp only [Set.mem_ofPred_eq, mem_apply]
          by_cases hs : e.subject = s
          · rw [if_pos hs, if_pos hs]
            exact (and_iff_left ((congrArg Prod.fst hs).symm.trans he)).symm
          · rw [if_neg hs, if_neg hs]
        exact same ▸ rest
    · rw [List.filter_cons_of_neg (by simpa using he)]
      have same : {s ∈ before | s.1 = q} = {s ∈ e.apply before | s.1 = q} := by
        ext s
        simp only [Set.mem_ofPred_eq, mem_apply]
        refine and_congr_left fun hs => ?_
        rw [if_neg fun hes => he ((congrArg Prod.fst hes).trans hs)]
      exact same ▸ rest

theorem happens_inserts {ts : List Tuple} (nodup : ts.Nodup) (absent : ∀ t ∈ ts, (q, t) ∉ before) :
    Happens before (ts.map fun t => ⟨q, .insert, t⟩) (before ∪ {s | s.1 = q ∧ s.2 ∈ ts}) := by
  induction ts generalizing before with
  | nil => exact Set.ext fun s => by simp
  | cons t rest ih =>
    rw [List.nodup_cons] at nodup
    refine ⟨absent t List.mem_cons_self, ?_⟩
    have others : ∀ t' ∈ rest, (q, t') ∉ insert (q, t) before := fun t' ht' hmem =>
      (Set.mem_insert_iff.1 hmem).elim (fun same => nodup.1 ((Prod.mk.inj same).2 ▸ ht'))
        (absent t' (List.mem_cons_of_mem _ ht'))
    have same : before ∪ {s | s.1 = q ∧ s.2 ∈ t :: rest} =
        insert (q, t) before ∪ {s | s.1 = q ∧ s.2 ∈ rest} := by
      ext ⟨q', t'⟩
      simp only [Set.mem_union, Set.mem_insert_iff, Set.mem_ofPred_eq, List.mem_cons, Prod.mk.injEq]
      tauto
    exact same ▸ ih nodup.2 others

end ProductionEvent

def Notice.event (q : NodeId) (n : Notice) : ProductionEvent := ⟨q, n.direction, n.found.tuple⟩

namespace Subscription
variable {s : Subscription} {q : NodeId} {t : Tuple}

def turns (s : Subscription) (t : Tuple) : List Direction :=
  (s.heard.reverse.filter (·.found.tuple = t)).map (·.direction)

def events (s : Subscription) (q : NodeId) : List ProductionEvent := s.heard.reverse.map (·.event q)

/-- The listener was told the history of the matches in `memory`. -/
structure Chronicles (s : Subscription) (memory : Bag Tuple) : Prop where
  /-- a match comes and goes in turn, and comes first -/
  alternate : ∀ t, Direction.insert.Alternate (s.turns t)
  /-- a match is held if it came last -/
  held : ∀ t, memory.contains t = true ↔ (s.turns t).getLast? = some .insert

theorem turns_events (s : Subscription) (q : NodeId) (t : Tuple) :
    ProductionEvent.turns (s.events q) (q, t) = s.turns t := by
  have same : ∀ n : Notice, decide ((n.event q).subject = (q, t)) = decide (n.found.tuple = t) :=
    fun n => by simp [Notice.event, ProductionEvent.subject]
  rw [ProductionEvent.turns, events, turns, List.filter_map, List.map_map]
  exact congrArg _ (List.filter_congr fun n _ => same n)

theorem chronicles_of_happens {memory : Bag Tuple}
    (h : Happens ∅ (s.events q) {x | x.1 = q ∧ x.2 ∈ memory.toMultiset}) : s.Chronicles memory where
  alternate t := s.turns_events q t ▸ h.alternate (q, t) (by simp)
  held t := by
    rw [Bag.contains_iff_mem, ← s.turns_events q t]
    exact ((and_iff_right rfl).symm.trans (h.mem_iff (q, t))).trans (by simp)

theorem foldl_attend (s : Subscription) (ns : List Notice) :
    ns.foldl attend s =
      { s with heard := (ns.filter (s.query.name = ·.found.query.name)).reverse ++ s.heard } := by
  induction ns generalizing s with
  | nil => rfl
  | cons n rest ih =>
    rw [List.foldl_cons, ih, attend]
    by_cases h : s.query.name = n.found.query.name
    · rw [if_pos h, List.filter_cons_of_pos (by simpa using h), List.reverse_cons, List.append_assoc]
      rfl
    · rw [if_neg h, List.filter_cons_of_neg (by simpa using h)]

end Subscription

theorem attendAll_eq (subs : List Subscription) (ns : List Notice) :
    attendAll subs ns = subs.map fun s => ns.foldl Subscription.attend s := by
  induction ns generalizing subs with
  | nil => exact (List.map_id subs).symm
  | cons n rest ih =>
    rw [attendAll, List.foldl_cons]
    exact (ih _).trans List.map_map

theorem Binding.agrees_unbound (arity : Nat) (t : Tuple) : (unbound arity).agrees t = true := by
  induction arity generalizing t with
  | zero => rfl
  | succ n ih => exact ih t.tail

def Query.Untyped (q : Query) : Prop := ∀ p ∈ q.parameters, p.kind = none

instance (q : Query) : Decidable q.Untyped :=
  inferInstanceAs (Decidable (∀ p ∈ q.parameters, p.kind = none))

theorem Query.Untyped.ofTuple {q : Query} (h : q.Untyped) (t : Tuple) :
    Match.ofTuple q t = .ok ⟨q, t⟩ := by
  have fits : (q.parameters.zip t).findSome? Match.misfit? = none :=
    List.findSome?_eq_none_iff.2 fun p hp => by
      rw [Match.misfit?, h p.1 (List.of_mem_zip hp).1]
  rw [Match.ofTuple, fits]

namespace Engine
variable {e e' : Engine} {s : Subscription} {q : NodeId} {faithful : Prop}
  {ids : Set (ListenerId × String)}

def Owns (e : Engine) (events : List ProductionEvent) : Prop :=
  ∀ ev ∈ events, ∃ query, e.producers[ev.node]? = some query ∧ e.productions[query.name]? = some ev.node

/-- The query is in the network with all its matches told to the listener, which has heard nothing else
of it. No parameter of it is of a declared kind. -/
structure Heeds (e : Engine) (s : Subscription) (q : NodeId) : Prop where
  production : e.productions[s.query.name]? = some q
  registered : e.catalog.queries[s.query.name]? = some s.query
  untyped : s.query.Untyped
  heard : Happens ∅ (s.events q) {x ∈ e.network.allMatched | x.1 = q}

theorem Sound.producer (h : e.Sound faithful [] []) {query : Query}
    (hid : e.productions[query.name]? = some q)
    (registered : e.catalog.queries[query.name]? = some query) : e.producers[q]? = some query := by
  obtain ⟨query', -, hq', producer, -⟩ := h.lodged query.name q hid
  cases registered.symm.trans hq'
  exact producer

theorem Carries.matchedAt_eq (h : e.Carries e') (hq : q < e.network.vertices.size) :
    e'.network.matchedAt q = e.network.matchedAt q := by
  have hv := Array.getElem?_eq_getElem hq
  obtain ⟨v', hv', same⟩ := h.annexes.outside.vertex (Network.Annexes.notMem_nodes hq) hv
  rw [Network.matchedAt, Network.matchedAt, hv', hv]
  exact congrArg Node.matched (Vertex.eq_of_unread_eq same).1

/-- What a listener is told of is what happens at the node of its query. -/
theorem map_event_notices {events : List ProductionEvent} (owns : e.Owns events)
    (hid : e.productions[s.query.name]? = some q) (producer : e.producers[q]? = some s.query)
    (untyped : s.query.Untyped) :
    ((events.filterMap e.notice?).filter (s.query.name = ·.found.query.name)).map (·.event q) =
      events.filter (·.node = q) := by
  induction events with
  | nil => rfl
  | cons ev rest ih =>
    have others := ih fun ev' hev' => owns ev' (List.mem_cons_of_mem _ hev')
    obtain ⟨query, hquery, hnode⟩ := owns ev List.mem_cons_self
    by_cases hev : ev.node = q
    · rw [hev, producer] at hquery
      cases hquery
      have told : e.notice? ev = some ⟨ev.event.direction, ⟨s.query, ev.event.tuple⟩⟩ := by
        simp only [notice?, hev, producer, untyped.ofTuple ev.event.tuple]
        rfl
      rw [List.filterMap_cons_some told, List.filter_cons_of_pos (by simp),
        List.filter_cons_of_pos (by simpa using hev), List.map_cons, others]
      exact congrArg (· :: _) (congrArg (ProductionEvent.mk · ev.event) hev.symm)
    · rw [List.filter_cons_of_neg (by simpa using hev), ← others]
      cases hn : e.notice? ev with
      | none => rw [List.filterMap_cons_none hn]
      | some n =>
        have name : n.found.query.name = query.name := by
          rw [notice?, hquery] at hn
          obtain ⟨found, hfound, rfl⟩ := Option.map_eq_some_iff.1 hn
          exact congrArg Query.name (Match.query_eq (Searcher.toOption_eq_some.1 hfound))
        rw [List.filterMap_cons_some hn, List.filter_cons_of_neg]
        simp only [decide_eq_true_eq]
        intro same
        rw [← name, ← same, hid] at hnode
        exact hev (Option.some.inj hnode).symm

theorem exists_propagate {fed : Engine} (run : e.propagate = .ok fed) :
    ∃ net history, e.network.updateAll e.model.drain.2 = .ok net ∧
      fed = { e.setNetwork net.takeIssues.1 with model := e.model.drain.1, history } := by
  obtain ⟨net, hnet, run⟩ := bind_ok run
  obtain ⟨history, reported⟩ := exists_report
    (({ e with model := e.model.drain.1 } : Engine).setNetwork net.takeIssues.1) net.takeIssues.2
  exact ⟨net, history, hnet, (Except.ok.inj run).symm.trans reported⟩

theorem Written.apart (w : e.Written faithful) : e.network.Apart := by
  obtain ⟨m, news, sound, -, -⟩ := w
  exact sound.regular.wired.apart

theorem Written.producer (w : e.Written faithful) (h : e.Heeds s q) :
    e.producers[q]? = some s.query := by
  obtain ⟨m, news, sound, -, -⟩ := w
  exact sound.producer h.production h.registered

theorem Written.happens {fed : Engine} (w : e.Written faithful) (quiet : e.Quiet)
    (run : e.propagate = .ok fed) :
    Happens e.network.allMatched fed.takeEvents.2 fed.network.allMatched ∧
      fed.Owns fed.takeEvents.2 := by
  have sound : fed.Sound faithful [] [] := by
    obtain ⟨fed', same, sound, -⟩ | ⟨none, -⟩ := w.propagate
    · cases run.symm.trans same
      exact sound
    · cases run.symm.trans none
  obtain ⟨net, history, hnet, hfed⟩ := exists_propagate run
  have fedNetwork : fed.network = net.takeIssues.1 := hfed ▸ rfl
  obtain ⟨log, alters, produced⟩ := Network.updateAll_produced w.apart hnet
  have recorded : fed.network.takeEvents.2 = log := by
    rw [fedNetwork]
    show net.events.reverse = log
    rw [alters.events, show e.network.events = [] from quiet, List.append_nil, List.reverse_reverse]
  have owns : fed.Owns log := fun ev hev => sound.exists_producer (fedNetwork ▸ produced ev hev)
  have happens : Happens e.network.allMatched log fed.network.allMatched :=
    fedNetwork ▸ alters.happens
  have taken : fed.takeEvents.2 = if fed.settings.coalesce then coalesce log else log :=
    recorded ▸ rfl
  rw [taken]
  split
  · refine ⟨happens_coalesce happens, fun ev hev => ?_⟩
    obtain ⟨ev', hev', same⟩ := exists_of_mem_coalesce hev
    exact same ▸ owns ev' hev'
  · exact ⟨happens, owns⟩

structure Heeding (ids : Set (ListenerId × String)) (e : Engine) : Prop where
  numbered : ∀ s ∈ e.subscriptions, s.id < e.nextListener
  given : ∀ x ∈ ids, x.1 < e.nextListener
  heeds : ∀ s ∈ e.subscriptions, ∀ name, (s.id, name) ∈ ids → s.query.name = name ∧ ∃ q, e.Heeds s q

namespace Heeding

theorem of_same (h : e.Heeding ids) (left : e'.subscriptions ⊆ e.subscriptions)
    (numbers : e.nextListener ≤ e'.nextListener) (productions : e'.productions = e.productions)
    (queries : e'.catalog.queries = e.catalog.queries)
    (matched : e'.network.allMatched = e.network.allMatched) : e'.Heeding ids where
  numbered s hs := (h.numbered s (left hs)).trans_le numbers
  given x hx := (h.given x hx).trans_le numbers
  heeds s hs name hid := by
    obtain ⟨named, q, heeds⟩ := h.heeds s (left hs) name hid
    exact ⟨named, q, productions ▸ heeds.production, queries ▸ heeds.registered, heeds.untyped,
      matched ▸ heeds.heard⟩

/-- A listener of a query in the network goes on hearing its history in a round. -/
theorem round (h : e.Heeding ids) (w : e.Written faithful) (quiet : e.Quiet) {queued : List Write}
    (run : e.round = .ok (e', queued)) : e'.Heeding ids := by
  obtain ⟨fed, hfed, run⟩ := bind_ok run
  obtain ⟨happens, owns⟩ := w.happens quiet hfed
  obtain ⟨net, past, -, same⟩ := exists_propagate hfed
  obtain ⟨subscriptions, history, rest⟩ := exists_deliverAll fed.takeEvents.1 fed.takeEvents.2
  have heard := (informs_deliverAll fed.takeEvents.1 fed.takeEvents.2).subscriptions
  have told : (fed.takeEvents.1.deliverAll fed.takeEvents.2).1 = e' :=
    congrArg Prod.fst (Except.ok.inj run)
  rw [told] at rest heard
  have nextListener : e'.nextListener = e.nextListener := by rw [rest, same]; rfl
  have productions : e'.productions = e.productions := by rw [rest, same]; rfl
  have catalog : e'.catalog = e.catalog := by rw [rest, same]; rfl
  have matched : e'.network.allMatched = fed.network.allMatched := by rw [rest]; rfl
  have listened : fed.takeEvents.1.subscriptions = e.subscriptions := by rw [same]; rfl
  rw [attendAll_eq, listened, show fed.takeEvents.1.notice? = fed.notice? from rfl] at heard
  -- Listeners keep their numbers and their queries.
  have attended : ∀ s' ∈ e'.subscriptions, ∃ s ∈ e.subscriptions, s' = { s with heard :=
      ((fed.takeEvents.2.filterMap fed.notice?).filter
        (s.query.name = ·.found.query.name)).reverse ++ s.heard } := fun s' hs' => by
    rw [heard] at hs'
    obtain ⟨s, hs, rfl⟩ := List.mem_map.1 hs'
    exact ⟨s, hs, s.foldl_attend _⟩
  refine ⟨fun s' hs' => ?_, fun x hx => nextListener ▸ h.given x hx, fun s' hs' name hid => ?_⟩
  · obtain ⟨s, hs, rfl⟩ := attended s' hs'
    exact nextListener ▸ h.numbered s hs
  · obtain ⟨s, hs, rfl⟩ := attended s' hs'
    obtain ⟨named, q, heeds⟩ := h.heeds s hs name hid
    have hears : (Subscription.mk s.id s.query s.listener
        (((fed.takeEvents.2.filterMap fed.notice?).filter
          (s.query.name = ·.found.query.name)).reverse ++ s.heard)).events q =
        s.events q ++ fed.takeEvents.2.filter (·.node = q) := by
      rw [← map_event_notices owns (same ▸ heeds.production) (same ▸ w.producer heeds) heeds.untyped,
        Subscription.events, List.reverse_append, List.reverse_reverse, List.map_append]
      rfl
    refine ⟨named, q, productions ▸ heeds.production, catalog ▸ heeds.registered, heeds.untyped, ?_⟩
    rw [hears, matched]
    exact heeds.heard.append (happens.at q)

theorem flushWithin {rounds : Nat} (h : e.Heeding ids) (w : e.Written faithful) (quiet : e.Quiet)
    (run : e.flushWithin rounds = .ok e') : e'.Heeding ids := by
  induction rounds generalizing e with
  | zero =>
    obtain ⟨⟨e₁, queued⟩, hround, run⟩ := bind_ok run
    have told := h.round w quiet hround
    dsimp only at run
    split at run <;> cases run
    · exact told
    · exact told.of_same (.refl _) le_rfl rfl rfl rfl
  | succ rounds ih =>
    obtain ⟨⟨e₁, queued⟩, hround, run⟩ := bind_ok run
    have told := h.round w quiet hround
    dsimp only at run
    split at run
    · cases run
      exact told
    · have taken : e₁.Quiet := quiet_round hround
      have wrote : (e₁.runQueued queued).Heeding ids := told.of_same (.refl _) le_rfl rfl rfl rfl
      exact ih wrote (w.of_rounds (.next .first hround)) taken run

theorem of_carries (h : e.Heeding ids) (sound : e.Sound faithful [] [])
    (sound' : e'.Sound faithful [] []) (carries : e.Carries e') (apart : e.Apart e') :
    e'.Heeding ids where
  numbered s hs := apart.nextListener ▸ h.numbered s (apart.subscriptions ▸ hs)
  given x hx := apart.nextListener ▸ h.given x hx
  heeds s hs name hid := by
    obtain ⟨named, q, heeds⟩ := h.heeds s (apart.subscriptions ▸ hs) name hid
    refine ⟨named, q, carries.productions sound sound' heeds.production, apart.catalog ▸ heeds.registered,
      heeds.untyped, ?_⟩
    have same : e'.network.matchedAt q = e.network.matchedAt q :=
      carries.matchedAt_eq (sound.lt_size heeds.production)
    have matched : {x ∈ e'.network.allMatched | x.1 = q} = {x ∈ e.network.allMatched | x.1 = q} := by
      refine Set.ext fun x => and_congr_left fun hx => ?_
      show x.2 ∈ e'.network.matchedAt x.1 ↔ x.2 ∈ e.network.matchedAt x.1
      rw [hx, same]
    exact matched ▸ heeds.heard

/-- A new listener is attached, which may have been told of the matches there are. -/
theorem attach {ids' : Set (ListenerId × String)} (h : e.Heeding ids) (hs : s.id = e.nextListener)
    (mine : ∀ x ∈ ids', x ∈ ids ∨ x = (s.id, s.query.name) ∧ ∃ q, e.Heeds s q)
    (history : List Happening) :
    ((({ e with nextListener := e.nextListener + 1, history } : Engine)).attach s).Heeding ids' where
  numbered s' hs' := by
    rcases List.mem_append.1 hs' with hs' | hs'
    · exact Nat.lt_succ_of_lt (h.numbered s' hs')
    · obtain rfl := List.mem_singleton.1 hs'
      exact hs ▸ Nat.lt_succ_self _
  given x hx := by
    obtain hx | ⟨rfl, -⟩ := mine x hx
    · exact Nat.lt_succ_of_lt (h.given x hx)
    · exact hs ▸ Nat.lt_succ_self _
  heeds s' hs' name hid := by
    have heeds : s'.query.name = name ∧ ∃ q, e.Heeds s' q := by
      rcases List.mem_append.1 hs' with hs' | hs'
      · obtain hid | ⟨same, -⟩ := mine _ hid
        · exact h.heeds s' hs' name hid
        · have earlier := h.numbered s' hs'
          rw [show s'.id = s.id from congrArg Prod.fst same, hs] at earlier
          exact absurd earlier (Nat.lt_irrefl _)
      · obtain rfl := List.mem_singleton.1 hs'
        obtain hid | ⟨same, heeds⟩ := mine _ hid
        · have earlier := h.given _ hid
          rw [hs] at earlier
          exact absurd earlier (Nat.lt_irrefl _)
        · exact ⟨(congrArg Prod.snd same).symm, heeds⟩
    exact heeds.imp_right (.imp fun _ heeds =>
      ⟨heeds.production, heeds.registered, heeds.untyped, heeds.heard⟩)

end Heeding

theorem heeds_of_memory {id : ListenerId} {query : Query} {listener : Listener} {memory : Bag Tuple}
    (production : e.productions[query.name]? = some q)
    (registered : e.catalog.queries[query.name]? = some query) (untyped : query.Untyped)
    (held : e.network.productionMemory? q = some memory) :
    e.Heeds ⟨id, query, listener,
      (memory.distinct.map fun t => (⟨.insert, ⟨query, t⟩⟩ : Notice)).reverse ++ []⟩ q := by
  refine ⟨production, registered, untyped, ?_⟩
  have comes : Happens ∅ (memory.distinct.map fun t => ⟨q, .insert, t⟩)
      (∅ ∪ {x | x.1 = q ∧ x.2 ∈ memory.distinct}) :=
    happens_inserts memory.nodup_distinct fun _ _ => Set.notMem_empty _
  have told : Subscription.events ⟨id, query, listener,
      (memory.distinct.map fun t => (⟨.insert, ⟨query, t⟩⟩ : Notice)).reverse ++ []⟩ q =
        memory.distinct.map fun t => ⟨q, .insert, t⟩ := by
    rw [Subscription.events, List.append_nil, List.reverse_reverse, List.map_map]
    rfl
  have matched : ∅ ∪ {x : NodeId × Tuple | x.1 = q ∧ x.2 ∈ memory.distinct} =
      {x ∈ e.network.allMatched | x.1 = q} := by
    rw [Set.empty_union]
    refine Set.ext fun x => and_comm.trans (and_congr_left fun hx => ?_)
    show x.2 ∈ memory.distinct ↔ x.2 ∈ e.network.matchedAt x.1
    rw [hx, Network.matchedAt_of_productionMemory? held, Bag.mem_distinct, Multiset.mem_toFinset]
  rw [told, ← matched]
  exact comes

theorem exists_introduceAll (e : Engine) (s : Subscription) (ts : List Tuple) :
    ∃ history s', (runAll introduce (e, s) ts).1 = ({ e with history }, s') ∧ s'.id = s.id ∧
      (s.query.Untyped → s' = { s with
        heard := (ts.map fun t => (⟨.insert, ⟨s.query, t⟩⟩ : Notice)).reverse ++ s.heard }) := by
  induction ts generalizing e s with
  | nil => exact ⟨e.history, s, rfl, rfl, fun _ => rfl⟩
  | cons t rest ih =>
    rw [runAll_cons]
    obtain ⟨history, s₁, first, hid, hears⟩ : ∃ history s₁,
        (introduce (e, s) t).1 = ({ e with history }, s₁) ∧ s₁.id = s.id ∧
          (s.query.Untyped → s₁ = s.hear ⟨.insert, ⟨s.query, t⟩⟩) := by
      rw [introduce]
      cases hm : Match.ofTuple s.query t with
      | error issue =>
        obtain ⟨history, reported⟩ := exists_report e [issue]
        exact ⟨history, s, congrArg (·, s) reported, rfl, fun untyped => by
          cases hm.symm.trans (untyped.ofTuple t)⟩
      | ok found =>
        refine ⟨_, _, rfl, rfl, fun untyped => ?_⟩
        cases hm.symm.trans (untyped.ofTuple t)
        rfl
    rw [first]
    obtain ⟨history', s', others, hid', hears'⟩ := ih { e with history } s₁
    refine ⟨history', s', others, hid'.trans hid, fun untyped => ?_⟩
    obtain rfl := hears untyped
    rw [hears' untyped, List.map_cons, List.reverse_cons, List.append_assoc]
    rfl

theorem Heeding.greet {ids' : Set (ListenerId × String)} {query : Query} {memory : Bag Tuple}
    (h : e.Heeding ids) (listener : Listener) (production : e.productions[query.name]? = some q)
    (registered : e.catalog.queries[query.name]? = some query)
    (held : e.network.productionMemory? q = some memory)
    (mine : ∀ x ∈ ids', x ∈ ids ∨ x = (e.nextListener, query.name) ∧
      ∀ q, e.catalog.queries[query.name]? = some q → q.Untyped) (news : List Happening) :
    let told := (runAll introduce (({ e with nextListener := e.nextListener + 1 } : Engine),
      (⟨e.nextListener, query, listener, []⟩ : Subscription)) memory.distinct).1
    ((told.1.record news).attach told.2).Heeding ids' := by
  obtain ⟨history, s, told, hid, hears⟩ := exists_introduceAll
    { e with nextListener := e.nextListener + 1 } ⟨e.nextListener, query, listener, []⟩ memory.distinct
  intro told'
  rw [show told' = _ from told]
  refine h.attach hid (fun x hx => (mine x hx).imp_right ?_) (news.reverse ++ history)
  rintro ⟨rfl, declares⟩
  have untyped := declares query registered
  obtain rfl := hears untyped
  exact ⟨rfl, q, heeds_of_memory production registered untyped held⟩

end Engine

namespace Session

open Engine
variable {e : Engine} {faithful : Prop} {ids ids' : Set (ListenerId × String)}

theorem run_map {α β : Type} (x : Session α) (g : α → β) (e : Engine) :
    (g <$> x).run.run e = ((x.run.run e).1.map g, (x.run.run e).2) := by
  rw [← bind_pure_comp, ExceptT.run_bind, StateT.run_bind]
  obtain ⟨_ | _, _⟩ := x.run.run e <;> rfl

theorem flush_heeding (h : e.Heeding ids) (w : e.Written faithful) (quiet : e.Quiet) :
    Session.flush.Leads e (fun _ => Heeding ids) fun f _ => ∃ x, f = .fault x :=
  leads_get (Leads.bind (leads_lift
    (fun _ run => leads_set (h.flushWithin w quiet (liftFault_ok run))) fun _ => liftFault_error))

theorem update_heeding (h : e.Heeding ids) (sound : e.Sound faithful [] []) (quiet : e.Quiet)
    (writes : List Write) : (update writes).Leads e (fun _ => Heeding ids)
      fun f e' => (∃ x, f = .fault x) ∨ e'.Heeding ids := by
  refine Leads.bind ((keeps_requireLive (I := fun e' => e'.Heeding ids ∧ e'.Sound faithful [] [] ∧
    e'.Quiet) e ⟨h, sound, quiet⟩).mono (fun _ e ⟨h, sound, quiet⟩ => ?_) fun _ _ kept => .inr kept.1)
  have written : Heeding ids { e with model := (e.model.writeAll writes).1 } :=
    h.of_same (.refl _) le_rfl rfl rfl rfl
  refine leads_get (Leads.bind (leads_set (Leads.bind ?_)))
  exact (flush_heeding written (sound.written writes) quiet).mono (fun _ _ h => leads_pure h)
    fun _ _ hf => .inl hf

theorem register_heeding (h : e.Heeding ids) (sound : e.Sound faithful [] []) (query : Query) :
    (register query).Leads e (fun _ => Heeding ids)
      fun f e' => (∃ x, f = .fault x) ∨ e'.Heeding ids := by
  refine Leads.bind ((keeps_requireLive (I := fun e' => e'.Heeding ids ∧ e'.Sound faithful [] []) e
    ⟨h, sound⟩).mono (fun _ e ⟨h, sound⟩ => leads_get ?_) fun _ _ kept => .inr kept.1)
  split
  · exact leads_throw (.inr h)
  · rename_i unused
    refine Leads.bind (leads_liftPlan (fun catalog hc => leads_set ?_) fun _ _ => .inr h)
    have kept : Catalog.Keeps False (fun n => e.inUse n = true) e.catalog catalog :=
      Catalog.keeps_register hc unused
    refine ⟨h.numbered, h.given, fun s hs name hid =>
      (h.heeds s hs name hid).imp_right (.imp fun q heeds => ?_)⟩
    exact ⟨heeds.production, kept.queries _ _ (Sound.inUse ⟨q, heeds.production⟩) heeds.registered,
      heeds.untyped, heeds.heard⟩

theorem dispose_heeding (h : e.Heeding ids) :
    dispose.Leads e (fun _ => Heeding ids) fun f e' => (∃ x, f = .fault x) ∨ e'.Heeding ids := by
  refine Leads.bind ((keeps_requireLive e h).mono (fun _ e h => leads_get ?_) fun _ _ kept => .inr kept)
  split
  · exact leads_throw (.inr h)
  · rename_i unheard
    have none : e.subscriptions = [] := by simpa using unheard
    exact leads_set ⟨h.numbered, h.given, fun s hs => absurd (none ▸ hs) List.not_mem_nil⟩

theorem evaluate_rete_leads (e : Engine) (name : String) (arity : Nat) :
    (evaluate name .rete (.unbound arity)).Leads e (fun ts e' => e' = e ∧ ∃ q memory,
      e.productions[name]? = some q ∧ e.network.productionMemory? q = some memory ∧
        ts = memory.distinct) fun _ e' => e' = e := by
  refine leads_get ?_
  rw [searchDepth, evaluateWithin]
  refine leads_get (leads_liftPlan (fun ts hts => ⟨rfl, ?_⟩) fun _ _ => rfl)
  rw [maintained] at hts
  split at hts
  · rename_i memory hmemory
    obtain ⟨q, hq, hmemory⟩ := Option.bind_eq_some_iff.1 hmemory
    refine ⟨q, memory, hq, hmemory, (Except.ok.inj hts).symm.trans ?_⟩
    exact List.filter_eq_self.2 fun t _ => Binding.agrees_unbound arity t
  · cases hts

/-- What the listeners have heard goes on being the history of their queries when another one comes. If
it is told of the matches there are, of a query that declares no kinds, that is so of it too. -/
theorem subscribe_heeding (h : e.Heeding ids) (sound : e.Sound faithful [] []) (quiet : e.Quiet)
    {name : String} {fireNow : Bool} (listener : Listener)
    (mine : ∀ x ∈ ids', x ∈ ids ∨ x = (e.nextListener, name) ∧ fireNow = true ∧
      ∀ q, e.catalog.queries[name]? = some q → q.Untyped) :
    (subscribe name fireNow listener).Leads e (fun id e' => id = e.nextListener ∧ e'.Heeding ids')
      fun f e' => (∃ x, f = .fault x) ∨ e'.Heeding ids := by
  have prepared := ((prepare_declines sound name).and (aloof_prepare name).leads).and
    (((Carries.abiding sound.valid).prepare name e (.refl e)).and (prepare_quiet quiet name))
  refine Leads.bind (prepared.mono ?_ ?_)
  · rintro backend e₁ ⟨⟨⟨sound₁, -, -⟩, apart⟩, carries, quiet₁⟩
    have h₁ : e₁.Heeding ids := h.of_carries sound sound₁ carries apart
    rw [← apart.nextListener] at mine ⊢
    rw [← apart.catalog] at mine
    cases backend with
    | localSearch => exact leads_throw (.inr h₁)
    | rete =>
      refine leads_get (Leads.bind (leads_liftPlan (fun q hq => ?_) fun _ _ => .inr h₁))
      have registered := Catalog.query_ok hq
      obtain rfl := (sound₁.valid name q registered).1
      have numbered : Sound faithful { e₁ with nextListener := e₁.nextListener + 1 } [] [] :=
        sound₁.attended _ _ sound₁.history
      refine Leads.bind (leads_set ?_)
      cases fireNow with
      | false =>
        refine Leads.bind (leads_modify (leads_pure ⟨rfl, ?_⟩))
        exact h₁.attach (s := ⟨e₁.nextListener, q, listener, []⟩) rfl
          (fun x hx => (mine x hx).imp_right fun none => nomatch none.2.1) e₁.history
      | true =>
        refine Leads.bind ((evaluate_rete_leads _ q.name q.arity).mono ?_ ?_)
        · rintro ts - ⟨rfl, node, memory, hnode, hmemory, rfl⟩
          refine leads_get ?_
          have attached := h₁.greet listener hnode registered hmemory
            (fun x hx => (mine x hx).imp_right (.imp_right And.right))
          have sound₂ := (numbered.introduceAll ⟨e₁.nextListener, q, listener, []⟩ memory.distinct).1
          have quiet₂ := quiet_introduce (e := { e₁ with nextListener := e₁.nextListener + 1 }) quiet₁
            ⟨e₁.nextListener, q, listener, []⟩ memory.distinct
          generalize runAll introduce (({ e₁ with nextListener := e₁.nextListener + 1 } : Engine),
            (⟨e₁.nextListener, q, listener, []⟩ : Subscription)) memory.distinct = r
            at attached sound₂ quiet₂
          obtain ⟨⟨e₂, s⟩, answers⟩ := r
          dsimp only at attached sound₂ quiet₂ ⊢
          split
          · exact Leads.bind (leads_set (leads_pure ⟨rfl, attached _⟩))
          · refine Leads.bind (leads_set (Leads.bind ?_))
            have asked : ((Engine.attach (e₂.record ((answers.flatMap Prod.snd).map .fatal)) s).runQueued
                (answers.flatMap Prod.fst)).Heeding ids' :=
              (attached _).of_same (.refl _) le_rfl rfl rfl rfl
            exact (flush_heeding asked (.runQueued (sound₂.attach _ s) _) quiet₂).mono
              (fun _ _ h => leads_pure ⟨rfl, h⟩) fun _ _ hf => .inl hf
        · rintro f - rfl
          exact .inr (h₁.of_same (.refl _) (Nat.le_succ _) rfl rfl rfl)
  · rintro f e₁ ⟨⟨⟨none, -⟩ | ⟨-, sound₁⟩, apart⟩, carries, -⟩
    · exact .inl ⟨_, none⟩
    · exact .inr (h.of_carries sound sound₁ carries apart)

end Session

namespace Engine
variable {e e' : Engine} {faithful : Prop} {ids : Set (ListenerId × String)}

theorem Heeding.call (h : e.Heeding ids) (sound : e.Sound faithful [] []) (quiet : e.Quiet) (c : Call)
    (ends : ∀ x, c.answer e ≠ .error (.fault x)) (sound' : (c.after e).Sound faithful [] []) :
    (c.after e).Heeding ids := by
  have readies : c.Readies → e.Apart (c.after e) → (c.after e).Heeding ids := fun hc apart =>
    h.of_carries sound sound' (.of_readies sound.valid hc) apart
  have led : ∀ {x : Session Unit}, c.perform = x → x.Leads e (fun _ => Heeding ids)
      (fun f e' => (∃ x, f = .fault x) ∨ e'.Heeding ids) → (c.after e).Heeding ids := fun hx led => by
    rw [← hx] at led
    cases ha : c.answer e with
    | ok => exact led.of_ok ha
    | error f =>
      obtain ⟨x, rfl⟩ | kept := led.of_error ha
      · exact absurd ha (ends x)
      · exact kept
  cases c with
  | register q => exact led rfl (Session.register_heeding h sound q)
  | registerEvaluator v | registerAggregator op =>
    exact h.of_same (.refl _) le_rfl rfl rfl rfl
  | takeHistory => exact h.of_same (.refl _) le_rfl rfl rfl rfl
  | unsubscribe id => exact h.of_same List.filter_sublist.subset le_rfl rfl rfl rfl
  | prepare name => exact readies trivial (Session.aloof_prepare name).map.apart
  | allMatches name p => exact readies trivial (Session.aloof_allMatches name p).map.apart
  | oneMatch name p | hasMatch name p | countMatches name p =>
    exact readies trivial (Session.aloof_allMatches name p).map.map.apart
  | matchesOf q backend p => exact readies trivial (Session.aloof_matchesOf q backend p).map.apart
  | valuesOf name parameter p => exact readies trivial (Session.aloof_valuesOf name parameter p).map.apart
  | converted name p convert => exact readies trivial (Session.aloof_converted name p convert).map.apart
  | update writes => exact led rfl (Session.update_heeding h sound quiet writes).map
  | subscribe name fireNow listener =>
    refine led rfl (Session.Leads.map ((Session.subscribe_heeding h sound quiet listener
      fun _ hx => .inl hx).mono (fun _ _ h => h.2) fun _ _ h => h))
  | dispose => exact led rfl (Session.dispose_heeding h)

inductive Continues (ok : Engine → Call → Prop) (e : Engine) : Engine → Prop
  | refl : Continues ok e e
  | call {e' : Engine} (c : Call) : Continues ok e e' → ok e' c →
      (∀ x, c.answer e' ≠ .error (.fault x)) → Continues ok e (c.after e')

theorem Reached.continues {ok : Engine → Call → Prop} (h : e.Reached ok) (run : Continues ok e e') :
    e'.Reached ok := by
  induction run with
  | refl => exact h
  | call c _ allowed ends ih => exact .call c ih allowed ends

abbrev Quietly (e : Engine) (c : Call) : Prop := (c.after e).Quiet

theorem Reached.quiet_of_quietly (h : e.Reached Quietly) : e.Quiet := by
  induction h with
  | start settings _ => rfl
  | call c _ quiet _ _ => exact quiet

theorem Reached.quietly (h : e.Reached Smoothly) : e.Reached Quietly := by
  induction h with
  | start settings hm => exact .start settings hm
  | call c reached allowed ends ih => exact .call c ih (reached.call c allowed ends).quiet ends

theorem Continues.quietly (run : Continues Smoothly e e') (h : e.Reached Smoothly) :
    Continues Quietly e e' := by
  induction run with
  | refl => exact .refl
  | call c run allowed ends ih => exact .call c ih ((h.continues run).call c allowed ends).quiet ends

theorem Continues.heeding (run : Continues Quietly e e') (reached : e.Reached Quietly)
    (h : e.Heeding ids) : e'.Heeding ids := by
  induction run with
  | refl => exact h
  | @call e' c run quiet ends ih =>
    have before : e'.Reached Quietly := reached.continues run
    have after : (c.after e').Reached Quietly := .call c before quiet ends
    exact ih.call (before.sound False.elim : e'.Sound False [] []) before.quiet_of_quietly c ends
      (after.sound False.elim)

theorem Reached.heeding (h : e.Reached Quietly) : e.Heeding ∅ := by
  induction h with
  | start settings _ => exact ⟨nofun, nofun, nofun⟩
  | @call e c before quiet ends ih =>
    have after : (c.after e).Reached Quietly := .call c before quiet ends
    exact ih.call (before.sound False.elim : e.Sound False [] []) before.quiet_of_quietly c ends
      (after.sound False.elim)

/-- Listeners hear a consistent history. Whoever is attached to a query that declares no kinds, and is
told at once of the matches there are, is told of every match that it comes and goes in turn, first that
it comes; and after every later request the query has the matches that the listener was told of last that
they came. Listeners may ask for writes, and requests may be refused or fail, but none may leave events
waiting that nobody has been told of. -/
theorem listener_chronicles (h : e.Reached Quietly) {name : String} {listener : Listener}
    {id : ListenerId} (joined : ((Session.subscribe name true listener).run.run e).1 = .ok id)
    (quiet : ((Call.subscribe name true listener).after e).Quiet)
    (untyped : ∀ q, e.catalog.queries[name]? = some q → q.Untyped)
    (run : Continues Quietly ((Call.subscribe name true listener).after e) e') :
    ∀ s ∈ e'.subscriptions, s.id = id → s.query.name = name ∧ ∃ q memory,
      e'.productions[name]? = some q ∧ e'.network.productionMemory? q = some memory ∧
        s.Chronicles memory := by
  have sound : e.Sound False [] [] := h.sound False.elim
  have ended := Session.run_map (Session.subscribe name true listener) (fun _ => ()) e
  rw [joined] at ended
  have answered : (Call.subscribe name true listener).answer e = .ok () := congrArg Prod.fst ended
  have after : ((Call.subscribe name true listener).after e).Reached Quietly :=
    .call _ h quiet fun x hx => by cases answered.symm.trans hx
  have mine : ∀ x ∈ ({(e.nextListener, name)} : Set (ListenerId × String)), x ∈ (∅ : Set _) ∨
      x = (e.nextListener, name) ∧ true = true ∧ ∀ q, e.catalog.queries[name]? = some q → q.Untyped :=
    fun x hx => .inr ⟨hx, rfl, untyped⟩
  obtain ⟨rfl, started⟩ := (Session.subscribe_heeding h.heeding sound h.quiet_of_quietly listener
    mine).of_ok joined
  have reached : (Call.subscribe name true listener).after e =
      ((Session.subscribe name true listener).run.run e).2 := congrArg Prod.snd ended
  rw [← reached] at started
  intro s hs hid
  obtain ⟨rfl, q, heeds⟩ := (run.heeding after started).heeds s hs name (congrArg (·, name) hid)
  have sound' : e'.Sound False [] [] := (after.continues run).sound False.elim
  obtain ⟨memory, held⟩ := sound'.exists_memory heeds.production
  refine ⟨rfl, q, memory, heeds.production, held, Subscription.chronicles_of_happens (q := q) ?_⟩
  have matched : {x ∈ e'.network.allMatched | x.1 = q} =
      {x : NodeId × Tuple | x.1 = q ∧ x.2 ∈ memory.toMultiset} := by
    refine Set.ext fun x => and_comm.trans (and_congr_right fun hx => ?_)
    show x.2 ∈ e'.network.matchedAt x.1 ↔ x.2 ∈ memory.toMultiset
    rw [hx, Network.matchedAt_of_productionMemory? held, Multiset.mem_toFinset]
  exact matched ▸ heeds.heard

section example_chronicles

def fickle : Listener := fun heard _ =>
  { writes := if heard.isEmpty then [.removeValue (.int 1) "edge" (.int 2)] else [] }

def linkedEngine : Engine := (Call.register Course.linked).after (start {} {})

def fickleEngine : Engine := (Call.update [.addValue (.int 1) "edge" (.int 2)]).after
  ((Call.subscribe "linked" true fickle).after linkedEngine)

theorem calm_fickle : ((Call.subscribe "linked" true fickle).after linkedEngine).catalog.Calm := by
  have listed : ((Call.subscribe "linked" true fickle).after linkedEngine).catalog.queries.toList =
      [("linked", Course.linked)] := by decide +kernel
  intro name q hq _
  have mem := Std.ExtTreeMap.mem_toList_iff_getElem?_eq_some.2 hq
  rw [listed] at mem
  cases List.mem_singleton.1 mem
  decide

theorem fickle_chronicles : ∀ s ∈ fickleEngine.subscriptions, s.id = 0 → s.query.name = "linked" ∧
    ∃ q memory, fickleEngine.productions["linked"]? = some q ∧
      fickleEngine.network.productionMemory? q = some memory ∧ s.Chronicles memory := by
  have registered : linkedEngine.Reached Smoothly :=
    (Reached.start {} (.start {})).next _ False.elim id
  have joined : ((Session.subscribe "linked" true fickle).run.run linkedEngine).1 = .ok 0 := by
    decide +kernel
  have answered : (Call.subscribe "linked" true fickle).answer linkedEngine = .ok () := by
    decide +kernel
  have started := registered.call (.subscribe "linked" true fickle) (fun _ => by rw [answered]; rfl)
    fun x hx => by cases answered.symm.trans hx
  have run : Continues Smoothly ((Call.subscribe "linked" true fickle).after linkedEngine)
      fickleEngine := .call _ .refl False.elim
    (Call.ne_fault (started.sound False.elim : Sound False _ [] []) _ False.elim
      (not_not_intro calm_fickle))
  refine listener_chronicles registered.quietly joined started.quiet (fun q hq => ?_)
    (run.quietly started)
  have linked : linkedEngine.catalog.queries["linked"]? = some Course.linked := by decide +kernel
  cases linked.symm.trans hq
  decide

example : (fickleEngine.subscriptions.map fun s => s.heard.reverse.map fun n =>
      (n.direction, n.found.tuple)) =
    [[(.insert, [.int 1, .int 2]), (.revoke, [.int 1, .int 2])]] := by
  cbv

end example_chronicles

end Engine
end Motif
