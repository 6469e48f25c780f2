import Motif.Engine.Update
import Motif.Proofs.Additions
import Motif.Proofs.Engine.Preparing

set_option autoImplicit false
namespace Motif

namespace Engine

variable {e e' : Engine}

structure Updates (e e' : Engine) : Prop where
  resting : e'.Resting
  settings : e'.settings = e.settings
  catalog : e'.catalog = e.catalog
  productions : e'.productions = e.productions
  searchPlans : e'.searchPlans = e.searchPlans

theorem Updates.ready (u : Updates e e') {name : String} {backend : Backend}
    (h : e.Ready name backend) : e'.Ready name backend :=
  ⟨fun hb => by rw [InNetwork, u.productions]; exact h.inNetwork hb, u.catalog ▸ h.checks⟩

/-- What came into the model is taken in by the network. -/
theorem Resting.propagate (h : e.Resting) {m : Model} {news : List Change}
    (a : e.model.Adds m news) :
    ∃ e', { e with model := m }.propagate = .ok e' ∧ e.Updates e' ∧ e'.model = m.drain.1 := by
  obtain ⟨out, hs⟩ := h.houses.sound.saturated
  have log : m.log = news := by rw [a.log, h.log, List.append_nil]
  have widths : ∀ c ∈ news.reverse, ∀ id, e.network.inputs[c.relation]? = some id →
      c.event.tuple.length = e.network.widthOf id := by
    intro c hc id hid
    rw [show e.network.widthOf id = _ from (h.houses.sound.given c.relation id hid).1]
    exact Model.length_of_mem_tuples ((a.tuples _ _).2 (.inr ⟨c, List.mem_reverse.1 hc, rfl, rfl⟩))
  obtain ⟨net, hnet, took⟩ := hs.insertAll (fun c hc => a.insert c (List.mem_reverse.1 hc)) widths
  obtain ⟨out', hs', -⟩ := took.saturated
  have inputs : net.inputs = e.network.inputs :=
    (congrArg Network.inputs took.bare : net.bare.inputs = e.network.bare.inputs)
  obtain ⟨e', ⟨history, he'⟩, hreport⟩ : ∃ e' : Engine, (∃ history, e' = { e with
        model := m.drain.1
        installed := { e.installed with network := { net with issues := [] } }
        history }) ∧
      (({ e with model := m.drain.1 } : Engine).setNetwork net).reportNetwork = e' := by
    obtain ⟨history, hr⟩ := exists_report
      (({ e with model := m.drain.1 } : Engine).setNetwork { net with issues := [] })
      net.issues.reverse
    exact ⟨_, ⟨history, rfl⟩, hr⟩
  have houses : e'.Houses [] [] := by
    rw [he']
    refine h.houses.grown rfl rfl rfl (.of_bare_eq took.bare) ⟨out', hs'.of_eq rfl rfl rfl⟩
      fun r id hid => ?_
    replace hid : e.network.inputs[r]? = some id := inputs ▸ hid
    obtain ⟨width, given⟩ := h.houses.sound.given r id hid
    refine ⟨(congrFun (Network.widthOf_of_bare_eq took.bare) id).trans width, fun t => ?_⟩
    rw [show e.site.graph.tuples r = _ from e.model.tuples_graph r] at given
    refine (took.given id t).trans (Iff.trans ?_ (a.tuples r t).symm)
    refine or_congr (given t) ⟨?_, ?_⟩
    · rintro ⟨c, hc, hin, rfl⟩
      exact ⟨c, List.mem_reverse.1 hc, hs.wired.eq_of_inputs hid hin, rfl⟩
    · rintro ⟨c, hc, rfl, rfl⟩
      exact ⟨c, List.mem_reverse.2 hc, hid, rfl⟩
  refine ⟨e', ?_, ?_, ?_⟩
  · rw [Engine.propagate, show m.drain = (m.drain.1, news.reverse) from by rw [Model.drain, log]]
    change (e.installed.network.updateAll news.reverse >>= fun net =>
      pure (({ e with model := m.drain.1 } : Engine).setNetwork net).reportNetwork) = .ok e'
    rw [hnet, ← hreport]
    rfl
  · subst he'
    exact ⟨⟨houses, h.valid, h.positive, fun r ps hp => by
      rw [show m.drain.1.schema = e.model.schema from a.schema]
      exact h.plans r ps hp, rfl, h.subscriptions, h.live⟩, rfl, rfl, rfl, rfl⟩
  · rw [he']

theorem deliverAll_of_subscriptions_nil (h : e.subscriptions = []) (events : List ProductionEvent) :
    e.deliverAll events = (e, []) := by
  have unheard : ∀ event, e.deliver event = (e, []) := by
    intro event
    rw [deliver]
    split
    · rfl
    · rw [listenersOf, h]
      rfl
  induction events with
  | nil => rfl
  | cons event rest ih =>
    have last : (runAll deliver e rest).1 = e := congrArg Prod.fst ih
    have writes : (runAll deliver e rest).2.flatten = [] := congrArg Prod.snd ih
    rw [deliverAll, runAll_cons, unheard]
    simp [last, writes]

theorem Resting.flushWithin (h : e.Resting) {m : Model} {news : List Change}
    (a : e.model.Adds m news) (rounds : Nat) :
    ∃ e', Engine.flushWithin rounds { e with model := m } = .ok e' ∧ e.Updates e' ∧
      e'.model = m.drain.1 := by
  obtain ⟨e', he', u, hm⟩ := h.propagate a
  have round : Engine.round { e with model := m } =
      .ok (e'.setNetwork { e'.network with events := [] }, []) := by
    rw [Engine.round, he']
    change Except.ok (e'.takeEvents.1.deliverAll e'.takeEvents.2) = _
    rw [deliverAll_of_subscriptions_nil (e := e'.takeEvents.1) u.resting.subscriptions]
    rfl
  refine ⟨e'.setNetwork { e'.network with events := [] }, ?_, ?_, hm⟩
  · cases rounds <;> rw [Engine.flushWithin, round] <;> rfl
  · have quiet : e'.Prepares (e'.setNetwork { e'.network with events := [] }) :=
      u.resting.same rfl rfl ⟨rfl, rfl, rfl, rfl, rfl, rfl⟩ rfl rfl rfl
    exact ⟨quiet.resting, u.settings, u.catalog, u.productions, u.searchPlans⟩

end Engine

namespace Session

open Engine

theorem update_leads {e : Engine} (h : e.Resting) {ws : List Write}
    (hw : ∀ w ∈ ws, w.isAddition = true) :
    (update ws).Leads e
      (fun _ e' => e.Updates e' ∧ e'.model = (e.model.writeAll ws).1.drain.1) (fun _ _ => False) := by
  obtain ⟨news, a⟩ := e.model.adds_writeAll hw
  obtain ⟨e', he', u, hm⟩ := h.flushWithin a e.settings.maxRounds
  have flushed : liftFault ({ e with model := (e.model.writeAll ws).1 } : Engine).flush = .ok e' := by
    rw [Engine.flush, he']
    rfl
  refine Leads.bind ?_
  rw [requireLive]
  refine leads_get ?_
  rw [h.live]
  refine leads_pure (leads_get (Leads.bind (leads_set (Leads.bind ?_))))
  refine leads_get (Leads.bind (leads_lift (fun e₂ he₂ => ?_) fun f hf => ?_))
  · cases flushed.symm.trans he₂
    exact leads_set (leads_pure ⟨u, hm⟩)
  · cases flushed.symm.trans hf

end Session
end Motif
