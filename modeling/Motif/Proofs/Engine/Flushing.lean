import Motif.Engine.Update
import Motif.Proofs.Engine.Sound

set_option autoImplicit false
namespace Motif

def Concludes {α : Type} (endless : Prop) (r : Except Fault α) (P : α → Prop) : Prop :=
  (∃ a, r = .ok a ∧ P a) ∨ r = .error .unsettled ∧ endless

namespace Concludes
variable {α β : Type} {endless : Prop} {r : Except Fault α} {P : α → Prop} {Q : β → Prop}

theorem ok {a : α} (h : P a) : Concludes endless (.ok a) P := .inl ⟨a, rfl, h⟩

theorem bind {g : α → Except Fault β} (h : Concludes endless r P)
    (hg : ∀ a, P a → Concludes endless (g a) Q) : Concludes endless (r >>= g) Q := by
  obtain ⟨a, rfl, ha⟩ | ⟨rfl, he⟩ := h
  · exact hg a ha
  · exact .inr ⟨rfl, he⟩

end Concludes

theorem Arrives.concludes {α : Type} {r : Except Fault α} {P : α → Prop} (h : Arrives r P)
    {ends : Prop} (ok : ends → ∃ a, r = .ok a) : Concludes (¬ends) r P := by
  refine h.imp_right fun he => ⟨he, fun hends => ?_⟩
  obtain ⟨a, ha⟩ := ok hends
  cases he.symm.trans ha

theorem Match.not_isRelational {q : Query} {t : Tuple} {i : Issue} (h : ofTuple q t = .error i) :
    ¬i.IsRelational := by
  rw [ofTuple] at h
  split at h <;> cases h
  exact id

theorem Match.query_eq {q : Query} {t : Tuple} {m : Match} (h : ofTuple q t = .ok m) :
    m.query = q := by
  rw [ofTuple] at h
  split at h <;> cases h
  rfl

namespace Engine

/-- Engines in which a round starts when `e` is flushed, if not for the limit of rounds. -/
inductive Rounds (e : Engine) : Engine → Prop
  | first : Rounds e e
  | next {e₁ e₂ : Engine} {queued : List Write} : Rounds e e₁ → e₁.round = .ok (e₂, queued) →
      Rounds e (e₂.runQueued queued)

def Written (faithful : Prop) (e : Engine) : Prop :=
  ∃ m news, Sound faithful { e with model := m } [] [] ∧ Model.Logs m e.model news ∧ e.model.Reached

variable {faithful : Prop} {e : Engine}

theorem Sound.written (h : e.Sound faithful [] []) (ws : List Write) :
    Written faithful { e with model := (e.model.writeAll ws).1 } := by
  obtain ⟨news, logs⟩ := e.model.logs_writeAll ws
  exact ⟨e.model, news, h, logs, h.reached.writeAll ws⟩

@[simp] theorem catalog_report {issues : List Issue} : (e.report issues).catalog = e.catalog := by
  rw [report]
  split <;> rfl

theorem catalog_deliver {event : ProductionEvent} : (e.deliver event).1.catalog = e.catalog := by
  rw [deliver]
  split
  · rfl
  · split
    · rfl
    · split
      · exact catalog_report
      · rfl

namespace Sound

theorem tellAll (h : e.Sound faithful [] []) (n : Notice) : (e.tellAll n).1.Sound faithful [] [] := by
  refine h.attended _ _ fun i hi => ?_
  rcases List.mem_append.1 hi with hi | hi
  · rcases List.mem_append.1 (List.mem_reverse.1 hi) with hi | hi
    all_goals
      obtain ⟨_, -, e⟩ := List.mem_map.1 hi
      cases e
  · exact h.history i hi

theorem deliver (h : e.Sound faithful [] []) (event : ProductionEvent) :
    (e.deliver event).1.Sound faithful [] [] := by
  rw [Engine.deliver]
  split
  · exact h
  · split
    · exact h
    · split
      · rename_i issue hissue
        exact h.report fun i hi => List.mem_singleton.1 hi ▸ Match.not_isRelational hissue
      · exact h.tellAll _

end Sound

namespace Written

/-- What was written is taken in, and nothing of it is refused. -/
theorem updateAll (h : e.Written faithful) :
    Concludes (¬e.catalog.Calm) (e.network.updateAll e.model.drain.2) fun net =>
      Network.Took e.network net ∧ net.Mirrors e.model.schema e.model.held ∧
        (faithful → net.Rests) := by
  obtain ⟨m, news, sound, logs, -⟩ := h
  have log : e.model.drain.2 = news := by
    rw [Model.drain, logs.log, show m.log = [] from sound.log, List.append_nil, List.reverse_reverse]
  obtain ⟨arrives, ended⟩ := sound.regular.updateAll_mirrors sound.mirrors logs.leads
  rw [log, logs.schema]
  have rests : Arrives (e.network.updateAll news) fun net =>
      Network.Took e.network net ∧ net.Mirrors m.schema e.model.held ∧ (faithful → net.Rests) :=
    arrives.imp_left fun ⟨net, hrun, took, mirrors⟩ => ⟨net, hrun, took, mirrors, fun hf =>
      sound.regular.updateAll_rests sound.mirrors logs.leads (sound.rests hf) hrun⟩
  exact rests.concludes fun calm => ended fun c hc id hid => sound.ends calm
    (sound.mirrors c.relation id hid).1.widthOf.1

theorem propagate (h : e.Written faithful) :
    Concludes (¬e.catalog.Calm) e.propagate fun e' =>
      e'.Sound faithful [] [] ∧ e'.catalog = e.catalog := by
  refine h.updateAll.bind fun net ⟨took, mirrors, rests⟩ => .ok ?_
  obtain ⟨m, news, sound, logs, reached⟩ := h
  refine ⟨(sound.takes reached.drain rfl logs.schema took.regular took.bare mirrors ?_
    rests).reportNetwork, catalog_report⟩
  obtain ⟨l, e, hl⟩ := took.issues
  rw [e]
  exact fun i hi => (List.mem_append.1 hi).elim (hl i) (sound.issues i)

theorem round (h : e.Written faithful) :
    Concludes (¬e.catalog.Calm) e.round fun p =>
      p.1.Sound faithful [] [] ∧ p.1.catalog = e.catalog := by
  refine h.propagate.bind fun e' ⟨sound, catalog⟩ => .ok ?_
  refine runAll_keeps (I := fun e' : Engine => e'.Sound faithful [] [] ∧ e'.catalog = e.catalog)
    (fun e' event ⟨sound, catalog⟩ => ⟨sound.deliver event, catalog_deliver.trans catalog⟩)
    ⟨sound.takeEvents, catalog⟩ _

theorem runQueued (h : e.Sound faithful [] []) (queued : List Write) :
    Written faithful (e.runQueued queued) :=
  Sound.written (e := e.record [.wrote queued])
    (h.record fun _ hi => nomatch List.mem_singleton.1 hi) queued

theorem of_rounds {e₁ : Engine} (h : e.Written faithful) (r : e.Rounds e₁) : e₁.Written faithful := by
  induction r with
  | first => exact h
  | next _ hround ih =>
    obtain ⟨p, hp, sound, -⟩ | ⟨hf, -⟩ := ih.round
    · cases hround.symm.trans hp
      exact runQueued sound _
    · cases hround.symm.trans hf

theorem flushWithin (h : e.Written faithful) (rounds : Nat) :
    Concludes (¬e.catalog.Calm) (e.flushWithin rounds) fun e' =>
      e'.Sound faithful [] [] ∧ e'.catalog = e.catalog := by
  induction rounds generalizing e with
  | zero =>
    rw [Engine.flushWithin]
    refine h.round.bind fun (e', queued) ⟨sound, catalog⟩ => ?_
    dsimp only
    split
    · exact .ok ⟨sound, catalog⟩
    · exact .ok ⟨sound.record fun _ hi => (nomatch List.mem_singleton.1 hi), catalog⟩
  | succ rounds ih =>
    rw [Engine.flushWithin]
    refine h.round.bind fun (e', queued) ⟨sound, catalog⟩ => ?_
    dsimp only
    split
    · exact .ok ⟨sound, catalog⟩
    · have next := ih (runQueued sound queued)
      rwa [show (e'.runQueued queued).catalog = e.catalog from catalog] at next

theorem flush (h : e.Written faithful) :
    Concludes (¬e.catalog.Calm) e.flush fun e' =>
      e'.Sound faithful [] [] ∧ e'.catalog = e.catalog :=
  h.flushWithin _

end Written
end Engine
end Motif
