import Motif.Proofs.Search.Following
import Motif.Proofs.Search.Frames

set_option autoImplicit false
namespace Motif

namespace Search
variable {σ τ ε α β : Type} {R : σ → τ → Prop} {E : ε → Prop} {P : α → Prop} {Q : β → Prop}

structure Ended (R : σ → τ → Prop) (E : ε → Prop) (P : α → Prop) (p : Except ε α × σ)
    (q : Except ε α × τ) : Prop where
  same : p.1 = q.1
  states : R p.2 q.2
  ok : ∀ a, p.1 = .ok a → P a
  error : ∀ f, p.1 = .error f → E f

/-- From states that `R` relates either both searches end in the same way or neither ends. -/
def Parallel (R : σ → τ → Prop) (E : ε → Prop) (P : α → Prop) (x : Search σ ε α)
    (y : Search τ ε α) : Prop :=
  ∀ st st', R st st' → Option.Rel (Ended R E P) (x.run.run st) (y.run.run st')

theorem Ended.symm {p : Except ε α × σ} {q : Except ε α × τ} (h : Ended R E P p q) :
    Ended (fun st' st => R st st') E P q p :=
  ⟨h.same.symm, h.states, fun a ha => h.ok a (h.same.trans ha), fun f hf => h.error f (h.same.trans hf)⟩

theorem Parallel.symm {x : Search σ ε α} {y : Search τ ε α} (h : Parallel R E P x y) :
    Parallel (fun st' st => R st st') E P y x := by
  intro st' st hR
  have ends := h st st' hR
  generalize x.run.run st = r, y.run.run st' = r' at ends
  cases ends with
  | some ended => exact .some ended.symm
  | none => exact .none

theorem parallel_pure {a : α} (h : P a) :
    Parallel R E P (pure a : Search σ ε α) (pure a : Search τ ε α) :=
  fun _ _ hR => .some ⟨rfl, hR, fun _ h' => Except.ok.inj h' ▸ h, nofun⟩

theorem Parallel.bind {x : Search σ ε α} {y : Search τ ε α} {g : α → Search σ ε β}
    {k : α → Search τ ε β} (h : Parallel R E P x y) (hg : ∀ a, P a → Parallel R E Q (g a) (k a)) :
    Parallel R E Q (x >>= g) (y >>= k) := by
  intro st st' hR
  rw [ExceptT.run_bind, ExceptT.run_bind, StateT.run_bind, StateT.run_bind]
  have ends := h st st' hR
  generalize x.run.run st = r, y.run.run st' = r' at ends
  cases ends with
  | none => exact .none
  | @some p q ended =>
    obtain ⟨r, st₁⟩ := p
    obtain ⟨r', st₁'⟩ := q
    obtain rfl : r = r' := ended.same
    cases r with
    | error f => exact .some ⟨rfl, ended.states, nofun, fun f' hf => Except.error.inj hf ▸ ended.error f rfl⟩
    | ok a => exact hg a (ended.ok a rfl) st₁ st₁' ended.states

theorem parallel_mapM {l : List α} {g : α → Search σ ε β} {k : α → Search τ ε β}
    (h : ∀ a ∈ l, Parallel R E Q (g a) (k a)) :
    Parallel R E (fun bs => ∀ b ∈ bs, Q b) (l.mapM g) (l.mapM k) := by
  induction l with
  | nil => exact parallel_pure nofun
  | cons a rest ih =>
    rw [List.mapM_cons, List.mapM_cons]
    refine (h a List.mem_cons_self).bind fun b hb => ?_
    refine (ih fun a' ha' => h a' (List.mem_cons_of_mem a ha')).bind fun bs hbs => ?_
    exact parallel_pure (List.forall_mem_cons.2 ⟨hb, hbs⟩)

end Search

namespace Frame
variable {f g h : Frame} {i : Nat} {is js : List Nat} {v : Value}

theorem lt_of_value? (h : f.value? i = some v) : i < f.length := by
  obtain ⟨o, ho, -⟩ := Option.bind_eq_some_iff.1 h
  exact (List.getElem?_eq_some_iff.1 ho).1

structure Extends (f : Frame) (is : List Nat) (g : Frame) : Prop where
  length : g.length = f.length
  kept : ∀ i v, f.value? i = some v → g.value? i = some v
  binds : ∀ i ∈ is, i < f.length → (g.value? i).isSome = true

theorem Extends.refl (f : Frame) : f.Extends [] f := ⟨rfl, fun _ _ h => h, nofun⟩

theorem Extends.ite (hg : f.Extends is g) (bind : Bool) :
    f.Extends (if bind then is else []) g := by
  cases bind with
  | true => exact hg
  | false => exact ⟨hg.length, hg.kept, nofun⟩

theorem Extends.trans (hg : f.Extends is g) (hh : g.Extends js h) : f.Extends (is ++ js) h where
  length := hh.length.trans hg.length
  kept i v hv := hh.kept i v (hg.kept i v hv)
  binds i hi hf := by
    rcases List.mem_append.1 hi with hi | hi
    · obtain ⟨v, hv⟩ := Option.isSome_iff_exists.1 (hg.binds i hi hf)
      rw [hh.kept i v hv]
      rfl
    · exact hh.binds i hi (hg.length ▸ hf)

theorem extends_of_put? (h : f.put? i v = some g) : f.Extends [i] g := by
  obtain ⟨length, only, here, elsewhere⟩ := value?_of_put? h
  refine ⟨length, fun j old hold => ?_, fun j hj hf => ?_⟩
  · by_cases e : j = i
    · subst e
      obtain rfl := only old hold
      exact here (lt_of_value? hold)
    · exact (elsewhere j e).trans hold
  · obtain rfl := List.mem_singleton.1 hj
    rw [here hf]
    rfl

theorem extends_of_mem_filterMap {vs : List Value} (h : g ∈ vs.filterMap (f.put? i)) :
    f.Extends [i] g := by
  obtain ⟨v, -, hv⟩ := List.mem_filterMap.1 h
  exact extends_of_put? hv

theorem extends_of_mem_bind {o : Option Value} (h : g ∈ (o.bind (f.put? i)).toList) :
    f.Extends [i] g := by
  obtain ⟨v, -, hv⟩ := Option.bind_eq_some_iff.1 (Option.mem_toList.1 h)
  exact extends_of_put? hv

end Frame

namespace Searcher
variable {σ τ ε : Type} {s : Searcher σ ε} {s' : Searcher τ ε} {R : σ → τ → Prop} {E : ε → Prop}
  {known : Reference → Prop}

theorem extends_of_mem_keep {f g : Frame} {ok : Bool} (h : g ∈ keep f ok) : f.Extends [] g := by
  rw [keep] at h
  split at h
  · exact List.mem_singleton.1 h ▸ .refl f
  · cases h

/-- Both searchers read the same graph, and questions to what is known and reports run in parallel. -/
structure Parallel (s : Searcher σ ε) (s' : Searcher τ ε) (R : σ → τ → Prop) (E : ε → Prop)
    (known : Reference → Prop) : Prop where
  graph : s'.graph = s.graph
  ask : ∀ r b, known r → Search.Parallel R E (fun _ => True) (s.ask r b) (s'.ask r b)
  report : ∀ name t message, Search.Parallel R E (fun _ => True)
    (s.report (.evaluationFailed name t message)) (s'.report (.evaluationFailed name t message))

namespace Parallel

theorem symm (h : s.Parallel s' R E known) : s'.Parallel s (fun st' st => R st st') E known :=
  ⟨h.graph.symm, fun r b hr => (h.ask r b hr).symm, fun name t message => (h.report name t message).symm⟩

/-- If one search for a path ends, so does the other. -/
theorem linksFrom (h : s.Parallel s' R E known) {callee : Reference} (hc : known callee)
    (start goal : Value) {t : Trail} {nodes : List Value} {st : σ} {st' : τ} {p : Except ε Bool × σ}
    (hp : s.linksFrom callee start goal t nodes st = some p) (hR : R st st') :
    ∃ q, s'.linksFrom callee start goal t nodes st' = some q ∧
      Search.Ended R E (fun _ => True) p q := by
  refine linksFrom.partial_correctness s callee start goal
    (fun t nodes st p => ∀ st', R st st' → ∃ q,
      s'.linksFrom callee start goal t nodes st' = some q ∧ Search.Ended R E (fun _ => True) p q)
    ?_ t nodes st p hp st' hR
  intro links ih t nodes st p hp st' hR
  cases nodes with
  | nil =>
    rw [Searcher.linksFrom.eq_1]
    by_cases done : t.later.isEmpty
    · simp only [if_pos done] at hp ⊢
      cases hp
      exact ⟨_, rfl, rfl, hR, fun _ _ => trivial, fun _ hf => by cases hf⟩
    · simp only [if_neg done] at hp ⊢
      exact ih _ _ _ _ hp st' hR
  | cons node rest =>
    rw [Searcher.linksFrom.eq_2]
    have asked := h.ask callee [some node, none] hc st st' hR
    dsimp only at hp
    cases hrun : (s.ask callee [some node, none]).run.run st with
    | none =>
      rw [hrun] at hp
      cases hp
    | some answered =>
      rw [hrun] at asked hp
      generalize (s'.ask callee [some node, none]).run.run st' = answered' at asked
      obtain @⟨_, q, ended⟩ := asked
      obtain ⟨r, st₁⟩ := answered
      obtain ⟨r', st₁'⟩ := q
      obtain rfl : r = r' := ended.same
      cases r with
      | error f =>
        simp only [bind, Option.bind] at hp ⊢
        cases hp
        exact ⟨_, rfl, rfl, ended.states, fun _ _ => trivial,
          fun f' hf => Except.error.inj hf ▸ ended.error f rfl⟩
      | ok edges =>
        simp only [bind, Option.bind] at hp ⊢
        cases hf : edges.foldlM (Trail.follow? start goal node) t with
        | none =>
          rw [hf] at hp
          cases hp
          exact ⟨_, rfl, rfl, ended.states, fun _ _ => trivial, fun _ hf => by cases hf⟩
        | some t' =>
          rw [hf] at hp
          exact ih _ _ _ _ hp st₁' ended.states

variable (h : s.Parallel s' R E known)
include h

theorem call {callee : Reference} (hc : known callee) (c : CallFrame) (f : Frame) :
    Search.Parallel R E (fun _ => True) (s.call callee c f) (s'.call callee c f) :=
  (h.ask _ _ hc).bind fun _ _ => Search.parallel_pure trivial

theorem evaluate (e : Evaluator) (inputs : List Nat) (f : Frame) :
    Search.Parallel R E (fun _ => True) (s.evaluate e inputs f) (s'.evaluate e inputs f) := by
  simp only [Searcher.evaluate]
  split
  · exact Search.parallel_pure trivial
  · split
    · exact Search.parallel_pure trivial
    · exact (h.report _ _ _).bind fun _ _ => Search.parallel_pure trivial

theorem reachesFrom {callee : Reference} (hc : known callee) (start goal : Value) (t : Trail)
    (nodes : List Value) : Search.Parallel R E (fun _ => True)
      (s.reachesFrom callee start goal t nodes) (s'.reachesFrom callee start goal t nodes) := by
  intro st st' hR
  show Option.Rel _ (s.linksFrom callee start goal t nodes st)
    (s'.linksFrom callee start goal t nodes st')
  cases hs : s.linksFrom callee start goal t nodes st with
  | some p =>
    obtain ⟨q, hq, ended⟩ := h.linksFrom hc start goal hs hR
    rw [hq]
    exact .some ended
  | none =>
    cases hs' : s'.linksFrom callee start goal t nodes st' with
    | none => exact .none
    | some q =>
      obtain ⟨p, hp, -⟩ := h.symm.linksFrom hc start goal hs' hR
      cases hs.symm.trans hp

/-- All frames an operation goes on with extend the one it starts from by what it binds. -/
theorem frames (f : Frame) {op : Operation} (hop : ∀ r, op.callee? = some r → known r) :
    Search.Parallel R E (fun next => ∀ g ∈ next, f.Extends op.produced g) (s.frames f op)
      (s'.frames f op) := by
  cases op with
  | iterateInstances cls slot =>
    simp only [Searcher.frames, h.graph]
    exact Search.parallel_pure fun g => Frame.extends_of_mem_filterMap
  | checkInstance | checkUnequal | checkEqual | checkConstant =>
    simp only [Searcher.frames, h.graph]
    exact Search.parallel_pure fun g => extends_of_mem_keep
  | extendForward feature holder value | extendBackward feature holder value =>
    simp only [Searcher.frames, h.graph]
    split
    · exact Search.parallel_pure fun g hg => absurd hg List.not_mem_nil
    · exact Search.parallel_pure fun g => Frame.extends_of_mem_filterMap
  | iterateFeature cls feature holder value =>
    simp only [Searcher.frames, h.graph]
    refine Search.parallel_pure fun g hg => ?_
    obtain ⟨v, -, hg⟩ := List.mem_flatMap.1 hg
    obtain ⟨w, -, hg⟩ := List.mem_filterMap.1 hg
    obtain ⟨f₁, h₁, hg⟩ := Option.bind_eq_some_iff.1 hg
    exact (Frame.extends_of_put? h₁).trans (Frame.extends_of_put? hg)
  | checkFeature feature holder value =>
    simp only [Searcher.frames, h.graph]
    split
    · exact Search.parallel_pure fun g => extends_of_mem_keep
    · exact Search.parallel_pure fun g hg => absurd hg List.not_mem_nil
  | extendEqual source target => exact Search.parallel_pure fun g => Frame.extends_of_mem_bind
  | extendConstant slot v =>
    exact Search.parallel_pure fun g hg => Frame.extends_of_put? (Option.mem_toList.1 hg)
  | checkCall callee c | checkNoCall callee c =>
    exact (h.call (hop callee rfl) c f).bind fun _ _ => Search.parallel_pure fun g =>
      extends_of_mem_keep
  | count callee c result _ =>
    exact (h.call (hop callee rfl) c f).bind fun _ _ => Search.parallel_pure fun g hg =>
      (Frame.extends_of_put? (Option.mem_toList.1 hg)).ite _
  | aggregate callee c operator aggregated result _ =>
    exact (h.call (hop callee rfl) c f).bind fun _ _ => Search.parallel_pure fun g hg =>
      (Frame.extends_of_mem_bind hg).ite _
  | check e inputs =>
    exact (h.evaluate e inputs f).bind fun _ _ => Search.parallel_pure fun g => extends_of_mem_keep
  | eval e inputs output _ =>
    exact (h.evaluate e inputs f).bind fun _ _ => Search.parallel_pure fun g hg =>
      (Frame.extends_of_mem_bind hg).ite _
  | checkClosure callee source target =>
    simp only [Searcher.frames]
    split
    · exact (h.reachesFrom (hop callee rfl) _ _ _ _).bind fun _ _ => Search.parallel_pure fun g =>
        extends_of_mem_keep
    · exact Search.parallel_pure fun g hg => absurd hg List.not_mem_nil

theorem run (parameters : List Nat) {ops : List Operation}
    (hops : ∀ op ∈ ops, ∀ r, op.callee? = some r → known r) (f : Frame) :
    Search.Parallel R E (fun _ => True) (s.run parameters ops f) (s'.run parameters ops f) := by
  induction ops generalizing f with
  | nil => exact Search.parallel_pure trivial
  | cons op rest ih =>
    simp only [Searcher.run]
    refine (h.frames f (hops op List.mem_cons_self)).bind fun next _ => ?_
    exact (Search.parallel_mapM fun g _ =>
      ih (fun op' hop => hops op' (List.mem_cons_of_mem op hop)) g).bind
      fun _ _ => Search.parallel_pure trivial

theorem execute {p : SearchPlan} (hp : ∀ op ∈ p.operations, ∀ r, op.callee? = some r → known r)
    (b : Binding) : Search.Parallel R E (fun _ => True) (s.execute p b) (s'.execute p b) := by
  simp only [Searcher.execute]
  split
  · exact Search.parallel_pure trivial
  · exact (h.run _ hp _).bind fun _ _ => Search.parallel_pure trivial

end Parallel

end Searcher
end Motif
