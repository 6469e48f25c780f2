import Motif.Proofs.Network.Delta
import Motif.Proofs.Receive

/-!
An expression takes back what it put out, whatever its evaluator answers. The evaluator may fail, or
answer one question differently each time; it is asked about a tuple when the tuple comes to be held,
and what is put out for the tuple after that is what the cache says.
-/
set_option autoImplicit false
namespace Motif

open Std (ExtTreeMap)

/-- An evaluator whose answer may depend on all it was asked before, the latest first. -/
abbrev Oracle := List (List Value) → List Value → Except String Value

def Oracle.ask (o : Oracle) (inputs : List Value) :
    StateM (List (List Value)) (Except String Value) :=
  fun asked => (o asked inputs, inputs :: asked)

namespace Event

theorem balance_append (es es' : List Event) (t : Tuple) :
    balance (es ++ es') t = balance es t + balance es' t := by
  simp only [balance, List.count_append]
  omega

theorem balance_map_insert (l : List Tuple) (t : Tuple) :
    balance (l.map (Event.mk .insert)) t = l.count t := by
  have inj : Function.Injective (Event.mk .insert) := fun _ _ h => (Event.mk.inj h).2
  have none : List.count (Event.mk .revoke t) (l.map (Event.mk .insert)) = 0 :=
    List.count_eq_zero.2 (by simp)
  rw [balance, none, List.count_map_of_injective _ _ inj]
  simp

theorem balance_map_revoke (l : List Tuple) (t : Tuple) :
    balance (l.map (Event.mk .revoke)) t = -l.count t := by
  have inj : Function.Injective (Event.mk .revoke) := fun _ _ h => (Event.mk.inj h).2
  have none : List.count (Event.mk .insert t) (l.map (Event.mk .revoke)) = 0 :=
    List.count_eq_zero.2 (by simp)
  rw [balance, none, List.count_map_of_injective _ _ inj]
  simp

end Event

namespace Expression
variable {x : Expression} {t : Tuple} {held : Multiset Tuple}

def said (x : Expression) (t : Tuple) : Option Tuple := x.cache[t]?.bind Prod.fst

def Keeps (x : Expression) (held : Multiset Tuple) : Prop := Caches x.cache x.said held

theorem Caches.said_eq {said : Tuple → Option Tuple} (h : Caches x.cache said held) (ht : t ∈ held) :
    x.said t = said t := by
  rw [Expression.said, h t, if_pos ht]
  rfl

theorem Caches.keeps {said : Tuple → Option Tuple} (h : Caches x.cache said held) :
    x.Keeps held := by
  intro t
  rw [h t]
  split
  · rw [h.said_eq ‹_›]
  · rfl

theorem Keeps.caches_first (h : x.Keeps held) (ht : t ∉ held) (y : Option Tuple) :
    Caches (x.cache.insert t (y, 1)) (Function.update x.said t y) (t ::ₘ held) := by
  have updated : Caches x.cache (Function.update x.said t y) held := by
    intro u
    rw [h u]
    by_cases hu : u ∈ held
    · have ne : u ≠ t := fun e => ht (e ▸ hu)
      rw [Function.update_of_ne ne]
    · rw [if_neg hu, if_neg hu]
  have counted := caches_insert (t := t) updated
  rwa [Function.update_self, Multiset.count_eq_zero_of_notMem ht] at counted

theorem Keeps.caches_again (h : x.Keeps held) (d : Direction) (t : Tuple) :
    Caches (x.recounted d t (x.said t) (held.count t)) x.said (Event.apply ⟨d, t⟩ held) := by
  cases d with
  | insert => exact caches_insert h
  | revoke => exact caches_revoke h

end Expression

theorem count_filterMap_cons (f : Tuple → Option Tuple) (t u : Tuple) (m : Multiset Tuple) :
    ((t ::ₘ m).filterMap f).count u = (f t).toList.count u + (m.filterMap f).count u := by
  cases h : f t with
  | none => rw [Multiset.filterMap_cons_none _ _ h, Option.toList_none, List.count_nil, zero_add]
  | some y =>
    rw [Multiset.filterMap_cons_some _ _ _ h, Multiset.count_cons, Option.toList_some,
      List.count_singleton, add_comm]
    simp only [beq_iff_eq, @eq_comm _ u y]

structure Work where
  node : Expression
  asked : List (List Value) := []

structure Turn where
  before : Work
  event : Event
  out : List Event
  issue : Option Issue
  after : Work

namespace Work

def receive (o : Oracle) (w : Work) (e : Event) : Except Fault Turn :=
  match w.node.receive o.ask e w.asked with
  | (.ok (x, out, issue), asked) => .ok ⟨w, e, out, issue, ⟨x, asked⟩⟩
  | (.error fault, _) => .error fault

def receiveAll (o : Oracle) : Work → List Event → Except Fault (List Turn)
  | _, [] => .ok []
  | w, e :: rest => do
    let turn ← w.receive o e
    return turn :: (← receiveAll o turn.after rest)

end Work

namespace Turn

structure Proper (o : Oracle) (held : Multiset Tuple) (t : Turn) : Prop where
  same : ∃ cache, t.after.node = { t.before.node with cache := cache }
  asked : t.after.asked =
    (if t.event.direction = .insert ∧ t.event.tuple ∉ held then
      [t.before.node.arguments t.event.tuple] else []) ++ t.before.asked
  first : t.event.direction = .insert → t.event.tuple ∉ held → ∃ y,
    t.before.node.verdict t.event.tuple
      (o t.before.asked (t.before.node.arguments t.event.tuple)) = (y, t.issue) ∧
    t.out = y.toList.map (Event.mk .insert)
  quiet : t.event.tuple ∈ held → t.issue = none
  missing : t.event.direction = .revoke → t.event.tuple ∉ held →
    t.out = [] ∧ t.after = t.before ∧ t.issue = some
      (.missingTuple ("expression " ++ t.before.node.evaluator.name) t.event.tuple)
  replies : (∀ inputs, o t.before.asked inputs = t.before.node.evaluator.evaluate inputs) →
    (Node.expression t.before.node).receive t.event =
      .ok { node := .expression t.after.node, out := t.out, issue := t.issue }

structure Settles (o : Oracle) (held : Multiset Tuple) (t : Turn) : Prop
    extends t.Proper o held where
  keeps : t.after.node.Keeps (t.event.apply held)
  emits_before : t.event.tuple ∈ held →
    t.out = (t.before.node.said t.event.tuple).toList.map (Event.mk t.event.direction)
  emits_after : t.event.tuple ∈ t.event.apply held →
    t.out = (t.after.node.said t.event.tuple).toList.map (Event.mk t.event.direction)
  steady : ∀ u ∈ held, u ∈ t.event.apply held → t.after.node.said u = t.before.node.said u

variable {o : Oracle} {held : Multiset Tuple} {t : Turn}

/-- What is put out is what is then to be pulled, less what was to be pulled before. -/
theorem Settles.balance (h : t.Settles o held) (u : Tuple) :
    ((t.event.apply held).filterMap t.after.node.said).count u =
      ((held.filterMap t.before.node.said).count u : Int) + Event.balance t.out u := by
  cases hd : t.event.direction with
  | insert =>
    have apply : t.event.apply held = t.event.tuple ::ₘ held := by rw [Event.apply, hd]
    have out := h.emits_after (apply ▸ Multiset.mem_cons_self _ _)
    have rest : held.filterMap t.after.node.said = held.filterMap t.before.node.said :=
      filterMap_congr fun v hv => h.steady v hv (apply ▸ Multiset.mem_cons_of_mem hv)
    rw [apply, count_filterMap_cons, rest, out, hd, Event.balance_map_insert]
    omega
  | revoke =>
    have apply : t.event.apply held = held.erase t.event.tuple := by rw [Event.apply, hd]
    by_cases hm : t.event.tuple ∈ held
    · have out := h.emits_before hm
      have rest : (held.erase t.event.tuple).filterMap t.after.node.said =
          (held.erase t.event.tuple).filterMap t.before.node.said :=
        filterMap_congr fun v hv => h.steady v (Multiset.mem_of_mem_erase hv) (apply ▸ hv)
      have split := count_filterMap_cons t.before.node.said t.event.tuple u
        (held.erase t.event.tuple)
      rw [Multiset.cons_erase hm] at split
      rw [apply, rest, split, out, hd, Event.balance_map_revoke]
      omega
    · obtain ⟨out, after, -⟩ := h.missing hd hm
      rw [apply, Multiset.erase_of_notMem hm, out, after]
      simp [Event.balance]

end Turn

namespace Work
variable {o : Oracle} {w : Work} {held : Multiset Tuple} {t : Tuple}

theorem receive_of_mem {e : Event} (hk : w.node.Keeps held) (h : e.tuple ∈ held) :
    ∃ turn, w.receive o e = .ok turn ∧ turn.before = w ∧ turn.event = e ∧ turn.Settles o held := by
  obtain ⟨d, t⟩ := e
  have found := hk t
  rw [if_pos h] at found
  have caches := hk.caches_again d t
  have said : ∀ u ∈ Event.apply ⟨d, t⟩ held,
      ({ w.node with cache := w.node.recounted d t (w.node.said t) (held.count t) } :
        Expression).said u = w.node.said u := fun u hu => Expression.Caches.said_eq caches hu
  have ran : w.receive o ⟨d, t⟩ = .ok ⟨w, ⟨d, t⟩, (w.node.said t).toList.map (Event.mk d), none,
      ⟨{ w.node with cache := w.node.recounted d t (w.node.said t) (held.count t) },
        w.asked⟩⟩ := by
    rw [receive, Expression.receive_again _ _ found]
    rfl
  refine ⟨_, ran, rfl, rfl, ?_⟩
  exact {
    same := ⟨_, rfl⟩
    asked := by simp [h]
    first := fun _ hn => absurd h hn
    quiet := fun _ => rfl
    missing := fun _ hn => absurd h hn
    replies := fun _ => by
      rw [Node.receive, Expression.receive_again _ _ found]
      rfl
    keeps := Expression.Caches.keeps caches
    emits_before := fun _ => rfl
    emits_after := fun hm => by rw [said _ hm]
    steady := fun u _ hu => said u hu }

theorem receive_of_notMem (hk : w.node.Keeps held) (h : t ∉ held)
    (wide : ∀ i ∈ w.node.inputs, i < t.length) :
    ∃ turn, w.receive o ⟨.insert, t⟩ = .ok turn ∧ turn.before = w ∧
      turn.event = ⟨.insert, t⟩ ∧ turn.Settles o held := by
  have found := hk t
  rw [if_neg h] at found
  obtain ⟨y, issue, hv⟩ : ∃ y issue,
      w.node.verdict t (o w.asked (w.node.arguments t)) = (y, issue) := ⟨_, _, rfl⟩
  have caches := hk.caches_first h y
  have said : ∀ u ∈ t ::ₘ held, ({ w.node with cache := w.node.cache.insert t (y, 1) } :
      Expression).said u = Function.update w.node.said t y u :=
    fun u hu => Expression.Caches.said_eq caches hu
  have ran : w.receive o ⟨.insert, t⟩ = .ok ⟨w, ⟨.insert, t⟩,
      y.toList.map (Event.mk .insert), issue,
      ⟨{ w.node with cache := w.node.cache.insert t (y, 1) }, w.node.arguments t :: w.asked⟩⟩ := by
    rw [receive, Expression.receive_first _ found wide]
    simp only [bind, ExceptT.mk, StateT.bind, Oracle.ask, hv]
    rfl
  refine ⟨_, ran, rfl, rfl, ?_⟩
  exact {
    same := ⟨_, rfl⟩
    asked := by simp [h]
    first := fun _ _ => ⟨y, hv, rfl⟩
    quiet := fun hm => absurd hm h
    missing := fun hd => by cases hd
    replies := fun ho => by
      rw [Node.receive, Expression.receive_first _ found wide]
      dsimp only at ho ⊢
      rw [← ho]
      simp only [bind, ExceptT.mk, Except.bind, pure, hv]
      rfl
    keeps := Expression.Caches.keeps caches
    emits_before := fun hm => absurd hm h
    emits_after := fun hm => by rw [said _ hm, Function.update_self]
    steady := fun u hu hu' => by
      have ne : u ≠ t := fun e => h (e ▸ hu)
      rw [said u hu', Function.update_of_ne ne] }

theorem receive_missing (hk : w.node.Keeps held) (h : t ∉ held) :
    ∃ turn, w.receive o ⟨.revoke, t⟩ = .ok turn ∧ turn.before = w ∧
      turn.event = ⟨.revoke, t⟩ ∧ turn.Settles o held := by
  have found := hk t
  rw [if_neg h] at found
  have same : held.erase t = held := Multiset.erase_of_notMem h
  have ran : w.receive o ⟨.revoke, t⟩ = .ok ⟨w, ⟨.revoke, t⟩, [],
      some (.missingTuple ("expression " ++ w.node.evaluator.name) t), w⟩ := by
    rw [receive, Expression.receive_missing _ found]
    rfl
  refine ⟨_, ran, rfl, rfl, ?_⟩
  exact {
    same := ⟨_, rfl⟩
    asked := by simp
    first := fun hd => by cases hd
    quiet := fun hm => absurd hm h
    missing := fun _ _ => ⟨rfl, rfl, rfl⟩
    replies := fun _ => by
      rw [Node.receive, Expression.receive_missing _ found]
      rfl
    keeps := by rwa [Event.apply_revoke, same]
    emits_before := fun hm => absurd hm h
    emits_after := fun hm => by
      rw [Event.apply_revoke, same] at hm
      exact absurd hm h
    steady := fun _ _ _ => rfl }

def afterAll (w : Work) (turns : List Turn) : Work := turns.foldl (fun _ t => t.after) w

def Course (o : Oracle) : Work → Multiset Tuple → List Turn → Prop
  | _, _, [] => True
  | w, held, t :: rest => t.before = w ∧ w.receive o t.event = .ok t ∧ t.Settles o held ∧
      Course o t.after (t.event.apply held) rest

theorem exists_turn {e : Event} (hk : w.node.Keeps held)
    (wide : e.direction = .insert → ∀ i ∈ w.node.inputs, i < e.tuple.length) :
    ∃ turn, w.receive o e = .ok turn ∧ turn.before = w ∧ turn.event = e ∧ turn.Settles o held := by
  by_cases h : e.tuple ∈ held
  · exact receive_of_mem hk h
  · obtain ⟨d, t⟩ := e
    cases d with
    | insert => exact receive_of_notMem hk h (wide rfl)
    | revoke => exact receive_missing hk h

theorem exists_course {events : List Event} (hk : w.node.Keeps held)
    (wide : ∀ e ∈ events, e.direction = .insert → ∀ i ∈ w.node.inputs, i < e.tuple.length) :
    ∃ turns, receiveAll o w events = .ok turns ∧ turns.map Turn.event = events ∧
      Course o w held turns := by
  induction events generalizing w held with
  | nil => exact ⟨[], rfl, rfl, trivial⟩
  | cons e rest ih =>
    obtain ⟨turn, ran, rfl, rfl, settles⟩ := exists_turn (o := o) hk (wide e (by simp))
    obtain ⟨cache, same⟩ := settles.same
    have inputs : turn.after.node.inputs = turn.before.node.inputs := by rw [same]
    obtain ⟨turns, all, events, course⟩ := ih settles.keeps fun e' he' => by
      rw [inputs]
      exact wide e' (by simp [he'])
    refine ⟨turn :: turns, ?_, by rw [List.map_cons, events], rfl, ran, settles, course⟩
    rw [receiveAll, ran]
    simp only [bind, Except.bind, all]
    rfl

end Work

def Turn.heldAfter (held : Multiset Tuple) (turns : List Turn) : Multiset Tuple :=
  turns.foldl (fun held t => t.event.apply held) held

namespace Work
variable {o : Oracle} {w : Work} {held : Multiset Tuple}

theorem course_append {past later : List Turn} (h : Course o w held (past ++ later)) :
    Course o w held past ∧ Course o (w.afterAll past) (Turn.heldAfter held past) later := by
  induction past generalizing w held with
  | nil => exact ⟨trivial, h⟩
  | cons t rest ih =>
    obtain ⟨before, ran, settles, course⟩ := h
    obtain ⟨first, second⟩ := ih course
    exact ⟨⟨before, ran, settles, first⟩, second⟩

theorem Course.keeps {turns : List Turn} (h : Course o w held turns) (hk : w.node.Keeps held) :
    (w.afterAll turns).node.Keeps (Turn.heldAfter held turns) := by
  induction turns generalizing w held with
  | nil => exact hk
  | cons t rest ih => exact ih h.2.2.2 h.2.2.1.keeps

theorem Course.balance {turns : List Turn} (h : Course o w held turns) (u : Tuple) :
    ((Turn.heldAfter held turns).filterMap (w.afterAll turns).node.said).count u =
      ((held.filterMap w.node.said).count u : Int) + Event.balance (turns.flatMap Turn.out) u := by
  induction turns generalizing w held with
  | nil => simp [Turn.heldAfter, afterAll, Event.balance]
  | cons t rest ih =>
    obtain ⟨rfl, -, settles, course⟩ := h
    rw [List.flatMap_cons, Event.balance_append, ← add_assoc, ← settles.balance]
    exact ih course

theorem Course.said_eq {turns : List Turn} {t : Tuple} (h : Course o w held turns)
    (hm : ∀ early, early <+: turns → t ∈ Turn.heldAfter held early) :
    (w.afterAll turns).node.said t = w.node.said t := by
  induction turns generalizing w held with
  | nil => rfl
  | cons turn rest ih =>
    obtain ⟨rfl, -, settles, course⟩ := h
    have here : t ∈ held := hm [] List.nil_prefix
    have next : t ∈ turn.event.apply held := hm [turn] (by simp)
    exact (ih course fun early he => hm (turn :: early) (List.cons_prefix_cons.2 ⟨rfl, he⟩)).trans
      (settles.steady t here next)

/-- The first and the last of the turns between which a tuple is held put out the same for it. -/
theorem Course.same_out {t u : Turn} {between later : List Turn}
    (h : Course o w held (t :: (between ++ u :: later))) (he : u.event.tuple = t.event.tuple)
    (hm : ∀ early, early <+: between → t.event.tuple ∈ Turn.heldAfter held (t :: early)) :
    ∃ y : Option Tuple, t.out = y.toList.map (Event.mk t.event.direction) ∧
      u.out = y.toList.map (Event.mk u.event.direction) := by
  obtain ⟨rfl, -, settles, course⟩ := h
  obtain ⟨meantime, last⟩ := course_append course
  obtain ⟨before, -, settles', -⟩ := last
  have held_before : u.event.tuple ∈ Turn.heldAfter (t.event.apply held) between :=
    he ▸ hm between (List.prefix_refl _)
  refine ⟨_, settles.emits_after (hm [] List.nil_prefix), ?_⟩
  rw [settles'.emits_before held_before, before, he, meantime.said_eq hm]

end Work

theorem pull_expression {net : Network} {id : NodeId} {v : Vertex} {x : Expression}
    {held : Multiset Tuple} (hv : net.vertices[id]? = some v) (hx : v.node = .expression x)
    (hk : x.Keeps held) :
    ∃ rows, net.pull id = .ok rows ∧ (↑rows : Multiset Tuple) = held.filterMap x.said := by
  obtain ⟨depth, hd⟩ := Network.exists_depth hv
  refine ⟨_, ?_, coe_cache hk⟩
  rw [Network.pull, hd, Network.pullWithin, Network.vertex, hv]
  simp only [bind, Except.bind, hx]
  rfl

namespace Turn

/-- The turns follow one another from the start, and each is proper; as long as a tuple is held, the
same is put out for it; and what was put out so far is what is pulled. -/
structure Faithful (o : Oracle) (start : Work) (turns : List Turn) : Prop where
  follows : ∀ past t later, turns = past ++ t :: later → t.before = start.afterAll past
  proper : ∀ past t later, turns = past ++ t :: later → t.Proper o (heldAfter 0 past)
  steady : ∀ past t between u later, turns = past ++ t :: (between ++ u :: later) →
    u.event.tuple = t.event.tuple →
    (∀ early, early <+: between → t.event.tuple ∈ heldAfter 0 (past ++ t :: early)) →
    ∃ y : Option Tuple, t.out = y.toList.map (Event.mk t.event.direction) ∧
      u.out = y.toList.map (Event.mk u.event.direction)
  pulled : ∀ past t later, turns = past ++ t :: later →
    ∀ (net : Network) (id : NodeId) (v : Vertex), net.vertices[id]? = some v →
    v.node = .expression t.after.node → ∃ rows, net.pull id = .ok rows ∧
      ∀ u, Event.balance ((past ++ [t]).flatMap Turn.out) u = (↑rows : Multiset Tuple).count u

theorem heldAfter_append (held : Multiset Tuple) (past later : List Turn) :
    heldAfter held (past ++ later) = heldAfter (heldAfter held past) later :=
  List.foldl_append ..

end Turn

/-- An expression takes back exactly what it put out, whatever comes and whatever its evaluator
answers. -/
theorem Work.receiveAll_faithful (o : Oracle) {x : Expression} {events : List Event}
    (empty : x.cache = ∅)
    (wide : ∀ e ∈ events, e.direction = .insert → ∀ i ∈ x.inputs, i < e.tuple.length) :
    ∃ turns, receiveAll o ⟨x, []⟩ events = .ok turns ∧ turns.map Turn.event = events ∧
      Turn.Faithful o ⟨x, []⟩ turns := by
  have keeps : x.Keeps 0 := by
    intro t
    rw [empty]
    simp
  obtain ⟨turns, all, received, course⟩ := exists_course (o := o) (w := ⟨x, []⟩) keeps wide
  refine ⟨turns, all, received, ?_⟩
  exact {
    follows := by
      rintro past t later rfl
      exact (course_append course).2.1
    proper := by
      rintro past t later rfl
      exact (course_append course).2.2.2.1.toProper
    steady := by
      rintro past t between u later rfl he hm
      refine (course_append course).2.same_out he fun early h => ?_
      rw [← Turn.heldAfter_append]
      exact hm early h
    pulled := by
      rintro past t later rfl net id v hv hx
      rw [List.append_cons] at course
      have done := (course_append course).1
      have last : (afterAll ⟨x, []⟩ (past ++ [t])) = t.after := by
        rw [afterAll, List.foldl_append]
        rfl
      obtain ⟨rows, pull, content⟩ := pull_expression hv hx (last ▸ done.keeps keeps)
      refine ⟨rows, pull, fun u => ?_⟩
      have balance := done.balance u
      rw [last, ← content, Multiset.filterMap_zero, Multiset.count_zero, Int.natCast_zero,
        zero_add] at balance
      exact balance.symm }

section changing

def changing : Expression where
  evaluator := ⟨"changing", fun _ => .error "asked outside of a turn"⟩
  inputs := [0]
  mode := .bind

def changingOracle : Oracle := fun asked _ =>
  match asked.length with
  | 0 => .ok (.int 7)
  | 1 => .error "not now"
  | _ => .ok (.int 8)

def changingEvents : List Event :=
  [.insert, .insert, .revoke, .revoke, .insert, .revoke, .revoke, .insert].map
    fun d => ⟨d, [.string "a"]⟩

theorem changing_faithful :
    ∃ turns, Work.receiveAll changingOracle ⟨changing, []⟩ changingEvents = .ok turns ∧
      turns.map Turn.event = changingEvents ∧ Turn.Faithful changingOracle ⟨changing, []⟩ turns :=
  Work.receiveAll_faithful changingOracle rfl (by decide)

example : (Work.receiveAll changingOracle ⟨changing, []⟩ changingEvents).map (fun turns =>
    turns.map fun t => (t.out.map fun e => (e.direction, e.tuple), t.issue.isSome)) = .ok
    [([(.insert, [.string "a", .int 7])], false), ([(.insert, [.string "a", .int 7])], false),
      ([(.revoke, [.string "a", .int 7])], false), ([(.revoke, [.string "a", .int 7])], false),
      ([], true), ([], false), ([], true), ([(.insert, [.string "a", .int 8])], false)] := by
  cbv

end changing
end Motif
