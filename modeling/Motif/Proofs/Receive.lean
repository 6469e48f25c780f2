import Motif.Proofs.Event
import Motif.Proofs.Node
import Motif.Proofs.Traversal

set_option autoImplicit false
namespace Motif

open Std (ExtTreeMap)

def Issue.isFailure : Issue → Prop
  | evaluationFailed .. => True
  | _ => False

namespace Tuple

theorem agreeWith_eq {t : Tuple} {first : Nat} {g : List Nat} (hf : first < t.length)
    (hg : ∀ c ∈ g, c < t.length) :
    t.agreeWith first g = .ok (decide (∀ c ∈ g, t[c]? = t[first]?)) := by
  induction g with
  | nil => rfl
  | cons c rest ih =>
    have hc := hg c (by simp)
    rw [agreeWith, column_eq hc, column_eq hf]
    simp only [bind, Except.bind, pure, Except.pure]
    by_cases h : t[c] = t[first]
    · rw [if_pos h, ih fun d hd => hg d (by simp [hd])]
      simp [List.getElem?_eq_getElem hc, List.getElem?_eq_getElem hf, h]
    · rw [if_neg h]
      simp [List.getElem?_eq_getElem hc, List.getElem?_eq_getElem hf, h]

theorem agreeIn_eq {t : Tuple} {groups : List (List Nat)}
    (hg : ∀ g ∈ groups, ∀ c ∈ g, c < t.length) :
    t.agreeIn groups = .ok (decide (t.equalIn groups)) := by
  induction groups with
  | nil => rfl
  | cons g rest ih =>
    have agree : t.agreeWith (g.headD 0) g = .ok (decide (∀ c ∈ g, t[c]? = t[g.headD 0]?)) := by
      cases g with
      | nil => rfl
      | cons c cs => exact agreeWith_eq (hg (c :: cs) (by simp) c (by simp)) (hg (c :: cs) (by simp))
    rw [agreeIn, agree]
    simp only [bind, Except.bind, pure, Except.pure, decide_eq_true_eq]
    by_cases h : ∀ c ∈ g, t[c]? = t[g.headD 0]?
    · have iff : t.equalIn (g :: rest) ↔ t.equalIn rest := by
        simp only [equalIn, List.forall_mem_cons]
        exact and_iff_right h
      rw [if_pos h, ih fun g' hg' => hg g' (by simp [hg']), decide_eq_decide.2 iff]
    · rw [if_neg h]
      simp only [equalIn, List.forall_mem_cons, h, false_and, decide_false]

theorem mapM_column {t : Tuple} {is : List Nat} (h : ∀ i ∈ is, i < t.length) :
    is.mapM t.column = .ok (is.map fun i => t.getD i .null) := by
  refine mapM_ok fun i hi => ?_
  rw [column_eq (h i hi)]
  simp [List.getElem?_eq_getElem (h i hi)]

end Tuple

namespace Expression

def Caches (cache : ExtTreeMap Tuple (Option Tuple × Nat)) (said : Tuple → Option Tuple)
    (held : Multiset Tuple) : Prop :=
  ∀ t : Tuple, cache[t]? = if t ∈ held then some (said t, held.count t) else none

section caches
variable {cache : ExtTreeMap Tuple (Option Tuple × Nat)} {said : Tuple → Option Tuple}
  {held : Multiset Tuple} {t : Tuple}

theorem caches_insert (h : Caches cache said held) :
    Caches (cache.insert t (said t, held.count t + 1)) said (t ::ₘ held) := by
  intro u
  rw [ExtTreeMap.getElem?_insert]
  simp only [Std.LawfulEqCmp.compare_eq_iff_eq]
  by_cases e : t = u
  · subst e
    simp
  · rw [if_neg e, h u, Multiset.count_cons_of_ne (Ne.symm e)]
    simp [Ne.symm e]

theorem caches_revoke (h : Caches cache said held) :
    Caches (if held.count t ≤ 1 then cache.erase t else cache.insert t (said t, held.count t - 1))
      said (held.erase t) := by
  intro u
  have mem : t ∈ held.erase t ↔ ¬held.count t ≤ 1 := by
    rw [← Multiset.count_pos, Multiset.count_erase_self]
    omega
  by_cases e : t = u
  · subst e
    by_cases hc : held.count t ≤ 1
    · simp [hc, mem]
    · simp [hc, mem]
  · simp only [Multiset.mem_erase_of_ne (Ne.symm e), Multiset.count_erase_of_ne (Ne.symm e)]
    by_cases hc : held.count t ≤ 1
    · rw [if_pos hc, ExtTreeMap.getElem?_erase]
      simp only [Std.LawfulEqCmp.compare_eq_iff_eq, e, if_false]
      exact h u
    · rw [if_neg hc, ExtTreeMap.getElem?_insert]
      simp only [Std.LawfulEqCmp.compare_eq_iff_eq, e, if_false]
      exact h u

end caches

section receive
variable {x : Expression} {t : Tuple}

def arguments (x : Expression) (t : Tuple) : List Value :=
  x.inputs.map fun i => t.getD i .null

/-- What is made of an answer: what is put out for the tuple, and a problem. -/
def verdict (x : Expression) (t : Tuple) : Except String Value → Option Tuple × Option Issue
  | .ok v =>
    match x.mode with
    | .check => (if v.isTruthy then some t else none, none)
    | .bind => (some (t ++ [v]), none)
  | .error message => (none, some (.evaluationFailed x.evaluator.name t message))

def recounted (x : Expression) (d : Direction) (t : Tuple) (y : Option Tuple) (n : Nat) :
    ExtTreeMap Tuple (Option Tuple × Nat) :=
  match d with
  | .insert => x.cache.insert t (y, n + 1)
  | .revoke => if n ≤ 1 then x.cache.erase t else x.cache.insert t (y, n - 1)

theorem output_eq_verdict {m : Type → Type} [Monad m] [LawfulMonad m]
    (evaluate : List Value → m (Except String Value)) (wide : ∀ i ∈ x.inputs, i < t.length) :
    x.output evaluate t =
      ExceptT.mk do return .ok (x.verdict t (← evaluate (x.arguments t))) := by
  rw [output, Tuple.mapM_column wide]
  refine ExceptT.ext ?_
  simp only [ExceptT.run_bind, ExceptT.run_mk, pure_bind, ExceptT.run_lift, bind_map_left]
  refine congrArg (evaluate (x.arguments t) >>= ·) (funext fun answer => ?_)
  cases answer with
  | error message => rfl
  | ok v =>
    rw [verdict]
    cases x.mode <;> rfl

theorem result_eq_verdict (x : Expression) (t : Tuple) : x.evaluator.result x.inputs x.mode t =
    (x.verdict t (x.evaluator.evaluate (x.arguments t))).1 := by
  rw [Evaluator.result, arguments]
  cases x.evaluator.evaluate (x.inputs.map fun i => t.getD i .null) with
  | error message => rfl
  | ok v =>
    rw [verdict]
    cases x.mode <;> rfl

theorem isFailure_of_verdict (x : Expression) (t : Tuple) (answer : Except String Value) :
    ∀ i, (x.verdict t answer).2 = some i → i.isFailure := by
  intro i h
  cases answer with
  | error message =>
    cases h
    trivial
  | ok v =>
    rw [verdict] at h
    cases hm : x.mode <;> rw [hm] at h <;> cases h

variable {m : Type → Type} [Monad m] (evaluate : List Value → m (Except String Value))

theorem receive_again (d : Direction) {y : Option Tuple} {n : Nat}
    (found : x.cache[t]? = some (y, n)) :
    x.receive evaluate ⟨d, t⟩ =
      pure ({ x with cache := x.recounted d t y n }, y.toList.map (Event.mk d), none) := by
  rw [receive]
  dsimp only
  rw [found]
  cases d <;> rfl

theorem receive_first [LawfulMonad m] (found : x.cache[t]? = none)
    (wide : ∀ i ∈ x.inputs, i < t.length) :
    x.receive evaluate ⟨.insert, t⟩ = ExceptT.mk do
      let said := x.verdict t (← evaluate (x.arguments t))
      return .ok ({ x with cache := x.cache.insert t (said.1, 1) },
        said.1.toList.map (Event.mk .insert), said.2) := by
  rw [receive]
  dsimp only
  rw [found]
  dsimp only
  rw [output_eq_verdict evaluate wide]
  refine ExceptT.ext ?_
  simp only [ExceptT.run_bind, ExceptT.run_mk, bind_assoc, pure_bind]
  rfl

theorem receive_missing (found : x.cache[t]? = none) :
    x.receive evaluate ⟨.revoke, t⟩ =
      pure (x, [], some (.missingTuple ("expression " ++ x.evaluator.name) t)) := by
  rw [receive]
  dsimp only
  rw [found]

end receive
end Expression

namespace Node

structure Replies (masks : IndexId → Mask) (view : Side → Multiset Tuple) (arity : Nat)
    (flat : Prop) (n : Node) (fed fed' : Multiset Tuple) (reply : Reply) : Prop where
  bare : reply.node.bare = n.bare
  holds : reply.node.Holds masks fed' view
  leads : Leads arity flat (n.output masks fed view) reply.out (n.output masks fed' view)
  issue : ∀ i, reply.issue = some i → i.isFailure

variable {masks : IndexId → Mask} {unique : IndexId → Bool} {flat : Prop} {width arity : Nat}
  {fed : Multiset Tuple} {view : Side → Multiset Tuple} {e : Event}

theorem leads_filterMap {F : Multiset Tuple → Multiset Tuple} {f : Tuple → Option Tuple}
    {flat' : Prop} (ho : ∀ m, F m = m.filterMap f) (hs : e.Suits width flat fed)
    (hw : ∀ t ∈ fed, t.length = width) (hd : flat → fed.Nodup)
    (ha : ∀ u ∈ f e.tuple, u.length = arity)
    (hn : flat' → flat ∧ ∀ m, (∀ t ∈ m, t.length = width) → m.Nodup → (F m).Nodup) :
    Leads arity flat' (F fed) ((f e.tuple).toList.map (Event.mk e.direction)) (F (e.apply fed)) := by
  have hF : F (e.tuple ::ₘ e.rest fed) = F (e.rest fed) + ↑(f e.tuple).toList := by
    rw [ho, ho]
    cases h : f e.tuple with
    | none => simp [Multiset.filterMap_cons_none _ _ h]
    | some u =>
      rw [Multiset.filterMap_cons_some _ _ _ h, ← Multiset.singleton_add, add_comm]
      rfl
  refine Leads.of_rest hs hF (by simpa using ha) fun h => ?_
  obtain ⟨hf, nodup⟩ := hn h
  exact nodup _ (hs.width_cons_rest hw) (hs.nodup_cons_rest hf (hd hf))

theorem replies_of_filterMap {n : Node} {f : Tuple → Option Tuple} {out : List Event}
    (hb : ∀ m, n.Holds masks m view) (ho : ∀ m, n.output masks m view = m.filterMap f)
    (hs : e.Suits width flat fed) (hw : ∀ t ∈ fed, t.length = width) (hd : flat → fed.Nodup)
    (ha : ∀ u ∈ f e.tuple, u.length = arity)
    (hn : n.Flat unique flat → flat ∧ ∀ m, (∀ t ∈ m, t.length = width) → m.Nodup →
      (n.output masks m view).Nodup)
    (hr : out = (f e.tuple).toList.map (Event.mk e.direction)) :
    n.Replies masks view arity (n.Flat unique flat) fed (e.apply fed) { node := n, out } := by
  subst hr
  exact ⟨rfl, hb _, leads_filterMap (F := fun m => n.output masks m view) ho hs hw hd ha hn,
    by simp⟩

variable (hs : e.Suits width flat fed) (hw : ∀ t ∈ fed, t.length = width) (hd : flat → fed.Nodup)
include hs hw hd

theorem receive_trim {mask : Mask} (hf : (trim mask).Fits masks width arity) :
    ∃ reply, (trim mask).receive e = .ok reply ∧
      (trim mask).Replies masks view arity ((trim mask).Flat unique flat) fed (e.apply fed)
        reply := by
  obtain ⟨rfl, rfl⟩ := hf
  refine ⟨_, by rw [receive, Mask.project_eq hs.width]; rfl, replies_of_filterMap
    (f := fun t => some (mask.signature t)) (fun _ => trivial) (fun m => ?_) hs hw hd ?_ ?_ rfl⟩
  · exact (congrFun (Multiset.filterMap_eq_map mask.signature) m).symm
  · simp [Mask.length_signature hs.width]
  · rintro ⟨hi, hf⟩
    refine ⟨hf, fun m hm nodup => ?_⟩
    rw [output, Multiset.map_congr rfl fun t ht => Mask.signature_of_isIdentity hi (hm t ht),
      Multiset.map_id']
    exact nodup

theorem receive_filter {n : Node} {q : Tuple → Prop} [DecidablePred q]
    (hb : ∀ m, n.Holds masks m view) (ho : ∀ m, n.output masks m view = m.filter q)
    (hf : n.Flat unique flat ↔ flat)
    (hr : n.receive e = .ok { node := n, out := if q e.tuple then [e] else [] }) :
    ∃ reply, n.receive e = .ok reply ∧
      n.Replies masks view width (n.Flat unique flat) fed (e.apply fed) reply := by
  refine ⟨_, hr, replies_of_filterMap (f := Option.guard fun t => decide (q t)) hb (fun m => ?_) hs
    hw hd ?_ (fun h => ⟨hf.1 h, fun m _ nodup => ho m ▸ nodup.filter _⟩) ?_⟩
  · rw [ho, Multiset.filterMap_eq_filter]
  · intro u hu
    rw [Option.mem_def, Option.guard_eq_some_iff] at hu
    exact hu.1 ▸ hs.width
  · by_cases h : q e.tuple <;> simp [Option.guard, h]

theorem receive_constantFilter {column : Nat} {value : Value}
    (hf : (constantFilter column value).Fits masks width arity) :
    ∃ reply, (constantFilter column value).receive e = .ok reply ∧
      (constantFilter column value).Replies masks view arity
        ((constantFilter column value).Flat unique flat) fed (e.apply fed) reply := by
  obtain ⟨hc, rfl⟩ := hf
  refine receive_filter (q := fun t => t[column]? = some value) hs hw hd (fun _ => trivial)
    (fun _ => rfl) Iff.rfl ?_
  rw [← hs.width] at hc
  rw [receive, Tuple.column_eq hc, List.getElem?_eq_getElem hc]
  simp [bind, Except.bind, pure, Except.pure]

theorem receive_equalityFilter {groups : List (List Nat)}
    (hf : (equalityFilter groups).Fits masks width arity) :
    ∃ reply, (equalityFilter groups).receive e = .ok reply ∧
      (equalityFilter groups).Replies masks view arity
        ((equalityFilter groups).Flat unique flat) fed (e.apply fed) reply := by
  obtain ⟨hc, rfl⟩ := hf
  refine receive_filter (q := fun t => t.equalIn groups) hs hw hd (fun _ => trivial)
    (fun _ => rfl) Iff.rfl ?_
  rw [receive, Tuple.agreeIn_eq fun g hg c h => hs.width ▸ hc g hg c h]
  simp [bind, Except.bind, pure, Except.pure]

theorem receive_inequalityFilter {left right : Nat}
    (hf : (inequalityFilter left right).Fits masks width arity) :
    ∃ reply, (inequalityFilter left right).receive e = .ok reply ∧
      (inequalityFilter left right).Replies masks view arity
        ((inequalityFilter left right).Flat unique flat) fed (e.apply fed) reply := by
  obtain ⟨hl, hr, rfl⟩ := hf
  refine receive_filter (q := fun t => t[left]? ≠ t[right]?) hs hw hd (fun _ => trivial)
    (fun _ => rfl) Iff.rfl ?_
  rw [← hs.width] at hl hr
  rw [receive, Tuple.column_eq hl, Tuple.column_eq hr, List.getElem?_eq_getElem hl,
    List.getElem?_eq_getElem hr]
  simp [bind, Except.bind, pure, Except.pure]

omit hs hw hd in
theorem output_eq {x : Expression} {t : Tuple} (h : ∀ i ∈ x.inputs, i < t.length) :
    ∃ issue : Option Issue, x.output (m := Id) x.evaluator.evaluate t =
        (Except.ok (x.evaluator.result x.inputs x.mode t, issue) : Except Fault _) ∧
      ∀ i, issue = some i → i.isFailure := by
  refine ⟨_, ?_, x.isFailure_of_verdict t (x.evaluator.evaluate (x.arguments t))⟩
  rw [Expression.output_eq_verdict _ h, Expression.result_eq_verdict]
  rfl

def Cached (x : Expression) (fed : Multiset Tuple) : Prop :=
  (expression x).Holds (fun _ => Mask.identity 0) fed fun _ => 0

omit hw hd in
/-- What an expression puts out for a tuple does not depend on whether it was held before. -/
theorem expression_receive_eq {x : Expression} (hi : ∀ i ∈ x.inputs, i < width)
    (hh : Cached x fed) : ∃ (x' : Expression) (issue : Option Issue),
      x.receive (m := Id) x.evaluator.evaluate e = (Except.ok (x',
        (x.evaluator.result x.inputs x.mode e.tuple).toList.map (Event.mk e.direction), issue) :
          Except Fault _) ∧
      (expression x').bare = (expression x).bare ∧ Cached x' (e.apply fed) ∧
      ∀ i, issue = some i → i.isFailure := by
  obtain ⟨d, t⟩ := e
  have ht := hh t
  by_cases hm : t ∈ fed
  · rw [if_pos hm] at ht
    refine ⟨{ x with cache := x.recounted d t (x.evaluator.result x.inputs x.mode t) (fed.count t) },
      none, Expression.receive_again _ d ht, rfl, ?_, by simp⟩
    cases d with
    | insert => exact Expression.caches_insert hh
    | revoke => exact Expression.caches_revoke hh
  · rw [if_neg hm] at ht
    cases d with
    | revoke => exact absurd (hs.revoke rfl) hm
    | insert =>
      have counted := Expression.caches_insert (t := t) hh
      rw [Multiset.count_eq_zero_of_notMem hm] at counted
      refine ⟨{ x with cache := x.cache.insert t (x.evaluator.result x.inputs x.mode t, 1) }, _, ?_,
        rfl, counted, x.isFailure_of_verdict t (x.evaluator.evaluate (x.arguments t))⟩
      rw [Expression.receive_first _ ht fun i h => hs.width.symm ▸ hi i h,
        Expression.result_eq_verdict]
      rfl

theorem receive_expression {x : Expression} (hf : (expression x).Fits masks width arity)
    (hh : (expression x).Holds masks fed view) :
    ∃ reply, (expression x).receive e = .ok reply ∧
      (expression x).Replies masks view arity ((expression x).Flat unique flat) fed (e.apply fed)
        reply := by
  obtain ⟨hi, ha⟩ := hf
  obtain ⟨x', issue, hr, hb, hc, hfail⟩ := expression_receive_eq hs hi hh
  refine ⟨⟨expression x', _, issue⟩, ?_, hb, hc, leads_filterMap
    (F := fun m => (expression x).output masks m view) (fun m => rfl) hs hw hd (fun u hu => ?_)
    fun h => ⟨h, fun m _ nodup => ?_⟩, hfail⟩
  · rw [receive, hr]
    rfl
  · rw [ha, length_of_mem_result hu, hs.width]
  · exact nodup.filterMap _ fun t t' u hu hu' => result_injective hu hu'

omit hd in
theorem receive_closure {state : Closure} (hf : (closure state).Fits masks width arity)
    (hh : (closure state).Holds masks fed view) :
    ∃ reply, (closure state).receive e = .ok reply ∧
      (closure state).Replies masks view arity ((closure state).Flat unique flat) fed
        (e.apply fed) reply := by
  obtain ⟨rfl, rfl⟩ := hf
  obtain ⟨d, t⟩ := e
  obtain ⟨a, b, rfl⟩ : ∃ a b, t = [a, b] := List.length_eq_two.1 hs.width
  have events : ∀ (d : Direction) (l : List Edge),
      l.map (fun p => Event.mk d [p.1, p.2]) = (Closure.rows l).map (Event.mk d) := by
    intro d l
    rw [Closure.rows, List.map_map]
    rfl
  have widths : ∀ l : List Edge, ∀ t ∈ Closure.rows l, t.length = 2 := by
    intro l t ht
    obtain ⟨p, -, rfl⟩ := List.mem_map.1 ht
    rfl
  cases d with
  | insert =>
    obtain ⟨hr, hl⟩ := Closure.Represents.insert hh a b
    refine ⟨_, rfl, rfl, hr, ?_, by simp [receiveEdge]⟩
    simp only [receiveEdge, events, output, Event.apply_insert, hl]
    exact Leads.inserts (widths _) fun _ => hl ▸ nodup_linkedPairs _
  | revoke =>
    obtain ⟨c', stale, he, hr, hl⟩ := Closure.Represents.remove? hh (hs.revoke rfl)
    refine ⟨{ node := closure c', out := stale.map fun p => ⟨.revoke, [p.1, p.2]⟩ }, ?_, rfl, hr, ?_,
      by simp⟩
    · simp only [receive, receiveEdge, he]
    · simp only [events, output, Event.apply_revoke, hl]
      exact Leads.revokes (widths _)

omit hw hd in
theorem countEvent_eq {memory : Bag Tuple} (hh : memory.toMultiset = fed) :
    ∃ after, memory.countEvent e = (after, some (decide (e.tuple ∉ e.rest fed))) ∧
      after.toMultiset = e.apply fed := by
  obtain ⟨d, t⟩ := e
  have count : memory.count t = fed.count t := by rw [← hh, Bag.count_toMultiset]
  cases d with
  | insert =>
    refine ⟨memory.add t, ?_, by rw [Bag.toMultiset_add, hh]; rfl⟩
    have hs : (memory.increment t).2 = if t ∈ fed then .unchanged else .appeared := by
      rw [Bag.increment_snd]
      simp only [Bag.contains_iff_mem, hh]
    have hb : memory.countEvent ⟨.insert, t⟩ =
        (memory.add t, some ((memory.increment t).2 == .appeared)) := rfl
    rw [hb, hs, Event.rest_of_insert rfl]
    by_cases hm : t ∈ fed
    · simp only [hm, not_true_eq_false, decide_false]
      rfl
    · simp only [hm, not_false_eq_true, decide_true]
      rfl
  | revoke =>
    have hp : 0 < fed.count t := Multiset.count_pos.2 (hs.revoke rfl)
    refine ⟨memory.remove t, ?_, by rw [Bag.toMultiset_remove, hh]; rfl⟩
    have hb : ∀ c, (memory.decrement t).2 = c → c ≠ .missing →
        memory.countEvent ⟨.revoke, t⟩ = (memory.remove t, some (c == .disappeared)) := by
      intro c hc hn
      have hd : memory.decrement t = (memory.remove t, c) := by rw [← hc]; rfl
      rw [Bag.countEvent, hd]
      cases c with
      | missing => exact absurd rfl hn
      | _ => rfl
    have hd := Bag.decrement_snd memory t
    have rest : t ∈ (Event.mk .revoke t).rest fed ↔ 1 < fed.count t := by
      rw [Event.rest, ← Multiset.count_pos, Multiset.count_erase_self]
      omega
    rw [count] at hd
    by_cases h : fed.count t = 1
    · rw [h] at hd
      rw [hb _ hd (by simp), decide_eq_true (by rw [rest]; omega)]
      rfl
    · obtain ⟨n, hn⟩ : ∃ n, fed.count t = n + 2 := ⟨fed.count t - 2, by omega⟩
      rw [hn] at hd
      rw [hb _ hd (by simp), decide_eq_false (by rw [rest]; omega)]
      rfl

omit hw hd in
theorem receiveCounted_replies {n : Node} {rebuild : Bag Tuple → Node} {index : String}
    {memory : Bag Tuple} {flat' : Prop} (hb : ∀ m, (rebuild m).bare = n.bare)
    (ho : ∀ m, n.output masks m view = m.dedup)
    (hr : ∀ m fed, m.toMultiset = fed → (rebuild m).Holds masks fed view)
    (hh : memory.toMultiset = fed) :
    n.Replies masks view width flat' fed (e.apply fed)
      (receiveCounted rebuild index memory e) := by
  obtain ⟨after, he, ha⟩ := countEvent_eq hs hh
  have nodup : ∀ m, (n.output masks m view).Nodup := fun m => ho m ▸ Multiset.nodup_dedup m
  by_cases hm : e.tuple ∈ e.rest fed
  · rw [decide_eq_false (by simpa using hm)] at he
    rw [receiveCounted, he]
    refine ⟨hb _, hr _ _ ha, ?_, by simp⟩
    refine Leads.of_rest (F := fun m => n.output masks m view) (l := []) hs ?_ (by simp)
      fun _ => nodup _
    simp only [ho, Multiset.dedup_cons_of_mem hm, Multiset.coe_nil, add_zero]
  · rw [decide_eq_true hm] at he
    rw [receiveCounted, he]
    refine ⟨hb _, hr _ _ ha, ?_, by simp⟩
    refine Leads.of_rest (F := fun m => n.output masks m view) (l := [e.tuple]) hs ?_
      (by simpa using hs.width) fun _ => nodup _
    simp only [ho, Multiset.dedup_cons_of_notMem hm, Multiset.coe_singleton]
    rw [← Multiset.singleton_add, add_comm]

variable (unique) in
/-- A node that is fed answers a change with the change of its output, and then keeps what it has
to keep. -/
theorem receive_replies {n : Node} (hn : n.isFed = true) (hf : n.Fits masks width arity)
    (hh : n.Holds masks fed view) :
    ∃ reply, n.receive e = .ok reply ∧
      n.Replies masks view arity (n.Flat unique flat) fed (e.apply fed) reply := by
  cases n with
  | trim mask => exact receive_trim hs hw hd hf
  | constantFilter column value => exact receive_constantFilter hs hw hd hf
  | equalityFilter groups => exact receive_equalityFilter hs hw hd hf
  | inequalityFilter left right => exact receive_inequalityFilter hs hw hd hf
  | expression x => exact receive_expression hs hw hd hf hh
  | closure state => exact receive_closure hs hw hf hh
  | uniqueness _ | production _ _ =>
    obtain rfl : arity = width := hf
    exact ⟨_, rfl, receiveCounted_replies hs (fun _ => rfl) (fun _ => rfl) (fun _ _ h => h) hh⟩
  | _ => cases hn

end Node
end Motif
