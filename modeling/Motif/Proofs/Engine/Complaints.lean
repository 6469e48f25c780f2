import Motif.Proofs.Engine.Aloof
import Motif.Proofs.Engine.Deferring

set_option autoImplicit false
namespace Motif

open Happening

abbrev Roll := ListenerId → Option (String × Listener)

def heardBy (id : ListenerId) (told : List (ListenerId × Notice)) : List Notice :=
  told.filterMap fun x => if x.1 = id then some x.2 else none

def Roll.fatal? (roll : Roll) (earlier : List (ListenerId × Notice)) (x : ListenerId × Notice) :
    Option Fatal :=
  (roll x.1).bind fun (query, listener) =>
    match (listener (heardBy x.1 earlier) x.2).outcome with
    | .ok => none
    | .failed message => some (.listenerFailed query x.1 message)
    | .broke message => some (.listenerBroke query x.1 message)

def Roll.due (roll : Roll) : List (ListenerId × Notice) → List Fatal
  | [] => []
  | x :: earlier => (roll.fatal? earlier x).toList ++ roll.due earlier

section told
variable {roll roll' : Roll} {told : List (ListenerId × Notice)} {id : ListenerId} {n : Notice}
  {l : List Subscription}

theorem heardBy_eq_nil (h : ∀ x ∈ told, x.1 ≠ id) : heardBy id told = [] :=
  List.filterMap_eq_nil_iff.2 fun x hx => if_neg (h x hx)

/-- When a notice is told to some listeners, each of them has heard it. -/
theorem heardBy_tell (nodup : (l.map Subscription.id).Nodup) :
    heardBy id ((l.map fun s => (s.id, n)).reverse ++ told) =
      (if id ∈ l.map Subscription.id then [n] else []) ++ heardBy id told := by
  induction l generalizing told with
  | nil => rfl
  | cons s rest ih =>
    rw [List.map_cons] at nodup
    obtain ⟨once, nodup⟩ := List.nodup_cons.1 nodup
    rw [List.map_cons, List.reverse_cons, List.append_assoc, ih nodup, List.map_cons]
    by_cases hs : s.id = id
    · subst hs
      rw [if_neg once, if_pos List.mem_cons_self]
      simp [heardBy]
    · have mem : id ∈ s.id :: rest.map Subscription.id ↔ id ∈ rest.map Subscription.id :=
        List.mem_cons.trans (or_iff_right (Ne.symm hs))
      simp only [mem]
      simp [heardBy, hs]

/-- What is due when a notice is told to some listeners. -/
theorem due_tell (nodup : (l.map Subscription.id).Nodup)
    (attached : ∀ s ∈ l, roll s.id = some (s.query.name, s.listener) ∧ s.heard = heardBy s.id told) :
    roll.due ((l.map fun s => (s.id, n)).reverse ++ told) =
      (l.filterMap (Subscription.fatal? · n)).reverse ++ roll.due told := by
  induction l generalizing told with
  | nil => rfl
  | cons s rest ih =>
    rw [List.map_cons] at nodup
    obtain ⟨once, nodup⟩ := List.nodup_cons.1 nodup
    obtain ⟨known, heard⟩ := attached s List.mem_cons_self
    have first : roll.fatal? told (s.id, n) = s.fatal? n := by
      rw [Roll.fatal?, known, Subscription.fatal?, Subscription.react, heard]
      rfl
    have others : ∀ s' ∈ rest, roll s'.id = some (s'.query.name, s'.listener) ∧
        s'.heard = heardBy s'.id ((s.id, n) :: told) := by
      intro s' hs'
      obtain ⟨known', heard'⟩ := attached s' (List.mem_cons_of_mem s hs')
      have ne : ¬s.id = s'.id := fun e => once (e ▸ List.mem_map_of_mem hs')
      refine ⟨known', heard'.trans ?_⟩
      simp [heardBy, ne]
    rw [List.map_cons, List.reverse_cons, List.append_assoc]
    refine (ih nodup others).trans ?_
    rw [Roll.due, first, List.filterMap_cons]
    cases s.fatal? n with
    | none => rfl
    | some f => simp

theorem due_congr (h : ∀ x ∈ told, roll' x.1 = roll x.1) : roll'.due told = roll.due told := by
  induction told with
  | nil => rfl
  | cons x rest ih =>
    rw [Roll.due, Roll.due, ih fun y hy => h y (List.mem_cons_of_mem x hy), Roll.fatal?, Roll.fatal?,
      h x List.mem_cons_self]

end told

/-- Whoever listens was told what it has heard, and what was to be reported has been, save what is
`owed`. The log has the latest first. -/
structure Accounted (roll : Roll) (subs : List Subscription) (next : ListenerId) (log : List Happening)
    (owed : List Fatal) : Prop where
  nodup : (subs.map Subscription.id).Nodup
  old : ∀ s ∈ subs, s.id < next
  attached : ∀ s ∈ subs, roll s.id = some (s.query.name, s.listener) ∧
    s.heard = heardBy s.id (log.filterMap told?)
  fresh : ∀ x ∈ log.filterMap told?, x.1 < next
  reports : roll.due (log.filterMap told?) = owed ++ log.filterMap complaint?

namespace Accounted
variable {roll : Roll} {subs : List Subscription} {next : ListenerId} {log : List Happening}
  {owed : List Fatal}

theorem quiet (h : Accounted roll subs next log owed) {news : List Happening}
    (hn : ∀ x ∈ news, x.told? = none ∧ x.complaint? = none) :
    Accounted roll subs next (news ++ log) owed := by
  have told : (news ++ log).filterMap told? = log.filterMap told? := by
    rw [List.filterMap_append, List.filterMap_eq_nil_iff.2 fun x hx => (hn x hx).1, List.nil_append]
  have complaints : (news ++ log).filterMap complaint? = log.filterMap complaint? := by
    rw [List.filterMap_append, List.filterMap_eq_nil_iff.2 fun x hx => (hn x hx).2, List.nil_append]
  refine ⟨h.nodup, h.old, ?_, ?_, ?_⟩
  · rw [told]
    exact h.attached
  · rw [told]
    exact h.fresh
  · rw [told, complaints]
    exact h.reports

theorem tell (h : Accounted roll subs next log owed) (p : Subscription → Prop) [DecidablePred p]
    (n : Notice) :
    Accounted roll (subs.map fun s => if p s then s.hear n else s) next
      (((subs.filter p).map fun s => Happening.told s.id n).reverse ++ log)
      (((subs.filter p).filterMap (Subscription.fatal? · n)).reverse ++ owed) := by
  have ids : (subs.map fun s => if p s then s.hear n else s).map Subscription.id =
      subs.map Subscription.id := by
    rw [List.map_map]
    refine List.map_congr_left fun s _ => ?_
    simp only [Function.comp_apply]
    split <;> rfl
  have told : ((((subs.filter p).map fun s => Happening.told s.id n).reverse ++ log).filterMap told?) =
      ((subs.filter p).map fun s => (s.id, n)).reverse ++ log.filterMap told? := by
    rw [List.filterMap_append, List.filterMap_reverse, List.filterMap_map]
    congr 2
    exact congrFun List.filterMap_eq_map _
  have complaints : ((((subs.filter p).map fun s => Happening.told s.id n).reverse ++ log).filterMap
      complaint?) = log.filterMap complaint? := by
    rw [List.filterMap_append, List.filterMap_reverse, List.filterMap_map]
    exact congrArg (·.reverse ++ _) (List.filterMap_eq_nil_iff.2 fun _ _ => rfl)
  have sublist : ((subs.filter p).map Subscription.id).Nodup :=
    h.nodup.sublist (List.filter_sublist.map _)
  refine ⟨ids ▸ h.nodup, fun s' hs' => ?_, fun s' hs' => ?_, fun x hx => ?_, ?_⟩
  · obtain ⟨s, hs, rfl⟩ := List.mem_map.1 hs'
    split
    · exact h.old s hs
    · exact h.old s hs
  · obtain ⟨s, hs, rfl⟩ := List.mem_map.1 hs'
    obtain ⟨known, heard⟩ := h.attached s hs
    have mem : s.id ∈ (subs.filter p).map Subscription.id ↔ p s := by
      constructor
      · intro hm
        obtain ⟨s', hs', same⟩ := List.mem_map.1 hm
        obtain ⟨hs', hp⟩ := List.mem_filter.1 hs'
        exact List.inj_on_of_nodup_map h.nodup hs' hs same ▸ of_decide_eq_true hp
      · exact fun hp => List.mem_map_of_mem (List.mem_filter.2 ⟨hs, decide_eq_true hp⟩)
    rw [told]
    by_cases hp : p s
    · rw [if_pos hp]
      refine ⟨known, ?_⟩
      rw [heardBy_tell sublist, Subscription.hear, if_pos (mem.2 hp), heard]
      rfl
    · rw [if_neg hp]
      refine ⟨known, heard.trans ?_⟩
      rw [heardBy_tell sublist, if_neg fun hm => hp (mem.1 hm)]
      rfl
  · rw [told, List.mem_append, List.mem_reverse] at hx
    obtain hx | hx := hx
    · obtain ⟨s, hs, rfl⟩ := List.mem_map.1 hx
      exact h.old s (List.mem_of_mem_filter hs)
    · exact h.fresh x hx
  · rw [told, complaints, due_tell sublist fun s hs => h.attached s (List.mem_of_mem_filter hs),
      h.reports, List.append_assoc]

theorem settle (h : Accounted roll subs next log owed)
    (ho : ∀ f ∈ owed, (Happening.fatal f).complaint? = some f) :
    Accounted roll subs next (owed.map .fatal ++ log) [] := by
  have told : (owed.map Happening.fatal ++ log).filterMap told? = log.filterMap told? := by
    rw [List.filterMap_append, List.filterMap_map]
    exact congrArg (· ++ _) (List.filterMap_eq_nil_iff.2 fun _ _ => rfl)
  have complaints : (owed.map Happening.fatal ++ log).filterMap complaint? =
      owed ++ log.filterMap complaint? := by
    rw [List.filterMap_append, List.filterMap_map]
    refine congrArg (· ++ _) ((List.filterMap_congr fun f hf => ?_).trans List.filterMap_some)
    exact ho f hf
  refine ⟨h.nodup, h.old, ?_, ?_, ?_⟩
  · rw [told]
    exact h.attached
  · rw [told]
    exact h.fresh
  · rw [told, complaints]
    exact h.reports

theorem leave (h : Accounted roll subs next log owed) (p : Subscription → Bool) :
    Accounted roll (subs.filter p) next log owed where
  nodup := h.nodup.sublist (List.filter_sublist.map _)
  old s hs := h.old s (List.mem_of_mem_filter hs)
  attached s hs := h.attached s (List.mem_of_mem_filter hs)
  fresh := h.fresh
  reports := h.reports

theorem enrol (h : Accounted roll subs next log owed) (x : Option (String × Listener)) :
    Accounted (Function.update roll next x) subs next log owed where
  nodup := h.nodup
  old := h.old
  attached s hs := by
    rw [Function.update_of_ne (Nat.ne_of_lt (h.old s hs))]
    exact h.attached s hs
  fresh := h.fresh
  reports := by
    rw [due_congr fun x hx => Function.update_of_ne (Nat.ne_of_lt (h.fresh x hx)) _ _]
    exact h.reports

theorem skip (h : Accounted roll subs next log owed) : Accounted roll subs (next + 1) log owed where
  nodup := h.nodup
  old s hs := Nat.lt_succ_of_lt (h.old s hs)
  attached := h.attached
  fresh x hx := Nat.lt_succ_of_lt (h.fresh x hx)
  reports := h.reports

theorem join (h : Accounted roll subs next log owed) {s : Subscription} (number : s.id = next)
    (known : roll next = some (s.query.name, s.listener)) (heard : s.heard = []) :
    Accounted roll (subs ++ [s]) (next + 1) log owed where
  nodup := by
    rw [List.map_append, List.map_cons, List.map_nil, List.nodup_append]
    refine ⟨h.nodup, List.nodup_singleton _, fun i hi j hj => ?_⟩
    obtain ⟨s', hs', rfl⟩ := List.mem_map.1 hi
    rw [List.mem_singleton.1 hj, number]
    exact Nat.ne_of_lt (h.old s' hs')
  old s' hs' := by
    rcases List.mem_append.1 hs' with hs' | hs'
    · exact Nat.lt_succ_of_lt (h.old s' hs')
    · rw [List.mem_singleton.1 hs', number]
      exact Nat.lt_succ_self next
  attached s' hs' := by
    rcases List.mem_append.1 hs' with hs' | hs'
    · exact h.attached s' hs'
    · rw [List.mem_singleton.1 hs', number]
      refine ⟨known, heard.trans (Eq.symm ?_)⟩
      exact heardBy_eq_nil fun x hx => Nat.ne_of_lt (h.fresh x hx)
  fresh x hx := Nat.lt_succ_of_lt (h.fresh x hx)
  reports := h.reports

theorem tellLast {s : Subscription} (h : Accounted roll (subs ++ [s]) next log owed) (n : Notice) :
    Accounted roll (subs ++ [s.hear n]) next (.told s.id n :: log)
      ((s.fatal? n).toList ++ owed) := by
  have others : ∀ s' ∈ subs, ¬s'.id = s.id := by
    intro s' hs' same
    have nodup := h.nodup
    rw [List.map_append, List.nodup_append] at nodup
    exact nodup.2.2 s'.id (List.mem_map_of_mem hs') s.id (by simp) same
  have concerned : (subs ++ [s]).filter (fun s' => decide (s'.id = s.id)) = [s] := by
    rw [List.filter_append, List.filter_eq_nil_iff.2 fun s' hs' => by simp [others s' hs']]
    simp
  have heard : ((subs ++ [s]).map fun s' => if s'.id = s.id then s'.hear n else s') =
      subs ++ [s.hear n] := by
    rw [List.map_append, List.map_congr_left fun s' hs' => if_neg (others s' hs'), List.map_id']
    simp
  have told := h.tell (·.id = s.id) n
  rw [concerned, heard] at told
  cases hf : s.fatal? n <;> simpa [hf] using told

end Accounted

namespace Engine
variable {roll : Roll} {past : List Happening} {e e' : Engine}

structure Accounts (roll : Roll) (past : List Happening) (e : Engine) : Prop where
  accounted : Accounted roll e.subscriptions e.nextListener (e.history ++ past) []
  valid : e.catalog.Valid

theorem Accounts.quiet (h : e.Accounts roll past) (subscriptions : e'.subscriptions = e.subscriptions)
    (nextListener : e'.nextListener = e.nextListener) (catalog : e'.catalog = e.catalog)
    (news : List Happening) (history : e'.history = news ++ e.history)
    (hn : ∀ x ∈ news, x.told? = none ∧ x.complaint? = none) : e'.Accounts roll past := by
  refine ⟨?_, catalog ▸ h.valid⟩
  rw [subscriptions, nextListener, history, List.append_assoc]
  exact h.accounted.quiet hn

theorem Accounts.apart (h : e.Accounts roll past) (apart : Apart e e') : e'.Accounts roll past := by
  obtain ⟨issues, history⟩ := apart.history
  refine h.quiet apart.subscriptions apart.nextListener apart.catalog _ history fun x hx => ?_
  obtain ⟨i, -, rfl⟩ := List.mem_map.1 hx
  exact ⟨rfl, rfl⟩

theorem Accounts.record (h : e.Accounts roll past) {x : Happening} (told : x.told? = none)
    (complaint : x.complaint? = none) : (e.record [x]).Accounts roll past :=
  h.quiet rfl rfl rfl [x] rfl fun _ hx => List.mem_singleton.1 hx ▸ ⟨told, complaint⟩

theorem Accounts.tellAll (h : e.Accounts roll past) (n : Notice) :
    (e.tellAll n).1.Accounts roll past := by
  have told := h.accounted.tell (·.query.name = n.found.query.name) n
  rw [List.append_nil] at told
  have settled := told.settle fun f hf => by
    obtain ⟨s, -, hs⟩ := List.mem_filterMap.1 (List.mem_reverse.1 hf)
    exact Subscription.complaint?_of_fatal? hs
  refine ⟨?_, h.valid⟩
  rw [← List.append_assoc, ← List.append_assoc, List.map_reverse, ← List.reverse_append] at settled
  exact settled

theorem Accounts.deliver (h : e.Accounts roll past) (event : ProductionEvent) :
    (e.deliver event).1.Accounts roll past := by
  rw [Engine.deliver]
  split
  · exact h
  · split
    · exact h
    · split
      · exact h.apart (apart_report _ _)
      · exact h.tellAll _

theorem Accounts.deliverAll (h : e.Accounts roll past) (events : List ProductionEvent) :
    (e.deliverAll events).1.Accounts roll past :=
  runAll_keeps (I := Accounts roll past) (fun _ event h => h.deliver event) h events

theorem apart_propagate (h : e.propagate = .ok e') : Apart e e' := by
  obtain ⟨net, -, h⟩ := bind_ok h
  cases h
  exact (⟨rfl, rfl, rfl, [], rfl⟩ :
    Apart e (({ e with model := e.model.drain.1 } : Engine).setNetwork net)).trans
    (apart_reportNetwork _)

theorem Accounts.round (h : e.Accounts roll past) {queued : List Write}
    (hr : e.round = .ok (e', queued)) : e'.Accounts roll past := by
  cases hp : e.propagate with
  | error f =>
    rw [Engine.round, hp] at hr
    cases hr
  | ok fed =>
    have told : Except.ok (fed.takeEvents.1.deliverAll fed.takeEvents.2) =
        (Except.ok (e', queued) : Except Fault _) := by
      rw [← hr, Engine.round, hp]
      rfl
    have taken : fed.takeEvents.1.Accounts roll past :=
      (h.apart (apart_propagate hp)).apart ⟨rfl, rfl, rfl, [], rfl⟩
    have delivered := taken.deliverAll fed.takeEvents.2
    rwa [Except.ok.inj told] at delivered

theorem Accounts.runQueued (h : e.Accounts roll past) (queued : List Write) :
    (e.runQueued queued).Accounts roll past :=
  (h.apart ⟨rfl, rfl, rfl, [], rfl⟩ :
    Accounts roll past { e with model := (e.model.writeAll queued).1 }).record rfl rfl

theorem Accounts.flushWithin {rounds : Nat} (h : e.Accounts roll past)
    (hf : e.flushWithin rounds = .ok e') : e'.Accounts roll past := by
  induction rounds generalizing e with
  | zero =>
    obtain ⟨⟨told, queued⟩, hr, hf⟩ := bind_ok hf
    replace h := h.round hr
    dsimp only at hf
    split at hf <;> cases hf
    · exact h
    · exact h.record rfl rfl
  | succ left ih =>
    obtain ⟨⟨told, queued⟩, hr, hf⟩ := bind_ok hf
    replace h := h.round hr
    dsimp only at hf
    split at hf
    · cases hf
      exact h
    · exact ih (h.runQueued queued) hf

structure Introducing (roll : Roll) (past : List Happening) (p : Engine × Subscription)
    (owed : List Fatal) : Prop where
  accounted :
    Accounted roll (p.1.subscriptions ++ [p.2]) p.1.nextListener (p.1.history ++ past) owed
  valid : p.1.catalog.Valid

theorem Introducing.introduce {p : Engine × Subscription} {owed : List Fatal}
    (h : Introducing roll past p owed) (t : Tuple) :
    Introducing roll past (introduce p t).1 ((introduce p t).2.2.reverse ++ owed) := by
  obtain ⟨e, s⟩ := p
  cases hm : Match.ofTuple s.query t with
  | error issue =>
    simp only [Engine.introduce, hm]
    have apart := apart_report e [issue]
    obtain ⟨issues, history⟩ := apart.history
    refine ⟨?_, apart.catalog ▸ h.valid⟩
    rw [apart.subscriptions, apart.nextListener, history, List.append_assoc]
    refine h.accounted.quiet fun x hx => ?_
    obtain ⟨i, -, rfl⟩ := List.mem_map.1 hx
    exact ⟨rfl, rfl⟩
  | ok found =>
    simp only [Engine.introduce, hm]
    have once : (s.fatal? ⟨.insert, found⟩).toList.reverse = (s.fatal? ⟨.insert, found⟩).toList := by
      cases s.fatal? ⟨.insert, found⟩ <;> rfl
    rw [once]
    exact ⟨h.accounted.tellLast ⟨.insert, found⟩, h.valid⟩

theorem Introducing.runAll {p : Engine × Subscription} {owed : List Fatal}
    (h : Introducing roll past p owed) (ts : List Tuple) :
    Introducing roll past (runAll Engine.introduce p ts).1
      (((runAll Engine.introduce p ts).2.flatMap Prod.snd).reverse ++ owed) := by
  induction ts generalizing p owed with
  | nil => exact h
  | cons t rest ih =>
    rw [runAll_cons, List.flatMap_cons, List.reverse_append, List.append_assoc]
    exact ih (h.introduce t)

theorem Introducing.attach {p : Engine × Subscription} {owed : List Fatal}
    (h : Introducing roll past p owed.reverse)
    (ho : ∀ f ∈ owed, (Happening.fatal f).complaint? = some f) :
    ((p.1.record (owed.map .fatal)).attach p.2).Accounts roll past := by
  refine ⟨?_, h.valid⟩
  have settled := h.accounted.settle fun f hf => ho f (List.mem_reverse.1 hf)
  rw [List.map_reverse, ← List.append_assoc] at settled
  exact settled

end Engine

namespace Session
variable {roll : Roll} {past : List Happening} {e : Engine} {α : Type}

open Engine

theorem Aloof.leads {x y : Session α} (h : Aloof x y e) :
    x.Leads e (fun _ e' => Apart e e') fun _ e' => Apart e e' := by
  have apart := h.apart
  rw [Leads]
  generalize x.run.run e = r at apart
  obtain ⟨_ | _, _⟩ := r <;> exact apart

theorem Aloof.accounts {x y : Session α} (h : Aloof x y e) (ha : e.Accounts roll past) :
    x.Leads e (fun _ e' => e'.Accounts roll past) fun _ e' => e'.Accounts roll past :=
  h.leads.mono (fun _ _ apart => ha.apart apart) fun _ _ apart => ha.apart apart

theorem register_accounts (q : Query) (h : e.Accounts roll past) :
    (register q).Leads e (fun _ e' => e'.Accounts roll past) fun _ e' => e'.Accounts roll past := by
  refine Leads.bind ((aloof_requireLive.accounts h).mono (fun _ e h => leads_get ?_) fun _ _ h => h)
  split
  · exact leads_throw h
  · refine Leads.bind (leads_liftPlan (fun c hc => ?_) fun _ _ => h)
    exact leads_set ⟨h.accounted, Catalog.valid_register h.valid hc⟩

theorem flush_accounts (h : e.Accounts roll past) :
    Session.flush.Leads e (fun _ e' => e'.Accounts roll past) fun _ e' => e'.Accounts roll past := by
  refine leads_get (Leads.bind (leads_lift (fun e' he' => leads_set ?_) fun _ _ => h))
  cases hf : e.flush with
  | error f =>
    rw [hf] at he'
    cases he'
  | ok e₁ =>
    rw [hf] at he'
    cases he'
    exact h.flushWithin hf

theorem update_accounts (writes : List Write) (h : e.Accounts roll past) :
    (update writes).Leads e (fun _ e' => e'.Accounts roll past) fun _ e' => e'.Accounts roll past := by
  refine Leads.bind ((aloof_requireLive.accounts h).mono (fun _ e h => ?_) fun _ _ h => h)
  have written : Accounts roll past { e with model := (e.model.writeAll writes).1 } :=
    h.apart ⟨rfl, rfl, rfl, [], rfl⟩
  refine leads_get (Leads.bind (leads_set (Leads.bind ?_)))
  exact (flush_accounts written).mono (fun _ _ h => leads_pure h) fun _ _ h => h

/-- A listener that is attached is given the next number. -/
theorem subscribe_accounts (name : String) (fireNow : Bool) (listener : Listener)
    (h : e.Accounts roll past) : (subscribe name fireNow listener).Leads e
      (fun id e' => id = e.nextListener ∧
        e'.Accounts (Function.update roll e.nextListener (some (name, listener))) past)
      fun _ e' => e'.Accounts (Function.update roll e.nextListener (some (name, listener))) past := by
  have enrolled : e.Accounts (Function.update roll e.nextListener (some (name, listener))) past :=
    ⟨h.accounted.enrol _, h.valid⟩
  have known : Function.update roll e.nextListener (some (name, listener)) e.nextListener =
      some (name, listener) := Function.update_self ..
  generalize Function.update roll e.nextListener (some (name, listener)) = roll' at enrolled known
  refine Leads.bind ((aloof_prepare name).leads.mono (fun backend e₁ apart => ?_)
    fun _ _ apart => enrolled.apart apart)
  rw [← apart.nextListener] at known ⊢
  replace enrolled := enrolled.apart apart
  cases backend with
  | localSearch => exact leads_throw enrolled
  | rete =>
    refine leads_get (Leads.bind (leads_liftPlan (fun q hq => ?_) fun _ _ => enrolled))
    have named : q.name = name := (enrolled.valid name q (Catalog.query_ok hq)).1
    have joined := enrolled.accounted.join (s := ⟨e₁.nextListener, q, listener, []⟩) rfl
      (by rw [known, named]) rfl
    have numbered : Accounts roll' past { e₁ with nextListener := e₁.nextListener + 1 } :=
      ⟨enrolled.accounted.skip, enrolled.valid⟩
    refine Leads.bind (leads_set ?_)
    cases fireNow with
    | false => exact Leads.bind (leads_modify (leads_pure ⟨rfl, joined, enrolled.valid⟩))
    | true =>
      refine Leads.bind ((aloof_evaluate name .rete _).leads.mono (fun ts e₂ apart => ?_)
        fun _ _ apart => numbered.apart apart)
      obtain ⟨issues, history⟩ := apart.history
      have introducing : Introducing roll' past (e₂, ⟨e₁.nextListener, q, listener, []⟩) [] := by
        refine ⟨?_, apart.catalog ▸ enrolled.valid⟩
        show Accounted roll' (e₂.subscriptions ++ _) e₂.nextListener (e₂.history ++ past) []
        rw [apart.subscriptions, apart.nextListener, history, List.append_assoc]
        refine joined.quiet fun x hx => ?_
        obtain ⟨i, -, rfl⟩ := List.mem_map.1 hx
        exact ⟨rfl, rfl⟩
      have introduced := introducing.runAll ts
      rw [List.append_nil] at introduced
      have attached := introduced.attach (complaint?_of_introduced _ ts)
      refine leads_get ?_
      generalize Motif.runAll Engine.introduce (e₂, ⟨e₁.nextListener, q, listener, []⟩) ts = r at attached
      obtain ⟨⟨e₃, s⟩, answers⟩ := r
      dsimp only at attached ⊢
      split
      · exact Leads.bind (leads_set (leads_pure ⟨rfl, attached⟩))
      · refine Leads.bind (leads_set (Leads.bind ?_))
        exact (flush_accounts (attached.runQueued _)).mono (fun _ _ h => leads_pure ⟨rfl, h⟩)
          fun _ _ h => h

end Session
end Motif
