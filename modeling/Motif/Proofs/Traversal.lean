import Mathlib.Data.List.Forall2
import Motif.Sequence

set_option autoImplicit false
namespace Motif

section traversal
variable {α β ε : Type} {l : List α}

theorem bind_ok {x : Except ε α} {g : α → Except ε β} {b : β} (h : (x >>= g) = .ok b) :
    ∃ a, x = .ok a ∧ g a = .ok b := by
  cases x with
  | error e => cases h
  | ok a => exact ⟨a, rfl, h⟩

theorem bind_of_ok {x : Except ε α} {g : α → Except ε β} {a : α} (h : x = .ok a) :
    (x >>= g) = g a := by
  rw [h]
  rfl

theorem mapM_ok {f : α → Except ε β} {g : α → β} (h : ∀ a ∈ l, f a = .ok (g a)) :
    l.mapM f = .ok (l.map g) := by
  induction l with
  | nil => rfl
  | cons a rest ih =>
    rw [List.mapM_cons, h a (by simp), ih fun b hb => h b (by simp [hb])]
    rfl

theorem forall₂_of_mapM {g : α → Except ε β} {bs : List β} (h : l.mapM g = .ok bs) :
    List.Forall₂ (fun a b => g a = .ok b) l bs := by
  induction l generalizing bs with
  | nil =>
    cases h
    exact .nil
  | cons a rest ih =>
    rw [List.mapM_cons] at h
    obtain ⟨b, hb, h⟩ := bind_ok h
    obtain ⟨more, hm, h⟩ := bind_ok h
    cases h
    exact .cons hb (ih hm)

theorem exists_of_forall₂ {R : α → β → Prop} {bs : List β} (h : List.Forall₂ R l bs) :
    (∀ a ∈ l, ∃ b ∈ bs, R a b) ∧ ∀ b ∈ bs, ∃ a ∈ l, R a b := by
  induction h with
  | nil => simp
  | cons hb _ ih =>
    exact ⟨List.forall_mem_cons.2 ⟨⟨_, List.mem_cons_self, hb⟩, fun a ha =>
        (ih.1 a ha).imp fun _ h => h.imp_left (List.mem_cons_of_mem _)⟩,
      List.forall_mem_cons.2 ⟨⟨_, List.mem_cons_self, hb⟩, fun b hb =>
        (ih.2 b hb).imp fun _ h => h.imp_left (List.mem_cons_of_mem _)⟩⟩

theorem exists_of_mapM {g : α → Except ε β} {bs : List β} (h : l.mapM g = .ok bs) :
    (∀ a ∈ l, ∃ b ∈ bs, g a = .ok b) ∧ ∀ b ∈ bs, ∃ a ∈ l, g a = .ok b :=
  exists_of_forall₂ (forall₂_of_mapM h)

theorem forall₂_trans {γ : Type} {R : α → β → Prop} {S : β → γ → Prop} {bs : List β} {cs : List γ}
    (h : List.Forall₂ R l bs) (h' : List.Forall₂ S bs cs) :
    List.Forall₂ (fun a c => ∃ b, R a b ∧ S b c) l cs := by
  induction h generalizing cs with
  | nil =>
    cases h'
    exact .nil
  | cons hb _ ih =>
    cases h' with
    | cons hc rest => exact .cons ⟨_, hb, hc⟩ (ih rest)

/-- If finitely many reasons are enough for each of some pairs, then they are enough for all. -/
theorem exists_support {γ ι : Type} {P : γ → Prop} {Fits : ι → γ → Prop} {R : ι → α → β → Prop}
    {bs : List β} (h : List.Forall₂ (fun a b => ∃ reasons : List γ, (∀ x ∈ reasons, P x) ∧
      ∀ i, (∀ x ∈ reasons, Fits i x) → R i a b) l bs) : ∃ reasons : List γ, (∀ x ∈ reasons, P x) ∧
        ∀ i, (∀ x ∈ reasons, Fits i x) → List.Forall₂ (R i) l bs := by
  induction h with
  | nil => exact ⟨[], by simp, fun _ _ => .nil⟩
  | cons first _ ih =>
    obtain ⟨C, hC, enough⟩ := first
    obtain ⟨D, hD, rest⟩ := ih
    refine ⟨C ++ D, List.forall_mem_append.2 ⟨hC, hD⟩, fun i fits => ?_⟩
    rw [List.forall_mem_append] at fits
    exact .cons (enough i fits.1) (rest i fits.2)

theorem mapM_ok_of_imp {f g : α → Except ε β} {bs : List β} (h : l.mapM f = .ok bs)
    (hfg : ∀ a ∈ l, ∀ b, f a = .ok b → g a = .ok b) : l.mapM g = .ok bs := by
  induction l generalizing bs with
  | nil => exact h
  | cons a rest ih =>
    rw [List.mapM_cons] at h ⊢
    obtain ⟨b, hb, h⟩ := bind_ok h
    obtain ⟨bs', hbs, h⟩ := bind_ok h
    rw [hfg a List.mem_cons_self b hb, show rest.mapM g = _ from
      ih hbs fun a' ha' => hfg a' (List.mem_cons_of_mem a ha')]
    exact h

theorem mapM_ok_or {g : α → Except ε β} {P : ε → Prop}
    (h : ∀ a ∈ l, (∃ b, g a = .ok b) ∨ ∃ e, P e ∧ g a = .error e) :
    (∃ bs, l.mapM g = .ok bs) ∨ ∃ e, P e ∧ l.mapM g = .error e := by
  induction l with
  | nil => exact .inl ⟨[], rfl⟩
  | cons a rest ih =>
    rw [List.forall_mem_cons] at h
    rw [List.mapM_cons]
    rcases h.1 with ⟨b, hb⟩ | ⟨e, he, hf⟩
    · rw [hb]
      rcases ih h.2 with ⟨bs, hbs⟩ | ⟨e, he, hf⟩
      · exact .inl ⟨b :: bs, bind_of_ok hbs⟩
      · refine .inr ⟨e, he, ?_⟩
        show rest.mapM g >>= _ = _
        rw [hf]
        rfl
    · exact .inr ⟨e, he, by rw [hf]; rfl⟩

theorem filterM_ok {f : α → Except ε Bool} {p : α → Bool} (h : ∀ a ∈ l, f a = .ok (p a)) :
    l.filterM f = .ok (l.filter p) := by
  have aux : ∀ (l acc : List α), (∀ a ∈ l, f a = .ok (p a)) →
      l.filterAuxM f acc = .ok ((l.filter p).reverse ++ acc) := by
    intro l
    induction l with
    | nil => exact fun acc _ => rfl
    | cons a rest ih =>
      intro acc h
      rw [List.filterAuxM, h a (by simp)]
      simp only [bind, Except.bind]
      rw [ih _ fun b hb => h b (by simp [hb])]
      cases hp : p a <;> simp [hp]
  rw [List.filterM, aux l [] h]
  simp [bind, Except.bind, pure, Except.pure]

theorem forM_ok {g : α → Except ε Unit} (h : l.forM g = .ok ()) {a : α} (ha : a ∈ l) :
    g a = .ok () := by
  induction l with
  | nil => cases ha
  | cons b rest ih =>
    obtain ⟨⟨⟩, hb, h⟩ := bind_ok (x := g b) h
    rcases List.mem_cons.1 ha with rfl | ha
    · exact hb
    · exact ih h ha

theorem forM_eq_ok {g : α → Except ε Unit} (h : ∀ a ∈ l, g a = .ok ()) : l.forM g = .ok () := by
  induction l with
  | nil => rfl
  | cons a rest ih =>
    show (g a >>= fun _ => rest.forM g) = .ok ()
    rw [h a List.mem_cons_self]
    exact ih fun b hb => h b (List.mem_cons_of_mem a hb)

end traversal

theorem runAll_keeps {σ α β : Type} {step : σ → α → σ × β} {I : σ → Prop}
    (h : ∀ s a, I s → I (step s a).1) {s : σ} (hs : I s) (l : List α) : I (runAll step s l).1 := by
  induction l generalizing s with
  | nil => exact hs
  | cons a rest ih =>
    rw [runAll_cons]
    exact ih (h s a hs)

end Motif
