import Mathlib.Tactic.Common

/-!
# Labelled transition systems

A system is a step relation between states, labelled by actions. `Run` is a finite run with the list of its actions, in order.
An invariant is proved by one step lemma, for every step that a guard admits.
-/

namespace Xv6SnifferBakery.Lib

variable {σ α : Type}

/-- A finite run of the step relation, with the actions it took, oldest first. -/
inductive Run (step : σ → α → σ → Prop) : σ → List α → σ → Prop where
  | nil (s : σ) : Run step s [] s
  | snoc {s t u : σ} {as : List α} {a : α} : Run step s as t → step t a u → Run step s (as ++ [a]) u

namespace Run

variable {step step' : σ → α → σ → Prop} {s t u : σ} {as bs : List α} {a : α}

/-- One step is a run. -/
theorem single (h : step s a t) : Run step s [a] t :=
  (Run.nil s).snoc h

/-- Runs compose. -/
theorem append (h : Run step s as t) (h' : Run step t bs u) : Run step s (as ++ bs) u := by
  induction h' with
  | nil => rwa [List.append_nil]
  | snoc _ hs ih =>
    rw [← List.append_assoc]
    exact ih.snoc hs

/-- A run of one system is a run of another that has all its steps. -/
theorem mono (hsub : ∀ s a t, step s a t → step' s a t) (h : Run step s as t) : Run step' s as t := by
  induction h with
  | nil => exact Run.nil _
  | snoc _ hs ih => exact ih.snoc (hsub _ _ _ hs)

/-- A run with a record beside it, where every step has one. -/
theorem beside {β : Type} {step' : σ × β → α → σ × β → Prop} (hstep : ∀ s a t b, step s a t → ∃ c, step' (s, b) a (t, c)) (b : β)
    (h : Run step s as t) : ∃ c, Run step' (s, b) as (t, c) := by
  induction h with
  | nil => exact ⟨b, Run.nil _⟩
  | snoc _ hs ih =>
    obtain ⟨c, hr⟩ := ih
    obtain ⟨d, hd⟩ := hstep _ _ _ c hs
    exact ⟨d, hr.snoc hd⟩

/-- The same, where the record is a function of the actions. -/
theorem fold {β : Type} {step' : σ × β → α → σ × β → Prop} (f : β → α → β) (hstep : ∀ s a t b, step s a t → step' (s, b) a (t, f b a))
    (b : β) (h : Run step s as t) : Run step' (s, b) as (t, as.foldl f b) := by
  induction h with
  | nil => exact Run.nil _
  | snoc _ hs ih =>
    rw [List.foldl_append]
    exact ih.snoc (hstep _ _ _ _ hs)

/-- A run of one system as a run of another, whose actions are those of the first under other names. -/
theorem map {β : Type} {step' : σ → β → σ → Prop} (f : α → β) (hsub : ∀ s a t, step s a t → step' s (f a) t) (h : Run step s as t) :
    Run step' s (as.map f) t := by
  induction h with
  | nil => exact Run.nil _
  | snoc _ hs ih =>
    rw [List.map_append]
    exact ih.snoc (hsub _ _ _ hs)

/-- A run of one system goes along with a run of another, where every step of the first does, from states that correspond to states
that correspond. -/
theorem simulate {τ β : Type} {step' : τ → β → τ → Prop} {P : σ → τ → Prop}
    (hstep : ∀ s a t x, step s a t → P s x → ∃ bs y, Run step' x bs y ∧ P t y) (h : Run step s as t) {x : τ} (hx : P s x) :
    ∃ bs y, Run step' x bs y ∧ P t y := by
  induction h with
  | nil => exact ⟨[], x, Run.nil _, hx⟩
  | snoc _ hs ih =>
    obtain ⟨bs, y, hr, hy⟩ := ih
    obtain ⟨bs', z, hr', hz⟩ := hstep _ _ _ _ hs hy
    exact ⟨_, z, hr.append hr', hz⟩

/-- The last step of a run. -/
theorem last (h : Run step s (as ++ [a]) u) : ∃ t, Run step s as t ∧ step t a u := by
  obtain ⟨bs, hbs⟩ : ∃ bs, bs = as ++ [a] := ⟨_, rfl⟩
  rw [← hbs] at h
  cases h with
  | nil => exact absurd hbs.symm (List.append_ne_nil_of_right_ne_nil _ (List.cons_ne_nil _ _))
  | snoc hr hs =>
    obtain ⟨rfl, hlast⟩ := List.append_inj' hbs rfl
    obtain rfl := List.singleton_inj.mp hlast
    exact ⟨_, hr, hs⟩

/-- A run without actions stays where it is. -/
theorem eq_of_nil (h : Run step s [] t) : t = s := by
  generalize hn : ([] : List α) = bs at h
  cases h with
  | nil => rfl
  | snoc => simp at hn

/-- A run of one action is a step. -/
theorem of_single (h : Run step s [a] t) : step s a t := by
  have hlast : ∃ u, Run step s [] u ∧ step u a t := last h
  obtain ⟨u, hnil, hs⟩ := hlast
  rwa [hnil.eq_of_nil] at hs

/-- Actions that a step function takes one after the other are a run. -/
theorem of_foldlM {f : σ → α → Option σ} (h : as.foldlM f s = some t) : Run (fun s a t => f s a = some t) s as t := by
  induction as generalizing s with
  | nil =>
    obtain rfl := Option.some.inj h
    exact Run.nil _
  | cons a as ih =>
    rw [List.foldlM_cons] at h
    obtain ⟨u, hu, hrest⟩ := Option.bind_eq_some_iff.mp h
    exact (single hu).append (ih hrest)

/-- What every step preserves holds at the end of a run that starts in it. -/
theorem invariant (P : σ → Prop) (hstep : ∀ s a t, P s → step s a t → P t) (h : Run step s as t) (h0 : P s) : P t := by
  induction h with
  | nil => exact h0
  | snoc _ hs ih => exact hstep _ _ _ ih hs

end Run

/-- The steps of a system that a guard on the state before and the action admits. -/
def Guarded (G : σ → α → Prop) (step : σ → α → σ → Prop) (s : σ) (a : α) (t : σ) : Prop :=
  G s a ∧ step s a t

/-- A run all of whose actions meet a guard on actions. -/
theorem Run.guard {step : σ → α → σ → Prop} {G : α → Prop} {s t : σ} {as : List α} (h : Run step s as t) (hG : ∀ a ∈ as, G a) :
    Run (Guarded (fun _ a => G a) step) s as t := by
  induction h with
  | nil => exact Run.nil _
  | snoc _ hs ih =>
    refine (ih (fun a ha => hG a (List.mem_append_left _ ha))).snoc ⟨hG _ ?_, hs⟩
    exact List.mem_append_right _ (List.mem_singleton_self _)

/-- Where the steps are a function of the state and the action, a run is determined by its actions. -/
theorem Run.unique {step : σ → α → σ → Prop} {s t t' : σ} {as : List α} (hdet : ∀ s a t t', step s a t → step s a t' → t = t')
    (h : Run step s as t) (h' : Run step s as t') : t = t' := by
  induction h generalizing t' with
  | nil => exact h'.eq_of_nil.symm
  | snoc _ hs ih =>
    obtain ⟨u, hr, hu⟩ := h'.last
    obtain rfl := ih hr
    exact hdet _ _ _ _ hs hu

/-- A run and one more step are all guarded when the run is and the last action meets the guard. -/
theorem Run.guarded_snoc {step : σ → α → σ → Prop} {G : σ → α → Prop} {s t u : σ} {as : List α} {a : α}
    (hdet : ∀ s a t t', step s a t → step s a t' → t = t') (h : Run step s as t) (hs : step t a u) :
    Run (Guarded G step) s (as ++ [a]) u ↔ Run (Guarded G step) s as t ∧ G t a := by
  constructor
  · intro hr
    obtain ⟨t', hr', hG, -⟩ := hr.last
    obtain rfl := h.unique hdet (hr'.mono (fun _ _ _ hg => hg.2))
    exact ⟨hr', hG⟩
  · rintro ⟨hr, hG⟩
    exact hr.snoc ⟨hG, hs⟩

/-- The states a system reaches from a set of initial states. -/
def Reach (init : σ → Prop) (step : σ → α → σ → Prop) (t : σ) : Prop :=
  ∃ s as, init s ∧ Run step s as t

theorem Reach.of_init {init : σ → Prop} {step : σ → α → σ → Prop} {s : σ} (h : init s) : Reach init step s :=
  ⟨s, [], h, Run.nil s⟩

/-- A reachable state extended by a run is reachable. -/
theorem Reach.run {init : σ → Prop} {step : σ → α → σ → Prop} {s t : σ} {as : List α} (h : Reach init step s)
    (hr : Run step s as t) : Reach init step t := by
  obtain ⟨s₀, bs, h₀, hb⟩ := h
  exact ⟨s₀, bs ++ as, h₀, hb.append hr⟩

/-- A property of the initial states that every step preserves is a property of every reachable state. -/
theorem Reach.invariant {init : σ → Prop} {step : σ → α → σ → Prop} (P : σ → Prop) (hinit : ∀ s, init s → P s)
    (hstep : ∀ s a t, P s → step s a t → P t) {t : σ} (h : Reach init step t) : P t := by
  obtain ⟨s, as, h₀, hr⟩ := h
  exact hr.invariant P hstep (hinit s h₀)

end Xv6SnifferBakery.Lib
