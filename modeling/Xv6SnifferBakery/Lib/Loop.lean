import Mathlib.Tactic.Common

/-!
# Failing computations and counted loops

Two small tools for programs written in `Except`: taking a bind apart, and the counted loop `for (i = a; i < a + n; i++)`
whose body may fail, with the rule that carries an invariant through it.
-/

namespace Xv6SnifferBakery.Lib

variable {ε α β σ : Type}

/-- A bind that succeeds ran its first part to a value and its second part on that value. -/
theorem bind_ok {x : Except ε α} {f : α → Except ε β} {b : β} (h : (x >>= f) = .ok b) :
    ∃ a, x = .ok a ∧ f a = .ok b := by
  cases x with
  | error e => nomatch h
  | ok a => exact ⟨a, rfl, h⟩

/-- A bind that fails failed in its first part, or ran it to a value on which its second part failed. -/
theorem bind_error {x : Except ε α} {f : α → Except ε β} {e : ε} (h : (x >>= f) = .error e) :
    x = .error e ∨ ∃ a, x = .ok a ∧ f a = .error e := by
  cases x with
  | error e' =>
    cases h
    exact Or.inl rfl
  | ok a => exact Or.inr ⟨a, rfl, h⟩

/-- A bind whose first part succeeds is its second part. -/
theorem bind_of_ok {x : Except ε α} {a : α} (h : x = .ok a) (f : α → Except ε β) : (x >>= f) = f a := by
  rw [h]
  rfl

/-- A computation whose first result is kept. -/
theorem fst_ok {x : Except ε (α × β)} {a : α} (h : Prod.fst <$> x = .ok a) : ∃ b, x = .ok (a, b) := by
  cases x with
  | error e => nomatch h
  | ok p =>
    obtain rfl := Except.ok.inj h
    exact ⟨p.2, rfl⟩

/-- A computation checked by evaluating it: it succeeds, with a result that passes the test. -/
theorem ok_of_any {x : Except ε α} {f : α → Bool} (h : x.toOption.any f = true) : ∃ a, x = .ok a ∧ f a = true := by
  cases x with
  | error e => nomatch h
  | ok a => exact ⟨a, rfl, h⟩

/-- The loop `for (i = a; i < a + n; i++) body(i)`, stopped by the first failure. -/
def forFrom (body : Nat → σ → Except ε σ) : Nat → Nat → σ → Except ε σ
  | _, 0, s => .ok s
  | i, n + 1, s => body i s >>= forFrom body (i + 1) n

@[simp] theorem forFrom_zero (body : Nat → σ → Except ε σ) (i : Nat) (s : σ) : forFrom body i 0 s = .ok s := rfl

/-- An invariant indexed by the loop counter that the body carries from `i` to `i + 1` holds at the end of the loop. -/
theorem forFrom_inv {body : Nat → σ → Except ε σ} (P : Nat → σ → Prop) {a n : Nat} {s s' : σ}
    (h : forFrom body a n s = .ok s') (h0 : P a s)
    (hstep : ∀ i t t', a ≤ i → i < a + n → P i t → body i t = .ok t' → P (i + 1) t') : P (a + n) s' := by
  induction n generalizing a s with
  | zero =>
    cases h
    exact h0
  | succ n ih =>
    obtain ⟨t, ht, h⟩ := bind_ok h
    have h1 : P (a + 1) t := hstep a s t (Nat.le_refl a) (by omega) h0 ht
    have := ih h h1 (fun i u u' hi hlt hP hb => hstep i u u' (by omega) (by omega) hP hb)
    rwa [show a + 1 + n = a + (n + 1) by omega] at this

/-- A loop whose turns go from one known state to the next. -/
theorem forFrom_eq {body : Nat → σ → Except ε σ} (f : Nat → σ) {a n : Nat}
    (h : ∀ i, a ≤ i → i < a + n → body i (f i) = .ok (f (i + 1))) : forFrom body a n (f a) = .ok (f (a + n)) := by
  induction n generalizing a with
  | zero => rfl
  | succ n ih =>
    have hrest := ih (a := a + 1) (fun i hi hlt => h i (by omega) (by omega))
    rw [show a + 1 + n = a + (n + 1) by omega] at hrest
    rw [← hrest]
    exact bind_of_ok (h a (Nat.le_refl a) (by omega)) _

/-! ## Errors that do not happen -/

/-- A computation that does not fail with an error of a kind. -/
def Avoids (bad : ε → Prop) (x : Except ε α) : Prop := ∀ e, x = .error e → ¬bad e

namespace Avoids

variable {bad : ε → Prop} {x : Except ε α}

theorem ok (a : α) : Avoids bad (.ok a : Except ε α) := by
  intro e he
  cases he

theorem error {e : ε} (h : ¬bad e) : Avoids bad (.error e : Except ε α) := by
  intro e' he
  cases he
  exact h

theorem bind {f : α → Except ε β} (hx : Avoids bad x) (hf : ∀ a, x = .ok a → Avoids bad (f a)) : Avoids bad (x >>= f) := by
  intro e he
  cases x with
  | error e' =>
    cases he
    exact hx e rfl
  | ok a => exact hf a rfl e he

theorem map (f : α → β) (hx : Avoids bad x) : Avoids bad (f <$> x) := by
  intro e he
  cases x with
  | error e' =>
    cases he
    exact hx e rfl
  | ok a => nomatch he

theorem ite {c : Prop} [Decidable c] {y : Except ε α} (hx : c → Avoids bad x) (hy : ¬c → Avoids bad y) :
    Avoids bad (if c then x else y) := by
  split
  · rename_i h
    exact hx h
  · rename_i h
    exact hy h

/-- A loop avoids an error that its body avoids under an invariant. -/
theorem forFrom {body : Nat → σ → Except ε σ} (P : Nat → σ → Prop) {a n : Nat} {s : σ} (h0 : P a s)
    (hbody : ∀ i t, a ≤ i → i < a + n → P i t → Avoids bad (body i t))
    (hstep : ∀ i t t', a ≤ i → i < a + n → P i t → body i t = .ok t' → P (i + 1) t') : Avoids bad (Lib.forFrom body a n s) := by
  induction n generalizing a s with
  | zero => exact ok s
  | succ n ih =>
    refine bind (hbody a s (Nat.le_refl a) (by omega) h0) ?_
    intro t ht
    refine ih (hstep a s t (Nat.le_refl a) (by omega) h0 ht) ?_ ?_
    · intro i u hi hlt hP
      exact hbody i u (by omega) (by omega) hP
    · intro i u u' hi hlt hP hb
      exact hstep i u u' (by omega) (by omega) hP hb

end Avoids

end Xv6SnifferBakery.Lib
