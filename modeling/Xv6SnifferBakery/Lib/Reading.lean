import Mathlib.Data.List.Basic

/-!
# Programs that read a memory

A program returns, reads an address and goes on with what it found, or puts out an item. Which addresses a run reads and what it
puts out are read off the same tree, so a bound on the reads is a statement about the program and not about an instrumented copy.
-/

namespace Xv6SnifferBakery.Lib

/-- A program over addresses `A` that hold a `V` and items `O`. -/
inductive Prog (A V O : Type) (α : Type) : Type where
  | ret (x : α)
  | ask (a : A) (k : V → Prog A V O α)
  | tell (o : O) (k : Prog A V O α)

namespace Prog

variable {A V O α β ι : Type}

/-- Sequential composition. -/
def bind : Prog A V O α → (α → Prog A V O β) → Prog A V O β
  | ret x, f => f x
  | ask a k, f => ask a fun v => (k v).bind f
  | tell o k, f => tell o (k.bind f)

instance : Monad (Prog A V O) where
  pure := ret
  bind := bind

/-- Read one address. -/
def fetch (a : A) : Prog A V O V := ask a ret

/-- Put out one item. -/
def emit (o : O) : Prog A V O Unit := tell o (ret ())

/-- Run a program when a condition holds. -/
def onlyIf (c : Prop) [Decidable c] (p : Prog A V O Unit) : Prog A V O Unit := if c then p else pure ()

/-- Run the body once for each entry. -/
def each (body : ι → Prog A V O Unit) : List ι → Prog A V O Unit
  | [] => pure ()
  | i :: is => do body i; each body is

/-- Read the addresses in turn. -/
def fetchAll : List A → Prog A V O (List V)
  | [] => pure []
  | a :: as => do
    let v ← fetch a
    let vs ← fetchAll as
    pure (v :: vs)

/-! ## What a run gives, reads and puts out -/

/-- The result over the memory `m`. -/
def run (m : A → V) : Prog A V O α → α
  | ret x => x
  | ask a k => run m (k (m a))
  | tell _ k => run m k

/-- The addresses read, in order. -/
def reads (m : A → V) : Prog A V O α → List A
  | ret _ => []
  | ask a k => a :: reads m (k (m a))
  | tell _ k => reads m k

/-- The items put out, in order. -/
def out (m : A → V) : Prog A V O α → List O
  | ret _ => []
  | ask a k => out m (k (m a))
  | tell o k => o :: out m k

/-- Every address read satisfies `P`. -/
def Keeps (P : A → Prop) (m : A → V) (p : Prog A V O α) : Prop := ∀ a ∈ p.reads m, P a

variable (m : A → V) (P : A → Prop)

@[simp] theorem run_pure (x : α) : (pure x : Prog A V O α).run m = x := rfl
@[simp] theorem reads_pure (x : α) : (pure x : Prog A V O α).reads m = [] := rfl
@[simp] theorem out_pure (x : α) : (pure x : Prog A V O α).out m = [] := rfl

@[simp] theorem run_fetch (a : A) : (fetch a : Prog A V O V).run m = m a := rfl
@[simp] theorem reads_fetch (a : A) : (fetch a : Prog A V O V).reads m = [a] := rfl
@[simp] theorem out_fetch (a : A) : (fetch a : Prog A V O V).out m = [] := rfl

@[simp] theorem run_emit (o : O) : (emit o : Prog A V O Unit).run m = () := rfl
@[simp] theorem reads_emit (o : O) : (emit o : Prog A V O Unit).reads m = [] := rfl
@[simp] theorem out_emit (o : O) : (emit o : Prog A V O Unit).out m = [o] := rfl

@[simp] theorem run_bind (p : Prog A V O α) (f : α → Prog A V O β) : (p >>= f).run m = (f (p.run m)).run m := by
  show (p.bind f).run m = _
  induction p with
  | ret x => rfl
  | ask a k ih => exact ih (m a)
  | tell o k ih => exact ih

@[simp] theorem reads_bind (p : Prog A V O α) (f : α → Prog A V O β) :
    (p >>= f).reads m = p.reads m ++ (f (p.run m)).reads m := by
  show (p.bind f).reads m = _
  induction p with
  | ret x => rfl
  | ask a k ih => simp only [bind, reads, run, ih, List.cons_append]
  | tell o k ih => exact ih

@[simp] theorem out_bind (p : Prog A V O α) (f : α → Prog A V O β) : (p >>= f).out m = p.out m ++ (f (p.run m)).out m := by
  show (p.bind f).out m = _
  induction p with
  | ret x => rfl
  | ask a k ih => exact ih (m a)
  | tell o k ih => simp only [bind, out, run, ih, List.cons_append]

/-! ## Conditions and loops -/

section
variable (c : Prop) {_ : Decidable c}

@[simp] theorem run_ite (p q : Prog A V O α) : (if c then p else q).run m = if c then p.run m else q.run m := apply_ite _ _ _ _

@[simp] theorem reads_ite (p q : Prog A V O α) : (if c then p else q).reads m = if c then p.reads m else q.reads m :=
  apply_ite _ _ _ _

@[simp] theorem out_ite (p q : Prog A V O α) : (if c then p else q).out m = if c then p.out m else q.out m := apply_ite _ _ _ _

@[simp] theorem out_onlyIf (p : Prog A V O Unit) : (onlyIf c p).out m = if c then p.out m else [] := by
  simp only [onlyIf, out_ite, out_pure]

end

@[simp] theorem reads_each (body : ι → Prog A V O Unit) (is : List ι) :
    (each body is).reads m = is.flatMap fun i => (body i).reads m := by
  induction is with
  | nil => rfl
  | cons i is ih => simp only [each, reads_bind, ih, List.flatMap_cons]

@[simp] theorem out_each (body : ι → Prog A V O Unit) (is : List ι) :
    (each body is).out m = is.flatMap fun i => (body i).out m := by
  induction is with
  | nil => rfl
  | cons i is ih => simp only [each, out_bind, ih, List.flatMap_cons]

@[simp] theorem run_fetchAll (as : List A) : (fetchAll as : Prog A V O (List V)).run m = as.map m := by
  induction as with
  | nil => rfl
  | cons a as ih => simp only [fetchAll, run_bind, run_fetch, run_pure, ih, List.map_cons]

@[simp] theorem reads_fetchAll (as : List A) : (fetchAll as : Prog A V O (List V)).reads m = as := by
  induction as with
  | nil => rfl
  | cons a as ih =>
    simp only [fetchAll, reads_bind, reads_fetch, reads_pure, ih, List.append_nil, List.cons_append, List.nil_append]

@[simp] theorem out_fetchAll (as : List A) : (fetchAll as : Prog A V O (List V)).out m = [] := by
  induction as with
  | nil => rfl
  | cons a as ih => simp only [fetchAll, out_bind, out_fetch, out_pure, ih, List.append_nil]

/-! ## The rules for bounds on the reads -/

@[simp] theorem keeps_pure (x : α) : (pure x : Prog A V O α).Keeps P m := by simp [Keeps]

@[simp] theorem keeps_fetch (a : A) : (fetch a : Prog A V O V).Keeps P m ↔ P a := by simp [Keeps]

@[simp] theorem keeps_emit (o : O) : (emit o : Prog A V O Unit).Keeps P m := by simp [Keeps]

@[simp] theorem keeps_bind (p : Prog A V O α) (f : α → Prog A V O β) :
    (p >>= f).Keeps P m ↔ p.Keeps P m ∧ (f (p.run m)).Keeps P m := by
  simp only [Keeps, reads_bind, List.mem_append, or_imp, forall_and]

@[simp] theorem keeps_ite (c : Prop) {_ : Decidable c} (p q : Prog A V O α) :
    (if c then p else q).Keeps P m ↔ (c → p.Keeps P m) ∧ (¬c → q.Keeps P m) := by
  by_cases h : c <;> simp [h]

@[simp] theorem keeps_onlyIf (c : Prop) {_ : Decidable c} (p : Prog A V O Unit) :
    (onlyIf c p).Keeps P m ↔ (c → p.Keeps P m) := by
  by_cases h : c <;> simp [onlyIf, h]

@[simp] theorem keeps_each (body : ι → Prog A V O Unit) (is : List ι) :
    (each body is).Keeps P m ↔ ∀ i ∈ is, (body i).Keeps P m := by
  simp only [Keeps, reads_each, List.mem_flatMap, forall_exists_index, and_imp]
  exact ⟨fun h i hi a ha => h a i hi ha, fun h a i hi ha => h i hi a ha⟩

@[simp] theorem keeps_fetchAll (as : List A) : (fetchAll as : Prog A V O (List V)).Keeps P m ↔ ∀ a ∈ as, P a := by
  simp only [Keeps, reads_fetchAll]

/-- Two bounds that agree on what is read are kept alike. -/
theorem Keeps.congr {P Q : A → Prop} {m : A → V} {p : Prog A V O α} (h : p.Keeps (fun a => P a ↔ Q a) m) :
    p.Keeps P m ↔ p.Keeps Q m :=
  ⟨fun hp a ha => (h a ha).mp (hp a ha), fun hq a ha => (h a ha).mpr (hq a ha)⟩

theorem Keeps.mono {P Q : A → Prop} {m : A → V} {p : Prog A V O α} (hp : p.Keeps P m) (h : ∀ a, P a → Q a) : p.Keeps Q m :=
  fun a ha => h a (hp a ha)

end Prog

end Xv6SnifferBakery.Lib
