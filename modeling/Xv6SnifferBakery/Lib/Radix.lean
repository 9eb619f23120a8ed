import Mathlib.Algebra.Group.Nat.Defs
import Mathlib.Tactic.Common

/-!
# Radix trees in a memory of pages

A tree of tables in a memory whose pages hold words: a word may point to a table, and the digits of a number, the most significant first,
lead from the root to the table that has its entry. The tree is `Separate` when no page is a table twice. Then a store into one table
changes no other, and a new table changes the tree at the one place where it is linked.
-/

namespace Xv6SnifferBakery.Lib

/-- The root, the base of the digits, and the table that a word points to. -/
structure Radix (P W : Type) where
  root : P
  base : Nat
  child : W → Option P

namespace Radix

variable {P W : Type} (T : Radix P W) (mem : P → Nat → W)

/-- The table that the first `d` digits of a number lead to. They are given as a number, `x`. -/
def table : Nat → Nat → Option P
  | 0, x => if x = 0 then some T.root else none
  | d + 1, x => (table d (x / T.base)).bind (fun p => T.child (mem p (x % T.base)))

/-- The pages that are a table after at most `depth` digits. -/
def IsTable (depth : Nat) (p : P) : Prop :=
  ∃ d x, d ≤ depth ∧ T.table mem d x = some p

/-- No page is a table twice. -/
def Separate (depth : Nat) : Prop :=
  ∀ d e x y p, d ≤ depth → e ≤ depth → T.table mem d x = some p → T.table mem e y = some p → d = e ∧ x = y

/-- The word that a number leads to, with one more digit than it takes to the table. -/
def entry (depth v : Nat) : Option W :=
  (T.table mem depth (v / T.base)).map (fun p => mem p (v % T.base))

variable {T mem} {mem' : P → Nat → W} {depth d e x y i : Nat} {p q r : P}

@[simp] theorem table_root : T.table mem 0 0 = some T.root := rfl

theorem table_zero (h : T.table mem 0 x = some p) : x = 0 ∧ p = T.root := by
  rw [table] at h
  split at h
  · rename_i hx
    exact ⟨hx, (Option.some.inj h).symm⟩
  · cases h

theorem table_succ : T.table mem (d + 1) x = (T.table mem d (x / T.base)).bind (fun p => T.child (mem p (x % T.base))) := rfl

/-- One digit further. -/
theorem table_child (h : T.table mem d x = some p) (hi : i < T.base) : T.table mem (d + 1) (x * T.base + i) = T.child (mem p i) := by
  rw [table_succ, Nat.mul_comm, Nat.mul_add_div (by omega), Nat.div_eq_of_lt hi, Nat.add_zero, Nat.mul_add_mod, Nat.mod_eq_of_lt hi, h]
  rfl

/-- Below a table that is not there, there is none. -/
theorem table_none {k : Nat} (h : T.table mem d (x / T.base ^ k) = none) : T.table mem (d + k) x = none := by
  induction k generalizing x with
  | zero => rwa [Nat.pow_zero, Nat.div_one] at h
  | succ k ih =>
    rw [Nat.pow_succ', ← Nat.div_div_eq_div_mul] at h
    rw [← Nat.add_assoc, table_succ, ih h]
    rfl

/-- A number is its digit and the rest. -/
theorem eq_digit_iff (hi : i < T.base) : y / T.base = x ∧ y % T.base = i ↔ y = x * T.base + i := by
  rw [Nat.div_mod_unique (by omega), Nat.add_comm, Nat.mul_comm]
  exact ⟨fun h => h.1.symm, fun h => ⟨h.symm, hi⟩⟩

/-! ## Stores outside -/

/-- A table depends on the tables above it only. -/
theorem table_congr (h : ∀ e y p, e < d → T.table mem e y = some p → ∀ i, T.child (mem' p i) = T.child (mem p i)) :
    T.table mem' d x = T.table mem d x := by
  induction d generalizing x with
  | zero => rfl
  | succ d ih =>
    rw [table_succ, table_succ, ih (fun e y p he => h e y p (Nat.lt_succ_of_lt he))]
    cases hp : T.table mem d (x / T.base) with
    | none => rfl
    | some p => exact h d _ p (Nat.lt_succ_self d) hp _

/-- What leaves the tables alone leaves the tree alone. -/
theorem table_frame (h : ∀ p, T.IsTable mem depth p → mem' p = mem p) (hd : d ≤ depth) : T.table mem' d x = T.table mem d x :=
  table_congr (fun e y p he hp _ => by rw [h p ⟨e, y, by omega, hp⟩])

theorem entry_frame (h : ∀ p, T.IsTable mem depth p → mem' p = mem p) (v : Nat) : T.entry mem' depth v = T.entry mem depth v := by
  rw [entry, entry, table_frame h (Nat.le_refl depth)]
  cases hp : T.table mem depth (v / T.base) with
  | none => rfl
  | some p => rw [Option.map_some, Option.map_some, h p ⟨depth, _, Nat.le_refl depth, hp⟩]

/-- The same tables. -/
theorem Separate.congr (hs : T.Separate mem depth) (h : ∀ d x, d ≤ depth → T.table mem' d x = T.table mem d x) : T.Separate mem' depth := by
  intro d e x y p hd he hx hy
  rw [h d x hd] at hx
  rw [h e y he] at hy
  exact hs d e x y p hd he hx hy

theorem isTable_congr (h : ∀ d x, d ≤ depth → T.table mem' d x = T.table mem d x) : T.IsTable mem' depth p ↔ T.IsTable mem depth p := by
  constructor
  · rintro ⟨d, x, hd, hx⟩
    exact ⟨d, x, hd, by rw [← h d x hd, hx]⟩
  · rintro ⟨d, x, hd, hx⟩
    exact ⟨d, x, hd, by rw [h d x hd, hx]⟩

/-- A root without children is the whole tree. -/
theorem isTable_of_empty (hempty : ∀ i, T.child (mem T.root i) = none) (h : T.table mem d x = some p) : d = 0 ∧ x = 0 ∧ p = T.root := by
  induction d generalizing x p with
  | zero => exact ⟨rfl, table_zero h⟩
  | succ d ih =>
    rw [table_succ] at h
    obtain ⟨q, hq, hp⟩ := Option.bind_eq_some_iff.mp h
    obtain ⟨-, -, rfl⟩ := ih hq
    rw [hempty] at hp
    cases hp

theorem separate_of_empty (hempty : ∀ i, T.child (mem T.root i) = none) : T.Separate mem depth := by
  intro d e x y p _ _ hx hy
  obtain ⟨rfl, rfl, -⟩ := isTable_of_empty hempty hx
  obtain ⟨rfl, rfl, -⟩ := isTable_of_empty hempty hy
  exact ⟨rfl, rfl⟩

/-! ## A store into a last table -/

variable (mem mem') in
/-- The two memories differ in one word at most. -/
def Stored (q : P) (i : Nat) : Prop :=
  ∀ r j, (r = q → j ≠ i) → mem' r j = mem r j

/-- The tables are where they were. -/
theorem Stored.table (hs : T.Separate mem depth) (hq : T.table mem depth x = some q) (h : Stored mem mem' q i) (hd : d ≤ depth) :
    T.table mem' d y = T.table mem d y := by
  refine table_congr (fun e z p he hp j => ?_)
  -- a table above is not this one
  have hne : p ≠ q := by
    rintro rfl
    have := (hs e depth z x p (by omega) (Nat.le_refl depth) hp hq).1
    omega
  rw [h p j (fun hpq => absurd hpq hne)]

/-- The entry is the word stored, and every other entry is what it was. -/
theorem Stored.entry (hs : T.Separate mem depth) (hq : T.table mem depth x = some q) (hi : i < T.base) (h : Stored mem mem' q i) (v : Nat) :
    T.entry mem' depth v = if v = x * T.base + i then some (mem' q i) else T.entry mem depth v := by
  rw [Radix.entry, Radix.entry, h.table hs hq (Nat.le_refl depth)]
  by_cases hv : v = x * T.base + i
  · obtain ⟨hx, hm⟩ := (eq_digit_iff hi).mpr hv
    rw [if_pos hv, hx, hm, hq]
    rfl
  · rw [if_neg hv]
    cases hp : T.table mem depth (v / T.base) with
    | none => rfl
    | some p =>
      rw [Option.map_some, Option.map_some, h p _ ?_]
      rintro rfl hj
      exact hv ((eq_digit_iff hi).mp ⟨(hs _ _ _ _ p (Nat.le_refl depth) (Nat.le_refl depth) hp hq).2, hj⟩)

/-! ## A new table -/

variable (T mem mem') in
/-- A page `p` has been emptied and linked to by word `i` of table `q`. -/
structure Linked (q : P) (i : Nat) (p : P) : Prop where
  empty : ∀ j, T.child (mem' p j) = none
  slot : T.child (mem' q i) = some p
  frame : ∀ r j, r ≠ p → (r = q → j ≠ i) → mem' r j = mem r j

namespace Linked

variable (hs : T.Separate mem depth) (hd : d < depth) (hq : T.table mem d x = some q) (hi : i < T.base)
  (hnone : T.child (mem q i) = none) (hfresh : ¬ T.IsTable mem depth p) (h : Linked T mem mem' q i p)

include hs hd hq hi hnone hfresh h

/-- The tree has the new table and is otherwise what it was. -/
theorem table (he : e ≤ depth) : T.table mem' e y = if e = d + 1 ∧ y = x * T.base + i then some p else T.table mem e y := by
  induction e generalizing y with
  | zero => rw [if_neg (fun hc => absurd hc.1 (by omega))]; rfl
  | succ e ih =>
    rw [table_succ, ih (Nat.le_of_succ_le he), table_succ]
    by_cases hup : e = d + 1 ∧ y / T.base = x * T.base + i
    · -- below the new table there is nothing, and there was nothing
      rw [if_pos hup, if_neg (by omega), Option.bind_some, h.empty, hup.1, hup.2, table_child hq hi, hnone]
      rfl
    · rw [if_neg hup]
      cases hr : T.table mem e (y / T.base) with
      | none =>
        rw [if_neg ?_]
        · rfl
        · rintro ⟨hed, rfl⟩
          obtain ⟨hx, -⟩ := (eq_digit_iff (y := x * T.base + i) hi).mpr rfl
          rw [hx, Nat.succ_inj.mp hed, hq] at hr
          cases hr
      | some r =>
        have hrp : r ≠ p := by
          rintro rfl
          exact hfresh ⟨e, _, by omega, hr⟩
        rw [Option.bind_some, Option.bind_some]
        by_cases hslot : e = d ∧ y = x * T.base + i
        · obtain ⟨hx, hm⟩ := (eq_digit_iff hi).mpr hslot.2
          rw [hx, hslot.1, hq] at hr
          obtain rfl := Option.some.inj hr
          rw [if_pos ⟨congrArg Nat.succ hslot.1, hslot.2⟩, hm, h.slot]
        · rw [if_neg (fun hc => hslot ⟨Nat.succ_inj.mp hc.1, hc.2⟩), h.frame r _ hrp ?_]
          rintro rfl hj
          obtain ⟨hed, hyx⟩ := hs e d _ x r (by omega) (by omega) hr hq
          exact hslot ⟨hed, (eq_digit_iff hi).mp ⟨hyx, hj⟩⟩

theorem isTable (ht : T.IsTable mem' depth r) : r = p ∨ T.IsTable mem depth r := by
  obtain ⟨e, y, he, hy⟩ := ht
  rw [h.table hs hd hq hi hnone hfresh he] at hy
  split at hy
  · exact Or.inl (Option.some.inj hy).symm
  · exact Or.inr ⟨e, y, he, hy⟩

theorem separate : T.Separate mem' depth := by
  intro a b y z r ha hb hy hz
  rw [h.table hs hd hq hi hnone hfresh ha] at hy
  rw [h.table hs hd hq hi hnone hfresh hb] at hz
  split at hy
  · rename_i hya
    obtain rfl := Option.some.inj hy
    split at hz
    · rename_i hzb
      exact ⟨hya.1.trans hzb.1.symm, hya.2.trans hzb.2.symm⟩
    · exact absurd ⟨b, z, hb, hz⟩ hfresh
  · split at hz
    · obtain rfl := Option.some.inj hz
      exact absurd ⟨a, y, ha, hy⟩ hfresh
    · exact hs a b y z r ha hb hy hz

/-- The tables that were there still are. -/
theorem kept (he : e ≤ depth) (hr : T.table mem e y = some r) : T.table mem' e y = some r := by
  rw [h.table hs hd hq hi hnone hfresh he, if_neg, hr]
  rintro ⟨rfl, rfl⟩
  rw [table_child hq hi, hnone] at hr
  cases hr

/-- The entries are those that were there, and the words of a new last table. -/
theorem entry (v : Nat) : T.entry mem' depth v =
    if d + 1 = depth ∧ v / T.base = x * T.base + i then some (mem' p (v % T.base)) else T.entry mem depth v := by
  rw [Radix.entry, Radix.entry, h.table hs hd hq hi hnone hfresh (Nat.le_refl depth)]
  by_cases hv : d + 1 = depth ∧ v / T.base = x * T.base + i
  · rw [if_pos ⟨hv.1.symm, hv.2⟩, if_pos hv]
    rfl
  · rw [if_neg (fun hc => hv ⟨hc.1.symm, hc.2⟩), if_neg hv]
    cases hr : T.table mem depth (v / T.base) with
    | none => rfl
    | some r =>
      rw [Option.map_some, Option.map_some, h.frame r _ ?_ ?_]
      · rintro rfl
        exact hfresh ⟨depth, _, Nat.le_refl depth, hr⟩
      · rintro rfl
        have := (hs depth d _ x r (Nat.le_refl depth) (by omega) hr hq).1
        omega

end Linked

end Radix

end Xv6SnifferBakery.Lib
