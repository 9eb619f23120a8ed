import Mathlib.Algebra.Group.Nat.Defs
import Mathlib.Data.List.Basic

/-!
# Tables of numbers as text

Hexadecimal numbers of a least width, read back by their value; a loop over positions as a loop over rows of a width; and a text whose
lines end in a line feed.
-/

namespace Xv6SnifferBakery.Lib

/-! ## Hexadecimal numbers -/

def hexAlphabet : List Char := "0123456789abcdef".toList

/-- The value of a digit. -/
def hexVal (c : Char) : Nat := if c.isDigit then c.toNat - 48 else c.toNat - 87

/-- The value of a number, the first digit being the highest. -/
def hexValue (cs : List Char) : Nat := cs.foldl (fun n c => n * 16 + hexVal c) 0

/-- The number in lower case, filled with zeros to the width `w`. -/
def hexPad (w n : Nat) : List Char := List.replicate (w - (Nat.toDigits 16 n).length) '0' ++ Nat.toDigits 16 n

/-- Two digits at a time. -/
def hexPairs : List Char → List Nat
  | a :: b :: rest => hexValue [a, b] :: hexPairs rest
  | _ => []

theorem hexVal_digitChar : ∀ d < 16, hexVal (Nat.digitChar d) = d := by decide

theorem digitChar_mem : ∀ d < 16, Nat.digitChar d ∈ hexAlphabet := by decide

theorem hexValue_concat (cs : List Char) (c : Char) : hexValue (cs ++ [c]) = hexValue cs * 16 + hexVal c := by
  simp [hexValue]

theorem hexValue_toDigits (n : Nat) : hexValue (Nat.toDigits 16 n) = n := by
  induction n using Nat.strongRecOn with
  | ind n ih =>
    rw [Nat.toDigits_eq_if (by decide)]
    split
    · next h_lt => simp [hexValue, hexVal_digitChar n h_lt]
    · next h_ge =>
      rw [hexValue_concat, ih (n / 16) (by omega), hexVal_digitChar _ (Nat.mod_lt _ (by decide))]
      omega

theorem mem_toDigits (n : Nat) : ∀ c ∈ Nat.toDigits 16 n, c ∈ hexAlphabet := by
  induction n using Nat.strongRecOn with
  | ind n ih =>
    rw [Nat.toDigits_eq_if (by decide)]
    split
    · next h_lt =>
      intro c hc
      rw [List.mem_singleton.mp hc]
      exact digitChar_mem n h_lt
    · next h_ge =>
      intro c hc
      rcases List.mem_append.mp hc with hc | hc
      · exact ih (n / 16) (by omega) c hc
      · rw [List.mem_singleton.mp hc]
        exact digitChar_mem _ (Nat.mod_lt _ (by decide))

/-- Leading zeros do not count. -/
theorem hexValue_zeros (k : Nat) (cs : List Char) : hexValue (List.replicate k '0' ++ cs) = hexValue cs := by
  induction k with
  | zero => rfl
  | succ k ih => exact ih

/-- A number is read back whatever its width. -/
theorem hexValue_hexPad (w n : Nat) : hexValue (hexPad w n) = n := by
  rw [hexPad, hexValue_zeros, hexValue_toDigits]

theorem mem_hexPad {w n : Nat} {c : Char} (hc : c ∈ hexPad w n) : c ∈ hexAlphabet := by
  rcases List.mem_append.mp hc with hc | hc
  · rw [List.eq_of_mem_replicate hc]
    decide
  · exact mem_toDigits n c hc

theorem length_hexPad (w n : Nat) : (hexPad w n).length = max w (Nat.toDigits 16 n).length := by
  rw [hexPad, List.length_append, List.length_replicate]
  omega

/-- A number has its width exactly when it is small enough for it. -/
theorem length_hexPad_eq_iff {w : Nat} (hw : 0 < w) (n : Nat) : (hexPad w n).length = w ↔ n < 16 ^ w := by
  rw [length_hexPad, ← Nat.length_toDigits_le_iff (by decide) hw]
  omega

/-- Numbers of two digits, one behind the other, are read back. -/
theorem hexPairs_flatMap (ns : List Nat) (h : ∀ n ∈ ns, n < 256) : hexPairs (ns.flatMap (hexPad 2)) = ns := by
  induction ns with
  | nil => rfl
  | cons n ns ih =>
    have h_len : (hexPad 2 n).length = 2 := (length_hexPad_eq_iff (by decide) n).mpr (h n List.mem_cons_self)
    obtain ⟨a, b, h_ab⟩ := List.length_eq_two.mp h_len
    have h_val : hexValue [a, b] = n := by rw [← h_ab, hexValue_hexPad]
    rw [List.flatMap_cons, h_ab]
    change hexValue [a, b] :: hexPairs (ns.flatMap (hexPad 2)) = n :: ns
    rw [h_val, ih fun k hk => h k (List.mem_cons_of_mem _ hk)]

/-! ## Rows -/

variable {α : Type}

/-- A loop over `n` positions, row by row: all rows are of width `w`, but the last may be shorter. -/
theorem flatMap_range_rows {w : Nat} (hw : 0 < w) (n : Nat) (f : Nat → List α) :
    (List.range n).flatMap f =
      (List.range ((n + (w - 1)) / w)).flatMap fun k => (List.range (min w (n - w * k))).flatMap fun j => f (w * k + j) := by
  have h_full (q : Nat) : (List.range (w * q)).flatMap f =
      (List.range q).flatMap fun k => (List.range w).flatMap fun j => f (w * k + j) := by
    induction q with
    | zero => rfl
    | succ q ih => simp [Nat.mul_succ, List.range_add, List.range_succ, ih, List.flatMap_map]
  have h_rows (q r : Nat) (h_le : w * q ≤ r) :
      ((List.range q).flatMap fun k => (List.range (min w (r - w * k))).flatMap fun j => f (w * k + j)) =
        (List.range q).flatMap fun k => (List.range w).flatMap fun j => f (w * k + j) := by
    refine List.flatMap_congr fun k hk => ?_
    have h_k : w * (k + 1) ≤ w * q := Nat.mul_le_mul_left w (List.mem_range.mp hk)
    have h_min : min w (r - w * k) = w := by
      rw [Nat.mul_succ] at h_k
      omega
    rw [h_min]
  have h_split : w * (n / w) + n % w = n := Nat.div_add_mod n w
  have h_lt : n % w < w := Nat.mod_lt n hw
  by_cases h_mod : n % w = 0
  · have h_count : (n + (w - 1)) / w = n / w := by
      rw [Nat.div_eq_iff hw]
      constructor
      · rw [Nat.mul_comm]
        omega
      · rw [Nat.mul_comm]
        omega
    rw [h_count, h_rows _ _ (by omega), ← h_full]
    congr 2
    omega
  · have h_count : (n + (w - 1)) / w = n / w + 1 := by
      rw [Nat.div_eq_iff hw, Nat.add_mul, Nat.one_mul, Nat.mul_comm]
      omega
    have h_last : min w (n - w * (n / w)) = n % w := by omega
    have h_range : List.range n = List.range (w * (n / w)) ++ (List.range (n % w)).map (w * (n / w) + ·) := by
      rw [← List.range_add, h_split]
    rw [h_count, List.range_succ, List.flatMap_append, h_rows _ _ (by omega), ← h_full, List.flatMap_singleton, h_last, h_range,
      List.flatMap_append, List.flatMap_map]

/-- What the first and the last round of a loop add stands before and behind the rest. -/
theorem flatMap_range_ends (c : Nat) (h : Nat → List α) (a z : List α) :
    ((List.range (c + 1)).flatMap fun j => (if j = 0 then a else []) ++ (h j ++ if j = c then z else [])) =
      a ++ ((List.range (c + 1)).flatMap h ++ z) := by
  have h_last (g : Nat → List α) :
      ((List.range (c + 1)).flatMap fun j => g j ++ if j = c then z else []) = (List.range (c + 1)).flatMap g ++ z := by
    have h_before : ((List.range c).flatMap fun j => g j ++ if j = c then z else []) = (List.range c).flatMap g := by
      refine List.flatMap_congr fun j hj => ?_
      rw [if_neg (Nat.ne_of_lt (List.mem_range.mp hj)), List.append_nil]
    simp [List.range_succ, h_before]
  have h_first : ((List.range (c + 1)).flatMap fun j => (if j = 0 then a else []) ++ h j) = a ++ (List.range (c + 1)).flatMap h := by
    simp [List.range_succ_eq_map, List.flatMap_map]
  have h_assoc := h_last fun j => (if j = 0 then a else []) ++ h j
  rw [h_first] at h_assoc
  simpa only [List.append_assoc] using h_assoc

/-! ## Lines -/

/-- The lines of a text that ends in a line feed. -/
def lines (text : List Char) : List (List Char) := (text.splitOn '\n').dropLast

theorem lines_flatMap (rows : List (List Char)) (h : ∀ row ∈ rows, '\n' ∉ row) :
    lines (rows.flatMap (· ++ ['\n'])) = rows := by
  have h_split : (rows.flatMap (· ++ ['\n'])).splitOn '\n' = rows ++ [[]] := by
    induction rows with
    | nil => rfl
    | cons row rows ih =>
      have h_row : ∀ c ∈ row, (c == '\n') = false := by
        intro c hc
        exact beq_false_of_ne fun h_eq => h row List.mem_cons_self (h_eq ▸ hc)
      rw [List.flatMap_cons, List.append_assoc, List.singleton_append, List.splitOn_eq_splitOnP,
        List.splitOnP_append_cons_of_forall_mem h_row '\n' rfl, ← List.splitOn_eq_splitOnP,
        ih fun r hr => h r (List.mem_cons_of_mem _ hr), List.cons_append]
  rw [lines, h_split, List.dropLast_concat]

end Xv6SnifferBakery.Lib
