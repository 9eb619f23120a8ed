import Xv6SnifferBakery.Sniffer.Screen

/-!
# The hex dump

Every row shows its offset and its bytes, and the rows together give the dumped bytes back, whatever their number. The column where the
characters begin is the same in all rows but for two kinds: a row of exactly eight bytes has the gap behind the eighth byte and the one
that stands for it in shorter rows, and from 65536 on an offset takes five digits.
-/

namespace Xv6SnifferBakery.Sniffer

open Lib

/-- A dump that can be read back and whose columns are aligned. -/
structure Faithful (data : List UInt8) (rows : List (List Char)) : Prop where
  row : ∀ k row, rows[k]? = some row → rowOffset row = 16 * k ∧ rowBytes row = ((data.drop (16 * k)).take 16).map (·.toNat)
  lossless : rows.flatMap rowBytes = data.map (·.toNat)
  aligned : ∃ column, ∀ row ∈ rows, asciiColumn row = column

section
variable (m : Mem) (p : Ptr) (n : Nat)

/-- The bytes of a row are those of the data from its offset on. -/
theorem bytesAt_row (k : Nat) :
    (((bytesAt m p n).drop (16 * k)).take 16).map (·.toNat) =
      (List.range (rowLen n k)).map fun j => (m (p + (16 * k + j))).toNat := by
  apply List.ext_getElem?
  intro i
  by_cases h_i : i < rowLen n k
  · have h_lt : i < 16 ∧ 16 * k + i < n := by
      unfold rowLen at h_i
      omega
    simp [bytesAt, List.getElem?_drop, h_i, h_lt]
  · rw [List.getElem?_eq_none, List.getElem?_eq_none]
    · simpa using Nat.le_of_not_lt h_i
    · unfold rowLen at h_i
      simp only [bytesAt, List.length_map, List.length_take, List.length_drop, List.length_range]
      omega

theorem lossless_rows :
    ((List.range ((n + 15) / 16)).map (dumpRow m p n)).flatMap rowBytes = (bytesAt m p n).map (·.toNat) := by
  have h_rows := flatMap_range_rows (w := 16) (by decide) n fun i => [(m (p + i)).toNat]
  rw [List.flatMap_map]
  simp only [rowBytes_dumpRow, bytesAt, List.map_map]
  rw [List.map_eq_flatMap, Function.comp_def, h_rows]
  exact List.flatMap_congr fun k _ => List.map_eq_flatMap

/-- The rows are aligned exactly when none has eight bytes but the only one, and no offset takes five digits. -/
theorem aligned_iff :
    (∃ column, ∀ row ∈ (List.range ((n + 15) / 16)).map (dumpRow m p n), asciiColumn row = column) ↔
      n ≤ 65536 ∧ (n % 16 = 8 → n = 8) := by
  have h_width (k : Nat) : (hexPad 4 (16 * k)).length = 4 ↔ 16 * k < 65536 := length_hexPad_eq_iff (by decide) _
  have h_least (k : Nat) : 4 ≤ (hexPad 4 (16 * k)).length := by
    rw [length_hexPad]
    exact Nat.le_max_left _ _
  have h_mem (k : Nat) (h_k : 16 * k < n) : dumpRow m p n k ∈ (List.range ((n + 15) / 16)).map (dumpRow m p n) :=
    List.mem_map_of_mem (List.mem_range.mpr (by omega))
  constructor
  · rintro ⟨column, h_column⟩
    -- under another row, row `k` has to begin its characters where the first does
    have h_first (k : Nat) (h_k : 16 * k < n) (h_pos : 0 < k) : 16 * k < 65536 ∧ rowLen n k ≠ 8 := by
      have h_same := (h_column _ (h_mem k h_k)).trans (h_column _ (h_mem 0 (by omega))).symm
      have h_zero := (h_width 0).mpr (by decide)
      have h_full : rowLen n 0 = 16 := by
        unfold rowLen
        omega
      have h_k4 := h_least k
      rw [asciiColumn_dumpRow, asciiColumn_dumpRow, h_zero, h_full, if_neg (by decide : ¬ 16 = 8)] at h_same
      rw [← h_width]
      split at h_same <;> omega
    constructor
    · by_contra h_large
      exact absurd (h_first 4096 (by omega) (by decide)).1 (by decide)
    · intro h_mod
      by_contra h_ne
      refine (h_first (n / 16) (by omega) (by omega)).2 ?_
      unfold rowLen
      omega
  · rintro ⟨h_le, h_eight⟩
    refine ⟨59 + if n = 8 then 1 else 0, fun row h_row => ?_⟩
    obtain ⟨k, h_k, rfl⟩ := List.mem_map.mp h_row
    have h_lt := List.mem_range.mp h_k
    have h_four := (h_width k).mpr (by omega)
    have h_is : rowLen n k = 8 ↔ n = 8 := by
      unfold rowLen
      omega
    simp only [asciiColumn_dumpRow, h_four, h_is]

end

/-- For any number of bytes: the dump shows every offset and gives the bytes back with its columns aligned exactly when there are at most
65536 bytes and no last row of eight bytes under another row. -/
theorem hex_dump_faithful_iff (m : Mem) (p : Ptr) (n : Nat) :
    Faithful (bytesAt m p n) (lines (screen ((printFullHexDump p n).out m))) ↔ n ≤ 65536 ∧ (n % 16 = 8 → n = 8) := by
  rw [lines_printFullHexDump, ← aligned_iff m p n]
  constructor
  · exact Faithful.aligned
  · intro h_aligned
    refine ⟨?_, lossless_rows m p n, h_aligned⟩
    intro k row h_row
    rw [List.getElem?_map] at h_row
    obtain ⟨i, h_i, rfl⟩ := Option.map_eq_some_iff.mp h_row
    obtain rfl : k = i := (List.getElem?_eq_some_iff.mp h_i).2.symm.trans (by simp) |>.symm
    rw [bytesAt_row]
    exact ⟨rowOffset_dumpRow m p n k, rowBytes_dumpRow m p n k⟩

/-- Of 24 bytes, the row of eight has its characters one column further right. -/
theorem hex_dump_misaligned :
    ¬ ∀ (m : Mem) (p : Ptr) (n : Nat), Faithful (bytesAt m p n) (lines (screen ((printFullHexDump p n).out m))) := by
  intro h
  have h_columns : (lines (screen ((printFullHexDump packetPtr 24).out fun _ => 0))).map asciiColumn = [59, 60] := by decide +kernel
  obtain ⟨column, h_column⟩ := (h (fun _ => 0) packetPtr 24).aligned
  have h_all : ∀ k ∈ [59, 60], k = column := by
    rw [← h_columns]
    intro k hk
    obtain ⟨row, h_row, rfl⟩ := List.mem_map.mp hk
    exact h_column row h_row
  have h_59 := h_all 59 (by decide)
  have h_60 := h_all 60 (by decide)
  omega

end Xv6SnifferBakery.Sniffer
