import Xv6SnifferBakery.Lib.Text
import Xv6SnifferBakery.Sniffer.Inspector

/-!
# The rows of the hex dump

What the characters of a dump look like on the terminal, where the codes for colours take no room, and each row of the dump as one text:
its offset, the bytes with the gap in the middle, the filling of a short row, and the bytes as characters.
-/

namespace Xv6SnifferBakery.Sniffer

open Lib

/-! ## Characters -/

/-- `isprint`; the program stays in the C locale. -/
def isprint (b : UInt8) : Bool := decide (0x20 ≤ b.toNat ∧ b.toNat ≤ 0x7e)

/-- `isprint(c) ? c : '.'` -/
def glyph (b : UInt8) : Char := if isprint b then Char.ofNat b.toNat else '.'

/-- The characters of a piece. -/
def Piece.render : Piece → List Char
  | .style _ => []
  | .text s => s.toList
  | .offset i => ' ' :: ' ' :: (hexPad 4 i ++ [':', ' '])
  | .octet _ b => hexPad 2 b.toNat ++ [' ']
  | .glyph _ b => [Sniffer.glyph b]

/-- The characters of the pieces. -/
def screen : List Shown → List Char
  | [] => []
  | .piece p :: rest => p.render ++ screen rest
  | _ :: rest => screen rest

@[simp] theorem screen_nil : screen [] = [] := rfl

@[simp] theorem screen_piece (p : Piece) (rest : List Shown) : screen (.piece p :: rest) = p.render ++ screen rest := rfl

@[simp] theorem screen_append (l l' : List Shown) : screen (l ++ l') = screen l ++ screen l' := by
  induction l with
  | nil => rfl
  | cons x l ih => cases x <;> simp [screen, ih]

theorem screen_flatMap {ι : Type} (l : List ι) (f : ι → List Shown) : screen (l.flatMap f) = l.flatMap fun i => screen (f i) := by
  induction l with
  | nil => rfl
  | cons i l ih => simp only [List.flatMap_cons, screen_append, ih]

/-- No byte is shown as a line feed. -/
theorem glyph_ne_newline (b : UInt8) : glyph b ≠ '\n' := by
  have h_char : ∀ n < 256, 0x20 ≤ n → Char.ofNat n ≠ '\n' := by decide +kernel
  unfold glyph isprint
  split
  · next h => exact h_char b.toNat b.toNat_lt (of_decide_eq_true h).1
  · decide

/-! ## A row -/

section
variable (m : Mem) (p : Ptr) (n k : Nat)

/-- How many bytes row `k` has. -/
def rowLen : Nat := min 16 (n - 16 * k)

/-- `"  %04x: "` -/
def rowHead : List Char := ' ' :: ' ' :: (hexPad 4 (16 * k) ++ [':', ' '])

/-- A byte, with the gap behind the eighth. -/
def rowByte (j : Nat) : List Char := hexPad 2 (m (p + (16 * k + j))).toNat ++ (' ' :: if j = 7 then [' '] else [])

/-- The columns of the bytes. -/
def rowHex : List Char := (List.range (rowLen n k)).flatMap (rowByte m p k)

/-- The filling of a short row, with the gap that stands for the one in the middle. -/
def rowFill : List Char := List.replicate (3 * (16 - rowLen n k)) ' ' ++ if 8 ≤ 16 - rowLen n k then [' '] else []

/-- The bytes as characters. -/
def rowAscii : List Char := (List.range' (16 * k) (rowLen n k)).map fun i => glyph (m (p + i))

/-- The row without its line feed. -/
def dumpRow : List Char := rowHead k ++ (rowHex m p n k ++ (rowFill n k ++ ('|' :: ' ' :: rowAscii m p n k)))

end

theorem screen_printPadding (m : Mem) (n : Nat) : screen ((printPadding n).out m) = List.replicate (3 * n) ' ' := by
  have h_spaces : (List.range n).flatMap (fun _ => [' ', ' ', ' ']) = List.replicate (3 * n) ' ' := by
    induction n with
    | zero => rfl
    | succ n ih => simp [List.range_succ, ih, Nat.mul_succ, List.replicate_add]
  simpa [printPadding, screen_flatMap, Piece.render] using h_spaces

theorem screen_printAscii (m : Mem) (p : Ptr) (first last : Nat) :
    screen ((printAscii p first last).out m) = (List.range' first (last + 1 - first)).map fun i => glyph (m (p + i)) := by
  simp [printAscii, screen_flatMap, Piece.render, List.map_eq_flatMap]

/-- What one round of the loop adds to its row. -/
theorem screen_printHexDumpByte (m : Mem) (p : Ptr) (n k j : Nat) (hj : j < rowLen n k) :
    screen ((printHexDumpByte p n (16 * k + j)).out m) =
      (if j = 0 then rowHead k else []) ++ (rowByte m p k j ++
        if j = rowLen n k - 1 then rowFill n k ++ ('|' :: ' ' :: (rowAscii m p n k ++ ['\n'])) else []) := by
  have h_lt : j < 16 := Nat.lt_of_lt_of_le hj (Nat.min_le_left _ _)
  have h_mod : (16 * k + j) % 16 = j := by omega
  have h_last : (j = 15 ∨ 16 * k + j + 1 = n) ↔ j = rowLen n k - 1 := by
    unfold rowLen at hj ⊢
    omega
  have h_start : 16 * k + j - j = 16 * k := by omega
  simp only [printHexDumpByte, Prog.out_bind, Prog.out_onlyIf, Prog.out_fetch, Prog.run_fetch, out_put, screen_append, screen_piece,
    screen_nil, apply_ite screen, h_mod, h_last, h_start, screen_printPadding, screen_printAscii, Piece.render, List.nil_append,
    List.append_nil]
  refine congrArg₂ (· ++ ·) ?_ ?_
  · split
    · next h_first => rw [h_first, Nat.add_zero, rowHead]
    · rfl
  · by_cases h_end : j = rowLen n k - 1
    · have h_width : 16 * k + j + 1 - 16 * k = rowLen n k := by omega
      have h_fill : (if j = 15 then 0 else 15 - j) = 16 - rowLen n k := by split <;> omega
      simp only [if_pos h_end, h_width, h_fill]
      simp [rowByte, rowFill, rowAscii]
    · simp only [if_neg h_end]
      simp [rowByte]

/-- A loop of the dump over one row prints the row. -/
theorem screen_dumpRow (m : Mem) (p : Ptr) (n k : Nat) (h_pos : 16 * k < n) :
    ((List.range (rowLen n k)).flatMap fun j => screen ((printHexDumpByte p n (16 * k + j)).out m)) = dumpRow m p n k ++ ['\n'] := by
  obtain ⟨c, hc⟩ : ∃ c, rowLen n k = c + 1 := ⟨rowLen n k - 1, by unfold rowLen; omega⟩
  have h_rounds : ((List.range (rowLen n k)).flatMap fun j => screen ((printHexDumpByte p n (16 * k + j)).out m)) =
      (List.range (c + 1)).flatMap fun j => (if j = 0 then rowHead k else []) ++ (rowByte m p k j ++
        if j = c then rowFill n k ++ ('|' :: ' ' :: (rowAscii m p n k ++ ['\n'])) else []) := by
    rw [hc]
    refine List.flatMap_congr fun j hj => ?_
    rw [screen_printHexDumpByte m p n k j (hc ▸ List.mem_range.mp hj), hc, Nat.add_sub_cancel]
  rw [h_rounds, flatMap_range_ends, dumpRow, rowHex, hc]
  simp only [List.append_assoc, List.cons_append]

/-- The whole dump is its rows, each with a line feed. -/
theorem screen_printFullHexDump (m : Mem) (p : Ptr) (n : Nat) :
    screen ((printFullHexDump p n).out m) = ((List.range ((n + 15) / 16)).map (dumpRow m p n)).flatMap (· ++ ['\n']) := by
  rw [printFullHexDump, Int.toNat_natCast, Prog.out_each, screen_flatMap, flatMap_range_rows (w := 16) (by decide), List.flatMap_map]
  refine List.flatMap_congr fun k hk => ?_
  have h_row : k < (n + 15) / 16 := List.mem_range.mp hk
  exact screen_dumpRow m p n k (by omega)

/-! ## Reading a row -/

/-- The offset a row shows. -/
def rowOffset (row : List Char) : Nat := hexValue ((row.drop 2).takeWhile (· ≠ ':'))

/-- The bytes in its columns. -/
def rowBytes (row : List Char) : List Nat :=
  hexPairs ((((row.dropWhile (· ≠ ':')).drop 2).takeWhile (· ≠ '|')).filter (· ≠ ' '))

/-- Where its characters begin. -/
def asciiColumn (row : List Char) : Nat := (row.takeWhile (· ≠ '|')).length + 2

section
variable (m : Mem) (p : Ptr) (n k : Nat)

theorem hexPad_ne {w n : Nat} {c d : Char} (hc : c ∈ hexPad w n) (hd : d ∉ hexAlphabet) : c ≠ d :=
  fun h_eq => hd (h_eq ▸ mem_hexPad hc)

theorem rowOffset_dumpRow : rowOffset (dumpRow m p n k) = 16 * k := by
  have h_digits : ∀ c ∈ hexPad 4 (16 * k), decide (c ≠ ':') = true :=
    fun c hc => decide_eq_true (hexPad_ne hc (by decide))
  simp only [rowOffset, dumpRow, rowHead, List.cons_append, List.drop_succ_cons, List.drop_zero, List.append_assoc]
  rw [List.takeWhile_append_of_pos h_digits]
  simp [hexValue_hexPad]

theorem mem_rowFill {c : Char} (hc : c ∈ rowFill n k) : c = ' ' := by
  rcases List.mem_append.mp hc with h_space | h_space
  · exact List.eq_of_mem_replicate h_space
  · split at h_space <;> simp_all

/-- The columns and the filling hold digits and spaces. -/
theorem mem_rowHex {c : Char} (hc : c ∈ rowHex m p n k ++ rowFill n k) : c = ' ' ∨ c ∈ hexAlphabet := by
  rcases List.mem_append.mp hc with hc | hc
  · obtain ⟨j, -, hj⟩ := List.mem_flatMap.mp hc
    rcases List.mem_append.mp hj with h_digit | h_space
    · exact Or.inr (mem_hexPad h_digit)
    · left
      split at h_space <;> simpa using h_space
  · exact Or.inl (mem_rowFill n k hc)

theorem mem_rowHead {c : Char} (hc : c ∈ rowHead k) : c = ' ' ∨ c = ':' ∨ c ∈ hexAlphabet := by
  simp only [rowHead, List.mem_cons, List.mem_append, List.not_mem_nil, or_false] at hc
  rcases hc with h | h | h | h | h
  · exact Or.inl h
  · exact Or.inl h
  · exact Or.inr (Or.inr (mem_hexPad h))
  · exact Or.inr (Or.inl h)
  · exact Or.inl h

/-- The characters up to the bar. -/
theorem mem_before_bar {c : Char} (hc : c ∈ rowHead k ++ (rowHex m p n k ++ rowFill n k)) : c = ' ' ∨ c = ':' ∨ c ∈ hexAlphabet := by
  rcases List.mem_append.mp hc with hc | hc
  · exact mem_rowHead k hc
  · exact (mem_rowHex m p n k hc).imp_right Or.inr

theorem length_rowHex : (rowHex m p n k).length = 3 * rowLen n k + if 8 ≤ rowLen n k then 1 else 0 := by
  have h_byte (j : Nat) : (rowByte m p k j).length = if j = 7 then 4 else 3 := by
    have h_two : (hexPad 2 (m (p + (16 * k + j))).toNat).length = 2 :=
      (length_hexPad_eq_iff (by decide) _).mpr (UInt8.toNat_lt _)
    rw [rowByte, List.length_append, h_two]
    split <;> rfl
  have h_all (c : Nat) : ((List.range c).flatMap (rowByte m p k)).length = 3 * c + if 8 ≤ c then 1 else 0 := by
    induction c with
    | zero => rfl
    | succ c ih =>
      rw [List.range_succ, List.flatMap_append, List.length_append, ih, List.flatMap_singleton, h_byte]
      split <;> split <;> split <;> omega
  exact h_all _

theorem length_rowFill : (rowFill n k).length = 3 * (16 - rowLen n k) + if 8 ≤ 16 - rowLen n k then 1 else 0 := by
  rw [rowFill, List.length_append, List.length_replicate]
  split <;> rfl

/-- The characters begin one column further right in a row of eight: it has the gap in the middle and the one that stands for it. -/
theorem asciiColumn_dumpRow :
    asciiColumn (dumpRow m p n k) = (hexPad 4 (16 * k)).length + 55 + if rowLen n k = 8 then 1 else 0 := by
  have h_before : ∀ c ∈ rowHead k ++ (rowHex m p n k ++ rowFill n k), decide (c ≠ '|') = true := by
    intro c hc
    rcases mem_before_bar m p n k hc with rfl | rfl | h
    · rfl
    · rfl
    · exact decide_eq_true fun h_eq => absurd (h_eq ▸ h) (by decide)
  have h_le : rowLen n k ≤ 16 := Nat.min_le_left _ _
  have h_row : dumpRow m p n k = rowHead k ++ (rowHex m p n k ++ rowFill n k) ++ '|' :: ' ' :: rowAscii m p n k := by
    simp [dumpRow]
  rw [asciiColumn, h_row, List.takeWhile_append_of_pos h_before]
  simp only [ne_eq, not_true_eq_false, decide_false, Bool.false_eq_true, not_false_eq_true, List.takeWhile_cons_of_neg, List.append_nil,
    List.length_append, length_rowHex, length_rowFill, rowHead, List.length_cons, List.length_nil]
  split <;> split <;> split <;> omega

theorem rowBytes_dumpRow : rowBytes (dumpRow m p n k) = (List.range (rowLen n k)).map fun j => (m (p + (16 * k + j))).toNat := by
  have h_head : ∀ c ∈ ' ' :: ' ' :: hexPad 4 (16 * k), decide (c ≠ ':') = true := by
    intro c hc
    simp only [List.mem_cons] at hc
    rcases hc with rfl | rfl | h
    · rfl
    · rfl
    · exact decide_eq_true (hexPad_ne h (by decide))
  have h_hex : ∀ c ∈ rowHex m p n k ++ rowFill n k, decide (c ≠ '|') = true := by
    intro c hc
    rcases mem_rowHex m p n k hc with rfl | h
    · rfl
    · exact decide_eq_true fun h_eq => absurd (h_eq ▸ h) (by decide)
  have h_row : dumpRow m p n k = (' ' :: ' ' :: hexPad 4 (16 * k)) ++ ':' :: ' ' ::
      ((rowHex m p n k ++ rowFill n k) ++ '|' :: ' ' :: rowAscii m p n k) := by
    simp [dumpRow, rowHead]
  have h_digits (j : Nat) : (rowByte m p k j).filter (· ≠ ' ') = hexPad 2 (m (p + (16 * k + j))).toNat := by
    have h_self : (hexPad 2 (m (p + (16 * k + j))).toNat).filter (· ≠ ' ') = hexPad 2 (m (p + (16 * k + j))).toNat :=
      List.filter_eq_self.mpr fun c hc => decide_eq_true (hexPad_ne hc (by decide))
    rw [rowByte, List.filter_append, h_self]
    split <;> simp
  have h_fill : (rowFill n k).filter (· ≠ ' ') = [] :=
    List.filter_eq_nil_iff.mpr fun c hc => by simp [mem_rowFill n k hc]
  have h_columns : (rowHex m p n k ++ rowFill n k).filter (· ≠ ' ') =
      ((List.range (rowLen n k)).map fun j => (m (p + (16 * k + j))).toNat).flatMap (hexPad 2) := by
    rw [List.filter_append, h_fill, List.append_nil, rowHex, List.filter_flatMap, List.flatMap_map]
    exact List.flatMap_congr fun j _ => h_digits j
  have h_from : (':' :: ' ' :: ((rowHex m p n k ++ rowFill n k) ++ '|' :: ' ' :: rowAscii m p n k)).dropWhile (· ≠ ':') =
      ':' :: ' ' :: ((rowHex m p n k ++ rowFill n k) ++ '|' :: ' ' :: rowAscii m p n k) := rfl
  have h_to : ((rowHex m p n k ++ rowFill n k) ++ '|' :: ' ' :: rowAscii m p n k).takeWhile (· ≠ '|') =
      rowHex m p n k ++ rowFill n k := by
    rw [List.takeWhile_append_of_pos h_hex]
    exact List.append_nil _
  rw [rowBytes, h_row, List.dropWhile_append_of_pos h_head, h_from, List.drop_succ_cons, List.drop_succ_cons, List.drop_zero, h_to,
    h_columns]
  refine hexPairs_flatMap _ fun b hb => ?_
  obtain ⟨j, -, rfl⟩ := List.mem_map.mp hb
  exact UInt8.toNat_lt _

theorem newline_not_mem_dumpRow : '\n' ∉ dumpRow m p n k := by
  have h_row : dumpRow m p n k = rowHead k ++ (rowHex m p n k ++ rowFill n k) ++ '|' :: ' ' :: rowAscii m p n k := by
    simp [dumpRow]
  rw [h_row]
  intro h_mem
  rcases List.mem_append.mp h_mem with h | h
  · rcases mem_before_bar m p n k h with h | h | h <;> exact absurd h (by decide)
  · simp only [rowAscii, List.mem_cons, List.mem_map] at h
    rcases h with h | h | ⟨i, -, h⟩
    · exact absurd h (by decide)
    · exact absurd h (by decide)
    · exact glyph_ne_newline _ h

end

/-- The lines of the dump are its rows. -/
theorem lines_printFullHexDump (m : Mem) (p : Ptr) (n : Nat) :
    lines (screen ((printFullHexDump p n).out m)) = (List.range ((n + 15) / 16)).map (dumpRow m p n) := by
  rw [screen_printFullHexDump]
  refine lines_flatMap _ fun row h_row => ?_
  obtain ⟨k, -, rfl⟩ := List.mem_map.mp h_row
  exact newline_not_mem_dumpRow m p n k

end Xv6SnifferBakery.Sniffer
