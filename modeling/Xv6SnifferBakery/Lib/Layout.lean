import Mathlib.Data.List.Basic
import Mathlib.Tactic.Common

/-!
# Chunks laid out in memory

A memory is a function from addresses to values, and a chunk is a list of values at an address. Chunks that keep apart can be written
one after the other: each is there at the end. Chunks that are pushed down from the top of a stack keep apart.
-/

namespace Xv6SnifferBakery.Lib

variable {α : Type}

/-- Values at an address and the ones after it. -/
structure Chunk (α : Type) where
  addr : Nat
  data : List α

namespace Chunk

variable {c e : Chunk α} {d d' : Nat → α} {a : Nat}

/-- The first address after a chunk. -/
def stop (c : Chunk α) : Nat := c.addr + c.data.length

/-- No address is in both chunks. -/
def Apart (c e : Chunk α) : Prop := c.stop ≤ e.addr ∨ e.stop ≤ c.addr

theorem Apart.symm (h : Apart c e) : Apart e c := Or.symm h

/-- The memory with a chunk written to it. -/
def write (d : Nat → α) (c : Chunk α) : Nat → α := fun a => if c.addr ≤ a then (c.data[a - c.addr]?).getD (d a) else d a

/-- A chunk is in memory. -/
def In (c : Chunk α) (d : Nat → α) : Prop := ∀ k x, c.data[k]? = some x → d (c.addr + k) = x

theorem write_of_not_mem (h : a < c.addr ∨ c.stop ≤ a) : write d c a = d a := by
  unfold write
  split
  · rename_i hle
    have hstop : c.addr + c.data.length ≤ a := h.resolve_left (by omega)
    rw [List.getElem?_eq_none (by omega)]
    rfl
  · rfl

theorem write_congr (h : d a = d' a) : write d c a = write d' c a := by
  unfold write
  rw [h]

theorem in_write : c.In (write d c) := by
  intro k x hx
  unfold write
  rw [if_pos (Nat.le_add_right _ _), Nat.add_sub_cancel_left, hx]
  rfl

/-- Writing a chunk leaves those that keep apart from it. -/
theorem In.write (h : c.In d) (ha : Apart c e) : c.In (write d e) := by
  intro k x hx
  have hk : k < c.data.length := (List.getElem?_eq_some_iff.mp hx).1
  rw [write_of_not_mem, h k x hx]
  unfold Apart stop at ha
  unfold stop
  omega

end Chunk

/-! ## Several chunks -/

variable {c : Chunk α} {cs es : List (Chunk α)} {d d' : Nat → α} {a top mid bottom : Nat}

/-- The memory with chunks written to it, in the order of the list. -/
def writeAll (d : Nat → α) (cs : List (Chunk α)) : Nat → α := cs.foldl Chunk.write d

theorem writeAll_append : writeAll d (cs ++ es) = writeAll (writeAll d cs) es := List.foldl_append

/-- What is written at an address depends only on what was there. -/
theorem writeAll_congr (h : d a = d' a) : writeAll d cs a = writeAll d' cs a := by
  induction cs generalizing d d' with
  | nil => exact h
  | cons c cs ih => exact ih (Chunk.write_congr h)

theorem Chunk.In.writeAll (h : c.In d) (ha : ∀ e ∈ cs, Apart c e) : c.In (Lib.writeAll d cs) := by
  induction cs generalizing d with
  | nil => exact h
  | cons e cs ih => exact ih (h.write (ha e List.mem_cons_self)) (fun x hx => ha x (List.mem_cons_of_mem _ hx))

/-- Chunks that keep apart are all in memory once they are written. -/
theorem in_writeAll (h : cs.Pairwise Chunk.Apart) (hc : c ∈ cs) : c.In (writeAll d cs) := by
  induction cs generalizing d with
  | nil => nomatch hc
  | cons e cs ih =>
    obtain ⟨hhead, htail⟩ := List.pairwise_cons.mp h
    rcases List.mem_cons.mp hc with rfl | hc
    · exact Chunk.in_write.writeAll hhead
    · exact ih htail hc

/-! ## Pushing down -/

/-- Chunks from `top` down to `bottom`, each below the ones before it. -/
def Descends (top : Nat) : List (Chunk α) → Nat → Prop
  | [], bottom => bottom ≤ top
  | c :: cs, bottom => c.stop ≤ top ∧ Descends c.addr cs bottom

theorem Descends.le (h : Descends top cs bottom) : bottom ≤ top := by
  induction cs generalizing top with
  | nil => exact h
  | cons c cs ih =>
    have hle := ih h.2
    have hstop := h.1
    unfold Chunk.stop at hstop
    omega

theorem Descends.append (h : Descends top cs mid) (h' : Descends mid es bottom) : Descends top (cs ++ es) bottom := by
  induction cs generalizing top with
  | nil =>
    cases es with
    | nil => exact Nat.le_trans h' h
    | cons e es => exact ⟨Nat.le_trans h'.1 h, h'.2⟩
  | cons c cs ih => exact ⟨h.1, ih h.2⟩

/-- Every chunk lies between the ends. -/
theorem Descends.mem (h : Descends top cs bottom) (hc : c ∈ cs) : bottom ≤ c.addr ∧ c.stop ≤ top := by
  induction cs generalizing top with
  | nil => nomatch hc
  | cons e cs ih =>
    rcases List.mem_cons.mp hc with rfl | hc
    · exact ⟨h.2.le, h.1⟩
    · obtain ⟨hlow, hhigh⟩ := ih h.2 hc
      have hstop := h.1
      unfold Chunk.stop at hstop hhigh ⊢
      exact ⟨hlow, by omega⟩

/-- Chunks that are pushed down keep apart. -/
theorem Descends.pairwise (h : Descends top cs bottom) : cs.Pairwise Chunk.Apart := by
  induction cs generalizing top with
  | nil => exact List.Pairwise.nil
  | cons c cs ih => exact List.pairwise_cons.mpr ⟨fun e he => Or.inr (h.2.mem he).2, ih h.2⟩

end Xv6SnifferBakery.Lib
