import Mathlib.Data.List.Basic
import Mathlib.Logic.Function.Basic
import Mathlib.Tactic.Common

/-!
# Writes over a store

A store is a function from addresses to values, and a list of writes overlays it: the last write to an address is what stays.
-/

namespace Xv6SnifferBakery.Lib

variable {ι α : Type} [DecidableEq ι]

/-- A store after a list of writes, the oldest first. -/
def overlay (d : ι → α) (ws : List (ι × α)) : ι → α := ws.foldl (fun d w => Function.update d w.1 w.2) d

@[simp] theorem overlay_nil (d : ι → α) : overlay d [] = d := rfl

theorem overlay_append (d : ι → α) (ws vs : List (ι × α)) : overlay d (ws ++ vs) = overlay (overlay d ws) vs :=
  List.foldl_append

theorem overlay_snoc (d : ι → α) (ws : List (ι × α)) (b : ι) (v : α) :
    overlay d (ws ++ [(b, v)]) = Function.update (overlay d ws) b v := overlay_append d ws [(b, v)]

/-- An address that is not written keeps its value. -/
theorem overlay_of_not_mem {d : ι → α} {ws : List (ι × α)} {b : ι} (h : b ∉ ws.map Prod.fst) : overlay d ws b = d b := by
  induction ws generalizing d with
  | nil => rfl
  | cons w ws ih =>
    rw [List.map_cons, List.mem_cons, not_or] at h
    change overlay (Function.update d w.1 w.2) ws b = d b
    rw [ih h.2, Function.update_of_ne h.1]

end Xv6SnifferBakery.Lib
