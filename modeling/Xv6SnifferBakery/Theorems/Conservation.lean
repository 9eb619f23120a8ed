import Xv6SnifferBakery.Lemmas.Replay

/-!
# Physical pages are conserved

No call loses a page, frees one twice or gives one to two owners, as long as no process shrinks past its trapframe page.
`sys_sbrk` sets no bound on a lazy growth, so a size can be raised to the trampoline; a shrink from there frees the trapframe page
that the process still uses.
-/

namespace Xv6SnifferBakery.Kernel

open Lib

/-- In every run from boot in which no process shrinks past its trapframe page, every page is in exactly one place. -/
theorem conserved_run {s t : Sys} {as : List Action} (hb : Boot s) (h : Run SafeStep s as t) :
    Conserved t ∧ t.total.Nodup := by
  have hinv : SysInv t := h.invariant SysInv (fun _ _ _ hs hg => SafeStep.inv hs hg) hb.inv
  exact ⟨hinv.pages, hinv.pages.nodup⟩

/-- A child that writes to its lazily grown heap, exits and is waited for. -/
def shortLife : List Action :=
  [.fork 0, .sbrk 1 8192 false, .fault 1 16384 .write, .fault 1 16384 .write, .store 1 16384 7, .exit 1 0, .wait 0 0]

theorem conserved_run_small : ∃ t, Run SafeStep (smallBoot smallFiles 32) shortLife t ∧ Conserved t ∧ t.total.Nodup := by
  have hex : (replaySafe (smallBoot smallFiles 32) shortLife).isSome = true := by decide +kernel
  obtain ⟨t, ht⟩ := Option.isSome_iff_exists.mp hex
  exact ⟨t, replaySafe_run ht, conserved_run smallBoot_init (replaySafe_run ht)⟩

/-- A lazy growth to the trampoline, and a shrink by one page. -/
def shrinkPastTrapframe : List Action :=
  List.replicate 127 (.sbrk 0 2147483647 false) ++ [.sbrk 0 2147463295 false, .sbrk 0 (-4096) false]

/-- A page on the free list that a process still has as its trapframe is in two places. -/
theorem not_conserved_of_trapframe {s : Sys} {i : Nat} {pa : Pa} (hi : i < nProc) (ht : (s.proc i).trapframe = some pa)
    (hfree : pa ∈ s.m.freelist) : ¬Conserved s := by
  intro hc
  have hle : free s.m + (s.proc i).owned ≤ s.total := Sys.owned_le hi
  have hn := Multiset.nodup_of_le hle hc.nodup
  refine Multiset.disjoint_left.mp (Multiset.nodup_add.mp hn).2.2 (Multiset.mem_coe.mpr hfree) ?_
  rw [Proc.owned, ht, slot_some]
  exact Multiset.mem_add.mpr (Or.inl (Multiset.mem_singleton_self pa))

/-- Pages are not conserved by every run: a shrink past the trapframe page frees it. -/
theorem not_conserved_shrink : ¬∀ s t as, Boot s → Run Step s as t → Conserved t := by
  intro hall
  have hex : (replay (smallBoot smallFiles 32) shrinkPastTrapframe).any
      (fun t => (t.proc 0).trapframe.any (fun pa => pa ∈ t.m.freelist)) = true := by decide +kernel
  obtain ⟨t, ht, h⟩ := (Option.any_eq_true _ _).mp hex
  obtain ⟨pa, hpa, hfree⟩ := (Option.any_eq_true _ _).mp h
  exact not_conserved_of_trapframe (by decide) hpa (by simpa using hfree) (hall _ _ _ smallBoot_init (replay_run ht))

end Xv6SnifferBakery.Kernel
