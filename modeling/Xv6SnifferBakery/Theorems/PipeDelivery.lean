import Xv6SnifferBakery.Lemmas.Pipe

/-!
# Delivery through a pipe

`pipewrite` advances `nwrite` only after `copyin` has succeeded. `piperead` advances `nread` before `copyout`, so a byte whose
`copyout` fails is gone: no later call can read it.
-/

namespace Xv6SnifferBakery.Kernel

open Lib

namespace PipeSys

variable {s : PipeSys} {evs : List PipeEvent}

/-- The readers got the bytes of the writers in order, and those they did not get yet are still on the way. -/
def Delivers (evs : List PipeEvent) (s : PipeSys) : Prop :=
  delivered evs <+: accepted evs ∧ delivered evs ++ s.inHand ++ s.pi.buffered = accepted evs

theorem delivered_sublist (evs : List PipeEvent) : (delivered evs).Sublist ((copies evs).map Prod.fst) :=
  List.filter_sublist.map _

/-- All copied bytes are delivered exactly when no copy fails. -/
theorem delivered_eq_iff : delivered evs = (copies evs).map Prod.fst ↔ ∀ p a ch, PipeEvent.copyout p a ch false ∉ evs := by
  constructor
  · intro h p a ch hmem
    have hlen : ((copies evs).filter Prod.snd).length = (copies evs).length := by
      have := congrArg List.length h
      rwa [delivered, List.length_map, List.length_map] at this
    have hall := List.length_filter_eq_length_iff.mp hlen
    have hc : (ch, false) ∈ copies evs := List.mem_filterMap.mpr ⟨_, hmem, rfl⟩
    exact Bool.noConfusion (hall _ hc)
  · intro h
    rw [delivered, List.filter_eq_self.mpr]
    rintro ⟨ch, ok⟩ hmem
    obtain ⟨e, he, hc⟩ := List.mem_filterMap.mp hmem
    cases e with
    | copyout p a ch' ok' =>
      cases hc
      cases ok with
      | true => rfl
      | false => exact absurd he (h p a ch)
    | _ => cases hc

/-- The counters stay at most `PIPESIZE` apart and no byte is delivered twice or out of order; none is lost, exactly when no
`copyout` of a byte fails. -/
theorem pipe_delivery {data : Nat → Byte} (h : Run Step (start data) evs s) :
    (s.pi.nwrite - s.pi.nread).toNat ≤ pipeSize ∧ (delivered evs).Sublist (accepted evs) ∧
      (Delivers evs s ↔ ∀ p a ch, PipeEvent.copyout p a ch false ∉ evs) := by
  obtain ⟨q, hi, hacc⟩ := run_account h
  have hcopies : (copies evs).map Prod.fst <+: accepted evs := ⟨s.inHand ++ q, by rw [← List.append_assoc, hacc]⟩
  refine ⟨?_, (delivered_sublist evs).trans hcopies.sublist, ?_⟩
  · rw [hi.queue.spread]
    exact hi.queue.bound
  · rw [← delivered_eq_iff, Delivers, hi.queue.buffered]
    constructor
    · rintro ⟨-, heq⟩
      rw [← hacc, List.append_assoc, List.append_assoc] at heq
      exact List.append_cancel_right heq
    · intro heq
      rw [heq]
      exact ⟨hcopies, hacc⟩

/-- A writer puts two bytes into the pipe; the first reader's buffer is its text, which `copyout` refuses. -/
def lostByte : List PipeEvent :=
  [.pipewrite 0 4096 2, .acquire 0, .copyin 0 4096 (some 1), .copyin 0 4097 (some 2), .ret 0 2,
    .piperead 1 0 1, .acquire 1, .ready 1, .take 1 1, .copyout 1 0 1 false, .ret 1 0,
    .piperead 1 4096 1, .acquire 1, .ready 1, .take 1 2, .copyout 1 4096 2 true, .ret 1 1]

theorem lostByte_run : ∃ s, Run Step (start fun _ => 0) lostByte s := by
  have hsome : (lostByte.foldlM step (start fun _ => 0)).isSome = true := by decide
  obtain ⟨s, hs⟩ := Option.isSome_iff_exists.mp hsome
  exact ⟨s, Run.of_foldlM hs⟩

theorem pipe_delivery_lostByte :
    ∃ s, Run Step (start fun _ => 0) lostByte s ∧ (s.pi.nwrite - s.pi.nread).toNat ≤ pipeSize ∧
      (delivered lostByte).Sublist (accepted lostByte) ∧
      (Delivers lostByte s ↔ ∀ p a ch, PipeEvent.copyout p a ch false ∉ lostByte) := by
  obtain ⟨s, hs⟩ := lostByte_run
  exact ⟨s, hs, pipe_delivery hs⟩

/-- The second byte is delivered and the first is not. -/
theorem pipe_loses_byte :
    ∃ s, Run Step (start fun _ => 0) lostByte s ∧ accepted lostByte = [1, 2] ∧ delivered lostByte = [2] ∧
      ¬delivered lostByte <+: accepted lostByte := by
  obtain ⟨s, hs⟩ := lostByte_run
  exact ⟨s, hs, by decide, by decide, by decide⟩

end PipeSys

end Xv6SnifferBakery.Kernel
