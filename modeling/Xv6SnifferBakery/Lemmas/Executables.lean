import Xv6SnifferBakery.Lemmas.SlotRoom
import Xv6SnifferBakery.Lemmas.SwapFiles

/-!
# Executables stay allocated

A process holds a reference to its executable, so nobody frees it: in every state it can be locked, also after evictions that made a swap
file.
-/

namespace Xv6SnifferBakery.Kernel

open Lib

variable {s t : Sys} {a : Action} {i x : Nat} {m m' : Machine} {p p' : Proc} {fs : Fs} {r q : Multiset Nat}

/-- A run that leaves out a reference to an allocated inode keeps it allocated. -/
theorem FsRun.spares_type {y : Refs} {G : FsEvent → Prop} (hs : Sound ⟨fs, {x} + r, q⟩) (h : FsRun G ⟨fs, r, q⟩ y)
    (hfree : (fs.inode x).type ≠ .free) : (y.fs.inode x).type ≠ .free := by
  obtain ⟨⟨lost, hc⟩, -⟩ := hs
  have hc' : Counted (lost + {x}) ⟨fs, r, q⟩ := Counted.lose (by rwa [add_comm r])
  have hkeep := FsRun.keeps_lost hc' h (Multiset.mem_add.mpr (Or.inr (Multiset.mem_singleton_self x))) hfree
  rwa [hkeep]

/-- The references are counted, and the executables are allocated. -/
structure ExecInv (s : Sys) : Prop where
  holds : s.HoldsOk
  sound : Sound s.refs
  exec : ∀ k < nProc, ∀ x, (s.proc k).execInode = some x → (s.m.fs.inode x).type ≠ .free

theorem ExecInv.step (hs : ExecInv s) (h : Step s a t) : ExecInv t := by
  obtain ⟨hholds, lost, hrun, -⟩ := Step.refs hs.holds h
  have hsound : Sound t.refs := (hrun.sound hs.sound).lose
  refine ⟨hholds, hsound, ?_⟩
  intro k hk x hx
  cases ha : a.pages with
  | false =>
    obtain ⟨lost', hcalled, -⟩ := h.call_refs (O := fun _ => True) (W := fun _ => True) (F := fun _ => True) hs.holds ha
      (fun _ _ _ _ _ _ => ⟨trivial, trivial⟩) (fun _ _ _ _ _ => trivial) (fun _ _ _ _ _ _ => trivial) (fun _ _ => trivial)
    rcases hcalled.exec k hk x hx with ⟨⟨j, hj, hjx⟩, r, y, hr, hy, hspares⟩ | hvalid
    · have hsound' : Sound ⟨s.m.fs, {x} + r, s.files⟩ := hr ▸ hs.sound
      exact hy ▸ hspares.spares_type hsound' (hs.exec j hj x hjx)
    · exact hsound.2.read x hvalid
  | true =>
    obtain ⟨evs, i, m₀, m, p, -, hready, hm₀, hevs, hheld⟩ := h.pages ha
    have hpages : PageRun (fun _ => True) m₀ (s.proc i) m p := ⟨evs, hevs⟩
    have hfs : m₀.fs = s.m.fs := by rcases hm₀ with rfl | rfl <;> rfl
    have hsame : (s.proc k).execInode = some x := by
      rw [hheld.execInode] at hx
      by_cases hki : k = i
      · rw [hki, Sys.put_proc_self, hpages.image.holds.2.2.1] at hx
        rw [hki]
        exact hx
      · rwa [Sys.put_proc_of_ne _ _ _ hki] at hx
    obtain ⟨r, hr⟩ := execInode_held hk hsame
    obtain ⟨Q, hQ, -, -⟩ := sum_put (s := s) (h := Proc.files) hready.1
    have hfl : s.files = (s.proc i).files + Q := hQ
    have hsound' : Sound ⟨s.m.fs, {x} + r, (s.proc i).files + Q⟩ := hr ▸ hfl ▸ hs.sound
    rw [← hfs] at hsound'
    have hfree := hpages.refs.spares_type hsound' (by rw [hfs]; exact hs.exec k hk x hsame)
    rw [hheld.fs, Sys.put_m]
    exact hfree

theorem ColdBoot.execInv (h : ColdBoot s) : ExecInv s := by
  refine ⟨h.boot.counted.1, h.sound, ?_⟩
  intro k _ x hx
  obtain ⟨s₀, j, m₁, tf, pt, fs, ip, m, p, argc, hb⟩ := h.boot.booted
  have hsound := h.sound
  rw [hb.result] at hx hsound ⊢
  change ((s₀.put j m p).proc k).execInode = some x at hx
  by_cases hkj : k = j
  · rw [hkj, Sys.put_proc_self] at hx
    rcases (kexec_refs (O := fun _ => True) (W := fun _ => True) (F := fun _ => True) (r := 0) (q := 0) bootArgs_ok hb.exec).2 with
      ⟨-, hnone, -⟩ | ⟨ip', -, hip, hvalid, -⟩
    · rw [hnone] at hx
      cases hx
    · obtain rfl := Option.some.inj (hip.symm.trans hx)
      exact hsound.2.read ip' hvalid
  · rw [Sys.put_proc_of_ne _ _ _ hkj, hb.pre.proc] at hx
    cases hx

theorem reach_execInv (h : Reach ColdBoot Step t) : ExecInv t := by
  obtain ⟨s, as, hb, hr⟩ := h
  exact hr.invariant ExecInv (fun _ _ _ hs hstep => hs.step hstep) hb.execInv

/-- The executable of a process can be locked after every run of page events. -/
def ExecReady (m : Machine) (p : Proc) : Prop :=
  ∀ m' p', PageRun (fun _ => True) m p m' p' → ∀ x, p.execInode = some x → m'.fs.Lockable x

theorem ExecInv.ready (h : ExecInv s) (hi : i < nProc) : ExecReady s.m (s.proc i) := by
  intro m' p' hrun x hx
  obtain ⟨r, hr⟩ := execInode_held hi hx
  obtain ⟨Q, hQ, -, -⟩ := sum_put (s := s) (h := Proc.files) hi
  have hfl : s.files = (s.proc i).files + Q := hQ
  have hsound : Sound ⟨s.m.fs, {x} + r, (s.proc i).files + Q⟩ := hr ▸ hfl ▸ h.sound
  refine ⟨?_, Or.inr (hrun.refs.spares_type hsound (h.exec i hi x hx))⟩
  obtain ⟨⟨lost, hc⟩, -⟩ := (hrun.refs (r := {x} + r) (q := Q)).sound hsound
  refine hc.inodes.pos_iff.mpr ?_
  simp

end Xv6SnifferBakery.Kernel
