import Xv6SnifferBakery.Theorems.Conservation

/-!
# A failed `exec`

`kexec` records the segments of the new program in `p->segments`, and its inode in `p->exec_inode`, while it scans the program
headers; every later failure returns to the old image with the new program's segments. The caller is left intact exactly when the
call fails before the scan, or the scan writes what was there already.
-/

namespace Xv6SnifferBakery.Kernel

open Lib

/-- The image of a process: its memory, what it is loaded from, and its registers. -/
structure Intact (p p' : Proc) : Prop where
  pagetable : p'.pagetable = p.pagetable
  sz : p'.sz = p.sz
  segments : p'.segments = p.segments
  execInode : p'.execInode = p.execInode
  text : p'.textStart = p.textStart ∧ p'.textEnd = p.textEnd
  data : p'.dataStart = p.dataStart ∧ p'.dataEnd = p.dataEnd
  heapStart : p'.heapStart = p.heapStart
  stackTop : p'.stackTop = p.stackTop
  pages : p'.pages = p.pages
  trapframe : p'.trapframe = p.trapframe ∧ p'.tf = p.tf

theorem Intact.refl (p : Proc) : Intact p p := ⟨rfl, rfl, rfl, rfl, ⟨rfl, rfl⟩, ⟨rfl, rfl⟩, rfl, rfl, rfl, rfl, rfl⟩

/-- A process that is intact loads its pages as before. -/
theorem Intact.execPage {p p' : Proc} (h : Intact p p') (fs : Fs) (va : Nat) :
    Kernel.execPage fs p' va = Kernel.execPage fs p va ∧ execPerm p' va = execPerm p va := by
  have hseg : findSegment p' va = findSegment p va := by rw [findSegment, h.segments, findSegment]
  exact ⟨by rw [Kernel.execPage, hseg, h.execInode, Kernel.execPage], by rw [execPerm, hseg, execPerm]⟩

/-- What the scan of file `ip` writes to the process is there already: the segments up to the first program header that is refused,
and the inode when none is. -/
def scanKeeps (p : Proc) (dip : Inode) (ip : Nat) : Prop :=
  (scanFile dip).1.segs = p.segments ∧ ((scanFile dip).2 = true → p.execInode = some ip)

/-- The call gets to the scan only when the path names an ELF file and there are three pages for a table; then the scan writes
nothing new. -/
def execKeeps (m : Machine) (p : Proc) (path : List Char) : Prop :=
  ∀ fs₀ fs ip, ExecFile m p path fs₀ fs ip → 3 ≤ m.freelist.length → scanKeeps p (fs.inode ip) ip

/-- The image after the scan: it is intact exactly when the scan wrote nothing new. -/
theorem intact_scan {p : Proc} {segs : List SegmentInfo} {ino : Option Nat} :
    Intact p { p with segments := segs, execInode := ino } ↔ segs = p.segments ∧ ino = p.execInode :=
  ⟨fun h => ⟨h.segments, h.execInode⟩,
    fun ⟨hs, hi⟩ => ⟨rfl, rfl, hs, hi, ⟨rfl, rfl⟩, ⟨rfl, rfl⟩, rfl, rfl, rfl, rfl, rfl⟩⟩

/-- A failed `exec` leaves the caller intact exactly when it fails before the scan or the scan writes nothing new. -/
theorem exec_failure_intact_iff {m m' : Machine} {p p' : Proc} {path : List Char} {argv : List (List Byte)}
    (hargs : ∀ arg ∈ argv, arg.length < pgSize) (h : kexec m p path argv = .ok (m', p', none)) :
    Intact p p' ↔ execKeeps m p path := by
  have hok : ArgsOk argv := fun arg ha => lt_trans (hargs arg ha) (by decide)
  obtain ⟨-, hfail, -⟩ | ⟨argc, fs₀, fs, ip, mem, pt, sp, hn, -⟩ := kexec_cases hok h
  · cases hfail with
    | noFile hn =>
      refine iff_of_true (Intact.refl p) (fun fs₀ fs ip hfile => ?_)
      have := hn.symm.trans hfile.name
      simp at this
    | notElf hn hl helf =>
      refine iff_of_true (Intact.refl p) (fun fs₀ fs ip hfile => ?_)
      have hname := hn.symm.trans hfile.name
      simp only [Except.ok.injEq, Prod.mk.injEq, Option.some.injEq] at hname
      obtain ⟨rfl, rfl⟩ := hname
      obtain rfl := Except.ok.inj (hl.symm.trans hfile.lock)
      exact absurd hfile.elf helf
    | noTable _ hp =>
      have hfew := (procPagetable_iff hp).not.mp (by simp)
      exact iff_of_true (Intact.refl p) (fun _ _ _ _ hlen => absurd hlen hfew)
    | scan hfile hp hbad =>
      rename_i fs₀ fs ip m₁ pt
      have hlen : 3 ≤ m.freelist.length := (procPagetable_iff hp).mp rfl
      constructor
      · intro hi fs₀' fs' ip' hfile' _
        obtain ⟨rfl, rfl⟩ := hfile.unique hfile'
        exact ⟨hi.segments, fun hgood => by rw [hbad] at hgood; nomatch hgood⟩
      · intro hk
        exact intact_scan.mpr ⟨(hk fs₀ fs ip hfile hlen).1, rfl⟩
    | image hfile hp hgood =>
      rename_i fs₀ fs ip m₁ pt
      have hlen : 3 ≤ m.freelist.length := (procPagetable_iff hp).mp rfl
      constructor
      · intro hi fs₀' fs' ip' hfile' _
        obtain ⟨rfl, rfl⟩ := hfile.unique hfile'
        exact ⟨hi.segments, fun _ => hi.execInode.symm⟩
      · intro hk
        have := hk fs₀ fs ip hfile hlen
        exact intact_scan.mpr ⟨this.1, (this.2 hgood).symm⟩
  · nomatch hn

/-- An argument that fills the one stack page. -/
def bigArg : List Byte := List.replicate 4095 120

theorem bigArg_fits : ∀ arg ∈ [bigArg], arg.length < pgSize := by
  intro arg harg
  rw [List.mem_singleton.mp harg, bigArg, List.length_replicate]
  decide

/-- With an argument too long for the stack, the first process fails to execute another program when its segments are in place, and does
not stay intact; its own program leaves it so at the same exit. -/
theorem exec_failure_intact_iff_args :
    (∃ m' p', kexec (smallBoot twoPrograms 32).m ((smallBoot twoPrograms 32).proc 0) "/echo".toList [bigArg] = .ok (m', p', none) ∧
      ¬Intact ((smallBoot twoPrograms 32).proc 0) p' ∧
      ¬execKeeps (smallBoot twoPrograms 32).m ((smallBoot twoPrograms 32).proc 0) "/echo".toList) ∧
    ∃ m' p', kexec (smallBoot twoPrograms 32).m ((smallBoot twoPrograms 32).proc 0) "/init".toList [bigArg] = .ok (m', p', none) ∧
      p'.segments = ((smallBoot twoPrograms 32).proc 0).segments ∧
      (Intact ((smallBoot twoPrograms 32).proc 0) p' ↔
        execKeeps (smallBoot twoPrograms 32).m ((smallBoot twoPrograms 32).proc 0) "/init".toList) := by
  have hecho : (kexec (smallBoot twoPrograms 32).m ((smallBoot twoPrograms 32).proc 0) "/echo".toList [bigArg]).toOption.any
      (fun r => r.2.2.isNone && decide (r.2.1.segments ≠ ((smallBoot twoPrograms 32).proc 0).segments)) = true := by decide +kernel
  have hinit : (kexec (smallBoot twoPrograms 32).m ((smallBoot twoPrograms 32).proc 0) "/init".toList [bigArg]).toOption.any
      (fun r => r.2.2.isNone && decide (r.2.1.segments = ((smallBoot twoPrograms 32).proc 0).segments)) = true := by decide +kernel
  constructor
  · obtain ⟨⟨m', p', o⟩, hk, ho⟩ := ok_of_any hecho
    simp only [Bool.and_eq_true, decide_eq_true_eq] at ho
    obtain rfl : o = none := Option.isNone_iff_eq_none.mp ho.1
    have hchanged : ¬Intact ((smallBoot twoPrograms 32).proc 0) p' := fun h => ho.2 h.segments
    exact ⟨m', p', hk, hchanged, mt (exec_failure_intact_iff bigArg_fits hk).mpr hchanged⟩
  · obtain ⟨⟨m', p', o⟩, hk, ho⟩ := ok_of_any hinit
    simp only [Bool.and_eq_true, decide_eq_true_eq] at ho
    obtain rfl : o = none := Option.isNone_iff_eq_none.mp ho.1
    exact ⟨m', p', hk, ho.2, exec_failure_intact_iff bigArg_fits hk⟩

/-- A failed `exec` does not always leave the caller intact: with an argument too long for the stack, `echo` is refused when its
segments are in place. -/
theorem exec_failure_not_intact : ¬∀ m m' p p' path argv, kexec m p path argv = .ok (m', p', none) → Intact p p' := by
  intro hall
  have hex : (kexec (smallBoot twoPrograms 32).m ((smallBoot twoPrograms 32).proc 0) "/echo".toList [bigArg]).toOption.any
      (fun r => r.2.2.isNone && decide (r.2.1.segments ≠ ((smallBoot twoPrograms 32).proc 0).segments)) = true := by decide +kernel
  obtain ⟨⟨m', p', o⟩, hk, ho⟩ := ok_of_any hex
  simp only [Bool.and_eq_true, decide_eq_true_eq] at ho
  obtain rfl : o = none := Option.isNone_iff_eq_none.mp ho.1
  exact ho.2 (hall _ _ _ _ _ _ hk).segments

end Xv6SnifferBakery.Kernel
