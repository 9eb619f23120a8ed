import Xv6SnifferBakery.Kernel.System
import Xv6SnifferBakery.Lemmas.Tables

/-!
# Memory management leaves the rest of the machine alone

The functions of `kalloc.c` and `vm.c`, and those of `proc.c` that make and free address spaces, change the free list and the contents
of pages only, whatever table they are given.
-/

namespace Xv6SnifferBakery.Kernel

open Lib

variable {m m' : Machine} {pt pt' : PageTable}

/-- A loop whose passes leave the rest of the machine alone does. -/
theorem forFrom_env {σ : Type} {body : Nat → σ → Kern σ} {a n : Nat} {s t : σ} (machine : σ → Machine) (h : forFrom body a n s = .ok t)
    (hbody : ∀ i u v, body i u = .ok v → SameEnv (machine u) (machine v)) : SameEnv (machine s) (machine t) := by
  refine forFrom_inv (fun _ u => SameEnv (machine s) (machine u)) h (SameEnv.refl _) ?_
  intro i u v _ _ hu hb
  exact hu.trans (hbody i u v hb)

theorem kalloc_env {pa : Pa} (h : kalloc m = some (m', pa)) : SameEnv m m' := (kalloc_moves h).toSameEnv

theorem kfree_env {pa : Pa} (h : kfree m pa = .ok m') : SameEnv m m' := (kfree_moves h).toSameEnv

theorem mappages_env {va : Nat} {pa : Pa} {perm : Perm} {r : Bool} (h : mappages m pt va pgSize pa perm = .ok (m', pt', r)) :
    SameEnv m m' := by
  rcases mappages_page h with ⟨-, hs⟩ | ⟨-, hs⟩
  · exact hs.alloc.toSameEnv
  · exact hs.alloc.toSameEnv

theorem unmapPage_env {doFree : Bool} {va : Nat} (h : unmapPage doFree m pt va = .ok (m', pt')) : SameEnv m m' := by
  cases doFree with
  | false =>
    obtain ⟨rfl, -⟩ := unmapPage_keep h
    exact SameEnv.refl _
  | true =>
    rcases (unmapPage_spec h).freed with ⟨-, rfl⟩ | ⟨pte, -, hk⟩
    · exact SameEnv.refl _
    · exact kfree_env hk

theorem uvmunmap_env {doFree : Bool} {va n : Nat} (h : uvmunmap m pt va n doFree = .ok (m', pt')) : SameEnv m m' := by
  unfold uvmunmap at h
  split at h
  · nomatch h
  · exact forFrom_env Prod.fst h (fun _ _ _ hb => unmapPage_env hb)

theorem uvmdealloc_env {stackTop old new sz : Nat} (h : uvmdealloc m pt stackTop old new = .ok (m', pt', sz)) : SameEnv m m' := by
  unfold uvmdealloc at h
  split at h
  · obtain ⟨rfl, -⟩ := Prod.mk.inj (Except.ok.inj h)
    exact SameEnv.refl _
  · obtain ⟨⟨m₁, pt₁⟩, hl, h⟩ := bind_ok h
    obtain ⟨rfl, -⟩ := Prod.mk.inj (Except.ok.inj h)
    refine forFrom_env Prod.fst hl ?_
    intro i u v hb
    unfold deallocPage at hb
    split at hb
    · obtain rfl := Except.ok.inj hb
      exact SameEnv.refl _
    · exact uvmunmap_env hb

theorem uvmallocLoop_env {stackTop oldsz n a : Nat} {perm : Perm} {r : Bool}
    (h : uvmallocLoop stackTop oldsz perm n m pt a = .ok (m', pt', r)) : SameEnv m m' := by
  induction n generalizing m pt a with
  | zero =>
    obtain ⟨rfl, -⟩ := Prod.mk.inj (Except.ok.inj h)
    exact SameEnv.refl _
  | succ n ih =>
    rw [uvmallocLoop] at h
    split at h
    · obtain ⟨⟨m₁, pt₁, sz⟩, hd, h⟩ := bind_ok h
      obtain ⟨rfl, -⟩ := Prod.mk.inj (Except.ok.inj h)
      exact uvmdealloc_env hd
    · rename_i m₁ mem hk
      obtain ⟨⟨m₂, pt₂, b⟩, hm, h⟩ := bind_ok h
      have hmap : SameEnv m m₂ := ((kalloc_env hk).trans (SameEnv.fill _ _ _)).trans (mappages_env hm)
      cases b with
      | true => exact hmap.trans (ih h)
      | false =>
        obtain ⟨m₃, hf, h⟩ := bind_ok h
        obtain ⟨⟨m₄, pt₄, sz⟩, hd, h⟩ := bind_ok h
        obtain ⟨rfl, -⟩ := Prod.mk.inj (Except.ok.inj h)
        exact hmap.trans ((kfree_env hf).trans (uvmdealloc_env hd))

theorem uvmalloc_env {stackTop old new : Nat} {o : Option Nat} (h : uvmalloc m pt stackTop old new = .ok (m', pt', o)) : SameEnv m m' := by
  unfold uvmalloc at h
  split at h
  · obtain ⟨rfl, -⟩ := Prod.mk.inj (Except.ok.inj h)
    exact SameEnv.refl _
  · obtain ⟨⟨m₁, pt₁, b⟩, hl, h⟩ := bind_ok h
    obtain ⟨rfl, -⟩ := Prod.mk.inj (Except.ok.inj h)
    exact uvmallocLoop_env hl

/-! ## Freeing a table -/

theorem freeLeaf_env {v : Nat} (h : freeLeaf pt v m = .ok m') : SameEnv m m' := by
  unfold freeLeaf at h
  split at h
  · obtain rfl := Except.ok.inj h
    exact SameEnv.refl _
  · exact kfree_env h

theorem freeLow_env {k : Nat} (h : freeLow pt k m = .ok m') : SameEnv m m' := by
  unfold freeLow at h
  split at h
  · obtain rfl := Except.ok.inj h
    exact SameEnv.refl _
  · obtain ⟨m₁, hl, h⟩ := bind_ok h
    exact (forFrom_env id hl (fun _ _ _ hb => freeLeaf_env hb)).trans (kfree_env h)

theorem freeMid_env {i : Nat} (h : freeMid pt i m = .ok m') : SameEnv m m' := by
  unfold freeMid at h
  split at h
  · obtain rfl := Except.ok.inj h
    exact SameEnv.refl _
  · obtain ⟨m₁, hl, h⟩ := bind_ok h
    exact (forFrom_env id hl (fun _ _ _ hb => freeLow_env hb)).trans (kfree_env h)

theorem freewalk_env (h : freewalk m pt = .ok m') : SameEnv m m' := by
  unfold freewalk at h
  split at h
  · obtain rfl := Except.ok.inj h
    exact SameEnv.refl _
  · obtain ⟨m₁, hl, h⟩ := bind_ok h
    exact (forFrom_env id hl (fun _ _ _ hb => freeMid_env hb)).trans (kfree_env h)

theorem uvmfree_env {sz : Nat} (h : uvmfree m pt sz = .ok m') : SameEnv m m' := by
  unfold uvmfree at h
  dsimp only at h
  split at h
  · obtain ⟨⟨m₁, pt₁⟩, hu, h⟩ := bind_ok h
    exact (uvmunmap_env hu).trans (freewalk_env h)
  · exact freewalk_env h

theorem procFreepagetable_env {sz stackTop : Nat} (h : procFreepagetable m pt sz stackTop = .ok m') : SameEnv m m' := by
  obtain ⟨⟨m₁, pt₁⟩, h1, h⟩ := bind_ok h
  obtain ⟨⟨m₂, pt₂⟩, h2, h⟩ := bind_ok h
  obtain ⟨⟨m₃, pt₃⟩, h3, h⟩ := bind_ok h
  have hstack : SameEnv m₂ m₃ := by
    refine forFrom_env Prod.fst h3 ?_
    intro i u v hb
    obtain ⟨o, -, hb⟩ := bind_ok hb
    cases o with
    | none =>
      obtain rfl := Except.ok.inj hb
      exact SameEnv.refl _
    | some pte => exact uvmunmap_env hb
  exact ((uvmunmap_env h1).trans (uvmunmap_env h2)).trans (hstack.trans (uvmfree_env h))

/-! ## Copying and making a table -/

theorem uvmcopyLoop_env {old : PageTable} {n i : Nat} {o : Option Nat} (h : uvmcopyLoop old n m pt i = .ok (m', pt', o)) :
    SameEnv m m' := by
  induction n generalizing m pt i with
  | zero =>
    obtain ⟨rfl, -⟩ := Prod.mk.inj (Except.ok.inj h)
    exact SameEnv.refl _
  | succ n ih =>
    obtain ⟨o₁, -, h⟩ := bind_ok h
    cases o₁ with
    | none => exact ih h
    | some pte =>
      dsimp only at h
      split at h
      · obtain ⟨rfl, -⟩ := Prod.mk.inj (Except.ok.inj h)
        exact SameEnv.refl _
      · rename_i m₁ mem hk
        obtain ⟨⟨m₂, pt₂, b⟩, hm, h⟩ := bind_ok h
        have hmap : SameEnv m m₂ := ((kalloc_env hk).trans (SameEnv.fill _ _ _)).trans (mappages_env hm)
        cases b with
        | true => exact hmap.trans (ih h)
        | false =>
          obtain ⟨m₃, hf, h⟩ := bind_ok h
          obtain ⟨rfl, -⟩ := Prod.mk.inj (Except.ok.inj h)
          exact hmap.trans (kfree_env hf)

theorem uvmcopy_env {old : PageTable} {sz : Nat} {b : Bool} (h : uvmcopy m old pt sz = .ok (m', pt', b)) : SameEnv m m' := by
  obtain ⟨⟨m₁, pt₁, o⟩, hl, h⟩ := bind_ok h
  cases o with
  | none =>
    obtain ⟨rfl, -⟩ := Prod.mk.inj (Except.ok.inj h)
    exact uvmcopyLoop_env hl
  | some i =>
    obtain ⟨⟨m₂, pt₂⟩, hu, h⟩ := bind_ok h
    obtain ⟨rfl, -⟩ := Prod.mk.inj (Except.ok.inj h)
    exact (uvmcopyLoop_env hl).trans (uvmunmap_env hu)

theorem procPagetable_env {trapframe : Pa} {o : Option PageTable} (h : procPagetable m trapframe = .ok (m', o)) : SameEnv m m' := by
  rcases procPagetable_spec h with ⟨-, hm⟩ | ⟨pt, -, hm, -⟩
  · exact hm.toSameEnv
  · exact hm.toSameEnv

/-! ## Processes -/

variable {p p' : Proc}

theorem freeproc_env {stackTop : Nat} (h : freeproc m p stackTop = .ok (m', p')) : SameEnv m m' ∧ p' = p.freed := by
  have htable : ∀ m₁ : Machine, (do
      let m ← if p.pagetable.root.isSome then procFreepagetable m₁ p.pagetable p.sz stackTop else .ok m₁
      .ok (m, p.freed) : Kern (Machine × Proc)) = .ok (m', p') → SameEnv m₁ m' ∧ p' = p.freed := by
    intro m₁ hf
    split at hf
    · obtain ⟨m₂, h2, hf⟩ := bind_ok hf
      obtain ⟨rfl, rfl⟩ := Prod.mk.inj (Except.ok.inj hf)
      exact ⟨procFreepagetable_env h2, rfl⟩
    · obtain ⟨m₂, h2, hf⟩ := bind_ok hf
      obtain ⟨rfl, rfl⟩ := Prod.mk.inj (Except.ok.inj hf)
      obtain rfl := Except.ok.inj h2
      exact ⟨SameEnv.refl _, rfl⟩
  unfold freeproc at h
  cases htf : p.trapframe with
  | none =>
    simp only [htf] at h
    exact htable m h
  | some pa =>
    simp only [htf] at h
    obtain ⟨m₁, h1, h⟩ := bind_ok h
    obtain ⟨henv, hp⟩ := htable m₁ h
    exact ⟨(kfree_env h1).trans henv, hp⟩

theorem sysSbrk_env {n : Int} {eager r : Bool} (h : sysSbrk m p n eager = .ok (m', p', r)) :
    SameEnv m m' ∧ p' = { p with pagetable := p'.pagetable, sz := p'.sz } := by
  unfold sysSbrk at h
  split at h
  · unfold growproc at h
    split at h
    · obtain ⟨⟨m₁, pt₁, o⟩, ha, h⟩ := bind_ok h
      have henv := uvmalloc_env ha
      cases o with
      | none =>
        simp only [Except.ok.injEq, Prod.mk.injEq] at h
        obtain ⟨rfl, rfl, -⟩ := h
        exact ⟨henv, rfl⟩
      | some sz =>
        simp only [Except.ok.injEq, Prod.mk.injEq] at h
        obtain ⟨rfl, rfl, -⟩ := h
        exact ⟨henv, rfl⟩
    split at h
    · obtain ⟨⟨m₁, pt₁, sz⟩, hd, h⟩ := bind_ok h
      simp only [Except.ok.injEq, Prod.mk.injEq] at h
      obtain ⟨rfl, rfl, -⟩ := h
      exact ⟨uvmdealloc_env hd, rfl⟩
    · simp only [Except.ok.injEq, Prod.mk.injEq] at h
      obtain ⟨rfl, rfl, -⟩ := h
      exact ⟨SameEnv.refl _, rfl⟩
  split at h
  · simp only [Except.ok.injEq, Prod.mk.injEq] at h
    obtain ⟨rfl, rfl, -⟩ := h
    exact ⟨SameEnv.refl _, rfl⟩
  · simp only [Except.ok.injEq, Prod.mk.injEq] at h
    obtain ⟨rfl, rfl, -⟩ := h
    exact ⟨SameEnv.refl _, rfl⟩

end Xv6SnifferBakery.Kernel
