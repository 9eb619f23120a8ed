import Xv6SnifferBakery.Lemmas.Resize
import Xv6SnifferBakery.Theorems.StoredBytes

/-!
# Memory that is given back

A page of the heap above the new size reads as zeros once the heap covers it again, whether it was in memory, clean or dirty, or was
never touched. A page that was in the swap file comes back with what it had: `uvmdealloc` frees frames, and leaves the entry of the page
and its slot.
-/

namespace Xv6SnifferBakery.Kernel

open Lib

variable {s s₁ t : Sys} {a : Action} {i k va : Nat} {m m' : Machine} {p p' : Proc}

/-! ## Runs after a shrink -/

/-- A fault, an eviction, a growth, or a store to another page than page `va` of process `i`. -/
def Action.regrows (i va : Nat) (a : Action) : Prop :=
  match a with
  | .fault _ _ _ | .evict _ => True
  | .store k b _ => k = i → b / 4096 ≠ va / 4096
  | .sbrk _ n _ => 0 ≤ wrap32 n
  | _ => False

/-- One of these. A process writes to no swap file but its own. -/
def RegrowStep (i va : Nat) (s : Sys) (a : Action) (t : Sys) : Prop :=
  Step s a t ∧ a.regrows i va ∧ ∀ k, a.ownMemory k = true → k ≠ i → ∀ f, (s.proc i).swapFile = some f →
    (s.m.fs.openInode f).SameBytes (t.m.fs.openInode f)

/-- Page `va` was part of the heap at the size of `p`, and is none of the memory at the size of `p'`. -/
structure Released (va : Nat) (p p' : Proc) : Prop where
  aligned : va % 4096 = 0
  above : p.stackTop ≤ va
  before : va < p.sz
  after : p'.sz ≤ va
  size : p.sz ≤ trapframeVa
  lazy : ¬inExec p va

/-- Page `va` of process `i` is in its heap, or above it, and holds zeros. -/
structure ZeroInv (i va : Nat) (s : Sys) : Prop where
  inv : SysInv s
  live : (s.proc i).live
  above : (s.proc i).stackTop ≤ va
  heap : (s.proc i).heapStart ≤ va
  keeps : Keeps va (fun _ => 0) s.m (s.proc i)

/-- A growth of the process itself. -/
theorem Keeps.grow {n : Int} {eager r : Bool} (h : Keeps va (fun _ => 0) m p) (hinv : PageInv m' p') (hu : va / 4096 < userPages)
    (hn : 0 ≤ n) (hc : sysSbrk m p n eager = .ok (m', p', r)) : Keeps va (fun _ => 0) m' p' := by
  obtain ⟨saved, hkept, hh⟩ := h.held
  obtain ⟨henv, hp⟩ := sysSbrk_env hc
  have hsafe : ¬shrinksPastTrapframe p n := by
    rintro ⟨hneg, -⟩
    omega
  have hnone : p'.pagetable.leaf (va / 4096) = none → p.pagetable.leaf (va / 4096) = none := by
    intro hnone
    cases sysSbrk_spec h.inv.wf hsafe hc with
    | same | lazy => exact hnone
    | grow _ grows _ =>
      rename_i pt hi sz done _ _
      by_cases hin : pgRoundUp p.sz / 4096 ≤ va / 4096 ∧ va / 4096 < hi
      · exact (grows.inside _ hin.1 hin.2).2.1
      · rw [← grows.outside _ hin]
        exact hnone
    | shrink request => omega
  have hpages : p'.pages = p.pages := by rw [hp]
  have hat : SwappedAt va p' ↔ SwappedAt va p := by
    unfold SwappedAt
    rw [hpages]
  refine ⟨hinv, saved, ?_, ?_, ?_, ?_, ?_⟩
  · refine hkept.frame ?_ (by rw [hp]) (by rw [hp]; exact id) (hpages ▸ hkept.addrs) ?_
    · exact .of_inodes (by rw [hp]) (by rw [henv.fs]) (by rw [henv.fs])
    · intro j x hx hst
      exact ⟨x, hpages ▸ hx, hst, rfl, rfl⟩
  · have hzero : PageHas (fun pte page => pte.loads ∧ ∀ k < 4096, page k = 0) (va / 4096) m p.pagetable := hh.mapped
    exact sysSbrk_pageHas h.inv hsafe hu (fun _ _ _ _ _ => ⟨⟨rfl, rfl⟩, fun _ _ => rfl⟩) hzero hc
  · intro hl hs
    exact hh.swapped (hnone hl) (hat.mp hs)
  · exact fun _ _ _ _ => rfl
  · rw [hp]
    exact hh.lazy

/-- A growth of another process. -/
theorem Keeps.growOther {n : Int} {eager r : Bool} {last : Page} (h : Keeps va last s.m (s.proc i)) (hs : SysInv s) (hi : i < nProc) (hk : k < nProc)
    (hne : k ≠ i) (hl : (s.proc i).live) (hkl : (s.proc k).live) (hu : va / 4096 < userPages) (hn : 0 ≤ n)
    (hc : sysSbrk s.m (s.proc k) n eager = .ok (m, p, r)) (hinv : SysInv (s.put k m p)) : Keeps va last m (s.proc i) := by
  obtain ⟨henv, -⟩ := sysSbrk_env hc
  have hproc : (s.put k m p).proc i = s.proc i := Sys.put_proc_of_ne _ _ _ (Ne.symm hne)
  have hown : PageInv m (s.proc i) := by
    have := hinv.pageInv hi (by rwa [hproc])
    rwa [hproc] at this
  have hsafe : ¬shrinksPastTrapframe (s.proc k) n := by
    rintro ⟨hneg, -⟩
    omega
  refine h.machine hown hu ?_ ?_
  · intro q hq
    have hapart := hs.apart hi hk (Ne.symm hne) hq
    cases sysSbrk_spec (hs.wf hk hkl) hsafe hc with
    | same | lazy => rfl
    | grow _ grows _ =>
      refine grows.moves.mem q ?_
      intro hin
      refine hapart ?_
      rcases Multiset.mem_add.mp hin with hin | hin
      · exact Multiset.mem_add.mpr (Or.inl hin)
      · exact Multiset.mem_add.mpr (Or.inr (Multiset.mem_add.mpr (Or.inr hin)))
    | shrink request => omega
  · intro f _
    rw [henv.fs]
    exact .refl _

theorem ZeroInv.step (h : ZeroInv i va s) (hi : i < nProc) (hal : va % 4096 = 0) (hu : va / 4096 < userPages) (hs : RegrowStep i va s a t) :
    ZeroInv i va t := by
  obtain ⟨hstep, hregrows, hfile⟩ := hs
  have hsafe : SafeStep s a t := by
    refine ⟨?_, hstep⟩
    cases a with
    | sbrk k n eager =>
      rintro ⟨hneg, -⟩
      exact absurd hregrows (Int.not_le.mpr hneg)
    | _ => trivial
  have hinv : SysInv t := SafeStep.inv h.inv hsafe
  have hpaging : ∀ k, a.ownMemory k = true → a.stores i va (fun _ => 0) = (fun _ => 0) → ZeroInv i va t := by
    intro k hown hstores
    have hx : StoredInv i va (s.proc i) (s, fun _ => 0) := ⟨h.inv, SameImage.refl _, h.live, h.keeps⟩
    have hpage : SparingStep i va (s, fun _ => 0) a (t, fun _ => 0) :=
      ⟨fun _ _ _ => rfl, hstep, ⟨k, hown, hfile k hown⟩, hstores.symm⟩
    have hy := hx.step hi hal hu hpage
    have himg := hy.image
    refine ⟨hinv, hy.live, ?_, ?_, hy.keeps⟩
    · rw [himg.eq]
      exact h.above
    · rw [himg.eq]
      exact h.heap
  cases a with
  | fault k b access => exact hpaging k (decide_eq_true rfl) rfl
  | evict k => exact hpaging k (decide_eq_true rfl) rfl
  | store k b x => exact hpaging k (decide_eq_true rfl) (if_neg (fun hc => hregrows hc.1 hc.2))
  | sbrk k n eager =>
    obtain ⟨hready, hperform⟩ := hstep
    simp only [perform] at hperform
    obtain ⟨m, p, r, hc, rfl⟩ := memCall_ok hperform
    have hn : 0 ≤ wrap32 n := hregrows
    by_cases hki : k = i
    · subst hki
      obtain ⟨-, hp⟩ := sysSbrk_env hc
      have hown := hinv.pageInv hi
      rw [Sys.put_proc_self] at hown
      have hlive : p.live := by
        rw [hp]
        exact h.live
      refine ⟨hinv, ?_, ?_, ?_, ?_⟩ <;> rw [Sys.put_proc_self]
      · exact hlive
      · rw [hp]
        exact h.above
      · rw [hp]
        exact h.heap
      · exact h.keeps.grow (hown hlive) hu hn hc
    · have hproc : (s.put k m p).proc i = s.proc i := Sys.put_proc_of_ne _ _ _ (Ne.symm hki)
      refine ⟨hinv, hproc ▸ h.live, hproc ▸ h.above, hproc ▸ h.heap, ?_⟩
      rw [hproc]
      exact h.keeps.growOther h.inv hi hready.1 hki h.live hready.2.1 hu hn hc hinv
  | _ => exact hregrows.elim

/-! ## The shrink -/

/-- A released page whose entry is not in the swap file, or has only zeros there, holds zeros. -/
theorem Keeps.released {n : Int} {eager r : Bool} {saved : Nat → Option Page} (hinv : PageInv m p) (hinv' : PageInv m' p')
    (hkept : SwapKept saved m p) (hsafe : ¬shrinksPastTrapframe p n) (hn : n < 0) (hrel : Released va p p')
    (hswap : SwappedAt va p → ∀ out, saved va = some out → ∀ k < 4096, out k = 0) (hc : sysSbrk m p n eager = .ok (m', p', r)) :
    Keeps va (fun _ => 0) m' p' := by
  obtain ⟨henv, hp⟩ := sysSbrk_env hc
  obtain ⟨-, hcleared, -⟩ := sysSbrk_shrink hinv hsafe hn hc
  have hround : va / 4096 * 4096 = va := Nat.div_mul_cancel (Nat.dvd_of_mod_eq_zero hrel.aligned)
  have hleaf : p'.pagetable.leaf (va / 4096) = none := by
    refine hcleared (va / 4096) ?_ ?_ hrel.size ?_
    · rw [hround]
      exact hrel.after
    · rw [hround]
      exact hrel.before
    · rintro ⟨-, hlt⟩
      rw [hround] at hlt
      exact absurd hrel.above (Nat.not_le.mpr hlt)
  have hpages : p'.pages = p.pages := by rw [hp]
  refine ⟨hinv', saved, ?_, ?_, ?_, ?_, ?_⟩
  · refine hkept.frame ?_ (by rw [hp]) (by rw [hp]; exact id) (hpages ▸ hkept.addrs) ?_
    · exact .of_inodes (by rw [hp]) (by rw [henv.fs]) (by rw [henv.fs])
    · intro j x hx hst
      exact ⟨x, hpages ▸ hx, hst, rfl, rfl⟩
  · intro pte hpte
    rw [hleaf] at hpte
    cases hpte
  · rintro - ⟨e, he, hea, hst⟩
    exact hswap ⟨e, hpages ▸ he, hea, hst⟩
  · exact fun _ _ _ _ => rfl
  · rw [hp]
    exact hrel.lazy

/-- In every state that is reached while nobody but process `i` touches its swap file, a shrink of its memory leaves the guard page and
the stack as they are; and for every page of the heap that it releases, when the page is not in the swap file or has only zeros there:
after every run of faults, evictions, growths and stores to other pages, once the heap covers the page again a load yields zeros, as long
as the process is not killed and the table of tracked pages has room. -/
theorem shrink_discards {s₀ : Sys} {evs : List Event} {saved : Nat → Option Page} {n : Int} {eager : Bool} (hb : Boot s₀)
    (h₀ : OwnSwapRun i (s₀, fun _ => none) evs (s, saved)) (hshrink : SafeStep s (.sbrk i n eager) s₁) (hn : wrap32 n < 0) :
    StackKept s.m (s.proc i) s₁.m (s₁.proc i) ∧ ∀ va, Released va (s.proc i) (s₁.proc i) →
      (SwappedAt va (s.proc i) → ∀ out, saved va = some out → ∀ k < 4096, out k = 0) →
      ∀ as t, Run (RegrowStep i va) s₁ as t → va < (t.proc i).sz → (t.proc i).killed = false →
      (entryOf (t.proc i) va = none → (t.proc i).pages.length < maxPages) →
      ∀ k < 4096, view t.m (t.proc i) (va + k) = some 0 := by
  have hinv : SysInv s := OwnSwapRun.inv hb h₀
  have hinv₁ : SysInv s₁ := SafeStep.inv hinv hshrink
  obtain ⟨hsafe, ⟨hi, hl, -⟩, hperform⟩ := hshrink
  have hlow : (s.proc i).HeapLow := (OwnSwapRun.heapLow hb h₀).2 i hl
  have hkept : SwapKept saved s.m (s.proc i) := SwapStep.swapKept hb (h₀.mono (fun _ _ _ hg => hg.2)) hl
  simp only [perform] at hperform
  obtain ⟨m, p, r, hc, rfl⟩ := memCall_ok hperform
  have hown := hinv.pageInv hi hl
  obtain ⟨-, hp⟩ := sysSbrk_env hc
  have hlive : p.live := by
    rw [hp]
    exact hl
  have hown₁ : PageInv m p := by
    have := hinv₁.pageInv hi
    rw [Sys.put_proc_self] at this
    exact this hlive
  rw [Sys.put_m, Sys.put_proc_self]
  refine ⟨(sysSbrk_shrink hown hsafe hn hc).1, ?_⟩
  intro va hrel hswap as t hr hcover hkilled hroom k hk
  have hal := hrel.aligned
  have hlt : va < trapframeVa := Nat.lt_of_lt_of_le hrel.before hrel.size
  have hu : va / 4096 < userPages := by
    have := hlt
    rw [trapframeVa_eq] at this
    omega
  have hstart : ZeroInv i va (s.put i m p) := by
    refine ⟨hinv₁, ?_, ?_, ?_, ?_⟩ <;> rw [Sys.put_proc_self]
    · exact hlive
    · rw [hp]
      exact hrel.above
    · rw [hp]
      exact Nat.le_trans hlow hrel.above
    · exact Keeps.released hown hown₁ hkept hsafe hn hrel hswap hc
  have hend : ZeroInv i va t := hr.invariant _ (fun _ _ _ hx hs => ZeroInv.step hx hi hal hu hs) hstart
  exact hend.keeps.view ⟨hal, hlt, hend.above, hend.heap, hcover⟩ hkilled hroom hk

/-! ## A page that comes back -/

/-- A fault, an eviction or a growth of process `i`. -/
def Action.regrowsAlone (i : Nat) : Action → Bool
  | .fault k _ _ | .evict k => k = i
  | .sbrk k n _ => k = i ∧ 0 ≤ wrap32 n
  | _ => false

theorem regrow_run {as : List Action} (h : replayIf (fun _ a => a.regrowsAlone i) s as = some t) : Run (RegrowStep i va) s as t := by
  refine (replayIf_run (G := fun _ a => a.regrowsAlone i = true) (fun _ _ h => h) h).mono ?_
  rintro s a t ⟨halone, hstep⟩
  refine ⟨hstep, ?_, ?_⟩
  · cases a with
    | fault | evict => trivial
    | sbrk k n eager => exact (of_decide_eq_true halone).2
    | _ => cases halone
  · intro k hown hne
    cases a with
    | fault | evict => exact absurd ((of_decide_eq_true hown).symm.trans (of_decide_eq_true halone)) hne
    | store => cases halone
    | _ => cases hown

/-- Lazy growth of the first process by a page, right after boot, and what the process then does to its memory. -/
theorem grown_run (as : List Action) (P : Sys → Bool) (has : as.all (Action.ownMemory 0) = true)
    (hex : (sysSbrk (smallBoot smallFiles 32).m ((smallBoot smallFiles 32).proc 0) (wrap32 4096) false).toOption.any (fun r =>
      (replay ((smallBoot smallFiles 32).put 0 r.1 r.2.1) as).any P) = true) :
    ∃ s evs saved, OwnSwapRun 0 (smallBoot smallFiles 32, fun _ => none) evs (s, saved) ∧ P s = true := by
  obtain ⟨⟨m, p, r⟩, hsbrk, hx⟩ := ok_of_any hex
  obtain ⟨s, hs, hP⟩ := (Option.any_eq_true _ _).mp hx
  have hfollows : Follows (Guarded (fun x ev => ev.keepsTrapframe x.1) (SwapStep 0)) 0 (((smallBoot smallFiles 32).put 0 m p).proc 0) :=
    fun _ _ _ _ _ hs => ⟨_, trivial, hs, fun hto => absurd rfl hto, rfl⟩
  obtain ⟨evs, saved, hrun⟩ := replay_follow hfollows (SameImage.refl _) has hs (fun _ => none)
  exact ⟨s, _, saved, (grown_first hsbrk).append hrun, hP⟩

/-- A page that is in memory and dirty when it is released, and covered again by an eager growth. -/
theorem shrink_discards_dirty : ∃ s s₁ t, SafeStep s (.sbrk 0 (-4096) false) s₁ ∧ StackKept s.m (s.proc 0) s₁.m (s₁.proc 0) ∧
    Run (RegrowStep 0 16384) s₁ [.evict 0, .sbrk 0 4096 true, .evict 0] t ∧ ∀ k < 4096, view t.m (t.proc 0) (16384 + k) = some 0 := by
  obtain ⟨s, evs, saved, hown, hx⟩ := grown_run [.fault 0 16384 .read, .fault 0 16384 .write, .store 0 16384 7]
    (fun s => (s.proc 0).stackTop ≤ 16384 ∧ 16384 < (s.proc 0).sz ∧ (s.proc 0).sz ≤ trapframeVa ∧ ¬inExec (s.proc 0) 16384 ∧
      (∀ e ∈ (s.proc 0).pages, e.state ≠ .swapped) ∧
      (replaySafe s [.sbrk 0 (-4096) false]).any (fun s₁ => (s₁.proc 0).sz ≤ 16384 ∧
        (replayIf (fun _ a => a.regrowsAlone 0) s₁ [.evict 0, .sbrk 0 4096 true, .evict 0]).any (fun t =>
          16384 < (t.proc 0).sz ∧ (t.proc 0).killed = false ∧ entryOf (t.proc 0) 16384 ≠ none) = true) = true)
    (by decide) (by decide +kernel)
  obtain ⟨habove, hbefore, hsize, hlazy, hno, hx⟩ := of_decide_eq_true hx
  obtain ⟨s₁, hs₁, hx⟩ := (Option.any_eq_true _ _).mp hx
  obtain ⟨hafter, hx⟩ := of_decide_eq_true hx
  obtain ⟨t, ht, hx⟩ := (Option.any_eq_true _ _).mp hx
  obtain ⟨hcover, hkilled, hentry⟩ := of_decide_eq_true hx
  have hshrink : SafeStep s (.sbrk 0 (-4096) false) s₁ := (replaySafe_run hs₁).of_single
  obtain ⟨hstack, hzero⟩ := shrink_discards smallBoot_init hown hshrink (by decide)
  refine ⟨s, s₁, t, hshrink, hstack, regrow_run ht, ?_⟩
  refine hzero 16384 ⟨by decide, habove, hbefore, hafter, hsize, hlazy⟩ ?_ _ t (regrow_run ht) hcover hkilled (fun hn => absurd hn hentry)
  rintro ⟨e, he, -, hst⟩
  exact absurd hst (hno e he)

/-- A page that is in the swap file when it is released, and covered again by a lazy growth, has what was stored to it before. -/
theorem shrink_keeps_swapped : ¬∀ s₀ s s₁ t i va n eager evs saved as, Boot s₀ → OwnSwapRun i (s₀, fun _ => none) evs (s, saved) →
    SafeStep s (.sbrk i n eager) s₁ → wrap32 n < 0 → Released va (s.proc i) (s₁.proc i) → Run (RegrowStep i va) s₁ as t →
    va < (t.proc i).sz → (t.proc i).killed = false → (entryOf (t.proc i) va = none → (t.proc i).pages.length < maxPages) →
    ∀ k < 4096, view t.m (t.proc i) (va + k) = some 0 := by
  intro hall
  obtain ⟨s, evs, saved, hown, hx⟩ := grown_run swapHeap
    (fun s => (s.proc 0).stackTop ≤ 16384 ∧ 16384 < (s.proc 0).sz ∧ (s.proc 0).sz ≤ trapframeVa ∧ ¬inExec (s.proc 0) 16384 ∧
      (replaySafe s [.sbrk 0 (-4096) false]).any (fun s₁ => (s₁.proc 0).sz ≤ 16384 ∧
        (replayIf (fun _ a => a.regrowsAlone 0) s₁ [.sbrk 0 4096 false]).any (fun t =>
          16384 < (t.proc 0).sz ∧ (t.proc 0).killed = false ∧ entryOf (t.proc 0) 16384 ≠ none ∧
            view t.m (t.proc 0) 16384 = some 7) = true) = true)
    (by decide) (by decide +kernel)
  obtain ⟨habove, hbefore, hsize, hlazy, hx⟩ := of_decide_eq_true hx
  obtain ⟨s₁, hs₁, hx⟩ := (Option.any_eq_true _ _).mp hx
  obtain ⟨hafter, hx⟩ := of_decide_eq_true hx
  obtain ⟨t, ht, hx⟩ := (Option.any_eq_true _ _).mp hx
  obtain ⟨hcover, hkilled, hentry, hview⟩ := of_decide_eq_true hx
  have hshrink : SafeStep s (.sbrk 0 (-4096) false) s₁ := (replaySafe_run hs₁).of_single
  have hzero := hall _ _ _ _ 0 16384 _ _ _ _ _ smallBoot_init hown hshrink (by decide) ⟨by decide, habove, hbefore, hafter, hsize, hlazy⟩
    (regrow_run ht) hcover hkilled (fun hn => absurd hn hentry) 0 (by decide)
  rw [Nat.add_zero, hview] at hzero
  exact absurd hzero (by decide)

end Xv6SnifferBakery.Kernel
