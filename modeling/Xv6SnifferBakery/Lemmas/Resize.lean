import Xv6SnifferBakery.Lemmas.Extent

/-!
# Growing and shrinking around a page

What `sys_sbrk` does to the contents of pages: a shrink leaves the frames that it does not free, and a growth maps pages of zeros.
-/

namespace Xv6SnifferBakery.Kernel

open Lib

variable {m m' : Machine} {p p' : Proc} {pt pt' : PageTable} {stackTop v : Nat} {Q : Pte → Page → Prop}

/-! ## Shrinking -/

/-- `uvmdealloc` leaves every frame but those of the pages it unmaps. -/
theorem uvmdealloc_mem {old new sz : Nat} {q : Pa} (h : uvmdealloc m pt stackTop old new = .ok (m', pt', sz))
    (hq : ∀ w pte, shrinks stackTop (pgRoundUp new / 4096) (pgRoundUp old / 4096) w → pt.leaf w = some pte → pte.pa ≠ q) :
    m'.mem q = m.mem q := by
  unfold uvmdealloc at h
  split at h
  · simp only [Except.ok.injEq, Prod.mk.injEq] at h
    obtain ⟨rfl, -, -⟩ := h
    rfl
  obtain ⟨⟨m₁, pt₁⟩, hl, h⟩ := bind_ok h
  simp only [Except.ok.injEq, Prod.mk.injEq] at h
  obtain ⟨rfl, rfl, -⟩ := h
  have hnew := pgRoundUp_mod new
  have hold := pgRoundUp_mod old
  have hrun := forFrom_inv (fun _ s => (∀ w pte, s.2.leaf w = some pte → pt.leaf w = some pte) ∧ s.1.mem q = m.mem q) hl ⟨fun _ _ => id, rfl⟩
    (fun i s t _ hi hP hb => by
      obtain ⟨hleaf, hmem⟩ := hP
      unfold deallocPage at hb
      split at hb
      · obtain rfl := Except.ok.inj hb
        exact ⟨hleaf, hmem⟩
      rename_i hstack
      have hu : UnmapSpec s.1 s.2 (pgRoundUp new + i * pgSize) t.1 t.2 := uvmunmap_one hb
      have hdiv : (pgRoundUp new + i * pgSize) / 4096 * 4096 = pgRoundUp new + i * pgSize := by
        unfold pgSize
        omega
      refine ⟨?_, ?_⟩
      · intro w pte hw
        rw [hu.clear, PageTable.clearLeaf_leaf] at hw
        by_cases hwe : w = (pgRoundUp new + i * pgSize) / 4096
        · rw [hwe, Function.update_self] at hw
          cases hw
        · rw [Function.update_of_ne hwe] at hw
          exact hleaf w pte hw
      · rcases hu.freed with ⟨-, heq⟩ | ⟨pte, hsome, hk⟩
        · rw [heq]
          exact hmem
        · rw [kfree_ok hk, ← hmem]
          refine Machine.fill_mem_of_ne _ _ (hq _ pte ⟨?_, ?_, ?_⟩ (hleaf _ _ hsome)).symm
          · unfold pgSize
            omega
          · unfold pgSize at hi ⊢
            omega
          · rwa [hdiv])
  exact hrun.2

/-- The guard page and the stack are mapped in `p'` as in `p`, with the same contents. -/
def StackKept (m : Machine) (p : Proc) (m' : Machine) (p' : Proc) : Prop :=
  ∀ w, guardBase p.stackTop ≤ w * 4096 → w * 4096 < p.stackTop → p'.pagetable.leaf w = p.pagetable.leaf w ∧
    ∀ pte, p.pagetable.leaf w = some pte → m'.mem pte.pa = m.mem pte.pa

/-- The pages that such a shrink takes back are the user's. -/
theorem shrink_lt {n : Int} {w : Nat} (hsafe : ¬shrinksPastTrapframe p n) (hn : n < 0) (hlt : addInt p.sz n < p.sz)
    (h1 : w < pgRoundUp p.sz / 4096) (h2 : pgRoundUp (addInt p.sz n) / 4096 ≤ w) : w < userPages := by
  by_contra hge
  refine hsafe ⟨hn, hlt, ?_, ?_⟩
  · rw [trapframeVa_eq]
    omega
  · omega

/-- A shrink that does not reach the trapframe page. -/
theorem sysSbrk_shrink {n : Int} {eager r : Bool} (hinv : PageInv m p) (hsafe : ¬shrinksPastTrapframe p n) (hn : n < 0)
    (h : sysSbrk m p n eager = .ok (m', p', r)) : StackKept m p m' p' ∧
      (∀ w, p'.sz ≤ w * 4096 → w * 4096 < p.sz → p.sz ≤ trapframeVa → ¬(guardBase p.stackTop ≤ w * 4096 ∧ w * 4096 < p.stackTop) →
        p'.pagetable.leaf w = none) ∧ p'.sz ≤ p.sz := by
  have hwf := hinv.wf
  unfold sysSbrk growproc at h
  rw [if_pos (Or.inr hn), if_neg (by omega), if_pos hn] at h
  obtain ⟨⟨m₁, pt, sz⟩, hd, h⟩ := bind_ok h
  simp only [Except.ok.injEq, Prod.mk.injEq] at h
  obtain ⟨rfl, rfl, -⟩ := h
  obtain ⟨rfl, hu⟩ := uvmdealloc_spec hd (fun hlt w hw h1 h2 => absurd (shrink_lt hsafe hn hlt h1 h2) (Nat.not_lt.mpr hw))
  refine ⟨?_, ?_, Nat.min_le_left _ _⟩
  · intro w hg hs
    have hstack := hwf.stack
    have hwu : w < userPages := by
      have := hstack.2.1
      rw [trapframeVa_eq] at this
      omega
    refine ⟨hu.kept w (fun hin => hin.2.2.2 ⟨hg, hs⟩), ?_⟩
    intro pte hpte
    by_cases hlt : addInt p.sz n < p.sz
    · refine uvmdealloc_mem hd ?_
      intro x pte' hx hpte' heq
      obtain rfl := hinv.leaf_inj (shrink_lt hsafe hn hlt hx.2.1 hx.1) hwu hpte' hpte heq
      exact hx.2.2 ⟨hg, hs⟩
    · unfold uvmdealloc at hd
      rw [if_pos (Nat.not_lt.mp hlt)] at hd
      simp only [Except.ok.injEq, Prod.mk.injEq] at hd
      rw [hd.1]
  · intro w hge hlt htop hspared
    change min p.sz (addInt p.sz n) ≤ w * 4096 at hge
    have hless : addInt p.sz n < p.sz := by omega
    obtain ⟨hup, -⟩ := size_pgRoundUp htop
    have hfits : addInt p.sz n ≤ trapframeVa := by omega
    obtain ⟨-, hnew⟩ := size_pgRoundUp hfits
    have hmod := pgRoundUp_mod p.sz
    have hmod' := pgRoundUp_mod (addInt p.sz n)
    exact hu.cleared w ⟨hless, by omega, by omega, hspared⟩

/-! ## Growing -/

/-- Page `v`, where it is mapped, is as `Q` says of its table entry and its contents. -/
def PageHas (Q : Pte → Page → Prop) (v : Nat) (m : Machine) (pt : PageTable) : Prop := ∀ pte, pt.leaf v = some pte → Q pte (m.mem pte.pa)

/-- No page is free or in the table twice. -/
def TableApart (m : Machine) (pt : PageTable) : Prop := (free m + pt.pages).Nodup

theorem TableApart.not_free {pte : Pte} (h : TableApart m pt) (hv : v < userPages) (hl : pt.leaf v = some pte) : pte.pa ∉ m.freelist :=
  fun hf => Multiset.disjoint_left.mp (Multiset.nodup_add.mp h).2.2 (Multiset.mem_coe.mpr hf) (PageTable.mem_pages_of_leaf hv hl)

/-- Pages that are taken back leave the page as it is, or take it too. -/
theorem PageHas.dealloc {old new sz : Nat} (hz : PageHas Q v m pt) (hn : TableApart m pt) (hv : v < userPages)
    (hlow : ∀ w, pgRoundUp new / 4096 ≤ w → w < pgRoundUp old / 4096 → w < userPages)
    (hd : uvmdealloc m pt stackTop old new = .ok (m', pt', sz)) : PageHas Q v m' pt' := by
  obtain ⟨-, hu⟩ := uvmdealloc_spec hd (fun _ w hw h1 h2 => absurd (hlow w h2 h1) (Nat.not_lt.mpr hw))
  intro pte hpte
  by_cases hin : new < old ∧ shrinks stackTop (pgRoundUp new / 4096) (pgRoundUp old / 4096) v
  · rw [hu.cleared v hin] at hpte
    cases hpte
  rw [hu.kept v hin] at hpte
  have hmem := hz pte hpte
  by_cases hlt : new < old
  · rw [uvmdealloc_mem hd]
    · exact hmem
    · intro w pte' hw hpte' heq
      obtain rfl := PageTable.leaf_inj (Multiset.nodup_add.mp hn).2.1 (hlow w hw.1 hw.2.1) hv hpte' hpte heq
      exact hin ⟨hlt, hw⟩
  · unfold uvmdealloc at hd
    rw [if_pos (Nat.not_lt.mp hlt)] at hd
    simp only [Except.ok.injEq, Prod.mk.injEq] at hd
    rw [← hd.1]
    exact hmem

/-- The loop of `uvmalloc` leaves the page as it is, or maps it as a page of zeros. -/
theorem uvmallocLoop_pageHas {lo n a : Nat} {r : Bool} {m₀ : Machine} {pt₀ : PageTable} (hlo : lo % 4096 = 0) (ht : pt₀.Topped)
    (hn : TableApart m₀ pt₀) (hv : v < userPages)
    (h : uvmallocLoop stackTop lo ⟨true, true, false, true⟩ n m pt a = .ok (m', pt', r))
    (hg : Grows (lo / 4096) (a / 4096) true m₀ pt₀ m pt) (ha : a % 4096 = 0) (hle : lo ≤ a)
    (hnew : a / 4096 ≤ v → v < a / 4096 + n → ∀ pa, Q ⟨pa, ⟨true, true, false, true⟩⟩ (fun _ => 0)) (hz : PageHas Q v m pt) :
    PageHas Q v m' pt' := by
  have hapart : ∀ {m₁ : Machine} {pt₁ : PageTable}, Moves m₀ pt₀.pages m₁ pt₁.pages → TableApart m₁ pt₁ := by
    intro m₁ pt₁ hm
    unfold TableApart
    rw [hm.pages]
    exact hn
  have hlow : ∀ {m₁ : Machine} {pt₁ : PageTable}, Grows (lo / 4096) (a / 4096) true m₀ pt₀ m₁ pt₁ →
      ∀ w, pgRoundUp lo / 4096 ≤ w → w < pgRoundUp a / 4096 → w < userPages := by
    intro m₁ pt₁ hg w h1 h2
    have hu := userPages_eq
    by_cases hlt : lo < a
    · have hin := (hg.inside (a / 4096 - 1) (by omega) (by omega)).1
      rw [pgRoundUp_of_aligned hlo (by omega)] at h1
      rw [pgRoundUp_of_aligned ha (by omega)] at h2
      exact (hg.inside w h1 h2).1
    · obtain rfl : lo = a := by omega
      omega
  induction n generalizing m pt a with
  | zero =>
    simp only [uvmallocLoop, Except.ok.injEq, Prod.mk.injEq] at h
    obtain ⟨rfl, rfl, -⟩ := h
    exact hz
  | succ n ih =>
    have hn₁ := hapart hg.moves
    rw [uvmallocLoop] at h
    split at h
    · obtain ⟨⟨m₁, pt₁, sz⟩, hd, h⟩ := bind_ok h
      simp only [Except.ok.injEq, Prod.mk.injEq] at h
      obtain ⟨rfl, rfl, -⟩ := h
      exact hz.dealloc hn₁ hv (hlow hg) hd
    · rename_i m₁ mem hk
      obtain ⟨halloc, hmemfree⟩ := kalloc_alloc hk
      have hfill : Alloc m (m₁.fill mem (fun _ => 0)) := halloc.fill hmemfree _
      obtain ⟨⟨m₂, pt₂, o⟩, hm, h⟩ := bind_ok h
      rcases mappages_page hm with ⟨rfl, hs⟩ | ⟨rfl, hs⟩
      · have hg' := hg.map (by omega) ht hk hs
        have hdiv : (a + pgSize) / 4096 = a / 4096 + 1 := by
          rw [pgSize]
          omega
        have hz' : PageHas Q v m₂ pt₂ := by
          intro pte hpte
          rw [hs.leaf] at hpte
          by_cases hva : v = a / 4096
          · -- the page that was just mapped
            rw [hva, Function.update_self] at hpte
            obtain rfl := Option.some.inj hpte
            have hgone : mem ∉ m₁.freelist := by
              have hnodup : m.freelist.Nodup := Multiset.coe_nodup.mp (Multiset.nodup_of_le (Multiset.le_add_right _ _) hn₁)
              rw [(kalloc_some hk).1] at hnodup
              exact (List.nodup_cons.mp hnodup).1
            change Q _ (m₂.mem mem)
            rw [hs.alloc.mem mem hgone, Machine.fill_mem_self]
            exact hnew (by omega) (by omega) mem
          · rw [Function.update_of_ne hva] at hpte
            have hmem := hz pte hpte
            have hnot := hn₁.not_free hv hpte
            rw [hs.alloc.mem _ (hfill.kept _ hnot), hfill.mem _ hnot]
            exact hmem
        refine ih h ?_ ?_ ?_ ?_ hz' ?_
        · rw [hdiv]
          exact hg'
        · rw [pgSize]
          omega
        · omega
        · intro h1 h2
          exact hnew (by omega) (by omega)
        · intro m₃ pt₃ hg₃ w h1 h2
          have hu := userPages_eq
          have hin := (hg₃.inside ((a + pgSize) / 4096 - 1) (by omega) (by omega)).1
          rw [pgRoundUp_of_aligned hlo (by omega)] at h1
          rw [pgRoundUp_of_aligned (by rw [pgSize]; omega) (by rw [pgSize]; omega)] at h2
          exact (hg₃.inside w h1 h2).1
      · obtain ⟨m₃, hf, h⟩ := bind_ok h
        obtain ⟨⟨m₄, pt₄, sz⟩, hd, h⟩ := bind_ok h
        simp only [Except.ok.injEq, Prod.mk.injEq] at h
        obtain ⟨rfl, rfl, -⟩ := h
        -- the page in hand goes back before the pages already mapped
        have hback : Moves m pt.pages m₃ pt₂.pages := by
          have h1 := ((kalloc_moves hk).trans (Moves.fill (fun _ => 0) (Multiset.mem_singleton_self mem))).frame pt.pages
          have h2 := (hs.moves.frame {mem}).congr (add_comm _ _) (add_comm _ _)
          have h3 := (kfree_moves hf).frame pt₂.pages
          exact (h1.congr (zero_add _) rfl).trans (h2.trans (h3.congr rfl (zero_add _)))
        have hz' : PageHas Q v m₃ pt₂ := by
          intro pte hpte
          rw [hs.leaf] at hpte
          have hmem := hz pte hpte
          have hnot := hn₁.not_free hv hpte
          have hne : pte.pa ≠ mem := fun heq => hnot (heq ▸ hmemfree)
          rw [kfree_ok hf]
          change Q pte (Function.update m₂.mem mem _ pte.pa)
          rw [Function.update_of_ne hne, hs.alloc.mem _ (hfill.kept _ hnot), hfill.mem _ hnot]
          exact hmem
        exact hz'.dealloc (hapart (hg.moves.trans hback)) hv (hlow hg) hd

/-- An `sbrk` that does not reach the trapframe page leaves a page as it is, or takes it, or maps it as a page of zeros. -/
theorem sysSbrk_pageHas {n : Int} {eager r : Bool} (hinv : PageInv m p) (hsafe : ¬shrinksPastTrapframe p n) (hv : v < userPages)
    (hnew : eager = true → 0 < n → pgRoundUp p.sz / 4096 ≤ v → v < growEnd p.sz (addInt p.sz n) →
      ∀ pa, Q ⟨pa, ⟨true, true, false, true⟩⟩ (fun _ => 0))
    (hz : PageHas Q v m p.pagetable) (h : sysSbrk m p n eager = .ok (m', p', r)) : PageHas Q v m' p'.pagetable := by
  have hapart : TableApart m p.pagetable :=
    Multiset.nodup_of_le (add_le_add_right (Multiset.le_add_left _ _) (free m)) hinv.nodup
  unfold sysSbrk growproc at h
  split at h
  swap
  · split at h
    · simp only [Except.ok.injEq, Prod.mk.injEq] at h
      obtain ⟨rfl, rfl, -⟩ := h
      exact hz
    · simp only [Except.ok.injEq, Prod.mk.injEq] at h
      obtain ⟨rfl, rfl, -⟩ := h
      exact hz
  rename_i he
  split at h
  · -- a growth
    rename_i hn
    have heager : eager = true := he.resolve_right (by omega)
    obtain ⟨⟨m₁, pt, o⟩, ha, h⟩ := bind_ok h
    have hgrown : PageHas Q v m₁ pt := by
      unfold uvmalloc at ha
      split at ha
      · simp only [Except.ok.injEq, Prod.mk.injEq] at ha
        obtain ⟨rfl, rfl, -⟩ := ha
        exact hz
      · obtain ⟨⟨m₂, pt₂, done⟩, hl, ha⟩ := bind_ok ha
        simp only [Except.ok.injEq, Prod.mk.injEq] at ha
        obtain ⟨rfl, rfl, -⟩ := ha
        have hmod := pgRoundUp_mod p.sz
        exact uvmallocLoop_pageHas hmod hinv.wf.topped hapart hv hl (Grows.refl _ _) hmod (Nat.le_refl _) (hnew heager hn) hz
    cases o with
    | none =>
      simp only [Except.ok.injEq, Prod.mk.injEq] at h
      obtain ⟨rfl, rfl, -⟩ := h
      exact hgrown
    | some sz =>
      simp only [Except.ok.injEq, Prod.mk.injEq] at h
      obtain ⟨rfl, rfl, -⟩ := h
      exact hgrown
  split at h
  · -- a shrink
    rename_i hn
    obtain ⟨⟨m₁, pt, sz⟩, hd, h⟩ := bind_ok h
    simp only [Except.ok.injEq, Prod.mk.injEq] at h
    obtain ⟨rfl, rfl, -⟩ := h
    by_cases hlt : addInt p.sz n < p.sz
    · exact hz.dealloc hapart hv (fun w h1 h2 => shrink_lt hsafe hn hlt h2 h1) hd
    · unfold uvmdealloc at hd
      rw [if_pos (Nat.not_lt.mp hlt)] at hd
      simp only [Except.ok.injEq, Prod.mk.injEq] at hd
      obtain ⟨rfl, rfl, -⟩ := hd
      exact hz
  · simp only [Except.ok.injEq, Prod.mk.injEq] at h
    obtain ⟨rfl, rfl, -⟩ := h
    exact hz

end Xv6SnifferBakery.Kernel
