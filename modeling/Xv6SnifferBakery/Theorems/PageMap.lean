import Xv6SnifferBakery.Lemmas.Ram
import Xv6SnifferBakery.Lib.Transition

/-!
# The page table is a finite map

A page table that `uvmcreate` made and any calls of `mappages`, `uvmunmap` and `walk` have changed since is a map from pages to entries:
`mappages` sets the entries of the pages it reaches, `uvmunmap` takes out those of its range, `walk` changes none.
-/

namespace Xv6SnifferBakery.Kernel

open Lib

namespace Ram

variable {m m' : Ram} {root pa : Pa} {va va₀ size npages perm : Nat} {done doFree : Bool}

/-! ## The calls -/

/-- The calls on a page table, and everything else the kernel and its processes do. -/
inductive TableOp where
  | mappages (va size : Nat) (pa : Pa) (perm : Nat)
  | uvmunmap (va npages : Nat) (doFree : Bool)
  | walk (va : Nat)
  | other
  deriving DecidableEq, Repr

/-- No page of the range is mapped to a page of the table itself. -/
def Spares (m : Ram) (root : Pa) (va npages : Nat) : Prop :=
  ∀ a pa flags, va ≤ a → a < va + npages * pgSize → m.lookup root a = .ok (some (pa, flags)) → ¬ m.Table root pa

/-- A call that did not panic. Those that may take a page find none in use on the free list, and `uvmunmap` frees no page of the table. What
goes on besides does not write into the tables. -/
def TableStep (root : Pa) (m : Ram) : TableOp → Ram → Prop
  | .mappages va size pa perm, m' => m.Fresh root ∧ pa < 2 ^ 64 ∧ ∃ done, m.mappages root va size pa perm = .ok (m', done)
  | .uvmunmap va npages doFree, m' => (doFree = true → m.Spares root va npages) ∧ m.uvmunmap root va npages doFree = .ok m'
  | .walk va, m' => m.Fresh root ∧ ∃ pte, m.walk root va true = .ok (m', pte)
  | .other, m' => ∀ p, m.Table root p → m'.words p = m.words p

/-- A new page table. -/
def Created (root : Pa) (m : Ram) : Prop := ∃ m₀ : Ram, m₀.uvmcreate = some (m, root)

/-! ## What each call does -/

theorem Created.words (h : Created root m) (i : Nat) : m.words root i = 0 := by
  obtain ⟨m₀, h⟩ := h
  unfold uvmcreate at h
  split at h
  · cases h
  · obtain ⟨rfl, rfl⟩ := Prod.mk.inj (Option.some.inj h)
    rw [memset_words_self, Nat.zero_mul]

theorem Created.empty (h : Created root m) (i : Nat) : (pageTree root).child (m.words (pageTree root).root i) = none := by
  change pteChild (m.words root i) = none
  rw [h.words]
  rfl

/-- Its one page is the root. -/
theorem Created.table (h : Created root m) : m.Table root pa ↔ pa = root := by
  constructor
  · rintro ⟨d, x, -, hx⟩
    exact (Radix.isTable_of_empty h.empty hx).2.2
  · rintro rfl
    exact ⟨0, 0, by omega, rfl⟩

/-- It maps nothing. -/
theorem Created.lookup (h : Created root m) (hva : va < maxVa) : m.lookup root va = .ok none := by
  have hnone : (pageTree root).table m.words 2 (va / 4096 / 512) = none := by
    cases ht : (pageTree root).table m.words 2 (va / 4096 / 512) with
    | none => rfl
    | some p => exact absurd (Radix.isTable_of_empty h.empty ht).1 (by decide)
  rw [lookup_eq hva, Ram.pages, Radix.entry, hnone]
  rfl

theorem lookup_of_le (hva : maxVa ≤ va) : m.lookup root va = .error .walk := by
  rw [lookup, walk, if_pos hva]
  rfl

/-- The same entries, the same lookups. -/
theorem lookup_congr (h : m'.pages root (va / 4096) = m.pages root (va / 4096)) : m'.lookup root va = m.lookup root va := by
  by_cases hva : va < maxVa
  · rw [lookup_eq hva, lookup_eq hva, h]
  · rw [lookup_of_le (Nat.le_of_not_lt hva), lookup_of_le (Nat.le_of_not_lt hva)]

theorem mappages_ok (hs : m.Separate root) (hf : m.Fresh root) (hpa : pa < 2 ^ 64)
    (h : m.mappages root va₀ size pa perm = .ok (m', done)) :
    va₀ % 4096 = 0 ∧ m'.Separate root ∧ m'.Fresh root ∧ ∃ k, k ≤ size / pgSize ∧ (done = true ↔ k = size / pgSize) ∧
      (done = false → m'.freelist = []) ∧ (0 < k → va₀ + k * 4096 ≤ maxVa) ∧ ∀ v, m'.pages root v =
        if va₀ / 4096 ≤ v ∧ v < va₀ / 4096 + k then some (pa2pte (add64 pa ((v - va₀ / 4096) * 4096)) ||| perm ||| pteV)
        else m.pages root v := by
  unfold mappages at h
  split at h
  · cases h
  · rename_i ha
    split at h
    · cases h
    split at h
    · cases h
    have ha : va₀ % 4096 = 0 := Decidable.not_not.mp ha
    exact ⟨ha, mappagesLoop_ok hs hf ha hpa h⟩

/-- How many pages `uvmunmap` looks at. The end of the range can wrap, and then there are fewer than in the range. -/
theorem unmap_count (va npages : Nat) : (add64 va (npages * 4096) - va) / 4096 ≤ npages ∧
    (va + npages * 4096 < 2 ^ 64 → (add64 va (npages * 4096) - va) / 4096 = npages) ∧
    (0 < (add64 va (npages * 4096) - va) / 4096 → va + (add64 va (npages * 4096) - va) / 4096 * 4096 < 2 ^ 64) := by
  have hle : add64 va (npages * 4096) ≤ va + npages * 4096 := Nat.mod_le _ _
  have hlt : add64 va (npages * 4096) < 2 ^ 64 := Nat.mod_lt _ (by decide)
  refine ⟨by omega, fun hfit => ?_, fun hpos => ?_⟩
  · rw [add64_of_lt hfit]
    omega
  · have hdiv := Nat.div_mul_le_self (add64 va (npages * 4096) - va) 4096
    omega

theorem uvmunmap_ok (hs : m.Separate root) (hspare : doFree = true → m.Spares root va₀ npages)
    (h : m.uvmunmap root va₀ npages doFree = .ok m') : va₀ % 4096 = 0 ∧ ∃ n, n ≤ npages ∧
      (va₀ + npages * pgSize < 2 ^ 64 → n = npages) ∧ Unmapped root (va₀ / 4096) n m m' := by
  unfold uvmunmap at h
  split at h
  · cases h
  · rename_i ha
    have ha : va₀ % 4096 = 0 := Decidable.not_not.mp ha
    obtain ⟨hle, hfit, hmax⟩ := unmap_count va₀ npages
    refine ⟨ha, _, hle, hfit, ?_⟩
    obtain hzero | hpos := Nat.eq_zero_or_pos ((add64 va₀ (npages * 4096) - va₀) / 4096)
    · change forFrom _ 0 ((add64 va₀ (npages * 4096) - va₀) / 4096) m = .ok m' at h
      rw [hzero, forFrom_zero] at h
      rw [hzero, Except.ok.inj h]
      exact .refl m'
    · refine unmapLoop_ok hs ha (fun hdo v w hlt hv hn hw => ?_) (hmax hpos) h
      refine hspare hdo (v * 4096) (pte2pa w) (pteFlags w) (by omega) ?_ ?_
      · change v * 4096 < va₀ + npages * 4096
        omega
      · rw [lookup_eq hlt, Nat.mul_div_cancel v (by decide), hw]
        rfl

/-! ## The map -/

/-- Every call keeps the tables apart. -/
theorem TableStep.separate {op : TableOp} (hs : m.Separate root) (h : TableStep root m op m') : m'.Separate root := by
  cases op with
  | mappages va size pa perm =>
    obtain ⟨hf, hpa, done, h⟩ := h
    exact (mappages_ok hs hf hpa h).2.1
  | uvmunmap va npages doFree =>
    obtain ⟨-, n, -, -, hun⟩ := uvmunmap_ok hs h.1 h.2
    exact hs.congr hun.tables
  | walk va =>
    obtain ⟨hf, pte, h⟩ := h
    exact (walk_alloc hs hf h).1.separate
  | other => exact hs.congr (fun d x hd => Radix.table_frame h hd)

theorem separate_of_reach (h : Reach (Created root) (TableStep root) m) : m.Separate root :=
  h.invariant (fun m => m.Separate root) (fun _ hm => Radix.separate_of_empty hm.empty) (fun _ _ _ hs hstep => hstep.separate hs)

/-- An address is in a range of pages when its page is. -/
theorem page_mem {v n : Nat} (ha : va₀ % 4096 = 0) (hv : v = va / 4096) :
    (va₀ / 4096 ≤ v ∧ v < va₀ / 4096 + n) ↔ va₀ ≤ va ∧ va < va₀ + n * 4096 := by
  omega

theorem mappages_lookup (hs : m.Separate root) (hf : m.Fresh root) (hpa : pa < 2 ^ 64) (hperm : perm < 1024)
    (h : m.mappages root va₀ size pa perm = .ok (m', done)) :
    ∃ n, n ≤ size / pgSize ∧ (done = true ↔ n = size / pgSize) ∧ (done = false → m'.freelist = []) ∧
      ∀ va, m'.lookup root va = if va₀ ≤ va ∧ va < va₀ + n * pgSize
        then .ok (some (add64 (pgRoundDown pa) (pgRoundDown va - va₀), perm ||| pteV)) else m.lookup root va := by
  obtain ⟨ha, -, -, n, hn, hdone, hempty, hmax, hpages⟩ := mappages_ok hs hf hpa h
  refine ⟨n, hn, hdone, hempty, fun va => ?_⟩
  have hpage := hpages (va / 4096)
  by_cases hin : va₀ ≤ va ∧ va < va₀ + n * 4096
  · have hva : va < maxVa := Nat.lt_of_lt_of_le hin.2 (hmax (by omega))
    have hflags : perm ||| pteV < 2 ^ 10 := Nat.or_lt_two_pow hperm (by decide)
    have hshift : pgRoundDown (add64 pa ((va / 4096 - va₀ / 4096) * 4096)) = add64 (pgRoundDown pa) (pgRoundDown va - va₀) := by
      unfold pgRoundDown add64
      omega
    have hword : add64 pa ((va / 4096 - va₀ / 4096) * 4096) < 2 ^ 64 := Nat.mod_lt _ (by decide)
    rw [if_pos ((page_mem ha rfl).mpr hin), Nat.or_assoc] at hpage
    rw [if_pos hin, lookup_eq hva, hpage, Option.map_some, pteFlags_pa2pte hflags, pte2pa_pa2pte hword hflags, hshift]
  · rw [if_neg (fun hc => hin ((page_mem ha rfl).mp hc))] at hpage
    rw [if_neg hin]
    exact lookup_congr hpage

theorem uvmunmap_lookup (hs : m.Separate root) (hmax : va₀ + npages * pgSize ≤ maxVa) (hspare : doFree = true → m.Spares root va₀ npages)
    (h : m.uvmunmap root va₀ npages doFree = .ok m') (va : Nat) :
    m'.lookup root va = if va₀ ≤ va ∧ va < va₀ + npages * pgSize then .ok none else m.lookup root va := by
  obtain ⟨ha, n, -, hfit, hun⟩ := uvmunmap_ok hs hspare h
  obtain rfl := hfit (Nat.lt_of_le_of_lt hmax (by decide))
  have hpage := hun.pages (va / 4096)
  by_cases hin : va₀ ≤ va ∧ va < va₀ + n * 4096
  · rw [if_pos ((page_mem ha rfl).mpr hin)] at hpage
    rw [if_pos hin, lookup_eq (Nat.lt_of_lt_of_le hin.2 hmax), hpage]
    rfl
  · rw [if_neg (fun hc => hin ((page_mem ha rfl).mp hc))] at hpage
    rw [if_neg hin]
    exact lookup_congr hpage

theorem walk_lookup {pte : Option (Pa × Nat)} (hs : m.Separate root) (hf : m.Fresh root) (h : m.walk root va true = .ok (m', pte))
    (va' : Nat) : m'.lookup root va' = m.lookup root va' :=
  lookup_congr ((walk_alloc hs hf h).1.pages _)

/-- A page that no lookup finds. -/
theorem pages_none {v : Nat} (hv : v * 4096 < maxVa) (h : m.lookup root (v * 4096) = .ok none) : m.pages root v = none := by
  rw [lookup_eq hv, Nat.mul_div_cancel v (by decide)] at h
  exact Option.map_eq_none_iff.mp (Except.ok.inj h)

theorem mappages_runs (hs : m.Separate root) (hf : m.Fresh root) (ha : va₀ % pgSize = 0) (hsize : size % pgSize = 0) (hne : size ≠ 0)
    (hmax : va₀ + size ≤ maxVa) (hnone : ∀ va, va₀ ≤ va → va < va₀ + size → m.lookup root va = .ok none) :
    ∃ r, m.mappages root va₀ size pa perm = .ok r := by
  unfold mappages
  rw [if_neg (not_not_intro ha), if_neg (not_not_intro hsize), if_neg hne]
  change va₀ % 4096 = 0 at ha
  change size % 4096 = 0 at hsize
  change ∃ r, mappagesLoop root perm (size / 4096) m va₀ pa = .ok r
  refine mappagesLoop_runs hs hf ha (by omega) (fun v hv hlt => ?_)
  exact pages_none (by omega) (hnone _ (by omega) (by omega))

theorem uvmunmap_runs (hs : m.Separate root) (ha : va₀ % pgSize = 0) (hmax : va₀ + npages * pgSize ≤ maxVa)
    (hfree : doFree = true → m.Spares root va₀ npages ∧ ∀ va pa flags, va₀ ≤ va → va < va₀ + npages * pgSize →
      m.lookup root va = .ok (some (pa, flags)) → m.kend ≤ pa ∧ pa < physTop) : ∃ m', m.uvmunmap root va₀ npages doFree = .ok m' := by
  have hcount : (add64 va₀ (npages * 4096) - va₀) / 4096 = npages := (unmap_count va₀ npages).2.1 (Nat.lt_of_le_of_lt hmax (by decide))
  unfold uvmunmap
  rw [if_neg (not_not_intro ha)]
  change ∃ m', forFrom _ 0 ((add64 va₀ (npages * 4096) - va₀) / 4096) m = .ok m'
  rw [hcount]
  change va₀ % 4096 = 0 at ha
  change va₀ + npages * 4096 ≤ maxVa at hmax
  have hfound : ∀ v w, v * 4096 < maxVa → m.pages root v = some w → m.lookup root (v * 4096) = .ok (some (pte2pa w, pteFlags w)) := by
    intro v w hv hw
    rw [lookup_eq hv, Nat.mul_div_cancel v (by decide), hw]
    rfl
  have hrange : ∀ v, va₀ / 4096 ≤ v → v < va₀ / 4096 + npages → va₀ ≤ v * 4096 ∧ v * 4096 < va₀ + npages * 4096 := by
    intro v hv hlt
    omega
  refine unmapLoop_runs hs ha (fun hdo v w hv hge hlt hw => ?_) hmax (fun hdo v w hge hlt hw => ?_)
  · exact (hfree hdo).1 (v * 4096) _ _ (hrange v hge hlt).1 (hrange v hge hlt).2 (hfound v w hv hw)
  · have hv : v * 4096 < maxVa := Nat.lt_of_lt_of_le (hrange v hge hlt).2 hmax
    exact (hfree hdo).2 (v * 4096) _ _ (hrange v hge hlt).1 (hrange v hge hlt).2 (hfound v w hv hw)

/-- For every page table that `uvmcreate` made and any of its calls have changed since: `mappages` has mapped a prefix of its range,
all of it unless there was no page for a table, to the pages from `pa` on and with `perm`, `uvmunmap` has left no page of its range
mapped, and every other address is looked up as before; `walk` changes no lookup. `mappages` over pages none of which is mapped does not
panic, and `uvmunmap` does not when what it frees are pages that `kalloc` gives out. -/
theorem page_table_is_map {root : Pa} {m : Ram} (h : Reach (Created root) (TableStep root) m) :
    (∀ va₀ size pa perm m' done, m.Fresh root → pa < 2 ^ 64 → perm < 1024 → m.mappages root va₀ size pa perm = .ok (m', done) →
      ∃ n, n ≤ size / pgSize ∧ (done = true ↔ n = size / pgSize) ∧ (done = false → m'.freelist = []) ∧
        ∀ va, m'.lookup root va = if va₀ ≤ va ∧ va < va₀ + n * pgSize
          then .ok (some (add64 (pgRoundDown pa) (pgRoundDown va - va₀), perm ||| pteV)) else m.lookup root va) ∧
    (∀ va₀ npages doFree m', va₀ + npages * pgSize ≤ maxVa → (doFree = true → m.Spares root va₀ npages) →
      m.uvmunmap root va₀ npages doFree = .ok m' →
        ∀ va, m'.lookup root va = if va₀ ≤ va ∧ va < va₀ + npages * pgSize then .ok none else m.lookup root va) ∧
    (∀ va m' pte, m.Fresh root → m.walk root va true = .ok (m', pte) → ∀ va', m'.lookup root va' = m.lookup root va') ∧
    (∀ va₀ size pa perm, m.Fresh root → va₀ % pgSize = 0 → size % pgSize = 0 → size ≠ 0 → va₀ + size ≤ maxVa →
      (∀ va, va₀ ≤ va → va < va₀ + size → m.lookup root va = .ok none) → ∃ r, m.mappages root va₀ size pa perm = .ok r) ∧
    ∀ va₀ npages doFree, va₀ % pgSize = 0 → va₀ + npages * pgSize ≤ maxVa → (doFree = true → m.Spares root va₀ npages ∧
        ∀ va pa flags, va₀ ≤ va → va < va₀ + npages * pgSize → m.lookup root va = .ok (some (pa, flags)) → m.kend ≤ pa ∧ pa < physTop) →
      ∃ m', m.uvmunmap root va₀ npages doFree = .ok m' := by
  have hs := separate_of_reach h
  refine ⟨?_, ?_, ?_, ?_, ?_⟩
  · intro va₀ size pa perm m' done hf hpa hperm hok
    exact mappages_lookup hs hf hpa hperm hok
  · intro va₀ npages doFree m' hmax hspare hok
    exact uvmunmap_lookup hs hmax hspare hok
  · intro va m' pte hf hok
    exact walk_lookup hs hf hok
  · intro va₀ size pa perm hf ha hsize hne hmax hnone
    exact mappages_runs hs hf ha hsize hne hmax hnone
  · intro va₀ npages doFree ha hmax hfree
    exact uvmunmap_runs hs ha hmax hfree

/-- Two pages, over memory that has been in use. -/
theorem page_table_is_map_two : ∃ m m' : Ram, Created 0x87fff000 m ∧ m.mappages 0x87fff000 0x1000 0x2000 0x80100000 2 = .ok (m', true) ∧
    m'.lookup 0x87fff000 0x2000 = .ok (some (0x80101000, 3)) ∧ m'.lookup 0x87fff000 0x3000 = m.lookup 0x87fff000 0x3000 := by
  obtain ⟨m, hm, hfree, m', hok⟩ : ∃ m,
      (⟨0x80021000, fun _ _ => 7, [0x87fff000, 0x87ffe000, 0x87ffd000], by decide⟩ : Ram).uvmcreate = some (m, 0x87fff000) ∧
      m.freelist = [0x87ffe000, 0x87ffd000] ∧ ∃ m', m.mappages 0x87fff000 0x1000 0x2000 0x80100000 2 = .ok (m', true) :=
    ⟨_, rfl, rfl, _, rfl⟩
  have hnew : Created 0x87fff000 m := ⟨_, hm⟩
  have hfresh : m.Fresh 0x87fff000 := by
    rw [Fresh, hfree]
    refine ⟨by decide, fun p hp hc => ?_⟩
    rw [hnew.table.mp hc] at hp
    revert hp
    decide
  obtain ⟨n, -, hdone, -, hlook⟩ := (page_table_is_map (.of_init hnew : Reach (Created 0x87fff000) (TableStep 0x87fff000) m)).1
    0x1000 0x2000 0x80100000 2 m' true hfresh (by decide) (by decide) hok
  obtain rfl : n = 2 := hdone.mp rfl
  exact ⟨m, m', hnew, hok, hlook 0x2000, hlook 0x3000⟩

end Ram

end Xv6SnifferBakery.Kernel
