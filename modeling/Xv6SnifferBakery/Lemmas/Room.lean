import Xv6SnifferBakery.Lemmas.Exec

/-!
# When memory suffices

How many pages a new mapping takes for tables, and how many a new image takes in all.
-/

namespace Xv6SnifferBakery.Kernel

open Lib

variable {m m' : Machine} {pt pt' : PageTable} {va : Nat} {pa : Pa} {perm : Perm}

/-! ## Tables -/

/-- The tables of a page table are those that lead to the addresses of a list. -/
structure PageTable.TablesFor (pt : PageTable) (as : List Nat) : Prop where
  mid : ∀ i, (pt.mid i).isSome ↔ ∃ a ∈ as, a / 2 ^ 30 = i
  low : ∀ k, (pt.low k).isSome ↔ ∃ a ∈ as, a / 2 ^ 21 = k

/-- The tables that the way to `va` takes, when those that lead to the addresses of a list are there. -/
def tableCost (as : List Nat) (va : Nat) : Nat :=
  (if ∃ a ∈ as, a / 2 ^ 30 = va / 2 ^ 30 then 0 else 1) + if ∃ a ∈ as, a / 2 ^ 21 = va / 2 ^ 21 then 0 else 1

/-- What one level of `walk` takes from the free list. -/
theorem nextLevel_room {o : Option Pa} :
    ((nextLevel m o true).isSome ↔ (if o.isSome then 0 else 1) ≤ m.freelist.length) ∧
    ∀ m' pa, nextLevel m o true = some (m', pa) → m'.freelist.length + (if o.isSome then 0 else 1) = m.freelist.length := by
  cases hp : o with
  | some q =>
    refine ⟨by simp [nextLevel], ?_⟩
    intro m' pa h
    obtain ⟨rfl, -⟩ := Prod.mk.inj (Option.some.inj h)
    rfl
  | none =>
    constructor
    · cases hk : kalloc m with
      | none =>
        have hlen := kalloc_eq_none_iff.mp hk
        simp [nextLevel, hk, hlen]
      | some x =>
        have hlen := (kalloc_some hk).1
        simp [nextLevel, hk, hlen]
    · intro m' pa h
      obtain ⟨hn, -⟩ | ⟨-, hlen, -⟩ := nextLevel_some h
      · cases hn
      · simp [hlen]

/-- The tables that are missing on the way to `va`. -/
def PageTable.missing (pt : PageTable) (va : Nat) : Nat :=
  (if (pt.mid (va / 2 ^ 30)).isSome then 0 else 1) + if (pt.low (va / 2 ^ 21)).isSome then 0 else 1

/-- The tables of `pt'` are those of `pt` and those on the way to `va`. -/
structure PageTable.WayTo (pt : PageTable) (va : Nat) (pt' : PageTable) : Prop where
  mid : ∀ i, (pt'.mid i).isSome ↔ i = va / 2 ^ 30 ∨ (pt.mid i).isSome
  low : ∀ k, (pt'.low k).isSome ↔ k = va / 2 ^ 21 ∨ (pt.low k).isSome

theorem isSome_update {f : Nat → Option Pa} {i j : Nat} : (Function.update f i (some pa) j).isSome ↔ j = i ∨ (f j).isSome := by
  rcases eq_or_ne j i with rfl | hne
  · simp
  · simp [hne]

/-- `walk` finds a leaf entry when the free list has the tables that are missing. -/
theorem walk_missing {r : Option Nat} (h : walk m pt va true = .ok (m', pt', r)) :
    (r.isSome ↔ pt.missing va ≤ m.freelist.length) ∧
    (r.isSome → m'.freelist.length + pt.missing va = m.freelist.length ∧ pt.WayTo va pt') := by
  unfold walk at h
  split at h
  · nomatch h
  rename_i hva
  have hi : va / 2 ^ 30 < 256 := by
    unfold maxVa at hva
    omega
  have hmid := nextLevel_room (m := m) (o := pt.mid (va / 2 ^ 30))
  cases h1 : nextLevel m (pt.mid (va / 2 ^ 30)) true with
  | none =>
    simp only [h1, Except.ok.injEq, Prod.mk.injEq] at h
    obtain ⟨rfl, rfl, rfl⟩ := h
    have hshort := hmid.1.not.mp (by rw [h1]; simp)
    refine ⟨iff_of_false (by simp) ?_, by simp⟩
    unfold PageTable.missing
    omega
  | some x =>
    obtain ⟨m₁, mid⟩ := x
    have hlen₁ := hmid.2 _ _ h1
    have henough := hmid.1.mp (by rw [h1]; rfl)
    simp only [h1, PageTable.setMid_low] at h
    have hlow := nextLevel_room (m := m₁) (o := pt.low (va / 2 ^ 21))
    cases h2 : nextLevel m₁ (pt.low (va / 2 ^ 21)) true with
    | none =>
      simp only [h2, Except.ok.injEq, Prod.mk.injEq] at h
      obtain ⟨rfl, rfl, rfl⟩ := h
      have hshort := hlow.1.not.mp (by rw [h2]; simp)
      refine ⟨iff_of_false (by simp) ?_, by simp⟩
      unfold PageTable.missing
      omega
    | some y =>
      obtain ⟨m₂, low⟩ := y
      simp only [h2, Except.ok.injEq, Prod.mk.injEq] at h
      obtain ⟨rfl, rfl, rfl⟩ := h
      have hlen₂ := hlow.2 _ _ h2
      have hsum : m₂.freelist.length + pt.missing va = m.freelist.length := by
        unfold PageTable.missing
        omega
      refine ⟨iff_of_true (by simp) (by omega), fun _ => ⟨hsum, ?_, ?_⟩⟩
      · intro i
        rw [PageTable.setLow_mid, PageTable.setMid_mid _ _ _ hi, isSome_update]
      · intro k
        have hsome : ((pt.setMid (va / 2 ^ 30) mid).mid (va / 2 ^ 21 / 512)).isSome := by
          rw [PageTable.setMid_mid _ _ _ hi, show va / 2 ^ 21 / 512 = va / 2 ^ 30 by omega, Function.update_self]
          rfl
        rw [PageTable.setLow_low _ _ _ hsome, PageTable.setMid_low, isSome_update]

/-- `mappages` of one page succeeds when the free list has the tables that are missing. -/
theorem mappages_missing {r : Bool} (h : mappages m pt va pgSize pa perm = .ok (m', pt', r)) :
    (r = true ↔ pt.missing va ≤ m.freelist.length) ∧
    (r = true → m'.freelist.length + pt.missing va = m.freelist.length ∧ pt.WayTo va pt') := by
  unfold mappages at h
  split at h
  · cases h
  rw [if_neg (by decide), if_neg (by decide), show pgSize / pgSize = 0 + 1 from rfl, mappagesLoop] at h
  obtain ⟨⟨m₁, pt₁, o⟩, hw, h⟩ := bind_ok h
  obtain ⟨hiff, hlen⟩ := walk_missing hw
  cases o with
  | none =>
    simp only [Except.ok.injEq, Prod.mk.injEq] at h
    obtain ⟨rfl, rfl, rfl⟩ := h
    exact ⟨iff_of_false (by simp) (hiff.not.mp (by simp)), by simp⟩
  | some v =>
    simp only at h
    split at h
    · cases h
    simp only [mappagesLoop, Except.ok.injEq, Prod.mk.injEq] at h
    obtain ⟨rfl, rfl, rfl⟩ := h
    obtain ⟨hsum, hway⟩ := hlen rfl
    refine ⟨iff_of_true rfl (hiff.mp rfl), fun _ => ⟨hsum, ?_, ?_⟩⟩
    · simpa using hway.mid
    · simpa using hway.low

/-! ## Tables of a new page table -/

section Walk

variable {as : List Nat}

theorem PageTable.TablesFor.missing (h : pt.TablesFor as) : pt.missing va = tableCost as va :=
  congrArg₂ (· + ·) (if_congr (h.mid _) rfl rfl) (if_congr (h.low _) rfl rfl)

/-- The tables after the way to one more address is there. -/
theorem PageTable.TablesFor.cons (h : pt.TablesFor as) (hway : pt.WayTo va pt') : pt'.TablesFor (va :: as) := by
  refine ⟨fun i => ?_, fun k => ?_⟩
  · rw [hway.mid, h.mid, List.exists_mem_cons_iff, eq_comm]
  · rw [hway.low, h.low, List.exists_mem_cons_iff, eq_comm]

/-- `mappages` of one page succeeds when the free list has the tables it takes. -/
theorem mappages_room {r : Bool} (hT : pt.TablesFor as) (h : mappages m pt va pgSize pa perm = .ok (m', pt', r)) :
    (r = true ↔ tableCost as va ≤ m.freelist.length) ∧
    (r = true → m'.freelist.length + tableCost as va = m.freelist.length ∧ pt'.TablesFor (va :: as)) := by
  rw [← hT.missing]
  obtain ⟨hiff, hlen⟩ := mappages_missing h
  exact ⟨hiff, fun hr => ⟨(hlen hr).1, hT.cons (hlen hr).2⟩⟩

end Walk

/-- A walk that stops for want of a table leaves no free page. -/
theorem walk_short (h : walk m pt va true = .ok (m', pt', none)) : m'.freelist = [] := by
  have hnext : ∀ {m : Machine} {o : Option Pa}, nextLevel m o true = none → m.freelist = [] := by
    intro m o hn
    have hroom := (nextLevel_room (m := m) (o := o)).1.not.mp (by rw [hn]; simp)
    refine List.eq_nil_of_length_eq_zero ?_
    split at hroom <;> omega
  unfold walk at h
  split at h
  · nomatch h
  cases h1 : nextLevel m (pt.mid (va / 2 ^ 30)) true with
  | none =>
    simp only [h1, Except.ok.injEq, Prod.mk.injEq] at h
    obtain ⟨rfl, -, -⟩ := h
    exact hnext h1
  | some x =>
    obtain ⟨m₁, mid⟩ := x
    simp only [h1, PageTable.setMid_low] at h
    cases h2 : nextLevel m₁ (pt.low (va / 2 ^ 21)) true with
    | none =>
      simp only [h2, Except.ok.injEq, Prod.mk.injEq] at h
      obtain ⟨rfl, -, -⟩ := h
      exact hnext h2
    | some y =>
      simp only [h2, Except.ok.injEq, Prod.mk.injEq] at h
      obtain ⟨-, -, hn⟩ := h
      nomatch hn

theorem mappages_short (h : mappages m pt va pgSize pa perm = .ok (m', pt', false)) : m'.freelist = [] := by
  unfold mappages at h
  split at h
  · cases h
  rw [if_neg (by decide), if_neg (by decide), show pgSize / pgSize = 0 + 1 from rfl, mappagesLoop] at h
  obtain ⟨⟨m₁, pt₁, o⟩, hw, h⟩ := bind_ok h
  cases o with
  | none =>
    simp only [Except.ok.injEq, Prod.mk.injEq] at h
    obtain ⟨rfl, -, -⟩ := h
    exact walk_short hw
  | some v =>
    simp only at h
    split at h
    · cases h
    · cases h

/-- Without a free page, `mappages` of a page whose tables are missing changes nothing. -/
theorem mappages_empty (hal : va % 4096 = 0) (hlt : va < maxVa) (hempty : m.freelist = []) (hmiss : 0 < pt.missing va) :
    mappages m pt va pgSize pa perm = .ok (m, pt, false) := by
  have hk := kalloc_eq_none_iff.mpr hempty
  have hwalk : walk m pt va true = .ok (m, pt, none) := by
    unfold walk
    rw [if_neg (Nat.not_le.mpr hlt)]
    cases hmid : pt.mid (va / 2 ^ 30) with
    | none => simp only [nextLevel, hk, if_true]
    | some mid =>
      have hlow : pt.low (va / 2 ^ 21) = none := by
        by_contra hne
        have hsome : (pt.low (va / 2 ^ 21)).isSome := Option.isSome_iff_ne_none.mpr hne
        rw [PageTable.missing, hmid, Option.isSome_some, if_pos rfl, if_pos hsome] at hmiss
        omega
      simp only [nextLevel, PageTable.setMid_low, hlow, hk, if_true]
      rw [PageTable.setMid_self _ _ _ hmid]
  unfold mappages
  rw [if_neg (by unfold pgSize; omega), if_neg (by decide), if_neg (by decide), show pgSize / pgSize = 0 + 1 from rfl, mappagesLoop,
    bind_of_ok hwalk]

/-! ## Tables of a range -/

/-- How many of the tables that pages `[v, v + n)` need are missing, at a level where a table serves `d` pages. -/
def absent (f : Nat → Option Pa) (d v n : Nat) : Nat := (((Finset.Ico v (v + n)).image (· / d)).filter (fun k => f k = none)).card

/-- The tables that are missing for the pages `[v, v + n)`. -/
def PageTable.tablesFor (pt : PageTable) (v n : Nat) : Nat := absent pt.mid (2 ^ 18) v n + absent pt.low 512 v n

theorem absent_succ {f g : Nat → Option Pa} {d v : Nat} (n : Nat) (hf : ∀ k, (g k).isSome ↔ k = v / d ∨ (f k).isSome) :
    absent f d v (n + 1) = (if (f (v / d)).isSome then 0 else 1) + absent g d (v + 1) n := by
  have hrange : (Finset.Ico v (v + (n + 1))).image (· / d) = insert (v / d) ((Finset.Ico (v + 1) (v + 1 + n)).image (· / d)) := by
    rw [show v + (n + 1) = v + 1 + n by omega, ← Finset.insert_Ico_add_one_left_eq_Ico (by omega), Finset.image_insert]
  have hnone : ∀ k, g k = none ↔ k ≠ v / d ∧ f k = none := by
    intro k
    rw [← Option.not_isSome_iff_eq_none, ← Option.not_isSome_iff_eq_none, hf k, not_or]
  unfold absent
  rw [hrange, Finset.filter_insert]
  by_cases hs : (f (v / d)).isSome
  · have hne : f (v / d) ≠ none := Option.isSome_iff_ne_none.mp hs
    rw [if_pos hs, if_neg hne, Nat.zero_add]
    refine congrArg Finset.card (Finset.filter_congr (fun k _ => ?_))
    rw [hnone, iff_and_self]
    rintro hk rfl
    exact hne hk
  · have hn : f (v / d) = none := Option.not_isSome_iff_eq_none.mp hs
    have hsame : insert (v / d) (((Finset.Ico (v + 1) (v + 1 + n)).image (· / d)).filter (fun k => f k = none)) =
        insert (v / d) (((Finset.Ico (v + 1) (v + 1 + n)).image (· / d)).filter (fun k => g k = none)) := by
      ext k
      rw [Finset.mem_insert, Finset.mem_insert, Finset.mem_filter, Finset.mem_filter, hnone]
      tauto
    rw [if_neg hs, if_pos hn, hsame, Finset.card_insert_of_notMem, Nat.add_comm]
    rw [Finset.mem_filter, hnone]
    tauto

/-- The tables of a range: those on the way to its first page, and what is missing for the others then. -/
theorem PageTable.tablesFor_succ {v : Nat} (n : Nat) (hway : pt.WayTo (v * 4096) pt') :
    pt.tablesFor v (n + 1) = pt.missing (v * 4096) + pt'.tablesFor (v + 1) n := by
  have hmid : v * 4096 / 2 ^ 30 = v / 2 ^ 18 := by omega
  have hlow : v * 4096 / 2 ^ 21 = v / 512 := by omega
  have h := hway
  rw [PageTable.tablesFor, absent_succ n (by rw [← hmid]; exact h.mid), absent_succ n (by rw [← hlow]; exact h.low), PageTable.missing,
    hmid, hlow, PageTable.tablesFor]
  omega

/-- The first page of a range may need its tables. -/
theorem PageTable.missing_le_tablesFor {v : Nat} (n : Nat) : pt.missing (v * 4096) ≤ pt.tablesFor v (n + 1) := by
  have hle : ∀ (f : Nat → Option Pa) (d : Nat), (if (f (v / d)).isSome then 0 else 1) ≤ absent f d v (n + 1) := by
    intro f d
    rw [absent_succ (g := Function.update f (v / d) (some 0)) n (fun k => isSome_update)]
    omega
  have h1 := hle pt.mid (2 ^ 18)
  have h2 := hle pt.low 512
  rw [PageTable.missing, show v * 4096 / 2 ^ 30 = v / 2 ^ 18 by omega, show v * 4096 / 2 ^ 21 = v / 512 by omega, PageTable.tablesFor]
  omega

/-! ## A new image -/

/-- The addresses a new table maps. -/
def topPages : List Nat := [trapframeVa, trampolineVa]

theorem uvmcreate_room (h : uvmcreate m = some (m', pt)) : m.freelist.length = m'.freelist.length + 1 ∧ pt.TablesFor [] := by
  unfold uvmcreate at h
  split at h
  · nomatch h
  · rename_i m₀ pa hk
    obtain ⟨rfl, rfl⟩ := Prod.mk.inj (Option.some.inj h)
    refine ⟨by rw [(kalloc_some hk).1]; rfl, ⟨fun i => ?_, fun k => ?_⟩⟩
    · simp [PageTable.null]
    · simp [PageTable.null]

/-- The table of a new image: three pages of the free list. -/
theorem procPagetable_room {trapframe : Pa} (h : procPagetable m trapframe = .ok (m', some pt)) :
    m'.freelist.length + 3 = m.freelist.length ∧ pt.TablesFor topPages := by
  unfold procPagetable at h
  split at h
  · nomatch h
  rename_i m₁ pt₁ hc
  have hone := uvmcreate_room hc
  obtain ⟨⟨m₂, pt₂, b₂⟩, h2, h⟩ := bind_ok h
  obtain ⟨-, hroom₂⟩ := mappages_room hone.2 h2
  cases b₂ with
  | false =>
    obtain ⟨m₃, -, h⟩ := bind_ok h
    cases h
  | true =>
    obtain ⟨hlen₂, hT₂⟩ := hroom₂ rfl
    obtain ⟨⟨m₃, pt₃, b₃⟩, h3, h⟩ := bind_ok h
    obtain ⟨-, hroom₃⟩ := mappages_room hT₂ h3
    cases b₃ with
    | false =>
      obtain ⟨⟨m₄, pt₄⟩, -, h⟩ := bind_ok h
      obtain ⟨m₅, -, h⟩ := bind_ok h
      cases h
    | true =>
      obtain ⟨hlen₃, hT₃⟩ := hroom₃ rfl
      simp only [Except.ok.injEq, Prod.mk.injEq, Option.some.injEq] at h
      obtain ⟨rfl, rfl⟩ := h
      have hc₂ : tableCost [] trampolineVa = 2 := by decide
      have hc₃ : tableCost [trampolineVa] trapframeVa = 0 := by decide
      exact ⟨by omega, hT₃⟩

/-- The pages that the guard page at `base` and the stack page above it take, with their tables. -/
def stackCost (base : Nat) : Nat := 1 + tableCost topPages base + (1 + tableCost (base :: topPages) (base + pgSize))

/-- The guard page and the stack page can be mapped when the free list has the pages they take. -/
theorem execStack_room {sz : Nat} {r : Bool} (hT : pt.TablesFor topPages) (h : execStack m pt (imageTop sz) = .ok (m', pt', r)) :
    r = true ↔ stackCost (guardBase (imageTop sz)) ≤ m.freelist.length := by
  unfold execStack at h
  unfold stackCost
  cases hk : kalloc m with
  | none =>
    simp only [hk, Except.ok.injEq, Prod.mk.injEq] at h
    obtain ⟨rfl, rfl, rfl⟩ := h
    have hempty := kalloc_eq_none_iff.mp hk
    refine iff_of_false (by simp) ?_
    rw [hempty, List.length_nil]
    omega
  | some x =>
    obtain ⟨m₁, gmem⟩ := x
    have hlen₁ : m.freelist.length = m₁.freelist.length + 1 := by
      rw [(kalloc_some hk).1]
      rfl
    simp only [hk] at h
    obtain ⟨⟨m₂, pt₂, b₂⟩, hm, h⟩ := bind_ok h
    obtain ⟨hiff₂, hroom₂⟩ := mappages_room hT hm
    rw [Machine.fill_freelist] at hiff₂ hroom₂
    cases b₂ with
    | false =>
      obtain ⟨m₃, -, h⟩ := bind_ok h
      simp only [Except.ok.injEq, Prod.mk.injEq] at h
      obtain ⟨rfl, rfl, rfl⟩ := h
      have hshort := hiff₂.not.mp (by simp)
      exact iff_of_false (by simp) (by omega)
    | true =>
      obtain ⟨hlen₂, hT₂⟩ := hroom₂ rfl
      have hguard : guardBase (imageTop sz) < maxVa := by
        obtain ⟨-, hg⟩ | ⟨hf, -⟩ := mappages_page hm
        · exact hg.lt
        · nomatch hf
      obtain ⟨hlow, hgb, hsb⟩ := imageTop_of_guard hguard
      have hmod := imageTop_mod sz
      have hpage : pgRoundDown (sub64 (imageTop sz) pgSize) = guardBase (imageTop sz) + pgSize := by
        rw [hsb, hgb, pgRoundDown_of_aligned (by omega), pgSize]
        omega
      obtain ⟨pt₃, hc, h⟩ := bind_ok h
      obtain rfl := uvmclear_spec hc
      cases hk₂ : kalloc m₂ with
      | none =>
        simp only [hk₂, Except.ok.injEq, Prod.mk.injEq] at h
        obtain ⟨rfl, rfl, rfl⟩ := h
        have hempty := congrArg List.length (kalloc_eq_none_iff.mp hk₂)
        rw [List.length_nil] at hempty
        exact iff_of_false (by simp) (by omega)
      | some y =>
        obtain ⟨m₃, smem⟩ := y
        have hlen₃ : m₂.freelist.length = m₃.freelist.length + 1 := by
          rw [(kalloc_some hk₂).1]
          rfl
        simp only [hk₂, hpage] at h
        obtain ⟨⟨m₄, pt₄, b₄⟩, hm₄, h⟩ := bind_ok h
        have hT₃ : (pt₂.modLeaf (guardBase (imageTop sz) / 4096)
            (fun pte => { pte with perm := { pte.perm with u := false } })).TablesFor (guardBase (imageTop sz) :: topPages) := by
          refine ⟨?_, ?_⟩
          · simpa using hT₂.mid
          · simpa using hT₂.low
        obtain ⟨hiff₄, -⟩ := mappages_room hT₃ hm₄
        rw [Machine.fill_freelist] at hiff₄
        cases b₄ with
        | false =>
          obtain ⟨m₅, -, h⟩ := bind_ok h
          simp only [Except.ok.injEq, Prod.mk.injEq] at h
          obtain ⟨rfl, rfl, rfl⟩ := h
          have hshort := hiff₄.not.mp (by simp)
          exact iff_of_false (by simp) (by omega)
        | true =>
          simp only [Except.ok.injEq, Prod.mk.injEq] at h
          obtain ⟨rfl, rfl, rfl⟩ := h
          have henough := hiff₄.mp rfl
          exact iff_of_true rfl (by omega)

/-! ## The arguments -/

/-- What `n` bytes take on the stack. -/
def pushed (n : Nat) : Nat := (n + 15) / 16 * 16

/-- What the argument strings take on the stack. -/
def argSpace (argv : List (List Byte)) : Nat := (argv.map (fun s => pushed (s.length + 1))).sum

/-- The argument strings and the pointers to them fit in the stack page. -/
def argsFit (argv : List (List Byte)) : Prop := argSpace argv + pushed ((argv.length + 1) * 8) ≤ pgSize

instance (argv : List (List Byte)) : Decidable (argsFit argv) := inferInstanceAs (Decidable (_ ≤ _))

theorem argSpace_mod (argv : List (List Byte)) : argSpace argv % 16 = 0 := by
  induction argv with
  | nil => rfl
  | cons s rest ih =>
    have hcons : argSpace (s :: rest) = pushed (s.length + 1) + argSpace rest := by simp [argSpace]
    rw [hcons]
    unfold pushed
    omega

theorem pushDown_eq {sp n : Nat} (hal : sp % 16 = 0) (hn : n ≤ sp) (hsp : sp < 2 ^ 64) : pushDown sp n = sp - pushed n := by
  have hsub : sub64 sp n = sp - n := sub64_of_le hn hsp
  unfold pushDown
  rw [hsub, sub64_of_le (Nat.mod_le _ _) (by omega)]
  unfold pushed
  omega

/-- Writing nothing. -/
theorem writeBytes_nil (page : Page) (off : Nat) : writeBytes page off [] = page := by
  funext k
  unfold writeBytes
  rw [if_neg (by simp)]

/-- A copy within one page that the user may write succeeds. -/
theorem copyout_fits {p : Proc} {dst : Nat} {src : List Byte} {pte : Pte} (hlt : dst < maxVa) (hleaf : pt.leaf (dst / 4096) = some pte)
    (hu : pte.perm.u = true) (hw : pte.perm.w = true) (hlen : dst % 4096 + src.length ≤ 4096) :
    copyout m p (some pt) dst src = .ok (m.fill pte.pa (writeBytes (m.mem pte.pa) (dst % 4096) src), p, true) := by
  unfold copyout
  cases src with
  | nil =>
    rw [writeBytes_nil, Machine.fill, Function.update_eq_self]
    rfl
  | cons b bs =>
    have hpage : ¬maxVa ≤ pgRoundDown dst := Nat.not_le.mpr (pgRoundDown_lt_maxVa.mpr hlt)
    have hwalk : walkaddr pt (pgRoundDown dst) = some pte.pa := by simp [walkaddr, hpage, hleaf, hu]
    have hlook : lookup pt (pgRoundDown dst) = .ok (some pte) := by simp [lookup, hpage, hleaf]
    have hmin : min (pgSize - (dst - pgRoundDown dst)) (b :: bs).length = (b :: bs).length := by
      unfold pgSize pgRoundDown
      omega
    have hdone : ∀ fuel m a, copyoutLoop (some pt) fuel m p a [] = .ok (m, p, true) := by
      intro fuel m a
      cases fuel <;> simp [copyoutLoop]
    have hoff : dst - pgRoundDown dst = dst % 4096 := by
      unfold pgRoundDown
      omega
    rw [List.length_cons, copyoutLoop]
    simp only [reduceCtorEq, if_false, if_neg hpage, copyPage, Option.getD_some, hwalk]
    rw [bind_of_ok rfl]
    dsimp only
    rw [bind_of_ok hlook]
    dsimp only
    rw [if_neg (not_not.mpr hw), hmin, List.drop_length, hdone, List.take_length, hoff]

section Args

variable {p : Proc} {tr tf mem : Pa} {sz : Nat}

/-- A copy to the stack page of a new image. -/
theorem ImageTable.copyout {sp : Nat} {src : List Byte} (hpt : ImageTable tr tf sz mem pt) (hsp : sz - 4096 ≤ sp)
    (hlen : sp + src.length ≤ sz) (hne : src ≠ []) :
    Kernel.copyout m p (some pt) sp src = .ok (m.fill mem (writeBytes (m.mem mem) (sp % 4096) src), p, true) := by
  have hpos := List.length_pos_of_ne_nil hne
  obtain ⟨h1, h2, h3⟩ := hpt.top
  have hmax : trapframeVa < maxVa := by decide
  have hpage : sp / 4096 = sz / 4096 - 1 := by omega
  have hfits : sp % 4096 + src.length ≤ 4096 := by omega
  exact copyout_fits (by omega) (hpage ▸ hpt.stack) rfl rfl hfits

/-- The argument strings are pushed as long as they fit. -/
theorem pushArgs_fits {argv : List (List Byte)} {sp : Nat} {us : List Nat} (hus : us.length + argv.length ≤ maxArg)
    (hpt : ImageTable tr tf sz mem pt) (hargs : ∀ s ∈ argv, s.length < pgSize) (hal : sp % 16 = 0) (hsp : sz - 4096 ≤ sp)
    (hle : sp ≤ sz) :
    ∃ m' us', us'.length = us.length + argv.length ∧ pushArgs pt (stackBase sz) argv m p sp us =
      .ok (m', p, if argSpace argv ≤ sp - (sz - 4096) then some (sp - argSpace argv, us') else none) := by
  induction argv generalizing m sp us with
  | nil => exact ⟨m, us, rfl, by simp [pushArgs, argSpace]⟩
  | cons s rest ih =>
    obtain ⟨h1, h2, h3⟩ := hpt.top
    have hs : s.length < 4096 := hargs s List.mem_cons_self
    have hlt : sz < 2 ^ 64 := lt_of_le_of_lt h2 (by decide)
    have hbase := stackBase_eq hpt.top
    have hpd : pushDown sp (s.length + 1) = sp - pushed (s.length + 1) := pushDown_eq hal (by omega) (by omega)
    have hspace : argSpace (s :: rest) = pushed (s.length + 1) + argSpace rest := by simp [argSpace]
    have hpush : s.length + 1 ≤ pushed (s.length + 1) ∧ pushed (s.length + 1) ≤ 4096 ∧ pushed (s.length + 1) % 16 = 0 := by
      unfold pushed
      omega
    rw [List.length_cons] at hus
    rw [pushArgs, if_neg (by omega), hspace, hpd]
    generalize pushed (s.length + 1) = k at hpush
    by_cases hroom : k ≤ sp - (sz - 4096)
    · rw [if_neg (by rw [hbase]; omega)]
      have hend : sp - k + (s ++ [0]).length ≤ sz := by
        rw [List.length_append, List.length_singleton]
        omega
      have hcopy := hpt.copyout (m := m) (p := p) (show sz - 4096 ≤ sp - k by omega) hend (by simp)
      rw [bind_of_ok hcopy]
      dsimp only
      obtain ⟨m', us', hlen, hrest⟩ := @ih _ (sp - k) (us ++ [sp - k]) (by rw [List.length_append, List.length_singleton]; omega)
        (fun x hx => hargs x (List.mem_cons_of_mem _ hx)) (by omega) (by omega) (by omega)
      rw [List.length_append, List.length_singleton] at hlen
      refine ⟨m', us', by rw [hlen, List.length_cons]; omega, ?_⟩
      have hcond : argSpace rest ≤ sp - k - (sz - 4096) ↔ k + argSpace rest ≤ sp - (sz - 4096) := by omega
      rw [hrest, if_congr hcond rfl rfl, Nat.sub_sub]
    · rw [if_pos (by rw [hbase]; omega)]
      refine ⟨m, List.replicate (us.length + (s :: rest).length) 0, List.length_replicate, ?_⟩
      rw [if_neg (by omega)]

/-- The arguments are pushed when they fit, and nothing can go wrong. -/
theorem pushBlock_fits {argv : List (List Byte)} (hpt : ImageTable tr tf sz mem pt) (hargs : ∀ s ∈ argv, s.length < pgSize)
    (hlen : argv.length < maxArg) :
    ∃ m' o, pushBlock pt (stackBase sz) argv m p sz = .ok (m', p, o) ∧ (o.isSome ↔ argsFit argv) := by
  obtain ⟨h1, h2, h3⟩ := hpt.top
  have hlt : sz < 2 ^ 64 := lt_of_le_of_lt h2 (by decide)
  have hbase := stackBase_eq hpt.top
  have hmax : argv.length < 32 := hlen
  have hroom : ([] : List Nat).length + argv.length ≤ maxArg := by
    rw [List.length_nil, Nat.zero_add]
    exact hlen.le
  obtain ⟨m₁, us, hus, hpush⟩ := pushArgs_fits (m := m) (p := p) hroom hpt hargs (by omega) (Nat.sub_le sz 4096) (le_refl sz)
  rw [List.length_nil, Nat.zero_add] at hus
  have hspace := argSpace_mod argv
  unfold pushBlock
  rw [bind_of_ok hpush]
  unfold argsFit pgSize
  by_cases hstr : argSpace argv ≤ sz - (sz - 4096)
  · rw [if_pos hstr]
    have hpd : pushDown (sz - argSpace argv) ((us.length + 1) * 8) = sz - argSpace argv - pushed ((us.length + 1) * 8) :=
      pushDown_eq (by omega) (by omega) (by omega)
    have hge : (us.length + 1) * 8 ≤ pushed ((us.length + 1) * 8) ∧ pushed ((us.length + 1) * 8) ≤ 272 := by
      unfold pushed
      omega
    dsimp only
    rw [hpd, hbase, ← hus]
    generalize pushed ((us.length + 1) * 8) = k at hge
    by_cases hroom : argSpace argv + k ≤ 4096
    · rw [if_neg (by omega)]
      have hblock := ptrBytes_length us
      have hcopy := hpt.copyout (m := m₁) (p := p) (show sz - 4096 ≤ sz - argSpace argv - k by omega)
        (show sz - argSpace argv - k + ((us ++ [0]).flatMap le64).length ≤ sz by omega) (List.ne_nil_of_length_pos (by omega))
      rw [bind_of_ok hcopy]
      dsimp only
      exact ⟨_, _, rfl, iff_of_true rfl hroom⟩
    · rw [if_pos (by omega)]
      exact ⟨m₁, none, rfl, iff_of_false (by simp) hroom⟩
  · rw [if_neg hstr]
    exact ⟨m₁, none, rfl, iff_of_false (by simp) (by omega)⟩

end Args

end Xv6SnifferBakery.Kernel
