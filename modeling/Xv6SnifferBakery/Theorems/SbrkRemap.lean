import Xv6SnifferBakery.Lemmas.Extent
import Xv6SnifferBakery.Lemmas.Replay
import Xv6SnifferBakery.Lemmas.Room

/-!
# Growing onto mapped pages

`uvmalloc` takes for granted that no page is mapped at or above the old size. `uvmdealloc` leaves the guard page and the stack behind
when the size goes below them, and a page in the swap file can be brought back above the size: a growth that reaches such a page
panics, when memory suffices to get there.
-/

namespace Xv6SnifferBakery.Kernel

open Lib

variable {m m' : Machine} {p p' : Proc} {pt pt' : PageTable}

/-! ## The loop of `uvmalloc` -/

/-- Among the pages `[v, v + n)` is a mapped one, and memory suffices to map those before it: a page and the missing tables for each, and
one page more. -/
def Blocked (m : Machine) (pt : PageTable) (v n : Nat) : Prop :=
  ∃ k < n, (pt.leaf (v + k)).isSome ∧ (∀ j < k, pt.leaf (v + j) = none) ∧ k + pt.tablesFor v k < m.freelist.length

theorem tablesFor_zero (v : Nat) : pt.tablesFor v 0 = 0 := by
  simp [PageTable.tablesFor, absent]

/-- The loop of `uvmalloc` panics exactly when it is blocked by a mapped page. -/
theorem uvmallocLoop_remap_iff (stackTop oldsz : Nat) (perm : Perm) {n v : Nat} :
    uvmallocLoop stackTop oldsz perm n m pt (v * 4096) = .error .mappagesRemap ↔ Blocked m pt v n := by
  induction n generalizing m pt v with
  | zero =>
    refine iff_of_false nofun ?_
    rintro ⟨k, hk, -⟩
    omega
  | succ n ih =>
    have hdiv : v * 4096 / 4096 = v := Nat.mul_div_cancel v (by decide)
    have hal : v * 4096 % 4096 = 0 := Nat.mul_mod_left v 4096
    rw [uvmallocLoop]
    cases hk : kalloc m with
    | none =>
      have hempty := kalloc_eq_none_iff.mp hk
      refine iff_of_false (fun h => ?_) ?_
      · exact (uvmdealloc_noRemap.bind (fun _ _ => Avoids.ok _)) _ h rfl
      · rintro ⟨k, -, -, -, hlt⟩
        rw [hempty] at hlt
        exact absurd hlt (Nat.not_lt_zero _)
    | some x =>
      obtain ⟨m₁, mem⟩ := x
      have hlen : m.freelist.length = m₁.freelist.length + 1 := by
        rw [(kalloc_some hk).1, List.length_cons]
      simp only
      cases hleaf : pt.leaf v with
      | some pte =>
        have hmapped : (pt.leaf (v * 4096 / 4096)).isSome := by
          rw [hdiv, hleaf]
          rfl
        rw [mappages_remap hal hmapped]
        refine iff_of_true rfl ⟨0, Nat.succ_pos n, by rw [Nat.add_zero, hleaf]; rfl, by omega, ?_⟩
        rw [tablesFor_zero, hlen]
        omega
      | none =>
        by_cases hlt : v * 4096 < maxVa
        · obtain ⟨m₂, pt₂, b, hm⟩ : ∃ m₂ pt₂ b, mappages (m₁.fill mem (fun _ => 0)) pt (v * 4096) pgSize mem perm = .ok (m₂, pt₂, b) :=
            mappages_free hal hlt (by rw [hdiv, hleaf])
          obtain ⟨hroom, hlen₂⟩ := mappages_missing hm
          rw [Machine.fill_freelist] at hroom hlen₂
          rw [bind_of_ok hm]
          cases b with
          | true =>
            obtain ⟨hsum, hway⟩ := hlen₂ rfl
            have htab : pt₂.leaf = Function.update pt.leaf v (some ⟨mem, perm⟩) := by
              obtain ⟨-, hs⟩ | ⟨hf, -⟩ := mappages_page hm
              · rw [hs.leaf, hdiv]
              · cases hf
            have hnext : v * 4096 + pgSize = (v + 1) * 4096 := by
              unfold pgSize
              omega
            simp only
            rw [hnext, ih]
            constructor
            · rintro ⟨k, hkn, hs, hfree, hlen'⟩
              refine ⟨k + 1, by omega, ?_, ?_, ?_⟩
              · rw [htab, Function.update_of_ne (by omega), show v + 1 + k = v + (k + 1) by omega] at hs
                exact hs
              · intro j hj
                rcases j with _ | j
                · exact hleaf
                · have hj' := hfree j (by omega)
                  rwa [htab, Function.update_of_ne (by omega), show v + 1 + j = v + (j + 1) by omega] at hj'
              · rw [PageTable.tablesFor_succ k hway]
                omega
            · rintro ⟨k, hkn, hs, hfree, hlen'⟩
              rcases k with _ | k
              · rw [Nat.add_zero, hleaf] at hs
                cases hs
              · refine ⟨k, by omega, ?_, ?_, ?_⟩
                · rw [htab, Function.update_of_ne (by omega), show v + 1 + k = v + (k + 1) by omega]
                  exact hs
                · intro j hj
                  rw [htab, Function.update_of_ne (by omega), show v + 1 + j = v + (j + 1) by omega]
                  exact hfree (j + 1) (by omega)
                · rw [PageTable.tablesFor_succ k hway] at hlen'
                  omega
          | false =>
            have hshort := hroom.not.mp (by simp)
            refine iff_of_false (fun h => ?_) ?_
            · refine ((kfree_safe _ _).noRemap.bind (fun _ _ => uvmdealloc_noRemap.bind (fun _ _ => Avoids.ok _)) : NoRemap _) _ h rfl
            · rintro ⟨k, -, hs, -, hlen'⟩
              rcases k with _ | k
              · rw [Nat.add_zero, hleaf] at hs
                cases hs
              · have hle := pt.missing_le_tablesFor (v := v) k
                omega
        · -- above the address space nothing is mapped, and `walk` panics
          refine iff_of_false (fun h => ?_) ?_
          · unfold mappages at h
            rw [if_neg (by unfold pgSize; omega), if_neg (by decide), if_neg (by decide), show pgSize / pgSize = 0 + 1 from rfl,
              mappagesLoop, walk, if_pos (Nat.not_lt.mp hlt)] at h
            cases h
          · rintro ⟨k, -, hs, -⟩
            have hbound := pt.lt_of_leaf hs
            unfold maxVa at hlt
            omega

/-! ## `sbrk` -/

/-- Growing the process by `n` bytes is blocked by a mapped page. -/
def GrowsOnto (m : Machine) (p : Proc) (n : Int) : Prop :=
  0 < n ∧ p.sz ≤ addInt p.sz n ∧ Blocked m p.pagetable (pgRoundUp p.sz / 4096) ((addInt p.sz n - pgRoundUp p.sz + 4095) / 4096)

theorem uvmalloc_remap_iff (stackTop : Nat) {old new : Nat} : uvmalloc m pt stackTop old new = .error .mappagesRemap ↔
    old ≤ new ∧ Blocked m pt (pgRoundUp old / 4096) ((new - pgRoundUp old + 4095) / 4096) := by
  have hround : pgRoundUp old / 4096 * 4096 = pgRoundUp old := by
    have := pgRoundUp_mod old
    omega
  unfold uvmalloc
  by_cases hle : old ≤ new
  · rw [if_neg (Nat.not_lt.mpr hle), ← uvmallocLoop_remap_iff stackTop (pgRoundUp old) ⟨true, true, false, true⟩, hround]
    refine ⟨fun h => ⟨hle, ?_⟩, ?_⟩
    · rcases bind_error h with hl | ⟨x, -, h⟩
      · exact hl
      · nomatch h
    · rintro ⟨-, hl⟩
      change (uvmallocLoop _ _ _ ((new - pgRoundUp old + 4095) / 4096) m pt (pgRoundUp old) >>= _) = _
      rw [hl]
      rfl
  · rw [if_pos (Nat.not_le.mp hle)]
    exact iff_of_false nofun (fun h => hle h.1)

theorem growproc_remap_iff {n : Int} : growproc m p n = .error .mappagesRemap ↔ GrowsOnto m p n := by
  unfold growproc GrowsOnto
  by_cases hn : 0 < n
  · rw [if_pos hn, and_iff_right hn, ← uvmalloc_remap_iff p.stackTop]
    constructor
    · intro h
      rcases bind_error h with hu | ⟨⟨m₁, pt₁, o⟩, -, h⟩
      · exact hu
      · cases o <;> nomatch h
    · intro hu
      rw [hu]
      rfl
  · rw [if_neg hn]
    refine iff_of_false (fun h => ?_) (fun h => hn h.1)
    split at h
    · exact (uvmdealloc_noRemap.bind (fun _ _ => Avoids.ok _) : NoRemap _) _ h rfl
    · nomatch h

/-- `sys_sbrk` panics with a remap exactly when it grows the process eagerly and is blocked. -/
theorem sysSbrk_remap_iff {n : Int} {eager : Bool} :
    sysSbrk m p n eager = .error .mappagesRemap ↔ eager = true ∧ GrowsOnto m p n := by
  unfold sysSbrk
  by_cases he : eager = true ∨ n < 0
  · rw [if_pos he, growproc_remap_iff]
    refine ⟨fun h => ⟨?_, h⟩, fun h => h.2⟩
    rcases he with he | he
    · exact he
    · have := h.1
      omega
  · rw [if_neg he]
    refine iff_of_false (fun h => ?_) (fun h => he (Or.inl h.1))
    split at h <;> nomatch h

/-! ## Runs -/

/-- Above everything that is mapped, and not above the trapframe page, no growth is blocked. -/
theorem Extent.not_growsOnto {n : Int} (h : Extent p) (hfit : addInt p.sz n ≤ trapframeVa) : ¬GrowsOnto m p n := by
  rintro ⟨-, hle, k, hk, hmap, -⟩
  have hround := size_pgRoundUp h.top
  have hmod := pgRoundUp_mod p.sz
  rw [trapframeVa_eq] at hfit
  have := h.mapped _ (by omega) hmap
  omega

/-- `sbrk` panics with a remap exactly when an eager growth reaches, before memory runs out, a page that is still mapped. That is not
so in a run in which every change of size, and every new image, leaves the size at or above the stack, the image and the pages in the
swap file, and not above the trapframe page: then a growth to a size not above the trapframe page does not panic. -/
theorem sbrk_remap_iff (n : Int) (eager : Bool) :
    (∀ (m : Machine) (p : Proc), sysSbrk m p n eager ≠ .error .mappagesRemap ↔ ¬(eager = true ∧ GrowsOnto m p n)) ∧
    ∀ s as t, Boot s → EveryLive Covers s → Run (fun s a t => a.leaves Covers t ∧ Step s a t) s as t →
      ∀ i, (t.proc i).live → addInt (t.proc i).sz n ≤ trapframeVa → sysSbrk t.m (t.proc i) n eager ≠ .error .mappagesRemap := by
  refine ⟨fun m p => sysSbrk_remap_iff.not, ?_⟩
  intro s as t hb hcovers hr i hi hfit
  have hextent := extent_kept.runSteps hr (hb.extent hcovers) i hi
  exact sysSbrk_remap_iff.not.mpr (fun h => hextent.not_growsOnto hfit h.2)

instance (p : Proc) : Decidable (Covers p) :=
  decidable_of_iff (p.stackTop ≤ p.sz ∧ p.textEnd ≤ p.sz ∧ p.dataEnd ≤ p.sz ∧ p.sz ≤ trapframeVa ∧
      ∀ e ∈ p.pages, e.state = .swapped → e.va < p.sz)
    ⟨fun ⟨h1, h2, h3, h4, h5⟩ => ⟨h1, h2, h3, h4, h5⟩, fun h => ⟨h.stack, h.text, h.data, h.top, h.swapped⟩⟩

/-- A process grows by a page, and can grow by another. -/
theorem sbrk_remap_iff_grow : ∃ t, Run Step (smallBoot smallFiles 32) [.sbrk 0 4096 true] t ∧
    sysSbrk t.m (t.proc 0) 4096 true ≠ .error .mappagesRemap := by
  have hex : (replay (smallBoot smallFiles 32) [.sbrk 0 4096 true]).any (fun t => (t.proc 0).live ∧ Covers (t.proc 0) ∧
      addInt (t.proc 0).sz 4096 ≤ trapframeVa) = true := by
    decide +kernel
  obtain ⟨t, ht, hex⟩ := (Option.any_eq_true _ _).mp hex
  obtain ⟨hlive, hcovers, hfit⟩ := of_decide_eq_true hex
  have hr := replay_run ht
  have hboot : EveryLive Covers (smallBoot smallFiles 32) := by
    intro k hk
    rw [smallBoot_init.live_unique hk smallBoot_live]
    decide +kernel
  have hleaves : (Action.sbrk 0 4096 true).leaves Covers t := hcovers
  exact ⟨t, hr, (sbrk_remap_iff 4096 true).2 _ _ t smallBoot_init hboot (.single ⟨hleaves, hr.of_single⟩) 0 hlive hfit⟩

/-- A process shrinks below its stack, and grows again. -/
def shrinkBelow : List Action := [.sbrk 0 (-8192) false]

/-- After a shrink below the stack, an eager growth reaches the panic. -/
theorem sbrk_remaps : (¬∀ t, Reach Boot Step t → ∀ i, (t.proc i).live → ∀ (n : Int) (eager : Bool),
      sysSbrk t.m (t.proc i) n eager ≠ .error .mappagesRemap) ∧
    ∃ t, Run Step (smallBoot smallFiles 32) shrinkBelow t ∧ enabled t (.sbrk 0 4096 true) ∧
      perform t (.sbrk 0 4096 true) = .error .mappagesRemap := by
  have hex : (replay (smallBoot smallFiles 32) shrinkBelow).any (fun t => (t.proc 0).live ∧ enabled t (.sbrk 0 4096 true) ∧
      (match sysSbrk t.m (t.proc 0) 4096 true with
        | .error e => decide (e = .mappagesRemap)
        | .ok _ => false) = true) = true := by
    decide +kernel
  obtain ⟨t, ht, hex⟩ := (Option.any_eq_true _ _).mp hex
  obtain ⟨hlive, henabled, hpanic⟩ := of_decide_eq_true hex
  have hr := replay_run ht
  have hremap : sysSbrk t.m (t.proc 0) 4096 true = .error .mappagesRemap := by
    split at hpanic
    · rename_i e he
      rw [he, of_decide_eq_true hpanic]
    · nomatch hpanic
  refine ⟨fun hall => ?_, t, hr, henabled, ?_⟩
  · exact hall t ⟨_, _, smallBoot_init, hr⟩ 0 hlive 4096 true hremap
  · change (sysSbrk _ _ 4096 true >>= _) = _
    rw [hremap]
    rfl

end Xv6SnifferBakery.Kernel
