import Xv6SnifferBakery.Kernel.Ram
import Xv6SnifferBakery.Lib.Radix

/-!
# The page table as a tree

The words of a page table are a radix tree of base 512: a valid word of an upper table points to the table below, and the last tables
hold the leaf entries. `pages` is what the tree maps. No page is a table twice, and as long as `kalloc` gives out no page that is a table
already, `walk` only adds empty tables.
-/

namespace Xv6SnifferBakery.Kernel

open Lib

/-! ## Words -/

theorem pteV_eq : pteV = 1 := rfl

theorem valid_or (w : Nat) : (w ||| pteV) &&& pteV ≠ 0 := by
  rw [Nat.and_or_distrib_right, pteV_eq]
  simp

theorem pa2pte_or {f : Nat} (hf : f < 1024) (pa : Nat) : pa2pte pa ||| f = pa / 4096 * 1024 + f := by
  unfold pa2pte
  rw [← Nat.shiftLeft_add_eq_or_of_lt (i := 10) hf, Nat.shiftLeft_eq, Nat.shiftRight_eq_div_pow]

theorem pte2pa_pa2pte {pa f : Nat} (hpa : pa < 2 ^ 64) (hf : f < 1024) : pte2pa (pa2pte pa ||| f) = pgRoundDown pa := by
  rw [pa2pte_or hf, pte2pa, Nat.shiftLeft_eq, Nat.shiftRight_eq_div_pow]
  unfold pgRoundDown
  omega

theorem pteFlags_pa2pte {f : Nat} (hf : f < 1024) (pa : Nat) : pteFlags (pa2pte pa ||| f) = f := by
  rw [pa2pte_or hf, pteFlags, show (0x3ff : Nat) = 2 ^ 10 - 1 from rfl, Nat.and_two_pow_sub_one_eq_mod]
  omega

theorem px_eq (level va : Nat) : px level va = va / 4096 / 512 ^ level % 512 := by
  rw [px, show (0x1ff : Nat) = 2 ^ 9 - 1 from rfl, Nat.and_two_pow_sub_one_eq_mod, Nat.shiftRight_eq_div_pow, pxShift, Nat.pow_add,
    Nat.pow_mul, Nat.div_div_eq_div_mul]

/-! ## The tree -/

/-- The table that a word of an upper table points to. -/
def pteChild (w : Nat) : Option Pa := if w &&& pteV ≠ 0 then some (pte2pa w) else none

/-- The tree below a root. -/
abbrev pageTree (root : Pa) : Radix Pa Nat := ⟨root, 512, pteChild⟩

theorem pteChild_zero : pteChild 0 = none := rfl

theorem pteChild_link {pa : Pa} (ha : pa % pgSize = 0) (hpa : pa < 2 ^ 64) : pteChild (pa2pte pa ||| pteV) = some pa := by
  rw [pteChild, if_pos (valid_or _), pte2pa_pa2pte hpa (by decide), pgRoundDown_of_aligned ha]

namespace Ram

/-- The pages of a page table. -/
def Table (m : Ram) (root : Pa) (p : Pa) : Prop := (pageTree root).IsTable m.words 2 p

/-- No page is a table twice. -/
def Separate (m : Ram) (root : Pa) : Prop := (pageTree root).Separate m.words 2

/-- What `kalloc` gives out is not in use: no page is on the list twice, and none on it is a table. -/
def Fresh (m : Ram) (root : Pa) : Prop := m.freelist.Nodup ∧ ∀ p ∈ m.freelist, ¬ m.Table root p

/-- The valid leaf entry of each page number. -/
def pages (m : Ram) (root : Pa) (v : Nat) : Option Nat := ((pageTree root).entry m.words 2 v).filter (fun w => w &&& pteV ≠ 0)

variable {m m' m'' : Ram} {root p q : Pa} {v w a va : Nat}

theorem filter_valid (h : w &&& pteV ≠ 0) : (some w).filter (fun w => w &&& pteV ≠ 0) = some w := by
  rw [Option.filter_some, if_pos (decide_eq_true h)]

theorem filter_invalid (h : w &&& pteV = 0) : (some w).filter (fun w => w &&& pteV ≠ 0) = none := by
  rw [Option.filter_some, if_neg (by rw [decide_eq_true_eq]; exact not_not_intro h)]

/-! ## Memory -/

@[simp] theorem memset_freelist (m : Ram) (p : Pa) (c : Nat) : (m.memset p c).freelist = m.freelist := rfl
@[simp] theorem store_freelist (m : Ram) (pte : Pa × Nat) (w : Nat) : (m.store pte w).freelist = m.freelist := rfl
@[simp] theorem load_mk (m : Ram) (p : Pa) (i : Nat) : m.load (p, i) = m.words p i := rfl
@[simp] theorem memset_words_self (m : Ram) (p : Pa) (c i : Nat) : (m.memset p c).words p i = c * 0x0101010101010101 := by
  simp only [memset, Function.update_self]

theorem memset_words_of_ne (m : Ram) (c : Nat) (h : q ≠ p) : (m.memset p c).words q = m.words q := Function.update_of_ne h ..

theorem store_words_self (m : Ram) (pte : Pa × Nat) (w : Nat) : (m.store pte w).words pte.1 pte.2 = w := by
  simp only [store, Function.update_self]

theorem stored (m : Ram) (pte : Pa × Nat) (w : Nat) : Radix.Stored m.words (m.store pte w).words pte.1 pte.2 := by
  intro r j h
  by_cases hr : r = pte.1
  · subst hr
    simp only [store, Function.update_self]
    exact Function.update_of_ne (h rfl) ..
  · exact congrFun (Function.update_of_ne hr ..) j

theorem kalloc_none (h : m.kalloc = none) : m.freelist = [] := by
  unfold kalloc at h
  split at h
  · assumption
  · cases h

theorem kalloc_some (h : m.kalloc = some (m', p)) : m.freelist = p :: m'.freelist ∧ ∀ q, q ≠ p → m'.words q = m.words q := by
  unfold kalloc at h
  split at h
  · cases h
  · rename_i r rest hr
    obtain ⟨rfl, rfl⟩ := Prod.mk.inj (Option.some.inj h)
    exact ⟨hr, fun q hq => memset_words_of_ne _ _ hq⟩

theorem kfree_ok (h : m.kfree p = .ok m') : m'.kend = m.kend ∧ ∀ q, q ≠ p → m'.words q = m.words q := by
  unfold kfree at h
  split at h
  · cases h
  · obtain rfl := Except.ok.inj h
    exact ⟨rfl, fun q hq => memset_words_of_ne _ _ hq⟩

theorem free_lt (h : p ∈ m.freelist) : p % pgSize = 0 ∧ p < 2 ^ 64 := by
  obtain ⟨ha, -, hlt⟩ := m.free_ok p h
  exact ⟨ha, Nat.lt_trans hlt (by decide)⟩

/-! ## `walk` -/

variable {d i level x : Nat} {alloc : Bool}

/-- What `walk` with `alloc` does to a tree. -/
structure Grown (root : Pa) (m m' : Ram) : Prop where
  separate : m'.Separate root
  fresh : m'.Fresh root
  pages : ∀ v, m'.pages root v = m.pages root v

theorem Grown.trans (h : Grown root m m') (h' : Grown root m' m'') : Grown root m m'' :=
  ⟨h'.separate, h'.fresh, fun v => (h'.pages v).trans (h.pages v)⟩

/-- A page from `kalloc`, cleared and linked to. -/
theorem link (hs : m.Separate root) (hf : m.Fresh root) (hd : d < 2) (hq : (pageTree root).table m.words d x = some q) (hi : i < 512)
    (hnone : pteChild (m.words q i) = none) (hk : m.kalloc = some (m', p)) :
    Grown root m ((m'.memset p 0).store (q, i) (pa2pte p ||| pteV)) ∧
      (pageTree root).table ((m'.memset p 0).store (q, i) (pa2pte p ||| pteV)).words (d + 1) (x * 512 + i) = some p := by
  obtain ⟨hfree, hwords⟩ := kalloc_some hk
  have hp : p ∈ m.freelist := hfree ▸ List.mem_cons_self
  have hnew := hf.2 p hp
  have hqp : q ≠ p := by
    rintro rfl
    exact hnew ⟨d, x, by omega, hq⟩
  generalize ht : (m'.memset p 0).store (q, i) (pa2pte p ||| pteV) = t
  have hstored : Radix.Stored (m'.memset p 0).words t.words q i := ht ▸ stored _ (q, i) _
  have hl : Radix.Linked (pageTree root) m.words t.words q i p := by
    refine ⟨fun j => ?_, ?_, fun r j hr hj => ?_⟩
    · rw [hstored p j (fun hc => absurd hc.symm hqp), memset_words_self, Nat.zero_mul]
      exact pteChild_zero
    · have hself : t.words q i = pa2pte p ||| pteV := ht ▸ store_words_self _ (q, i) _
      rw [hself]
      exact pteChild_link (free_lt hp).1 (free_lt hp).2
    · rw [hstored r j hj, memset_words_of_ne _ _ hr, hwords r hr]
  have htable : (pageTree root).table t.words (d + 1) (x * 512 + i) = some p := by
    rw [hl.table hs hd hq hi hnone hnew (by omega), if_pos ⟨rfl, rfl⟩]
  refine ⟨⟨hl.separate hs hd hq hi hnone hnew, ?_, fun v => ?_⟩, htable⟩
  · have hrest : t.freelist = m'.freelist := by rw [← ht, store_freelist, memset_freelist]
    obtain ⟨hdup, hnot⟩ := hf
    rw [hfree, List.nodup_cons] at hdup
    rw [Fresh, hrest]
    refine ⟨hdup.2, fun r hr htab => ?_⟩
    obtain rfl | htab := hl.isTable hs hd hq hi hnone hnew htab
    · exact hdup.1 hr
    · exact hnot r (hfree ▸ List.mem_cons_of_mem p hr) htab
  · -- the words of a new last table are not valid
    rw [Ram.pages, Ram.pages, hl.entry hs hd hq hi hnone hnew]
    split
    · rename_i hv
      have hold : (pageTree root).table m.words 2 (v / 512) = none := by
        rw [← hv.1, hv.2]
        exact (Radix.table_child hq hi).trans hnone
      rw [Radix.entry, hold]
      have hzero : t.words p (v % 512) = 0 := by
        rw [hstored p _ (fun hc => absurd hc.symm hqp), memset_words_self, Nat.zero_mul]
      rw [hzero]
      rfl
    · rfl

theorem walkLoop_alloc {o : Option Pa} (hdl : d + level = 2) (hs : m.Separate root) (hf : m.Fresh root)
    (hq : (pageTree root).table m.words d (va / 4096 / 512 ^ (level + 1)) = some q) (h : walkLoop va true level m q = (m', o)) :
    Grown root m m' ∧ (o = none → m'.freelist = []) ∧ ∀ p, o = some p → (pageTree root).table m'.words 2 (va / 4096 / 512) = some p := by
  induction level generalizing m q d with
  | zero =>
    obtain ⟨rfl, rfl⟩ := Prod.mk.inj h
    obtain rfl : d = 2 := hdl
    rw [Nat.zero_add, Nat.pow_one] at hq
    exact ⟨⟨hs, hf, fun _ => rfl⟩, fun hc => absurd hc (Option.some_ne_none q), fun p hp => hp ▸ hq⟩
  | succ level ih =>
    rw [Nat.pow_succ, ← Nat.div_div_eq_div_mul] at hq
    rw [walkLoop, px_eq, load_mk] at h
    generalize hn : va / 4096 / 512 ^ (level + 1) = n at hq h ih
    have hnext : (pageTree root).table m.words (d + 1) n = pteChild (m.words q (n % 512)) := by
      rw [Radix.table_succ, hq]
      rfl
    by_cases hv : m.words q (n % 512) &&& pteV ≠ 0
    · rw [if_pos hv] at h
      rw [pteChild, if_pos hv] at hnext
      exact ih (by omega) hs hf hnext h
    · rw [if_neg hv] at h
      cases hk : m.kalloc with
      | none =>
        rw [hk] at h
        obtain ⟨rfl, rfl⟩ := Prod.mk.inj h
        exact ⟨⟨hs, hf, fun _ => rfl⟩, fun _ => kalloc_none hk, fun p hp => by cases hp⟩
      | some r =>
        obtain ⟨m₁, p⟩ := r
        rw [hk] at h
        have hlink := link hs hf (by omega) hq (Nat.mod_lt n (by decide)) (by rw [pteChild, if_neg hv]) hk
        rw [Nat.div_add_mod'] at hlink
        obtain ⟨hgrown, hrest⟩ := ih (by omega) hlink.1.separate hlink.1.fresh hlink.2 h
        exact ⟨hlink.1.trans hgrown, hrest⟩

theorem walkLoop_look (hdl : d + level = 2) (hq : (pageTree root).table m.words d (va / 4096 / 512 ^ (level + 1)) = some q) :
    walkLoop va false level m q = (m, (pageTree root).table m.words 2 (va / 4096 / 512)) := by
  induction level generalizing q d with
  | zero =>
    obtain rfl : d = 2 := hdl
    rw [Nat.zero_add, Nat.pow_one] at hq
    rw [hq]
    rfl
  | succ level ih =>
    rw [Nat.pow_succ, ← Nat.div_div_eq_div_mul] at hq
    have hnext : (pageTree root).table m.words (d + 1) (va / 4096 / 512 ^ (level + 1)) =
        pteChild (m.words q (va / 4096 / 512 ^ (level + 1) % 512)) := by
      rw [Radix.table_succ, hq]
      rfl
    rw [walkLoop, px_eq, load_mk]
    by_cases hv : m.words q (va / 4096 / 512 ^ (level + 1) % 512) &&& pteV ≠ 0
    · rw [pteChild, if_pos hv] at hnext
      rw [← ih (by omega) hnext]
      exact if_pos hv
    · rw [pteChild, if_neg hv, Nat.pow_succ', ← Nat.div_div_eq_div_mul] at hnext
      have hnone := Radix.table_none hnext
      rw [show d + 1 + level = 2 by omega] at hnone
      rw [hnone]
      exact if_neg hv

theorem walk_lt {r : Ram × Option (Pa × Nat)} (h : m.walk root va alloc = .ok r) : va < maxVa := by
  unfold walk at h
  split at h
  · cases h
  · omega

/-- The root is where every address below `MAXVA` starts. -/
theorem table_root (hva : va < maxVa) : (pageTree root).table m.words 0 (va / 4096 / 512 ^ (2 + 1)) = some root := by
  have hzero : va / 4096 / 512 ^ (2 + 1) = 0 := by
    unfold maxVa at hva
    omega
  rw [hzero]
  rfl

/-- `walk` with `alloc`: the entry of the address, in a last table, or no page for one. -/
theorem walk_alloc {o : Option (Pa × Nat)} (hs : m.Separate root) (hf : m.Fresh root) (h : m.walk root va true = .ok (m', o)) :
    Grown root m m' ∧ (o = none → m'.freelist = []) ∧
      ∀ pte, o = some pte → (pageTree root).table m'.words 2 (va / 4096 / 512) = some pte.1 ∧ pte.2 = va / 4096 % 512 := by
  have hva := walk_lt h
  rw [walk, if_neg (Nat.not_le_of_lt hva)] at h
  obtain ⟨rfl, rfl⟩ := Prod.mk.inj (Except.ok.inj h)
  obtain ⟨hgrown, hnone, hsome⟩ := walkLoop_alloc (o := (walkLoop va true 2 m root).2) rfl hs hf (table_root hva) rfl
  refine ⟨hgrown, fun ho => hnone (Option.map_eq_none_iff.mp ho), fun pte ho => ?_⟩
  obtain ⟨p, hp, rfl⟩ := Option.map_eq_some_iff.mp ho
  exact ⟨hsome p hp, by rw [px_eq, Nat.pow_zero, Nat.div_one]⟩

/-- `walk` without `alloc`. -/
theorem walk_look (hva : va < maxVa) : m.walk root va false =
    .ok (m, ((pageTree root).table m.words 2 (va / 4096 / 512)).map (fun p => (p, va / 4096 % 512))) := by
  rw [walk, if_neg (Nat.not_le_of_lt hva), walkLoop_look (d := 0) rfl (table_root hva), px_eq, Nat.pow_zero, Nat.div_one]

theorem lookup_eq (hva : va < maxVa) :
    m.lookup root va = .ok ((m.pages root (va / 4096)).map (fun pte => (pte2pa pte, pteFlags pte))) := by
  rw [lookup, walk_look hva, Ram.pages, Radix.entry]
  cases hp : (pageTree root).table m.words 2 (va / 4096 / 512) with
  | none => rfl
  | some p =>
    change Except.ok (ite _ _ _) = Except.ok (Option.map _ (Option.filter _ (some (m.words p (va / 4096 % 512)))))
    rw [load_mk]
    by_cases hv : m.words p (va / 4096 % 512) &&& pteV = 0
    · rw [if_pos hv, filter_invalid hv]
      rfl
    · rw [if_neg hv, filter_valid hv]
      rfl

/-! ## Leaf entries -/

/-- A store of a leaf entry. -/
theorem store_leaf (hs : m.Separate root) (hq : (pageTree root).table m.words 2 (v / 512) = some q) (w : Nat) :
    (∀ d x, d ≤ 2 → (pageTree root).table (m.store (q, v % 512) w).words d x = (pageTree root).table m.words d x) ∧
      ∀ u, (m.store (q, v % 512) w).pages root u = if u = v then (some w).filter (fun w => w &&& pteV ≠ 0) else m.pages root u := by
  have hstored := stored m (q, v % 512) w
  refine ⟨fun d x hd => hstored.table hs hq hd, fun u => ?_⟩
  have hself : (m.store (q, v % 512) w).words q (v % 512) = w := store_words_self m (q, v % 512) w
  rw [Ram.pages, hstored.entry hs hq (Nat.mod_lt v (show 0 < 512 by decide))]
  change Option.filter _ (if u = v / 512 * 512 + v % 512 then some ((m.store (q, v % 512) w).words q (v % 512)) else _) = _
  rw [Nat.div_add_mod', hself]
  split <;> rfl

/-- The same tables and the same free list. -/
theorem Fresh.congr (hf : m.Fresh root) (hfree : m'.freelist = m.freelist)
    (h : ∀ d x, d ≤ 2 → (pageTree root).table m'.words d x = (pageTree root).table m.words d x) : m'.Fresh root := by
  rw [Fresh, hfree]
  exact ⟨hf.1, fun p hp hc => hf.2 p hp ((Radix.isTable_congr h).mp hc)⟩

/-! ## `mappages` -/

variable {n perm pa : Nat} {done : Bool}

/-- The entry that `walk` with `alloc` returns is valid when the page is mapped, and what is stored in it, if it is valid, maps the page. -/
theorem map_step {pte : Pa × Nat} (hs : m.Separate root) (hf : m.Fresh root) (h : m.walk root a true = .ok (m', some pte))
    (hw : w &&& pteV ≠ 0) : (m'.load pte &&& pteV ≠ 0 ↔ m.pages root (a / 4096) ≠ none) ∧ (m'.store pte w).Separate root ∧
      (m'.store pte w).Fresh root ∧ ∀ u, (m'.store pte w).pages root u = if u = a / 4096 then some w else m.pages root u := by
  obtain ⟨hgrown, -, hpte⟩ := walk_alloc hs hf h
  obtain ⟨p, i⟩ := pte
  obtain ⟨hp, rfl : i = a / 4096 % 512⟩ := hpte _ rfl
  obtain ⟨htable, hpages⟩ := store_leaf hgrown.separate hp w
  refine ⟨?_, hgrown.separate.congr htable, hgrown.fresh.congr rfl htable, fun u => ?_⟩
  · have hentry : (pageTree root).entry m'.words 2 (a / 4096) = some (m'.words p (a / 4096 % 512)) := by
      rw [Radix.entry, hp]
      rfl
    rw [← hgrown.pages, Ram.pages, hentry, load_mk]
    by_cases hv : m'.words p (a / 4096 % 512) &&& pteV = 0
    · rw [filter_invalid hv]
      exact iff_of_false (fun hc => hc hv) (fun hc => hc rfl)
    · rw [filter_valid hv]
      exact iff_of_true hv (Option.some_ne_none _)
  · rw [hpages, hgrown.pages, filter_valid hw]

theorem add64_add64 (a b c : Nat) : add64 (add64 a b) c = add64 a (b + c) := by
  unfold add64
  omega

/-- The loop maps the first `k` pages of its range: all, or those before the first for which there was no page for a table. -/
theorem mappagesLoop_ok (hs : m.Separate root) (hf : m.Fresh root) (ha : a % 4096 = 0) (hpa : pa < 2 ^ 64)
    (h : mappagesLoop root perm n m a pa = .ok (m', done)) :
    m'.Separate root ∧ m'.Fresh root ∧ ∃ k, k ≤ n ∧ (done = true ↔ k = n) ∧ (done = false → m'.freelist = []) ∧
      (0 < k → a + k * 4096 ≤ maxVa) ∧ ∀ v, m'.pages root v =
        if a / 4096 ≤ v ∧ v < a / 4096 + k then some (pa2pte (add64 pa ((v - a / 4096) * 4096)) ||| perm ||| pteV) else m.pages root v := by
  induction n generalizing m a pa with
  | zero =>
    obtain ⟨rfl, rfl⟩ := Prod.mk.inj (Except.ok.inj h)
    exact ⟨hs, hf, 0, Nat.le_refl 0, by simp, by simp, by simp, fun v => by rw [if_neg (by omega)]⟩
  | succ n ih =>
    obtain ⟨⟨m₁, o⟩, hw, h⟩ := bind_ok h
    have hlt := walk_lt hw
    cases o with
    | none =>
      obtain ⟨rfl, rfl⟩ := Prod.mk.inj (Except.ok.inj h)
      obtain ⟨hgrown, hnone, -⟩ := walk_alloc hs hf hw
      refine ⟨hgrown.separate, hgrown.fresh, 0, Nat.zero_le _, by simp, fun _ => hnone rfl, by simp, fun v => ?_⟩
      rw [if_neg (by omega), hgrown.pages]
    | some pte =>
      obtain ⟨-, hs₁, hf₁, hpages⟩ := map_step (w := pa2pte pa ||| perm ||| pteV) hs hf hw (valid_or _)
      change (if m₁.load pte &&& pteV ≠ 0 then _ else mappagesLoop root perm n _ (add64 a 4096) (add64 pa 4096)) = _ at h
      split at h
      · cases h
      have hnext : add64 a 4096 = a + 4096 := add64_of_lt (by unfold maxVa at hlt; omega)
      rw [hnext] at h
      have hword : add64 pa 4096 < 2 ^ 64 := Nat.mod_lt _ (by decide)
      obtain ⟨hs', hf', k, hk, hdone, hempty, hmax, hrest⟩ := ih hs₁ hf₁ (by omega) hword h
      refine ⟨hs', hf', k + 1, by omega, by rw [hdone]; omega, hempty, fun _ => ?_, fun v => ?_⟩
      · unfold maxVa at hlt hmax ⊢
        omega
      · rw [hrest, hpages, show (a + 4096) / 4096 = a / 4096 + 1 by omega]
        by_cases hv : v = a / 4096
        · rw [if_neg (by omega), if_pos hv, if_pos (by omega), hv, Nat.sub_self, Nat.zero_mul, add64, Nat.add_zero, Nat.mod_eq_of_lt hpa]
        · by_cases hin : a / 4096 + 1 ≤ v ∧ v < a / 4096 + 1 + k
          · rw [if_pos hin, if_pos (by omega), add64_add64, show 4096 + (v - (a / 4096 + 1)) * 4096 = (v - a / 4096) * 4096 by omega]
          · rw [if_neg hin, if_neg hv, if_neg (by omega)]

/-- It does not panic when none of its pages is mapped. -/
theorem mappagesLoop_runs (hs : m.Separate root) (hf : m.Fresh root) (ha : a % 4096 = 0) (hmax : a + n * 4096 ≤ maxVa)
    (hnone : ∀ v, a / 4096 ≤ v → v < a / 4096 + n → m.pages root v = none) : ∃ r, mappagesLoop root perm n m a pa = .ok r := by
  induction n generalizing m a pa with
  | zero => exact ⟨_, rfl⟩
  | succ n ih =>
    have hlt : a < maxVa := by omega
    obtain ⟨r, hw⟩ : ∃ r, m.walk root a true = .ok r := ⟨_, if_neg (Nat.not_le_of_lt hlt)⟩
    obtain ⟨m₁, o⟩ := r
    rw [mappagesLoop, bind_of_ok hw]
    cases o with
    | none => exact ⟨_, rfl⟩
    | some pte =>
      obtain ⟨hvalid, hs₁, hf₁, hpages⟩ := map_step (w := pa2pte pa ||| perm ||| pteV) hs hf hw (valid_or _)
      have hfirst : ¬(m₁.load pte &&& pteV ≠ 0) := fun hc => hvalid.mp hc (hnone _ (Nat.le_refl _) (by omega))
      have hnext : add64 a 4096 = a + 4096 := add64_of_lt (by unfold maxVa at hlt; omega)
      change ∃ r, (if m₁.load pte &&& pteV ≠ 0 then _ else mappagesLoop root perm n _ (add64 a 4096) (add64 pa 4096)) = _
      rw [if_neg hfirst, hnext]
      refine ih hs₁ hf₁ (by omega) (by omega) (fun v hv hvn => ?_)
      rw [hpages, if_neg (by omega)]
      exact hnone v (by omega) (by omega)

/-! ## `uvmunmap` -/

variable {doFree : Bool}

/-- Freeing a page that is not a table. -/
theorem kfree_frame (h : m.kfree p = .ok m') (hp : ¬ m.Table root p) : m'.kend = m.kend ∧
    (∀ d x, d ≤ 2 → (pageTree root).table m'.words d x = (pageTree root).table m.words d x) ∧ ∀ v, m'.pages root v = m.pages root v := by
  have hframe : ∀ q, (pageTree root).IsTable m.words 2 q → m'.words q = m.words q := by
    intro q hq
    refine (kfree_ok h).2 q ?_
    rintro rfl
    exact hp hq
  exact ⟨(kfree_ok h).1, fun d x hd => Radix.table_frame hframe hd, fun v => by rw [Ram.pages, Radix.entry_frame hframe]; rfl⟩

/-- The entries of `n` pages are out, and everything else is where it was. -/
structure Unmapped (root : Pa) (v n : Nat) (m m' : Ram) : Prop where
  kend : m'.kend = m.kend
  tables : ∀ d x, d ≤ 2 → (pageTree root).table m'.words d x = (pageTree root).table m.words d x
  pages : ∀ u, m'.pages root u = if v ≤ u ∧ u < v + n then none else m.pages root u

theorem Unmapped.refl (m : Ram) : Unmapped root v 0 m m :=
  ⟨rfl, fun _ _ _ => rfl, fun u => by rw [if_neg (by omega)]⟩

/-- One page more. -/
theorem Unmapped.snoc (h : Unmapped root v n m m') (h' : Unmapped root (v + n) 1 m' m'') : Unmapped root v (n + 1) m m'' := by
  refine ⟨h'.kend.trans h.kend, fun d x hd => (h'.tables d x hd).trans (h.tables d x hd), fun u => ?_⟩
  rw [h'.pages, h.pages]
  by_cases hu : v + n ≤ u ∧ u < v + n + 1
  · rw [if_pos hu, if_pos (by omega)]
  · by_cases hin : v ≤ u ∧ u < v + n
    · rw [if_neg hu, if_pos hin, if_pos (by omega)]
    · rw [if_neg hu, if_neg hin, if_neg (by omega)]

/-- A page without a valid entry. -/
theorem Unmapped.of_none (h : m.pages root v = none) : Unmapped root v 1 m m := by
  refine ⟨rfl, fun _ _ _ => rfl, fun u => ?_⟩
  by_cases hu : u = v
  · rw [if_pos (by omega), hu, h]
  · rw [if_neg (by omega)]

/-- `*pte = 0`. -/
theorem Unmapped.clear (hs : m.Separate root) (hq : (pageTree root).table m.words 2 (v / 512) = some q) :
    Unmapped root v 1 m (m.store (q, v % 512) 0) := by
  obtain ⟨htable, hpages⟩ := store_leaf hs hq 0
  refine ⟨rfl, htable, fun u => ?_⟩
  rw [hpages]
  by_cases hu : u = v
  · rw [if_pos hu, if_pos (by omega)]
    rfl
  · rw [if_neg hu, if_neg (by omega)]

theorem pte2pa_mod (w : Nat) : pte2pa w % pgSize = 0 := by
  change pte2pa w % 4096 = 0
  rw [pte2pa, Nat.shiftLeft_eq]
  omega

theorem kfree_runs (ha : p % pgSize = 0) (hp : m.kend ≤ p ∧ p < physTop) : ∃ m', m.kfree p = .ok m' := by
  refine ⟨_, dif_neg ?_⟩
  rintro (h | h | h)
  · exact h ha
  · exact Nat.not_lt_of_le hp.1 h
  · exact Nat.not_lt_of_le h hp.2

/-- What a pass does: nothing, or it takes out the valid entry of its page and with `doFree` frees what it maps. -/
theorem unmapPage_eq (doFree : Bool) (ha : a < maxVa) : (m.pages root (a / 4096) = none ∧ m.unmapPage root doFree a = .ok m) ∨
    ∃ q w, (pageTree root).table m.words 2 (a / 4096 / 512) = some q ∧ m.pages root (a / 4096) = some w ∧
      m.unmapPage root doFree a =
        (if doFree then m.kfree (pte2pa w) else .ok m) >>= fun m => .ok (m.store (q, a / 4096 % 512) 0) := by
  rw [unmapPage, walk_look ha]
  cases hp : (pageTree root).table m.words 2 (a / 4096 / 512) with
  | none => exact Or.inl ⟨by rw [Ram.pages, Radix.entry, hp]; rfl, rfl⟩
  | some q =>
    have hentry : m.pages root (a / 4096) = (some (m.words q (a / 4096 % 512))).filter (fun w => w &&& pteV ≠ 0) := by
      rw [Ram.pages, Radix.entry, hp]
      rfl
    by_cases hv : m.words q (a / 4096 % 512) &&& pteV = 0
    · rw [filter_invalid hv] at hentry
      exact Or.inl ⟨hentry, if_pos hv⟩
    · rw [filter_valid hv] at hentry
      refine Or.inr ⟨q, _, rfl, hentry, (if_neg hv).trans ?_⟩
      cases doFree <;> rfl

/-- One pass takes out the entry of its page, and nothing else. -/
theorem unmapPage_ok (hs : m.Separate root)
    (hspare : doFree = true → a < maxVa → ∀ w, m.pages root (a / 4096) = some w → ¬ m.Table root (pte2pa w))
    (h : m.unmapPage root doFree a = .ok m') : Unmapped root (a / 4096) 1 m m' := by
  have ha : a < maxVa := by
    obtain ⟨r, hw, -⟩ := bind_ok h
    exact walk_lt hw
  obtain ⟨hnone, heq⟩ | ⟨q, w, hq, hw, heq⟩ := unmapPage_eq doFree ha
  · obtain rfl := Except.ok.inj (heq.symm.trans h)
    exact .of_none hnone
  rw [heq] at h
  obtain ⟨m₁, hfree, h⟩ := bind_ok h
  obtain rfl := Except.ok.inj h
  cases doFree with
  | false =>
    obtain rfl := Except.ok.inj hfree
    exact .clear hs hq
  | true =>
    obtain ⟨hkend, htable, hpages⟩ := kfree_frame hfree (hspare rfl ha w hw)
    have hclear := Unmapped.clear (hs.congr htable) ((htable 2 _ (Nat.le_refl 2)).trans hq)
    refine ⟨hclear.kend.trans hkend, fun d x hd => (hclear.tables d x hd).trans (htable d x hd), fun u => ?_⟩
    rw [hclear.pages, hpages]

/-- It does not panic when `kfree` takes the page. -/
theorem unmapPage_runs (ha : a < maxVa)
    (hfree : doFree = true → ∀ w, m.pages root (a / 4096) = some w → m.kend ≤ pte2pa w ∧ pte2pa w < physTop) :
    ∃ m', m.unmapPage root doFree a = .ok m' := by
  obtain ⟨-, heq⟩ | ⟨q, w, -, hw, heq⟩ := unmapPage_eq doFree ha
  · exact ⟨m, heq⟩
  rw [heq]
  cases doFree with
  | false => exact ⟨_, rfl⟩
  | true =>
    obtain ⟨m₁, h₁⟩ := kfree_runs (pte2pa_mod w) (hfree rfl w hw)
    exact ⟨_, bind_of_ok h₁ _⟩

section Loop

variable (hs : m.Separate root) (ha : a % 4096 = 0)
  (hspare : doFree = true →
    ∀ v w, v * 4096 < maxVa → a / 4096 ≤ v → v < a / 4096 + n → m.pages root v = some w → ¬ m.Table root (pte2pa w))

include hs ha hspare

/-- A pass of the loop. -/
theorem unmapLoop_step (hmax : a + n * 4096 < 2 ^ 64) (hi : i < n) {t t' : Ram} (h : Unmapped root (a / 4096) i m t)
    (hstep : t.unmapPage root doFree (add64 a (i * 4096)) = .ok t') : Unmapped root (a / 4096) (i + 1) m t' := by
  have hfit : a + i * 4096 ≤ a + n * 4096 := Nat.add_le_add_left (Nat.mul_le_mul_right 4096 (Nat.le_of_lt hi)) a
  rw [add64_of_lt (Nat.lt_of_le_of_lt hfit hmax)] at hstep
  have hpage : (a + i * 4096) / 4096 = a / 4096 + i := by omega
  refine h.snoc ?_
  rw [← hpage]
  refine unmapPage_ok (hs.congr h.tables) (fun hdo hlt w hw hc => ?_) hstep
  rw [hpage, h.pages, if_neg (by omega)] at hw
  exact hspare hdo _ w (by omega) (by omega) (by omega) hw ((Radix.isTable_congr h.tables).mp hc)

/-- The loop takes out the entries of its range. -/
theorem unmapLoop_ok (hmax : a + n * 4096 < 2 ^ 64)
    (h : forFrom (fun i m => m.unmapPage root doFree (add64 a (i * pgSize))) 0 n m = .ok m') : Unmapped root (a / 4096) n m m' := by
  have hrun := forFrom_inv (fun i t => Unmapped root (a / 4096) i m t) h (.refl m) (fun i t t' _ hi ht hstep =>
    unmapLoop_step hs ha hspare hmax (by omega) ht hstep)
  rwa [Nat.zero_add] at hrun

theorem unmapLoop_runs (hmax : a + n * 4096 ≤ maxVa) (hfree : doFree = true → ∀ v w, a / 4096 ≤ v → v < a / 4096 + n →
      m.pages root v = some w → m.kend ≤ pte2pa w ∧ pte2pa w < physTop) :
    ∃ m', forFrom (fun i m => m.unmapPage root doFree (add64 a (i * pgSize))) 0 n m = .ok m' := by
  have hmax64 : a + n * 4096 < 2 ^ 64 := Nat.lt_of_le_of_lt hmax (by decide)
  have hruns : Avoids (fun _ => True) (forFrom (fun i m => m.unmapPage root doFree (add64 a (i * pgSize))) 0 n m) := by
    refine Avoids.forFrom (fun i t => Unmapped root (a / 4096) i m t) (.refl m) (fun i t _ hi ht => ?_)
      (fun i t t' _ hi ht hstep => unmapLoop_step hs ha hspare hmax64 (by omega) ht hstep)
    have hpage : (a + i * 4096) / 4096 = a / 4096 + i := by omega
    have hlt : a + i * 4096 < maxVa :=
      Nat.lt_of_lt_of_le (Nat.add_lt_add_left (Nat.mul_lt_mul_of_pos_right (by omega) (by decide)) a) hmax
    obtain ⟨t', ht'⟩ : ∃ t', t.unmapPage root doFree (a + i * 4096) = .ok t' := by
      refine unmapPage_runs hlt (fun hdo w hw => ?_)
      rw [hpage, ht.pages, if_neg (by omega)] at hw
      rw [ht.kend]
      exact hfree hdo _ w (by omega) (by omega) hw
    intro e he
    change t.unmapPage root doFree (add64 a (i * 4096)) = .error e at he
    rw [add64_of_lt (Nat.lt_trans hlt (by decide)), ht'] at he
    cases he
  cases hrun : forFrom (fun i m => m.unmapPage root doFree (add64 a (i * pgSize))) 0 n m with
  | ok m' => exact ⟨m', rfl⟩
  | error e => exact absurd trivial (hruns e hrun)

end Loop

end Ram

end Xv6SnifferBakery.Kernel
