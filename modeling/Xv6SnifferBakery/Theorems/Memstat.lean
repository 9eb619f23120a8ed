import Xv6SnifferBakery.Kernel.Memstat
import Xv6SnifferBakery.Lemmas.Outcome
import Xv6SnifferBakery.Lemmas.Replay

/-!
# What `memstat` tells

The report has room for `maxPagesInfo` pages and 32 bits for an address. It is right within these limits; and below the first of them
it shows what was on the kernel stack.
-/

namespace Xv6SnifferBakery.Kernel

open Lib

variable {m m' : Machine} {p p' : Proc} {addr : Nat}

/-! ## The loop -/

/-- What the loop leaves after it has reported `r`, from entry `n` on. -/
structure Reports (r : List PageInfo) (n : Nat) (x y : ProcMemStat) : Prop where
  pid : y.pid = x.pid
  nextFifoSeq : y.nextFifoSeq = x.nextFifoSeq
  total : y.numPagesTotal = x.numPagesTotal + r.length
  resident : y.numResidentPages = x.numResidentPages + r.countP (·.state = .resident)
  swapped : y.numSwappedPages = x.numSwappedPages + r.countP (·.state = .swapped)
  below : ∀ k < n, y.pages k = x.pages k
  pages : ∀ k, y.pages (n + k) = (r[k]?.map PageInfo.stat).getD (x.pages (n + k))

theorem memstatLoop_reports (es : List PageInfo) (n : Nat) (x : ProcMemStat) :
    Reports (es.take (maxPagesInfo - n)) n x (memstatLoop es n x) := by
  induction es generalizing n x with
  | nil =>
    rw [List.take_nil]
    exact ⟨rfl, rfl, (add_zero _).symm, (add_zero _).symm, (add_zero _).symm, fun _ _ => rfl, fun _ => rfl⟩
  | cons e es ih =>
    rw [memstatLoop]
    by_cases hn : n < maxPagesInfo
    · rw [if_pos hn, show maxPagesInfo - n = maxPagesInfo - (n + 1) + 1 by omega, List.take_succ_cons]
      obtain ⟨hpid, hseq, htotal, hres, hswap, hbelow, hpages⟩ := ih (n + 1) { x with
        pages := Function.update x.pages n e.stat
        numPagesTotal := x.numPagesTotal + 1
        numResidentPages := if e.state = .resident then x.numResidentPages + 1 else x.numResidentPages
        numSwappedPages := if e.state = .swapped then x.numSwappedPages + 1 else x.numSwappedPages }
      refine ⟨hpid, hseq, ?_, ?_, ?_, ?_, ?_⟩
      · rw [htotal, List.length_cons]
        push_cast
        ring
      · rw [hres, List.countP_cons]
        by_cases hr : e.state = .resident
        · simp only [hr, if_true, decide_true]
          push_cast
          ring
        · simp [hr]
      · rw [hswap, List.countP_cons]
        by_cases hs : e.state = .swapped
        · simp only [hs, if_true, decide_true]
          push_cast
          ring
        · simp [hs]
      · intro k hk
        rw [hbelow k (by omega)]
        exact Function.update_of_ne (Nat.ne_of_lt hk) ..
      · intro k
        cases k with
        | zero =>
          exact (hbelow n (Nat.lt_succ_self n)).trans (Function.update_self ..)
        | succ k =>
          have hk := hpages k
          rw [show n + 1 + k = n + (k + 1) by omega] at hk
          rw [hk, List.getElem?_cons_succ]
          refine congrArg _ ?_
          exact Function.update_of_ne (by omega) ..
    · rw [if_neg hn, Nat.sub_eq_zero_of_le (Nat.not_lt.mp hn), List.take_zero]
      exact ⟨rfl, rfl, (add_zero _).symm, (add_zero _).symm, (add_zero _).symm, fun _ _ => rfl, fun _ => rfl⟩

/-- The structure: the first pages are reported, the other entries are those of the stack. -/
theorem memStat_reports (p : Proc) (stack : ProcMemStat) : Reports (p.pages.take maxPagesInfo) 0
    { stack with pid := p.pid, nextFifoSeq := p.nextFifoSeq, numPagesTotal := 0, numResidentPages := 0, numSwappedPages := 0 }
    (memStat p stack) :=
  memstatLoop_reports p.pages 0 _

/-! ## The truth -/

/-- The report of a page says what its entry says. -/
structure PageStat.Exact (x : PageStat) (e : PageInfo) : Prop where
  va : x.va = e.va
  state : x.state = e.state.code
  isDirty : x.isDirty = if e.isDirty then 1 else 0
  seq : x.seq = e.seq
  swapSlot : x.swapSlot = e.swapSlot

/-- The counts are those of the tracked pages, and each page that is reported is reported exactly. -/
structure ProcMemStat.Truthful (x : ProcMemStat) (p : Proc) : Prop where
  total : x.numPagesTotal = p.pages.length
  resident : x.numResidentPages = p.pages.countP (·.state = .resident)
  swapped : x.numSwappedPages = p.pages.countP (·.state = .swapped)
  pages : ∀ k e, k < maxPagesInfo → p.pages[k]? = some e → (x.pages k).Exact e

/-- All pages of a truthful report have room in it. -/
theorem ProcMemStat.Truthful.length {stack : ProcMemStat} (h : (memStat p stack).Truthful p) : p.pages.length ≤ maxPagesInfo := by
  have heq := h.total
  rw [(memStat_reports p stack).total, List.length_take] at heq
  dsimp only at heq
  omega

theorem ProcMemStat.Truthful.small {stack : ProcMemStat} (h : (memStat p stack).Truthful p) (e : PageInfo) (he : e ∈ p.pages) :
    e.va < 2 ^ 32 := by
  obtain ⟨k, hk⟩ := List.mem_iff_getElem?.mp he
  have hlt : k < maxPagesInfo := lt_of_lt_of_le (List.getElem?_eq_some_iff.mp hk).1 h.length
  have hva := (h.pages k e hlt hk).va
  have hreport := (memStat_reports p stack).pages k
  rw [Nat.zero_add, List.take_of_length_le h.length, hk] at hreport
  rw [← hva, hreport]
  exact Nat.mod_lt _ (by decide)

/-- `memstat` tells the truth exactly when every tracked page has room in the report, and every address in 32 bits. -/
theorem memstat_truth_iff (p : Proc) (stack : ProcMemStat) :
    (memStat p stack).Truthful p ↔ p.pages.length ≤ maxPagesInfo ∧ ∀ e ∈ p.pages, e.va < 2 ^ 32 := by
  obtain ⟨-, -, htotal, hres, hswap, -, hpages⟩ := memStat_reports p stack
  constructor
  · intro h
    exact ⟨h.length, h.small⟩
  · rintro ⟨hlen, hva⟩
    rw [List.take_of_length_le hlen] at htotal hres hswap hpages
    refine ⟨htotal.trans (zero_add _), hres.trans (zero_add _), hswap.trans (zero_add _), ?_⟩
    intro k e _ hk
    have hreport := hpages k
    rw [Nat.zero_add, hk] at hreport
    rw [hreport]
    exact ⟨Nat.mod_eq_of_lt (hva e (List.mem_of_getElem? hk)), rfl, rfl, rfl, rfl⟩

/-- A heap page above 4 GB is touched. -/
def touchHigh : List Action := [.sbrk 0 (2 ^ 31 - 1) false, .sbrk 0 (2 ^ 31 - 1) false, .sbrk 0 8192 false, .fault 0 (2 ^ 32) .read]

/-- A page above 4 GB is reported with another address. -/
theorem memstat_cuts : ¬∀ t, Reach Boot Step t → ∀ i, (t.proc i).live → ∀ stack, (memStat (t.proc i) stack).Truthful (t.proc i) := by
  have hex : (replay (smallBoot smallFiles 32) touchHigh).any (fun t => (t.proc 0).live ∧ (t.proc 0).pages.any (fun e => 2 ^ 32 ≤ e.va)) =
      true := by
    decide +kernel
  obtain ⟨t, ht, hex⟩ := (Option.any_eq_true _ _).mp hex
  obtain ⟨hlive, hhigh⟩ := of_decide_eq_true hex
  obtain ⟨e, he, hle⟩ := List.any_eq_true.mp hhigh
  intro hall
  have htrue := hall t ⟨_, _, smallBoot_init, replay_run ht⟩ 0 hlive ⟨0, 0, 0, 0, 0, fun _ => ⟨0, 0, 0, 0, 0⟩⟩
  exact absurd (htrue.small e he) (Nat.not_lt.mpr (of_decide_eq_true hle))

/-! ## The stack -/

/-- A process with a page for every entry of the report leaves nothing of the stack in it. -/
theorem memStat_stack (hlen : maxPagesInfo ≤ p.pages.length) (stack stack' : ProcMemStat) :
    (memStat p stack).bytes = (memStat p stack').bytes := by
  obtain ⟨hpid, hseq, htotal, hres, hswap, -, hpages⟩ := memStat_reports p stack
  obtain ⟨hpid', hseq', htotal', hres', hswap', -, hpages'⟩ := memStat_reports p stack'
  have hentries : ∀ k < maxPagesInfo, (memStat p stack).pages k = (memStat p stack').pages k := by
    intro k hk
    have hlt := lt_of_lt_of_le hk hlen
    have hsome : (p.pages.take maxPagesInfo)[k]? = some p.pages[k] := by
      rw [List.getElem?_take_of_lt hk, List.getElem?_eq_getElem hlt]
    have hk₁ := hpages k
    have hk₂ := hpages' k
    rw [Nat.zero_add, hsome] at hk₁ hk₂
    rw [hk₁, hk₂]
    rfl
  unfold ProcMemStat.bytes
  rw [hpid, hseq, htotal, hres, hswap, hpid', hseq', htotal', hres', hswap']
  refine congrArg _ ?_
  rw [List.flatMap_def, List.flatMap_def]
  refine congrArg List.flatten (List.map_congr_left ?_)
  intro k hk
  rw [hentries k (List.mem_range.mp hk)]

/-- The stack with another number in the last slot of the report. -/
def ProcMemStat.setLast (x : ProcMemStat) (slot : Int) : ProcMemStat :=
  { x with pages := Function.update x.pages (maxPagesInfo - 1) { x.pages (maxPagesInfo - 1) with swapSlot := slot } }

/-- The bytes before the last field. -/
def ProcMemStat.front (x : ProcMemStat) : List Byte :=
  le32 x.pid ++ le32 x.numPagesTotal ++ le32 x.numResidentPages ++ le32 x.numSwappedPages ++ le32 x.nextFifoSeq ++
    ((List.range (maxPagesInfo - 1)).flatMap (fun k => (x.pages k).bytes) ++
      (le32 (x.pages (maxPagesInfo - 1)).va ++ le32 (x.pages (maxPagesInfo - 1)).state ++ le32 (x.pages (maxPagesInfo - 1)).isDirty ++
        le32 (x.pages (maxPagesInfo - 1)).seq))

theorem ProcMemStat.bytes_front (x : ProcMemStat) : x.bytes = x.front ++ le32 (x.pages (maxPagesInfo - 1)).swapSlot := by
  have hrange : List.range maxPagesInfo = List.range (maxPagesInfo - 1) ++ [maxPagesInfo - 1] := List.range_succ
  rw [bytes, front, hrange, List.flatMap_append, List.flatMap_singleton]
  simp only [PageStat.bytes, List.append_assoc]

/-- A process with too few pages for the report shows the last entry of the stack. -/
theorem memStat_setLast (hlen : p.pages.length < maxPagesInfo) (stack : ProcMemStat) (slot : Int) :
    (memStat p (stack.setLast slot)).bytes = (memStat p stack).front ++ le32 slot := by
  obtain ⟨hpid, hseq, htotal, hres, hswap, -, hpages⟩ := memStat_reports p stack
  obtain ⟨hpid', hseq', htotal', hres', hswap', -, hpages'⟩ := memStat_reports p (stack.setLast slot)
  rw [List.take_of_length_le (le_of_lt hlen)] at hpages hpages'
  have hnone : p.pages[maxPagesInfo - 1]? = none := List.getElem?_eq_none (by omega)
  have hlast : (memStat p stack).pages (maxPagesInfo - 1) = stack.pages (maxPagesInfo - 1) := by
    have hk := hpages (maxPagesInfo - 1)
    rw [Nat.zero_add, hnone] at hk
    exact hk
  have hlast' : (memStat p (stack.setLast slot)).pages (maxPagesInfo - 1) =
      { stack.pages (maxPagesInfo - 1) with swapSlot := slot } := by
    have hk := hpages' (maxPagesInfo - 1)
    rw [Nat.zero_add, hnone] at hk
    rw [hk]
    exact Function.update_self (maxPagesInfo - 1) { stack.pages (maxPagesInfo - 1) with swapSlot := slot } stack.pages
  have hother : ∀ k ∈ List.range (maxPagesInfo - 1), ((memStat p (stack.setLast slot)).pages k).bytes = ((memStat p stack).pages k).bytes := by
    intro k hk
    have hk₁ := hpages k
    have hk₂ := hpages' k
    rw [Nat.zero_add] at hk₁ hk₂
    have hsame : (stack.setLast slot).pages k = stack.pages k := Function.update_of_ne (Nat.ne_of_lt (List.mem_range.mp hk)) ..
    rw [hk₁, hk₂]
    change PageStat.bytes (Option.getD _ ((stack.setLast slot).pages k)) = PageStat.bytes (Option.getD _ (stack.pages k))
    rw [hsame]
  have hfront : (memStat p (stack.setLast slot)).front = (memStat p stack).front := by
    unfold ProcMemStat.front
    rw [hpid, hseq, htotal, hres, hswap, hpid', hseq', htotal', hres', hswap', hlast, hlast', List.flatMap_def, List.flatMap_def,
      List.map_congr_left hother]
  rw [ProcMemStat.bytes_front, hfront, hlast']

theorem le32_last (x : Int) : ∃ front last, le32 x = front ++ [last] ∧ le32 (x + 2 ^ 24) = front ++ [last + 1] := by
  have hcongr : ∀ a b : Nat, a % 256 = b % 256 → UInt8.ofNat a = UInt8.ofNat b := by
    intro a b h
    exact UInt8.toNat_inj.mp (by rw [UInt8.toNat_ofNat', UInt8.toNat_ofNat']; exact h)
  have hx : 0 ≤ x % 2 ^ 32 ∧ x % 2 ^ 32 < 2 ^ 32 := ⟨Int.emod_nonneg _ (by decide), Int.emod_lt_of_pos _ (by decide)⟩
  have hy : ((x + 2 ^ 24) % 2 ^ 32).toNat = ((x % 2 ^ 32).toNat + 2 ^ 24) % 2 ^ 32 := by omega
  rw [le32, le32, hy]
  generalize (x % 2 ^ 32).toNat = n
  rw [List.range_succ]
  refine ⟨(List.range 3).map (fun k => UInt8.ofNat (n / 256 ^ k)), UInt8.ofNat (n / 256 ^ 3), List.map_append .., ?_⟩
  rw [List.map_append, List.map_singleton]
  refine congrArg₂ (· ++ ·) ?_ ?_
  · refine List.map_congr_left ?_
    intro k hk
    have hlt := List.mem_range.mp hk
    refine hcongr _ _ ?_
    rcases (by omega : k = 0 ∨ k = 1 ∨ k = 2) with rfl | rfl | rfl
    · omega
    · omega
    · omega
  · refine congrArg (fun b => [b]) ?_
    refine UInt8.toNat_inj.mp ?_
    rw [UInt8.toNat_add, UInt8.toNat_ofNat', UInt8.toNat_ofNat', UInt8.toNat_one]
    omega

/-- A byte of the user's memory, as the process's table maps it. -/
def userByte (m : Machine) (p : Proc) (a : Nat) : Option Byte := (p.pagetable.leaf (a / 4096)).map (fun pte => m.mem pte.pa (a % 4096))

/-- A `copyout` that succeeds leaves the last byte in the buffer, and it would have succeeded with another byte in its place. -/
theorem copyoutLoop_last {fuel dst : Nat} {xs : List Byte} {b : Byte} (hfuel : xs.length < fuel)
    (h : copyoutLoop none fuel m p dst (xs ++ [b]) = .ok (m', p', true)) :
    userByte m' p' (dst + xs.length) = some b ∧
      ∀ c, ∃ m'', copyoutLoop none fuel m p dst (xs ++ [c]) = .ok (m'', p', true) ∧ userByte m'' p' (dst + xs.length) = some c := by
  induction fuel generalizing m p dst xs with
  | zero => exact absurd hfuel (Nat.not_lt_zero _)
  | succ fuel ih =>
    have hne : ∀ c : Byte, xs ++ [c] ≠ [] := fun c => List.append_ne_nil_of_right_ne_nil _ (List.cons_ne_nil _ _)
    rw [copyoutLoop, if_neg (hne b)] at h
    simp only at h
    split at h
    · cases h
    rename_i hlt
    obtain ⟨⟨m₁, p₁, o⟩, hc, hrest⟩ := bind_ok h
    clear h
    obtain ⟨-, hpage⟩ := copyPage_run (pgRoundDown_mod dst) hc
    cases o with
    | none => cases hrest
    | some pa =>
      obtain ⟨hltva, pte, hleaf, -, rfl⟩ := hpage pa rfl
      have hlook : lookup p₁.pagetable (pgRoundDown dst) = .ok (some pte) := lookup_leaf hleaf
      simp only [Option.getD_none] at hrest
      rw [bind_of_ok hlook] at hrest
      simp only at hrest
      split at hrest
      · cases hrest
      rename_i hw
      have hdiv : pgRoundDown dst / 4096 = dst / 4096 := pgRoundDown_div dst
      have hoff : dst - pgRoundDown dst = dst % 4096 := by
        unfold pgRoundDown
        omega
      have hmod : dst % 4096 < 4096 := Nat.mod_lt _ (by decide)
      rw [hdiv] at hleaf
      -- the rest of the loop, for any last byte
      have hgo : ∀ c, copyoutLoop none (fuel + 1) m p dst (xs ++ [c]) =
          copyoutLoop none fuel (m₁.fill pte.pa (writeBytes (m₁.mem pte.pa) (dst - pgRoundDown dst)
            ((xs ++ [c]).take (min (pgSize - (dst - pgRoundDown dst)) (xs ++ [c]).length)))) p₁ (pgRoundDown dst + pgSize)
            ((xs ++ [c]).drop (min (pgSize - (dst - pgRoundDown dst)) (xs ++ [c]).length)) := by
        intro c
        rw [copyoutLoop, if_neg (hne c)]
        simp only
        rw [if_neg hlt, bind_of_ok hc]
        simp only [Option.getD_none]
        rw [bind_of_ok hlook]
        simp only
        rw [if_neg hw]
      simp only [List.length_append, List.length_singleton, hoff] at hrest hgo
      by_cases hall : xs.length + 1 ≤ 4096 - dst % 4096
      · -- the last byte is on this page
        have hmin : min (pgSize - dst % 4096) (xs.length + 1) = xs.length + 1 := Nat.min_eq_right hall
        have hfull : ∀ c : Byte, (xs ++ [c]).length = xs.length + 1 := fun c => by simp
        have hend : ∀ c : Byte, ∃ m'', copyoutLoop none (fuel + 1) m p dst (xs ++ [c]) = .ok (m'', p₁, true) ∧
            m'' = m₁.fill pte.pa (writeBytes (m₁.mem pte.pa) (dst % 4096) (xs ++ [c])) := by
          intro c
          refine ⟨_, ?_, rfl⟩
          rw [hgo c, hmin, List.take_of_length_le (le_of_eq (hfull c)), List.drop_eq_nil_of_le (le_of_eq (hfull c))]
          cases fuel <;> rfl
        have hbyte : ∀ c : Byte, userByte (m₁.fill pte.pa (writeBytes (m₁.mem pte.pa) (dst % 4096) (xs ++ [c]))) p₁ (dst + xs.length) =
            some c := by
          intro c
          have hpg : (dst + xs.length) / 4096 = dst / 4096 := by omega
          have hin : (dst + xs.length) % 4096 = dst % 4096 + xs.length := by omega
          rw [userByte, hpg, hleaf, hin, Option.map_some, Machine.fill_mem_self, writeBytes, if_pos ⟨Nat.le_add_right _ _, by
            rw [hfull c]; omega⟩, Nat.add_sub_cancel_left, List.getD_eq_getElem?_getD, List.getElem?_concat_length]
          rfl
        rw [hmin, List.take_of_length_le (le_of_eq (hfull b)), List.drop_eq_nil_of_le (le_of_eq (hfull b))] at hrest
        have hdone : m' = m₁.fill pte.pa (writeBytes (m₁.mem pte.pa) (dst % 4096) (xs ++ [b])) ∧ p' = p₁ := by
          cases fuel with
          | zero =>
            simp only [copyoutLoop, Except.ok.injEq, Prod.mk.injEq] at hrest
            exact ⟨hrest.1.symm, hrest.2.1.symm⟩
          | succ fuel =>
            rw [copyoutLoop, if_pos rfl] at hrest
            simp only [Except.ok.injEq, Prod.mk.injEq] at hrest
            exact ⟨hrest.1.symm, hrest.2.1.symm⟩
        obtain ⟨rfl, rfl⟩ := hdone
        refine ⟨hbyte b, ?_⟩
        intro c
        obtain ⟨m'', hm, rfl⟩ := hend c
        exact ⟨_, hm, hbyte c⟩
      · -- a page of other bytes comes first
        have hle : 4096 - dst % 4096 ≤ xs.length + 1 := by omega
        have hmin : min (pgSize - dst % 4096) (xs.length + 1) = 4096 - dst % 4096 := Nat.min_eq_left hle
        have hshort : (xs.drop (4096 - dst % 4096)).length < fuel := by
          rw [List.length_drop]
          omega
        have htake : ∀ c : Byte, (xs ++ [c]).take (4096 - dst % 4096) = xs.take (4096 - dst % 4096) :=
          fun c => List.take_append_of_le_length (by omega)
        have hdrop : ∀ c : Byte, (xs ++ [c]).drop (4096 - dst % 4096) = xs.drop (4096 - dst % 4096) ++ [c] :=
          fun c => List.drop_append_of_le_length (by omega)
        have haddr : pgRoundDown dst + pgSize + (xs.drop (4096 - dst % 4096)).length = dst + xs.length := by
          rw [List.length_drop]
          unfold pgRoundDown pgSize
          omega
        rw [hmin, htake, hdrop] at hrest
        obtain ⟨hb, hothers⟩ := ih hshort hrest
        rw [haddr] at hb hothers
        refine ⟨hb, ?_⟩
        intro c
        obtain ⟨m'', hm, hbyte⟩ := hothers c
        refine ⟨m'', ?_, hbyte⟩
        rw [hgo c, hmin, htake, hdrop]
        exact hm

/-- The user's buffer is the same after any two calls that succeed, whatever the stack held. -/
def LeaksNothing (m : Machine) (p : Proc) (addr : Nat) : Prop :=
  ∀ stack stack' m₁ p₁ m₂ p₂, sysMemstat m p stack addr = .ok (m₁, p₁, true) → sysMemstat m p stack' addr = .ok (m₂, p₂, true) →
    ∀ k < (memStat p stack).bytes.length, userByte m₁ p₁ (addr + k) = userByte m₂ p₂ (addr + k)

/-- The last field of the report can be another one, and the user sees that. -/
theorem memstat_leaks {stack : ProcMemStat} (hlen : p.pages.length < maxPagesInfo) (h : sysMemstat m p stack addr = .ok (m', p', true)) :
    ¬LeaksNothing m p addr := by
  intro hsafe
  have hself : stack = stack.setLast (stack.pages (maxPagesInfo - 1)).swapSlot := by
    unfold ProcMemStat.setLast
    rw [Function.update_eq_self]
  obtain ⟨front, last, hx, hy⟩ := le32_last (stack.pages (maxPagesInfo - 1)).swapSlot
  have hbytes : (memStat p stack).bytes = (memStat p stack).front ++ front ++ [last] := by
    rw [List.append_assoc, ← hx, ← memStat_setLast hlen, ← hself]
  have hbytes' : (memStat p (stack.setLast ((stack.pages (maxPagesInfo - 1)).swapSlot + 2 ^ 24))).bytes =
      (memStat p stack).front ++ front ++ [last + 1] := by
    rw [List.append_assoc, ← hy, memStat_setLast hlen]
  have hrun := h
  rw [sysMemstat, copyout, hbytes, List.length_append, List.length_singleton] at hrun
  obtain ⟨hseen, hothers⟩ := copyoutLoop_last (Nat.lt_succ_self _) hrun
  obtain ⟨m'', hrun', hseen'⟩ := hothers (last + 1)
  have h' : sysMemstat m p (stack.setLast ((stack.pages (maxPagesInfo - 1)).swapSlot + 2 ^ 24)) addr = .ok (m'', p', true) := by
    rw [sysMemstat, copyout, hbytes', List.length_append, List.length_singleton]
    exact hrun'
  have hsame := hsafe _ _ _ _ _ _ h h' ((memStat p stack).front ++ front).length (by rw [hbytes]; simp)
  rw [hseen, hseen'] at hsame
  have hne : last ≠ last + 1 := by
    intro heq
    have hnat := congrArg UInt8.toNat heq
    rw [UInt8.toNat_add, UInt8.toNat_one] at hnat
    have := last.toNat_lt
    omega
  exact hne (Option.some.inj hsame)

/-- Nothing of the kernel stack gets out exactly when the process has a page for every entry of the report: then a call does the same
whatever the stack held, and otherwise every call that can succeed shows bytes of it. -/
theorem memstat_leak_iff (m : Machine) (p : Proc) (addr : Nat) :
    (maxPagesInfo ≤ p.pages.length → ∀ stack stack', sysMemstat m p stack addr = sysMemstat m p stack' addr) ∧
    ((∃ stack m' p', sysMemstat m p stack addr = .ok (m', p', true)) → (LeaksNothing m p addr ↔ maxPagesInfo ≤ p.pages.length)) := by
  have hsame : maxPagesInfo ≤ p.pages.length → ∀ stack stack', sysMemstat m p stack addr = sysMemstat m p stack' addr := by
    intro hlen stack stack'
    rw [sysMemstat, sysMemstat, memStat_stack hlen stack stack']
  refine ⟨hsame, ?_⟩
  rintro ⟨stack, m', p', h⟩
  constructor
  · intro hsafe
    by_contra hlen
    exact memstat_leaks (Nat.not_le.mp hlen) h hsafe
  · intro hlen stack₁ stack₂ m₁ p₁ m₂ p₂ h₁ h₂ k _
    rw [hsame hlen stack₁ stack₂, h₂] at h₁
    simp only [Except.ok.injEq, Prod.mk.injEq] at h₁
    obtain ⟨rfl, rfl, -⟩ := h₁
    rfl

/-- The first process asks for the report, in its stack page. -/
theorem memstat_boot : ∃ stack m' p',
    sysMemstat (smallBoot smallFiles 32).m ((smallBoot smallFiles 32).proc 0) stack 12288 = .ok (m', p', true) := by
  have hex : (match sysMemstat (smallBoot smallFiles 32).m ((smallBoot smallFiles 32).proc 0) ⟨0, 0, 0, 0, 0, fun _ => ⟨0, 0, 0, 0, 0⟩⟩ 12288 with
      | .ok (_, _, r) => r
      | .error _ => false) = true := by
    decide +kernel
  split at hex
  · rename_i m' p' r heq
    exact ⟨_, m', p', by rw [heq, hex]⟩
  · nomatch hex

theorem memstat_leak_iff_boot : LeaksNothing (smallBoot smallFiles 32).m ((smallBoot smallFiles 32).proc 0) 12288 ↔
    maxPagesInfo ≤ ((smallBoot smallFiles 32).proc 0).pages.length :=
  (memstat_leak_iff _ _ _).2 memstat_boot

/-- The first process has one page: it is shown most of the structure as the stack had it. -/
theorem memstat_shows_stack : ¬∀ t, Reach Boot Step t → ∀ i, (t.proc i).live → ∀ addr, LeaksNothing t.m (t.proc i) addr := by
  intro hall
  obtain ⟨stack, m', p', h⟩ := memstat_boot
  refine memstat_leaks ?_ h (hall _ (.of_init smallBoot_init) 0 smallBoot_live 12288)
  decide +kernel

end Xv6SnifferBakery.Kernel
