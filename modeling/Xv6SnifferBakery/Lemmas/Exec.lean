import Xv6SnifferBakery.Kernel.Exec
import Xv6SnifferBakery.Lemmas.Ownership

/-!
# What `exec` does

The new image of a process is built beside the old one: until the commit only the new table, the frame of the new stack page, and
the fields that record the segments are written.
-/

namespace Xv6SnifferBakery.Kernel

open Lib

variable {m m' : Machine} {p p' : Proc} {pt pt' : PageTable}

/-! ## The stack of the new image -/

/-- The leaves of a new image whose stack ends at `sz`: the guard page, one stack page, and the two top pages. -/
structure ImageTable (trampoline trapframe : Pa) (sz : Nat) (stackMem : Pa) (pt : PageTable) : Prop where
  root : pt.root.isSome
  top : StackTop sz
  trampoline : pt.leaf (userPages + 1) = some ⟨trampoline, ⟨true, false, true, false⟩⟩
  trapframe : pt.leaf userPages = some ⟨trapframe, ⟨true, true, false, false⟩⟩
  stack : pt.leaf (sz / 4096 - 1) = some ⟨stackMem, ⟨true, true, false, true⟩⟩
  guard : ∃ pa, pt.leaf (sz / 4096 - 2) = some ⟨pa, ⟨true, true, false, false⟩⟩
  rest : ∀ v, v ≠ userPages → v ≠ userPages + 1 → v + 1 ≠ sz / 4096 → v + 2 ≠ sz / 4096 → pt.leaf v = none

theorem imageTop_lt (sz : Nat) : imageTop sz < 2 ^ 64 := Nat.mod_lt _ (by decide)

theorem imageTop_mod (sz : Nat) : imageTop sz % 4096 = 0 := by
  have := pgRoundUp_mod sz
  unfold imageTop add64 userStack pgSize
  omega

/-- When the guard page of an image can be mapped, its stack ends at two pages or above. -/
theorem imageTop_of_guard {sz : Nat} (h : guardBase (imageTop sz) < maxVa) :
    8192 ≤ imageTop sz ∧ guardBase (imageTop sz) = imageTop sz - 8192 ∧ sub64 (imageTop sz) pgSize = imageTop sz - 4096 := by
  have hlt := imageTop_lt sz
  have hmod := imageTop_mod sz
  generalize imageTop sz = t at *
  unfold guardBase sub64 userStack maxVa at h
  unfold guardBase sub64 userStack
  rw [pgSize] at *
  omega

/-- `uvmclear` of a mapped page. -/
theorem uvmclear_spec {va : Nat} (h : uvmclear pt va = .ok pt') :
    pt' = pt.modLeaf (va / 4096) (fun pte => { pte with perm := { pte.perm with u := false } }) := by
  unfold uvmclear at h
  split at h
  · nomatch h
  · split at h
    · nomatch h
    · exact (Except.ok.inj h).symm

/-- A page given back that could not be mapped. -/
theorem MapFail.giveBack {m₁ m₂ m₃ : Machine} {pa : Pa} {page : Page} (hk : kalloc m = some (m₁, pa))
    (hs : MapFail (m₁.fill pa page) pt m₂ pt') (hf : kfree m₂ pa = .ok m₃) : Moves m pt.pages m₃ pt'.pages := by
  have h1 := ((kalloc_moves hk).trans (Moves.fill page (Multiset.mem_singleton_self pa))).frame pt.pages
  have h2 := (hs.moves.frame {pa}).congr (add_comm _ _) (add_comm _ _)
  have h3 := (kfree_moves hf).frame pt'.pages
  exact (h1.congr (zero_add _) rfl).trans (h2.trans (h3.congr rfl (zero_add _)))

/-- A user page taken and mapped. -/
theorem MapSpec.take {m₁ m₂ : Machine} {va pa : Nat} {perm : Perm} {page : Page} (hk : kalloc m = some (m₁, pa))
    (hs : MapSpec (m₁.fill pa page) pt va pa perm m₂ pt') (hv : va / 4096 < userPages) : Moves m pt.pages m₂ pt'.pages := by
  have h1 := ((kalloc_moves hk).trans (Moves.fill page (Multiset.mem_singleton_self pa))).frame pt.pages
  have h2 := hs.moves
  rw [leafFrame, if_pos hv] at h2
  exact (h1.congr (zero_add _) (add_comm _ _)).trans h2

/-- `execStack`. -/
theorem execStack_spec {sz : Nat} {tr tf : Pa} {r : Bool} (hpt : FreshTable tr tf pt)
    (h : execStack m pt (imageTop sz) = .ok (m', pt', r)) :
    Moves m pt.pages m' pt'.pages ∧ pt'.root.isSome ∧ (r = true → ∃ mem, ImageTable tr tf (imageTop sz) mem pt') := by
  unfold execStack at h
  cases hk : kalloc m with
  | none =>
    simp only [hk, Except.ok.injEq, Prod.mk.injEq] at h
    obtain ⟨rfl, rfl, rfl⟩ := h
    exact ⟨Moves.refl _ _, hpt.root, by simp⟩
  | some x =>
    obtain ⟨m₁, gmem⟩ := x
    simp only [hk] at h
    obtain ⟨⟨m₂, pt₂, b⟩, hm, h⟩ := bind_ok h
    rcases mappages_page hm with ⟨rfl, hg⟩ | ⟨rfl, hg⟩
    · obtain ⟨hlow, hgb, hsb⟩ := imageTop_of_guard hg.lt
      have hmod := imageTop_mod sz
      have hglt := hg.lt_userPages hpt.topped
      have hgv : guardBase (imageTop sz) / 4096 = imageTop sz / 4096 - 2 := by omega
      have hm₂ := hg.take hk hglt
      obtain ⟨pt₃, hc, h⟩ := bind_ok h
      obtain rfl := uvmclear_spec hc
      have hpages : (pt₂.modLeaf (guardBase (imageTop sz) / 4096)
          (fun pte => { pte with perm := { pte.perm with u := false } })).pages = pt₂.pages :=
        PageTable.pages_modLeaf (fun _ => rfl)
      have hroot : pt₂.root.isSome := by
        rw [hg.root]
        exact hpt.root
      have hleaf₂ : pt₂.leaf (guardBase (imageTop sz) / 4096) = some ⟨gmem, ⟨true, true, false, false⟩⟩ := by
        rw [hg.leaf, Function.update_self]
      have hleaf₃ : (pt₂.modLeaf (guardBase (imageTop sz) / 4096)
          (fun pte => { pte with perm := { pte.perm with u := false } })).leaf = pt₂.leaf := by
        rw [PageTable.modLeaf_leaf _ _ _ _ hleaf₂, ← hleaf₂, Function.update_eq_self]
      cases hk₂ : kalloc m₂ with
      | none =>
        simp only [hk₂, Except.ok.injEq, Prod.mk.injEq] at h
        obtain ⟨rfl, rfl, rfl⟩ := h
        exact ⟨hm₂.congr rfl hpages.symm, by simpa using hroot, by simp⟩
      | some y =>
        obtain ⟨m₃, smem⟩ := y
        simp only [hk₂] at h
        obtain ⟨⟨m₄, pt₄, b₄⟩, hm₄, h⟩ := bind_ok h
        have hpage : pgRoundDown (sub64 (imageTop sz) pgSize) = imageTop sz - 4096 := by
          rw [hsb]
          exact pgRoundDown_of_aligned (by omega)
        rw [hpage] at hm₄
        rcases mappages_page hm₄ with ⟨rfl, hs⟩ | ⟨rfl, hs⟩
        · simp only [Except.ok.injEq, Prod.mk.injEq] at h
          obtain ⟨rfl, rfl, rfl⟩ := h
          have hsv : (imageTop sz - 4096) / 4096 = imageTop sz / 4096 - 1 := by omega
          have hne : ∀ v, userPages ≤ v → v ≠ guardBase (imageTop sz) / 4096 := fun v hv => by omega
          have htop : (pt₂.modLeaf (guardBase (imageTop sz) / 4096)
              (fun pte => { pte with perm := { pte.perm with u := false } })).Topped := by
            obtain ⟨h1, h2⟩ := hpt.topped
            exact ⟨by rw [hleaf₃, hg.leaf, Function.update_of_ne (hne _ (le_refl _))]; exact h1,
              by rw [hleaf₃, hg.leaf, Function.update_of_ne (hne _ (by omega))]; exact h2⟩
          have hslt := hs.lt_userPages htop
          have hst : StackTop (imageTop sz) := ⟨hlow, by rw [trapframeVa_eq]; omega, hmod⟩
          have hleaf : pt₄.leaf = Function.update (Function.update pt.leaf (imageTop sz / 4096 - 2)
              (some ⟨gmem, ⟨true, true, false, false⟩⟩)) (imageTop sz / 4096 - 1) (some ⟨smem, ⟨true, true, false, true⟩⟩) := by
            rw [hs.leaf, hleaf₃, hg.leaf, hsv, hgv]
          refine ⟨hm₂.trans ((hs.take hk₂ hslt).congr hpages rfl), ?_, fun _ => ⟨smem, ?_, hst, ?_, ?_, ?_, ⟨gmem, ?_⟩, ?_⟩⟩
          · rw [hs.root]
            simpa using hroot
          · rw [hs.root]
            simpa using hroot
          · rw [hleaf, Function.update_of_ne (by omega), Function.update_of_ne (by omega), hpt.trampoline]
          · rw [hleaf, Function.update_of_ne (by omega), Function.update_of_ne (by omega), hpt.trapframe]
          · rw [hleaf, Function.update_self]
          · rw [hleaf, Function.update_of_ne (by omega), Function.update_self]
          · intro v h1 h2 h3 h4
            rw [hleaf, Function.update_of_ne (by omega), Function.update_of_ne (by omega), hpt.rest v h1 h2]
        · obtain ⟨m₅, hkf, h⟩ := bind_ok h
          simp only [Except.ok.injEq, Prod.mk.injEq] at h
          obtain ⟨rfl, rfl, rfl⟩ := h
          exact ⟨hm₂.trans ((hs.giveBack hk₂ hkf).congr hpages rfl), by rw [hs.root]; simpa using hroot, by simp⟩
    · obtain ⟨m₃, hkf, h⟩ := bind_ok h
      simp only [Except.ok.injEq, Prod.mk.injEq] at h
      obtain ⟨rfl, rfl, rfl⟩ := h
      exact ⟨hg.giveBack hk hkf, by rw [hg.root]; exact hpt.root, by simp⟩

/-! ## The arguments -/

/-- Only the contents of page `pa` have changed. -/
def Wrote (m : Machine) (pa : Pa) (m' : Machine) : Prop := ∃ page, m' = m.fill pa page

theorem Wrote.refl (m : Machine) (pa : Pa) : Wrote m pa m := ⟨m.mem pa, by rw [Machine.fill, Function.update_eq_self]⟩

theorem Wrote.trans {m₁ m₂ m₃ : Machine} {pa : Pa} (h : Wrote m₁ pa m₂) (h' : Wrote m₂ pa m₃) : Wrote m₁ pa m₃ := by
  obtain ⟨page, rfl⟩ := h
  obtain ⟨page', rfl⟩ := h'
  exact ⟨page', by simp [Machine.fill]⟩

theorem Wrote.moves {pa : Pa} {a : Multiset Pa} (h : Wrote m pa m') (hpa : pa ∈ a) : Moves m a m' a := by
  obtain ⟨page, rfl⟩ := h
  exact Moves.fill page hpa

/-- `copyout` to one page of a table under construction: no fault is taken. -/
theorem copyout_page {dst : Nat} {src : List Byte} {pte : Pte} {r : Bool} (h : copyout m p (some pt) dst src = .ok (m', p', r))
    (hd : maxVa ≤ pgRoundDown dst ∨ pt.leaf (dst / 4096) = some pte ∧ pte.perm.u = true ∧ dst % 4096 + src.length ≤ 4096) :
    p' = p ∧ Wrote m pte.pa m' := by
  unfold copyout at h
  cases src with
  | nil =>
    simp only [List.length_nil, copyoutLoop, Except.ok.injEq, Prod.mk.injEq] at h
    obtain ⟨rfl, rfl, rfl⟩ := h
    exact ⟨rfl, Wrote.refl _ _⟩
  | cons b bs =>
    rw [List.length_cons, copyoutLoop] at h
    simp only [reduceCtorEq, if_false] at h
    split at h
    · simp only [Except.ok.injEq, Prod.mk.injEq] at h
      obtain ⟨rfl, rfl, rfl⟩ := h
      exact ⟨rfl, Wrote.refl _ _⟩
    rename_i hlt
    obtain ⟨hleaf, hu, hlen⟩ := hd.resolve_left hlt
    have hwalk : walkaddr pt (pgRoundDown dst) = some pte.pa := by simp [walkaddr, hlt, hleaf, hu]
    obtain ⟨⟨m₁, p₁, o⟩, hc, h⟩ := bind_ok h
    rw [copyPage, Option.getD_some, hwalk] at hc
    simp only [Except.ok.injEq, Prod.mk.injEq] at hc
    obtain ⟨rfl, rfl, rfl⟩ := hc
    obtain ⟨o, hl, h⟩ := bind_ok h
    unfold lookup at hl
    rw [if_neg hlt, Option.getD_some, pgRoundDown_div, hleaf] at hl
    obtain rfl := Except.ok.inj hl
    simp only at h
    split at h
    · simp only [Except.ok.injEq, Prod.mk.injEq] at h
      obtain ⟨rfl, rfl, rfl⟩ := h
      exact ⟨rfl, Wrote.refl _ _⟩
    -- everything fits in the page, so the next pass has nothing to copy
    have hmin : min (pgSize - (dst - pgRoundDown dst)) (b :: bs).length = (b :: bs).length := by
      unfold pgSize pgRoundDown
      omega
    rw [hmin, List.drop_length] at h
    have hdone : ∀ fuel m a, copyoutLoop (some pt) fuel m p a [] = .ok (m, p, true) := fun fuel m a => by
      cases fuel <;> simp [copyoutLoop]
    rw [hdone] at h
    simp only [Except.ok.injEq, Prod.mk.injEq] at h
    obtain ⟨rfl, rfl, rfl⟩ := h
    exact ⟨rfl, _, rfl⟩

/-- A stack pointer pushed down that is not below the stack page lies in it with what is pushed, or is no address at all. -/
theorem pushDown_page {sz sp n : Nat} (hst : StackTop sz) (hsp : sz - 4096 ≤ sp) (hle : sp ≤ sz) (hn : n ≤ 2 ^ 63) (hn0 : 0 < n)
    (hge : ¬pushDown sp n < stackBase sz) :
    maxVa ≤ pgRoundDown (pushDown sp n) ∨
    (pushDown sp n / 4096 = sz / 4096 - 1 ∧ pushDown sp n % 4096 + n ≤ 4096 ∧ sz - 4096 ≤ pushDown sp n ∧ pushDown sp n ≤ sz) := by
  obtain ⟨h1, h2, h3⟩ := hst
  have h2' : sz ≤ 2 ^ 38 := h2.trans (by decide)
  have hle' : sp < 2 ^ 64 := by omega
  rw [stackBase_eq ⟨h1, h2, h3⟩] at hge
  by_cases hs : n ≤ sp
  · have hsub : sub64 sp n = sp - n := sub64_of_le hs hle'
    have hpd : pushDown sp n = sp - n - (sp - n) % 16 := by
      unfold pushDown
      rw [hsub]
      exact sub64_of_le (Nat.mod_le _ _) (by omega)
    rw [hpd] at hge ⊢
    right
    omega
  · left
    have hsub : sub64 sp n = 2 ^ 64 - (n - sp) := by
      unfold sub64
      omega
    have hpd : pushDown sp n = sub64 sp n - sub64 sp n % 16 := by
      unfold pushDown
      exact sub64_of_le (Nat.mod_le _ _) (by omega)
    rw [hpd, hsub]
    unfold pgRoundDown maxVa
    omega

section Args

variable {tr tf mem : Pa} {sz : Nat}

/-- A copy to the new stack writes to its frame only. -/
theorem copyout_stack {sp n : Nat} {src : List Byte} {r : Bool} (hpt : ImageTable tr tf sz mem pt) (hsp : sz - 4096 ≤ sp)
    (hle : sp ≤ sz) (hn : n ≤ 2 ^ 63) (hn0 : 0 < n) (hlen : src.length ≤ n) (hge : ¬pushDown sp n < stackBase sz)
    (h : copyout m p (some pt) (pushDown sp n) src = .ok (m', p', r)) :
    p' = p ∧ Wrote m mem m' ∧ (r = true → src ≠ [] → sz - 4096 ≤ pushDown sp n ∧ pushDown sp n ≤ sz) := by
  have hpage := pushDown_page hpt.top hsp hle hn hn0 hge
  have hdst : maxVa ≤ pgRoundDown (pushDown sp n) ∨
      pt.leaf (pushDown sp n / 4096) = some ⟨mem, ⟨true, true, false, true⟩⟩ ∧ true = true ∧
        pushDown sp n % 4096 + src.length ≤ 4096 :=
    hpage.imp_right (fun hp => ⟨by rw [hp.1]; exact hpt.stack, rfl, by omega⟩)
  have hcopy := copyout_page h hdst
  refine ⟨hcopy.1, hcopy.2, fun hr hne => ?_⟩
  rcases hpage with hbig | ⟨-, -, h1, h2⟩
  · -- an address beyond `maxVa` is refused
    exfalso
    unfold copyout at h
    cases src with
    | nil => exact hne rfl
    | cons b bs =>
      rw [List.length_cons, copyoutLoop] at h
      simp only [reduceCtorEq, if_false, if_pos hbig, Except.ok.injEq, Prod.mk.injEq] at h
      rw [← h.2.2] at hr
      cases hr
  · exact ⟨h1, h2⟩

/-- The arguments of `exec` are strings in memory. -/
def ArgsOk (argv : List (List Byte)) : Prop := ∀ s ∈ argv, s.length < 2 ^ 63

/-- Copying the argument strings. -/
theorem pushArgs_spec {argv : List (List Byte)} {sp : Nat} {us : List Nat} {o : Option (Nat × List Nat)}
    (hpt : ImageTable tr tf sz mem pt) (hargs : ArgsOk argv) (hsp : sz - 4096 ≤ sp) (hle : sp ≤ sz) (hus : us.length ≤ maxArg)
    (h : pushArgs pt (stackBase sz) argv m p sp us = .ok (m', p', o)) :
    p' = p ∧ Wrote m mem m' ∧ ∀ sp' us', o = some (sp', us') → sz - 4096 ≤ sp' ∧ sp' ≤ sz ∧ us'.length ≤ maxArg := by
  induction argv generalizing m p sp us with
  | nil =>
    simp only [pushArgs, Except.ok.injEq, Prod.mk.injEq] at h
    obtain ⟨rfl, rfl, rfl⟩ := h
    refine ⟨rfl, Wrote.refl _ _, fun sp' us' he => ?_⟩
    simp only [Option.some.injEq, Prod.mk.injEq] at he
    obtain ⟨rfl, rfl⟩ := he
    exact ⟨hsp, hle, hus⟩
  | cons s rest ih =>
    rw [pushArgs] at h
    split at h
    · simp only [Except.ok.injEq, Prod.mk.injEq] at h
      obtain ⟨rfl, rfl, rfl⟩ := h
      exact ⟨rfl, Wrote.refl _ _, by simp⟩
    rename_i hmax
    simp only at h
    split at h
    · simp only [Except.ok.injEq, Prod.mk.injEq] at h
      obtain ⟨rfl, rfl, rfl⟩ := h
      exact ⟨rfl, Wrote.refl _ _, by simp⟩
    rename_i hge
    obtain ⟨⟨m₁, p₁, b⟩, hc, h⟩ := bind_ok h
    have hs := hargs s List.mem_cons_self
    obtain ⟨rfl, hw, hsp'⟩ := copyout_stack hpt hsp hle (by omega) (by omega) (by simp) hge hc
    cases b with
    | false =>
      simp only [Except.ok.injEq, Prod.mk.injEq] at h
      obtain ⟨rfl, rfl, rfl⟩ := h
      exact ⟨rfl, hw, by simp⟩
    | true =>
      obtain ⟨h1, h2⟩ := hsp' rfl (by simp)
      obtain ⟨hp, hw', hend⟩ := ih (fun x hx => hargs x (List.mem_cons_of_mem _ hx)) h1 h2
        (by rw [List.length_append, List.length_singleton]; omega) h
      exact ⟨hp, hw.trans hw', hend⟩

/-- The bytes of an array of pointers and a null pointer. -/
theorem ptrBytes_length (us : List Nat) : ((us ++ [0]).flatMap le64).length = (us.length + 1) * 8 := by
  simp only [List.length_flatMap, le64, List.length_map, List.length_range, List.map_const', List.sum_replicate,
    List.length_append, List.length_singleton]
  rfl

/-- Copying the arguments writes to the new stack page, and to nothing of the process. -/
theorem pushBlock_spec {argv : List (List Byte)} {o : Option (Nat × Nat)} (hpt : ImageTable tr tf sz mem pt) (hargs : ArgsOk argv)
    (h : pushBlock pt (stackBase sz) argv m p sz = .ok (m', p', o)) :
    p' = p ∧ Wrote m mem m' ∧ ∀ sp argc, o = some (sp, argc) → sz - 4096 ≤ sp ∧ sp ≤ sz := by
  obtain ⟨⟨m₁, p₁, o₁⟩, ha, h⟩ := bind_ok h
  obtain ⟨rfl, hw, hend⟩ := pushArgs_spec hpt hargs (Nat.sub_le _ _) (le_refl _) (Nat.zero_le _) ha
  cases o₁ with
  | none =>
    simp only [Except.ok.injEq, Prod.mk.injEq] at h
    obtain ⟨rfl, rfl, rfl⟩ := h
    exact ⟨rfl, hw, fun _ _ ho => nomatch ho⟩
  | some x =>
    obtain ⟨sp, us⟩ := x
    obtain ⟨h1, h2, h3⟩ := hend sp us rfl
    simp only at h
    split at h
    · simp only [Except.ok.injEq, Prod.mk.injEq] at h
      obtain ⟨rfl, rfl, rfl⟩ := h
      exact ⟨rfl, hw, fun _ _ ho => nomatch ho⟩
    rename_i hge
    obtain ⟨⟨m₂, p₂, b⟩, hc, h⟩ := bind_ok h
    have hlen := ptrBytes_length us
    have hmax : us.length ≤ 32 := h3
    obtain ⟨rfl, hw', hsp⟩ := copyout_stack hpt h1 h2 (by omega) (by omega) (le_of_eq hlen) hge hc
    cases b with
    | false =>
      simp only [Except.ok.injEq, Prod.mk.injEq] at h
      obtain ⟨rfl, rfl, rfl⟩ := h
      exact ⟨rfl, hw.trans hw', fun _ _ ho => nomatch ho⟩
    | true =>
      simp only [Except.ok.injEq, Prod.mk.injEq] at h
      obtain ⟨rfl, rfl, rfl⟩ := h
      refine ⟨rfl, hw.trans hw', fun sp' argc' ho => ?_⟩
      obtain ⟨rfl, -⟩ := Prod.mk.inj (Option.some.inj ho)
      exact hsp rfl (List.ne_nil_of_length_pos (by omega))

end Args

/-! ## The call -/

/-- The file `exec` runs: the path names inode `ip`, which is an ELF file. -/
structure ExecFile (m : Machine) (p : Proc) (path : List Char) (fs₀ fs : Fs) (ip : Nat) : Prop where
  name : namei m.fs (p.cwd.getD 0) path = .ok (fs₀, some ip)
  lock : ilock fs₀ ip = .ok fs
  elf : isElf (fs.inode ip)

/-- A path names one file. -/
theorem ExecFile.unique {m : Machine} {p : Proc} {path : List Char} {fs₀ fs fs₀' fs' : Fs} {ip ip' : Nat}
    (h : ExecFile m p path fs₀ fs ip) (h' : ExecFile m p path fs₀' fs' ip') : fs' = fs ∧ ip' = ip := by
  have hn := h'.name.symm.trans h.name
  simp only [Except.ok.injEq, Prod.mk.injEq, Option.some.injEq] at hn
  obtain ⟨rfl, rfl⟩ := hn
  exact ⟨Except.ok.inj (h'.lock.symm.trans h.lock), rfl⟩

/-- The state of the process after an `exec` that failed. -/
inductive ExecFail (m : Machine) (p : Proc) (path : List Char) : Proc → Prop where
  | noFile {fs : Fs} (h : namei m.fs (p.cwd.getD 0) path = .ok (fs, none)) : ExecFail m p path p
  | notElf {fs₀ fs : Fs} {ip : Nat} (h : namei m.fs (p.cwd.getD 0) path = .ok (fs₀, some ip)) (lock : ilock fs₀ ip = .ok fs)
      (elf : ¬isElf (fs.inode ip)) : ExecFail m p path p
  | noTable {fs₀ fs : Fs} {ip : Nat} {m₁ : Machine} (file : ExecFile m p path fs₀ fs ip)
      (h : procPagetable (((m.reach [.beginOp]).withFs fs).reach [.ilock, .diskRead]) (p.trapframe.getD 0) = .ok (m₁, none)) :
      ExecFail m p path p
  | scan {fs₀ fs : Fs} {ip : Nat} {m₁ : Machine} {pt : PageTable} (file : ExecFile m p path fs₀ fs ip)
      (h : procPagetable (((m.reach [.beginOp]).withFs fs).reach [.ilock, .diskRead]) (p.trapframe.getD 0) = .ok (m₁, some pt))
      (bad : (scanFile (fs.inode ip)).2 = false) : ExecFail m p path { p with segments := (scanFile (fs.inode ip)).1.segs }
  | image {fs₀ fs : Fs} {ip : Nat} {m₁ : Machine} {pt : PageTable} (file : ExecFile m p path fs₀ fs ip)
      (h : procPagetable (((m.reach [.beginOp]).withFs fs).reach [.ilock, .diskRead]) (p.trapframe.getD 0) = .ok (m₁, some pt))
      (good : (scanFile (fs.inode ip)).2 = true) :
      ExecFail m p path { p with segments := (scanFile (fs.inode ip)).1.segs, execInode := some ip }

/-- The state after an `exec` that succeeded: the process has the new image. -/
structure ExecDone (m : Machine) (p : Proc) (path : List Char) (m' : Machine) (p' : Proc) (fs₀ fs : Fs) (ip : Nat) (mem : Pa)
    (pt : PageTable) (sp : Nat) : Prop where
  file : ExecFile m p path fs₀ fs ip
  good : (scanFile (fs.inode ip)).2 = true
  table : ImageTable m.trampoline (p.trapframe.getD 0) (imageTop (scanFile (fs.inode ip)).1.sz) mem pt
  files : m'.fs = iput (idup fs ip) ip
  stack : imageTop (scanFile (fs.inode ip)).1.sz - 4096 ≤ sp ∧ sp ≤ imageTop (scanFile (fs.inode ip)).1.sz
  proc : p' = { p with segments := (scanFile (fs.inode ip)).1.segs, execInode := some ip }.commit path (scanFile (fs.inode ip)).1
    (elfHdr (fs.inode ip).data).entry pt sp

/-- The stack frame of a new image is one of its pages. -/
theorem ImageTable.mem_pages {tr tf mem : Pa} {sz : Nat} (h : ImageTable tr tf sz mem pt) : mem ∈ pt.pages := by
  have htop := h.top
  obtain ⟨h1, h2, h3⟩ := htop
  rw [trapframeVa_eq] at h2
  have hmem := PageTable.mem_pages_of_leaf (by omega) h.stack
  exact hmem

/-- The process after the commit: the stack page is tracked, as resident and clean. -/
theorem commit_eq {path : List Char} {st : Scan} {entry sp : Nat} :
    p.commit path st entry pt sp =
    { p with
      tf := { p.tf with a1 := sp, epc := entry, sp := sp }
      name := progName path
      pagetable := pt
      sz := imageTop st.sz
      textStart := st.textStart
      textEnd := st.textEnd
      dataStart := st.dataStart
      dataEnd := st.dataEnd
      heapStart := pgRoundUp st.sz
      stackTop := imageTop st.sz
      pages := [⟨pgRoundDown (sub64 (imageTop st.sz) pgSize), .resident, false, 1, -1⟩]
      nextFifoSeq := 2 } := by
  have hroom : ¬maxPages ≤ 0 := by decide
  simp only [Proc.commit, addPageInfo, findPageInfo, List.length_nil, hroom, if_false, List.findIdx?_nil, Proc.modPage,
    List.nil_append, List.modify_cons, if_true]

/-- The table of the new image belongs to the process, and no longer the old one. -/
theorem commit_owned {path : List Char} {st : Scan} {entry sp : Nat} :
    (p.commit path st entry pt sp).owned = slot p.trapframe + pt.pages := by
  rw [commit_eq]
  rfl

/-- The part of `kexec` after the inode is released. -/
theorem execImage_cases {path : List Char} {argv : List (List Byte)} {st : Scan} {entry : Nat} {tr : Pa} {o : Option Nat}
    (hargs : ArgsOk argv) (hpt : FreshTable tr (p.trapframe.getD 0) pt) (h : execImage m p path argv st entry pt = .ok (m', p', o)) :
    (o = none ∧ p' = p ∧ (p.stackTop = 0 ∨ StackTop p.stackTop → Moves m pt.pages m' 0)) ∨
    ∃ argc mem pt' sp, o = some argc ∧ ImageTable tr (p.trapframe.getD 0) (imageTop st.sz) mem pt' ∧
      (imageTop st.sz - 4096 ≤ sp ∧ sp ≤ imageTop st.sz) ∧ p' = p.commit path st entry pt' sp ∧
      (p.HasTable → Moves m (pt.pages + p.pagetable.pages) m' pt'.pages) := by
  obtain ⟨⟨m₁, pt₁, b⟩, hs, h⟩ := bind_ok h
  obtain ⟨hm₁, hroot₁, himg⟩ := execStack_spec hpt hs
  cases b with
  | false =>
    obtain ⟨m₂, hf, h⟩ := bind_ok h
    simp only [Except.ok.injEq, Prod.mk.injEq] at h
    obtain ⟨rfl, rfl, rfl⟩ := h
    exact Or.inl ⟨rfl, rfl, fun hst => hm₁.trans (procFreepagetable_moves hf hroot₁ hst)⟩
  | true =>
    obtain ⟨mem, himg⟩ := himg rfl
    obtain ⟨⟨m₂, p₂, o₂⟩, hb, h⟩ := bind_ok h
    obtain ⟨rfl, hw, hsp⟩ := pushBlock_spec himg hargs hb
    have hm₂ := hm₁.trans (hw.moves himg.mem_pages)
    cases o₂ with
    | none =>
      obtain ⟨m₃, hf, h⟩ := bind_ok h
      simp only [Except.ok.injEq, Prod.mk.injEq] at h
      obtain ⟨rfl, rfl, rfl⟩ := h
      exact Or.inl ⟨rfl, rfl, fun hst => hm₂.trans (procFreepagetable_moves hf hroot₁ hst)⟩
    | some x =>
      obtain ⟨sp, argc⟩ := x
      obtain ⟨m₃, hf, h⟩ := bind_ok h
      simp only [Except.ok.injEq, Prod.mk.injEq] at h
      obtain ⟨rfl, rfl, rfl⟩ := h
      refine Or.inr ⟨argc, mem, pt₁, sp, rfl, himg, hsp sp argc rfl, rfl, fun hT => ?_⟩
      have hfree := procFreepagetable_moves hf hT.root (Or.inr himg.top)
      exact (hm₂.frame _).trans ((hfree.frame pt₁.pages).congr (add_comm _ _) (zero_add _))

/-- `kexec`. Its pages come from the free list and go back there, and those of the old image with them when it succeeds. -/
theorem kexec_cases {path : List Char} {argv : List (List Byte)} {o : Option Nat} (hargs : ArgsOk argv)
    (h : kexec m p path argv = .ok (m', p', o)) :
    (o = none ∧ ExecFail m p path p' ∧ (p.stackTop = 0 ∨ StackTop p.stackTop → Flows m 0 m' 0)) ∨
    ∃ argc fs₀ fs ip mem pt sp, o = some argc ∧
      p' = { p with segments := (scanFile (fs.inode ip)).1.segs, execInode := some ip }.commit path (scanFile (fs.inode ip)).1
        (elfHdr (fs.inode ip).data).entry pt sp ∧
      (p.HasTable → ExecDone m p path m' p' fs₀ fs ip mem pt sp ∧ Flows m p.owned m' p'.owned) := by
  obtain ⟨⟨fs₀, oip⟩, hn, h⟩ := bind_ok h
  cases oip with
  | none =>
    simp only [Except.ok.injEq, Prod.mk.injEq] at h
    obtain ⟨rfl, rfl, rfl⟩ := h
    exact Or.inl ⟨rfl, .noFile hn, fun _ => (SameMem.io m _ _).flows _⟩
  | some ip =>
    obtain ⟨fs, hl, h⟩ := bind_ok h
    have hsame : SameMem m (((m.reach [.beginOp]).withFs fs).reach [.ilock, .diskRead]) := ⟨rfl, rfl, rfl, rfl, rfl⟩
    simp only at h
    split at h
    · rename_i helf
      simp only [Except.ok.injEq, Prod.mk.injEq] at h
      obtain ⟨rfl, rfl, rfl⟩ := h
      exact Or.inl ⟨rfl, .notElf hn hl helf, fun _ => (hsame.trans (SameMem.withFs _ _)).flows _⟩
    rename_i helf
    have hfile : ExecFile m p path fs₀ fs ip := ⟨hn, hl, not_not.mp helf⟩
    obtain ⟨⟨m₁, opt⟩, hp, h⟩ := bind_ok h
    have hpt := procPagetable_spec hp
    cases opt with
    | none =>
      obtain ⟨-, hm₁⟩ | ⟨pt, hc, -⟩ := hpt
      · simp only [Except.ok.injEq, Prod.mk.injEq] at h
        obtain ⟨rfl, rfl, rfl⟩ := h
        have hflow := (hsame.flows 0).trans (hm₁.flows.trans ((SameMem.withFs m₁ (iput m₁.fs ip)).flows 0))
        exact Or.inl ⟨rfl, .noTable hfile hp, fun _ => hflow⟩
      · cases hc
    | some pt =>
      obtain ⟨hc, -⟩ | ⟨pt', hc, hm₁, hfresh⟩ := hpt
      · cases hc
      obtain rfl := Option.some.inj hc
      have hfs₁ : m₁.fs = fs := hm₁.fs
      have hflow₁ : Flows m 0 m₁ pt.pages := (hsame.flows 0).trans hm₁.flows
      simp only [execLoad] at h
      split at h
      · rename_i hgood
        have hflow₂ : Flows m₁ pt.pages (m₁.withFs (iput (idup m₁.fs ip) ip)) pt.pages :=
          (SameMem.withFs m₁ _).flows _
        rw [hfs₁] at hgood h hflow₂
        obtain ⟨rfl, rfl, hfree⟩ | ⟨argc, mem, pt', sp, rfl, himg, hsp, rfl, hmoves⟩ :=
          execImage_cases (p := { p with segments := (scanFile (fs.inode ip)).1.segs, execInode := some ip }) hargs hfresh h
        · refine Or.inl ⟨rfl, .image hfile hp hgood, fun hst => ?_⟩
          exact hflow₁.trans (hflow₂.trans (hfree hst).flows)
        · refine Or.inr ⟨argc, fs₀, fs, ip, mem, pt', sp, rfl, rfl, fun hT => ?_⟩
          have hmoves := hmoves ⟨hT.root, hT.trampoline, hT.trapframe⟩
          refine ⟨⟨hfile, hgood, himg, hmoves.fs, hsp, rfl⟩, ?_⟩
          have hf := (hflow₁.trans hflow₂).frame (p.pagetable.pages + slot p.trapframe)
          have hf' := hmoves.flows.frame (slot p.trapframe)
          refine (hf.congr ?_ ?_).trans (hf'.congr rfl ?_)
          · rw [zero_add, Proc.owned, add_comm]
          · rw [add_assoc]
          · rw [commit_owned, add_comm]
      · rename_i hbad
        obtain ⟨m₂, hf, h⟩ := bind_ok h
        simp only [Except.ok.injEq, Prod.mk.injEq] at h
        obtain ⟨rfl, rfl, rfl⟩ := h
        rw [hfs₁] at hbad ⊢
        refine Or.inl ⟨rfl, .scan hfile hp (by simpa using hbad), fun hst => ?_⟩
        have hfree := procFreepagetable_moves hf hfresh.root hst
        exact hflow₁.trans (hfree.flows.trans ((SameMem.withFs m₂ (iput m₂.fs ip)).flows 0))

/-- `kexec` of a process with a table. -/
theorem kexec_spec {path : List Char} {argv : List (List Byte)} {o : Option Nat} (hT : p.HasTable)
    (hst : p.stackTop = 0 ∨ StackTop p.stackTop) (hargs : ArgsOk argv) (h : kexec m p path argv = .ok (m', p', o)) :
    Flows m p.owned m' p'.owned ∧
    ((o = none ∧ ExecFail m p path p') ∨ ∃ argc fs₀ fs ip mem pt sp, o = some argc ∧ ExecDone m p path m' p' fs₀ fs ip mem pt sp) := by
  rcases kexec_cases hargs h with ⟨ho, hf, hflow⟩ | ⟨argc, fs₀, fs, ip, mem, pt, sp, ho, -, hd⟩
  · have howned : p'.owned = p.owned := by cases hf <;> rfl
    rw [howned]
    exact ⟨((hflow hst).frame p.owned).congr (zero_add _) (zero_add _), Or.inl ⟨ho, hf⟩⟩
  · exact ⟨(hd hT).2, Or.inr ⟨argc, fs₀, fs, ip, mem, pt, sp, ho, (hd hT).1⟩⟩

/-- A failed `kexec` writes to free frames only. -/
theorem kexec_failed_mem {path : List Char} {argv : List (List Byte)} {q : Pa} (hst : p.stackTop = 0 ∨ StackTop p.stackTop)
    (hargs : ArgsOk argv) (h : kexec m p path argv = .ok (m', p', none)) (hq : q ∉ free m) : m'.mem q = m.mem q := by
  rcases kexec_cases hargs h with ⟨-, -, hflow⟩ | ⟨argc, fs₀, fs, ip, mem, pt, sp, ho, -⟩
  · exact (hflow hst).mem q (by rwa [add_zero])
  · cases ho

end Xv6SnifferBakery.Kernel
