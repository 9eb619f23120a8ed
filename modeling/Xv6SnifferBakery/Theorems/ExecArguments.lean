import Xv6SnifferBakery.Lemmas.Freeing
import Xv6SnifferBakery.Lemmas.Replay
import Xv6SnifferBakery.Lemmas.Room
import Xv6SnifferBakery.Lib.Layout

/-!
# The argument block of a new image

`kexec` pushes the argument strings and then the array of pointers to them down the one page of the new stack. Each push ends below the
one before it, so none overwrites another, and the page keeps its contents when the old image is freed.
-/

namespace Xv6SnifferBakery.Kernel

open Lib

variable {m m₁ m₂ m' : Machine} {p p' : Proc} {pt : PageTable} {mem tr tf : Pa} {sz sp sp' argc : Nat} {argv : List (List Byte)}
  {us us' : List Nat} {cs es : List (Chunk Byte)}

/-! ## Chunks on the stack -/

/-- The strings as they are pushed from `sp` down, each with its NUL. -/
def argChunks : Nat → List (List Byte) → List (Chunk Byte)
  | _, [] => []
  | sp, s :: rest => ⟨sp - pushed (s.length + 1), s ++ [0]⟩ :: argChunks (sp - pushed (s.length + 1)) rest

theorem argSpace_cons (s : List Byte) (rest : List (List Byte)) : argSpace (s :: rest) = pushed (s.length + 1) + argSpace rest := by
  simp [argSpace]

theorem le_pushed (n : Nat) : n ≤ pushed n := by
  unfold pushed
  omega

theorem pushed_mod (n : Nat) : pushed n % 16 = 0 := by
  unfold pushed
  omega

theorem argChunks_descends (h : argSpace argv ≤ sp) : Descends sp (argChunks sp argv) (sp - argSpace argv) := by
  induction argv generalizing sp with
  | nil => exact Nat.sub_le _ _
  | cons s rest ih =>
    rw [argSpace_cons] at h ⊢
    have hpush := le_pushed (s.length + 1)
    refine ⟨?_, ?_⟩
    · change sp - pushed (s.length + 1) + (s ++ [0]).length ≤ sp
      rw [List.length_append, List.length_singleton]
      omega
    · rw [← Nat.sub_sub]
      exact ih (show argSpace rest ≤ sp - pushed (s.length + 1) by omega)

/-- The chunks are the strings at the addresses that go into `ustack`. -/
theorem argChunks_eq : argChunks sp argv =
    List.zipWith (fun ptr s => ⟨ptr, s ++ [0]⟩) ((argChunks sp argv).map Chunk.addr) argv := by
  induction argv generalizing sp with
  | nil => rfl
  | cons s rest ih =>
    rw [argChunks, List.map_cons, List.zipWith_cons_cons, ← ih]

theorem argChunks_length : (argChunks sp argv).length = argv.length := by
  induction argv generalizing sp with
  | nil => rfl
  | cons s rest ih => rw [argChunks, List.length_cons, List.length_cons, ih]

/-- Page `mem` of memory, which holds the user's page that ends at `sz`, has got these chunks. -/
def Laid (m : Machine) (mem : Pa) (sz : Nat) (cs : List (Chunk Byte)) (m' : Machine) : Prop :=
  ∃ page, m' = m.fill mem page ∧
    ∀ a, sz - 4096 ≤ a → a < sz → page (a % 4096) = writeAll (fun a => m.mem mem (a % 4096)) cs a

theorem Laid.refl (m : Machine) (mem : Pa) (sz : Nat) : Laid m mem sz [] m :=
  ⟨m.mem mem, by rw [Machine.fill, Function.update_eq_self], fun _ _ _ => rfl⟩

theorem Laid.append (h : Laid m mem sz cs m₁) (h' : Laid m₁ mem sz es m₂) : Laid m mem sz (cs ++ es) m₂ := by
  obtain ⟨page, rfl, hpage⟩ := h
  obtain ⟨page', rfl, hpage'⟩ := h'
  refine ⟨page', by simp [Machine.fill], ?_⟩
  intro a hlow hhigh
  rw [hpage' a hlow hhigh, writeAll_append]
  refine writeAll_congr ?_
  rw [Machine.fill_mem_self, hpage a hlow hhigh]

/-- A copy within the page. -/
theorem Laid.single {dst : Nat} {src : List Byte} (hsz : sz % 4096 = 0) (hlow : sz - 4096 ≤ dst) (hlt : dst < sz) :
    Laid m mem sz [⟨dst, src⟩] (m.fill mem (writeBytes (m.mem mem) (dst % 4096) src)) := by
  refine ⟨_, rfl, ?_⟩
  intro a ha hasz
  have hdst : dst % 4096 = dst - (sz - 4096) := by omega
  have hmod : a % 4096 = a - (sz - 4096) := by omega
  change writeBytes (m.mem mem) (dst % 4096) src (a % 4096) = Chunk.write (fun a => m.mem mem (a % 4096)) ⟨dst, src⟩ a
  unfold writeBytes Chunk.write
  by_cases hin : dst ≤ a ∧ a < dst + src.length
  · rw [if_pos (by omega), if_pos hin.1, show a % 4096 - dst % 4096 = a - dst by omega,
      List.getD_eq_getElem?_getD, List.getElem?_eq_getElem (by omega)]
    rfl
  · rw [if_neg (by omega)]
    by_cases hle : dst ≤ a
    · rw [if_pos hle, List.getElem?_eq_none (by change src.length ≤ a - dst; omega)]
      rfl
    · rw [if_neg hle]

/-! ## The pushes -/

/-- A push that ends in an address of the stack did not wrap around. -/
theorem pushDown_inside {n : Nat} (hst : StackTop sz) (hal : sp % 16 = 0) (hle : sp ≤ sz) (hn : n ≤ 2 ^ 63)
    (h : pushDown sp n ≤ sz) : n ≤ sp ∧ pushDown sp n = sp - pushed n := by
  have hmax : sz ≤ 2 ^ 38 := hst.2.1.trans (by decide)
  have hfit : n ≤ sp := by
    by_contra hlt
    have hsub : sub64 sp n = 2 ^ 64 - (n - sp) := by
      unfold sub64
      omega
    have hpd : pushDown sp n = sub64 sp n - sub64 sp n % 16 := by
      unfold pushDown
      exact sub64_of_le (Nat.mod_le _ _) (by omega)
    omega
  exact ⟨hfit, pushDown_eq hal hfit (by omega)⟩

/-- One push that succeeded: what is pushed fits between the old stack pointer and the start of the page. -/
theorem copyout_done {n : Nat} {src : List Byte} (hpt : ImageTable tr tf sz mem pt) (hal : sp % 16 = 0) (hsp : sz - 4096 ≤ sp)
    (hle : sp ≤ sz) (hn : n ≤ 2 ^ 63) (hlen : src.length = n) (hne : src ≠ []) (hge : ¬pushDown sp n < stackBase sz)
    (h : copyout m p (some pt) (pushDown sp n) src = .ok (m', p', true)) :
    p' = p ∧ pushed n ≤ sp - (sz - 4096) ∧ pushDown sp n = sp - pushed n ∧ Laid m mem sz [⟨sp - pushed n, src⟩] m' := by
  have hpos := List.length_pos_of_ne_nil hne
  obtain ⟨-, -, hin⟩ := copyout_stack hpt hsp hle hn (by omega) (by omega) hge h
  obtain ⟨hlow, hhigh⟩ := hin rfl hne
  obtain ⟨hfit, hpd⟩ := pushDown_inside hpt.top hal hle hn hhigh
  have hpush := le_pushed n
  rw [hpd] at h hlow ⊢
  rw [stackBase_eq hpt.top, hpd] at hge
  have hmod := hpt.top.2.2
  have hsz := hpt.top.1
  have hroom : pushed n ≤ sp - (sz - 4096) := by
    unfold pushed at hlow hge ⊢
    omega
  have hcopy := hpt.copyout (m := m) (p := p) hlow (show sp - pushed n + src.length ≤ sz by omega) hne
  rw [hcopy] at h
  simp only [Except.ok.injEq, Prod.mk.injEq, and_true] at h
  obtain ⟨rfl, rfl⟩ := h
  exact ⟨rfl, hroom, rfl, Laid.single hmod hlow (by omega)⟩

/-- The strings that were pushed. -/
theorem pushArgs_done (hpt : ImageTable tr tf sz mem pt) (hargs : ArgsOk argv) (hal : sp % 16 = 0) (hsp : sz - 4096 ≤ sp)
    (hle : sp ≤ sz) (h : pushArgs pt (stackBase sz) argv m p sp us = .ok (m', p', some (sp', us'))) :
    p' = p ∧ argSpace argv ≤ sp - (sz - 4096) ∧ sp' = sp - argSpace argv ∧ us' = us ++ (argChunks sp argv).map Chunk.addr ∧
      Laid m mem sz (argChunks sp argv) m' := by
  induction argv generalizing m p sp us with
  | nil =>
    simp only [pushArgs, Except.ok.injEq, Prod.mk.injEq, Option.some.injEq] at h
    obtain ⟨rfl, rfl, rfl, rfl⟩ := h
    exact ⟨rfl, Nat.zero_le _, rfl, (List.append_nil us).symm, Laid.refl _ _ _⟩
  | cons s rest ih =>
    rw [pushArgs] at h
    split at h
    · cases h
    simp only at h
    split at h
    · cases h
    rename_i hge
    obtain ⟨⟨m₁, p₁, b⟩, hc, hnext⟩ := bind_ok h
    cases b with
    | false => cases hnext
    | true =>
      have hs := hargs s List.mem_cons_self
      obtain ⟨rfl, hroom, hpd, hlaid⟩ := copyout_done hpt hal hsp hle (by omega) (by simp) (by simp) hge hc
      have hmod := pushed_mod (s.length + 1)
      rw [hpd] at hnext
      have hal' : (sp - pushed (s.length + 1)) % 16 = 0 := by omega
      obtain ⟨rfl, hspace, rfl, rfl, hrest⟩ := ih (fun x hx => hargs x (List.mem_cons_of_mem _ hx)) hal' (by omega) (by omega) hnext
      refine ⟨rfl, ?_, ?_, ?_, ?_⟩
      · rw [argSpace_cons]
        omega
      · rw [argSpace_cons, Nat.sub_sub]
      · rw [argChunks, List.map_cons, List.append_assoc]
        rfl
      · exact hlaid.append hrest

/-- The whole block that was pushed. -/
theorem pushBlock_done (hpt : ImageTable tr tf sz mem pt) (hargs : ArgsOk argv) (hlen : argv.length < maxArg)
    (h : pushBlock pt (stackBase sz) argv m p sz = .ok (m', p', some (sp, argc))) :
    argsFit argv ∧ sp = sz - argSpace argv - pushed ((argv.length + 1) * 8) ∧ argc = argv.length ∧
      Laid m mem sz (argChunks sz argv ++ [⟨sp, ((argChunks sz argv).map Chunk.addr ++ [0]).flatMap le64⟩]) m' := by
  obtain ⟨hlow, hmax, hmod⟩ := hpt.top
  obtain ⟨⟨m₁, p₁, o⟩, ha, hnext⟩ := bind_ok h
  cases o with
  | none => cases hnext
  | some x =>
    obtain ⟨sp₁, us⟩ := x
    obtain ⟨rfl, hspace, rfl, hus, hlaid⟩ := pushArgs_done hpt hargs (by omega) (Nat.sub_le _ _) (le_refl _) ha
    rw [List.nil_append] at hus
    have hcount : us.length = argv.length := by rw [hus, List.length_map, argChunks_length]
    have hbytes := ptrBytes_length us
    simp only at hnext
    split at hnext
    · cases hnext
    rename_i hge
    obtain ⟨⟨m₂, p₂, b⟩, hc, hend⟩ := bind_ok hnext
    cases b with
    | false => cases hend
    | true =>
      simp only [Except.ok.injEq, Prod.mk.injEq, Option.some.injEq] at hend
      obtain ⟨rfl, rfl, rfl, rfl⟩ := hend
      have hspaceMod := argSpace_mod argv
      have hmaxArg : argv.length < 32 := hlen
      obtain ⟨-, hroom, hpd, hlast⟩ := copyout_done hpt (show (sz - argSpace argv) % 16 = 0 by omega) (by omega) (by omega)
        (by omega) hbytes (List.ne_nil_of_length_pos (by omega)) hge hc
      rw [hcount] at hroom hpd hlast
      refine ⟨?_, by rw [hcount]; exact hpd, hcount, ?_⟩
      · unfold argsFit pgSize
        omega
      · rw [hcount, hpd, ← hus]
        exact hlaid.append hlast

/-! ## What the process finds -/

/-- A little-endian number of `n` bytes, as the user loads it. -/
def userNumber (m : Machine) (p : Proc) : Nat → Nat → Option Nat
  | _, 0 => some 0
  | a, n + 1 => do
    let b ← userLoad m p a
    let rest ← userNumber m p (a + 1) n
    some (b.toNat + 256 * rest)

/-- The user finds a string and its NUL at an address. -/
def FindsString (m : Machine) (p : Proc) (a : Nat) (s : List Byte) : Prop :=
  ∀ k b, (s ++ [0])[k]? = some b → userLoad m p (a + k) = some b

/-- The user finds pointers and a null pointer at an address. -/
def FindsPointers (m : Machine) (p : Proc) (a : Nat) (ptrs : List Nat) : Prop :=
  ∀ k x, (ptrs ++ [0])[k]? = some x → userNumber m p (a + 8 * k) 8 = some x

/-- The array of pointers with its null pointer, and the strings with their NULs. -/
def blockChunks (a1 : Nat) (ptrs : List Nat) (argv : List (List Byte)) : List (Chunk Byte) :=
  ⟨a1, (ptrs ++ [0]).flatMap le64⟩ :: List.zipWith (fun ptr s => ⟨ptr, s ++ [0]⟩) ptrs argv

/-- The registers and the stack of a process that starts with these arguments. -/
structure ArgumentBlock (m : Machine) (p : Proc) (argv : List (List Byte)) (ptrs : List Nat) : Prop where
  aligned : p.tf.sp % 16 = 0
  stack : stackBase p.stackTop ≤ p.tf.sp ∧ p.tf.sp < p.stackTop
  a0 : p.tf.a0 = argv.length
  a1 : p.tf.a1 = p.tf.sp
  count : ptrs.length = argv.length
  array : FindsPointers m p p.tf.a1 ptrs
  strings : ∀ (k ptr : Nat) (s : List Byte), ptrs[k]? = some ptr → argv[k]? = some s → FindsString m p ptr s
  within : ∀ c ∈ blockChunks p.tf.a1 ptrs argv, stackBase p.stackTop ≤ c.addr ∧ c.stop ≤ p.stackTop
  apart : (blockChunks p.tf.a1 ptrs argv).Pairwise Chunk.Apart

/-- The bytes of a number, read back. -/
theorem userNumber_eq {a n x : Nat} (h : ∀ k < n, userLoad m p (a + k) = some (UInt8.ofNat (x / 256 ^ k))) :
    userNumber m p a n = some (x % 256 ^ n) := by
  induction n generalizing a x with
  | zero => rw [userNumber, Nat.pow_zero, Nat.mod_one]
  | succ n ih =>
    have hhead : userLoad m p a = some (UInt8.ofNat x) := by simpa using h 0 (Nat.succ_pos n)
    have htail : userNumber m p (a + 1) n = some (x / 256 % 256 ^ n) := by
      refine ih (fun k hk => ?_)
      rw [Nat.add_right_comm, Nat.add_assoc, h (k + 1) (by omega), Nat.div_div_eq_div_mul, Nat.pow_succ']
    rw [userNumber, hhead, htail, Nat.pow_succ', Nat.mod_mul]
    simp

/-- The bytes of the `k`-th of a list of numbers. -/
theorem flatMap_le64 {l : List Nat} {k j x : Nat} (h : l[k]? = some x) (hj : j < 8) :
    (l.flatMap le64)[8 * k + j]? = some (UInt8.ofNat (x / 256 ^ j)) := by
  have hlen : ∀ y, (le64 y).length = 8 := fun y => by simp [le64]
  induction l generalizing k with
  | nil => cases h
  | cons y l ih =>
    rw [List.flatMap_cons]
    cases k with
    | zero =>
      obtain rfl : y = x := Option.some.inj h
      rw [List.getElem?_append_left (by rw [hlen]; omega)]
      simp [le64, hj]
    | succ k =>
      rw [List.getElem?_append_right (by rw [hlen]; omega), hlen, show 8 * (k + 1) + j - 8 = 8 * k + j by omega]
      exact ih h

/-- A load from the stack page of a new image. -/
theorem ImageTable.userLoad {a : Nat} (hpt : ImageTable tr tf sz mem pt) (hp : p.pagetable = pt) (hlow : sz - 4096 ≤ a)
    (hhigh : a < sz) : Kernel.userLoad m p a = some (m.mem mem (a % 4096)) := by
  obtain ⟨h1, h2, h3⟩ := hpt.top
  have hmax : trapframeVa < maxVa := by decide
  have hpage : a / 4096 = sz / 4096 - 1 := by omega
  unfold Kernel.userLoad translate
  rw [if_neg (by omega), hp, hpage, hpt.stack]
  rfl

/-- What was laid out is what the user finds. -/
theorem Laid.finds {a : Nat} {c : Chunk Byte} {k : Nat} {b : Byte} (hl : Laid m mem sz cs m₁) (hpt : ImageTable tr tf sz mem pt)
    (hp : p.pagetable = pt) (hmem : m'.mem mem = m₁.mem mem) (hd : Descends sz cs a) (ha : sz - 4096 ≤ a) (hc : c ∈ cs)
    (hk : c.data[k]? = some b) : Kernel.userLoad m' p (c.addr + k) = some b := by
  obtain ⟨page, rfl, hpage⟩ := hl
  obtain ⟨hlow, hhigh⟩ := hd.mem hc
  have hlt : k < c.data.length := (List.getElem?_eq_some_iff.mp hk).1
  unfold Chunk.stop at hhigh
  rw [hpt.userLoad hp (by omega) (by omega), hmem, Machine.fill_mem_self, hpage _ (by omega) (by omega),
    in_writeAll hd.pairwise hc k b hk]

/-- Chunks as the pushes wrote them: the strings, and then the array. -/
theorem pushed_descends (hfit : argsFit argv) (hsz : 4096 ≤ sz) (hsp : sp = sz - argSpace argv - pushed ((argv.length + 1) * 8)) :
    Descends sz (argChunks sz argv ++ [⟨sp, ((argChunks sz argv).map Chunk.addr ++ [0]).flatMap le64⟩]) sp := by
  unfold argsFit pgSize at hfit
  refine (argChunks_descends (by omega)).append ⟨?_, le_refl sp⟩
  have hpush := le_pushed ((argv.length + 1) * 8)
  change sp + (((argChunks sz argv).map Chunk.addr ++ [0]).flatMap le64).length ≤ sz - argSpace argv
  rw [ptrBytes_length, List.length_map, argChunks_length]
  omega

/-- The chunks of the block are those that were pushed. -/
theorem mem_blockChunks {c : Chunk Byte} :
    c ∈ blockChunks sp ((argChunks sz argv).map Chunk.addr) argv ↔
      c ∈ argChunks sz argv ++ [⟨sp, ((argChunks sz argv).map Chunk.addr ++ [0]).flatMap le64⟩] := by
  rw [blockChunks, ← argChunks_eq, List.mem_cons, List.mem_append, List.mem_singleton, or_comm]

/-- A process whose stack has got the pushes, and whose registers point there. -/
theorem Laid.argumentBlock
    (hl : Laid m mem sz (argChunks sz argv ++ [⟨sp, ((argChunks sz argv).map Chunk.addr ++ [0]).flatMap le64⟩]) m₁)
    (hpt : ImageTable tr tf sz mem pt) (hfit : argsFit argv) (hsp : sp = sz - argSpace argv - pushed ((argv.length + 1) * 8))
    (hmem : m'.mem mem = m₁.mem mem) (hp : p.pagetable = pt) (hst : p.stackTop = sz) (hspr : p.tf.sp = sp) (ha1 : p.tf.a1 = sp)
    (ha0 : p.tf.a0 = argv.length) : ArgumentBlock m' p argv ((argChunks sz argv).map Chunk.addr) := by
  obtain ⟨hlow, hmax, hmod⟩ := hpt.top
  have hsz : sz ≤ 2 ^ 38 := hmax.trans (by decide)
  have hd := pushed_descends hfit (by omega) hsp
  have hspace := argSpace_mod argv
  have hpush := pushed_mod ((argv.length + 1) * 8)
  have hpos := le_pushed ((argv.length + 1) * 8)
  have hbase := stackBase_eq hpt.top
  have hfits : argSpace argv + pushed ((argv.length + 1) * 8) ≤ 4096 := hfit
  have hfinds : ∀ c ∈ blockChunks sp ((argChunks sz argv).map Chunk.addr) argv, ∀ k b, c.data[k]? = some b →
      Kernel.userLoad m' p (c.addr + k) = some b := by
    intro c hc k b hk
    exact hl.finds hpt hp hmem hd (by omega) (mem_blockChunks.mp hc) hk
  refine ⟨?_, ?_, ha0, ha1.trans hspr.symm, ?_, ?_, ?_, ?_, ?_⟩
  · rw [hspr]
    omega
  · rw [hst, hspr, hbase]
    omega
  · rw [List.length_map, argChunks_length]
  · -- the array: each pointer is eight bytes of it
    intro k x hx
    have hlt : x < 2 ^ 64 := by
      rcases List.mem_append.mp (List.mem_of_getElem? hx) with hmem | hmem
      · obtain ⟨c, hc, rfl⟩ := List.mem_map.mp hmem
        have hstop := (hd.mem (List.mem_append_left _ hc)).2
        unfold Chunk.stop at hstop
        omega
      · rw [List.mem_singleton.mp hmem]
        decide
    rw [ha1, show x = x % 256 ^ 8 from (Nat.mod_eq_of_lt hlt).symm]
    refine userNumber_eq (fun j hj => ?_)
    rw [Nat.add_assoc]
    exact hfinds ⟨sp, _⟩ List.mem_cons_self (8 * k + j) _ (flatMap_le64 hx hj)
  · intro k ptr s hptr hs j b hb
    refine hfinds ⟨ptr, s ++ [0]⟩ (List.mem_cons_of_mem _ (List.mem_iff_getElem?.mpr ⟨k, ?_⟩)) j b hb
    rw [List.getElem?_zipWith, hptr, hs]
  · intro c hc
    rw [ha1] at hc
    obtain ⟨h1, h2⟩ := hd.mem (mem_blockChunks.mp hc)
    rw [hst, hbase]
    exact ⟨by omega, h2⟩
  · rw [ha1, blockChunks, ← argChunks_eq]
    have hpair := hd.pairwise
    rw [List.pairwise_append] at hpair
    refine List.pairwise_cons.mpr ⟨?_, hpair.1⟩
    intro c hc
    exact (hpair.2.2 c hc _ (List.mem_singleton_self _)).symm

/-! ## The theorem -/

/-- The stack page of the new image is not among the pages that are freed with the old one. -/
theorem ExecParts.keeps_stack {fs : Fs} {ip : Nat} {pt₂ : PageTable} {m₃ : Machine} (hT : p.HasTable)
    (hn : (free m + p.owned).Nodup) (h : ExecParts m p argv fs ip m' argc m₁ pt m₂ pt₂ m₃ sp)
    (himg : ImageTable tr tf (imageTop (scanFile (fs.inode ip)).1.sz) mem pt₂) (hfree : m₃.freelist = m₂.freelist) :
    m'.mem mem = m₃.mem mem := by
  obtain ⟨hnone, -⟩ | ⟨pt', he, hm₁, hfresh⟩ := procPagetable_spec h.table
  · nomatch hnone
  obtain rfl := Option.some.inj he
  obtain ⟨hm₂, -, -⟩ := execStack_spec hfresh h.stack
  have hpages : free m₃ + pt₂.pages = free m := by
    have hfree₁ : free m₁ + pt.pages = free m + 0 := hm₁.pages
    have hfree₂ : free m₂ + pt₂.pages = free m₁ + pt.pages := hm₂.pages
    rw [free, hfree]
    exact hfree₂.trans (hfree₁.trans (add_zero _))
  have hsum : pt₂.pages + (free m₃ + p.pagetable.pages) ≤ free m + p.owned := by
    rw [← add_assoc, add_comm pt₂.pages, hpages, Proc.owned, ← add_assoc]
    exact add_le_add_left (Multiset.le_add_right _ _) _
  have hapart := (Multiset.nodup_add.mp (Multiset.nodup_of_le hsum hn)).2.2
  have hold := procFreepagetable_moves h.freed hT.root (Or.inr himg.top)
  exact hold.mem mem (Multiset.disjoint_left.mp hapart himg.mem_pages)

/-- `exec` of a process with a table whose pages are its own. -/
theorem execSyscall_block {path : List Char} (hT : p.HasTable) (hst : p.stackTop = 0 ∨ StackTop p.stackTop)
    (hn : (free m + p.owned).Nodup) (hlen : argv.length < maxArg) (hargs : ArgsOk argv)
    (h : execSyscall m p path argv = .ok (m', p', true)) : argsFit argv ∧ ∃ ptrs, ArgumentBlock m' p' argv ptrs := by
  obtain ⟨⟨m₀, p₀, o⟩, hk, hr⟩ := bind_ok h
  simp only [Except.ok.injEq, Prod.mk.injEq] at hr
  obtain ⟨rfl, rfl, hsome⟩ := hr
  obtain ⟨argc, rfl⟩ := Option.isSome_iff_exists.mp hsome
  obtain ⟨-, ⟨hnone, -⟩ | ⟨argc', fs₀, fs, ip, mem', pt', sp', -, hd⟩⟩ := kexec_spec hT hst hargs hk
  · nomatch hnone
  obtain ⟨m₁, pt, m₂, pt₂, m₃, sp, hparts, hp₀⟩ := kexec_parts hd.file hargs hk
  obtain ⟨hnone, -⟩ | ⟨pt', he, -, hfresh⟩ := procPagetable_spec hparts.table
  · nomatch hnone
  obtain rfl := Option.some.inj he
  obtain ⟨-, -, himg⟩ := execStack_spec hfresh hparts.stack
  obtain ⟨mem, himg⟩ := himg rfl
  obtain ⟨hfit, hsp, rfl, hlaid⟩ := pushBlock_done himg hargs hlen hparts.args
  have hfree : m₃.freelist = m₂.freelist := by
    obtain ⟨page, rfl, -⟩ := hlaid
    rfl
  have hmem := hparts.keeps_stack hT hn himg hfree
  refine ⟨hfit, _, hlaid.argumentBlock himg hfit hsp hmem ?_ ?_ ?_ ?_ rfl⟩
  all_goals rw [hp₀, commit_eq]

/-- The argument block of `exec`: in every state the system reaches, for every live process and at most `MAXARG - 1` strings, a call of
`exec` that succeeds leaves them as the argument block of the new image; and when they do not fit in the stack page, it fails. -/
theorem exec_argument_block {s : Sys} {i : Nat} {path : List Char} {r : Bool} (h : Reachable s) (hi : i < nProc)
    (hl : (s.proc i).live) (hlen : argv.length < maxArg) (hargs : ArgsOk argv)
    (hx : execSyscall s.m (s.proc i) path argv = .ok (m', p', r)) :
    (r = true → ∃ ptrs, ArgumentBlock m' p' argv ptrs) ∧ (¬argsFit argv → r = false) := by
  have hwf := h.inv.wf hi hl
  have hblock : r = true → argsFit argv ∧ ∃ ptrs, ArgumentBlock m' p' argv ptrs := by
    rintro rfl
    exact execSyscall_block hwf.toHasTable (Or.inr hwf.stack) (h.inv.nodup hi) hlen hargs hx
  refine ⟨fun hr => (hblock hr).2, fun hfit => ?_⟩
  rw [← Bool.not_eq_true]
  exact fun hr => hfit (hblock hr).1

/-- The first process runs `echo hi`. -/
theorem exec_argument_block_echo : ∃ m' p',
    execSyscall (smallBoot twoPrograms 32).m ((smallBoot twoPrograms 32).proc 0) "/echo".toList [[101, 99, 104, 111], [104, 105]] =
      .ok (m', p', true) ∧ ∃ ptrs, ArgumentBlock m' p' [[101, 99, 104, 111], [104, 105]] ptrs := by
  have hargs : ArgsOk [[101, 99, 104, 111], [104, 105]] := by
    intro s hs
    rcases List.mem_pair.mp hs with rfl | rfl <;> decide
  have hrun : (execSyscall (smallBoot twoPrograms 32).m ((smallBoot twoPrograms 32).proc 0) "/echo".toList
      [[101, 99, 104, 111], [104, 105]]).toOption.any (fun x => x.2.2) = true := by
    decide +kernel
  obtain ⟨⟨m', p', r⟩, hx, hr⟩ := ok_of_any hrun
  obtain rfl : r = true := hr
  exact ⟨m', p', hx, (exec_argument_block (Reach.of_init smallBoot_two) (by decide) (by decide +kernel) (by decide) hargs hx).1 rfl⟩

end Xv6SnifferBakery.Kernel
