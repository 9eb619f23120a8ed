import Xv6SnifferBakery.Lemmas.Umalloc

/-!
# The allocator over whole runs

Whatever a program allocates, frees and writes into its blocks, and whatever `sbrk` grants: every loop of `malloc` and `free` ends, a block
that is handed out overlaps no other, nothing that the allocator writes lies in a block of the program, no unit of memory is lost, and free
neighbours are joined.
-/

namespace Xv6SnifferBakery.Umalloc

open Lib

namespace Heap

variable {h h' h'' : Heap} {f p b c x bp n nu : Nat} {xs live : List Nat}

/-- No header that has changed overlaps one of the blocks. -/
def Keeps (h h' : Heap) (live : List Nat) : Prop := ∀ b ∈ live, ∀ x, b < x + headerSize → x < h.fin b → h'.hdr x = h.hdr x

theorem Ok.clear {except : Nat → Prop} (hok : h.Ok f xs live except) (hx : x ∈ f :: xs ++ live) (hb : b ∈ live) (hne : x ≠ b) :
    x + headerSize ≤ b ∨ h.fin b ≤ x := by
  obtain ⟨⟨hm, -, hn, hbound, hapart, -, -⟩, -, -, -⟩ := hok
  have hbm : b ∈ f :: xs ++ live := List.mem_append_right _ hb
  have hbb : b ≠ h.base := fun he => (List.nodup_append.mp hn).2.2 b (he ▸ hm) b hb rfl
  by_cases hxb : x = h.base
  · rw [hxb]
    exact Or.inl (hbound b hbm hbb).2.1
  · rcases Nat.lt_or_ge x b with hlt | hge
    · left
      have h1 := hapart x hx b hbm hxb hlt
      have h2 := (hbound x hx hxb).1
      unfold fin headerSize at h1
      unfold headerSize
      omega
    · exact Or.inr (hapart b hbm x hx hbb (Nat.lt_of_le_of_ne hge (Ne.symm hne)))

theorem Ok.own {except : Nat → Prop} (hok : h.Ok f xs live except) (hb : b ∈ live) : b < h.fin b := by
  have hbb : b ≠ h.base := fun he => (List.nodup_append.mp hok.blocks.nodup).2.2 b (he ▸ hok.blocks.base) b hb rfl
  have := (hok.blocks.bound b (List.mem_append_right _ hb) hbb).1
  unfold fin headerSize
  omega

/-- Free blocks and new ones do not overlap those of the program. -/
theorem Ok.keeps {except : Nat → Prop} (hok : h.Ok f xs live except) (hsame : ∀ x, x ∉ f :: xs → x ≠ c → h'.hdr x = h.hdr x)
    (hc : ∀ b ∈ live, c ≠ b ∧ (c + headerSize ≤ b ∨ h.fin b ≤ c)) : h.Keeps h' live := by
  intro b hb x hlow hhigh
  by_cases hx : x ∈ f :: xs
  · have hne : x ≠ b := fun he => (List.nodup_append.mp hok.blocks.nodup).2.2 x hx b hb he
    have := hok.clear (List.mem_append_left _ hx) hb hne
    omega
  · by_cases hxc : x = c
    · have := (hc b hb).2
      omega
    · exact hsame x hx hxc

theorem Keeps.fin {except : Nat → Prop} (hk : h.Keeps h' live) (hok : h.Ok f xs live except) (hb : b ∈ live) : h'.fin b = h.fin b := by
  have hown := hok.own hb
  have := hk b hb b (by unfold headerSize; omega) hown
  unfold Heap.fin size
  rw [this]

theorem Keeps.trans {except : Nat → Prop} (hk : h.Keeps h' live) (hk' : h'.Keeps h'' live) (hok : h.Ok f xs live except) :
    h.Keeps h'' live := by
  intro b hb x hlow hhigh
  rw [hk' b hb x hlow (by rwa [hk.fin hok hb]), hk b hb x hlow hhigh]

/-- `carve` hands out a block of its own. -/
theorem Ok.carve_keeps {except : Nat → Prop} (hok : h.Ok f xs live except) (hp : p ∈ f :: xs) (hfit : nu ≤ h.size (h.ptr p)) (hnu : 0 < nu) :
    h.Keeps (h.carve nu p).1 live := by
  obtain ⟨ys, -, hok', -, -, -, -, hsame⟩ := hok.carve hp hfit hnu
  have hn' := hok'.blocks.nodup
  have hne : ∀ b ∈ live, (h.carve nu p).2 ≠ b := by
    rintro b hb rfl
    rw [List.perm_middle.nodup_iff] at hn'
    exact (List.nodup_cons.mp hn').1 (List.mem_append_right _ hb)
  refine hok.keeps hsame (fun b hb => ⟨hne b hb, ?_⟩)
  have hout : b ∉ f :: xs := fun hm => (List.nodup_append.mp hok.blocks.nodup).2.2 b hm b hb rfl
  have hfin : (h.carve nu p).1.fin b = h.fin b := by
    rw [fin, fin, size, size, hsame b hout (Ne.symm (hne b hb))]
  rw [← hfin]
  exact hok'.clear (List.mem_append_right _ (List.mem_cons_self ..)) (List.mem_cons_of_mem _ hb) (hne b hb)

theorem free_keeps (hok : h.Ok f xs live (fun _ => False)) (hbp : bp ∈ live) (hsame : ∀ x, x ∉ f :: xs → x ≠ bp → h'.hdr x = h.hdr x) :
    h.Keeps h' (live.erase bp) := by
  have hn := (List.nodup_append.mp hok.blocks.nodup).2.1
  intro b hb x hlow hhigh
  have hbl : b ∈ live := List.mem_of_mem_erase hb
  have hne : bp ≠ b := by
    rintro rfl
    exact hn.not_mem_erase hb
  by_cases hx : x ∈ f :: xs
  · have hxb : x ≠ b := fun he => (List.nodup_append.mp hok.blocks.nodup).2.2 x hx b hbl he
    have := hok.clear (List.mem_append_left _ hx) hbl hxb
    omega
  · by_cases hxp : x = bp
    · have := hok.clear (List.mem_append_right _ hbp) hbl hne
      omega
    · exact hsame x hx hxp

end Heap

namespace HeapSys

variable {s t : HeapSys} {nbytes bp nu : Nat} {got r : Option Nat}

/-- Before the first `malloc` there is nothing; after it there is a free list. -/
def Inv (s : HeapSys) : Prop :=
  s.heap.base + headerSize ≤ s.heap.brk ∧
  ((s.heap.freep = none ∧ s.heap.obtained = 0 ∧ s.live = []) ∨
    ∃ f xs, s.heap.freep = some f ∧ s.heap.Ok f xs s.live (fun _ => False))

/-- `malloc` begins with a free list. -/
theorem Inv.start (h : s.Inv) : ∃ f xs, s.heap.start.freep = some f ∧ s.heap.start.Ok f xs s.live (fun _ => False) ∧
    s.heap.start.base = s.heap.base ∧ s.heap.start.brk = s.heap.brk ∧ s.heap.start.obtained = s.heap.obtained ∧
    s.heap.Keeps s.heap.start s.live := by
  obtain ⟨-, ⟨hf, hobt, hlive⟩ | ⟨f, xs, hf, hok⟩⟩ := h
  · obtain ⟨hfreep, hok⟩ := Heap.start_ok hf hobt
    rw [hlive]
    refine ⟨_, [], hfreep, hok, ?_, ?_, ?_, ?_⟩
    · simp [Heap.start, hf, Heap.setPtr, Heap.setSize]
    · simp [Heap.start, hf, Heap.setPtr, Heap.setSize]
    · simp [Heap.start, hf, Heap.setPtr, Heap.setSize]
    · intro b hb
      cases hb
  · have hsame : s.heap.start = s.heap := by
      simp [Heap.start, hf]
    rw [hsame]
    exact ⟨f, xs, hf, hok, rfl, rfl, rfl, fun _ _ _ _ _ => rfl⟩

theorem nunits_eq (h : nbytes < 2 ^ 32) : Heap.nunits nbytes = (nbytes + 15) / 16 + 1 := by
  unfold Heap.nunits headerSize
  exact Nat.mod_eq_of_lt (by omega)

theorem sbrkArg_core (h : nu * headerSize < 2 ^ 31) : Heap.sbrkArg (Heap.coreUnits nu * headerSize) = (Heap.coreUnits nu * headerSize : Nat) := by
  have hlt : Heap.coreUnits nu * headerSize < 2 ^ 31 := by
    unfold Heap.coreUnits headerSize at *
    split <;> omega
  rw [Heap.sbrkArg, Nat.mod_eq_of_lt (by omega), if_pos hlt]

/-- `morecore` puts a block on the free list that is big enough. -/
theorem morecore_spec {h : Heap} {f p : Nat} {xs live : List Nat} (hok : h.Ok f xs live (fun _ => False)) (hf : h.freep = some f)
    (hlow : h.base + headerSize ≤ h.brk) (hnu : nu * headerSize < 2 ^ 31) (hp : h.brk ≤ p) (hword : h.obtained + Heap.coreUnits nu < 2 ^ 32) :
    ∃ h' f' ys, h.morecore nu (some p) = some (h', some f') ∧ h'.freep = some f' ∧ h'.Ok f' ys live (fun _ => False) ∧ h'.base = h.base ∧
      h.brk ≤ h'.brk ∧ h.Keeps h' live ∧ ∃ b ∈ f' :: ys, nu ≤ h'.size b := by
  have hcore : nu ≤ Heap.coreUnits nu ∧ 0 < Heap.coreUnits nu := by
    unfold Heap.coreUnits
    split <;> omega
  have hbrk : ((p : Int) + Heap.sbrkArg (Heap.coreUnits nu * headerSize)).toNat = p + Heap.coreUnits nu * headerSize := by
    rw [sbrkArg_core hnu]
    exact Int.toNat_natCast _
  obtain ⟨g, hg⟩ : ∃ g, g = ({ h with
      brk := ((p : Int) + Heap.sbrkArg (Heap.coreUnits nu * headerSize)).toNat, obtained := h.obtained + Heap.coreUnits nu } : Heap).setSize p
        (Heap.coreUnits nu) := ⟨_, rfl⟩
  have hgok : g.Ok f xs (p :: live) (fun _ => False) := by
    rw [hg]
    refine hok.obtain hlow hp hcore.2 hword ?_
    rw [hbrk, Nat.mul_comm]
  have hgf : g.freep = some f := by
    rw [hg]
    exact hf
  obtain ⟨h', f', ys, hfree, hf', hok', hbase, hbrk', -, hsame, b, hb, hsize⟩ := Heap.free_spec hgok hgf (List.mem_cons_self ..)
  have hgs : g.size p = Heap.coreUnits nu := by
    rw [hg, Heap.size_setSize, if_pos rfl]
    exact Nat.mod_eq_of_lt (by omega)
  have hout : p ∉ live := by
    have := hgok.blocks.nodup
    rw [List.perm_middle.nodup_iff] at this
    exact fun hm => (List.nodup_cons.mp this).1 (List.mem_append_right _ hm)
  have hghdr : ∀ x, x ≠ p → g.hdr x = h.hdr x := by
    intro x hx
    rw [hg]
    simp [Heap.setSize, hx]
  refine ⟨h', f', ys, ?_, hf', ?_, ?_, ?_, ?_, b, hb, by omega⟩
  · simp only [Heap.morecore]
    rw [← hg, hfree]
    simp [hf']
  · rwa [List.erase_cons_head] at hok'
  · rw [hbase, hg]
    rfl
  · rw [hbrk', hg]
    change h.brk ≤ ((p : Int) + _).toNat
    rw [hbrk]
    omega
  · refine hok.keeps (c := p) ?_ (fun b hb => ⟨fun he => hout (he ▸ hb), ?_⟩)
    · intro x hx hxp
      rw [hsame x hx hxp, hghdr x hxp]
    · have hne : b ≠ p := fun he => hout (he ▸ hb)
      have hfin : g.fin b = h.fin b := by
        rw [Heap.fin, Heap.fin, Heap.size, Heap.size, hghdr b hne]
      rw [← hfin]
      exact hgok.clear (List.mem_append_right _ (List.mem_cons_self ..)) (List.mem_cons_of_mem _ hb) (Ne.symm hne)

/-- What `malloc` does from a state in which all is well: it ends, and it hands out a block of its own or finds that there is none. -/
theorem malloc_spec (h : s.Inv) (hn : Heap.nunits nbytes * headerSize < 2 ^ 31) (hb : nbytes < 2 ^ 32)
    (hg : Grants s.heap (Heap.nunits nbytes) got) :
    ∃ h' r, s.heap.malloc nbytes got = some (h', r) ∧ Inv ⟨h', r.toList ++ s.live⟩ ∧ s.heap.Keeps h' s.live ∧
      h'.base = s.heap.base ∧ (∀ p, r = some p → h'.size p = Heap.nunits nbytes) ∧
      (r = none → got = none ∧ ∃ f xs, s.heap.start.freep = some f ∧ IsCycle s.heap.start.ptr f xs ∧
        ∀ b ∈ f :: xs, s.heap.start.size b < Heap.nunits nbytes) := by
  have hnu : 0 < Heap.nunits nbytes := by
    rw [nunits_eq hb]
    exact Nat.succ_pos _
  obtain ⟨f, xs, hf, hok, hbase, hbrk, hobt, hkeep⟩ := h.start
  obtain ⟨hlow, hcases⟩ := h
  obtain ⟨prevp, hp, hs, hfit⟩ := hok.fit hf (Heap.nunits nbytes)
  have hkept : ∀ {g}, s.heap.start.Keeps g s.live → s.heap.Keeps g s.live := by
    intro g hg'
    rcases hcases with ⟨-, -, hlive⟩ | ⟨f', xs', hf', hok'⟩
    · rw [hlive]
      intro b hb
      cases hb
    · exact hkeep.trans hg' hok'
  by_cases hle : Heap.nunits nbytes ≤ s.heap.start.size (s.heap.start.ptr prevp)
  · obtain ⟨ys, hcf, hcok, hcsize, hcbase, hcbrk, -, -⟩ := hok.carve hp hle hnu
    refine ⟨_, some (s.heap.start.carve _ prevp).2, ?_, ⟨?_, Or.inr ⟨_, _, hcf, hcok⟩⟩, hkept (hok.carve_keeps hp hle hnu),
      hcbase.trans hbase, ?_, by simp⟩
    · simp only [Heap.malloc, hf, hs, Option.bind_eq_bind, Option.bind_some, if_pos hle]
    · change (s.heap.start.carve _ prevp).1.base + headerSize ≤ (s.heap.start.carve _ prevp).1.brk
      rw [hcbase, hcbrk, hbase, hbrk]
      exact hlow
    · rintro p hp'
      obtain rfl := Option.some.inj hp'
      exact hcsize
  · have hnone := hfit.resolve_left hle
    rcases hgot : got with _ | p
    · refine ⟨s.heap.start, none, ?_, ⟨?_, Or.inr ⟨f, xs, hf, hok⟩⟩, hkeep, hbase, by simp, fun _ => ⟨rfl, f, xs, hf, hok.cycle, hnone⟩⟩
      · simp only [Heap.malloc, hf, hs, Option.bind_eq_bind, Option.bind_some, if_neg hle, Heap.morecore]
      · change s.heap.start.base + headerSize ≤ s.heap.start.brk
        rw [hbase, hbrk]
        exact hlow
    · obtain ⟨hgp, hgw⟩ := hg p hgot
      obtain ⟨g, f', ys, hmore, hf', hok', hgbase, hgbrk, hgkeep, b, hbm, hbsize⟩ :=
        morecore_spec (p := p) hok hf (by rw [hbase, hbrk]; exact hlow) hn (by rw [hbrk]; exact hgp) (by rw [hobt]; exact hgw)
      obtain ⟨prevq, hq, hs', hfit'⟩ := hok'.fit hf' (Heap.nunits nbytes)
      have hle' : Heap.nunits nbytes ≤ g.size (g.ptr prevq) := by
        rcases hfit' with hle' | hall
        · exact hle'
        · exact absurd hbsize (Nat.not_le.mpr (hall b hbm))
      obtain ⟨zs, hcf, hcok, hcsize, hcbase, hcbrk, -, -⟩ := hok'.carve hq hle' hnu
      refine ⟨_, some (g.carve _ prevq).2, ?_, ⟨?_, Or.inr ⟨_, _, hcf, hcok⟩⟩, hkept (hgkeep.trans (hok'.carve_keeps hq hle' hnu) hok),
        hcbase.trans (hgbase.trans hbase), ?_, by simp⟩
      · simp only [Heap.malloc, hf, hs, Option.bind_eq_bind, Option.bind_some, if_neg hle, hmore, hs', if_pos hle']
      · change (g.carve _ prevq).1.base + headerSize ≤ (g.carve _ prevq).1.brk
        rw [hcbase, hcbrk, hgbase, hbase]
        omega
      · rintro c hc
        obtain rfl := Option.some.inj hc
        exact hcsize

theorem Inv.step {a : HeapAction} (h : s.Inv) (hs : Step s a t) : t.Inv := by
  cases hs with
  | malloc hn hb hg hm =>
    obtain ⟨h', r', hm', hinv, -⟩ := malloc_spec h hn hb hg
    rw [hm] at hm'
    cases hm'
    exact hinv
  | @free bp h' hbp hfree =>
    obtain ⟨hlow, ⟨-, -, hlive⟩ | ⟨f, xs, hf, hok⟩⟩ := h
    · rw [hlive] at hbp
      cases hbp
    · obtain ⟨g, p, ys, hfree', hp, hok', hbase, hbrk, -, -, -⟩ := Heap.free_spec hok hf hbp
      rw [hfree] at hfree'
      cases hfree'
      exact ⟨by rw [hbase, hbrk]; exact hlow, Or.inr ⟨p, ys, hp, hok'⟩⟩
  | @write hdr hw =>
    obtain ⟨hlow, hnone | ⟨f, xs, hf, hok⟩⟩ := h
    · exact ⟨hlow, Or.inl hnone⟩
    · refine ⟨hlow, Or.inr ⟨f, xs, hf, hok.frame rfl (Nat.le_refl _) rfl (fun x hx => hw x ?_)⟩⟩
      rintro ⟨b, hb, hlt, hgt⟩
      rcases hok.clear hx hb (Ne.symm (Nat.ne_of_lt hlt)) with hcl | hcl
      · omega
      · omega
  | sbrk =>
    obtain ⟨hlow, hnone | ⟨f, xs, hf, hok⟩⟩ := h
    · exact ⟨Nat.le_trans hlow (Nat.le_add_right _ _), Or.inl hnone⟩
    · exact ⟨Nat.le_trans hlow (Nat.le_add_right _ _), Or.inr ⟨f, xs, hf, hok.frame rfl (Nat.le_add_right _ _) rfl (fun _ _ => rfl)⟩⟩

theorem inv_run {base brk : Nat} {hdr : Nat → Header} {as : List HeapAction} (hlow : base + headerSize ≤ brk)
    (h : Run Step (boot base brk hdr) as s) : s.Inv :=
  h.invariant Inv (fun _ _ _ hi hs => hi.step hs) ⟨hlow, Or.inl ⟨rfl, rfl, rfl⟩⟩

/-- In every state of a program `malloc` ends. The block that it hands out is as long as was asked for, in memory that the program has, and
overlaps no other block of the program; no header that it writes does; and it hands out none only when no free block is long enough and
`sbrk` gives nothing. -/
theorem malloc_safe {base brk : Nat} {hdr : Nat → Header} {as : List HeapAction} (hlow : base + headerSize ≤ brk)
    (h : Run Step (boot base brk hdr) as s) (hn : Heap.nunits nbytes * headerSize < 2 ^ 31) (hb : nbytes < 2 ^ 32)
    (hg : Grants s.heap (Heap.nunits nbytes) got) :
    ∃ h' r, s.heap.malloc nbytes got = some (h', r) ∧ s.heap.Keeps h' s.live ∧
      (∀ p, r = some p → s.heap.base + headerSize ≤ p ∧ p + headerSize + nbytes ≤ h'.fin p ∧ h'.fin p ≤ h'.brk ∧
        ∀ b ∈ s.live, h'.fin b = s.heap.fin b ∧ (h'.fin p ≤ b ∨ h'.fin b ≤ p)) ∧
      (r = none → got = none ∧ ∃ f xs, s.heap.start.freep = some f ∧ IsCycle s.heap.start.ptr f xs ∧
        ∀ b ∈ f :: xs, s.heap.start.size b < Heap.nunits nbytes) := by
  have hinv := inv_run hlow h
  obtain ⟨h', r, hm, hinv', hkeep, hbase, hsize, hnone⟩ := malloc_spec hinv hn hb hg
  refine ⟨h', r, hm, hkeep, ?_, hnone⟩
  rintro p rfl
  obtain ⟨-, ⟨-, -, hlive⟩ | ⟨f, xs, hf, hok⟩⟩ := hinv'
  · cases hlive
  have hpm : p ∈ f :: xs ++ (p :: s.live) := List.mem_append_right _ (List.mem_cons_self ..)
  have hne : ∀ b ∈ p :: s.live, b ≠ h'.base :=
    fun b hb he => (List.nodup_append.mp hok.blocks.nodup).2.2 b (he ▸ hok.blocks.base) b hb rfl
  have hpb := hok.blocks.bound p hpm (hne p (List.mem_cons_self ..))
  refine ⟨by rw [← hbase]; exact hpb.2.1, ?_, hpb.2.2, ?_⟩
  · rw [Heap.fin, hsize p rfl, nunits_eq hb]
    unfold headerSize
    omega
  · intro b hbm
    have hbm' : b ∈ f :: xs ++ (p :: s.live) := List.mem_append_right _ (List.mem_cons_of_mem _ hbm)
    have hbp : b ≠ p := by
      rintro rfl
      have := (List.nodup_append.mp hok.blocks.nodup).2.1
      exact (List.nodup_cons.mp this).1 hbm
    refine ⟨?_, ?_⟩
    · obtain ⟨-, ⟨-, -, hlive⟩ | ⟨f', xs', -, hok'⟩⟩ := hinv
      · rw [hlive] at hbm
        cases hbm
      · exact hkeep.fin hok' hbm
    · rcases Nat.lt_or_ge p b with hlt | hge
      · exact Or.inl (hok.blocks.apart p hpm b hbm' (hne p (List.mem_cons_self ..)) hlt)
      · exact Or.inr (hok.blocks.apart b hbm' p hpm (hne b (List.mem_cons_of_mem _ hbm)) (Nat.lt_of_le_of_ne hge hbp))

/-! ### A run -/

instance (h : Heap) (nu : Nat) : (got : Option Nat) → Decidable (Grants h nu got)
  | none => isTrue (by simp [Grants])
  | some p => decidable_of_iff (h.brk ≤ p ∧ h.obtained + Heap.coreUnits nu < 2 ^ 32) (by simp [Grants])

/-- The state after a list of calls, when each gives what it is said to give. -/
def replay (s : HeapSys) : List HeapAction → Option HeapSys
  | [] => some s
  | .malloc nbytes got r :: as =>
    if Heap.nunits nbytes * headerSize < 2 ^ 31 ∧ nbytes < 2 ^ 32 ∧ Grants s.heap (Heap.nunits nbytes) got then
      match s.heap.malloc nbytes got with
      | some (h, r') => if r' = r then replay ⟨h, r.toList ++ s.live⟩ as else none
      | none => none
    else none
  | .free bp :: as =>
    if bp ∈ s.live then
      match s.heap.free bp with
      | some h => replay ⟨h, s.live.erase bp⟩ as
      | none => none
    else none
  | _ => none

theorem replay_run {as : List HeapAction} (h : replay s as = some t) : Run Step s as t := by
  induction as generalizing s with
  | nil =>
    obtain rfl := Option.some.inj h
    exact .nil s
  | cons a as ih =>
    cases a with
    | malloc nbytes got r =>
      rw [replay] at h
      split at h
      swap
      · cases h
      rename_i hen
      split at h
      swap
      · cases h
      rename_i heap r' hm
      split at h
      swap
      · cases h
      rename_i hr
      subst hr
      exact (Run.single (.malloc hen.1 hen.2.1 hen.2.2 hm)).append (ih h)
    | free bp =>
      rw [replay] at h
      split at h
      swap
      · cases h
      rename_i hlive
      split at h
      swap
      · cases h
      rename_i heap hf
      exact (Run.single (.free hlive hf)).append (ih h)
    | write | sbrk => cases h

/-- Three blocks are handed out, the first from `sbrk`, and the first and the last of them are freed. -/
def freeTwo : List HeapAction :=
  [.malloc 100 (some 4096) (some 69504), .malloc 200 none (some 69280), .malloc 50 none (some 69200), .free 69504, .free 69200]

theorem freeTwo_run : ∃ s, Run Step (boot 100 4096 (fun _ => ⟨0, 0⟩)) freeTwo s ∧ s.live = [69280] ∧ s.heap.freep = some 4096 ∧
    (s.heap.malloc 60 none).map Prod.snd = some (some 69552) := by
  have hval : (replay (boot 100 4096 (fun _ => ⟨0, 0⟩)) freeTwo).any (fun s => decide (s.live = [69280] ∧ s.heap.freep = some 4096 ∧
      (s.heap.malloc 60 none).map Prod.snd = some (some 69552))) = true := by decide +kernel
  obtain ⟨s, hs, hx⟩ := (Option.any_eq_true _ _).mp hval
  exact ⟨s, replay_run hs, of_decide_eq_true hx⟩

/-- After that a block comes out of the first one again, and does not overlap the one that is left. -/
theorem malloc_safe_reused : ∃ s h', Run Step (boot 100 4096 (fun _ => ⟨0, 0⟩)) freeTwo s ∧ s.live = [69280] ∧
    s.heap.malloc 60 none = some (h', some 69552) ∧ 69552 + headerSize + 60 ≤ h'.fin 69552 ∧ s.heap.Keeps h' [69280] ∧
    (h'.fin 69552 ≤ 69280 ∨ h'.fin 69280 ≤ 69552) := by
  obtain ⟨s, hrun, hlive, -, hval⟩ := freeTwo_run
  have hgrants : Grants s.heap (Heap.nunits 60) none := by simp [Grants]
  obtain ⟨h', r, hm, hkeep, hr, -⟩ := malloc_safe (by decide) hrun (by decide) (by decide) hgrants
  rw [hm] at hval
  obtain rfl : r = some 69552 := Option.some.inj hval
  obtain ⟨-, hlong, -, hapart⟩ := hr 69552 rfl
  rw [hlive] at hkeep hapart
  obtain ⟨-, hout⟩ := hapart 69280 (List.mem_singleton_self _)
  exact ⟨s, h', hrun, hlive, hm, hlong, hkeep, hout⟩

/-- `free` of a block of the program ends, and no header that it writes overlaps another block of the program. -/
theorem free_safe {base brk : Nat} {hdr : Nat → Header} {as : List HeapAction} (hlow : base + headerSize ≤ brk)
    (h : Run Step (boot base brk hdr) as s) (hbp : bp ∈ s.live) :
    ∃ h', s.heap.free bp = some h' ∧ s.heap.Keeps h' (s.live.erase bp) ∧ ∀ b ∈ s.live.erase bp, h'.fin b = s.heap.fin b := by
  obtain ⟨-, ⟨-, -, hlive⟩ | ⟨f, xs, hf, hok⟩⟩ := inv_run hlow h
  · rw [hlive] at hbp
    cases hbp
  · obtain ⟨h', p, ys, hfree, -, -, -, -, -, hsame, -⟩ := Heap.free_spec hok hf hbp
    have hkeep := Heap.free_keeps hok hbp hsame
    refine ⟨h', hfree, hkeep, fun b hb => ?_⟩
    have hown := hok.own (List.mem_of_mem_erase hb)
    unfold Heap.fin Heap.size
    rw [hkeep b hb b (by unfold headerSize; omega) hown]

theorem free_safe_last : ∃ s h', Run Step (boot 100 4096 (fun _ => ⟨0, 0⟩)) freeTwo s ∧ s.heap.free 69280 = some h' := by
  obtain ⟨s, hrun, hlive, -⟩ := freeTwo_run
  obtain ⟨h', hfree, -⟩ := free_safe (by decide) hrun (show 69280 ∈ s.live by rw [hlive]; exact List.mem_singleton_self _)
  exact ⟨s, h', hrun, hfree⟩

/-- In every state the free blocks are a ring in the order of their addresses, no two of them side by side; free blocks and those of the
program overlap nowhere; and together they have every unit that `morecore` has got. -/
theorem heap_conserved {base brk : Nat} {hdr : Nat → Header} {as : List HeapAction} (hlow : base + headerSize ≤ brk)
    (h : Run Step (boot base brk hdr) as s) {f : Nat} (hf : s.heap.freep = some f) :
    ∃ xs, IsCycle s.heap.ptr f xs ∧ s.heap.base ∈ f :: xs ∧ (f :: xs ++ s.live).Nodup ∧
      (∀ p ∈ f :: xs, p ≠ s.heap.base → s.heap.fin p < s.heap.ptr p ∨ s.heap.ptr p = s.heap.base) ∧
      (∀ b ∈ f :: xs ++ s.live, ∀ c ∈ f :: xs ++ s.live, b ≠ s.heap.base → b < c → s.heap.fin b ≤ c) ∧
      (((f :: xs).map s.heap.size).sum + (s.live.map s.heap.size).sum = s.heap.obtained) := by
  obtain ⟨-, ⟨hnone, -, -⟩ | ⟨f', xs, hf', hok⟩⟩ := inv_run hlow h
  · rw [hf] at hnone
    cases hnone
  · rw [hf] at hf'
    cases hf'
    refine ⟨xs, hok.cycle, hok.blocks.base, hok.blocks.nodup, ?_, hok.blocks.apart, ?_⟩
    · intro p hp hne
      rcases hok.ordered p hp with ⟨hlt, -⟩ | ⟨hbase, -⟩
      · left
        have hle := hok.blocks.apart p (List.mem_append_left _ hp) _ (List.mem_append_left _ (hok.cycle.next_mem hp)) hne hlt
        exact Nat.lt_of_le_of_ne hle (fun he => hok.joined p hp hne he)
      · exact Or.inr hbase
    · have := hok.blocks.total
      rwa [List.map_append, List.sum_append] at this

theorem heap_conserved_freed : ∃ s xs, Run Step (boot 100 4096 (fun _ => ⟨0, 0⟩)) freeTwo s ∧
    IsCycle s.heap.ptr 4096 xs ∧ ((4096 :: xs).map s.heap.size).sum + (s.live.map s.heap.size).sum = s.heap.obtained := by
  obtain ⟨s, hrun, -, hf, -⟩ := freeTwo_run
  obtain ⟨xs, hcycle, -, -, -, -, hsum⟩ := heap_conserved (by decide) hrun hf
  exact ⟨s, xs, hrun, hcycle, hsum⟩

end HeapSys

end Xv6SnifferBakery.Umalloc
