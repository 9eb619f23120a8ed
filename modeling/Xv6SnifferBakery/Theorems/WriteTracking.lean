import Xv6SnifferBakery.Lemmas.Tracking
import Xv6SnifferBakery.Lemmas.Replay

/-!
# Which pages count as written

A page that is loaded is meant to be mapped without `PTE_W`, so that the first store to it faults and marks its entry dirty. What `exec`
maps as the first stack page, what is loaded from a writable segment, and what eager growth maps over an entry that is still resident
have `PTE_W` from the start and are not dirty: stores to them go unseen, and the next eviction discards the page.
-/

namespace Xv6SnifferBakery.Kernel

open Lib

variable {m m' : Machine} {p p' : Proc} {s t : Sys} {ev : Event} {i va : Nat}

/-! ## Pages and their dirty marks -/

/-- Page `va` cannot be stored to unseen: when its entry is resident and its leaf has `PTE_W`, the entry is dirty. -/
def WriteTracked (va : Nat) (p : Proc) : Prop := ∀ e ∈ p.pages, e.va = va → e.state = .resident →
  ∀ pte, p.pagetable.leaf (va / 4096) = some pte → pte.perm.w = true → e.isDirty = true

/-- When page `va` is resident, its entry is dirty. -/
def MarkedDirty (va : Nat) (p : Proc) : Prop := ∀ e ∈ p.pages, e.va = va → e.state = .resident → e.isDirty = true

/-- The stack page that `exec` maps. -/
def Proc.firstStackPage (p : Proc) : Nat := pgRoundDown (sub64 p.stackTop pgSize)

/-- An event, from `s` to `t`, that maps page `va` with `PTE_W` only where the entry of the page is dirty or not resident. -/
def Event.keepsWrites (va : Nat) (s : Sys) (ev : Event) (t : Sys) : Prop :=
  match ev with
  | .page k (.load src _ w) => w = va → (src.perm (s.proc k) va).w = false
  | .sbrk k n eager => ¬shrinksPastTrapframe (s.proc k) (wrap32 n) ∧ (0 < wrap32 n → eager = true →
      pgRoundUp (s.proc k).sz ≤ va → va < addInt (s.proc k).sz (wrap32 n) → MarkedDirty va (s.proc k))
  | .exec k true => va ≠ (t.proc k).firstStackPage
  | _ => True

/-- Whether page `va` of a process has been stored to since it became resident, after a page event. -/
def PageEvent.written (va : Nat) (ev : PageEvent) (w : Prop) : Prop :=
  match ev with
  | .store a _ => w ∨ a / 4096 = va / 4096
  | .copy b => w ∨ b / 4096 = va / 4096
  | .load _ _ b => w ∧ b ≠ va
  | _ => w

/-- The same for all processes, after an event. A child has the pages of its parent; a new image has none of the old one. -/
def Event.written (va : Nat) (s : Sys) (ev : Event) (t : Sys) (W : Nat → Prop) : Nat → Prop :=
  match ev with
  | .page k pev => Function.update W k (pev.written va (W k))
  | .fork k => fun j => if (s.proc j).state = .unused ∧ (t.proc j).state ≠ .unused then W k else W j
  | .exec k true => Function.update W k False
  | _ => W

/-- One event, with what was written to page `va` of each process beside it. -/
def WriteStep (va : Nat) (x : Sys × (Nat → Prop)) (ev : Event) (y : Sys × (Nat → Prop)) : Prop :=
  ev.keepsWrites va x.1 y.1 ∧ SysStep x.1 ev y.1 ∧ y.2 = ev.written va x.1 y.1 x.2

/-- Page `va` cannot be stored to unseen, and if it was stored to, its entry is dirty. -/
structure WritesSeen (va : Nat) (w : Prop) (p : Proc) : Prop where
  tracked : WriteTracked va p
  marked : w → MarkedDirty va p

theorem WritesSeen.of_fields {w : Prop} (h : WritesSeen va w p) (hpages : p'.pages = p.pages) (hleaf : p'.pagetable.leaf = p.pagetable.leaf) :
    WritesSeen va w p' := by
  refine ⟨?_, ?_⟩
  · intro e he hva hr pte hpte hw
    rw [hleaf] at hpte
    exact h.tracked e (hpages ▸ he) hva hr pte hpte hw
  · intro hw e he
    exact h.marked hw e (hpages ▸ he)

/-! ## Page events -/

/-- A change of one entry, and at most of its leaf. -/
theorem WritesSeen.modify {w w' : Prop} {e : PageInfo} {f : PageInfo → PageInfo} (h : WritesSeen va w p) (hp : p.Indexed)
    (he : p.pages[i]? = some e) (hpages : p'.pages = p.pages.modify i f)
    (hleaf : ∀ v, v ≠ e.va / 4096 → p'.pagetable.leaf v = p.pagetable.leaf v) (hf : (f e).va = e.va) (hw : e.va ≠ va → w' → w)
    (htracked : e.va = va → (f e).state = .resident → ∀ pte, p'.pagetable.leaf (e.va / 4096) = some pte → pte.perm.w = true → (f e).isDirty = true)
    (hmarked : e.va = va → w' → (f e).state = .resident → (f e).isDirty = true) : WritesSeen va w' p' := by
  have hother : ∀ {l : Nat} {x : PageInfo}, l ≠ i → p.pages[l]? = some x → x.va = va → e.va ≠ va := by
    intro l x hl hx hxa hea
    exact hl (entry_unique hp.addrs hx he (hxa.trans hea.symm))
  refine ⟨?_, ?_⟩
  · intro x hx hva hr pte hpte hpw
    rw [hpages] at hx
    rcases mem_modify hx with ⟨e', he', rfl⟩ | ⟨l, hl, hxl⟩
    · obtain rfl := Option.some.inj (he.symm.trans he')
      exact htracked (hf.symm.trans hva) hr pte (by rw [← hf, hva]; exact hpte) hpw
    · have hne := hp.leaf_ne he hxl hl
      rw [hva] at hne
      rw [hleaf _ hne] at hpte
      exact h.tracked x (List.mem_of_getElem? hxl) hva hr pte hpte hpw
  · intro hw' x hx hva hr
    rw [hpages] at hx
    rcases mem_modify hx with ⟨e', he', rfl⟩ | ⟨l, hl, hxl⟩
    · obtain rfl := Option.some.inj (he.symm.trans he')
      exact hmarked (hf.symm.trans hva) hw' hr
    · exact h.marked (hw (hother hl hxl hva) hw') x (List.mem_of_getElem? hxl) hva hr

/-- A page event that is no store leaves what was written, but for a page that is loaded. -/
theorem PageEvent.written_of {pev : PageEvent} {w : Prop} (hno : ¬pev.writes (va / 4096)) (h : pev.written va w) : w := by
  cases pev with
  | store | copy => exact h.resolve_right hno
  | load => exact h.1
  | _ => exact h

theorem TableChange.writesSeen {pev : PageEvent} {w : Prop} (h : TableChange p pev p') (hp : p.Indexed) (hs : WritesSeen va w p)
    (hno : ¬pev.writes (va / 4096)) (hload : ∀ src j, pev = .load src j va → (src.perm p va).w = false) :
    WritesSeen va (pev.written va w) p' := by
  have hw := PageEvent.written_of (w := w) hno
  cases h with
  | same pages leaf =>
    obtain ⟨htracked, hmarked⟩ := hs.of_fields pages leaf
    exact ⟨htracked, fun hx => hmarked (hw hx)⟩
  | track event aligned fresh pages leaf =>
    refine ⟨?_, ?_⟩
    · intro e he hva hr pte hpte
      rw [leaf] at hpte
      rw [pages, List.mem_append] at he
      rcases he with he | he
      · exact hs.tracked e he hva hr pte hpte
      · rw [List.mem_singleton.mp he] at hr
        nomatch hr
    · intro hx e he hva hr
      rw [pages, List.mem_append] at he
      rcases he with he | he
      · exact hs.marked (hw hx) e he hva hr
      · rw [List.mem_singleton.mp he] at hr
        nomatch hr
  | evict entry resident mapped event hva out pages leaf =>
    rename_i k e pte f
    have hout : (f e).state ≠ .resident := by
      rw [out]
      split <;> nofun
    exact hs.modify hp entry pages (fun v hv => by rw [leaf, Function.update_of_ne hv]) (hva _) (fun _ => hw)
      (fun _ hr => absurd hr hout) (fun _ _ hr => absurd hr hout)
  | load event entry free hva loaded pages leaf =>
    subst event
    refine hs.modify hp entry pages (fun v hv => by rw [leaf, Function.update_of_ne hv]) (hva _) (fun _ => hw) ?_ ?_
    · rintro rfl - pte hpte hpw
      rw [leaf, Function.update_self] at hpte
      obtain rfl := Option.some.inj hpte
      have hclean := hload _ _ rfl
      change (Source.perm _ p _).w = true at hpw
      rw [hclean] at hpw
      nomatch hpw
    · intro hev hx
      exact absurd hev hx.2
  | loadFail keeps pages leaf =>
    refine ⟨?_, ?_⟩
    · intro x hx hva hr pte hpte hpw
      obtain ⟨e, he, hev, hes, hed, -⟩ := mem_modify_slot keeps (pages ▸ hx)
      rw [leaf] at hpte
      rw [← hed]
      exact hs.tracked e he (hev.trans hva) (hes.trans hr) pte hpte hpw
    · intro hx' x hx hva hr
      obtain ⟨e, he, hev, hes, hed, -⟩ := mem_modify_slot keeps (pages ▸ hx)
      rw [← hed]
      exact hs.marked (hw hx') e he (hev.trans hva) (hes.trans hr)
  | firstWrite event hx pages leaf =>
    exact hs.modify hp hx.entry pages (fun v hv => by rw [leaf, Function.update_of_ne hv]) rfl (fun _ => hw)
      (fun _ _ _ _ _ => rfl) (fun _ _ _ => rfl)

/-- A page event of the process. A store or a copy to the page finds its entry dirty. -/
theorem PageStep.writesSeen {pev : PageEvent} {w : Prop} (h : PageStep (m, p) pev (m', p')) (hp : p.Indexed) (hs : WritesSeen va w p)
    (hload : ∀ src j, pev = .load src j va → (src.perm p va).w = false) : WritesSeen va (pev.written va w) p' := by
  by_cases hno : pev.writes (va / 4096)
  swap
  · exact h.table.writesSeen hp hs hno hload
  have hdirty : ∀ pte, p.pagetable.leaf (va / 4096) = some pte → pte.perm.w = true → MarkedDirty va p := by
    intro pte hpte hpw e he hva hr
    exact hs.tracked e he hva hr pte hpte hpw
  cases h with
  | store htr =>
    obtain ⟨pte, hpte, -, hpw, -⟩ := translate_some htr
    rw [show _ / 4096 = va / 4096 from hno] at hpte
    exact ⟨hs.tracked, fun _ => hdirty pte hpte hpw⟩
  | copy _ leaf _ write =>
    rw [show _ / 4096 = va / 4096 from hno] at leaf
    exact ⟨hs.tracked, fun _ => hdirty _ leaf write⟩
  | _ => exact hno.elim

/-! ## The other events -/

/-- A page that lies in the range eager growth maps is one of it. -/
theorem SbrkSpec.writesSeen {n : Int} {eager : Bool} {w : Prop} (h : SbrkSpec m p n eager m' p') (hs : WritesSeen va w p) (hal : va % 4096 = 0)
    (hgrow : 0 < n → eager = true → pgRoundUp p.sz ≤ va → va < addInt p.sz n → MarkedDirty va p) : WritesSeen va w p' := by
  cases h with
  | same => exact hs
  | lazy => exact hs.of_fields rfl rfl
  | grow request grows le =>
    rename_i pt hi sz done
    refine ⟨?_, hs.marked⟩
    intro e he hva hr pte hpte hpw
    by_cases hin : pgRoundUp p.sz / 4096 ≤ va / 4096 ∧ va / 4096 < hi
    · have hup := pgRoundUp_mod p.sz
      unfold growEnd at le
      refine hgrow request.1 request.2 (by omega) ?_ e he hva hr
      by_contra hge
      omega
    · change pt.leaf (va / 4096) = some pte at hpte
      rw [grows.outside _ hin] at hpte
      exact hs.tracked e he hva hr pte hpte hpw
  | shrink request unmaps =>
    rename_i pt
    refine ⟨?_, hs.marked⟩
    intro e he hva hr pte hpte hpw
    by_cases hin : shrinks p.stackTop (pgRoundUp (addInt p.sz n) / 4096) (pgRoundUp p.sz / 4096) (va / 4096)
    · change pt.leaf (va / 4096) = some pte at hpte
      rw [unmaps.cleared _ hin] at hpte
      nomatch hpte
    · change pt.leaf (va / 4096) = some pte at hpte
      rw [unmaps.kept _ hin] at hpte
      exact hs.tracked e he hva hr pte hpte hpw

/-- The entries of a new image are that of its stack page. -/
theorem commit_writesSeen {path : List Char} {st : Scan} {entry sp : Nat} {pt : PageTable}
    (hne : va ≠ (p.commit path st entry pt sp).firstStackPage) : WritesSeen va False (p.commit path st entry pt sp) := by
  rw [commit_eq] at hne ⊢
  refine ⟨?_, False.elim⟩
  intro e he hva
  rw [List.mem_singleton.mp he] at hva
  exact absurd hva.symm hne

/-- A child has the entries of its parent, and the permissions where it has the pages. -/
theorem ForkChild.writesSeen {q np : Proc} {w : Prop} (h : ForkChild p q i np) (hwf : p.Wf) (hs : WritesSeen va w p) : WritesSeen va w np := by
  obtain ⟨-, -, hcopied, hmapped⟩ := h.leaves hwf
  have hentry : ∀ x ∈ np.pages, x.va = va → x.state = .resident → ∃ e ∈ p.pages, e.va = va ∧ e.state = .resident ∧ e.isDirty = x.isDirty := by
    intro x hx hva hr
    have hpages : np.pages = p.pages.map forkPage := by
      cases h with
      | mk => rfl
    rw [hpages] at hx
    obtain ⟨e, he, rfl⟩ := List.mem_map.mp hx
    refine ⟨e, he, hva, ?_, rfl⟩
    unfold forkPage at hr
    dsimp only at hr
    split at hr
    · nomatch hr
    · exact hr
  refine ⟨?_, ?_⟩
  · intro x hx hva hr pte hpte hpw
    obtain ⟨e, he, hev, hes, hed⟩ := hentry x hx hva hr
    obtain ⟨hlt, -⟩ := hwf.tracked e.va (List.mem_map_of_mem he)
    rw [hev] at hlt
    obtain ⟨hbelow, hsome⟩ := hmapped (va / 4096) hlt (by rw [hpte]; rfl)
    obtain ⟨q, hq⟩ := Option.isSome_iff_exists.mp hsome
    obtain ⟨mem, hmem⟩ := hcopied (va / 4096) hlt hbelow q hq
    obtain rfl := Option.some.inj (hmem.symm.trans hpte)
    rw [← hed]
    exact hs.tracked e he hev hes q hq hpw
  · intro hw x hx hva hr
    obtain ⟨e, he, hev, hes, hed⟩ := hentry x hx hva hr
    rw [← hed]
    exact hs.marked hw e he hev hes

/-! ## Runs -/

/-- Page `va` cannot be stored to unseen in any process, and where it was stored to, its entry is dirty. -/
structure WriteInv (va : Nat) (x : Sys × (Nat → Prop)) : Prop where
  wf : EveryLive Proc.Wf x.1
  indexed : EveryLive Proc.Indexed x.1
  seen : ∀ k, (x.1.proc k).live → WritesSeen va (x.2 k) (x.1.proc k)

theorem Event.keepsWrites.trapframe (h : ev.keepsWrites va s t) : ev.keepsTrapframe s := by
  cases ev with
  | sbrk => exact h.1
  | _ => trivial

theorem WritesSeen.mono {w w' : Prop} (h : WritesSeen va w p) (hw : w' → w) : WritesSeen va w' p := ⟨h.tracked, fun hx => h.marked (hw hx)⟩

/-- An event that is no page event of the process leaves what was written, if the process was there. -/
theorem Event.written_of {k : Nat} {W : Nat → Prop} (hne : ∀ pev, ev ≠ .page k pev) (hu : (s.proc k).state ≠ .unused)
    (h : ev.written va s t W k) : W k := by
  cases ev with
  | page j pev =>
    have hjk : k ≠ j := by
      rintro rfl
      exact hne pev rfl
    change Function.update W j _ k at h
    rwa [Function.update_of_ne hjk] at h
  | fork j =>
    change if _ then _ else _ at h
    rwa [if_neg (fun hc => hu hc.1)] at h
  | exec j done =>
    cases done with
    | false => exact h
    | true =>
      change Function.update W j False k at h
      by_cases hjk : k = j
      · rw [hjk, Function.update_self] at h
        exact h.elim
      · rwa [Function.update_of_ne hjk] at h
  | _ => exact h

theorem WriteStep.inv {x y : Sys × (Nat → Prop)} (hal : va % 4096 = 0) (h : WriteStep va x ev y) (hx : WriteInv va x) : WriteInv va y := by
  obtain ⟨hk, hs, hy⟩ := h
  refine ⟨hs.everyWf hk.trapframe hx.wf, hs.everyIndexed hx.indexed, ?_⟩
  intro k hl
  rw [hy]
  by_cases hpage : ∃ pev, ev = .page k pev
  · obtain ⟨pev, rfl⟩ := hpage
    change WritesSeen va (Function.update x.2 k _ k) _
    rw [Function.update_self]
    generalize y.1 = t at hs
    cases hs with
    | page lt live hp =>
      rw [Sys.put_proc_self]
      refine hp.writesSeen (hx.indexed k live) (hx.seen k live) ?_
      rintro src j rfl
      exact hk rfl
  have hne : ∀ pev, ev ≠ .page k pev := fun pev hpev => hpage ⟨pev, hpev⟩
  cases hs.slot hl with
  | same live tf ofile cwd parent killed state _ hp =>
    rw [hp]
    exact ((hx.seen k live).mono (Event.written_of hne live.ne_unused)).of_fields rfl rfl
  | page he => exact absurd he (hne _)
  | sbrk he live hc =>
    subst he
    exact (sysSbrk_spec (hx.wf k live) hk.1 hc).writesSeen (hx.seen k live) hal hk.2
  | exec he live args hc =>
    have hw : ev.written va x.1 y.1 x.2 k → x.2 k := Event.written_of hne live.ne_unused
    rcases kexec_cases args hc with ⟨-, hf, -⟩ | ⟨argc, fs₀, fs, ip, mem, pt, sp, rfl, hp, -⟩
    · refine ((hx.seen k live).mono hw).of_fields ?_ (by rw [hf.slot.1])
      generalize y.1.proc k = q at hf
      cases hf <;> rfl
    · subst he
      change WritesSeen va (Function.update x.2 k False k) _
      rw [Function.update_self]
      change va ≠ _ at hk
      rw [hp] at hk ⊢
      exact commit_writesSeen hk
  | fork he live hu hc =>
    subst he
    have hnew : (x.1.proc k).state = .unused ∧ (y.1.proc k).state ≠ .unused := ⟨hu, hl.ne_unused⟩
    change WritesSeen va (if _ then _ else _) _
    rw [if_pos hnew]
    exact hc.writesSeen (hx.wf _ live) (hx.seen _ live)

/-- From every state in which page `va` cannot be stored to unseen, in every run whose events all map it with `PTE_W` only where it is
dirty or not resident: it cannot be stored to unseen in any state, and an eviction that discards it as clean finds it as it was when it
became resident. -/
theorem writes_tracked {evs : List Event} {W : Nat → Prop} (h : Reachable s) (hal : va % 4096 = 0) (h0 : EveryLive (WriteTracked va) s)
    (hr : Run (WriteStep va) (s, fun _ => False) evs (t, W)) (hl : (t.proc i).live) :
    WriteTracked va (t.proc i) ∧ ∀ j u, SysStep t (.page i (.evictClean j va)) u → ¬W i := by
  have hinv : WriteInv va (t, W) := by
    refine hr.invariant (WriteInv va) (fun _ _ _ hx hs => WriteStep.inv hal hs hx) ⟨h.everyWf, h.everyIndexed, ?_⟩
    exact fun k hk => ⟨h0 k hk, False.elim⟩
  obtain ⟨htracked, hmarked⟩ := hinv.seen i hl
  refine ⟨htracked, ?_⟩
  intro j u hev hw
  cases hev with
  | page _ _ hp =>
    cases hp with
    | evictClean hx =>
      have hdirty := hmarked hw _ (List.mem_of_getElem? hx.victim.entry) rfl hx.victim.resident
      rw [hx.clean] at hdirty
      nomatch hdirty

/-- Page events of a process in which page `va` is not loaded from the executable keep the record. -/
theorem writeStep_follows {q : Proc} (hq : ¬inExec q va) : Follows (WriteStep va) i q := by
  intro u b pev v himg hs
  refine ⟨_, ?_, hs, rfl⟩
  cases pev with
  | load src j w =>
    rintro rfl
    cases hs with
    | page _ _ hp =>
      cases hp with
      | load _ _ hsrc =>
        cases src with
        | zero => rfl
        | swap => rfl
        | exec =>
          have hin := (hsrc.mp rfl).2
          rw [inExec, himg] at hin
          exact absurd hin hq
  | _ => trivial

/-- Lazy growth is such an event, and leaves the image. -/
theorem sbrk_writeStep {n : Int} {r : Bool} (va : Nat) (hlt : i < nProc) (hlive : (s.proc i).live) (hn : 0 ≤ wrap32 n)
    (h : sysSbrk s.m (s.proc i) (wrap32 n) false = .ok (m, p, r)) (W : Nat → Prop) :
    WriteStep va (s, W) (.sbrk i n false) (s.put i m p, W) ∧ (inExec ((s.put i m p).proc i) va ↔ inExec (s.proc i) va) := by
  refine ⟨⟨⟨fun hneg => ?_, fun _ he => nomatch he⟩, .sbrk hlt hlive h, rfl⟩, ?_⟩
  · have := hneg.1
    omega
  · rw [Sys.put_proc_self, (sysSbrk_env h).2]
    exact Iff.rfl

/-- A heap page is loaded and written to, and swapped out after the stack page was discarded. -/
def writeHeap : List Action := [.fault 0 16384 .read, .fault 0 16384 .write, .store 0 16384 7, .evict 0, .evict 0]

theorem writes_tracked_heap : ∃ t evs W, Run (WriteStep 16384) (smallBoot smallFiles 32, fun _ => False) evs (t, W) ∧
    WriteTracked 16384 (t.proc 0) ∧ ∀ j u, SysStep t (.page 0 (.evictClean j 16384)) u → ¬W 0 := by
  have hex : (∀ e ∈ ((smallBoot smallFiles 32).proc 0).pages, e.va ≠ 16384) ∧ ¬inExec ((smallBoot smallFiles 32).proc 0) 16384 := by
    decide +kernel
  obtain ⟨hnone, hexec⟩ := hex
  have hrun : (sysSbrk (smallBoot smallFiles 32).m ((smallBoot smallFiles 32).proc 0) (wrap32 4096) false).toOption.any (fun r =>
      (replay ((smallBoot smallFiles 32).put 0 r.1 r.2.1) writeHeap).any (fun t => (t.proc 0).live)) = true := by
    decide +kernel
  obtain ⟨⟨m, p, r⟩, hsbrk, hx⟩ := ok_of_any hrun
  obtain ⟨t, ht, hl⟩ := (Option.any_eq_true _ _).mp hx
  have h0 : EveryLive (WriteTracked 16384) (smallBoot smallFiles 32) := by
    intro k hk e he hva
    obtain rfl := smallBoot_init.live_unique smallBoot_live hk
    exact absurd hva (hnone e he)
  obtain ⟨hgrow, himg⟩ := sbrk_writeStep 16384 (by decide) smallBoot_live (by decide) hsbrk (fun _ => False)
  obtain ⟨evs, W, hr⟩ := replay_follow (writeStep_follows (mt himg.mp hexec)) (SameImage.refl _) rfl ht (fun _ => False)
  have hall := (Run.single hgrow).append hr
  exact ⟨t, _, W, hall, writes_tracked (Reach.of_init smallBoot_init) (by decide) h0 hall (of_decide_eq_true hl)⟩

/-- The first process can store to its stack page unseen as soon as it runs. -/
theorem stack_writes_unseen : ¬∀ t, Reach Boot Step t → ∀ i, (t.proc i).live → ∀ va, WriteTracked va (t.proc i) := by
  intro h
  have hex : (((smallBoot smallFiles 32).proc 0).pages[0]?).any (fun e =>
      e.state = .resident ∧ e.isDirty = false ∧
        (((smallBoot smallFiles 32).proc 0).pagetable.leaf (e.va / 4096)).any (fun pte => pte.perm.w)) = true := by
    decide +kernel
  obtain ⟨e, he, hex⟩ := (Option.any_eq_true _ _).mp hex
  obtain ⟨hr, hclean, hleaf⟩ := of_decide_eq_true hex
  obtain ⟨pte, hpte, hw⟩ := (Option.any_eq_true _ _).mp hleaf
  have hdirty := h _ (Reach.of_init smallBoot_init) 0 smallBoot_live e.va e (List.mem_of_getElem? he) rfl hr pte hpte hw
  rw [hclean] at hdirty
  nomatch hdirty

end Xv6SnifferBakery.Kernel
