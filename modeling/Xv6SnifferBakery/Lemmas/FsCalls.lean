import Xv6SnifferBakery.Lemmas.FsEvents

/-!
# Calls are runs of file system events

Every call on the file system, with the references it is given and those it returns. The guard on the events says which inodes a
call may open, which it may write or truncate, and which files it may share or close; the calls that only look names up, or change
directories, need nothing of it.
-/

namespace Xv6SnifferBakery.Kernel

open Lib

/-- The events that open, write, take and close nothing but what is allowed. -/
def Within (opens writes files : Nat → Prop) : FsEvent → Prop
  | .install f i => opens i ∧ files f
  | .trunc i | .write i => writes i
  | .reserve f | .share f | .close f => files f
  | _ => True

/-- A run of events that all meet `G`. -/
def FsRun (G : FsEvent → Prop) (x y : Refs) : Prop := ∃ evs, Run (Guarded (fun _ ev => G ev) FsStep) x evs y

section Runs

variable {G G' : FsEvent → Prop} {x y z : Refs} {ev : FsEvent}

theorem FsRun.refl (G : FsEvent → Prop) (x : Refs) : FsRun G x x := ⟨[], Run.nil x⟩

theorem FsRun.snoc (h : FsRun G x y) (hs : FsStep y ev z) (hG : G ev) : FsRun G x z := by
  obtain ⟨evs, hr⟩ := h
  exact ⟨_, hr.snoc ⟨hG, hs⟩⟩

theorem FsRun.single (hs : FsStep x ev y) (hG : G ev) : FsRun G x y := (FsRun.refl G x).snoc hs hG

theorem FsRun.trans (h : FsRun G x y) (h' : FsRun G y z) : FsRun G x z := by
  obtain ⟨evs, hr⟩ := h
  obtain ⟨evs', hr'⟩ := h'
  exact ⟨_, hr.append hr'⟩

theorem FsRun.mono (h : FsRun G x y) (hG : ∀ ev, G ev → G' ev) : FsRun G' x y := by
  obtain ⟨evs, hr⟩ := h
  exact ⟨evs, hr.mono (fun _ ev _ hs => ⟨hG ev hs.1, hs.2⟩)⟩

/-- A property that every event allowed keeps holds at the end. -/
theorem FsRun.invariant (P : Refs → Prop) (hstep : ∀ x ev y, P x → G ev → FsStep x ev y → P y) (h : FsRun G x y) (hx : P x) : P y := by
  obtain ⟨evs, hr⟩ := h
  exact hr.invariant P (fun a ev b ha hs => hstep a ev b ha hs.1 hs.2) hx

/-- The references at the end, written another way. -/
theorem FsRun.to {fs : Fs} {r r' q q' : Multiset Nat} (h : FsRun G x ⟨fs, r, q⟩) (hr : r = r') (hq : q = q') : FsRun G x ⟨fs, r', q'⟩ := by
  rw [← hr, ← hq]
  exact h

/-- The references at the start, written another way. -/
theorem FsRun.of {fs : Fs} {r r' q q' : Multiset Nat} (h : FsRun G ⟨fs, r, q⟩ y) (hr : r = r') (hq : q = q') : FsRun G ⟨fs, r', q'⟩ y := by
  rw [← hr, ← hq]
  exact h

end Runs

variable {fs fs' : Fs} {r q : Multiset Nat} {O W F : Nat → Prop} {cwd dp ip : Nat} {name : Name} {path : List Char}

/-! ## Directories -/

theorem dirlookup_cases {o : Option (Nat × Nat)} (h : dirlookup fs dp name = .ok (fs', o)) : (fs.inode dp).type = .dir ∧
    ((o = none ∧ fs' = fs) ∨ ∃ i k, o = some (i, k) ∧ iget fs i = .ok fs') := by
  unfold dirlookup at h
  split at h
  · nomatch h
  rename_i hdir
  refine ⟨not_not.mp hdir, ?_⟩
  split at h
  · obtain ⟨rfl, rfl⟩ := Prod.mk.inj (Except.ok.inj h)
    exact Or.inl ⟨rfl, rfl⟩
  · obtain ⟨fs₁, hg, h⟩ := bind_ok h
    obtain ⟨rfl, rfl⟩ := Prod.mk.inj (Except.ok.inj h)
    exact Or.inr ⟨_, _, rfl, hg⟩

theorem dirlookup_run {o : Option (Nat × Nat)} (h : dirlookup fs dp name = .ok (fs', o)) :
    FsRun (Within O W F) ⟨fs, r, q⟩ ⟨fs', slot (o.map (·.1)) + r, q⟩ := by
  obtain ⟨-, ⟨rfl, rfl⟩ | ⟨i, k, rfl, hg⟩⟩ := dirlookup_cases h
  · exact (FsRun.refl _ _).to (zero_add r).symm rfl
  · exact FsRun.single (.get hg) trivial

/-- `dirlink` finds the name, or writes the entry. -/
theorem dirlink_cases {inum : Nat} {b : Bool} (h : dirlink fs dp name inum = .ok (fs', b)) : (fs.inode dp).type = .dir ∧
    ((b = false ∧ ∃ i fs₁, iget fs i = .ok fs₁ ∧ fs' = iput fs₁ i) ∨ ∃ k de, writeDirent fs dp k de = .ok (fs', b)) := by
  obtain ⟨⟨fs₁, o⟩, hl, hw⟩ := bind_ok h
  clear h
  obtain ⟨hdir, ⟨rfl, rfl⟩ | ⟨i, k, rfl, hg⟩⟩ := dirlookup_cases hl
  · exact ⟨hdir, Or.inr ⟨_, _, hw⟩⟩
  · obtain ⟨rfl, rfl⟩ := Prod.mk.inj (Except.ok.inj hw)
    exact ⟨hdir, Or.inl ⟨rfl, i, fs₁, hg, rfl⟩⟩

theorem dirlink_run {inum : Nat} {b : Bool} (h : dirlink fs dp name inum = .ok (fs', b)) :
    FsRun (Within O W F) ⟨fs, r, q⟩ ⟨fs', r, q⟩ := by
  obtain ⟨hdir, ⟨-, i, fs₁, hg, rfl⟩ | ⟨k, de, hw⟩⟩ := dirlink_cases h
  · exact (FsRun.single (.get hg) trivial).snoc .put trivial
  · exact FsRun.single (.entry hdir hw) trivial

/-! ## Paths -/

/-- The loop of `namex` gives the reference it holds for the one it returns. -/
theorem namexLoop_run {parent : Bool} {n : Nat} {last : Name} {o : Option (Nat × Name)}
    (h : namexLoop parent n fs ip path last = .ok (fs', o)) :
    FsRun (Within O W F) ⟨fs, {ip} + r, q⟩ ⟨fs', slot (o.map (·.1)) + r, q⟩ := by
  have hput : ∀ fs₁ : Fs, FsRun (Within O W F) ⟨fs₁, {ip} + r, q⟩ ⟨iput fs₁ ip, slot none + r, q⟩ := by
    intro fs₁
    exact (FsRun.single .put trivial).to (zero_add r).symm rfl
  induction n generalizing fs ip path last with
  | zero =>
    obtain ⟨rfl, rfl⟩ := Prod.mk.inj (Except.ok.inj h)
    exact hput fs
  | succ n ih =>
    rw [namexLoop] at h
    split at h
    · split at h
      · obtain ⟨rfl, rfl⟩ := Prod.mk.inj (Except.ok.inj h)
        exact hput fs
      · obtain ⟨rfl, rfl⟩ := Prod.mk.inj (Except.ok.inj h)
        exact FsRun.refl _ _
    · obtain ⟨fs₁, hl, h⟩ := bind_ok h
      have hlock : FsRun (Within O W F) ⟨fs, {ip} + r, q⟩ ⟨fs₁, {ip} + r, q⟩ := FsRun.single (.lock hl) trivial
      split at h
      · obtain ⟨rfl, rfl⟩ := Prod.mk.inj (Except.ok.inj h)
        exact hlock.trans (hput fs₁)
      split at h
      · obtain ⟨rfl, rfl⟩ := Prod.mk.inj (Except.ok.inj h)
        exact hlock
      · obtain ⟨⟨fs₂, o₂⟩, hd, h⟩ := bind_ok h
        have hlook := hlock.trans (dirlookup_run (r := {ip} + r) (q := q) hd)
        cases o₂ with
        | none =>
          obtain ⟨rfl, rfl⟩ := Prod.mk.inj (Except.ok.inj h)
          exact (hlook.to (zero_add _) rfl).trans (hput fs₂)
        | some x =>
          obtain ⟨next, k⟩ := x
          -- the directory is given up, and the walk goes on with the next inode
          have hnext : FsRun (Within O W F) ⟨fs, {ip} + r, q⟩ ⟨iput fs₂ ip, {next} + r, q⟩ := by
            refine (hlook.to ?_ rfl).snoc (.put (i := ip)) trivial
            change {next} + ({ip} + r) = {ip} + ({next} + r)
            abel
          refine hnext.trans (ih h ?_)
          intro fs₃
          exact (FsRun.single .put trivial).to (zero_add r).symm rfl

theorem namex_run {parent : Bool} {o : Option (Nat × Name)} (h : namex fs cwd path parent = .ok (fs', o)) :
    FsRun (Within O W F) ⟨fs, r, q⟩ ⟨fs', slot (o.map (·.1)) + r, q⟩ := by
  unfold namex at h
  split at h
  · obtain ⟨fs₁, hg, h⟩ := bind_ok h
    exact (FsRun.single (.get hg) trivial).trans (namexLoop_run h)
  · exact (FsRun.single (.dup cwd) trivial).trans (namexLoop_run h)

theorem namei_run {o : Option Nat} (h : namei fs cwd path = .ok (fs', o)) :
    FsRun (Within O W F) ⟨fs, r, q⟩ ⟨fs', slot o + r, q⟩ := by
  obtain ⟨⟨fs₁, o₁⟩, hn, h⟩ := bind_ok h
  obtain ⟨rfl, rfl⟩ := Prod.mk.inj (Except.ok.inj h)
  exact namex_run hn

theorem nameiparent_run {o : Option (Nat × Name)} (h : nameiparent fs cwd path = .ok (fs', o)) :
    FsRun (Within O W F) ⟨fs, r, q⟩ ⟨fs', slot (o.map (·.1)) + r, q⟩ := namex_run h

/-! ## Creating -/

/-- A new link count. -/
theorem keepsContent_nlink (g : Inode → Int) : Inode.KeepsContent (fun ip => { ip with nlink := g ip }) :=
  fun _ => ⟨rfl, rfl, rfl, rfl, rfl⟩

theorem createFail_run : FsRun (Within O W F) ⟨fs, {ip} + ({dp} + r), q⟩ ⟨createFail fs dp ip, r, q⟩ := by
  have hnode : FsRun (Within O W F) ⟨fs, {ip} + ({dp} + r), q⟩ ⟨fs.modInode ip (fun x => { x with nlink := 0 }), {ip} + ({dp} + r), q⟩ :=
    FsRun.single (.node ip (keepsContent_nlink (fun _ => 0))) trivial
  exact (hnode.snoc .put trivial).snoc .put trivial

/-- `createLink` gives the directory up, and returns the inode or gives it up too. -/
theorem createLink_run {type : FileType} {major minor : Int} {o : Option Nat} (h : createLink fs dp ip name type major minor = .ok (fs', o)) :
    FsRun (Within O W F) ⟨fs, {ip} + ({dp} + r), q⟩ ⟨fs', slot o + r, q⟩ := by
  obtain ⟨fs₁, hl, h⟩ := bind_ok h
  dsimp only at h
  generalize hfs₂ : fs₁.modInode ip (fun x => { x with major := wrap16 major, minor := wrap16 minor, nlink := 1 }) = fs₂ at h
  have hinit : FsRun (Within O W F) ⟨fs, {ip} + ({dp} + r), q⟩ ⟨fs₂, {ip} + ({dp} + r), q⟩ := by
    rw [← hfs₂]
    exact (FsRun.single (.lock hl) trivial).snoc (.node ip (fun _ => ⟨rfl, rfl, rfl, rfl, rfl⟩)) trivial
  have hend : ∀ fs₃ : Fs, FsRun (Within O W F) ⟨fs, {ip} + ({dp} + r), q⟩ ⟨fs₃, {ip} + ({dp} + r), q⟩ →
      (createFail fs₃ dp ip, none) = (fs', o) → FsRun (Within O W F) ⟨fs, {ip} + ({dp} + r), q⟩ ⟨fs', slot o + r, q⟩ := by
    intro fs₃ hrun he
    obtain ⟨rfl, rfl⟩ := Prod.mk.inj he
    exact (hrun.trans createFail_run).to (zero_add r).symm rfl
  have hdone : ∀ fs₃ : Fs, FsRun (Within O W F) ⟨fs, {ip} + ({dp} + r), q⟩ ⟨fs₃, {ip} + ({dp} + r), q⟩ →
      (iput fs₃ dp, some ip) = (fs', o) → FsRun (Within O W F) ⟨fs, {ip} + ({dp} + r), q⟩ ⟨fs', slot o + r, q⟩ := by
    intro fs₃ hrun he
    obtain ⟨rfl, rfl⟩ := Prod.mk.inj he
    refine (hrun.to ?_ rfl).snoc (.put (i := dp)) trivial
    change {ip} + ({dp} + r) = {dp} + ({ip} + r)
    abel
  split at h
  · obtain ⟨⟨fs₃, b₃⟩, h₃, h⟩ := bind_ok h
    have hrun₃ := hinit.trans (dirlink_run h₃)
    cases b₃ with
    | false => exact hend _ hrun₃ (Except.ok.inj h)
    | true =>
      obtain ⟨⟨fs₄, b₄⟩, h₄, h⟩ := bind_ok h
      have hrun₄ := hrun₃.trans (dirlink_run h₄)
      cases b₄ with
      | false => exact hend _ hrun₄ (Except.ok.inj h)
      | true =>
        obtain ⟨⟨fs₅, b₅⟩, h₅, h⟩ := bind_ok h
        have hrun₅ := hrun₄.trans (dirlink_run h₅)
        cases b₅ with
        | false => exact hend _ hrun₅ (Except.ok.inj h)
        | true =>
          have hnode := hrun₅.snoc (.node dp (keepsContent_nlink (fun x => wrap16 (x.nlink + 1)))) trivial
          exact hdone _ hnode (Except.ok.inj h)
  · obtain ⟨⟨fs₃, b₃⟩, h₃, h⟩ := bind_ok h
    have hrun₃ := hinit.trans (dirlink_run h₃)
    cases b₃ with
    | false => exact hend _ hrun₃ (Except.ok.inj h)
    | true => exact hdone _ hrun₃ (Except.ok.inj h)

theorem firstFree_some {i n j : Nat} (h : firstFree fs i n = some j) : (fs.inode j).type = .free := by
  induction n generalizing i with
  | zero => nomatch h
  | succ n ih =>
    rw [firstFree] at h
    split at h
    · rename_i hf
      rwa [← Option.some.inj h]
    · exact ih h

/-- `ialloc` takes a free inode. -/
theorem ialloc_cases {type : FileType} {o : Option Nat} (h : ialloc fs type = .ok (fs', o)) :
    (o = none ∧ fs' = fs) ∨ ∃ i, o = some i ∧ (fs.inode i).type = .free ∧ iget (fs.setInode i (Inode.empty type)) i = .ok fs' := by
  unfold ialloc at h
  split at h
  · obtain ⟨rfl, rfl⟩ := Prod.mk.inj (Except.ok.inj h)
    exact Or.inl ⟨rfl, rfl⟩
  · rename_i i hi
    obtain ⟨fs₁, hg, h⟩ := bind_ok h
    obtain ⟨rfl, rfl⟩ := Prod.mk.inj (Except.ok.inj h)
    exact Or.inr ⟨i, rfl, firstFree_some hi, hg⟩

/-- `create` finds the name, or makes an inode for it, in the directory `dp` it comes to. -/
theorem create_cases {type : FileType} {major minor : Int} {o : Option Nat} (h : create fs cwd path type major minor = .ok (fs', o)) :
    (∃ fs₁, nameiparent fs cwd path = .ok (fs₁, none) ∧ fs' = fs₁ ∧ o = none) ∨
    ∃ fs₁ fs₂ dp name, nameiparent fs cwd path = .ok (fs₁, some (dp, name)) ∧ ilock fs₁ dp = .ok fs₂ ∧
      ((∃ ip k fs₃ fs₄, dirlookup fs₂ dp name = .ok (fs₃, some (ip, k)) ∧ ilock (iput fs₃ dp) ip = .ok fs₄ ∧
          ((fs' = fs₄ ∧ o = some ip ∧ ((fs₄.inode ip).type = .file ∨ (fs₄.inode ip).type = .device)) ∨ (fs' = iput fs₄ ip ∧ o = none))) ∨
        dirlookup fs₂ dp name = .ok (fs₂, none) ∧ ((ialloc fs₂ type = .ok (fs₂, none) ∧ fs' = iput fs₂ dp ∧ o = none) ∨
          ∃ ip fs₃, (fs₂.inode ip).type = .free ∧ (fs₂.inode dp).type = .dir ∧ iget (fs₂.setInode ip (Inode.empty type)) ip = .ok fs₃ ∧
            createLink fs₃ dp ip name type major minor = .ok (fs', o))) := by
  obtain ⟨⟨fs₁, o₁⟩, hn, h⟩ := bind_ok h
  cases o₁ with
  | none =>
    obtain ⟨rfl, rfl⟩ := Prod.mk.inj (Except.ok.inj h)
    exact Or.inl ⟨_, hn, rfl, rfl⟩
  | some x =>
    obtain ⟨dp, name⟩ := x
    obtain ⟨fs₂, hl, h⟩ := bind_ok h
    refine Or.inr ⟨fs₁, fs₂, dp, name, hn, hl, ?_⟩
    obtain ⟨⟨fs₃, o₃⟩, hd, h₃⟩ := bind_ok h
    clear h
    obtain ⟨hdir, ⟨rfl, rfl⟩ | ⟨ip, k, rfl, hg⟩⟩ := dirlookup_cases hd
    · obtain ⟨⟨fs₄, o₄⟩, ha, h⟩ := bind_ok h₃
      clear h₃
      rcases ialloc_cases ha with ⟨rfl, rfl⟩ | ⟨ip, rfl, hfree, hg⟩
      · obtain ⟨rfl, rfl⟩ := Prod.mk.inj (Except.ok.inj h)
        exact Or.inr ⟨hd, Or.inl ⟨ha, rfl, rfl⟩⟩
      · exact Or.inr ⟨hd, Or.inr ⟨ip, fs₄, hfree, hdir, hg, h⟩⟩
    · obtain ⟨fs₄, hl', h⟩ := bind_ok h₃
      refine Or.inl ⟨ip, k, fs₃, fs₄, hd, hl', ?_⟩
      split at h
      · rename_i hc
        obtain ⟨rfl, rfl⟩ := Prod.mk.inj (Except.ok.inj h)
        exact Or.inl ⟨rfl, rfl, hc.2⟩
      · obtain ⟨rfl, rfl⟩ := Prod.mk.inj (Except.ok.inj h)
        exact Or.inr ⟨rfl, rfl⟩

theorem create_run {type : FileType} {major minor : Int} {o : Option Nat} (htype : type ≠ .free)
    (h : create fs cwd path type major minor = .ok (fs', o)) : FsRun (Within O W F) ⟨fs, r, q⟩ ⟨fs', slot o + r, q⟩ := by
  rcases create_cases h with ⟨fs₁, hn, rfl, rfl⟩ | ⟨fs₁, fs₂, dp, name, hn, hl, hc⟩
  · exact nameiparent_run hn
  have hdir : FsRun (Within O W F) ⟨fs, r, q⟩ ⟨fs₂, {dp} + r, q⟩ := (nameiparent_run hn).snoc (.lock hl) trivial
  rcases hc with ⟨ip, k, fs₃, fs₄, hd, hl', hend⟩ | ⟨hd, ⟨-, rfl, rfl⟩ | ⟨ip, fs₃, hfree, -, hg, hlink⟩⟩
  · have hlook : FsRun (Within O W F) ⟨fs, r, q⟩ ⟨iput fs₃ dp, {ip} + r, q⟩ := by
      refine ((hdir.trans (dirlookup_run hd)).to ?_ rfl).snoc (.put (i := dp)) trivial
      change {ip} + ({dp} + r) = {dp} + ({ip} + r)
      abel
    have hlock := hlook.snoc (.lock hl') trivial
    rcases hend with ⟨rfl, rfl, -⟩ | ⟨rfl, rfl⟩
    · exact hlock
    · exact (hlock.snoc .put trivial).to (zero_add r).symm rfl
  · exact (hdir.snoc .put trivial).to (zero_add r).symm rfl
  · exact (hdir.snoc (.alloc hfree htype hg) trivial).trans (createLink_run hlink)

/-! ## Linking and unlinking -/

theorem linkBad_run {b : Bool} (h : linkBad fs ip = .ok (fs', b)) : FsRun (Within O W F) ⟨fs, {ip} + r, q⟩ ⟨fs', r, q⟩ := by
  obtain ⟨fs₁, hl, h⟩ := bind_ok h
  obtain ⟨rfl, rfl⟩ := Prod.mk.inj (Except.ok.inj h)
  have hlock : FsRun (Within O W F) ⟨fs, {ip} + r, q⟩ ⟨fs₁, {ip} + r, q⟩ := FsRun.single (.lock hl) trivial
  exact (hlock.snoc (.node ip (keepsContent_nlink (fun x => wrap16 (x.nlink - 1)))) trivial).snoc .put trivial

theorem sysLink_run {new : List Char} {b : Bool} (h : sysLink fs cwd path new = .ok (fs', b)) :
    FsRun (Within O W F) ⟨fs, r, q⟩ ⟨fs', r, q⟩ := by
  obtain ⟨⟨fs₁, o₁⟩, hn, h⟩ := bind_ok h
  have hname := namei_run (O := O) (W := W) (F := F) (r := r) (q := q) hn
  cases o₁ with
  | none =>
    obtain ⟨rfl, rfl⟩ := Prod.mk.inj (Except.ok.inj h)
    exact hname.to (zero_add r) rfl
  | some ip =>
    obtain ⟨fs₂, hl, h⟩ := bind_ok h
    have hlock := hname.snoc (.lock hl) trivial
    dsimp only at h
    split at h
    · obtain ⟨rfl, rfl⟩ := Prod.mk.inj (Except.ok.inj h)
      exact hlock.snoc .put trivial
    · obtain ⟨⟨fs₃, o₃⟩, hp, h⟩ := bind_ok h
      have hnode := hlock.snoc (.node ip (keepsContent_nlink (fun x => wrap16 (x.nlink + 1)))) trivial
      have hparent := hnode.trans (nameiparent_run hp)
      cases o₃ with
      | none => exact (hparent.to (zero_add _) rfl).trans (linkBad_run h)
      | some x =>
        obtain ⟨dp, name⟩ := x
        obtain ⟨fs₄, hl', h⟩ := bind_ok h
        have hlock' := hparent.snoc (.lock hl') trivial
        obtain ⟨⟨fs₅, b₅⟩, hd, h⟩ := bind_ok h
        have hput : FsRun (Within O W F) ⟨fs, r, q⟩ ⟨iput fs₅ dp, {ip} + r, q⟩ :=
          (hlock'.trans (dirlink_run hd)).snoc .put trivial
        cases b₅ with
        | false => exact hput.trans (linkBad_run h)
        | true =>
          obtain ⟨rfl, rfl⟩ := Prod.mk.inj (Except.ok.inj h)
          exact hput.snoc .put trivial

theorem unlinkEntry_run {k : Nat} {b : Bool} (hdir : (fs.inode dp).type = .dir) (h : unlinkEntry fs dp ip k = .ok (fs', b)) :
    FsRun (Within O W F) ⟨fs, {ip} + ({dp} + r), q⟩ ⟨fs', r, q⟩ := by
  obtain ⟨⟨fs₁, b₁⟩, hw, h⟩ := bind_ok h
  have hentry : FsRun (Within O W F) ⟨fs, {ip} + ({dp} + r), q⟩ ⟨fs₁, {ip} + ({dp} + r), q⟩ := FsRun.single (.entry hdir hw) trivial
  cases b₁ with
  | false => nomatch h
  | true =>
    obtain ⟨rfl, rfl⟩ := Prod.mk.inj (Except.ok.inj h)
    have hput : ∀ fs₂ : Fs, FsRun (Within O W F) ⟨fs, {ip} + ({dp} + r), q⟩ ⟨fs₂, {ip} + ({dp} + r), q⟩ →
        FsRun (Within O W F) ⟨fs, {ip} + ({dp} + r), q⟩
          ⟨iput ((iput fs₂ dp).modInode ip (fun x => { x with nlink := wrap16 (x.nlink - 1) })) ip, r, q⟩ := by
      intro fs₂ hrun
      have hdp : FsRun (Within O W F) ⟨fs, {ip} + ({dp} + r), q⟩ ⟨iput fs₂ dp, {ip} + r, q⟩ := by
        refine (hrun.to ?_ rfl).snoc (.put (i := dp)) trivial
        abel
      exact (hdp.snoc (.node ip (keepsContent_nlink (fun x => wrap16 (x.nlink - 1)))) trivial).snoc .put trivial
    split
    · exact hput _ (hentry.snoc (.node dp (keepsContent_nlink (fun x => wrap16 (x.nlink - 1)))) trivial)
    · exact hput _ hentry

theorem sysUnlink_run {b : Bool} (h : sysUnlink fs cwd path = .ok (fs', b)) : FsRun (Within O W F) ⟨fs, r, q⟩ ⟨fs', r, q⟩ := by
  obtain ⟨⟨fs₁, o₁⟩, hn, h⟩ := bind_ok h
  have hname := nameiparent_run (O := O) (W := W) (F := F) (r := r) (q := q) hn
  cases o₁ with
  | none =>
    obtain ⟨rfl, rfl⟩ := Prod.mk.inj (Except.ok.inj h)
    exact hname.to (zero_add r) rfl
  | some x =>
    obtain ⟨dp, name⟩ := x
    obtain ⟨fs₂, hl, h⟩ := bind_ok h
    have hlock : FsRun (Within O W F) ⟨fs, r, q⟩ ⟨fs₂, {dp} + r, q⟩ := hname.snoc (.lock hl) trivial
    split at h
    · obtain ⟨rfl, rfl⟩ := Prod.mk.inj (Except.ok.inj h)
      exact hlock.snoc .put trivial
    · obtain ⟨⟨fs₃, o₃⟩, hd, h⟩ := bind_ok h
      have hlook := hlock.trans (dirlookup_run hd)
      obtain ⟨hdir, hd⟩ := dirlookup_cases hd
      cases o₃ with
      | none =>
        obtain ⟨rfl, rfl⟩ := Prod.mk.inj (Except.ok.inj h)
        exact (hlook.to (zero_add _) rfl).snoc .put trivial
      | some x =>
        obtain ⟨ip, k⟩ := x
        obtain ⟨fs₄, hl', h⟩ := bind_ok h
        have hlock' : FsRun (Within O W F) ⟨fs, r, q⟩ ⟨fs₄, {ip} + ({dp} + r), q⟩ := hlook.snoc (.lock hl') trivial
        split at h
        · nomatch h
        split at h
        · obtain ⟨rfl, rfl⟩ := Prod.mk.inj (Except.ok.inj h)
          exact (hlock'.snoc .put trivial).snoc .put trivial
        · refine hlock'.trans (unlinkEntry_run ?_ h)
          obtain ⟨hn, -⟩ | ⟨i, k', -, hg⟩ := hd
          · nomatch hn
          · rw [(ilock_ok hl').2.1, (iget_ok hg).2.1]
            exact hdir

/-! ## What a run without files leaves -/

/-- The calls on names alone do not touch `ftable`. -/
theorem FsRun.ftable {x y : Refs} (h : FsRun (Within O W (fun _ => False)) x y) : y.fs.ftable = x.fs.ftable := by
  refine h.invariant (fun z => z.fs.ftable = x.fs.ftable) ?_ rfl
  intro a ev b ha hG hs
  refine Eq.trans ?_ ha
  cases hs with
  | get h => exact (iget_ok h).2.2.1
  | dup => rfl
  | put => exact iput_ftable _ _
  | lock h => exact (ilock_ok h).2.2.1
  | alloc _ _ h => exact (iget_ok h).2.2.1
  | node => rfl
  | entry _ h => exact (writeDirent_edits h).ftable
  | trunc i => exact (itrunc_edits _ i).ftable
  | write h => exact (writei_edits h).ftable
  | reserve => exact hG.elim
  | install => exact hG.2.elim
  | share => exact hG.elim
  | close => exact hG.elim

/-- An inode that `createLink` returns has been read, and keeps its type. -/
theorem createLink_some {type : FileType} {major minor : Int} {i : Nat} (hne : ip ≠ dp)
    (h : createLink fs dp ip name type major minor = .ok (fs', some i)) :
    i = ip ∧ fs'.valid ip = true ∧ (fs'.inode ip).type = (fs.inode ip).type := by
  obtain ⟨fs₁, hl, h⟩ := bind_ok h
  obtain ⟨-, hino, -, hvalid, -⟩ := ilock_ok hl
  -- from here on the inode only gets links
  let Kept : Fs → Prop := fun g => g.valid ip = true ∧ (g.inode ip).type = (fs.inode ip).type
  have hlink : ∀ {g g' : Fs} {d n : Nat} {nm : Name}, Kept g → dirlink g d nm n = .ok (g', true) → Kept g' := by
    intro g g' d n nm hg hd
    obtain ⟨-, ⟨hb, -⟩ | ⟨k, de, hw⟩⟩ := dirlink_cases hd
    · nomatch hb
    · have hedit := writeDirent_edits hw
      exact ⟨by rw [hedit.valid]; exact hg.1, (hedit.types ip).trans hg.2⟩
  have hput : ∀ {g : Fs}, Kept g → Kept (iput g dp) := by
    intro g hg
    refine ⟨?_, ?_⟩
    · rw [iput_valid_of_ne g hne]
      exact hg.1
    · rw [iput_inode_of_ne g hne]
      exact hg.2
  have hnode : ∀ {g : Fs} {d : Nat} {f : Inode → Inode}, (∀ x, (f x).type = x.type) → Kept g → Kept (g.modInode d f) := by
    intro g d f hf hg
    exact ⟨hg.1, ((Fs.Edits.modInode g d (hf _)).types ip).trans hg.2⟩
  dsimp only at h
  have hinit : Kept (fs₁.modInode ip (fun x => { x with major := wrap16 major, minor := wrap16 minor, nlink := 1 })) :=
    hnode (fun _ => rfl) ⟨hvalid, by rw [hino]⟩
  split at h
  · obtain ⟨⟨fs₃, b₃⟩, h₃, h⟩ := bind_ok h
    cases b₃ with
    | false => nomatch h
    | true =>
      obtain ⟨⟨fs₄, b₄⟩, h₄, h⟩ := bind_ok h
      cases b₄ with
      | false => nomatch h
      | true =>
        obtain ⟨⟨fs₅, b₅⟩, h₅, h⟩ := bind_ok h
        cases b₅ with
        | false => nomatch h
        | true =>
          obtain ⟨rfl, hi⟩ := Prod.mk.inj (Except.ok.inj h)
          exact ⟨(Option.some.inj hi).symm, hput (hnode (fun _ => rfl) (hlink (hlink (hlink hinit h₃) h₄) h₅))⟩
  · obtain ⟨⟨fs₃, b₃⟩, h₃, h⟩ := bind_ok h
    cases b₃ with
    | false => nomatch h
    | true =>
      obtain ⟨rfl, hi⟩ := Prod.mk.inj (Except.ok.inj h)
      exact ⟨(Option.some.inj hi).symm, hput (hlink hinit h₃)⟩

/-- An inode that `create` returns has been read. -/
theorem create_valid {type : FileType} {major minor : Int}
    (h : create fs cwd path type major minor = .ok (fs', some ip)) : fs'.valid ip = true := by
  rcases create_cases h with ⟨fs₁, -, -, hn⟩ | ⟨fs₁, fs₂, dp, name, -, -, hc⟩
  · nomatch hn
  rcases hc with ⟨i, k, fs₃, fs₄, -, hl, hend⟩ | ⟨-, ⟨-, -, hn⟩ | ⟨i, fs₃, hfree, hdir, -, hlink⟩⟩
  · rcases hend with ⟨rfl, hi, -⟩ | ⟨-, hi⟩
    · obtain rfl := Option.some.inj hi
      exact (ilock_ok hl).2.2.2.1
    · nomatch hi
  · nomatch hn
  · have hne : i ≠ dp := by
      rintro rfl
      rw [hfree] at hdir
      nomatch hdir
    obtain ⟨rfl, hv, -⟩ := createLink_some hne hlink
    exact hv

/-- A file or a device has the path: what `create` would return instead of a new inode. -/
def nameTaken (fs : Fs) (cwd : Nat) (path : List Char) : Prop :=
  ∃ fs₁ dp name k, nameiparent fs cwd path = .ok (fs₁, some (dp, name)) ∧ entIndex (fs₁.inode dp).ents name = some k ∧
    ((fs₁.inode ((fs₁.inode dp).ents.getD k ⟨0, []⟩).inum).type = .file ∨
      (fs₁.inode ((fs₁.inode dp).ents.getD k ⟨0, []⟩).inum).type = .device)

/-- Where the path is not taken, the inode that `create` returns was free. -/
theorem create_new {type : FileType} {major minor : Int} (h : create fs cwd path type major minor = .ok (fs', some ip))
    (hn : ¬nameTaken fs cwd path) :
    ∃ fs₂ dp, FsRun (Within O W F) ⟨fs, r, q⟩ ⟨fs₂, {dp} + r, q⟩ ∧ (fs₂.inode ip).type = .free ∧ (fs'.inode ip).type = type := by
  rcases create_cases h with ⟨fs₁, -, -, ho⟩ | ⟨fs₁, fs₂, dp, name, hname, hl, hc⟩
  · nomatch ho
  have hdir : FsRun (Within O W F) ⟨fs, r, q⟩ ⟨fs₂, {dp} + r, q⟩ := (nameiparent_run hname).snoc (.lock hl) trivial
  obtain ⟨-, hino, -⟩ := ilock_ok hl
  rcases hc with ⟨i, k, fs₃, fs₄, hd, hl', hend⟩ | ⟨-, ⟨-, -, ho⟩ | ⟨i, fs₃, hfree, hisdir, hg, hlink⟩⟩
  · rcases hend with ⟨-, -, htype⟩ | ⟨-, ho⟩
    · -- the entry found is that of a file or a device
      refine absurd ?_ hn
      rw [(ilock_ok hl').2.1] at htype
      obtain ⟨hisdir, hfound⟩ := dirlookup_cases hd
      unfold dirlookup at hd
      rw [if_neg (not_not_intro hisdir), hino] at hd
      cases hk : entIndex (fs₁.inode dp).ents name with
      | none =>
        rw [hk] at hd
        nomatch hd
      | some j =>
        rw [hk] at hd
        obtain ⟨fs₅, hg, hd⟩ := bind_ok hd
        obtain ⟨rfl, hi⟩ := Prod.mk.inj (Except.ok.inj hd)
        obtain ⟨rfl, rfl⟩ := Prod.mk.inj (Option.some.inj hi)
        refine ⟨fs₁, dp, name, j, hname, hk, ?_⟩
        have hsame : (iput fs₅ dp).inode ((fs₁.inode dp).ents.getD j ⟨0, []⟩).inum =
            fs₁.inode ((fs₁.inode dp).ents.getD j ⟨0, []⟩).inum := by
          rw [iput_inode_of_ne, (iget_ok hg).2.1, hino]
          rintro heq
          rw [heq] at htype
          rcases iput_type fs₅ dp with hfree | hkept
          · rw [hfree] at htype
            rcases htype with ht | ht <;> nomatch ht
          · rw [hkept, (iget_ok hg).2.1, hisdir] at htype
            rcases htype with ht | ht <;> nomatch ht
        rwa [hsame] at htype
    · nomatch ho
  · nomatch ho
  · have hne : i ≠ dp := by
      rintro rfl
      rw [hfree] at hisdir
      nomatch hisdir
    obtain ⟨rfl, -, htype⟩ := createLink_some hne hlink
    refine ⟨fs₂, dp, hdir, hfree, ?_⟩
    rw [htype, (iget_ok hg).2.1, Fs.setInode_inode, if_pos rfl]
    rfl

end Xv6SnifferBakery.Kernel
