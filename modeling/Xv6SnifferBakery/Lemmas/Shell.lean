import Xv6SnifferBakery.User.Sh

/-!
# What the shell's parser does

First what holds of everything the parser returns: words of word characters, fewer than `MAXARGS` of them, and a place in the line. Then
what each function makes of the text of a command.
-/

namespace Xv6SnifferBakery.Shell

variable {n : Nat} {s t line : Ptr} {c d : Char} {w : Span} {toks : List Char}

/-! ## Tokens -/

theorem isWord_iff : isWord c = true ↔ isWhite c = false ∧ c ∉ symbols := by
  simp [isWord]

theorem white_not_symbol (h : c ∈ symbols) : isWhite c = false := by
  simp only [symbols, List.mem_cons, List.not_mem_nil, or_false] at h
  rcases h with rfl | rfl | rfl | rfl | rfl | rfl | rfl <;> decide

theorem symbol_not_word (h : c ∈ symbols) : isWord c = false := by
  simp [isWord, h]

theorem skip_suffix (s : Ptr) : skip s <:+ s := List.dropWhile_suffix _

theorem skip_of_head (h : ∀ c ∈ s.head?, isWhite c = false) : skip s = s := by
  cases s with
  | nil => rfl
  | cons c s => exact List.dropWhile_cons_of_neg (by simp [h c rfl])

theorem skip_head (h : (skip s).head? = some c) : isWhite c = false := by
  have := List.head?_dropWhile_not isWhite s
  rw [show (s.dropWhile isWhite).head? = some c from h] at this
  simpa using this

/-- The tokens, by the text they begin with. -/
inductive Tokens : Ptr → Token → Ptr → Prop where
  | eof : Tokens [] .eof []
  | append (s : Ptr) : Tokens ('>' :: '>' :: s) .append s
  | sym {c : Char} {s : Ptr} : c ∈ symbols → (c = '>' → s.head? ≠ some '>') → Tokens (c :: s) (.sym c) s
  | word {x s : Ptr} : x ≠ [] → (∀ c ∈ x, isWord c = true) → (∀ c ∈ s.head?, isWord c = false) → Tokens (x ++ s) .word s

theorem token_spec (h : ∀ c ∈ s.head?, isWhite c = false) : Tokens s (token s).1 (token s).2 := by
  unfold token
  split
  · exact .eof
  · exact .append _
  · rename_i c s hne
    split
    · rename_i hc
      refine .sym hc ?_
      rintro rfl hs
      obtain ⟨s', rfl⟩ := List.head?_eq_some_iff.mp hs
      exact hne s' rfl rfl
    · rename_i hc
      have hword : isWord c = true := isWord_iff.mpr ⟨h c rfl, hc⟩
      have hsplit := List.takeWhile_append_dropWhile (p := isWord) (l := c :: s)
      have hspec : Tokens ((c :: s).takeWhile isWord ++ (c :: s).dropWhile isWord) .word ((c :: s).dropWhile isWord) := by
        refine .word ?_ (fun d hd => List.all_eq_true.mp List.all_takeWhile d hd) ?_
        · simp [hword]
        · intro d hd
          have := List.head?_dropWhile_not isWord (c :: s)
          rw [show ((c :: s).dropWhile isWord).head? = some d from hd] at this
          simpa using this
      rwa [hsplit] at hspec

theorem gettoken_spec (s : Ptr) : Tokens (skip s) (gettoken s).1 (gettoken s).2.1.eq :=
  token_spec (fun _ hc => skip_head hc)

theorem Tokens.suffix {k : Token} (h : Tokens s k t) : t <:+ s := by
  cases h with
  | eof => exact List.suffix_refl _
  | append => exact ⟨['>', '>'], rfl⟩
  | sym => exact List.suffix_cons _ _
  | word => exact List.suffix_append _ _

theorem Tokens.length_lt {k : Token} (h : Tokens s k t) (hk : k ≠ .eof) : t.length < s.length := by
  cases h with
  | eof => exact absurd rfl hk
  | append => simp only [List.length_cons]; omega
  | sym => simp
  | word hx =>
    rw [List.length_append]
    have := List.length_pos_iff.mpr hx
    omega

theorem gettoken_suffix (s : Ptr) : (gettoken s).2.2 <:+ s :=
  (skip_suffix _).trans ((gettoken_spec s).suffix.trans (skip_suffix s))

theorem gettoken_shorter (h : (gettoken s).1 ≠ .eof) : (gettoken s).2.2.length < s.length := by
  have h1 := (skip_suffix (gettoken s).2.1.eq).length_le
  have h2 := (gettoken_spec s).length_lt h
  have h3 := (skip_suffix s).length_le
  exact Nat.lt_of_le_of_lt h1 (Nat.lt_of_lt_of_le h2 h3)

/-- A token that `peek` has seen is there. -/
theorem peek_shorter (h : (peek s toks).1 = true) : (gettoken s).2.2.length < s.length := by
  refine gettoken_shorter (fun he => ?_)
  have hspec := gettoken_spec s
  rw [he] at hspec
  generalize (gettoken s).2.1.eq = t at hspec
  unfold peek at h
  cases hsk : skip s with
  | nil => simp [hsk] at h
  | cons c s' =>
    have hne : skip s ≠ [] := by
      rw [hsk]
      exact List.cons_ne_nil c s'
    generalize skip s = u at hspec hne
    cases hspec
    exact hne rfl

/-! ## What is accepted -/

/-- A word, where it is in the line. -/
def Span.Word (line : Ptr) (w : Span) : Prop :=
  w.q <:+ line ∧ ∃ x, w.q = x ++ w.eq ∧ x ≠ [] ∧ (∀ c ∈ x, isWord c = true) ∧ ∀ c ∈ w.eq.head?, isWord c = false

theorem gettoken_word (h : (gettoken s).1 = .word) (hs : s <:+ line) : (gettoken s).2.1.Word line := by
  have hspec := gettoken_spec s
  rw [h] at hspec
  refine ⟨(skip_suffix s).trans hs, ?_⟩
  change ∃ x, skip s = _ ∧ _
  generalize skip s = u at hspec
  cases hspec with
  | word hx hall hend => exact ⟨_, rfl, hx, hall, hend⟩

/-- A redirection of one of the three kinds. -/
def redirKind (mode fd : Nat) : Prop := ∃ k, redirOf k = some (mode, fd)

/-- A tree whose words are all of a kind, none of its commands with too many arguments. -/
def Cmd.All {α : Type} (p : α → Prop) : Cmd α → Prop
  | .exec argv => argv.length < maxArgs ∧ ∀ w ∈ argv, p w
  | .redir c file mode fd => c.All p ∧ p file ∧ redirKind mode fd
  | .pipe l r => l.All p ∧ r.All p
  | .list l r => l.All p ∧ r.All p
  | .back c => c.All p

def Redir.All {α : Type} (p : α → Prop) (r : Redir α) : Prop := p r.file ∧ redirKind r.mode r.fd

theorem Cmd.All.redirs {α : Type} {p : α → Prop} {c : Cmd α} {rs : List (Redir α)} (h : c.All p) (hrs : ∀ r ∈ rs, r.All p) :
    (c.redirs rs).All p := by
  induction rs generalizing c with
  | nil => exact h
  | cons r rs ih =>
    have hr := hrs r (List.mem_cons_self ..)
    exact ih ⟨h, hr⟩ (fun x hx => hrs x (List.mem_cons_of_mem _ hx))

/-- What a parsing function promises: what it returns and where it stops, and that it does not run out of depth when there is enough. -/
structure Post {β : Type} (enough : Prop) (s : Ptr) (p : β → Prop) (r : Except ParsePanic (β × Ptr)) : Prop where
  result : ∀ b t, r = .ok (b, t) → p b ∧ t <:+ s
  deep : enough → r ≠ .error .depth

namespace Post

variable {β γ : Type} {enough enough' : Prop} {p : β → Prop} {p' : γ → Prop}

theorem ok {b : β} (hb : p b) (ht : t <:+ s) : Post enough s p (.ok (b, t)) := by
  refine ⟨?_, fun _ h => by cases h⟩
  rintro b' t' h
  cases h
  exact ⟨hb, ht⟩

theorem error {e : ParsePanic} (he : e ≠ .depth) : Post enough s p (.error e) :=
  ⟨fun _ _ h => (by cases h), fun _ h => he (Except.error.inj h)⟩

theorem none (h : ¬enough) : Post enough s p (.error .depth) :=
  ⟨fun _ _ hr => (by cases hr), fun he => absurd he h⟩

theorem mono {r : Except ParsePanic (β × Ptr)} (h : Post enough' t p r) (ht : t <:+ s) (he : enough → enough') : Post enough s p r :=
  ⟨fun b u hr => ⟨(h.result b u hr).1, (h.result b u hr).2.trans ht⟩, fun hen => h.deep (he hen)⟩

theorem bind {x : Except ParsePanic (β × Ptr)} {f : β × Ptr → Except ParsePanic (γ × Ptr)} (hx : Post enough s p x)
    (hf : ∀ b t, p b → t <:+ s → Post enough s p' (f (b, t))) : Post enough s p' (x >>= f) := by
  refine ⟨?_, ?_⟩
  · intro c u h
    obtain ⟨⟨b, t⟩, hb, hc⟩ := Lib.bind_ok h
    obtain ⟨hp, ht⟩ := hx.result b t hb
    exact (hf b t hp ht).result c u hc
  · intro hen h
    rcases Lib.bind_error h with hx' | ⟨⟨b, t⟩, hb, hc⟩
    · exact hx.deep hen hx'
    · obtain ⟨hp, ht⟩ := hx.result b t hb
      exact (hf b t hp ht).deep hen hc

end Post

theorem parseredirs_post (hs : s <:+ line) : Post (s.length < n) s (fun rs => ∀ r ∈ rs, Redir.All (Span.Word line) r) (parseredirs n s) := by
  induction n generalizing s with
  | zero => exact .none (Nat.not_lt_zero _)
  | succ n ih =>
    unfold parseredirs
    split
    · rename_i hpeek
      have hshort := peek_shorter hpeek
      have hsuf := gettoken_suffix s
      simp only []
      split
      · rename_i hword
        have hfile := gettoken_word hword (hsuf.trans hs)
        have hsuf' := (gettoken_suffix (gettoken s).2.2).trans hsuf
        have hlen := (gettoken_suffix (gettoken s).2.2).length_le
        refine Post.bind ((ih (hsuf'.trans hs)).mono hsuf' (fun he => ?_)) ?_
        · omega
        · intro rs t hrs ht
          refine .ok ?_ ht
          cases hk : redirOf (gettoken s).1 with
          | none => exact hrs
          | some k =>
            intro r hr
            rcases List.mem_cons.mp hr with rfl | hr
            · exact ⟨hfile, _, hk⟩
            · exact hrs r hr
      · exact .error (by decide)
    · exact .ok (by simp) (skip_suffix s)

theorem parseargs_post {argv : List Span} (hs : s <:+ line) (hlen : argv.length < maxArgs) (hargv : ∀ w ∈ argv, w.Word line) :
    Post (s.length < n) s (fun b => (b.1.length < maxArgs ∧ ∀ w ∈ b.1, w.Word line) ∧ ∀ r ∈ b.2, Redir.All (Span.Word line) r)
      (parseargs n argv s) := by
  induction n generalizing s argv with
  | zero => exact .none (Nat.not_lt_zero _)
  | succ n ih =>
    unfold parseargs
    split
    · exact .ok ⟨⟨hlen, hargv⟩, by simp⟩ (skip_suffix s)
    · simp only []
      split
      · exact .ok ⟨⟨hlen, hargv⟩, by simp⟩ (gettoken_suffix s)
      · rename_i hword
        split
        · exact .error (by decide)
        · rename_i hroom
          have hshort := gettoken_shorter (s := s) (by rw [hword]; decide)
          have hsuf := gettoken_suffix s
          have hw := gettoken_word hword hs
          have hargs : (argv ++ [(gettoken s).2.1]).length < maxArgs := Nat.lt_of_not_le hroom
          have hwords : ∀ w ∈ argv ++ [(gettoken s).2.1], w.Word line := by
            intro w hm
            rcases List.mem_append.mp hm with hm | hm
            · exact hargv w hm
            · exact List.mem_singleton.mp hm ▸ hw
          refine Post.mono (Post.bind ((parseredirs_post (hsuf.trans hs)).mono (List.suffix_refl _) (fun he => ?_)) ?_) hsuf id
          · omega
          · intro rs t hrs ht
            have htl := ht.length_le
            refine Post.mono (Post.bind ((ih ((ht.trans hsuf).trans hs) hargs hwords).mono (List.suffix_refl _) (fun he => ?_)) ?_) ht id
            · omega
            · rintro ⟨ws, rs'⟩ u ⟨hws, hrs'⟩ hu
              refine .ok ⟨hws, ?_⟩ hu
              intro r hr
              rcases List.mem_append.mp hr with hr | hr
              · exact hrs r hr
              · exact hrs' r hr
      · exact .error (by decide)

theorem parseback_post {c : Cmd Span} (hc : c.All (Span.Word line)) :
    Post (s.length < n) s (Cmd.All (Span.Word line)) (parseback n c s) := by
  induction n generalizing s c with
  | zero => exact .none (Nat.not_lt_zero _)
  | succ n ih =>
    unfold parseback
    split
    · rename_i hpeek
      have hshort := peek_shorter hpeek
      exact (ih (c := .back c) hc).mono (gettoken_suffix s) (fun he => by omega)
    · exact .ok hc (skip_suffix s)

/-- The four functions that call each other: each needs its own depth above four times the length of what is left. -/
theorem parse_post (n : Nat) : ∀ s : Ptr, s <:+ line →
    Post (4 * s.length + 6 ≤ n) s (Cmd.All (Span.Word line)) (parseline n s) ∧
    Post (4 * s.length + 5 ≤ n) s (Cmd.All (Span.Word line)) (parsepipe n s) ∧
    Post (4 * s.length + 3 ≤ n) s (Cmd.All (Span.Word line)) (parseblock n s) ∧
    Post (4 * s.length + 4 ≤ n) s (Cmd.All (Span.Word line)) (parseexec n s) := by
  induction n with
  | zero =>
    intro s _
    exact ⟨.none (by omega), .none (by omega), .none (by omega), .none (by omega)⟩
  | succ n ih =>
    intro s hs
    obtain ⟨hline, hpipe, hblock, hexec⟩ := ih s hs
    have hnext : ∀ {t : Ptr} {toks : List Char}, t <:+ s → (peek t toks).1 = true →
        (gettoken t).2.2 <:+ t ∧ (gettoken t).2.2 <:+ line ∧ (gettoken t).2.2.length < s.length := by
      intro t toks ht hpeek
      have hsuf := gettoken_suffix t
      exact ⟨hsuf, (hsuf.trans ht).trans hs, Nat.lt_of_lt_of_le (peek_shorter hpeek) ht.length_le⟩
    refine ⟨?_, ?_, ?_, ?_⟩
    · unfold parseline
      refine Post.bind (hpipe.mono (List.suffix_refl _) (fun he => by omega)) ?_
      intro c t hc ht
      have htl := ht.length_le
      refine Post.mono (Post.bind ((parseback_post hc).mono (List.suffix_refl _) (fun he => by omega)) ?_) ht id
      intro c u hc hu
      have hus := hu.trans ht
      dsimp only
      split
      · rename_i hpeek
        obtain ⟨hsuf, hl, hshort⟩ := hnext hus hpeek
        refine Post.mono (Post.bind (((ih _ hl).1).mono (List.suffix_refl _) (fun he => by omega)) ?_) (hsuf.trans hu) id
        intro r v hr hv
        exact .ok ⟨hc, hr⟩ hv
      · exact .ok hc ((skip_suffix u).trans hu)
    · unfold parsepipe
      refine Post.bind (hexec.mono (List.suffix_refl _) (fun he => by omega)) ?_
      intro c t hc ht
      dsimp only
      split
      · rename_i hpeek
        obtain ⟨hsuf, hl, hshort⟩ := hnext ht hpeek
        refine Post.mono (Post.bind (((ih _ hl).2.1).mono (List.suffix_refl _) (fun he => by omega)) ?_) (hsuf.trans ht) id
        intro r v hr hv
        exact .ok ⟨hc, hr⟩ hv
      · exact .ok hc ((skip_suffix t).trans ht)
    · unfold parseblock
      split
      · rename_i hpeek
        obtain ⟨hsuf, hl, hshort⟩ := hnext (List.suffix_refl s) hpeek
        refine Post.mono (Post.bind (((ih _ hl).1).mono (List.suffix_refl _) (fun he => by omega)) ?_) hsuf id
        intro c t hc ht
        have hts := ht.trans hsuf
        dsimp only
        split
        · rename_i hclose
          obtain ⟨hsuf', hl', hshort'⟩ := hnext hts hclose
          refine Post.mono (Post.bind ((parseredirs_post hl').mono (List.suffix_refl _) (fun he => by omega)) ?_) (hsuf'.trans ht) id
          intro rs v hrs hv
          exact .ok (hc.redirs hrs) hv
        · exact .error (by decide)
      · exact .error (by decide)
    · unfold parseexec
      split
      · exact hblock.mono (List.suffix_refl _) (fun he => by omega)
      · refine Post.bind ((parseredirs_post hs).mono (List.suffix_refl _) (fun he => by omega)) ?_
        intro rs t hrs ht
        have htl := ht.length_le
        refine Post.mono (Post.bind ((parseargs_post (ht.trans hs) (by decide) (by simp)).mono (List.suffix_refl _)
          (fun he => by omega)) ?_) ht id
        rintro ⟨ws, rs'⟩ u ⟨hws, hrs'⟩ hu
        refine .ok ?_ hu
        have hexec : (Cmd.exec ws).All (Span.Word line) := hws
        refine hexec.redirs ?_
        intro r hr
        rcases List.mem_append.mp hr with hr | hr
        · exact hrs r hr
        · exact hrs' r hr

/-! ## The strings of the words -/

/-- The text of a word in the line. -/
def Span.text (w : Span) : List Char := w.q.take (w.q.length - w.eq.length)

theorem Span.Word.split (h : w.Word line) : w.q = w.text ++ w.eq ∧ w.text ≠ [] ∧ ∀ c ∈ w.text, isWord c = true := by
  obtain ⟨-, x, hq, hx, hall, -⟩ := h
  have htext : w.text = x := by
    rw [text, hq, List.length_append, Nat.add_sub_cancel, List.take_left]
  rw [htext]
  exact ⟨hq, hx, hall⟩

/-- The words of a tree. -/
def Cmd.words {α : Type} : Cmd α → List α
  | .exec argv => argv
  | .redir c f _ _ => c.words ++ [f]
  | .pipe l r => l.words ++ r.words
  | .list l r => l.words ++ r.words
  | .back c => c.words

theorem Cmd.ends_eq (c : Cmd Span) : c.ends = c.words.map Span.eq := by
  induction c with
  | exec => rfl
  | redir c f mode fd ih => simp [ends, words, ih]
  | pipe l r ihl ihr => simp [ends, words, ihl, ihr]
  | list l r ihl ihr => simp [ends, words, ihl, ihr]
  | back c ih => simp [ends, words, ih]

theorem Cmd.All.words {α : Type} {p : α → Prop} {c : Cmd α} (h : c.All p) : ∀ w ∈ c.words, p w := by
  induction c with
  | exec argv => exact h.2
  | redir c f mode fd ih =>
    intro w hw
    rcases List.mem_append.mp hw with hw | hw
    · exact ih h.1 w hw
    · exact List.mem_singleton.mp hw ▸ h.2.1
  | pipe l r ihl ihr | list l r ihl ihr =>
    intro w hw
    rcases List.mem_append.mp hw with hw | hw
    · exact ihl h.1 w hw
    · exact ihr h.2 w hw
  | back c ih => exact ih h

theorem Cmd.map_congr {α β : Type} {f g : α → β} {c : Cmd α} (h : ∀ w ∈ c.words, f w = g w) : c.map f = c.map g := by
  induction c with
  | exec argv => exact congrArg Cmd.exec (List.map_congr_left h)
  | redir c file mode fd ih =>
    rw [map, map, ih (fun w hw => h w (List.mem_append_left _ hw)), h file (List.mem_append_right _ (List.mem_singleton_self _))]
  | pipe l r ihl ihr | list l r ihl ihr =>
    rw [map, map, ihl (fun w hw => h w (List.mem_append_left _ hw)), ihr (fun w hw => h w (List.mem_append_right _ hw))]
  | back c ih => rw [map, map, ih h]

theorem Cmd.All.map {α β : Type} {p : α → Prop} {q : β → Prop} {f : α → β} {c : Cmd α} (h : c.All p) (hf : ∀ w, p w → q (f w)) :
    (c.map f).All q := by
  induction c with
  | exec argv =>
    refine ⟨by simpa [Cmd.map] using h.1, ?_⟩
    intro x hx
    obtain ⟨w, hw, rfl⟩ := List.mem_map.mp hx
    exact hf w (h.2 w hw)
  | redir c file mode fd ih => exact ⟨ih h.1, hf file h.2.1, h.2.2⟩
  | pipe l r ihl ihr | list l r ihl ihr => exact ⟨ihl h.1, ihr h.2⟩
  | back c ih => exact ih h

/-- What lies at a pointer into the line. -/
theorem suffix_getElem? {q : Ptr} (h : q <:+ line) (i : Nat) : (line)[line.length - q.length + i]? = q[i]? := by
  obtain ⟨pre, rfl⟩ := h
  rw [List.length_append, Nat.add_sub_cancel, List.getElem?_append_right (Nat.le_add_right _ _), Nat.add_sub_cancel_left]

theorem putNul_getElem? (len : Nat) (es : List Ptr) (buf : List Char) (i : Nat) :
    (es.foldl (putNul len) buf)[i]? = if ∃ e ∈ es, len - e.length = i then buf[i]?.map (fun _ => nul) else buf[i]? := by
  induction es generalizing buf with
  | nil => simp
  | cons e es ih =>
    rw [List.foldl_cons, ih, putNul, List.getElem?_set]
    by_cases he : len - e.length = i
    · subst he
      have hself : ∃ e' ∈ e :: es, len - e'.length = len - e.length := ⟨e, List.mem_cons_self .., rfl⟩
      by_cases hes : ∃ e' ∈ es, len - e'.length = len - e.length
      · rw [if_pos hes, if_pos hself]
        by_cases hlt : len - e.length < buf.length <;> simp [hlt]
      · rw [if_neg hes, if_pos hself]
        by_cases hlt : len - e.length < buf.length <;> simp [hlt]
    · have hiff : (∃ e' ∈ e :: es, len - e'.length = i) ↔ ∃ e' ∈ es, len - e'.length = i := by
        simp [he]
      simp only [he, if_false, hiff]

/-- A string in a buffer: its characters and the byte that ends it. -/
theorem takeWhile_string {x l : List Char} (hx : ∀ i < x.length, l[i]? = x[i]?) (hend : l[x.length]? = some nul) (hnul : nul ∉ x) :
    l.takeWhile (· ≠ nul) = x := by
  induction x generalizing l with
  | nil =>
    obtain ⟨rest, rfl⟩ : ∃ rest, l = nul :: rest := List.head?_eq_some_iff.mp (by simpa [List.head?_eq_getElem?] using hend)
    simp
  | cons c x ih =>
    obtain ⟨rest, rfl⟩ : ∃ rest, l = c :: rest :=
      List.head?_eq_some_iff.mp (by simpa [List.head?_eq_getElem?] using hx 0 (by simp))
    have hc : c ≠ nul := fun he => hnul (he ▸ List.mem_cons_self ..)
    rw [List.takeWhile_cons_of_pos (by simpa using hc), ih ?_ (by simpa using hend) (fun hm => hnul (List.mem_cons_of_mem _ hm))]
    intro i hi
    simpa using hx (i + 1) (by simpa using hi)

/-- After `nulterminate` a word is the string at its pointer: no other word's end lies in it. -/
theorem stringAt_word {buf rest : List Char} {c : Cmd Span} (hbuf : buf = line ++ nul :: rest) (hnul : nul ∉ line)
    (hc : c.All (Span.Word line)) (hw : w ∈ c.words) :
    stringAt line.length (nulterminate line.length buf c) w.q = w.text := by
  have hword := hc.words w hw
  obtain ⟨hsplit, -, hall⟩ := hword.split
  have hq : w.q <:+ line := hword.1
  have hqlen := hq.length_le
  have hlen : w.q.length = w.text.length + w.eq.length := by
    have := congrArg List.length hsplit
    rwa [List.length_append] at this
  refine takeWhile_string ?_ ?_ ?_
  · intro i hi
    have hat : (line)[line.length - w.q.length + i]? = w.text[i]? := by
      rw [suffix_getElem? hq, hsplit]
      exact List.getElem?_append_left hi
    have hlt : line.length - w.q.length + i < line.length := by omega
    rw [List.getElem?_drop, nulterminate, putNul_getElem?, if_neg, hbuf, List.getElem?_append_left hlt, hat]
    rintro ⟨e, he, hei⟩
    rw [Cmd.ends_eq] at he
    obtain ⟨v, hv, rfl⟩ := List.mem_map.mp he
    obtain ⟨hvq, x, hvx, -, -, hedge⟩ := hc.words v hv
    have hvline : v.eq <:+ line := List.IsSuffix.trans ⟨x, hvx.symm⟩ hvq
    have hchar : v.eq.head? = w.text[i]? := by
      have := suffix_getElem? hvline 0
      rw [Nat.add_zero, hei, hat] at this
      rw [List.head?_eq_getElem?, ← this]
    have hmem : v.eq.head? = some w.text[i] := by
      rw [hchar, List.getElem?_eq_getElem hi]
    have hfalse := hedge w.text[i] hmem
    rw [hall _ (List.getElem_mem hi)] at hfalse
    cases hfalse
  · have hpos : line.length - w.q.length + w.text.length = line.length - w.eq.length := by omega
    have hlt : line.length - w.eq.length < buf.length := by
      rw [hbuf, List.length_append, List.length_cons]
      omega
    rw [List.getElem?_drop, hpos, nulterminate, putNul_getElem?, if_pos, List.getElem?_eq_getElem hlt]
    · rfl
    · refine ⟨w.eq, ?_, rfl⟩
      rw [Cmd.ends_eq]
      exact List.mem_map_of_mem hw
  · intro hm
    obtain ⟨pre, hpre⟩ := hq
    refine hnul ?_
    rw [← hpre, hsplit]
    exact List.mem_append_right _ (List.mem_append_left _ hm)

end Xv6SnifferBakery.Shell
