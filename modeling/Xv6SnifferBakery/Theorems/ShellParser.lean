import Xv6SnifferBakery.Lemmas.Shell

/-!
# The shell's command language

Every tree of commands with proper words and fewer than `MAXARGS` of them in a command can be written as a line, and the parser makes the
same tree of that line; and every tree it makes of any line is of this kind. It always comes to an end, with a tree or with one of its
messages.
-/

namespace Xv6SnifferBakery.Shell

variable {n : Nat} {s t rest : Ptr} {c : Char} {ws : List (List Char)} {rs : List (Redir (List Char))}

/-! ## Trees as lines -/

/-- A word that a command can have. -/
def Proper (x : List Char) : Prop := x ≠ [] ∧ ∀ c ∈ x, isWord c = true ∧ c ≠ nul

/-- The symbol of a redirection. -/
def redirSym (mode fd : Nat) : List Char :=
  if fd = 0 then ['<'] else if mode = oWronly ||| oCreate then ['>', '>'] else ['>']

def paren (b : Bool) (x : List Char) : List Char := if b then '(' :: (x ++ [')']) else x

/-- The words of a command with blanks between them. -/
def printWords : List (List Char) → List Char
  | [] => []
  | [w] => w
  | w :: ws => w ++ ' ' :: printWords ws

/-- The text of a tree, in parentheses where the place `k` asks for them: 0 before `|` and for a command with redirections, 1 behind `|`,
2 before `&` and `;`, 3 for a whole line. -/
def Cmd.print : Nat → Cmd (List Char) → List Char
  | _, .exec argv => printWords argv
  | _, .redir c f mode fd => c.print 0 ++ redirSym mode fd ++ f
  | k, .pipe l r => paren (k < 1) (l.print 0 ++ '|' :: r.print 1)
  | k, .back c => paren (k < 2) (c.print 2 ++ ['&'])
  | k, .list l r => paren (k < 3) (l.print 2 ++ ';' :: r.print 3)

/-! ## Reading the text -/

/-- What may follow: the end of the line, or one of some symbols. -/
def Stops (toks : List Char) (rest : Ptr) : Prop := ∀ c ∈ rest.head?, c ∈ toks ∧ c ∈ symbols

theorem Stops.mono {toks toks' : List Char} (h : Stops toks rest) (hsub : ∀ c ∈ toks, c ∈ toks') : Stops toks' rest :=
  fun c hc => ⟨hsub c (h c hc).1, (h c hc).2⟩

theorem Stops.skip {toks : List Char} (h : Stops toks rest) : skip rest = rest :=
  skip_of_head (fun c hc => white_not_symbol (h c hc).2)

theorem peek_sym {toks : List Char} (hc : c ∈ symbols) (h : c ∈ toks) : (peek (c :: s) toks).1 = true := by
  have hskip : Shell.skip (c :: s) = c :: s := skip_of_head (fun d hd => by obtain rfl := Option.some.inj hd; exact white_not_symbol hc)
  simp [peek, hskip, h]

theorem peek_no {toks : List Char} (hs : skip s = s) (h : ∀ c ∈ s.head?, c ∉ toks) : peek s toks = (false, s) := by
  unfold peek
  rw [hs]
  cases s with
  | nil => rfl
  | cons c s => simp [h c rfl]

theorem Stops.peek_no {toks : List Char} (toks' : List Char) (h : Stops toks rest) (hdisj : ∀ c ∈ toks, c ∉ toks') : peek rest toks' = (false, rest) :=
  Shell.peek_no h.skip (fun c hc => hdisj c (h c hc).1)

theorem skip_word {x : List Char} (hd : isWord c = true) : skip (c :: x) = c :: x :=
  skip_of_head (fun d hc => by obtain rfl := Option.some.inj hc; exact (isWord_iff.mp hd).1)

/-- The tokens are what `token` finds. -/
theorem Tokens.token_eq {k : Token} (h : Tokens s k t) : token s = (k, t) := by
  cases h with
  | eof => rfl
  | append => rfl
  | @sym c s hc hgt =>
    unfold token
    split
    · rename_i h
      cases h
    · rename_i h
      cases h
      exact absurd rfl (hgt rfl)
    · rename_i h
      cases h
      rw [if_pos hc]
  | @word x s hx hall hend =>
    obtain ⟨d, x', rfl⟩ := List.exists_cons_of_ne_nil hx
    have hsym : d ∉ symbols := (isWord_iff.mp (hall d (List.mem_cons_self ..))).2
    have hdrop : (d :: x' ++ t).dropWhile isWord = t := by
      rw [List.dropWhile_append_of_pos hall]
      cases t with
      | nil => rfl
      | cons c t => exact List.dropWhile_cons_of_neg (by simp [hend c rfl])
    rw [List.cons_append] at hdrop ⊢
    generalize x' ++ t = u at hdrop ⊢
    unfold token
    split
    · rename_i h
      cases h
    · rename_i h
      cases h
      exact absurd (by decide) hsym
    · rename_i h
      cases h
      rw [if_neg hsym, hdrop]

theorem Tokens.gettoken_eq {k : Token} (h : Tokens s k t) (hs : Shell.skip s = s) : gettoken s = (k, ⟨s, t⟩, Shell.skip t) := by
  rw [gettoken, hs, h.token_eq]

/-- Behind a symbol that is no redirection. -/
theorem gettoken_sym (hc : c ∈ symbols) (hgt : c ≠ '>') : gettoken (c :: s) = (.sym c, ⟨c :: s, s⟩, skip s) :=
  (Tokens.sym hc (fun h => absurd h hgt)).gettoken_eq
    (skip_of_head (fun d hd => by obtain rfl := Option.some.inj hd; exact white_not_symbol hc))

theorem Proper.head {x : List Char} (h : Proper x) : ∃ d x', x = d :: x' ∧ isWord d = true := by
  obtain ⟨d, x', rfl⟩ := List.exists_cons_of_ne_nil h.1
  exact ⟨d, x', rfl, (h.2 d (List.mem_cons_self ..)).1⟩

theorem Proper.skip {x : List Char} (h : Proper x) : skip (x ++ rest) = x ++ rest := by
  obtain ⟨d, x', rfl, hd⟩ := h.head
  exact skip_word hd

/-- A word, up to the first character that can not be in it. -/
theorem gettoken_text {x : List Char} (hx : Proper x) (hrest : ∀ c ∈ rest.head?, isWord c = false) :
    gettoken (x ++ rest) = (.word, ⟨x ++ rest, rest⟩, skip rest) :=
  (Tokens.word hx.1 (fun c hc => (hx.2 c hc).1) hrest).gettoken_eq hx.skip

@[simp] theorem text_mk (x t : List Char) : Span.text ⟨x ++ t, t⟩ = x := by
  simp [Span.text]

def redirText (rs : List (Redir (List Char))) : List Char := rs.flatMap (fun r => redirSym r.mode r.fd ++ r.file)

def Redir.map {α β : Type} (f : α → β) (r : Redir α) : Redir β := ⟨f r.file, r.mode, r.fd⟩

/-- The symbol of a redirection is read as the redirection. -/
theorem gettoken_redir {mode fd : Nat} {x : List Char} (rest : Ptr) (hk : redirKind mode fd) (hx : Proper x) :
    ∃ k q, gettoken (redirSym mode fd ++ (x ++ rest)) = (k, q, x ++ rest) ∧ redirOf k = some (mode, fd) := by
  have hskip : skip (x ++ rest) = x ++ rest := hx.skip
  have hgt : (x ++ rest).head? ≠ some '>' := by
    obtain ⟨d, x', rfl, hd⟩ := hx.head
    rintro h
    cases h
    exact absurd hd (by decide)
  generalize x ++ rest = u at hskip hgt ⊢
  obtain ⟨k, hk⟩ := hk
  unfold redirOf at hk
  split at hk
  · cases hk
    have htok : Tokens ('<' :: u) (.sym '<') u := .sym (by decide) (fun h => absurd h (by decide))
    have hget := htok.gettoken_eq rfl
    rw [hskip] at hget
    exact ⟨_, _, hget, rfl⟩
  · cases hk
    have hget := (Tokens.sym (c := '>') (by decide) (fun _ => hgt)).gettoken_eq rfl
    rw [hskip] at hget
    exact ⟨_, _, hget, rfl⟩
  · cases hk
    have hget := (Tokens.append u).gettoken_eq rfl
    rw [hskip] at hget
    exact ⟨_, _, hget, rfl⟩
  · cases hk

/-- What may follow a word or a redirection: neither of them. -/
abbrev stops : List Char := ['|', ')', '&', ';']

theorem redirSym_head (mode fd : Nat) (x : List Char) :
    ∃ c x', redirSym mode fd ++ x = c :: x' ∧ c ∈ ['<', '>'] ∧ c ∈ symbols := by
  unfold redirSym
  split
  · exact ⟨'<', x, rfl, by decide, by decide⟩
  · split
    · exact ⟨'>', '>' :: x, rfl, by decide, by decide⟩
    · exact ⟨'>', x, rfl, by decide, by decide⟩

theorem redirText_head (rs : List (Redir (List Char))) (h : Stops stops rest) :
    ∀ c ∈ (redirText rs ++ rest).head?, c ∈ symbols ∧ c ≠ '(' := by
  intro c hc
  cases rs with
  | nil =>
    obtain ⟨hmem, hsym⟩ := h c hc
    refine ⟨hsym, ?_⟩
    rintro rfl
    exact absurd hmem (by decide)
  | cons r rs =>
    rw [redirText, List.flatMap_cons, List.append_assoc, List.append_assoc] at hc
    obtain ⟨d, x', hx, hmem, hsym⟩ := redirSym_head r.mode r.fd (r.file ++ (rs.flatMap _ ++ rest))
    rw [hx] at hc
    obtain rfl := Option.some.inj hc
    refine ⟨hsym, ?_⟩
    rintro rfl
    exact absurd hmem (by decide)

theorem redirText_notWord (rs : List (Redir (List Char))) (h : Stops stops rest) : ∀ c ∈ (redirText rs ++ rest).head?, isWord c = false :=
  fun c hc => symbol_not_word (redirText_head rs h c hc).1

theorem redirText_skip (rs : List (Redir (List Char))) (h : Stops stops rest) : skip (redirText rs ++ rest) = redirText rs ++ rest :=
  skip_of_head (fun c hc => white_not_symbol (redirText_head rs h c hc).1)

theorem redirText_peek (rs : List (Redir (List Char))) (h : Stops stops rest) :
    peek (redirText rs ++ rest) ['('] = (false, redirText rs ++ rest) :=
  peek_no (redirText_skip rs h) (fun c hc hmem => (redirText_head rs h c hc).2 (List.mem_singleton.mp hmem))

/-- Redirections are read back. -/
theorem parseredirs_text (hrs : ∀ r ∈ rs, Redir.All Proper r) (hstop : Stops stops rest) (hn : (redirText rs ++ rest).length < n) :
    ∃ rs', parseredirs n (redirText rs ++ rest) = .ok (rs', rest) ∧ rs'.map (Redir.map Span.text) = rs := by
  induction rs generalizing n with
  | nil =>
    obtain ⟨n, rfl⟩ := Nat.exists_eq_succ_of_ne_zero (Nat.ne_zero_of_lt hn)
    have hpeek : peek rest ['<', '>'] = (false, rest) := hstop.peek_no _ (by simp)
    refine ⟨[], ?_, rfl⟩
    change parseredirs (n + 1) rest = _
    rw [parseredirs, hpeek]
    simp
  | cons r rs ih =>
    obtain ⟨n, rfl⟩ := Nat.exists_eq_succ_of_ne_zero (Nat.ne_zero_of_lt hn)
    obtain ⟨hfile, hkind⟩ := hrs r (List.mem_cons_self ..)
    have htext : redirText (r :: rs) ++ rest = redirSym r.mode r.fd ++ (r.file ++ (redirText rs ++ rest)) := by
      simp [redirText]
    obtain ⟨k, q, hsym, hk⟩ := gettoken_redir (redirText rs ++ rest) hkind hfile
    have hpeek : (peek (redirSym r.mode r.fd ++ (r.file ++ (redirText rs ++ rest))) ['<', '>']).1 = true := by
      obtain ⟨c, x', hx, hmem, hc⟩ := redirSym_head r.mode r.fd (r.file ++ (redirText rs ++ rest))
      rw [hx]
      exact peek_sym hc hmem
    have hword := gettoken_text hfile (redirText_notWord rs hstop)
    rw [htext] at hn ⊢
    have hshort : (redirText rs ++ rest).length < n := by
      have := List.length_pos_iff.mpr hfile.1
      simp only [List.length_append] at hn ⊢
      omega
    obtain ⟨rs', hok, hmap⟩ := ih (fun x hx => hrs x (List.mem_cons_of_mem _ hx)) hshort
    refine ⟨⟨⟨r.file ++ (redirText rs ++ rest), redirText rs ++ rest⟩, r.mode, r.fd⟩ :: rs', ?_, ?_⟩
    · rw [parseredirs, if_pos hpeek, hsym]
      simp [hword, redirText_skip rs hstop, hok, hk, bind, Except.bind]
    · simp [Redir.map, hmap]

theorem printWords_cons (w : List Char) (ws : List (List Char)) (t : List Char) :
    ∃ u, printWords (w :: ws) ++ t = w ++ u ∧ u = if ws = [] then t else ' ' :: (printWords ws ++ t) := by
  cases ws with
  | nil => exact ⟨t, rfl, rfl⟩
  | cons w' ws => exact ⟨' ' :: (printWords (w' :: ws) ++ t), by simp [printWords], by simp⟩

theorem printWords_skip (hws : ∀ w ∈ ws, Proper w) (hs : skip s = s) : skip (printWords ws ++ s) = printWords ws ++ s := by
  cases ws with
  | nil => exact hs
  | cons w ws =>
    obtain ⟨u, hu, -⟩ := printWords_cons w ws s
    rw [hu]
    exact (hws w (List.mem_cons_self ..)).skip

/-- Words begin with no symbol. -/
theorem printWords_peek (s : Ptr) (toks : List Char) (hws : ∀ w ∈ ws, Proper w) (hne : ws ≠ []) (htoks : ∀ c ∈ toks, c ∈ symbols) :
    peek (printWords ws ++ s) toks = (false, printWords ws ++ s) := by
  obtain ⟨w, ws, rfl⟩ := List.exists_cons_of_ne_nil hne
  obtain ⟨u, hu, -⟩ := printWords_cons w ws s
  have hw := hws w (List.mem_cons_self ..)
  rw [hu]
  refine peek_no hw.skip (fun c hc hmem => ?_)
  obtain ⟨d, x', rfl, hd⟩ := hw.head
  obtain rfl := Option.some.inj hc
  exact (isWord_iff.mp hd).2 (htoks _ hmem)

/-- At the end of a command. -/
theorem parseargs_stop (argv : List Span) (hstop : Stops stops rest) (hn : 0 < n) :
    parseargs n argv rest = .ok ((argv, []), rest) := by
  obtain ⟨n, rfl⟩ := Nat.exists_eq_succ_of_ne_zero (Nat.ne_zero_of_lt hn)
  rw [parseargs]
  cases rest with
  | nil => rfl
  | cons c rest =>
    obtain ⟨hmem, hsym⟩ := hstop c rfl
    rw [if_pos (peek_sym hsym hmem)]
    simp [peek, hstop.skip]

theorem parseredirs_none (h : peek s ['<', '>'] = (false, s)) (hn : 0 < n) : parseredirs n s = .ok ([], s) := by
  obtain ⟨n, rfl⟩ := Nat.exists_eq_succ_of_ne_zero (Nat.ne_zero_of_lt hn)
  rw [parseredirs, h]
  simp

/-- The words of a command and the redirections behind them are read back. -/
theorem parseargs_text (argv : List Span) {w : List Char} (hws : ∀ x ∈ w :: ws, Proper x) (hrs : ∀ r ∈ rs, Redir.All Proper r)
    (hstop : Stops stops rest) (hroom : argv.length + (w :: ws).length < maxArgs)
    (hn : (printWords (w :: ws) ++ (redirText rs ++ rest)).length < n) :
    ∃ ws' rs', parseargs n argv (printWords (w :: ws) ++ (redirText rs ++ rest)) = .ok ((argv ++ ws', rs'), rest) ∧
      ws'.map Span.text = w :: ws ∧ rs'.map (Redir.map Span.text) = rs := by
  induction ws generalizing n argv w with
  | nil =>
    obtain ⟨n, rfl⟩ := Nat.exists_eq_succ_of_ne_zero (Nat.ne_zero_of_lt hn)
    have hw := hws w (List.mem_cons_self ..)
    have hpeek : peek (w ++ (redirText rs ++ rest)) stops = (false, w ++ (redirText rs ++ rest)) :=
      printWords_peek _ stops hws (List.cons_ne_nil w []) (by simp [stops, symbols])
    have hget := gettoken_text hw (redirText_notWord rs hstop)
    have hlen : (redirText rs ++ rest).length < n := by
      have := List.length_pos_iff.mpr hw.1
      simp only [printWords, List.length_append] at hn ⊢
      omega
    obtain ⟨rs', hok, hmap⟩ := parseredirs_text hrs hstop hlen
    have hend := parseargs_stop (argv ++ [⟨w ++ (redirText rs ++ rest), redirText rs ++ rest⟩]) hstop (Nat.zero_lt_of_lt hlen)
    refine ⟨[⟨w ++ (redirText rs ++ rest), redirText rs ++ rest⟩], rs', ?_, by simp, hmap⟩
    have hmax : ¬maxArgs ≤ argv.length + 1 := Nat.not_le.mpr hroom
    rw [printWords, parseargs, hpeek, hget]
    simp [hmax, redirText_skip rs hstop, hok, hend, bind, Except.bind]
  | cons w' ws ih =>
    obtain ⟨n, rfl⟩ := Nat.exists_eq_succ_of_ne_zero (Nat.ne_zero_of_lt hn)
    have hw := hws w (List.mem_cons_self ..)
    have hws' : ∀ x ∈ w' :: ws, Proper x := fun x hx => hws x (List.mem_cons_of_mem _ hx)
    have htext : printWords (w :: w' :: ws) ++ (redirText rs ++ rest) = w ++ (' ' :: (printWords (w' :: ws) ++ (redirText rs ++ rest))) := by
      simp [printWords]
    have hpeek := printWords_peek (redirText rs ++ rest) stops hws (List.cons_ne_nil w (w' :: ws)) (by simp [stops, symbols])
    have hnone := printWords_peek (redirText rs ++ rest) ['<', '>'] hws' (List.cons_ne_nil w' ws) (by simp [symbols])
    have hskip := printWords_skip hws' (redirText_skip rs hstop)
    rw [htext] at hpeek hn ⊢
    generalize hu : printWords (w' :: ws) ++ (redirText rs ++ rest) = u at ih hpeek hnone hskip hn ⊢
    have hget := gettoken_text hw (show ∀ c ∈ (' ' :: u).head?, isWord c = false from fun c hc => by obtain rfl := Option.some.inj hc; rfl)
    rw [show skip (' ' :: u) = skip u from rfl, hskip] at hget
    have hlen : u.length < n := by
      rw [List.length_append, List.length_cons] at hn
      omega
    have hmax : ¬maxArgs ≤ argv.length + 1 := by
      simp only [List.length_cons] at hroom
      omega
    obtain ⟨ws', rs', hok, hmap, hrmap⟩ := ih (n := n) (argv ++ [⟨w ++ ' ' :: u, ' ' :: u⟩]) hws'
      (by simp only [List.length_append, List.length_cons, List.length_nil] at hroom ⊢; omega) (by rwa [hu])
    rw [hu] at hok
    refine ⟨⟨w ++ ' ' :: u, ' ' :: u⟩ :: ws', rs', ?_, by simp [hmap], hrmap⟩
    rw [parseargs, hpeek, hget]
    simp [hmax, parseredirs_none hnone (Nat.zero_lt_of_lt hlen), hok, bind, Except.bind]

/-! ## Trees that are read back -/

theorem Cmd.redirs_map {α β : Type} (f : α → β) (c : Cmd α) (rs : List (Redir α)) :
    (c.redirs rs).map f = (c.map f).redirs (rs.map (Redir.map f)) := by
  induction rs generalizing c with
  | nil => rfl
  | cons r rs ih => exact ih (.redir c r.file r.mode r.fd)

/-- A function of the parser that reads a text as a tree, before any of some symbols. -/
def Reads (f : Ptr → Except ParsePanic (Cmd Span × Ptr)) (x rest : List Char) (c : Cmd (List Char)) : Prop :=
  ∃ c', f (x ++ rest) = .ok (c', rest) ∧ c'.map Span.text = c

/-- `parsepipe` and the loop over `&` behind it. -/
def parsebacks (n m : Nat) (s : Ptr) : Except ParsePanic (Cmd Span × Ptr) := do
  let (c, s) ← parsepipe n s
  parseback m c s

section
variable (c : Cmd (List Char))

/-- Read back before a pipe, also with more redirections behind it. -/
def AtExec : Prop := ∀ rs rest n, (∀ r ∈ rs, Redir.All Proper r) → Stops stops rest →
  4 * (c.print 0 ++ redirText rs ++ rest).length + 4 ≤ n → Reads (parseexec n) (c.print 0 ++ redirText rs) rest (c.redirs rs)

def AtPipe : Prop := ∀ rest n, Stops [')', '&', ';'] rest → 4 * (c.print 1 ++ rest).length + 5 ≤ n →
  Reads (parsepipe n) (c.print 1) rest c

/-- Read back before `&`: the loop over `&` goes on with the tree. -/
def AtBack : Prop := ∀ rest n m, Stops [')', '&', ';'] rest → 4 * (c.print 2 ++ rest).length + 5 ≤ n → (c.print 2 ++ rest).length < m →
  ∃ c' m', parsebacks n m (c.print 2 ++ rest) = parseback m' c' rest ∧ rest.length < m' ∧ c'.map Span.text = c

def AtLine : Prop := ∀ rest n, Stops [')'] rest → 4 * (c.print 3 ++ rest).length + 6 ≤ n → Reads (parseline n) (c.print 3) rest c

/-- A tree is read back at every place of a line. -/
structure ReadBack : Prop where
  exec : AtExec c
  pipe : AtPipe c
  back : AtBack c
  line : AtLine c

end

theorem skip_symbol (hc : c ∈ symbols) : skip (c :: s) = c :: s :=
  skip_of_head (fun d hd => by obtain rfl := Option.some.inj hd; exact white_not_symbol hc)

theorem redirSym_skip (mode fd : Nat) (x : List Char) : skip (redirSym mode fd ++ x) = redirSym mode fd ++ x := by
  obtain ⟨c, x', hx, -, hc⟩ := redirSym_head mode fd x
  rw [hx]
  exact skip_symbol hc

theorem paren_skip {b : Bool} {x : List Char} (hx : skip (x ++ s) = x ++ s) : skip (paren b x ++ s) = paren b x ++ s := by
  cases b with
  | false => exact hx
  | true => rfl

/-- The text of a tree begins with no blank. -/
theorem print_skip {c : Cmd (List Char)} (hc : c.All Proper) (k : Nat) (hs : skip s = s) : skip (c.print k ++ s) = c.print k ++ s := by
  induction c generalizing k s with
  | exec argv => exact printWords_skip hc.2 hs
  | redir c f mode fd ih =>
    rw [Cmd.print, List.append_assoc, List.append_assoc]
    exact ih hc.1 0 (redirSym_skip mode fd _)
  | pipe l r ihl ihr =>
    refine paren_skip ?_
    rw [List.append_assoc]
    exact ihl hc.1 0 (skip_symbol (by decide))
  | list l r ihl ihr =>
    refine paren_skip ?_
    rw [List.append_assoc]
    exact ihl hc.1 2 (skip_symbol (by decide))
  | back c ih =>
    refine paren_skip ?_
    rw [List.append_assoc]
    exact ih hc 2 (skip_symbol (by decide))

theorem stops_cons {toks : List Char} (hc : c ∈ toks) (hsym : c ∈ symbols) : Stops toks (c :: s) := by
  intro d hd
  obtain rfl := Option.some.inj hd
  exact ⟨hc, hsym⟩

section
variable {c : Cmd (List Char)}

/-- A command in parentheses. -/
theorem atExec_of_line (htext : c.print 0 = '(' :: (c.print 3 ++ [')'])) (hc : c.All Proper) (hline : AtLine c) : AtExec c := by
  intro rs rest n hrs hstop hn
  obtain ⟨n, rfl⟩ : ∃ m, n = m + 2 := ⟨n - 2, by omega⟩
  have hclose : Stops [')'] (')' :: (redirText rs ++ rest)) := stops_cons (by decide) (by decide)
  have hskip := print_skip hc 3 hclose.skip
  have hlen : 4 * (c.print 3 ++ ')' :: (redirText rs ++ rest)).length + 6 ≤ n := by
    rw [htext] at hn
    simp only [List.length_append, List.length_cons, List.length_nil] at hn ⊢
    omega
  have hlen' : (redirText rs ++ rest).length < n := by
    simp only [List.length_append, List.length_cons] at hlen ⊢
    omega
  obtain ⟨c', hok, hmap⟩ := hline _ _ hclose hlen
  obtain ⟨rs', hrok, hrmap⟩ := parseredirs_text hrs hstop hlen'
  refine ⟨c'.redirs rs', ?_, by rw [Cmd.redirs_map, hmap, hrmap]⟩
  rw [htext]
  simp only [List.cons_append, List.append_assoc, List.nil_append]
  rw [parseexec, if_pos (peek_sym (by decide) (by decide)), parseblock, if_pos (peek_sym (by decide) (by decide)),
    gettoken_sym (by decide) (by decide), hskip, hok]
  simp only [bind, Except.bind]
  rw [if_pos (peek_sym (by decide) (by decide)), gettoken_sym (by decide) (by decide), redirText_skip rs hstop, hrok]

theorem atPipe_of_exec (htext : c.print 1 = c.print 0) (hexec : AtExec c) : AtPipe c := by
  intro rest n hstop hn
  obtain ⟨n, rfl⟩ : ∃ m, n = m + 1 := ⟨n - 1, by omega⟩
  rw [htext] at hn ⊢
  have hnil : c.print 0 ++ redirText [] = c.print 0 := List.append_nil _
  obtain ⟨c', hok, hmap⟩ := hexec [] rest n (by simp) (hstop.mono (by simp)) (by rw [hnil]; omega)
  rw [hnil] at hok
  refine ⟨c', ?_, hmap⟩
  rw [parsepipe, hok]
  simp [bind, Except.bind, hstop.peek_no ['|'] (by simp)]

theorem atBack_of_pipe (htext : c.print 2 = c.print 1) (hpipe : AtPipe c) : AtBack c := by
  intro rest n m hstop hn hm
  rw [htext] at hn hm ⊢
  obtain ⟨c', hok, hmap⟩ := hpipe rest n hstop hn
  refine ⟨c', m, ?_, ?_, hmap⟩
  · rw [parsebacks, hok]
    rfl
  · rw [List.length_append] at hm
    omega

theorem parseback_stop {m : Nat} {d : Cmd Span} (hstop : Stops [')', ';'] rest) (hm : 0 < m) : parseback m d rest = .ok (d, rest) := by
  obtain ⟨m, rfl⟩ : ∃ m', m = m' + 1 := ⟨m - 1, by omega⟩
  rw [parseback, hstop.peek_no ['&'] (by simp)]
  simp

theorem parseline_succ (n : Nat) (s : Ptr) : parseline (n + 1) s = (do
    let (c, s) ← parsebacks n n s
    if (peek s [';']).1 then do
      let (right, s) ← parseline n (gettoken s).2.2
      .ok (.list c right, s)
    else .ok (c, (peek s [';']).2)) := by
  rw [parseline, parsebacks]
  cases parsepipe n s with
  | error => rfl
  | ok => rfl

theorem atLine_of_back (htext : c.print 3 = c.print 2) (hback : AtBack c) : AtLine c := by
  intro rest n hstop hn
  obtain ⟨n, rfl⟩ : ∃ m, n = m + 1 := ⟨n - 1, by omega⟩
  rw [htext] at hn ⊢
  obtain ⟨c', m', hok, hm', hmap⟩ := hback rest n n (hstop.mono (by simp)) (by omega) (by omega)
  refine ⟨c', ?_, hmap⟩
  rw [parseline_succ, hok, parseback_stop (hstop.mono (by simp)) (Nat.zero_lt_of_lt hm')]
  simp [bind, Except.bind, hstop.peek_no [';'] (by simp)]

/-! ### The five kinds of trees -/

/-- Words, before redirections. -/
theorem atExec_words {argv : List (List Char)} (hargv : (Cmd.exec argv).All Proper) : AtExec (.exec argv) := by
  intro rs rest n hrs hstop hn
  obtain ⟨n, rfl⟩ : ∃ m, n = m + 1 := ⟨n - 1, by omega⟩
  rw [Cmd.print, List.append_assoc] at hn
  rw [Cmd.print, Reads, List.append_assoc]
  have hlen : (printWords argv ++ (redirText rs ++ rest)).length < n := by omega
  cases argv with
  | nil =>
    obtain ⟨rs', hok, hmap⟩ := parseredirs_text hrs hstop hlen
    have hopen : peek (redirText rs ++ rest) ['('] = (false, redirText rs ++ rest) := redirText_peek rs hstop
    refine ⟨(Cmd.exec []).redirs rs', ?_, by rw [Cmd.redirs_map, hmap]; rfl⟩
    change parseexec (n + 1) (redirText rs ++ rest) = _
    rw [parseexec, hopen, hok]
    simp [bind, Except.bind, parseargs_stop [] hstop (Nat.zero_lt_of_lt hlen)]
  | cons w ws =>
    have hroom : ([] : List Span).length + (w :: ws).length < maxArgs := by simpa using hargv.1
    obtain ⟨ws', rs', hok, hmap, hrmap⟩ := parseargs_text [] hargv.2 hrs hstop hroom hlen
    have hopen := printWords_peek (redirText rs ++ rest) ['('] hargv.2 (List.cons_ne_nil w ws) (by simp [symbols])
    have hnone := printWords_peek (redirText rs ++ rest) ['<', '>'] hargv.2 (List.cons_ne_nil w ws) (by simp [symbols])
    refine ⟨(Cmd.exec ws').redirs rs', ?_, by rw [Cmd.redirs_map, hrmap, ← hmap]; rfl⟩
    rw [parseexec, hopen, parseredirs_none hnone (Nat.zero_lt_of_lt hlen)]
    simp [bind, Except.bind, hok]

/-- A redirection is one more in front of those behind the tree. -/
theorem atExec_redir {f : List Char} {mode fd : Nat} (hr : Redir.All Proper ⟨f, mode, fd⟩) (h : AtExec c) : AtExec (.redir c f mode fd) := by
  intro rs rest n hrs hstop hn
  have htext : (Cmd.redir c f mode fd).print 0 ++ redirText rs = c.print 0 ++ redirText (⟨f, mode, fd⟩ :: rs) := by
    simp [Cmd.print, redirText]
  have hall : ∀ r ∈ (⟨f, mode, fd⟩ : Redir (List Char)) :: rs, Redir.All Proper r := by
    intro r hm
    rcases List.mem_cons.mp hm with rfl | hm
    · exact hr
    · exact hrs r hm
  rw [htext] at hn ⊢
  exact h _ _ _ hall hstop hn

variable {l r : Cmd (List Char)}

theorem atPipe_pipe (hr : r.All Proper) (hl : AtExec l) (hpipe : AtPipe r) : AtPipe (.pipe l r) := by
  intro rest n hstop hn
  obtain ⟨n, rfl⟩ : ∃ m, n = m + 1 := ⟨n - 1, by omega⟩
  have htext : (Cmd.pipe l r).print 1 ++ rest = l.print 0 ++ '|' :: (r.print 1 ++ rest) := by
    simp [Cmd.print, paren]
  have hnil : l.print 0 ++ redirText [] = l.print 0 := List.append_nil _
  rw [htext] at hn
  simp only [List.length_append, List.length_cons] at hn
  obtain ⟨l', hlok, hlmap⟩ := hl [] ('|' :: (r.print 1 ++ rest)) n (by simp) (stops_cons (by decide) (by decide))
    (by rw [hnil]; simp only [List.length_append, List.length_cons]; omega)
  obtain ⟨r', hrok, hrmap⟩ := hpipe rest n hstop (by simp only [List.length_append]; omega)
  refine ⟨.pipe l' r', ?_, by rw [Cmd.map, hlmap, hrmap]; rfl⟩
  rw [hnil] at hlok
  rw [htext, parsepipe, hlok]
  simp only [bind, Except.bind]
  rw [if_pos (peek_sym (by decide) (by decide)), gettoken_sym (by decide) (by decide), print_skip hr 1 hstop.skip, hrok]

theorem atBack_back (hback : AtBack c) : AtBack (.back c) := by
  intro rest n m hstop hn hm
  have htext : (Cmd.back c).print 2 ++ rest = c.print 2 ++ '&' :: rest := by
    simp [Cmd.print, paren]
  rw [htext] at hn hm ⊢
  obtain ⟨c', m', hok, hm', hmap⟩ := hback ('&' :: rest) n m (stops_cons (by decide) (by decide)) hn hm
  rw [List.length_cons] at hm'
  obtain ⟨m', rfl⟩ : ∃ k, m' = k + 1 := ⟨m' - 1, by omega⟩
  refine ⟨.back c', m', ?_, by omega, by rw [Cmd.map, hmap]⟩
  rw [hok, parseback, if_pos (peek_sym (by decide) (by decide)), gettoken_sym (by decide) (by decide), hstop.skip]

theorem atLine_list (hr : r.All Proper) (hl : AtBack l) (hline : AtLine r) : AtLine (.list l r) := by
  intro rest n hstop hn
  obtain ⟨n, rfl⟩ : ∃ m, n = m + 1 := ⟨n - 1, by omega⟩
  have htext : (Cmd.list l r).print 3 ++ rest = l.print 2 ++ ';' :: (r.print 3 ++ rest) := by
    simp [Cmd.print, paren]
  rw [htext] at hn
  have hsemi : Stops [')', ';'] (';' :: (r.print 3 ++ rest)) := stops_cons (by decide) (by decide)
  obtain ⟨l', m', hlok, hm', hlmap⟩ := hl (';' :: (r.print 3 ++ rest)) n n (hsemi.mono (by simp)) (by omega) (by omega)
  simp only [List.length_append, List.length_cons] at hn
  obtain ⟨r', hrok, hrmap⟩ := hline rest n hstop (by simp only [List.length_append]; omega)
  refine ⟨.list l' r', ?_, by rw [Cmd.map, hlmap, hrmap]⟩
  rw [htext, parseline_succ, hlok, parseback_stop hsemi (Nat.zero_lt_of_lt hm')]
  simp only [bind, Except.bind]
  rw [if_pos (peek_sym (by decide) (by decide)), gettoken_sym (by decide) (by decide), print_skip hr 3 hstop.skip, hrok]

/-- Every tree is read back at every place: at its own from its parts, and from there around. -/
theorem readBack (hc : c.All Proper) : ReadBack c := by
  induction c with
  | exec argv =>
    have hexec := atExec_words hc
    have hpipe := atPipe_of_exec rfl hexec
    have hback := atBack_of_pipe rfl hpipe
    exact ⟨hexec, hpipe, hback, atLine_of_back rfl hback⟩
  | redir c f mode fd ih =>
    have hexec := atExec_redir hc.2 (ih hc.1).exec
    have hpipe := atPipe_of_exec rfl hexec
    have hback := atBack_of_pipe rfl hpipe
    exact ⟨hexec, hpipe, hback, atLine_of_back rfl hback⟩
  | pipe l r ihl ihr =>
    have hpipe := atPipe_pipe hc.2 (ihl hc.1).exec (ihr hc.2).pipe
    have hback := atBack_of_pipe rfl hpipe
    have hline := atLine_of_back rfl hback
    exact ⟨atExec_of_line rfl hc hline, hpipe, hback, hline⟩
  | list l r ihl ihr =>
    have hline := atLine_list hc.2 (ihl hc.1).back (ihr hc.2).line
    have hexec := atExec_of_line rfl hc hline
    have hpipe := atPipe_of_exec rfl hexec
    exact ⟨hexec, hpipe, atBack_of_pipe rfl hpipe, hline⟩
  | back c ih =>
    have hback := atBack_back (ih hc).back
    have hline := atLine_of_back rfl hback
    have hexec := atExec_of_line rfl hc hline
    exact ⟨hexec, atPipe_of_exec rfl hexec, hback, hline⟩

end

/-! ## The language -/

theorem Proper.nul {x : List Char} (h : Proper x) : nul ∉ x := fun hm => (h.2 _ hm).2 rfl

theorem redirSym_nul (mode fd : Nat) : nul ∉ redirSym mode fd := by
  unfold redirSym
  split
  · decide
  · split <;> decide

theorem printWords_nul (hws : ∀ w ∈ ws, Proper w) : nul ∉ printWords ws := by
  induction ws with
  | nil => simp [printWords]
  | cons w ws ih =>
    have hw := (hws w (List.mem_cons_self ..)).nul
    have htail := ih (fun x hx => hws x (List.mem_cons_of_mem _ hx))
    cases ws with
    | nil => exact hw
    | cons w' ws =>
      simp only [printWords, List.mem_append, List.mem_cons, not_or]
      exact ⟨hw, by decide, htail⟩

theorem paren_nul {b : Bool} {x : List Char} (hx : nul ∉ x) : nul ∉ paren b x := by
  cases b with
  | false => exact hx
  | true => simpa [paren, show nul ≠ '(' by decide, show nul ≠ ')' by decide] using hx

/-- The text of a tree has no byte that ends the line. -/
theorem print_nul {c : Cmd (List Char)} (hc : c.All Proper) (k : Nat) : nul ∉ c.print k := by
  induction c generalizing k with
  | exec argv => exact printWords_nul hc.2
  | redir c f mode fd ih =>
    simp only [Cmd.print, List.mem_append, not_or]
    exact ⟨⟨ih hc.1 0, redirSym_nul mode fd⟩, hc.2.1.nul⟩
  | pipe l r ihl ihr =>
    refine paren_nul ?_
    simp only [List.mem_append, List.mem_cons, not_or]
    exact ⟨ihl hc.1 0, by decide, ihr hc.2 1⟩
  | list l r ihl ihr =>
    refine paren_nul ?_
    simp only [List.mem_append, List.mem_cons, not_or]
    exact ⟨ihl hc.1 2, by decide, ihr hc.2 3⟩
  | back c ih =>
    refine paren_nul ?_
    simp only [List.mem_append, List.mem_cons, not_or]
    exact ⟨ih hc 2, by decide, by simp⟩

/-- The strings that the tree refers to are the texts of its words in the line. -/
theorem parsecmd_eq {line : List Char} (hline : nul ∉ line) (rest : List Char) :
    parsecmd (line ++ nul :: rest) = (do
      let (c, s) ← parseline (depthFor line.length) line
      if (peek s []).2 = [] then .ok (c.map Span.text) else .error .leftovers) := by
  have htake : (line ++ nul :: rest).takeWhile (· ≠ nul) = line := by
    refine takeWhile_string (fun i hi => List.getElem?_append_left hi) ?_ hline
    rw [List.getElem?_append_right (Nat.le_refl _), Nat.sub_self]
    rfl
  rw [parsecmd, htake]
  have hpost := (parse_post (depthFor line.length) line (List.suffix_refl line)).1
  cases hc : parseline (depthFor line.length) line with
  | error e => rfl
  | ok r =>
    obtain ⟨c, s⟩ := r
    have hall := (hpost.result c s hc).1
    have hmap := Cmd.map_congr (fun w hw => stringAt_word (show line ++ nul :: rest = _ from rfl) hline hall hw)
    simp only [bind, Except.bind, hmap]

/-- Every tree with proper words is the tree of its text. -/
theorem parse_print {c : Cmd (List Char)} (hc : c.All Proper) (rest : List Char) : parsecmd (c.print 3 ++ nul :: rest) = .ok c := by
  have hstop : Stops [')'] [] := fun d hd => by cases hd
  have hn : 4 * (c.print 3 ++ []).length + 6 ≤ depthFor (c.print 3).length := by
    simp [depthFor]
  obtain ⟨c', hok, hmap⟩ := (readBack hc).line [] _ hstop hn
  rw [List.append_nil] at hok
  rw [parsecmd_eq (print_nul hc 3), hok, ← hmap]
  rfl

theorem parse_print_line :
    let c : Cmd (List Char) := .list (.back (.pipe (.redir (.exec [['a'], ['b']]) ['f'] oRdonly 0) (.exec [['c']]))) (.exec [])
    c.print 3 = "a b<f|c&;".toList ∧ parsecmd ("a b<f|c&;".toList ++ [nul]) = .ok c :=
  ⟨by decide, parse_print (c := .list (.back (.pipe (.redir (.exec [['a'], ['b']]) ['f'] oRdonly 0) (.exec [['c']]))) (.exec []))
    ⟨⟨⟨⟨by decide, by simp [Proper]; decide⟩, by simp [Proper]; decide, .sym '<', rfl⟩, by decide, by simp [Proper]; decide⟩, by decide, by simp⟩ []⟩

/-- Of any line the parser makes a tree with proper words, or it ends with one of its messages. -/
theorem parsecmd_proper {buf : List Char} (hbuf : nul ∈ buf) :
    (∀ c, parsecmd buf = .ok c → c.All Proper) ∧ parsecmd buf ≠ .error .depth := by
  obtain ⟨line, rest, rfl, hline⟩ := List.eq_append_cons_of_mem hbuf
  have hpost := (parse_post (depthFor line.length) line (List.suffix_refl line)).1
  rw [parsecmd_eq hline]
  refine ⟨fun c h => ?_, fun h => ?_⟩
  · obtain ⟨⟨c', s⟩, hok, htree⟩ := Lib.bind_ok h
    have hall := (hpost.result c' s hok).1
    dsimp only at htree
    split at htree
    · cases htree
      refine hall.map (fun w hw => ?_)
      obtain ⟨hsplit, hne, hword⟩ := hw.split
      obtain ⟨pre, hpre⟩ := hw.1
      refine ⟨hne, fun c hc => ⟨hword c hc, ?_⟩⟩
      rintro rfl
      refine hline ?_
      rw [← hpre, hsplit]
      exact List.mem_append_right _ (List.mem_append_left _ hc)
    · cases htree
  · rcases Lib.bind_error h with hdeep | ⟨⟨c', s⟩, -, htree⟩
    · exact hpost.deep (by rw [depthFor]; omega) hdeep
    · dsimp only at htree
      split at htree
      · cases htree
      · cases htree

theorem parsecmd_proper_open : nul ∈ "(a;b>c".toList ++ [nul] ∧ parsecmd ("(a;b>c".toList ++ [nul]) ≠ .error .depth :=
  ⟨by decide, (parsecmd_proper (by decide : nul ∈ "(a;b>c".toList ++ [nul])).2⟩

end Xv6SnifferBakery.Shell
