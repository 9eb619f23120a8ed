import Mathlib.Data.List.Basic
import Mathlib.Tactic.Common
import Xv6SnifferBakery.Lib.Loop

/-!
# The shell's parser

The second half of `user/sh.c`: tokens, the recursive descent from a line to a tree of commands, and `nulterminate`. A pointer into the
line is what is left of the line from there on. Every call has a depth left, which is spent along with the stack of calls and turns of
loops; a command refers to its words by pointers to their start and behind their end, as `argv` and `eargv` do.
-/

namespace Xv6SnifferBakery.Shell

def whitespace : List Char := [' ', '\t', '\r', '\n', '\x0b']
def symbols : List Char := ['<', '|', '>', '&', ';', '(', ')']

/-- The byte that ends a string. -/
def nul : Char := '\x00'

/-- `MAXARGS`. -/
def maxArgs : Nat := 10

def oRdonly : Nat := 0x000
def oWronly : Nat := 0x001
def oCreate : Nat := 0x200
def oTrunc : Nat := 0x400

/-- A pointer into the line. -/
abbrev Ptr := List Char

/-- A word of the line, `[q, eq)`. -/
structure Span where
  q : Ptr
  eq : Ptr

/-- `struct cmd`, over its words. -/
inductive Cmd (α : Type) where
  | exec (argv : List α)
  | redir (cmd : Cmd α) (file : α) (mode fd : Nat)
  | pipe (left right : Cmd α)
  | list (left right : Cmd α)
  | back (cmd : Cmd α)

/-- The messages with which the parser exits; `depth` is no message of its own, but a call that has no depth left. -/
inductive ParsePanic where
  | missingFile | parseblock | missingParen | syntaxMsg | tooManyArgs | leftovers | depth
  deriving DecidableEq, Repr

/-! ## Tokens -/

/-- What `gettoken` returns: 0, a symbol, `'+'` or `'a'`. -/
inductive Token where
  | eof
  | sym (c : Char)
  | append
  | word
  deriving DecidableEq, Repr

def isWhite (c : Char) : Bool := c ∈ whitespace

/-- A character of a word. -/
def isWord (c : Char) : Bool := !isWhite c && c ∉ symbols

def skip (s : Ptr) : Ptr := s.dropWhile isWhite

/-- The token at `s`, and what is left behind it. -/
def token : Ptr → Token × Ptr
  | [] => (.eof, [])
  | '>' :: '>' :: s => (.append, s)
  | c :: s => if c ∈ symbols then (.sym c, s) else (.word, (c :: s).dropWhile isWord)

/-- `gettoken`: the token, where it is, and where the next one begins. -/
def gettoken (s : Ptr) : Token × Span × Ptr :=
  let r := token (skip s)
  (r.1, ⟨skip s, r.2⟩, skip r.2)

/-- `peek`: whether the next token begins with one of some characters, and where it begins. -/
def peek (s : Ptr) (toks : List Char) : Bool × Ptr := ((skip s).head?.any (· ∈ toks), skip s)

/-! ## The parser -/

/-- A redirection: the file, the mode to open it with, and the descriptor. -/
structure Redir (α : Type) where
  file : α
  mode : Nat
  fd : Nat

/-- The mode and the descriptor of a token of redirection. -/
def redirOf : Token → Option (Nat × Nat)
  | .sym '<' => some (oRdonly, 0)
  | .sym '>' => some (oWronly ||| oCreate ||| oTrunc, 1)
  | .append => some (oWronly ||| oCreate, 1)
  | _ => none

/-- `redircmd` for each redirection, the first one innermost. -/
def Cmd.redirs {α : Type} (c : Cmd α) (rs : List (Redir α)) : Cmd α := rs.foldl (fun c r => .redir c r.file r.mode r.fd) c

/-- `parseredirs`: the redirections that it puts around the command. -/
def parseredirs : Nat → Ptr → Except ParsePanic (List (Redir Span) × Ptr)
  | 0, _ => .error .depth
  | n + 1, s =>
    if (peek s ['<', '>']).1 then
      let t := gettoken s
      let f := gettoken t.2.2
      if f.1 = .word then do
        let (rs, s) ← parseredirs n f.2.2
        .ok ((redirOf t.1).elim rs (fun r => ⟨f.2.1, r.1, r.2⟩ :: rs), s)
      else .error .missingFile
    else .ok ([], (peek s ['<', '>']).2)

/-- The loop of `parseexec`: the words behind `argv`, with the redirections among them. -/
def parseargs : Nat → List Span → Ptr → Except ParsePanic ((List Span × List (Redir Span)) × Ptr)
  | 0, _, _ => .error .depth
  | n + 1, argv, s =>
    if (peek s ['|', ')', '&', ';']).1 then .ok ((argv, []), (peek s ['|', ')', '&', ';']).2)
    else
      let t := gettoken s
      match t.1 with
      | .eof => .ok ((argv, []), t.2.2)
      | .word =>
        if maxArgs ≤ (argv ++ [t.2.1]).length then .error .tooManyArgs
        else do
          let (rs, s) ← parseredirs n t.2.2
          let (r, s) ← parseargs n (argv ++ [t.2.1]) s
          .ok ((r.1, rs ++ r.2), s)
      | _ => .error .syntaxMsg

/-- The loop of `parseline` over `&`. -/
def parseback : Nat → Cmd Span → Ptr → Except ParsePanic (Cmd Span × Ptr)
  | 0, _, _ => .error .depth
  | n + 1, c, s =>
    if (peek s ['&']).1 then parseback n (.back c) (gettoken s).2.2 else .ok (c, (peek s ['&']).2)

mutual

def parseline : Nat → Ptr → Except ParsePanic (Cmd Span × Ptr)
  | 0, _ => .error .depth
  | n + 1, s => do
    let (c, s) ← parsepipe n s
    let (c, s) ← parseback n c s
    if (peek s [';']).1 then do
      let (right, s) ← parseline n (gettoken s).2.2
      .ok (.list c right, s)
    else .ok (c, (peek s [';']).2)

def parsepipe : Nat → Ptr → Except ParsePanic (Cmd Span × Ptr)
  | 0, _ => .error .depth
  | n + 1, s => do
    let (c, s) ← parseexec n s
    if (peek s ['|']).1 then do
      let (right, s) ← parsepipe n (gettoken s).2.2
      .ok (.pipe c right, s)
    else .ok (c, (peek s ['|']).2)

def parseblock : Nat → Ptr → Except ParsePanic (Cmd Span × Ptr)
  | 0, _ => .error .depth
  | n + 1, s =>
    if (peek s ['(']).1 then do
      let (c, s) ← parseline n (gettoken s).2.2
      if (peek s [')']).1 then do
        let (rs, s) ← parseredirs n (gettoken s).2.2
        .ok (c.redirs rs, s)
      else .error .missingParen
    else .error .parseblock

def parseexec : Nat → Ptr → Except ParsePanic (Cmd Span × Ptr)
  | 0, _ => .error .depth
  | n + 1, s =>
    if (peek s ['(']).1 then parseblock n s
    else do
      let (rs, s) ← parseredirs n s
      let (r, s) ← parseargs n [] s
      .ok ((Cmd.exec r.1).redirs (rs ++ r.2), s)

end

/-! ## Strings in the buffer -/

/-- The ends of the words, in the order of `nulterminate`. -/
def Cmd.ends : Cmd Span → List Ptr
  | .exec argv => argv.map Span.eq
  | .redir c f _ _ => c.ends ++ [f.eq]
  | .pipe l r => l.ends ++ r.ends
  | .list l r => l.ends ++ r.ends
  | .back c => c.ends

/-- `*eq = 0`, in the buffer of a line of `len` characters. -/
def putNul (len : Nat) (buf : List Char) (eq : Ptr) : List Char := buf.set (len - eq.length) nul

def nulterminate (len : Nat) (buf : List Char) (c : Cmd Span) : List Char := c.ends.foldl (putNul len) buf

/-- The string that begins at a pointer. -/
def stringAt (len : Nat) (buf : List Char) (p : Ptr) : List Char := (buf.drop (len - p.length)).takeWhile (· ≠ nul)

def Cmd.map {α β : Type} (f : α → β) : Cmd α → Cmd β
  | .exec argv => .exec (argv.map f)
  | .redir c file mode fd => .redir (c.map f) (f file) mode fd
  | .pipe l r => .pipe (l.map f) (r.map f)
  | .list l r => .list (l.map f) (r.map f)
  | .back c => .back (c.map f)

/-- A depth that is enough for a line. -/
def depthFor (len : Nat) : Nat := 4 * len + 8

/-- `parsecmd` on a buffer: the tree, with its words read from the buffer as `runcmd` reads them. -/
def parsecmd (buf : List Char) : Except ParsePanic (Cmd (List Char)) := do
  let line := buf.takeWhile (· ≠ nul)
  let (c, s) ← parseline (depthFor line.length) line
  if (peek s []).2 = [] then .ok (c.map (fun w => stringAt line.length (nulterminate line.length buf c) w.q)) else .error .leftovers

end Xv6SnifferBakery.Shell
