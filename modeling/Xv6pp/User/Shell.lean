import Mathlib.Data.List.Basic
import Xv6pp.Lib.Wp

/-!
# The parser of the shell

The second half of `user/sh.c`: `gettoken` and `peek`, the parsing functions, and `nulterminate`.

The pointer `*ps` into the line is represented by the bytes from it up to `es`, the terminating zero; a
pointer that is stored in a command is the number of bytes before it.  That `malloc` has memory for the
commands is taken for granted.  The functions call each other without a bound, so they are given one on
the depth of the calls; the result `running` says that it was too small.
-/

set_option autoImplicit false

namespace Xv6pp

namespace Shell

open Prog

/-! ## Commands -/

/-- A string of the line: where it begins, and the byte behind it. -/
structure Word where
  q : Nat
  eq : Nat
  deriving DecidableEq

/-- `struct cmd` and what is behind it. -/
inductive Cmd
  /-- The strings of `argv` and `eargv`. -/
  | exec (argv : List Word)
  | redir (cmd : Cmd) (file : Word) (mode fd : Nat)
  | pipe (left right : Cmd)
  | list (left right : Cmd)
  | back (cmd : Cmd)
  deriving DecidableEq

def MAXARGS : Nat := 10

def O_RDONLY : Nat := 0x000
def O_WRONLY : Nat := 0x001
def O_CREATE : Nat := 0x200
def O_TRUNC : Nat := 0x400

/-- The messages with which the shell gives up a line. -/
inductive Panic
  /-- `"missing file for redirection"`. -/
  | missingFile
  /-- `"parseblock"`. -/
  | parseblock
  /-- `"syntax - missing )"`. -/
  | missingParen
  /-- `"syntax"`. -/
  | syntaxError
  /-- `"too many args"`. -/
  | tooManyArgs
  /-- The parser has not come to its end. -/
  | running
  deriving DecidableEq

/-- What is left of the line. -/
abbrev ParseM := StateT (List UInt8) (Except Panic)

/-! ## Tokens -/

/-- `whitespace`. -/
def whitespace : List UInt8 := [32, 9, 13, 10, 11]

/-- `symbols`: `"<|>&;()"`. -/
def symbols : List UInt8 := [60, 124, 62, 38, 59, 40, 41]

def isSpace (c : UInt8) : Bool := whitespace.contains c

def isWord (c : UInt8) : Bool := !whitespace.contains c && !symbols.contains c

/-- The `switch` of `gettoken`: what it returns, and how far `s` is moved.  `'+'` stands for `>>` and `'a'`
for a word. -/
def scan : List UInt8 → UInt8 × List UInt8
  | [] => (0, [])
  | c :: s =>
    if c = 0 then (0, c :: s)
    else if c = 124 ∨ c = 40 ∨ c = 41 ∨ c = 59 ∨ c = 38 ∨ c = 60 then (c, s)
    else if c = 62 then if s.head? = some 62 then (43, s.tail) else (62, s)
    else (97, (c :: s).dropWhile isWord)

/-- `gettoken(ps, es, &q, &eq)`: what it returns, `q` and `eq`. -/
def gettoken (es : Nat) : ParseM (UInt8 × Nat × Nat) :=
  modifyGet fun s =>
    let s := s.dropWhile isSpace
    let r := scan s
    ((r.1, es - s.length, es - r.2.length), r.2.dropWhile isSpace)

/-- `peek(ps, es, toks)`. -/
def peek (toks : List UInt8) : ParseM Bool :=
  modifyGet fun s =>
    let s := s.dropWhile isSpace
    ((s.headD 0 != 0 && toks.contains (s.headD 0)), s)

/-! ## Parsing -/

/-- `parseredirs(cmd, ps, es)`. -/
def parseredirs (es : Nat) : Nat → Cmd → ParseM Cmd
  | 0, _ => throw .running
  | fuel + 1, cmd => do
    if ← peek [60, 62] then
      let (tok, _) ← gettoken es
      let (t, q, eq) ← gettoken es
      if t ≠ 97 then throw .missingFile
      else if tok = 60 then parseredirs es fuel (.redir cmd ⟨q, eq⟩ O_RDONLY 0)
      else if tok = 62 then
        parseredirs es fuel (.redir cmd ⟨q, eq⟩ (O_WRONLY ||| O_CREATE ||| O_TRUNC) 1)
      else if tok = 43 then parseredirs es fuel (.redir cmd ⟨q, eq⟩ (O_WRONLY ||| O_CREATE) 1)
      else parseredirs es fuel cmd
    else pure cmd

/-- `cmd->argv[argc] = q`, `cmd->eargv[argc] = eq`: `cmd` is the innermost command of `ret`. -/
def Cmd.push (w : Word) : Cmd → Cmd
  | .exec argv => .exec (argv ++ [w])
  | .redir cmd file mode fd => .redir (cmd.push w) file mode fd
  | cmd => cmd

/-- The loop of `parseexec`. -/
def parseargs (es : Nat) : Nat → Nat → Cmd → ParseM Cmd
  | 0, _, _ => throw .running
  | fuel + 1, argc, ret => do
    if ← peek [124, 41, 38, 59] then pure ret
    else
      let (tok, q, eq) ← gettoken es
      if tok = 0 then pure ret
      else if tok ≠ 97 then throw .syntaxError
      else if argc + 1 ≥ MAXARGS then throw .tooManyArgs
      else do
        let ret ← parseredirs es fuel (ret.push ⟨q, eq⟩)
        parseargs es fuel (argc + 1) ret

/-- The loop of `parseline`. -/
def parsebacks (es : Nat) : Nat → Cmd → ParseM Cmd
  | 0, _ => throw .running
  | fuel + 1, cmd => do
    if ← peek [38] then
      let _ ← gettoken es
      parsebacks es fuel (.back cmd)
    else pure cmd

mutual

/-- `parseline(ps, es)`. -/
def parseline (es : Nat) : Nat → ParseM Cmd
  | 0 => throw .running
  | fuel + 1 => do
    let cmd ← parsepipe es fuel
    let cmd ← parsebacks es fuel cmd
    if ← peek [59] then
      let _ ← gettoken es
      let right ← parseline es fuel
      pure (.list cmd right)
    else pure cmd

/-- `parsepipe(ps, es)`. -/
def parsepipe (es : Nat) : Nat → ParseM Cmd
  | 0 => throw .running
  | fuel + 1 => do
    let cmd ← parseexec es fuel
    if ← peek [124] then
      let _ ← gettoken es
      let right ← parsepipe es fuel
      pure (.pipe cmd right)
    else pure cmd

/-- `parseexec(ps, es)`. -/
def parseexec (es : Nat) : Nat → ParseM Cmd
  | 0 => throw .running
  | fuel + 1 => do
    if ← peek [40] then parseblock es fuel
    else
      let ret ← parseredirs es fuel (.exec [])
      parseargs es fuel 0 ret

/-- `parseblock(ps, es)`. -/
def parseblock (es : Nat) : Nat → ParseM Cmd
  | 0 => throw .running
  | fuel + 1 => do
    if ← peek [40] then
      let _ ← gettoken es
      let cmd ← parseline es fuel
      if ← peek [41] then
        let _ ← gettoken es
        parseredirs es fuel cmd
      else throw .missingParen
    else throw .parseblock

end

/-! ## `nulterminate` -/

/-- `nulterminate(cmd)`: a zero is written behind each string. -/
def nulterminate : Cmd → List UInt8 → List UInt8
  | .exec argv, buf => argv.foldl (fun buf w => buf.set w.eq 0) buf
  | .redir cmd file _ _, buf => (nulterminate cmd buf).set file.eq 0
  | .pipe left right, buf => nulterminate right (nulterminate left buf)
  | .list left right, buf => nulterminate right (nulterminate left buf)
  | .back cmd, buf => nulterminate cmd buf

/-- `parsecmd(s)`, with its answer the command and the bytes of the line, the terminating zero included. -/
def parsecmd (fuel : Nat) (s : List UInt8) : Except Panic (Cmd × List UInt8) :=
  let parse : ParseM Cmd := do
    let cmd ← parseline s.length fuel
    let _ ← peek []
    if (← get).length ≠ 0 then throw .syntaxError else pure cmd
  (parse.run s).map fun r => (r.1, nulterminate r.1 (s ++ [0]))

/-- The string at an address. -/
def stringAt (buf : List UInt8) (q : Nat) : List UInt8 := (buf.drop q).takeWhile (· ≠ 0)

end Shell

end Xv6pp
