/-
# Xv6.Sh.Parser -- the parser of the shell

`parsecmd` of sh.c and what it calls, over a line whose bytes are counted from the pointer it is
given. The cursor `*ps` is the state; a pointer into the line is its place. A call ends with a panic,
with the leftovers of the line printed, or with the tree.

The functions call each other, so they take fuel; the loops take it as well. `unfinished` is the end
of the fuel and never an answer of the program. A node of the tree is a value: `cmd->argv[argc] = q`
in `parseexec` goes through the pointer `cmd` to the innermost node of `ret`, which is `addArg`.
-/
import Xv6.Param

namespace Xv6.Sh
set_option autoImplicit false

abbrev Byte := UInt8

abbrev MAXARGS : Nat := 10

abbrev O_RDONLY : Nat := 0x000
abbrev O_WRONLY : Nat := 0x001
abbrev O_CREATE : Nat := 0x200

/-- `" \t\r\n\v"` -/
def whitespace : List Byte := [32, 9, 13, 10, 11]

/-- `"<|>&;()"` -/
def symbols : List Byte := [60, 124, 62, 38, 59, 40, 41]

/-- The bytes of a word. -/
def wordByte (c : Byte) : Bool := c ∉ whitespace ∧ c ∉ symbols

/-! ## Lines -/

/-- A string in memory, without the NUL at its end. -/
structure CString where
  bytes : List Byte
  terminated : 0 ∉ bytes
  deriving DecidableEq

namespace CString

variable (line : CString)

/-- `s + strlen(s)` -/
def es : Nat := line.bytes.length

/-- `*s`; behind the last byte there is a NUL. -/
def char (s : Nat) : Byte := line.bytes.getD s 0

/-- `while (s < es && p(*s)) s++` -/
def scan (p : Byte → Bool) (s : Nat) : Nat :=
  if s < line.es ∧ p (line.char s) then scan p (s + 1) else s
termination_by line.es - s

/-- The bytes of the line in memory. -/
def memory : List Byte := line.bytes ++ [0]

end CString

/-! ## Trees -/

/-- The commands, with `σ` for the strings in them. -/
inductive Cmd (σ : Type) where
  | exec (argv : List σ)
  | redir (cmd : Cmd σ) (file : σ) (mode fd : Nat)
  | pipe (left right : Cmd σ)
  | list (left right : Cmd σ)
  | back (cmd : Cmd σ)
  deriving DecidableEq, Repr

/-- A string that is not terminated yet: where it starts and where it ends. -/
structure Span where
  q : Nat
  eq : Nat
  deriving DecidableEq, Repr

/-- `cmd->argv[argc] = q; cmd->eargv[argc] = eq` -/
def Cmd.addArg {σ : Type} (arg : σ) : Cmd σ → Cmd σ
  | .exec argv => .exec (argv ++ [arg])
  | .redir cmd file mode fd => .redir (cmd.addArg arg) file mode fd
  | cmd => cmd

/-! ## Reading the line -/

/-- How a call ends that does not return. -/
inductive Stop where
  | panic (text : String)
  /-- `leftovers: %s`, and `panic("syntax")` -/
  | leftovers (text : List Byte)
  | unfinished
  deriving DecidableEq, Repr

abbrev ParseM := StateT Nat (Except Stop)

def stop {α : Type} (reason : Stop) : ParseM α := fun _ => .error reason

section Parser

variable (line : CString)

/-- The `switch` of `gettoken`: the token at `q`, `'a'` for a word and `'+'` for `>>`, and its end -/
def tokenAt (q : Nat) : Byte × Nat :=
  let c := line.char q
  if c = 0 then (0, q)
  else if c ∈ [124, 40, 41, 59, 38, 60] then (c, q + 1)
  else if c = 62 then
    if line.char (q + 1) = 62 then (43, q + 2) else (62, q + 1)
  else (97, line.scan wordByte q)

/-- The token at the cursor and its span. -/
def gettoken : ParseM (Byte × Span) := fun s =>
  let q := line.scan (· ∈ whitespace) s
  let (ret, eq) := tokenAt line q
  .ok ((ret, ⟨q, eq⟩), line.scan (· ∈ whitespace) eq)

def peek (toks : List Byte) : ParseM Bool := fun s =>
  let s := line.scan (· ∈ whitespace) s
  .ok (line.char s ≠ 0 ∧ line.char s ∈ toks, s)

/-- `panic` if the next token is not a word, else its span -/
def filename : ParseM Span := do
  let (tok, file) ← gettoken line
  if tok ≠ 97 then stop (.panic "missing file for redirection") else return file

/-- The node for a redirection of the given token. -/
def redircmd {σ : Type} (tok : Byte) (cmd : Cmd σ) (file : σ) : Cmd σ :=
  if tok = 60 then .redir cmd file O_RDONLY 0
  else if tok = 62 then .redir cmd file (O_WRONLY ||| O_CREATE) 1
  else if tok = 43 then .redir cmd file (O_WRONLY ||| O_CREATE) 1
  else cmd

def parseredirs : Nat → Cmd Span → ParseM (Cmd Span)
  | 0, _ => stop .unfinished
  | fuel + 1, cmd => do
    if ← peek line [60, 62] then
      let (tok, _) ← gettoken line
      let file ← filename line
      parseredirs fuel (redircmd tok cmd file)
    else
      return cmd

/-- The loop of `parseexec`. -/
def parseargs : Nat → Cmd Span → Nat → ParseM (Cmd Span)
  | 0, _, _ => stop .unfinished
  | fuel + 1, ret, argc => do
    if ← peek line [124, 41, 38, 59] then
      return ret
    else
      let (tok, arg) ← gettoken line
      if tok = 0 then return ret
      else if tok ≠ 97 then stop (.panic "syntax")
      else if argc + 1 ≥ MAXARGS then stop (.panic "too many args")
      else
        let ret ← parseredirs line fuel (ret.addArg arg)
        parseargs fuel ret (argc + 1)

/-- `while (peek(ps, es, "&"))` in `parseline` -/
def backcmds : Nat → Cmd Span → ParseM (Cmd Span)
  | 0, _ => stop .unfinished
  | fuel + 1, cmd => do
    if ← peek line [38] then
      let _ ← gettoken line
      backcmds fuel (.back cmd)
    else
      return cmd

mutual

def parseline : Nat → ParseM (Cmd Span)
  | 0 => stop .unfinished
  | fuel + 1 => do
    let cmd ← parsepipe fuel
    let cmd ← backcmds line fuel cmd
    if ← peek line [59] then
      let _ ← gettoken line
      let right ← parseline fuel
      return .list cmd right
    else
      return cmd

def parsepipe : Nat → ParseM (Cmd Span)
  | 0 => stop .unfinished
  | fuel + 1 => do
    let cmd ← parseexec fuel
    if ← peek line [124] then
      let _ ← gettoken line
      let right ← parsepipe fuel
      return .pipe cmd right
    else
      return cmd

def parseblock : Nat → ParseM (Cmd Span)
  | 0 => stop .unfinished
  | fuel + 1 => do
    if ← peek line [40] then
      let _ ← gettoken line
      let cmd ← parseline fuel
      if ← peek line [41] then
        let _ ← gettoken line
        parseredirs line fuel cmd
      else
        stop (.panic "syntax - missing )")
    else
      stop (.panic "parseblock")

def parseexec : Nat → ParseM (Cmd Span)
  | 0 => stop .unfinished
  | fuel + 1 => do
    if ← peek line [40] then
      parseblock fuel
    else
      let ret ← parseredirs line fuel (.exec [])
      parseargs line fuel ret 0

end

end Parser

/-! ## The whole line -/

/-- The memory after the strings of the tree have been terminated. -/
def nulterminate : Cmd Span → List Byte → List Byte
  | .exec argv, mem => argv.foldl (fun mem arg => mem.set arg.eq 0) mem
  | .redir cmd file _ _, mem => (nulterminate cmd mem).set file.eq 0
  | .pipe left right, mem => nulterminate right (nulterminate left mem)
  | .list left right, mem => nulterminate right (nulterminate left mem)
  | .back cmd, mem => nulterminate cmd mem

/-- `parsecmd` up to `nulterminate` -/
def parsewhole (line : CString) (fuel : Nat) : ParseM (Cmd Span) := do
  let cmd ← parseline line fuel
  let _ ← peek line []
  let s ← get
  if s ≠ line.es then stop (.leftovers (line.bytes.drop s)) else return cmd

/-- The tree and the memory of the line, with the strings of the tree terminated. -/
def parsecmd (line : CString) (fuel : Nat) : Except Stop (Cmd Span × List Byte) :=
  match parsewhole line fuel 0 with
  | .ok (cmd, _) => .ok (cmd, nulterminate cmd line.memory)
  | .error reason => .error reason

/-- The string at `q`. -/
def cstring (mem : List Byte) (q : Nat) : List Byte := (mem.drop q).takeWhile (· ≠ 0)

end Xv6.Sh
