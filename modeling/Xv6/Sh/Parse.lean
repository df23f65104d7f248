/-
The parser of `sh.c`: `parsecmd` and the functions it calls, which build the tree of
a command line, and `nulterminate`, which ends each word of the tree with a NUL.

Each parse function is a program of `ShM` over the cursor, and stops with the
message of the `panic` it reaches. A word of the tree is kept as the two
positions `sh.c` keeps: where it starts and where it ends in the line (`argv[i]`
and `eargv[i]`, `file` and `efile`).

The source recurses without a bound. Here each call of a parse function, and each
round of one of their loops, takes one unit of an explicit fuel and stops with a
`fuel` message when none is left. `parsecmd` gives four units per character of the
line and four more: `Xv6.Sh.Accept` shows that no run of it ever gets to a `fuel`
message, so that every error it stops with is one of the source's panics.
-/
import Xv6.Sh.Lex
import Xv6.Fs.Basic

set_option autoImplicit false

namespace Xv6.Sh

open StateExcept
open Xv6.Fs (O_RDONLY O_WRONLY O_CREATE)

/-- `MAXARGS` of `sh.c`: the size of an `execcmd`'s `argv`, whose last slot holds the
null that ends it. -/
def MAXARGS : Nat := 10

/-- `struct cmd` and the five kinds of command `sh.c` builds on it, each made by the
constructor function of its name. -/
inductive cmd where
  | execcmd (argv : List (Nat × Nat))
  | redircmd (sub : cmd) (file efile : Nat) (mode fd : Nat)
  | pipecmd (left right : cmd)
  | listcmd (left right : cmd)
  | backcmd (sub : cmd)
  deriving DecidableEq, Repr

open cmd

/-- `cmd->argv[i] = q; cmd->eargv[i] = eq` in `parseexec`, through its pointer to the
`execcmd`, which by then sits under the redirections `parseredirs` wrapped around it. -/
def withArgv : cmd → List (Nat × Nat) → cmd
  | execcmd _, argv => execcmd argv
  | redircmd c file efile mode fd, argv => redircmd (withArgv c argv) file efile mode fd
  | c, _ => c

section Parser

variable (buf : List Char)

/-- `parseredirs(cmd, ps, es)`: each redirection at the cursor wraps the command built
so far. The `switch` has no case for any other token: `peek` saw `<` or `>`. -/
def parseredirs : Nat → cmd → ShM cmd
  | 0, _ => throw "parseredirs: fuel"
  | fuel + 1, cmd => do
    if ← peek buf ['<', '>'] then do
      let (tok, _, _) ← gettoken buf
      let (t, q, eq) ← gettoken buf
      if t ≠ 'a' then throw "missing file for redirection"
      let cmd := match tok with
        | '<' => redircmd cmd q eq O_RDONLY 0
        | '>' => redircmd cmd q eq (O_WRONLY ||| O_CREATE) 1
        | '+' => redircmd cmd q eq (O_WRONLY ||| O_CREATE) 1
        | _ => cmd
      parseredirs fuel cmd
    else
      return cmd

/-- The `while` loop of `parseline`: a `backcmd` around the command for each `&`. -/
def parselineLoop : Nat → cmd → ShM cmd
  | 0, _ => throw "parseline: fuel"
  | fuel + 1, cmd => do
    if ← peek buf ['&'] then do
      let _ ← gettoken buf
      parselineLoop fuel (backcmd cmd)
    else
      return cmd

/-- The `while` loop of `parseexec`: each word goes to the `execcmd`'s `argv`, kept
apart as `argv` until the loop ends (`withArgv`), and the redirections after it wrap
the command. At the end of the line `gettoken` returns 0 and the loop breaks. -/
def parseexecLoop : Nat → cmd → List (Nat × Nat) → ShM (cmd × List (Nat × Nat))
  | 0, _, _ => throw "parseexec: fuel"
  | fuel + 1, ret, argv => do
    if ← peek buf ['|', ')', '&', ';'] then
      return (ret, argv)
    else do
      let (tok, q, eq) ← gettoken buf
      if tok = NUL then
        return (ret, argv)
      else do
        if tok ≠ 'a' then throw "syntax"
        let argv := argv ++ [(q, eq)]
        if MAXARGS ≤ argv.length then throw "too many args"
        let ret ← parseredirs buf fuel ret
        parseexecLoop fuel ret argv

mutual

/-- `parseline(ps, es)`: a pipeline, then a `backcmd` for each `&`, then, after a `;`,
a `listcmd` with the line that follows. -/
def parseline : Nat → ShM cmd
  | 0 => throw "parseline: fuel"
  | fuel + 1 => do
    let cmd ← parsepipe fuel
    let cmd ← parselineLoop buf fuel cmd
    if ← peek buf [';'] then do
      let _ ← gettoken buf
      let right ← parseline fuel
      return listcmd cmd right
    else
      return cmd

/-- `parsepipe(ps, es)`: a command, then, after a `|`, a `pipecmd` with the pipeline
that follows. -/
def parsepipe : Nat → ShM cmd
  | 0 => throw "parsepipe: fuel"
  | fuel + 1 => do
    let cmd ← parseexec fuel
    if ← peek buf ['|'] then do
      let _ ← gettoken buf
      let right ← parsepipe fuel
      return pipecmd cmd right
    else
      return cmd

/-- `parseblock(ps, es)`: a line between parentheses, and the redirections after it. -/
def parseblock : Nat → ShM cmd
  | 0 => throw "parseblock: fuel"
  | fuel + 1 => do
    if !(← peek buf ['(']) then throw "parseblock"
    let _ ← gettoken buf
    let cmd ← parseline fuel
    if !(← peek buf [')']) then throw "syntax - missing )"
    let _ ← gettoken buf
    parseredirs buf fuel cmd

/-- `parseexec(ps, es)`: a block, or the words and redirections of an `execcmd`. -/
def parseexec : Nat → ShM cmd
  | 0 => throw "parseexec: fuel"
  | fuel + 1 => do
    if ← peek buf ['('] then
      parseblock fuel
    else do
      let ret ← parseredirs buf fuel (execcmd [])
      let (ret, argv) ← parseexecLoop buf fuel ret []
      return withArgv ret argv

end

end Parser

/-- `nulterminate(cmd)`: a NUL written over the line where each word of the tree ends. -/
def nulterminate : cmd → List Char → List Char
  | execcmd argv, buf => argv.foldl (fun buf w => buf.set w.2 NUL) buf
  | redircmd c _ efile _ _, buf => (nulterminate c buf).set efile NUL
  | pipecmd l r, buf => nulterminate r (nulterminate l buf)
  | listcmd l r, buf => nulterminate r (nulterminate l buf)
  | backcmd c, buf => nulterminate c buf

/-- `parsecmd(s)`: the tree of the whole line, which nothing may follow, and the line
after `nulterminate`. -/
def parsecmd (buf : List Char) : Except String (cmd × List Char) := do
  let (cmd, s) ← (parseline buf (4 * buf.length + 4)).run 0
  let (_, s) ← (peek buf []).run s
  if s ≠ buf.length then throw "syntax"
  return (cmd, nulterminate cmd buf)

end Xv6.Sh
