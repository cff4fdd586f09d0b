import Xv6.ShellTokens
import Xv6.FileCalls

/-!
# The parser of the shell

`parsecmd` and the functions below it in `user/sh.c`. A tree has the words of the line as its
leaves. The node that `execcmd` makes is filled in behind the nodes that redirections have put
around it, so a word is added to the innermost command. `malloc` and the stack never run out; fuel
bounds the depth of the calls.
-/

namespace Xv6.Shell

open PanicPrograms FileSystem

/-- A command whose words and file names are given by `α`. -/
inductive Cmd (α : Type)
  | exec (argv : List α)
  | redir (cmd : Cmd α) (file : α) (mode : OpenMode) (fd : ℕ)
  | pipe (left right : Cmd α)
  | list (left right : Cmd α)
  | back (cmd : Cmd α)
  deriving DecidableEq

def maxArgs : ℕ := 10

def oRdonly : OpenMode := ⟨false, false, false, false, false⟩

def oTruncate : OpenMode := ⟨true, false, true, true, false⟩

def oAppend : OpenMode := ⟨true, false, true, false, false⟩

variable {α : Type}

/-- Another word for the node of `execcmd`, wherever it is. -/
def Cmd.addArg (a : α) : Cmd α → Cmd α
  | .exec argv => .exec (argv ++ [a])
  | .redir cmd file mode fd => .redir (cmd.addArg a) file mode fd
  | cmd => cmd

variable (text : List Char)

def parseredirs : ℕ → Cmd Span → Parser (Cmd Span)
  | 0, _ => throw .fuel
  | fuel + 1, cmd => do
    if ← peek text ['<', '>'] then
      let (tok, _) ← gettoken text
      let (ret, file) ← gettoken text
      if ret ≠ 'a' then throw (.panic "missing file for redirection")
      else
        match tok with
        | '<' => parseredirs fuel (.redir cmd file oRdonly 0)
        | '>' => parseredirs fuel (.redir cmd file oTruncate 1)
        | '+' => parseredirs fuel (.redir cmd file oAppend 1)
        | _ => parseredirs fuel cmd
    else pure cmd

def parseargs : ℕ → ℕ → Cmd Span → Parser (Cmd Span)
  | 0, _, _ => throw .fuel
  | fuel + 1, argc, ret => do
    if ← peek text ['|', ')', '&', ';'] then pure ret
    else
      let (tok, q) ← gettoken text
      if tok = '\x00' then pure ret
      else if tok ≠ 'a' then throw (.panic "syntax")
      else if maxArgs ≤ argc + 1 then throw (.panic "too many args")
      else
        let ret ← parseredirs text fuel (ret.addArg q)
        parseargs fuel (argc + 1) ret

def parseback : ℕ → Cmd Span → Parser (Cmd Span)
  | 0, _ => throw .fuel
  | fuel + 1, cmd => do
    if ← peek text ['&'] then
      let _ ← gettoken text
      parseback fuel (.back cmd)
    else pure cmd

mutual

def parseline : ℕ → Parser (Cmd Span)
  | 0 => throw .fuel
  | fuel + 1 => do
    let cmd ← parsepipe fuel
    let cmd ← parseback text fuel cmd
    if ← peek text [';'] then
      let _ ← gettoken text
      let right ← parseline fuel
      pure (.list cmd right)
    else pure cmd

def parsepipe : ℕ → Parser (Cmd Span)
  | 0 => throw .fuel
  | fuel + 1 => do
    let cmd ← parseexec fuel
    if ← peek text ['|'] then
      let _ ← gettoken text
      let right ← parsepipe fuel
      pure (.pipe cmd right)
    else pure cmd

def parseexec : ℕ → Parser (Cmd Span)
  | 0 => throw .fuel
  | fuel + 1 => do
    if ← peek text ['('] then parseblock fuel
    else
      let ret ← parseredirs text fuel (.exec [])
      parseargs text fuel 0 ret

def parseblock : ℕ → Parser (Cmd Span)
  | 0 => throw .fuel
  | fuel + 1 => do
    if ← peek text ['('] then
      let _ ← gettoken text
      let cmd ← parseline fuel
      if ← peek text [')'] then
        let _ ← gettoken text
        parseredirs text fuel cmd
      else throw (.panic "syntax - missing )")
    else throw (.panic "parseblock")

end

def nulterminate : Cmd Span → List Char → List Char
  | .exec argv, buf => argv.foldl (fun buf arg => buf.set arg.stop '\x00') buf
  | .redir cmd file _ _, buf => (nulterminate cmd buf).set file.stop '\x00'
  | .pipe left right, buf | .list left right, buf => nulterminate right (nulterminate left buf)
  | .back cmd, buf => nulterminate cmd buf

def parsecmd (fuel : ℕ) : Except Failure (Cmd Span × List Char) :=
  match parseline text fuel 0 with
  | .error e => .error e
  | .ok (cmd, s) =>
    -- `peek(&s, es, "")`
    let s := skip text isSpace s
    if s ≠ text.length then .error (.leftovers s)
    else .ok (cmd, nulterminate cmd (text ++ ['\x00']))

end Xv6.Shell
