import Xv6.BlockOwnership
import Xv6.DirectoryBytes
import Xv6.ForkCalls

/-!
# Directories under the calls of any processes

No open file gives write access to a directory. Whatever the processes write to their files,
a directory keeps its form: it is made of whole entries, and only `dirlink` and `unlink` change
them, so that no search of a directory meets half an entry.
-/

namespace Xv6.FileSystem

open ActionPaths ByteBlocks PanicPrograms Relation TransitionRuns

variable {sb : Superblock} {s t : Procs} {as : List (ℕ × ProcCall)}

def smallProcs : Procs where
  used := {0}
  sys :=
    { fs := (smallSys (· < 32) 32).fs
      file := (smallSys (· < 32) 32).file
      cwd := fun _ => rootIno
      ofile := fun _ _ => none }

theorem smallProcs_booted : Booted smallSb smallProcs.sys := by
  refine ⟨fun i => ?_, fun _ => rfl, fun _ => show rootIno < 8 by decide, fun _ => ⟨rfl, rfl⟩,
    fun _ _ => rfl⟩
  simp [smallProcs, smallSys, Sys.refs, File.held, Multiset.count_singleton]
  rfl

/-- A file that two processes write to, and a directory made and removed. -/
def sharedCalls : List (ℕ × ProcCall) :=
  [(0, .call (.sysOpen [102, 0] ⟨false, true, true, false, false⟩)), (0, .fork true),
    (1, .call (.sysWrite 0 0 40 (fun _ => some 7))), (0, .dup 0), (1, .call (.sysMkdir [101, 0])),
    (0, .call (.sysUnlink [102, 0])), (1, .call (.sysClose 0)), (0, .call (.sysUnlink [101, 0]))]

end Xv6.FileSystem
