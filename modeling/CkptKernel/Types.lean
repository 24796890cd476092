/-
Enumerations and indices of the process and file tables.
-/
import CkptKernel.Param

namespace CkptKernel

inductive FileType where
  | none
  | pipe
  | inode
  | device
deriving DecidableEq, Repr

inductive ProcState where
  | UNUSED
  | USED
  | SLEEPING
  | RUNNABLE
  | RUNNING
  | ZOMBIE
deriving DecidableEq, Repr

abbrev Slot := Fin NPROC

def initproc : Slot := ⟨0, by decide⟩

inductive Lock where
  /-- `wait_lock`. -/
  | wait
  /-- `proc[s].lock`. -/
  | proc (s : Slot)
deriving DecidableEq, Repr

end CkptKernel
