/-
The in-memory half of kernel/log.c: reservations, absorption and the decision
when to commit.  Each definition is one critical section of `log.lock`.
-/
import CkptKernel.Param
import CkptKernel.Lib.Code

namespace CkptKernel

/-- `struct log`: the block numbers of the header, in order, and the two
counters that `begin_op` and `end_op` keep. -/
structure Log where
  lh : List Nat
  outstanding : Nat
  committing : Bool
deriving DecidableEq, Repr

namespace Log

/-- The log between boot and the first operation. -/
def empty : Log := ⟨[], 0, false⟩

/-- `begin_op` has to sleep: a commit is running, or this operation might
exhaust log space. -/
def MustWait (log : Log) : Prop :=
  log.committing = true ∨ LOGBLOCKS < log.lh.length + (log.outstanding + 1) * MAXOPBLOCKS

instance (log : Log) : Decidable log.MustWait :=
  inferInstanceAs (Decidable (_ ∨ _))

def reserve (log : Log) : Log :=
  { log with outstanding := log.outstanding + 1 }

/-- `log_write`: record a block number unless it is already there. -/
def write (blockno : Nat) (log : Log) : Except Stop Log :=
  if LOGBLOCKS ≤ log.lh.length then .error (.panic "too big a transaction")
  else if log.outstanding < 1 then
    .error (.panic "log_write outside of trans")
  else if blockno ∈ log.lh then .ok log
  else .ok { log with lh := log.lh ++ [blockno] }

/-- First critical section of `end_op`.  The flag is `do_commit`. -/
def finish (log : Log) : Except Stop (Log × Bool) :=
  let outstanding := log.outstanding - 1
  if log.committing = true then .error (.panic "log.committing")
  else if outstanding = 0 then
    .ok ({ log with outstanding := outstanding, committing := true }, true)
  else .ok ({ log with outstanding := outstanding }, false)

/-- `commit` has written the transaction and `end_op` clears `committing`. -/
def committed (log : Log) : Log :=
  { log with lh := [], committing := false }

def absorb (log : Log) (blockno : Nat) : Log :=
  { log with lh := if blockno ∈ log.lh then log.lh else log.lh ++ [blockno] }

variable {log : Log} {blockno : Nat}

theorem mem_absorb {other : Nat} :
    other ∈ (log.absorb blockno).lh ↔ other = blockno ∨ other ∈ log.lh := by
  unfold absorb
  split
  next hmem =>
    refine ⟨Or.inr, ?_⟩
    rintro (rfl | hother)
    · exact hmem
    · exact hother
  next => simp [or_comm]

theorem absorb_nodup (log : Log) (hnodup : log.lh.Nodup) : (log.absorb blockno).lh.Nodup := by
  unfold absorb
  split
  next => exact hnodup
  next hmem =>
    rw [List.nodup_append]
    refine ⟨hnodup, List.nodup_singleton _, fun other hother added hadded => ?_⟩
    rw [List.mem_singleton.mp hadded]
    exact fun heq => hmem (heq ▸ hother)

variable {next : Log}

theorem MustWait.mono (hwait : log.MustWait) (hflag : next.committing = log.committing)
    (hlength : log.lh.length ≤ next.lh.length)
    (hopen : log.outstanding ≤ next.outstanding) : next.MustWait := by
  rcases hwait with hcommit | hspace
  · exact Or.inl (hflag.trans hcommit)
  · refine Or.inr (hspace.trans_le (Nat.add_le_add hlength ?_))
    exact Nat.mul_le_mul_right _ (Nat.succ_le_succ hopen)

theorem write_eq_ok (hwrite : log.write blockno = .ok next) :
    log.lh.length < LOGBLOCKS ∧ 0 < log.outstanding ∧ next = log.absorb blockno := by
  unfold write at hwrite
  split at hwrite
  next => cases hwrite
  next hroom =>
    split at hwrite
    next => cases hwrite
    next hopen =>
      refine ⟨Nat.lt_of_not_le hroom, Nat.pos_of_ne_zero fun h => hopen (by
        omega), ?_⟩
      unfold absorb
      split at hwrite <;> cases hwrite <;> simp_all

theorem write_error {reason : Stop} (hwrite : log.write blockno = .error reason) :
    (LOGBLOCKS ≤ log.lh.length ∧ reason = .panic "too big a transaction") ∨
      (log.outstanding < 1 ∧ reason = .panic "log_write outside of trans") := by
  unfold write at hwrite
  split at hwrite
  next hfull =>
    cases hwrite
    exact Or.inl ⟨hfull, rfl⟩
  next =>
    split at hwrite
    next hopen =>
      cases hwrite
      exact Or.inr ⟨hopen, rfl⟩
    next => split at hwrite <;> cases hwrite

theorem finish_eq_last (hfinish : log.finish = .ok (next, true)) :
    log.committing = false ∧ log.outstanding ≤ 1 ∧
      next = { log with outstanding := 0, committing := true } := by
  simp only [finish] at hfinish
  split at hfinish
  next => cases hfinish
  next hflag =>
    split at hfinish
    next hlast =>
      cases hfinish
      exact ⟨by simpa using hflag, by omega, by rw [hlast]⟩
    next => cases hfinish

theorem finish_eq_more (hfinish : log.finish = .ok (next, false)) :
    log.committing = false ∧ 1 < log.outstanding ∧
      next = { log with outstanding := log.outstanding - 1 } := by
  simp only [finish] at hfinish
  split at hfinish
  next => cases hfinish
  next hflag =>
    split at hfinish
    next => cases hfinish
    next hmore =>
      cases hfinish
      exact ⟨by simpa using hflag, by omega, rfl⟩

end Log

end CkptKernel
