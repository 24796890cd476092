/-
`fileread` of kernel/file.c with its three back ends: `piperead` of
kernel/pipe.c, `consoleread` of kernel/console.c and `readi`.  The user's memory
is looked at from the address passed to `read` on: `access i` says whether
`copyout` of a byte to `addr + i` succeeds.
-/
import CkptKernel.Console
import CkptKernel.KernelState
import CkptKernel.PipeRing
import CkptKernel.Syscalls

namespace CkptKernel

open ByteMem Code
open Console (Cons INPUT_BUF_SIZE ctrlD newline)

/-- What other processes and interrupts can change while a reader sleeps. -/
structure World where
  pipe : PipeRing.Pipe
  cons : Cons
  killed : Bool

/-- The state a call of `fileread` works on.  `wakes` has what the reader will
find each time it is woken up. -/
structure ReadIo where
  fs : Fs
  file : File
  world : World
  wakes : List World
  mem : Bytes

def ReadIo.withMem (io : ReadIo) (mem : Bytes) : ReadIo :=
  { io with mem := mem }

def ReadIo.withWorld (io : ReadIo) (world : World) : ReadIo :=
  { io with world := world }

def World.withRing (world : World) (ring : RingBuffer 32 UInt8) : World :=
  { world with pipe := { world.pipe with ring := ring } }

def World.withCons (world : World) (r : BitVec 32) : World :=
  { world with cons := { world.cons with r := r } }

@[simp] theorem ReadIo.withMem_mem (io : ReadIo) (mem : Bytes) : (io.withMem mem).mem = mem := rfl

@[simp] theorem ReadIo.withMem_world (io : ReadIo) (mem : Bytes) :
    (io.withMem mem).world = io.world := rfl

@[simp] theorem ReadIo.withWorld_mem (io : ReadIo) (world : World) :
    (io.withWorld world).mem = io.mem := rfl

@[simp] theorem ReadIo.withWorld_world (io : ReadIo) (world : World) :
    (io.withWorld world).world = world := rfl

def sleepOn : Code ReadIo Unit := fun io =>
  match io.wakes with
  | [] => .error .sleep
  | world :: rest => .ok ((), { io with world := world, wakes := rest })

def copyoutByte (access : Nat → Bool) (i : Nat) (ch : UInt8) : Code ReadIo Bool := do
  if access i then do
    update (fun io => io.withMem (blit io.mem i 1 (fun _ => ch)))
    pure true
  else pure false

def World.PipeReady (world : World) : Prop :=
  ¬ (world.pipe.ring.Empty ∧ world.pipe.writeopen = true)

instance (world : World) : Decidable world.PipeReady :=
  inferInstanceAs (Decidable (¬ (_ ∧ _)))

def World.ConsReady (world : World) : Prop := world.cons.r ≠ world.cons.w

instance (world : World) : Decidable world.ConsReady :=
  inferInstanceAs (Decidable (_ ≠ _))

/-- Wait until `ready`; `false` if the process has been killed meanwhile.
Every turn but the last uses up one entry of `wakes`. -/
def awaitInput (ready : World → Prop) [DecidablePred ready] : Nat → Code ReadIo Bool
  | 0 => stop .sleep
  | fuel + 1 => do
    let io ← read
    if ready io.world then pure true
    else if io.world.killed then pure false
    else do
      sleepOn
      awaitInput ready fuel

/-- The copy loop of `piperead`: `left` more turns, `i` bytes delivered. -/
def pipereadCopy (access : Nat → Bool) : Nat → Nat → Code ReadIo Nat
  | 0, i => pure i
  | left + 1, i => do
    let io ← read
    if io.world.pipe.ring.Empty then pure i
    else do
      update (fun io => io.withWorld
        (io.world.withRing io.world.pipe.ring.drop))
      let ok ← copyoutByte access i (io.world.pipe.ring.front PIPESIZE)
      if ok then pipereadCopy access left (i + 1) else pure i

def piperead (access : Nat → Bool) (n : Int) : Code ReadIo Int := do
  let io ← read
  let ready ← awaitInput World.PipeReady (io.wakes.length + 1)
  if ready then do
    let i ← pipereadCopy access n.toNat 0
    pure i
  else pure (-1)

/-- The loop of `consoleread`: `left` more bytes wanted, `i` delivered. -/
def consolereadFrom (access : Nat → Bool) : Nat → Nat → Code ReadIo Int
  | 0, i => pure i
  | left + 1, i => do
    let io ← read
    let ready ← awaitInput World.ConsReady (io.wakes.length + 1)
    if ready then do
      let io ← read
      let r := io.world.cons.r
      let c := io.world.cons.buf (r.toNat % INPUT_BUF_SIZE)
      update (fun io => io.withWorld (io.world.withCons (r + 1)))
      if c = ctrlD then do
        -- save ^D for next time, so that the caller gets a 0-byte result
        when (0 < i) (update (fun io =>
          io.withWorld (io.world.withCons r)))
        pure i
      else do
        let ok ← copyoutByte access i c
        if ok then
          if c = newline then pure (i + 1)
          else consolereadFrom access left (i + 1)
        else pure i
    else pure (-1)

def consoleread (access : Nat → Bool) (n : Int) : Code ReadIo Int :=
  consolereadFrom access n.toNat 0

def toUint (n : Int) : Nat := (n % 2 ^ 32).toNat

def readFs {A : Type} (code : Code Fs A) : Code ReadIo A :=
  within ReadIo.fs (fun fs io => { io with fs := fs }) code

def filereadInode (access : Nat → Bool) (n : Int) : Code ReadIo Int := do
  let io ← read
  readFs (ilock io.file.ip)
  let result ← readFs (readi io.file.ip (.user io.mem access) io.file.off.toNat
    (toUint n))
  update (fun io => io.withMem result.2)
  match result.1 with
  | none => do
    readFs (iunlock io.file.ip)
    pure (-1)
  | some r => do
    update (fun io => { io with file := { io.file with
      off := io.file.off + UInt32.ofNat r } })
    readFs (iunlock io.file.ip)
    pure r

/-- Read from a file.  Of the devices only the console has a `read` function. -/
def fileread (access : Nat → Bool) (n : Int) : Code ReadIo Int := do
  let io ← read
  if io.file.readable = 0 then pure (-1)
  else
    match io.file.type with
    | .pipe => piperead access n
    | .device =>
      if io.file.major = CONSOLE then consoleread access n else pure (-1)
    | .inode => filereadInode access n
    | .none => .panic "fileread"

/-- A reader in the kernel.  The kernel's tables do not have the bytes in pipes
and in the console: they are passed in, and what is left is returned. -/
def inRead (f : FileRef) (world : World) (wakes : List World) (mem : Bytes)
    (code : Code ReadIo Int) : Code Kernel (Int × World × Bytes) := fun kernel =>
  match code ⟨kernel.fs, kernel.file f, world, wakes, mem⟩ with
  | .ok (r, io) => .ok ((r, io.world, io.mem), { kernel with
      fs := io.fs
      file := Function.update kernel.file f io.file })
  | .error reason => .error reason

def sysRead (p : Slot) (fd : Nat) (access : Nat → Bool) (n : Int) (world : World)
    (wakes : List World) (mem : Bytes) : Code Kernel (Int × World × Bytes) := do
  let arg ← argfd p fd
  match arg with
  | none => pure (-1, world, mem)
  | some (_, f) => inRead f world wakes mem (fileread access n)

/-- Code that looks at no user memory and writes `k` bytes from `addr + i` on,
with `post` of its result and `k`. -/
def Delivers {A : Type} (code : Code ReadIo A) (i : Nat)
    (post : A → Nat → Prop) : Prop :=
  ∀ io : ReadIo, (∃ reason, ∀ mem, code (io.withMem mem) = .error reason) ∨
    ∃ value k data, ∃ io' : ReadIo, post value k ∧ ∀ mem, code (io.withMem mem) =
        .ok (value, io'.withMem (blit mem i k data))

section Delivers

variable {A B : Type} {i : Nat}

theorem delivers_pure (value : A) {post : A → Nat → Prop}
    (hpost : post value 0) : Delivers (pure value : Code ReadIo A) i post :=
  fun io => Or.inr ⟨value, 0, fun _ => 0, io, hpost, fun mem => by
    rw [blit_zero]; rfl⟩

theorem delivers_bind {first : Code ReadIo A} {next : A → Code ReadIo B} {mid : A → Nat → Prop}
    {post : B → Nat → Prop} (hfirst : Delivers first i mid) (hnext : ∀ value k, mid value k →
      Delivers (next value) (i + k) (fun result l => post result (k + l))) :
    Delivers (first >>= next) i post := by
  intro io
  rcases hfirst io with ⟨reason, herror⟩ | ⟨value, k, data, io₁, hmid, hok⟩
  · exact Or.inl ⟨reason, fun mem => bind_of_error (herror mem)⟩
  rcases hnext value k hmid io₁ with ⟨reason, herror⟩ |
    ⟨result, l, data', io₂, hpost, hok'⟩
  · exact Or.inl ⟨reason, fun mem => by rw [bind_of_ok (hok mem), herror]⟩
  · refine Or.inr ⟨result, k + l, blit data k l data', io₂, hpost, fun mem => ?_⟩
    rw [bind_of_ok (hok mem), hok', blit_append]

theorem delivers_read_bind {next : ReadIo → Code ReadIo A}
    {post : A → Nat → Prop} (hblind : ∀ io mem, next (io.withMem mem) = next io)
    (hnext : ∀ io, Delivers (next io) i post) : Delivers (read >>= next) i post := by
  intro io
  have hrun : ∀ mem, (read >>= next) (io.withMem mem) =
      next io (io.withMem mem) := by
    intro mem
    rw [read_bind, hblind]
  simp only [hrun]
  exact hnext io io

theorem delivers_update {change : ReadIo → ReadIo}
    (hblind : ∀ io mem, change (io.withMem mem) = (change io).withMem mem) :
    Delivers (update change) i (fun _ k => k = 0) := by
  refine fun io => Or.inr ⟨(), 0, fun _ => 0, change io, rfl, fun mem => ?_⟩
  rw [blit_zero, ← hblind]
  rfl

theorem delivers_ite {cond : Prop} [Decidable cond] {yes no : Code ReadIo A}
    {post : A → Nat → Prop} (hyes : cond → Delivers yes i post)
    (hno : ¬ cond → Delivers no i post) : Delivers (if cond then yes else no) i post := by
  split
  next hcond => exact hyes hcond
  next hcond => exact hno hcond

theorem delivers_copyoutByte (access : Nat → Bool) (ch : UInt8) :
    Delivers (copyoutByte access i ch) i (fun ok k => k = if ok then 1 else 0) := by
  refine delivers_ite (fun _ io => ?_) (fun _ => delivers_pure false rfl)
  exact Or.inr ⟨true, 1, fun _ => ch, io, rfl, fun mem => rfl⟩

theorem delivers_awaitInput (ready : World → Prop) [DecidablePred ready]
    (fuel : Nat) : Delivers (awaitInput ready fuel) i (fun _ k => k = 0) := by
  induction fuel with
  | zero => exact fun io => Or.inl ⟨.sleep, fun mem => rfl⟩
  | succ fuel ih =>
    refine delivers_read_bind (fun _ _ => rfl) fun io => ?_
    refine delivers_ite (fun _ => delivers_pure true rfl) fun _ => ?_
    refine delivers_ite (fun _ => delivers_pure false rfl) fun _ => ?_
    have hsleep : Delivers sleepOn i (fun _ k => k = 0) := by
      intro io
      cases hwakes : io.wakes with
      | nil =>
        refine Or.inl ⟨.sleep, fun mem => ?_⟩
        simp [sleepOn, ReadIo.withMem, hwakes]
      | cons world rest =>
        refine Or.inr ⟨(), 0, fun _ => 0,
          { io with world := world, wakes := rest }, rfl, fun mem => ?_⟩
        simp [sleepOn, ReadIo.withMem, hwakes, blit_zero]
    refine delivers_bind hsleep fun _ k hk => ?_
    subst hk
    simpa using ih

variable (access : Nat → Bool)

theorem delivers_pipereadCopy (left i : Nat) : Delivers (pipereadCopy access left i) i (fun r k =>
      r = i + k ∧ k ≤ left) := by
  induction left generalizing i with
  | zero => exact delivers_pure i ⟨rfl, Nat.le_refl 0⟩
  | succ left ih =>
    refine delivers_read_bind (fun _ _ => rfl) fun io => ?_
    refine delivers_ite (fun _ => delivers_pure i ⟨rfl, Nat.zero_le _⟩) fun _ => ?_
    refine delivers_bind (delivers_update fun _ _ => rfl) fun _ k hk => ?_
    subst hk
    refine delivers_bind (delivers_copyoutByte access _) fun ok k hk => ?_
    subst hk
    cases ok with
    | false => exact delivers_pure i ⟨rfl, Nat.zero_le _⟩
    | true =>
      intro io
      rcases ih (i + 1) io with hstop |
        ⟨r, k, data, io', ⟨hr, hk⟩, hok⟩
      · exact Or.inl hstop
      · exact Or.inr ⟨r, k, data, io', ⟨by simp; omega, by simp; omega⟩, hok⟩

theorem delivers_piperead (n : Int) : Delivers (piperead access n) 0 (fun r k =>
      k ≤ n.toNat ∧ (r = -1 ∨ r = k)) := by
  refine delivers_read_bind (fun _ _ => rfl) fun io => ?_
  refine delivers_bind (delivers_awaitInput _ _) fun ready k hk => ?_
  subst hk
  refine delivers_ite (fun _ => ?_) fun _ =>
    delivers_pure _ ⟨Nat.zero_le _, Or.inl rfl⟩
  refine delivers_bind (delivers_pipereadCopy access n.toNat 0) ?_
  rintro r k ⟨hr, hk⟩
  exact delivers_pure _ ⟨by simpa using hk, Or.inr (by simp [hr])⟩

theorem delivers_consolereadFrom (left i : Nat) :
    Delivers (consolereadFrom access left i) i (fun r k => k ≤ left ∧ (r = -1 ∨ r = i + k)) := by
  induction left generalizing i with
  | zero => exact delivers_pure _ ⟨Nat.le_refl 0, Or.inr (by simp)⟩
  | succ left ih =>
    have hdone : ∀ {i : Nat}, Delivers (pure (i : Int) : Code ReadIo Int) i
        (fun r k => k ≤ left + 1 ∧ (r = -1 ∨ r = i + k)) :=
      delivers_pure _ ⟨Nat.zero_le _, Or.inr (by simp)⟩
    refine delivers_read_bind (fun _ _ => rfl) fun io => ?_
    refine delivers_bind (delivers_awaitInput _ _) fun ready k hk => ?_
    subst hk
    refine delivers_ite (fun _ => ?_) fun _ =>
      delivers_pure _ ⟨Nat.zero_le _, Or.inl rfl⟩
    refine delivers_read_bind (fun _ _ => rfl) fun io => ?_
    refine delivers_bind (delivers_update fun _ _ => rfl) fun _ k hk => ?_
    subst hk
    refine delivers_ite (fun _ => ?_) fun _ => ?_
    · have hsave : ∀ r, Delivers (when (0 < i) (update (fun io : ReadIo =>
          io.withWorld (io.world.withCons r)))) i (fun _ k => k = 0) :=
        fun r => delivers_ite (fun _ => delivers_update fun _ _ => rfl) fun _ => delivers_pure _ rfl
      refine delivers_bind (hsave _) fun _ k hk => ?_
      subst hk
      simpa using hdone
    refine delivers_bind (delivers_copyoutByte access _) fun ok k hk => ?_
    subst hk
    cases ok with
    | false => simpa using hdone
    | true =>
      refine delivers_ite (fun _ => ?_) fun habs => absurd rfl habs
      refine delivers_ite (fun _ => ?_) fun _ io => ?_
      · exact delivers_pure _ ⟨by simp, Or.inr (by simp)⟩
      rcases ih (i + 1) io with hstop | ⟨r, k, data, io', ⟨hk, hr⟩, hok⟩
      · exact Or.inl hstop
      · refine Or.inr ⟨r, k, data, io', ⟨by simp; omega, ?_⟩, hok⟩
        rcases hr with hr | hr
        · exact Or.inl hr
        · exact Or.inr (by rw [hr]; push_cast; simp; ring)

end Delivers

section Inode

variable {fs : Fs} {ip : InodeRef}

/-- An inode that a reader can lock: nobody has it locked, and it is there. -/
structure Fs.CanLock (fs : Fs) (ip : InodeRef) : Prop where
  ref : 0 < (fs.inode ip).ref
  unlocked : (fs.inode ip).locked = false
  inum : (fs.inode ip).inum < fs.sb.ninodes
  type : (fs.dinode (fs.inode ip).inum).type ≠ 0

theorem ilock_run (hok : fs.Ok) (hip : fs.CanLock ip) :
    ilock ip fs = .ok ((), fs.lockInode ip) := by
  have hlive := hip.ref
  unfold ilock acquireSleep
  rw [read_bind, if_neg (by omega), bind_of_ok (by rw [read_bind, hip.unlocked]; rfl)]
  cases hvalid : (fs.inode ip).valid with
  | true =>
    have hsync := hok.sync ip hip.ref hvalid
    rw [if_pos rfl, pure_run, Fs.lockInode, Fs.withInode, ← hsync]
    dsimp only
    rw [hvalid]
  | false =>
    simp only [Bool.false_eq_true, if_false]
    rw [bind_of_ok (show setInode ip _ _ = .ok ((), _) from rfl), if_neg hip.type, pure_run]
    simp [Fs.lockInode, Fs.withInode]

theorem iunlock_run (hlocked : (fs.inode ip).locked = true) (href : 0 < (fs.inode ip).ref) :
    iunlock ip fs = .ok ((), fs.unlockInode ip) := by
  unfold iunlock
  rw [read_bind, if_neg (by simp [hlocked]; omega)]
  rfl

theorem readFs_of_ok {A : Type} {code : Code Fs A} {io : ReadIo} {value : A}
    {fs : Fs} (hcode : code io.fs = .ok (value, fs)) :
    readFs code io = .ok (value, { io with fs := fs }) := by
  simp only [readFs, within, hcode]

/-- The contents and the size of a file that can be read. -/
def ReadIo.dinode (io : ReadIo) : Dinode :=
  io.fs.dinode (io.fs.inode io.file.ip).inum

/-- How much `readi` is going to deliver, bad pages apart. -/
def ReadIo.wanted (io : ReadIo) (n : Int) : Nat :=
  io.dinode.readable io.file.off.toNat (toUint n)

/-- Every byte that `readi` delivers has a place. -/
def ReadIo.AllFit (io : ReadIo) (access : Nat → Bool) (n : Int) : Prop :=
  reach access 0 (io.wanted n) = io.wanted n

instance (io : ReadIo) (access : Nat → Bool) (n : Int) :
    Decidable (io.AllFit access n) := inferInstanceAs (Decidable (_ = _))

def ReadIo.advanced (io : ReadIo) (access : Nat → Bool) (n : Int) : File :=
  { io.file with
    off := io.file.off + UInt32.ofNat (if io.AllFit access n then io.wanted n else 0) }

def ReadIo.filled (io : ReadIo) (access : Nat → Bool) (n : Int) : Bytes :=
  blit io.mem 0 (reach access 0 (io.wanted n)) (fun i =>
    io.dinode.byte io.fs.disk (io.file.off.toNat + i))

theorem filereadInode_run {io : ReadIo} (hok : io.fs.Ok) (hip : io.fs.CanLock io.file.ip)
    (access : Nat → Bool) (n : Int) : ∃ fs', filereadInode access n io =
      .ok (if io.AllFit access n then (io.wanted n : Int) else -1, { io with
          fs := fs'
          file := io.advanced access n
          mem := io.filled access n }) := by
  have hself : (io.fs.lockInode io.file.ip).inode io.file.ip = { io.fs.inode io.file.ip with
        locked := true, valid := true, copy := io.dinode } := by
    rw [Fs.lockInode, withInode_self]
    rfl
  have hfull : ((io.fs.lockInode io.file.ip).inode io.file.ip).copy.Full
      (io.fs.lockInode io.file.ip).disk := by
    rw [hself]
    exact hok.sound.full _ hip.inum hip.type
  have hread := readi_user hfull access io.mem io.file.off.toNat (toUint n)
  have hdisk : (io.fs.lockInode io.file.ip).disk = io.fs.disk := rfl
  simp only [hself, hdisk] at hread
  have hunlock : iunlock io.file.ip (io.fs.lockInode io.file.ip) =
      .ok ((), (io.fs.lockInode io.file.ip).unlockInode io.file.ip) := by
    refine iunlock_run ?_ ?_
    · rw [hself]
    · rw [hself]
      exact hip.ref
  refine ⟨(io.fs.lockInode io.file.ip).unlockInode io.file.ip, ?_⟩
  unfold filereadInode
  rw [read_bind, bind_of_ok (readFs_of_ok (ilock_run hok hip)),
    bind_of_ok (readFs_of_ok hread), update_bind]
  change (match (if io.AllFit access n then some (io.wanted n) else none) with
    | none => _ | some r => _ : Code _ _) _ = _
  unfold ReadIo.advanced
  by_cases hall : io.AllFit access n
  · simp only [if_pos hall]
    rw [update_bind]
    exact bind_of_ok (readFs_of_ok hunlock)
  · simp only [if_neg hall]
    rw [bind_of_ok (readFs_of_ok hunlock), pure_run]
    simp [ReadIo.withMem, ReadIo.filled, ReadIo.wanted, ReadIo.dinode]

end Inode

section Count

variable {io : ReadIo} {access : Nat → Bool} {n : Int}

/-- The call writes at most `n` bytes, from `addr` on; it returns their number
or -1, and moves the offset of an inode by as much as it returns. -/
def ReadIo.WithinCount (io : ReadIo) (access : Nat → Bool) (n : Int) : Prop :=
  ∃ k data, k ≤ n.toNat ∧ ∀ mem r io', fileread access n (io.withMem mem) = .ok (r, io') →
      io'.mem = blit mem 0 k data ∧ (r = -1 ∨ r = k) ∧ (io.file.type = .inode →
        io'.file.off.toNat = io.file.off.toNat + r.toNat)

/-- A read of an inode with a negative count that `readi` takes for a large
one: the sum with the offset does not wrap, there are bytes left, and the user
can write the first of them. -/
def ReadIo.Overreads (io : ReadIo) (access : Nat → Bool) (n : Int) : Prop :=
  io.file.readable ≠ 0 ∧ io.file.type = .inode ∧ n < 0 ∧ io.file.off.toNat + toUint n < 2 ^ 32 ∧
    io.file.off.toNat < io.dinode.size.toNat ∧ access 0 = true

instance (io : ReadIo) (access : Nat → Bool) (n : Int) : Decidable (io.Overreads access n) :=
  inferInstanceAs (Decidable (_ ∧ _ ∧ _ ∧ _ ∧ _ ∧ _))

/-- A back end that looks at no user memory is within the count. -/
theorem Delivers.withinCount {code : Code ReadIo Int}
    (hcode : Delivers code 0 (fun r k => k ≤ n.toNat ∧ (r = -1 ∨ r = k)))
    (hrun : ∀ mem, fileread access n (io.withMem mem) = code (io.withMem mem))
    (htype : io.file.type ≠ .inode) : io.WithinCount access n := by
  rcases hcode io with ⟨reason, herror⟩ | ⟨value, k, data, io₁, ⟨hk, hr⟩, hok⟩
  · refine ⟨0, fun _ => 0, Nat.zero_le _, fun mem r io' hread => ?_⟩
    rw [hrun, herror] at hread
    cases hread
  · refine ⟨k, data, hk, fun mem r io' hread => ?_⟩
    rw [hrun, hok] at hread
    cases hread
    exact ⟨rfl, hr, fun habs => absurd habs htype⟩

theorem toUint_of_neg (hn : n < 0) (hmin : -2 ^ 31 ≤ n) : (toUint n : Int) = 2 ^ 32 + n := by
  unfold toUint
  omega

theorem ReadIo.wanted_le_left (io : ReadIo) (n : Int) :
    io.wanted n ≤ io.dinode.size.toNat - io.file.off.toNat := by
  unfold ReadIo.wanted Dinode.readable
  split
  · exact Nat.zero_le _
  · exact Nat.min_le_right _ _

/-- Where the count is negative, something is wanted only if the sum with the
offset does not wrap. -/
theorem ReadIo.wanted_of_neg (hn : n < 0) (hmin : -2 ^ 31 ≤ n) :
    0 < io.wanted n ↔ io.file.off.toNat + toUint n < 2 ^ 32 ∧
      io.file.off.toNat < io.dinode.size.toNat := by
  have huint := toUint_of_neg hn hmin
  have hoff := io.file.off.toNat_lt
  unfold ReadIo.wanted Dinode.readable
  split <;> omega

theorem ReadIo.wanted_le_of_nonneg (hn : 0 ≤ n) (hmax : n < 2 ^ 31) : io.wanted n ≤ n.toNat := by
  unfold ReadIo.wanted Dinode.readable
  rw [show toUint n = n.toNat by unfold toUint; omega]
  split
  · exact Nat.zero_le _
  · exact Nat.min_le_left _ _

/-- The first byte of a transfer is written if there is one and its page can be
written. -/
theorem reach_pos_iff {tot m : Nat} : 0 < reach access tot m ↔ 0 < m ∧ access tot = true := by
  cases m with
  | zero => simp [reach]
  | succ m =>
    rw [reach]
    split
    next hfirst => simp [hfirst]
    next hfirst => simp [hfirst]

theorem ReadIo.advanced_off (io : ReadIo) (access : Nat → Bool) (n : Int) :
    (io.advanced access n).off.toNat = io.file.off.toNat +
      (if io.AllFit access n then (io.wanted n : Int) else -1).toNat := by
  have hleft := io.wanted_le_left n
  have hoff := io.file.off.toNat_lt
  have hsize := io.dinode.size.toNat_lt
  unfold ReadIo.advanced
  by_cases hall : io.AllFit access n
  · rw [if_pos hall, if_pos hall, UInt32.toNat_add, UInt32.toNat_ofNat']
    omega
  · rw [if_neg hall, if_neg hall]
    simp

theorem fileread_inode (hread : io.file.readable ≠ 0)
    (htype : io.file.type = .inode) (mem : Bytes) : fileread access n (io.withMem mem) =
      filereadInode access n (io.withMem mem) := by
  unfold fileread
  rw [read_bind, if_neg (by exact hread)]
  change (match io.file.type with
    | .pipe => _ | .device => _ | .inode => _ | .none => _ : Code _ _) _ = _
  rw [htype]

/-- `fileread` never exceeds its count, unless it reads an inode with a
negative one whose sum with the offset does not wrap. -/
theorem fileread_within_count_iff (hok : io.fs.Ok)
    (hip : io.file.type = .inode → io.fs.CanLock io.file.ip)
    (hmin : -2 ^ 31 ≤ n) (hmax : n < 2 ^ 31) :
    io.WithinCount access n ↔ ¬ io.Overreads access n := by
  constructor
  · rintro ⟨k, data, hk, hrun⟩ ⟨hread, htype, hneg, hwrap, hleft, hfirst⟩
    -- memory that differs from the file at the first byte shows the write
    obtain ⟨fs', hinode⟩ := @filereadInode_run (io.withMem fun _ =>
      io.dinode.byte io.fs.disk io.file.off.toNat + 1) hok (hip htype) access n
    rw [← fileread_inode hread htype] at hinode
    have hmem := congrFun (hrun _ _ _ hinode).1 0
    have hzero : k = 0 := by omega
    have hpos : 0 < reach access 0 (io.wanted n) := reach_pos_iff.mpr
      ⟨(ReadIo.wanted_of_neg hneg hmin).mpr ⟨hwrap, hleft⟩, hfirst⟩
    have hwritten : (io.withMem fun _ => io.dinode.byte io.fs.disk
        io.file.off.toNat + 1).filled access n 0 = io.dinode.byte io.fs.disk io.file.off.toNat :=
      blit_inside _ _ (Nat.le_refl 0) (by rw [Nat.zero_add]; exact hpos)
    rw [hzero, blit_zero] at hmem
    have hbyte : io.dinode.byte io.fs.disk io.file.off.toNat =
        io.dinode.byte io.fs.disk io.file.off.toNat + 1 := hwritten.symm.trans hmem
    simp at hbyte
  · intro hfine
    by_cases hread : io.file.readable = 0
    · refine ⟨0, fun _ => 0, Nat.zero_le _, fun mem r io' hrun => ?_⟩
      have hres : fileread access n (io.withMem mem) = .ok (-1, io.withMem mem) := by
        unfold fileread
        rw [read_bind, if_pos (by exact hread)]
        rfl
      rw [hres] at hrun
      cases hrun
      exact ⟨(blit_zero _ _ _).symm, Or.inl rfl, fun _ => by simp [ReadIo.withMem]⟩
    have hstart : ∀ mem, fileread access n (io.withMem mem) = (match io.file.type with
          | .pipe => piperead access n
          | .device => if io.file.major = CONSOLE then consoleread access n
              else pure (-1)
          | .inode => filereadInode access n
          | .none => .panic "fileread") (io.withMem mem) := by
      intro mem
      unfold fileread
      rw [read_bind, if_neg (by exact hread)]
      rfl
    cases htype : io.file.type with
    | pipe =>
      refine (delivers_piperead access n).withinCount (fun mem => ?_) (by rw [htype]; decide)
      rw [hstart, htype]
    | none =>
      refine ⟨0, fun _ => 0, Nat.zero_le _, fun mem r io' hrun => ?_⟩
      rw [hstart, htype] at hrun
      cases hrun
    | device =>
      have hcode : Delivers (if io.file.major = CONSOLE then
          consoleread access n else pure (-1)) 0
          (fun r k => k ≤ n.toNat ∧ (r = -1 ∨ r = k)) := by
        refine delivers_ite (fun _ => ?_) fun _ =>
          delivers_pure _ ⟨Nat.zero_le _, Or.inl rfl⟩
        simpa [consoleread] using delivers_consolereadFrom access n.toNat 0
      refine hcode.withinCount (fun mem => ?_) (by rw [htype]; decide)
      rw [hstart, htype]
    | inode =>
      have hbound : reach access 0 (io.wanted n) ≤ n.toNat := by
        rcases Int.lt_or_le n 0 with hneg | hnn
        · have hnone : ¬ 0 < reach access 0 (io.wanted n) := by
            intro hpos
            obtain ⟨hsome, hfirst⟩ := reach_pos_iff.mp hpos
            obtain ⟨hwrap, hleft⟩ := (ReadIo.wanted_of_neg hneg hmin).mp hsome
            exact hfine ⟨hread, htype, hneg, hwrap, hleft, hfirst⟩
          omega
        · exact (reach_le _ _ _).trans (ReadIo.wanted_le_of_nonneg hnn hmax)
      refine ⟨reach access 0 (io.wanted n), fun i =>
        io.dinode.byte io.fs.disk (io.file.off.toNat + i), hbound, fun mem r io' hrun => ?_⟩
      obtain ⟨fs', hinode⟩ := @filereadInode_run (io.withMem mem) hok (hip htype) access n
      rw [fileread_inode hread htype, hinode] at hrun
      cases hrun
      refine ⟨rfl, ?_, fun _ => (io.withMem mem).advanced_off access n⟩
      by_cases hall : (io.withMem mem).AllFit access n
      · rw [if_pos hall]
        exact Or.inr (congrArg Int.ofNat (Eq.symm hall))
      · exact Or.inl (if_neg hall)

/-- A process that has the file `c` open from the start, and finds two bytes in
a pipe. -/
def openIo : ReadIo where
  fs := (smallFs (fun i => if i = 0 then 0xff else 0) 3 (fun _ => 0xAA)).withInode
    1 (fun inode => { inode with inum := 2, ref := 1 })
  file := ⟨.inode, 1, 1, 0, 0, 1, 0, 0⟩
  world := ⟨⟨⟨fun k => if k = 0 then 7 else 8, 0, 2⟩, true, true⟩, Cons.boot, false⟩
  wakes := []
  mem := fun _ => 0

theorem openIo_ok : openIo.fs.Ok := by
  have hok : (smallFs (fun i => if i = 0 then 0xff else 0) 3
      (fun _ => 0xAA)).Ok := smallFs_ok rfl (by decide)
  refine @Fs.Ok.withInode _ hok 1 (fun inode =>
    { inode with inum := 2, ref := 1 }) (by decide) ?_ ?_
  · intro _ e _ he heq
    simp only [smallFs] at he heq
    split at heq
    · exact absurd heq (by decide)
    next hzero =>
      rw [if_neg hzero] at he
      exact absurd he (by decide)
  · exact fun _ hvalid => absurd hvalid (by decide)

theorem openIo_canLock : openIo.fs.CanLock openIo.file.ip :=
  ⟨by decide +kernel, by decide +kernel, by decide +kernel, by decide +kernel⟩

/-- A count of two is kept. -/
theorem fileread_within_count_two : ¬ openIo.Overreads (fun _ => true) 2 ∧
      openIo.WithinCount (fun _ => true) 2 :=
  ⟨by decide +kernel, (fileread_within_count_iff openIo_ok
    (fun _ => openIo_canLock) (by decide) (by decide)).mpr (by decide +kernel)⟩

/-- A count of -1 at offset 0 reads the whole file. -/
theorem fileread_exceeds_negative_count : openIo.fs.Ok ∧ openIo.fs.CanLock openIo.file.ip ∧
      (∃ io', fileread (fun _ => true) (-1) openIo = .ok (3, io') ∧
        io'.mem 0 = 0xAA ∧ openIo.mem 0 = 0) ∧ ¬ openIo.WithinCount (fun _ => true) (-1) := by
  have hseen : wp (fileread (fun _ => true) (-1)) openIo
      (fun r io' => r = 3 ∧ io'.mem 0 = 0xAA) := by
    decide +kernel
  obtain ⟨_, io', hrun, rfl, hmem⟩ := hseen
  refine ⟨openIo_ok, openIo_canLock, ⟨io', hrun, hmem, rfl⟩, ?_⟩
  rintro ⟨k, data, hk, hall⟩
  have hres := (hall openIo.mem 3 io' hrun).2.1
  omega

end Count

section Pipe

variable {io io' : ReadIo} {access : Nat → Bool}

/-- The number of bytes in the pipe. -/
def World.inside (world : World) : Nat :=
  (world.pipe.ring.nwrite - world.pipe.ring.nread).toNat

/-- Byte `k` of those in the pipe, oldest first. -/
def World.pending (world : World) (k : Nat) : UInt8 :=
  world.pipe.ring.data
    ((world.pipe.ring.nread + BitVec.ofNat 32 k).toNat % PIPESIZE)

/-- The pipe after `count` bytes have been taken out. -/
def World.consumed (world : World) (count : Nat) : World :=
  world.withRing { world.pipe.ring with
    nread := world.pipe.ring.nread + BitVec.ofNat 32 count }

theorem World.inside_eq_zero_iff (world : World) : world.inside = 0 ↔ world.pipe.ring.Empty := by
  unfold World.inside RingBuffer.Empty
  constructor <;> intro heq <;> bv_omega

theorem World.inside_drop {world : World} (hmore : ¬ world.pipe.ring.Empty) :
    (world.withRing world.pipe.ring.drop).inside + 1 = world.inside := by
  unfold RingBuffer.Empty at hmore
  change (world.pipe.ring.nwrite - (world.pipe.ring.nread + 1)).toNat + 1 =
    (world.pipe.ring.nwrite - world.pipe.ring.nread).toNat
  bv_omega

theorem counter_succ (counter : BitVec 32) (k : Nat) :
    counter + 1 + BitVec.ofNat 32 k = counter + BitVec.ofNat 32 (k + 1) := by
  rw [BitVec.ofNat_add, BitVec.add_assoc, BitVec.add_comm 1]
  rfl

theorem World.pending_drop (world : World) (k : Nat) :
    (world.withRing world.pipe.ring.drop).pending k = world.pending (k + 1) := by
  unfold World.pending
  rw [← counter_succ]
  rfl

theorem World.consumed_drop (world : World) (count : Nat) :
    (world.withRing world.pipe.ring.drop).consumed count = world.consumed (count + 1) := by
  unfold World.consumed
  rw [← counter_succ]
  rfl

/-- The bytes that the copy loop takes out to deliver `got` of `count`: one more
where it meets a page it cannot write. -/
def takenOut (got count : Nat) : Nat := if got < count then got + 1 else got

theorem takenOut_succ (got count : Nat) :
    takenOut (got + 1) (count + 1) = takenOut got count + 1 := by
  unfold takenOut
  split <;> split <;> omega

/-- The byte taken out first and those after it are one copy. -/
theorem blit_pending (mem : Bytes) (i got : Nat) (world : World) :
    blit (blit mem i 1 fun _ => world.pipe.ring.front PIPESIZE) (i + 1) got
        (world.withRing world.pipe.ring.drop).pending = blit mem i (got + 1) world.pending := by
  have hfront : world.pipe.ring.front PIPESIZE = world.pending 0 := by
    simp [RingBuffer.front, World.pending]
  rw [hfront, funext world.pending_drop]
  exact blit_succ mem i got world.pending

theorem pipereadCopy_run (access : Nat → Bool) (left i : Nat) (io : ReadIo) :
    let count := min left io.world.inside
    let got := reach access i count
    pipereadCopy access left i io = .ok (i + got,
      (io.withWorld (io.world.consumed (takenOut got count))).withMem
        (blit io.mem i got io.world.pending)) := by
  induction left generalizing i io with
  | zero =>
    simp only [Nat.zero_min, reach, blit_zero]
    simp [takenOut, pipereadCopy, pure_run, ReadIo.withWorld, ReadIo.withMem,
      World.consumed, World.withRing]
  | succ left ih =>
    unfold pipereadCopy
    rw [read_bind]
    by_cases hempty : io.world.pipe.ring.Empty
    · have hnone := (World.inside_eq_zero_iff _).mpr hempty
      simp only [if_pos hempty, hnone, Nat.min_zero, reach, blit_zero, pure_run]
      simp [takenOut, ReadIo.withWorld, ReadIo.withMem, World.consumed, World.withRing]
    have hinside := World.inside_drop hempty
    have hcount : min (left + 1) io.world.inside = min left
        (io.world.withRing io.world.pipe.ring.drop).inside + 1 := by omega
    rw [if_neg hempty, update_bind]
    simp only [hcount, reach]
    cases hfirst : access i with
    | false =>
      rw [bind_of_ok (show copyoutByte access i _ _ = .ok (false, _) by
        simp only [copyoutByte, hfirst]
        rfl)]
      simp only [Bool.false_eq_true, if_false, takenOut, Nat.succ_pos,
        if_true, blit_zero, pure_run, Nat.zero_add, Nat.add_zero]
      rw [← World.consumed_drop]
      simp [ReadIo.withWorld, ReadIo.withMem, World.consumed, World.withRing]
    | true =>
      rw [bind_of_ok (show copyoutByte access i _ _ = .ok (true, _) by
        simp only [copyoutByte, hfirst]
        rfl)]
      simp only [if_true]
      rw [ih]
      simp only [ReadIo.withMem_world, ReadIo.withWorld_world,
        ReadIo.withMem_mem, ReadIo.withWorld_mem, blit_pending]
      simp only [World.consumed_drop, takenOut_succ]
      rw [Nat.add_assoc i 1, Nat.add_comm 1]
      rfl

/-- `piperead` waits for the first state in which there is something to return.
-/
theorem awaitInput_ready (ready : World → Prop) [DecidablePred ready]
    {fuel : Nat} (hwait : awaitInput ready fuel io = .ok (true, io')) :
    (io.world :: io.wakes).find? (fun world => decide (ready world)) =
      some io'.world ∧ io'.mem = io.mem := by
  induction fuel generalizing io with
  | zero => cases hwait
  | succ fuel ih =>
    unfold awaitInput at hwait
    rw [read_bind] at hwait
    split at hwait
    next hready =>
      cases hwait
      exact ⟨by rw [List.find?_cons_of_pos (by simpa using hready)], rfl⟩
    next hready =>
      rw [List.find?_cons_of_neg (by simpa using hready)]
      split at hwait
      next => cases hwait
      next =>
        obtain ⟨_, io₁, hsleep, hrest⟩ := bind_eq_ok.mp hwait
        unfold sleepOn at hsleep
        split at hsleep
        next => cases hsleep
        next world rest hwakes =>
          cases hsleep
          rw [hwakes]
          exact ih hrest

/-- What `piperead` returns was removed from the pipe and delivered in order;
and it has removed no more than that exactly if it met no page that it cannot
write. -/
theorem piperead_lossless_iff {n r : Int}
    (hread : piperead access n io = .ok (r, io')) (hr : 0 ≤ r) :
    ∃ world, (io.world :: io.wakes).find? (fun world =>
        decide world.PipeReady) = some world ∧
      io'.mem = blit io.mem 0 r.toNat world.pending ∧ r.toNat ≤ world.inside ∧
      (((io'.world.pipe.ring.nread - world.pipe.ring.nread).toNat : Int) = r ↔
        ∀ k, k < min n.toNat world.inside → access k = true) := by
  unfold piperead at hread
  rw [read_bind] at hread
  obtain ⟨ready, io₁, hwait, hcopy⟩ := bind_eq_ok.mp hread
  cases ready with
  | false =>
    cases hcopy
    exact absurd hr (by decide)
  | true =>
    obtain ⟨hfound, hmem⟩ := awaitInput_ready _ hwait
    rw [if_pos rfl, bind_of_ok (pipereadCopy_run access n.toNat 0 io₁)] at hcopy
    cases hcopy
    have hle := reach_le access 0 (min n.toNat io₁.world.inside)
    have hinside : io₁.world.inside < 2 ^ 32 :=
      (io₁.world.pipe.ring.nwrite - io₁.world.pipe.ring.nread).isLt
    refine ⟨io₁.world, hfound, ?_, ?_, ?_⟩
    · rw [← hmem]
      simp
    · simp only [Nat.zero_add, Int.toNat_natCast]
      omega
    · have hall := @reach_eq_iff access 0 (min n.toNat io₁.world.inside)
      simp only [Nat.zero_add] at hall ⊢
      rw [← hall]
      generalize reach access 0 (min n.toNat io₁.world.inside) = got at *
      have hcount : ∀ count, count < 2 ^ 32 → (((io₁.withWorld
          (io₁.world.consumed count)).withMem (blit io₁.mem 0 got
            io₁.world.pending)).world.pipe.ring.nread -
          io₁.world.pipe.ring.nread).toNat = count := by
        intro count hlt
        change (io₁.world.pipe.ring.nread + BitVec.ofNat 32 count -
          io₁.world.pipe.ring.nread).toNat = count
        rw [BitVec.add_comm, BitVec.add_sub_cancel]
        exact Nat.mod_eq_of_lt hlt
      unfold takenOut
      split
      next hbad =>
        rw [hcount _ (by omega)]
        omega
      next hfine =>
        rw [hcount _ (by omega)]
        omega

/-- Both bytes fit. -/
theorem piperead_lossless_fits : ∃ io', piperead (fun _ => true) 5 openIo = .ok (2, io') ∧
      (((io'.world.pipe.ring.nread - openIo.world.pipe.ring.nread).toNat : Int) = 2) := by
  have hseen : wp (piperead (fun _ => true) 5) openIo (fun r _ => r = 2) := by
    decide +kernel
  obtain ⟨_, io', hrun, rfl⟩ := hseen
  obtain ⟨world, hfound, _, _, hiff⟩ := piperead_lossless_iff hrun (by decide)
  have hworld : openIo.world = world := by
    rwa [List.find?_cons_of_pos (by decide +kernel), Option.some.injEq] at hfound
  exact ⟨io', hrun, hworld ▸ hiff.mpr fun _ _ => rfl⟩

/-- The destination cannot be written: nothing is returned, and the first byte
is gone. -/
theorem piperead_loses_byte : ∃ io', piperead (fun _ => false) 5 openIo = .ok (0, io') ∧
      (io'.world.pipe.ring.nread - openIo.world.pipe.ring.nread).toNat = 1 ∧
      openIo.world.pending 0 = 7 ∧ io'.world.pending 0 = 8 := by
  have hseen : wp (piperead (fun _ => false) 5) openIo (fun r io' => r = 0 ∧
      (io'.world.pipe.ring.nread - openIo.world.pipe.ring.nread).toNat = 1 ∧
      io'.world.pending 0 = 8) := by
    decide +kernel
  obtain ⟨_, io', hrun, rfl, hcount, hnext⟩ := hseen
  exact ⟨io', hrun, hcount, rfl, hnext⟩

end Pipe

/-! ### The console and the pipe -/

section Elsewhere

variable {access : Nat → Bool} {io : ReadIo}

theorem awaitInput_sleeps {ready : World → Prop} [DecidablePred ready] {world : World}
    {rest : List World} (hidle : ¬ ready io.world) (hkilled : io.world.killed = false)
    (hwakes : io.wakes = world :: rest) : awaitInput ready (io.wakes.length + 1) io =
      awaitInput ready (rest.length + 1) { io with world := world, wakes := rest } := by
  have hsleep : sleepOn io = .ok ((), { io with world := world, wakes := rest }) := by
    rw [sleepOn, hwakes]
  rw [awaitInput, read_bind, if_neg hidle, hkilled, if_neg (by decide), bind_of_ok hsleep, hwakes]
  rfl

/-- A reader that finds nothing starts again after its sleep. -/
theorem consolereadFrom_idle {left i : Nat} (hidle : ¬ io.world.ConsReady) :
    consolereadFrom access (left + 1) i io = (if io.world.killed then pure (-1) else do
      sleepOn
      consolereadFrom access (left + 1) i) io := by
  cases hkilled : io.world.killed with
  | true =>
    have hwait : awaitInput World.ConsReady (io.wakes.length + 1) io = .ok (false, io) := by
      rw [awaitInput, read_bind, if_neg hidle, hkilled, if_pos rfl, pure_run]
    rw [consolereadFrom, read_bind, bind_of_ok hwait]
    rfl
  | false =>
    rw [if_neg (by decide)]
    cases hwakes : io.wakes with
    | nil =>
      have hsleep : sleepOn io = .error .sleep := by rw [sleepOn, hwakes]
      have hwait : awaitInput World.ConsReady (io.wakes.length + 1) io = .error .sleep := by
        rw [awaitInput, read_bind, if_neg hidle, hkilled, if_neg (by decide), bind_of_error hsleep]
      rw [consolereadFrom, read_bind, bind_of_error hwait, bind_of_error hsleep]
    | cons world rest =>
      have hsleep : sleepOn io = .ok ((), { io with world := world, wakes := rest }) := by
        rw [sleepOn, hwakes]
      rw [bind_of_ok hsleep, consolereadFrom, read_bind, read_bind]
      change seq _ _ _ = seq _ _ _
      rw [seq, seq, awaitInput_sleeps hidle hkilled hwakes]

/-- How a call goes on where the model of the console alone stops. -/
def afterStop (access : Nat → Bool) (target : Nat) : Console.Stop → Code ReadIo Int
  | .asleep n => do
    sleepOn
    consolereadFrom access n (target - n)
  | .killed => pure (-1)
  | .returned n => pure ((target - n : Nat) : Int)

/-- The bytes of a list, in memory. -/
def ReadIo.given (io : ReadIo) (i : Nat) (bytes : List UInt8) (cons : Cons) : ReadIo :=
  (io.withWorld { io.world with cons := cons }).withMem
    (blit io.mem i bytes.length (bytes.getD · 0))

theorem ReadIo.given_cons (io : ReadIo) (i : Nat) (c : UInt8) (more : List UInt8)
    (r : BitVec 32) (cons : Cons) : ((io.withWorld (io.world.withCons r)).withMem
      (blit io.mem i 1 fun _ => c)).given (i + 1) more cons = io.given i (c :: more) cons :=
  congrArg (ReadIo.withMem _) (blit_succ io.mem i more.length ((c :: more).getD · 0))

/-- Up to its end or its sleep, a read of the console whose destination can be
written takes the bytes that the console's own model hands out. -/
theorem consolereadFrom_eq (haccess : ∀ i, access i = true) {left target : Nat}
    (hleft : left ≤ target) (io : ReadIo) (got : List UInt8) : ∃ cons more stop,
      Console.consoleread io.world.killed target left io.world.cons got =
        (cons, got ++ more, stop) ∧ consolereadFrom access left (target - left) io =
          afterStop access target stop (io.given (target - left) more cons) := by
  have hnone : ∀ (io : ReadIo) (i : Nat) (cons : Cons), cons = io.world.cons →
      io.given i [] cons = io := by
    rintro io i _ rfl
    simp [ReadIo.given, ReadIo.withWorld, ReadIo.withMem, blit_zero]
  induction left generalizing io got with
  | zero =>
    refine ⟨io.world.cons, [], .returned 0, by simp [Console.consoleread], ?_⟩
    rw [hnone _ _ _ rfl]
    rfl
  | succ left ih =>
    by_cases hready : io.world.ConsReady
    · have hwait : awaitInput World.ConsReady (io.wakes.length + 1) io = .ok (true, io) := by
        rw [awaitInput, read_bind, if_pos hready, pure_run]
      rw [consolereadFrom, read_bind, bind_of_ok hwait, if_pos rfl, read_bind, update_bind,
        Console.consoleread, if_neg hready]
      dsimp only
      generalize hc : io.world.cons.buf (io.world.cons.r.toNat % INPUT_BUF_SIZE) = c
      by_cases heof : c = ctrlD
      · rw [if_pos heof, if_pos heof]
        by_cases hsome : left + 1 < target
        · refine ⟨_, [], _, by rw [if_pos hsome, List.append_nil], ?_⟩
          rw [when, if_pos (by omega), update_bind, BitVec.add_sub_cancel, hnone io _ _ rfl]
          rfl
        · refine ⟨_, [], _, by rw [if_neg hsome, List.append_nil], ?_⟩
          rw [when, if_neg (by omega), ← hnone (io.withWorld _) (target - (left + 1)) _ rfl]
          rfl
      have hnext : target - (left + 1) + 1 = target - left := by omega
      have hcopy : ∀ io', copyoutByte access (target - (left + 1)) c io' =
          .ok (true, io'.withMem (blit io'.mem (target - (left + 1)) 1 fun _ => c)) := by
        intro io'
        rw [copyoutByte, haccess, if_pos rfl, update_bind, pure_run]
      rw [if_neg heof, if_neg heof, bind_of_ok (hcopy _), if_pos rfl, ReadIo.withWorld_mem]
      by_cases hline : c = newline
      · refine ⟨_, [c], _, by rw [if_pos hline], ?_⟩
        rw [if_pos hline, afterStop, ← hnext, ← io.given_cons _ _ _ (io.world.cons.r + 1),
          hnone _ _ _ (by rfl)]
        rfl
      · rw [if_neg hline, if_neg hline, hnext]
        obtain ⟨cons, more, stop, hmodel, hcode⟩ := ih (by omega) _ (got ++ [c])
        refine ⟨cons, c :: more, stop, hmodel.trans (by simp), hcode.trans ?_⟩
        rw [← hnext, ReadIo.given_cons]
    · have hidle : io.world.cons.r = io.world.cons.w := not_not.mp hready
      rw [Console.consoleread, if_pos hidle, consolereadFrom_idle hready]
      refine ⟨io.world.cons, [], _, by rw [List.append_nil], ?_⟩
      rw [hnone _ _ _ rfl]
      cases io.world.killed <;> rfl

/-- With the lock held, the copy loop of `piperead` is that of the pipe's own
model. -/
theorem pipereadCopy_turns {P : Type} [DecidableEq P] {p : P} {state : PipeRing.State P}
    {r : PipeRing.Read} {left : Nat} (hleft : r.n.toNat - r.got.length = left)
    (hmode : (state.thread p).mode = .copying r) (hpipe : state.pipe = io.world.pipe) :
    ∃ turns state' k io' out, Machine.run PipeRing.step state (List.replicate turns (.turn p)) =
        some state' ∧ (state'.thread p).mode = .outside ∧ state'.removed = state.removed ++ out ∧
      pipereadCopy r.dst left r.got.length io = .ok (r.got.length + k, io') ∧
      state'.pipe = io'.world.pipe ∧ io'.mem = blit io.mem r.got.length k (out.getD · 0) := by
  have hset : ∀ (state : PipeRing.State P) mode, ((state.setMode p mode).thread p).mode = mode := by
    simp [PipeRing.State.setMode]
  have hone : ∀ {state next : PipeRing.State P}, PipeRing.step state (.turn p) = some next →
      Machine.run PipeRing.step state (List.replicate 1 (.turn p)) = some next := by
    intro state next hstep
    simp only [List.replicate, Machine.run, hstep]
  induction left generalizing state r io with
  | zero =>
    have hdone : ¬ ((r.got.length : Int) < r.n ∧ ¬ state.pipe.ring.Empty) := by omega
    have hstep : PipeRing.step state (.turn p) = some (state.copyTurn p r) := by
      simp only [PipeRing.step, hmode]
    rw [PipeRing.State.copyTurn, if_neg hdone] at hstep
    exact ⟨1, _, 0, io, [], hone hstep, hset _ _, (List.append_nil _).symm, rfl, hpipe,
      (blit_zero _ _ _).symm⟩
  | succ left ih =>
    have hstep : PipeRing.step state (.turn p) = some (state.copyTurn p r) := by
      simp only [PipeRing.step, hmode]
    obtain ⟨fs, file, ⟨pipe, cons, killed⟩, wakes, mem⟩ := io
    cases hpipe
    unfold pipereadCopy
    rw [read_bind]
    by_cases hempty : state.pipe.ring.Empty
    · rw [PipeRing.State.copyTurn, if_neg (fun h => h.2 hempty)] at hstep
      rw [if_pos hempty]
      exact ⟨1, _, 0, _, [], hone hstep, hset _ _, (List.append_nil _).symm, rfl, rfl,
        (blit_zero _ _ _).symm⟩
    rw [PipeRing.State.copyTurn, if_pos ⟨by omega, hempty⟩] at hstep
    rw [if_neg hempty, update_bind, copyoutByte]
    cases hdst : r.dst r.got.length with
    | false =>
      rw [hdst, if_neg (by decide)] at hstep
      exact ⟨1, _, 0, _, [_], hone hstep, hset _ _, rfl, rfl, rfl, (blit_zero _ _ _).symm⟩
    | true =>
      rw [hdst, if_pos rfl] at hstep
      obtain ⟨turns, state', k, io', out, hrun, hmode', hremoved, hcopy, hpipe', hmem⟩ :=
        @ih ⟨fs, file, ⟨{ state.pipe with ring := state.pipe.ring.drop }, cons, killed⟩, wakes,
          blit mem r.got.length 1 fun _ => state.pipe.ring.front PIPESIZE⟩
          _ { r with got := r.got ++ [state.pipe.ring.front PIPESIZE] } (by simp; omega)
          (hset state.remove _) rfl
      rw [List.length_append] at hcopy hmem
      refine ⟨turns + 1, state', k + 1, io', state.pipe.ring.front PIPESIZE :: out, ?_, hmode', ?_,
        ?_, hpipe', ?_⟩
      · rw [List.replicate_succ, Machine.run, hstep]
        exact hrun
      · rw [hremoved]
        exact List.append_assoc _ _ _
      · rw [Nat.add_comm k 1, ← Nat.add_assoc]
        exact hcopy
      · rw [hmem]
        exact blit_succ mem r.got.length k ((_ :: out).getD · 0)

end Elsewhere

end CkptKernel
