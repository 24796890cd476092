/-
The buffer cache of kernel/bio.c and the commit of kernel/log.c through it.
One process runs, so a buffer's sleeplock is free or its own.
-/
import Mathlib.Data.Fintype.Card
import CkptKernel.Lib.Code
import CkptKernel.Log
import CkptKernel.LogCrash

namespace CkptKernel

open Code
open Function (update_of_ne update_self)

def NBUF : Nat := MAXOPBLOCKS * 3

namespace Bio

abbrev BufRef := Fin NBUF

structure Buf where
  valid : Bool
  dev : Nat
  blockno : Nat
  locked : Bool
  refcnt : Nat
  data : Block

/-- `bcache`, its list of buffers from the most to the least recently used,
and the disk behind it with the writes it was sent, oldest first. -/
structure Bcache where
  buf : BufRef → Buf
  lru : List BufRef
  disk : Disk
  issued : List (Nat × Block)

def Bcache.init (disk : Disk) : Bcache where
  buf := fun _ => ⟨false, 0, 0, false, 0, fun _ => 0⟩
  lru := (List.finRange NBUF).reverse
  disk := disk
  issued := []

def Bcache.set (cache : Bcache) (b : BufRef) (buf : Buf) : Bcache :=
  { cache with buf := Function.update cache.buf b buf }

def setBuf (b : BufRef) (change : Buf → Buf) : Code Bcache Unit :=
  update (fun cache => cache.set b (change (cache.buf b)))

def acquiresleep (b : BufRef) : Code Bcache Unit := do
  let cache ← read
  if (cache.buf b).locked then stop .sleep
  else setBuf b (fun buf => { buf with locked := true })

def Buf.Has (buf : Buf) (dev blockno : Nat) : Prop :=
  buf.dev = dev ∧ buf.blockno = blockno

instance (buf : Buf) (dev blockno : Nat) : Decidable (buf.Has dev blockno) :=
  inferInstanceAs (Decidable (_ ∧ _))

/-- Look through buffer cache for a block; if not found, recycle the least
recently used unused buffer. -/
def bget (dev blockno : Nat) : Code Bcache BufRef := do
  let cache ← read
  match cache.lru.find? (fun b => decide ((cache.buf b).Has dev blockno)) with
  | some b => do
    setBuf b (fun buf => { buf with refcnt := buf.refcnt + 1 })
    acquiresleep b
    pure b
  | none =>
    match cache.lru.reverse.find?
        (fun b => decide ((cache.buf b).refcnt = 0)) with
    | some b => do
      setBuf b (fun buf => { buf with
        dev := dev, blockno := blockno, valid := false, refcnt := 1 })
      acquiresleep b
      pure b
    | none => .panic "bget: no buffers"

/-- A locked buffer with the contents of the indicated block. -/
def bread (dev blockno : Nat) : Code Bcache BufRef := do
  let b ← bget dev blockno
  let cache ← read
  when ((cache.buf b).valid = false) (setBuf b (fun buf => { buf with
    data := cache.disk buf.blockno, valid := true }))
  pure b

def bwrite (b : BufRef) : Code Bcache Unit := do
  let cache ← read
  let buf := cache.buf b
  if buf.locked then update (fun cache => { cache with
    disk := Function.update cache.disk buf.blockno buf.data
    issued := cache.issued ++ [(buf.blockno, buf.data)] })
  else .panic "bwrite"

/-- Release a locked buffer; one that nobody waits for moves to the front. -/
def brelse (b : BufRef) : Code Bcache Unit := do
  let cache ← read
  if (cache.buf b).locked then do
    setBuf b (fun buf => { buf with
      locked := false, refcnt := buf.refcnt - 1 })
    let cache ← read
    when ((cache.buf b).refcnt = 0) (update (fun cache =>
      { cache with lru := b :: cache.lru.erase b }))
  else .panic "brelse"

def bpin (b : BufRef) : Code Bcache Unit :=
  setBuf b (fun buf => { buf with refcnt := buf.refcnt + 1 })

def bunpin (b : BufRef) : Code Bcache Unit :=
  setBuf b (fun buf => { buf with refcnt := buf.refcnt - 1 })

/-- `memmove` into a whole buffer. -/
def setData (b : BufRef) (data : Block) : Code Bcache Unit :=
  setBuf b (fun buf => { buf with data := data })

def writeLogBlock (logstart : Nat) (lh : LogHeader) (tail : Nat) : Code Bcache Unit := do
  let dst ← bread ROOTDEV (logstart + tail + 1)
  let src ← bread ROOTDEV (lh.block tail)
  let cache ← read
  setData dst (cache.buf src).data
  bwrite dst
  brelse src
  brelse dst

/-- `write_log`: copy modified blocks from cache to log. -/
def writeLog (logstart : Nat) (lh : LogHeader) : Code Bcache Unit :=
  forEach (writeLogBlock logstart lh) (List.range lh.n)

/-- `write_head`: the true point at which the transaction commits. -/
def writeHead (logstart : Nat) (lh : LogHeader) : Code Bcache Unit := do
  let buf ← bread ROOTDEV logstart
  let cache ← read
  setData buf (putHead lh (cache.buf buf).data)
  bwrite buf
  brelse buf

def installBlock (logstart : Nat) (lh : LogHeader) (tail : Nat) : Code Bcache Unit := do
  let lbuf ← bread ROOTDEV (logstart + tail + 1)
  let dbuf ← bread ROOTDEV (lh.block tail)
  let cache ← read
  setData dbuf (cache.buf lbuf).data
  bwrite dbuf
  bunpin dbuf
  brelse lbuf
  brelse dbuf

/-- `install_trans(0)`: copy committed blocks from log to their home location.
-/
def installTrans (logstart : Nat) (lh : LogHeader) : Code Bcache Unit :=
  forEach (installBlock logstart lh) (List.range lh.n)

def commit (logstart : Nat) (lh : LogHeader) : Code Bcache Unit :=
  when (0 < lh.n) (do
    writeLog logstart lh
    writeHead logstart lh
    installTrans logstart lh
    writeHead logstart { lh with n := 0 })

def inCache {A : Type} (code : Code Bcache A) : Code (Bcache × Log) A :=
  within Prod.fst (fun cache state => (cache, state.2)) code

/-- `log_write`, with the pin that keeps a newly logged block in the cache. -/
def logWrite (b : BufRef) : Code (Bcache × Log) Unit := do
  let state ← read
  let blockno := (state.1.buf b).blockno
  match state.2.write blockno with
  | .error reason => stop reason
  | .ok log => do
    when (blockno ∉ state.2.lh) (inCache (bpin b))
    update (fun state => (state.1, log))

/-- The typical use of `log_write`: read a block, change it, log it, release
it. -/
def writeBlock (change : Block → Block) (blockno : Nat) : Code (Bcache × Log) Unit := do
  let b ← inCache (bread ROOTDEV blockno)
  let state ← read
  inCache (setData b (change (state.1.buf b).data))
  logWrite b
  inCache (brelse b)

/-- The counts of a cache in which block `blockno` is pinned `pins blockno`
times and the process holds the buffers in `held`. -/
structure Counted (pins : Nat → Nat) (held : Finset BufRef) (cache : Bcache) : Prop where
  listed : ∀ b, b ∈ cache.lru
  only : ∀ b c blockno, (cache.buf b).Has ROOTDEV blockno →
    (cache.buf c).Has ROOTDEV blockno → b = c
  refcnt : ∀ b, (cache.buf b).refcnt =
    (if (cache.buf b).dev = ROOTDEV then pins (cache.buf b).blockno else 0) +
      if b ∈ held then 1 else 0
  locked : ∀ b, (cache.buf b).locked = true ↔ b ∈ held
  pinned : ∀ blockno, 0 < pins blockno → ∃ b, (cache.buf b).Has ROOTDEV blockno

/-- The contents of the same cache: `bread` returns what the view of `run` has,
and only pinned blocks differ from the disk. -/
structure Shows (pins : Nat → Nat) (run : DiskRun) (cache : Bcache) : Prop where
  data : ∀ b, (cache.buf b).dev = ROOTDEV → (cache.buf b).valid = true →
    (cache.buf b).data = run.view (cache.buf b).blockno
  clean : ∀ blockno, pins blockno = 0 → cache.disk blockno = run.view blockno
  loaded : ∀ b blockno, (cache.buf b).Has ROOTDEV blockno →
    0 < pins blockno → (cache.buf b).valid = true
  issued : cache.issued = run.issued

@[simp]
theorem Bcache.set_self (cache : Bcache) (b : BufRef) (buf : Buf) :
    (cache.set b buf).buf b = buf := by
  simp [Bcache.set]

variable {b : BufRef}

theorem Bcache.set_of_ne (cache : Bcache) {c : BufRef} (hne : c ≠ b)
    (buf : Buf) : (cache.set b buf).buf c = cache.buf c := by
  simp [Bcache.set, hne]

/-- Where `bget` can put a block: the buffer that has it, or an unused one if
none has. -/
def Place (cache : Bcache) (blockno : Nat) (b : BufRef) : Prop :=
  (cache.buf b).Has ROOTDEV blockno ∨
    (cache.buf b).refcnt = 0 ∧ ∀ c, ¬ (cache.buf c).Has ROOTDEV blockno

variable {pins : Nat → Nat} {held : Finset BufRef} {cache : Bcache} {blockno : Nat} {buf : Buf}

/-- Counts change only at buffer `b`, which has block `blockno` afterwards: no
other buffer had it, and the block that `b` had is not pinned. -/
theorem Counted.put {pins' : Nat → Nat} {held' : Finset BufRef} (hcount : Counted pins held cache)
    (hhas : buf.Has ROOTDEV blockno) (hsole : ∀ c, (cache.buf c).Has ROOTDEV blockno → c = b)
    (hgone : ∀ other, (cache.buf b).Has ROOTDEV other → 0 < pins other → other = blockno)
    (hpins : ∀ other, other ≠ blockno → pins' other = pins other)
    (hheld : ∀ c, c ≠ b → (c ∈ held' ↔ c ∈ held))
    (hrefcnt : buf.refcnt = pins' blockno + if b ∈ held' then 1 else 0)
    (hlocked : buf.locked = true ↔ b ∈ held') : Counted pins' held' (cache.set b buf) where
  listed := hcount.listed
  only := by
    have hblock : ∀ other, buf.Has ROOTDEV other → other = blockno :=
      fun other hother => hother.2.symm.trans hhas.2
    intro c d other hc hd
    by_cases hcb : c = b
    · by_cases hdb : d = b
      · rw [hcb, hdb]
      · subst hcb
        rw [Bcache.set_self] at hc
        rw [Bcache.set_of_ne cache hdb, hblock other hc] at hd
        exact (hsole d hd).symm
    · by_cases hdb : d = b
      · subst hdb
        rw [Bcache.set_self] at hd
        rw [Bcache.set_of_ne cache hcb, hblock other hd] at hc
        exact hsole c hc
      · rw [Bcache.set_of_ne cache hcb] at hc
        rw [Bcache.set_of_ne cache hdb] at hd
        exact hcount.only c d other hc hd
  refcnt := by
    intro c
    by_cases hcb : c = b
    · subst hcb
      rw [Bcache.set_self, hrefcnt, if_pos hhas.1, hhas.2]
    rw [Bcache.set_of_ne cache hcb, hcount.refcnt c]
    simp only [hheld c hcb]
    split
    next hroot => rw [hpins _ fun heq => hcb (hsole c ⟨hroot, heq⟩)]
    next => rfl
  locked := by
    intro c
    by_cases hcb : c = b
    · subst hcb
      rw [Bcache.set_self, hlocked]
    · rw [Bcache.set_of_ne cache hcb, hcount.locked c, hheld c hcb]
  pinned := by
    intro other hpos
    by_cases heq : other = blockno
    · exact ⟨b, by rw [Bcache.set_self, heq]; exact hhas⟩
    rw [hpins other heq] at hpos
    obtain ⟨c, hc⟩ := hcount.pinned other hpos
    refine ⟨c, ?_⟩
    rwa [Bcache.set_of_ne cache]
    rintro rfl
    exact heq (hgone other hc hpos)

/-- Buffer `b` keeps its block. -/
theorem Counted.set {pins' : Nat → Nat} {held' : Finset BufRef} (hcount : Counted pins held cache)
    (hhas : buf.Has (cache.buf b).dev (cache.buf b).blockno) (hdev : (cache.buf b).dev = ROOTDEV)
    (hpins : ∀ other, other ≠ (cache.buf b).blockno → pins' other = pins other)
    (hheld : ∀ c, c ≠ b → (c ∈ held' ↔ c ∈ held))
    (hrefcnt : buf.refcnt = pins' (cache.buf b).blockno + if b ∈ held' then 1 else 0)
    (hlocked : buf.locked = true ↔ b ∈ held') : Counted pins' held' (cache.set b buf) :=
  hcount.put (hdev ▸ hhas) (fun c hc => hcount.only c b _ hc ⟨hdev, rfl⟩)
    (fun _ hother _ => hother.2.symm) hpins hheld hrefcnt hlocked

variable {run : DiskRun}

/-- A change of buffer `b` only. -/
theorem Shows.put (hshows : Shows pins run cache)
    (hdata : buf.dev = ROOTDEV → buf.valid = true → buf.data = run.view buf.blockno)
    (hloaded : ∀ blockno, buf.Has ROOTDEV blockno → 0 < pins blockno → buf.valid = true) :
    Shows pins run (cache.set b buf) where
  data := by
    intro c
    by_cases hcb : c = b
    · subst hcb
      rwa [Bcache.set_self]
    · rw [Bcache.set_of_ne cache hcb]
      exact hshows.data c
  clean := hshows.clean
  loaded := by
    intro c
    by_cases hcb : c = b
    · subst hcb
      rwa [Bcache.set_self]
    · rw [Bcache.set_of_ne cache hcb]
      exact hshows.loaded c
  issued := hshows.issued

/-- What `bread` returns with. -/
structure Got (pins : Nat → Nat) (held : Finset BufRef) (cache : Bcache)
    (blockno : Nat) (b : BufRef) (next : Bcache) : Prop where
  count : Counted pins (insert b held) next
  fresh : b ∉ held
  has : (next.buf b).Has ROOTDEV blockno
  valid : (next.buf b).valid = true
  frame : ∀ c ∈ held, next.buf c = cache.buf c
  view : ∀ run, Shows pins run cache → Shows pins run next

@[simp]
theorem Bcache.set_set (cache : Bcache) (b : BufRef) (old new : Buf) :
    (cache.set b old).set b new = cache.set b new := by
  simp [Bcache.set]

variable {post : Unit → Bcache → Prop}

@[simp]
theorem wp_setBuf {change : Buf → Buf} : wp (setBuf b change) cache post ↔
      post () (cache.set b (change (cache.buf b))) := wp_update

theorem wp_acquiresleep (hfree : (cache.buf b).locked = false)
    (hpost : post () (cache.set b { cache.buf b with locked := true })) :
    wp (acquiresleep b) cache post := by
  unfold acquiresleep
  rw [wp_bind, wp_read, hfree]
  simpa using hpost

theorem Counted.not_held (hcount : Counted pins held cache)
    (hzero : (cache.buf b).refcnt = 0) : b ∉ held := by
  intro hheld
  have hrefcnt := hcount.refcnt b
  rw [if_pos hheld] at hrefcnt
  omega

theorem Counted.unlocked (hcount : Counted pins held cache)
    (hfresh : b ∉ held) : (cache.buf b).locked = false := by
  cases hlocked : (cache.buf b).locked with
  | false => rfl
  | true => exact absurd ((hcount.locked b).mp hlocked) hfresh

section

variable (hcount : Counted pins held cache) (hfree : ∀ b ∈ held, (cache.buf b).blockno ≠ blockno)
  (hspace : ∃ b, (cache.buf b).Has ROOTDEV blockno ∨ (cache.buf b).refcnt = 0)
include hcount hfree hspace

theorem wp_bget : wp (bget ROOTDEV blockno) cache (fun b next => ∃ buf,
      next = cache.set b buf ∧ Place cache blockno b ∧ b ∉ held ∧
      buf.Has ROOTDEV blockno ∧ buf.locked = true ∧ buf.refcnt = pins blockno + 1 ∧
      buf.valid = decide ((cache.buf b).Has ROOTDEV blockno ∧
        (cache.buf b).valid = true) ∧ buf.data = (cache.buf b).data) := by
  unfold bget
  rw [wp_bind, wp_read]
  cases hhit : cache.lru.find? (fun b => decide ((cache.buf b).Has ROOTDEV blockno)) with
  | some b =>
    have hhas : (cache.buf b).Has ROOTDEV blockno := by
      simpa using List.find?_some hhit
    have hfresh : b ∉ held := fun hheld => hfree b hheld hhas.2
    have hrefcnt := hcount.refcnt b
    rw [if_pos hhas.1, if_neg hfresh, hhas.2] at hrefcnt
    simp only [wp_bind, wp_setBuf]
    refine wp_acquiresleep (by simpa using hcount.unlocked hfresh) ?_
    rw [wp_pure, Bcache.set_set]
    refine ⟨_, rfl, Or.inl hhas, hfresh, ?_, rfl, ?_, ?_, ?_⟩
    · rw [Bcache.set_self]
      exact hhas
    · simp [hrefcnt]
    · simp [hhas]
    · simp
  | none =>
    have hnone : ∀ c, ¬ (cache.buf c).Has ROOTDEV blockno := by
      intro c hc
      have := List.find?_eq_none.mp hhit c (hcount.listed c)
      simp [hc] at this
    cases hmiss : cache.lru.reverse.find? (fun b => decide ((cache.buf b).refcnt = 0)) with
    | none =>
      obtain ⟨b, hb | hzero⟩ := hspace
      · exact absurd hb (hnone b)
      · have := List.find?_eq_none.mp hmiss b (List.mem_reverse.mpr (hcount.listed b))
        simp [hzero] at this
    | some b =>
      have hzero : (cache.buf b).refcnt = 0 := by
        simpa using List.find?_some hmiss
      have hfresh := hcount.not_held hzero
      have hunpinned : pins blockno = 0 := by
        by_contra hpins
        obtain ⟨c, hc⟩ := hcount.pinned blockno (Nat.pos_of_ne_zero hpins)
        exact hnone c hc
      simp only [wp_bind, wp_setBuf]
      refine wp_acquiresleep (by simpa using hcount.unlocked hfresh) ?_
      rw [wp_pure, Bcache.set_set]
      refine ⟨_, rfl, Or.inr ⟨hzero, hnone⟩, hfresh, ?_, rfl, ?_, ?_, ?_⟩
      · rw [Bcache.set_self]
        exact ⟨rfl, rfl⟩
      · rw [Bcache.set_self, hunpinned]
      · simp [hnone b]
      · simp

/-- `bread` returns the block, if some buffer has it or is unused. -/
theorem wp_bread : wp (bread ROOTDEV blockno) cache (Got pins held cache blockno) := by
  unfold bread
  refine wp_seq (wp_bget hcount hfree hspace) ?_
  rintro b next ⟨buf, rfl, hplace, hfresh, hhas, hlocked, hrefcnt, hold, hdata⟩
  have hframe : ∀ other, ∀ c ∈ held, (cache.set b other).buf c = cache.buf c := by
    intro other c hc
    refine cache.set_of_ne ?_ other
    rintro rfl
    exact hfresh hc
  have hgot : ∀ other : Buf, other.Has ROOTDEV blockno → other.locked = true →
      other.refcnt = pins blockno + 1 → other.valid = true →
      (∀ run, Shows pins run cache → other.data = run.view blockno) →
      Got pins held cache blockno b (cache.set b other) := by
    intro other hhas hlocked hrefcnt hvalid hview
    refine ⟨hcount.put hhas (fun c hc => ?_) (fun block hblock hpos => ?_)
      (fun _ _ => rfl) (fun c hne => by simp [hne]) (by simp [hrefcnt])
      (by simp [hlocked]), hfresh, by rwa [Bcache.set_self],
      by rwa [Bcache.set_self], hframe other, fun run hshows =>
        hshows.put (fun _ _ => hhas.2 ▸ hview run hshows) fun _ _ _ => hvalid⟩
    · rcases hplace with hb | ⟨-, hnone⟩
      · exact hcount.only c b blockno hc hb
      · exact absurd hc (hnone c)
    · rcases hplace with hb | ⟨hzero, -⟩
      · exact hblock.2.symm.trans hb.2
      · have hcnt := hcount.refcnt b
        rw [if_pos hblock.1, hblock.2] at hcnt
        omega
  rw [wp_bind, wp_read, wp_bind]
  unfold when
  cases hvalid : buf.valid with
  | true =>
    rw [if_neg (by simp [hvalid]), wp_pure, wp_pure]
    refine hgot buf hhas hlocked hrefcnt hvalid fun run hshows => ?_
    obtain ⟨hsame, hloaded⟩ := of_decide_eq_true (hold.symm.trans hvalid)
    rw [hdata, hshows.data b hsame.1 hloaded, hsame.2]
  | false =>
    rw [if_pos (by simp [hvalid]), wp_setBuf, wp_pure, Bcache.set_set, Bcache.set_self]
    refine hgot _ hhas hlocked hrefcnt rfl fun run hshows => ?_
    have hunpinned : pins blockno = 0 := by
      by_contra hpins
      have hpos := Nat.pos_of_ne_zero hpins
      have hsame : (cache.buf b).Has ROOTDEV blockno := by
        rcases hplace with hb | ⟨-, hnone⟩
        · exact hb
        · obtain ⟨c, hc⟩ := hcount.pinned blockno hpos
          exact absurd hc (hnone c)
      have hloaded := hshows.loaded b blockno hsame hpos
      rw [hvalid] at hold
      exact of_decide_eq_false hold.symm ⟨hsame, hloaded⟩
    rw [hhas.2]
    exact hshows.clean blockno hunpinned

end

theorem Counted.reorder (hcount : Counted pins held cache) {lru : List BufRef}
    (hlisted : ∀ c, c ∈ lru) : Counted pins held { cache with lru := lru } :=
  ⟨hlisted, hcount.only, hcount.refcnt, hcount.locked, hcount.pinned⟩

theorem Shows.reorder (hshows : Shows pins run cache) (lru : List BufRef) :
    Shows pins run { cache with lru := lru } :=
  ⟨hshows.data, hshows.clean, hshows.loaded, hshows.issued⟩

/-- `brelse` of a buffer that the process holds. -/
theorem wp_brelse (hcount : Counted pins held cache) (hheld : b ∈ held)
    (hdev : (cache.buf b).dev = ROOTDEV) : wp (brelse b) cache (fun _ next =>
      Counted pins (held.erase b) next ∧ (∀ c, c ≠ b → next.buf c = cache.buf c) ∧
      ∀ run, Shows pins run cache → Shows pins run next) := by
  have hrefcnt := hcount.refcnt b
  rw [if_pos hdev, if_pos hheld] at hrefcnt
  have hafter : Counted pins (held.erase b) (cache.set b { cache.buf b with
      locked := false, refcnt := (cache.buf b).refcnt - 1 }) :=
    hcount.set ⟨rfl, rfl⟩ hdev (fun _ _ => rfl) (fun c hne => by simp [hne])
      (by simp [hrefcnt]) (by simp)
  have hshows : ∀ run, Shows pins run cache → Shows pins run
      (cache.set b { cache.buf b with
        locked := false, refcnt := (cache.buf b).refcnt - 1 }) :=
    fun run h => h.put (h.data b) (h.loaded b)
  unfold brelse
  rw [wp_bind, wp_read, if_pos ((hcount.locked b).mpr hheld), wp_bind, wp_setBuf, wp_bind, wp_read]
  unfold when
  split
  next =>
    refine wp_update.mpr ⟨hafter.reorder ?_, ?_, fun run h =>
      (hshows run h).reorder _⟩
    · intro c
      by_cases hcb : c = b
      · rw [hcb]
        exact List.mem_cons_self
      · exact List.mem_cons_of_mem b ((List.mem_erase_of_ne hcb).mpr (hcount.listed c))
    · exact fun c hne => cache.set_of_ne hne _
  next =>
    exact (wp_pure ()).mpr ⟨hafter, fun c hne => cache.set_of_ne hne _, hshows⟩

/-- The cache after `memmove` into a buffer and `bwrite` of it. -/
def Bcache.wrote (cache : Bcache) (b : BufRef) (data : Block) : Bcache :=
  { cache.set b { cache.buf b with data := data } with
    disk := Function.update cache.disk (cache.buf b).blockno data
    issued := cache.issued ++ [((cache.buf b).blockno, data)] }

theorem wp_setData_bwrite {data : Block} (hlocked : (cache.buf b).locked = true)
    (hpost : post () (cache.wrote b data)) :
    wp (setData b data) cache (fun _ next => wp (bwrite b) next post) := by
  unfold setData bwrite
  rw [wp_setBuf, wp_bind, wp_read]
  simp only [Bcache.set_self]
  rw [if_pos hlocked, wp_update]
  exact hpost

theorem Counted.wrote (hcount : Counted pins held cache) (hdev : (cache.buf b).dev = ROOTDEV)
    (data : Block) : Counted pins held (cache.wrote b data) := by
  have hrefcnt := hcount.refcnt b
  rw [if_pos hdev] at hrefcnt
  have hset : Counted pins held (cache.set b { cache.buf b with data := data }) :=
    hcount.set ⟨rfl, rfl⟩ hdev (fun _ _ => rfl) (fun _ _ => Iff.rfl) hrefcnt (hcount.locked b)
  exact ⟨hset.listed, hset.only, hset.refcnt, hset.locked, hset.pinned⟩

theorem Shows.wrote (hshows : Shows pins run cache)
    (hcount : Counted pins held cache) (hdev : (cache.buf b).dev = ROOTDEV) (data : Block) :
    Shows pins (CkptKernel.bwrite (cache.buf b).blockno data run) (cache.wrote b data) where
  data := by
    intro c hroot hvalid
    by_cases hcb : c = b
    · subst hcb
      simp [Bcache.wrote, Bcache.set, CkptKernel.bwrite]
    simp only [Bcache.wrote, Bcache.set_of_ne cache hcb] at hroot hvalid ⊢
    have hne : (cache.buf c).blockno ≠ (cache.buf b).blockno := fun heq =>
      hcb (hcount.only c b _ ⟨hroot, heq⟩ ⟨hdev, rfl⟩)
    simp only [CkptKernel.bwrite, update_of_ne hne]
    exact hshows.data c hroot hvalid
  clean := by
    intro blockno hpins
    by_cases heq : blockno = (cache.buf b).blockno
    · subst heq
      simp [Bcache.wrote, CkptKernel.bwrite]
    · simp only [Bcache.wrote, CkptKernel.bwrite, update_of_ne heq]
      exact hshows.clean blockno hpins
  loaded := by
    intro c blockno hc hpins
    by_cases hcb : c = b
    · subst hcb
      simp only [Bcache.wrote, Bcache.set_self] at hc ⊢
      exact hshows.loaded c blockno hc hpins
    · simp only [Bcache.wrote, Bcache.set_of_ne cache hcb] at hc ⊢
      exact hshows.loaded c blockno hc hpins
  issued := by
    simp [Bcache.wrote, CkptKernel.bwrite, hshows.issued]

def Bcache.unpinned (cache : Bcache) (b : BufRef) : Bcache :=
  cache.set b { cache.buf b with refcnt := (cache.buf b).refcnt - 1 }

theorem Counted.unpinned (hcount : Counted pins held cache) (hdev : (cache.buf b).dev = ROOTDEV)
    (hpins : 0 < pins (cache.buf b).blockno) : Counted (Function.update pins (cache.buf b).blockno
      (pins (cache.buf b).blockno - 1)) held (cache.unpinned b) := by
  have hrefcnt := hcount.refcnt b
  rw [if_pos hdev] at hrefcnt
  refine hcount.set ⟨rfl, rfl⟩ hdev
    (fun blockno hne => update_of_ne hne _ _) (fun _ _ => Iff.rfl) ?_
    (hcount.locked b)
  rw [update_self]
  change (cache.buf b).refcnt - 1 = _
  omega

/-- A block may be unpinned once it is on disk. -/
theorem Shows.unpinned (hshows : Shows pins run cache) (hpins : pins (cache.buf b).blockno = 1)
    (hdisk : cache.disk (cache.buf b).blockno = run.view (cache.buf b).blockno) :
    Shows (Function.update pins (cache.buf b).blockno
      (pins (cache.buf b).blockno - 1)) run (cache.unpinned b) := by
  have hset : Shows pins run (cache.unpinned b) := hshows.put (hshows.data b) (hshows.loaded b)
  refine ⟨hset.data, ?_, ?_, hset.issued⟩
  · intro blockno hzero
    by_cases heq : blockno = (cache.buf b).blockno
    · rw [heq]
      exact hdisk
    · rw [update_of_ne heq] at hzero
      exact hset.clean blockno hzero
  · intro c blockno hc hpos
    refine hset.loaded c blockno hc ?_
    by_cases heq : blockno = (cache.buf b).blockno
    · rw [heq, hpins]
      exact Nat.one_pos
    · rwa [update_of_ne heq] at hpos

/-- A buffer is unused as long as fewer than `NBUF` blocks are pinned. -/
theorem Counted.exists_unused (hcount : Counted pins ∅ cache) {blocks : Finset Nat}
    (hpins : ∀ blockno, 0 < pins blockno → blockno ∈ blocks)
    (hfew : blocks.card < NBUF) : ∃ b, (cache.buf b).refcnt = 0 := by
  by_contra hnone
  have hused : ∀ b, (cache.buf b).dev = ROOTDEV ∧ (cache.buf b).blockno ∈ blocks := by
    intro b
    have hpos := Nat.pos_of_ne_zero fun hzero => hnone ⟨b, hzero⟩
    rw [hcount.refcnt b, if_neg (Finset.notMem_empty b), Nat.add_zero] at hpos
    split at hpos
    next hdev => exact ⟨hdev, hpins _ hpos⟩
    next => omega
  have hcard : (Finset.univ : Finset BufRef).card ≤ blocks.card :=
    Finset.card_le_card_of_injOn (fun b => (cache.buf b).blockno) (fun b _ => (hused b).2)
      (fun b _ c _ heq => hcount.only b c _ ⟨(hused b).1, heq⟩ ⟨(hused c).1, rfl⟩)
  rw [Finset.card_univ, Fintype.card_fin] at hcard
  omega

/-- The pins that are left of a transaction when its first `done` blocks are
installed. -/
def pinsFrom (lh : LogHeader) (done : Nat) (blockno : Nat) : Nat :=
  if ∃ i < lh.n, done ≤ i ∧ lh.block i = blockno then 1 else 0

theorem pinsFrom_block {lh : LogHeader} {done i : Nat} (hlt : i < lh.n)
    (hle : done ≤ i) : pinsFrom lh done (lh.block i) = 1 :=
  if_pos ⟨i, hlt, hle, rfl⟩

section Commit

variable {logstart : Nat} {lh : LogHeader}

variable {done : Nat}

/-- Installing one block leaves the pins of the blocks after it. -/
theorem pinsFrom_succ (hlog : LoggedBlocks logstart lh) (hlt : done < lh.n) :
    Function.update (pinsFrom lh done) (lh.block done)
      (pinsFrom lh done (lh.block done) - 1) = pinsFrom lh (done + 1) := by
  funext blockno
  by_cases heq : blockno = lh.block done
  · subst heq
    rw [update_self, pinsFrom_block hlt le_rfl]
    refine (if_neg ?_).symm
    rintro ⟨i, hi, hle, hblock⟩
    have := hlog.distinct i done hi hlt hblock
    omega
  · rw [update_of_ne heq]
    unfold pinsFrom
    refine if_congr ⟨?_, ?_⟩ rfl rfl
    · rintro ⟨i, hi, hle, hblock⟩
      refine ⟨i, hi, ?_, hblock⟩
      have : i ≠ done := by
        rintro rfl
        exact heq hblock.symm
      omega
    · rintro ⟨i, hi, hle, hblock⟩
      exact ⟨i, hi, by omega, hblock⟩

variable {cache : Bcache}

theorem Counted.exists_unused_of_lt (hcount : Counted (pinsFrom lh done) ∅ cache)
    (hfew : lh.n < NBUF) : ∃ b, (cache.buf b).refcnt = 0 := by
  have hcard : ((Finset.range lh.n).image lh.block).card < NBUF :=
    (Finset.card_image_le.trans_eq (Finset.card_range lh.n)).trans_lt hfew
  refine hcount.exists_unused (fun blockno hpos => ?_) hcard
  unfold pinsFrom at hpos
  split at hpos
  next hex =>
    obtain ⟨i, hlt, -, hblock⟩ := hex
    exact Finset.mem_image.mpr ⟨i, Finset.mem_range.mpr hlt, hblock⟩
  next => omega

variable {tail : Nat}

/-- A log block is no logged block. -/
theorem logBlock_ne (hlog : LoggedBlocks logstart lh) {i : Nat}
    (htail : tail < lh.n) (hi : i < lh.n) : logstart + tail + 1 ≠ lh.block i := by
  intro heq
  have hfits := hlog.fits
  exact hlog.outside i hi ⟨by omega, by omega⟩

/-- Both buffers of an iteration are held: `l` with the log block, `h` with
the home block. -/
structure Pair (logstart : Nat) (lh : LogHeader) (done tail : Nat)
    (cache : Bcache) (l h : BufRef) (next : Bcache) : Prop where
  count : Counted (pinsFrom lh done) {h, l} next
  ne : h ≠ l
  log : (next.buf l).Has ROOTDEV (logstart + tail + 1)
  home : (next.buf h).Has ROOTDEV (lh.block tail)
  data : ∀ run, Shows (pinsFrom lh done) run cache → Shows (pinsFrom lh done) run next ∧
      (next.buf l).data = run.view (logstart + tail + 1) ∧
      (next.buf h).data = run.view (lh.block tail)

theorem wp_bread_pair (hlog : LoggedBlocks logstart lh) (hfew : lh.n < NBUF)
    (hle : done ≤ tail) (htail : tail < lh.n) (hcount : Counted (pinsFrom lh done) ∅ cache) :
    wp (bread ROOTDEV (logstart + tail + 1)) cache (fun l middle =>
      wp (bread ROOTDEV (lh.block tail)) middle (fun h next =>
        Pair logstart lh done tail cache l h next)) := by
  obtain ⟨unused, hunused⟩ := hcount.exists_unused_of_lt hfew
  refine wp_mono (wp_bread hcount (by simp) ⟨unused, Or.inr hunused⟩) ?_
  intro l middle hl
  have hpinned : 0 < pinsFrom lh done (lh.block tail) := by
    rw [pinsFrom_block htail hle]
    exact Nat.one_pos
  obtain ⟨home, hhome⟩ := hl.count.pinned (lh.block tail) hpinned
  refine wp_mono (wp_bread hl.count ?_ ⟨home, Or.inl hhome⟩) ?_
  · intro c hc
    rw [Finset.mem_insert.mp hc |>.resolve_right (by simp), hl.has.2]
    exact logBlock_ne hlog htail htail
  intro h next hh
  have hkept : next.buf l = middle.buf l :=
    hh.frame l (Finset.mem_insert_self l ∅)
  have hlHas : (next.buf l).Has ROOTDEV (logstart + tail + 1) := by
    rw [hkept]
    exact hl.has
  refine ⟨by simpa using hh.count, ?_, hlHas, hh.has, fun run hshows => ?_⟩
  · rintro rfl
    exact hh.fresh (Finset.mem_insert_self h ∅)
  · have hnext := hh.view run (hl.view run hshows)
    refine ⟨hnext, ?_, ?_⟩
    · rw [hnext.data l hlHas.1 (by rw [hkept]; exact hl.valid), hlHas.2]
    · rw [hnext.data h hh.has.1 hh.valid, hh.has.2]

/-- Two buffers are given back, `b` first. -/
theorem wp_brelse_pair {pins : Nat → Nat} {b c : BufRef} (hcount : Counted pins {b, c} cache)
    (hne : b ≠ c) (hb : (cache.buf b).dev = ROOTDEV) (hc : (cache.buf c).dev = ROOTDEV) :
    wp (brelse b) cache (fun _ middle => wp (brelse c) middle (fun _ next =>
      Counted pins ∅ next ∧ ∀ run, Shows pins run cache → Shows pins run next)) := by
  refine wp_mono (wp_brelse hcount (by simp) hb) ?_
  rintro _ middle ⟨hmiddle, hframe, hshows⟩
  have hleft : ({b, c} : Finset BufRef).erase b = {c} := by
    rw [Finset.erase_insert (by simpa using hne)]
  rw [hleft] at hmiddle
  refine wp_mono (wp_brelse hmiddle (by simp) (by rw [hframe c hne.symm]; exact hc)) ?_
  rintro _ next ⟨hnext, -, hshows'⟩
  rw [Finset.erase_singleton] at hnext
  exact ⟨hnext, fun run h => hshows' run (hshows run h)⟩

/-- Code that takes a cache for a run of the disk to one for the run with
`effect`, when the process holds no buffer. -/
def Carries (pins pins' : Nat → Nat) (effect : DiskRun → DiskRun)
    (code : Code Bcache Unit) : Prop :=
  ∀ cache, Counted pins ∅ cache → wp code cache (fun _ next =>
    Counted pins' ∅ next ∧ ∀ run, Shows pins run cache → Shows pins' (effect run) next)

theorem Carries.bind {pins middle pins' : Nat → Nat}
    {effect effect' : DiskRun → DiskRun} {first next : Code Bcache Unit}
    (hfirst : Carries pins middle effect first) (hnext : Carries middle pins' effect' next) :
    Carries pins pins' (fun run => effect' (effect run)) (do first; next) := by
  intro cache hcount
  refine wp_seq (hfirst cache hcount) ?_
  rintro _ cache₁ ⟨hcount₁, hshows₁⟩
  refine wp_mono (hnext cache₁ hcount₁) ?_
  rintro _ cache₂ ⟨hcount₂, hshows₂⟩
  exact ⟨hcount₂, fun run hrun => hshows₂ _ (hshows₁ run hrun)⟩

/-- A loop that copies blocks, with `pins i` after `i` of them. -/
theorem Carries.copy {pins : Nat → Nat → Nat} {count : Nat}
    {src dst : Nat → Nat} {body : Nat → Code Bcache Unit}
    (hbody : ∀ i < count, Carries (pins i) (pins (i + 1)) (fun run =>
      CkptKernel.bwrite (dst i) (run.view (src i)) run) (body i)) :
    Carries (pins 0) (pins count) (copyBlocks count src dst) (forEach body (List.range count)) := by
  intro cache hcount
  refine @wp_forEach_range _ _ count (fun i next => Counted (pins i) ∅ next ∧
    ∀ run, Shows (pins 0) run cache → Shows (pins i) (copyBlocks i src dst run) next) ?_ _
    ⟨hcount, fun run hrun => hrun⟩
  rintro i hi middle ⟨hmiddle, hshows⟩
  refine wp_mono (hbody i hi middle hmiddle) ?_
  rintro _ next ⟨hnext, hstep⟩
  refine ⟨hnext, fun run hrun => ?_⟩
  rw [copyBlocks, List.range_succ, List.foldl_append]
  exact hstep _ (hshows run hrun)

theorem carries_writeLogBlock (hlog : LoggedBlocks logstart lh)
    (hfew : lh.n < NBUF) (htail : tail < lh.n) : Carries (pinsFrom lh 0) (pinsFrom lh 0) (fun run =>
      CkptKernel.bwrite (logstart + tail + 1) (run.view (lh.block tail)) run)
      (writeLogBlock logstart lh tail) := by
  intro cache hcount
  unfold writeLogBlock
  simp only [wp_bind, wp_read]
  refine wp_mono (wp_bread_pair hlog hfew (Nat.zero_le tail) htail hcount) ?_
  intro dst middle hmiddle
  refine wp_mono hmiddle ?_
  intro src held hpair
  refine wp_setData_bwrite ((hpair.count.locked dst).mpr (by simp)) ?_
  have hwrote := hpair.count.wrote hpair.log.1 (held.buf src).data
  refine wp_mono (wp_brelse_pair hwrote hpair.ne ?_ ?_) ?_
  · simpa [Bcache.wrote, Bcache.set_of_ne held hpair.ne] using hpair.home.1
  · simpa [Bcache.wrote] using hpair.log.1
  · intro _ released hreleased
    refine wp_mono hreleased ?_
    rintro _ next ⟨hnext, hshows⟩
    refine ⟨hnext, fun run hrun => ?_⟩
    obtain ⟨hheld, -, hdata⟩ := hpair.data run hrun
    have hdone := hshows _ (hheld.wrote hpair.count hpair.log.1 (held.buf src).data)
    rwa [hpair.log.2, hdata] at hdone

theorem carries_installBlock (hlog : LoggedBlocks logstart lh) (hfew : lh.n < NBUF)
    (htail : tail < lh.n) : Carries (pinsFrom lh tail) (pinsFrom lh (tail + 1)) (fun run =>
      CkptKernel.bwrite (lh.block tail) (run.view (logstart + tail + 1)) run)
      (installBlock logstart lh tail) := by
  intro cache hcount
  unfold installBlock
  simp only [wp_bind, wp_read]
  refine wp_mono (wp_bread_pair hlog hfew le_rfl htail hcount) ?_
  intro lbuf middle hmiddle
  refine wp_mono hmiddle ?_
  intro dbuf held hpair
  refine wp_setData_bwrite ((hpair.count.locked dbuf).mpr (by simp)) ?_
  have hwrote := hpair.count.wrote hpair.home.1 (held.buf lbuf).data
  have hhome : ((held.wrote dbuf (held.buf lbuf).data).buf dbuf).Has ROOTDEV (lh.block tail) := by
    simpa [Bcache.wrote, Buf.Has] using hpair.home
  have hpin : pinsFrom lh tail (lh.block tail) = 1 := pinsFrom_block htail le_rfl
  have hunpinned := hwrote.unpinned hhome.1 (by rw [hhome.2, hpin]; exact Nat.one_pos)
  rw [hhome.2, pinsFrom_succ hlog htail, Finset.pair_comm] at hunpinned
  unfold bunpin
  rw [wp_setBuf]
  refine wp_mono (wp_brelse_pair hunpinned hpair.ne.symm ?_ ?_) ?_
  · simpa [Bcache.unpinned, Bcache.wrote, Bcache.set, hpair.ne.symm] using hpair.log.1
  · simpa [Bcache.unpinned] using hhome.1
  · intro _ released hreleased
    refine wp_mono hreleased ?_
    rintro _ next ⟨hnext, hshows⟩
    refine ⟨hnext, fun run hrun => ?_⟩
    obtain ⟨hheld, hdata, -⟩ := hpair.data run hrun
    have hdone := hheld.wrote hpair.count hpair.home.1 (held.buf lbuf).data
    have hclean := hdone.unpinned (b := dbuf) (by rw [hhome.2, hpin]) (by
      rw [hhome.2]
      simp [Bcache.wrote, CkptKernel.bwrite, hpair.home.2])
    rw [hhome.2, pinsFrom_succ hlog htail, hpair.home.2] at hclean
    have hreturned := hshows _ hclean
    rwa [hdata] at hreturned

/-- `write_head` through the cache is `write_head` on the disk. -/
theorem carries_writeHead (hfew : lh.n < NBUF) (head : LogHeader) :
    Carries (pinsFrom lh done) (pinsFrom lh done)
      (CkptKernel.writeHead logstart head) (writeHead logstart head) := by
  intro cache hcount
  obtain ⟨unused, hunused⟩ := hcount.exists_unused_of_lt hfew
  unfold writeHead
  simp only [wp_bind, wp_read]
  refine wp_mono (wp_bread hcount (by simp) ⟨unused, Or.inr hunused⟩) ?_
  intro b held hb
  refine wp_setData_bwrite ((hb.count.locked b).mpr (by simp)) ?_
  have hwrote := hb.count.wrote hb.has.1 (putHead head (held.buf b).data)
  refine wp_mono (wp_brelse hwrote (by simp) (by simpa [Bcache.wrote] using hb.has.1)) ?_
  rintro _ next ⟨hnext, -, hshows⟩
  refine ⟨by simpa using hnext, fun run hrun => ?_⟩
  have hheld := hb.view run hrun
  have hdone := hshows _ (hheld.wrote hb.count hb.has.1 (putHead head (held.buf b).data))
  rw [hb.has.2, hheld.data b hb.has.1 hb.valid, hb.has.2] at hdone
  exact hdone

section

variable (hlog : LoggedBlocks logstart lh) (hfew : lh.n < NBUF)
include hlog hfew

theorem carries_writeLog : Carries (pinsFrom lh 0) (pinsFrom lh 0)
      (CkptKernel.writeLog logstart lh) (writeLog logstart lh) :=
  @Carries.copy (fun _ => pinsFrom lh 0) _ _ _ _ fun _ =>
    carries_writeLogBlock hlog hfew

theorem carries_installTrans : Carries (pinsFrom lh 0) (pinsFrom lh lh.n)
      (CkptKernel.installTrans logstart lh) (installTrans logstart lh) :=
  @Carries.copy (pinsFrom lh) _ _ _ _ fun _ => carries_installBlock hlog hfew

/-- With a buffer to spare, `commit` returns, releases every pin, and sends
the disk the writes of the cache-free commit. -/
theorem carries_commit :
    Carries (pinsFrom lh 0) (fun _ => 0) (CkptKernel.commit logstart lh) (commit logstart lh) := by
  have hend : pinsFrom lh lh.n = fun _ => 0 :=
    funext fun _ => if_neg fun ⟨_, hlt, hle, _⟩ => absurd hlt (Nat.not_lt.mpr hle)
  rw [← hend]
  unfold commit when CkptKernel.commit
  split
  next =>
    exact (carries_writeLog hlog hfew).bind ((carries_writeHead hfew lh).bind
      ((carries_installTrans hlog hfew).bind (carries_writeHead hfew _)))
  next hzero =>
    rw [Nat.eq_zero_of_not_pos hzero]
    exact fun _ hcount => (wp_pure ()).mpr ⟨hcount, fun _ hrun => hrun⟩

end

/-- Crash atomicity with the cache.  The writes that `commit` has sent to the
disk are cut anywhere, then recovery any number of times: the blocks outside the
log are all as the cache showed them once the header is out, all as before until
then. -/
theorem commit_crash_cached (hlog : LoggedBlocks logstart lh) (hsome : 0 < lh.n)
    (hfew : lh.n < NBUF) (hempty : HeadEmpty logstart cache.disk)
    (hcount : Counted (pinsFrom lh 0) ∅ cache) {view : Disk}
    (hshows : Shows (pinsFrom lh 0) (DiskRun.start view) cache) :
    ∃ next, commit logstart lh cache = .ok ((), next) ∧ ∀ count crashes final,
      final = recoverAfter logstart
        (WriteSeq.applyWrites (next.issued.take count) cache.disk) crashes →
      HeadEmpty logstart final ∧ ∀ blockno, ¬ InLog logstart blockno →
        final blockno = (if lh.n < count then view else cache.disk) blockno := by
  obtain ⟨_, next, hreturn, -, hcarried⟩ := carries_commit hlog hfew _ hcount
  have hview : CacheOf logstart lh cache.disk view := fun blockno _ hnot =>
    (hshows.clean blockno (if_neg fun ⟨i, hi, _, heq⟩ => hnot i hi heq)).symm
  refine ⟨next, hreturn, ?_⟩
  rintro count crashes final rfl
  rw [(hcarried _ hshows).issued]
  rcases commit_crash_phase hlog hsome hempty hview count _ rfl with ⟨hle, hold⟩ | ⟨hlt, hnew⟩
  · have hdone := hold.recoverAfter crashes
    rw [if_neg (by omega)]
    exact ⟨hdone.empty, hdone.homes⟩
  · have hdone := hnew.elim (·.recoverAfter hlog crashes) (·.recoverAfter crashes)
    rw [if_pos hlt]
    exact ⟨hdone.empty, hdone.homes⟩

/-- Two blocks have been written and logged since boot. -/
def twoBlocksPinned : Bcache :=
  ((Bcache.init bootedDisk).set ⟨0, by decide⟩ ⟨true, ROOTDEV, 40, false, 1, fun _ => 7⟩).set
    ⟨1, by decide⟩ ⟨true, ROOTDEV, 41, false, 1, fun _ => 8⟩

theorem twoBlocksPinned_buf (b : BufRef) : twoBlocksPinned.buf b =
    if b = ⟨1, by decide⟩ then ⟨true, ROOTDEV, 41, false, 1, fun _ => 8⟩
    else if b = ⟨0, by decide⟩ then ⟨true, ROOTDEV, 40, false, 1, fun _ => 7⟩
    else ⟨false, 0, 0, false, 0, fun _ => 0⟩ := by
  simp only [twoBlocksPinned, Bcache.set, Function.update_apply]
  rfl

theorem pinsFrom_twoBlocks (blockno : Nat) : pinsFrom twoBlocks 0 blockno =
    if blockno = 40 ∨ blockno = 41 then 1 else 0 := by
  refine if_congr ⟨?_, ?_⟩ rfl rfl
  · rintro ⟨i, hi, -, rfl⟩
    simp only [twoBlocks] at hi ⊢
    omega
  · rintro (rfl | rfl)
    · exact ⟨0, by decide, Nat.le_refl 0, rfl⟩
    · exact ⟨1, by decide, Nat.zero_le 1, rfl⟩

theorem commit_crash_cached_twoBlocks : ∃ next,
    commit 2 twoBlocks twoBlocksPinned = .ok ((), next) ∧ ∀ blockno ∈ [40, 41],
      recoverAfter 2 (WriteSeq.applyWrites (next.issued.take 3) twoBlocksPinned.disk) [0, 1]
        blockno = twoBlocksCache blockno := by
  have hbuf := twoBlocksPinned_buf
  have hpins := pinsFrom_twoBlocks
  have hcount : Counted (pinsFrom twoBlocks 0) ∅ twoBlocksPinned := by
    refine ⟨by simp [twoBlocksPinned, Bcache.init, Bcache.set], fun b c _ hb hc => ?_, fun b => ?_,
      fun b => ?_, fun blockno hpos => ?_⟩
    · grind [Buf.Has, ROOTDEV]
    · grind [ROOTDEV]
    · grind
    · obtain rfl | rfl : blockno = 40 ∨ blockno = 41 := by grind
      · exact ⟨⟨0, by decide⟩, by rw [hbuf]; exact ⟨rfl, rfl⟩⟩
      · exact ⟨⟨1, by decide⟩, by rw [hbuf]; exact ⟨rfl, rfl⟩⟩
  have hshows : Shows (pinsFrom twoBlocks 0) (DiskRun.start twoBlocksCache) twoBlocksPinned := by
    refine ⟨fun b hdev _ => ?_, fun blockno hzero => ?_, fun b blockno hhas hpos => ?_, rfl⟩
    · obtain rfl | rfl : b = ⟨0, by decide⟩ ∨ b = ⟨1, by decide⟩ := by grind [ROOTDEV]
      · rw [hbuf]
        rfl
      · rw [hbuf]
        rfl
    · have hfirst : blockno ≠ 40 := by grind
      have hsecond : blockno ≠ 41 := by grind
      change bootedDisk blockno = twoBlocksCache blockno
      rw [twoBlocksCache, update_of_ne hsecond, update_of_ne hfirst]
    · grind [Buf.Has, ROOTDEV]
  have hdisk : CommitStart 2 bootedDisk := CommitStart.boot _
  obtain ⟨next, hreturn, hcrash⟩ := commit_crash_cached twoBlocks_logged (by decide) (by decide)
    hdisk.headEmpty hcount hshows
  have hout : ∀ blockno ∈ [40, 41], ¬ InLog 2 blockno := by decide
  refine ⟨next, hreturn, fun blockno hmem => ?_⟩
  have hnew := (hcrash 3 [0, 1] _ rfl).2 blockno (hout blockno hmem)
  rwa [if_pos (by decide)] at hnew

theorem bread_noBuffers {blockno : Nat} (hnone : ∀ b, ¬ (cache.buf b).Has ROOTDEV blockno)
    (hused : ∀ b, (cache.buf b).refcnt ≠ 0) :
    bread ROOTDEV blockno cache = .error (.panic "bget: no buffers") := by
  have hmiss : cache.lru.find? (fun b => decide ((cache.buf b).Has ROOTDEV blockno)) = none := by
    simpa [List.find?_eq_none] using fun b _ => hnone b
  have hfull : cache.lru.reverse.find? (fun b => decide ((cache.buf b).refcnt = 0)) = none := by
    simpa [List.find?_eq_none] using fun b _ => hused b
  refine bind_of_error ?_
  unfold bget
  rw [read_bind]
  simp only [hmiss, hfull]
  rfl

variable (hlog : LoggedBlocks logstart lh) (hall : lh.n = NBUF)
  (hcount : Counted (pinsFrom lh 0) ∅ cache)
include hlog hall hcount

/-- A transaction of `NBUF` blocks has all buffers pinned. -/
theorem Counted.all_pinned (b : BufRef) : ∃ i < lh.n, (cache.buf b).Has ROOTDEV (lh.block i) := by
  have hlt : ∀ i : BufRef, i.val < lh.n := fun i => i.isLt.trans_eq hall.symm
  have hplace : ∀ i : BufRef, ∃ c, (cache.buf c).Has ROOTDEV (lh.block i) := by
    intro i
    refine hcount.pinned (lh.block i) ?_
    rw [pinsFrom_block (hlt i) (Nat.zero_le _)]
    exact Nat.one_pos
  choose place hhas using hplace
  have hinjective : Function.Injective place := by
    intro i j heq
    have hblock : lh.block i = lh.block j := by
      rw [← (hhas i).2, heq, (hhas j).2]
    exact Fin.ext (hlog.distinct i j (hlt i) (hlt j) hblock)
  obtain ⟨i, rfl⟩ := (Finite.injective_iff_surjective.mp hinjective) b
  exact ⟨i, hlt i, hhas i⟩

theorem commit_noBuffers : commit logstart lh cache = .error (.panic "bget: no buffers") := by
  have hpos : 0 < lh.n := by
    rw [hall]
    decide
  have hread : bread ROOTDEV (logstart + 0 + 1) cache = .error (.panic "bget: no buffers") := by
    refine bread_noBuffers (fun b hb => ?_) (fun b hzero => ?_)
    · obtain ⟨i, hi, hhas⟩ := hcount.all_pinned hlog hall b
      exact logBlock_ne hlog hpos hi (hb.2.symm.trans hhas.2)
    · obtain ⟨i, hi, hhas⟩ := hcount.all_pinned hlog hall b
      have hrefcnt := hcount.refcnt b
      rw [if_pos hhas.1, hhas.2, pinsFrom_block hi (Nat.zero_le i)] at hrefcnt
      omega
  obtain ⟨rest, hrange⟩ : ∃ rest, List.range lh.n = 0 :: rest := by
    obtain ⟨m, hm⟩ := Nat.exists_eq_succ_of_ne_zero hpos.ne'
    exact ⟨_, by rw [hm, List.range_succ_eq_map]⟩
  unfold commit when
  rw [if_pos hpos]
  refine bind_of_error ?_
  unfold writeLog
  rw [hrange, forEach]
  exact bind_of_error (bind_of_error hread)

end Commit

/-- The header of a list of blocks. -/
def headerOf (blocks : List Nat) : LogHeader :=
  ⟨blocks.length, fun i => blocks.getD i 0⟩

theorem pinsFrom_headerOf (blocks : List Nat) (blockno : Nat) :
    pinsFrom (headerOf blocks) 0 blockno = if blockno ∈ blocks then 1 else 0 := by
  refine if_congr ?_ rfl rfl
  rw [List.mem_iff_getElem]
  constructor
  · rintro ⟨i, hlt, -, hblock⟩
    have hlt' : i < blocks.length := hlt
    exact ⟨i, hlt', by simpa [headerOf, hlt'] using hblock⟩
  · rintro ⟨i, hlt, hblock⟩
    exact ⟨i, hlt, Nat.zero_le i, by simpa [headerOf, hlt] using hblock⟩

theorem loggedBlocks_headerOf {logstart : Nat} {blocks : List Nat}
    (hfits : blocks.length ≤ LOGBLOCKS) (hnodup : blocks.Nodup)
    (hblocks : ∀ blockno ∈ blocks, ¬ InLog logstart blockno ∧ blockno < 2 ^ 32) :
    LoggedBlocks logstart (headerOf blocks) := by
  have hmem : ∀ i, i < blocks.length → (headerOf blocks).block i ∈ blocks := by
    intro i hlt
    simp [headerOf, hlt]
  refine ⟨hfits, ?_, fun i hlt => (hblocks _ (hmem i hlt)).1,
    fun i hlt => (hblocks _ (hmem i hlt)).2⟩
  intro i j hi hj heq
  have hi' : i < blocks.length := hi
  have hj' : j < blocks.length := hj
  have hsame : blocks[i] = blocks[j] := by
    simpa [headerOf, hi', hj'] using heq
  exact hnodup.getElem_inj_iff.mp hsame

/-- The cache holds one pin for every block of the header. -/
def Pinned (held : Finset BufRef) (state : Bcache × Log) : Prop :=
  Counted (pinsFrom (headerOf state.2.lh) 0) held state.1

theorem wp_logWrite {state : Bcache × Log} (hpinned : Pinned held state) (hheld : b ∈ held)
    (hdev : (state.1.buf b).dev = ROOTDEV) (hspace : state.2.lh.length < LOGBLOCKS)
    (hopen : 0 < state.2.outstanding) : wp (logWrite b) state (fun _ next =>
      Pinned held next ∧ (next.1.buf b).dev = ROOTDEV ∧
      next.2 = state.2.absorb (state.1.buf b).blockno) := by
  have hwrite : state.2.write (state.1.buf b).blockno =
      .ok (state.2.absorb (state.1.buf b).blockno) := by
    unfold Log.write Log.absorb
    rw [if_neg (by omega), if_neg (by omega)]
    split <;> rfl
  have hrefcnt := hpinned.refcnt b
  rw [if_pos hdev, if_pos hheld, pinsFrom_headerOf] at hrefcnt
  unfold logWrite
  rw [wp_bind, wp_read]
  simp only [hwrite, wp_bind]
  unfold when
  split
  next hnew =>
    -- a new block: one more pin, one more entry
    rw [if_neg hnew] at hrefcnt
    unfold inCache bpin
    rw [wp_within, wp_setBuf, wp_update]
    refine ⟨hpinned.set ⟨rfl, rfl⟩ hdev ?_ (fun _ _ => Iff.rfl) ?_
      (hpinned.locked b), by simpa using hdev, rfl⟩
    · intro blockno hne
      rw [pinsFrom_headerOf, pinsFrom_headerOf]
      simp only [Log.mem_absorb, hne, false_or]
    · rw [pinsFrom_headerOf, if_pos (Log.mem_absorb.mpr (Or.inl rfl)), if_pos hheld]
      simp [hrefcnt]
  next hold =>
    rw [not_not] at hold
    have hsame : state.2.absorb (state.1.buf b).blockno = state.2 := by
      simp [Log.absorb, hold]
    rw [wp_pure, wp_update, hsame]
    exact ⟨hpinned, hdev, rfl⟩

/-- Logging a block never runs out of buffers, and pins it once. -/
theorem wp_writeBlock {state : Bcache × Log} (change : Block → Block) (blockno : Nat)
    (hpinned : Pinned ∅ state) (hspace : state.2.lh.length < LOGBLOCKS)
    (hopen : 0 < state.2.outstanding) : wp (writeBlock change blockno) state (fun _ next =>
      Pinned ∅ next ∧ next.2 = state.2.absorb blockno) := by
  obtain ⟨unused, hunused⟩ := Counted.exists_unused_of_lt hpinned hspace
  unfold writeBlock inCache
  simp only [wp_bind, wp_within, wp_read]
  refine wp_mono (wp_bread hpinned (by simp) ⟨unused, Or.inr hunused⟩) ?_
  intro b held hb
  unfold setData
  rw [wp_setBuf]
  have hrefcnt := hb.count.refcnt b
  rw [if_pos hb.has.1] at hrefcnt
  have hchanged : Pinned {b} (held.set b { held.buf b with
      data := change (held.buf b).data }, state.2) := by
    refine hb.count.set ⟨rfl, rfl⟩ hb.has.1 (fun _ _ => rfl) ?_ hrefcnt (hb.count.locked b)
    simp
  refine wp_mono (wp_logWrite hchanged (by simp) (by simpa using hb.has.1) hspace hopen) ?_
  rintro _ logged ⟨hlogged, hdev, hlog⟩
  refine wp_mono (wp_brelse hlogged (by simp) hdev) ?_
  rintro _ next ⟨hnext, -, -⟩
  rw [Finset.erase_singleton] at hnext
  refine ⟨hnext, ?_⟩
  rw [hlog, Bcache.set_self]
  exact congrArg _ hb.has.2

theorem pinned_init (disk : Disk) :
    Pinned ∅ (Bcache.init disk, { Log.empty with outstanding := 1 }) where
  listed := by simp [Bcache.init]
  only := by
    intro b c blockno hb
    simp [Bcache.init, Buf.Has, ROOTDEV] at hb
  refcnt := by simp [Bcache.init, ROOTDEV]
  locked := by simp [Bcache.init]
  pinned := by simp [pinsFrom_headerOf, Log.empty]

/-- Any number of block writes that the log has room for. -/
theorem wp_writeBlocks (change : Block → Block) (blocks : List Nat) {state : Bcache × Log}
    (hpinned : Pinned ∅ state) (hspace : state.2.lh.length + blocks.length ≤ LOGBLOCKS)
    (hopen : 0 < state.2.outstanding) : wp (forEach (writeBlock change) blocks) state (fun _ next =>
      Pinned ∅ next ∧ next.2 = blocks.foldl Log.absorb state.2) := by
  induction blocks generalizing state with
  | nil => exact (wp_pure ()).mpr ⟨hpinned, rfl⟩
  | cons blockno rest ih =>
    rw [List.length_cons] at hspace
    rw [forEach]
    refine wp_seq (wp_writeBlock change blockno hpinned (by omega) hopen) ?_
    rintro _ ⟨cache, log⟩ ⟨hnext, rfl⟩
    refine ih hnext ?_ hopen
    have hgrow : (state.2.absorb blockno).lh.length ≤ state.2.lh.length + 1 := by
      unfold Log.absorb
      split <;> simp
    dsimp only
    omega

/-- `commit` of an admitted transaction, with nobody else holding a buffer,
runs to completion and leaves every buffer unreferenced exactly if the
transaction leaves one buffer to spare. -/
theorem commit_returns_iff {logstart : Nat} {lh : LogHeader} {cache : Bcache}
    (hlog : LoggedBlocks logstart lh) (hcount : Counted (pinsFrom lh 0) ∅ cache) :
    (∃ next, commit logstart lh cache = .ok ((), next) ∧
      ∀ b, (next.buf b).refcnt = 0) ↔ lh.n < NBUF := by
  constructor
  · rintro ⟨next, hreturn, -⟩
    have hfits : lh.n ≤ NBUF := hlog.fits
    refine hfits.lt_of_ne fun hall => ?_
    rw [commit_noBuffers hlog hall hcount] at hreturn
    cases hreturn
  · intro hfew
    obtain ⟨_, next, hreturn, hnext, -⟩ := carries_commit hlog hfew _ hcount
    refine ⟨next, hreturn, fun b => ?_⟩
    simpa using hnext.refcnt b

/-- The log and the cache after the first operation since boot has logged these
blocks. -/
def firstWrites (blocks : List Nat) : Except Stop (Unit × Bcache × Log) :=
  forEach (writeBlock id) blocks
    (Bcache.init (fun _ _ => 0), { Log.empty with outstanding := 1 })

theorem commit_returns_twoBlocks : ∃ cache log, firstWrites [46, 45, 46] = .ok ((), cache, log) ∧
      log.lh = [46, 45] ∧ ∃ next, commit 2 (headerOf log.lh) cache = .ok ((), next) ∧
        ∀ b, (next.buf b).refcnt = 0 := by
  obtain ⟨_, ⟨cache, log⟩, hrun, hpinned, hlog⟩ :=
    wp_writeBlocks id [46, 45, 46] (pinned_init fun _ _ => 0) (by decide) (by decide)
  have hlh : log.lh = [46, 45] := (congrArg Log.lh hlog).trans (by decide)
  refine ⟨cache, log, hrun, hlh, (commit_returns_iff ?_ hpinned).mpr ?_⟩
  · rw [hlh]
    exact loggedBlocks_headerOf (by decide) (by decide) (by decide)
  · rw [hlh]
    decide

/-- Thirty distinct blocks, as many as the log takes. -/
def thirtyBlocks : List Nat := (List.range 30).map (fun i => 100 + i)

/-- The largest transaction that `log_write` admits pins every buffer, and the
first `bread` of a log block finds none. -/
theorem commit_thirtyBlocks_panics : ∃ cache log, firstWrites thirtyBlocks = .ok ((), cache, log) ∧
      log.lh = thirtyBlocks ∧ LoggedBlocks 2 (headerOf log.lh) ∧
      Counted (pinsFrom (headerOf log.lh) 0) ∅ cache ∧ commit 2 (headerOf log.lh) cache =
        .error (.panic "bget: no buffers") := by
  obtain ⟨_, ⟨cache, log⟩, hrun, hpinned, hlog⟩ :=
    wp_writeBlocks id thirtyBlocks (pinned_init fun _ _ => 0) (by decide) (by decide)
  have hlh : log.lh = thirtyBlocks := (congrArg Log.lh hlog).trans (by decide)
  have hlogged : LoggedBlocks 2 (headerOf log.lh) := by
    rw [hlh]
    exact loggedBlocks_headerOf (by decide) (by decide) (by decide)
  refine ⟨cache, log, hrun, hlh, hlogged, hpinned, ?_⟩
  refine commit_noBuffers hlogged ?_ hpinned
  rw [hlh]
  decide

end Bio

end CkptKernel
