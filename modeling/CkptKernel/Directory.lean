/-
The upper layers of kernel/fs.c, directories and path names, and the calls of
kernel/sysfile.c that work on names alone.
-/
import CkptKernel.Fs

namespace CkptKernel

open ByteMem Code

/-- A C string in kernel memory, without its terminating NUL. -/
abbrev Name := List UInt8

/-- The characters `strncmp(.., DIRSIZ)` looks at. -/
def cname (name : Name) : Name := (name.take DIRSIZ).takeWhile (· ≠ 0)

def namecmp (s t : Name) : Prop := cname s = cname t

instance (s t : Name) : Decidable (namecmp s t) :=
  inferInstanceAs (Decidable (_ = _))

def DIRENT : Nat := 16

def direntInum (de : Bytes) : Nat := getLE de 0 2

def direntName (de : Bytes) : Name :=
  (List.range DIRSIZ).map (fun i => de (2 + i))

/-- A `struct dirent` filled in by `dirlink`; `strncpy` pads with zeros. -/
def dirent (name : Name) (inum : Nat) : Bytes := fun i =>
  if i < 2 then leByte inum i else (cname name).getD (i - 2) 0

/-- Read the directory entry at `off`, or panic on a short read. -/
def readDirent (dp : InodeRef) (off : Nat) (message : String) : Code Fs Bytes := do
  let result ← readi dp (.kernel (fun _ => 0)) off DIRENT
  if result.1 = some DIRENT then pure result.2 else .panic message

def dirlookupFrom (dp : InodeRef) (name : Name) : Nat → Nat → Code Fs (Option (InodeRef × Nat))
  | 0, _ => pure none
  | fuel + 1, off => do
    let fs ← read
    if off < (fs.inode dp).copy.size.toNat then do
      let de ← readDirent dp off "dirlookup read"
      if direntInum de ≠ 0 ∧ namecmp name (direntName de) then do
        let ip ← iget (direntInum de)
        pure (some (ip, off))
      else dirlookupFrom dp name fuel (off + DIRENT)
    else pure none

/-- Look for a directory entry in a directory: the inode and the byte offset
of the entry. -/
def dirlookup (dp : InodeRef) (name : Name) : Code Fs (Option (InodeRef × Nat)) := do
  let fs ← read
  if (fs.inode dp).copy.type ≠ T_DIR then .panic "dirlookup not DIR"
  else dirlookupFrom dp name ((fs.inode dp).copy.size.toNat + 1) 0

/-- The loop of `dirlink` that looks for an empty entry. -/
def dirlinkFrom (dp : InodeRef) : Nat → Nat → Code Fs Nat
  | 0, off => pure off
  | fuel + 1, off => do
    let fs ← read
    if off < (fs.inode dp).copy.size.toNat then do
      let de ← readDirent dp off "dirlink read"
      if direntInum de = 0 then pure off
      else dirlinkFrom dp fuel (off + DIRENT)
    else pure off

/-- Write a new directory entry; `false` stands for -1. -/
def dirlink (dp : InodeRef) (name : Name) (inum : Nat) : Code Fs Bool := do
  let found ← dirlookup dp name
  match found with
  | some (ip, _) => do
    iput ip
    pure false
  | none => do
    let fs ← read
    let off ← dirlinkFrom dp ((fs.inode dp).copy.size.toNat + 1) 0
    let written ← writei dp (.kernel (dirent name inum)) off DIRENT
    pure (written = some DIRENT)

def slash : UInt8 := 47

/-- Copy the next path element from path into name: the element, cut to
`DIRSIZ` bytes, and the path after it. -/
def skipelem (path : Name) : Option (Name × Name) :=
  let path := path.dropWhile (· = slash)
  if path = [] then none
  else some ((path.takeWhile (· ≠ slash)).take DIRSIZ,
    (path.dropWhile (· ≠ slash)).dropWhile (· = slash))

def namexFrom (parent : Bool) : Nat → InodeRef → Name → Code Fs (Option (InodeRef × Name))
  | 0, _, _ => pure none
  | fuel + 1, ip, path =>
    match skipelem path with
    | none =>
      if parent then do
        iput ip
        pure none
      else pure (some (ip, []))
    | some (name, rest) => do
      ilock ip
      let fs ← read
      if (fs.inode ip).copy.type ≠ T_DIR then do
        iunlockput ip
        pure none
      else if parent = true ∧ rest = [] then do
        iunlock ip
        pure (some (ip, name))
      else do
        let next ← dirlookup ip name
        iunlockput ip
        match next with
        | none => pure none
        | some (next, _) => namexFrom parent fuel next rest

/-- Look up and return the inode for a path name, or for its parent together
with the final path element. -/
def namex (cwd : Option InodeRef) (path : Name) (parent : Bool) :
    Code Fs (Option (InodeRef × Name)) := do
  let ip ← if path.head? = some slash then iget ROOTINO
    else match cwd with
      | some cwd => idup cwd
      | none => .panic "null cwd"
  namexFrom parent (path.length + 1) ip path

def namei (cwd : Option InodeRef) (path : Name) : Code Fs (Option InodeRef) := do
  let found ← namex cwd path false
  pure (found.map Prod.fst)

def nameiparent (cwd : Option InodeRef) (path : Name) : Code Fs (Option (InodeRef × Name)) :=
  namex cwd path true

def dotName : Name := [46]
def dotdotName : Name := [46, 46]

def createDots (dp ip : InodeRef) (type : UInt16) : Code Fs Bool := do
  let fs ← read
  if type = T_DIR then do
    let dot ← dirlink ip dotName (fs.inode ip).inum
    if dot then dirlink ip dotdotName (fs.inode dp).inum else pure false
  else pure true

/-- Enter a new inode into its directory; `false` goes to `fail`. -/
def createEntries (dp ip : InodeRef) (name : Name) (type : UInt16) : Code Fs Bool := do
  let dots ← createDots dp ip type
  let fs ← read
  if dots then dirlink dp name (fs.inode ip).inum else pure false

/-- `create` after `ialloc`: link the new inode and return it locked. -/
def createLink (dp ip : InodeRef) (name : Name) (type major minor : UInt16) :
    Code Fs (Option InodeRef) := do
  ilock ip
  setCopy ip (fun dn => { dn with major := major, minor := minor, nlink := 1 })
  iupdate ip
  let linked ← createEntries dp ip name type
  if linked then do
    when (type = T_DIR) do
      setCopy dp (fun dn => { dn with nlink := dn.nlink + 1 })
      iupdate dp
    iunlockput dp
    pure (some ip)
  else do
    setCopy ip (fun dn => { dn with nlink := 0 })
    iupdate ip
    iunlockput ip
    iunlockput dp
    pure none

/-- `create`: the inode at `path`, locked, made if there is none. -/
def create (cwd : Option InodeRef) (path : Name) (type major minor : UInt16) :
    Code Fs (Option InodeRef) := do
  let found ← nameiparent cwd path
  match found with
  | none => pure none
  | some (dp, name) => do
    ilock dp
    let entry ← dirlookup dp name
    match entry with
    | some (ip, _) => do
      iunlockput dp
      ilock ip
      let fs ← read
      let old := (fs.inode ip).copy.type
      if type = T_FILE ∧ (old = T_FILE ∨ old = T_DEVICE) then
        pure (some ip)
      else do
        iunlockput ip
        pure none
    | none => do
      let ip ← ialloc type
      match ip with
      | none => do
        iunlockput dp
        pure none
      | some ip => createLink dp ip name type major minor

def isdiremptyFrom (dp : InodeRef) : Nat → Nat → Code Fs Bool
  | 0, _ => pure true
  | fuel + 1, off => do
    let fs ← read
    if off < (fs.inode dp).copy.size.toNat then do
      let de ← readDirent dp off "isdirempty: readi"
      if direntInum de ≠ 0 then pure false
      else isdiremptyFrom dp fuel (off + DIRENT)
    else pure true

/-- Is the directory `dp` empty except for "." and ".." ? -/
def isdirempty (dp : InodeRef) : Code Fs Bool := do
  let fs ← read
  isdiremptyFrom dp ((fs.inode dp).copy.size.toNat + 1) (2 * DIRENT)

end CkptKernel
