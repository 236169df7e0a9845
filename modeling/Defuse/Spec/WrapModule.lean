import Defuse.Lib.Paths
import Defuse.Lib.Procs
import Defuse.Lib.Runs
import Defuse.Spec.Errno

/-! `defuse_wrap_module/{defuse.h,inode.c}`: the kernel module that puts a mounted tree in front
of a directory of another file system and looks the backend up only when it is needed.

The kernel around it is given by its answers. Dentries and inodes are numbered and a reference to
a dentry has the number under which it was taken, so that it can be told which one is released.
The references to `p_parent` are left out: each `dget_parent` has its `dput` on every path. -/

namespace Defuse.WrapModule

open CSem Proc

/-! File types -/

def S_IFMT : UInt16 := 0xf000
def S_IFIFO : UInt16 := 0x1000
def S_IFCHR : UInt16 := 0x2000
def S_IFDIR : UInt16 := 0x4000
def S_IFBLK : UInt16 := 0x6000
def S_IFREG : UInt16 := 0x8000
def S_IFLNK : UInt16 := 0xa000
def S_IFSOCK : UInt16 := 0xc000

def S_ISDIR (mode : UInt16) : Bool := mode &&& S_IFMT = S_IFDIR

def permissionBits : UInt16 := 0xfff

def DEFUSE_DEFAULT_MODE : UInt16 := 0x1ed

/-! The state -/

/-- The dentries of the mounted trees. A root is its own parent and has the name `/`, which no
other entry has. -/
structure Dcache where
  parent : ℕ → ℕ
  name : ℕ → Seg
  sb : ℕ → ℕ
  path : ℕ → List Seg
  of_root : ∀ d, path d = [] → parent d = d ∧ name d = [slash]
  of_child : ∀ d, path d ≠ [] → path d = path (parent d) ++ [name d] ∧ name d ≠ [slash]
  sb_parent : ∀ d, sb (parent d) = sb d

inductive Dentry
  /-- of a mounted tree -/
  | proxy (d : ℕ)
  | backend (d : ℕ)
  deriving DecidableEq, Repr

/-- A pointer to a dentry and the reference that was taken with it, if one was. -/
structure Held where
  dentry : Dentry
  ref : Option ℕ
  deriving DecidableEq, Repr

/-- `struct defuse_inode`, with the hash under which `iget5_locked` keeps it. -/
structure DefuseInode where
  sb : ℕ
  hash : ℕ
  mode : UInt16
  pDentry : Option ℕ
  bDentry : Option Held
  deriving DecidableEq, Repr

structure State where
  dcache : Dcache
  /-- the positive entries of the mounted trees, with their inodes -/
  dentries : List (ℕ × ℕ)
  inodes : ℕ → DefuseInode
  /-- the live inodes in the order in which `iget5_locked` compares them -/
  chain : List ℕ
  fresh : ℕ
  /-- the backend dentries the module took a reference to -/
  taken : List Dentry
  released : List ℕ
  /-- `dput` of a pointer without a reference -/
  stray : ℕ
  /-- `mnt_want_write` without its `mnt_drop_write` -/
  writers : ℤ

inductive VfsCall
  | link
  | create
  | mkdir
  | mknod
  | symlink
  | rmdir
  | unlink
  | rename
  | notifyChange
  | getattr
  | readlink
  | setxattr
  | getxattr
  | listxattr
  | removexattr
  deriving DecidableEq, Repr

structure Kernel where
  /-- `i_mode` of the inode of a backend dentry, none for a negative one -/
  mode : ℕ → Option UInt16
  /-- none for an error -/
  lookupOneLen : Dentry → Seg → Option Dentry
  /-- whether `iget5_locked` gets memory for a new inode -/
  allocates : Bool
  wantWrite : ℤ
  vfs : VfsCall → ℤ
  /-- what `lock_rename` returns -/
  trap : Option Dentry
  /-- `b_inode->i_op->readlink` -/
  hasReadlink : Bool

namespace State

def inodeOf (m : State) (d : ℕ) : Option ℕ := m.dentries.lookup d

/-- `d_inode`, by its `i_mode` -/
def dInode (k : Kernel) (m : State) : Dentry → Option UInt16
  | .proxy d => (m.inodeOf d).map fun i => (m.inodes i).mode
  | .backend d => k.mode d

def setBDentry (i : ℕ) (b : Held) (m : State) : State :=
  { m with inodes := Function.update m.inodes i { m.inodes i with bDentry := some b } }

def setPDentry (i d : ℕ) (m : State) : State :=
  { m with inodes := Function.update m.inodes i { m.inodes i with pDentry := some d } }

def instantiate (d i : ℕ) (m : State) : State := { m with dentries := (d, i) :: m.dentries }

def take (d : Dentry) (m : State) : State := { m with taken := m.taken ++ [d] }

def dput (b : Held) (m : State) : State :=
  match b.ref with
  | some r => { m with released := r :: m.released }
  | none => { m with stray := m.stray + 1 }

def wantWrite (m : State) : State := { m with writers := m.writers + 1 }

def dropWrite (m : State) : State := { m with writers := m.writers - 1 }

/-- `defuse_alloc_inode` and `defuse_inode_set` -/
def allocInode (sb hash : ℕ) (mode : UInt16) (entry : Option ℕ) (m : State) : State :=
  { m with
    inodes := Function.update m.inodes m.fresh ⟨sb, hash, mode, entry, none⟩
    chain := m.fresh :: m.chain
    fresh := m.fresh + 1 }

def findAlias (m : State) (i : ℕ) : Option ℕ :=
  (m.dentries.find? fun p => p.2 = i).map Prod.fst

end State

abbrev Call := Proc State ℤ

/-- The end of a function that returns `err`. -/
def returnErr (err : ℤ) : Call Unit := if err = 0 then pure () else fail err

/-! Resolving -/

/-- The end of `defuse_resolve_dentry`, with the backend dentry of the parent. -/
def lookupChild (k : Kernel) (entry : ℕ) (bParent : Held) : Call (Option Held) := do
  if (← read fun m => m.dInode k bParent.dentry).isNone then
    -- the entry itself stands for a negative backend dentry, and no reference is taken
    pure (some ⟨.proxy entry, none⟩)
  else
    match k.lookupOneLen bParent.dentry (← read fun m => m.dcache.name entry) with
    | none => pure none
    | some d => do
      let r ← read fun m => m.taken.length
      update (State.take d)
      pure (some ⟨d, some r⟩)

/-- The recursion of `defuse_resolve_dentry`, at most `limit` calls deep. -/
def resolveLoop (k : Kernel) : ℕ → ℕ → Call (Option Held)
  | 0, _ => stop .stepLimit
  | limit + 1, entry => do
    let pParent ← read fun m => m.dcache.parent entry
    match ← read fun m => m.inodeOf pParent with
    | none => pure none
    | some i =>
      match ← read fun m => (m.inodes i).bDentry with
      | some bParent => lookupChild k entry bParent
      | none =>
        match ← resolveLoop k limit pParent with
        | none => pure none
        | some bParent => do
          update (State.setBDentry i bParent)
          lookupChild k entry bParent

def resolveDentry (k : Kernel) (entry : Option ℕ) : Call (Option Held) :=
  match entry with
  | none => pure none
  | some entry => do resolveLoop k ((← read fun m => m.dcache.path entry).length + 1) entry

/-- The check of `defuse_get_b_dentry_resolved` for a negative backend. -/
def ifPositive (k : Kernel) (b : Held) : Call Held := do
  if (← read fun m => m.dInode k b.dentry).isSome then pure b else fail (- ENOENT)

def getBDentryResolved (k : Kernel) (inode : Option ℕ) : Call Held :=
  match inode with
  | none => fail (- ENOENT)
  | some i => do
    match ← read fun m => (m.inodes i).bDentry with
    | some b => ifPositive k b
    | none =>
      match ← resolveDentry k (← read fun m => (m.inodes i).pDentry) with
      | none => fail (- ENOENT)
      | some b => ifPositive k b

/-! Inodes -/

/-- `defuse_inode_eq` -/
def inodeEq (m : State) (i : ℕ) (entry : Option ℕ) : Checked Bool :=
  match entry with
  | none => .ok false
  | some d =>
    match (m.inodes i).pDentry with
    | none => .error .nullDeref
    | some p => .ok (m.dcache.name p = m.dcache.name d)

/-- The search of `iget5_locked`. -/
def findInode (m : State) (sb hash : ℕ) (entry : Option ℕ) : List ℕ → Checked (Option ℕ)
  | [] => .ok none
  | i :: rest =>
    if (m.inodes i).sb = sb ∧ (m.inodes i).hash = hash then do
      if ← inodeEq m i entry then .ok (some i) else findInode m sb hash entry rest
    else findInode m sb hash entry rest

section Named

variable (fullNameHash : Seg → ℕ)

def dhash (m : State) (entry : Option ℕ) : ℕ :=
  match entry with
  | some d => fullNameHash (m.dcache.name d)
  | none => fullNameHash [slash]

def iget (k : Kernel) (sb : ℕ) (entry : Option ℕ) (mode : UInt16) : Call (Option ℕ) := fun m => do
  match ← findInode m sb (dhash fullNameHash m entry) entry m.chain with
  | some i => .ok (.ok (some i), m)
  | none =>
    if k.allocates then
      .ok (.ok (some m.fresh), m.allocInode sb (dhash fullNameHash m entry) mode entry)
    else .ok (.ok none, m)

/-! Creating -/

/-- The backend call of `defuse_do_create`. Nothing is called for a mode without a known file
type. -/
def vfsCreate (k : Kernel) (mode : UInt16) (hardlink : Option ℕ) : Option ℤ :=
  match hardlink with
  | some _ => some (k.vfs .link)
  | none =>
    let type := mode &&& S_IFMT
    if type = S_IFREG then some (k.vfs .create)
    else if type = S_IFDIR then some (k.vfs .mkdir)
    else if type = S_IFCHR ∨ type = S_IFBLK ∨ type = S_IFIFO ∨ type = S_IFSOCK then
      some (k.vfs .mknod)
    else if type = S_IFLNK then some (k.vfs .symlink)
    else none

def resolveHardlink (k : Kernel) (hardlink : Option ℕ) : Call Unit :=
  match hardlink with
  | none => pure ()
  | some h => do
    let _ ← getBDentryResolved k (← read fun m => m.inodeOf h)

/-- `defuse_do_create` up to the check that the backend dentry is negative. -/
def newDentry (k : Kernel) (dir entry : ℕ) (hardlink : Option ℕ) : Call Held := do
  let _ ← getBDentryResolved k (some dir)
  resolveHardlink k hardlink
  match ← resolveDentry k (some entry) with
  | none => fail (- EIO)
  | some b =>
    if (← read fun m => m.dInode k b.dentry).isSome then do
      update (State.dput b)
      fail (- ESTALE)
    else pure b

/-- `defuse_do_create` up to the backend call. -/
def createTarget (k : Kernel) (dir entry : ℕ) (mode : UInt16) (hardlink : Option ℕ) :
    Call (Held × ℕ) := do
  let b ← newDentry k dir entry hardlink
  match ← iget fullNameHash k (← read fun m => (m.inodes dir).sb) (some entry) mode with
  | none => do
    update (State.dput b)
    fail (- ENOSPC)
  | some i => pure (b, i)

/-- It returns 0 with any result of the backend call, which is the value here. -/
def doCreate (k : Kernel) (dir entry : ℕ) (mode : UInt16) (hardlink : Option ℕ) :
    Call (Option ℤ) := do
  let (b, i) ← createTarget fullNameHash k dir entry mode hardlink
  let err := (vfsCreate k mode hardlink).getD (- EPERM)
  update fun m => if err = 0 then m else m.dput b
  update (State.instantiate entry i)
  update (State.setBDentry i b)
  pure (vfsCreate k mode hardlink)

/-- A call between `mnt_want_write` and `mnt_drop_write`. -/
def withWrite {α : Type} (k : Kernel) (call : Call α) : Call α :=
  if k.wantWrite = 0 then do
    update State.wantWrite
    call.thenAlways State.dropWrite
  else fail k.wantWrite

def createObject (k : Kernel) (dir entry : ℕ) (mode : UInt16) (hardlink : Option ℕ) :
    Call (Option ℤ) :=
  withWrite k (doCreate fullNameHash k dir entry mode hardlink)

inductive Creation
  | create (mode : UInt16)
  | mkdir (mode : UInt16)
  | mknod (mode : UInt16)
  | symlink
  | link (old : ℕ)
  deriving DecidableEq, Repr

/-- `mode` and `hardlink` for `defuse_create_object`. -/
def Creation.object (m : State) : Creation → UInt16 × Option ℕ
  | .create mode => ((mode &&& permissionBits) ||| S_IFREG, none)
  | .mkdir mode => ((mode &&& permissionBits) ||| S_IFDIR, none)
  | .mknod mode => (mode, none)
  | .symlink => (S_IFLNK, none)
  | .link old => (((m.inodeOf old).map fun i => (m.inodes i).mode).getD 0, some old)

/-! Looking up -/

structure LookupFlags where
  /-- `LOOKUP_DIRECTORY` -/
  directory : Bool
  /-- `LOOKUP_CREATE` -/
  create : Bool
  deriving DecidableEq, Repr

/-- `d_splice_alias`. A directory that has an entry already keeps it: if that stands elsewhere, it
is moved, and `moved` are the trees after that. -/
def spliceAlias (moved : Dcache) (inode : Option ℕ) (entry : ℕ) : Call Unit :=
  match inode with
  | none => pure ()
  | some i => update fun m =>
    match if S_ISDIR (m.inodes i).mode then m.findAlias i else none with
    | none => m.instantiate entry i
    | some a =>
      if m.dcache.parent a = m.dcache.parent entry ∧ m.dcache.name a = m.dcache.name entry then m
      else { m with dcache := moved }

/-- The inode that `defuse_lookup` gets for a backend dentry, none for a negative one. -/
def lookupCreate (k : Kernel) (dir entry : ℕ) : Call (Option ℕ) := do
  match ← resolveDentry k (some entry) with
  | none => fail (- EIO)
  | some b =>
    match ← read fun m => m.dInode k b.dentry with
    | none => do
      update (State.dput b)
      pure none
    | some mode =>
      match ← iget fullNameHash k (← read fun m => (m.inodes dir).sb) (some entry) mode with
      | none => do
        update (State.dput b)
        fail (- ENOSPC)
      | some i => do
        update (State.setBDentry i b)
        pure (some i)

def lookupDelayed (k : Kernel) (dir entry : ℕ) (flags : LookupFlags) : Call (Option ℕ) := do
  let base := if flags.directory then S_IFDIR else S_IFREG
  match ← iget fullNameHash k (← read fun m => (m.inodes dir).sb) (some entry)
      (base ||| DEFUSE_DEFAULT_MODE) with
  | none => fail (- ENOSPC)
  | some i => pure (some i)

def lookupInode (k : Kernel) (dir entry : ℕ) (flags : LookupFlags) : Call (Option ℕ) :=
  if flags.create then lookupCreate fullNameHash k dir entry
  else lookupDelayed fullNameHash k dir entry flags

def lookup (k : Kernel) (dir entry : ℕ) (flags : LookupFlags) (moved : Dcache) : Call Unit := do
  let inode ← lookupInode fullNameHash k dir entry flags
  spliceAlias moved inode entry

/-! Deleting and renaming -/

def doDelete (k : Kernel) (dir entry : ℕ) : Call Unit := do
  let _ ← getBDentryResolved k (some dir)
  let b ← getBDentryResolved k (← read fun m => m.inodeOf entry)
  let mode ← read fun m => m.dInode k b.dentry
  returnErr (k.vfs (if mode.any S_ISDIR then .rmdir else .unlink))

def deleteObject (k : Kernel) (dir entry : ℕ) : Call Unit := withWrite k (doDelete k dir entry)

/-- The end of `defuse_rename`, with the backend dentries of both entries. The VFS moves the entry
after a success. -/
def renameBackend (k : Kernel) (bOldent bNewent : Held) (moved : Dcache) : Call Unit := do
  if k.trap = some bOldent.dentry then do
    update (State.dput bNewent)
    fail (- EINVAL)
  else if k.trap = some bNewent.dentry then do
    update (State.dput bNewent)
    fail (- ENOTEMPTY)
  else do
    update (State.dput bNewent)
    returnErr (k.vfs .rename)
    update fun m => { m with dcache := moved }

def rename (k : Kernel) (oldent newent : ℕ) (moved : Dcache) : Call Unit := do
  let _ ← getBDentryResolved k (← read fun m => m.inodeOf (m.dcache.parent oldent))
  let bOldent ← getBDentryResolved k (← read fun m => m.inodeOf oldent)
  let _ ← getBDentryResolved k (← read fun m => m.inodeOf (m.dcache.parent newent))
  match ← resolveDentry k (some newent) with
  | none => fail (- EIO)
  | some bNewent => renameBackend k bOldent bNewent moved

/-! Attributes -/

def readBackend (k : Kernel) (call : VfsCall) (entry : ℕ) : Call Unit := do
  let b ← getBDentryResolved k (← read fun m => m.inodeOf entry)
  if (← read fun m => m.dInode k b.dentry).isNone then fail (- ENOENT) else returnErr (k.vfs call)

def changeBackend (k : Kernel) (call : VfsCall) (entry : ℕ) : Call Unit := do
  let _ ← getBDentryResolved k (← read fun m => m.inodeOf entry)
  withWrite k (returnErr (k.vfs call))

def readlink (k : Kernel) (entry : ℕ) : Call Unit := do
  let b ← getBDentryResolved k (← read fun m => m.inodeOf entry)
  if (← read fun m => m.dInode k b.dentry).isNone then fail (- ENOENT)
  else if k.hasReadlink then returnErr (k.vfs .readlink)
  else fail (- EINVAL)

inductive AttributeCall
  | getattr
  | getxattr
  | listxattr
  | readlink
  | setattr
  | setxattr
  | removexattr
  deriving DecidableEq, Repr

def AttributeCall.exec (k : Kernel) (entry : ℕ) : AttributeCall → Call Unit
  | .getattr => readBackend k .getattr entry
  | .getxattr => readBackend k .getxattr entry
  | .listxattr => readBackend k .listxattr entry
  | .readlink => WrapModule.readlink k entry
  | .setattr => changeBackend k .notifyChange entry
  | .setxattr => changeBackend k .setxattr entry
  | .removexattr => changeBackend k .removexattr entry

/-! Mounting and the end of inodes -/

/-- What `defuse_fill_super` gets from the kernel. -/
structure MountData where
  /-- the dentry `d_make_root` makes -/
  root : ℕ
  /-- whether there is memory for the `defuse_fs_info` -/
  hasInfo : Bool
  /-- what `defuse_parse_options` returns, with the mode of the root -/
  options : Except ℤ UInt16
  /-- the backend dentry `kern_path` finds -/
  kernPath : Except ℤ ℕ
  makesRoot : Bool

/-- `defuse_fill_super` after `kern_path`. -/
def mountBackend (k : Kernel) (data : MountData) (mode : UInt16) (path : Held) : Call Unit := do
  match ← iget fullNameHash k (← read fun m => m.dcache.sb data.root) none (S_IFDIR ||| mode) with
  | none => do
    update (State.dput path)
    fail (- ENOMEM)
  | some i =>
    if data.makesRoot then do
      update (State.instantiate data.root i)
      update (State.setPDentry i data.root)
      update (State.setBDentry i path)
      update (State.dput path)
    else do
      -- `d_make_root` gives the inode back
      update fun m => { m with chain := m.chain.erase i }
      update (State.dput path)
      fail (- ENOMEM)

def fillSuper (k : Kernel) (data : MountData) : Call Unit :=
  if data.hasInfo then
    match data.options, data.kernPath with
    | .error err, _ => fail err
    | .ok _, .error err => fail err
    | .ok mode, .ok d => do
      let r ← read fun m => m.taken.length
      update (State.take (.backend d))
      if (k.mode d).any S_ISDIR then mountBackend fullNameHash k data mode ⟨.backend d, some r⟩
      else do
        update (State.dput ⟨.backend d, some r⟩)
        fail (- EINVAL)
  else fail (- ENOMEM)

def iCallback (m : State) (i : ℕ) : State :=
  match (m.inodes i).bDentry with
  | some b => { m with chain := m.chain.erase i }.dput b
  | none => { m with chain := m.chain.erase i }

def killSb (sb : ℕ) (m : State) : State :=
  (m.chain.filter fun i => (m.inodes i).sb = sb).foldl iCallback
    { m with dentries := m.dentries.filter fun p => (m.inodes p.2).sb ≠ sb }

/-! Runs -/

inductive EntryCall
  | mount (k : Kernel) (data : MountData)
  | lookup (k : Kernel) (entry : ℕ) (flags : LookupFlags) (moved : Dcache)
  | create (k : Kernel) (entry : ℕ) (what : Creation)

inductive Event
  | named (call : EntryCall)
  | delete (k : Kernel) (entry : ℕ)
  | rename (k : Kernel) (oldent newent : ℕ) (moved : Dcache)
  | attributes (k : Kernel) (entry : ℕ) (call : AttributeCall)
  /-- the kernel drops an entry -/
  | dropEntry (entry : ℕ)
  /-- the kernel drops an inode that no entry has -/
  | destroyInode (i : ℕ)
  | unmount (sb : ℕ)

/-- A call of the VFS in the directory of an entry, which it makes only if that is positive. -/
def inDirectory (entry : ℕ) (call : ℕ → Call Unit) : Call Unit := do
  match ← read fun m => m.inodeOf (m.dcache.parent entry) with
  | none => pure ()
  | some dir => call dir

/-- The VFS looks up and creates negative entries, and makes a root for each mount. -/
def EntryCall.exec : EntryCall → Call Unit
  | .mount k data => do
    if ← read fun m => (m.dcache.path data.root).isEmpty && (m.inodeOf data.root).isNone then
      fillSuper fullNameHash k data
    else pure ()
  | .lookup k entry flags moved => inDirectory entry fun dir => do
    if ← read fun m => (m.inodeOf entry).isNone then
      WrapModule.lookup fullNameHash k dir entry flags moved
    else pure ()
  | .create k entry what => inDirectory entry fun dir => do
    if ← read fun m => (m.inodeOf entry).isNone then do
      let (mode, hardlink) ← read fun m => what.object m
      let _ ← createObject fullNameHash k dir entry mode hardlink
    else pure ()

def Event.exec : Event → Call Unit
  | .named call => call.exec fullNameHash
  | .delete k entry => inDirectory entry fun dir => deleteObject k dir entry
  | .rename k oldent newent moved => WrapModule.rename k oldent newent moved
  | .attributes k entry call => call.exec k entry
  | .dropEntry entry => update fun m =>
    { m with dentries := m.dentries.filter fun p => p.1 ≠ entry }
  | .destroyInode i => update fun m =>
    if i ∈ m.chain ∧ m.findAlias i = none then iCallback m i else m
  | .unmount sb => update (killSb sb)

def step (m : State) (e : Event) : Checked State := (e.exec fullNameHash m).map Prod.snd

end Named

def State.loaded (dcache : Dcache) : State :=
  ⟨dcache, [], fun _ => ⟨0, 0, 0, none, none⟩, [], 0, [], [], 0, 0⟩

end Defuse.WrapModule
