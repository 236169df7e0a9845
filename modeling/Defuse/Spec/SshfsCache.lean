import Defuse.Lib.Checked
import Defuse.Lib.Paths
import Mathlib.Algebra.Group.Nat.Defs

/-! `usfs_wrap/sshfs/cache.c` and the calls that go through it. Calls of several threads and
the server's answers interleave; what a thread does under the lock is one step. -/

namespace Defuse

open CSem

abbrev Path := List UInt8

/-- `sizeof(uint64_t)`: the functions of the wrapper that have a handle pass on the address of their
parameter. -/
def handleSize : ℕ := 8

/-- `offsetof(struct sshfs_file, connver)`, with pointers of 8 bytes and a `pthread_cond_t` of 48. -/
def connverOffset : ℕ := 128

/-- The first access of `sshfs_file_is_conn` to what `get_sshfs_file` makes of a pointer to an
object of `size` bytes. -/
def loadConnver (size : ℕ) : Checked Unit :=
  if connverOffset + 4 ≤ size then .ok () else .error .outOfBounds

/-- `struct node`. A stat is represented by the moment at which the server answered with
it; its fields play no part here, nor do the directory and the link of a node. -/
structure Node where
  stat : ℕ
  statValid : ℤ
  valid : ℤ
  deriving DecidableEq, Repr

/-- The options of `struct cache`, with the values of `cache_parse_options`. -/
structure CacheOpts where
  statTimeoutSecs : ℕ := 20
  maxSize : ℕ := 10000
  cleanIntervalSecs : ℕ := 60
  minCleanIntervalSecs : ℕ := 5
  deriving DecidableEq, Repr

structure Cache where
  table : List (Path × Node) := []
  lastCleaned : ℤ := 0
  writeCtr : ℕ := 0
  deriving DecidableEq, Repr

def cacheLookup (cache : Cache) (path : Path) : Option Node :=
  (cache.table.find? (·.1 = path)).map (·.2)

def cachePurge (cache : Cache) (path : Path) : Cache :=
  { cache with table := cache.table.filter (·.1 ≠ path) }

/-- `cache_purge_parent`: the part before the last slash, or the root. -/
def cachePurgeParent (cache : Cache) (path : Path) : Cache :=
  match path.reverse.dropWhile (· ≠ slash) with
  | [] => cache
  | [_] => cachePurge cache [slash]
  | _ :: parent => cachePurge cache parent.reverse

def cacheInvalidate (cache : Cache) (path : Path) : Cache := cachePurge cache path

def cacheInvalidateWrite (cache : Cache) (path : Path) : Cache :=
  { cachePurge cache path with writeCtr := (cache.writeCtr + 1) % 2 ^ 64 }

def cacheInvalidateDir (cache : Cache) (path : Path) : Cache :=
  cachePurgeParent (cachePurge cache path) path

def cacheClean (opts : CacheOpts) (now : ℤ) (cache : Cache) : Cache :=
  if now > cache.lastCleaned + opts.minCleanIntervalSecs ∧
      (cache.table.length > opts.maxSize ∨ now > cache.lastCleaned + opts.cleanIntervalSecs) then
    { cache with table := cache.table.filter (¬ now > ·.2.valid), lastCleaned := now }
  else cache

/-- `cache_get`: a zeroed node when there is none. -/
def cacheGet (cache : Cache) (path : Path) : Node := (cacheLookup cache path).getD ⟨0, 0, 0⟩

def Node.setStat (node : Node) (opts : CacheOpts) (now : ℤ) (stat : ℕ) : Node :=
  let statValid := now + opts.statTimeoutSecs
  ⟨stat, statValid, if statValid > node.valid then statValid else node.valid⟩

def cacheAddAttr (opts : CacheOpts) (now : ℤ) (cache : Cache) (path : Path) (stat wrctr : ℕ) :
    Cache :=
  if wrctr = cache.writeCtr then
    let node := (cacheGet cache path).setStat opts now stat
    cacheClean opts now { cache with table := (path, node) :: (cachePurge cache path).table }
  else cache

/-- `cache_get_attr`; `none` is `-EAGAIN`. -/
def cacheGetAttr (now : ℤ) (cache : Cache) (path : Path) : Option ℕ := do
  let node ← cacheLookup cache path
  if node.statValid - now ≥ 0 then some node.stat else none

/-- The calls of the wrapper; a handle is its place in the list of opened files. -/
inductive SshfsOp
  | open (path : Path) (creat : Bool)
  | write (handle : ℕ)
  | truncate (path : Path)
  | ftruncate (handle : ℕ)
  | getattr (path : Path)
  | fgetattr (handle : ℕ)
  | unlink (path : Path)
  deriving DecidableEq, Repr

/-- A call that has begun and not returned. A reply is `none` until the server has answered;
an answer `none` is an error. -/
inductive Pending
  /-- `cache_getattr` found nothing it could use. -/
  | missed (path : Path) (started : ℕ) (file : Option ℕ)
  /-- It has read the counter and waits for the attributes. -/
  | fetching (path : Path) (started : ℕ) (file : Option ℕ) (wrctr : ℕ) (attrs : Option (Option ℕ))
  /-- `sshfs_open_common` has read the counter and waits for handle and attributes. -/
  | opening (path : Path) (creat : Bool) (wrctr : ℕ) (handle attrs : Option (Option ℕ))
  | writing (file sent : ℕ)
  /-- The answer names the file the path led to and tells whether it was truncated. -/
  | truncating (path : Path) (sent : ℕ) (reply : Option (Option ℕ × Bool))
  | ftruncating (file sent : ℕ) (reply : Option Bool)
  | unlinking (path : Path) (reply : Option Bool)
  deriving DecidableEq, Repr

/-- A `getattr` that has returned a stat: the file its path led to when it began. -/
structure Answer where
  file : Option ℕ
  started : ℕ
  stat : ℕ
  deriving DecidableEq, Repr

/-- A `write`, `truncate` or `ftruncate` that has returned. -/
structure Modification where
  file : ℕ
  sent : ℕ
  returned : ℕ
  deriving DecidableEq, Repr

/-- The process and the server. `now` is the wall clock, `clock` numbers the steps; `files`
is the server's name space, whose names may lead to one file. -/
structure SshfsState where
  cache : Cache := {}
  now : ℤ
  clock : ℕ := 0
  files : Path → Option ℕ
  nextFile : ℕ
  handles : List ℕ := []
  calls : List (ℕ × Pending) := []
  answers : List Answer := []
  mods : List Modification := []

namespace SshfsState

def lookupCall (s : SshfsState) (c : ℕ) : Option Pending := (s.calls.find? (·.1 = c)).map (·.2)

def endCall (s : SshfsState) (c : ℕ) : SshfsState := { s with calls := s.calls.filter (·.1 ≠ c) }

def setCall (s : SshfsState) (c : ℕ) (p : Pending) : SshfsState :=
  { s with calls := (c, p) :: (s.endCall c).calls }

def setFile (s : SshfsState) (path : Path) (file : Option ℕ) : SshfsState :=
  { s with files := Function.update s.files path file }

def answer (s : SshfsState) (a : Answer) : SshfsState := { s with answers := a :: s.answers }

def modified (s : SshfsState) (m : Modification) : SshfsState := { s with mods := m :: s.mods }

end SshfsState

/-- A call up to its first wait. `t` is the number of the step, and `object` the size of what `fi`
points to in a call with a handle. -/
def beginCall (object : ℕ) (s : SshfsState) (t c : ℕ) : SshfsOp → Checked SshfsState
  | .open path creat => return s.setCall c (.opening path creat s.cache.writeCtr none none)
  | .write handle => do
    loadConnver object
    match s.handles[handle]? with
    | none => return s
    | some file => return s.setCall c (.writing file t)
  | .truncate path => return s.setCall c (.truncating path t none)
  | .ftruncate handle => do
    loadConnver object
    match s.handles[handle]? with
    | none => return s
    | some file => return s.setCall c (.ftruncating file t none)
  | .getattr path =>
    match cacheGetAttr s.now s.cache path with
    | some stat => return s.answer ⟨s.files path, t, stat⟩
    | none => return s.setCall c (.missed path t (s.files path))
  -- the table is searched for a NULL path
  | .fgetattr _ => .error .nullDeref
  | .unlink path => return s.setCall c (.unlinking path none)

/-- The server answers the request for attributes of a `getattr` or `open`. -/
def serveAttrs (s : SshfsState) (t c : ℕ) (ok : Bool) : SshfsState :=
  let attrs := some (if ok then some t else none)
  match s.lookupCall c with
  | some (.fetching path started file wrctr none) =>
    s.setCall c (.fetching path started file wrctr attrs)
  | some (.opening path creat wrctr handle none) =>
    s.setCall c (.opening path creat wrctr handle attrs)
  | _ => s

/-- The server answers another request. -/
def serve (s : SshfsState) (c : ℕ) (ok : Bool) : SshfsState :=
  match s.lookupCall c with
  | some (.opening path creat wrctr none attrs) =>
    match ok, s.files path, creat with
    | true, some file, _ => s.setCall c (.opening path creat wrctr (some (some file)) attrs)
    | true, none, true =>
      { s.setFile path s.nextFile with nextFile := s.nextFile + 1 }.setCall c
        (.opening path creat wrctr (some (some s.nextFile)) attrs)
    | _, _, _ => s.setCall c (.opening path creat wrctr (some none) attrs)
  | some (.truncating path sent none) =>
    s.setCall c (.truncating path sent (some (s.files path, ok)))
  | some (.ftruncating file sent none) => s.setCall c (.ftruncating file sent (some ok))
  | some (.unlinking path none) =>
    (if ok then s.setFile path none else s).setCall c (.unlinking path (some ok))
  | _ => s

/-- A call goes on to its next wait or returns. For a `write`, which need not wait for the
server, `ok` tells whether `sshfs_write` returned without an error. -/
def resume (opts : CacheOpts) (s : SshfsState) (t c : ℕ) (ok : Bool) : Checked SshfsState :=
  match s.lookupCall c with
  | some (.missed path started file) =>
    return s.setCall c (.fetching path started file s.cache.writeCtr none)
  | some (.fetching path started file wrctr (some (some stat))) =>
    let s := { s with cache := cacheAddAttr opts s.now s.cache path stat wrctr }
    return (s.endCall c).answer ⟨file, started, stat⟩
  | some (.fetching _ _ _ _ (some none)) => return s.endCall c
  | some (.opening path _ wrctr (some (some file)) (some (some stat))) =>
    let s := { s with cache := cacheAddAttr opts s.now s.cache path stat wrctr }
    return { s.endCall c with handles := s.handles ++ [file] }
  | some (.opening path _ _ (some _) (some _)) =>
    let s := { s with cache := cacheInvalidate s.cache path }
    return s.endCall c
  | some (.writing file sent) =>
    let s := if ok then { s with cache := cacheInvalidateWrite s.cache [] } else s
    return (s.endCall c).modified ⟨file, sent, t⟩
  | some (.truncating path sent (some (file, truncated))) =>
    let s := if truncated then { s with cache := cacheInvalidate s.cache path } else s
    match file with
    | some file => return (s.endCall c).modified ⟨file, sent, t⟩
    | none => return s.endCall c
  -- `cache_invalidate` is called with a NULL path
  | some (.ftruncating _ _ (some true)) => .error .nullDeref
  | some (.ftruncating file sent (some false)) =>
    return (s.endCall c).modified ⟨file, sent, t⟩
  | some (.unlinking path (some true)) =>
    let s := { s with cache := cacheInvalidateDir s.cache path }
    return s.endCall c
  | some (.unlinking _ (some false)) => return s.endCall c
  | _ => return s

inductive CacheEvent
  | tick (secs : ℕ)
  | call (c : ℕ) (op : SshfsOp)
  | serveAttrs (c : ℕ) (ok : Bool)
  | serve (c : ℕ) (ok : Bool)
  | resume (c : ℕ) (ok : Bool)
  deriving DecidableEq, Repr

/-- One step. An event for a call that is not there changes nothing. -/
def SshfsState.step (opts : CacheOpts) (object : ℕ) (s : SshfsState) (e : CacheEvent) :
    Checked SshfsState :=
  let t := s.clock
  let s := { s with clock := t + 1 }
  match e with
  | .tick secs => return { s with now := s.now + secs }
  | .call c op => if (s.lookupCall c).isSome then return s else beginCall object s t c op
  | .serveAttrs c ok => return serveAttrs s t c ok
  | .serve c ok => return serve s c ok
  | .resume c ok => resume opts s t c ok

end Defuse
