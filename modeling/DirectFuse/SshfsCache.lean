import DirectFuse.KeyedTable
import DirectFuse.SysioNamei

/-! The caching file system proxy of the sshfs driver (drivers/sshfs/cache.c). Calls that come one
after the other give the same answers with it as without it. -/
namespace SshfsCache

open ExecLogic SysioState KeyedTable
open SysioNamei (DOT)

section Cache

/-- `struct node`. -/
structure Node where
  stat : Stat
  statValid : ℤ
  dir : Option (List Bytes)
  dirValid : ℤ
  link : Option Bytes
  linkValid : ℤ
  valid : ℤ
  deriving DecidableEq, Repr

def newNode : Node := ⟨⟨0, 0, 0, 0, 0, 0, 0⟩, 0, none, 0, none, 0, 0⟩

/-- `struct cache`, without the operations of the driver and the lock. -/
structure Cache where
  on : Bool
  statTimeout : ℕ
  dirTimeout : ℕ
  linkTimeout : ℕ
  table : Table Bytes Node
  lastCleaned : ℤ
  writeCtr : ℕ

def MAX_CACHE_SIZE : ℕ := 10000
def MIN_CACHE_CLEAN_INTERVAL : ℤ := 5
def CACHE_CLEAN_INTERVAL : ℤ := 60

/-- `cache_clean`, with `cache_clean_entry`. -/
def cacheClean (now : ℤ) (c : Cache) : Cache :=
  if c.lastCleaned + MIN_CACHE_CLEAN_INTERVAL < now ∧ (MAX_CACHE_SIZE < c.table.entries.length ∨
      c.lastCleaned + CACHE_CLEAN_INTERVAL < now) then
    { c with table := keep (fun _ n => !decide (n.valid < now)) c.table, lastCleaned := now }
  else
    c

/-- `cache_lookup`. -/
def cacheLookup (path : Bytes) (c : Cache) : Option Node := c.table.lookup path

/-- `cache_purge`. -/
def cachePurge (path : Bytes) (c : Cache) : Cache := { c with table := c.table.erase path }

/-- The path in front of the last separator, or the separator if it is the first character. -/
def parentOf (path : Bytes) : Option Bytes :=
  match path.reverse.dropWhile (· ≠ PATH_SEPARATOR) with
  | [] => none
  | _ :: [] => some [PATH_SEPARATOR]
  | _ :: c :: front => some (c :: front).reverse

/-- `cache_purge_parent`. -/
def cachePurgeParent (path : Bytes) (c : Cache) : Cache :=
  match parentOf path with
  | none => c
  | some parent => cachePurge parent c

/-- `cache_invalidate`. -/
def cacheInvalidate (path : Bytes) (c : Cache) : Cache :=
  if c.on = false then c else cachePurge path c

/-- `cache_invalidate_write`. -/
def cacheInvalidateWrite (path : Bytes) (c : Cache) : Cache :=
  { cachePurge path c with writeCtr := (c.writeCtr + 1) % 2 ^ 64 }

/-- `cache_invalidate_dir`. -/
def cacheInvalidateDir (path : Bytes) (c : Cache) : Cache :=
  cachePurgeParent path (cachePurge path c)

/-- `cache_do_rename`. All paths that begin with the old one go, also those of other names. -/
def cacheDoRename (from_ dest : Bytes) (c : Cache) : Cache :=
  let c := { c with table := keep (fun key _ => !from_.isPrefixOf key) c.table }
  cachePurgeParent dest (cachePurgeParent from_ (cachePurge dest (cachePurge from_ c)))

/-- `cache_get`, and what is then stored in the node. -/
def cacheStore (path : Bytes) (f : Node → Node) (c : Cache) : Cache :=
  { c with table := c.table.insert path (f ((cacheLookup path c).getD newNode)) }

/-- `cache_add_attr`. -/
def cacheAddAttr (now : ℤ) (path : Bytes) (st : Stat) (wrctr : ℕ) (c : Cache) : Cache :=
  if c.on = false then
    c
  else if wrctr = c.writeCtr then
    cacheClean now (cacheStore path (fun n =>
      { n with stat := st, statValid := now + c.statTimeout, valid := max n.valid (now + c.statTimeout) }) c)
  else
    c

/-- `cache_add_dir`. -/
def cacheAddDir (now : ℤ) (path : Bytes) (dir : List Bytes) (c : Cache) : Cache :=
  cacheClean now (cacheStore path (fun n =>
    { n with dir := some dir, dirValid := now + c.dirTimeout, valid := max n.valid (now + c.dirTimeout) }) c)

/-- `my_strnlen`. -/
def myStrnlen : Bytes → ℕ → ℕ
  | _, 0 => 0
  | [], _ => 0
  | b :: l, n + 1 => if b = 0 then 0 else myStrnlen l n + 1

/-- `cache_add_link`. -/
def cacheAddLink (now : ℤ) (path link : Bytes) (size : ℕ) (c : Cache) : Cache :=
  cacheClean now (cacheStore path (fun n =>
    { n with
      link := some (link.take (myStrnlen link (size - 1)))
      linkValid := now + c.linkTimeout
      valid := max n.valid (now + c.linkTimeout) }) c)

/-- `cache_get_attr`; nothing stands for `EAGAIN`. -/
def cacheGetAttr (now : ℤ) (path : Bytes) (c : Cache) : Option Stat :=
  match cacheLookup path c with
  | none => none
  | some n => if 0 ≤ n.statValid - now then some n.stat else none

end Cache

section Operations

/-- The requests that change files. -/
inductive Change where
  | mknod (path : Bytes) (mode rdev : ℕ)
  | mkdir (path : Bytes) (mode : ℕ)
  | unlink (path : Bytes)
  | rmdir (path : Bytes)
  | symlink (from_ dest : Bytes)
  | rename (from_ dest : Bytes)
  | link (from_ dest : Bytes)
  | chmod (path : Bytes) (mode : ℕ)
  | chown (path : Bytes) (uid gid : ℕ)
  | truncate (path : Bytes) (size : ℤ)
  | utime (path : Bytes) (actime modtime : ℤ)
  | write (path data : Bytes) (offset : ℤ)
  | create (path : Bytes) (mode : ℕ)
  | ftruncate (path : Bytes) (size : ℤ)

/-- `next_oper`: what the driver behind the cache answers. `getdir` is what it hands to the
callback, and its result; `fgetattr` gets the handle of an open file. -/
structure Origin (S : Type) where
  getattr : S → Bytes → Except ℤ Stat
  fgetattr : S → Bytes → ℕ → Except ℤ Stat
  readlink : S → Bytes → ℕ → Except ℤ Bytes
  getdir : S → Bytes → List (Bytes × Stat) × ℤ
  change : S → Change → ℤ × S

/-- The cache, the clock and the driver behind the cache. -/
structure Proxy (S : Type) where
  cache : Cache
  now : ℤ
  origin : S

abbrev Cached (S α : Type) := Exec (Proxy S) Fault α

variable {S : Type} (o : Origin S)

def onCache (f : ℤ → Cache → Cache) : Cached S Unit :=
  Exec.write fun p => { p with cache := f p.now p.cache }

/-- A callback for the names in a directory: what it returns for a name, by the names that it got
before. -/
abbrev Filler := List Bytes → Bytes → ℤ

/-- A request to the driver that changes files. -/
def pass (m : Change) : Cached S ℤ := fun p =>
  .ok ((o.change p.origin m).1, { p with origin := (o.change p.origin m).2 })

/-- Attributes from the table under the path, or those that `ask` gets from the driver. -/
def cachedAttr (path : Bytes) (ask : S → Except ℤ Stat) : Cached S (Except ℤ Stat) := do
  let known ← Exec.read fun p => cacheGetAttr p.now path p.cache
  match known with
  | some st => return .ok st
  | none => do
    let wrctr ← Exec.read fun p => p.cache.writeCtr
    let res ← Exec.read fun p => ask p.origin
    match res with
    | .error err => return .error err
    | .ok st => do
      onCache fun now => cacheAddAttr now path st wrctr
      return .ok st

/-- `cache_getattr`. -/
def cacheGetattr (path : Bytes) : Cached S (Except ℤ Stat) :=
  cachedAttr path fun s => o.getattr s path

/-- `cache_fgetattr`. -/
def cacheFgetattr (path : Bytes) (fh : ℕ) : Cached S (Except ℤ Stat) :=
  cachedAttr path fun s => o.fgetattr s path fh

/-- `cache_readlink`. -/
def cacheReadlink (path : Bytes) (size : ℕ) : Cached S (Except ℤ Bytes) := do
  let node ← Exec.read fun p => cacheLookup path p.cache
  let now ← Exec.read fun p => p.now
  match node.filter fun n => 0 ≤ n.linkValid - now with
  | some n => do
    let link ← Exec.deref .wild fun _ => n.link
    return .ok (link.take (size - 1))
  | none => do
    let res ← Exec.read fun p => o.readlink p.origin path size
    match res with
    | .error err => return .error err
    | .ok link => do
      onCache fun now => cacheAddLink now path link size
      return .ok link

/-- The path of an entry of a directory. -/
def fullpath (path name : Bytes) : Bytes :=
  (if path.drop 1 = [] then [] else path) ++ PATH_SEPARATOR :: name

/-- `buf_get_entries` hands the entries to a callback and does not look at what that returns. -/
def handEach {β : Type} (fill : Bytes × Stat → β → ℤ × β) : List (Bytes × Stat) → β → β
  | [], b => b
  | entry :: l, b => handEach fill l (fill entry b).2

/-- The cache, the names that the caller's callback has got, and those that it has taken, which are
the `dir` of `struct fuse_cache_dirhandle`. -/
structure Filling where
  cache : Cache
  handed : List Bytes
  dir : List Bytes

/-- `cache_dirfill`. -/
def cacheDirfill (path : Bytes) (filler : Filler) (wrctr : ℕ) (now : ℤ) (entry : Bytes × Stat)
    (f : Filling) : ℤ × Filling :=
  let err := filler f.handed entry.1
  let f := { f with handed := f.handed ++ [entry.1] }
  if err ≠ 0 then
    (err, f)
  else
    let f := { f with dir := f.dir ++ [entry.1] }
    if entry.2.mode &&& S_IFMT ≠ 0 then
      (err, { f with cache := cacheAddAttr now (fullpath path entry.1) entry.2 wrctr f.cache })
    else
      (err, f)

/-- `cache_unity_dirfill`. -/
def cacheUnityDirfill (filler : Filler) (entry : Bytes × Stat) (handed : List Bytes) :
    ℤ × List Bytes :=
  (filler handed entry.1, handed ++ [entry.1])

/-- `cache_getdir`, with the names that the caller's callback gets. -/
def cacheGetdir (path : Bytes) (filler : Filler) : Cached S (ℤ × List Bytes) := do
  let node ← Exec.read fun p => cacheLookup path p.cache
  let now ← Exec.read fun p => p.now
  match node.bind fun n => n.dir.filter fun _ => 0 ≤ n.dirValid - now with
  | some names => return (0, names)
  | none => do
    let wrctr ← Exec.read fun p => p.cache.writeCtr
    let (entries, err) ← Exec.read fun p => o.getdir p.origin path
    let f ← Exec.read fun p =>
      handEach (cacheDirfill path filler wrctr p.now) entries ⟨p.cache, [], []⟩
    onCache fun _ _ => f.cache
    Exec.when (err = 0) (onCache fun now => cacheAddDir now path f.dir)
    return (err, f.handed)

/-- A request, and what it drops from the cache when it succeeds. -/
def through (m : Change) (drop : Cache → Cache) : Cached S ℤ := do
  let err ← pass o m
  Exec.when (err = 0) (onCache fun _ => drop)
  return err

def cacheMknod (path : Bytes) (mode rdev : ℕ) : Cached S ℤ :=
  through o (.mknod path mode rdev) (cacheInvalidateDir path)

def cacheMkdir (path : Bytes) (mode : ℕ) : Cached S ℤ :=
  through o (.mkdir path mode) (cacheInvalidateDir path)

def cacheUnlink (path : Bytes) : Cached S ℤ := through o (.unlink path) (cacheInvalidateDir path)

def cacheRmdir (path : Bytes) : Cached S ℤ := through o (.rmdir path) (cacheInvalidateDir path)

def cacheSymlink (from_ dest : Bytes) : Cached S ℤ :=
  through o (.symlink from_ dest) (cacheInvalidateDir dest)

def cacheRename (from_ dest : Bytes) : Cached S ℤ :=
  through o (.rename from_ dest) (cacheDoRename from_ dest)

def cacheLink (from_ dest : Bytes) : Cached S ℤ :=
  through o (.link from_ dest) fun c => cacheInvalidateDir dest (cacheInvalidate from_ c)

def cacheChmod (path : Bytes) (mode : ℕ) : Cached S ℤ :=
  through o (.chmod path mode) (cacheInvalidate path)

def cacheChown (path : Bytes) (uid gid : ℕ) : Cached S ℤ :=
  through o (.chown path uid gid) (cacheInvalidate path)

def cacheTruncate (path : Bytes) (size : ℤ) : Cached S ℤ :=
  through o (.truncate path size) (cacheInvalidate path)

def cacheUtime (path : Bytes) (actime modtime : ℤ) : Cached S ℤ :=
  through o (.utime path actime modtime) (cacheInvalidate path)

/-- `cache_write`; every number of bytes is a success. -/
def cacheWrite (path data : Bytes) (offset : ℤ) : Cached S ℤ := do
  let res ← pass o (.write path data offset)
  Exec.when (0 ≤ res) (onCache fun _ => cacheInvalidateWrite path)
  return res

def cacheCreate (path : Bytes) (mode : ℕ) : Cached S ℤ :=
  through o (.create path mode) (cacheInvalidateDir path)

def cacheFtruncate (path : Bytes) (size : ℤ) : Cached S ℤ :=
  through o (.ftruncate path size) (cacheInvalidate path)

inductive Request where
  | getattr (path : Bytes)
  | fgetattr (path : Bytes) (fh : ℕ)
  | readlink (path : Bytes) (size : ℕ)
  | getdir (path : Bytes) (filler : Filler)
  | change (m : Change)

/-- What comes to the proxy: a request, or another time. -/
inductive Event where
  | ask (r : Request)
  | tick (now : ℤ)

inductive Reply where
  | attr (res : Except ℤ Stat)
  | link (res : Except ℤ Bytes)
  | dir (err : ℤ) (names : List Bytes)
  | done (err : ℤ)
  | ticked

/-- The operations that `cache_fill` puts into the table. -/
def cacheChange : Change → Cached S ℤ
  | .mknod path mode rdev => cacheMknod o path mode rdev
  | .mkdir path mode => cacheMkdir o path mode
  | .unlink path => cacheUnlink o path
  | .rmdir path => cacheRmdir o path
  | .symlink from_ dest => cacheSymlink o from_ dest
  | .rename from_ dest => cacheRename o from_ dest
  | .link from_ dest => cacheLink o from_ dest
  | .chmod path mode => cacheChmod o path mode
  | .chown path uid gid => cacheChown o path uid gid
  | .truncate path size => cacheTruncate o path size
  | .utime path actime modtime => cacheUtime o path actime modtime
  | .write path data offset => cacheWrite o path data offset
  | .create path mode => cacheCreate o path mode
  | .ftruncate path size => cacheFtruncate o path size

def serve : Event → Cached S Reply
  | .ask (.getattr path) => .attr <$> cacheGetattr o path
  | .ask (.fgetattr path fh) => .attr <$> cacheFgetattr o path fh
  | .ask (.readlink path size) => .link <$> cacheReadlink o path size
  | .ask (.getdir path filler) => (fun res => .dir res.1 res.2) <$> cacheGetdir o path filler
  | .ask (.change m) => .done <$> cacheChange o m
  | .tick now => do
    Exec.write fun p => { p with now := now }
    return .ticked

/-- `cache_unity_getdir`, with the names that the caller's callback gets. -/
def cacheUnityGetdir (s : S) (path : Bytes) (filler : Filler) : ℤ × List Bytes :=
  ((o.getdir s path).2, handEach (cacheUnityDirfill filler) (o.getdir s path).1 [])

/-- The operations that `cache_unity_fill` puts there. -/
def unity (s : S) : Event → Reply × S
  | .ask (.getattr path) => (.attr (o.getattr s path), s)
  | .ask (.fgetattr path fh) => (.attr (o.fgetattr s path fh), s)
  | .ask (.readlink path size) => (.link (o.readlink s path size), s)
  | .ask (.getdir path filler) =>
    (.dir (cacheUnityGetdir o s path filler).1 (cacheUnityGetdir o s path filler).2, s)
  | .ask (.change m) => (.done (o.change s m).1, (o.change s m).2)
  | .tick _ => (.ticked, s)

/-- A sequence of events with the cache in between. -/
def served : List Event → Cached S (List Reply)
  | [] => return []
  | e :: l => do
    let r ← serve o e
    let rs ← served l
    return r :: rs

/-- The same without it. -/
def unserved (s : S) : List Event → List Reply × S
  | [] => ([], s)
  | e :: l => ((unity o s e).1 :: (unserved (unity o s e).2 l).1, (unserved (unity o s e).2 l).2)

end Operations

section Paths

/-- A component of a path. -/
structure Proper (name : Bytes) : Prop where
  some_ : name ≠ []
  whole : PATH_SEPARATOR ∉ name
  usual : name ∉ [[DOT], [DOT, DOT]]

/-- The path of a list of names. -/
def pathTo (names : List Bytes) : Bytes :=
  if names = [] then [PATH_SEPARATOR] else names.flatMap fun name => PATH_SEPARATOR :: name

def Clean (path : Bytes) : Prop := ∃ names, (∀ name ∈ names, Proper name) ∧ path = pathTo names

/-- The names of the directory that a path is in. -/
def InDirectory (names : List Bytes) (path : Bytes) : Prop :=
  ∃ all, (∀ name ∈ all, Proper name) ∧ path = pathTo all ∧ names = all.dropLast

def Below (names : List Bytes) (path : Bytes) : Prop :=
  ∃ all, (∀ name ∈ all, Proper name) ∧ path = pathTo all ∧ all <+: names

/-- The names whose answers a request may change: those it is given, the directories they are in,
and what is below the old name of a rename. -/
def Touches (names : List Bytes) : Change → Prop
  | .mknod path _ _ | .mkdir path _ | .unlink path | .rmdir path | .symlink _ path
  | .create path _ => pathTo names = path ∨ InDirectory names path
  | .rename from_ dest => Below names from_ ∨ pathTo names = dest ∨ InDirectory names from_ ∨
      InDirectory names dest
  | .link from_ dest => pathTo names = from_ ∨ pathTo names = dest ∨ InDirectory names dest
  | .chmod path _ | .chown path _ _ | .truncate path _ | .utime path _ _ | .write path _ _
  | .ftruncate path _ => pathTo names = path

/-- Whether a result is none of an error. -/
def succeeded : Change → ℤ → Bool
  | .write .., res => decide (0 ≤ res)
  | _, err => decide (err = 0)

variable {S : Type} (o : Origin S)

/-- What there was at a path is still there. -/
structure Kept (s s' : S) (path : Bytes) : Prop where
  attr : ∀ st, o.getattr s path = .ok st → o.getattr s' path = .ok st
  dir : ∀ entries, o.getdir s path = (entries, 0) →
    ∃ entries', o.getdir s' path = (entries', 0) ∧ entries'.map Prod.fst = entries.map Prod.fst
  link : ∀ size text, o.readlink s path size = .ok text → o.readlink s' path size = .ok text

/-- The driver behind the cache has no other clients, there is one path to a file, and what a
directory tells about its entries is what they tell themselves. -/
structure Local : Prop where
  kept : ∀ s m names, (∀ name ∈ names, Proper name) →
    (succeeded m (o.change s m).1 = true → ¬ Touches names m) → Kept o s (o.change s m).2 (pathTo names)
  listed : ∀ s path, ∀ entry ∈ (o.getdir s path).1, entry.2.mode &&& S_IFMT ≠ 0 →
    Clean (fullpath path entry.1) → o.getattr s (fullpath path entry.1) = .ok entry.2
  text : ∀ s path size text, o.readlink s path size = .ok text → 0 ∉ text ∧ text.length < size

/-- The entries that a callback takes when it gets them all behind the names it has. -/
def taken (filler : Filler) : List Bytes → List (Bytes × Stat) → List (Bytes × Stat)
  | _, [] => []
  | handed, entry :: l =>
    let rest := taken filler (handed ++ [entry.1]) l
    if filler handed entry.1 = 0 then entry :: rest else rest

/-- Requests for paths that are lists of names. The buffers for links have one size, an open file is
asked for under the path that it has, and the callback for a directory takes what is in it. -/
def Fits (size : ℕ) (s : S) : Event → Prop
  | .ask (.getattr path) => Clean path
  | .ask (.fgetattr path fh) => Clean path ∧ o.fgetattr s path fh = o.getattr s path
  | .ask (.readlink path n) => Clean path ∧ n = size
  | .ask (.getdir path filler) =>
    Clean path ∧ taken filler [] (o.getdir s path).1 = (o.getdir s path).1
  | .ask (.change _) => True
  | .tick now => 0 < now

/-- Every event fits in the state of the driver that the events before it lead to. -/
def AllFit (size : ℕ) (s : S) : List Event → Prop
  | [] => True
  | e :: l => Fits o size s e ∧ AllFit size (unity o s e).2 l

end Paths

section Joined

variable {names init : List Bytes} {name : Bytes}

theorem pathTo_some (h : names ≠ []) :
    pathTo names = names.flatMap fun name => PATH_SEPARATOR :: name := by
  unfold pathTo
  rw [if_neg h]

/-- `strrchr` finds the separator in front of the last name. -/
theorem parentOf_pathTo (proper : ∀ name ∈ names, Proper name) :
    parentOf (pathTo names) = some (pathTo names.dropLast) := by
  rcases List.eq_nil_or_concat names with rfl | ⟨init, last, rfl⟩
  · rfl
  · have whole : PATH_SEPARATOR ∉ last := (proper last (by simp)).whole
    rw [List.concat_eq_append] at proper ⊢
    rw [List.dropLast_concat, pathTo_some (by simp)]
    have scan : ((init ++ [last]).flatMap fun name => PATH_SEPARATOR :: name).reverse.dropWhile
        (· ≠ PATH_SEPARATOR) =
        PATH_SEPARATOR :: (init.flatMap fun name => PATH_SEPARATOR :: name).reverse := by
      rw [List.flatMap_append, List.flatMap_singleton, List.reverse_append, List.reverse_cons,
        List.append_assoc, List.dropWhile_append_of_pos]
      · simp
      · intro b hb
        have apart : b ≠ PATH_SEPARATOR := by
          rintro rfl
          exact whole (List.mem_reverse.mp hb)
        simpa using apart
    unfold parentOf
    rw [scan]
    rcases List.eq_nil_or_concat init with rfl | ⟨front, name, rfl⟩
    · rfl
    · have some_ : (front.concat name).flatMap (fun name => PATH_SEPARATOR :: name) ≠ [] := by
        simp
      cases hrev : ((front.concat name).flatMap fun name => PATH_SEPARATOR :: name).reverse with
      | nil => exact absurd (List.reverse_eq_nil_iff.mp hrev) some_
      | cons c rest =>
        dsimp only
        rw [← hrev, List.reverse_reverse, pathTo_some (by simp)]

/-- What is below a path begins with it. -/
theorem prefix_pathTo {all : List Bytes} (h : all <+: names) :
    (pathTo all).isPrefixOf (pathTo names) = true := by
  obtain ⟨rest, rfl⟩ := h
  rw [List.isPrefixOf_iff_prefix]
  cases all with
  | nil =>
    cases rest with
    | nil => exact List.prefix_rfl
    | cons name rest =>
      rw [List.nil_append, pathTo_some (List.cons_ne_nil _ _), List.flatMap_cons]
      exact ⟨name ++ rest.flatMap fun name => PATH_SEPARATOR :: name, rfl⟩
  | cons name all =>
    rw [List.cons_append, pathTo_some (List.cons_ne_nil _ _), pathTo_some (List.cons_ne_nil _ _),
      ← List.cons_append, List.flatMap_append]
    exact List.prefix_append _ _

end Joined

section Answers

variable {S : Type} {o : Origin S} {size : ℕ} {s s' : S} {path : Bytes} {n : Node} {c : Cache}
  {now : ℤ} {names : List Bytes}

/-- What is stored under a path is what the driver would answer. -/
structure Right (o : Origin S) (size : ℕ) (s : S) (path : Bytes) (n : Node) : Prop where
  attr : n.statValid ≠ 0 → o.getattr s path = .ok n.stat
  dir : ∀ l, n.dir = some l → ∃ entries, o.getdir s path = (entries, 0) ∧ entries.map Prod.fst = l
  link : n.linkValid ≠ 0 → ∃ text, n.link = some text ∧ o.readlink s path size = .ok text

theorem Right.kept (right : Right o size s path n) (kept : Kept o s s' path) :
    Right o size s' path n := by
  constructor
  · intro valid
    exact kept.attr _ (right.attr valid)
  · rintro l hl
    obtain ⟨entries, listed, same⟩ := right.dir l hl
    obtain ⟨entries', listed', same'⟩ := kept.dir entries listed
    exact ⟨entries', listed', same'.trans same⟩
  · intro valid
    obtain ⟨text, stored, answer⟩ := right.link valid
    exact ⟨text, stored, kept.link _ _ answer⟩

def Good (o : Origin S) (size : ℕ) (s : S) (path : Bytes) (n : Node) : Prop :=
  Clean path → Right o size s path n

theorem newNode_right : Right o size s path newNode := by
  constructor
  · exact fun valid => absurd rfl valid
  · rintro l ⟨⟩
  · exact fun valid => absurd rfl valid

/-- The table is right where the clock and the settings are. -/
structure Agrees (o : Origin S) (size : ℕ) (s : S) (c : Cache) : Prop where
  on : c.on = true
  every : Every (Good o size s) c.table

theorem cacheClean_agrees (h : Agrees o size s c) : Agrees o size s (cacheClean now c) := by
  unfold cacheClean
  by_cases due : c.lastCleaned + MIN_CACHE_CLEAN_INTERVAL < now ∧
      (MAX_CACHE_SIZE < c.table.entries.length ∨ c.lastCleaned + CACHE_CLEAN_INTERVAL < now)
  · rw [if_pos due]
    exact ⟨h.on, h.every.keep⟩
  · rw [if_neg due]
    exact h

theorem cacheStore_agrees {f : Node → Node} (h : Agrees o size s c)
    (new : ∀ n, Good o size s path n → Good o size s path (f n)) :
    Agrees o size s (cacheStore path f c) := by
  refine ⟨h.on, h.every.insert (new _ ?_)⟩
  unfold cacheLookup
  cases found : c.table.lookup path with
  | none => exact fun _ => newNode_right
  | some n => exact h.every path n found

theorem cacheAddAttr_agrees {st : Stat} {wrctr : ℕ} (h : Agrees o size s c)
    (answer : Clean path → o.getattr s path = .ok st) :
    Agrees o size s (cacheAddAttr now path st wrctr c) := by
  unfold cacheAddAttr
  rw [h.on, if_neg (by decide)]
  by_cases current : wrctr = c.writeCtr
  · rw [if_pos current]
    apply cacheClean_agrees
    apply cacheStore_agrees h
    intro n good clean
    exact ⟨fun _ => answer clean, (good clean).dir, (good clean).link⟩
  · rw [if_neg current]
    exact h

theorem cacheAddDir_agrees {entries : List (Bytes × Stat)} (h : Agrees o size s c)
    (answer : o.getdir s path = (entries, 0)) :
    Agrees o size s (cacheAddDir now path (entries.map Prod.fst) c) := by
  apply cacheClean_agrees
  apply cacheStore_agrees h
  intro n good clean
  refine ⟨(good clean).attr, ?_, (good clean).link⟩
  rintro l ⟨⟩
  exact ⟨entries, answer, rfl⟩

theorem myStrnlen_whole {l : Bytes} {k : ℕ} (string : 0 ∉ l) (short : l.length ≤ k) :
    myStrnlen l k = l.length := by
  induction l generalizing k with
  | nil => cases k <;> rfl
  | cons b l ih =>
    cases k with
    | zero => simp at short
    | succ k =>
      have hb : b ≠ 0 := fun h => string (by simp [h])
      rw [myStrnlen, if_neg hb, ih (fun h => string (List.mem_cons_of_mem _ h))
        (Nat.le_of_succ_le_succ short), List.length_cons]

theorem cacheAddLink_agrees {text : Bytes} (h : Agrees o size s c) (string : 0 ∉ text)
    (short : text.length < size) (answer : o.readlink s path size = .ok text) :
    Agrees o size s (cacheAddLink now path text size c) := by
  apply cacheClean_agrees
  apply cacheStore_agrees h
  intro n good clean
  refine ⟨(good clean).attr, (good clean).dir, fun _ => ⟨text, ?_, answer⟩⟩
  rw [myStrnlen_whole string (Nat.le_sub_one_of_lt short), List.take_length]

/-- A name is handed on, and it is kept if it is taken. -/
theorem cacheDirfill_agrees {filler : Filler} {wrctr : ℕ} {entry : Bytes × Stat} {f : Filling}
    (h : Agrees o size s f.cache)
    (answer : entry.2.mode &&& S_IFMT ≠ 0 → Clean (fullpath path entry.1) →
      o.getattr s (fullpath path entry.1) = .ok entry.2) :
    let g := (cacheDirfill path filler wrctr now entry f).2
    Agrees o size s g.cache ∧ g.handed = f.handed ++ [entry.1] ∧
      g.dir = if filler f.handed entry.1 = 0 then f.dir ++ [entry.1] else f.dir := by
  unfold cacheDirfill
  dsimp only
  by_cases took : filler f.handed entry.1 = 0
  · rw [if_neg (not_not.mpr took), if_pos took]
    by_cases typed : entry.2.mode &&& S_IFMT ≠ 0
    · rw [if_pos typed]
      exact ⟨cacheAddAttr_agrees h (answer typed), rfl, rfl⟩
    · rw [if_neg typed]
      exact ⟨h, rfl, rfl⟩
  · rw [if_pos took, if_neg took]
    exact ⟨h, rfl, rfl⟩

/-- Every name is handed on, and those that are taken are kept. -/
theorem handEach_dirfill {filler : Filler} {wrctr : ℕ} {entries : List (Bytes × Stat)} {f : Filling}
    (h : Agrees o size s f.cache)
    (answer : ∀ e ∈ entries, e.2.mode &&& S_IFMT ≠ 0 → Clean (fullpath path e.1) →
      o.getattr s (fullpath path e.1) = .ok e.2) :
    let g := handEach (cacheDirfill path filler wrctr now) entries f
    Agrees o size s g.cache ∧ g.handed = f.handed ++ entries.map Prod.fst ∧
      g.dir = f.dir ++ (taken filler f.handed entries).map Prod.fst := by
  induction entries generalizing f with
  | nil => exact ⟨h, (List.append_nil _).symm, (List.append_nil _).symm⟩
  | cons e entries ih =>
    obtain ⟨agrees, handed, dir⟩ := cacheDirfill_agrees h (answer e List.mem_cons_self)
    obtain ⟨agrees', handed', dir'⟩ := ih agrees fun e' he => answer e' (List.mem_cons_of_mem e he)
    refine ⟨agrees', ?_, ?_⟩
    · apply handed'.trans
      rw [handed, List.append_assoc]
      rfl
    · apply dir'.trans
      rw [handed, dir, taken]
      split <;> simp

theorem handEach_unity {filler : Filler} {entries : List (Bytes × Stat)} {handed : List Bytes} :
    handEach (cacheUnityDirfill filler) entries handed = handed ++ entries.map Prod.fst := by
  induction entries generalizing handed with
  | nil => exact (List.append_nil handed).symm
  | cons e entries ih =>
    apply ih.trans
    exact List.append_assoc handed [e.1] _

end Answers

section Drops

variable {c : Cache} {path : Bytes} {names : List Bytes} {n : Node}

theorem cachePurge_lookup {k : Bytes} : (cachePurge path c).table.lookup k = some n ↔
    k ≠ path ∧ c.table.lookup k = some n := lookup_erase_some

theorem cacheInvalidate_lookup {k : Bytes} (on : c.on = true)
    (h : (cacheInvalidate path c).table.lookup k = some n) :
    k ≠ path ∧ c.table.lookup k = some n := by
  unfold cacheInvalidate at h
  rw [on, if_neg (by decide)] at h
  exact cachePurge_lookup.mp h

/-- The directory of a path is not in the table any more. -/
theorem cachePurgeParent_lookup {k : Bytes}
    (h : (cachePurgeParent path c).table.lookup k = some n) :
    c.table.lookup k = some n ∧ (∀ names, k = pathTo names → ¬ InDirectory names path) := by
  have parent : ∀ all, (∀ name ∈ all, Proper name) → path = pathTo all →
      k ≠ pathTo all.dropLast ∧ c.table.lookup k = some n := by
    rintro all proper rfl
    unfold cachePurgeParent at h
    rw [parentOf_pathTo proper] at h
    exact cachePurge_lookup.mp h
  constructor
  · unfold cachePurgeParent at h
    cases hparent : parentOf path with
    | none =>
      rw [hparent] at h
      exact h
    | some q =>
      rw [hparent] at h
      exact (cachePurge_lookup.mp h).2
  · rintro names rfl ⟨all, proper, same, rfl⟩
    exact (parent all proper same).1 rfl

theorem cacheInvalidateDir_lookup
    (h : (cacheInvalidateDir path c).table.lookup (pathTo names) = some n) :
    c.table.lookup (pathTo names) = some n ∧ ¬ (pathTo names = path ∨ InDirectory names path) := by
  obtain ⟨h, apart⟩ := cachePurgeParent_lookup h
  obtain ⟨other, h⟩ := cachePurge_lookup.mp h
  refine ⟨h, ?_⟩
  rintro (same | inside)
  · exact other same
  · exact apart names rfl inside

theorem cacheDoRename_lookup {from_ dest : Bytes}
    (h : (cacheDoRename from_ dest c).table.lookup (pathTo names) = some n) :
    c.table.lookup (pathTo names) = some n ∧ ¬ (Below names from_ ∨ pathTo names = dest ∨
      InDirectory names from_ ∨ InDirectory names dest) := by
  obtain ⟨h, apart⟩ := cachePurgeParent_lookup h
  obtain ⟨h, apart'⟩ := cachePurgeParent_lookup h
  obtain ⟨other, h⟩ := cachePurge_lookup.mp h
  obtain ⟨-, h⟩ := cachePurge_lookup.mp h
  obtain ⟨h, outside⟩ := lookup_keep.mp h
  refine ⟨h, ?_⟩
  rintro (⟨all, -, rfl, below⟩ | same | inside | inside)
  · rw [prefix_pathTo below] at outside
    exact absurd outside (by decide)
  · exact other same
  · exact apart' names rfl inside
  · exact apart names rfl inside

/-- What the cache drops behind a request that succeeded. -/
def dropOf : Change → Cache → Cache
  | .mknod path _ _ | .mkdir path _ | .unlink path | .rmdir path | .symlink _ path
  | .create path _ => cacheInvalidateDir path
  | .rename from_ dest => cacheDoRename from_ dest
  | .link from_ dest => fun c => cacheInvalidateDir dest (cacheInvalidate from_ c)
  | .chmod path _ | .chown path _ _ | .truncate path _ | .utime path _ _
  | .ftruncate path _ => cacheInvalidate path
  | .write path _ _ => cacheInvalidateWrite path

theorem cachePurgeParent_on : (cachePurgeParent path c).on = c.on := by
  unfold cachePurgeParent
  cases parentOf path <;> rfl

theorem cacheInvalidate_on : (cacheInvalidate path c).on = c.on := by
  unfold cacheInvalidate
  split <;> rfl

theorem cacheInvalidateDir_on : (cacheInvalidateDir path c).on = c.on := cachePurgeParent_on

theorem dropOf_on (m : Change) : (dropOf m c).on = c.on := by
  cases m with
  | rename from_ dest => exact cachePurgeParent_on.trans cachePurgeParent_on
  | link from_ dest => exact cacheInvalidateDir_on.trans cacheInvalidate_on
  | write path data offset => rfl
  | chmod | chown | truncate | utime | ftruncate => exact cacheInvalidate_on
  | _ => exact cacheInvalidateDir_on

/-- Nothing that a request touches is in the table behind it. -/
theorem dropOf_lookup {m : Change} (on : c.on = true)
    (h : (dropOf m c).table.lookup (pathTo names) = some n) :
    c.table.lookup (pathTo names) = some n ∧ ¬ Touches names m := by
  cases m with
  | rename from_ dest => exact cacheDoRename_lookup h
  | link from_ dest =>
    obtain ⟨old, apart⟩ := cacheInvalidateDir_lookup h
    obtain ⟨other, old⟩ := cacheInvalidate_lookup on old
    refine ⟨old, ?_⟩
    rintro (same | touched)
    · exact other same
    · exact apart touched
  | write path data offset =>
    obtain ⟨apart, old⟩ := cachePurge_lookup.mp h
    exact ⟨old, apart⟩
  | chmod | chown | truncate | utime | ftruncate =>
    obtain ⟨apart, old⟩ := cacheInvalidate_lookup on h
    exact ⟨old, apart⟩
  | _ => exact cacheInvalidateDir_lookup h

end Drops

section Requests

variable {S : Type} {o : Origin S} {size : ℕ} {p q : Proxy S} {path : Bytes}

/-- The proxy in between, its table right and its clock set. -/
structure Ready (o : Origin S) (size : ℕ) (p : Proxy S) : Prop where
  table : Agrees o size p.origin p.cache
  clock : 0 < p.now

/-- What a request is to do: answer as the driver does, and leave it so. -/
def Answers {α : Type} (size : ℕ) (o : Origin S) (m : Cached S α) (p : Proxy S) (res : α) (s : S) :
    Prop :=
  ∃ q, m p = .ok (res, q) ∧ q.origin = s ∧ Ready o size q

/-- What is stored in the node of a path while its time is not over. -/
theorem Ready.lookup {n : Node} (ready : Ready o size p) (clean : Clean path)
    (found : cacheLookup path p.cache = some n) : Right o size p.origin path n :=
  ready.table.every path n found clean

theorem onCache_run (f : ℤ → Cache → Cache) :
    (onCache f : Cached S Unit) p = .ok ((), { p with cache := f p.now p.cache }) := rfl

theorem cachedAttr_answers {ask : S → Except ℤ Stat} (ready : Ready o size p) (clean : Clean path)
    (same : ask p.origin = o.getattr p.origin path) :
    Answers size o (cachedAttr path ask) p (ask p.origin) p.origin := by
  have read : (Exec.read fun p => cacheGetAttr p.now path p.cache : Cached S (Option Stat)) p =
      .ok (cacheGetAttr p.now path p.cache, p) := rfl
  unfold Answers cachedAttr
  rw [bind_run read, same]
  cases known : cacheGetAttr p.now path p.cache with
  | some st =>
    have answer : o.getattr p.origin path = .ok st := by
      unfold cacheGetAttr at known
      cases found : cacheLookup path p.cache with
      | none =>
        rw [found] at known
        cases known
      | some n =>
        rw [found] at known
        dsimp only at known
        by_cases valid : 0 ≤ n.statValid - p.now
        · rw [if_pos valid] at known
          obtain rfl := Option.some.inj known
          have clock := ready.clock
          exact (ready.lookup clean found).attr (by omega)
        · rw [if_neg valid] at known
          cases known
    refine ⟨p, ?_, rfl, ready⟩
    rw [answer]
    rfl
  | none =>
    have count : (Exec.read fun p => p.cache.writeCtr : Cached S ℕ) p =
        .ok (p.cache.writeCtr, p) := rfl
    have asked : (Exec.read fun p => ask p.origin : Cached S (Except ℤ Stat)) p =
        .ok (o.getattr p.origin path, p) := by
      rw [← same]
      rfl
    dsimp only
    rw [bind_run count, bind_run asked]
    cases answer : o.getattr p.origin path with
    | error err => exact ⟨p, rfl, rfl, ready⟩
    | ok st =>
      dsimp only
      rw [bind_run (onCache_run _)]
      exact ⟨_, rfl, rfl, cacheAddAttr_agrees ready.table fun _ => answer, ready.clock⟩

theorem readlink_answers (laws : Local o) (ready : Ready o size p) (clean : Clean path) :
    Answers size o (cacheReadlink o path size) p (o.readlink p.origin path size) p.origin := by
  have read : (Exec.read fun p => cacheLookup path p.cache : Cached S (Option Node)) p =
      .ok (cacheLookup path p.cache, p) := rfl
  have clock : (Exec.read fun p => p.now : Cached S ℤ) p = .ok (p.now, p) := rfl
  unfold Answers cacheReadlink
  rw [bind_run read, bind_run clock]
  cases known : (cacheLookup path p.cache).filter fun n => 0 ≤ n.linkValid - p.now with
  | some n =>
    obtain ⟨found, valid⟩ := Option.filter_eq_some_iff.mp known
    have clock := ready.clock
    have valid : 0 ≤ n.linkValid - p.now := of_decide_eq_true valid
    obtain ⟨text, stored, answer⟩ := (ready.lookup clean found).link (by omega)
    obtain ⟨-, short⟩ := laws.text _ _ _ _ answer
    have load : (Exec.deref .wild fun _ => n.link : Cached S Bytes) p = .ok (text, p) :=
      deref_ok.mpr ⟨stored, rfl⟩
    refine ⟨p, ?_, rfl, ready⟩
    dsimp only
    rw [bind_run load, answer, List.take_of_length_le (Nat.le_sub_one_of_lt short)]
    rfl
  | none =>
    have ask : (Exec.read fun p => o.readlink p.origin path size : Cached S (Except ℤ Bytes)) p =
        .ok (o.readlink p.origin path size, p) := rfl
    dsimp only
    rw [bind_run ask]
    cases answer : o.readlink p.origin path size with
    | error err => exact ⟨p, rfl, rfl, ready⟩
    | ok text =>
      obtain ⟨string, short⟩ := laws.text _ _ _ _ answer
      dsimp only
      rw [bind_run (onCache_run _)]
      exact ⟨_, rfl, rfl, cacheAddLink_agrees ready.table string short answer, ready.clock⟩

theorem getdir_answers {filler : Filler} (laws : Local o) (ready : Ready o size p)
    (clean : Clean path)
    (takes : taken filler [] (o.getdir p.origin path).1 = (o.getdir p.origin path).1) :
    Answers size o (cacheGetdir o path filler) p (cacheUnityGetdir o p.origin path filler)
      p.origin := by
  unfold cacheUnityGetdir
  rw [handEach_unity, List.nil_append]
  have read : (Exec.read fun p => cacheLookup path p.cache : Cached S (Option Node)) p =
      .ok (cacheLookup path p.cache, p) := rfl
  have clock : (Exec.read fun p => p.now : Cached S ℤ) p = .ok (p.now, p) := rfl
  unfold Answers cacheGetdir
  rw [bind_run read, bind_run clock]
  cases known : (cacheLookup path p.cache).bind
      fun n => n.dir.filter fun _ => 0 ≤ n.dirValid - p.now with
  | some l =>
    obtain ⟨n, found, stored⟩ := Option.bind_eq_some_iff.mp known
    obtain ⟨stored, -⟩ := Option.filter_eq_some_iff.mp stored
    obtain ⟨entries, answer, same⟩ := (ready.lookup clean found).dir l stored
    refine ⟨p, ?_, rfl, ready⟩
    rw [answer, same]
    rfl
  | none =>
    have count : (Exec.read fun p => p.cache.writeCtr : Cached S ℕ) p =
        .ok (p.cache.writeCtr, p) := rfl
    have ask : (Exec.read fun p => o.getdir p.origin path :
        Cached S (List (Bytes × Stat) × ℤ)) p = .ok (o.getdir p.origin path, p) := rfl
    dsimp only
    rw [bind_run count, bind_run ask]
    have listed := laws.listed p.origin path
    cases answer : o.getdir p.origin path with
    | mk entries err =>
      rw [answer] at listed takes
      dsimp only at listed takes ⊢
      let f := handEach (cacheDirfill path filler p.cache.writeCtr p.now) entries ⟨p.cache, [], []⟩
      have all : Agrees o size p.origin f.cache ∧ f.handed = entries.map Prod.fst ∧
          f.dir = (taken filler [] entries).map Prod.fst := handEach_dirfill ready.table listed
      obtain ⟨filled, handed, dir⟩ := all
      rw [takes] at dir
      have fill : (Exec.read fun p' => handEach (cacheDirfill path filler p.cache.writeCtr p'.now)
          entries ⟨p'.cache, [], []⟩ : Cached S Filling) p = .ok (f, p) := rfl
      let q : Proxy S := { p with cache := f.cache }
      have stored : (onCache fun _ _ => f.cache : Cached S Unit) p = .ok ((), q) := rfl
      rw [bind_run fill, bind_run stored, handed, dir]
      by_cases done : err = 0
      · subst done
        have added : Exec.when ((0 : ℤ) = 0)
            (onCache fun now => cacheAddDir now path (entries.map Prod.fst)) q = .ok ((), { q with
              cache := cacheAddDir q.now path (entries.map Prod.fst) q.cache }) :=
          when_ok.mpr (Or.inl ⟨rfl, rfl⟩)
        rw [bind_run added]
        exact ⟨_, rfl, rfl, cacheAddDir_agrees filled answer, ready.clock⟩
      · have kept : Exec.when (err = 0)
            (onCache fun now => cacheAddDir now path (entries.map Prod.fst)) q = .ok ((), q) :=
          when_ok.mpr (Or.inr ⟨done, rfl⟩)
        rw [bind_run kept]
        exact ⟨q, rfl, rfl, filled, ready.clock⟩

theorem pass_goes {m : Change} (drop : Cache → Cache) (good : ℤ → Prop) [DecidablePred good]
    (usual : ∀ err, succeeded m err = decide (good err)) :
    (do
      let err ← pass o m
      Exec.when (good err) (onCache fun _ => drop)
      return err : Cached S ℤ) p = .ok ((o.change p.origin m).1, { p with
      cache := if succeeded m (o.change p.origin m).1 = true then drop p.cache else p.cache
      origin := (o.change p.origin m).2 }) := by
  let q : Proxy S := { p with origin := (o.change p.origin m).2 }
  have passed : pass o m p = .ok ((o.change p.origin m).1, q) := rfl
  rw [bind_run passed, usual]
  by_cases done : good (o.change p.origin m).1
  · have dropped : Exec.when (good (o.change p.origin m).1) (onCache fun _ => drop) q =
        .ok ((), { q with cache := drop q.cache }) := when_ok.mpr (Or.inl ⟨done, rfl⟩)
    rw [bind_run dropped, if_pos (decide_eq_true done)]
    rfl
  · have kept : Exec.when (good (o.change p.origin m).1) (onCache fun _ => drop) q = .ok ((), q) :=
      when_ok.mpr (Or.inr ⟨done, rfl⟩)
    rw [bind_run kept, if_neg (by simpa using done)]
    rfl

/-- What a request that changes files does to the cache and the driver. -/
theorem cacheChange_goes (m : Change) :
    cacheChange o m p = .ok ((o.change p.origin m).1, { p with
      cache := if succeeded m (o.change p.origin m).1 = true then dropOf m p.cache else p.cache
      origin := (o.change p.origin m).2 }) := by
  cases m with
  | write path data offset => exact pass_goes _ (0 ≤ ·) fun _ => rfl
  | _ => exact pass_goes _ (· = 0) fun _ => rfl

theorem change_answers (laws : Local o) (ready : Ready o size p) (m : Change) :
    Answers size o (cacheChange o m) p (o.change p.origin m).1 (o.change p.origin m).2 := by
  refine ⟨_, cacheChange_goes m, rfl, ?_, ready.clock⟩
  by_cases done : succeeded m (o.change p.origin m).1 = true
  · simp only [if_pos done]
    refine ⟨(dropOf_on m).trans ready.table.on, ?_⟩
    rintro path n found ⟨names, proper, rfl⟩
    obtain ⟨old, apart⟩ := dropOf_lookup ready.table.on found
    have right := ready.table.every _ n old ⟨names, proper, rfl⟩
    exact right.kept (laws.kept _ m names proper fun _ => apart)
  · simp only [if_neg done]
    refine ⟨ready.table.on, ?_⟩
    rintro path n found ⟨names, proper, rfl⟩
    have right := ready.table.every _ n found ⟨names, proper, rfl⟩
    exact right.kept (laws.kept _ m names proper fun done' => absurd done' done)

theorem Answers.map {α β : Type} {m : Cached S α} {f : α → β} {res : α} {s : S}
    (h : Answers size o m p res s) : Answers size o (f <$> m) p (f res) s := by
  obtain ⟨q, run, same, ready⟩ := h
  refine ⟨q, ?_, same, ready⟩
  rw [map_eq_pure_bind, bind_run run]
  rfl

/-- Every event is answered as it is without the cache. -/
theorem serve_answers {e : Event} (laws : Local o) (ready : Ready o size p)
    (fits : Fits o size p.origin e) :
    Answers size o (serve o e) p (unity o p.origin e).1 (unity o p.origin e).2 := by
  cases e with
  | tick now => exact ⟨{ p with now := now }, rfl, rfl, ready.table, fits⟩
  | ask r =>
    cases r with
    | getattr path => exact (cachedAttr_answers ready fits rfl).map
    | fgetattr path fh =>
      obtain ⟨clean, same⟩ := fits
      exact (cachedAttr_answers ready clean same).map
    | readlink path n =>
      obtain ⟨clean, rfl⟩ := fits
      exact (readlink_answers laws ready clean).map
    | getdir path filler =>
      obtain ⟨clean, takes⟩ := fits
      exact (getdir_answers laws ready clean takes).map
    | change m => exact (change_answers laws ready m).map

theorem served_answers {events : List Event} (laws : Local o) (ready : Ready o size p)
    (fits : AllFit o size p.origin events) :
    Answers size o (served o events) p (unserved o p.origin events).1
      (unserved o p.origin events).2 := by
  induction events generalizing p with
  | nil => exact ⟨p, rfl, rfl, ready⟩
  | cons e events ih =>
    obtain ⟨q, run, same, ready'⟩ := serve_answers laws ready fits.1
    have rest := ih ready' (same.symm ▸ fits.2)
    rw [same] at rest
    obtain ⟨q', run', same', ready''⟩ := rest
    refine ⟨q', ?_, same', ready''⟩
    unfold served
    rw [bind_run run, bind_run run']
    rfl

/-- A driver with the one file "/a", which can be written and of which the mode can be changed. -/
def oneFile : Origin Stat where
  getattr st path := if path = [47, 97] then .ok st else .error (-ENOENT)
  fgetattr st _ _ := .ok st
  readlink _ _ _ := .error (-EINVAL)
  getdir st path := if path = [47] then ([([97], st)], 0) else ([], -ENOTDIR)
  change st
    | .chmod path mode => if path = [47, 97] then (0, { st with mode := mode }) else (-ENOENT, st)
    | .write path data offset =>
      if path = [47, 97] then
        (data.length, { st with size := max st.size (offset.toNat + data.length) })
      else
        (-ENOENT, st)
    | _ => (-ENOSYS, st)

theorem oneFile_local : Local oneFile := by
  constructor
  · intro s m names proper touched
    have same : (oneFile.change s m).2 = s ∨ pathTo names ≠ [47, 97] := by
      cases m with
      | chmod path mode =>
        by_cases here : path = [47, 97]
        · have done : oneFile.change s (.chmod path mode) = (0, { s with mode := mode }) := if_pos here
          rw [done] at touched
          exact Or.inr fun this => touched rfl (this.trans here.symm)
        · have refused : oneFile.change s (.chmod path mode) = (-ENOENT, s) := if_neg here
          exact Or.inl (by rw [refused])
      | write path data offset =>
        by_cases here : path = [47, 97]
        · have done : (oneFile.change s (.write path data offset)).1 = data.length :=
            congrArg Prod.fst (if_pos here)
          have good : succeeded (.write path data offset)
              (oneFile.change s (.write path data offset)).1 = true := by
            rw [done]
            exact decide_eq_true (Int.natCast_nonneg data.length)
          exact Or.inr fun this => touched good (this.trans here.symm)
        · have refused : oneFile.change s (.write path data offset) = (-ENOENT, s) := if_neg here
          exact Or.inl (by rw [refused])
      | _ => exact Or.inl rfl
    rcases same with same | other
    · rw [same]
      exact ⟨fun _ h => h, fun entries h => ⟨entries, h, rfl⟩, fun _ _ h => h⟩
    · have missing : ∀ s, oneFile.getattr s (pathTo names) = .error (-ENOENT) := fun _ => if_neg other
      constructor
      · intro st h
        rw [missing] at h
        cases h
      · intro entries h
        by_cases root : pathTo names = [47]
        · have all : ∀ s, oneFile.getdir s (pathTo names) = ([([97], s)], 0) := fun _ => if_pos root
          rw [all] at h
          cases h
          exact ⟨_, all _, rfl⟩
        · have all : ∀ s, oneFile.getdir s (pathTo names) = ([], -ENOTDIR) := fun _ => if_neg root
          rw [all] at h
          cases h
      · intro _ _ h
        exact h
  · intro s path entry listed _ _
    by_cases root : path = [47]
    · subst root
      obtain rfl := List.mem_singleton.mp listed
      rfl
    · have none_ : (oneFile.getdir s path).1 = [] := congrArg Prod.fst (if_neg root)
      rw [none_] at listed
      cases listed
  · rintro s path size text ⟨⟩

theorem oneFile_clean : Clean [47, 97] := by
  refine ⟨[[97]], ?_, rfl⟩
  intro name h
  obtain rfl := List.mem_singleton.mp h
  exact ⟨by decide, by decide, by decide⟩

def plainFile : Stat := ⟨1, 1, 0o100644, 1, 0, 0, 5⟩

def cold : Proxy Stat := ⟨⟨true, 20, 20, 20, ∅, 0, 0⟩, 1000, plainFile⟩

theorem root_clean : Clean [47] := by
  refine ⟨[], ?_, rfl⟩
  rintro name ⟨⟩

/-- A name that the callback refuses is not in the list that the cache keeps, and the next callback
does not get it. -/
example : (served oneFile [.ask (.getdir [47] fun _ _ => 1), .ask (.getdir [47] fun _ _ => 0)]
    cold).map Prod.fst = .ok [.dir 0 [[97]], .dir 0 []] := rfl

end Requests

end SshfsCache
