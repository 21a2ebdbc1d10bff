import DirectFuse.ExecLogic
import DirectFuse.SysioFile

/-! Which files of the cruise library the operations of fuse_cruise.c address. Strings are the bytes
in front of their NUL; the library is a parameter that answers calls. -/
namespace CruisePaths

open ExecLogic SysioState
open SysioFile (O_CREAT)

def CRUISE_PATH_MAX : ℕ := 128
def PATH_MAX : ℕ := 4096

/-- A call of the library, `CRUISE_WRAP`. -/
inductive Request where
  | mount (path : Bytes) (size : ℕ)
  | stat (path : Bytes)
  | creat (path : Bytes) (mode : ℕ)
  | close (fd : ℤ)
  | mkdir (path : Bytes) (mode : ℕ)
  | unlink (path : Bytes)
  | rmdir (path : Bytes)
  | rename (path newpath : Bytes)
  | truncate (path : Bytes) (newsize : ℤ)
  | open (path : Bytes) (flags : ℕ)
  | access (path : Bytes) (mask : ℕ)
  deriving DecidableEq, Repr

/-- The files a call is about. -/
def Request.paths : Request → List Bytes
  | .mount .. => []
  | .stat path => [path]
  | .creat path _ => [path]
  | .close _ => []
  | .mkdir path _ => [path]
  | .unlink path => [path]
  | .rmdir path => [path]
  | .rename path newpath => [path, newpath]
  | .truncate path _ => [path]
  | .open path _ => [path]
  | .access path _ => [path]

/-- What the library answers to a call, given all calls before it. -/
abbrev Library := List Request → Request → ℤ

/-- `cruise_rootdir`, and the calls made so far. -/
structure Cruise where
  rootdir : Bytes
  calls : List Request
  deriving DecidableEq, Repr

abbrev Cr (α : Type) := Exec Cruise Fault α

def wrap (lib : Library) (r : Request) : Cr ℤ := do
  let before ← Exec.read fun c => c.calls
  Exec.write fun c => { c with calls := c.calls ++ [r] }
  return lib before r

/-- The end of `_sysio_cruise_fsswop_mount`: `sprintf` writes a slash, the name of the place to be
covered and a NUL into the buffer, however long that is. -/
def sysioCruiseFsswopMount (lib : Library) (name : Bytes) : Cr Unit := do
  Exec.check .wild fun _ => decide (1 + name.length + 1 ≤ CRUISE_PATH_MAX)
  Exec.write fun c => { c with rootdir := PATH_SEPARATOR :: name }
  let root ← Exec.read fun c => c.rootdir
  let _ ← wrap lib (.mount root (1024 * 1024))
  return ()

/-- `cruise_fullpath`: `strcpy` and `strncat` into a buffer of `CRUISE_PATH_MAX` bytes. -/
def cruiseFullpath (path : Bytes) : Cr Bytes := do
  let root ← Exec.read fun c => c.rootdir
  Exec.check .wild fun _ => decide (root.length + 1 ≤ CRUISE_PATH_MAX)
  let more := path.take PATH_MAX
  Exec.check .wild fun _ => decide (root.length + more.length + 1 ≤ CRUISE_PATH_MAX)
  return root ++ more

/-- What most operations do with a path. -/
def translated (lib : Library) (path : Bytes) (r : Bytes → Request) : Cr ℤ := do
  let fpath ← cruiseFullpath path
  wrap lib (r fpath)

def fuseCruiseGetattr (lib : Library) (path : Bytes) : Cr ℤ := translated lib path .stat

/-- `fuse_cruise_mknod`, which composes a path but passes the one it was given. -/
def fuseCruiseMknod (lib : Library) (path : Bytes) (mode : ℕ) : Cr ℤ := do
  let _ ← cruiseFullpath path
  let fd ← wrap lib (.creat path mode)
  wrap lib (.close fd)

def fuseCruiseMkdir (lib : Library) (path : Bytes) (mode : ℕ) : Cr ℤ :=
  translated lib path fun fpath => .mkdir fpath mode

def fuseCruiseUnlink (lib : Library) (path : Bytes) : Cr ℤ := translated lib path .unlink

def fuseCruiseRmdir (lib : Library) (path : Bytes) : Cr ℤ := translated lib path .rmdir

/-- `fuse_cruise_rename`, which passes the new path as it is. -/
def fuseCruiseRename (lib : Library) (path newpath : Bytes) : Cr ℤ :=
  translated lib path fun fpath => .rename fpath newpath

def fuseCruiseTruncate (lib : Library) (path : Bytes) (newsize : ℤ) : Cr ℤ := do
  let _ ← translated lib path fun fpath => .truncate fpath newsize
  return 0

/-- `fuse_cruise_open`; the descriptor is also kept in `fi`. -/
def fuseCruiseOpen (lib : Library) (path : Bytes) (flags : ℕ) : Cr ℤ :=
  translated lib path fun fpath => .open fpath flags

def fuseCruiseAccess (lib : Library) (path : Bytes) (mask : ℕ) : Cr ℤ :=
  translated lib path fun fpath => .access fpath mask

/-- What `fuse_inop_open` does with the path of a new inode: the node is made if it is to be, then
opened. -/
def fuseInopOpenNew (lib : Library) (path : Bytes) (flags mode : ℕ) : Cr ℤ := do
  if flags &&& O_CREAT ≠ 0 then
    let _ ← fuseCruiseMknod lib path mode
    fuseCruiseOpen lib path flags
  else
    fuseCruiseOpen lib path flags

/-- An operation on a path, with what else it is given. -/
inductive Op where
  | getattr
  | mknod (mode : ℕ)
  | mkdir (mode : ℕ)
  | unlink
  | rmdir
  | rename (newpath : Bytes)
  | truncate (newsize : ℤ)
  | open (flags : ℕ)
  | access (mask : ℕ)
  deriving DecidableEq, Repr

def Op.run (lib : Library) (path : Bytes) : Op → Cr ℤ
  | .getattr => fuseCruiseGetattr lib path
  | .mknod mode => fuseCruiseMknod lib path mode
  | .mkdir mode => fuseCruiseMkdir lib path mode
  | .unlink => fuseCruiseUnlink lib path
  | .rmdir => fuseCruiseRmdir lib path
  | .rename newpath => fuseCruiseRename lib path newpath
  | .truncate newsize => fuseCruiseTruncate lib path newsize
  | .open flags => fuseCruiseOpen lib path flags
  | .access mask => fuseCruiseAccess lib path mask

/-- The paths an operation is asked for. -/
def Op.paths (path : Bytes) : Op → List Bytes
  | .rename newpath => [path, newpath]
  | _ => [path]

/-- The operation addresses the files that follow the root directory, or it refuses a path that
does not fit the buffer behind it. -/
def Serves (lib : Library) (c : Cruise) (path : Bytes) (op : Op) : Prop :=
  ∃ ret c' made, op.run lib path c = .ok (ret, c') ∧ c'.calls = c.calls ++ made ∧
    (made.flatMap Request.paths = (op.paths path).map (c.rootdir ++ ·) ∨
      (∃ p ∈ op.paths path, CRUISE_PATH_MAX ≤ c.rootdir.length + p.length) ∧ ret < 0 ∧
        made.flatMap Request.paths = [])

/-- An operation of a file system just mounted at a place of a name. -/
def MountServes (lib : Library) (name path : Bytes) (op : Op) : Prop :=
  ∃ u c, sysioCruiseFsswopMount lib name ⟨[], []⟩ = .ok (u, c) ∧ Serves lib c path op

/-- A file that is made with a path is the one that is opened then. -/
def OpensCreated (lib : Library) (name path : Bytes) (flags mode : ℕ) : Prop :=
  ∃ u c ret c' file, sysioCruiseFsswopMount lib name ⟨[], []⟩ = .ok (u, c) ∧
    fuseInopOpenNew lib path flags mode c = .ok (ret, c') ∧ .creat file mode ∈ c'.calls ∧
    .open file flags ∈ c'.calls

/-- All operations but two compose the path they pass. -/
def Op.Composes : Op → Prop
  | .mknod _ => False
  | .rename _ => False
  | _ => True

section Runs

variable {lib : Library} {c c' : Cruise} {name path : Bytes} {op : Op} {ret : ℤ}

theorem wrap_ok {r : Request} : wrap lib r c = .ok (ret, c') ↔
    ret = lib c.calls r ∧ c' = { c with calls := c.calls ++ [r] } := by
  constructor
  · intro run
    rcases bind_ok.mp run with ⟨before, c₁, hread, run⟩
    rcases read_ok.mp hread with ⟨rfl, rfl⟩
    rcases bind_ok.mp run with ⟨u, c₂, hwrite, hend⟩
    rcases write_ok.mp hwrite with rfl
    rcases pure_ok.mp hend with ⟨rfl, rfl⟩
    exact ⟨rfl, rfl⟩
  · rintro ⟨rfl, rfl⟩
    rfl

/-- A path is composed exactly if it fits the buffer; otherwise the stack is overwritten. -/
theorem cruiseFullpath_ok {fpath : Bytes} : cruiseFullpath path c = .ok (fpath, c') ↔
    c.rootdir.length + path.length < CRUISE_PATH_MAX ∧ fpath = c.rootdir ++ path ∧ c' = c := by
  constructor
  · intro run
    rcases bind_ok.mp run with ⟨root, c₁, hread, run⟩
    rcases read_ok.mp hread with ⟨rfl, rfl⟩
    rcases bind_ok.mp run with ⟨u, c₂, hcopy, run⟩
    rcases check_ok.mp hcopy with ⟨-, rfl⟩
    rcases bind_ok.mp run with ⟨u', c₃, hcat, hend⟩
    rcases check_ok.mp hcat with ⟨hfits, rfl⟩
    rcases pure_ok.mp hend with ⟨rfl, rfl⟩
    have hroom := of_decide_eq_true hfits
    have hmax : CRUISE_PATH_MAX < PATH_MAX := by decide
    have hshort : path.length < PATH_MAX := by
      rw [List.length_take] at hroom
      omega
    rw [List.take_of_length_le (Nat.le_of_lt hshort)] at hroom ⊢
    exact ⟨by omega, rfl, rfl⟩
  · rintro ⟨hfits, rfl, rfl⟩
    have hmax : CRUISE_PATH_MAX < PATH_MAX := by decide
    have hwhole : path.take PATH_MAX = path := List.take_of_length_le (by omega)
    have hread : (Exec.read fun c => c.rootdir : Cr Bytes) c' = .ok (c'.rootdir, c') := rfl
    have hcopy : (Exec.check .wild fun _ => decide (c'.rootdir.length + 1 ≤ CRUISE_PATH_MAX) :
        Cr Unit) c' = .ok ((), c') := check_ok.mpr ⟨decide_eq_true (by omega), rfl⟩
    have hcat : (Exec.check .wild fun _ =>
        decide (c'.rootdir.length + (path.take PATH_MAX).length + 1 ≤ CRUISE_PATH_MAX) :
        Cr Unit) c' = .ok ((), c') := by
      apply check_ok.mpr
      rw [hwhole]
      exact ⟨decide_eq_true (by omega), rfl⟩
    rw [cruiseFullpath, bind_run hread, bind_run hcopy, bind_run hcat, hwhole]
    rfl

theorem translated_ok {r : Bytes → Request} : translated lib path r c = .ok (ret, c') ↔
    c.rootdir.length + path.length < CRUISE_PATH_MAX ∧
      ret = lib c.calls (r (c.rootdir ++ path)) ∧
      c' = { c with calls := c.calls ++ [r (c.rootdir ++ path)] } := by
  constructor
  · intro run
    rcases bind_ok.mp run with ⟨fpath, c₁, hpath, hcall⟩
    rcases cruiseFullpath_ok.mp hpath with ⟨hfits, rfl, rfl⟩
    rcases wrap_ok.mp hcall with ⟨hret, hcalls⟩
    exact ⟨hfits, hret, hcalls⟩
  · rintro ⟨hfits, hret, hcalls⟩
    apply bind_ok.mpr
    exact ⟨_, _, cruiseFullpath_ok.mpr ⟨hfits, rfl, rfl⟩, wrap_ok.mpr ⟨hret, hcalls⟩⟩

theorem mknod_ok {mode : ℕ} : fuseCruiseMknod lib path mode c = .ok (ret, c') ↔
    c.rootdir.length + path.length < CRUISE_PATH_MAX ∧ ∃ fd,
      c' = { c with calls := c.calls ++ [.creat path mode, .close fd] } ∧
      fd = lib c.calls (.creat path mode) ∧
      ret = lib (c.calls ++ [.creat path mode]) (.close fd) := by
  constructor
  · intro run
    rcases bind_ok.mp run with ⟨fpath, c₁, hpath, hmake⟩
    rcases cruiseFullpath_ok.mp hpath with ⟨hfits, -, rfl⟩
    rcases bind_ok.mp hmake with ⟨fd, c₂, hcreat, hclose⟩
    rcases wrap_ok.mp hcreat with ⟨hfd, rfl⟩
    rcases wrap_ok.mp hclose with ⟨hret, rfl⟩
    refine ⟨hfits, fd, ?_, hfd, hret⟩
    rw [List.append_assoc]
    rfl
  · rintro ⟨hfits, fd, rfl, hfd, hret⟩
    apply bind_ok.mpr
    refine ⟨_, _, cruiseFullpath_ok.mpr ⟨hfits, rfl, rfl⟩, ?_⟩
    apply bind_ok.mpr
    refine ⟨_, _, wrap_ok.mpr ⟨hfd, rfl⟩, ?_⟩
    apply wrap_ok.mpr
    refine ⟨hret, ?_⟩
    rw [List.append_assoc]
    rfl

/-- The files the calls of an operation are about. -/
def Op.addressed (root path : Bytes) : Op → List Bytes
  | .mknod _ => [path]
  | .rename newpath => [root ++ path, newpath]
  | _ => [root ++ path]

/-- An operation that returns has composed a path, and made calls. -/
theorem run_addresses (run : op.run lib path c = .ok (ret, c')) :
    c.rootdir.length + path.length < CRUISE_PATH_MAX ∧ ∃ made,
      c'.calls = c.calls ++ made ∧ made.flatMap Request.paths = op.addressed c.rootdir path := by
  have hone : ∀ r : Bytes → Request, translated lib path r c = .ok (ret, c') →
      (r (c.rootdir ++ path)).paths = op.addressed c.rootdir path →
      c.rootdir.length + path.length < CRUISE_PATH_MAX ∧ ∃ made,
        c'.calls = c.calls ++ made ∧ made.flatMap Request.paths = op.addressed c.rootdir path := by
    intro r hrun hpaths
    rcases translated_ok.mp hrun with ⟨hfits, -, rfl⟩
    refine ⟨hfits, [r (c.rootdir ++ path)], rfl, ?_⟩
    rw [List.flatMap_cons, List.flatMap_nil, List.append_nil, hpaths]
  cases op with
  | getattr => exact hone _ run rfl
  | mknod mode =>
    rcases mknod_ok.mp run with ⟨hfits, fd, rfl, -⟩
    exact ⟨hfits, _, rfl, rfl⟩
  | mkdir mode => exact hone _ run rfl
  | unlink => exact hone _ run rfl
  | rmdir => exact hone _ run rfl
  | rename newpath => exact hone _ run rfl
  | truncate newsize =>
    rcases bind_ok.mp run with ⟨ret', c₁, hrun, hend⟩
    rcases pure_ok.mp hend with ⟨-, rfl⟩
    rcases translated_ok.mp hrun with ⟨hfits, -, rfl⟩
    exact ⟨hfits, _, rfl, rfl⟩
  | «open» flags => exact hone _ run rfl
  | access mask => exact hone _ run rfl

/-- An operation returns if its first path fits. -/
theorem run_returns (lib : Library) (op : Op)
    (hfits : c.rootdir.length + path.length < CRUISE_PATH_MAX) :
    ∃ ret c', op.run lib path c = .ok (ret, c') := by
  have hone : ∀ r, ∃ ret c', translated lib path r c = .ok (ret, c') :=
    fun r => ⟨_, _, translated_ok.mpr ⟨hfits, rfl, rfl⟩⟩
  cases op with
  | getattr => exact hone _
  | mknod mode => exact ⟨_, _, mknod_ok.mpr ⟨hfits, _, rfl, rfl, rfl⟩⟩
  | mkdir mode => exact hone _
  | unlink => exact hone _
  | rmdir => exact hone _
  | rename newpath => exact hone _
  | truncate newsize =>
    rcases hone fun fpath => .truncate fpath newsize with ⟨ret, c', hrun⟩
    exact ⟨0, c', bind_ok.mpr ⟨ret, c', hrun, rfl⟩⟩
  | «open» flags => exact hone _
  | access mask => exact hone _

theorem longer {root : Bytes} (hroot : root ≠ []) (p : Bytes) : root ++ p ≠ p := by
  intro hsame
  have hlen := congrArg List.length hsame
  rw [List.length_append] at hlen
  have hpos := List.length_pos_iff.mpr hroot
  omega

/-- Where the root directory is set, an operation serves its purpose exactly if it composes all it
passes and the path fits. -/
theorem serves_iff (hroot : c.rootdir ≠ []) : Serves lib c path op ↔
    op.Composes ∧ c.rootdir.length + path.length < CRUISE_PATH_MAX := by
  constructor
  · rintro ⟨ret, c', made, run, hmade, hserved⟩
    rcases run_addresses run with ⟨hfits, made', hmade', haddressed⟩
    have hsame : made = made' := List.append_cancel_left (hmade.symm.trans hmade')
    rw [hsame, haddressed] at hserved
    refine ⟨?_, hfits⟩
    cases op with
    | mknod mode =>
      rcases hserved with hpaths | ⟨-, -, hnone⟩
      · exact absurd (List.cons.inj hpaths).1.symm (longer hroot path)
      · exact absurd hnone (List.cons_ne_nil _ _)
    | rename newpath =>
      rcases hserved with hpaths | ⟨-, -, hnone⟩
      · have hsecond := (List.cons.inj hpaths).2
        exact absurd (List.cons.inj hsecond).1.symm (longer hroot newpath)
      · exact absurd hnone (List.cons_ne_nil _ _)
    | _ => trivial
  · rintro ⟨composes, hfits⟩
    rcases run_returns lib op hfits with ⟨ret, c', run⟩
    rcases run_addresses run with ⟨-, made, hmade, haddressed⟩
    refine ⟨ret, c', made, run, hmade, Or.inl ?_⟩
    rw [haddressed]
    cases op with
    | mknod mode => exact composes.elim
    | rename newpath => exact composes.elim
    | _ => rfl

theorem mount_ok {u : Unit} : sysioCruiseFsswopMount lib name ⟨[], []⟩ = .ok (u, c) ↔
    name.length + 1 < CRUISE_PATH_MAX ∧
      c = ⟨PATH_SEPARATOR :: name, [.mount (PATH_SEPARATOR :: name) (1024 * 1024)]⟩ := by
  constructor
  · intro run
    rcases bind_ok.mp run with ⟨u₁, c₁, hroom, hset⟩
    rcases check_ok.mp hroom with ⟨hfits, rfl⟩
    have hlen := of_decide_eq_true hfits
    rcases bind_ok.mp hset with ⟨u₂, c₂, hwrite, hrest⟩
    rcases write_ok.mp hwrite with rfl
    rcases bind_ok.mp hrest with ⟨root, c₃, hread, hcall⟩
    rcases read_ok.mp hread with ⟨rfl, rfl⟩
    rcases bind_ok.mp hcall with ⟨ret, c₄, hwrap, hend⟩
    rcases wrap_ok.mp hwrap with ⟨-, rfl⟩
    rcases pure_ok.mp hend with ⟨-, rfl⟩
    exact ⟨by omega, rfl⟩
  · rintro ⟨hfits, rfl⟩
    have hroom : (Exec.check .wild fun _ => decide (1 + name.length + 1 ≤ CRUISE_PATH_MAX) : Cr Unit)
        ⟨[], []⟩ = .ok ((), ⟨[], []⟩) := check_ok.mpr ⟨decide_eq_true (by omega), rfl⟩
    rw [sysioCruiseFsswopMount, bind_run hroom]
    rfl

/-- The node is made at the path as it is, and opened behind the root directory. -/
theorem never_created {flags mode : ℕ} : ¬ OpensCreated lib name path flags mode := by
  rintro ⟨u, c, ret, c', file, mount, run, hcreat, hopen⟩
  rcases mount_ok.mp mount with ⟨-, rfl⟩
  rw [fuseInopOpenNew] at run
  split at run
  · rcases bind_ok.mp run with ⟨ret', c₁, hmade, hopened⟩
    rcases mknod_ok.mp hmade with ⟨-, fd, rfl, -⟩
    rcases translated_ok.mp hopened with ⟨-, -, rfl⟩
    simp at hcreat hopen
    have hsame : PATH_SEPARATOR :: (name ++ path) = path := hopen.symm.trans hcreat
    exact longer (List.cons_ne_nil _ _) path hsame
  · rcases translated_ok.mp run with ⟨-, -, rfl⟩
    simp at hcreat

end Runs

/-- Behind a mount an operation serves its purpose exactly if it is neither `mknod` nor `rename`
and the slash, the name of the mount point, the path and a NUL fit into the buffer; and no file that is made is
the one opened. -/
theorem cruise_paths (lib : Library) (name path : Bytes) :
    (∀ op : Op, MountServes lib name path op ↔
      op.Composes ∧ 1 + name.length + path.length < CRUISE_PATH_MAX) ∧
    ∀ flags mode, ¬ OpensCreated lib name path flags mode := by
  refine ⟨?_, fun flags mode => never_created⟩
  intro op
  constructor
  · rintro ⟨u, c, mount, serves⟩
    rcases mount_ok.mp mount with ⟨-, rfl⟩
    rcases (serves_iff (List.cons_ne_nil _ _)).mp serves with ⟨composes, hfits⟩
    refine ⟨composes, ?_⟩
    rw [List.length_cons] at hfits
    omega
  · rintro ⟨composes, hfits⟩
    refine ⟨(), _, mount_ok.mpr ⟨by omega, rfl⟩, ?_⟩
    apply (serves_iff (List.cons_ne_nil _ _)).mpr
    refine ⟨composes, ?_⟩
    rw [List.length_cons]
    omega

/-- A file system mounted at m: a node is made outside of it, a new name is one outside of it, and
a path of 126 bytes is written behind the end of the buffer. -/
theorem mounted_at_m :
    ¬ MountServes (fun _ _ => 0) [109] [PATH_SEPARATOR, 97] (.mknod 0o644) ∧
    ¬ MountServes (fun _ _ => 0) [109] [PATH_SEPARATOR, 97] (.rename [PATH_SEPARATOR, 98]) ∧
    ¬ MountServes (fun _ _ => 0) [109] (PATH_SEPARATOR :: List.replicate 125 97) .getattr ∧
    ¬ OpensCreated (fun _ _ => 0) [109] [PATH_SEPARATOR, 97] O_CREAT 0o644 := by
  have hserves : ∀ path op, MountServes (fun _ _ => 0) [109] path op → op.Composes ∧
      path.length + 2 < CRUISE_PATH_MAX := by
    rintro path op ⟨u, c, mount, serves⟩
    rcases mount_ok.mp mount with ⟨-, rfl⟩
    rcases (serves_iff (List.cons_ne_nil _ _)).mp serves with ⟨composes, hfits⟩
    refine ⟨composes, ?_⟩
    rw [List.length_cons, List.length_singleton] at hfits
    omega
  refine ⟨?_, ?_, ?_, never_created⟩
  · intro serves
    exact (hserves _ _ serves).1
  · intro serves
    exact (hserves _ _ serves).1
  · intro serves
    have hfits := (hserves _ _ serves).2
    rw [List.length_cons, List.length_replicate, CRUISE_PATH_MAX] at hfits
    omega

end CruisePaths
