import DirectFuse.SysioInterface

/-! The library as a system: the initial state, the calls a program can make, and its runs. -/
namespace SysioSystem

open ExecLogic SysioState SysioInode SysioNamei SysioMount SysioFile SysioInterface

variable {D : Type}

/-- The static variables as `_sysio_init` leaves them. What the memory of the path nodes holds
before the first allocation plays no part. -/
def initState (d : D) : Sys D where
  nc :=
    { pnode := fun p => { ref := 0, parent := p, base := 0, mount := 0, cover := none }
      base := fun _ => none
      pnodes := []
      freePnodes := []
      names := fun _ => []
      nNames := 0
      maxNames := 2 * NAMES_TABLE_LEN
      nextPnode := 0
      nextBase := 0 }
  ic :=
    { inode := fun _ => none
      filesys := fun _ => none
      inodes := []
      nInodes := 0
      maxInodes := MAX_INODES_MULTIPLIER * NAMES_TABLE_LEN
      nextInode := 0
      nextFs := 0 }
  mt := { mount := fun _ => none, mounts := [], nextMount := 0, root := none, cwd := none }
  ft := { file := fun _ => none, oftab := [], nextFile := 0 }
  aio :=
    { ioctx := fun _ => none
      aioq := []
      nextIoctx := 0
      frees := fun _ => 0
      nextVec := 0
      ran := [] }
  umask := 0
  gidslen := 0
  mallocs := 0
  drv := d

/-- The drivers with the file system switch in front of them. -/
structure Library (D : Type) where
  env : Env D
  fssw : Bytes → Option (FsswopMount D)

/-- The calls of the interface. `open`, `unlink` and `rmdir` come with what their uninitialised
locals happen to hold. -/
inductive Call where
  | open_ (u : Uninit) (path : Bytes) (flags mode : ℕ)
  | close (fd : ℤ)
  | unlink (u : Uninit) (path : Bytes)
  | rmdir (u : Uninit) (path : Bytes)
  | mkdir (path : Bytes) (mode : ℕ)
  | stat (path : Bytes)
  | lstat (path : Bytes)
  | access (path : Bytes) (amode : ℕ)
  | readlink (path : Bytes) (bufsiz : ℕ)
  | chmod (path : Bytes)
  | chown (path : Bytes) (owner group : ℤ)
  | utime (path : Bytes)
  | symlink (oldpath newpath : Bytes)
  | mknod (path : Bytes) (mode dev : ℕ)
  | link (oldpath newpath : Bytes)
  | rename (oldpath newpath : Bytes)
  | chdir (path : Bytes)
  | mount (source target fstype : Bytes) (flags : ℕ)
  | umount (target : Bytes)
  | dup (oldfd : ℤ)
  | dup2 (oldfd newfd : ℤ)
  | read (fd : ℤ) (count : ℕ)
  | write (fd : ℤ) (count : ℕ)
  | pread (fd : ℤ) (count : ℕ) (offset : ℤ)
  | pwrite (fd : ℤ) (count : ℕ) (offset : ℤ)
  | ftruncate (fd : ℤ) (length : ℤ)
  | fsync (fd : ℤ)
  | fdatasync (fd : ℤ)
  | fstat (fd : ℤ)
  | fchmod (fd : ℤ)
  | fchown (fd : ℤ) (owner group : ℤ)
  | lseek (fd offset : ℤ) (whence : Whence) (size : ℤ)
  | iread (u : IocId) (wr : Bool) (fd : ℤ) (count : ℕ) (cc : ℤ)
  | ireadv (u : IocId) (wr : Bool) (fd : ℤ) (lens : List ℕ) (cc : ℤ)
  | ipread (u : IocId) (wr : Bool) (fd : ℤ) (count : ℕ) (cc : ℤ)
  | ipreadv (u : IocId) (wr : Bool) (fd : ℤ) (lens : List ℕ) (cc : ℤ)
  | ireadx (u : IocId) (wr : Bool) (fd : ℤ) (iovs xtvs : ℕ) (cc : ℤ)
  | iread64x (u : IocId) (fd : ℤ) (iovs xtvs : ℕ) (cc : ℤ)
  | iwrite64x (u : IocId) (fd : ℤ) (xtvs : ℕ) (cc : ℤ)
  | iodone (ioid : IocId)
  | iowait (ioid : IocId) (polls : ℕ)
  deriving DecidableEq, Repr

/-- The result of an asynchronous call: the identifier of its context, or -1. -/
def ioid (r : Option IocId × ℤ) : Ret := ((r.1.map Int.ofNat).getD (-1), r.2)

/-- One call. -/
def step (lib : Library D) : Call → Sysio D Ret
  | .open_ u path flags mode => interfaceOpen lib.env u path flags mode
  | .close fd => interfaceClose lib.env fd
  | .unlink u path => interfaceUnlink lib.env u path
  | .rmdir u path => interfaceRmdir lib.env u path
  | .mkdir path mode => interfaceMkdir lib.env path mode
  | .stat path => interfaceStat lib.env path
  | .lstat path => interfaceLstat lib.env path
  | .access path amode => interfaceAccess lib.env path amode
  | .readlink path bufsiz => interfaceReadlink lib.env path bufsiz
  | .chmod path => interfaceChmod lib.env path
  | .chown path owner group => interfaceChown lib.env path owner group
  | .utime path => interfaceUtime lib.env path
  | .symlink oldpath newpath => interfaceSymlink lib.env oldpath newpath
  | .mknod path mode dev => interfaceMknod lib.env path mode dev
  | .link oldpath newpath => interfaceLink lib.env oldpath newpath
  | .rename oldpath newpath => interfaceRename lib.env oldpath newpath
  | .chdir path => interfaceChdir lib.env path
  | .mount source target fstype flags =>
    interfaceMount lib.env (lib.fssw fstype) source target fstype flags
  | .umount target => interfaceUmount lib.env target
  | .dup oldfd => interfaceDup lib.env oldfd
  | .dup2 oldfd newfd => interfaceDup2 lib.env oldfd newfd
  | .read fd count => interfaceRead lib.env fd count
  | .write fd count => interfaceWrite lib.env fd count
  | .pread fd count offset => interfacePread lib.env fd count offset
  | .pwrite fd count offset => interfacePwrite lib.env fd count offset
  | .ftruncate fd length => interfaceFtruncate lib.env fd length
  | .fsync fd => interfaceFsync lib.env fd
  | .fdatasync fd => interfaceFdatasync lib.env fd
  | .fstat fd => interfaceFstat lib.env fd
  | .fchmod fd => interfaceFchmod lib.env fd
  | .fchown fd owner group => interfaceFchown lib.env fd owner group
  | .lseek fd offset whence size => interfaceLseek lib.env fd offset whence size
  | .iread u wr fd count cc => do return ioid (← interfaceIread lib.env u wr fd count cc)
  | .ireadv u wr fd lens cc => do return ioid (← interfaceIreadv lib.env u wr fd lens cc)
  | .ipread u wr fd count cc => do return ioid (← interfaceIpread lib.env u wr fd count cc)
  | .ipreadv u wr fd lens cc => do return ioid (← interfaceIpreadv lib.env u wr fd lens cc)
  | .ireadx u wr fd iovs xtvs cc => do
    return ioid (← interfaceIreadx lib.env u wr fd iovs xtvs cc)
  | .iread64x u fd iovs xtvs cc => do return ioid (← interfaceIread64x lib.env u fd iovs xtvs cc)
  | .iwrite64x u fd xtvs cc => do return ioid (← interfaceIwrite64x lib.env u fd xtvs cc)
  | .iodone c => interfaceIodone lib.env c
  | .iowait c polls => interfaceIowait lib.env c polls

/-- The start-up of the library: the root of the name space is a file system of type `fstype`. -/
def sysioStartup (lib : Library D) (fstype : Bytes) : Sysio D ℤ :=
  sysioMountRoot (lib.fssw fstype) [] fstype 2

/-- The states a program can bring the library to with calls that `ok` allows. -/
def Reached (lib : Library D) (fstype : Bytes) (d : D) (ok : Sys D → Call → Prop) (t : Sys D) :
    Prop :=
  ∃ s, sysioStartup lib fstype (initState d) = .ok (0, s) ∧ Steps (step lib) ok s t

/-- Makes the calls of a list, the last one first in the list. -/
def runCalls (lib : Library D) (fstype : Bytes) : List Call → Sysio D Unit
  | [] => do
    let err ← sysioStartup lib fstype
    Exec.check .abort fun _ => decide (err = 0)
  | c :: l => do
    runCalls lib fstype l
    let _ ← step lib c

theorem runCalls_reached {lib : Library D} {fstype : Bytes} {d : D} {l : List Call} {t : Sys D}
    (run : runCalls lib fstype l (initState d) = .ok ((), t)) :
    Reached lib fstype d (fun _ _ => True) t := by
  induction l generalizing t with
  | nil =>
    obtain ⟨err, u, hb, hc⟩ := bind_ok.mp run
    obtain ⟨herr, rfl⟩ := check_ok.mp hc
    obtain rfl := of_decide_eq_true herr
    exact ⟨u, hb, .refl u⟩
  | cons c l ih =>
    obtain ⟨_, u, hl, hc⟩ := bind_ok.mp run
    obtain ⟨a, v, hs, hp⟩ := bind_ok.mp hc
    obtain ⟨-, rfl⟩ := pure_ok.mp hp
    obtain ⟨s, hb, hrun⟩ := ih hl
    exact ⟨s, hb, hrun.snoc trivial hs⟩

end SysioSystem
