import DirectFuse.FuseDriver
import DirectFuse.SysioSystem

/-! The library with the fuse driver. -/
namespace FuseSystem

open ExecLogic SysioState SysioInode SysioNamei SysioMount SysioFile SysioInterface SysioSystem
open FuseDriver

variable {B : Type}

/-- The static variables of the driver. -/
def initData (b : B) : FuseData B where
  finode := fun _ => none
  ffs := fun _ => none
  nextFino := 0
  nextFfs := 0
  nextFi := 0
  nxtnum := 1
  cMajor := 128
  calls := []
  backend := b

def fuseLibrary (h : Host B) : Library (FuseData B) where
  env := fuseEnv h
  fssw := fsswLookup h

/-- `_sysio_all_startup`. -/
def sysioAllStartup (h : Host B) : Fuse B ℤ := sysioStartup (fuseLibrary h) fuseTypeName

/-- The states a program can bring the library with the fuse driver to. -/
def FuseReached (h : Host B) (b : B) (ok : Sys (FuseData B) → Call → Prop)
    (t : Sys (FuseData B)) : Prop :=
  Reached (fuseLibrary h) fuseTypeName (initData b) ok t

/-- A host for concrete runs: memory never runs out, the caller is the super-user, and the one
backend, of type "bb", answers every call with success. -/
def calmHost : Host Unit where
  malloc _ := true
  junk _ := 0
  uid := 0
  gid := 0
  euid := 0
  egid := 0
  groups := []
  fstypes t := if t = [98, 98] then some 0 else none
  backend _ _ b := (0, b)
  hasMknod _ := true

/-- The state after start-up and the calls of a list, the last one first in the list. -/
def calmRun (l : List Call) : Sys (FuseData Unit) :=
  (runCalls (fuseLibrary calmHost) fuseTypeName l).final (initState (initData ()))

end FuseSystem
