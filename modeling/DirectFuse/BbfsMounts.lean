import DirectFuse.BasePath
import DirectFuse.FuseDriver

/-! The bbfs backend (drivers/bbfs). Every mount of it goes through the fuse driver, which keeps
its records for each mount, but the backend has one root directory for the whole process. -/
namespace BbfsMounts

open ExecLogic SysioState BasePath FuseDriver

def PATH_MAX : ℕ := 4096

/-- A component of a path; only a mount's root has no name. -/
abbrev Component := { name : Bytes // name ≠ [] }

/-- `bbData` is `BB_DATA`, absent before the first mount, with its `rootdir`, which is NULL when
`realpath` failed. `host` has the paths of the host descriptors that are open, and `handle` the
`fh` of the file infos, where none is the -1 of an open that failed. `source` and `file` are the
mount table and the open files as the layers above have them: what a target's own source resolved
to, and for a file also its path below the target. `given` is the file a host descriptor was last
given for. -/
structure State where
  bbData : Option (Option Bytes)
  host : ℕ → Option Bytes
  handle : FiId → Option (Option ℕ)
  source : MntId → Option (Option Bytes)
  file : FiId → Option (Option Bytes × List Component)
  given : ℕ → Option (Option Bytes × List Component)

abbrev Bb (α : Type) := Exec State Fault α

/-- `bbfs_init`, given what `realpath` answers for the source. -/
def bbfsInit (resolved : Option Bytes) : Bb Unit :=
  Exec.write fun s => { s with bbData := some resolved }

/-- `_sysio_bbfs_fsswop_mount`; `err` is the result of `_sysio_fuse_mount_init`. -/
def sysioBbfsFsswopMount (resolved : Option Bytes) (err : ℤ) : Bb ℤ := do
  if err ≠ 0 then
    return err
  else
    bbfsInit resolved
    return err

/-- `bb_fullpath`: a copy of the root and at most PATH_MAX bytes of the path, in a buffer of
PATH_MAX bytes. -/
def bbFullpath (path : Option Bytes) : Bb Bytes := do
  let root ← Exec.deref .wild fun s => s.bbData.join
  let tail ← Exec.deref .wild fun _ => path.map (List.take PATH_MAX)
  Exec.check .wild fun _ => decide (root.length + tail.length < PATH_MAX)
  return root ++ tail

/-- What an `open` of the host gives when it answers `got`: no descriptor that is open. -/
def granted (s : State) (got : Option ℕ) : Option ℕ := got.filter fun n => (s.host n).isNone

/-- The host with another path, or none, behind the descriptor, if there is one. -/
def hostSet : Option ℕ → Option Bytes → State → State
  | none, _, s => s
  | some n, path, s => { s with host := Function.update s.host n path }

/-- `open` of the host. -/
def hostOpen (got : Option ℕ) (fpath : Bytes) : Bb (Option ℕ) := do
  let fd ← Exec.read (granted · got)
  Exec.write (hostSet fd (some fpath))
  return fd

/-- `fi->fh`. -/
def fhOf (fi : Option FiId) : Bb (Option ℕ) := do
  let fi ← Exec.deref .wild fun _ => fi
  Exec.deref .wild fun s => s.handle fi

/-- A call of the host on `fi->fh`, which fails where that is no open descriptor. -/
def onHandle (fi : Option FiId) : Bb (Option Bytes) := do
  let fh ← fhOf fi
  Exec.read fun s => fh.bind s.host

def byPath (path : Option Bytes) : Bb (Option Bytes) := some <$> bbFullpath path

/-- `bb_oper`: the host path a call of the driver reaches. `got` is what the host answers to an
`open`. -/
def bbOper (got : Option ℕ) : BackendCall → Bb (Option Bytes)
  | .getattr path => byPath path
  | .mknod path _ => byPath (some path)
  | .mkdir path _ => byPath (some path)
  | .unlink path => byPath path
  | .rmdir path => byPath (some path)
  | .open_ path _ fi => do
    let fpath ← bbFullpath path
    let fd ← hostOpen got fpath
    Exec.write fun s => { s with handle := Function.update s.handle fi (some fd) }
    return some fpath
  | .read _ _ _ fi => onHandle fi
  | .write _ _ _ fi => onHandle fi
  | .ftruncate _ _ fi => onHandle fi
  | .release _ fi => do
    let fh ← fhOf fi
    let reached ← onHandle fi
    Exec.write (hostSet fh none)
    return reached
  | .fsync _ _ fi => onHandle fi

/-- The calls that go by a path. -/
inductive PathOp where
  | getattr
  | mknod (mode : ℕ)
  | mkdir (mode : ℕ)
  | unlink
  | rmdir
  | open_ (flags : ℕ) (fi : FiId) (got : Option ℕ)
  deriving DecidableEq, Repr

def PathOp.call (path : Bytes) : PathOp → BackendCall
  | .getattr => .getattr (some path)
  | .mknod mode => .mknod path mode
  | .mkdir mode => .mkdir path mode
  | .unlink => .unlink (some path)
  | .rmdir => .rmdir path
  | .open_ flags fi _ => .open_ (some path) flags fi

/-- What the host answers to the call, should it be an open. -/
def PathOp.got : PathOp → Option ℕ
  | .open_ _ _ got => got
  | _ => none

/-- The calls that go by a file info. -/
inductive FileOp where
  | read (size : ℕ) (off : ℤ)
  | write (size : ℕ) (off : ℤ)
  | ftruncate (size : ℤ)
  | release
  | fsync (datasync : ℕ)
  deriving DecidableEq, Repr

def FileOp.call (path : Bytes) (fi : FiId) : FileOp → BackendCall
  | .read size off => .read (some path) size off (some fi)
  | .write size off => .write (some path) size off (some fi)
  | .ftruncate size => .ftruncate (some path) size (some fi)
  | .release => .release (some path) (some fi)
  | .fsync datasync => .fsync (some path) datasync (some fi)

/-- A mount on a target, with what its source resolves to; an unmount; a call on a path below a
target; a call on an open file. -/
inductive Event where
  | mount (m : MntId) (resolved : Option Bytes) (err : ℤ)
  | umount (m : MntId)
  | access (m : MntId) (rel : List Component) (op : PathOp)
  | onFile (fi : FiId) (op : FileOp)
  deriving DecidableEq, Repr

def names (rel : List Component) : List Bytes := rel.map Subtype.val

/-- The path the driver passes: the base node's, up to the nameless root of its mount. -/
def driverPath (rel : List Component) : Bytes :=
  pathOf PATH_SEPARATOR ((names rel).reverse ++ [[]])

/-- The host path the call of an event reaches. -/
def reach (s : State) : Event → Option (Bb (Option Bytes))
  | .mount _ _ _ => none
  | .umount _ => none
  | .access m rel op => (s.source m).map fun _ => bbOper op.got (op.call (driverPath rel))
  | .onFile fi op => (s.file fi).map fun f => bbOper none (op.call (driverPath f.2) fi)

/-- What the layers above note of an event. -/
def noted (s : State) : Event → State → State
  | .mount m resolved err, t =>
    if err ≠ 0 then t else { t with source := Function.update t.source m (some resolved) }
  | .umount m, t => { t with source := Function.update t.source m none }
  | .access m rel (.open_ _ fi got), t =>
    match s.source m with
    | none => t
    | some own =>
      { t with
        file := Function.update t.file fi (some (own, rel))
        given := match granted s got with
          | none => t.given
          | some n => Function.update t.given n (some (own, rel)) }
  | .access _ _ _, t => t
  | .onFile _ _, t => t

def next (s : State) (e : Event) : State :=
  match e with
  | .mount _ resolved err => noted s e ((sysioBbfsFsswopMount resolved err).final s)
  | _ => noted s e (match reach s e with
    | none => s
    | some run => run.final s)

def initial : State :=
  ⟨none, fun _ => none, fun _ => none, fun _ => none, fun _ => none, fun _ => none⟩

/-- The host path of a file below a target whose source resolved to `own`. -/
def hostPath (own : Bytes) (rel : List Component) : Bytes :=
  own ++ below PATH_SEPARATOR (names rel)

/-- A call reaches the file below its own target's source. -/
def Right (s : State) : Event → Prop
  | .access m rel op => ∀ own, s.source m = some own →
      ∃ root t, own = some root ∧
        bbOper op.got (op.call (driverPath rel)) s = .ok (some (hostPath root rel), t)
  | .onFile fi op => ∀ own rel, s.file fi = some (own, rel) →
      ∃ root t, own = some root ∧
        bbOper none (op.call (driverPath rel) fi) s = .ok (some (hostPath root rel), t)
  | _ => True

/-- For a call by path, the source given last resolved to the same directory as the target's own,
and the path fits. For a call on an open file, the host descriptor its open got is open and was
last given for that place: it has not been closed since, or was then given for the same one. -/
def Aligned (s : State) : Event → Prop
  | .access m rel _ => ∀ own, s.source m = some own →
      ∃ root, own = some root ∧ s.bbData = some (some root) ∧
        (hostPath root rel).length < PATH_MAX
  | .onFile fi _ => ∀ own rel, s.file fi = some (own, rel) →
      ∃ root n root' rel', own = some root ∧ s.handle fi = some (some n) ∧
        (s.host n).isSome = true ∧ s.given n = some (some root', rel') ∧
        hostPath root' rel' = hostPath root rel
  | _ => True

def Throughout (P : State → Event → Prop) : State → List Event → Prop
  | _, [] => True
  | s, e :: l => P s e ∧ Throughout P (next s e) l

/-- What the host has open was opened below the source of the file it was given for. -/
def HostRight (s : State) : Prop := ∀ n p, s.host n = some p →
  ∃ root rel, s.given n = some (some root, rel) ∧ p = hostPath root rel

theorem driverPath_eq (rel : List Component) :
    driverPath rel = below PATH_SEPARATOR (names rel) := by
  apply pathOf_below
  intro name hin
  rcases List.mem_map.mp hin with ⟨c, -, rfl⟩
  exact c.property

/-- What `bb_fullpath` does: it needs a root, and room for both parts. -/
theorem bbFullpath_ok {s t : State} {path r : Bytes} :
    bbFullpath (some path) s = .ok (r, t) ↔
      t = s ∧ ∃ root, s.bbData = some (some root) ∧ r = root ++ path ∧ r.length < PATH_MAX := by
  have hjoin : ∀ root, s.bbData.join = some root ↔ s.bbData = some (some root) := by
    intro root
    cases hdata : s.bbData with
    | none => simp
    | some d => simp
  constructor
  · intro run
    rcases bind_ok.mp run with ⟨root, s₁, h₀, h₁⟩
    rcases deref_ok.mp h₀ with ⟨hroot, rfl⟩
    rcases bind_ok.mp h₁ with ⟨tail, s₂, h₂, h₃⟩
    rcases deref_ok.mp h₂ with ⟨hcut, rfl⟩
    rcases bind_ok.mp h₃ with ⟨u, s₃, h₄, h₅⟩
    rcases check_ok.mp h₄ with ⟨hroom, rfl⟩
    rcases pure_ok.mp h₅ with ⟨rfl, rfl⟩
    have htail : path.take PATH_MAX = tail := Option.some.inj hcut
    have hfits : root.length + tail.length < PATH_MAX := of_decide_eq_true hroom
    have hwhole : tail = path := by
      rw [← htail]
      apply List.take_of_length_le
      rw [← htail, List.length_take] at hfits
      omega
    refine ⟨rfl, root, (hjoin root).mp hroot, by rw [hwhole], ?_⟩
    rw [List.length_append]
    exact hfits
  · rintro ⟨rfl, root, hroot, rfl, hfits⟩
    rw [List.length_append] at hfits
    have hwhole : path.take PATH_MAX = path := List.take_of_length_le (by omega)
    apply bind_ok.mpr
    refine ⟨root, t, deref_ok.mpr ⟨(hjoin root).mpr hroot, rfl⟩, bind_ok.mpr ?_⟩
    refine ⟨path, t, deref_ok.mpr ⟨congrArg some hwhole, rfl⟩, bind_ok.mpr ?_⟩
    exact ⟨(), t, check_ok.mpr ⟨decide_eq_true hfits, rfl⟩, pure_ok.mpr ⟨rfl, rfl⟩⟩

/-- When `bb_fullpath` gives the host path below a directory. -/
theorem bbFullpath_iff {s t : State} {root : Bytes} {rel : List Component} :
    bbFullpath (some (driverPath rel)) s = .ok (hostPath root rel, t) ↔
      t = s ∧ s.bbData = some (some root) ∧ (hostPath root rel).length < PATH_MAX := by
  rw [bbFullpath_ok, driverPath_eq]
  constructor
  · rintro ⟨rfl, root', hroot, heq, hfits⟩
    have hsame : root = root' := List.append_cancel_right heq
    rw [hsame]
    exact ⟨rfl, hroot, hsame ▸ hfits⟩
  · rintro ⟨rfl, hroot, hfits⟩
    exact ⟨rfl, root, hroot, rfl, hfits⟩

/-- What `open` keeps of the path it reaches. -/
def opened (s : State) (fi : FiId) (got : Option ℕ) (fpath : Bytes) : State :=
  { hostSet (granted s got) (some fpath) s with
    handle := Function.update s.handle fi (some (granted s got)) }

theorem hostSet_handle (fd : Option ℕ) (path : Option Bytes) (s : State) :
    (hostSet fd path s).handle = s.handle := by cases fd <;> rfl

theorem byPath_ok {s t : State} {path : Bytes} {r : Option Bytes} :
    byPath (some path) s = .ok (r, t) ↔
      t = s ∧ ∃ fpath, r = some fpath ∧ bbFullpath (some path) s = .ok (fpath, s) := by
  constructor
  · intro run
    rcases bind_ok.mp run with ⟨fpath, u, hpath, h₁⟩
    rcases pure_ok.mp h₁ with ⟨rfl, rfl⟩
    rcases bbFullpath_ok.mp hpath with ⟨rfl, -⟩
    exact ⟨rfl, fpath, rfl, hpath⟩
  · rintro ⟨rfl, fpath, rfl, hpath⟩
    exact bind_ok.mpr ⟨fpath, t, hpath, pure_ok.mpr ⟨rfl, rfl⟩⟩

/-- Every call that goes by a path reaches what `bb_fullpath` gives; only `open` keeps it. -/
theorem pathOp_ok {s t : State} {op : PathOp} {path : Bytes} {r : Option Bytes} :
    bbOper op.got (op.call path) s = .ok (r, t) ↔
      ∃ fpath, r = some fpath ∧ bbFullpath (some path) s = .ok (fpath, s) ∧
        t = match op with
          | .open_ _ fi got => opened s fi got fpath
          | _ => s := by
  have plain : byPath (some path) s = .ok (r, t) ↔
      ∃ fpath, r = some fpath ∧ bbFullpath (some path) s = .ok (fpath, s) ∧ t = s := by
    rw [byPath_ok]
    constructor
    · rintro ⟨ht, fpath, hr, hpath⟩
      exact ⟨fpath, hr, hpath, ht⟩
    · rintro ⟨fpath, hr, hpath, ht⟩
      exact ⟨ht, fpath, hr, hpath⟩
  cases op with
  | open_ flags fi got =>
    constructor
    · intro run
      rcases bind_ok.mp run with ⟨fpath, s₁, hpath, h₁⟩
      have kept : s₁ = s := (bbFullpath_ok.mp hpath).1
      subst kept
      rcases bind_ok.mp h₁ with ⟨fd, s₂, hopen, h₂⟩
      have hopened : hostOpen got fpath s₁ =
        .ok (granted s₁ got, hostSet (granted s₁ got) (some fpath) s₁) := rfl
      rcases Except.ok.inj (hopened.symm.trans hopen) with ⟨rfl, rfl⟩
      rcases bind_ok.mp h₂ with ⟨u, s₃, hkeep, h₃⟩
      rcases write_ok.mp hkeep with rfl
      rcases pure_ok.mp h₃ with ⟨rfl, rfl⟩
      refine ⟨fpath, rfl, hpath, ?_⟩
      simp only [opened, hostSet_handle]
    · rintro ⟨fpath, rfl, hpath, rfl⟩
      refine bind_ok.mpr ⟨fpath, s, hpath, bind_ok.mpr ⟨granted s got, _, rfl, ?_⟩⟩
      refine bind_ok.mpr ⟨(), _, write_ok.mpr rfl, pure_ok.mpr ⟨rfl, ?_⟩⟩
      simp only [opened, hostSet_handle, PathOp.got]
  | _ => exact plain

/-- Every call on a file info reaches what its handle has open; only `release` closes that. -/
theorem fileOp_ok {s t : State} {fi : FiId} {op : FileOp} {path : Bytes} {r : Option Bytes} :
    bbOper none (op.call path fi) s = .ok (r, t) ↔
      ∃ fh, s.handle fi = some fh ∧ r = fh.bind s.host ∧
        t = match op with
          | .release => hostSet fh none s
          | _ => s := by
  have handle : ∀ fh u, fhOf (some fi) s = .ok (fh, u) ↔ s.handle fi = some fh ∧ u = s := by
    intro fh u
    constructor
    · intro run
      rcases bind_ok.mp run with ⟨fi', u', h₁, h₂⟩
      rcases deref_ok.mp h₁ with ⟨hfi, rfl⟩
      cases hfi
      rcases deref_ok.mp h₂ with ⟨hfh, rfl⟩
      exact ⟨hfh, rfl⟩
    · rintro ⟨hfh, rfl⟩
      exact bind_ok.mpr ⟨fi, u, deref_ok.mpr ⟨rfl, rfl⟩, deref_ok.mpr ⟨hfh, rfl⟩⟩
  have plain : ∀ r u, onHandle (some fi) s = .ok (r, u) ↔
      ∃ fh, s.handle fi = some fh ∧ r = fh.bind s.host ∧ u = s := by
    intro r u
    constructor
    · intro run
      rcases bind_ok.mp run with ⟨fh, u', h₁, h₂⟩
      rcases (handle _ _).mp h₁ with ⟨hfh, rfl⟩
      rcases read_ok.mp h₂ with ⟨rfl, rfl⟩
      exact ⟨fh, hfh, rfl, rfl⟩
    · rintro ⟨fh, hfh, rfl, rfl⟩
      exact bind_ok.mpr ⟨fh, u, (handle _ _).mpr ⟨hfh, rfl⟩, read_ok.mpr ⟨rfl, rfl⟩⟩
  cases op with
  | release =>
    constructor
    · intro run
      rcases bind_ok.mp run with ⟨fh, u, h₁, h₂⟩
      rcases (handle _ _).mp h₁ with ⟨hfh, rfl⟩
      rcases bind_ok.mp h₂ with ⟨r', u', h₃, h₄⟩
      rcases (plain _ _).mp h₃ with ⟨fh', hfh', rfl, rfl⟩
      rcases Option.some.inj (hfh.symm.trans hfh') with rfl
      rcases bind_ok.mp h₄ with ⟨_, v, h₅, h₆⟩
      rcases pure_ok.mp h₆ with ⟨rfl, rfl⟩
      exact ⟨fh, hfh, rfl, (write_ok.mp h₅).symm⟩
    · rintro ⟨fh, hfh, rfl, rfl⟩
      exact bind_ok.mpr ⟨fh, s, (handle _ _).mpr ⟨hfh, rfl⟩, bind_ok.mpr
        ⟨_, s, (plain _ _).mpr ⟨fh, hfh, rfl, rfl⟩, bind_ok.mpr
          ⟨(), _, write_ok.mpr rfl, pure_ok.mpr ⟨rfl, rfl⟩⟩⟩⟩
  | _ => exact plain r t

/-- On a path below a target: right exactly when aligned. -/
theorem access_right_iff {s : State} {m : MntId} {rel : List Component} {op : PathOp} :
    Right s (.access m rel op) ↔ Aligned s (.access m rel op) := by
  constructor
  · intro right own hown
    rcases right own hown with ⟨root, t, rfl, run⟩
    rcases pathOp_ok.mp run with ⟨fpath, hpath, hfull, -⟩
    cases hpath
    rcases bbFullpath_iff.mp hfull with ⟨-, hroot, hfits⟩
    exact ⟨root, rfl, hroot, hfits⟩
  · intro aligned own hown
    rcases aligned own hown with ⟨root, rfl, hroot, hfits⟩
    exact ⟨root, _, rfl, pathOp_ok.mpr ⟨_, rfl, bbFullpath_iff.mpr ⟨rfl, hroot, hfits⟩, rfl⟩⟩

/-- On an open file: right exactly when its descriptor is still that of its own place. -/
theorem onFile_right_iff {s : State} {fi : FiId} {op : FileOp} (h : HostRight s) :
    Right s (.onFile fi op) ↔ Aligned s (.onFile fi op) := by
  constructor
  · intro right own rel hfile
    rcases right own rel hfile with ⟨root, t, rfl, run⟩
    rcases fileOp_ok.mp run with ⟨fh, hfh, hreach, -⟩
    cases fh with
    | none => cases hreach
    | some n =>
      have hopen : s.host n = some (hostPath root rel) := hreach.symm
      rcases h n _ hopen with ⟨root', rel', hgiven, hsame⟩
      exact ⟨root, n, root', rel', rfl, hfh, by rw [hopen]; rfl, hgiven, hsame.symm⟩
  · intro aligned own rel hfile
    rcases aligned own rel hfile with ⟨root, n, root', rel', rfl, hfh, hopen, hgiven, hsame⟩
    rcases Option.isSome_iff_exists.mp hopen with ⟨p, hp⟩
    rcases h n p hp with ⟨root'', rel'', hgiven', rfl⟩
    rw [hgiven] at hgiven'
    cases hgiven'
    refine ⟨root, _, rfl, fileOp_ok.mpr ⟨some n, hfh, ?_, rfl⟩⟩
    rw [← hsame]
    exact hp.symm

/-- Closing a descriptor leaves the others with what they have open. -/
theorem HostRight.close {s : State} (h : HostRight s) (fh : Option ℕ) :
    HostRight (hostSet fh none s) := by
  cases fh with
  | none => exact h
  | some n =>
    intro k p hk
    have hk : Function.update s.host n none k = some p := hk
    by_cases hkn : k = n
    · rw [hkn, Function.update_self] at hk
      cases hk
    · rw [Function.update_of_ne hkn] at hk
      exact h k p hk

/-- A call on an open file changes nothing but the descriptor it may close. -/
theorem onFile_next (s : State) (fi : FiId) (op : FileOp) :
    ∃ fh, next s (.onFile fi op) = hostSet fh none s := by
  cases hfile : s.file fi with
  | none =>
    refine ⟨none, ?_⟩
    simp only [next, noted, reach, hfile, Option.map_none, hostSet]
  | some f =>
    simp only [next, noted, reach, hfile, Option.map_some]
    unfold Exec.final
    cases run : bbOper none (op.call (driverPath f.2) fi) s with
    | error e => exact ⟨none, rfl⟩
    | ok res =>
      rcases fileOp_ok.mp run with ⟨fh, -, -, ht⟩
      cases op with
      | release => exact ⟨fh, ht⟩
      | _ => exact ⟨none, ht⟩

/-- An aligned step leaves every open descriptor on the host path of the file it was given for. -/
theorem next_hostRight {s : State} {e : Event} (h : HostRight s) (aligned : Aligned s e) :
    HostRight (next s e) := by
  cases e with
  | mount m resolved err =>
    by_cases herr : err = 0
    · subst herr
      exact h
    · have hsame : next s (.mount m resolved err) = s := by
        simp only [next, noted, sysioBbfsFsswopMount, if_pos herr]
        rfl
      rw [hsame]
      exact h
  | umount m => exact h
  | onFile fi op =>
    rcases onFile_next s fi op with ⟨fh, hclosed⟩
    rw [hclosed]
    exact h.close fh
  | access m rel op =>
    cases hown : s.source m with
    | none =>
      have hsame : next s (.access m rel op) = s := by
        cases op <;> simp only [next, noted, reach, hown, Option.map_none]
      rw [hsame]
      exact h
    | some o =>
      rcases aligned o hown with ⟨root, rfl, hroot, hfits⟩
      have run := (@pathOp_ok s _ op (driverPath rel) (some (hostPath root rel))).mpr
        ⟨_, rfl, bbFullpath_iff.mpr ⟨rfl, hroot, hfits⟩, rfl⟩
      cases op with
      | open_ flags fi got =>
        intro k p hk
        simp only [next, noted, reach, hown, Option.map_some, Exec.final, run, opened] at hk ⊢
        cases hgot : granted s got with
        | none =>
          simp only [hgot, hostSet] at hk ⊢
          exact h k p hk
        | some n =>
          simp only [hgot, hostSet] at hk ⊢
          by_cases hkn : k = n
          · rw [hkn, Function.update_self] at hk
            rw [hkn, Function.update_self]
            cases hk
            exact ⟨root, rel, rfl, rfl⟩
          · rw [Function.update_of_ne hkn] at hk ⊢
            exact h k p hk
      | _ =>
        simp only [next, noted, reach, hown, Option.map_some, Exec.final, run]
        exact h

theorem right_iff_aligned {s : State} (h : HostRight s) (e : Event) :
    Right s e ↔ Aligned s e := by
  cases e with
  | access m rel op => exact access_right_iff
  | onFile fi op => exact onFile_right_iff h
  | _ => exact Iff.rfl

theorem throughout_iff (events : List Event) (s : State) (h : HostRight s) :
    Throughout Right s events ↔ Throughout Aligned s events := by
  induction events generalizing s with
  | nil => exact Iff.rfl
  | cons e l ih =>
    constructor
    · rintro ⟨hfirst, hrest⟩
      have aligned := (right_iff_aligned h e).mp hfirst
      exact ⟨aligned, (ih _ (next_hostRight h aligned)).mp hrest⟩
    · rintro ⟨aligned, hrest⟩
      exact ⟨(right_iff_aligned h e).mpr aligned, (ih _ (next_hostRight h aligned)).mpr hrest⟩

/-- In a run, all calls below all targets reach the files below their own sources exactly when
each call by path finds the backend's root where its own mount put it, and each call on an open
file finds the descriptor of its open still on the same place. -/
theorem mounts_isolated (events : List Event) :
    Throughout Right initial events ↔ Throughout Aligned initial events := by
  apply throughout_iff
  intro n p hopen
  cases hopen

/-- A second mount takes the first one's files away. -/
theorem second_mount_redirects : ¬ ∀ events, Throughout Right initial events := by
  intro all
  have right := (all [.mount 0 (some [47, 97]) 0, .mount 1 (some [47, 98]) 0,
    .access 0 [⟨[102], by decide⟩] .getattr]).2.2.1
  rcases right (some [47, 97]) rfl with ⟨root, t, hown, run⟩
  rcases Option.some.inj hown with rfl
  rcases pathOp_ok.mp run with ⟨fpath, hpath, hfull, -⟩
  cases hpath
  have hroot := (bbFullpath_iff.mp hfull).2.1
  exact absurd hroot (by decide)

/-- A descriptor that a file has released, and the host has given for a file of another mount since,
takes the first file's calls there. -/
example : (bbOper none (FileOp.call (driverPath [⟨[102], by decide⟩]) 0 (.read 1 0))).value
    ([.mount 0 (some [47, 97]) 0, .access 0 [⟨[102], by decide⟩] (.open_ 0 0 (some 3)),
      .onFile 0 .release, .mount 1 (some [47, 98]) 0,
      .access 1 [⟨[103], by decide⟩] (.open_ 0 1 (some 3))].foldl next initial) =
    some (some [47, 98, 47, 103]) := by
  decide +kernel

end BbfsMounts
