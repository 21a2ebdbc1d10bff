import DirectFuse.IncoreRename
import DirectFuse.NameTree

/-! The names on an incore volume (drivers/incore/fs_incore.c) under any calls of the driver: the
driver's directories are a tree of names, in which the lookups find what the calls put there. -/
namespace IncoreVolume

open ExecLogic ByteRange SysioState SysioNamei FuseDirectory IncoreDirectory IncoreRecords
  IncoreChain IncoreRename NameTree
open FuseRecords (Rec)
open FuseDriver (dotDotName)

section Calls

/-- The inodes of a volume: what is at their addresses, which addresses are in use and which of
those `_sysio_i_find` finds, the next address, and `nxtnum`. -/
structure Volume where
  icinodes : Icinodes
  linked : List ℕ
  table : List ℕ
  next : ℕ
  nxtnum : ℕ

abbrev Vol (α : Type) := Exec Volume Fault α

/-- What the allocations of a call deliver: the inode of the driver, the data of a new directory,
the inode of the library and the data of the parent. -/
structure Memory where
  icino : Bool
  data : Heap
  inode : Bool
  entry : Heap

/-- A call for the inodes. -/
def withInodes {α : Type} (m : Exec Icinodes Fault α) : Vol α := fun v =>
  match m v.icinodes with
  | .ok (r, s) => .ok (r, { v with icinodes := s })
  | .error e => .error e

/-- `incore_inum_alloc`. -/
def incoreInumAlloc : Vol ℕ := do
  let n ← Exec.read fun v => v.nxtnum
  Exec.check .assertion fun _ => decide (n ≠ 0)
  Exec.write fun v => { v with nxtnum := (n + 1) % 2 ^ 64 }
  return n

/-- `incore_i_alloc`, where there is memory. -/
def incoreIAlloc (icino : IncoreInode) : Vol ℕ := do
  let a ← Exec.read fun v => v.next
  Exec.write fun v =>
    { v with
      icinodes := Function.update v.icinodes a icino
      linked := a :: v.linked
      next := a + 1 }
  return a

/-- `incore_i_destroy`. -/
def incoreIDestroy (a : ℕ) : Vol Unit :=
  Exec.write fun v => { v with linked := v.linked.filter (· ≠ a) }

/-- `_sysio_i_new` for what was allocated, where there is memory. -/
def sysioINew (a : ℕ) : Vol Unit := Exec.write fun v => { v with table := a :: v.table }

/-- `_sysio_i_undead`. -/
def sysioIUndead (a : ℕ) : Vol Unit :=
  Exec.write fun v => { v with table := v.table.filter (· ≠ a) }

/-- `_sysio_i_gone`, with what `_sysio_incore_inop_gone` does. -/
def sysioIGone (a : ℕ) : Vol Unit := do
  sysioIUndead a
  incoreIDestroy a

/-- `_sysio_i_find`. -/
def sysioIFind (inum : ℕ) : Vol (Option ℕ) :=
  Exec.read fun v => v.table.find? fun a => (v.icinodes a).stIno = inum

/-- `_sysio_incore_dirop_lookup`: the inode it is handed or finds. -/
def sysioIncoreDiropLookup (parent : ℕ) (name : Bytes) (ino : Option ℕ) : Vol (ℤ × Option ℕ) :=
  match ino with
  | some a => return (0, some a)
  | none => do
    let de ← withInodes (onDir parent (entryNamed name))
    match de with
    | none => return (-ENOENT, none)
    | some d => do
      let found ← sysioIFind d.1
      match found with
      | none => return (-ENOMEM, none)
      | some a => return (0, some a)

/-- `_sysio_incore_dirop_mkdir`. The second result is the inode the path node gets. Where the name
cannot be entered, a null pointer is written through. -/
def sysioIncoreDiropMkdir (e : Memory) (parent : ℕ) (name : Bytes) (mode : ℕ) :
    Vol (ℤ × Option ℕ) := do
  let p ← Exec.read fun v => v.icinodes parent
  if sIsDir p.stMode = false then
    return (-ENOTDIR, none)
  else
    let inum ← incoreInumAlloc
    if e.icino = false then
      return (-ENOSPC, none)
    else
      match incoreDirectoryNew e.data inum p.stIno allocated with
      | .error f => Exec.fault f
      | .ok (false, _) => return (-ENOSPC, none)
      | .ok (true, d) => do
        let a ← incoreIAlloc ⟨inum, S_IFDIR ||| (mode &&& 0o7777), d⟩
        if e.inode = false then
          incoreIDestroy a
          return (-ENOMEM, none)
        else
          sysioINew a
          let err ← withInodes (onDir parent
            (incoreDirectoryInsert e.entry name inum (incoreDTypeof S_IFDIR)))
          if err ≠ 0 then
            Exec.fault .wild
          else
            return (0, some a)

/-- `incore_create`. -/
def incoreCreate (e : Memory) (parent : ℕ) (name : Bytes) (inum mode : ℕ) :
    Vol (ℤ × Option ℕ) := do
  if e.icino = false then
    return (-ENOSPC, none)
  else
    let a ← incoreIAlloc ⟨inum, mode, ⟨[], 0, 1⟩⟩
    if e.inode = false then
      incoreIDestroy a
      return (-ENOMEM, none)
    else
      sysioINew a
      let err ← withInodes (onDir parent
        (incoreDirectoryInsert e.entry name inum (incoreDTypeof mode)))
      if err ≠ 0 then
        sysioIGone a
        return (err, none)
      else
        return (0, some a)

/-- `_sysio_incore_inop_open` of a path node with or without an inode. -/
def sysioIncoreInopOpen (e : Memory) (pno : PathNode) (mode : ℕ) : Vol (ℤ × Option ℕ) :=
  if pno.icino.isSome then
    return (0, pno.icino)
  else do
    let inum ← incoreInumAlloc
    incoreCreate e pno.parent pno.name inum (S_IFREG ||| (mode &&& 0o7777))

/-- `_sysio_incore_dirop_mknod`. From a block device's mode the bit of a character device is
taken, which leaves another one. -/
def sysioIncoreDiropMknod (e : Memory) (parent : ℕ) (name : Bytes) (mode : ℕ) :
    Vol (ℤ × Option ℕ) :=
  let m := mode &&& S_IFMT
  if m = S_IFCHR ∨ m = S_IFIFO then do
    let inum ← incoreInumAlloc
    incoreCreate e parent name inum mode
  else
    return (-EINVAL, none)

def EMLINK : ℤ := 31

/-- `_sysio_incore_dirop_link` of an inode under a name that has none. -/
def sysioIncoreDiropLink (h : Heap) (old parent : ℕ) (name : Bytes) : Vol ℤ := do
  let icino ← Exec.read fun v => v.icinodes old
  Exec.check .assertion fun _ => !sIsDir icino.stMode
  if (icino.dir.nlink + 1) % 2 ^ 64 = 0 then
    return -EMLINK
  else
    let err ← withInodes (onDir parent
      (incoreDirectoryInsert h name icino.stIno (incoreDTypeof icino.stMode)))
    if err ≠ 0 then
      return err
    else
      withInodes (onDir old (Exec.write fun d => { d with nlink := d.nlink + 1 }))
      return 0

/-- `_sysio_incore_dirop_unlink`. The link count of the inode stays. -/
def sysioIncoreDiropUnlink (parent : ℕ) (name : Bytes) (ino : ℕ) : Vol ℤ := do
  let icino ← Exec.read fun v => v.icinodes ino
  if sIsDir icino.stMode = true then
    return -EISDIR
  else
    let p ← Exec.read fun v => v.icinodes parent
    withInodes (onDir parent (incoreUnlinkEntry p.stMode name))

/-- The names `_sysio_incore_dirop_rmdir` refuses. -/
def refusedName : Bytes → Bool
  | [] => true
  | [a] => decide (a = DOT)
  | [a, b] => decide (a = DOT ∧ b = DOT)
  | _ => false

/-- `_sysio_incore_dirop_rmdir`. -/
def sysioIncoreDiropRmdir (parent : ℕ) (name : Bytes) (ino : ℕ) : Vol ℤ := do
  let icino ← Exec.read fun v => v.icinodes ino
  if refusedName name = true then
    return -EINVAL
  else if sIsDir icino.stMode = false then
    return -ENOTDIR
  else if 2 < icino.dir.nlink then
    return -ENOTEMPTY
  else
    let p ← Exec.read fun v => v.icinodes parent
    withInodes (onDir parent (incoreUnlinkEntry p.stMode name))

/-- The calls of the driver for a volume, the two parts of `I_GONE`, the second for when nothing
refers to the inode, and a call for another volume that takes a number. -/
inductive Call where
  | mkdir (e : Memory) (parent : ℕ) (name : Bytes) (mode : ℕ)
  | create (e : Memory) (parent : ℕ) (name : Bytes) (mode : ℕ)
  | mknod (e : Memory) (parent : ℕ) (name : Bytes) (mode : ℕ)
  | link (h : Heap) (old parent : ℕ) (name : Bytes)
  | unlink (parent : ℕ) (name : Bytes) (ino : ℕ)
  | rmdir (parent : ℕ) (name : Bytes) (ino : ℕ)
  | rename (h : Heap) (old new : PathNode)
  | undead (ino : ℕ)
  | gone (ino : ℕ)
  | elsewhere

def step : Call → Vol (ℤ × Option ℕ)
  | .mkdir e parent name mode => sysioIncoreDiropMkdir e parent name mode
  | .create e parent name mode => sysioIncoreInopOpen e ⟨parent, name, none⟩ mode
  | .mknod e parent name mode => sysioIncoreDiropMknod e parent name mode
  | .link h old parent name => (·, none) <$> sysioIncoreDiropLink h old parent name
  | .unlink parent name ino => (·, none) <$> sysioIncoreDiropUnlink parent name ino
  | .rmdir parent name ino => (·, none) <$> sysioIncoreDiropRmdir parent name ino
  | .rename h old new => (·, none) <$> withInodes (sysioIncoreDiropRename h old new)
  | .undead ino => (fun _ => (0, none)) <$> sysioIUndead ino
  | .gone ino => (fun _ => (0, none)) <$> sysioIGone ino
  | .elsewhere => do
    let _ ← incoreInumAlloc
    return (0, none)

/-- A volume with the root that `_sysio_incore_fsswop_mount` makes, where there is memory. -/
def mounted (n mode : ℕ) (root : Directory) : Volume where
  icinodes _ := ⟨n, S_IFDIR ||| (mode &&& 0o7777), root⟩
  linked := [0]
  table := [0]
  next := 1
  nxtnum := (n + 1) % 2 ^ 64

end Calls

section Asked

structure Plain (name : Bytes) : Prop where
  string : 0 ∉ name
  usual : name ∉ [[DOT], dotDotName]

def typeOf (v : Volume) (a : ℕ) : ℕ := (incoreDTypeof (v.icinodes a).stMode).toNat

def IsDir (v : Volume) (a : ℕ) : Prop := a ∈ v.linked ∧ sIsDir (v.icinodes a).stMode = true

/-- A lookup in the data of a directory. -/
def Finds (v : Volume) (a : ℕ) (name : Bytes) (found : Option (ℕ × ℕ)) : Prop :=
  Entry (v.icinodes a).dir name found

/-- A new name can be entered. -/
def Enters (v : Volume) (a : ℕ) (name : Bytes) : Prop :=
  IsDir v a ∧ Plain name ∧ name.length ≤ 255 ∧ Finds v a name none

/-- The name leads to the inode. -/
def LeadsTo (v : Volume) (a : ℕ) (name : Bytes) (b : ℕ) : Prop :=
  Finds v a name (some ((v.icinodes b).stIno, typeOf v b))

/-- What the layer above sees to: a name is looked up first, files are linked, and directories are
not renamed, which fails at an assertion. -/
def Asked (v : Volume) : Call → Prop
  | .mkdir _ parent name _ | .create _ parent name _ | .mknod _ parent name _ =>
    Enters v parent name
  | .link _ old parent name => (old ∈ v.linked ∧ ¬ IsDir v old) ∧ Enters v parent name
  | .unlink parent name ino | .rmdir parent name ino => IsDir v parent ∧ Plain name ∧
    ino ∈ v.linked ∧ LeadsTo v parent name ino
  | .rename _ old new => (∃ i, old.icino = some i ∧ (i ∈ v.linked ∧ ¬ IsDir v i) ∧
      LeadsTo v old.parent old.name i) ∧
    (IsDir v old.parent ∧ Plain old.name) ∧
    (old.parent, old.name) ≠ (new.parent, new.name) ∧
    (IsDir v new.parent ∧ Plain new.name ∧ new.name.length ≤ 255) ∧
    (new.icino = none → Finds v new.parent new.name none) ∧
    ∀ t, new.icino = some t → t ∈ v.linked ∧ LeadsTo v new.parent new.name t
  | .undead ino | .gone ino => ino ∈ v.linked
  | .elsewhere => True

/-- What a call is to do to the names. -/
def changeOf (v : Volume) (c : Call) (r : ℤ) : Change Bytes ℕ :=
  if r ≠ 0 then .same
  else
    match c with
    | .mkdir _ parent name _ => .make v.nxtnum 4 (v.icinodes parent).stIno name
    | .create _ parent name _ => .make v.nxtnum 8 (v.icinodes parent).stIno name
    | .mknod _ parent name mode =>
      .make v.nxtnum (incoreDTypeof mode).toNat (v.icinodes parent).stIno name
    | .link _ old parent name => .bind (v.icinodes parent).stIno name (v.icinodes old).stIno
    | .unlink parent name _ | .rmdir parent name _ => .unbind (v.icinodes parent).stIno name
    | .rename _ old new =>
      .move (v.icinodes old.parent).stIno old.name (v.icinodes new.parent).stIno new.name
    | .undead _ | .gone _ | .elsewhere => .same

/-- The tree of names that calls with their results build. -/
def replay (start : Tree Bytes ℕ) :
    List (ExecLogic.Event Volume Call (ℤ × Option ℕ)) → Tree Bytes ℕ
  | [] => start
  | e :: h => (replay start h).apply (changeOf e.before e.call e.result.1)

/-- The volume holds the tree. -/
structure Shows (v : Volume) (t : Tree Bytes ℕ) : Prop where
  fresh : ∀ a ∈ v.linked, a < v.next
  counter : v.nxtnum < 2 ^ 64
  number : ∀ i, t.kind i ≠ none → i < 2 ^ 64 ∧ (v.nxtnum ≠ 0 → i < v.nxtnum)
  one : ∀ a ∈ v.linked, ∀ b ∈ v.linked, (v.icinodes a).stIno = (v.icinodes b).stIno → a = b
  table : ∀ a ∈ v.table, a ∈ v.linked
  kind : ∀ a ∈ v.linked, t.kind (v.icinodes a).stIno = some (typeOf v a)
  dir : ∀ a, IsDir v a → IsDirectory (v.icinodes a).dir
  names : ∀ a, IsDir v a → ∀ name, Plain name → Finds v a name
    ((t.find ((v.icinodes a).stIno, name)).map fun i => (i, (t.kind i).getD 0))
  up : ∀ a, IsDir v a → Finds v a dotDotName (some (t.up (v.icinodes a).stIno, 4))
  holds : ∀ p n i, t.find (p, n) = some i → t.kind p = some 4 ∧ Plain n
  tree : t.Sound 4

end Asked

section Types

variable {mode : ℕ}

theorem masked (mode : ℕ) : mode &&& S_IFMT = ((mode >>> 12) &&& 15) <<< 12 := by
  apply Nat.eq_of_testBit_eq
  intro j
  rw [show S_IFMT = 15 <<< 12 from rfl, Nat.testBit_and, Nat.testBit_shiftLeft,
    Nat.testBit_shiftLeft, Nat.testBit_and, Nat.testBit_shiftRight]
  by_cases hj : 12 ≤ j
  · rw [Nat.add_sub_cancel' hj]
    cases mode.testBit j <;> simp [hj]
  · simp [hj]

theorem typeOf_eq (mode : ℕ) : (incoreDTypeof mode).toNat = (mode >>> 12) &&& 15 := by
  have small : (mode >>> 12) &&& 15 ≤ 15 := Nat.and_le_right
  unfold incoreDTypeof
  rw [masked, Nat.shiftLeft_shiftRight, UInt8.toNat_ofNat']
  omega

theorem isDir_iff : sIsDir mode = true ↔ (incoreDTypeof mode).toNat = 4 := by
  constructor
  · intro h
    have both : mode &&& S_IFMT = S_IFDIR := by simpa [sIsDir] using h
    unfold incoreDTypeof
    rw [both]
    rfl
  · intro h
    have both : mode &&& S_IFMT = S_IFDIR := by
      rw [masked, ← typeOf_eq, h]
      rfl
    simp [sIsDir, both]

/-- The permissions of a new inode are not its type. -/
theorem typed (type : ℕ) (h : type &&& S_IFMT = type) :
    (type ||| (mode &&& 0o7777)) &&& S_IFMT = type := by
  have low : (mode &&& 0o7777) &&& S_IFMT = 0 := by
    rw [Nat.and_assoc]
    exact Nat.and_zero mode
  rw [Nat.and_or_distrib_right, h, low, Nat.or_zero]

end Types

section Runs

variable {v w : Volume} {t : Tree Bytes ℕ} {s s' : Icinodes} {d d' : Directory} {name : Bytes}
  {a p : ℕ} {r : ℤ}

theorem withInodes_ok {α : Type} {m : Exec Icinodes Fault α} {x : α} :
    withInodes m v = .ok (x, w) ↔ ∃ s, m v.icinodes = .ok (x, s) ∧ { v with icinodes := s } = w := by
  unfold withInodes
  cases m v.icinodes with
  | error e => simp
  | ok res =>
    obtain ⟨y, u⟩ := res
    simp [and_assoc]

theorem onDir_ok {α : Type} {m : Fd α} {x : α} :
    onDir a m s = .ok (x, s') ↔ ∃ d, m (s a).dir = .ok (x, d) ∧ setDir s a d = s' := by
  unfold onDir
  cases m (s a).dir with
  | error e => simp
  | ok res =>
    obtain ⟨y, u⟩ := res
    simp [and_assoc]

/-- An insertion of a name that is free leaves the directory alone, or enters the name. -/
theorem insert_cases {h : Heap} {inum : ℕ} {type : UInt8} (dir : IsDirectory d)
    (free : Entry d name none) (plain : Plain name) (short : name.length ≤ 255)
    (run : incoreDirectoryInsert h name inum type d = .ok (r, d')) :
    r ≠ 0 ∧ d' = d ∨ r = 0 ∧ IsDirectory d' ∧
      Entry d' name (some (inum % 2 ^ 64, type.toNat)) ∧
      ∀ n e, n ≠ name → Entry d n e → Entry d' n e := by
  rcases dir with ⟨rs, list⟩
  have absent := find_absent list free
  rcases @Listing.insert h d rs name inum type list short plain.string with
    ⟨ret, hret, run'⟩ | ⟨mid, last, rfl, -, run', list'⟩
  · rcases Prod.mk.inj (Except.ok.inj (run.symm.trans run')) with ⟨rfl, rfl⟩
    exact Or.inl ⟨hret, rfl⟩
  · rcases Prod.mk.inj (Except.ok.inj (run.symm.trans run')) with ⟨rfl, rfl⟩
    have scan := @FuseRecords.newRec_scan name inum type (newEnd d mid last name) plain.string
    have split : mid ++ [last, FuseRecords.newRec name inum (newEnd d mid last name) type] =
        (mid ++ [last]) ++ [FuseRecords.newRec name inum (newEnd d mid last name) type] := by simp
    refine Or.inr ⟨rfl, ⟨_, list'⟩, ?_, ?_⟩
    · have entry := entry_find list' name
      rw [inserted, find_patched, split, find_skip absent, find_cons, if_pos scan] at entry
      exact entry
    · intro n e hn before
      have entry := entry_find list' n
      have other : (FuseRecords.newRec name inum (newEnd d mid last name) type).scan ≠ n := by
        rw [scan]
        exact hn.symm
      rw [inserted, find_patched, split, find_other other, List.append_nil,
        (entry_find list n).unique before] at entry
      exact entry

theorem IsDir.kind (shows : Shows v t) (dir : IsDir v a) :
    t.kind (v.icinodes a).stIno = some 4 := by
  rw [shows.kind a dir.1, typeOf, isDir_iff.mp dir.2]

/-- The tree of a volume with no other inodes than before, and these as they were, but for the
data of files. -/
theorem Shows.congr (shows : Shows v t) (linked : ∀ b ∈ w.linked, b ∈ v.linked)
    (next : v.next ≤ w.next)
    (nxtnum : w.nxtnum < 2 ^ 64 ∧ (w.nxtnum ≠ 0 → v.nxtnum ≠ 0 ∧ v.nxtnum ≤ w.nxtnum))
    (table : ∀ b ∈ w.table, b ∈ w.linked)
    (attrs : ∀ b ∈ v.linked, (w.icinodes b).stIno = (v.icinodes b).stIno ∧
      (w.icinodes b).stMode = (v.icinodes b).stMode)
    (dirs : ∀ b, IsDir v b → (w.icinodes b).dir = (v.icinodes b).dir) : Shows w t := by
  have dir : ∀ b, IsDir w b → IsDir v b := by
    intro b hb
    have hlinked := linked b hb.1
    exact ⟨hlinked, (attrs b hlinked).2 ▸ hb.2⟩
  constructor
  · intro b hb
    exact Nat.lt_of_lt_of_le (shows.fresh b (linked b hb)) next
  · exact nxtnum.1
  · intro i hi
    obtain ⟨small, below⟩ := shows.number i hi
    refine ⟨small, ?_⟩
    intro counting
    obtain ⟨counted, le⟩ := nxtnum.2 counting
    exact Nat.lt_of_lt_of_le (below counted) le
  · intro b hb c hc same
    have hb := linked b hb
    have hc := linked c hc
    rw [(attrs b hb).1, (attrs c hc).1] at same
    exact shows.one b hb c hc same
  · exact table
  · intro b hb
    have old := attrs b (linked b hb)
    rw [old.1, typeOf, old.2]
    exact shows.kind b (linked b hb)
  · intro b hb
    rw [dirs b (dir b hb)]
    exact shows.dir b (dir b hb)
  · intro b hb n hn
    unfold Finds
    rw [dirs b (dir b hb), (attrs b (dir b hb).1).1]
    exact shows.names b (dir b hb) n hn
  · intro b hb
    unfold Finds
    rw [dirs b (dir b hb), (attrs b (dir b hb).1).1]
    exact shows.up b (dir b hb)
  · exact shows.holds
  · exact shows.tree

/-- One name is bound anew. -/
theorem Shows.rebind (shows : Shows v t) (dir : IsDir v p) (plain : Plain name) {i : Option ℕ}
    (sets : Sets v.icinodes s' p name (i.map fun j => (j, (t.kind j).getD 0)))
    (tree : (t.bind (v.icinodes p).stIno name i).Sound 4) :
    Shows { v with icinodes := s' } (t.bind (v.icinodes p).stIno name i) := by
  have back : ∀ b, IsDir { v with icinodes := s' } b → IsDir v b :=
    fun b hb => ⟨hb.1, (sets.attrs b).2 ▸ hb.2⟩
  have dots : dotDotName ≠ name := by
    rintro rfl
    exact plain.usual (by simp)
  constructor
  · exact shows.fresh
  · exact shows.counter
  · exact shows.number
  · intro b hb c hc same
    rw [(sets.attrs b).1, (sets.attrs c).1] at same
    exact shows.one b hb c hc same
  · exact shows.table
  · intro b hb
    rw [(sets.attrs b).1, typeOf, (sets.attrs b).2]
    exact shows.kind b hb
  · intro b hb
    exact sets.directories (shows.dir b (back b hb))
  · intro b hb n hn
    have old := shows.names b (back b hb) n hn
    unfold Finds at old ⊢
    by_cases here : (b, n) = (p, name)
    · obtain ⟨rfl, rfl⟩ := Prod.mk.inj here
      simpa [Tree.bind, (sets.attrs b).1] using sets.now
    · have apart : ((v.icinodes b).stIno, n) ≠ ((v.icinodes p).stIno, name) := by
        intro same
        obtain ⟨number, rfl⟩ := Prod.mk.inj same
        exact here (by rw [shows.one b (back b hb).1 p dir.1 number])
      rw [(sets.attrs b).1]
      simp only [Tree.bind, Function.update_of_ne apart]
      exact sets.keeps here old
  · intro b hb
    have old := shows.up b (back b hb)
    unfold Finds at old ⊢
    rw [(sets.attrs b).1]
    apply sets.keeps _ old
    intro same
    exact dots (Prod.mk.inj same).2
  · intro q n j hj
    by_cases here : (q, n) = ((v.icinodes p).stIno, name)
    · obtain ⟨rfl, rfl⟩ := Prod.mk.inj here
      have kind := dir.kind shows
      exact ⟨kind, plain⟩
    · simp only [Tree.bind, Function.update_of_ne here] at hj
      exact shows.holds q n j hj
  · exact tree

/-- The volume with one more inode. -/
def born (v : Volume) (icino : IncoreInode) : Volume :=
  { v with
    icinodes := Function.update v.icinodes v.next icino
    linked := v.next :: v.linked
    table := v.next :: v.table
    next := v.next + 1 }

/-- A new inode, to which no name leads yet. -/
theorem Shows.adds (shows : Shows v t) {icino : IncoreInode} {u : ℕ}
    (new : t.kind icino.stIno = none)
    (number : icino.stIno < 2 ^ 64 ∧ (v.nxtnum ≠ 0 → icino.stIno < v.nxtnum))
    (empty : sIsDir icino.stMode = true → IsDirectory icino.dir ∧
      (∀ n, Plain n → Entry icino.dir n none) ∧ Entry icino.dir dotDotName (some (u, 4))) :
    Shows (born v icino)
      { t with
        kind := Function.update t.kind icino.stIno (some (incoreDTypeof icino.stMode).toNat)
        up := Function.update t.up icino.stIno u } := by
  have old : ∀ b ∈ v.linked, (born v icino).icinodes b = v.icinodes b :=
    fun b hb => Function.update_of_ne (Nat.ne_of_lt (shows.fresh b hb)) _ _
  have newest : (born v icino).icinodes v.next = icino := Function.update_self _ _ _
  have unused : ∀ b ∈ v.linked, (v.icinodes b).stIno ≠ icino.stIno := by
    intro b hb same
    have known := shows.kind b hb
    rw [same, new] at known
    exact Option.some_ne_none _ known.symm
  have unnamed : ∀ x, t.find x ≠ some icino.stIno :=
    fun x h => shows.tree.known x _ h new
  have empty_ : ∀ n, t.find (icino.stIno, n) = none := by
    intro n
    by_contra bound
    obtain ⟨j, hj⟩ := Option.ne_none_iff_exists'.mp bound
    rw [(shows.holds _ n j hj).1] at new
    exact Option.some_ne_none _ new
  have dirs : ∀ b, IsDir (born v icino) b → b = v.next ∧ sIsDir icino.stMode = true ∨
        b ∈ v.linked ∧ IsDir v b := by
    rintro b ⟨linked, mode⟩
    rcases List.mem_cons.mp linked with rfl | hb
    · rw [newest] at mode
      exact Or.inl ⟨rfl, mode⟩
    · right
      rw [old b hb] at mode
      exact ⟨hb, hb, mode⟩
  constructor
  · intro b hb
    rcases List.mem_cons.mp hb with rfl | hb
    · exact Nat.lt_succ_self _
    · exact Nat.lt_succ_of_lt (shows.fresh b hb)
  · exact shows.counter
  · intro i hi
    by_cases same : i = icino.stIno
    · rw [same]
      exact number
    · simp only [Function.update_of_ne same] at hi
      exact shows.number i hi
  · intro b hb c hc same
    rcases List.mem_cons.mp hb with rfl | hb
    · rcases List.mem_cons.mp hc with rfl | hc
      · rfl
      · rw [old c hc, newest] at same
        exact absurd same.symm (unused c hc)
    · rcases List.mem_cons.mp hc with rfl | hc
      · rw [old b hb, newest] at same
        exact absurd same (unused b hb)
      · rw [old b hb, old c hc] at same
        exact shows.one b hb c hc same
  · intro b hb
    rcases List.mem_cons.mp hb with rfl | hb
    · exact List.mem_cons_self
    · exact List.mem_cons_of_mem _ (shows.table b hb)
  · intro b hb
    rcases List.mem_cons.mp hb with rfl | hb
    · simp [typeOf, newest]
    · simp only [typeOf, old b hb, Function.update_of_ne (unused b hb)]
      exact shows.kind b hb
  · intro b hb
    rcases dirs b hb with ⟨rfl, isDir⟩ | ⟨hb, isDir⟩
    · rw [newest]
      exact (empty isDir).1
    · rw [old b hb]
      exact shows.dir b isDir
  · intro b hb n hn
    rcases dirs b hb with ⟨rfl, isDir⟩ | ⟨hb, isDir⟩
    · simpa [Finds, newest, empty_] using (empty isDir).2.1 n hn
    · have before := shows.names b isDir n hn
      unfold Finds at before ⊢
      rw [old b hb]
      cases found : t.find ((v.icinodes b).stIno, n) with
      | none => simpa [found] using before
      | some j =>
        have other : j ≠ icino.stIno := by
          rintro rfl
          exact unnamed _ found
        simpa [found, Function.update_of_ne other] using before
  · intro b hb
    rcases dirs b hb with ⟨rfl, isDir⟩ | ⟨hb, isDir⟩
    · simpa [Finds, newest] using (empty isDir).2.2
    · have before := shows.up b isDir
      unfold Finds at before ⊢
      simp only [old b hb, Function.update_of_ne (unused b hb)]
      exact before
  · intro q n j hj
    obtain ⟨kind, plain⟩ := shows.holds q n j hj
    have other : q ≠ icino.stIno := by
      rintro rfl
      rw [new] at kind
      exact Option.some_ne_none _ kind.symm
    refine ⟨?_, plain⟩
    simp only [Function.update_of_ne other, kind]
  · exact shows.tree.grow new

theorem map_ok {σ ε α β : Type} {f : α → β} {m : Exec σ ε α} {x y : σ} {b : β} :
    (f <$> m) x = .ok (b, y) ↔ ∃ a, m x = .ok (a, y) ∧ f a = b := by
  rw [map_eq_pure_bind, bind_ok]
  constructor
  · rintro ⟨a, u, run, last⟩
    obtain ⟨rfl, rfl⟩ := pure_ok.mp last
    exact ⟨a, run, rfl⟩
  · rintro ⟨a, run, rfl⟩
    exact ⟨a, y, run, rfl⟩

theorem incoreInumAlloc_ok {n : ℕ} (run : incoreInumAlloc v = .ok (n, w)) :
    n = v.nxtnum ∧ n ≠ 0 ∧ { v with nxtnum := (n + 1) % 2 ^ 64 } = w := by
  obtain ⟨k, u, hread, run⟩ := bind_ok.mp run
  obtain ⟨rfl, rfl⟩ := read_ok.mp hread
  obtain ⟨_, u, hcheck, run⟩ := bind_ok.mp run
  obtain ⟨nonzero, rfl⟩ := check_ok.mp hcheck
  obtain ⟨_, u, hwrite, run⟩ := bind_ok.mp run
  obtain rfl := write_ok.mp hwrite
  obtain ⟨rfl, rfl⟩ := pure_ok.mp run
  exact ⟨rfl, of_decide_eq_true nonzero, rfl⟩

/-- The volume with a number taken. -/
def counted (v : Volume) : Volume := { v with nxtnum := (v.nxtnum + 1) % 2 ^ 64 }

/-- A number that is taken was nobody's. -/
theorem Shows.counts (shows : Shows v t) (nonzero : v.nxtnum ≠ 0) :
    Shows (counted v) t ∧ t.kind v.nxtnum = none := by
  have small := shows.counter
  constructor
  · apply shows.congr
    · exact fun b hb => hb
    · exact Nat.le_refl _
    · refine ⟨Nat.mod_lt _ (by decide), ?_⟩
      intro counting
      simp only [counted] at counting ⊢
      omega
    · exact shows.table
    · exact fun b _ => ⟨rfl, rfl⟩
    · exact fun b _ => rfl
  · by_contra known
    exact Nat.lt_irrefl _ ((shows.number _ known).2 nonzero)

/-- A new name for a new inode, made in a directory. -/
theorem Shows.make (shows : Shows v t) (nonzero : v.nxtnum ≠ 0) (enters : Enters v p name)
    (icino : IncoreInode) (number : icino.stIno = v.nxtnum)
    (empty : sIsDir icino.stMode = true → IsDirectory icino.dir ∧
      (∀ n, Plain n → Entry icino.dir n none) ∧
      Entry icino.dir dotDotName (some ((v.icinodes p).stIno, 4)))
    {h : Heap} {s : Icinodes}
    (run : onDir p (incoreDirectoryInsert h name v.nxtnum (incoreDTypeof icino.stMode))
      (born (counted v) icino).icinodes = .ok (r, s)) :
    r ≠ 0 ∧ s = (born (counted v) icino).icinodes ∨
    r = 0 ∧ Shows { born (counted v) icino with icinodes := s }
      (t.apply (.make v.nxtnum (incoreDTypeof icino.stMode).toNat (v.icinodes p).stIno name)) := by
  obtain ⟨dir, plain, short, free⟩ := enters
  obtain ⟨shows', new⟩ := shows.counts nonzero
  have small := shows.counter
  have unknown : t.kind icino.stIno = none := by
    rw [number]
    exact new
  have fits : icino.stIno < 2 ^ 64 ∧ ((counted v).nxtnum ≠ 0 → icino.stIno < (counted v).nxtnum) := by
    rw [number]
    simp only [counted]
    omega
  have grown := shows'.adds unknown fits empty
  have apart : p ≠ v.next := Nat.ne_of_lt (shows.fresh p dir.1)
  have same : (born (counted v) icino).icinodes p = v.icinodes p := by
    change Function.update v.icinodes v.next icino p = v.icinodes p
    rw [Function.update_of_ne apart]
  obtain ⟨d, inserted, rfl⟩ := onDir_ok.mp run
  rw [same] at inserted
  rcases insert_cases (shows.dir p dir) free plain short inserted with
    ⟨hr, rfl⟩ | ⟨rfl, dir', now, others⟩
  · left
    refine ⟨hr, ?_⟩
    unfold setDir
    rw [same]
    have self : { v.icinodes p with dir := (v.icinodes p).dir } =
      (born (counted v) icino).icinodes p := same.symm
    rw [self]
    exact Function.update_eq_self p (born (counted v) icino).icinodes
  · right
    refine ⟨rfl, ?_⟩
    rw [Nat.mod_eq_of_lt small] at now
    let t' : Tree Bytes ℕ := { t with
      kind := Function.update t.kind icino.stIno (some (incoreDTypeof icino.stMode).toNat)
      up := Function.update t.up icino.stIno (v.icinodes p).stIno }
    have isDir : IsDir (born (counted v) icino) p := by
      refine ⟨List.mem_cons_of_mem _ dir.1, ?_⟩
      rw [same]
      exact dir.2
    have known : t'.kind v.nxtnum = some (incoreDTypeof icino.stMode).toNat := by
      simp [t', number]
    have sets : Sets (born (counted v) icino).icinodes
        (setDir (born (counted v) icino).icinodes p d) p name
        ((some v.nxtnum).map fun j => (j, (t'.kind j).getD 0)) := by
      rw [Option.map_some, known]
      apply sets_setDir dir' now
      intro n e hn before
      rw [same] at before
      exact others n e hn before
    have shape : t'.bind ((born (counted v) icino).icinodes p).stIno name (some v.nxtnum) =
        t.apply (.make v.nxtnum (incoreDTypeof icino.stMode).toNat (v.icinodes p).stIno name) := by
      rw [same]
      simp [Tree.bind, Tree.apply, t', number]
    have known' : t.kind (v.icinodes p).stIno ≠ none := by
      rw [dir.kind shows]
      exact Option.some_ne_none 4
    have older : (v.icinodes p).stIno < v.nxtnum := (shows.number _ known').2 nonzero
    have tree := shows.tree.make (n := name) (k := (incoreDTypeof icino.stMode).toNat) older new
    rw [← shape] at tree ⊢
    exact grown.rebind isDir plain sets tree

/-- The inode that was made, where no name came to lead to it. -/
theorem Shows.forgets (shows : Shows v t) (nonzero : v.nxtnum ≠ 0) {icino : IncoreInode}
    {table : List ℕ} (table_ : ∀ b ∈ table, b ∈ v.linked) :
    Shows { born (counted v) icino with
      linked := (v.next :: v.linked).filter (· ≠ v.next)
      table := table } t := by
  obtain ⟨shows', -⟩ := shows.counts nonzero
  have apart : ∀ b ∈ v.linked, b ≠ v.next := fun b hb => Nat.ne_of_lt (shows.fresh b hb)
  have same : ∀ b ∈ v.linked, (born (counted v) icino).icinodes b = v.icinodes b := by
    intro b hb
    change Function.update v.icinodes v.next icino b = v.icinodes b
    rw [Function.update_of_ne (apart b hb)]
  apply shows'.congr
  · intro b hb
    obtain ⟨hb, hne⟩ := List.mem_filter.mp hb
    rcases List.mem_cons.mp hb with rfl | hb
    · simp at hne
    · exact hb
  · exact Nat.le_succ v.next
  · exact ⟨shows'.counter, fun counting => ⟨counting, Nat.le_refl _⟩⟩
  · intro b hb
    have hb := table_ b hb
    apply List.mem_filter.mpr
    exact ⟨List.mem_cons_of_mem _ hb, by simpa using apart b hb⟩
  · intro b hb
    exact ⟨congrArg _ (same b hb), congrArg _ (same b hb)⟩
  · intro b hb
    exact congrArg _ (same b hb.1)

/-- The two records of a new directory. -/
theorem incoreDirectoryNew_ok {h : Heap} {ino parent : ℕ}
    (run : incoreDirectoryNew h ino parent allocated = .ok (true, d)) :
    IsDirectory d ∧ (∀ n, Plain n → Entry d n none) ∧
      Entry d dotDotName (some (parent % 2 ^ 64, 4)) := by
  rw [incoreDirectoryNew_eq] at run
  by_cases got : h.got = true
  · rw [FuseRecords.fuseDirectoryNew_run got] at run
    obtain ⟨-, rfl⟩ := Prod.mk.inj (Except.ok.inj run)
    have list := listing_new ino parent
    have first : (FuseRecords.dotRec ino).scan = [DOT] :=
      (by decide : ([DOT, 0, 0, 0, 0] : Bytes).takeWhile (· ≠ 0) = [DOT])
    have second : (FuseRecords.dotDotRec parent).scan = dotDotName :=
      (by decide : (dotDotName ++ [0, 0]).takeWhile (· ≠ 0) = dotDotName)
    refine ⟨⟨_, list⟩, ?_, ?_⟩
    · intro n plain
      have entry := entry_find list n
      have hdot : (FuseRecords.dotRec ino).scan ≠ n := by
        rw [first]
        rintro rfl
        exact plain.usual (by simp)
      have hdots : (FuseRecords.dotDotRec parent).scan ≠ n := by
        rw [second]
        rintro rfl
        exact plain.usual (by simp)
      rw [find_cons, if_neg hdot, find_cons, if_neg hdots] at entry
      exact entry
    · have entry := entry_find list dotDotName
      have apart : (FuseRecords.dotRec ino).scan ≠ dotDotName := by
        rw [first]
        decide
      rw [find_cons, if_neg apart, find_cons, if_pos second] at entry
      exact entry
  · have full := @FuseRecords.fuseTrunc_full h allocated fuseDirTemplate.length
      (fun hfull => got hfull.1) (by decide) true
    rw [fuseDirectoryNew, bind_run full, if_pos (by decide)] at run
    obtain ⟨failed, -⟩ := pure_ok.mp run
    exact absurd failed (by decide)

end Runs

section Steps

variable {v w : Volume} {t : Tree Bytes ℕ} {name : Bytes} {p : ℕ} {r : ℤ} {made : Option ℕ}
  {e : Memory}

/-- What a call leaves behind: the tree it found, or after a success the changed one. -/
def Leaves (t : Tree Bytes ℕ) (c : Change Bytes ℕ) (r : ℤ) (w : Volume) : Prop :=
  r ≠ 0 ∧ Shows w t ∨ r = 0 ∧ Shows w (t.apply c)

theorem incoreIAlloc_run (icino : IncoreInode) :
    incoreIAlloc icino v = .ok (v.next, { born v icino with table := v.table }) := rfl

theorem mkdir_leaves {mode : ℕ} (shows : Shows v t) (enters : Enters v p name)
    (run : sysioIncoreDiropMkdir e p name mode v = .ok ((r, made), w)) :
    Leaves t (.make v.nxtnum 4 (v.icinodes p).stIno name) r w := by
  obtain ⟨_, u, hread, run⟩ := bind_ok.mp run
  obtain ⟨rfl, rfl⟩ := read_ok.mp hread
  have isDir : ¬ sIsDir (v.icinodes p).stMode = false := by
    rw [enters.1.2]
    decide
  rw [if_neg isDir] at run
  obtain ⟨inum, u, taken, run⟩ := bind_ok.mp run
  obtain ⟨rfl, nonzero, rfl⟩ := incoreInumAlloc_ok taken
  have shows' := (shows.counts nonzero).1
  by_cases full : e.icino = false
  · rw [if_pos full] at run
    obtain ⟨⟨rfl, rfl⟩, rfl⟩ := pure_ok.mp run
    exact Or.inl ⟨by decide, shows'⟩
  · rw [if_neg full] at run
    cases data : incoreDirectoryNew e.data v.nxtnum (v.icinodes p).stIno allocated with
    | error f =>
      rw [data] at run
      exact (fault_ok.mp run).elim
    | ok res =>
      obtain ⟨got, d⟩ := res
      rw [data] at run
      cases got with
      | false =>
        obtain ⟨⟨rfl, rfl⟩, rfl⟩ := pure_ok.mp run
        exact Or.inl ⟨by decide, shows'⟩
      | true =>
        have type : incoreDTypeof (S_IFDIR ||| (mode &&& 0o7777)) = incoreDTypeof S_IFDIR := by
          unfold incoreDTypeof
          rw [typed S_IFDIR (by decide)]
          rfl
        dsimp only at run
        generalize S_IFDIR ||| (mode &&& 0o7777) = m at run type
        rw [bind_run (incoreIAlloc_run _)] at run
        by_cases alone : e.inode = false
        · rw [if_pos alone] at run
          obtain ⟨_, u, destroyed, run⟩ := bind_ok.mp run
          obtain rfl := write_ok.mp destroyed
          obtain ⟨⟨rfl, rfl⟩, rfl⟩ := pure_ok.mp run
          exact Or.inl ⟨by decide, shows.forgets nonzero shows.table⟩
        · rw [if_neg alone] at run
          obtain ⟨_, u, entered, run⟩ := bind_ok.mp run
          obtain rfl := write_ok.mp entered
          obtain ⟨err, u, insertion, run⟩ := bind_ok.mp run
          obtain ⟨s, inserted, rfl⟩ := withInodes_ok.mp insertion
          have parent : (v.icinodes p).stIno < 2 ^ 64 := by
            apply (shows.number _ _).1
            rw [enters.1.kind shows]
            exact Option.some_ne_none 4
          have new := incoreDirectoryNew_ok data
          rw [Nat.mod_eq_of_lt parent] at new
          rw [← type] at inserted
          rcases shows.make nonzero enters ⟨v.nxtnum, m, d⟩ rfl (fun _ => new) inserted with ⟨hr, -⟩ | ⟨rfl, after⟩
          · rw [if_pos hr] at run
            exact (fault_ok.mp run).elim
          · rw [if_neg (by decide)] at run
            obtain ⟨⟨rfl, rfl⟩, rfl⟩ := pure_ok.mp run
            rw [type] at after
            exact Or.inr ⟨rfl, after⟩

theorem create_leaves {mode : ℕ} (shows : Shows v t) (nonzero : v.nxtnum ≠ 0)
    (enters : Enters v p name) (other : sIsDir mode = false)
    (run : incoreCreate e p name v.nxtnum mode (counted v) = .ok ((r, made), w)) :
    Leaves t (.make v.nxtnum (incoreDTypeof mode).toNat (v.icinodes p).stIno name) r w := by
  unfold incoreCreate at run
  by_cases full : e.icino = false
  · rw [if_pos full] at run
    obtain ⟨⟨rfl, rfl⟩, rfl⟩ := pure_ok.mp run
    exact Or.inl ⟨by decide, (shows.counts nonzero).1⟩
  · rw [if_neg full, bind_run (incoreIAlloc_run _)] at run
    by_cases alone : e.inode = false
    · rw [if_pos alone] at run
      obtain ⟨_, u, destroyed, run⟩ := bind_ok.mp run
      obtain rfl := write_ok.mp destroyed
      obtain ⟨⟨rfl, rfl⟩, rfl⟩ := pure_ok.mp run
      exact Or.inl ⟨by decide, shows.forgets nonzero shows.table⟩
    · rw [if_neg alone] at run
      obtain ⟨_, u, entered, run⟩ := bind_ok.mp run
      obtain rfl := write_ok.mp entered
      obtain ⟨err, u, insertion, run⟩ := bind_ok.mp run
      obtain ⟨s, inserted, rfl⟩ := withInodes_ok.mp insertion
      have file : sIsDir mode = true → IsDirectory ⟨[], 0, 1⟩ ∧
          (∀ n, Plain n → Entry ⟨[], 0, 1⟩ n none) ∧
          Entry ⟨[], 0, 1⟩ dotDotName (some ((v.icinodes p).stIno, 4)) := by
        rw [other]
        exact fun impossible => absurd impossible (by decide)
      rcases shows.make nonzero enters ⟨v.nxtnum, mode, ⟨[], 0, 1⟩⟩ rfl file inserted with
        ⟨hr, rfl⟩ | ⟨rfl, after⟩
      · rw [if_pos hr] at run
        obtain ⟨_, u, gone, run⟩ := bind_ok.mp run
        obtain ⟨_, u, undead, gone⟩ := bind_ok.mp gone
        obtain rfl := write_ok.mp undead
        obtain rfl := write_ok.mp gone
        obtain ⟨⟨rfl, rfl⟩, rfl⟩ := pure_ok.mp run
        refine Or.inl ⟨hr, shows.forgets nonzero ?_⟩
        intro b hb
        obtain ⟨hb, hne⟩ := List.mem_filter.mp hb
        rcases List.mem_cons.mp hb with rfl | hb
        · simp [counted] at hne
        · exact shows.table b hb
      · rw [if_neg (by decide)] at run
        obtain ⟨⟨rfl, rfl⟩, rfl⟩ := pure_ok.mp run
        exact Or.inr ⟨rfl, after⟩

theorem open_leaves {mode : ℕ} (shows : Shows v t) (enters : Enters v p name)
    (run : sysioIncoreInopOpen e ⟨p, name, none⟩ mode v = .ok ((r, made), w)) :
    Leaves t (.make v.nxtnum 8 (v.icinodes p).stIno name) r w := by
  obtain ⟨inum, u, taken, run⟩ := bind_ok.mp run
  obtain ⟨rfl, nonzero, rfl⟩ := incoreInumAlloc_ok taken
  have type : (incoreDTypeof (S_IFREG ||| (mode &&& 0o7777))).toNat = 8 := by
    unfold incoreDTypeof
    rw [typed S_IFREG (by decide)]
    rfl
  have other : sIsDir (S_IFREG ||| (mode &&& 0o7777)) = false := by
    apply Bool.eq_false_of_not_eq_true
    rw [isDir_iff, type]
    decide
  have leaves := create_leaves shows nonzero enters other run
  rw [type] at leaves
  exact leaves

theorem mknod_leaves {mode : ℕ} (shows : Shows v t) (enters : Enters v p name)
    (run : sysioIncoreDiropMknod e p name mode v = .ok ((r, made), w)) :
    Leaves t (.make v.nxtnum (incoreDTypeof mode).toNat (v.icinodes p).stIno name) r w := by
  unfold sysioIncoreDiropMknod at run
  by_cases known : mode &&& S_IFMT = S_IFCHR ∨ mode &&& S_IFMT = S_IFIFO
  · rw [if_pos known] at run
    obtain ⟨inum, u, taken, run⟩ := bind_ok.mp run
    obtain ⟨rfl, nonzero, rfl⟩ := incoreInumAlloc_ok taken
    have other : sIsDir mode = false := by
      unfold sIsDir
      rcases known with h | h
      · rw [h]
        decide
      · rw [h]
        decide
    exact create_leaves shows nonzero enters other run
  · rw [if_neg known] at run
    obtain ⟨⟨rfl, rfl⟩, rfl⟩ := pure_ok.mp run
    exact Or.inl ⟨by decide, shows⟩

/-- An entry that is there is removed. -/
theorem Shows.drops {s : Icinodes} {i : ℕ × ℕ} (shows : Shows v t) (dir : IsDir v p)
    (plain : Plain name) (there : Finds v p name (some i))
    (run : onDir p (incoreUnlinkEntry (v.icinodes p).stMode name) v.icinodes = .ok (r, s)) :
    r = 0 ∧ Sets v.icinodes s p name none ∧
      Shows { v with icinodes := s } (t.bind (v.icinodes p).stIno name none) := by
  obtain ⟨d, removed, rfl⟩ := onDir_ok.mp run
  obtain ⟨d', run', dir', -, gone, others⟩ := unlink_step (shows.dir p dir) dir.2 plain.usual there
  obtain ⟨rfl, rfl⟩ := Prod.mk.inj (Except.ok.inj (removed.symm.trans run'))
  have sets := sets_setDir dir' gone others
  refine ⟨rfl, sets, shows.rebind dir plain sets ?_⟩
  apply shows.tree.bind
  rintro j ⟨⟩

/-- A file gets one more entry, if it gets it. -/
theorem Shows.enters {s : Icinodes} {h : Heap} {i : ℕ} (shows : Shows v t)
    (enters : Enters v p name) (file : i ∈ v.linked ∧ ¬ IsDir v i)
    (run : onDir p (incoreDirectoryInsert h name (v.icinodes i).stIno
      (incoreDTypeof (v.icinodes i).stMode)) v.icinodes = .ok (r, s)) :
    r ≠ 0 ∧ s = v.icinodes ∨ r = 0 ∧
      Sets v.icinodes s p name (some ((v.icinodes i).stIno, typeOf v i)) ∧
      Shows { v with icinodes := s }
        (t.bind (v.icinodes p).stIno name (some (v.icinodes i).stIno)) := by
  obtain ⟨dir, plain, short, free⟩ := enters
  obtain ⟨d, inserted, rfl⟩ := onDir_ok.mp run
  have kind := shows.kind i file.1
  have small : (v.icinodes i).stIno < 2 ^ 64 := by
    apply (shows.number _ _).1
    rw [kind]
    exact Option.some_ne_none _
  have other : typeOf v i ≠ 4 := fun same => file.2 ⟨file.1, isDir_iff.mpr same⟩
  rcases insert_cases (shows.dir p dir) free plain short inserted with
    ⟨hr, rfl⟩ | ⟨rfl, dir', now, others⟩
  · exact Or.inl ⟨hr, Function.update_eq_self p v.icinodes⟩
  · rw [Nat.mod_eq_of_lt small] at now
    have sets := sets_setDir dir' now others
    refine Or.inr ⟨rfl, sets, ?_⟩
    apply shows.rebind dir plain
    · rw [Option.map_some, kind]
      exact sets
    · apply shows.tree.bind
      rintro j ⟨⟩
      exact ⟨_, kind, other⟩

theorem Shows.found {i : ℕ} (shows : Shows v t) (dir : IsDir v p) (plain : Plain name)
    (leads : LeadsTo v p name i) :
    t.find ((v.icinodes p).stIno, name) = some (v.icinodes i).stIno := by
  have entry := (shows.names p dir name plain).unique leads
  rw [Option.map_eq_some_iff] at entry
  obtain ⟨j, found, same⟩ := entry
  rw [found, (Prod.mk.inj same).1]

theorem unlink_leaves {ino : ℕ} (shows : Shows v t) (dir : IsDir v p) (plain : Plain name)
    (leads : LeadsTo v p name ino) (run : sysioIncoreDiropUnlink p name ino v = .ok (r, w)) :
    Leaves t (.unbind (v.icinodes p).stIno name) r w := by
  obtain ⟨_, u, hread, run⟩ := bind_ok.mp run
  obtain ⟨rfl, rfl⟩ := read_ok.mp hread
  by_cases isDir : sIsDir (v.icinodes ino).stMode = true
  · rw [if_pos isDir] at run
    obtain ⟨rfl, rfl⟩ := pure_ok.mp run
    exact Or.inl ⟨by decide, shows⟩
  · rw [if_neg isDir] at run
    obtain ⟨_, u, hread, run⟩ := bind_ok.mp run
    obtain ⟨rfl, rfl⟩ := read_ok.mp hread
    obtain ⟨s, removed, rfl⟩ := withInodes_ok.mp run
    obtain ⟨rfl, -, after⟩ := shows.drops dir plain leads removed
    exact Or.inr ⟨rfl, after⟩

theorem rmdir_leaves {ino : ℕ} (shows : Shows v t) (dir : IsDir v p) (plain : Plain name)
    (leads : LeadsTo v p name ino) (run : sysioIncoreDiropRmdir p name ino v = .ok (r, w)) :
    Leaves t (.unbind (v.icinodes p).stIno name) r w := by
  obtain ⟨_, u, hread, run⟩ := bind_ok.mp run
  obtain ⟨rfl, rfl⟩ := read_ok.mp hread
  by_cases refused : refusedName name = true
  · rw [if_pos refused] at run
    obtain ⟨rfl, rfl⟩ := pure_ok.mp run
    exact Or.inl ⟨by decide, shows⟩
  rw [if_neg refused] at run
  by_cases file : sIsDir (v.icinodes ino).stMode = false
  · rw [if_pos file] at run
    obtain ⟨rfl, rfl⟩ := pure_ok.mp run
    exact Or.inl ⟨by decide, shows⟩
  rw [if_neg file] at run
  by_cases full : 2 < (v.icinodes ino).dir.nlink
  · rw [if_pos full] at run
    obtain ⟨rfl, rfl⟩ := pure_ok.mp run
    exact Or.inl ⟨by decide, shows⟩
  · rw [if_neg full] at run
    obtain ⟨_, u, hread, run⟩ := bind_ok.mp run
    obtain ⟨rfl, rfl⟩ := read_ok.mp hread
    obtain ⟨s, removed, rfl⟩ := withInodes_ok.mp run
    obtain ⟨rfl, -, after⟩ := shows.drops dir plain leads removed
    exact Or.inr ⟨rfl, after⟩

theorem link_leaves {h : Heap} {old : ℕ} (shows : Shows v t)
    (file : old ∈ v.linked ∧ ¬ IsDir v old) (enters : Enters v p name)
    (run : sysioIncoreDiropLink h old p name v = .ok (r, w)) :
    Leaves t (.bind (v.icinodes p).stIno name (v.icinodes old).stIno) r w := by
  obtain ⟨_, u, hread, run⟩ := bind_ok.mp run
  obtain ⟨rfl, rfl⟩ := read_ok.mp hread
  obtain ⟨_, u, hcheck, run⟩ := bind_ok.mp run
  obtain ⟨-, rfl⟩ := check_ok.mp hcheck
  by_cases full : ((v.icinodes old).dir.nlink + 1) % 2 ^ 64 = 0
  · rw [if_pos full] at run
    obtain ⟨rfl, rfl⟩ := pure_ok.mp run
    exact Or.inl ⟨by decide, shows⟩
  · rw [if_neg full] at run
    obtain ⟨err, u, insertion, run⟩ := bind_ok.mp run
    obtain ⟨s, inserted, rfl⟩ := withInodes_ok.mp insertion
    rcases shows.enters enters file inserted with ⟨hr, rfl⟩ | ⟨rfl, sets, after⟩
    · rw [if_pos hr] at run
      obtain ⟨rfl, rfl⟩ := pure_ok.mp run
      exact Or.inl ⟨hr, shows⟩
    · rw [if_neg (by decide)] at run
      obtain ⟨_, u, bump, run⟩ := bind_ok.mp run
      obtain ⟨rfl, rfl⟩ := pure_ok.mp run
      obtain ⟨s', counting, rfl⟩ := withInodes_ok.mp bump
      obtain ⟨d, -, rfl⟩ := onDir_ok.mp counting
      refine Or.inr ⟨rfl, after.congr (fun _ hb => hb) (Nat.le_refl _) ?_ after.table ?_ ?_⟩
      · exact ⟨after.counter, fun counted => ⟨counted, Nat.le_refl _⟩⟩
      · exact fun b _ => setDir_attrs s old d b
      · rintro b ⟨linked, isDir⟩
        have apart : b ≠ old := by
          rintro rfl
          exact file.2 ⟨linked, (sets.attrs b).2 ▸ isDir⟩
        exact congrArg IncoreInode.dir (setDir_other apart s d)

/-- What is under the new name makes room, or nothing is done. -/
theorem Shows.kills {s : Icinodes} {new : PathNode} (shows : Shows v t)
    (dir : IsDir v new.parent) (plain : Plain new.name)
    (free : new.icino = none → Finds v new.parent new.name none)
    (taken : ∀ b, new.icino = some b → b ∈ v.linked ∧ LeadsTo v new.parent new.name b)
    (run : killTarget new v.icinodes = .ok (r, s)) :
    r ≠ 0 ∧ s = v.icinodes ∨ r = 0 ∧ Sets v.icinodes s new.parent new.name none ∧
      Shows { v with icinodes := s } (t.bind (v.icinodes new.parent).stIno new.name none) := by
  unfold killTarget at run
  cases hnew : new.icino with
  | none =>
    rw [hnew] at run
    obtain ⟨rfl, rfl⟩ := pure_ok.mp run
    have sets : Sets v.icinodes v.icinodes new.parent new.name none := by
      constructor
      · exact fun b => ⟨rfl, rfl⟩
      · exact fun b _ => rfl
      · exact shows.dir _ dir
      · exact free hnew
      · exact fun n e _ before => before
    refine Or.inr ⟨rfl, sets, shows.rebind dir plain sets ?_⟩
    apply shows.tree.bind
    rintro j ⟨⟩
  | some b =>
    rw [hnew] at run
    obtain ⟨_, u, hread, run⟩ := bind_ok.mp run
    obtain ⟨rfl, rfl⟩ := read_ok.mp hread
    by_cases full : sIsDir (v.icinodes b).stMode = true ∧ 2 < (v.icinodes b).dir.nlink
    · rw [if_pos full] at run
      obtain ⟨rfl, rfl⟩ := pure_ok.mp run
      exact Or.inl ⟨by decide, rfl⟩
    · rw [if_neg full] at run
      obtain ⟨_, u, hmode, run⟩ := bind_ok.mp run
      obtain ⟨rfl, rfl⟩ := read_ok.mp hmode
      exact Or.inr (shows.drops dir plain (taken b hnew).2 run)

theorem rename_leaves {h : Heap} {old new : PathNode} (shows : Shows v t)
    (asked : Asked v (.rename h old new))
    (run : withInodes (sysioIncoreDiropRename h old new) v = .ok (r, w)) :
    Leaves t (.move (v.icinodes old.parent).stIno old.name
      (v.icinodes new.parent).stIno new.name) r w := by
  obtain ⟨⟨i, source, file, leads⟩, ⟨oldDir, oldPlain⟩, apart, ⟨newDir, newPlain, short⟩, free,
    taken⟩ := asked
  have found := shows.found oldDir oldPlain leads
  obtain ⟨s, renamed, rfl⟩ := withInodes_ok.mp run
  obtain ⟨icino, s₀, hderef, renamed⟩ := bind_ok.mp renamed
  obtain ⟨known, rfl⟩ := deref_ok.mp hderef
  obtain rfl : i = icino := Option.some.inj (source.symm.trans known)
  obtain ⟨err, s₁, killed, renamed⟩ := bind_ok.mp renamed
  rcases shows.kills newDir newPlain free taken killed with ⟨hr, rfl⟩ | ⟨rfl, room, shows₁⟩
  · rw [if_pos hr] at renamed
    obtain ⟨rfl, rfl⟩ := pure_ok.mp renamed
    exact Or.inl ⟨hr, shows⟩
  rw [if_neg (by decide)] at renamed
  obtain ⟨_, s₂, hread, renamed⟩ := bind_ok.mp renamed
  obtain ⟨rfl, rfl⟩ := read_ok.mp hread
  obtain ⟨err, s₃, inserted, renamed⟩ := bind_ok.mp renamed
  have dirs : ∀ b, IsDir { v with icinodes := s₁ } b ↔ IsDir v b := by
    intro b
    unfold IsDir
    rw [(room.attrs b).2]
  have enters : Enters { v with icinodes := s₁ } new.parent new.name :=
    ⟨(dirs _).mpr newDir, newPlain, short, room.now⟩
  have file₁ : i ∈ v.linked ∧ ¬ IsDir { v with icinodes := s₁ } i := by
    rw [dirs]
    exact file
  rcases shows₁.enters enters file₁ inserted with ⟨hr, -⟩ | ⟨rfl, entered, shows₂⟩
  · rw [if_pos hr] at renamed
    exact (fault_ok.mp renamed).elim
  rw [if_neg (by decide)] at renamed
  obtain ⟨_, s₄, hmode, renamed⟩ := bind_ok.mp renamed
  obtain ⟨rfl, rfl⟩ := read_ok.mp hmode
  obtain ⟨err, s₅, removed, renamed⟩ := bind_ok.mp renamed
  have oldDir₂ : IsDir { v with icinodes := s₃ } old.parent := by
    refine ⟨oldDir.1, ?_⟩
    rw [(entered.attrs _).2, (room.attrs _).2]
    exact oldDir.2
  have there := entered.keeps apart (room.keeps apart leads)
  obtain ⟨rfl, gone, shows₃⟩ := shows₂.drops oldDir₂ oldPlain there removed
  rw [if_neg (by decide)] at renamed
  obtain ⟨_, s₆, patched, renamed⟩ := bind_ok.mp renamed
  obtain ⟨rfl, rfl⟩ := pure_ok.mp renamed
  have noDir : ¬ sIsDir (s₁ i).stMode = true := fun isDir => file₁.2 ⟨file.1, isDir⟩
  rcases when_ok.mp patched with ⟨isDir, -⟩ | ⟨-, rfl⟩
  · exact absurd isDir noDir
  refine Or.inr ⟨rfl, ?_⟩
  have numbers : ∀ b, (s₃ b).stIno = (v.icinodes b).stIno :=
    fun b => (entered.attrs b).1.trans (room.attrs b).1
  have shape : ((t.bind (v.icinodes new.parent).stIno new.name none).bind
      (s₁ new.parent).stIno new.name (some (s₁ i).stIno)).bind (s₃ old.parent).stIno old.name none =
      t.apply (.move (v.icinodes old.parent).stIno old.name
        (v.icinodes new.parent).stIno new.name) := by
    rw [numbers, (room.attrs _).1, (room.attrs _).1]
    simp only [Tree.apply, Tree.bind, Function.update_idem, found]
  rw [← shape]
  exact shows₃

/-- Inodes that go, of what is in the table and of what there is, change no name. -/
theorem Shows.loses {linked table : List ℕ} (shows : Shows v t)
    (linked_ : ∀ b ∈ linked, b ∈ v.linked) (table_ : ∀ b ∈ table, b ∈ linked) :
    Shows { v with linked := linked, table := table } t := by
  apply shows.congr
  · exact linked_
  · exact Nat.le_refl _
  · exact ⟨shows.counter, fun counting => ⟨counting, Nat.le_refl _⟩⟩
  · exact table_
  · exact fun b _ => ⟨rfl, rfl⟩
  · exact fun b _ => rfl

/-- Every call that returns leaves the tree it is to leave. -/
theorem step_shows {c : Call} (shows : Shows v t) (asked : Asked v c)
    (run : step c v = .ok ((r, made), w)) : Shows w (t.apply (changeOf v c r)) := by
  have leaves : ∀ change, Leaves t change r w → (r = 0 → changeOf v c r = change) →
      Shows w (t.apply (changeOf v c r)) := by
    rintro change (⟨hr, same⟩ | ⟨hr, after⟩) is
    · unfold changeOf
      rw [if_pos hr]
      exact same
    · rw [is hr]
      exact after
  cases c with
  | mkdir e parent name mode =>
    apply leaves _ (mkdir_leaves shows asked run)
    rintro rfl
    rfl
  | create e parent name mode =>
    apply leaves _ (open_leaves shows asked run)
    rintro rfl
    rfl
  | mknod e parent name mode =>
    apply leaves _ (mknod_leaves shows asked run)
    rintro rfl
    rfl
  | link h old parent name =>
    obtain ⟨ret, linked, same⟩ := map_ok.mp run
    obtain ⟨rfl, -⟩ := Prod.mk.inj same
    apply leaves _ (link_leaves shows asked.1 asked.2 linked)
    rintro rfl
    rfl
  | unlink parent name ino =>
    obtain ⟨ret, unlinked, same⟩ := map_ok.mp run
    obtain ⟨rfl, -⟩ := Prod.mk.inj same
    obtain ⟨dir, plain, -, leads⟩ := asked
    apply leaves _ (unlink_leaves shows dir plain leads unlinked)
    rintro rfl
    rfl
  | rmdir parent name ino =>
    obtain ⟨ret, removed, same⟩ := map_ok.mp run
    obtain ⟨rfl, -⟩ := Prod.mk.inj same
    obtain ⟨dir, plain, -, leads⟩ := asked
    apply leaves _ (rmdir_leaves shows dir plain leads removed)
    rintro rfl
    rfl
  | rename h old new =>
    obtain ⟨ret, renamed, same⟩ := map_ok.mp run
    obtain ⟨rfl, -⟩ := Prod.mk.inj same
    apply leaves _ (rename_leaves shows asked renamed)
    rintro rfl
    rfl
  | undead ino =>
    obtain ⟨_, undead, same⟩ := map_ok.mp run
    obtain rfl := write_ok.mp undead
    obtain ⟨rfl, -⟩ := Prod.mk.inj same
    apply shows.loses (fun _ hb => hb)
    intro b hb
    exact shows.table b (List.mem_filter.mp hb).1
  | gone ino =>
    obtain ⟨_, gone, same⟩ := map_ok.mp run
    obtain ⟨rfl, -⟩ := Prod.mk.inj same
    obtain ⟨_, u, undead, gone⟩ := bind_ok.mp gone
    obtain rfl := write_ok.mp undead
    obtain rfl := write_ok.mp gone
    apply shows.loses
    · exact fun b hb => (List.mem_filter.mp hb).1
    · intro b hb
      obtain ⟨hb, apart⟩ := List.mem_filter.mp hb
      exact List.mem_filter.mpr ⟨shows.table b hb, apart⟩
  | elsewhere =>
    obtain ⟨_, u, taken, run⟩ := bind_ok.mp run
    obtain ⟨rfl, nonzero, rfl⟩ := incoreInumAlloc_ok taken
    obtain ⟨same, rfl⟩ := pure_ok.mp run
    obtain ⟨rfl, -⟩ := Prod.mk.inj same
    exact (shows.counts nonzero).1

end Steps

section Reached

variable {n mode : ℕ} {h : Heap} {d : Directory} {v w : Volume} {a p : ℕ} {name : Bytes}
  {calls : List (ExecLogic.Event Volume Call (ℤ × Option ℕ))}

theorem mounted_shows (number : 0 < n ∧ n < 2 ^ 64)
    (new : incoreDirectoryNew h n n allocated = .ok (true, d)) :
    Shows (mounted n mode d) (Tree.root 4 n) := by
  obtain ⟨dir, empty, dots⟩ := incoreDirectoryNew_ok new
  rw [Nat.mod_eq_of_lt number.2] at dots
  constructor
  · intro b hb
    obtain rfl := List.mem_singleton.mp hb
    exact Nat.zero_lt_one
  · exact Nat.mod_lt _ (by decide)
  · intro i known
    by_cases same : i = n
    · simp only [mounted, same]
      omega
    · simp [Tree.root, Function.update_of_ne same] at known
  · intro b hb c hc _
    exact (List.mem_singleton.mp hb).trans (List.mem_singleton.mp hc).symm
  · exact fun b hb => hb
  · intro b hb
    have type : (incoreDTypeof (S_IFDIR ||| (mode &&& 0o7777))).toNat = 4 := by
      unfold incoreDTypeof
      rw [typed S_IFDIR (by decide)]
      rfl
    simp [Tree.root, mounted, typeOf, type]
  · exact fun b _ => dir
  · exact fun b _ name plain => empty name plain
  · exact fun b _ => dots
  · rintro q m i ⟨⟩
  · exact Tree.root_sound 4 n

/-- After any calls that return the volume holds the tree of names that the calls build. -/
theorem reached_shows (number : 0 < n ∧ n < 2 ^ 64)
    (new : incoreDirectoryNew h n n allocated = .ok (true, d))
    (run : Traced step Asked (mounted n mode d) calls v) : Shows v (replay (Tree.root 4 n) calls) := by
  apply run.invariant
  · exact mounted_shows number new
  · intro before t c a u shows asked last
    exact step_shows shows asked last

theorem sysioIFind_run (v : Volume) (i : ℕ) : sysioIFind i v =
    .ok (v.table.find? fun b => (v.icinodes b).stIno = i, v) := rfl

/-- The three ends of the lookup of a name in a directory. -/
theorem Shows.lookup {t : Tree Bytes ℕ} (shows : Shows v t) (dir : IsDir v p)
    (plain : Plain name) :
    t.find ((v.icinodes p).stIno, name) = none ∧
      sysioIncoreDiropLookup p name none v = .ok ((-ENOENT, none), v) ∨
    (∃ b ∈ v.table, t.find ((v.icinodes p).stIno, name) = some (v.icinodes b).stIno ∧
      sysioIncoreDiropLookup p name none v = .ok ((0, some b), v)) ∨
    ∃ i, t.find ((v.icinodes p).stIno, name) = some i ∧
      (∀ b ∈ v.table, (v.icinodes b).stIno ≠ i) ∧
      sysioIncoreDiropLookup p name none v = .ok ((-ENOMEM, none), v) := by
  have names := shows.names p dir name plain
  have same : setDir v.icinodes p (v.icinodes p).dir = v.icinodes :=
    Function.update_eq_self p v.icinodes
  have search := withInodes_ok.mpr ⟨_, onDir_ok.mpr ⟨_, names, rfl⟩, rfl⟩
  rw [same] at search
  unfold sysioIncoreDiropLookup
  dsimp only
  rw [bind_run search]
  cases t.find ((v.icinodes p).stIno, name) with
  | none => exact Or.inl ⟨rfl, rfl⟩
  | some i =>
    right
    rw [Option.map_some]
    dsimp only
    rw [bind_run (sysioIFind_run v i)]
    cases found : v.table.find? fun b => (v.icinodes b).stIno = i with
    | none =>
      rw [List.find?_eq_none] at found
      exact Or.inr ⟨i, rfl, fun b hb same => found b hb (decide_eq_true same), rfl⟩
    | some b =>
      have number : (v.icinodes b).stIno = i := by simpa using List.find?_some found
      exact Or.inl ⟨b, List.mem_of_find?_eq_some found, by rw [number], rfl⟩

/-- A directory has a link for each name and two more. -/
theorem Shows.links {t : Tree Bytes ℕ} (shows : Shows v t) (dir : IsDir v a) :
    ∃ names : List Bytes, names.Nodup ∧
      (∀ m, m ∈ names ↔ t.find ((v.icinodes a).stIno, m) ≠ none) ∧
      (v.icinodes a).dir.nlink = names.length + 2 := by
  obtain ⟨rs, list⟩ := shows.dir a dir
  obtain ⟨x, y, rest, rfl, dots⟩ := list.front
  have nodup := list.names
  rw [List.map_cons, List.map_cons, List.nodup_cons, List.nodup_cons, dots.dot, dots.dots] at nodup
  obtain ⟨dot, dotDot, nodup⟩ := nodup
  refine ⟨rest.map Rec.scan, nodup, ?_, ?_⟩
  · intro m
    have entry := entry_find list m
    constructor
    · intro hm unbound
      have plain : Plain m := by
        constructor
        · obtain ⟨q, -, rfl⟩ := List.mem_map.mp hm
          intro zero
          have hne := List.mem_takeWhile_imp zero
          simp at hne
        · intro reserved
          rcases List.mem_cons.mp reserved with rfl | reserved
          · exact dot (List.mem_cons_of_mem _ hm)
          · obtain rfl := List.mem_singleton.mp reserved
            exact dotDot hm
      have names := shows.names a dir m plain
      rw [unbound] at names
      obtain ⟨q, hq, rfl⟩ := List.mem_map.mp hm
      exact find_absent list names q (List.mem_cons_of_mem _ (List.mem_cons_of_mem _ hq)) rfl
    · intro bound
      obtain ⟨i, hi⟩ := Option.ne_none_iff_exists'.mp bound
      obtain ⟨-, plain⟩ := shows.holds _ _ _ hi
      have names := shows.names a dir m plain
      rw [hi] at names
      have hdot : x.scan ≠ m := by
        rw [dots.dot]
        rintro rfl
        exact plain.usual (by simp)
      have hdots : y.scan ≠ m := by
        rw [dots.dots]
        rintro rfl
        exact plain.usual (by simp)
      rw [find_cons, if_neg hdot, find_cons, if_neg hdots] at entry
      by_contra absent
      have none_ : ∀ q ∈ rest, q.scan ≠ m := fun q hq same =>
        absent (List.mem_map.mpr ⟨q, hq, same⟩)
      have skipped := find_skip none_ []
      rw [List.append_nil] at skipped
      rw [skipped] at entry
      exact absurd (names.unique entry) (Option.some_ne_none _)
  · rw [list.links, List.length_map]
    rfl

/-- The removal of a directory by its name, one way or the other. -/
theorem Shows.removes {t : Tree Bytes ℕ} (shows : Shows v t) (dir : IsDir v p)
    (plain : Plain name) (leads : LeadsTo v p name a) (child : IsDir v a)
    (usual : refusedName name = false) :
    2 < (v.icinodes a).dir.nlink ∧ sysioIncoreDiropRmdir p name a v = .ok (-ENOTEMPTY, v) ∨
    (v.icinodes a).dir.nlink ≤ 2 ∧ ∃ w, sysioIncoreDiropRmdir p name a v = .ok (0, w) ∧
      sysioIncoreDiropLookup p name none w = .ok ((-ENOENT, none), w) := by
  have isDir : ¬ sIsDir (v.icinodes a).stMode = false := by
    rw [child.2]
    decide
  have unfused : sysioIncoreDiropRmdir p name a v =
      if 2 < (v.icinodes a).dir.nlink then .ok (-ENOTEMPTY, v)
      else withInodes (onDir p (incoreUnlinkEntry (v.icinodes p).stMode name)) v := by
    have read : (Exec.read fun v => v.icinodes a : Vol IncoreInode) v = .ok (v.icinodes a, v) := rfl
    have read' : (Exec.read fun v => v.icinodes p : Vol IncoreInode) v = .ok (v.icinodes p, v) := rfl
    have kept : ¬ refusedName name = true := by
      rw [usual]
      decide
    unfold sysioIncoreDiropRmdir
    rw [bind_run read, if_neg kept, if_neg isDir]
    by_cases full : 2 < (v.icinodes a).dir.nlink
    · rw [if_pos full, if_pos full]
      rfl
    · rw [if_neg full, if_neg full, bind_run read']
  by_cases full : 2 < (v.icinodes a).dir.nlink
  · rw [unfused, if_pos full]
    exact Or.inl ⟨full, rfl⟩
  · right
    refine ⟨Nat.not_lt.mp full, ?_⟩
    rw [unfused, if_neg full]
    obtain ⟨d', removed, dir', -, gone, others⟩ :=
      unlink_step (shows.dir p dir) dir.2 plain.usual leads
    have removal : onDir p (incoreUnlinkEntry (v.icinodes p).stMode name) v.icinodes =
        .ok (0, setDir v.icinodes p d') := onDir_ok.mpr ⟨d', removed, rfl⟩
    refine ⟨_, withInodes_ok.mpr ⟨_, removal, rfl⟩, ?_⟩
    obtain ⟨-, sets, after⟩ := shows.drops dir plain leads removal
    have dirAfter : IsDir { v with icinodes := setDir v.icinodes p d' } p :=
      ⟨dir.1, (sets.attrs p).2 ▸ dir.2⟩
    have unbound : (t.bind (v.icinodes p).stIno name none).find
        ((setDir v.icinodes p d' p).stIno, name) = none := by
      rw [(sets.attrs p).1]
      exact Function.update_self _ _ _
    rcases after.lookup dirAfter plain with ⟨-, lookup⟩ | ⟨b, -, bound, -⟩ | ⟨i, bound, -⟩
    · exact lookup
    · exact absurd (bound.symm.trans unbound) (Option.some_ne_none _)
    · exact absurd (bound.symm.trans unbound) (Option.some_ne_none _)

end Reached

section Example

/-- A volume on which a directory is made, and a file in it. -/
def memory : Memory := ⟨true, ⟨true, fun _ => 7⟩, true, ⟨true, fun _ => 7⟩⟩

def firstRoot : Directory := (incoreDirectoryNew ⟨true, fun _ => 7⟩ 1 1).final allocated

def first : Volume := mounted 1 0o755 firstRoot

def second : Volume := (step (.mkdir memory 0 [97] 0o755)).final first

def third : Volume := (step (.create memory 1 [98] 0o644)).final second

def trace : List (ExecLogic.Event Volume Call (ℤ × Option ℕ)) :=
  [⟨second, .create memory 1 [98] 0o644, (0, some 2), third⟩,
    ⟨first, .mkdir memory 0 [97] 0o755, (0, some 1), second⟩]

theorem firstRoot_new : incoreDirectoryNew ⟨true, fun _ => 7⟩ 1 1 allocated =
    .ok (true, firstRoot) :=
  ok_of_value (by decide +kernel)

instance {v : Volume} {a : ℕ} : Decidable (IsDir v a) := inferInstanceAs (Decidable (_ ∧ _))

theorem plain_letter (b : UInt8) (hb : b ≠ 0 ∧ b ≠ DOT) : Plain [b] := by
  constructor
  · simpa using hb.1.symm
  · simp [hb.2, dotDotName]

theorem trace_run : Traced step Asked first trace third := by
  have shows : Shows first (Tree.root 4 1) := mounted_shows (by decide) firstRoot_new
  have root : IsDir first 0 := by decide +kernel
  have enters : Enters first 0 [97] := by
    refine ⟨root, plain_letter 97 (by decide), by decide, ?_⟩
    exact entry_of_value (shows.dir 0 root) (by decide +kernel)
  have made : step (.mkdir memory 0 [97] 0o755) first = .ok ((0, some 1), second) :=
    ok_of_value (by decide +kernel)
  have asked : Asked first (.mkdir memory 0 [97] 0o755) := enters
  have shows' := step_shows shows asked made
  have sub : IsDir second 1 := by decide +kernel
  have enters' : Enters second 1 [98] := by
    refine ⟨sub, plain_letter 98 (by decide), by decide, ?_⟩
    exact entry_of_value (shows'.dir 1 sub) (by decide +kernel)
  have created : step (.create memory 1 [98] 0o644) second = .ok ((0, some 2), third) :=
    ok_of_value (by decide +kernel)
  exact .cons (.cons .nil asked made) enters' created

theorem third_dirs : IsDir third 0 ∧ IsDir third 1 := by
  decide +kernel

end Example

section Main

variable {n mode : ℕ} {h : Heap} {d : Directory} {v w : Volume} {a p : ℕ} {name : Bytes}
  {calls : List (ExecLogic.Event Volume Call (ℤ × Option ℕ))}

/-- A lookup finds no entry where the calls left no name, the inode that the name leads to, and
nothing where this inode is gone. -/
theorem incore_lookup (number : 0 < n ∧ n < 2 ^ 64)
    (new : incoreDirectoryNew h n n allocated = .ok (true, d))
    (run : Traced step Asked (mounted n mode d) calls v) (dir : IsDir v p) (plain : Plain name) :
    let bound := (replay (Tree.root 4 n) calls).find ((v.icinodes p).stIno, name)
    (sysioIncoreDiropLookup p name none v = .ok ((-ENOENT, none), v) ↔ bound = none) ∧
    (∀ b, sysioIncoreDiropLookup p name none v = .ok ((0, some b), v) ↔
      b ∈ v.table ∧ bound = some (v.icinodes b).stIno) ∧
    (sysioIncoreDiropLookup p name none v = .ok ((-ENOMEM, none), v) ↔
      ∃ i, bound = some i ∧ ∀ b ∈ v.table, (v.icinodes b).stIno ≠ i) := by
  have shows := @reached_shows n mode h d v calls number new run
  intro bound
  rcases shows.lookup dir plain with ⟨free, lookup⟩ | ⟨b, hb, named, lookup⟩ |
    ⟨i, named, absent, lookup⟩
  · change bound = none at free
    rw [lookup, free]
    simp [ENOENT, ENOMEM]
  · change bound = some (v.icinodes b).stIno at named
    rw [lookup, named]
    refine ⟨by simp [ENOENT], ?_, ?_⟩
    · intro c
      constructor
      · intro same
        obtain rfl : b = c := by simpa using same
        exact ⟨hb, rfl⟩
      · rintro ⟨hc, same⟩
        rw [shows.one b (shows.table b hb) c (shows.table c hc) (Option.some.inj same)]
    · constructor
      · simp [ENOMEM]
      · rintro ⟨j, same, absent⟩
        exact absurd (Option.some.inj same) (absent b hb)
  · change bound = some i at named
    rw [lookup, named]
    refine ⟨by simp [ENOENT, ENOMEM], ?_, ?_⟩
    · intro c
      constructor
      · simp [ENOMEM]
      · rintro ⟨hc, same⟩
        exact absurd (Option.some.inj same).symm (absent c hc)
    · constructor
      · intro _
        exact ⟨i, rfl, absent⟩
      · intro _
        rfl

/-- The file is found in its directory. -/
theorem incore_lookup_file :
    sysioIncoreDiropLookup 1 [98] none third = .ok ((0, some 2), third) := by
  have found := (incore_lookup (by decide) firstRoot_new trace_run third_dirs.2
    (plain_letter 98 (by decide))).2.1 2
  apply found.mpr
  decide +kernel

/-- A directory has at most one name, in a directory that is older and to which its entry for the
parent leads, and the way up ends. -/
theorem incore_tree (number : 0 < n ∧ n < 2 ^ 64)
    (new : incoreDirectoryNew h n n allocated = .ok (true, d))
    (run : Traced step Asked (mounted n mode d) calls v) (child : IsDir v a) :
    (∀ p q name name', IsDir v p → IsDir v q → Plain name → Plain name' →
      LeadsTo v p name a → LeadsTo v q name' a → p = q ∧ name = name') ∧
    (∀ p name, IsDir v p → Plain name → LeadsTo v p name a →
      Finds v a dotDotName (some ((v.icinodes p).stIno, 4)) ∧
      (v.icinodes p).stIno < (v.icinodes a).stIno) ∧
    ∃ top ≤ (v.icinodes a).stIno,
      (replay (Tree.root 4 n) calls).Climbs (v.icinodes a).stIno top := by
  have shows := @reached_shows n mode h d v calls number new run
  have kind := child.kind shows
  refine ⟨?_, ?_, ?_⟩
  · intro p q name name' hp hq plain plain' leads leads'
    have found := shows.found hp plain leads
    have found' := shows.found hq plain' leads'
    obtain ⟨same, names⟩ := Prod.mk.inj (shows.tree.once _ _ _ found found' kind)
    exact ⟨shows.one p hp.1 q hq.1 same, names⟩
  · intro p name hp plain leads
    obtain ⟨up, older⟩ := shows.tree.above _ _ (shows.found hp plain leads) kind
    have dots := shows.up a child
    rw [up] at dots
    exact ⟨dots, older⟩
  · obtain ⟨top, below, climbs⟩ := shows.tree.climbs (fun p m i named => (shows.holds p m i named).1)
      _ kind
    exact ⟨top, below, climbs⟩

/-- The directory has its one name in the root. -/
theorem incore_tree_two : LeadsTo third 0 [97] 1 ∧
    Finds third 1 dotDotName (some ((third.icinodes 0).stIno, 4)) ∧
    (third.icinodes 0).stIno < (third.icinodes 1).stIno := by
  have shows : Shows third (replay (Tree.root 4 1) trace) :=
    reached_shows (by decide) firstRoot_new trace_run
  have leads : LeadsTo third 0 [97] 1 :=
    entry_of_value (shows.dir 0 third_dirs.1) (by decide +kernel)
  have tree := incore_tree (by decide) firstRoot_new trace_run third_dirs.2
  exact ⟨leads, tree.2.1 0 [97] third_dirs.1 (plain_letter 97 (by decide)) leads⟩

/-- A directory can be removed exactly if the calls left no name in it. -/
theorem incore_rmdir (number : 0 < n ∧ n < 2 ^ 64)
    (new : incoreDirectoryNew h n n allocated = .ok (true, d))
    (run : Traced step Asked (mounted n mode d) calls v) (asked : Asked v (.rmdir p name a))
    (child : IsDir v a) (usual : refusedName name = false) :
    let t := replay (Tree.root 4 n) calls
    (∃ names : List Bytes, names.Nodup ∧
      (∀ m, m ∈ names ↔ t.find ((v.icinodes a).stIno, m) ≠ none) ∧
      (v.icinodes a).dir.nlink = names.length + 2) ∧
    ((∃ m, t.find ((v.icinodes a).stIno, m) ≠ none) ↔
      sysioIncoreDiropRmdir p name a v = .ok (-ENOTEMPTY, v)) ∧
    ((∀ m, t.find ((v.icinodes a).stIno, m) = none) ↔
      ∃ w, sysioIncoreDiropRmdir p name a v = .ok (0, w) ∧
        sysioIncoreDiropLookup p name none w = .ok ((-ENOENT, none), w)) := by
  have shows := @reached_shows n mode h d v calls number new run
  obtain ⟨dir, plain, -, leads⟩ := asked
  intro t
  obtain ⟨names, nodup, bound, links⟩ := shows.links child
  refine ⟨⟨names, nodup, bound, links⟩, ?_⟩
  have some_ : (∃ m, t.find ((v.icinodes a).stIno, m) ≠ none) ↔
      2 < (v.icinodes a).dir.nlink := by
    rw [links]
    constructor
    · rintro ⟨m, hm⟩
      have := List.length_pos_of_mem ((bound m).mpr hm)
      omega
    · intro more
      obtain ⟨m, hm⟩ := List.exists_mem_of_length_pos (l := names) (by omega)
      exact ⟨m, (bound m).mp hm⟩
  have none_ : (∀ m, t.find ((v.icinodes a).stIno, m) = none) ↔
      ¬ 2 < (v.icinodes a).dir.nlink := by
    rw [← some_]
    push Not
    rfl
  rw [some_, none_]
  rcases shows.removes dir plain leads child usual with ⟨full, result⟩ | ⟨free, w, result, lookup⟩
  · rw [result]
    refine ⟨by simp [full], ?_⟩
    constructor
    · exact fun free => absurd full free
    · rintro ⟨w, same, -⟩
      have codes := (Prod.mk.inj (Except.ok.inj same)).1
      exact absurd codes (by decide)
  · have empty : ¬ 2 < (v.icinodes a).dir.nlink := Nat.not_lt.mpr free
    constructor
    · constructor
      · exact fun full => absurd full empty
      · intro same
        have codes := (Prod.mk.inj (Except.ok.inj (result.symm.trans same))).1
        exact absurd codes (by decide)
    · constructor
      · exact fun _ => ⟨w, result, lookup⟩
      · exact fun _ => empty

/-- It is not removed while the file has a name in it. -/
theorem incore_rmdir_kept : sysioIncoreDiropRmdir 0 [97] 1 third = .ok (-ENOTEMPTY, third) := by
  have shows : Shows third (replay (Tree.root 4 1) trace) :=
    reached_shows (by decide) firstRoot_new trace_run
  have leads : LeadsTo third 0 [97] 1 :=
    entry_of_value (shows.dir 0 third_dirs.1) (by decide +kernel)
  have linked : 1 ∈ third.linked := third_dirs.2.1
  have asked : Asked third (.rmdir 0 [97] 1) :=
    ⟨third_dirs.1, plain_letter 97 (by decide), linked, leads⟩
  have removal := incore_rmdir (by decide) firstRoot_new trace_run asked third_dirs.2 (by decide)
  apply removal.2.1.mp
  refine ⟨[98], ?_⟩
  decide +kernel

end Main

end IncoreVolume
