import DirectFuse.IncoreChain
import Mathlib.Logic.Function.Basic

/-! `_sysio_incore_dirop_rename`: a removal and an insertion in the new parent, a removal in the old
one, and for a directory a new inode number in the record of its parent. -/
namespace IncoreRename

open ExecLogic ByteRange SysioState SysioNamei FuseDirectory IncoreDirectory IncoreRecords
  IncoreChain
open FuseRecords (Rec)
open FuseDriver (dotDotName)

/-- `struct incore_inode`: `st_ino` and `st_mode`, and the rest of it that a directory has. -/
structure IncoreInode where
  stIno : ℕ
  stMode : ℕ
  dir : Directory
  deriving DecidableEq, Repr

/-- The inodes of the driver by their addresses. -/
abbrev Icinodes := ℕ → IncoreInode

/-- What the driver reads of a path node: the inode of the parent's base, the name and the inode
of its own base, if it has one. -/
structure PathNode where
  parent : ℕ
  name : Bytes
  icino : Option ℕ

def setDir (s : Icinodes) (a : ℕ) (d : Directory) : Icinodes :=
  Function.update s a { s a with dir := d }

/-- A call for the directory at an address. -/
def onDir {α : Type} (a : ℕ) (m : Fd α) : Exec Icinodes Fault α := fun s =>
  match m (s a).dir with
  | .ok (r, d) => .ok (r, setDir s a d)
  | .error e => .error e

/-- `INCORE_D_TYPEOF`. -/
def incoreDTypeof (mode : ℕ) : UInt8 := UInt8.ofNat ((mode &&& S_IFMT) >>> 12)

/-- Whether `strcmp` of what is at an offset with a string gives 0. -/
def strcmp : ℕ → Bytes → Fd Bool
  | at_, [] => do
    let c ← load at_ 1
    return decide (c = 0)
  | at_, b :: l => do
    let c ← load at_ 1
    if c = b.toNat then
      strcmp (at_ + 1) l
    else
      return false

/-- `sizeof(struct intnl_dirent)`, by which `de++` moves on. -/
def direntSize : ℕ := 280

/-- The correction of the entry for the parent. -/
def patchParent (icino parent : ℕ) : Exec Icinodes Fault Unit := do
  let ino ← Exec.read fun s => (s parent).stIno
  onDir icino do
    let same ← strcmp (direntSize + 19) [DOT, DOT]
    Exec.check .assertion fun _ => same
    storeBytes direntSize (le 8 ino)

/-- What is done about an entry of the new name. -/
def killTarget (new : PathNode) : Exec Icinodes Fault ℤ :=
  match new.icino with
  | none => return 0
  | some t => do
    let target ← Exec.read fun s => s t
    if sIsDir target.stMode = true ∧ 2 < target.dir.nlink then
      return -ENOTEMPTY
    else
      let mode ← Exec.read fun s => (s new.parent).stMode
      onDir new.parent (incoreUnlinkEntry mode new.name)

/-- `_sysio_incore_dirop_rename`. -/
def sysioIncoreDiropRename (h : Heap) (old new : PathNode) : Exec Icinodes Fault ℤ := do
  let icino ← Exec.deref .wild fun _ => old.icino
  let err ← killTarget new
  if err ≠ 0 then
    return err
  else
    let moved ← Exec.read fun s => s icino
    let err ← onDir new.parent
      (incoreDirectoryInsert h new.name moved.stIno (incoreDTypeof moved.stMode))
    if err ≠ 0 then
      Exec.fault .abort
    else
      let mode ← Exec.read fun s => (s old.parent).stMode
      let err ← onDir old.parent (incoreUnlinkEntry mode old.name)
      if err ≠ 0 then
        Exec.fault .abort
      else
        Exec.when (sIsDir moved.stMode = true) (patchParent icino new.parent)
        return 0

/-- The data is a list of records that starts with those of a new directory, as that of every
directory reached is. -/
def IsDirectory (d : Directory) : Prop := ∃ rs, Listing d rs

/-- A lookup of a name ends with an inode number and a type, or without. -/
def Entry (d : Directory) (name : Bytes) (found : Option (ℕ × ℕ)) : Prop :=
  entryNamed name d = .ok (found, d)

/-- The inode number in the record behind the first one, which is the parent's. -/
def parentNumber (d : Directory) : ℕ := unle (fetch d.data (offAt d.data 0) 8)

/-- A rename as the layer above asks for it: the old name is that of the inode to be moved, the
new one is free, or a file's or an empty directory's, the inode is neither of the parents, and
there is memory. -/
structure Asked (h : Heap) (s : Icinodes) (old new : PathNode) (moved : ℕ) : Prop where
  source : old.icino = some moved
  number : (s moved).stIno < 2 ^ 64 ∧ (s new.parent).stIno < 2 ^ 64
  oldDir : sIsDir (s old.parent).stMode = true ∧ IsDirectory (s old.parent).dir
  newDir : sIsDir (s new.parent).stMode = true ∧ IsDirectory (s new.parent).dir
  movedDir : sIsDir (s moved).stMode = true → IsDirectory (s moved).dir
  entry : Entry (s old.parent).dir old.name
    (some ((s moved).stIno, (incoreDTypeof (s moved).stMode).toNat))
  apart : moved ≠ old.parent ∧ moved ≠ new.parent
  free : new.icino = none → Entry (s new.parent).dir new.name none
  taken : ∀ t, new.icino = some t → (∃ e, Entry (s new.parent).dir new.name (some e)) ∧
    (sIsDir (s t).stMode = true → (s t).dir.nlink ≤ 2)
  name : new.name.length ≤ 255 ∧ 0 ∉ new.name
  memory : h.got = true ∧ (s new.parent).dir.stSize + incoreDReclen new.name.length < 2 ^ 63

/-- What a rename is to do. -/
structure Renamed (s s' : Icinodes) (old new : PathNode) (moved : ℕ) : Prop where
  here : Entry (s' new.parent).dir new.name
    (some ((s moved).stIno, (incoreDTypeof (s moved).stMode).toNat))
  gone : Entry (s' old.parent).dir old.name none
  others : ∀ p ∈ [old.parent, new.parent], ∀ name, (p, name) ≠ (old.parent, old.name) →
    (p, name) ≠ (new.parent, new.name) → ∀ e, Entry (s p).dir name e → Entry (s' p).dir name e
  parent : sIsDir (s moved).stMode = true → parentNumber (s' moved).dir = (s new.parent).stIno

/-- When it does. The name of a directory's second record ends in a blank, and what is 280 bytes
behind its first one is only by chance a record called dot dot. -/
structure Movable (s : Icinodes) (old new : PathNode) (moved : ℕ) : Prop where
  apart : (old.parent, old.name) ≠ (new.parent, new.name)
  plain : old.name ∉ [[DOT], dotDotName] ∧ new.name ∉ [[DOT], dotDotName]
  chance : sIsDir (s moved).stMode = true →
    fetch (s moved).dir.data (direntSize + 19) 3 = [DOT, DOT, 0] ∧
      parentNumber (s moved).dir = (s new.parent).stIno

section Entries

variable {d : Directory} {name : Bytes} {rs : List Rec} {mode : ℕ}

def find (rs : List Rec) (name : Bytes) : Option (ℕ × ℕ) :=
  (rs.find? fun r => r.scan = name).map fun r => (r.ino % 2 ^ 64, r.type.toNat)

theorem find_cons (r : Rec) (rs : List Rec) (name : Bytes) : find (r :: rs) name =
    if r.scan = name then some (r.ino % 2 ^ 64, r.type.toNat) else find rs name := by
  by_cases hr : r.scan = name
  · rw [find, List.find?_cons_of_pos (by simpa using hr), if_pos hr]
    rfl
  · rw [find, List.find?_cons_of_neg (by simpa using hr), if_neg hr]
    rfl

/-- A record of another name makes no difference, wherever it is. -/
theorem find_other {r : Rec} (hr : r.scan ≠ name) (mid post : List Rec) :
    find (mid ++ r :: post) name = find (mid ++ post) name := by
  induction mid with
  | nil => rw [List.nil_append, List.nil_append, find_cons, if_neg hr]
  | cons m l ih => rw [List.cons_append, List.cons_append, find_cons, find_cons, ih]

theorem find_skip {mid : List Rec} (hmid : ∀ m ∈ mid, m.scan ≠ name) (post : List Rec) :
    find (mid ++ post) name = find post name := by
  induction mid with
  | nil => rfl
  | cons m l ih =>
    have hm := hmid m List.mem_cons_self
    have hl := ih fun m' h => hmid m' (List.mem_cons_of_mem _ h)
    rw [List.cons_append, find_cons, if_neg hm, hl]

theorem find_patched (off : ℕ) (mid post : List Rec) (r : Rec) (name : Bytes) :
    find (mid ++ r.patched off :: post) name = find (mid ++ r :: post) name := by
  induction mid with
  | nil => rw [List.nil_append, List.nil_append, find_cons, find_cons, patched_scan]; rfl
  | cons m l ih => rw [List.cons_append, List.cons_append, find_cons, find_cons, ih]

theorem entry_find (list : Listing d rs) (name : Bytes) : Entry d name (find rs name) := by
  have hold := list.hold
  rcases FuseRecords.first_or_none name rs with ⟨mid, r, post, rfl, hmid, hr⟩ | habsent
  · rw [find_skip hmid, find_cons, if_pos hr]
    exact entryNamed_found hold hmid hr
  · have hne : rs ≠ [] := by
      rcases list.front with ⟨a, b, rest, rfl, -⟩
      exact List.cons_ne_nil _ _
    have hnone := find_skip habsent []
    rw [List.append_nil] at hnone
    rw [hnone]
    rcases FuseRecords.last_record hne with ⟨mid, r, rfl⟩
    exact entryNamed_absent hold habsent

theorem Entry.unique {e e' : Option (ℕ × ℕ)} (h : Entry d name e) (h' : Entry d name e') : e = e' :=
  (Prod.mk.inj (Except.ok.inj (h.symm.trans h'))).1

/-- A name that is not found is in no record. -/
theorem find_absent (list : Listing d rs) (h : Entry d name none) : ∀ r ∈ rs, r.scan ≠ name := by
  have hfind := (entry_find list name).unique h
  rw [find, Option.map_eq_none_iff, List.find?_eq_none] at hfind
  intro r hr hname
  exact hfind r hr (by simpa using hname)

theorem insert_step {h : Heap} {inum : ℕ} {type : UInt8} (dir : IsDirectory d)
    (free : Entry d name none) (short : name.length ≤ 255) (string : 0 ∉ name)
    (memory : h.got = true ∧ d.stSize + incoreDReclen name.length < 2 ^ 63) :
    ∃ d', incoreDirectoryInsert h name inum type d = .ok (0, d') ∧ IsDirectory d' ∧
      Entry d' name (some (inum % 2 ^ 64, type.toNat)) ∧
      ∀ n e, n ≠ name → Entry d n e → Entry d' n e := by
  rcases dir with ⟨rs, list⟩
  have habsent := find_absent list free
  have hne : rs ≠ [] := by
    rcases list.front with ⟨a, b, rest, rfl, -⟩
    exact List.cons_ne_nil _ _
  rcases FuseRecords.last_record hne with ⟨mid, r, rfl⟩
  have hplaced : Placed d mid r [] := list.hold.placed
  have hroom := hplaced.room
  have hinside := hplaced.inside
  have hstart : newStart mid r ≤ d.stSize := by
    unfold newStart
    omega
  have hsmall : newEnd d mid r name < 2 ^ 63 := by
    unfold newEnd
    omega
  have hrun := @insert_absent h d name inum type mid r list.hold habsent
    (Or.inr ⟨memory.1, by omega⟩)
  have list' := @listing_inserted d name inum type mid r list habsent short string hsmall
  refine ⟨_, hrun, ⟨_, list'⟩, ?_, ?_⟩
  · have hentry := entry_find list' name
    have hfind : find (inserted d mid r name inum type) name =
        some (inum % 2 ^ 64, type.toNat) := by
      have hassoc : mid ++ [r, FuseRecords.newRec name inum (newEnd d mid r name) type] =
          (mid ++ [r]) ++ [FuseRecords.newRec name inum (newEnd d mid r name) type] := by simp
      rw [inserted, find_patched, hassoc, find_skip habsent, find_cons,
        if_pos (FuseRecords.newRec_scan string)]
      rfl
    rw [hfind] at hentry
    exact hentry
  · intro n e hn hbefore
    have hentry := entry_find list' n
    have hnew : (FuseRecords.newRec name inum (newEnd d mid r name) type).scan ≠ n := by
      rw [FuseRecords.newRec_scan string]
      exact hn.symm
    have hfind : find (inserted d mid r name inum type) n = find (mid ++ [r]) n := by
      have hassoc : mid ++ [r, FuseRecords.newRec name inum (newEnd d mid r name) type] =
          (mid ++ [r]) ++ [FuseRecords.newRec name inum (newEnd d mid r name) type] := by simp
      rw [inserted, find_patched, hassoc, find_other hnew, List.append_nil]
    rw [hfind, (entry_find list n).unique hbefore] at hentry
    exact hentry

theorem unlink_step (dir : IsDirectory d) (hmode : sIsDir mode = true)
    (plain : name ∉ [[DOT], dotDotName]) {e : ℕ × ℕ} (there : Entry d name (some e)) :
    ∃ d', incoreUnlinkEntry mode name d = .ok (0, d') ∧ IsDirectory d' ∧ d'.stSize = d.stSize ∧
      Entry d' name none ∧ ∀ n e, n ≠ name → Entry d n e → Entry d' n e := by
  rcases dir with ⟨rs, list⟩
  have hdot : name ≠ [DOT] := fun h => plain (by rw [h]; exact List.mem_cons_self)
  have hdots : name ≠ dotDotName := by
    intro h
    rw [h] at plain
    exact plain (List.mem_cons_of_mem _ List.mem_cons_self)
  rcases list.unlink hmode hdot hdots with ⟨habsent, -⟩ | ⟨mid, q, r, post, rfl, hr, -, run, list'⟩
  · have hnone := find_skip habsent []
    rw [List.append_nil] at hnone
    have hfind := (entry_find list name).unique there
    rw [hnone] at hfind
    simp [find] at hfind
  · refine ⟨_, run, ⟨_, list'⟩, rfl, ?_, ?_⟩
    · have hentry := entry_find list' name
      have hscans := list.names
      rw [List.map_append, List.map_cons, List.map_cons, List.nodup_append] at hscans
      have hothers : ∀ m ∈ unlinked mid q r post, m.scan ≠ name := by
        intro m hm
        rw [← hr]
        rcases List.mem_append.mp hm with hm | hm
        · exact hscans.2.2 m.scan (List.mem_map_of_mem hm) r.scan
            (List.mem_cons_of_mem _ List.mem_cons_self)
        · have hback := List.nodup_cons.mp hscans.2.1
          rcases List.mem_cons.mp hm with rfl | hm
          · intro hsame
            exact hback.1 (by rw [← patched_scan q r.off, hsame]; exact List.mem_cons_self)
          · intro hsame
            have hpost := List.nodup_cons.mp hback.2
            exact hpost.1 (by rw [← hsame]; exact List.mem_map_of_mem hm)
      have hnone := find_skip hothers []
      rw [List.append_nil] at hnone
      rw [hnone] at hentry
      exact hentry
    · intro n e hn hbefore
      have hentry := entry_find list' n
      have hassoc : mid ++ q :: r :: post = (mid ++ [q]) ++ r :: post := by simp
      have hassoc' : (mid ++ [q]) ++ post = mid ++ q :: post := by simp
      have hother : r.scan ≠ n := by
        rw [hr]
        exact hn.symm
      have hfind : find (unlinked mid q r post) n = find (mid ++ q :: r :: post) n := by
        rw [unlinked, find_patched, hassoc, find_other hother, hassoc']
      rw [hfind, (entry_find list n).unique hbefore] at hentry
      exact hentry

/-- The first two records cannot be removed. -/
theorem unlink_dots (dir : IsDirectory d) (hmode : sIsDir mode = true)
    (dots : name ∈ [[DOT], dotDotName]) :
    (∃ e, Entry d name (some e)) ∧ incoreUnlinkEntry mode name d = .error .assertion := by
  rcases dir with ⟨rs, list⟩
  rcases list.front with ⟨a, b, rest, rfl, front⟩
  have hentry := entry_find list name
  have hoff := front.off
  rcases List.mem_cons.mp dots with rfl | dots
  · rw [find_cons, if_pos front.dot] at hentry
    exact ⟨⟨_, hentry⟩, @unlink_low d [DOT] mode [] (b :: rest) a hmode list.hold (by simp)
      front.dot (by decide)⟩
  · rw [List.mem_singleton.mp dots] at hentry ⊢
    have hne : a.scan ≠ dotDotName := by
      rw [front.dot]
      decide
    rw [find_cons, if_neg hne, find_cons, if_pos front.dots] at hentry
    refine ⟨⟨_, hentry⟩, @unlink_low d dotDotName mode [a] rest b hmode list.hold ?_ front.dots ?_⟩
    · intro m hm
      rw [List.mem_singleton.mp hm]
      exact hne
    · change a.off < 48
      omega

end Entries

section Steps

variable {h : Heap} {s s' : Icinodes} {old new : PathNode} {moved : ℕ}

@[simp] theorem setDir_here (s : Icinodes) (a : ℕ) (d : Directory) : (setDir s a d a).dir = d := by
  rw [setDir, Function.update_self]

theorem setDir_other {a b : ℕ} (hb : b ≠ a) (s : Icinodes) (d : Directory) :
    setDir s a d b = s b := Function.update_of_ne hb _ _

theorem setDir_attrs (s : Icinodes) (a : ℕ) (d : Directory) (b : ℕ) :
    (setDir s a d b).stIno = (s b).stIno ∧ (setDir s a d b).stMode = (s b).stMode := by
  by_cases hb : b = a
  · subst hb
    rw [setDir, Function.update_self]
    exact ⟨rfl, rfl⟩
  · rw [setDir_other hb]
    exact ⟨rfl, rfl⟩

theorem onDir_run {α : Type} {a : ℕ} {m : Fd α} {r : α} {d : Directory}
    (run : m (s a).dir = .ok (r, d)) : onDir a m s = .ok (r, setDir s a d) := by
  rw [onDir, run]

theorem onDir_error {α : Type} {a : ℕ} {m : Fd α} {e : Fault} (run : m (s a).dir = .error e) :
    onDir a m s = .error e := by
  rw [onDir, run]

/-- What one removal or insertion does to the inodes: one directory finds one name differently. -/
structure Sets (s s' : Icinodes) (p : ℕ) (name : Bytes) (found : Option (ℕ × ℕ)) : Prop where
  attrs : ∀ a, (s' a).stIno = (s a).stIno ∧ (s' a).stMode = (s a).stMode
  rest : ∀ a, a ≠ p → s' a = s a
  directory : IsDirectory (s' p).dir
  now : Entry (s' p).dir name found
  others : ∀ n e, n ≠ name → Entry (s p).dir n e → Entry (s' p).dir n e

theorem sets_setDir {p : ℕ} {name : Bytes} {found : Option (ℕ × ℕ)} {d : Directory}
    (dir : IsDirectory d) (now : Entry d name found)
    (others : ∀ n e, n ≠ name → Entry (s p).dir n e → Entry d n e) :
    Sets s (setDir s p d) p name found := by
  constructor
  · exact setDir_attrs s p d
  · intro a ha
    exact setDir_other ha s d
  · rw [setDir_here]
    exact dir
  · rw [setDir_here]
    exact now
  · rw [setDir_here]
    exact others

/-- The directory of another place, or of this one as far as other names go, finds the same. -/
theorem Sets.keeps {p q : ℕ} {name n : Bytes} {found e : Option (ℕ × ℕ)}
    (sets : Sets s s' p name found) (hne : (q, n) ≠ (p, name)) (before : Entry (s q).dir n e) :
    Entry (s' q).dir n e := by
  by_cases hq : q = p
  · subst hq
    apply sets.others n e _ before
    rintro rfl
    exact hne rfl
  · rw [sets.rest q hq]
    exact before

theorem Sets.directories {p q : ℕ} {name : Bytes} {found : Option (ℕ × ℕ)}
    (sets : Sets s s' p name found) (dir : IsDirectory (s q).dir) : IsDirectory (s' q).dir := by
  by_cases hq : q = p
  · rw [hq]
    exact sets.directory
  · rw [sets.rest q hq]
    exact dir

/-- The new name is free after the target is gone. -/
theorem killTarget_run (asked : Asked h s old new moved) (plain : new.name ∉ [[DOT], dotDotName]) :
    ∃ s₁, killTarget new s = .ok (0, s₁) ∧ Sets s s₁ new.parent new.name none ∧
      (s₁ new.parent).dir.stSize = (s new.parent).dir.stSize := by
  cases hnew : new.icino with
  | none =>
    refine ⟨s, ?_, ⟨fun _ => ⟨rfl, rfl⟩, fun _ _ => rfl, asked.newDir.2, asked.free hnew,
      fun _ _ _ he => he⟩, rfl⟩
    rw [killTarget, hnew]
    rfl
  | some t =>
    rcases asked.taken t hnew with ⟨⟨e, there⟩, hempty⟩
    rcases unlink_step asked.newDir.2 asked.newDir.1 plain there with
      ⟨d', run, dir, hsize, gone, others⟩
    refine ⟨setDir s new.parent d', ?_, sets_setDir dir gone others, by rw [setDir_here, hsize]⟩
    have htarget : (Exec.read fun s => s t : Exec Icinodes Fault IncoreInode) s = .ok (s t, s) := rfl
    have hmode : (Exec.read fun s => (s new.parent).stMode : Exec Icinodes Fault ℕ) s =
        .ok ((s new.parent).stMode, s) := rfl
    have hkeep : ¬ (sIsDir (s t).stMode = true ∧ 2 < (s t).dir.nlink) := by
      rintro ⟨hdir, hlinks⟩
      have := hempty hdir
      omega
    rw [killTarget, hnew]
    change (Exec.read (fun s => s t) >>= fun target => _ : Exec Icinodes Fault ℤ) s = _
    rw [bind_run htarget, if_neg hkeep, bind_run hmode]
    exact onDir_run run

/-- An entry of the first two records' names cannot be removed to make room. -/
theorem killTarget_dots (asked : Asked h s old new moved) (dots : new.name ∈ [[DOT], dotDotName]) :
    killTarget new s = .error .assertion := by
  rcases unlink_dots asked.newDir.2 asked.newDir.1 dots with ⟨⟨e, there⟩, run⟩
  cases hnew : new.icino with
  | none => exact absurd (there.unique (asked.free hnew)) (by simp)
  | some t =>
    have hempty := (asked.taken t hnew).2
    have htarget : (Exec.read fun s => s t : Exec Icinodes Fault IncoreInode) s = .ok (s t, s) := rfl
    have hmode : (Exec.read fun s => (s new.parent).stMode : Exec Icinodes Fault ℕ) s =
        .ok ((s new.parent).stMode, s) := rfl
    have hkeep : ¬ (sIsDir (s t).stMode = true ∧ 2 < (s t).dir.nlink) := by
      rintro ⟨hdir, hlinks⟩
      have := hempty hdir
      omega
    rw [killTarget, hnew]
    change (Exec.read (fun s => s t) >>= fun target => _ : Exec Icinodes Fault ℤ) s = _
    rw [bind_run htarget, if_neg hkeep, bind_run hmode]
    exact onDir_error run

/-- The insertion in the new parent, whatever was there. -/
theorem insertion_run (asked : Asked h s old new moved) (plain : new.name ∉ [[DOT], dotDotName]) :
    ∃ s₁ s₂, Sets s s₁ new.parent new.name none ∧
      Sets s₁ s₂ new.parent new.name
        (some ((s moved).stIno, (incoreDTypeof (s moved).stMode).toNat)) ∧
      sysioIncoreDiropRename h old new s = (do
        let mode ← Exec.read fun s => (s old.parent).stMode
        let err ← onDir old.parent (incoreUnlinkEntry mode old.name)
        if err ≠ 0 then
          Exec.fault .abort
        else
          Exec.when (sIsDir (s moved).stMode = true) (patchParent moved new.parent)
          return 0 : Exec Icinodes Fault ℤ) s₂ := by
  rcases killTarget_run asked plain with ⟨s₁, hkill, free, hsize⟩
  have hmoved : s₁ moved = s moved := free.rest moved asked.apart.2
  have memory := asked.memory
  rw [← hsize] at memory
  rcases @insert_step _ _ h (s moved).stIno (incoreDTypeof (s moved).stMode) free.directory free.now
    asked.name.1 asked.name.2 memory with ⟨d', hinsert, dir, now, others⟩
  rw [Nat.mod_eq_of_lt asked.number.1] at now
  refine ⟨s₁, setDir s₁ new.parent d', free, sets_setDir dir now others, ?_⟩
  have hsource : (Exec.deref .wild fun _ => old.icino : Exec Icinodes Fault ℕ) s =
      .ok (moved, s) := deref_ok.mpr ⟨asked.source, rfl⟩
  have hread : (Exec.read fun s => s moved : Exec Icinodes Fault IncoreInode) s₁ =
      .ok (s moved, s₁) := by
    apply read_ok.mpr
    exact ⟨hmoved, rfl⟩
  rw [sysioIncoreDiropRename, bind_run hsource, bind_run hkill, if_neg (by decide),
    bind_run hread, bind_run (onDir_run hinsert), if_neg (by decide)]

/-- All but the correction of a moved directory. -/
theorem rename_run (asked : Asked h s old new moved)
    (apart : (old.parent, old.name) ≠ (new.parent, new.name))
    (plain : old.name ∉ [[DOT], dotDotName] ∧ new.name ∉ [[DOT], dotDotName]) :
    ∃ s₁ s₂ s₃, Sets s s₁ new.parent new.name none ∧
      Sets s₁ s₂ new.parent new.name
        (some ((s moved).stIno, (incoreDTypeof (s moved).stMode).toNat)) ∧
      Sets s₂ s₃ old.parent old.name none ∧
      sysioIncoreDiropRename h old new s = (do
        Exec.when (sIsDir (s moved).stMode = true) (patchParent moved new.parent)
        return 0 : Exec Icinodes Fault ℤ) s₃ := by
  rcases insertion_run asked plain.2 with ⟨s₁, s₂, free, set, hrun⟩
  have there := set.keeps apart (free.keeps apart asked.entry)
  have dir := set.directories (free.directories asked.oldDir.2)
  have hmode : (s₂ old.parent).stMode = (s old.parent).stMode :=
    (set.attrs _).2.trans (free.attrs _).2
  have hread : (Exec.read fun s => (s old.parent).stMode : Exec Icinodes Fault ℕ) s₂ =
      .ok ((s old.parent).stMode, s₂) := read_ok.mpr ⟨hmode, rfl⟩
  rcases unlink_step dir asked.oldDir.1 plain.1 there with ⟨d', hunlink, dir', -, gone, others⟩
  refine ⟨s₁, s₂, setDir s₂ old.parent d', free, set, sets_setDir dir' gone others, ?_⟩
  rw [hrun, bind_run hread, bind_run (onDir_run hunlink), if_neg (by decide)]

/-- A rename of one of the first two records stops at the assertion of the removal. -/
theorem rename_dots (asked : Asked h s old new moved)
    (dots : old.name ∈ [[DOT], dotDotName] ∨ new.name ∈ [[DOT], dotDotName]) :
    sysioIncoreDiropRename h old new s = .error .assertion := by
  by_cases hnew : new.name ∈ [[DOT], dotDotName]
  · have hsource : (Exec.deref .wild fun _ => old.icino : Exec Icinodes Fault ℕ) s =
        .ok (moved, s) := deref_ok.mpr ⟨asked.source, rfl⟩
    rw [sysioIncoreDiropRename, bind_run hsource]
    exact bind_error (killTarget_dots asked hnew)
  · have hold : old.name ∈ [[DOT], dotDotName] := dots.resolve_right hnew
    rcases insertion_run asked hnew with ⟨s₁, s₂, free, set, hrun⟩
    have dir := set.directories (free.directories asked.oldDir.2)
    have hmode : (s₂ old.parent).stMode = (s old.parent).stMode :=
      (set.attrs _).2.trans (free.attrs _).2
    have hread : (Exec.read fun s => (s old.parent).stMode : Exec Icinodes Fault ℕ) s₂ =
        .ok ((s old.parent).stMode, s₂) := read_ok.mpr ⟨hmode, rfl⟩
    have hunlink := (unlink_dots dir asked.oldDir.1 hold).2
    rw [hrun, bind_run hread]
    exact bind_error (onDir_error hunlink)

end Steps

section Patch

variable {d e : Directory}

theorem load_byte {off c : ℕ} :
    load off 1 d = .ok (c, e) ↔ ∃ b, d.data[off]? = some b ∧ c = b.toNat ∧ e = d := by
  constructor
  · intro run
    rw [load, loadBytes] at run
    rcases bind_ok.mp run with ⟨bs, d₁, hbytes, hend⟩
    rcases bind_ok.mp hbytes with ⟨u, d₂, hcheck, hread⟩
    rcases check_ok.mp hcheck with ⟨hroom, rfl⟩
    rcases read_ok.mp hread with ⟨rfl, rfl⟩
    rcases pure_ok.mp hend with ⟨rfl, rfl⟩
    have hin : off < d.data.length := by
      have := of_decide_eq_true hroom
      omega
    refine ⟨d.data[off], List.getElem?_eq_getElem hin, ?_, rfl⟩
    have hone : fetch d.data off 1 = [d.data[off]] := by
      rw [fetch, List.drop_eq_getElem_cons hin]
      rfl
    rw [hone]
    simp [unle]
  · rintro ⟨b, hb, rfl, rfl⟩
    rcases List.getElem?_eq_some_iff.mp hb with ⟨hin, rfl⟩
    have hsplit : e.data = e.data.take off ++ [e.data[off]] ++ e.data.drop (off + 1) := by
      rw [List.append_assoc, List.singleton_append, ← List.drop_eq_getElem_cons hin,
        List.take_append_drop]
    have run := @FuseRecords.load_run _ _ _ _ off 1 hsplit (by simp; omega) rfl
    have hbyte : unle [e.data[off]] = e.data[off].toNat := by simp [unle]
    rw [hbyte] at run
    exact run

theorem fetch_cons {data : Bytes} {off : ℕ} {b : UInt8} (hb : data[off]? = some b) (n : ℕ) :
    fetch data off (n + 1) = b :: fetch data (off + 1) n := by
  rcases List.getElem?_eq_some_iff.mp hb with ⟨hin, rfl⟩
  rw [fetch, List.drop_eq_getElem_cons hin, List.take_succ_cons]
  rfl

theorem byte_of_fetch {data l : Bytes} {off n : ℕ} {b : UInt8}
    (h : fetch data off (n + 1) = b :: l) : data[off]? = some b ∧ fetch data (off + 1) n = l := by
  have hget := fetch_get data off (n + 1) 0
  rw [h, if_pos (Nat.succ_pos n), Nat.add_zero] at hget
  have hb : data[off]? = some b := hget.symm
  rw [fetch_cons hb] at h
  exact ⟨hb, (List.cons.inj h).2⟩

/-- `strcmp` finds a string where its bytes and a NUL are. -/
theorem strcmp_true {off : ℕ} {text : Bytes} :
    strcmp off text d = .ok (true, e) ↔ fetch d.data off (text.length + 1) = text ++ [0] ∧ e = d := by
  induction text generalizing off with
  | nil =>
    constructor
    · intro run
      rcases bind_ok.mp run with ⟨c, d₁, hload, hend⟩
      rcases load_byte.mp hload with ⟨b, hb, rfl, rfl⟩
      rcases pure_ok.mp hend with ⟨hzero, rfl⟩
      have hb0 : b = 0 := UInt8.toNat_inj.mp (of_decide_eq_true hzero)
      refine ⟨?_, rfl⟩
      rw [List.length_nil, fetch_cons hb, fetch_none, hb0]
      rfl
    · rintro ⟨hfetch, rfl⟩
      have hload := load_byte.mpr ⟨0, (byte_of_fetch hfetch).1, rfl, rfl⟩
      rw [strcmp, bind_run hload]
      rfl
  | cons t l ih =>
    constructor
    · intro run
      rcases bind_ok.mp run with ⟨c, d₁, hload, hend⟩
      rcases load_byte.mp hload with ⟨b, hb, rfl, rfl⟩
      by_cases hsame : b.toNat = t.toNat
      · rw [if_pos hsame] at hend
        rcases ih.mp hend with ⟨hrest, rfl⟩
        refine ⟨?_, rfl⟩
        rw [List.length_cons, fetch_cons hb, hrest, UInt8.toNat_inj.mp hsame]
        rfl
      · rw [if_neg hsame] at hend
        have hfalse : false = true := (pure_ok.mp hend).1
        exact absurd hfalse (by decide)
    · rintro ⟨hfetch, rfl⟩
      rcases byte_of_fetch hfetch with ⟨hb, hrest⟩
      have hload := load_byte.mpr ⟨t, hb, rfl, rfl⟩
      rw [strcmp, bind_run hload, if_pos rfl]
      exact ih.mpr ⟨hrest, rfl⟩

/-- Storing keeps what is in front of it. -/
theorem fetch_before {data new : Bytes} {off n at_ : ℕ} (hbefore : off + n ≤ at_)
    (hroom : at_ + new.length ≤ data.length) :
    fetch (store 0 data at_ new) off n = fetch data off n := by
  apply List.ext_getElem?
  intro i
  rw [fetch_get, fetch_get]
  by_cases hi : i < n
  · rw [if_pos hi, if_pos hi, store_outside (by omega) (Or.inl (by omega))]
  · rw [if_neg hi, if_neg hi]

/-- What the correction makes of a directory. -/
def patchedDir (d : Directory) (ino : ℕ) : Directory :=
  { d with data := store 0 d.data direntSize (le 8 ino) }

/-- The correction does not reach the record of the parent. -/
theorem parentNumber_patched (dir : IsDirectory d) {ino : ℕ} (chance :
    fetch d.data (direntSize + 19) 3 = [DOT, DOT, 0]) :
    parentNumber (patchedDir d ino) = parentNumber d := by
  have hlen := congrArg List.length chance
  have hthree : ([DOT, DOT, 0] : Bytes).length = 3 := rfl
  rw [fetch_length, hthree] at hlen
  have hroom : direntSize + (le 8 ino).length ≤ d.data.length := by
    rw [le_length]
    omega
  rcases dir with ⟨rs, list⟩
  rcases list.front with ⟨a, b, rest, rfl, dots⟩
  have hplaced : Placed d [] a (b :: rest) := list.hold.placed
  have hnext := (placed_shown hplaced list.hold.small).next
  change offAt d.data 0 = a.off at hnext
  have hnext' : offAt (patchedDir d ino).data 0 = offAt d.data 0 := by
    rw [patchedDir, offAt, fetch_before (by decide) hroom]
    rfl
  rw [parentNumber, parentNumber, hnext', hnext, dots.off, patchedDir,
    fetch_before (by decide) hroom]

/-- The correction stores behind a dot dot that is there by chance, and stops otherwise. -/
theorem patchParent_ok {s s' : Icinodes} {moved parent : ℕ}
    (run : patchParent moved parent s = .ok ((), s')) :
    fetch (s moved).dir.data (direntSize + 19) 3 = [DOT, DOT, 0] ∧
      s' = setDir s moved (patchedDir (s moved).dir (s parent).stIno) := by
  rcases bind_ok.mp run with ⟨ino, s₁, hread, hpatch⟩
  rcases read_ok.mp hread with ⟨rfl, rfl⟩
  rw [onDir] at hpatch
  split at hpatch
  · rename_i r d hrun
    rcases Prod.mk.inj (Except.ok.inj hpatch) with ⟨-, rfl⟩
    rcases bind_ok.mp hrun with ⟨same, d₁, hsame, hrun⟩
    rcases bind_ok.mp hrun with ⟨u, d₂, hcheck, hstore⟩
    rcases check_ok.mp hcheck with ⟨rfl, rfl⟩
    rcases strcmp_true.mp hsame with ⟨hfetch, rfl⟩
    rw [storeBytes] at hstore
    rcases bind_ok.mp hstore with ⟨u', d₃, hroom, hwrite⟩
    rcases check_ok.mp hroom with ⟨-, rfl⟩
    rcases write_ok.mp hwrite with rfl
    exact ⟨hfetch, rfl⟩
  · cases hpatch

theorem patchParent_run {s : Icinodes} {moved parent : ℕ}
    (chance : fetch (s moved).dir.data (direntSize + 19) 3 = [DOT, DOT, 0]) :
    patchParent moved parent s =
      .ok ((), setDir s moved (patchedDir (s moved).dir (s parent).stIno)) := by
  have hsame : strcmp (direntSize + 19) [DOT, DOT] (s moved).dir = .ok (true, (s moved).dir) :=
    strcmp_true.mpr ⟨chance, rfl⟩
  have hlen := congrArg List.length chance
  rw [fetch_length] at hlen
  have hthree : ([DOT, DOT, 0] : Bytes).length = 3 := rfl
  rw [hthree] at hlen
  have hroom : direntSize + (le 8 (s parent).stIno).length ≤ (s moved).dir.data.length := by
    rw [le_length]
    omega
  have hcheck : (Exec.check .assertion fun _ => true : Fd Unit) (s moved).dir =
      .ok ((), (s moved).dir) := check_ok.mpr ⟨rfl, rfl⟩
  have hinside : (Exec.check .wild fun d =>
      decide (direntSize + (le 8 (s parent).stIno).length ≤ d.data.length) : Fd Unit)
      (s moved).dir = .ok ((), (s moved).dir) := check_ok.mpr ⟨decide_eq_true hroom, rfl⟩
  have hread : (Exec.read fun s => (s parent).stIno : Exec Icinodes Fault ℕ) s =
      .ok ((s parent).stIno, s) := rfl
  rw [patchParent, bind_run hread]
  apply onDir_run
  rw [bind_run hsame, bind_run hcheck, storeBytes, bind_run hinside]
  rfl

end Patch

section Renames

variable {h : Heap} {s s₁ s₂ s₃ s' : Icinodes} {old new : PathNode} {moved : ℕ}

/-- What the lookups find behind the three steps, if no parent is changed any more. -/
theorem renamed_entries
    (asked : Asked h s old new moved) (apart : (old.parent, old.name) ≠ (new.parent, new.name))
    (free : Sets s s₁ new.parent new.name none)
    (set : Sets s₁ s₂ new.parent new.name
      (some ((s moved).stIno, (incoreDTypeof (s moved).stMode).toNat)))
    (gone : Sets s₂ s₃ old.parent old.name none) (same : ∀ a, a ≠ moved → s' a = s₃ a)
    (parent : sIsDir (s moved).stMode = true → parentNumber (s' moved).dir = (s new.parent).stIno) :
    Renamed s s' old new moved := by
  constructor
  · rw [same _ asked.apart.2.symm]
    exact gone.keeps apart.symm set.now
  · rw [same _ asked.apart.1.symm]
    exact gone.now
  · intro p hp name hold hnew e before
    have hp' : p ≠ moved := by
      rcases List.mem_cons.mp hp with rfl | hp
      · exact asked.apart.1.symm
      · rw [List.mem_singleton.mp hp]
        exact asked.apart.2.symm
    rw [same p hp']
    exact gone.keeps hold (set.keeps hnew (free.keeps hnew before))
  · exact parent

/-- The steps leave the moved inode alone, and all numbers. -/
theorem moved_alone (asked : Asked h s old new moved) {found : Option (ℕ × ℕ)}
    (free : Sets s s₁ new.parent new.name none) (set : Sets s₁ s₂ new.parent new.name found)
    (gone : Sets s₂ s₃ old.parent old.name none) :
    s₃ moved = s moved ∧ (s₃ new.parent).stIno = (s new.parent).stIno := by
  constructor
  · exact (gone.rest _ asked.apart.1).trans
      ((set.rest _ asked.apart.2).trans (free.rest _ asked.apart.2))
  · exact (gone.attrs _).1.trans ((set.attrs _).1.trans (free.attrs _).1)

theorem renamed_movable (asked : Asked h s old new moved)
    (run : sysioIncoreDiropRename h old new s = .ok (0, s'))
    (renamed : Renamed s s' old new moved) : Movable s old new moved := by
  have apart : (old.parent, old.name) ≠ (new.parent, new.name) := by
    intro hsame
    rcases Prod.mk.inj hsame with ⟨hparent, hname⟩
    have here := renamed.here
    rw [← hparent, ← hname] at here
    exact absurd (here.unique renamed.gone) (by simp)
  have plain : old.name ∉ [[DOT], dotDotName] ∧ new.name ∉ [[DOT], dotDotName] := by
    constructor
    · intro dots
      rw [rename_dots asked (Or.inl dots)] at run
      exact nomatch run
    · intro dots
      rw [rename_dots asked (Or.inr dots)] at run
      exact nomatch run
  refine ⟨apart, plain, ?_⟩
  intro hdir
  rcases rename_run asked apart plain with ⟨s₁, s₂, s₃, free, set, gone, hrun⟩
  rcases moved_alone asked free set gone with ⟨hmoved, hnumber⟩
  rw [hrun] at run
  rcases bind_ok.mp run with ⟨u, s₄, hwhen, hend⟩
  rcases pure_ok.mp hend with ⟨-, rfl⟩
  rcases when_ok.mp hwhen with ⟨-, hpatch⟩ | ⟨hno, -⟩
  · rcases patchParent_ok hpatch with ⟨chance, hs'⟩
    rw [hmoved] at chance
    refine ⟨chance, ?_⟩
    have hback := renamed.parent hdir
    rw [hs', setDir_here, hmoved, parentNumber_patched (asked.movedDir hdir) chance] at hback
    exact hback
  · exact absurd hdir hno

theorem movable_renamed (asked : Asked h s old new moved) (movable : Movable s old new moved) :
    ∃ s', sysioIncoreDiropRename h old new s = .ok (0, s') ∧ Renamed s s' old new moved := by
  rcases rename_run asked movable.apart movable.plain with ⟨s₁, s₂, s₃, free, set, gone, hrun⟩
  rcases moved_alone asked free set gone with ⟨hmoved, hnumber⟩
  by_cases hdir : sIsDir (s moved).stMode = true
  · rcases movable.chance hdir with ⟨chance, hback⟩
    rw [← hmoved] at chance
    have hpatch := @patchParent_run s₃ moved new.parent chance
    have hwhen := when_ok.mpr (Or.inl ⟨hdir, hpatch⟩)
    let patched := patchedDir (s₃ moved).dir (s₃ new.parent).stIno
    have hother : ∀ a, a ≠ moved → setDir s₃ moved patched a = s₃ a :=
      fun a ha => setDir_other ha s₃ patched
    refine ⟨setDir s₃ moved patched, ?_, renamed_entries asked movable.apart free set gone hother
      ?_⟩
    · rw [hrun, bind_run hwhen]
      rfl
    · intro _
      have dir : IsDirectory (s₃ moved).dir := by
        rw [hmoved]
        exact asked.movedDir hdir
      rw [setDir_here, parentNumber_patched dir chance, hmoved]
      exact hback
  · have hwhen : Exec.when (sIsDir (s moved).stMode = true) (patchParent moved new.parent) s₃ =
        .ok ((), s₃) := when_ok.mpr (Or.inr ⟨hdir, rfl⟩)
    refine ⟨s₃, ?_, renamed_entries asked movable.apart free set gone (fun _ _ => rfl)
      fun hyes => absurd hyes hdir⟩
    rw [hrun, bind_run hwhen]
    rfl

/-- A rename does what it is to do exactly if the two entries are different, neither is one of the
first two of its directory, and a moved directory has its new parent's number already and a dot
dot where `de++` leads. -/
theorem incore_rename (asked : Asked h s old new moved) :
    (∃ s', sysioIncoreDiropRename h old new s = .ok (0, s') ∧ Renamed s s' old new moved) ↔
      Movable s old new moved := by
  constructor
  · rintro ⟨s', run, renamed⟩
    exact renamed_movable asked run renamed
  · exact movable_renamed asked

end Renames

section Example

/-- A directory in which a directory and a file are made. -/
def homeRun : Fd (Bool × ℤ × ℤ) := do
  let made ← incoreDirectoryNew ⟨true, fun _ => 7⟩ 1 1
  let sub ← incoreDirectoryInsert ⟨true, fun _ => 7⟩ [100] 2 4
  let file ← incoreDirectoryInsert ⟨true, fun _ => 7⟩ [102] 3 8
  return (made, sub, file)

def subRun : Fd Bool := incoreDirectoryNew ⟨true, fun _ => 7⟩ 2 1

def home : Icinodes
  | 0 => ⟨1, 0o40755, homeRun.final allocated⟩
  | 1 => ⟨2, 0o40755, subRun.final allocated⟩
  | _ => ⟨3, 0o100644, ⟨[], 0, 1⟩⟩

theorem home_directory : IsDirectory (home 0).dir := by
  have hvalue : homeRun.value allocated = some (true, 0, 0) := by decide +kernel
  have run := ok_of_value hvalue
  simp only [home]
  generalize homeRun.final allocated = d at run ⊢
  rcases bind_ok.mp run with ⟨made, d₁, run₁, run⟩
  rcases bind_ok.mp run with ⟨sub, d₂, run₂, run⟩
  rcases bind_ok.mp run with ⟨file, d₃, run₃, run⟩
  rcases pure_ok.mp run with ⟨hend, rfl⟩
  simp only [Prod.mk.injEq] at hend
  rcases hend with ⟨rfl, rfl, rfl⟩
  have reached := Reached.insert (Reached.insert (Reached.new run₁) (by decide) (by decide) run₂)
    (by decide) (by decide) run₃
  exact (reached_listing reached).1

theorem sub_directory : IsDirectory (home 1).dir := by
  have hvalue : subRun.value allocated = some true := by decide +kernel
  exact (reached_listing (Reached.new (ok_of_value hvalue))).1

theorem entry_of_value {d : Directory} {name : Bytes} {found : Option (ℕ × ℕ)}
    (dir : IsDirectory d) (h : (entryNamed name).value d = some found) : Entry d name found := by
  rcases dir with ⟨rs, list⟩
  have hentry := entry_find list name
  have hsame := (ok_of_value h).symm.trans hentry
  rcases Prod.mk.inj (Except.ok.inj hsame) with ⟨rfl, -⟩
  exact hentry

/-- What is looked up in the example. -/
theorem home_values : (entryNamed [100]).value (home 0).dir = some (some (2, 4)) ∧
    (entryNamed [102]).value (home 0).dir = some (some (3, 8)) ∧
    (entryNamed [98]).value (home 0).dir = some none ∧ (home 0).dir.stSize < 2 ^ 32 := by
  decide +kernel

theorem home_asked {name : Bytes} {moved : ℕ} (hmoved : moved = 1 ∨ moved = 2)
    (entry : Entry (home 0).dir name
      (some ((home moved).stIno, (incoreDTypeof (home moved).stMode).toNat))) :
    Asked ⟨true, fun _ => 7⟩ home ⟨0, name, some moved⟩ ⟨0, [98], none⟩ moved := by
  rcases home_values with ⟨-, -, hfree, hsmall⟩
  have hmode : sIsDir (home 0).stMode = true := by decide
  constructor
  · rfl
  · rcases hmoved with rfl | rfl <;> decide
  · exact ⟨hmode, home_directory⟩
  · exact ⟨hmode, home_directory⟩
  · intro hdir
    rcases hmoved with rfl | rfl
    · exact sub_directory
    · exact absurd hdir (by decide)
  · exact entry
  · change moved ≠ 0 ∧ moved ≠ 0
    omega
  · intro _
    exact entry_of_value home_directory hfree
  · intro t ht
    exact nomatch ht
  · exact ⟨by decide, by decide⟩
  · refine ⟨rfl, ?_⟩
    have hlen : incoreDReclen (⟨0, [98], none⟩ : PathNode).name.length = 24 := by decide
    rw [hlen]
    have hroom : ∀ n, n < 2 ^ 32 → n + 24 < 2 ^ 63 := by
      intro n hn
      omega
    exact hroom _ hsmall

/-- A file gets another name. -/
theorem file_renamed : ∃ s', sysioIncoreDiropRename ⟨true, fun _ => 7⟩ ⟨0, [102], some 2⟩
      ⟨0, [98], none⟩ home = .ok (0, s') ∧
    Renamed home s' ⟨0, [102], some 2⟩ ⟨0, [98], none⟩ 2 := by
  have asked := home_asked (Or.inr rfl) (entry_of_value home_directory home_values.2.1)
  apply (incore_rename asked).mpr
  constructor
  · decide
  · exact ⟨by decide, by decide⟩
  · intro hdir
    exact absurd hdir (by decide)

/-- A new directory gets no other name: what is 280 bytes behind its first record is not even in
its data. -/
theorem directory_not_renamed :
    Asked ⟨true, fun _ => 7⟩ home ⟨0, [100], some 1⟩ ⟨0, [98], none⟩ 1 ∧
    ¬ ∃ s', sysioIncoreDiropRename ⟨true, fun _ => 7⟩ ⟨0, [100], some 1⟩ ⟨0, [98], none⟩ home =
        .ok (0, s') ∧ Renamed home s' ⟨0, [100], some 1⟩ ⟨0, [98], none⟩ 1 := by
  have asked := home_asked (Or.inl rfl) (entry_of_value home_directory home_values.1)
  refine ⟨asked, ?_⟩
  rintro ⟨s', run, renamed⟩
  have movable := renamed_movable asked run renamed
  have chance := (movable.chance (by decide)).1
  have hdata : fetch (home 1).dir.data (direntSize + 19) 3 = [] := by decide +kernel
  rw [hdata] at chance
  exact nomatch chance

end Example

end IncoreRename
