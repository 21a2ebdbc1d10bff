import DirectFuse.SysioState
import Mathlib.Order.Monotone.Basic

/-! Directory streams (readdir.c, stddir.c and getdirentries.c). A stream has a buffer and two
positions of its own, while the driver goes on from the position of the open file. -/
namespace DirStream

open SysioState

def BUFSIZE : ℕ := 4096

/-- `_dreclen`. -/
def dreclen (namlen : ℕ) : ℕ := (19 + namlen + 8) / 8 * 8

/-- A record of a directory, as a driver fills it in. It has room for its name. -/
structure Entry where
  ino : ℕ
  off : ℤ
  name : Bytes
  reclen : ℕ
  room : dreclen name.length ≤ reclen
  deriving DecidableEq, Repr

/-- The record as `struct dirent`, with a length of its own. -/
def Entry.converted (e : Entry) : Entry :=
  { e with reclen := dreclen e.name.length, room := Nat.le_refl _ }

def bytesOf (l : List Entry) : ℕ := (l.map Entry.reclen).sum

abbrev Errno := { e : ℕ // 0 < e }

/-- `inop_filldirentries`: the records put into the buffer and the new position. -/
structure Driver where
  fill : ℤ → ℕ → Except Errno (List Entry × ℤ)

/-- What a call that fills a buffer gives back. -/
structure Filled where
  cc : ℤ
  records : List Entry
  fPos : ℤ
  basep : Option ℤ
  deriving DecidableEq, Repr

/-- `filldirents` on an open directory at `fPos`. -/
def filldirents (d : Driver) (fPos : ℤ) (nbytes : ℕ) : Filled :=
  match d.fill fPos nbytes with
  | .error e => ⟨-e.val, [], fPos, none⟩
  | .ok (l, pos) => ⟨bytesOf l, l, pos, some fPos⟩

/-- `getdirentries64`. -/
def getdirentries64 (d : Driver) (fPos : ℤ) (nbytes : ℕ) : Filled :=
  let r := filldirents d fPos nbytes
  { r with cc := if r.cc < 0 then -1 else r.cc }

/-- The loop of `getdirentries`, which moves the open file behind each record it converts. The
fields of both record types have the same widths, so no conversion fails. -/
def convert : List Entry → ℤ → List Entry × ℤ
  | [], fPos => ([], fPos)
  | e :: l, _ => (e.converted :: (convert l e.off).1, (convert l e.off).2)

/-- `getdirentries`. -/
def getdirentries (d : Driver) (fPos : ℤ) (nbytes : ℕ) : Filled :=
  let r := filldirents d fPos nbytes
  if r.cc < 0 then { r with cc := -1, basep := none }
  else
    let (l, pos) := convert r.records r.fPos
    ⟨bytesOf l, l, pos, r.basep⟩

/-- The two variants of the functions on directories. -/
inductive Variant where
  | readdir
  | readdir64
  deriving DecidableEq, Repr

def Variant.get : Variant → Driver → ℤ → ℕ → Filled
  | .readdir => getdirentries
  | .readdir64 => getdirentries64

/-- The record a caller sees for one of the driver's. -/
def Variant.shown : Variant → Entry → Entry
  | .readdir => Entry.converted
  | .readdir64 => id

/-- `struct __dirstream`, with the position of its open file. -/
structure Dir where
  base : ℤ
  filepos : ℤ
  cur : ℕ
  effective : ℕ
  buf : List Entry
  fPos : ℤ
  deriving DecidableEq, Repr

/-- `opendir`. -/
def opendir : Dir := ⟨0, 0, 0, 0, [], 0⟩

/-- The record that starts at a byte of the buffer. -/
def recordAt : List Entry → ℕ → Option Entry
  | [], _ => none
  | e :: l, n =>
    if n = 0 then some e
    else if e.reclen ≤ n then recordAt l (n - e.reclen)
    else none

/-- The end of `readdir`, on a buffer with something left. -/
def takeRecord (dir : Dir) : Option Entry × Dir :=
  match recordAt dir.buf dir.cur with
  | none => (none, dir)
  | some dp => (some dp, { dir with cur := dir.cur + dp.reclen, filepos := dp.off })

/-- `readdir` and `readdir64`. -/
def readdir (v : Variant) (d : Driver) (dir : Dir) : Option Entry × Dir :=
  if dir.effective ≤ dir.cur then
    let r := v.get d dir.fPos BUFSIZE
    let dir := { dir with cur := 0, base := r.basep.getD dir.base, fPos := r.fPos }
    if r.cc ≤ 0 then
      (none, { dir with effective := 0 })
    else
      takeRecord { dir with effective := r.cc.toNat, buf := r.records }
  else
    takeRecord dir

def telldir (dir : Dir) : ℤ := dir.filepos

def seekdir (dir : Dir) (offset : ℤ) : Dir :=
  { dir with filepos := offset, base := offset, effective := 0, cur := 0 }

def rewinddir (dir : Dir) : Dir :=
  { dir with base := 0, filepos := 0, cur := 0, effective := 0 }

/-- The stream after `k` calls of `readdir`. -/
def after (v : Variant) (d : Driver) : ℕ → Dir → Dir
  | 0, dir => dir
  | k + 1, dir => (readdir v d (after v d k dir)).2

/-- Reading a stream until there is nothing more. -/
inductive ReadsToEnd (v : Variant) (d : Driver) : Dir → List Entry → Dir → Prop where
  | done {dir t : Dir} (h : readdir v d dir = (none, t)) : ReadsToEnd v d dir [] t
  | more {dir u t : Dir} {e : Entry} {l : List Entry} (h : readdir v d dir = (some e, u))
      (rest : ReadsToEnd v d u l t) : ReadsToEnd v d dir (e :: l) t

/-- The position before entry `k`: behind the entry in front of it. -/
def position (entries : List Entry) : ℕ → ℤ
  | 0 => 0
  | k + 1 => (entries[k]?.map Entry.off).getD 0

/-- How many entries the driver gives for a buffer from entry `k` on. -/
def given (d : Driver) (entries : List Entry) (k : ℕ) : ℕ :=
  match d.fill (position entries k) BUFSIZE with
  | .ok (l, _) => l.length
  | .error _ => 0

/-- The driver continues from the file position: from each entry on it gives the next ones, at
least one until the end, and leaves the position behind them. Positions tell entries apart. -/
structure Continues (d : Driver) (entries : List Entry) : Prop where
  distinct : ∀ j k, j ≤ entries.length → k ≤ entries.length →
    position entries j = position entries k → j = k
  fill : ∀ k ≤ entries.length, d.fill (position entries k) BUFSIZE =
    .ok ((entries.drop k).take (given d entries k), position entries (k + given d entries k))
  given_le : ∀ k ≤ entries.length, k + given d entries k ≤ entries.length
  given_pos : ∀ k < entries.length, 0 < given d entries k

/-- Where the buffers end, one after the other. -/
def boundary (d : Driver) (entries : List Entry) : ℕ → ℕ
  | 0 => 0
  | i + 1 => boundary d entries i + given d entries (boundary d entries i)

/-- Reading to the end, rewinding and reading to the end again gives the same list. -/
def Rewinds (v : Variant) (d : Driver) : Prop :=
  ∃ l t t', ReadsToEnd v d opendir l t ∧ ReadsToEnd v d (rewinddir t) l t'

/-- Going back to where `telldir` was after `k` calls, `m` calls later, gives entry `k` next. -/
def SeeksBack (v : Variant) (d : Driver) (entries : List Entry) (k m : ℕ) : Prop :=
  (readdir v d (seekdir (after v d (k + m) opendir) (telldir (after v d k opendir)))).1 =
    entries[k]?.map v.shown

section Records

variable {v : Variant}

theorem reclen_pos (e : Entry) : 0 < e.reclen := by
  have hroom := e.room
  have hname : 0 < dreclen e.name.length := by
    unfold dreclen
    omega
  omega

@[simp] theorem bytesOf_nil : bytesOf [] = 0 := rfl

theorem bytesOf_cons (e : Entry) (l : List Entry) : bytesOf (e :: l) = e.reclen + bytesOf l := by
  simp [bytesOf]

theorem bytesOf_append (l m : List Entry) : bytesOf (l ++ m) = bytesOf l + bytesOf m := by
  simp [bytesOf]

theorem bytesOf_pos {l : List Entry} (h : l ≠ []) : 0 < bytesOf l := by
  cases l with
  | nil => exact absurd rfl h
  | cons e l =>
    have := reclen_pos e
    rw [bytesOf_cons]
    omega

@[simp] theorem shown_off (e : Entry) : (v.shown e).off = e.off := by
  cases v <;> rfl

/-- The record behind some others starts where they end. -/
theorem recordAt_behind (front : List Entry) (e : Entry) (rest : List Entry) :
    recordAt (front ++ e :: rest) (bytesOf front) = some e := by
  induction front with
  | nil => rfl
  | cons f l ih =>
    have := reclen_pos f
    rw [List.cons_append, recordAt, bytesOf_cons, if_neg (by omega), if_pos (by omega),
      Nat.add_sub_cancel_left, ih]

end Records

section Run

variable {v : Variant} {d : Driver} {entries : List Entry}

/-- The next `c` records from entry `k` on, as a caller sees them. -/
def Variant.chunk (v : Variant) (entries : List Entry) (k c : ℕ) : List Entry :=
  ((entries.drop k).take c).map v.shown

@[simp] theorem chunk_none (k : ℕ) : v.chunk entries k 0 = [] := by
  simp [Variant.chunk]

theorem chunk_cons {k c : ℕ} (hk : k < entries.length) :
    v.chunk entries k (c + 1) =
      v.shown (entries.get ⟨k, hk⟩) :: v.chunk entries (k + 1) c := by
  rw [Variant.chunk, List.drop_eq_getElem_cons hk, List.take_succ_cons, List.map_cons]
  rfl

theorem position_succ {k : ℕ} (hk : k < entries.length) :
    position entries (k + 1) = (entries.get ⟨k, hk⟩).off := by
  rw [position, List.getElem?_eq_getElem hk]
  rfl

/-- The conversion keeps the records and ends behind the last one. -/
theorem convert_chunk (c k : ℕ) (h : k + c ≤ entries.length) :
    convert ((entries.drop k).take c) (position entries k) =
      (Variant.readdir.chunk entries k c, position entries (k + c)) := by
  induction c generalizing k with
  | zero => simp [convert, chunk_none]
  | succ c ih =>
    have hk : k < entries.length := by omega
    have hrest := ih (k + 1) (by omega)
    rw [position_succ hk] at hrest
    rw [chunk_cons hk, List.drop_eq_getElem_cons hk, List.take_succ_cons, convert]
    have hoff : k + (c + 1) = k + 1 + c := by omega
    rw [List.get_eq_getElem] at hrest
    rw [hoff, hrest]
    rfl

/-- The conversion does not look at the position it starts from, unless there is no record. -/
theorem convert_from (e : Entry) (l : List Entry) (p q : ℤ) :
    convert (e :: l) p = convert (e :: l) q := rfl

/-- What a full buffer is: the driver's next records, and the file behind them. -/
theorem get_eq (h : Continues d entries) {k : ℕ} (hk : k ≤ entries.length) :
    v.get d (position entries k) BUFSIZE =
      ⟨bytesOf (v.chunk entries k (given d entries k)), v.chunk entries k (given d entries k),
        position entries (k + given d entries k), some (position entries k)⟩ := by
  have hfill := h.fill k hk
  have hle := h.given_le k hk
  generalize hc : given d entries k = c at hfill hle ⊢
  have hcc : ∀ n : ℕ, ¬ (n : ℤ) < 0 := fun n => by omega
  cases v with
  | readdir64 =>
    simp only [Variant.get, getdirentries64, filldirents, hfill, if_neg (hcc _), Variant.chunk,
      Variant.shown, List.map_id]
  | readdir =>
    have hconvert : convert ((entries.drop k).take c) (position entries (k + c)) =
        (Variant.readdir.chunk entries k c, position entries (k + c)) := by
      rw [← convert_chunk c k hle]
      cases hl : (entries.drop k).take c with
      | nil =>
        have hzero : c = 0 := by
          have := congrArg List.length hl
          simp at this
          omega
        rw [hzero, Nat.add_zero]
      | cons e l => exact convert_from e l _ _
    simp only [Variant.get, getdirentries, filldirents, hfill, if_neg (hcc _), hconvert]

/-- The buffer still holds entries `j` to `b`, and the open file is at entry `b`. -/
structure At (v : Variant) (entries : List Entry) (dir : Dir) (j b : ℕ) : Prop where
  le : j ≤ b
  top : b ≤ entries.length
  fPos : dir.fPos = position entries b
  window : ∃ front junk, dir.buf = front ++ v.chunk entries j (b - j) ++ junk ∧
    dir.cur = bytesOf front ∧ dir.effective = bytesOf front + bytesOf (v.chunk entries j (b - j))

theorem opendir_at : At v entries opendir 0 0 := by
  refine ⟨Nat.le_refl 0, Nat.zero_le _, rfl, [], [], ?_⟩
  simp [opendir, bytesOf]

/-- Going somewhere else only forgets the buffer. -/
theorem seekdir_at {dir : Dir} {j b : ℕ} (h : At v entries dir j b) (p : ℤ) :
    At v entries (seekdir dir p) b b := by
  refine ⟨Nat.le_refl b, h.top, h.fPos, [], dir.buf, ?_⟩
  simp [seekdir, bytesOf]

theorem rewinddir_at {dir : Dir} {j b : ℕ} (h : At v entries dir j b) :
    At v entries (rewinddir dir) b b := seekdir_at h 0

/-- A record is taken from the buffer. -/
theorem takeRecord_at {dir : Dir} {j b : ℕ} (h : At v entries dir j b) (hj : j < b)
    (hlen : j < entries.length) :
    ∃ t, takeRecord dir = (some (v.shown (entries.get ⟨j, hlen⟩)), t) ∧
      At v entries t (j + 1) b ∧ t.filepos = position entries (j + 1) := by
  rcases h.window with ⟨front, junk, hbuf, hcur, heff⟩
  have hleft : b - j = b - (j + 1) + 1 := by omega
  rw [hleft, chunk_cons hlen] at hbuf heff
  generalize hdp : v.shown (entries.get ⟨j, hlen⟩) = dp at hbuf heff ⊢
  have hrecord : recordAt dir.buf dir.cur = some dp := by
    rw [hbuf, hcur, List.append_assoc, List.cons_append, recordAt_behind]
  refine ⟨{ dir with cur := dir.cur + dp.reclen, filepos := dp.off }, ?_, ?_, ?_⟩
  · rw [takeRecord, hrecord]
  · refine ⟨hj, h.top, h.fPos, front ++ [dp], junk, ?_, ?_, ?_⟩
    · simp [hbuf]
    · simp [hcur, bytesOf]
    · simp only [heff, bytesOf_append, bytesOf_cons]
      simp [bytesOf]
      omega
  · rw [position_succ hlen, ← hdp]
    exact shown_off _

/-- A call of `readdir` before the end: the next entry, out of the buffer or out of a new one. -/
theorem readdir_next (h : Continues d entries) {dir : Dir} {j b : ℕ} (at_ : At v entries dir j b)
    (hlen : j < entries.length) :
    ∃ t, readdir v d dir = (some (v.shown (entries.get ⟨j, hlen⟩)), t) ∧
      At v entries t (j + 1) (if j < b then b else b + given d entries b) ∧
      t.filepos = position entries (j + 1) := by
  rcases at_.window with ⟨front, junk, hbuf, hcur, heff⟩
  by_cases hj : j < b
  · have hfull : 0 < bytesOf (v.chunk entries j (b - j)) := by
      have hleft : b - j = b - (j + 1) + 1 := by omega
      apply bytesOf_pos
      rw [hleft, chunk_cons hlen]
      simp
    rw [readdir, if_neg (by omega), if_pos hj]
    exact takeRecord_at at_ hj hlen
  · have hb : j = b := by
      have := at_.le
      omega
    subst hb
    have hpos := h.given_pos j hlen
    have hnew : At v entries
        { dir with
          cur := 0
          base := position entries j
          fPos := position entries (j + given d entries j)
          effective := bytesOf (v.chunk entries j (given d entries j))
          buf := v.chunk entries j (given d entries j) } j (j + given d entries j) := by
      have hmany : j + given d entries j - j = given d entries j := by omega
      refine ⟨by omega, h.given_le j at_.top, rfl, [], [], ?_⟩
      rw [hmany]
      simp [bytesOf]
    have hfull : 0 < bytesOf (v.chunk entries j (given d entries j)) := by
      have hleft : given d entries j = given d entries j - 1 + 1 := by omega
      apply bytesOf_pos
      rw [hleft, chunk_cons hlen]
      simp
    rw [Nat.sub_self, chunk_none, bytesOf_nil] at heff
    rw [readdir, if_pos (by omega), if_neg hj, at_.fPos,
      get_eq h at_.top]
    simp only [Option.getD_some]
    rw [if_neg (by omega)]
    exact takeRecord_at hnew (by omega) hlen

/-- A call of `readdir` at the end: nothing, and the stream stays there. -/
theorem readdir_end (h : Continues d entries) {dir : Dir}
    (at_ : At v entries dir entries.length entries.length) :
    ∃ t, readdir v d dir = (none, t) ∧ At v entries t entries.length entries.length ∧
      t.filepos = dir.filepos := by
  rcases at_.window with ⟨front, junk, hbuf, hcur, heff⟩
  have hzero : given d entries entries.length = 0 := by
    have := h.given_le entries.length (Nat.le_refl _)
    omega
  rw [Nat.sub_self, chunk_none, bytesOf_nil] at heff
  rw [readdir, if_pos (by omega), at_.fPos, get_eq h (Nat.le_refl _), hzero,
    chunk_none]
  have hnone : (bytesOf ([] : List Entry) : ℤ) ≤ 0 := by
    rw [bytesOf_nil]
    omega
  simp only [Option.getD_some]
  rw [if_pos hnone]
  refine ⟨_, rfl, ?_, rfl⟩
  refine ⟨Nat.le_refl _, Nat.le_refl _, rfl, [], dir.buf, ?_⟩
  simp [bytesOf]

/-- An entry of the list, told by its position. -/
theorem readdir_at (h : Continues d entries) {dir : Dir} {b : ℕ} (at_ : At v entries dir b b) :
    (readdir v d dir).1 = entries[b]?.map v.shown := by
  by_cases hlen : b < entries.length
  · rcases readdir_next h at_ hlen with ⟨t, run, -⟩
    rw [run, List.getElem?_eq_getElem hlen]
    rfl
  · have hb : b = entries.length := by
      have := at_.top
      omega
    subst hb
    rcases readdir_end h at_ with ⟨t, run, -⟩
    rw [run, List.getElem?_eq_none (Nat.le_refl _)]
    rfl

/-- Reading on from entry `j` gives the rest of the directory and ends behind it. -/
theorem readsToEnd_at (h : Continues d entries) {dir t : Dir} {l : List Entry}
    (run : ReadsToEnd v d dir l t) {j b : ℕ} (at_ : At v entries dir j b) :
    l = (entries.drop j).map v.shown ∧ At v entries t entries.length entries.length := by
  induction run generalizing j b with
  | done hend =>
    by_cases hlen : j < entries.length
    · rcases readdir_next h at_ hlen with ⟨u, hsome, -⟩
      rw [hend] at hsome
      simp at hsome
    · have hle := at_.le
      have htop := at_.top
      have hj : j = entries.length := by omega
      have hb : b = entries.length := by omega
      rw [hj, hb] at at_
      rcases readdir_end h at_ with ⟨u, hnone, hat, -⟩
      rw [hend] at hnone
      rw [(Prod.mk.inj hnone).2, hj, List.drop_length]
      exact ⟨rfl, hat⟩
  | more hsome _ ih =>
    by_cases hlen : j < entries.length
    · rcases readdir_next h at_ hlen with ⟨u, hnext, hat, -⟩
      rw [hsome] at hnext
      rcases Prod.mk.inj hnext with ⟨hentry, rfl⟩
      rcases ih hat with ⟨rfl, hend⟩
      rw [Option.some.inj hentry, List.drop_eq_getElem_cons hlen]
      exact ⟨rfl, hend⟩
    · have hle := at_.le
      have htop := at_.top
      have hj : j = entries.length := by omega
      have hb : b = entries.length := by omega
      rw [hj, hb] at at_
      rcases readdir_end h at_ with ⟨u, hnone, -⟩
      rw [hsome] at hnone
      simp at hnone

/-- After a rewind at the end there is nothing more to read. -/
theorem rewinds_iff (h : Continues d entries) : Rewinds v d ↔ entries = [] := by
  constructor
  · rintro ⟨l, t, t', first, second⟩
    rcases readsToEnd_at h first opendir_at with ⟨rfl, hend⟩
    have hempty := (readsToEnd_at h second (rewinddir_at hend)).1
    rw [List.drop_length, List.drop_zero] at hempty
    exact List.map_eq_nil_iff.mp hempty
  · rintro rfl
    have hstart : At v ([] : List Entry) opendir 0 0 := opendir_at
    rcases readdir_end h hstart with ⟨t, hnone, hend, -⟩
    rcases readdir_end h (rewinddir_at hend) with ⟨t', hnone', -⟩
    exact ⟨[], t, t', .done hnone, .done hnone'⟩

theorem boundary_mono : Monotone (boundary d entries) :=
  monotone_nat_of_le_succ fun i => Nat.le_add_right (boundary d entries i) _

/-- Behind `k` calls: the stream at entry `k`, and the open file at the end of the buffer. -/
theorem after_at (h : Continues d entries) (k : ℕ) (hk : k ≤ entries.length) :
    ∃ i, At v entries (after v d k opendir) k (boundary d entries i) ∧
      (after v d k opendir).filepos = position entries k ∧
      ∀ i', k ≤ boundary d entries i' → boundary d entries i ≤ boundary d entries i' := by
  induction k with
  | zero => exact ⟨0, opendir_at, rfl, fun i' _ => Nat.zero_le _⟩
  | succ k ih =>
    rcases ih (by omega) with ⟨i, at_, -, least⟩
    rcases readdir_next h at_ hk with ⟨t, run, hat, hpos⟩
    have hafter : after v d (k + 1) opendir = t := by rw [after, run]
    rw [hafter]
    by_cases hin : k < boundary d entries i
    · rw [if_pos hin] at hat
      exact ⟨i, hat, hpos, fun i' hi' => least i' (by omega)⟩
    · rw [if_neg hin] at hat
      refine ⟨i + 1, hat, hpos, ?_⟩
      intro i' hi'
      have hle := at_.le
      have hlater : i + 1 ≤ i' := by
        by_contra hbefore
        have := @boundary_mono d entries i' i (by omega)
        omega
      exact boundary_mono hlater

/-- However often `readdir` is called, the stream is at that entry or at the end. -/
theorem after_reaches (h : Continues d entries) (k : ℕ) :
    ∃ b, At v entries (after v d k opendir) (min k entries.length) b := by
  induction k with
  | zero =>
    rw [Nat.zero_min]
    exact ⟨0, opendir_at⟩
  | succ k ih =>
    rcases ih with ⟨b, at_⟩
    by_cases hlen : k < entries.length
    · rw [Nat.min_eq_left (by omega)] at at_
      rw [Nat.min_eq_left (by omega)]
      rcases readdir_next h at_ hlen with ⟨t, run, hat, -⟩
      have hafter : after v d (k + 1) opendir = t := by rw [after, run]
      rw [hafter]
      exact ⟨_, hat⟩
    · have hle := at_.le
      have htop := at_.top
      rw [Nat.min_eq_right (by omega)] at at_ hle
      have hb : b = entries.length := by omega
      rw [hb] at at_
      rcases readdir_end h at_ with ⟨t, run, hat, -⟩
      have hafter : after v d (k + 1) opendir = t := by rw [after, run]
      rw [hafter, Nat.min_eq_right (by omega)]
      exact ⟨_, hat⟩

/-- Different places of a directory hold different entries. -/
theorem entry_inj (h : Continues d entries) {j k : ℕ} (hj : j ≤ entries.length)
    (hk : k ≤ entries.length)
    (heq : entries[j]?.map v.shown = entries[k]?.map v.shown) : j = k := by
  have hoff : entries[j]?.map Entry.off = entries[k]?.map Entry.off := by
    have hmap := congrArg (Option.map Entry.off) heq
    simpa only [Option.map_map, Function.comp_def, shown_off] using hmap
  by_cases hjn : j < entries.length
  · have hkn : k < entries.length := by
      by_contra hend
      rw [List.getElem?_eq_getElem hjn, List.getElem?_eq_none (by omega)] at heq
      simp at heq
    have hsucc := h.distinct (j + 1) (k + 1) hjn hkn
      (congrArg (fun o => o.getD 0) hoff)
    omega
  · have hkn : ¬ k < entries.length := by
      intro hkn
      rw [List.getElem?_eq_none (by omega), List.getElem?_eq_getElem hkn] at heq
      simp at heq
    omega

/-- Going back works at the end of the directory, and where the next entry is not yet in a
buffer. -/
theorem seeksBack_iff (h : Continues d entries) {k m : ℕ} (hk : k ≤ entries.length) :
    SeeksBack v d entries k m ↔ k = entries.length ∨ m = 0 ∧ ∃ i, boundary d entries i = k := by
  have hgoes : ∀ b, At v entries (after v d (k + m) opendir) (min (k + m) entries.length) b →
      (SeeksBack v d entries k m ↔ b = k) := by
    intro b at_
    have hread := readdir_at h (seekdir_at at_ (telldir (after v d k opendir)))
    unfold SeeksBack
    rw [hread]
    constructor
    · exact entry_inj h at_.top hk
    · rintro rfl
      rfl
  by_cases hm : m = 0
  · subst hm
    rcases after_at h k hk with ⟨i, at_, -, least⟩
    rw [hgoes (boundary d entries i) (by rw [Nat.add_zero, Nat.min_eq_left hk]; exact at_)]
    constructor
    · intro hb
      exact Or.inr ⟨rfl, i, hb⟩
    · have hle := at_.le
      rintro (hend | ⟨-, i', hb⟩)
      · have := at_.top
        omega
      · have := least i' (by omega)
        omega
  · rcases after_reaches (v := v) h (k + m) with ⟨b, at_⟩
    rw [hgoes b at_]
    have hle := at_.le
    have htop := at_.top
    constructor
    · intro hb
      left
      rw [hb] at hle
      omega
    · rintro (hend | ⟨hzero, -⟩)
      · rw [Nat.min_eq_right (by omega)] at hle
        omega
      · exact absurd hzero hm

/-- Rewinding works on an empty directory only; going back works at the end and, with no call
since, at the end of a buffer. -/
theorem stream_repositioning (h : Continues d entries) :
    (Rewinds v d ↔ entries = []) ∧
    ∀ k m, k ≤ entries.length → (SeeksBack v d entries k m ↔
      k = entries.length ∨ m = 0 ∧ ∃ i, boundary d entries i = k) :=
  ⟨rewinds_iff h, fun _ _ hk => seeksBack_iff h hk⟩

end Run

def dotEntry : Entry := ⟨2, 1, [46], 24, by decide⟩

/-- A driver of one entry, which stands between positions 0 and 1. -/
def oneEntry : Driver where
  fill pos _ := .ok (if pos = 0 then [dotEntry] else [], 1)

theorem oneEntry_continues : Continues oneEntry [dotEntry] := by
  have hcases : ∀ k ≤ 1, k = 0 ∨ k = 1 := by
    intro k hk
    omega
  constructor
  · intro j k hj hk
    rcases hcases j hj with rfl | rfl <;> rcases hcases k hk with rfl | rfl <;> decide
  · intro k hk
    rcases hcases k hk with rfl | rfl <;> rfl
  · intro k hk
    rcases hcases k hk with rfl | rfl <;> decide
  · intro k hk
    have hzero : k = 0 := Nat.lt_one_iff.mp hk
    subst hzero
    decide

theorem stream_repositioning_one :
    (Rewinds .readdir oneEntry ↔ [dotEntry] = []) ∧
    ∀ k m, k ≤ 1 → (SeeksBack .readdir oneEntry [dotEntry] k m ↔
      k = 1 ∨ m = 0 ∧ ∃ i, boundary oneEntry [dotEntry] i = k) :=
  stream_repositioning oneEntry_continues

/-- The one entry is not read again after a rewind. -/
theorem rewind_loses : ¬ ∀ d entries, Continues d entries → Rewinds .readdir d ∧
    ∀ k m, k ≤ entries.length → SeeksBack .readdir d entries k m := by
  intro all
  have hempty := (rewinds_iff oneEntry_continues).mp (all _ _ oneEntry_continues).1
  exact absurd hempty (by decide)

end DirStream
