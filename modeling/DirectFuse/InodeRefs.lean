import DirectFuse.CoreMoves
import DirectFuse.SysioSystem
import DirectFuse.Tally
import Mathlib.Data.List.Nodup

/-! The reference counts of inodes. Base nodes, open files and I/O contexts hold references; a
piece of code in between holds some of its own, and a driver that gives up early may leak some.
The books of a state say that the counts are the sum of these. -/
namespace InodeRefs

open ExecLogic SysioState SysioInode SysioNamei SysioMount SysioFile SysioInterface SysioSystem
open CoreMoves Tally

variable {D : Type}

/-- The reference count of an inode; a freed one has none. -/
def refOf (s : Sys D) (i : InoId) : ℤ := (s.ic.inode i).elim 0 fun r => r.ref

def baseHolders (s : Sys D) (i : InoId) : ℕ :=
  tally s.nc.nextBase s.nc.base fun r => r.ino == some i

def fileHolders (s : Sys D) (i : InoId) : ℕ :=
  tally s.ft.nextFile s.ft.file fun r => r.ino == i

def ioctxHolders (s : Sys D) (i : InoId) : ℕ :=
  tally s.aio.nextIoctx s.aio.ioctx fun r => r.ino == i && !r.fast

/-- The number of base nodes, open files and heap-allocated I/O contexts on an inode. -/
def holders (s : Sys D) (i : InoId) : ℕ := baseHolders s i + fileHolders s i + ioctxHolders s i

/-- The inode cache: its list, its counter and the hash tables of the file systems agree, and the
tables hold exactly the inodes that are not zombies. -/
structure Tables (s : Sys D) : Prop where
  baseBound : ∀ b : ℕ, s.nc.nextBase ≤ b → s.nc.base b = none
  fileBound : ∀ f : ℕ, s.ft.nextFile ≤ f → s.ft.file f = none
  ioctxBound : ∀ c : ℕ, s.aio.nextIoctx ≤ c → s.aio.ioctx c = none
  inodeBound : ∀ i : ℕ, s.ic.nextInode ≤ i → s.ic.inode i = none
  fsBound : ∀ f : ℕ, s.ic.nextFs ≤ f → s.ic.filesys f = none
  inodes : ∀ i, i ∈ s.ic.inodes ↔ s.ic.inode i ≠ none
  inodesNodup : s.ic.inodes.Nodup
  nInodes : s.ic.nInodes = s.ic.inodes.length
  itbl : ∀ f r k i, s.ic.filesys f = some r → i ∈ r.itbl k →
    ∃ n, s.ic.inode i = some n ∧ n.zombie = false ∧ n.fs = f ∧ itblSlot n.fid = k
  itblNodup : ∀ f r k, s.ic.filesys f = some r → (r.itbl k).Nodup
  listed : ∀ i n, s.ic.inode i = some n → n.zombie = false →
    ∃ r, s.ic.filesys n.fs = some r ∧ i ∈ r.itbl (itblSlot n.fid)
  zombie : ∀ i n, s.ic.inode i = some n → n.zombie = true → n.ref ≠ 0

/-- Every count is the number of holders plus `due`, plus, where `lk` allows leaks, what was
leaked. -/
structure Books (lk : Prop) (due : InoId → ℤ) (s : Sys D) : Prop where
  tables : Tables s
  balance : ∃ leak : InoId → ℕ, ((∃ i, leak i ≠ 0) → lk) ∧
    ∀ i, refOf s i = holders s i + due i + leak i

/-- One reference on the inode, if there is one. -/
def one (o : Option InoId) : InoId → ℤ := fun i => if o = some i then 1 else 0

def Keep (lk : Prop) (s t : Sys D) : Prop := ∀ due, Books lk due s → Books lk due t

instance {lk : Prop} : IsPreorder (Sys D) (Keep lk) where
  refl _ _ h := h
  trans _ _ _ h k due hs := k due (h due hs)

/-- Nothing the books speak about has changed. -/
structure Aside (s t : Sys D) : Prop where
  base : t.nc.base = s.nc.base
  nextBase : t.nc.nextBase = s.nc.nextBase
  inode : t.ic.inode = s.ic.inode
  filesys : t.ic.filesys = s.ic.filesys
  inodes : t.ic.inodes = s.ic.inodes
  nInodes : t.ic.nInodes = s.ic.nInodes
  nextInode : t.ic.nextInode = s.ic.nextInode
  nextFs : t.ic.nextFs = s.ic.nextFs
  file : t.ft.file = s.ft.file
  nextFile : t.ft.nextFile = s.ft.nextFile
  ioctx : t.aio.ioctx = s.aio.ioctx
  nextIoctx : t.aio.nextIoctx = s.aio.nextIoctx

theorem Aside.keep {lk : Prop} {s t : Sys D} (h : Aside s t) : Keep lk s t := by
  intro due hs
  obtain ⟨ht, leak, hlk, hb⟩ := hs
  refine ⟨⟨?_, ?_, ?_, ?_, ?_, ?_, ?_, ?_, ?_, ?_, ?_, ?_⟩, leak, hlk, fun i => ?_⟩
  · rw [h.base, h.nextBase]; exact ht.baseBound
  · rw [h.file, h.nextFile]; exact ht.fileBound
  · rw [h.ioctx, h.nextIoctx]; exact ht.ioctxBound
  · rw [h.inode, h.nextInode]; exact ht.inodeBound
  · rw [h.filesys, h.nextFs]; exact ht.fsBound
  · rw [h.inodes, h.inode]; exact ht.inodes
  · rw [h.inodes]; exact ht.inodesNodup
  · rw [h.nInodes, h.inodes]; exact ht.nInodes
  · rw [h.filesys, h.inode]; exact ht.itbl
  · rw [h.filesys]; exact ht.itblNodup
  · rw [h.filesys, h.inode]; exact ht.listed
  · rw [h.inode]; exact ht.zombie
  · have := hb i
    simp only [refOf, holders, baseHolders, fileHolders, ioctxHolders] at this ⊢
    rw [h.base, h.nextBase, h.inode, h.file, h.nextFile, h.ioctx, h.nextIoctx]
    exact this

theorem Books.aside {lk : Prop} {due : InoId → ℤ} {s t : Sys D} (hs : Books lk due s)
    (h : Aside s t) : Books lk due t := h.keep due hs

theorem aside_write {lk : Prop} {f : Sys D → Sys D} (h : ∀ s, Aside s (f s)) :
    Moves (Keep lk) (Exec.write f : Sysio D Unit) := moves_write fun s => (h s).keep

theorem malloc_keep {lk : Prop} {e : Env D} : Moves (Keep lk) (malloc e) := by
  intro s a t h
  cases h
  exact Aside.keep ⟨rfl, rfl, rfl, rfl, rfl, rfl, rfl, rfl, rfl, rfl, rfl, rfl⟩

section Holders

variable {lk : Prop} {due : InoId → ℤ} {s : Sys D}

/-- A change of base nodes, files and contexts alone moves the books by the holders it adds. -/
theorem Books.rehold {due' : InoId → ℤ} (hs : Books lk due s) {t : Sys D} (ic : t.ic = s.ic)
    (baseBound : ∀ b : ℕ, t.nc.nextBase ≤ b → t.nc.base b = none)
    (fileBound : ∀ f : ℕ, t.ft.nextFile ≤ f → t.ft.file f = none)
    (ioctxBound : ∀ c : ℕ, t.aio.nextIoctx ≤ c → t.aio.ioctx c = none)
    (h : ∀ i, (holders s i : ℤ) + due i = holders t i + due' i) : Books lk due' t := by
  obtain ⟨ht, leak, hlk, hb⟩ := hs
  refine ⟨⟨baseBound, fileBound, ioctxBound, ?_, ?_, ?_, ?_, ?_, ?_, ?_, ?_, ?_⟩, leak, hlk,
    fun i => ?_⟩
  · rw [ic]; exact ht.inodeBound
  · rw [ic]; exact ht.fsBound
  · rw [ic]; exact ht.inodes
  · rw [ic]; exact ht.inodesNodup
  · rw [ic]; exact ht.nInodes
  · rw [ic]; exact ht.itbl
  · rw [ic]; exact ht.itblNodup
  · rw [ic]; exact ht.listed
  · rw [ic]; exact ht.zombie
  · have hi := hb i
    have := h i
    simp only [refOf, ic] at hi ⊢
    omega

theorem Tables.lt_nextBase (ht : Tables s) {b : ℕ} {r : PnodeBase} (h : s.nc.base b = some r) :
    b < s.nc.nextBase := by
  by_contra hb
  rw [ht.baseBound b (by omega)] at h
  cases h

theorem Tables.lt_nextFile (ht : Tables s) {f : ℕ} {r : File} (h : s.ft.file f = some r) :
    f < s.ft.nextFile := by
  by_contra hb
  rw [ht.fileBound f (by omega)] at h
  cases h

theorem Tables.lt_nextIoctx (ht : Tables s) {c : ℕ} {r : Ioctx} (h : s.aio.ioctx c = some r) :
    c < s.aio.nextIoctx := by
  by_contra hb
  rw [ht.ioctxBound c (by omega)] at h
  cases h

theorem weight_one {α : Type} (o : Option α) (held : α → Option InoId) (i : InoId) :
    (weight o (fun r => held r == some i) : ℤ) = one (o.bind held) i := by
  cases o with
  | none => simp [one]
  | some r =>
    simp only [weight_some, one, beq_iff_eq, Option.bind_some]
    split <;> rfl

/-- The inode a base node, an open file or an I/O context holds a reference on. -/
def fileIno (r : File) : Option InoId := some r.ino
def ioctxIno (r : Ioctx) : Option InoId := if r.fast then none else some r.ino

theorem fileHolders_eq (s : Sys D) (i : InoId) :
    fileHolders s i = tally s.ft.nextFile s.ft.file fun r => fileIno r == some i := by
  unfold fileHolders
  congr 1

theorem ioctxHolders_eq (s : Sys D) (i : InoId) :
    ioctxHolders s i = tally s.aio.nextIoctx s.aio.ioctx fun r => ioctxIno r == some i := by
  unfold ioctxHolders
  congr 1
  funext r
  rw [Bool.eq_iff_iff]
  cases hf : r.fast <;> simp [ioctxIno, hf]

theorem holders_eq (s : Sys D) (i : InoId) :
    holders s i = (tally s.nc.nextBase s.nc.base fun r => r.ino == some i) +
      (tally s.ft.nextFile s.ft.file fun r => fileIno r == some i) +
      (tally s.aio.nextIoctx s.aio.ioctx fun r => ioctxIno r == some i) := by
  rw [holders, fileHolders_eq, ioctxHolders_eq, baseHolders]

theorem empty_update {α : Type} {f : ℕ → Option α} {n k : ℕ} {o : Option α}
    (h : ∀ j : ℕ, n ≤ j → f j = none) (hk : k < n) :
    ∀ j : ℕ, n ≤ j → Function.update f k o j = none := by
  intro j hj
  rw [Function.update_of_ne (by omega)]
  exact h j hj

theorem empty_push {α : Type} {f : ℕ → Option α} {n : ℕ} {o : Option α}
    (h : ∀ j : ℕ, n ≤ j → f j = none) :
    ∀ j : ℕ, n + 1 ≤ j → Function.update f n o j = none := by
  intro j hj
  rw [Function.update_of_ne (by omega)]
  exact h j (by omega)

/-- Rewriting or freeing a base node moves the books by the inode it held and the one it holds. -/
theorem Books.putBase (hs : Books lk due s) {b : PbId} {r : PnodeBase} (h : s.nc.base b = some r)
    {o : Option PnodeBase} {t : Sys D} (base : t.nc.base = Function.update s.nc.base b o)
    (nextBase : t.nc.nextBase = s.nc.nextBase) (ic : t.ic = s.ic) (ft : t.ft = s.ft)
    (aio : t.aio = s.aio) :
    Books lk (fun i => due i + one r.ino i - one (o.bind fun q => q.ino) i) t := by
  have hlt := hs.tables.lt_nextBase h
  refine hs.rehold ic ?_ ?_ ?_ fun i => ?_
  · rw [base, nextBase]; exact empty_update hs.tables.baseBound hlt
  · rw [ft]; exact hs.tables.fileBound
  · rw [aio]; exact hs.tables.ioctxBound
  · have hup := tally_update hlt s.nc.base o fun q => q.ino == some i
    have h1 := weight_one (s.nc.base b) (fun q => q.ino) i
    have h2 := weight_one o (fun q => q.ino) i
    rw [h] at h1 hup
    simp only [Option.bind_some] at h1
    simp only [holders, baseHolders, fileHolders, ioctxHolders, base, nextBase, ft, aio]
    push_cast
    omega

/-- A new base node takes over the reference on the inode it is made for. -/
theorem Books.pushBase (hs : Books lk due s) {r : PnodeBase} {t : Sys D}
    (base : t.nc.base = Function.update s.nc.base s.nc.nextBase (some r))
    (nextBase : t.nc.nextBase = s.nc.nextBase + 1) (ic : t.ic = s.ic) (ft : t.ft = s.ft)
    (aio : t.aio = s.aio) : Books lk (fun i => due i - one r.ino i) t := by
  refine hs.rehold ic ?_ ?_ ?_ fun i => ?_
  · rw [base, nextBase]; exact empty_push hs.tables.baseBound
  · rw [ft]; exact hs.tables.fileBound
  · rw [aio]; exact hs.tables.ioctxBound
  · have hup := tally_push s.nc.nextBase s.nc.base (some r) fun q => q.ino == some i
    have h1 := weight_one (some r) (fun q => q.ino) i
    simp only [Option.bind_some] at h1
    simp only [holders, baseHolders, fileHolders, ioctxHolders, base, nextBase, ft, aio]
    push_cast
    omega

theorem Books.putFile (hs : Books lk due s) {f : FilId} {r : File} (h : s.ft.file f = some r)
    {o : Option File} {t : Sys D} (file : t.ft.file = Function.update s.ft.file f o)
    (nextFile : t.ft.nextFile = s.ft.nextFile) (ic : t.ic = s.ic) (nc : t.nc = s.nc)
    (aio : t.aio = s.aio) :
    Books lk (fun i => due i + one (some r.ino) i - one (o.bind fileIno) i) t := by
  have hlt := hs.tables.lt_nextFile h
  refine hs.rehold ic ?_ ?_ ?_ fun i => ?_
  · rw [nc]; exact hs.tables.baseBound
  · rw [file, nextFile]; exact empty_update hs.tables.fileBound hlt
  · rw [aio]; exact hs.tables.ioctxBound
  · have hup := tally_update hlt s.ft.file o fun q => fileIno q == some i
    have h1 := weight_one (s.ft.file f) fileIno i
    have h2 := weight_one o fileIno i
    rw [h] at h1 hup
    simp only [Option.bind_some, fileIno] at h1
    simp only [holders_eq, file, nextFile, nc, aio]
    push_cast
    simp only [fileIno] at *
    omega

theorem Books.pushFile (hs : Books lk due s) {r : File} {t : Sys D}
    (file : t.ft.file = Function.update s.ft.file s.ft.nextFile (some r))
    (nextFile : t.ft.nextFile = s.ft.nextFile + 1) (ic : t.ic = s.ic) (nc : t.nc = s.nc)
    (aio : t.aio = s.aio) : Books lk (fun i => due i - one (some r.ino) i) t := by
  refine hs.rehold ic ?_ ?_ ?_ fun i => ?_
  · rw [nc]; exact hs.tables.baseBound
  · rw [file, nextFile]; exact empty_push hs.tables.fileBound
  · rw [aio]; exact hs.tables.ioctxBound
  · have hup := tally_push s.ft.nextFile s.ft.file (some r) fun q => fileIno q == some i
    have h1 := weight_one (some r) fileIno i
    simp only [Option.bind_some] at h1
    simp only [holders_eq, file, nextFile, nc, aio]
    push_cast
    simp only [fileIno] at *
    omega

theorem Books.putIoctx (hs : Books lk due s) {c : IocId} {r : Ioctx} (h : s.aio.ioctx c = some r)
    {o : Option Ioctx} {t : Sys D} (ioctx : t.aio.ioctx = Function.update s.aio.ioctx c o)
    (nextIoctx : t.aio.nextIoctx = s.aio.nextIoctx) (ic : t.ic = s.ic) (nc : t.nc = s.nc)
    (ft : t.ft = s.ft) :
    Books lk (fun i => due i + one (ioctxIno r) i - one (o.bind ioctxIno) i) t := by
  have hlt := hs.tables.lt_nextIoctx h
  refine hs.rehold ic ?_ ?_ ?_ fun i => ?_
  · rw [nc]; exact hs.tables.baseBound
  · rw [ft]; exact hs.tables.fileBound
  · rw [ioctx, nextIoctx]; exact empty_update hs.tables.ioctxBound hlt
  · have hup := tally_update hlt s.aio.ioctx o fun q => ioctxIno q == some i
    have h1 := weight_one (s.aio.ioctx c) ioctxIno i
    have h2 := weight_one o ioctxIno i
    rw [h] at h1 hup
    simp only [Option.bind_some] at h1
    simp only [holders_eq, ioctx, nextIoctx, nc, ft]
    push_cast
    omega

theorem Books.pushIoctx (hs : Books lk due s) {r : Ioctx} {t : Sys D}
    (ioctx : t.aio.ioctx = Function.update s.aio.ioctx s.aio.nextIoctx (some r))
    (nextIoctx : t.aio.nextIoctx = s.aio.nextIoctx + 1) (ic : t.ic = s.ic) (nc : t.nc = s.nc)
    (ft : t.ft = s.ft) : Books lk (fun i => due i - one (ioctxIno r) i) t := by
  refine hs.rehold ic ?_ ?_ ?_ fun i => ?_
  · rw [nc]; exact hs.tables.baseBound
  · rw [ft]; exact hs.tables.fileBound
  · rw [ioctx, nextIoctx]; exact empty_push hs.tables.ioctxBound
  · have hup := tally_push s.aio.nextIoctx s.aio.ioctx (some r) fun q => ioctxIno q == some i
    have h1 := weight_one (some r) ioctxIno i
    simp only [Option.bind_some] at h1
    simp only [holders_eq, ioctx, nextIoctx, nc, ft]
    push_cast
    omega

end Holders

section Inodes

variable {lk : Prop} {due : InoId → ℤ} {s : Sys D}

theorem Tables.lt_nextInode (ht : Tables s) {i : ℕ} {r : Inode} (h : s.ic.inode i = some r) :
    i < s.ic.nextInode := by
  by_contra hb
  rw [ht.inodeBound i (by omega)] at h
  cases h

theorem Tables.lt_nextFs (ht : Tables s) {f : ℕ} {r : Filesys} (h : s.ic.filesys f = some r) :
    f < s.ic.nextFs := by
  by_contra hb
  rw [ht.fsBound f (by omega)] at h
  cases h

/-- Only the inode cache changes, in a way that keeps it well formed. -/
theorem Books.recount {due' : InoId → ℤ} (hs : Books lk due s) {t : Sys D} (nc : t.nc = s.nc)
    (ft : t.ft = s.ft) (aio : t.aio = s.aio) (tables : Tables t)
    (h : ∀ i, refOf t i - due' i = refOf s i - due i) : Books lk due' t := by
  obtain ⟨-, leak, hlk, hb⟩ := hs
  refine ⟨tables, leak, hlk, fun i => ?_⟩
  have hi := hb i
  have := h i
  simp only [holders, baseHolders, fileHolders, ioctxHolders, nc, ft, aio] at hi ⊢
  omega

/-- A changed inode record stays in its place as long as its identity and state do. -/
theorem Tables.setInode (ht : Tables s) {i : InoId} {r r' : Inode} (h : s.ic.inode i = some r)
    {t : Sys D} (inode : t.ic.inode = Function.update s.ic.inode i (some r')) (fs : r'.fs = r.fs)
    (fid : r'.fid = r.fid) (zombie : r'.zombie = r.zombie) (ref : r.zombie = true → r'.ref ≠ 0)
    (nc : t.nc = s.nc) (ft : t.ft = s.ft) (aio : t.aio = s.aio)
    (inodes : t.ic.inodes.Perm s.ic.inodes) (filesys : t.ic.filesys = s.ic.filesys)
    (nInodes : t.ic.nInodes = s.ic.nInodes) (nextInode : t.ic.nextInode = s.ic.nextInode)
    (nextFs : t.ic.nextFs = s.ic.nextFs) : Tables t := by
  refine ⟨?_, ?_, ?_, ?_, ?_, fun j => ?_, ?_, ?_, ?_, ?_, ?_, ?_⟩
  · rw [nc]; exact ht.baseBound
  · rw [ft]; exact ht.fileBound
  · rw [aio]; exact ht.ioctxBound
  · rw [inode, nextInode]; exact empty_update ht.inodeBound (ht.lt_nextInode h)
  · rw [filesys, nextFs]; exact ht.fsBound
  · rw [inodes.mem_iff, ht.inodes j, inode]
    by_cases hj : j = i
    · simp [hj, h]
    · rw [Function.update_of_ne hj]
  · exact inodes.nodup_iff.mpr ht.inodesNodup
  · rw [nInodes, ht.nInodes, inodes.length_eq]
  · rw [filesys, inode]
    intro f rf k j hf hj
    obtain ⟨n, hn, hz, hfs, hk⟩ := ht.itbl f rf k j hf hj
    by_cases hji : j = i
    · subst hji
      obtain rfl : r = n := Option.some.inj (h.symm.trans hn)
      exact ⟨r', Function.update_self .., zombie.trans hz, fs.trans hfs, by rw [fid, hk]⟩
    · exact ⟨n, by rw [Function.update_of_ne hji]; exact hn, hz, hfs, hk⟩
  · rw [filesys]; exact ht.itblNodup
  · rw [filesys, inode]
    intro j n hn hz
    by_cases hji : j = i
    · subst hji
      rw [Function.update_self] at hn
      obtain rfl := Option.some.inj hn
      rw [fs, fid]
      exact ht.listed j r h (zombie ▸ hz)
    · rw [Function.update_of_ne hji] at hn
      exact ht.listed j n hn hz
  · rw [inode]
    intro j n hn hz
    by_cases hji : j = i
    · subst hji
      rw [Function.update_self] at hn
      obtain rfl := Option.some.inj hn
      exact ref (zombie ▸ hz)
    · rw [Function.update_of_ne hji] at hn
      exact ht.zombie j n hn hz

theorem refOf_update {t : Sys D} {i : InoId} {o : Option Inode}
    (inode : t.ic.inode = Function.update s.ic.inode i o) (j : InoId) :
    refOf t j = if j = i then o.elim 0 fun r => (r.ref : ℤ) else refOf s j := by
  unfold refOf
  rw [inode]
  by_cases hj : j = i
  · subst hj
    simp
  · simp [hj]

theorem iRef_books (i : InoId) :
    Triple (Books lk due) (iRef i : Sysio D Unit) fun _ => Books lk fun j => due j + one (some i) j := by
  intro s hs u t h
  obtain ⟨r, _, ha, hw⟩ := bind_ok.mp h
  obtain ⟨hr, rfl⟩ := deref_ok.mp ha
  obtain rfl := write_ok.mp hw
  have hmem : i ∈ s.ic.inodes := (hs.tables.inodes i).mpr (by simp [hr])
  have perm : (s.ic.inodes.erase i ++ [i]).Perm s.ic.inodes :=
    (List.perm_append_singleton i _).trans (List.perm_cons_erase hmem).symm
  refine hs.recount rfl rfl rfl (hs.tables.setInode hr rfl rfl rfl rfl (fun _ => by simp) rfl rfl
    rfl perm rfl rfl rfl rfl) fun j => ?_
  rw [refOf_update (s := s) (i := i) rfl]
  by_cases hj : j = i
  · subst hj
    simp only [refOf, hr, one, Option.elim_some, if_true]
    omega
  · simp [hj, one, Ne.symm hj]

/-- The hash tables without inode `i`. -/
def unhash (filesys : FsId → Option Filesys) (i : InoId) (r : Inode) : FsId → Option Filesys :=
  match filesys r.fs with
  | none => filesys
  | some f => Function.update filesys r.fs (some { f with
      itbl := Function.update f.itbl (itblSlot r.fid) ((f.itbl (itblSlot r.fid)).erase i) })

/-- The inode cache after `_sysio_i_gone` of inode `i`. -/
def dropInode (ic : InodeCache) (i : InoId) (r : Inode) : InodeCache :=
  { ic with
    inode := Function.update ic.inode i none
    inodes := ic.inodes.erase i
    nInodes := ic.nInodes - 1
    filesys := if r.zombie then ic.filesys else unhash ic.filesys i r }

theorem itblRemove_ok {i : InoId} {r : Inode} {u : Unit} {t : Sys D}
    (h : (itblRemove i r : Sysio D Unit) s = .ok (u, t)) :
    t = { s with ic.filesys := unhash s.ic.filesys i r } := by
  obtain ⟨f, _, ha, hw⟩ := bind_ok.mp h
  obtain ⟨hf, rfl⟩ := deref_ok.mp ha
  obtain rfl := write_ok.mp hw
  simp only [unhash, hf]

/-- `_sysio_i_gone` in one step. -/
theorem sysioIGone_ok {e : Env D} (gone : ∀ i, Moves DriverOnly (e.ops.gone i)) {i : InoId}
    {u : Unit} {t : Sys D} (h : sysioIGone e i s = .ok (u, t)) :
    ∃ r, s.ic.inode i = some r ∧ r.ref = 0 ∧ t.ic = dropInode s.ic i r ∧ t.nc = s.nc ∧
      t.ft = s.ft ∧ t.aio = s.aio ∧ t.mt = s.mt ∧ t.umask = s.umask := by
  simp only [sysioIGone, inodeAt, bind_ok, deref_ok, check_ok, write_ok, when_ok] at h
  obtain ⟨r, _, ⟨hr, rfl⟩, _, _, ⟨href, rfl⟩, _, v, hv, _, _, rfl, _, w, hw, h⟩ := h
  obtain ⟨_, _, rfl, _, _, ⟨-, rfl⟩, rfl⟩ := h
  have fs : v = { s with
      ic.filesys := if r.zombie then s.ic.filesys else unhash s.ic.filesys i r } := by
    rcases hv with ⟨hz, hv⟩ | ⟨hz, rfl⟩
    · rw [itblRemove_ok hv]
      simp [hz]
    · simp only [Bool.not_eq_false] at hz
      simp [hz]
  have hg := gone i _ _ _ hw
  refine ⟨r, hr, of_decide_eq_true href, ?_, ?_, ?_, ?_, ?_, ?_⟩
  · simp only [dropInode, hg.ic, fs]
  · simp only [hg.nc, fs]
  · simp only [hg.ft, fs]
  · simp only [hg.aio, fs]
  · simp only [hg.mt, fs]
  · simp only [hg.umask, fs]

/-- `I_RELE` takes one reference; a zombie goes with its last. -/
theorem iRele_ok {e : Env D} (gone : ∀ i, Moves DriverOnly (e.ops.gone i)) {i : InoId}
    {u : Unit} {t : Sys D} (h : iRele e i s = .ok (u, t)) :
    ∃ r, s.ic.inode i = some r ∧ r.ref ≠ 0 ∧ t.nc = s.nc ∧ t.ft = s.ft ∧ t.aio = s.aio ∧
      t.ic.inode = Function.update s.ic.inode i
        (if r.ref = 1 ∧ r.zombie then none else some { r with ref := r.ref - 1 }) := by
  simp only [iRele, inodeAt, assert, SysioState.setInode, bind_ok, deref_ok, check_ok, write_ok] at h
  obtain ⟨r, _, ⟨hr, rfl⟩, _, _, ⟨href, rfl⟩, _, v, rfl, h⟩ := h
  have href : r.ref ≠ 0 := of_decide_eq_true href
  by_cases hlast : r.ref - 1 = 0 ∧ r.zombie
  · have hone : r.ref = 1 ∧ r.zombie = true := ⟨by omega, hlast.2⟩
    rw [if_pos hlast] at h
    obtain ⟨r', hr', -, ic, nc, ft, aio, -, -⟩ := sysioIGone_ok gone h
    refine ⟨r, hr, href, nc, ft, aio, ?_⟩
    rw [if_pos hone, ic]
    exact Function.update_idem _ _ _
  · have hone : ¬ (r.ref = 1 ∧ r.zombie = true) := fun h => hlast ⟨by omega, h.2⟩
    rw [if_neg hlast] at h
    obtain ⟨-, rfl⟩ := pure_ok.mp h
    refine ⟨r, hr, href, rfl, rfl, rfl, ?_⟩
    rw [if_neg hone]

theorem unhash_some {filesys : FsId → Option Filesys} {i : InoId} {r : Inode} {f : FsId}
    {rf : Filesys} (h : unhash filesys i r f = some rf) :
    ∃ rf', filesys f = some rf' ∧ ∀ k, rf.itbl k =
      if f = r.fs ∧ k = itblSlot r.fid then (rf'.itbl k).erase i else rf'.itbl k := by
  unfold unhash at h
  cases hfs : filesys r.fs with
  | none =>
    rw [hfs] at h
    refine ⟨rf, h, fun k => ?_⟩
    rw [if_neg]
    rintro ⟨rfl, -⟩
    simp [hfs] at h
  | some g =>
    rw [hfs] at h
    by_cases hf : f = r.fs
    · subst hf
      simp only [Function.update_self, Option.some.injEq] at h
      subst h
      refine ⟨g, hfs, fun k => ?_⟩
      by_cases hk : k = itblSlot r.fid
      · simp [hk]
      · simp [hk]
    · simp only [Function.update_of_ne hf] at h
      exact ⟨rf, h, fun k => by simp [hf]⟩

theorem unhash_none {filesys : FsId → Option Filesys} {i : InoId} {r : Inode} {f : FsId}
    (h : filesys f = none) : unhash filesys i r f = none := by
  unfold unhash
  cases hfs : filesys r.fs with
  | none => exact h
  | some g =>
    have hf : f ≠ r.fs := fun hf => by rw [hf, hfs] at h; cases h
    simpa [Function.update_of_ne hf] using h

theorem mem_unhash {filesys : FsId → Option Filesys} {i j : InoId} {r : Inode} {f : FsId} {k : ℕ}
    {rf : Filesys} (h : filesys f = some rf) (hj : j ∈ rf.itbl k) (hne : j ≠ i) :
    ∃ rf', unhash filesys i r f = some rf' ∧ j ∈ rf'.itbl k := by
  unfold unhash
  cases hfs : filesys r.fs with
  | none => exact ⟨rf, h, hj⟩
  | some g =>
    by_cases hf : f = r.fs
    · subst hf
      obtain rfl : rf = g := Option.some.inj (h.symm.trans hfs)
      refine ⟨_, Function.update_self .., ?_⟩
      by_cases hk : k = itblSlot r.fid
      · subst hk
        simpa [List.mem_erase_of_ne hne] using hj
      · simpa [hk] using hj
    · exact ⟨rf, by simpa [Function.update_of_ne hf] using h, hj⟩

/-- Taking an inode off its hash chain leaves the others on theirs. -/
theorem Tables.unhash_itbl (ht : Tables s) {i : InoId} {r : Inode} (h : s.ic.inode i = some r)
    {f : FsId} {rf : Filesys} {k : ℕ} {j : InoId} (hf : unhash s.ic.filesys i r f = some rf)
    (hj : j ∈ rf.itbl k) :
    j ≠ i ∧ ∃ n, s.ic.inode j = some n ∧ n.zombie = false ∧ n.fs = f ∧ itblSlot n.fid = k := by
  obtain ⟨rf', hf', hk⟩ := unhash_some hf
  rw [hk k] at hj
  have hnd := ht.itblNodup f rf' k hf'
  by_cases hc : f = r.fs ∧ k = itblSlot r.fid
  · rw [if_pos hc] at hj
    obtain ⟨hne, hj⟩ := hnd.mem_erase_iff.mp hj
    exact ⟨hne, ht.itbl f rf' k j hf' hj⟩
  · rw [if_neg hc] at hj
    obtain ⟨n, hn, hz, hfs, hslot⟩ := ht.itbl f rf' k j hf' hj
    refine ⟨fun hji => hc ?_, n, hn, hz, hfs, hslot⟩
    subst hji
    obtain rfl : r = n := Option.some.inj (h.symm.trans hn)
    exact ⟨hfs.symm, hslot.symm⟩

/-- The inode cache stays well formed without an inode. -/
theorem Tables.dropInode (ht : Tables s) {i : InoId} {r : Inode} (h : s.ic.inode i = some r)
    {t : Sys D} (ic : t.ic = dropInode s.ic i r) (nc : t.nc = s.nc) (ft : t.ft = s.ft)
    (aio : t.aio = s.aio) : Tables t := by
  have hmem : i ∈ s.ic.inodes := (ht.inodes i).mpr (by simp [h])
  have off : ∀ j n, t.ic.inode j = some n → j ≠ i ∧ s.ic.inode j = some n := by
    intro j n hn
    by_cases hj : j = i
    · subst hj
      simp [ic, InodeRefs.dropInode] at hn
    · simpa [ic, InodeRefs.dropInode, hj] using hn
  refine ⟨?_, ?_, ?_, ?_, ?_, fun j => ?_, ?_, ?_, ?_, ?_, ?_, ?_⟩
  · rw [nc]; exact ht.baseBound
  · rw [ft]; exact ht.fileBound
  · rw [aio]; exact ht.ioctxBound
  · rw [ic]; exact empty_update ht.inodeBound (ht.lt_nextInode h)
  · intro f hf
    rw [ic] at hf ⊢
    cases hz : r.zombie with
    | true => simpa [InodeRefs.dropInode, hz] using ht.fsBound f hf
    | false => simpa [InodeRefs.dropInode, hz] using unhash_none (ht.fsBound f hf)
  · rw [ic]
    simp only [InodeRefs.dropInode, ht.inodesNodup.mem_erase_iff, ht.inodes j]
    by_cases hj : j = i
    · simp [hj]
    · simp [hj]
  · rw [ic]; exact ht.inodesNodup.erase i
  · rw [ic]
    simp only [InodeRefs.dropInode, List.length_erase_of_mem hmem, ht.nInodes]
  · intro f rf k j hf hj
    rw [ic] at hf
    cases hz : r.zombie with
    | true =>
      simp only [InodeRefs.dropInode, hz, if_true] at hf
      obtain ⟨n, hn, hzn, hfs, hk⟩ := ht.itbl f rf k j hf hj
      have hji : j ≠ i := by
        rintro rfl
        obtain rfl : r = n := Option.some.inj (h.symm.trans hn)
        simp [hz] at hzn
      exact ⟨n, by simpa [ic, InodeRefs.dropInode, hji] using hn, hzn, hfs, hk⟩
    | false =>
      simp only [InodeRefs.dropInode, hz, Bool.false_eq_true, if_false] at hf
      obtain ⟨hji, n, hn, hrest⟩ := ht.unhash_itbl h hf hj
      exact ⟨n, by simpa [ic, InodeRefs.dropInode, hji] using hn, hrest⟩
  · intro f rf k hf
    rw [ic] at hf
    cases hz : r.zombie with
    | true =>
      simp only [InodeRefs.dropInode, hz, if_true] at hf
      exact ht.itblNodup f rf k hf
    | false =>
      simp only [InodeRefs.dropInode, hz, Bool.false_eq_true, if_false] at hf
      obtain ⟨rf', hf', hk⟩ := unhash_some hf
      rw [hk k]
      have hnd := ht.itblNodup f rf' k hf'
      split
      · exact hnd.erase i
      · exact hnd
  · intro j n hn hz
    obtain ⟨hji, hn⟩ := off j n hn
    obtain ⟨rf, hf, hj⟩ := ht.listed j n hn hz
    rw [ic]
    cases hzr : r.zombie with
    | true => exact ⟨rf, by simpa [InodeRefs.dropInode, hzr] using hf, hj⟩
    | false => simpa [InodeRefs.dropInode, hzr] using mem_unhash hf hj hji
  · intro j n hn hz
    exact ht.zombie j n (off j n hn).2 hz

/-- A referenced inode can become a zombie, off its hash chain. -/
theorem Tables.undead (ht : Tables s) {i : InoId} {r : Inode} (h : s.ic.inode i = some r)
    (href : r.ref ≠ 0) {t : Sys D} (nc : t.nc = s.nc) (ft : t.ft = s.ft) (aio : t.aio = s.aio)
    (ic : t.ic = { s.ic with
      filesys := unhash s.ic.filesys i r
      inode := Function.update s.ic.inode i (some { r with zombie := true }) }) : Tables t := by
  refine ⟨?_, ?_, ?_, ?_, ?_, fun j => ?_, ?_, ?_, ?_, ?_, ?_, ?_⟩
  · rw [nc]; exact ht.baseBound
  · rw [ft]; exact ht.fileBound
  · rw [aio]; exact ht.ioctxBound
  · rw [ic]; exact empty_update ht.inodeBound (ht.lt_nextInode h)
  · rw [ic]; exact fun f hf => unhash_none (ht.fsBound f hf)
  · rw [ic]
    by_cases hj : j = i
    · simp [hj, ht.inodes i, h]
    · simp [hj, ht.inodes j]
  · rw [ic]; exact ht.inodesNodup
  · rw [ic]; exact ht.nInodes
  · intro f rf k j hf hj
    rw [ic] at hf ⊢
    obtain ⟨hji, n, hn, hrest⟩ := ht.unhash_itbl h hf hj
    exact ⟨n, by simpa [hji] using hn, hrest⟩
  · intro f rf k hf
    rw [ic] at hf
    obtain ⟨rf', hf', hk⟩ := unhash_some hf
    rw [hk k]
    have hnd := ht.itblNodup f rf' k hf'
    split
    · exact hnd.erase i
    · exact hnd
  · intro j n hn hz
    rw [ic] at hn ⊢
    by_cases hj : j = i
    · subst hj
      simp only [Function.update_self, Option.some.injEq] at hn
      simp [← hn] at hz
    · simp only [Function.update_of_ne hj] at hn
      obtain ⟨rf, hf, hm⟩ := ht.listed j n hn hz
      exact mem_unhash hf hm hj
  · intro j n hn hz
    rw [ic] at hn
    by_cases hj : j = i
    · subst hj
      simp only [Function.update_self, Option.some.injEq] at hn
      simpa [← hn] using href
    · simp only [Function.update_of_ne hj] at hn
      exact ht.zombie j n hn hz

/-- A new inode takes the first free address and the head of its hash chain. -/
theorem Tables.newInode (ht : Tables s) {n : Inode} {f : Filesys} (hz : n.zombie = false)
    (hf : s.ic.filesys n.fs = some f) {t : Sys D} (nc : t.nc = s.nc) (ft : t.ft = s.ft)
    (aio : t.aio = s.aio)
    (inode : t.ic.inode = Function.update s.ic.inode s.ic.nextInode (some n))
    (inodes : t.ic.inodes = s.ic.inodes ++ [s.ic.nextInode])
    (nInodes : t.ic.nInodes = s.ic.nInodes + 1) (nextInode : t.ic.nextInode = s.ic.nextInode + 1)
    (nextFs : t.ic.nextFs = s.ic.nextFs)
    (filesys : t.ic.filesys = Function.update s.ic.filesys n.fs (some { f with
      itbl := Function.update f.itbl (itblSlot n.fid)
        (s.ic.nextInode :: f.itbl (itblSlot n.fid)) })) : Tables t := by
  have fresh : s.ic.inode s.ic.nextInode = none := ht.inodeBound _ (Nat.le_refl _)
  have notin : s.ic.nextInode ∉ s.ic.inodes := fun hm => (ht.inodes _).mp hm fresh
  have notold : ∀ j r, s.ic.inode j = some r → j ≠ s.ic.nextInode := by
    rintro j r hj rfl
    simp [fresh] at hj
  -- what a chain of the new tables holds
  have chain : ∀ g rg k, t.ic.filesys g = some rg → ∃ rg', s.ic.filesys g = some rg' ∧
      rg.itbl k = if g = n.fs ∧ k = itblSlot n.fid then s.ic.nextInode :: rg'.itbl k
        else rg'.itbl k := by
    intro g rg k hg
    rw [filesys] at hg
    by_cases hgf : g = n.fs
    · subst hgf
      simp only [Function.update_self, Option.some.injEq] at hg
      subst hg
      refine ⟨f, hf, ?_⟩
      by_cases hk : k = itblSlot n.fid <;> simp [hk]
    · rw [Function.update_of_ne hgf] at hg
      exact ⟨rg, hg, by simp [hgf]⟩
  refine ⟨?_, ?_, ?_, ?_, ?_, fun j => ?_, ?_, ?_, ?_, ?_, ?_, ?_⟩
  · rw [nc]; exact ht.baseBound
  · rw [ft]; exact ht.fileBound
  · rw [aio]; exact ht.ioctxBound
  · rw [inode, nextInode]; exact empty_push ht.inodeBound
  · rw [filesys, nextFs]; exact empty_update ht.fsBound (ht.lt_nextFs hf)
  · rw [inodes, inode, List.mem_append, List.mem_singleton, ht.inodes j]
    by_cases hj : j = s.ic.nextInode
    · simp [hj]
    · simp [hj]
  · rw [inodes, List.nodup_append]
    refine ⟨ht.inodesNodup, List.nodup_singleton _, fun a ha b hb => ?_⟩
    rw [List.mem_singleton.mp hb]
    rintro rfl
    exact notin ha
  · rw [nInodes, inodes, List.length_append, ht.nInodes]
    rfl
  · intro g rg k j hg hj
    obtain ⟨rg', hg', hk⟩ := chain g rg k hg
    rw [hk] at hj
    have old : j ∈ rg'.itbl k → ∃ m, t.ic.inode j = some m ∧ m.zombie = false ∧ m.fs = g ∧
        itblSlot m.fid = k := by
      intro hj
      obtain ⟨m, hm, hrest⟩ := ht.itbl g rg' k j hg' hj
      exact ⟨m, by rw [inode, Function.update_of_ne (notold j m hm)]; exact hm, hrest⟩
    by_cases hc : g = n.fs ∧ k = itblSlot n.fid
    · rw [if_pos hc, List.mem_cons] at hj
      rcases hj with rfl | hj
      · exact ⟨n, by rw [inode, Function.update_self], hz, hc.1.symm, hc.2.symm⟩
      · exact old hj
    · rw [if_neg hc] at hj
      exact old hj
  · intro g rg k hg
    obtain ⟨rg', hg', hk⟩ := chain g rg k hg
    rw [hk]
    have hnd := ht.itblNodup g rg' k hg'
    split
    · refine List.nodup_cons.mpr ⟨fun hm => ?_, hnd⟩
      obtain ⟨m, hm, -⟩ := ht.itbl g rg' k _ hg' hm
      exact notold _ m hm rfl
    · exact hnd
  · intro j m hm hzm
    rw [inode] at hm
    rw [filesys]
    by_cases hj : j = s.ic.nextInode
    · subst hj
      simp only [Function.update_self, Option.some.injEq] at hm
      subst hm
      exact ⟨_, Function.update_self .., by simp⟩
    · rw [Function.update_of_ne hj] at hm
      obtain ⟨rf, hrf, hmem⟩ := ht.listed j m hm hzm
      by_cases hfs : m.fs = n.fs
      · rw [hfs] at hrf ⊢
        obtain rfl : f = rf := Option.some.inj (hf.symm.trans hrf)
        refine ⟨_, Function.update_self .., ?_⟩
        by_cases hk : itblSlot m.fid = itblSlot n.fid
        · simp only [hk, Function.update_self, List.mem_cons]
          exact Or.inr (hk ▸ hmem)
        · simpa [hk] using hmem
      · exact ⟨rf, by rw [Function.update_of_ne hfs]; exact hrf, hmem⟩
  · intro j m hm hzm
    rw [inode] at hm
    by_cases hj : j = s.ic.nextInode
    · subst hj
      simp only [Function.update_self, Option.some.injEq] at hm
      simp [← hm, hz] at hzm
    · rw [Function.update_of_ne hj] at hm
      exact ht.zombie j m hm hzm

section Gone

variable {e : Env D} (gone : ∀ i, Moves DriverOnly (e.ops.gone i))

include gone

theorem sysioIGone_keep (i : InoId) : Moves (Keep lk) (sysioIGone e i) := by
  intro s u t h due hs
  obtain ⟨r, hr, href, ic, nc, ft, aio, -, -⟩ := sysioIGone_ok gone h
  refine hs.recount nc ft aio (hs.tables.dropInode hr ic nc ft aio) fun j => ?_
  have inode : t.ic.inode = Function.update s.ic.inode i none := by rw [ic]; rfl
  rw [refOf_update inode]
  by_cases hj : j = i
  · subst hj
    simp [refOf, hr, href]
  · simp [hj]

/-- Releasing gives up one reference; the last one on a zombie destroys it. -/
theorem iRele_books (i : InoId) :
    Triple (Books lk due) (iRele e i) fun _ => Books lk fun j => due j - one (some i) j := by
  intro s hs u t h
  simp only [iRele, inodeAt, assert, SysioState.setInode, bind_ok, deref_ok, check_ok, write_ok] at h
  obtain ⟨r, _, ⟨hr, rfl⟩, _, _, ⟨href, rfl⟩, _, v, rfl, h⟩ := h
  have href : r.ref ≠ 0 := of_decide_eq_true href
  by_cases hlast : r.ref - 1 = 0 ∧ r.zombie
  · rw [if_pos hlast] at h
    obtain ⟨r', hr', -, ic, nc, ft, aio, -, -⟩ := sysioIGone_ok gone h
    simp only [Function.update_self, Option.some.injEq] at hr'
    have ic' : t.ic = InodeRefs.dropInode s.ic i r := by
      rw [ic, ← hr']
      simp only [InodeRefs.dropInode, Function.update_idem, unhash]
    refine hs.recount nc ft aio (hs.tables.dropInode hr ic' nc ft aio) fun j => ?_
    have inode : t.ic.inode = Function.update s.ic.inode i none := by rw [ic']; rfl
    rw [refOf_update inode]
    by_cases hj : j = i
    · subst hj
      have : r.ref = 1 := by omega
      simp only [refOf, hr, one, this, Option.elim_some, Option.elim_none, if_true]
      omega
    · simp [hj, one, Ne.symm hj]
  · rw [if_neg hlast] at h
    obtain ⟨-, rfl⟩ := pure_ok.mp h
    refine hs.recount rfl rfl rfl (hs.tables.setInode hr rfl rfl rfl rfl (fun hz => ?_) rfl rfl
      rfl (List.Perm.refl _) rfl rfl rfl rfl) fun j => ?_
    · intro h0
      exact hlast ⟨h0, hz⟩
    · rw [refOf_update (s := s) (i := i) rfl]
      by_cases hj : j = i
      · subst hj
        simp only [refOf, hr, one, if_true, Option.elim_some]
        omega
      · simp [hj, one, Ne.symm hj]

/-- `I_GONE`: the inode leaves its table for good and one reference is given up. -/
theorem iGone_books (i : InoId) :
    Triple (Books lk due) (iGone e i) fun _ => Books lk fun j => due j - one (some i) j := by
  intro s hs u t h
  obtain ⟨_, v, hv, h⟩ := bind_ok.mp h
  obtain ⟨r, _, ha, hu⟩ := bind_ok.mp hv
  obtain ⟨hr, rfl⟩ := deref_ok.mp ha
  by_cases hz : r.zombie = true
  · rw [if_pos hz] at hu
    obtain ⟨-, rfl⟩ := pure_ok.mp hu
    exact iRele_books gone i s hs u t h
  · rw [if_neg hz] at hu
    obtain ⟨_, w, hw, hu⟩ := bind_ok.mp hu
    obtain rfl := write_ok.mp hu
    obtain rfl := itblRemove_ok hw
    -- the release that follows finds a reference, so the zombie is held
    have href : r.ref ≠ 0 := by
      simp only [iRele, inodeAt, assert, bind_ok, deref_ok, check_ok] at h
      obtain ⟨r', _, ⟨hr', rfl⟩, _, _, ⟨href, rfl⟩, -⟩ := h
      simp only [Function.update_self, Option.some.injEq] at hr'
      have := of_decide_eq_true href
      simpa [← hr'] using this
    refine iRele_books gone i _ ?_ u t h
    refine hs.recount rfl rfl rfl (hs.tables.undead hr href rfl rfl rfl rfl) fun j => ?_
    rw [refOf_update (s := s) (i := i) rfl]
    by_cases hj : j = i
    · subst hj
      simp [refOf, hr]
    · simp [hj]

theorem iReclaim_keep : Moves (Keep lk) (iReclaim e) :=
  iReclaim_moves (sysioIGone_keep gone) fun _ _ =>
    Aside.keep ⟨rfl, rfl, rfl, rfl, rfl, rfl, rfl, rfl, rfl, rfl, rfl, rfl⟩

theorem sysioINew_books (fs : FsId) (fid : ℕ) (stat : Stat) (immunity : Bool) (priv : ℕ) :
    Triple (Books lk due) (sysioINew e fs fid stat immunity priv)
      fun o => Books lk fun j => due j + one o j := by
  intro s hs o t h
  obtain ⟨ic, _, hic, h⟩ := bind_ok.mp h
  obtain ⟨-, rfl⟩ := read_ok.mp hic
  obtain ⟨_, v, hv, h⟩ := bind_ok.mp h
  obtain ⟨ok, w, hw, h⟩ := bind_ok.mp h
  have hv' : Books lk due v := moves_when (fun _ => iReclaim_keep gone) _ _ _ hv due hs
  have hw' : Books lk due w := malloc_keep _ _ _ hw due hv'
  by_cases hok : (!ok) = true
  · rw [if_pos hok] at h
    obtain ⟨rfl, rfl⟩ := pure_ok.mp h
    simpa [one] using hw'
  · rw [if_neg hok] at h
    simp only [fsAt, SysioState.setFs, bind_ok, read_ok, deref_ok, write_ok, pure_ok] at h
    obtain ⟨i, _, ⟨rfl, rfl⟩, f, _, ⟨hf, rfl⟩, _, _, rfl, _, _, rfl, rfl, rfl⟩ := h
    refine hw'.recount rfl rfl rfl (hw'.tables.newInode (n := ⟨immunity, false, 1, stat, fs, fid,
      priv⟩) rfl hf rfl rfl rfl rfl rfl rfl rfl rfl rfl) fun j => ?_
    rw [refOf_update (s := w) (i := w.ic.nextInode) rfl]
    have fresh := hw'.tables.inodeBound w.ic.nextInode (Nat.le_refl _)
    by_cases hj : j = w.ic.nextInode
    · subst hj
      simp only [refOf, fresh, one, Option.elim_some, Option.elim_none, if_true]
      omega
    · simp [hj, one, Ne.symm hj]

end Gone

theorem itblSearch_mem {fid : ℕ} {l : List InoId} {i : InoId} {t : Sys D}
    (h : (itblSearch fid l : Sysio D _) s = .ok (some i, t)) :
    i ∈ l ∧ t = s ∧ ∃ r, s.ic.inode i = some r ∧ r.fid = fid := by
  induction l with
  | nil => simp [itblSearch] at h
  | cons j l ih =>
    obtain ⟨r, _, ha, h⟩ := bind_ok.mp h
    obtain ⟨hr, rfl⟩ := deref_ok.mp ha
    by_cases hf : r.fid = fid
    · rw [if_pos hf] at h
      obtain ⟨hji, rfl⟩ := pure_ok.mp h
      obtain rfl := Option.some.inj hji
      exact ⟨by simp, rfl, r, hr, hf⟩
    · rw [if_neg hf] at h
      obtain ⟨hm, hrest⟩ := ih h
      exact ⟨List.mem_cons_of_mem _ hm, hrest⟩

/-- A found inode is no zombie and comes with a reference. -/
theorem sysioIFind_books (fs : FsId) (fid : ℕ) :
    Triple (Books lk due) (sysioIFind fs fid : Sysio D (Option InoId)) fun o t =>
      Books lk (fun j => due j + one o j) t ∧
        ∀ i, o = some i → ∃ n, t.ic.inode i = some n ∧ n.zombie = false := by
  intro s hs o t run
  obtain ⟨f, _, ha, rest⟩ := bind_ok.mp run
  obtain ⟨hf, rfl⟩ := deref_ok.mp ha
  obtain ⟨found, v, hv, h⟩ := bind_ok.mp rest
  have keep : Books lk due v := itblSearch_moves (R := Keep lk) _ _ _ _ _ hv due hs
  cases found with
  | none =>
    obtain ⟨rfl, rfl⟩ := pure_ok.mp h
    exact ⟨by simpa [one] using keep, fun i hi => by cases hi⟩
  | some i =>
    obtain ⟨hmem, hvs, -⟩ := itblSearch_mem hv
    subst hvs
    obtain ⟨_, w, hw, hp⟩ := bind_ok.mp h
    obtain ⟨rfl, rfl⟩ := pure_ok.mp hp
    refine ⟨iRef_books i v keep _ _ hw, fun j hj => ?_⟩
    obtain rfl := Option.some.inj hj
    obtain ⟨n, hn, hz, -⟩ := keep.tables.itbl fs f _ i hf hmem
    obtain ⟨r, _, hread, hwrite⟩ := bind_ok.mp hw
    obtain ⟨hr, rfl⟩ := deref_ok.mp hread
    obtain rfl := write_ok.mp hwrite
    obtain rfl : r = n := Option.some.inj (hr.symm.trans hn)
    exact ⟨{ r with ref := r.ref + 1 }, Function.update_self .., hz⟩

end Inodes

end InodeRefs
