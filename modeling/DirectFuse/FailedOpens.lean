import DirectFuse.StartingMount
import DirectFuse.FuseAccounts
import DirectFuse.FailedDirectories
import DirectFuse.DescriptorTable

/-! Opens that fail. `fuse_inop_open` makes the inode before it asks the backend, keeps the file info
of the inode whatever the backend answers, and `open` undoes neither. -/
namespace FailedOpens

open ExecLogic SysioState SysioInode SysioNamei SysioMount SysioFile SysioInterface SysioSystem
open FuseDriver FuseSystem FusePlain CoreMoves FuseMoves CallMoves PathRefs NameForest WalkForest
open PlainRuns
open SoundRuns StartingMount
open OtherOps (inoOf_ok)
open DeviceIdentity (secondMount secondMkdir)
open FailedDirectories (answering answeredRun)
open DescriptorTable (fdGrow_ok fdGrow_fails fdGrow_again)

variable {B : Type} {h : Host B} {s t u : Sys (FuseData B)} {p : Pno}

/-- The inode that a path node stands for. -/
def inodeOf (s : Sys (FuseData B)) (p : Pno) : Option InoId :=
  (s.nc.base (s.nc.pnode p).base).bind fun r => r.ino

/-- The file info that goes along with the calls on an inode. -/
def fileInfo (s : Sys (FuseData B)) (i : InoId) : Option FiId := do
  let r ← s.ic.inode i
  let k ← s.drv.finode r.priv
  k.file

/-- An inode but for its count. -/
def uncounted (r : Inode) : Inode := { r with ref := 0 }

/-- A record of the driver but for what an open keeps in it. -/
def unopened (r : FuseInode) : FuseInode := { r with file := none, path := none }

/-- Whatever a look-up finds is the same: the nodes and the names, the inodes they stand for, the
directory data and the mounts. -/
structure SameSpace (s t : Sys (FuseData B)) : Prop where
  node : ∀ q, links (t.nc.pnode q) = links (s.nc.pnode q) ∧
    (t.nc.pnode q).cover = (s.nc.pnode q).cover
  pnodes : ∀ q, q ∈ t.nc.pnodes ↔ q ∈ s.nc.pnodes
  base : t.nc.base = s.nc.base
  names : t.nc.names = s.nc.names
  inode : ∀ i, (t.ic.inode i).map uncounted = (s.ic.inode i).map uncounted
  filesys : t.ic.filesys = s.ic.filesys
  finode : ∀ k, (t.drv.finode k).map unopened = (s.drv.finode k).map unopened
  mt : t.mt = s.mt

instance : IsPreorder (Sys (FuseData B)) SameSpace where
  refl _ := ⟨fun _ => ⟨rfl, rfl⟩, fun _ => Iff.rfl, rfl, rfl, fun _ => rfl, rfl, fun _ => rfl, rfl⟩
  trans _ _ _ k l :=
    ⟨fun q => ⟨(l.node q).1.trans (k.node q).1, (l.node q).2.trans (k.node q).2⟩,
      fun q => (l.pnodes q).trans (k.pnodes q), l.base.trans k.base, l.names.trans k.names,
      fun i => (l.inode i).trans (k.inode i), l.filesys.trans k.filesys,
      fun i => (l.finode i).trans (k.finode i), l.mt.trans k.mt⟩

section Space

theorem space_of_eq (nc : t.nc = s.nc) (ic : t.ic = s.ic)
    (finode : ∀ k, (t.drv.finode k).map unopened = (s.drv.finode k).map unopened)
    (mt : t.mt = s.mt) : SameSpace s t := by
  constructor
  case node =>
    intro q
    rw [nc]
    exact ⟨rfl, rfl⟩
  case pnodes =>
    intro q
    rw [nc]
  case base => rw [nc]
  case names => rw [nc]
  case inode =>
    intro i
    rw [ic]
  case filesys => rw [ic]
  case finode => exact finode
  case mt => exact mt

theorem SameSpace.inodeOf (k : SameSpace s t) (p : Pno) : inodeOf t p = inodeOf s p := by
  unfold FailedOpens.inodeOf
  rw [k.base, (links_eq (k.node p).1).2.1]

theorem scratch_space (s t : Sys (FuseData B)) (k : Scratch s t) : SameSpace s t :=
  space_of_eq k.nc k.ic (fun _ => by rw [k.drv]) k.mt

theorem pRele_space (p : Pno) : Moves SameSpace (pRele p : Fuse B Unit) := by
  refine moves_bind (moves_check _ _) fun _ => moves_write fun s => ?_
  constructor
  case node =>
    intro q
    change links (Function.update s.nc.pnode p _ q) = _ ∧ (Function.update s.nc.pnode p _ q).cover = _
    by_cases hq : q = p
    · rw [hq, Function.update_self]
      exact ⟨rfl, rfl⟩
    · rw [Function.update_of_ne hq]
      exact ⟨rfl, rfl⟩
  all_goals first | exact fun _ => Iff.rfl | exact rfl | exact fun _ => rfl

/-- The file info and the path of a record are no part of it. -/
theorem setFinode_space {k : FinoId} {r r' : FuseInode} {u : Unit} (hr : s.drv.finode k = some r)
    (run : (setFinode k r' : Fuse B Unit) s = .ok (u, t)) (same : unopened r' = unopened r) :
    SameSpace s t := by
  obtain rfl := write_ok.mp run
  apply space_of_eq
  · rfl
  · rfl
  · intro j
    change (Function.update s.drv.finode k (some r') j).map unopened = _
    by_cases hj : j = k
    · rw [hj, Function.update_self, hr]
      exact congrArg some same
    · rw [Function.update_of_ne hj]
  · rfl

end Space

section Driver

/-- What is asked of the backend for the inode `i`, and what of its answer `err` is kept. -/
structure Asked (flags : ℕ) (i : InoId) (err : ℤ) (s t : Sys (FuseData B)) : Prop where
  driver : DriverOnly s t
  space : SameSpace s t
  info : fileInfo t i = some s.drv.nextFi
  calls : ∃ path, t.drv.calls = (.open_ path flags s.drv.nextFi, err) :: s.drv.calls

theorem p2fi_ok {k : FinoId} (run : (p2fi p : Fuse B FinoId) s = .ok (k, t)) :
    t = s ∧ ∃ i r, inodeOf s p = some i ∧ s.ic.inode i = some r ∧ r.priv = k := by
  obtain ⟨o, _, hino, h1⟩ := bind_ok.mp run
  obtain ⟨rb, hrb, rfl, rfl⟩ := inoOf_ok.mp hino
  obtain ⟨i, _, hread, h2⟩ := bind_ok.mp h1
  obtain ⟨hi, rfl⟩ := deref_ok.mp hread
  obtain ⟨r, _, hread, h3⟩ := bind_ok.mp h2
  obtain ⟨hr, rfl⟩ := deref_ok.mp hread
  obtain ⟨rfl, rfl⟩ := pure_ok.mp h3
  refine ⟨rfl, i, r, ?_, hr, rfl⟩
  unfold inodeOf
  rw [hrb]
  exact hi

/-- The end of `fuse_inop_open`. -/
theorem openEnd_ok {flags : ℕ} {err : ℤ} (run : (do
    let fi ← Exec.read fun s => s.drv.nextFi
    Exec.write fun s => { s with drv.nextFi := fi + 1 }
    let k ← p2fi p
    let fino ← finodeAt k
    let err ← backendCall h fino.ops (.open_ fino.path flags fi)
    setFinode k { fino with file := some fi }
    return err : Fuse B ℤ) s = .ok (err, t)) :
    ∃ i, inodeOf s p = some i ∧ Asked flags i err s t := by
  obtain ⟨fi, _, hread, h1⟩ := bind_ok.mp run
  obtain ⟨rfl, rfl⟩ := read_ok.mp hread
  obtain ⟨_, u, hnext, h2⟩ := bind_ok.mp h1
  obtain rfl := write_ok.mp hnext
  obtain ⟨k, v, hk, h3⟩ := bind_ok.mp h2
  obtain ⟨rfl, i, r, hi, hr, rfl⟩ := p2fi_ok hk
  obtain ⟨fino, _, hread, h4⟩ := bind_ok.mp h3
  obtain ⟨hf, rfl⟩ := deref_ok.mp hread
  obtain ⟨err', v, hcall, h5⟩ := bind_ok.mp h4
  obtain ⟨_, w, hset, h6⟩ := bind_ok.mp h5
  obtain ⟨rfl, rfl⟩ := pure_ok.mp h6
  simp only [backendCall, nonNull, bind_ok, deref_ok, read_ok, write_ok, pure_ok] at hcall
  obtain ⟨tag, _, ⟨-, rfl⟩, _, _, ⟨-, rfl⟩, _, _, rfl, rfl, rfl⟩ := hcall
  refine ⟨i, hi, ?_⟩
  constructor
  case space =>
    refine IsTrans.trans s _ w ?_ (setFinode_space (r := fino) ?_ hset rfl)
    · exact space_of_eq rfl rfl (fun _ => rfl) rfl
    · exact hf
  all_goals obtain rfl := write_ok.mp hset
  case driver => exact ⟨rfl, rfl, rfl, rfl, rfl, rfl⟩
  case info =>
    have hr : s.ic.inode i = some r := hr
    change (s.ic.inode i).bind (fun r' =>
      (Function.update s.drv.finode r.priv (some _) r'.priv).bind fun k => k.file) = _
    rw [hr, Option.bind_some, Function.update_self]
    rfl
  case calls => exact ⟨_, rfl⟩

/-- Before the backend is asked, the path of the record is made anew. -/
structure Prepared (s t : Sys (FuseData B)) : Prop where
  driver : DriverOnly s t
  space : SameSpace s t
  nextFi : t.drv.nextFi = s.drv.nextFi
  calls : t.drv.calls = s.drv.calls

theorem Prepared.trans (k : Prepared s t) (l : Prepared t u) : Prepared s u :=
  ⟨IsTrans.trans _ _ _ k.driver l.driver, IsTrans.trans _ _ _ k.space l.space,
    l.nextFi.trans k.nextFi, l.calls.trans k.calls⟩

theorem Prepared.asked {flags : ℕ} {i : InoId} {err : ℤ} (k : Prepared s t)
    (asked : Asked flags i err t u) : Asked flags i err s u := by
  constructor
  case driver => exact IsTrans.trans _ _ _ k.driver asked.driver
  case space => exact IsTrans.trans _ _ _ k.space asked.space
  case info =>
    rw [← k.nextFi]
    exact asked.info
  case calls =>
    rw [← k.nextFi, ← k.calls]
    exact asked.calls

theorem scratch_prepared (s t : Sys (FuseData B)) (k : Scratch s t) : Prepared s t :=
  ⟨k.driver, scratch_space s t k, by rw [k.drv], by rw [k.drv]⟩

theorem openExisting_ok {ok : Bool} (run : openExisting h p s = .ok (ok, t)) :
    ok = true ∧ Prepared s t := by
  obtain ⟨k, v, hk, h1⟩ := bind_ok.mp run
  obtain ⟨rfl, -⟩ := p2fi_ok hk
  obtain ⟨n, _, hread, h2⟩ := bind_ok.mp h1
  obtain ⟨rfl, rfl⟩ := read_ok.mp hread
  obtain ⟨path, u, hpath, h3⟩ := bind_ok.mp h2
  have scratch := scratch_prepared _ _ (sysioPbPath_moves (fun _ _ k => k) _ _ _ _ _ hpath)
  obtain ⟨fino, _, hread, h4⟩ := bind_ok.mp h3
  obtain ⟨hf, rfl⟩ := deref_ok.mp hread
  obtain ⟨_, w, hset, h5⟩ := bind_ok.mp h4
  obtain ⟨rfl, rfl⟩ := pure_ok.mp h5
  refine ⟨rfl, scratch.trans ?_⟩
  have space := setFinode_space hf hset rfl
  have driver := setFinode_driver k { fino with path := path } _ _ _ hset
  obtain rfl := write_ok.mp hset
  exact ⟨driver, space, rfl, rfl⟩

/-- An open of a name that has an inode. -/
theorem fuseInopOpen_existing {i : InoId} {flags mode : ℕ} {err : ℤ} (hi : inodeOf s p = some i)
    (run : fuseInopOpen h p flags mode s = .ok (err, t)) : Asked flags i err s t := by
  obtain ⟨got, u, hgot, h1⟩ := bind_ok.mp run
  have scratch := scratch_prepared s u (malloc_moves (fun _ _ k => k) s got u hgot)
  obtain ⟨o, _, hino, h2⟩ := bind_ok.mp h1
  obtain ⟨rb, hrb, rfl, rfl⟩ := inoOf_ok.mp hino
  have hu : inodeOf u p = some i := (scratch.space.inodeOf p).trans hi
  have bound : rb.ino ≠ none := by
    unfold inodeOf at hu
    rw [hrb] at hu
    intro none_
    rw [Option.bind_some, none_] at hu
    cases hu
  obtain ⟨ready, v, hready, h3⟩ := bind_ok.mp h2
  rw [if_neg bound] at hready
  obtain ⟨rfl, prepared⟩ := openExisting_ok hready
  change (Exec.check .wild (fun _ => got) >>= _ : Fuse B ℤ) v = _ at h3
  obtain ⟨_, _, hcheck, h4⟩ := bind_ok.mp h3
  obtain ⟨-, rfl⟩ := check_ok.mp hcheck
  obtain ⟨j, hj, asked⟩ := openEnd_ok h4
  obtain rfl : i = j := Option.some.inj ((prepared.space.inodeOf p).trans hu |>.symm.trans hj)
  exact (scratch.trans prepared).asked asked

/-- What follows the making of the inode leaves it bound to the name. -/
theorem openCreates_binds {flags mode : ℕ} {ok : Bool}
    (run : openCreates h p flags mode s = .ok (ok, t)) : (inodeOf t p).isSome := by
  obtain ⟨n, _, hread, h1⟩ := bind_ok.mp run
  obtain ⟨d, _, -, h2⟩ := bind_ok.mp h1
  obtain ⟨d, _, -, h3⟩ := bind_ok.mp h2
  obtain ⟨rd, _, -, h4⟩ := bind_ok.mp h3
  obtain ⟨f, _, -, h5⟩ := bind_ok.mp h4
  obtain ⟨inum, _, -, h6⟩ := bind_ok.mp h5
  obtain ⟨_, u, -, h7⟩ := bind_ok.mp h6
  obtain ⟨k, v, hk, h8⟩ := bind_ok.mp h7
  obtain ⟨rfl, i, r, hi, -⟩ := p2fi_ok hk
  have rest : DriverOnly v t := by
    refine moves_bind ((sysioPbPath_moves (fun _ _ k => k) _ _).mono fun _ _ k => k.driver)
      (fun path => moves_bind (finodeAt_driver k) fun fino => moves_bind (setFinode_driver _ _)
      fun _ => ?_) _ _ _ h8
    cases path with
    | none => exact moves_pure _
    | some path =>
      exact moves_bind (moves_when fun _ => moves_bind (nonNull_moves _) fun tag =>
        moves_when fun _ => moves_bind (backendCall_driver _ _) fun _ => moves_pure _) fun _ =>
        moves_pure _
  unfold inodeOf at hi ⊢
  rw [rest.nc, hi]
  rfl

theorem fuseInopOpen_binds {flags mode : ℕ} {err : ℤ}
    (run : fuseInopOpen h p flags mode s = .ok (err, t)) : (inodeOf t p).isSome := by
  obtain ⟨got, _, -, h1⟩ := bind_ok.mp run
  obtain ⟨o, u, -, h2⟩ := bind_ok.mp h1
  obtain ⟨ready, v, hready, h3⟩ := bind_ok.mp h2
  cases ready with
  | false =>
    obtain ⟨-, rfl⟩ := pure_ok.mp h3
    by_cases hnone : o = none
    · rw [if_pos hnone] at hready
      exact openCreates_binds hready
    · rw [if_neg hnone] at hready
      cases (openExisting_ok hready).1
  | true =>
    change (Exec.check .wild (fun _ => got) >>= _ : Fuse B ℤ) v = _ at h3
    obtain ⟨_, _, hcheck, h4⟩ := bind_ok.mp h3
    obtain ⟨-, rfl⟩ := check_ok.mp hcheck
    obtain ⟨i, hi, asked⟩ := openEnd_ok h4
    rw [asked.space.inodeOf p, hi]
    rfl

end Driver

section Open

variable {flags mode : ℕ} {rtn : ℤ}

/-- `_sysio_open` of a name that has an inode gives up on its own account or asks the driver. -/
theorem sysioOpen_existing {i : InoId} (hi : inodeOf s p = some i)
    (run : sysioOpen (fuseEnv h) p flags mode s = .ok (rtn, t)) :
    (rtn < 0 ∧ t = s) ∨ Asked flags i rtn s t := by
  obtain ⟨ro, _, hro, h1⟩ := bind_ok.mp run
  obtain rfl := isRdonly_moves (R := Eq) p _ _ _ hro
  by_cases hboth : flags &&& (O_WRONLY ||| O_RDWR) = O_WRONLY ||| O_RDWR
  · rw [if_pos hboth] at h1
    obtain ⟨rfl, rfl⟩ := pure_ok.mp h1
    exact Or.inl ⟨by decide, rfl⟩
  rw [if_neg hboth] at h1
  by_cases hwrite : flags &&& (O_WRONLY ||| O_RDWR) ≠ 0 ∧ ro = true
  · rw [if_pos hwrite] at h1
    obtain ⟨rfl, rfl⟩ := pure_ok.mp h1
    exact Or.inl ⟨by decide, rfl⟩
  rw [if_neg hwrite] at h1
  obtain ⟨o, _, hino, h2⟩ := bind_ok.mp h1
  obtain ⟨rb, hrb, rfl, rfl⟩ := inoOf_ok.mp hino
  have bound : rb.ino = some i := by
    unfold inodeOf at hi
    rw [hrb] at hi
    exact hi
  rw [bound] at h2
  change (if flags &&& (O_CREAT ||| O_EXCL) = O_CREAT ||| O_EXCL then pure (-EEXIST)
    else _ : Fuse B ℤ) s = _ at h2
  by_cases hexcl : flags &&& (O_CREAT ||| O_EXCL) = O_CREAT ||| O_EXCL
  · rw [if_pos hexcl] at h2
    obtain ⟨rfl, rfl⟩ := pure_ok.mp h2
    exact Or.inl ⟨by decide, rfl⟩
  rw [if_neg hexcl] at h2
  obtain ⟨r, _, hread, h3⟩ := bind_ok.mp h2
  obtain ⟨-, rfl⟩ := deref_ok.mp hread
  by_cases hloop : flags &&& O_NOFOLLOW ≠ 0 ∧ r.stbuf.isLnk = true
  · rw [if_pos hloop] at h3
    obtain ⟨rfl, rfl⟩ := pure_ok.mp h3
    exact Or.inl ⟨by decide, rfl⟩
  · rw [if_neg hloop] at h3
    exact Or.inr (fuseInopOpen_existing hi h3)

theorem validate_calls {e : ℤ} {q : Pno} (run : sysioPValidate (fuseEnv h) q none none s = .ok (e, t)) :
    t.drv.calls = s.drv.calls :=
  (InodeMoves.validate_moves (InodeMoves.outside_files evolve_of_eq) (iRele_evolve fun _ => rfl)
    (fun _ p o _ _ => fuseInopLookup_evolve p o) q none none s e t run).calls

/-- `_sysio_open` of a name without an inode asks the driver, which binds the name, or it asks
nothing. -/
theorem sysioOpen_new (hi : inodeOf s p = none)
    (run : sysioOpen (fuseEnv h) p flags mode s = .ok (rtn, t)) :
    t.drv.calls = s.drv.calls ∨ (inodeOf t p).isSome := by
  obtain ⟨ro, _, hro, h1⟩ := bind_ok.mp run
  obtain rfl := isRdonly_moves (R := Eq) p _ _ _ hro
  by_cases hboth : flags &&& (O_WRONLY ||| O_RDWR) = O_WRONLY ||| O_RDWR
  · rw [if_pos hboth] at h1
    obtain ⟨rfl, rfl⟩ := pure_ok.mp h1
    exact Or.inl rfl
  rw [if_neg hboth] at h1
  by_cases hwrite : flags &&& (O_WRONLY ||| O_RDWR) ≠ 0 ∧ ro = true
  · rw [if_pos hwrite] at h1
    obtain ⟨rfl, rfl⟩ := pure_ok.mp h1
    exact Or.inl rfl
  rw [if_neg hwrite] at h1
  obtain ⟨o, _, hino, h2⟩ := bind_ok.mp h1
  obtain ⟨rb, hrb, rfl, rfl⟩ := inoOf_ok.mp hino
  have unbound : rb.ino = none := by
    unfold inodeOf at hi
    rw [hrb] at hi
    exact hi
  rw [unbound] at h2
  change (if flags &&& O_CREAT ≠ 0 then _ else _ : Fuse B ℤ) s = _ at h2
  by_cases hcreat : flags &&& O_CREAT ≠ 0
  · rw [if_pos hcreat] at h2
    by_cases hro : ro = true
    · rw [if_pos hro] at h2
      obtain ⟨rfl, rfl⟩ := pure_ok.mp h2
      exact Or.inl rfl
    rw [if_neg hro] at h2
    obtain ⟨n, _, hread, h3⟩ := bind_ok.mp h2
    obtain ⟨rfl, rfl⟩ := read_ok.mp hread
    obtain ⟨err, u, hval, h4⟩ := bind_ok.mp h3
    by_cases herr : err ≠ 0
    · rw [if_pos herr] at h4
      obtain ⟨rfl, rfl⟩ := pure_ok.mp h4
      exact Or.inl (validate_calls hval)
    · rw [if_neg herr] at h4
      obtain ⟨d, v, -, h5⟩ := bind_ok.mp h4
      obtain ⟨_, w, -, h6⟩ := bind_ok.mp h5
      obtain ⟨i, x, -, h7⟩ := bind_ok.mp h6
      exact Or.inr (fuseInopOpen_binds h7)
  · rw [if_neg hcreat] at h2
    exact Or.inl (validate_calls h2)

end Open

section Aftermath

/-- What `open` does when the driver has answered: names and inodes stay together, no inode is given
another record, and all the backend is asked for is to release a file. -/
structure Aftermath (s t : Sys (FuseData B)) : Prop where
  bound : ∀ q, inodeOf t q = inodeOf s q
  inode : ∀ (i : ℕ) r', t.ic.inode i = some r' → i < s.ic.nextInode →
    ∃ r, s.ic.inode i = some r ∧ r'.priv = r.priv
  nextInode : s.ic.nextInode ≤ t.ic.nextInode
  finode : ∀ k f, t.drv.finode k = some f → s.drv.finode k = some f
  calls : ∃ l, t.drv.calls = l ++ s.drv.calls ∧ ∀ c ∈ l, ∃ path fi, c.1 = .release path fi

instance : IsPreorder (Sys (FuseData B)) Aftermath where
  refl s := by
    constructor
    case bound => exact fun _ => rfl
    case inode => exact fun _ r hr _ => ⟨r, hr, rfl⟩
    case nextInode => exact Nat.le_refl _
    case finode => exact fun _ _ hf => hf
    case calls => exact ⟨[], rfl, fun _ hc => absurd hc List.not_mem_nil⟩
  trans s t u k l := by
    constructor
    case bound => exact fun q => (l.bound q).trans (k.bound q)
    case inode =>
      intro i r'' hr hi
      obtain ⟨r', hr', hp'⟩ := l.inode i r'' hr (Nat.lt_of_lt_of_le hi k.nextInode)
      obtain ⟨r, hr, hp⟩ := k.inode i r' hr' hi
      exact ⟨r, hr, hp'.trans hp⟩
    case nextInode => exact Nat.le_trans k.nextInode l.nextInode
    case finode => exact fun j f hf => k.finode j f (l.finode j f hf)
    case calls =>
      obtain ⟨m, hm, released⟩ := k.calls
      obtain ⟨m', hm', released'⟩ := l.calls
      refine ⟨m' ++ m, by rw [hm', hm, List.append_assoc], fun c hc => ?_⟩
      rcases List.mem_append.mp hc with hc | hc
      · exact released' c hc
      · exact released c hc

theorem evolve_aftermath (k : Evolve s t) (bound : ∀ q, inodeOf t q = inodeOf s q) :
    Aftermath s t :=
  ⟨bound, k.inode, k.nextInode, k.finode, [], k.calls, fun _ hc => absurd hc List.not_mem_nil⟩

/-- The open files and the table of descriptors are no part of it. -/
theorem files_aftermath {s t : Sys (FuseData B)} (nc : t.nc = s.nc) (ic : t.ic = s.ic)
    (drv : t.drv = s.drv) : Aftermath s t :=
  evolve_aftermath (evolve_of_eq s t ic drv) fun _ => by rw [inodeOf, nc, inodeOf]

theorem pRele_aftermath (p : Pno) : Moves Aftermath (pRele p : Fuse B Unit) := by
  intro s a t run
  have space := pRele_space p s a t run
  obtain ⟨_, _, hc, hw⟩ := bind_ok.mp run
  obtain ⟨-, rfl⟩ := check_ok.mp hc
  obtain rfl := write_ok.mp hw
  exact evolve_aftermath (evolve_of_eq _ _ rfl rfl) space.inodeOf

theorem iRele_aftermath (i : InoId) : Moves Aftermath (iRele (fuseEnv h) i) := by
  intro s a t run
  have gone : ∀ j, Moves DriverOnly ((fuseEnv h).ops.gone j) := FuseAccounts.gone_driver (h := h)
  have nc := (InodeAccounts.iRele_off gone i s a t run).nc
  exact evolve_aftermath (iRele_evolve (fun _ => rfl) i s a t run) fun _ => by
    rw [inodeOf, nc, inodeOf]

/-- The backend releases a file. -/
theorem fuseInopClose_ok {err : ℤ} (run : fuseInopClose h p s = .ok (err, t)) :
    DriverOnly s t ∧ SameSpace s t ∧ Aftermath s t := by
  have driver := onFile_driver p _ s err t run
  obtain ⟨n, _, hread, h1⟩ := bind_ok.mp run
  obtain ⟨rfl, rfl⟩ := read_ok.mp hread
  obtain ⟨path, u, hpath, h2⟩ := bind_ok.mp h1
  have scratch := sysioPbPath_moves (fun _ _ k => k) _ _ _ _ _ hpath
  obtain ⟨k, v, hk, h3⟩ := bind_ok.mp h2
  obtain ⟨rfl, -⟩ := p2fi_ok hk
  obtain ⟨fino, _, hread, h4⟩ := bind_ok.mp h3
  obtain ⟨-, rfl⟩ := deref_ok.mp hread
  simp only [backendCall, nonNull, bind_ok, deref_ok, read_ok, write_ok, pure_ok] at h4
  obtain ⟨tag, _, ⟨-, rfl⟩, v, _, ⟨-, rfl⟩, _, _, rfl, rfl, rfl⟩ := h4
  refine ⟨driver, ?_, ?_⟩
  · refine IsTrans.trans _ _ _ (scratch_space _ _ scratch) ?_
    exact space_of_eq rfl rfl (fun _ => rfl) rfl
  · refine IsTrans.trans _ _ _ (files_aftermath scratch.nc scratch.ic scratch.drv) ?_
    constructor
    case bound => exact fun _ => rfl
    case inode => exact fun _ r hr _ => ⟨r, hr, rfl⟩
    case nextInode => exact Nat.le_refl _
    case finode => exact fun _ _ hf => hf
    case calls =>
      refine ⟨[_], rfl, fun c hc => ?_⟩
      obtain rfl := List.mem_singleton.mp hc
      exact ⟨path, fino.file, rfl⟩

theorem fRele_aftermath (f : FilId) : Moves Aftermath (fRele (fuseEnv h) f) := by
  refine moves_bind (moves_deref _ _) fun r => moves_bind (moves_check _ _) fun _ =>
    moves_bind (moves_write fun s => files_aftermath rfl rfl rfl) fun _ => moves_when fun _ => ?_
  refine moves_bind (moves_deref _ _) fun r => moves_bind (moves_check _ _) fun _ =>
    moves_bind ?_ fun err => moves_bind (moves_check _ _) fun _ =>
    moves_bind (iRele_aftermath r.ino) fun _ => moves_write fun s => files_aftermath rfl rfl rfl
  exact fun s err t run => (fuseInopClose_ok run).2.2

theorem scratch_aftermath (s t : Sys (FuseData B)) (k : Scratch s t) : Aftermath s t :=
  files_aftermath k.nc k.ic k.drv

theorem fdGrow_aftermath (n : ℕ) : Moves Aftermath (fdGrow (fuseEnv h) n) :=
  moves_ite (fun _ => moves_pure _) fun _ => moves_bind (moves_read _) fun _ =>
    moves_ite (fun _ => moves_pure _) fun _ => moves_bind (malloc_moves scratch_aftermath) fun _ =>
    moves_ite (fun _ => moves_pure _) fun _ =>
    moves_bind (moves_write fun _ => files_aftermath rfl rfl rfl) fun _ => moves_pure _

theorem sysioFdSet_aftermath (f : FilId) (fd : ℤ) (force : Bool) :
    Moves Aftermath (sysioFdSet (fuseEnv h) f fd force) :=
  moves_bind (moves_ite (fun _ => moves_bind (moves_read _) fun _ => moves_bind (moves_ite
    (fun _ => fdGrow_aftermath _) fun _ => moves_pure _) fun _ => moves_pure _) fun _ => moves_pure _)
    fun _ => moves_ite (fun _ => moves_pure _) fun _ => moves_bind (fdGrow_aftermath _) fun _ =>
    moves_ite (fun _ => moves_pure _) fun _ => moves_bind (moves_read _) fun _ =>
    moves_bind (moves_write fun _ => files_aftermath rfl rfl rfl) fun _ =>
    moves_bind (ifSome_moves fun g _ => fRele_aftermath g) fun _ => moves_pure _

theorem sysioFuseFnew_aftermath (p : Pno) (flags : ℕ) :
    Moves Aftermath (sysioFuseFnew (fuseEnv h) p flags) := by
  refine moves_bind (inoOf_moves p) fun _ => moves_bind (malloc_moves scratch_aftermath)
    fun _ => moves_ite (fun _ => moves_pure _) fun _ => moves_bind (nonNull_moves _) fun i =>
    moves_bind (moves_read _) fun _ => moves_bind (moves_write fun _ => files_aftermath rfl rfl rfl)
    fun _ => moves_bind ?_ fun _ => moves_pure _
  intro s a t run
  have nc := (iRef_moves (fun _ _ k => k) i s a t run).nc
  exact evolve_aftermath (iRef_evolve i s a t run) fun _ => by rw [inodeOf, nc, inodeOf]

theorem openError_aftermath (fil : Option FilId) (pno : Option Pno) (rtn : ℤ) :
    Moves Aftermath (openError (fuseEnv h) fil pno rtn) :=
  moves_bind (ifSome_moves fun f _ => fRele_aftermath f) fun _ =>
    moves_bind (ifSome_moves fun p _ => pRele_aftermath p) fun _ => moves_pure _

/-- What `open` does with the answer of `_sysio_open`. -/
def opened (h : Host B) (p : Pno) (flags : ℕ) (rtn : ℤ) : Fuse B Ret :=
  if rtn < 0 then
    openError (fuseEnv h) none (some p) rtn
  else do
    match ← sysioFuseFnew (fuseEnv h) p flags with
    | none => openError (fuseEnv h) none (some p) (-ENOMEM)
    | some f => do
      let rtn ← sysioFdSet (fuseEnv h) f (-1) false
      if rtn < 0 then
        openError (fuseEnv h) (some f) (some p) rtn
      else do
        pRele p
        return (rtn, 0)

theorem opened_aftermath (p : Pno) (flags : ℕ) (rtn : ℤ) : Moves Aftermath (opened h p flags rtn) := by
  refine moves_ite (fun _ => openError_aftermath _ _ _) fun _ =>
    moves_bind (sysioFuseFnew_aftermath p flags) fun made => ?_
  cases made with
  | none => exact openError_aftermath _ _ _
  | some f =>
    exact moves_bind (sysioFdSet_aftermath f _ _) fun rtn =>
      moves_ite (fun _ => openError_aftermath _ _ _) fun _ =>
      moves_bind (pRele_aftermath p) fun _ => moves_pure _

/-- An inode that is there before and afterwards goes along with the same file info. -/
theorem Aftermath.fileInfo (k : Aftermath s t) {i : InoId} {r r' : Inode} {f f' : FuseInode}
    (hr : s.ic.inode i = some r) (hf : s.drv.finode r.priv = some f) (old : i < s.ic.nextInode)
    (hr' : t.ic.inode i = some r') (hf' : t.drv.finode r'.priv = some f') :
    fileInfo t i = fileInfo s i := by
  obtain ⟨r₀, hr₀, priv⟩ := k.inode i r' hr' old
  obtain rfl : r = r₀ := Option.some.inj (hr.symm.trans hr₀)
  have same := k.finode _ _ hf'
  rw [priv, hf] at same
  obtain rfl : f = f' := Option.some.inj same
  unfold FailedOpens.fileInfo
  rw [hr, hr']
  change (t.drv.finode r'.priv).bind _ = (s.drv.finode r.priv).bind _
  rw [hf', hf]

end Aftermath

section Release

theorem pRele_run (held : (s.nc.pnode p).ref ≠ 0) : ∃ t, (pRele p : Fuse B Unit) s = .ok ((), t) :=
  ⟨_, bind_ok.mpr ⟨(), s, check_ok.mpr ⟨decide_eq_true held, rfl⟩, write_ok.mpr rfl⟩⟩

theorem pRele_ft {v : Unit} (run : (pRele p : Fuse B Unit) s = .ok (v, t)) : t.ft = s.ft := by
  obtain ⟨_, _, hc, hw⟩ := bind_ok.mp run
  obtain ⟨-, rfl⟩ := check_ok.mp hc
  obtain rfl := write_ok.mp hw
  rfl

/-- An inode that is counted differently. -/
theorem recount_space {i : InoId} {r r' : Inode} (hr : s.ic.inode i = some r)
    (inode : t.ic.inode = Function.update s.ic.inode i (some r')) (same : uncounted r' = uncounted r)
    (nc : t.nc = s.nc) (filesys : t.ic.filesys = s.ic.filesys) (drv : t.drv = s.drv)
    (mt : t.mt = s.mt) : SameSpace s t := by
  constructor
  case node =>
    intro q
    rw [nc]
    exact ⟨rfl, rfl⟩
  case pnodes =>
    intro q
    rw [nc]
  case base => rw [nc]
  case names => rw [nc]
  case inode =>
    intro j
    rw [inode]
    by_cases hj : j = i
    · rw [hj, Function.update_self, hr]
      exact congrArg some same
    · rw [Function.update_of_ne hj]
  case filesys => exact filesys
  case finode =>
    intro k
    rw [drv]
  case mt => exact mt

/-- A record that is new: it has one reference, and holds one on the inode of its node. -/
structure Fresh (p : Pno) (flags : ℕ) (i : InoId) (r : Inode) (f : FilId) (s t : Sys (FuseData B)) :
    Prop where
  bound : inodeOf s p = some i
  live : s.ic.inode i = some r
  inode : t.ic.inode = Function.update s.ic.inode i (some { r with ref := r.ref + 1 })
  filesys : t.ic.filesys = s.ic.filesys
  nc : t.nc = s.nc
  mt : t.mt = s.mt
  drv : t.drv = s.drv
  number : f = s.ft.nextFile
  oftab : t.ft.oftab = s.ft.oftab
  file : t.ft.file = Function.update s.ft.file f (some ⟨i, 0, 1, flags, p⟩)

theorem Fresh.space {flags : ℕ} {i : InoId} {r : Inode} {f : FilId} (k : Fresh p flags i r f s t) :
    SameSpace s t :=
  recount_space k.live k.inode rfl k.nc k.filesys k.drv k.mt

theorem sysioFuseFnew_fresh {flags : ℕ} {f : FilId}
    (run : sysioFuseFnew (fuseEnv h) p flags s = .ok (some f, t)) :
    ∃ i r, Fresh p flags i r f s t := by
  obtain ⟨o, _, hino, h1⟩ := bind_ok.mp run
  obtain ⟨rb, hrb, rfl, rfl⟩ := inoOf_ok.mp hino
  obtain ⟨got, u, hgot, h2⟩ := bind_ok.mp h1
  have scratch : Scratch s u := malloc_moves (fun _ _ k => k) s got u hgot
  cases got with
  | false =>
    obtain ⟨hf, -⟩ := pure_ok.mp h2
    cases hf
  | true =>
    obtain ⟨i, _, hread, h3⟩ := bind_ok.mp h2
    obtain ⟨hi, rfl⟩ := deref_ok.mp hread
    obtain ⟨f', _, hread, h4⟩ := bind_ok.mp h3
    obtain ⟨rfl, rfl⟩ := read_ok.mp hread
    obtain ⟨_, v, hw, h5⟩ := bind_ok.mp h4
    obtain rfl := write_ok.mp hw
    obtain ⟨_, w, href, h6⟩ := bind_ok.mp h5
    obtain ⟨hf, rfl⟩ := pure_ok.mp h6
    obtain rfl := Option.some.inj hf
    obtain ⟨r, _, hread, h7⟩ := bind_ok.mp href
    obtain ⟨hr, rfl⟩ := deref_ok.mp hread
    obtain rfl := write_ok.mp h7
    refine ⟨i, r, ?_⟩
    constructor
    case bound =>
      unfold inodeOf
      rw [hrb]
      exact hi
    case live =>
      rw [← scratch.ic]
      exact hr
    case inode => exact congrArg (fun ic => Function.update ic.inode i _) scratch.ic
    case filesys => exact congrArg (fun ic => ic.filesys) scratch.ic
    case nc => exact scratch.nc
    case mt => exact scratch.mt
    case drv => exact scratch.drv
    case number => exact congrArg (fun ft => ft.nextFile) scratch.ft
    case oftab => exact congrArg (fun ft => ft.oftab) scratch.ft
    case file =>
      change Function.update u.ft.file u.ft.nextFile _ = Function.update s.ft.file u.ft.nextFile _
      rw [scratch.ft]

/-- Where no descriptor is installed the table is left as it is. -/
theorem sysioFdSet_fails {f : FilId} {rc : ℤ}
    (run : sysioFdSet (fuseEnv h) f (-1) false s = .ok (rc, t)) (hrc : rc < 0) : Scratch s t := by
  obtain ⟨fd, u, hfind, h1⟩ := bind_ok.mp run
  change findFreeFildes (fuseEnv h) 0 s = .ok (fd, u) at hfind
  obtain ⟨oftab, _, hread, h2⟩ := bind_ok.mp hfind
  obtain ⟨rfl, rfl⟩ := read_ok.mp hread
  obtain ⟨err, v, hgrow, h3⟩ := bind_ok.mp h2
  obtain ⟨rfl, rfl⟩ := pure_ok.mp h3
  generalize 0 + ((List.drop 0 s.ft.oftab).takeWhile (·.isSome)).length = n at hgrow h1
  by_cases herr : err ≠ 0
  · have scratch : Scratch s v := by
      by_cases hend : s.ft.oftab.length ≤ n
      · rw [if_pos hend] at hgrow
        exact fdGrow_fails hgrow herr
      · rw [if_neg hend] at hgrow
        obtain ⟨rfl, -⟩ := pure_ok.mp hgrow
        exact absurd rfl herr
    have neg : err < 0 := by
      by_cases hend : s.ft.oftab.length ≤ n
      · rw [if_pos hend] at hgrow
        have := (fdGrow_ok hgrow).2.1
        omega
      · rw [if_neg hend] at hgrow
        obtain ⟨rfl, -⟩ := pure_ok.mp hgrow
        exact absurd rfl herr
    rw [if_pos herr, if_pos neg] at h1
    obtain ⟨-, rfl⟩ := pure_ok.mp h1
    exact scratch
  · rw [if_neg herr, if_neg (by omega)] at h1
    obtain ⟨err', w, hgrow', h4⟩ := bind_ok.mp h1
    obtain rfl : err = 0 := not_not.mp herr
    by_cases herr' : err' ≠ 0
    · rw [if_pos herr'] at h4
      obtain ⟨-, rfl⟩ := pure_ok.mp h4
      by_cases hend : s.ft.oftab.length ≤ n
      · rw [if_pos hend] at hgrow
        exact absurd (fdGrow_again hgrow hgrow') herr'
      · rw [if_neg hend] at hgrow
        obtain ⟨-, rfl⟩ := pure_ok.mp hgrow
        exact fdGrow_fails hgrow' herr'
    · rw [if_neg herr'] at h4
      obtain ⟨_, _, -, h5⟩ := bind_ok.mp h4
      obtain ⟨_, _, -, h6⟩ := bind_ok.mp h5
      obtain ⟨_, _, -, h7⟩ := bind_ok.mp h6
      obtain ⟨hrc', -⟩ := pure_ok.mp h7
      omega

/-- An inode that others hold too only loses a reference. -/
theorem iRele_shared {e : Env (FuseData B)} {i : InoId} {r : Inode} (hr : s.ic.inode i = some r)
    (others : 2 ≤ r.ref) : ∃ t, iRele e i s = .ok ((), t) ∧
      t.ic.inode = Function.update s.ic.inode i (some { r with ref := r.ref - 1 }) ∧
      t.nc = s.nc ∧ t.ic.filesys = s.ic.filesys ∧ t.drv = s.drv ∧ t.mt = s.mt ∧ t.ft = s.ft := by
  have read : (inodeAt i : Fuse B Inode) s = .ok (r, s) := deref_ok.mpr ⟨hr, rfl⟩
  have used : (assert (decide (r.ref ≠ 0)) : Fuse B Unit) s = .ok ((), s) :=
    check_ok.mpr ⟨decide_eq_true (by omega), rfl⟩
  obtain ⟨t, set⟩ : ∃ t, (setInode i { r with ref := r.ref - 1 } : Fuse B Unit) s = .ok ((), t) :=
    ⟨_, write_ok.mpr rfl⟩
  refine ⟨t, (bind_run read).trans ((bind_run used).trans ((bind_run set).trans ?_)), ?_⟩
  · rw [if_neg (by omega)]
    rfl
  · obtain rfl := write_ok.mp set
    exact ⟨rfl, rfl, rfl, rfl, rfl, rfl⟩

/-- Giving up the one reference on a file whose inode others hold too. -/
theorem fRele_last {f : FilId} {r : File} {ri : Inode} {v : Unit} (hr : s.ft.file f = some r)
    (once : r.ref = 1)
    (asked : (setFile f { r with ref := r.ref - 1 } : Fuse B Unit) s = .ok (v, t))
    (hi : s.ic.inode r.ino = some ri) (others : 2 ≤ ri.ref) :
    (∀ err w, fuseInopClose h r.pno t = .ok (err, w) → err = 0 → ∃ x,
      fRele (fuseEnv h) f s = .ok ((), x) ∧ SameSpace s x ∧ x.nc = s.nc ∧
        x.ft.oftab = s.ft.oftab ∧ x.ft.file = Function.update s.ft.file f none) ∧
    (∀ x, fRele (fuseEnv h) f s = .ok ((), x) → ∃ w, fuseInopClose h r.pno t = .ok (0, w)) := by
  have ht := write_ok.mp asked
  have hr' : t.ft.file f = some { r with ref := r.ref - 1 } := by
    rw [← ht]
    exact Function.update_self ..
  have start : fRele (fuseEnv h) f s = sysioFgone (fuseEnv h) f t := by
    have read : (fileAt f : Fuse B File) s = .ok (r, s) := deref_ok.mpr ⟨hr, rfl⟩
    have used : (assert (decide (r.ref ≠ 0)) : Fuse B Unit) s = .ok ((), s) :=
      check_ok.mpr ⟨decide_eq_true (by omega), rfl⟩
    refine (bind_run read).trans ((bind_run used).trans ((bind_run asked).trans ?_))
    rw [if_pos (by omega)]
  have first : sysioFgone (fuseEnv h) f t = (do
      let err ← fuseInopClose h r.pno
      assert (decide (err = 0))
      iRele (fuseEnv h) r.ino
      Exec.write fun s => { s with ft.file := Function.update s.ft.file f none } : Fuse B Unit) t := by
    have read : (fileAt f : Fuse B File) t = .ok ({ r with ref := r.ref - 1 }, t) :=
      deref_ok.mpr ⟨hr', rfl⟩
    have unused : (assert (decide (r.ref - 1 = 0)) : Fuse B Unit) t = .ok ((), t) :=
      check_ok.mpr ⟨decide_eq_true (by omega), rfl⟩
    exact (bind_run read).trans (bind_run unused)
  refine ⟨fun err w closed zero => ?_, fun x run => ?_⟩
  · obtain ⟨driver, space, -⟩ := fuseInopClose_ok closed
    have hw : w.ic.inode r.ino = some ri := by
      rw [driver.ic, ← ht]
      exact hi
    obtain ⟨x, rele, inode, rest⟩ := iRele_shared (e := fuseEnv h) hw others
    have answered : (assert (decide (err = 0)) : Fuse B Unit) w = .ok ((), w) :=
      check_ok.mpr ⟨decide_eq_true zero, rfl⟩
    refine ⟨_, start.trans (first.trans ((bind_run closed).trans ((bind_run answered).trans
      ((bind_run rele).trans (write_ok.mpr rfl))))), ?_, ?_, ?_, ?_⟩
    · refine IsTrans.trans s t _ ?_ (IsTrans.trans t w _ space ?_)
      · rw [← ht]
        exact space_of_eq rfl rfl (fun _ => rfl) rfl
      · exact recount_space hw inode rfl rest.1 rest.2.1 rest.2.2.1 rest.2.2.2.1
    · exact rest.1.trans (by rw [driver.nc, ← ht])
    · change x.ft.oftab = s.ft.oftab
      rw [rest.2.2.2.2, driver.ft, ← ht]
    · change Function.update x.ft.file f none = _
      rw [rest.2.2.2.2, driver.ft, ← ht]
      exact Function.update_idem ..
  · rw [start, first] at run
    obtain ⟨err, w, closed, h1⟩ := bind_ok.mp run
    obtain ⟨_, _, hc, -⟩ := bind_ok.mp h1
    obtain ⟨zero, -⟩ := check_ok.mp hc
    obtain rfl := of_decide_eq_true zero
    exact ⟨w, closed⟩

end Release

section Failing

/-- The mode of a file that is made. -/
def maskedMode (umask flags mode : ℕ) : ℕ :=
  if flags &&& O_CREAT ≠ 0 then mode - (mode &&& (umask &&& 0o777)) else 0

/-- The backend's `mknod` or `open` fails. -/
def Refused (h : Host B) (p : Pno) (flags mode : ℕ) (s : Sys (FuseData B)) : Prop :=
  ∃ rtn t l c, sysioOpen (fuseEnv h) p flags mode s = .ok (rtn, t) ∧
    t.drv.calls = l ++ s.drv.calls ∧ c ∈ l ∧ c.2 < 0 ∧
    ((∃ path m, c.1 = .mknod path m) ∨ ∃ path m fi, c.1 = .open_ path m fi)

/-- No descriptor is installed for the new record, which `w` is about to give up. -/
def Uninstalled (h : Host B) (p : Pno) (flags : ℕ) (u w : Sys (FuseData B)) : Prop :=
  ∃ f v rc x r, sysioFuseFnew (fuseEnv h) p flags u = .ok (some f, v) ∧
    sysioFdSet (fuseEnv h) f (-1) false v = .ok (rc, x) ∧ rc < 0 ∧ x.ft.file f = some r ∧
    (setFile f { r with ref := r.ref - 1 } : Fuse B Unit) x = .ok ((), w)

/-- Installing the descriptor fails; in the state `w` the backend is asked to release the file. -/
def NotInstalled (h : Host B) (p : Pno) (flags mode : ℕ) (s w : Sys (FuseData B)) : Prop :=
  ∃ rtn u, sysioOpen (fuseEnv h) p flags mode s = .ok (rtn, u) ∧ 0 ≤ rtn ∧
    Uninstalled h p flags u w

/-- The call has come back with an error and left nothing behind: `s` is the state before it, `l`
the state behind its look-up. -/
structure Undone (s l t : Sys (FuseData B)) (p : Pno) (ret : Ret) : Prop where
  value : ret.1 = -1
  slots : t.ft.oftab = s.ft.oftab
  refs : ∀ f, (t.ft.file f).map (fun r => r.ref) = (s.ft.file f).map fun r => r.ref
  space : SameSpace l t
  infos : ∀ f r, s.ft.file f = some r → inodeOf l p = some r.ino →
    fileInfo t r.ino = fileInfo s r.ino

theorem opened_refused {flags : ℕ} {rtn : ℤ} (neg : rtn < 0) (held : (s.nc.pnode p).ref ≠ 0) :
    ∃ t, opened h p flags rtn s = .ok ((-1, rtn), t) ∧ SameSpace s t ∧ t.ft = s.ft := by
  obtain ⟨t, rele⟩ := pRele_run held
  refine ⟨t, ?_, pRele_space p s () t rele, pRele_ft rele⟩
  unfold opened
  rw [if_pos neg]
  have skip : (ifSome none (fRele (fuseEnv h)) : Fuse B Unit) s = .ok ((), s) := rfl
  exact (bind_run skip).trans (bind_run rele)

/-- The run of an `open` that cannot install its descriptor. -/
theorem uninstalled_run {flags : ℕ} {rtn : ℤ} {w : Sys (FuseData B)} (nonneg : 0 ≤ rtn)
    (k : Uninstalled h p flags s w) (held : (s.nc.pnode p).ref ≠ 0)
    (shared : ∀ i r, inodeOf s p = some i → s.ic.inode i = some r → r.ref ≠ 0)
    (new : s.ft.file s.ft.nextFile = none) :
    (∀ x, fuseInopClose h p w = .ok (0, x) → ∃ ret t, opened h p flags rtn s = .ok (ret, t) ∧
      ret.1 = -1 ∧ SameSpace s t ∧ t.ft.oftab = s.ft.oftab ∧ t.ft.file = s.ft.file) ∧
    (∀ ret t, opened h p flags rtn s = .ok (ret, t) → ∃ x, fuseInopClose h p w = .ok (0, x)) := by
  obtain ⟨f, v, rc, x, r, hnew, hset, neg, hr, asked⟩ := k
  obtain ⟨i, ri, fresh⟩ := sysioFuseFnew_fresh hnew
  have scratch := sysioFdSet_fails hset neg
  have hf : x.ft.file f = some ⟨i, 0, 1, flags, p⟩ := by
    rw [scratch.ft, fresh.file, Function.update_self]
  obtain rfl : r = ⟨i, 0, 1, flags, p⟩ := Option.some.inj (hr.symm.trans hf)
  have hi : x.ic.inode i = some { ri with ref := ri.ref + 1 } := by
    rw [scratch.ic, fresh.inode, Function.update_self]
  have others : 2 ≤ ri.ref + 1 := by
    have := shared i ri fresh.bound fresh.live
    omega
  have split : opened h p flags rtn s = openError (fuseEnv h) (some f) (some p) rc x := by
    unfold opened
    rw [if_neg (by omega)]
    refine (bind_run hnew).trans ((bind_run hset).trans ?_)
    rw [if_pos neg]
  obtain ⟨gives, closed⟩ := fRele_last hf rfl asked hi others
  constructor
  · intro y answered
    obtain ⟨z, rele, space, nc, oftab, file⟩ := gives 0 y answered rfl
    have nc : z.nc = s.nc := nc.trans (scratch.nc.trans fresh.nc)
    obtain ⟨t, rele'⟩ : ∃ t, (pRele p : Fuse B Unit) z = .ok ((), t) := pRele_run (by rwa [nc])
    have whole : openError (fuseEnv h) (some f) (some p) rc x = .ok ((-1, rc), t) :=
      (bind_run rele).trans (bind_run rele')
    refine ⟨(-1, rc), t, split.trans whole, rfl, ?_, ?_, ?_⟩
    · refine IsTrans.trans s v t fresh.space ?_
      refine IsTrans.trans v x t (scratch_space v x scratch) ?_
      exact IsTrans.trans x z t space (pRele_space p z () t rele')
    · rw [pRele_ft rele', oftab, scratch.ft, fresh.oftab]
    · rw [pRele_ft rele', file, scratch.ft, fresh.file, Function.update_idem, fresh.number, ← new]
      exact Function.update_eq_self ..
  · intro ret t run
    rw [split] at run
    obtain ⟨_, z, rele, -⟩ := bind_ok.mp run
    exact closed z rele

/-- What the look-up of a call leaves for the call to go on with. -/
structure Looked (p : Pno) (s t : Sys (FuseData B)) : Prop where
  ft : t.ft = s.ft
  nextFi : t.drv.nextFi = s.drv.nextFi
  held : (t.nc.pnode p).ref ≠ 0
  books : InodeRefs.Books True (fun _ => 0) t

theorem find_looked {b : B} {ok : Sys (FuseData B) → Call → Prop} (run : FuseReached h b ok s)
    {c : PathCall} {path : Bytes} (found : c.find (fuseEnv h) path s = .ok (some p, t)) :
    Looked p s t := by
  obtain ⟨tidy, fitted⟩ := reached_fitted run
  obtain ⟨m, rest, root, u, -, -, hhead, -, hnamei⟩ := PathCall.find_ok found
  have scratch := c.head_scratch s () u hhead
  have start : Walked (refs s) (isRoot s.mt) s (0 + WalkRules.names (some rest)) [] u :=
    (start_walked tidy.plain fitted _).scratch scratch
  obtain ⟨after, -⟩ := sysioNamei_walked (refs_nonneg s) root (some rest) c.flags (some c.intent) u
    start _ t hnamei
  constructor
  case ft => exact after.stays.ft
  case nextFi => exact after.evolve.nextFi
  case held =>
    have count := after.held.count p
    have := refs_nonneg s p
    intro zero
    have : refs t p = 0 := by
      unfold refs
      rw [zero]
      split <;> rfl
    rw [this] at count
    simp at count
    omega
  case books =>
    have contract : InodeAccounts.Contract True (fuseEnv h) :=
      FuseAccounts.fuseEnv_contract (Or.inr trivial)
    have mounts : InodeAccounts.MountContract True (fsswLookup h) :=
      FuseAccounts.fsswLookup_contract (Or.inr trivial)
    have books := InodeAccounts.reached_books contract mounts run
    have kept : InodeRefs.Books True (fun _ => 0) u := InodeAccounts.scratch_keep s u scratch _ books
    exact InodeAccounts.sysioNamei_keep contract root (some rest) c.flags (some c.intent) u _ t hnamei
      _ kept

/-- The name that an inode is bound to holds a reference on it. -/
theorem bound_counted (books : InodeRefs.Books True (fun _ => 0) s) {i : InoId}
    (hi : inodeOf s p = some i) : ∃ r, s.ic.inode i = some r ∧ r.ref ≠ 0 ∧ i < s.ic.nextInode := by
  obtain ⟨rb, hrb, hino⟩ := Option.bind_eq_some_iff.mp hi
  obtain ⟨tables, leak, -, balance⟩ := books
  have below : (s.nc.pnode p).base < s.nc.nextBase := by
    by_contra hge
    rw [tables.baseBound _ (Nat.le_of_not_lt hge)] at hrb
    cases hrb
  have holder : 0 < InodeRefs.baseHolders s i := Tally.tally_pos below hrb (by simp [hino])
  have count := balance i
  unfold InodeRefs.holders InodeRefs.refOf at count
  cases hr : s.ic.inode i with
  | none =>
    rw [hr, Option.elim_none] at count
    omega
  | some r =>
    rw [hr, Option.elim_some] at count
    refine ⟨r, rfl, by omega, ?_⟩
    by_contra hge
    rw [tables.inodeBound i (Nat.le_of_not_lt hge)] at hr
    cases hr

variable {flags mode : ℕ}

theorem grown_by_none {α : Type} {l m : List α} (same : m = l ++ m) : l = [] :=
  List.self_eq_append_left.mp same

/-- An open that fails has asked the driver, and the name is bound then. -/
theorem failed_binds {rtn : ℤ} {v : Sys (FuseData B)}
    (failed : Refused h p flags mode s ∨ ∃ w, NotInstalled h p flags mode s w)
    (run : sysioOpen (fuseEnv h) p flags mode s = .ok (rtn, v)) : (inodeOf v p).isSome := by
  cases hi : inodeOf s p with
  | none =>
    rcases failed with ⟨rtn', v', l, c, run', calls, hc, -⟩ | ⟨w, rtn', v', run', -, k⟩
    all_goals
      rw [run] at run'
      obtain ⟨rfl, rfl⟩ := Prod.mk.inj (Except.ok.inj run')
    · rcases sysioOpen_new hi run with same | bound
      · rw [grown_by_none (same.symm.trans calls)] at hc
        cases hc
      · exact bound
    · obtain ⟨f, _, _, _, _, hnew, -⟩ := k
      obtain ⟨i, ri, fresh⟩ := sysioFuseFnew_fresh hnew
      rw [fresh.bound]
      rfl
  | some i =>
    rcases sysioOpen_existing hi run with ⟨-, rfl⟩ | asked
    · rw [hi]
      rfl
    · rw [asked.space.inodeOf p, hi]
      rfl

/-- An open of an existing file that fails has asked the backend to open it. -/
theorem failed_asked {rtn : ℤ} {v : Sys (FuseData B)} {i : InoId}
    (failed : Refused h p flags mode s ∨ ∃ w, NotInstalled h p flags mode s w)
    (hi : inodeOf s p = some i)
    (run : sysioOpen (fuseEnv h) p flags mode s = .ok (rtn, v)) : Asked flags i rtn s v := by
  rcases sysioOpen_existing hi run with ⟨neg, rfl⟩ | asked
  · rcases failed with ⟨rtn', v', l, c, run', calls, hc, -⟩ | ⟨w, rtn', v', run', nonneg, -⟩
    all_goals
      rw [run] at run'
      obtain ⟨rfl, rfl⟩ := Prod.mk.inj (Except.ok.inj run')
    · rw [grown_by_none calls] at hc
      cases hc
    · omega
  · exact asked

/-- Where the name has an inode the answer of the backend's `open` is that of the whole call. -/
theorem refused_negative {rtn : ℤ} {v : Sys (FuseData B)} {i : InoId}
    (refused : Refused h p flags mode s) (hi : inodeOf s p = some i)
    (run : sysioOpen (fuseEnv h) p flags mode s = .ok (rtn, v)) : rtn < 0 := by
  obtain ⟨path, asked⟩ := (failed_asked (Or.inl refused) hi run).calls
  obtain ⟨rtn', v', l, c, run', calls, hc, neg, -⟩ := refused
  rw [run] at run'
  obtain ⟨rfl, rfl⟩ := Prod.mk.inj (Except.ok.inj run')
  rw [asked] at calls
  have single : l = [(.open_ path flags s.drv.nextFi, rtn)] :=
    (@List.append_cancel_right _ [_] _ l calls).symm
  rw [single] at hc
  obtain rfl := List.mem_singleton.mp hc
  exact neg

/-- The new file info stays with the inode when the call undoes the rest. -/
theorem Asked.kept {i : InoId} {rtn : ℤ} {v : Sys (FuseData B)} (asked : Asked flags i rtn s v)
    (looked : InodeRefs.Books True (fun _ => 0) s) (hi : inodeOf s p = some i)
    (after : Aftermath v t) (space : SameSpace s t) : fileInfo t i = some s.drv.nextFi := by
  obtain ⟨r, hr, -, old⟩ := bound_counted looked hi
  have hv : v.ic.inode i = some r := by
    rw [asked.driver.ic]
    exact hr
  have info := asked.info
  unfold fileInfo at info
  rw [hv] at info
  obtain ⟨fv, hfv, -⟩ := Option.bind_eq_some_iff.mp
    (show (v.drv.finode r.priv).bind (fun k => k.file) = _ from info)
  have hs : ∃ fs, s.drv.finode r.priv = some fs := by
    have same := asked.space.finode r.priv
    rw [hfv] at same
    obtain ⟨fs, hfs, -⟩ := Option.map_eq_some_iff.mp same.symm
    exact ⟨fs, hfs⟩
  obtain ⟨fs, hfs⟩ := hs
  have same := space.inode i
  rw [hr] at same
  obtain ⟨r', hr', counted⟩ := Option.map_eq_some_iff.mp same
  have priv := congrArg Inode.priv counted
  have same := space.finode r.priv
  rw [hfs] at same
  obtain ⟨ft, hft, -⟩ := Option.map_eq_some_iff.mp same
  rw [← asked.info]
  refine after.fileInfo hv hfv ?_ hr' ((congrArg t.drv.finode priv).trans hft)
  rw [asked.driver.ic]
  exact old

/-- A failed open comes back and changes nothing exactly where the name it is led to has an inode
no file is open on, and the backend lets go of the file where only the descriptor is missing. -/
theorem failed_open {b : B} {ok : Sys (FuseData B) → Call → Prop} (reached : FuseReached h b ok s)
    {w : Uninit} {path : Bytes} (found : (PathCall.open_ w flags mode).find (fuseEnv h) path s =
      .ok (some p, u))
    (failed : Refused h p flags (maskedMode s.umask flags mode) u ∨
      ∃ x, NotInstalled h p flags (maskedMode s.umask flags mode) u x) :
    (∃ ret t, step (fuseLibrary h) (.open_ w path flags mode) s = .ok (ret, t) ∧
        Undone s u t p ret) ↔
      (∃ i, inodeOf u p = some i ∧ ∀ f r, s.ft.file f = some r → r.ino ≠ i) ∧
        ∀ x, NotInstalled h p flags (maskedMode s.umask flags mode) u x →
          ∃ y, fuseInopClose h p x = .ok (0, y) := by
  have looked := find_looked reached found
  have whole : step (fuseLibrary h) (.open_ w path flags mode) s = (do
      let rtn ← sysioOpen (fuseEnv h) p flags (maskedMode s.umask flags mode)
      opened h p flags rtn : Fuse B Ret) u :=
    @PathCall.run_found _ s u path p (fuseLibrary h) (.open_ w flags mode) found
  have shared : ∀ {v : Sys (FuseData B)} {i : InoId} {rtn : ℤ}, inodeOf u p = some i →
      Asked flags i rtn u v → ∀ j r, inodeOf v p = some j → v.ic.inode j = some r → r.ref ≠ 0 := by
    intro v i rtn hi asked j r hj hr
    rw [asked.space.inodeOf p] at hj
    rw [asked.driver.ic] at hr
    obtain ⟨r', hr', counted, -⟩ := bound_counted looked.books hj
    obtain rfl := Option.some.inj (hr.symm.trans hr')
    exact counted
  have new : ∀ {v : Sys (FuseData B)}, v.ft = u.ft → v.ft.file v.ft.nextFile = none := by
    intro v hv
    rw [hv]
    exact looked.books.tables.fileBound _ (Nat.le_refl _)
  rw [whole]
  constructor
  · rintro ⟨ret, t, run, undone⟩
    obtain ⟨rtn, v, hopen, hrest⟩ := bind_ok.mp run
    have after := opened_aftermath p flags rtn v ret t hrest
    have bound : (inodeOf u p).isSome := by
      rw [← undone.space.inodeOf p, after.bound p]
      exact failed_binds failed hopen
    obtain ⟨i, hi⟩ := Option.isSome_iff_exists.mp bound
    have asked := failed_asked failed hi hopen
    refine ⟨⟨i, hi, fun f r hr hino => ?_⟩, fun x left => ?_⟩
    · have info := undone.infos f r hr (hi.trans (congrArg some hino.symm))
      rw [hino, asked.kept looked.books hi after undone.space, looked.nextFi] at info
      obtain ⟨ri, hri, hinfo⟩ := Option.bind_eq_some_iff.mp info.symm
      obtain ⟨k, hk, hfile⟩ := Option.bind_eq_some_iff.mp hinfo
      exact absurd ((reached_fitted reached).1.infos _ _ _ hk hfile) (Nat.lt_irrefl _)
    · obtain ⟨rtn', v', hopen', nonneg, k⟩ := left
      rw [hopen] at hopen'
      obtain ⟨rfl, rfl⟩ := Prod.mk.inj (Except.ok.inj hopen')
      have held : (v.nc.pnode p).ref ≠ 0 := by
        rw [asked.driver.nc]
        exact looked.held
      exact (uninstalled_run nonneg k held (shared hi asked) (new asked.driver.ft)).2 ret t hrest
  · rintro ⟨⟨i, hi, unopened⟩, closes⟩
    have enough : ∀ {ret : Ret} {t : Sys (FuseData B)}, ret.1 = -1 → SameSpace u t →
        t.ft.oftab = u.ft.oftab → t.ft.file = u.ft.file → Undone s u t p ret := by
      intro ret t value space oftab file
      constructor
      case value => exact value
      case slots => rw [oftab, looked.ft]
      case refs =>
        intro f
        rw [file, looked.ft]
      case space => exact space
      case infos =>
        intro f r hr hino
        exact absurd (Option.some.inj (hino.symm.trans hi)) (unopened f r hr)
    rcases failed with refused | ⟨x, left⟩
    · obtain ⟨rtn, v, l, c, hopen, -⟩ := id refused
      have asked := failed_asked (Or.inl refused) hi hopen
      have held : (v.nc.pnode p).ref ≠ 0 := by
        rw [asked.driver.nc]
        exact looked.held
      obtain ⟨t, run, space, ft⟩ := @opened_refused _ h v p flags rtn
        (refused_negative refused hi hopen) held
      refine ⟨_, t, (bind_run hopen).trans run, enough rfl ?_ ?_ ?_⟩
      · exact IsTrans.trans u v t asked.space space
      · rw [ft, asked.driver.ft]
      · rw [ft, asked.driver.ft]
    · obtain ⟨y, closed⟩ := closes x left
      obtain ⟨rtn, v, hopen, nonneg, k⟩ := id left
      have asked := failed_asked (Or.inr ⟨x, left⟩) hi hopen
      have held : (v.nc.pnode p).ref ≠ 0 := by
        rw [asked.driver.nc]
        exact looked.held
      obtain ⟨ret, t, run, value, space, oftab, file⟩ :=
        (uninstalled_run nonneg k held (shared hi asked) (new asked.driver.ft)).1 y closed
      refine ⟨ret, t, (bind_run hopen).trans run, enough value ?_ ?_ ?_⟩
      · exact IsTrans.trans u v t asked.space space
      · rw [oftab, asked.driver.ft]
      · rw [file, asked.driver.ft]

end Failing

section Denied

/-- The backend opens nothing. -/
def noOpen : BackendCall → ℤ
  | .open_ .. => -13
  | _ => 0

/-- `open` of "bb:/b/d" for reading. -/
def readCall : PathCall := .open_ ⟨none, none⟩ 0 0

/-- `open` of "bb:/b/d" for writing, making the file if need be. -/
def makeCall : PathCall := .open_ ⟨none, none⟩ 0o102 0o644

/-- The library that has "bb" on "/b", with the directory "/b/d" in it. -/
def withDirectory : Sys (FuseData Unit) := answeredRun noOpen [secondMkdir, secondMount]

/-- The library that has "bb" on "/b". -/
def withNothing : Sys (FuseData Unit) := answeredRun noOpen [secondMount]

def lookFor (c : PathCall) : Fuse Unit (Option Pno) :=
  c.find (fuseEnv (answering noOpen)) [98, 98, 58, 47, 98, 47, 100]

/-- What becomes of the directory. -/
theorem directory_values :
    (runCalls (fuseLibrary (answering noOpen)) fuseTypeName [secondMkdir, secondMount]).value
      (initState (initData ())) = some () ∧
    (lookFor readCall).value withDirectory = some (some 107) ∧
    (sysioOpen (fuseEnv (answering noOpen)) 107 0 0).value ((lookFor readCall).final withDirectory) =
      some (-13) ∧
    ((sysioOpen (fuseEnv (answering noOpen)) 107 0 0).final
      ((lookFor readCall).final withDirectory)).drv.calls =
      [(.open_ (some [47, 100]) 0 0, -13)] ++ ((lookFor readCall).final withDirectory).drv.calls ∧
    inodeOf ((lookFor readCall).final withDirectory) 107 = some 2 ∧
    withDirectory.umask = 0 ∧ withDirectory.ft.nextFile = 0 := by decide +kernel

/-- What becomes of the name that leads nowhere. -/
theorem nothing_values :
    (runCalls (fuseLibrary (answering noOpen)) fuseTypeName [secondMount]).value
      (initState (initData ())) = some () ∧
    (lookFor makeCall).value withNothing = some (some 107) ∧
    (sysioOpen (fuseEnv (answering noOpen)) 107 0o102 0o644).value
      ((lookFor makeCall).final withNothing) = some (-13) ∧
    ((sysioOpen (fuseEnv (answering noOpen)) 107 0o102 0o644).final
      ((lookFor makeCall).final withNothing)).drv.calls =
      [(.open_ (some [47, 100]) 0o102 0, -13), (.mknod [47, 100] 0o644, 0)] ++
        ((lookFor makeCall).final withNothing).drv.calls ∧
    inodeOf ((lookFor makeCall).final withNothing) 107 = none ∧
    inodeOf ((step (fuseLibrary (answering noOpen))
      (.open_ ⟨none, none⟩ [98, 98, 58, 47, 98, 47, 100] 0o102 0o644)).final withNothing) 107 =
      some 2 ∧
    withNothing.umask = 0 := by decide +kernel

theorem withDirectory_reached : FuseReached (answering noOpen) () (fun _ _ => True) withDirectory := by
  have run : runCalls (fuseLibrary (answering noOpen)) fuseTypeName [secondMkdir, secondMount]
      (initState (initData ())) = .ok ((), withDirectory) := ok_of_value directory_values.1
  exact runCalls_reached run

theorem withNothing_reached : FuseReached (answering noOpen) () (fun _ _ => True) withNothing := by
  have run : runCalls (fuseLibrary (answering noOpen)) fuseTypeName [secondMount]
      (initState (initData ())) = .ok ((), withNothing) := ok_of_value nothing_values.1
  exact runCalls_reached run

theorem directory_found : lookFor readCall withDirectory =
    .ok (some 107, (lookFor readCall).final withDirectory) := ok_of_value directory_values.2.1

theorem nothing_found : lookFor makeCall withNothing =
    .ok (some 107, (lookFor makeCall).final withNothing) := ok_of_value nothing_values.2.1

theorem directory_open : sysioOpen (fuseEnv (answering noOpen)) 107 0
    (maskedMode withDirectory.umask 0 0) ((lookFor readCall).final withDirectory) =
    .ok (-13, (sysioOpen (fuseEnv (answering noOpen)) 107 0 0).final
      ((lookFor readCall).final withDirectory)) := by
  obtain ⟨-, -, value, -, -, umask, -⟩ := directory_values
  have mask : maskedMode 0 0 0 = 0 := by decide
  rw [umask, mask]
  exact ok_of_value value

theorem nothing_open : sysioOpen (fuseEnv (answering noOpen)) 107 0o102
    (maskedMode withNothing.umask 0o102 0o644) ((lookFor makeCall).final withNothing) =
    .ok (-13, (sysioOpen (fuseEnv (answering noOpen)) 107 0o102 0o644).final
      ((lookFor makeCall).final withNothing)) := by
  obtain ⟨-, -, value, -, -, -, umask⟩ := nothing_values
  have mask : maskedMode 0 0o102 0o644 = 0o644 := by decide
  rw [umask, mask]
  exact ok_of_value value

theorem directory_refused : Refused (answering noOpen) 107 0 (maskedMode withDirectory.umask 0 0)
    ((lookFor readCall).final withDirectory) := by
  obtain ⟨-, -, -, calls, -⟩ := directory_values
  exact ⟨-13, _, _, _, directory_open, calls, List.mem_cons_self, by decide, Or.inr ⟨_, _, _, rfl⟩⟩

theorem nothing_refused : Refused (answering noOpen) 107 0o102
    (maskedMode withNothing.umask 0o102 0o644) ((lookFor makeCall).final withNothing) := by
  obtain ⟨-, -, -, calls, -⟩ := nothing_values
  exact ⟨-13, _, _, _, nothing_open, calls, List.mem_cons_self, by decide, Or.inr ⟨_, _, _, rfl⟩⟩

theorem directory_unopened (f : FilId) (r : File) (hr : withDirectory.ft.file f = some r) :
    r.ino ≠ 2 := by
  obtain ⟨-, -, -, -, -, -, next⟩ := directory_values
  have books : InodeRefs.Books True (fun _ => 0) withDirectory :=
    InodeAccounts.reached_books (FuseAccounts.fuseEnv_contract (Or.inr trivial))
      (FuseAccounts.fsswLookup_contract (Or.inr trivial)) withDirectory_reached
  have none_ : withDirectory.ft.file f = none := by
    apply books.tables.fileBound
    rw [next]
    exact Nat.zero_le f
  rw [none_] at hr
  cases hr

end Denied

/-- A directory that nobody has open, and that the backend does not open. -/
theorem failed_open_directory : ∃ ret t,
    step (fuseLibrary (answering noOpen)) (.open_ ⟨none, none⟩ [98, 98, 58, 47, 98, 47, 100] 0 0)
      withDirectory = .ok (ret, t) ∧
    Undone withDirectory ((lookFor readCall).final withDirectory) t 107 ret := by
  obtain ⟨-, -, -, -, inode, -⟩ := directory_values
  refine (@failed_open Unit (answering noOpen) withDirectory ((lookFor readCall).final withDirectory)
    107 0 0 () (fun _ _ => True) withDirectory_reached ⟨none, none⟩ [98, 98, 58, 47, 98, 47, 100]
    directory_found (Or.inl directory_refused)).mpr ⟨⟨2, inode, directory_unopened⟩, ?_⟩
  rintro x ⟨rtn, u, run, nonneg, -⟩
  have same := (Prod.mk.inj (Except.ok.inj (directory_open.symm.trans run))).1
  omega

/-- The backend opens nothing, and yet there is a file "/b/d" after the attempt to open one. -/
theorem failed_open_makes : ¬ ∀ s, FuseReached (answering noOpen) () (fun _ _ => True) s →
    ∀ w flags mode path u p,
      (PathCall.open_ w flags mode).find (fuseEnv (answering noOpen)) path s = .ok (some p, u) →
      Refused (answering noOpen) p flags (maskedMode s.umask flags mode) u →
      ∃ ret t, step (fuseLibrary (answering noOpen)) (.open_ w path flags mode) s = .ok (ret, t) ∧
        Undone s u t p ret := by
  intro undone
  obtain ⟨-, -, -, -, unbound, bound, -⟩ := nothing_values
  obtain ⟨ret, t, run, kept⟩ := undone withNothing withNothing_reached ⟨none, none⟩ 0o102 0o644
    [98, 98, 58, 47, 98, 47, 100] ((lookFor makeCall).final withNothing) 107 nothing_found
    nothing_refused
  have same := kept.space.inodeOf 107
  have final : (step (fuseLibrary (answering noOpen))
      (.open_ ⟨none, none⟩ [98, 98, 58, 47, 98, 47, 100] 0o102 0o644)).final withNothing = t := by
    unfold Exec.final
    rw [run]
  rw [final, same, unbound] at bound
  cases bound

end FailedOpens
