import DirectFuse.CoreMoves
import DirectFuse.SysioSystem

/-! What a call asks of a driver. A call that runs alike with other operations in place of those of
its driver has not asked anything the two answer differently. -/
namespace OtherOps

open ExecLogic SysioState SysioInode SysioNamei SysioMount SysioFile SysioInterface

variable {D : Type}

/-- The path node stands for an inode. -/
def Bound (p : Pno) (s : Sys D) : Prop :=
  ∃ r i, s.nc.base (s.nc.pnode p).base = some r ∧ r.ino = some i

theorem inoOf_ok {p : Pno} {s t : Sys D} {o : Option InoId} :
    (inoOf p : Sysio D (Option InoId)) s = .ok (o, t) ↔
      ∃ r, s.nc.base (s.nc.pnode p).base = some r ∧ r.ino = o ∧ s = t := by
  simp only [inoOf, pnodeAt, baseAt, bind_ok, read_ok, deref_ok, pure_ok]
  constructor
  · rintro ⟨n, _, ⟨rfl, rfl⟩, r, _, ⟨hr, rfl⟩, ho, ht⟩
    exact ⟨r, hr, ho, ht⟩
  · rintro ⟨r, hr, ho, ht⟩
    exact ⟨_, s, ⟨rfl, rfl⟩, r, s, ⟨hr, rfl⟩, ho, ht⟩

theorem bound_of_inoOf {p : Pno} {s t : Sys D} {i : InoId}
    (run : (inoOf p : Sysio D (Option InoId)) s = .ok (some i, t)) : Bound p s := by
  obtain ⟨r, hr, hi, -⟩ := inoOf_ok.mp run
  exact ⟨r, i, hr, hi⟩

theorem parentIno_ok {p : Pno} {s t : Sys D} {d : InoId}
    (run : (parentIno p : Sysio D InoId) s = .ok (d, t)) : Bound (s.nc.pnode p).parent s ∧ s = t := by
  obtain ⟨n, _, hn, h1⟩ := bind_ok.mp run
  obtain ⟨rfl, rfl⟩ := read_ok.mp hn
  obtain ⟨ino, u, hino, h2⟩ := bind_ok.mp h1
  obtain ⟨rfl, rfl⟩ := deref_ok.mp h2
  exact ⟨bound_of_inoOf hino, (inoOf_ok.mp hino).choose_spec.2.2⟩

/-- The inode of the directory is at hand where the directory has one. -/
theorem parentIno_run {p : Pno} {s : Sys D} (bound : Bound (s.nc.pnode p).parent s) :
    ∃ d, (parentIno p : Sysio D InoId) s = .ok (d, s) := by
  obtain ⟨r, d, hr, hd⟩ := bound
  exact ⟨d, bind_ok.mpr ⟨_, s, rfl, bind_ok.mpr ⟨some d, s, inoOf_ok.mpr ⟨r, hr, hd, rfl⟩, rfl⟩⟩⟩

theorem Bound.keep {p : Pno} {s t : Sys D} (h : Bound p s) (nc : t.nc = s.nc) : Bound p t := by
  rw [Bound, nc]
  exact h

/-- The operations `o` with those of `e` for the upkeep of the caches. -/
def mix (e : Env D) (o : InodeOps D) : Env D :=
  { e with ops := { o with lookup := e.ops.lookup, gone := e.ops.gone } }

section Upkeep

variable {e : Env D} {o : InodeOps D}

theorem pruneBases_mix (rec : PbId → Sysio D Unit) (l : List PbId) :
    pruneBases (mix e o) rec l = pruneBases e rec l := by
  induction l with
  | nil => rfl
  | cons b l ih =>
    unfold pruneBases
    rw [ih]
    rfl

theorem sysioPrune_mix (fuel : ℕ) (b : PbId) : sysioPrune (mix e o) fuel b = sysioPrune e fuel b := by
  induction fuel generalizing b with
  | zero => rfl
  | succ fuel ih =>
    unfold sysioPrune
    simp only [funext ih, pruneBases_mix]
    rfl

theorem pruneAliases_mix (rec : Pno → Sysio D ℕ) (mnt : MntId) (l : List Pno) :
    pruneAliases (mix e o) rec mnt l = pruneAliases e rec mnt l := by
  induction l with
  | nil => rfl
  | cons p l ih =>
    unfold pruneAliases
    rw [ih]
    rfl

theorem pruneChildren_mix (recBase : PbId → Sysio D Unit) (rec : Pno → Sysio D ℕ) (mnt : MntId)
    (l : List PbId) :
    pruneChildren (mix e o) recBase rec mnt l = pruneChildren e recBase rec mnt l := by
  induction l with
  | nil => rfl
  | cons b l ih =>
    unfold pruneChildren
    simp only [ih, pruneAliases_mix]

theorem pPrune_mix (fuel : ℕ) (p : Pno) : pPrune (mix e o) fuel p = pPrune e fuel p := by
  induction fuel generalizing p with
  | zero => rfl
  | succ fuel ih =>
    unfold pPrune
    simp only [funext ih, funext (sysioPrune_mix fuel), pruneChildren_mix]
    rfl

theorem sysioPPrune_mix (p : Pno) : sysioPPrune (mix e o) p = sysioPPrune e p := by
  unfold sysioPPrune
  simp only [pPrune_mix]

theorem pReclaimLoop_mix (t fuel : ℕ) (p : Pno) :
    pReclaimLoop (mix e o) t fuel p = pReclaimLoop e t fuel p := by
  induction fuel generalizing p with
  | zero => rfl
  | succ fuel ih =>
    unfold pReclaimLoop pReclaimNode
    simp only [ih, sysioPPrune_mix]

theorem pReclaim_mix : pReclaim (mix e o) = pReclaim e := by
  unfold pReclaim
  simp only [pReclaimLoop_mix]

theorem sysioPFindAlias_mix (parent : Pno) (name : Qstr) :
    sysioPFindAlias (mix e o) parent name = sysioPFindAlias e parent name := by
  unfold sysioPFindAlias findBase sysioPbNew
  rw [pReclaim_mix]
  rfl

theorem lookup_mix (parent : Pno) (name : Qstr) (intnt : Option Intent) (path : Option Bytes)
    (check : Bool) : lookup (mix e o) parent name intnt path check =
      lookup e parent name intnt path check := by
  unfold lookup lookupNode
  simp only [sysioPFindAlias_mix]
  rfl

end Upkeep

/-- The operations `o` serve a walk as those of `e` do. -/
structure SameWalk (e : Env D) (o : InodeOps D) : Prop where
  lookup : o.lookup = e.ops.lookup
  gone : o.gone = e.ops.gone
  readlink : ∀ i p n s, Bound p s → o.readlink i p n s = e.ops.readlink i p n s

theorem SameWalk.mix {e : Env D} {o : InodeOps D} (h : SameWalk e o) :
    { e with ops := o } = mix e o := by
  rw [OtherOps.mix, ← h.lookup, ← h.gone]

section Walk

variable {e : Env D} {o : InodeOps D} (same : SameWalk e o)

include same

/-- A link that is followed has an inode. -/
theorem followLink_mix (follow : Option (Follow D)) (nd : Nameidata) (last : Bool) (cur : Pno)
    (i : InoId) {s : Sys D} (bound : Bound cur s) :
    followLink (mix e o) follow nd last cur i s = followLink e follow nd last cur i s := by
  cases follow with
  | none => rfl
  | some walk =>
    refine bind_same rfl fun ok t hok => ite_same (fun _ => rfl) fun _ => bind_same ?_ fun _ _ _ => rfl
    have hscratch : CoreMoves.Scratch s t := CoreMoves.malloc_moves (fun _ _ k => k) s ok t hok
    exact same.readlink i cur 4096 t (bound.keep hscratch.nc)

/-- The head of a round of the walk. -/
theorem linkBranch_mix (follow : Option (Follow D)) (nd : Nameidata) (last : Bool) (cur : Pno)
    {α : Type} {k k' : ℤ × Pno → Sysio D α} {c : Inode → Prop} [∀ r, Decidable (c r)]
    (hk : ∀ res, k' res = k res) :
    (do
      let i ← nonNull (← inoOf cur)
      let r ← inodeAt i
      let res ← (if r.stbuf.isLnk ∧ c r then followLink (mix e o) follow nd last cur i
        else pure (0, cur))
      k' res : Sysio D α) =
    (do
      let i ← nonNull (← inoOf cur)
      let r ← inodeAt i
      let res ← (if r.stbuf.isLnk ∧ c r then followLink e follow nd last cur i
        else pure (0, cur))
      k res) := by
  funext s
  refine bind_same rfl fun ino t hino => bind_same rfl fun i u hi => bind_same rfl fun r v hr =>
    bind_same (ite_same (fun _ => ?_) fun _ => rfl) fun res _ _ => by rw [hk]
  obtain ⟨hsome, rfl⟩ := deref_ok.mp hi
  obtain ⟨-, rfl⟩ := deref_ok.mp hr
  rw [hsome] at hino
  have bound := bound_of_inoOf hino
  obtain ⟨-, -, -, rfl⟩ := inoOf_ok.mp hino
  exact followLink_mix same follow nd last cur i bound

theorem walkLoop_mix (follow : Option (Follow D)) (nd : Nameidata) (comps : List Component)
    (path : Option Bytes) (cur : Pno) :
    walkLoop (mix e o) follow nd comps path cur = walkLoop e follow nd comps path cur := by
  induction comps generalizing path cur with
  | nil =>
    unfold walkLoop
    exact linkBranch_mix same follow nd _ cur fun _ => rfl
  | cons this rest ih =>
    unfold walkLoop
    refine linkBranch_mix same follow nd _ cur fun res => ?_
    simp only [ih, lookup_mix]

theorem walkFrom_mix (follow : Option (Follow D)) (parent : Option Pno) (nd : Nameidata) :
    walkFrom (mix e o) follow parent nd = walkFrom e follow parent nd := by
  unfold walkFrom
  split
  · rfl
  · rfl
  · simp only [walkLoop_mix same]
    rfl

theorem walkBudget_mix (budget : ℕ) (parent : Option Pno) (nd : Nameidata) :
    walkBudget (mix e o) budget parent nd = walkBudget e budget parent nd := by
  induction budget generalizing parent nd with
  | zero => exact walkFrom_mix same none parent nd
  | succ budget ih =>
    unfold walkBudget
    simp only [ih, walkFrom_mix same]

theorem sysioNamei_same (parent : Option Pno) (path : Option Bytes) (flags : ℕ)
    (intnt : Option Intent) :
    sysioNamei { e with ops := o } parent path flags intnt = sysioNamei e parent path flags intnt := by
  rw [same.mix]
  unfold sysioNamei sysioPathWalk
  simp only [walkBudget_mix same]

end Walk

/-- The open file of a descriptor. -/
def Opened (s : Sys D) (fd : ℤ) (r : File) : Prop :=
  ∃ f, (if fd < 0 then none else s.ft.oftab.getD fd.toNat none) = some f ∧ s.ft.file f = some r

/-- The path node that a path with the prefix of a mount leads to, if it leads to one. -/
def resolve (e : Env D) (path : Bytes) (flags : ℕ) (intnt : Option Intent) : Sysio D (Option Pno) := do
  match ← sysioFindMount path with
  | none => return none
  | some m => do
    let path ← afterPrefix m path
    let root ← mountRootOf m
    let (err, found) ← sysioNamei e root (some path) flags intnt
    return if err ≠ 0 then none else found

/-- The path node that a path leads to from the working directory, if it leads to one. -/
def resolveCwd (e : Env D) (path : Bytes) (flags : ℕ) (intnt : Option Intent) :
    Sysio D (Option Pno) := do
  let cwd ← Exec.read fun s => s.mt.cwd
  let (err, found) ← sysioNamei e cwd (some path) flags intnt
  return if err ≠ 0 then none else found

section Resolve

variable {e : Env D} {o : InodeOps D} {s t : Sys D} {path : Bytes} {flags : ℕ}
  {intnt : Option Intent} {p : Pno}

theorem resolve_same (same : SameWalk e o) :
    resolve { e with ops := o } path flags intnt = resolve e path flags intnt := by
  unfold resolve
  simp only [sysioNamei_same same]

theorem resolveCwd_same (same : SameWalk e o) :
    resolveCwd { e with ops := o } path flags intnt = resolveCwd e path flags intnt := by
  unfold resolveCwd
  simp only [sysioNamei_same same]

/-- A call that resolves the prefix of its path, once a node is found. -/
theorem onMount_run {α : Type} {z : Sysio D α} {fails : ℤ → α} {act : Pno → Sysio D α}
    (found : resolve e path flags intnt s = .ok (some p, t)) :
    (do
      match ← sysioFindMount path with
      | none => z
      | some m => do
        let path ← afterPrefix m path
        let root ← mountRootOf m
        let (err, found) ← sysioNamei e root (some path) flags intnt
        if err ≠ 0 then
          return fails err
        let p ← nonNull found
        act p : Sysio D α) s = act p t := by
  obtain ⟨m, s₁, hm, h1⟩ := bind_ok.mp found
  rw [bind_run hm]
  cases m with
  | none =>
    obtain ⟨hp, -⟩ := pure_ok.mp h1
    cases hp
  | some m =>
    obtain ⟨path', s₂, hpath, h2⟩ := bind_ok.mp h1
    obtain ⟨root, s₃, hroot, h3⟩ := bind_ok.mp h2
    obtain ⟨⟨err, o⟩, s₄, hnamei, h4⟩ := bind_ok.mp h3
    obtain ⟨hp, rfl⟩ := pure_ok.mp h4
    refine (bind_run hpath).trans ((bind_run hroot).trans ((bind_run hnamei).trans ?_))
    by_cases herr : err ≠ 0
    · rw [if_pos herr] at hp
      cases hp
    simp only [if_neg herr] at hp ⊢
    subst hp
    exact bind_run (deref_ok.mpr ⟨rfl, rfl⟩)

/-- Two calls that resolve the same prefixed path and go on alike. -/
theorem onMount_same {α : Type} (same : SameWalk e o) {z : Sysio D α} {fails : ℤ → α}
    {act act' : Pno → Sysio D α}
    (hact : ∀ p t, resolve e path flags intnt s = .ok (some p, t) → act' p t = act p t) :
    (do
      match ← sysioFindMount path with
      | none => z
      | some m => do
        let path ← afterPrefix m path
        let root ← mountRootOf m
        let (err, found) ← sysioNamei { e with ops := o } root (some path) flags intnt
        if err ≠ 0 then
          return fails err
        let p ← nonNull found
        act' p : Sysio D α) s =
    (do
      match ← sysioFindMount path with
      | none => z
      | some m => do
        let path ← afterPrefix m path
        let root ← mountRootOf m
        let (err, found) ← sysioNamei e root (some path) flags intnt
        if err ≠ 0 then
          return fails err
        let p ← nonNull found
        act p : Sysio D α) s := by
  refine bind_same rfl fun m s₁ hm => ?_
  cases m with
  | none => rfl
  | some m =>
    refine bind_same rfl fun path' s₂ hpath => bind_same rfl fun root s₃ hroot =>
      bind_same (by rw [sysioNamei_same same]) fun res s₄ hnamei => ite_same (fun _ => rfl)
      fun herr => bind_same rfl fun p s₅ hp => hact p s₅ ?_
    obtain ⟨hfound, rfl⟩ := deref_ok.mp hp
    refine bind_ok.mpr ⟨some m, s₁, hm, bind_ok.mpr ⟨path', s₂, hpath,
      bind_ok.mpr ⟨root, s₃, hroot, bind_ok.mpr ⟨res, s₄, hnamei, pure_ok.mpr ⟨?_, rfl⟩⟩⟩⟩⟩
    rw [if_neg herr]
    exact hfound

theorem onPath_run {act : Pno → Sysio D ℤ}
    (found : resolveCwd e path flags intnt s = .ok (some p, t)) :
    onPath e path flags intnt act s = (do
      let err ← act p
      pRele p
      return err : Sysio D ℤ) t := by
  obtain ⟨cwd, s₁, hcwd, h1⟩ := bind_ok.mp found
  obtain ⟨⟨err, o⟩, s₂, hnamei, h2⟩ := bind_ok.mp h1
  obtain ⟨hp, rfl⟩ := pure_ok.mp h2
  refine (bind_run hcwd).trans ((bind_run hnamei).trans ?_)
  by_cases herr : err ≠ 0
  · rw [if_pos herr] at hp
    cases hp
  simp only [if_neg herr] at hp ⊢
  subst hp
  exact bind_run (deref_ok.mpr ⟨rfl, rfl⟩)

theorem onPath_same (same : SameWalk e o) {act act' : Pno → Sysio D ℤ}
    (hact : ∀ p t, resolveCwd e path flags intnt s = .ok (some p, t) → act' p t = act p t) :
    onPath { e with ops := o } path flags intnt act' s = onPath e path flags intnt act s := by
  refine bind_same rfl fun cwd s₁ hcwd => bind_same (by rw [sysioNamei_same same])
    fun res s₂ hnamei => ite_same (fun _ => rfl) fun herr => bind_same rfl fun p s₃ hp =>
    bind_same (hact p s₃ ?_) fun _ _ _ => rfl
  obtain ⟨hfound, rfl⟩ := deref_ok.mp hp
  refine bind_ok.mpr ⟨cwd, s₁, hcwd, bind_ok.mpr ⟨res, s₂, hnamei, pure_ok.mpr ⟨?_, rfl⟩⟩⟩
  rw [if_neg herr]
  exact hfound

end Resolve

section Files

variable {s : Sys D} {fd : ℤ}

/-- Two calls on a descriptor that go on alike with the open file. -/
theorem onFile_same {α : Type} {z : α} {k k' : FilId → File → Sysio D α}
    (hk : ∀ f r, Opened s fd r → s.ft.file f = some r → k' f r s = k f r s) :
    (do
      match ← sysioFdFind fd with
      | none => return z
      | some f => do
        let r ← fileAt f
        k' f r : Sysio D α) s =
    (do
      match ← sysioFdFind fd with
      | none => return z
      | some f => do
        let r ← fileAt f
        k f r) s := by
  refine bind_same rfl fun fil t hfind => ?_
  obtain ⟨hslot, rfl⟩ := read_ok.mp hfind
  cases fil with
  | none => rfl
  | some f =>
    refine bind_same rfl fun r t hread => ?_
    obtain ⟨hr, rfl⟩ := deref_ok.mp hread
    exact hk f r ⟨f, hslot, hr⟩ hr

/-- A call on a descriptor with an open file behind it. -/
theorem onFile_run {α : Type} {z : α} {k : FilId → File → Sysio D α} {r : File}
    (opened : Opened s fd r) : ∃ f, s.ft.file f = some r ∧
    (do
      match ← sysioFdFind fd with
      | none => return z
      | some f => do
        let r ← fileAt f
        k f r : Sysio D α) s = k f r s := by
  obtain ⟨f, hslot, hr⟩ := opened
  refine ⟨f, hr, ?_⟩
  have hfind : (sysioFdFind fd : Sysio D (Option FilId)) s = .ok (some f, s) :=
    read_ok.mpr ⟨hslot, rfl⟩
  rw [bind_run hfind]
  exact bind_run (deref_ok.mpr ⟨hr, rfl⟩)

/-- A call that stops once it has the open file of its descriptor. -/
theorem onFile_error {α : Type} {z : α} {x : Fault} {k : FilId → File → Sysio D α} {r : File}
    (opened : Opened s fd r) (hk : ∀ f, s.ft.file f = some r → k f r s = .error x) :
    (do
      match ← sysioFdFind fd with
      | none => return z
      | some f => do
        let r ← fileAt f
        k f r : Sysio D α) s = .error x := by
  obtain ⟨f, hr, run⟩ := onFile_run (z := z) (k := k) opened
  rw [run]
  exact hk f hr

/-- A regular file is truncated by its driver. -/
theorem doTruncate_run {e : Env D} {p : Pno} {j : InoId} {length : ℤ} {i : Inode}
    (hlen : 0 ≤ length) (hi : s.ic.inode j = some i) (hreg : i.stbuf.isReg = true) :
    doTruncate e p j length s = e.ops.ftruncate j p length s := by
  have hdir : i.stbuf.isDir = false := by
    simp only [Stat.isReg, Stat.isDir] at hreg ⊢
    rw [eq_of_beq hreg]
    decide
  have readi : (inodeAt j : Sysio D Inode) s = .ok (i, s) := deref_ok.mpr ⟨hi, rfl⟩
  unfold doTruncate
  rw [if_neg (by omega)]
  refine (bind_run readi).trans ?_
  rw [hdir, hreg]
  rfl

end Files

end OtherOps
