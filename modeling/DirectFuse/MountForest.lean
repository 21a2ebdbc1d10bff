import DirectFuse.Lineage

/-! Mounting and unmounting over the forest: what `_sysio_do_mount` adds to it, what
`_sysio_do_unmount` takes away, and how a mount that failed shows. -/
namespace MountForest

open ExecLogic SysioState SysioInode SysioNamei SysioMount FuseDriver CoreMoves FuseMoves PathRefs
open NameForest PruneForest GrowForest FusePlain WalkForest Lineage

variable {D : Type}

/-- The caches of names differ at most in the inodes that names stand for. -/
structure InosOnly (s t : Sys D) : Prop where
  pnode : t.nc.pnode = s.nc.pnode
  base : ∀ b, (t.nc.base b).map unbound = (s.nc.base b).map unbound
  pnodes : t.nc.pnodes = s.nc.pnodes
  freePnodes : t.nc.freePnodes = s.nc.freePnodes
  names : t.nc.names = s.nc.names
  nNames : t.nc.nNames = s.nc.nNames
  maxNames : t.nc.maxNames = s.nc.maxNames
  nextPnode : t.nc.nextPnode = s.nc.nextPnode
  nextBase : t.nc.nextBase = s.nc.nextBase
  mt : t.mt = s.mt
  ft : t.ft = s.ft
  aio : t.aio = s.aio
  umask : t.umask = s.umask

instance : IsPreorder (Sys D) InosOnly where
  refl _ := ⟨rfl, fun _ => rfl, rfl, rfl, rfl, rfl, rfl, rfl, rfl, rfl, rfl, rfl, rfl⟩
  trans _ _ _ h k := ⟨k.pnode.trans h.pnode, fun b => (k.base b).trans (h.base b),
    k.pnodes.trans h.pnodes, k.freePnodes.trans h.freePnodes, k.names.trans h.names,
    k.nNames.trans h.nNames, k.maxNames.trans h.maxNames, k.nextPnode.trans h.nextPnode,
    k.nextBase.trans h.nextBase, k.mt.trans h.mt, k.ft.trans h.ft, k.aio.trans h.aio,
    k.umask.trans h.umask⟩

theorem InosOnly.shape {s t : Sys D} (h : InosOnly s t) : SameShape s.nc t.nc :=
  ⟨fun p => by rw [h.pnode], h.base, by rw [h.pnodes], h.freePnodes, h.names, h.nNames, h.nextPnode,
    h.nextBase⟩

theorem off_inos {s t : Sys D} (h : OffInodes s t) : InosOnly s t := by
  refine ⟨?_, fun b => ?_, ?_, ?_, ?_, ?_, ?_, ?_, ?_, h.mt, h.ft, h.aio, h.umask⟩ <;> rw [h.nc]

/-- Writing the inode of a name. -/
theorem modIno_inos (b : PbId) (ino : Option InoId) :
    Moves InosOnly (modBase b fun r => { r with ino := ino } : Sysio D Unit) := by
  intro s u t run
  obtain ⟨r, hr, rfl⟩ := modBase_ok run
  refine ⟨rfl, fun c => ?_, rfl, rfl, rfl, rfl, rfl, rfl, rfl, rfl, rfl, rfl, rfl⟩
  by_cases hc : c = b
  · subst hc
    simp [hr, unbound]
  · simp [hc]

theorem rebinds_inos {B : Type} {b : PbId} {s t : Sys (FuseData B)} (h : Rebinds b s t) :
    InosOnly s t := by
  obtain ⟨ino, hnc⟩ := h.nc
  refine ⟨?_, fun c => ?_, ?_, ?_, ?_, ?_, ?_, ?_, ?_, h.mt, h.ft, h.aio, h.umask⟩ <;> rw [hnc]
  case refine_2 =>
    by_cases hc : c = b
    · subst hc
      cases hb : s.nc.base c <;> simp [bindIno, unbound, hb]
    · simp [bindIno, hc]
  all_goals rfl

section Inos

variable {e : Env D} (ops : OpsMove OffInodes e)

include ops

theorem iRele_inos (i : InoId) : Moves InosOnly (iRele e i) :=
  iRele_moves (fun _ _ h => off_inos h) (fun i => (ops.gone i).mono fun _ _ h => off_inos h) i

theorem sysioPValidate_inos (p : Pno) (intnt : Option Intent) (path : Option Bytes) :
    Moves InosOnly (sysioPValidate e p intnt path) := by
  refine moves_bind (pnodeAt_moves p) fun n => moves_bind (baseAt_moves _) fun r =>
    moves_bind (mountAt_moves _) fun m => moves_bind (nonNull_moves _) fun root =>
    moves_bind (pnodeAt_moves _) fun rn => moves_bind (baseAt_moves _) fun rootpb =>
    moves_bind (assert_moves _) fun _ => moves_bind (nonNull_moves _) fun rooti =>
    moves_bind ((ops.lookup _ _ _ _ _).mono fun _ _ h => off_inos h) fun res =>
    moves_bind (baseAt_moves _) fun r' => moves_bind (moves_when fun _ => ?_) fun _ => moves_pure _
  exact moves_bind (ifSome_moves fun i _ => iRele_inos ops i) fun _ => modIno_inos _ _

end Inos

/-- The parent of the root of a mount on `tocover`. -/
def aboveOf (s : Sys D) (tocover : Option Pno) : Option Pno :=
  tocover.map fun t => (s.nc.pnode t).parent

/-- Nothing of a failed mount is left but free path nodes and a number passed over. -/
structure NotMounted (s t : Sys D) : Prop where
  nc : t.nc = s.nc ∨ t.nc = growth s.nc
  mount : t.mt.mount = s.mt.mount
  mounts : t.mt.mounts = s.mt.mounts
  nextMount : s.mt.nextMount ≤ t.mt.nextMount
  root : t.mt.root = s.mt.root
  cwd : t.mt.cwd = s.mt.cwd
  ft : t.ft = s.ft
  aio : t.aio = s.aio
  umask : t.umask = s.umask

theorem NotMounted.lists {s t : Sys D} (h : NotMounted s t) : t.nc.pnode = s.nc.pnode ∧
    t.nc.base = s.nc.base ∧ t.nc.pnodes = s.nc.pnodes ∧ t.nc.nextBase = s.nc.nextBase := by
  rcases h.nc with same | same <;> rw [same] <;> exact ⟨rfl, rfl, rfl, rfl⟩

/-- A failed mount left an alias of its root behind. -/
def Stranded (rootpb : PbId) (t : Sys D) : Prop :=
  ∃ root p, Forest root t.nc ∧ p ∈ t.nc.pnodes ∧ (t.nc.pnode p).base = rootpb

/-- A mount that is given up before its root has an alias: the node to cover is above the root, or
there is no memory for the mount or for path nodes. -/
def Refused (e : Env D) (s : Sys D) (rootpb : PbId) (tocover : Option Pno) : Prop :=
  (coversAncestor tocover rootpb : Sysio D Bool) s = .ok (true, s) ∨ e.malloc s.mallocs = false ∨
    (s.nc.freePnodes = [] ∧ e.malloc (s.mallocs + 1) = false)

/-- The alias that a failed mount has made is still there, and its mount is not. -/
structure Leftover (s t : Sys D) (rootpb : PbId) (p : Pno) : Prop where
  fresh : p ∉ s.nc.pnodes
  live : p ∈ t.nc.pnodes
  base : (t.nc.pnode p).base = rootpb
  freed : t.mt.mount (t.nc.pnode p).mount = none
  forest : ∃ root, Forest root t.nc

theorem Leftover.stranded {s t : Sys D} {rootpb : PbId} {p : Pno} (h : Leftover s t rootpb p) :
    Stranded rootpb t := by
  obtain ⟨root, forest⟩ := h.forest
  exact ⟨root, p, forest, h.live, h.base⟩

/-- The root node of a new mount. -/
def rootNode (above : Option Pno) (p : Pno) (rootpb : PbId) (m : MntId) (tocover : Option Pno) :
    Pnode :=
  { newPnode p above rootpb m with cover := if tocover = none then some p else none }

/-- The mount with root node `p` has been added to `s`. -/
structure Mounted (s t : Sys D) (fs : FsId) (rootpb : PbId) (tocover : Option Pno) (p : Pno) :
    Prop where
  fresh : p ∉ s.nc.pnodes
  pnodes : t.nc.pnodes = s.nc.pnodes ++ [p]
  new : t.nc.pnode p = rootNode (aboveOf s tocover) p rootpb s.mt.nextMount tocover
  old : ∀ q ∈ s.nc.pnodes, t.nc.pnode q =
    if tocover = some q then { s.nc.pnode q with cover := some p } else s.nc.pnode q
  base : ∀ b, (t.nc.base b).map unbound = ((s.nc.base b).map fun r =>
    if b = rootpb then addAlias p r else r).map unbound
  nNames : t.nc.nNames = s.nc.nNames
  maxNames : t.nc.maxNames = s.nc.maxNames
  nextBase : t.nc.nextBase = s.nc.nextBase
  mount : ∃ flags, t.mt.mount = Function.update s.mt.mount s.mt.nextMount
    (some { fs := fs, flags := flags, root := some p, covers := some (tocover.getD p) })
  mounts : t.mt.mounts = s.mt.nextMount :: s.mt.mounts
  nextMount : t.mt.nextMount = s.mt.nextMount + 1
  root : t.mt.root = s.mt.root
  cwd : t.mt.cwd = s.mt.cwd
  ft : t.ft = s.ft
  aio : t.aio = s.aio
  umask : t.umask = s.umask
  sound : Sound t

/-- What a mount adds to `s` wherever it is put: the node `p` for its root. -/
structure NewRoot (s t : Sys D) (rootpb : PbId) (p : Pno) : Prop where
  sound : Sound t
  nextMount : t.mt.nextMount = s.mt.nextMount + 1
  mount : ∃ r, r.root = some p ∧ t.mt.mount = Function.update s.mt.mount s.mt.nextMount (some r)
  new : (t.nc.pnode p).base = rootpb
  old : ∀ q ∈ s.nc.pnodes, (t.nc.pnode q).base = (s.nc.pnode q).base
  base : ∀ b r', t.nc.base b = some r' → ∃ r, s.nc.base b = some r ∧ r'.parent = r.parent

section Mount

variable {e : Env D} (ops : OpsMove OffInodes e)

/-- The table entry a mount starts with. -/
def newMount (s : Sys D) (fs : FsId) (flags : ℕ) (root covers : Option Pno) : MountTable :=
  { s.mt with
    mount := Function.update s.mt.mount s.mt.nextMount
      (some { fs := fs, flags := flags, root := root, covers := covers })
    nextMount := s.mt.nextMount + 1 }

/-- The root of a new mount is the first path node on it. -/
theorem sound_newMount {s u : Sys D} {fs : FsId} {flags : ℕ} {rootpb : PbId} {r : PnodeBase}
    {above : Option Pno} {p : Pno} (hs : Sound s) (bound : ∀ m : ℕ, s.mt.nextMount ≤ m →
      s.mt.mount m = none) (hr : s.nc.base rootpb = some r)
    (grown : u.nc = s.nc ∨ u.nc = growth s.nc) (hfree : u.nc.freePnodes.head? = some p) :
    p ∉ s.nc.pnodes ∧ ∀ covers, Sound { u with
      nc := insertPnode u.nc p (newPnode p above rootpb s.mt.nextMount)
      mt := newMount s fs flags (some p) covers } := by
  have hnew : s.mt.mount s.mt.nextMount = none := bound _ (Nat.le_refl _)
  have same : u.nc.pnodes = s.nc.pnodes ∧ u.nc.pnode = s.nc.pnode ∧ u.nc.base = s.nc.base := by
    rcases grown with h | h <;> rw [h] <;> exact ⟨rfl, rfl, rfl⟩
  obtain ⟨hnodes, hnode, hbase⟩ := same
  have forest : Forest (isRoot s.mt) u.nc := by
    rcases grown with h | h <;> rw [h]
    · exact hs.forest
    · exact hs.forest.grow PNODES_PER_CHUNK
  have notin : p ∉ s.nc.pnodes := by
    rw [← hnodes]
    exact forest.apart p (List.mem_of_mem_head? hfree)
  refine ⟨notin, fun covers => ?_⟩
  have table : ∀ m r', (newMount s fs flags (some p) covers).mount m = some r' →
      (m = s.mt.nextMount ∧ r'.root = some p) ∨ s.mt.mount m = some r' := by
    intro m r' hm
    by_cases hmn : m = s.mt.nextMount
    · subst hmn
      simp only [newMount, Function.update_self, Option.some.injEq] at hm
      exact Or.inl ⟨rfl, hm ▸ rfl⟩
    · simp only [newMount, Function.update_of_ne hmn] at hm
      exact Or.inr hm
  have keep : ∀ m r', s.mt.mount m = some r' →
      (newMount s fs flags (some p) covers).mount m = some r' := by
    intro m r' hm
    have hmn : m ≠ s.mt.nextMount := by
      rintro rfl
      rw [hnew] at hm
      cases hm
    simpa only [newMount, Function.update_of_ne hmn] using hm
  have rootNew : isRoot (newMount s fs flags (some p) covers) p :=
    ⟨s.mt.nextMount, _, Function.update_self .., rfl⟩
  have forest' : Forest (isRoot (newMount s fs flags (some p) covers)) u.nc := by
    refine forest.mono fun q _ hq => ?_
    obtain ⟨m, r', hm, hq⟩ := hq
    exact ⟨m, r', keep m r' hm, hq⟩
  have other : ∀ q, q ≠ p → (insertPnode u.nc p (newPnode p above rootpb s.mt.nextMount)).pnode q =
      s.nc.pnode q := fun q hq => (Function.update_of_ne hq ..).trans (congrFun hnode q)
  have self : (insertPnode u.nc p (newPnode p above rootpb s.mt.nextMount)).pnode p =
      newPnode p above rootpb s.mt.nextMount := Function.update_self ..
  have mem : ∀ q, q ∈ (insertPnode u.nc p (newPnode p above rootpb s.mt.nextMount)).pnodes ↔
      q ∈ s.nc.pnodes ∨ q = p := by
    intro q
    change q ∈ u.nc.pnodes ++ [p] ↔ _
    rw [hnodes]
    simp
  constructor
  case forest =>
    refine forest'.insertPnode ⟨hfree, ⟨r, ?_⟩, fun h => absurd rootNew h, fun q hq _ _ hm => ?_⟩
    · exact (congrFun hbase rootpb).trans hr
    · obtain ⟨r', hr'⟩ := hs.mounted q (hnodes ▸ hq)
      rw [← congrFun hnode q, hm] at hr'
      exact absurd (hnew.symm.trans hr') (by simp)
  case root =>
    intro m r' hm
    rcases table m r' hm with ⟨rfl, hp⟩ | hm
    · refine ⟨p, hp, (mem p).mpr (Or.inr rfl), ?_⟩
      change ((insertPnode u.nc p _).pnode p).mount = _
      rw [self]
      rfl
    · obtain ⟨q, hq, hlive, hmnt⟩ := hs.root m r' hm
      refine ⟨q, hq, (mem q).mpr (Or.inl hlive), ?_⟩
      change ((insertPnode u.nc p _).pnode q).mount = _
      rw [other q (fun h => notin (h ▸ hlive))]
      exact hmnt
  case mounted =>
    intro q hq
    change ∃ r', (newMount s fs flags (some p) covers).mount
      ((insertPnode u.nc p (newPnode p above rootpb s.mt.nextMount)).pnode q).mount = some r'
    rcases (mem q).mp hq with hlive | rfl
    · rw [other q (fun h => notin (h ▸ hlive))]
      obtain ⟨r', hr'⟩ := hs.mounted q hlive
      exact ⟨r', keep _ r' hr'⟩
    · rw [self]
      exact ⟨_, Function.update_self ..⟩

include ops

/-- A mount given up after its root was made keeps the root. -/
theorem doMountError_leaves {s t : Sys D} {m : MntId} {p : Pno} {err : ℤ}
    {res : ℤ × Option MntId} (hs : Sound s) (hp : isRoot s.mt p)
    (run : doMountError e m (some p) err s = .ok (res, t)) :
    (∃ root, Forest root t.nc) ∧ p ∈ t.nc.pnodes ∧ (t.nc.pnode p).base = (s.nc.pnode p).base ∧
      (t.nc.pnode p).mount = (s.nc.pnode p).mount ∧ t.mt.mount m = none ∧ res = (err, none) := by
  obtain ⟨_, v, hv, h1⟩ := bind_ok.mp run
  obtain ⟨_, u, hu, hw⟩ := bind_ok.mp hv
  obtain ⟨_, w, hprune, hw⟩ := bind_ok.mp hw
  obtain ⟨-, rfl⟩ := pure_ok.mp hw
  obtain ⟨_, x, hfree, h2⟩ := bind_ok.mp h1
  obtain ⟨rfl, rfl⟩ := pure_ok.mp h2
  obtain rfl := write_ok.mp hfree
  obtain ⟨_, _, hc, hwr⟩ := bind_ok.mp hu
  obtain ⟨-, rfl⟩ := check_ok.mp hc
  obtain rfl := write_ok.mp hwr
  generalize hnode : Function.update s.nc.pnode p
    { s.nc.pnode p with ref := (s.nc.pnode p).ref - 1 } = node at hprune
  have hlinks : ∀ q, links (node q) = links (s.nc.pnode q) := by
    intro q
    rw [← hnode]
    by_cases hq : q = p
    · subst hq
      simp [links]
    · simp [hq]
  have shape : SameShape s.nc { s.nc with pnode := node } :=
    ⟨hlinks, fun _ => rfl, List.Perm.refl _, rfl, rfl, rfl, rfl, rfl⟩
  have sound : Sound ({ s with nc := { s.nc with pnode := node } } : Sys D) := hs.of_shape shape rfl
  have kept := sysioPPrune_prunes ops.gone p _ _ _ hprune sound.forest sound.rooted
  obtain ⟨-, base, mount⟩ := links_eq (hlinks p)
  refine ⟨⟨isRoot s.mt, kept.forest⟩, ?_, ?_, ?_, Function.update_self .., rfl⟩
  · by_contra hn
    exact (kept.pruned.gone p (hs.live hp) hn).2.2 hp
  · rw [kept.pruned.pnode]
    exact base
  · rw [kept.pruned.pnode]
    exact mount

omit ops in
theorem coversAncestor_same (tocover : Option Pno) (rootpb : PbId) :
    Moves Eq (coversAncestor tocover rootpb : Sysio D Bool) := by
  cases tocover with
  | none => exact moves_pure _
  | some q =>
    exact moves_bind (pnodeAt_moves q) fun n => moves_bind (moves_read _) fun depth =>
      hasAncestor_moves _ _ _

omit ops in
theorem parentAbove_ok {tocover above : Option Pno} {s t : Sys D}
    (run : (parentAbove tocover : Sysio D (Option Pno)) s = .ok (above, t)) :
    above = aboveOf s tocover ∧ s = t := by
  cases tocover with
  | none =>
    obtain ⟨rfl, rfl⟩ := pure_ok.mp run
    exact ⟨rfl, rfl⟩
  | some q =>
    obtain ⟨n, _, hread, h1⟩ := bind_ok.mp run
    obtain ⟨rfl, rfl⟩ := read_ok.mp hread
    obtain ⟨rfl, rfl⟩ := pure_ok.mp h1
    exact ⟨rfl, rfl⟩

omit ops in
/-- The cover a mount puts up. -/
theorem coverUp_ok {m : MntId} {p : Pno} {tocover : Option Pno} {s t : Sys D} {u : Unit}
    (run : coverUp e m p tocover s = .ok (u, t)) : ∃ r w, s.mt.mount m = some r ∧
      Scratch { s with mt := { s.mt with
        mount := Function.update s.mt.mount m (some { r with covers := some (tocover.getD p) }) } } w ∧
      t = { w with
        nc := { w.nc with
          pnode := Function.update w.nc.pnode (tocover.getD p)
            { w.nc.pnode (tocover.getD p) with cover := some p } },
        mt := { w.mt with mounts := m :: w.mt.mounts } } := by
  obtain ⟨r, _, hread, h1⟩ := bind_ok.mp run
  obtain ⟨hr, rfl⟩ := deref_ok.mp hread
  obtain ⟨_, v, hset, h2⟩ := bind_ok.mp h1
  obtain rfl := write_ok.mp hset
  obtain ⟨n, _, hread, h3⟩ := bind_ok.mp h2
  obtain ⟨rfl, rfl⟩ := read_ok.mp hread
  obtain ⟨_, w, hw, h4⟩ := bind_ok.mp h3
  have scratch := ifSome_moves (R := Scratch) (fun c _ => moves_bind (pnodeAt_moves c) fun nc =>
    moves_bind (sysioPbPath_moves (fun _ _ k => k) _ _) fun _ => moves_bind (pnodeAt_moves p) fun nr =>
    moves_bind (sysioPbPath_moves (fun _ _ k => k) _ _) fun _ => moves_pure _) _ _ _ hw
  obtain ⟨_, _, hset, h5⟩ := bind_ok.mp h4
  obtain rfl := write_ok.mp hset
  obtain rfl := write_ok.mp h5
  refine ⟨r, w, hr, scratch, ?_⟩
  rw [scratch.nc]

/-- What `_sysio_do_mount` does. -/
theorem sysioDoMount_cases {s t : Sys D} {fs : FsId} {rootpb : PbId} {flags : ℕ}
    {tocover : Option Pno} {err : ℤ} {mnt : Option MntId} {r : PnodeBase} (hs : Sound s)
    (bound : ∀ m : ℕ, s.mt.nextMount ≤ m → s.mt.mount m = none) (hr : s.nc.base rootpb = some r)
    (run : sysioDoMount e fs rootpb flags tocover s = .ok ((err, mnt), t)) :
    (err ≠ 0 ∧ Refused e s rootpb tocover ∧ NotMounted s t ∧ t.ic = s.ic ∧ t.drv = s.drv) ∨
      (err ≠ 0 ∧ ¬ Refused e s rootpb tocover ∧ ∃ p, Leftover s t rootpb p) ∨
      (err = 0 ∧ mnt = some s.mt.nextMount ∧ ∃ p, NewRoot s t rootpb p ∧
        ((∀ q, tocover = some q → q ∈ s.nc.pnodes) → Mounted s t fs rootpb tocover p)) := by
  have hnew : s.mt.mount s.mt.nextMount = none := bound _ (Nat.le_refl _)
  obtain ⟨busy, _, hb, h1⟩ := bind_ok.mp run
  obtain rfl : s = _ := coversAncestor_same _ _ _ _ _ hb
  by_cases hbusy : busy = true
  · rw [if_pos hbusy] at h1
    rw [hbusy] at hb
    obtain ⟨he, rfl⟩ := pure_ok.mp h1
    obtain ⟨rfl, rfl⟩ := Prod.mk.inj he
    exact Or.inl ⟨by decide, Or.inl hb,
      ⟨Or.inl rfl, rfl, rfl, Nat.le_refl _, rfl, rfl, rfl, rfl, rfl⟩, rfl, rfl⟩
  have clear : (coversAncestor tocover rootpb : Sysio D Bool) s ≠ .ok (true, s) := by
    intro hb'
    exact hbusy (Prod.mk.inj (Except.ok.inj (hb.symm.trans hb'))).1
  rw [if_neg hbusy] at h1
  obtain ⟨ok, s1, hm, h2⟩ := bind_ok.mp h1
  have k1 : Scratch s s1 := malloc_moves (fun _ _ k => k) _ _ _ hm
  obtain ⟨given, next⟩ : e.malloc s.mallocs = ok ∧ s1.mallocs = s.mallocs + 1 := by
    obtain ⟨rfl, rfl⟩ := Prod.mk.inj (Except.ok.inj hm)
    exact ⟨rfl, rfl⟩
  by_cases hok : (!ok) = true
  · rw [if_pos hok] at h2
    obtain ⟨he, rfl⟩ := pure_ok.mp h2
    obtain ⟨rfl, rfl⟩ := Prod.mk.inj he
    have denied : e.malloc s.mallocs = false := given.trans (Bool.not_eq_true' ok ▸ hok)
    refine Or.inl ⟨by decide, Or.inr (Or.inl denied),
      ⟨Or.inl k1.nc, ?_, ?_, ?_, ?_, ?_, k1.ft, k1.aio, k1.umask⟩, k1.ic, k1.drv⟩ <;>
      rw [k1.mt]
  rw [if_neg hok] at h2
  obtain ⟨m, _, hread, h3⟩ := bind_ok.mp h2
  obtain ⟨hm1, rfl⟩ := read_ok.mp hread
  obtain rfl : m = s.mt.nextMount := by rw [← hm1, k1.mt]
  obtain ⟨f, _, hread, h4⟩ := bind_ok.mp h3
  obtain ⟨-, rfl⟩ := deref_ok.mp hread
  generalize (if f.flags &&& FS_F_RO ≠ 0 then flags ||| MOUNT_F_RO else flags) = flags' at h4
  obtain ⟨_, s2, hw, h5⟩ := bind_ok.mp h4
  have hs2 : s2 = { s1 with mt := newMount s fs flags' none none } := by
    rw [← write_ok.mp hw, k1.mt]
    rfl
  subst hs2
  obtain ⟨above, _, ha, h6⟩ := bind_ok.mp h5
  obtain ⟨rfl, rfl⟩ := parentAbove_ok ha
  have habove : aboveOf ({ s1 with mt := newMount s fs flags' none none } : Sys D) tocover =
      aboveOf s tocover := by
    simp only [aboveOf, k1.nc]
  rw [habove] at h6
  obtain ⟨made, s3, halloc, h7⟩ := bind_ok.mp h6
  have room := sysioPNewAlias_room halloc
  change _ ↔ s1.nc.freePnodes = [] ∧ e.malloc s1.mallocs = false at room
  rw [k1.nc, next] at room
  obtain ⟨u, hu, hres⟩ := sysioPNewAlias_ok halloc
  -- the allocation of path nodes
  have ku : (u.nc = s.nc ∨ u.nc = growth s.nc) ∧ u.mt = newMount s fs flags' none none ∧
      u.ft = s.ft ∧ u.aio = s.aio ∧ u.umask = s.umask ∧ u.ic = s.ic ∧ u.drv = s.drv := by
    rcases when_ok.mp hu with ⟨-, hu⟩ | ⟨-, rfl⟩
    · rcases morePnodes_ok hu with hk | ⟨v, hk, rfl⟩
      · exact ⟨Or.inl (hk.nc.trans k1.nc), hk.mt, hk.ft.trans k1.ft, hk.aio.trans k1.aio,
          hk.umask.trans k1.umask, hk.ic.trans k1.ic, hk.drv.trans k1.drv⟩
      · refine ⟨Or.inr ?_, hk.mt, hk.ft.trans k1.ft, hk.aio.trans k1.aio, hk.umask.trans k1.umask,
          hk.ic.trans k1.ic, hk.drv.trans k1.drv⟩
        change growth v.nc = _
        rw [hk.nc]
        exact congrArg growth k1.nc
    · exact ⟨Or.inl k1.nc, rfl, k1.ft, k1.aio, k1.umask, k1.ic, k1.drv⟩
  obtain ⟨hnc, hmt, hft, haio, humask, hic, hdrv⟩ := ku
  rcases hres with ⟨rfl, rfl⟩ | ⟨p, r', rfl, hfree, hr', rfl⟩
  · -- no path node
    obtain ⟨rm, _, hread, h8⟩ := bind_ok.mp h7
    obtain ⟨hrm, rfl⟩ := deref_ok.mp hread
    obtain ⟨_, v, hset, h9⟩ := bind_ok.mp h8
    obtain rfl := write_ok.mp hset
    obtain ⟨_, _, hp, h10⟩ := bind_ok.mp h9
    obtain ⟨-, rfl⟩ := pure_ok.mp hp
    obtain ⟨_, w, hfree, h11⟩ := bind_ok.mp h10
    obtain ⟨he, rfl⟩ := pure_ok.mp h11
    obtain rfl := write_ok.mp hfree
    obtain ⟨rfl, rfl⟩ := Prod.mk.inj he
    refine Or.inl ⟨by decide, Or.inr (Or.inr (room.mp rfl)),
      ⟨hnc, ?_, ?_, ?_, ?_, ?_, hft, haio, humask⟩, hic, hdrv⟩
    · have hset : ∀ a, Function.update (Function.update s3.mt.mount s.mt.nextMount a)
          s.mt.nextMount none = s.mt.mount := by
        intro a
        rw [hmt, Function.update_idem]
        simp only [newMount, Function.update_idem]
        rw [← hnew, Function.update_eq_self]
      exact hset _
    · exact (congrArg MountTable.mounts hmt).trans rfl
    · exact Nat.le_trans (Nat.le_succ _) (Nat.le_of_eq (congrArg MountTable.nextMount hmt).symm)
    · exact (congrArg MountTable.root hmt).trans rfl
    · exact (congrArg MountTable.cwd hmt).trans rfl
  have kept : ¬ Refused e s rootpb tocover := by
    rintro (above | denied | full)
    · exact clear above
    · exact hok (by rw [← given, denied]; rfl)
    · cases room.mpr full
  obtain ⟨fresh, sound⟩ := @sound_newMount _ s u fs flags' rootpb r (aboveOf s tocover) p hs bound hr
    hnc hfree
  obtain ⟨rm, _, hread, h8⟩ := bind_ok.mp h7
  obtain ⟨hrm, rfl⟩ := deref_ok.mp hread
  have hrm : rm = { fs := fs, flags := flags', root := none, covers := none } := by
    have hrm : u.mt.mount s.mt.nextMount = some rm := hrm
    rw [hmt] at hrm
    simpa [newMount] using hrm.symm
  subst hrm
  obtain ⟨_, v, hset, h9⟩ := bind_ok.mp h8
  have hv : v.nc = insertPnode u.nc p (newPnode p (aboveOf s tocover) rootpb s.mt.nextMount) ∧
      v.mt = newMount s fs flags' (some p) none ∧ v.ft = s.ft ∧ v.aio = s.aio ∧
      v.umask = s.umask := by
    obtain rfl := write_ok.mp hset
    refine ⟨rfl, ?_, hft, haio, humask⟩
    change ({ u.mt with mount := _ } : MountTable) = _
    rw [hmt]
    simp [newMount]
  obtain ⟨hvnc, hvmt, hvft, hvaio, hvumask⟩ := hv
  have soundv : Sound v := by
    refine (sound none).of_mounts (t := v) ?_ (by rw [hvmt])
    rw [hvnc]
    exact SameShape.refl _
  have rootv : isRoot v.mt p := by
    rw [hvmt]
    exact ⟨_, _, Function.update_self .., rfl⟩
  have nodev : v.nc.pnode p = newPnode p (aboveOf s tocover) rootpb s.mt.nextMount := by
    rw [hvnc]
    exact Function.update_self ..
  obtain ⟨err', w, hval, h10⟩ := bind_ok.mp h9
  have kw : InosOnly v w := sysioPValidate_inos ops p none none _ _ _ hval
  have soundw : Sound w := soundv.of_shape kw.shape kw.mt
  have rootw : isRoot w.mt p := by
    rw [kw.mt]
    exact rootv
  have nodew : w.nc.pnode p = newPnode p (aboveOf s tocover) rootpb s.mt.nextMount := by
    rw [kw.pnode]
    exact nodev
  have leftover : ∀ err'' res, err'' ≠ 0 → doMountError e s.mt.nextMount (some p) err'' w =
      .ok (res, t) → res.1 ≠ 0 ∧ ¬ Refused e s rootpb tocover ∧ ∃ p, Leftover s t rootpb p := by
    intro err'' res hne hrun
    obtain ⟨forest, live, base, mount, freed, rfl⟩ := doMountError_leaves ops soundw rootw hrun
    rw [nodew] at base mount
    refine ⟨hne, kept, p, ?_⟩
    constructor
    case fresh => exact fresh
    case live => exact live
    case base => exact base
    case freed =>
      rw [mount]
      exact freed
    case forest => exact forest
  by_cases herr : err' ≠ 0
  · rw [if_pos herr] at h10
    exact Or.inr (Or.inl (leftover _ _ herr h10))
  rw [if_neg herr] at h10
  obtain ⟨ino, _, hino, h11⟩ := bind_ok.mp h10
  obtain rfl : w = _ := inoOf_moves (R := Eq) _ _ _ _ hino
  obtain ⟨i, _, hnn, h12⟩ := bind_ok.mp h11
  obtain ⟨-, rfl⟩ := deref_ok.mp hnn
  obtain ⟨ri, _, hread, h13⟩ := bind_ok.mp h12
  obtain ⟨-, rfl⟩ := deref_ok.mp hread
  by_cases hdir : (!ri.stbuf.isDir) = true
  · rw [if_pos hdir] at h13
    exact Or.inr (Or.inl (leftover _ _ (by decide) h13))
  rw [if_neg hdir] at h13
  obtain ⟨_, x, hcov, h14⟩ := bind_ok.mp h13
  obtain ⟨he, rfl⟩ := pure_ok.mp h14
  obtain ⟨rfl, rfl⟩ := Prod.mk.inj he
  refine Or.inr (Or.inr ⟨rfl, rfl, ?_⟩)
  obtain ⟨rm, y, hrm, ky, rfl⟩ := coverUp_ok hcov
  rw [kw.mt, hvmt] at hrm
  have hrm : rm = { fs := fs, flags := flags', root := some p, covers := none } := by
    simpa [newMount] using hrm.symm
  subst hrm
  have hync : y.nc = w.nc := ky.nc
  have hymt : y.mt = newMount s fs flags' (some p) (some (tocover.getD p)) := by
    rw [ky.mt]
    change ({ w.mt with mount := _ } : MountTable) = _
    rw [kw.mt, hvmt]
    simp [newMount]
  have hunc : u.nc.pnode = s.nc.pnode ∧ u.nc.base = s.nc.base ∧ u.nc.nNames = s.nc.nNames ∧
      u.nc.maxNames = s.nc.maxNames ∧ u.nc.nextBase = s.nc.nextBase ∧ u.nc.pnodes = s.nc.pnodes := by
    rcases hnc with hk | hk <;> rw [hk] <;> exact ⟨rfl, rfl, rfl, rfl, rfl, rfl⟩
  obtain ⟨hunode, hubase, hunames, humax, hunext, hunodes⟩ := hunc
  have node : ∀ q, y.nc.pnode q = v.nc.pnode q := fun q => by rw [hync, kw.pnode]
  have oldv : ∀ q ∈ s.nc.pnodes, v.nc.pnode q = s.nc.pnode q := by
    intro q hq
    have hqp : q ≠ p := fun h => fresh (h ▸ hq)
    rw [hvnc]
    exact (Function.update_of_ne hqp ..).trans (congrFun hunode q)
  have soundy : Sound ({ y with
      nc := { y.nc with
        pnode := Function.update y.nc.pnode (tocover.getD p)
          { y.nc.pnode (tocover.getD p) with cover := some p } },
      mt := { y.mt with mounts := s.mt.nextMount :: y.mt.mounts } } : Sys D) := by
    refine (sound (some (tocover.getD p))).of_mounts ?_ ?_
    · change SameShape (insertPnode u.nc p _) { y.nc with pnode := _ }
      rw [← hvnc]
      have shape : SameShape v.nc y.nc := by
        rw [hync]
        exact kw.shape
      refine shape.trans ⟨fun q => ?_, fun _ => rfl, List.Perm.refl _, rfl, rfl, rfl, rfl, rfl⟩
      change links (Function.update y.nc.pnode (tocover.getD p) _ q) = _
      by_cases hq : q = tocover.getD p
      · rw [hq, Function.update_self]
        rfl
      · rw [Function.update_of_ne hq]
    · change y.mt.mount = _
      rw [hymt]
  have mount : y.mt.mount = Function.update s.mt.mount s.mt.nextMount
      (some { fs := fs, flags := flags', root := some p, covers := some (tocover.getD p) }) := by
    rw [hymt]
    rfl
  have nextMount : y.mt.nextMount = s.mt.nextMount + 1 := by
    rw [hymt]
    rfl
  have anode : ∀ q, (Function.update y.nc.pnode (tocover.getD p)
      { y.nc.pnode (tocover.getD p) with cover := some p } q).base = (v.nc.pnode q).base := by
    intro q
    by_cases hq : q = tocover.getD p
    · rw [hq, Function.update_self, ← node]
    · rw [Function.update_of_ne hq, node]
  have base : ∀ b, (y.nc.base b).map unbound = ((s.nc.base b).map fun r =>
      if b = rootpb then addAlias p r else r).map unbound := by
    intro b
    rw [hync, kw.base, hvnc]
    change ((u.nc.base b).map _).map unbound = _
    rw [hubase]
    rfl
  refine ⟨p, ?_, fun live => ?_⟩
  · constructor
    case sound => exact soundy
    case nextMount => exact nextMount
    case mount => exact ⟨_, rfl, mount⟩
    case new =>
      refine (anode p).trans ?_
      rw [nodev]
      rfl
    case old => exact fun q hq => (anode q).trans (congrArg Pnode.base (oldv q hq))
    case base =>
      intro b r' hr'
      have hb := base b
      rw [show y.nc.base b = some r' from hr'] at hb
      obtain ⟨r₁, hr₁, hun⟩ := Option.map_eq_some_iff.mp hb.symm
      obtain ⟨r₂, hr₂, rfl⟩ := Option.map_eq_some_iff.mp hr₁
      refine ⟨r₂, hr₂, ?_⟩
      have hpar := congrArg PnodeBase.parent hun.symm
      refine hpar.trans ?_
      split <;> rfl
  constructor
  case fresh => exact fresh
  case pnodes =>
    change y.nc.pnodes = _
    rw [hync, kw.pnodes, hvnc]
    change u.nc.pnodes ++ [p] = _
    rw [hunodes]
  case new =>
    cases htc : tocover with
    | none =>
      change Function.update y.nc.pnode _ _ p = _
      simp only [htc, Option.getD_none, Function.update_self, node, nodev, rootNode, if_true]
    | some q =>
      have hqp : p ≠ q := fun h => fresh (h ▸ live q htc)
      change Function.update y.nc.pnode _ _ p = _
      simp only [htc, Option.getD_some, Function.update_of_ne hqp, node, nodev, rootNode, reduceCtorEq,
        if_false]
      rfl
  case old =>
    intro q hq
    have hqp : q ≠ p := fun h => fresh (h ▸ hq)
    change Function.update y.nc.pnode _ _ q = _
    cases htc : tocover with
    | none =>
      simp only [Option.getD_none, Function.update_of_ne hqp, node, oldv q hq, reduceCtorEq, if_false]
    | some c =>
      by_cases hqc : q = c
      · subst hqc
        simp only [Option.getD_some, Function.update_self, node, oldv q hq, if_true]
      · have hcq : some c ≠ some q := fun h => hqc (Option.some.inj h).symm
        simp only [Option.getD_some, Function.update_of_ne hqc, node, oldv q hq, if_neg hcq]
  case base => exact base
  case nNames =>
    change y.nc.nNames = _
    rw [hync, kw.nNames, hvnc]
    exact hunames
  case maxNames =>
    change y.nc.maxNames = _
    rw [hync, kw.maxNames, hvnc]
    exact humax
  case nextBase =>
    change y.nc.nextBase = _
    rw [hync, kw.nextBase, hvnc]
    exact hunext
  case mount => exact ⟨flags', mount⟩
  case mounts =>
    change _ :: y.mt.mounts = _
    rw [hymt]
    rfl
  case nextMount => exact nextMount
  case root =>
    change y.mt.root = _
    rw [hymt]
    rfl
  case cwd =>
    change y.mt.cwd = _
    rw [hymt]
    rfl
  case ft =>
    change y.ft = _
    rw [ky.ft]
    exact kw.ft.trans hvft
  case aio =>
    change y.aio = _
    rw [ky.aio]
    exact kw.aio.trans hvaio
  case umask =>
    change y.umask = _
    rw [ky.umask]
    exact kw.umask.trans hvumask
  case sound => exact soundy

end Mount

section Unmount

variable {e : Env D}

section FileSystem

variable (gone : ∀ i, Moves OffInodes (e.ops.gone i))
  (fsopGone : ∀ f, Moves OffInodes (e.ops.fsopGone f))

include gone

theorem drainChain_off (f : FsId) (slot fuel : ℕ) : Moves OffInodes (drainChain e f slot fuel) := by
  induction fuel with
  | zero => exact moves_fault _
  | succ fuel ih =>
    refine moves_bind (fsAt_moves f) fun r => ?_
    cases r.itbl slot with
    | nil => exact moves_pure _
    | cons i l =>
      exact moves_bind (sysioIGone_moves (fun _ _ h => h) gone i) fun _ => ih

theorem drainTable_off (f : FsId) (n : ℕ) : Moves OffInodes (drainTable e f n) := by
  induction n with
  | zero => exact moves_pure _
  | succ n ih =>
    exact moves_bind (fsAt_moves f) fun r => moves_bind (drainChain_off gone f n _) fun _ => ih

include fsopGone

theorem fsRele_off (f : FsId) : Moves OffInodes (fsRele e f) := by
  refine moves_bind (fsAt_moves f) fun r => moves_bind (assert_moves _) fun _ =>
    moves_bind (setFs_moves (fun _ _ h => h) f _) fun _ => moves_ite (fun _ => ?_) fun _ =>
    moves_pure _
  exact moves_bind (fsAt_moves f) fun r' => moves_bind (moves_check _ _) fun _ =>
    moves_bind (drainTable_off gone f _) fun _ => moves_bind (fsopGone f) fun _ =>
    moves_write fun _ => ⟨rfl, rfl, rfl, rfl, rfl⟩

end FileSystem

/-- Where only the root of a mount was counted, no other node of the mount is left. -/
theorem sysioPPrune_alone (gone : ∀ i, Moves OffInodes (e.ops.gone i)) {p : Pno} {s t : Sys D}
    (hs : Sound s) (hroot : isRoot s.mt p) (href : (s.nc.pnode p).ref ≠ 0)
    (run : sysioPPrune e p s = .ok (1, t)) : Kept (isRoot s.mt) s t ∧
      ∀ q ∈ t.nc.pnodes, (t.nc.pnode q).mount = (s.nc.pnode p).mount → q = p := by
  have kept := sysioPPrune_prunes gone p s 1 t run hs.forest hs.rooted
  refine ⟨kept, ?_⟩
  have soundt : Sound t := hs.of_kept kept
  obtain ⟨fuel, r, count, -, hr, counted, children⟩ :=
    sysioPPrune_held gone hs.forest hs.rooted href run
  obtain rfl : count = 0 := by omega
  obtain ⟨-, goes⟩ := pruneChildren_removes gone (pPrune_removes gone fuel) fuel _ _ children
    hs.forest hs.rooted
  have leaf := leaf_of_goes hs.forest kept hr (goes rfl)
  rw [← kept.mt] at leaf hroot
  intro q hq hm
  -- a node that stayed hangs on the root of its mount
  obtain ⟨top, rooted, way⟩ := hangs_root soundt hq
  have mount := (way.live soundt.forest hq).2.1
  rw [hm, ← kept.pruned.pnode] at mount
  obtain rfl := root_one soundt rooted hroot mount
  exact way.eq_of_leaf soundt.forest hq leaf

/-- The mount `m` with root `root` over `c` has been taken out of `v`. -/
structure Dismounted (v t : Sys D) (m : MntId) (root c : Pno) : Prop where
  rootRef : (v.nc.pnode root).ref = 1
  coverRef : (v.nc.pnode root).cover ≠ some root → (v.nc.pnode c).ref ≠ 0
  pnodes : t.nc.pnodes = v.nc.pnodes.erase root
  node : ∀ q, q ≠ root → t.nc.pnode q = if q = c then { v.nc.pnode q with
      ref := (v.nc.pnode q).ref - (if (v.nc.pnode root).cover ≠ some root then 1 else 0)
      cover := none } else v.nc.pnode q
  base : ∀ b r', t.nc.base b = some r' → ∃ r, v.nc.base b = some r ∧ r'.name = r.name ∧
    r'.ino = r.ino ∧ r'.parent = r.parent
  nextBase : t.nc.nextBase = v.nc.nextBase
  mt : t.mt = { v.mt with
    mount := Function.update v.mt.mount m none, mounts := v.mt.mounts.erase m }
  ft : t.ft = v.ft
  aio : t.aio = v.aio
  umask : t.umask = v.umask
  sound : Sound t

/-- Taking out a mount of which only the root is left. -/
theorem unmountCommit_ok (ops : OpsMove OffInodes e)
    (fsopGone : ∀ f, Moves OffInodes (e.ops.fsopGone f)) {v t : Sys D} {m : MntId} {root c : Pno}
    {err : ℤ} {r : Mount} (hv : Sound v) (hm : v.mt.mount m = some r) (hroot : r.root = some root)
    (alone : ∀ q ∈ v.nc.pnodes, (v.nc.pnode q).mount = m → q = root)
    (self : c = root → (v.nc.pnode root).cover = some root)
    (run : unmountCommit e m root c v = .ok (err, t)) : err = 0 ∧ Dismounted v t m root c := by
  obtain ⟨rm, _, hread, h1⟩ := bind_ok.mp run
  obtain ⟨hrm, rfl⟩ := deref_ok.mp hread
  obtain ⟨nr, _, hread, h2⟩ := bind_ok.mp h1
  obtain ⟨rfl, rfl⟩ := read_ok.mp hread
  obtain ⟨_, v1, hv1, h3⟩ := bind_ok.mp h2
  obtain ⟨n, _, hread, h4⟩ := bind_ok.mp h3
  obtain ⟨rfl, rfl⟩ := read_ok.mp hread
  obtain ⟨_, v2, hv2, h5⟩ := bind_ok.mp h4
  obtain rfl := write_ok.mp hv2
  obtain ⟨_, v3, hv3, h6⟩ := bind_ok.mp h5
  obtain rfl := write_ok.mp hv3
  obtain ⟨_, v4, hv4, h7⟩ := bind_ok.mp h6
  obtain ⟨_, _, hc, hw⟩ := bind_ok.mp hv4
  obtain ⟨hne, rfl⟩ := check_ok.mp hc
  obtain rfl := write_ok.mp hw
  obtain ⟨nr', _, hread, h8⟩ := bind_ok.mp h7
  obtain ⟨rfl, rfl⟩ := read_ok.mp hread
  obtain ⟨_, v5, hv5, h9⟩ := bind_ok.mp h8
  obtain ⟨_, v6, hgone, h10⟩ := bind_ok.mp h9
  obtain ⟨_, v7, hfree, h11⟩ := bind_ok.mp h10
  obtain ⟨_, v8, hrele, h12⟩ := bind_ok.mp h11
  obtain ⟨rfl, rfl⟩ := pure_ok.mp h12
  refine ⟨rfl, ?_⟩
  -- the release of the covered node
  have k1 : ∃ node, v1 = { v with nc := { v.nc with pnode := node } } ∧
      (∀ q, links (node q) = links (v.nc.pnode q)) ∧ (∀ q, q ≠ c → node q = v.nc.pnode q) ∧
      (node c).ref = (v.nc.pnode c).ref -
        (if (v.nc.pnode root).cover ≠ some root then 1 else 0) ∧
      ((v.nc.pnode root).cover ≠ some root → (v.nc.pnode c).ref ≠ 0) := by
    rcases when_ok.mp hv1 with ⟨hcov, hv1⟩ | ⟨hcov, rfl⟩
    · obtain ⟨_, _, hc, hw⟩ := bind_ok.mp hv1
      obtain ⟨hcr, rfl⟩ := check_ok.mp hc
      obtain rfl := write_ok.mp hw
      refine ⟨_, rfl, fun q => ?_, fun q hq => Function.update_of_ne hq .., ?_,
        fun _ => of_decide_eq_true hcr⟩
      · by_cases hq : q = c
        · subst hq
          simp [links]
        · simp [hq]
      · rw [Function.update_self, if_pos hcov]
    · refine ⟨_, rfl, fun _ => rfl, fun _ _ => rfl, ?_, fun h => absurd h hcov⟩
      rw [if_neg hcov, Nat.sub_zero]
  obtain ⟨node, rfl, hlinks, hother, hcref, hcne⟩ := k1
  obtain rfl := write_ok.mp hv5
  generalize hN : Function.update (Function.update (Function.update node c
    { node c with cover := none }) root _) root _ = N at hgone
  have hNother : ∀ q, q ≠ root → N q = if q = c then { node q with cover := none } else
      v.nc.pnode q := by
    intro q hq
    rw [← hN, Function.update_of_ne hq, Function.update_of_ne hq]
    by_cases hqc : q = c
    · subst hqc
      rw [Function.update_self, if_pos rfl]
    · rw [Function.update_of_ne hqc, if_neg hqc, hother q hqc]
  have hNlinks : ∀ q, links (N q) = links (v.nc.pnode q) := by
    intro q
    rw [← hN]
    by_cases hq : q = root
    · subst hq
      rw [Function.update_self]
      change links (Function.update (Function.update node c { node c with cover := none }) q _ q) = _
      rw [Function.update_self]
      change links (Function.update node c { node c with cover := none } q) = _
      by_cases hqc : q = c
      · subst hqc
        rw [Function.update_self]
        exact hlinks q
      · rw [Function.update_of_ne hqc]
        exact hlinks q
    · rw [Function.update_of_ne hq, Function.update_of_ne hq]
      by_cases hqc : q = c
      · subst hqc
        rw [Function.update_self]
        exact hlinks q
      · rw [Function.update_of_ne hqc]
        exact hlinks q
  have shape : SameShape v.nc { v.nc with pnode := N } :=
    ⟨hNlinks, fun _ => rfl, List.Perm.refl _, rfl, rfl, rfl, rfl, rfl⟩
  have rootv : isRoot v.mt root := ⟨m, r, hm, hroot⟩
  have leaf : ∀ q ∈ v.nc.pnodes, ¬ isRoot v.mt q → (N q).parent ≠ root := by
    intro q hq hqroot hpar
    obtain ⟨hp, hmnt, -⟩ := hv.forest.inside q hq hqroot
    rw [(links_eq (hNlinks q)).1] at hpar
    rw [hpar] at hmnt
    obtain ⟨p, hp', -, hpm⟩ := hv.root m r hm
    obtain rfl : root = p := Option.some.inj (hroot.symm.trans hp')
    rw [hpm] at hmnt
    have := alone q hq hmnt.symm
    subst this
    exact hqroot rootv
  have forest : Forest (isRoot v.mt) { v.nc with pnode := N } := hv.forest.sameShape shape
  obtain ⟨hlive, href, hcover, hnc, hmt, hft, haio, humask⟩ :=
    sysioPGone_forest ops.gone (s := { v with nc := { v.nc with pnode := N }, mt := _ }) forest leaf hgone
  obtain rfl := write_ok.mp hfree
  have off : OffInodes _ v8 := fsRele_off ops.gone fsopGone _ _ _ _ hrele
  have hne : (Function.update node c { node c with cover := none } root).ref ≠ 0 :=
    of_decide_eq_true hne
  have hsame : (Function.update node c { node c with cover := none } root).ref =
      (v.nc.pnode root).ref := by
    by_cases hrc : root = c
    · subst hrc
      rw [Function.update_self]
      change (node root).ref = _
      rw [hcref, self rfl]
      simp
    · rw [Function.update_of_ne hrc, hother root hrc]
  have hNroot : (N root).ref = (v.nc.pnode root).ref - 1 := by
    rw [← hsame, ← hN]
    simp only [Function.update_self]
  have href : (N root).ref = 0 := href
  have tnc : v8.nc = dropNode { v.nc with pnode := N } root := off.nc.trans hnc
  have tmt : v8.mt = { v.mt with
      mount := Function.update v.mt.mount m none, mounts := v.mt.mounts.erase m } := by
    rw [off.mt]
    change ({ v6.mt with mount := _ } : MountTable) = _
    rw [hmt]
  have pruned : Pruned (fun _ => False) { v.nc with pnode := N } v8.nc := by
    rw [tnc]
    exact pruned_dropNode href hcover fun h => h
  have tnode : ∀ q, v8.nc.pnode q = N q := fun q => congrFun pruned.pnode q
  have tnodes : v8.nc.pnodes = v.nc.pnodes.erase root := by
    rw [tnc, dropNode_pnodes]
  have tmem : ∀ q, q ∈ v8.nc.pnodes ↔ q ≠ root ∧ q ∈ v.nc.pnodes := fun q => by
    rw [tnodes, hv.forest.nodup.mem_erase_iff]
  have tmount : ∀ m' r', v8.mt.mount m' = some r' → m' ≠ m ∧ v.mt.mount m' = some r' := by
    intro m' r' hm'
    rw [tmt] at hm'
    by_cases hmm : m' = m
    · subst hmm
      simp at hm'
    · exact ⟨hmm, by simpa only [Function.update_of_ne hmm] using hm'⟩
  have keep : ∀ m' r', m' ≠ m → v.mt.mount m' = some r' → v8.mt.mount m' = some r' := by
    intro m' r' hmm hm'
    rw [tmt]
    simpa only [Function.update_of_ne hmm] using hm'
  obtain ⟨p, hp, -, hpm⟩ := hv.root m r hm
  obtain rfl : root = p := Option.some.inj (hroot.symm.trans hp)
  constructor
  case rootRef => omega
  case coverRef => exact hcne
  case pnodes => exact tnodes
  case node =>
    intro q hq
    rw [tnode, hNother q hq]
    by_cases hqc : q = c
    · subst hqc
      rw [if_pos rfl, if_pos rfl, ← hcref]
      obtain ⟨h1, h2, h3⟩ := links_eq (hlinks q)
      simp only [h1, h2, h3]
    · rw [if_neg hqc, if_neg hqc]
  case base => exact pruned.base
  case nextBase => exact pruned.nextBase
  case mt => exact tmt
  case ft => exact off.ft.trans hft
  case aio => exact off.aio.trans haio
  case umask => exact off.umask.trans humask
  case sound =>
    constructor
    case forest =>
      rw [tnc]
      refine (forest_dropNode forest hlive leaf).mono fun q hq hqroot => ?_
      rw [dropNode_pnodes] at hq
      obtain ⟨m', r', hm', hq'⟩ := hqroot
      refine ⟨m', r', keep m' r' ?_ hm', hq'⟩
      rintro rfl
      obtain rfl : r = r' := Option.some.inj (hm.symm.trans hm')
      obtain rfl : root = q := Option.some.inj (hroot.symm.trans hq')
      exact (hv.forest.nodup.mem_erase_iff.mp hq).1 rfl
    case root =>
      intro m' r' hm'
      obtain ⟨hmm, hm'⟩ := tmount m' r' hm'
      obtain ⟨q, hq, hqlive, hqm⟩ := hv.root m' r' hm'
      refine ⟨q, hq, (tmem q).mpr ⟨?_, hqlive⟩, ?_⟩
      · rintro rfl
        exact hmm (hqm.symm.trans hpm)
      · rw [tnode, (links_eq (hNlinks q)).2.2]
        exact hqm
    case mounted =>
      intro q hq
      obtain ⟨hqr, hqlive⟩ := (tmem q).mp hq
      rw [tnode, (links_eq (hNlinks q)).2.2]
      obtain ⟨r', hr'⟩ := hv.mounted q hqlive
      refine ⟨r', keep _ r' ?_ hr'⟩
      intro hqm
      exact hqr (alone q hqlive hqm)

/-- A mount is taken out only while its root is held. -/
theorem unmountCommit_held {v t : Sys D} {m : MntId} {root c : Pno} {err : ℤ}
    (self : c = root → (v.nc.pnode root).cover = some root)
    (run : unmountCommit e m root c v = .ok (err, t)) : (v.nc.pnode root).ref ≠ 0 := by
  obtain ⟨rm, _, hread, h1⟩ := bind_ok.mp run
  obtain ⟨-, rfl⟩ := deref_ok.mp hread
  obtain ⟨nr, _, hread, h2⟩ := bind_ok.mp h1
  obtain ⟨rfl, rfl⟩ := read_ok.mp hread
  obtain ⟨_, v1, hv1, h3⟩ := bind_ok.mp h2
  obtain ⟨n, _, hread, h4⟩ := bind_ok.mp h3
  obtain ⟨rfl, rfl⟩ := read_ok.mp hread
  obtain ⟨_, v2, hv2, h5⟩ := bind_ok.mp h4
  obtain rfl := write_ok.mp hv2
  obtain ⟨_, v3, hv3, h6⟩ := bind_ok.mp h5
  obtain rfl := write_ok.mp hv3
  obtain ⟨_, v4, hv4, -⟩ := bind_ok.mp h6
  obtain ⟨_, _, hc, -⟩ := bind_ok.mp hv4
  obtain ⟨held, -⟩ := check_ok.mp hc
  have held : (Function.update v1.nc.pnode c { v1.nc.pnode c with cover := none } root).ref ≠ 0 :=
    of_decide_eq_true held
  -- neither the release of the covered node nor its cover has to do with the root
  have same : (v1.nc.pnode root).ref = (v.nc.pnode root).ref := by
    rcases when_ok.mp hv1 with ⟨hcov, hv1⟩ | ⟨-, rfl⟩
    · have hne : root ≠ c := fun h => hcov (self h.symm)
      obtain ⟨_, _, hc, hw⟩ := bind_ok.mp hv1
      obtain ⟨-, rfl⟩ := check_ok.mp hc
      obtain rfl := write_ok.mp hw
      exact congrArg Pnode.ref (Function.update_of_ne hne ..)
    · rfl
  rw [← same]
  by_cases hrc : root = c
  · subst hrc
    rw [Function.update_self] at held
    exact held
  · rw [Function.update_of_ne hrc] at held
    exact held

/-- What `_sysio_do_unmount` does. -/
theorem sysioDoUnmount_cases (ops : OpsMove OffInodes e)
    (fsopGone : ∀ f, Moves OffInodes (e.ops.fsopGone f)) {s t : Sys D} {m : MntId} {err : ℤ}
    (hs : Sound s) (run : sysioDoUnmount e m s = .ok (err, t)) :
    (err ≠ 0 ∧ Kept (isRoot s.mt) s t) ∨ (err = 0 ∧ ∃ r root c v, s.mt.mount m = some r ∧
      r.root = some root ∧ r.covers = some c ∧ (s.nc.pnode c).cover = some root ∧
      ((s.nc.pnode root).cover = none ∨ (s.nc.pnode root).cover = some root) ∧
      sysioPPrune e root s = .ok (1, v) ∧ Kept (isRoot s.mt) s v ∧
      (∀ q ∈ v.nc.pnodes, (v.nc.pnode q).mount = m → q = root) ∧ Dismounted v t m root c) := by
  obtain ⟨r, _, hread, h1⟩ := bind_ok.mp run
  obtain ⟨hr, rfl⟩ := deref_ok.mp hread
  obtain ⟨root, _, hread, h2⟩ := bind_ok.mp h1
  obtain ⟨hroot, rfl⟩ := deref_ok.mp hread
  obtain ⟨nr, _, hread, h3⟩ := bind_ok.mp h2
  obtain ⟨rfl, rfl⟩ := read_ok.mp hread
  by_cases hcov : (s.nc.pnode root).cover ≠ none ∧ (s.nc.pnode root).cover ≠ some root
  · rw [if_pos hcov] at h3
    obtain ⟨rfl, rfl⟩ := pure_ok.mp h3
    exact Or.inl ⟨by decide, Kept.refl hs.forest⟩
  rw [if_neg hcov] at h3
  obtain ⟨c, _, hread, h4⟩ := bind_ok.mp h3
  obtain ⟨hc, rfl⟩ := deref_ok.mp hread
  obtain ⟨n, _, hread, h5⟩ := bind_ok.mp h4
  obtain ⟨rfl, rfl⟩ := read_ok.mp hread
  obtain ⟨_, _, hch, h6⟩ := bind_ok.mp h5
  obtain ⟨hcover, rfl⟩ := check_ok.mp hch
  have hcover : (s.nc.pnode c).cover = some root := of_decide_eq_true hcover
  obtain ⟨left, v, hprune, h7⟩ := bind_ok.mp h6
  by_cases hleft : left ≠ 1
  · rw [if_pos hleft] at h7
    obtain ⟨rfl, rfl⟩ := pure_ok.mp h7
    exact Or.inl ⟨by decide, sysioPPrune_prunes ops.gone root s _ _ hprune hs.forest hs.rooted⟩
  rw [if_neg hleft] at h7
  obtain rfl : left = 1 := not_not.mp hleft
  have rooted : isRoot s.mt root := ⟨m, r, hr, hroot⟩
  have same := (sysioPPrune_prunes ops.gone root s _ _ hprune hs.forest hs.rooted).pruned.pnode
  have self : c = root → (v.nc.pnode root).cover = some root := by
    rintro rfl
    rw [same]
    exact hcover
  have held := unmountCommit_held self h7
  rw [same] at held
  obtain ⟨kept, alone⟩ := sysioPPrune_alone ops.gone hs rooted held hprune
  have rootm : (s.nc.pnode root).mount = m := by
    obtain ⟨p, hp, -, hpm⟩ := hs.root m r hr
    obtain rfl : root = p := Option.some.inj (hroot.symm.trans hp)
    exact hpm
  rw [rootm] at alone
  obtain ⟨rfl, done⟩ := unmountCommit_ok ops fsopGone (hs.of_kept kept) (by rw [kept.mt]; exact hr)
    hroot alone self h7
  refine Or.inr ⟨rfl, r, root, c, v, hr, hroot, hc, hcover, ?_, hprune, kept, alone, done⟩
  by_cases hn : (s.nc.pnode root).cover = none
  · exact Or.inl hn
  · exact Or.inr (not_not.mp fun h => hcov ⟨hn, h⟩)

end Unmount

end MountForest
