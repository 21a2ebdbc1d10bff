import DirectFuse.SysioMount

/-! What the functions of inode.c and namei.c leave alone. A function that only changes base nodes,
inodes and driver data stays inside every preorder that ignores these, as long as the driver's
own operations do. -/
namespace CoreMoves

open ExecLogic SysioState SysioInode SysioNamei SysioMount

variable {D : Type}

/-- The path nodes and everything outside the two caches are the same. -/
structure Still (s t : Sys D) : Prop where
  pnode : t.nc.pnode = s.nc.pnode
  pnodes : t.nc.pnodes = s.nc.pnodes
  freePnodes : t.nc.freePnodes = s.nc.freePnodes
  nextPnode : t.nc.nextPnode = s.nc.nextPnode
  mt : t.mt = s.mt
  ft : t.ft = s.ft
  aio : t.aio = s.aio
  umask : t.umask = s.umask

instance : IsPreorder (Sys D) Still where
  refl _ := ⟨rfl, rfl, rfl, rfl, rfl, rfl, rfl, rfl⟩
  trans _ _ _ h k :=
    ⟨k.pnode.trans h.pnode, k.pnodes.trans h.pnodes, k.freePnodes.trans h.freePnodes,
      k.nextPnode.trans h.nextPnode, k.mt.trans h.mt, k.ft.trans h.ft, k.aio.trans h.aio,
      k.umask.trans h.umask⟩

/-- Nothing outside the inode cache and the driver's data has changed. -/
structure OffInodes (s t : Sys D) : Prop where
  nc : t.nc = s.nc
  mt : t.mt = s.mt
  ft : t.ft = s.ft
  aio : t.aio = s.aio
  umask : t.umask = s.umask

instance : IsPreorder (Sys D) OffInodes where
  refl _ := ⟨rfl, rfl, rfl, rfl, rfl⟩
  trans _ _ _ h k := ⟨k.nc.trans h.nc, k.mt.trans h.mt, k.ft.trans h.ft, k.aio.trans h.aio,
    k.umask.trans h.umask⟩

theorem OffInodes.still {s t : Sys D} (h : OffInodes s t) : Still s t :=
  ⟨by rw [h.nc], by rw [h.nc], by rw [h.nc], by rw [h.nc], h.mt, h.ft, h.aio, h.umask⟩

/-- Only the driver's own data and the bookkeeping of the allocator have changed. -/
structure DriverOnly (s t : Sys D) : Prop where
  nc : t.nc = s.nc
  ic : t.ic = s.ic
  mt : t.mt = s.mt
  ft : t.ft = s.ft
  aio : t.aio = s.aio
  umask : t.umask = s.umask

instance : IsPreorder (Sys D) DriverOnly where
  refl _ := ⟨rfl, rfl, rfl, rfl, rfl, rfl⟩
  trans _ _ _ h k := ⟨k.nc.trans h.nc, k.ic.trans h.ic, k.mt.trans h.mt, k.ft.trans h.ft,
    k.aio.trans h.aio, k.umask.trans h.umask⟩

theorem DriverOnly.off {s t : Sys D} (h : DriverOnly s t) : OffInodes s t :=
  ⟨h.nc, h.mt, h.ft, h.aio, h.umask⟩

/-- Only the bookkeeping of the allocator and the buffer for group lists differ. -/
structure Scratch (s t : Sys D) : Prop where
  nc : t.nc = s.nc
  ic : t.ic = s.ic
  mt : t.mt = s.mt
  ft : t.ft = s.ft
  aio : t.aio = s.aio
  umask : t.umask = s.umask
  drv : t.drv = s.drv

instance : IsPreorder (Sys D) Scratch where
  refl _ := ⟨rfl, rfl, rfl, rfl, rfl, rfl, rfl⟩
  trans _ _ _ h k := ⟨k.nc.trans h.nc, k.ic.trans h.ic, k.mt.trans h.mt, k.ft.trans h.ft,
    k.aio.trans h.aio, k.umask.trans h.umask, k.drv.trans h.drv⟩

theorem Scratch.driver {s t : Sys D} (h : Scratch s t) : DriverOnly s t :=
  ⟨h.nc, h.ic, h.mt, h.ft, h.aio, h.umask⟩

theorem Scratch.still {s t : Sys D} (h : Scratch s t) : Still s t := h.driver.off.still

/-- The driver operations the shared code calls on its own account. -/
structure OpsMove (R : Sys D → Sys D → Prop) (e : Env D) : Prop where
  lookup : ∀ i p o intnt path, Moves R (e.ops.lookup i p o intnt path)
  readlink : ∀ i p n, Moves R (e.ops.readlink i p n)
  gone : ∀ i, Moves R (e.ops.gone i)

theorem triple_nonNull {α β : Type} {P : Sys D → Prop} {Q : β → Sys D → Prop} {o : Option α}
    {f : α → Sysio D β} (h : ∀ a, o = some a → Triple P (f a) Q) :
    Triple P (nonNull o >>= f) Q := by
  intro s hs b t hm
  obtain ⟨a, u, ha, hf⟩ := bind_ok.mp hm
  obtain ⟨ho, rfl⟩ := deref_ok.mp ha
  exact h a ho _ hs b t hf

theorem modBase_ok {b : PbId} {f : PnodeBase → PnodeBase} {s t : Sys D} {u : Unit}
    (h : (modBase b f : Sysio D Unit) s = .ok (u, t)) : ∃ r, s.nc.base b = some r ∧
      t = { s with nc.base := Function.update s.nc.base b (some (f r)) } := by
  obtain ⟨r, _, ha, hw⟩ := bind_ok.mp h
  obtain ⟨hr, rfl⟩ := deref_ok.mp ha
  obtain rfl := write_ok.mp hw
  exact ⟨r, hr, rfl⟩

section Reads

variable {R : Sys D → Sys D → Prop} [IsPreorder (Sys D) R]

theorem pnodeAt_moves (p : Pno) : Moves R (pnodeAt p : Sysio D Pnode) := moves_read _

theorem baseAt_moves (b : PbId) : Moves R (baseAt b : Sysio D PnodeBase) := moves_deref _ _

theorem inodeAt_moves (i : InoId) : Moves R (inodeAt i : Sysio D Inode) := moves_deref _ _

theorem fsAt_moves (f : FsId) : Moves R (fsAt f : Sysio D Filesys) := moves_deref _ _

theorem mountAt_moves (m : MntId) : Moves R (mountAt m : Sysio D Mount) := moves_deref _ _

theorem nonNull_moves {α : Type} (o : Option α) : Moves R (nonNull o : Sysio D α) := moves_deref _ _

theorem assert_moves (c : Bool) : Moves R (assert c : Sysio D Unit) := moves_check _ _

theorem ifSome_moves {α : Type} {o : Option α} {f : α → Sysio D Unit}
    (h : ∀ a, o = some a → Moves R (f a)) : Moves R (ifSome o f) := by
  cases o with
  | none => exact moves_pure ()
  | some a => exact h a rfl

theorem inoOf_moves (p : Pno) : Moves R (inoOf p : Sysio D (Option InoId)) :=
  moves_bind (pnodeAt_moves p) fun _ => moves_bind (baseAt_moves _) fun _ => moves_pure _

theorem isRdonly_moves (p : Pno) : Moves R (isRdonly p : Sysio D Bool) :=
  moves_bind (pnodeAt_moves p) fun _ => moves_bind (mountAt_moves _) fun _ => moves_pure _

theorem itblSearch_moves (fid : ℕ) (l : List InoId) :
    Moves R (itblSearch fid l : Sysio D (Option InoId)) := by
  induction l with
  | nil => exact moves_pure _
  | cons i l ih =>
    exact moves_bind (inodeAt_moves i) fun _ => moves_ite (fun _ => moves_pure _) fun _ => ih

theorem findNamed_moves (parent : PbId) (name : Qstr) (l : List PbId) :
    Moves R (findNamed parent name l : Sysio D (Option PbId)) := by
  induction l with
  | nil => exact moves_pure _
  | cons b l ih =>
    exact moves_bind (baseAt_moves b) fun _ => moves_ite (fun _ => moves_pure _) fun _ => ih

theorem findAliasOf_moves (parent : Pno) (l : List Pno) :
    Moves R (findAliasOf parent l : Sysio D (Option Pno)) := by
  induction l with
  | nil => exact moves_pure _
  | cons p l ih =>
    exact moves_bind (pnodeAt_moves p) fun _ => moves_ite (fun _ => moves_pure _) fun _ => ih

theorem nameChain_moves (parent : PbId) (name : Qstr) :
    Moves R (nameChain parent name : Sysio D (List PbId)) :=
  moves_ite (fun _ => moves_read _) fun _ =>
    moves_bind (baseAt_moves parent) fun _ => moves_pure _

theorem pbNames_moves (fuel : ℕ) (b : PbId) : Moves R (pbNames fuel b : Sysio D (List Bytes)) := by
  induction fuel generalizing b with
  | zero => exact moves_fault _
  | succ fuel ih =>
    refine moves_bind (baseAt_moves b) fun r => ?_
    cases r.parent with
    | none => exact moves_pure _
    | some q => exact moves_bind (ih q) fun _ => moves_pure _

theorem hasAncestor_moves (target : PbId) (fuel : ℕ) (b : PbId) :
    Moves R (hasAncestor target fuel b : Sysio D Bool) := by
  induction fuel generalizing b with
  | zero => exact moves_fault _
  | succ fuel ih =>
    refine moves_ite (fun _ => moves_pure _) fun _ => moves_bind (baseAt_moves b) fun r => ?_
    cases r.parent with
    | none => exact moves_pure _
    | some q => exact ih q

end Reads

section ReclaimInodes

variable {R : Sys D → Sys D → Prop} [IsPreorder (Sys D) R] {e : Env D}
  (gone : ∀ i, Moves R (sysioIGone e i))
  (grow : ∀ (s : Sys D) (k : ℕ), R s { s with ic.maxInodes := k })

include gone

theorem iReclaimLoop_moves (t fuel : ℕ) (i : InoId) : Moves R (iReclaimLoop e t fuel i) := by
  induction fuel generalizing i with
  | zero => exact moves_fault _
  | succ fuel ih =>
    refine moves_bind (moves_read _) fun next => moves_bind (inodeAt_moves i) fun r =>
      moves_bind (moves_when fun _ => gone i) fun _ => moves_bind (moves_read _) fun n => ?_
    cases next with
    | none => exact moves_pure _
    | some j => exact moves_ite (fun _ => ih j) fun _ => moves_pure _

include grow

theorem iReclaim_moves : Moves R (iReclaim e) := by
  refine moves_bind (moves_read _) fun ic => moves_bind (moves_read _) fun want =>
    moves_ite (fun _ => moves_write fun s => grow s _) fun _ => ?_
  cases ic.inodes.head? with
  | none => exact moves_pure _
  | some i =>
    exact moves_bind (iReclaimLoop_moves gone _ _ i) fun _ => moves_bind (moves_read _) fun n =>
      moves_ite (fun _ => moves_write fun s => grow s _) fun _ => moves_pure _

end ReclaimInodes

section Scratch

variable {R : Sys D → Sys D → Prop} [IsPreorder (Sys D) R] (scratch : ∀ s t, Scratch s t → R s t)
  {e : Env D}

include scratch

omit [IsPreorder (Sys D) R] in
theorem malloc_moves : Moves R (malloc e) := by
  intro s a t h
  cases h
  exact scratch _ _ ⟨rfl, rfl, rfl, rfl, rfl, rfl, rfl⟩

theorem sysioPbPath_moves (b : PbId) (c : UInt8) : Moves R (sysioPbPath e b c) := by
  refine moves_bind (moves_read _) fun depth => moves_bind (pbNames_moves _ _) fun names => ?_
  exact moves_bind (malloc_moves scratch) fun ok =>
    moves_ite (fun _ => moves_pure _) fun _ => moves_pure _

theorem ldgroupsLoop_moves (fuel n : ℕ) : Moves R (ldgroupsLoop e fuel n) := by
  induction fuel generalizing n with
  | zero => exact moves_fault _
  | succ fuel ih =>
    refine moves_bind (moves_read _) fun len => moves_bind (moves_ite (fun _ => ?_) fun _ =>
      moves_pure _) fun fits => moves_ite (fun _ => moves_pure _) fun _ =>
      moves_ite (fun _ => moves_ite (fun _ => moves_pure _) fun _ => ih _) fun _ => moves_pure _
    refine moves_bind (malloc_moves scratch) fun ok => moves_ite (fun _ => moves_pure _) fun _ => ?_
    refine moves_bind (moves_write fun s => scratch _ _ ?_) fun _ => moves_pure _
    exact ⟨rfl, rfl, rfl, rfl, rfl, rfl, rfl⟩

theorem sysioLdcreds_moves : Moves R (sysioLdcreds e) :=
  moves_bind (moves_bind (moves_read _) fun _ => ldgroupsLoop_moves scratch _ _) fun _ =>
    moves_ite (fun _ => moves_pure _) fun _ => moves_pure _

omit scratch in
theorem sysioCheckPermission_moves (p : Pno) (crp : Creds) (amode : ℕ) :
    Moves R (sysioCheckPermission p crp amode : Sysio D ℤ) := by
  refine moves_ite (fun _ => moves_pure _) fun _ => moves_ite (fun _ => moves_pure _) fun _ =>
    moves_bind (inoOf_moves p) fun ino => moves_bind (assert_moves _) fun _ =>
    moves_bind (nonNull_moves _) fun i => moves_bind (inodeAt_moves i) fun r =>
    moves_ite (fun _ => moves_pure _) fun _ => ?_
  refine moves_ite (fun _ => moves_bind (isRdonly_moves p) fun ro => ?_) fun _ => moves_pure _
  exact moves_ite (fun _ => moves_pure _) fun _ => moves_pure _

theorem sysioPermitted_moves (p : Pno) (amode : ℕ) : Moves R (sysioPermitted e p amode) :=
  moves_bind (sysioLdcreds_moves scratch) fun _ =>
    moves_ite (fun _ => moves_pure _) fun _ => sysioCheckPermission_moves _ _ _

end Scratch

section Inodes

variable {R : Sys D → Sys D → Prop} [IsPreorder (Sys D) R] (off : ∀ s t, OffInodes s t → R s t)
  {e : Env D}

include off

omit [IsPreorder (Sys D) R] in
theorem setInode_moves (i : InoId) (r : Inode) : Moves R (setInode i r : Sysio D Unit) :=
  moves_write fun _ => off _ _ ⟨rfl, rfl, rfl, rfl, rfl⟩

omit [IsPreorder (Sys D) R] in
theorem setFs_moves (f : FsId) (r : Filesys) : Moves R (setFs f r : Sysio D Unit) :=
  moves_write fun _ => off _ _ ⟨rfl, rfl, rfl, rfl, rfl⟩

theorem iRef_moves (i : InoId) : Moves R (iRef i : Sysio D Unit) :=
  moves_bind (inodeAt_moves i) fun _ => moves_write fun _ => off _ _ ⟨rfl, rfl, rfl, rfl, rfl⟩

theorem itblRemove_moves (i : InoId) (r : Inode) : Moves R (itblRemove i r : Sysio D Unit) :=
  moves_bind (fsAt_moves _) fun _ => setFs_moves off _ _

theorem sysioIUndead_moves (i : InoId) : Moves R (sysioIUndead i : Sysio D Unit) := by
  refine moves_bind (inodeAt_moves i) fun r => moves_ite (fun _ => moves_pure _) fun _ => ?_
  exact moves_bind (itblRemove_moves off i r) fun _ => setInode_moves off _ _

theorem sysioIFind_moves (fs : FsId) (fid : ℕ) :
    Moves R (sysioIFind fs fid : Sysio D (Option InoId)) := by
  refine moves_bind (fsAt_moves fs) fun f => moves_bind (itblSearch_moves _ _) fun found => ?_
  cases found with
  | none => exact moves_pure _
  | some i => exact moves_bind (iRef_moves off i) fun _ => moves_pure _

variable (gone : ∀ i, Moves R (e.ops.gone i))

include gone

theorem sysioIGone_moves (i : InoId) : Moves R (sysioIGone e i) := by
  refine moves_bind (inodeAt_moves i) fun r => moves_bind (moves_check _ _) fun _ =>
    moves_bind (moves_when fun _ => itblRemove_moves off i r) fun _ =>
    moves_bind (moves_write fun s => off _ _ ?_) fun _ => moves_bind (gone i) fun _ =>
    moves_bind (moves_write fun s => off _ _ ?_) fun _ => moves_bind (moves_check _ _) fun _ =>
    moves_write fun s => off _ _ ?_
  all_goals exact ⟨rfl, rfl, rfl, rfl, rfl⟩

theorem iRele_moves (i : InoId) : Moves R (iRele e i) :=
  moves_bind (inodeAt_moves i) fun _ => moves_bind (assert_moves _) fun _ =>
    moves_bind (setInode_moves off _ _) fun _ =>
    moves_ite (fun _ => sysioIGone_moves off gone i) fun _ => moves_pure _

theorem iGone_moves (i : InoId) : Moves R (iGone e i) :=
  moves_bind (sysioIUndead_moves off i) fun _ => iRele_moves off gone i

theorem sysioINew_moves (fs : FsId) (fid : ℕ) (stat : Stat) (immunity : Bool) (priv : ℕ) :
    Moves R (sysioINew e fs fid stat immunity priv) := by
  refine moves_bind (moves_read _) fun ic =>
    moves_bind (moves_when fun _ => iReclaim_moves (sysioIGone_moves off gone) fun s k =>
      off _ _ ⟨rfl, rfl, rfl, rfl, rfl⟩) fun _ =>
    moves_bind (malloc_moves fun s t h => off s t h.driver.off) fun ok =>
    moves_ite (fun _ => moves_pure _) fun _ =>
    moves_bind (moves_read _) fun i => moves_bind (fsAt_moves fs) fun f =>
    moves_bind (moves_write fun s => off _ _ ?_) fun _ =>
    moves_bind (setFs_moves off _ _) fun _ => moves_pure _
  exact ⟨rfl, rfl, rfl, rfl, rfl⟩

end Inodes

section Writes

variable {R : Sys D → Sys D → Prop} [IsPreorder (Sys D) R] (still : ∀ s t, Still s t → R s t)
  {e : Env D}

include still

theorem modBase_moves (b : PbId) (f : PnodeBase → PnodeBase) :
    Moves R (modBase b f : Sysio D Unit) :=
  moves_bind (baseAt_moves b) fun _ => moves_write fun _ =>
    still _ _ ⟨rfl, rfl, rfl, rfl, rfl, rfl, rfl, rfl⟩

theorem pbDestroy_moves (b : PbId) : Moves R (pbDestroy b : Sysio D Unit) := by
  have quiet : ∀ f : Sys D → Sys D, (∀ s, Still s (f s)) → Moves R (Exec.write f : Sysio D Unit) :=
    fun f hf => moves_write fun s => still _ _ (hf s)
  refine moves_bind (moves_check _ _) fun _ => moves_bind (quiet _ fun s => ?_) fun _ =>
    moves_bind (baseAt_moves b) fun r => moves_bind (assert_moves _) fun _ =>
    moves_bind (assert_moves _) fun _ => moves_bind (assert_moves _) fun _ =>
    moves_bind (moves_when fun _ => quiet _ fun s => ?_) fun _ =>
    moves_bind (ifSome_moves fun q _ => modBase_moves still q _) fun _ => quiet _ fun s => ?_
  all_goals exact ⟨rfl, rfl, rfl, rfl, rfl, rfl, rfl, rfl⟩

theorem sysioPbGone_moves (gone : ∀ i, Moves R (e.ops.gone i)) (b : PbId) :
    Moves R (sysioPbGone e b) :=
  moves_bind (baseAt_moves b) fun _ =>
    moves_bind (ifSome_moves fun i _ => iRele_moves (fun s t h => still s t h.still) gone i) fun _ =>
    moves_bind (modBase_moves still b _) fun _ => pbDestroy_moves still b

theorem sysioPValidate_moves (ops : OpsMove R e) (p : Pno) (intnt : Option Intent)
    (path : Option Bytes) : Moves R (sysioPValidate e p intnt path) := by
  refine moves_bind (pnodeAt_moves p) fun n => moves_bind (baseAt_moves _) fun r =>
    moves_bind (mountAt_moves _) fun m => moves_bind (nonNull_moves _) fun root =>
    moves_bind (pnodeAt_moves _) fun rn => moves_bind (baseAt_moves _) fun rootpb =>
    moves_bind (assert_moves _) fun _ => moves_bind (nonNull_moves _) fun rooti =>
    moves_bind (ops.lookup _ _ _ _ _) fun res => moves_bind (baseAt_moves _) fun r' =>
    moves_bind (moves_when fun _ => ?_) fun _ => moves_pure _
  exact moves_bind (ifSome_moves fun i _ =>
    iRele_moves (fun s t h => still s t h.still) ops.gone i) fun _ => modBase_moves still _ _

end Writes

section Prune

variable {R : Sys D → Sys D → Prop} [IsPreorder (Sys D) R] {e : Env D}
  (pbGone : ∀ b, Moves R (sysioPbGone e b)) (pGone : ∀ p, Moves R (sysioPGone e p))

include pbGone

theorem pruneBases_moves {rec : PbId → Sysio D Unit} (hrec : ∀ b, Moves R (rec b)) (l : List PbId) :
    Moves R (pruneBases e rec l) := by
  induction l with
  | nil => exact moves_pure _
  | cons b l ih =>
    refine moves_bind (baseAt_moves b) fun r => moves_bind (moves_when fun _ => ?_) fun _ => ih
    exact moves_ite (fun _ => hrec b) fun _ => pbGone b

theorem sysioPrune_moves (fuel : ℕ) (b : PbId) : Moves R (sysioPrune e fuel b) := by
  induction fuel generalizing b with
  | zero => exact moves_fault _
  | succ fuel ih =>
    exact moves_bind (baseAt_moves b) fun r => moves_bind (pruneBases_moves pbGone ih _) fun _ =>
      moves_bind (baseAt_moves b) fun r' => moves_ite (fun _ => moves_pure _) fun _ => pbGone b

omit pbGone in
include pGone in
theorem pruneAliases_moves {rec : Pno → Sysio D ℕ} (hrec : ∀ p, Moves R (rec p)) (mnt : MntId)
    (l : List Pno) : Moves R (pruneAliases e rec mnt l) := by
  have one : ∀ p n, Moves R (pruneAlias e rec p n) := by
    intro p n
    refine moves_bind (baseAt_moves _) fun r => moves_ite (fun _ => hrec p) fun _ =>
      moves_ite (fun _ => moves_pure _) fun _ => moves_bind (assert_moves _) fun _ =>
      moves_bind (assert_moves _) fun _ => moves_bind (mountAt_moves _) fun m =>
      moves_ite (fun _ => moves_pure _) fun _ => moves_bind (pGone p) fun _ => moves_pure _
  induction l with
  | nil => exact moves_pure _
  | cons p l ih =>
    exact moves_bind (pnodeAt_moves p) fun n => moves_bind (moves_ite (fun _ => moves_pure _)
      fun _ => one p n) fun _ => moves_bind ih fun _ => moves_pure _

include pGone

theorem pPrune_moves (fuel : ℕ) (root : Pno) : Moves R (pPrune e fuel root) := by
  induction fuel generalizing root with
  | zero => exact moves_fault _
  | succ fuel ih =>
    have children : ∀ mnt l,
        Moves R (pruneChildren e (sysioPrune e fuel) (pPrune e fuel) mnt l) := by
      intro mnt l
      induction l with
      | nil => exact moves_pure _
      | cons b l ihl =>
        refine moves_bind (baseAt_moves b) fun r => moves_bind (moves_ite (fun _ => ?_) fun _ =>
          pruneAliases_moves pGone ih mnt _) fun _ => moves_bind ihl fun _ => moves_pure _
        exact moves_bind (sysioPrune_moves pbGone fuel b) fun _ => moves_pure _
    refine moves_bind (pnodeAt_moves root) fun n => moves_bind (baseAt_moves _) fun r =>
      moves_bind (children _ _) fun count => moves_bind (pnodeAt_moves root) fun n' =>
      moves_ite (fun _ => moves_pure _) fun _ => moves_ite (fun _ => moves_pure _) fun _ =>
      moves_bind (mountAt_moves _) fun m => moves_ite (fun _ => moves_pure _) fun _ =>
      moves_bind (pGone root) fun _ => moves_pure _

theorem sysioPPrune_moves (root : Pno) : Moves R (sysioPPrune e root) :=
  moves_bind (moves_read _) fun _ => pPrune_moves pbGone pGone _ root

end Prune

section Reclaim

variable {R : Sys D → Sys D → Prop} [IsPreorder (Sys D) R] {e : Env D}
  (node : ∀ p, Moves R (pReclaimNode e p))
  (grow : ∀ (s : Sys D) (k : ℕ), R s { s with nc.maxNames := s.nc.maxNames + k })

include node

theorem pReclaimLoop_moves (t fuel : ℕ) (p : Pno) : Moves R (pReclaimLoop e t fuel p) := by
  induction fuel generalizing p with
  | zero => exact moves_fault _
  | succ fuel ih =>
    refine moves_bind (node p) fun next => moves_bind (moves_read _) fun k => ?_
    cases next with
    | none => exact moves_pure _
    | some q => exact moves_ite (fun _ => ih q) fun _ => moves_pure _

include grow

theorem pReclaim_moves : Moves R (pReclaim e) := by
  refine moves_bind (moves_read _) fun nc => ?_
  cases nc.pnodes.head? with
  | none => exact moves_pure _
  | some p =>
    exact moves_bind (pReclaimLoop_moves node _ _ p) fun _ => moves_bind (moves_read _) fun k =>
      moves_ite (fun _ => moves_write fun s => grow s _) fun _ => moves_pure _

end Reclaim

theorem toTopCover_moves {R : Sys D → Sys D → Prop} [IsPreorder (Sys D) R]
    (ref : ∀ p, Moves R (pRef p)) (rele : ∀ p, Moves R (pRele p)) (fuel : ℕ) (p : Pno) :
    Moves R (toTopCover fuel p) := by
  induction fuel generalizing p with
  | zero => exact moves_fault _
  | succ fuel ih =>
    refine moves_bind (pnodeAt_moves p) fun n => ?_
    cases n.cover with
    | none => exact moves_pure _
    | some c =>
      exact moves_ite (fun _ => moves_pure _) fun _ => moves_bind (ref c) fun _ =>
        moves_bind (rele p) fun _ => ih c

/-- The pieces a path walk is made of. -/
structure WalkMoves (R : Sys D → Sys D → Prop) (e : Env D) : Prop where
  pRef : ∀ p, Moves R (pRef p)
  pRele : ∀ p, Moves R (pRele p)
  malloc : Moves R (malloc e)
  validate : ∀ p intnt path, Moves R (sysioPValidate e p intnt path)
  permitted : ∀ p amode, Moves R (sysioPermitted e p amode)
  findAlias : ∀ p name, Moves R (sysioPFindAlias e p name)
  readlink : ∀ i p n, Moves R (e.ops.readlink i p n)

section Walk

variable {R : Sys D → Sys D → Prop} [IsPreorder (Sys D) R] {e : Env D} (w : WalkMoves R e)

include w

theorem lookup_moves (parent : Pno) (name : Qstr) (intnt : Option Intent) (path : Option Bytes)
    (check : Bool) : Moves R (lookup e parent name intnt path check) := by
  have node : Moves R (lookupNode e parent name) :=
    moves_ite (fun _ => moves_bind (w.pRef parent) fun _ => moves_pure _) fun _ =>
      moves_ite (fun _ => moves_bind (pnodeAt_moves parent) fun n =>
        moves_bind (w.pRef n.parent) fun _ => moves_pure _) fun _ => w.findAlias parent name
  exact moves_bind (inoOf_moves parent) fun ino => moves_ite (fun _ => moves_pure _) fun _ =>
    moves_bind (moves_ite (fun _ => w.permitted parent X_OK) fun _ => moves_pure _) fun err =>
    moves_ite (fun _ => moves_pure _) fun _ => moves_bind node fun res =>
    moves_ite (fun _ => moves_pure _) fun _ => moves_bind (nonNull_moves _) fun p =>
    moves_bind (moves_read _) fun depth => moves_bind (toTopCover_moves w.pRef w.pRele _ p) fun q =>
    moves_bind (w.validate q intnt path) fun err => moves_pure _

theorem walkExit_moves (err : ℤ) (cur parent : Option Pno) :
    Moves R (walkExit err cur parent : Sysio D _) := by
  have result : Moves R (walkResult err cur parent : Sysio D _) := by
    cases cur with
    | some p => exact moves_pure _
    | none =>
      exact moves_bind (nonNull_moves _) fun p => moves_ite (fun _ => moves_pure _) fun _ =>
        moves_bind (inoOf_moves p) fun _ => moves_bind (nonNull_moves _) fun i =>
        moves_bind (inodeAt_moves i) fun _ => moves_pure _
  exact moves_bind result fun res => moves_bind (ifSome_moves fun q _ => w.pRele q) fun _ =>
    moves_ite (fun _ => moves_bind (w.pRele _) fun _ => moves_pure _) fun _ => moves_pure _

theorem walkLoop_moves {follow : Option (Follow D)}
    (hf : ∀ walk, follow = some walk → ∀ p nd, Moves R (walk p nd)) (nd : Nameidata)
    (comps : List Component) (path : Option Bytes) (cur : Pno) :
    Moves R (walkLoop e follow nd comps path cur) := by
  have link : ∀ last cur i, Moves R (followLink e follow nd last cur i) := by
    intro last cur i
    cases follow with
    | none => exact moves_pure _
    | some walk =>
      exact moves_bind w.malloc fun ok => moves_ite (fun _ => moves_pure _) fun _ =>
        moves_bind (w.readlink i cur _) fun text => moves_ite (fun _ => moves_pure _) fun _ =>
        moves_bind (pnodeAt_moves cur) fun n => moves_bind (hf walk rfl _ _) fun res =>
        moves_ite (fun _ => moves_pure _) fun _ => moves_bind (w.pRele cur) fun _ =>
        moves_bind (nonNull_moves _) fun p => moves_pure _
  induction comps generalizing path cur with
  | nil =>
    unfold walkLoop
    exact moves_bind (inoOf_moves cur) fun ino => moves_bind (nonNull_moves _) fun i =>
      moves_bind (inodeAt_moves i) fun r => moves_bind (moves_ite (fun _ => link _ cur i)
      fun _ => moves_pure _) fun res => moves_ite (fun _ => walkExit_moves w _ _ _)
      fun _ => walkExit_moves w _ _ _
  | cons this rest ih =>
    unfold walkLoop
    refine moves_bind (inoOf_moves cur) fun ino => moves_bind (nonNull_moves _) fun i =>
      moves_bind (inodeAt_moves i) fun r => moves_bind (moves_ite (fun _ => link _ cur i)
      fun _ => moves_pure _) fun res => moves_ite (fun _ => walkExit_moves w _ _ _)
      fun _ => moves_bind (inoOf_moves _) fun ino => ?_
    cases ino with
    | none => exact walkExit_moves w _ _ _
    | some i =>
      exact moves_bind (inodeAt_moves i) fun r => moves_ite (fun _ => walkExit_moves w _ _ _)
        fun _ => moves_bind (lookup_moves w _ _ _ _ _) fun res => moves_ite (fun _ =>
        moves_ite (fun _ => walkExit_moves w _ _ _) fun _ => walkExit_moves w _ _ _) fun _ =>
        moves_bind (nonNull_moves _) fun p => moves_bind (pnodeAt_moves _) fun nc =>
        moves_bind (pnodeAt_moves p) fun np => moves_bind (mountAt_moves _) fun mc =>
        moves_bind (mountAt_moves _) fun mp => moves_bind (w.pRele _) fun _ => ih _ p

theorem walkFrom_moves {follow : Option (Follow D)}
    (hf : ∀ walk, follow = some walk → ∀ p nd, Moves R (walk p nd)) (parent : Option Pno)
    (nd : Nameidata) : Moves R (walkFrom e follow parent nd) := by
  unfold walkFrom
  split
  · exact moves_pure _
  · exact moves_pure _
  · exact moves_bind (nonNull_moves _) fun start => moves_bind (w.validate start none none) fun err =>
      moves_ite (fun _ => moves_pure _) fun _ => moves_bind (w.pRef start) fun _ =>
      walkLoop_moves w hf nd _ _ start

theorem walkBudget_moves (budget : ℕ) (parent : Option Pno) (nd : Nameidata) :
    Moves R (walkBudget e budget parent nd) := by
  induction budget generalizing parent nd with
  | zero => exact walkFrom_moves w (fun _ h => by simp at h) parent nd
  | succ budget ih =>
    refine walkFrom_moves w (fun walk hw p nd => ?_) parent nd
    obtain rfl := Option.some.inj hw
    exact ih (some p) nd

theorem sysioNamei_moves (parent : Option Pno) (path : Option Bytes) (flags : ℕ)
    (intnt : Option Intent) : Moves R (sysioNamei e parent path flags intnt) :=
  moves_bind (moves_read _) fun _ => walkBudget_moves w _ _ _

end Walk

end CoreMoves
