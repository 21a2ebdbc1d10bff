import DirectFuse.ListedNodes
import DirectFuse.PlainRuns

/-! The path nodes and the mounts in every state a program can bring the library with the fuse driver
to: the nodes form a forest, the tree of each mount stands on the root of the mount, and no node lies
in a mount that is gone. -/
namespace SoundRuns

open ExecLogic SysioState SysioInode SysioNamei SysioMount SysioFile SysioInterface SysioSystem
open FuseDriver FuseSystem CoreMoves FuseMoves CallMoves CallRules PathRefs NameForest PruneForest
open GrowForest FusePlain WalkForest MountForest ListedNodes PlainRuns

variable {D : Type}

/-- The nodes and the mounts fit together, mounts are numbered in the order they are made, and no
name lies above the root of a mount. -/
structure Fitted (s : Sys D) : Prop where
  sound : Sound s
  bound : ∀ m : ℕ, s.mt.nextMount ≤ m → s.mt.mount m = none
  apex : ∀ p, isRoot s.mt p → ∀ r, s.nc.base (s.nc.pnode p).base = some r → r.parent = none

def Fits (s t : Sys D) : Prop := Fitted s → Fitted t

instance : IsPreorder (Sys D) Fits where
  refl _ hs := hs
  trans _ _ _ k l hs := l (k hs)

section Quiet

variable {s t : Sys D}

theorem fits_of_shape (shape : SameShape s.nc t.nc) (mount : t.mt.mount = s.mt.mount)
    (next : s.mt.nextMount ≤ t.mt.nextMount) : Fits s t := by
  intro hs
  constructor
  · exact hs.sound.of_mounts shape mount
  · intro m hm
    rw [mount]
    exact hs.bound m (Nat.le_trans next hm)
  · intro p hp r' hr'
    rw [(links_eq (shape.pnode p)).2.1] at hr'
    obtain ⟨r, hr, hun⟩ := shape.some hr'
    have hp : isRoot s.mt p := by
      simpa only [isRoot, mount] using hp
    exact (congrArg PnodeBase.parent hun).symm.trans (hs.apex p hp r hr)

theorem fits_of_mt (shape : SameShape s.nc t.nc) (mt : t.mt = s.mt) : Fits s t := by
  apply fits_of_shape shape
  · rw [mt]
  · rw [mt]

theorem inos_fits (k : InosOnly s t) : Fits s t := fits_of_mt k.shape k.mt

theorem files_fits (k : FilesOnly s t) : Fits s t := by
  apply fits_of_mt
  · rw [k.nc]
    exact SameShape.refl _
  · exact k.mt

theorem scratch_fits (s t : Sys D) (k : Scratch s t) : Fits s t := inos_fits (off_inos k.driver.off)

theorem Fitted.of_kept (hs : Fitted s) (k : Kept (isRoot s.mt) s t) : Fitted t := by
  constructor
  · exact hs.sound.of_kept k
  · rw [k.mt]
    exact hs.bound
  · intro p hp r' hr'
    rw [k.mt] at hp
    rw [k.pruned.pnode] at hr'
    obtain ⟨r, hr, -, -, hpar⟩ := k.pruned.base _ r' hr'
    exact hpar.trans (hs.apex p hp r hr)

theorem pRef_fits (p : Pno) : Moves Fits (pRef p : Sysio D Unit) :=
  fun s u t run => fits_of_mt (pRef_shape run).1 (pRef_names p s u t run).mt

theorem pRele_fits (p : Pno) : Moves Fits (pRele p : Sysio D Unit) :=
  fun s u t run => fits_of_mt (pRele_shape run).1 (pRele_names p s u t run).mt

/-- The root of the name space and the working directory have no part in it. -/
theorem place_fits (root cwd : Option Pno) :
    Moves Fits (Exec.write fun s => { s with mt.root := root, mt.cwd := cwd } : Sysio D Unit) :=
  moves_write fun _ => fits_of_shape (SameShape.refl _) rfl (Nat.le_refl _)

end Quiet

section Names

variable {e : Env D} (gone : ∀ i, Moves OffInodes (e.ops.gone i))

include gone

theorem sysioPPrune_fits (p : Pno) : Moves Fits (sysioPPrune e p) :=
  fun s k t run hs => hs.of_kept
    (sysioPPrune_prunes gone p s k t run hs.sound.forest hs.sound.rooted)

theorem sysioPbGone_fits (b : PbId) : Moves Fits (sysioPbGone e b) :=
  fun s u t run hs => hs.of_kept
    (sysioPbGone_prunes gone b s u t run hs.sound.forest hs.sound.rooted)

/-- A new base node for the root of a mount has no alias yet. -/
theorem rootBase_fits {ino : Option InoId} {s t : Sys D} {o : Option PbId} (hs : Fitted s)
    (run : sysioPbNew e ⟨[], 0⟩ none ino s = .ok (o, t)) : Fitted t ∧
      ∀ b, o = some b → ∃ r, t.nc.base b = some r ∧ r.aliases = [] ∧ r.parent = none := by
  obtain ⟨u, ok, v, hu, hv, hres⟩ := sysioPbNew_ok run
  have fitted : Fitted u := by
    rcases when_ok.mp hu with ⟨-, hu⟩ | ⟨-, rfl⟩
    · exact hs.of_kept (pReclaim_prunes gone s () u hu hs.sound.forest hs.sound.rooted)
    · exact hs
  have fitted : Fitted v := malloc_moves scratch_fits u ok v hv fitted
  rcases hres with ⟨rfl, rfl⟩ | ⟨rfl, -, -, rfl⟩
  · exact ⟨fitted, fun b hb => by cases hb⟩
  · have fresh : Fresh v.nc (nameless ⟨[], 0⟩ none ino) := by
      constructor
      case children => rfl
      case aliases => rfl
      case hashed => exact fun hne => absurd rfl hne
      case parent => exact fun q hq => by cases hq
      case unique => exact fun c rc q _ _ hq => by cases hq
    refine ⟨⟨fitted.sound.insertBase fresh, fitted.bound, ?_⟩, ?_⟩
    · intro p hp r' hr'
      rcases insertBase_some.mp hr' with ⟨-, rfl⟩ | ⟨-, r, hr, rfl⟩
      · rfl
      · have above : r.parent = none := fitted.apex p hp r hr
        split <;> exact above
    · rintro _ ⟨⟩
      exact ⟨_, insertBase_some.mpr (Or.inl ⟨rfl, rfl⟩), rfl, rfl⟩

/-- A name with an alias does not go. -/
theorem sysioPbGone_stranded {b : PbId} {s t : Sys D} {u : Unit} (stranded : Stranded b s) :
    sysioPbGone e b s ≠ .ok (u, t) := by
  intro run
  obtain ⟨root, p, forest, live, rfl⟩ := stranded
  obtain ⟨r, hr, none, -⟩ := sysioPbGone_forest gone forest run
  have alias_ := (forest.alias_ _ r hr p).mpr ⟨live, rfl⟩
  rw [none] at alias_
  cases alias_

end Names

section Mounts

variable {e : Env D} (ops : OpsMove OffInodes e)

include ops

theorem sysioDoUnmount_fits (fsopGone : ∀ f, Moves OffInodes (e.ops.fsopGone f)) (m : MntId) :
    Moves Fits (sysioDoUnmount e m) := by
  intro s err t run hs
  rcases sysioDoUnmount_cases ops fsopGone hs.sound run with ⟨-, kept⟩ |
    ⟨-, r, root, c, v, hr, hroot, -, -, -, -, kept, -, done⟩
  · exact hs.of_kept kept
  · have fitted : Fitted v := hs.of_kept kept
    constructor
    · exact done.sound
    · intro k hk
      rw [done.mt] at hk ⊢
      change Function.update v.mt.mount m none k = none
      by_cases hkm : k = m
      · rw [hkm, Function.update_self]
      · rw [Function.update_of_ne hkm]
        exact fitted.bound k hk
    · rintro p ⟨k, rk, hk, hp⟩ r' hr'
      rw [done.mt] at hk
      change Function.update v.mt.mount m none k = some rk at hk
      have hkm : k ≠ m := by
        rintro rfl
        rw [Function.update_self] at hk
        cases hk
      rw [Function.update_of_ne hkm] at hk
      have hne : p ≠ root := by
        rintro rfl
        obtain ⟨q, hq, -, hqk⟩ := fitted.sound.root k rk hk
        obtain ⟨q', hq', -, hqm⟩ := fitted.sound.root m r (by rw [kept.mt]; exact hr)
        obtain rfl : p = q := Option.some.inj (hp.symm.trans hq)
        obtain rfl : p = q' := Option.some.inj (hroot.symm.trans hq')
        exact hkm (hqk.symm.trans hqm)
      have hbase : (t.nc.pnode p).base = (v.nc.pnode p).base := by
        rw [done.node p hne]
        split <;> rfl
      rw [hbase] at hr'
      obtain ⟨r₀, hr₀, -, -, hpar⟩ := done.base _ r' hr'
      exact hpar.trans (fitted.apex p ⟨k, rk, hk, hp⟩ r₀ hr₀)

/-- A mount that fails leaves things as they are, or it strands the name it was made for. -/
theorem sysioDoMount_fits {s t : Sys D} {fs : FsId} {rootpb : PbId} {flags : ℕ}
    {tocover : Option Pno} {err : ℤ} {mnt : Option MntId} {r : PnodeBase} (hs : Fitted s)
    (hr : s.nc.base rootpb = some r) (top : r.parent = none)
    (run : sysioDoMount e fs rootpb flags tocover s = .ok ((err, mnt), t)) :
    Fitted t ∨ (err ≠ 0 ∧ Stranded rootpb t) := by
  rcases sysioDoMount_cases ops hs.sound hs.bound hr run with ⟨-, -, failed, -, -⟩ |
    ⟨failed, -, p, leftover⟩ | ⟨-, -, p, new, -⟩
  · left
    rcases failed.nc with same | same
    · refine fits_of_shape ?_ failed.mount failed.nextMount hs
      rw [same]
      exact SameShape.refl _
    · have grown : Fitted ({ s with nc := growth s.nc } : Sys D) := ⟨hs.sound.grow, hs.bound, hs.apex⟩
      have shape : SameShape (growth s.nc) t.nc := by
        rw [same]
        exact SameShape.refl _
      exact (fits_of_shape (s := { s with nc := growth s.nc }) shape failed.mount
        failed.nextMount) grown
  · exact Or.inr ⟨failed, leftover.stranded⟩
  · left
    obtain ⟨rm, hroot, mount⟩ := new.mount
    constructor
    · exact new.sound
    · intro k hk
      rw [new.nextMount] at hk
      have hne : k ≠ s.mt.nextMount := by
        have hk : s.mt.nextMount + 1 ≤ k := hk
        omega
      rw [mount, Function.update_of_ne hne]
      exact hs.bound k (Nat.le_of_succ_le hk)
    · rintro q ⟨k, rk, hk, hq⟩ r' hr'
      obtain ⟨r₀, hr₀, hpar⟩ := new.base _ r' hr'
      refine hpar.trans ?_
      rw [mount] at hk
      by_cases hkn : k = s.mt.nextMount
      · rw [hkn, Function.update_self] at hk
        obtain rfl := Option.some.inj hk
        obtain rfl : p = q := Option.some.inj (hroot.symm.trans hq)
        rw [new.new, hr] at hr₀
        obtain rfl := Option.some.inj hr₀
        exact top
      · rw [Function.update_of_ne hkn] at hk
        have old : isRoot s.mt q := ⟨k, rk, hk, hq⟩
        rw [new.old q (hs.sound.live old)] at hr₀
        exact hs.apex q old r₀ hr₀

end Mounts

section Fuse

variable {B : Type} {h : Host B}

theorem fuse_pbGone_fits (b : PbId) : Moves Fits (sysioPbGone (fuseEnv h) b) :=
  sysioPbGone_fits fuseEnv_off.gone b

/-- A mount that has stranded its name does not return from its error exit. -/
theorem mountRoot_fits (k : FinoId) (f : FsId) (rooti : InoId) (flags : ℕ) (tocover : Option Pno) :
    Moves Fits (do
      match ← sysioPbNew (fuseEnv h) ⟨[], 0⟩ none (some rooti) with
      | none => mountInitError h k (some f) (some rooti) none (-ENOMEM)
      | some rootpb => do
        let (err, mnt) ← sysioDoMount (fuseEnv h) f rootpb flags tocover
        if err ≠ 0 then
          mountInitError h k (some f) (some rooti) (some rootpb) err
        else
          return (0, mnt) : Fuse B (ℤ × Option MntId)) := by
  have failed := mountInitError_acts (h := h) (fun _ _ k => inos_fits k) fuse_pbGone_fits
  intro s res t run hs
  obtain ⟨rootpb, u, hnew, h1⟩ := bind_ok.mp run
  obtain ⟨fitted, made⟩ := rootBase_fits fuseEnv_off.gone hs hnew
  cases rootpb with
  | none => exact failed _ _ _ _ _ u res t h1 fitted
  | some b =>
    obtain ⟨r, hr, bare, top⟩ := made b rfl
    obtain ⟨⟨err, mnt⟩, v, hmount, h2⟩ := bind_ok.mp h1
    have mounted := sysioDoMount_fits fuseEnv_off fitted hr top hmount
    change (if err ≠ 0 then mountInitError h k (some f) (some rooti) (some b) err
      else pure (0, mnt) : Fuse B (ℤ × Option MntId)) v = _ at h2
    by_cases herr : err = 0
    · rw [if_neg (not_not.mpr herr)] at h2
      obtain ⟨-, rfl⟩ := pure_ok.mp h2
      exact mounted.resolve_right fun stranded => stranded.1 herr
    · rw [if_pos herr] at h2
      rcases mounted with fitted | ⟨-, stranded⟩
      · exact failed _ _ _ _ _ v res t h2 fitted
      · obtain ⟨_, w, hgone, -⟩ := bind_ok.mp h2
        exact absurd hgone (sysioPbGone_stranded fuseEnv_off.gone stranded)

theorem fsswLookup_fits (fstype : Bytes) (mount : FsswopMount (FuseData B))
    (hmount : fsswLookup h fstype = some mount) (source : Bytes) (flags : ℕ) (tocover : Option Pno) :
    Moves Fits (mount source flags fstype tocover) :=
  fsswLookup_moves (sysioFuseMountInit_acts (fun _ _ k => inos_fits k) fuse_pbGone_fits
    mountRoot_fits) fstype mount hmount source flags tocover

/-- What is tidy and fits together stays so. -/
def Wholes (s t : Sys (FuseData B)) : Prop := Tidy s ∧ Fitted s → Tidy t ∧ Fitted t

instance : IsPreorder (Sys (FuseData B)) Wholes where
  refl _ hs := hs
  trans _ _ _ k l hs := l (k hs)

theorem wholes_both (s t : Sys (FuseData B)) (k : Tidies s t) (l : Fits s t) : Wholes s t :=
  fun hs => ⟨k hs.1, l hs.2⟩

theorem moves_wholes {α : Type} {m : Fuse B α} (hp : Moves Tidies m) (hf : Moves Fits m) :
    Moves Wholes m :=
  fun s a t run => wholes_both s t (hp s a t run) (hf s a t run)

/-- A walk from any state, besides which nothing is held. It keeps the roots of the mounts. -/
theorem start_walked {s : Sys (FuseData B)} (plain : Plain s) (fitted : Fitted s) (n : ℕ) :
    Walked (refs s) (isRoot s.mt) s n [] s where
  held := held_self fitted.sound.forest.lists
  sound := fitted.sound
  stays := Stays.refl fun _ hp => fitted.sound.live hp
  plain := plain
  evolve := Std.Refl.refl s
  guard := Or.inl fun _ hp => ⟨fitted.sound.live hp, Or.inr (Or.inr hp)⟩

/-- The roots of the mounts are where they were. -/
theorem Fitted.of_stays {s t : Sys D} (hs : Fitted s) (stays : Stays (isRoot s.mt) s t)
    (sound : Sound t) : Fitted t := by
  constructor
  · exact sound
  · rw [stays.mt]
    exact hs.bound
  · intro p hp r' hr'
    rw [stays.mt] at hp
    obtain ⟨-, hl, -⟩ := stays.node p hp
    rw [(links_eq hl).2.1] at hr'
    obtain ⟨r₀, hr₀⟩ := hs.sound.forest.based p (hs.sound.live hp)
    have hlt : (s.nc.pnode p).base < s.nc.nextBase := hs.sound.forest.lt_nextBase hr₀
    obtain ⟨r, hr, -, hpar, -⟩ := stays.base _ r' hr' hlt
    exact hpar.trans (hs.apex p hp r hr)

theorem sysioNamei_wholes (parent : Option Pno) (path : Option Bytes) (flags : ℕ)
    (intnt : Option Intent) : Moves Wholes (sysioNamei (fuseEnv h) parent path flags intnt) := by
  intro s res t run hs
  obtain ⟨tidy, fitted⟩ := hs
  obtain ⟨walked, -⟩ := sysioNamei_walked (refs_nonneg s) parent path flags intnt s
    (start_walked tidy.plain fitted (0 + WalkRules.names path)) res t run
  exact ⟨evolve_tidies s t walked.evolve tidy, fitted.of_stays walked.stays walked.sound⟩

theorem whole_acts : ActMoves Wholes (fuseEnv h) :=
  tidy_acts.both wholes_both (fuse_acts (fun _ _ k => inos_fits k) fun _ _ k => files_fits k)

theorem step_wholes (call : Call) : Moves Wholes (step (fuseLibrary h) call) := by
  have w : PathMoves Wholes (fuseEnv h) :=
    ⟨(whole_acts (h := h)).scratch, sysioNamei_wholes, fun p =>
      moves_wholes (InodeMoves.outside_pRele (InodeMoves.outside_files outside_tidies) p) (pRele_fits p)⟩
  have prune : ∀ p, Moves Wholes (sysioPPrune (fuseEnv h) p) := fun p =>
    moves_wholes ((sysioPPrune_evolve p).mono evolve_tidies) (sysioPPrune_fits fuseEnv_off.gone p)
  have fnew : ∀ p flags, Moves Wholes (sysioFuseFnew (fuseEnv h) p flags) := fun p flags =>
    moves_bind (inoOf_moves p) fun _ => moves_bind (malloc_moves (whole_acts (h := h)).scratch) fun _ =>
    moves_ite (fun _ => moves_pure _) fun _ => moves_bind (nonNull_moves _) fun i =>
    moves_bind (moves_read _) fun _ => moves_bind (moves_write fun s => wholes_both _ _
      (outside_tidies _ _ rfl rfl) (fits_of_shape (SameShape.refl _) rfl (Nat.le_refl _))) fun _ =>
    moves_bind ((whole_acts (h := h)).iRef i) fun _ => moves_pure _
  have cwd : ∀ o, Moves Wholes (Exec.write fun s => { s with mt.cwd := o } : Fuse B Unit) :=
    fun o => moves_write fun s => wholes_both _ _ (outside_tidies _ _ rfl rfl)
      (fits_of_shape (SameShape.refl _) rfl (Nat.le_refl _))
  have fsopGone : ∀ f, Moves OffInodes ((fuseEnv h).ops.fsopGone f) := fun f =>
    (fuseFsopGone_driver f).mono fun _ _ k => k.off
  have umount : ∀ m, Moves Wholes (sysioDoUnmount (fuseEnv h) m) := fun m =>
    moves_wholes (InodeMoves.doUnmount_moves (InodeMoves.outside_files outside_tidies) tidy_acts.iRele fsRele_tidies m)
      (sysioDoUnmount_fits fuseEnv_off fsopGone m)
  exact step_moves (acts_calls whole_acts w prune fnew cwd (fun fstype mount hm source flags tocover =>
    moves_wholes (fsswLookup_tidies fstype mount hm source flags tocover)
      (fsswLookup_fits fstype mount hm source flags tocover)) umount) call

theorem initState_forest (b : B) :
    Forest (isRoot (initState (initData b)).mt) (initState (initData b)).nc where
  nodup := List.nodup_nil
  freeNodup := List.nodup_nil
  apart _ hp := by cases hp
  pnodeBound _ hp := by rcases hp with hp | hp <;> cases hp
  baseBound _ _ := rfl
  alias_ _ _ hr := by cases hr
  aliasNodup _ _ hr := by cases hr
  based _ hp := by cases hp
  child _ _ hr := by cases hr
  childNodup _ _ hr := by cases hr
  parent _ _ _ hr := by cases hr
  chain _ b := by
    constructor
    · intro hb
      cases hb
    · rintro ⟨_, hr, -⟩
      cases hr
  chainNodup _ := List.nodup_nil
  hashed _ _ hr := by cases hr
  unique _ _ _ _ _ hr := by cases hr
  nNames := rfl
  inside _ hp := by cases hp
  oneAlias _ hp := by cases hp

theorem initState_fitted (b : B) : Fitted (initState (initData b)) where
  sound :=
    { forest := initState_forest b
      root := fun _ _ hr => by cases hr
      mounted := fun _ hp => by cases hp }
  bound _ _ := rfl
  apex := by
    rintro _ ⟨_, _, hr, -⟩
    cases hr

/-- Nodes and mounts fit together in every state reached. -/
theorem reached_fitted {b : B} {ok : Sys (FuseData B) → Call → Prop} {s : Sys (FuseData B)}
    (run : FuseReached h b ok s) : Tidy s ∧ Fitted s := by
  obtain ⟨s₀, boot, run⟩ := run
  refine run.invariant (I := fun s => Tidy s ∧ Fitted s) (fun s call a t hs _ last => ?_) ?_
  · exact step_wholes call s a t last hs
  · constructor
    · exact sysioMountRoot_moves fsswLookup_tidies
        (fun _ _ => InodeMoves.outside_mounts (InodeMoves.outside_files outside_tidies) _)
        (InodeMoves.outside_pRef (InodeMoves.outside_files outside_tidies)) [] fuseTypeName 2 _ _ _ boot
        (initState_tidy b)
    · exact sysioMountRoot_moves fsswLookup_fits place_fits pRef_fits [] fuseTypeName 2 _ _ _ boot
        (initState_fitted b)

end Fuse

end SoundRuns
