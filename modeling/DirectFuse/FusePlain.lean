import DirectFuse.FuseMoves

/-! What looking names up and pruning them do to the inodes and to the driver's records. The inodes
of fuse file systems are immune against reclaiming and none is a symbolic link; records go, none is
rewritten, and the backends hear nothing. -/
namespace FusePlain

open ExecLogic SysioState SysioInode SysioNamei SysioMount SysioFile SysioInterface FuseDriver
open CoreMoves FuseMoves

variable {B : Type} {h : Host B}

/-- No inode can be reclaimed or is a symbolic link. -/
structure Plain (s : Sys (FuseData B)) : Prop where
  immune : ∀ i r, s.ic.inode i = some r → r.immune = true
  inode : ∀ i r, s.ic.inode i = some r → r.stbuf.isLnk = false
  finode : ∀ k f, s.drv.finode k = some f → f.st.isLnk = false

theorem Plain.of_eq {s t : Sys (FuseData B)} (hs : Plain s) (inode : t.ic.inode = s.ic.inode)
    (finode : t.drv.finode = s.drv.finode) : Plain t :=
  ⟨by rw [inode]; exact hs.immune, by rw [inode]; exact hs.inode, by rw [finode]; exact hs.finode⟩

/-- Everything but the name cache and the allocator's bookkeeping is the same. -/
structure NamesOnly {D : Type} (s t : Sys D) : Prop where
  ic : t.ic = s.ic
  mt : t.mt = s.mt
  ft : t.ft = s.ft
  aio : t.aio = s.aio
  umask : t.umask = s.umask
  drv : t.drv = s.drv

instance {D : Type} : IsPreorder (Sys D) NamesOnly where
  refl _ := ⟨rfl, rfl, rfl, rfl, rfl, rfl⟩
  trans _ _ _ h k := ⟨k.ic.trans h.ic, k.mt.trans h.mt, k.ft.trans h.ft, k.aio.trans h.aio,
    k.umask.trans h.umask, k.drv.trans h.drv⟩

section Names

variable {D : Type}

theorem names_write {f : Sys D → NameCache} :
    Moves NamesOnly (Exec.write fun s => { s with nc := f s } : Sysio D Unit) :=
  moves_write fun _ => ⟨rfl, rfl, rfl, rfl, rfl, rfl⟩

theorem modBase_names (b : PbId) (f : PnodeBase → PnodeBase) :
    Moves NamesOnly (modBase b f : Sysio D Unit) :=
  moves_bind (baseAt_moves b) fun _ => names_write

theorem pRef_names (p : Pno) : Moves NamesOnly (pRef p : Sysio D Unit) :=
  moves_bind (moves_check _ _) fun _ => names_write

theorem pRele_names (p : Pno) : Moves NamesOnly (pRele p : Sysio D Unit) :=
  moves_bind (moves_check _ _) fun _ => names_write

theorem setPnode_names (p : Pno) (n : Pnode) : Moves NamesOnly (setPnode p n : Sysio D Unit) :=
  names_write

theorem pbDestroy_names (b : PbId) : Moves NamesOnly (pbDestroy b : Sysio D Unit) :=
  moves_bind (moves_check _ _) fun _ => moves_bind names_write fun _ =>
    moves_bind (baseAt_moves b) fun _ => moves_bind (assert_moves _) fun _ =>
    moves_bind (assert_moves _) fun _ => moves_bind (assert_moves _) fun _ =>
    moves_bind (moves_when fun _ => names_write) fun _ =>
    moves_bind (ifSome_moves fun q _ => modBase_names q _) fun _ => names_write

end Names

/-- Inodes and fuse inodes may have gone, no number is used again, and the inodes stay plain. -/
structure Evolve (s t : Sys (FuseData B)) : Prop where
  inode : ∀ (i : ℕ) r', t.ic.inode i = some r' → i < s.ic.nextInode →
    ∃ r, s.ic.inode i = some r ∧ r'.priv = r.priv
  nextInode : s.ic.nextInode ≤ t.ic.nextInode
  finode : ∀ k f, t.drv.finode k = some f → s.drv.finode k = some f
  nextFino : t.drv.nextFino = s.drv.nextFino
  nextFi : t.drv.nextFi = s.drv.nextFi
  calls : t.drv.calls = s.drv.calls
  plain : Plain s → Plain t

instance : IsPreorder (Sys (FuseData B)) Evolve where
  refl _ := ⟨fun _ r h _ => ⟨r, h, rfl⟩, Nat.le_refl _, fun _ _ hf => hf, rfl, rfl, rfl, fun hs => hs⟩
  trans s t u k l := by
    refine ⟨fun i r'' hr hi => ?_, Nat.le_trans k.nextInode l.nextInode,
      fun i f hf => k.finode i f (l.finode i f hf), l.nextFino.trans k.nextFino,
      l.nextFi.trans k.nextFi, l.calls.trans k.calls, fun hs => l.plain (k.plain hs)⟩
    obtain ⟨r', hr', hp'⟩ := l.inode i r'' hr (Nat.lt_of_lt_of_le hi k.nextInode)
    obtain ⟨r, hr, hp⟩ := k.inode i r' hr' hi
    exact ⟨r, hr, hp'.trans hp⟩

theorem evolve_of_eq (s t : Sys (FuseData B)) (ic : t.ic = s.ic) (drv : t.drv = s.drv) :
    Evolve s t := by
  refine ⟨fun i r' hr _ => ⟨r', ?_, rfl⟩, Nat.le_of_eq (by rw [ic]), fun k f hf => ?_, by rw [drv],
    by rw [drv], by rw [drv], fun hs => hs.of_eq (by rw [ic]) (by rw [drv])⟩
  · rw [ic] at hr
    exact hr
  · rw [drv] at hf
    exact hf

theorem names_evolve (s t : Sys (FuseData B)) (k : NamesOnly s t) : Evolve s t :=
  evolve_of_eq s t k.ic k.drv

theorem scratch_evolve (s t : Sys (FuseData B)) (k : Scratch s t) : Evolve s t :=
  evolve_of_eq s t k.ic k.drv

/-- A rewritten inode that keeps its fuse inode and stays plain. -/
theorem update_evolve {i : InoId} {r r' : Inode} {s t : Sys (FuseData B)}
    (hr : s.ic.inode i = some r)
    (inode : t.ic.inode = Function.update s.ic.inode i (some r')) (drv : t.drv = s.drv)
    (next : t.ic.nextInode = s.ic.nextInode) (priv : r'.priv = r.priv)
    (plain : Plain s → r'.immune = true ∧ r'.stbuf.isLnk = false) : Evolve s t := by
  have cases_ : ∀ j rj, t.ic.inode j = some rj → (j = i ∧ rj = r') ∨ s.ic.inode j = some rj := by
    intro j rj hj
    rw [inode] at hj
    by_cases hji : j = i
    · subst hji
      rw [Function.update_self] at hj
      exact Or.inl ⟨rfl, (Option.some.inj hj).symm⟩
    · rw [Function.update_of_ne hji] at hj
      exact Or.inr hj
  constructor
  case inode =>
    intro j rj hj _
    rcases cases_ j rj hj with ⟨rfl, rfl⟩ | hj
    · exact ⟨r, hr, priv⟩
    · exact ⟨rj, hj, rfl⟩
  case nextInode => exact Nat.le_of_eq next.symm
  case finode =>
    intro k f hf
    rw [drv] at hf
    exact hf
  case nextFino => rw [drv]
  case nextFi => rw [drv]
  case calls => rw [drv]
  case plain =>
    intro hs
    refine ⟨fun j rj hj => ?_, fun j rj hj => ?_, by rw [drv]; exact hs.finode⟩
    · rcases cases_ j rj hj with ⟨rfl, rfl⟩ | hj
      · exact (plain hs).1
      · exact hs.immune j rj hj
    · rcases cases_ j rj hj with ⟨rfl, rfl⟩ | hj
      · exact (plain hs).2
      · exact hs.inode j rj hj

/-- An inode or a fuse inode that goes. -/
theorem fewer_evolve {s t : Sys (FuseData B)}
    (inode : ∀ i r, t.ic.inode i = some r → s.ic.inode i = some r)
    (next : t.ic.nextInode = s.ic.nextInode)
    (finode : ∀ k f, t.drv.finode k = some f → s.drv.finode k = some f)
    (nextFino : t.drv.nextFino = s.drv.nextFino) (nextFi : t.drv.nextFi = s.drv.nextFi)
    (calls : t.drv.calls = s.drv.calls) : Evolve s t :=
  ⟨fun i r hr _ => ⟨r, inode i r hr, rfl⟩, Nat.le_of_eq next.symm, finode, nextFino, nextFi, calls,
    fun hs => ⟨fun i r hr => hs.immune i r (inode i r hr), fun i r hr => hs.inode i r (inode i r hr),
      fun k f hf => hs.finode k f (finode k f hf)⟩⟩

section Inodes

theorem same_evolve {α : Type} {m : Fuse B α} (hm : Moves Eq m) : Moves Evolve m :=
  hm.mono fun s t he => by rw [he]; exact Std.Refl.refl t

theorem iRef_evolve (i : InoId) : Moves Evolve (iRef i : Fuse B Unit) := by
  intro s u t run
  obtain ⟨r, _, hread, hwrite⟩ := bind_ok.mp run
  obtain ⟨hr, rfl⟩ := deref_ok.mp hread
  obtain rfl := write_ok.mp hwrite
  exact update_evolve hr rfl rfl rfl rfl fun hs => ⟨hs.immune i r hr, hs.inode i r hr⟩

theorem sysioIFind_evolve (fs : FsId) (fid : ℕ) :
    Moves Evolve (sysioIFind fs fid : Fuse B (Option InoId)) := by
  refine moves_bind (fsAt_moves fs) fun f => moves_bind (itblSearch_moves _ _) fun found => ?_
  cases found with
  | none => exact moves_pure _
  | some i => exact moves_bind (iRef_evolve i) fun _ => moves_pure _

theorem fuseIDestory_evolve (k : FinoId) : Moves Evolve (fuseIDestory k : Fuse B Unit) := by
  refine moves_bind (moves_deref _ _) fun r => moves_bind (moves_deref _ _) fun l =>
    moves_write fun s => ?_
  refine fewer_evolve (fun _ _ hr => hr) rfl (fun j f hf => ?_) rfl rfl rfl
  have hf : Function.update s.drv.finode k none j = some f := hf
  by_cases hj : j = k
  · rw [hj, Function.update_self] at hf
    cases hf
  · rwa [Function.update_of_ne hj] at hf

theorem fuseInopGone_evolve (i : InoId) : Moves Evolve (fuseInopGone i : Fuse B Unit) :=
  moves_bind (moves_bind (inodeAt_moves i) fun _ => moves_pure _) fun k => fuseIDestory_evolve k

theorem setFs_evolve (f : FsId) (r : Filesys) : Moves Evolve (setFs f r : Fuse B Unit) :=
  moves_write fun _ => fewer_evolve (fun _ _ hr => hr) rfl (fun _ _ hf => hf) rfl rfl rfl

theorem itblRemove_evolve (i : InoId) (r : Inode) : Moves Evolve (itblRemove i r : Fuse B Unit) :=
  moves_bind (fsAt_moves _) fun _ => setFs_evolve _ _

variable {e : Env (FuseData B)} (gone : ∀ i, e.ops.gone i = fuseInopGone i)

include gone

theorem sysioIGone_evolve (i : InoId) : Moves Evolve (sysioIGone e i) := by
  refine moves_bind (inodeAt_moves i) fun r => moves_bind (moves_check _ _) fun _ =>
    moves_bind (moves_when fun _ => itblRemove_evolve i r) fun _ =>
    moves_bind (moves_write fun s => ?_) fun _ =>
    moves_bind (by rw [gone]; exact fuseInopGone_evolve i) fun _ =>
    moves_bind (moves_write fun s => ?_) fun _ => moves_bind (moves_check _ _) fun _ =>
    moves_write fun s => ?_
  · exact fewer_evolve (fun _ _ hr => hr) rfl (fun _ _ hf => hf) rfl rfl rfl
  · refine fewer_evolve (fun j r hr => ?_) rfl (fun _ _ hf => hf) rfl rfl rfl
    have hr : Function.update s.ic.inode i none j = some r := hr
    by_cases hj : j = i
    · rw [hj, Function.update_self] at hr
      cases hr
    · rwa [Function.update_of_ne hj] at hr
  · exact fewer_evolve (fun _ _ hr => hr) rfl (fun _ _ hf => hf) rfl rfl rfl

theorem iRele_evolve (i : InoId) : Moves Evolve (iRele e i) := by
  intro s u t run
  obtain ⟨r, _, hread, h1⟩ := bind_ok.mp run
  obtain ⟨hr, rfl⟩ := deref_ok.mp hread
  obtain ⟨_, _, hc, h2⟩ := bind_ok.mp h1
  obtain ⟨-, rfl⟩ := check_ok.mp hc
  obtain ⟨_, v, hw, h3⟩ := bind_ok.mp h2
  obtain rfl := write_ok.mp hw
  have k := moves_ite (fun _ => sysioIGone_evolve gone i) (fun _ => moves_pure _) _ _ _ h3
  refine IsTrans.trans _ _ _ ?_ k
  exact update_evolve hr rfl rfl rfl rfl fun hs => ⟨hs.immune i r hr, hs.inode i r hr⟩

theorem iReclaim_evolve : Moves Evolve (iReclaim e) :=
  iReclaim_moves (sysioIGone_evolve gone) fun _ _ =>
    fewer_evolve (fun _ _ hr => hr) rfl (fun _ _ hf => hf) rfl rfl rfl

/-- A new inode is plain when its attributes are. -/
theorem sysioINew_evolve {fs : FsId} {fid : ℕ} {stat : Stat} {priv : ℕ}
    {s t : Sys (FuseData B)} {o : Option InoId} (hstat : Plain s → stat.isLnk = false)
    (run : sysioINew e fs fid stat true priv s = .ok (o, t)) : Evolve s t := by
  obtain ⟨ic, _, hread, h1⟩ := bind_ok.mp run
  obtain ⟨-, rfl⟩ := read_ok.mp hread
  obtain ⟨_, v, hv, h2⟩ := bind_ok.mp h1
  have kv : Evolve s v := moves_when (fun _ => iReclaim_evolve gone) _ _ _ hv
  obtain ⟨ok, w, hw, h3⟩ := bind_ok.mp h2
  have kw : Evolve v w := malloc_moves scratch_evolve _ _ _ hw
  have k : Evolve s w := IsTrans.trans _ _ _ kv kw
  split at h3
  · obtain ⟨-, rfl⟩ := pure_ok.mp h3
    exact k
  · simp only [bind_ok, read_ok, fsAt, deref_ok, write_ok, setFs, pure_ok] at h3
    obtain ⟨i, _, ⟨rfl, rfl⟩, f, _, ⟨-, rfl⟩, _, _, rfl, _, _, rfl, -, rfl⟩ := h3
    have old : ∀ (j : ℕ) rj, Function.update w.ic.inode w.ic.nextInode
        (some ⟨true, false, 1, stat, fs, fid, priv⟩) j = some rj →
        (j = w.ic.nextInode ∧ rj = ⟨true, false, 1, stat, fs, fid, priv⟩) ∨
          w.ic.inode j = some rj := by
      intro j rj hj
      by_cases hji : j = w.ic.nextInode
      · rw [hji, Function.update_self] at hj
        exact Or.inl ⟨hji, (Option.some.inj hj).symm⟩
      · rw [Function.update_of_ne hji] at hj
        exact Or.inr hj
    constructor
    case inode =>
      intro j rj hj hlt
      rcases old j rj hj with ⟨rfl, -⟩ | hj
      · exact absurd (Nat.lt_of_lt_of_le hlt k.nextInode) (Nat.lt_irrefl _)
      · exact k.inode j rj hj hlt
    case nextInode => exact Nat.le_succ_of_le k.nextInode
    case finode => exact k.finode
    case nextFino => exact k.nextFino
    case nextFi => exact k.nextFi
    case calls => exact k.calls
    case plain =>
      intro hs
      have hw := k.plain hs
      refine ⟨fun j rj hj => ?_, fun j rj hj => ?_, hw.finode⟩
      · rcases old j rj hj with ⟨rfl, rfl⟩ | hj
        · rfl
        · exact hw.immune j rj hj
      · rcases old j rj hj with ⟨rfl, rfl⟩ | hj
        · exact hstat hs
        · exact hw.inode j rj hj

omit gone in
/-- Looking a name up in a directory. An inode that is known stays what it is. -/
theorem fuseInopLookup_evolve (p : Pno) (o : Option InoId) : Moves Evolve (fuseInopLookup h p o) := by
  cases o with
  | some i =>
    intro s res t run
    simp only [fuseInopLookup, i2fi, finodeAt, inodeAt, setInode, bind_ok, deref_ok, pure_ok,
      write_ok] at run
    obtain ⟨k, _, ⟨r, _, ⟨hr, rfl⟩, rfl, rfl⟩, fino, _, ⟨hf, rfl⟩, r', _, ⟨hr', rfl⟩, _, _, rfl,
      -, rfl⟩ := run
    exact update_evolve hr' rfl rfl rfl rfl fun hs => ⟨hs.immune i r' hr', hs.finode _ fino hf⟩
  | none =>
    refine moves_bind (pnodeAt_moves p) fun n => moves_bind (inoOf_moves _) fun d =>
      moves_bind (nonNull_moves _) fun d => moves_bind (inodeAt_moves d) fun rd =>
      moves_bind (baseAt_moves _) fun r => moves_bind (same_evolve (moves_bind (moves_deref _ _)
      fun _ => nonNull_moves _)) fun data => ?_
    cases fuseDirectoryProbe data r.name.name with
    | none => exact moves_pure _
    | some de =>
      refine moves_bind (sysioIFind_evolve _ _) fun found => ?_
      cases found with
      | some i => exact moves_pure _
      | none =>
        intro s res t run
        obtain ⟨fino, _, hread, h1⟩ := bind_ok.mp run
        obtain ⟨hf, rfl⟩ := deref_ok.mp hread
        obtain ⟨made, v, hv, h2⟩ := bind_ok.mp h1
        have k := sysioINew_evolve (fun _ => rfl) (fun hs => hs.finode _ fino hf) hv
        cases made <;>
        · obtain ⟨-, rfl⟩ := pure_ok.mp h2
          exact k

omit gone in
/-- What a look-up answers: a bound name keeps its inode. -/
theorem fuseInopLookup_answer {p : Pno} {i : InoId} {s t : Sys (FuseData B)}
    {res : ℤ × Option InoId} (run : fuseInopLookup h p (some i) s = .ok (res, t)) :
    res = (0, some i) := by
  simp only [fuseInopLookup, bind_ok, pure_ok] at run
  obtain ⟨_, _, -, _, _, -, _, _, -, _, _, -, rfl, -⟩ := run
  rfl

end Inodes

section Prune

theorem sysioPbGone_evolve (b : PbId) : Moves Evolve (sysioPbGone (fuseEnv h) b) :=
  moves_bind (baseAt_moves b) fun _ =>
    moves_bind (ifSome_moves fun i _ => iRele_evolve (fun _ => rfl) i) fun _ =>
    moves_bind ((modBase_names b _).mono names_evolve) fun _ =>
    (pbDestroy_names b).mono names_evolve

theorem sysioPGone_evolve (p : Pno) : Moves Evolve (sysioPGone (fuseEnv h) p) :=
  moves_bind (pnodeAt_moves p) fun _ => moves_bind (assert_moves _) fun _ =>
    moves_bind (assert_moves _) fun _ => moves_bind (moves_check _ _) fun _ =>
    moves_bind (names_write.mono names_evolve) fun _ =>
    moves_bind ((modBase_names _ _).mono names_evolve) fun _ => moves_bind (baseAt_moves _) fun _ =>
    moves_bind (moves_when fun _ => sysioPbGone_evolve _) fun _ => names_write.mono names_evolve

theorem sysioPPrune_evolve (p : Pno) : Moves Evolve (sysioPPrune (fuseEnv h) p) :=
  sysioPPrune_moves sysioPbGone_evolve sysioPGone_evolve p

theorem pReclaim_evolve : Moves Evolve (pReclaim (fuseEnv h)) := by
  refine pReclaim_moves (fun p => ?_) fun s k => evolve_of_eq _ _ rfl rfl
  refine moves_bind (pnodeAt_moves p) fun n => moves_ite (fun _ => moves_read _) fun _ =>
    moves_bind ((setPnode_names p _).mono names_evolve) fun _ =>
    moves_bind (sysioPPrune_evolve p) fun _ => moves_bind (moves_read _) fun next =>
    moves_bind ((pRele_names p).mono names_evolve) fun _ => moves_bind (pnodeAt_moves p) fun n' =>
    moves_ite (fun _ => moves_pure _) fun _ => moves_bind (sysioPPrune_evolve p) fun _ =>
    moves_pure _

end Prune

end FusePlain
