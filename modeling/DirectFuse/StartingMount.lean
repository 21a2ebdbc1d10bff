import DirectFuse.SoundRuns
import DirectFuse.MountPrefix
import DirectFuse.WalkFold
import DirectFuse.OtherOps

/-! Where the node lies that a call with a prefixed path is applied to. The prefix picks the node the
walk starts at only if no separator follows the colon; from there the walk stays in the mount unless
it comes to a node that is covered. -/
namespace StartingMount

open ExecLogic SysioState SysioInode SysioNamei SysioMount SysioFile SysioInterface SysioSystem
open FuseDriver FuseSystem CoreMoves FuseMoves CallMoves PathRefs WalkRules NameForest PruneForest
open GrowForest FusePlain WalkForest MountForest PlainRuns SoundRuns MountPrefix
open WalkFold (pathNames components_names SameLinks pRef_links pRele_links findAlias_links)
open DeviceIdentity (secondMount)
open OtherOps (resolve onMount_run)

variable {D : Type}

/-- The names `names` lead from the name `top` down to another one. -/
inductive Descends (nc : NameCache) (top : PbId) : List Bytes → PbId → Prop where
  | here : Descends nc top [] top
  | child {names c d r} (above : Descends nc top names c) (record : nc.base d = some r)
      (parent : r.parent = some c) : Descends nc top (names ++ [r.name.name]) d

/-- The names of a path without those that mean the directory itself. -/
def onward (names : List Bytes) : List Bytes := names.filter (· ≠ [DOT])

/-- On the way from `q` along `names` lies a mount point: some head of the names leads to a node of
the same mount that another node covers. -/
def Crosses (nc : NameCache) (q : Pno) (names : List Bytes) : Prop :=
  ∃ head x c, head ≠ [] ∧ head <+: names ∧ x ∈ nc.pnodes ∧
    (nc.pnode x).mount = (nc.pnode q).mount ∧ (nc.pnode x).cover = some c ∧ c ≠ x ∧
    Descends nc (nc.pnode q).base (onward head) (nc.pnode x).base

section Names

variable {nc nc' : NameCache} {top b : PbId} {names : List Bytes}

/-- The way to a name that is still there is still the same. -/
theorem Descends.transfer (d : Descends nc top names b)
    (agree : ∀ c r r', nc.base c = some r → nc'.base c = some r' →
      r'.name = r.name ∧ r'.parent = r.parent)
    (above : ∀ c r' q, nc'.base c = some r' → r'.parent = some q → ∃ rq, nc'.base q = some rq)
    (there : ∃ r', nc'.base b = some r') : Descends nc' top names b := by
  induction d with
  | here => exact Descends.here
  | child _ record parent ih =>
    obtain ⟨r', hr'⟩ := there
    obtain ⟨name, up⟩ := agree _ _ _ record hr'
    rw [← name]
    apply Descends.child
    · exact ih (above _ r' _ hr' (up.trans parent))
    · exact hr'
    · exact up.trans parent

theorem Descends.of_shape (d : Descends nc top names b) (shape : SameShape nc nc') :
    Descends nc' top names b := by
  induction d with
  | here => exact Descends.here
  | @child names c d r _ record parent ih =>
    have hd := shape.base d
    rw [record] at hd
    obtain ⟨r', hr', hun⟩ := Option.map_eq_some_iff.mp hd
    have name := congrArg PnodeBase.name hun
    have up := congrArg PnodeBase.parent hun
    change r'.name = r.name at name
    change r'.parent = r.parent at up
    rw [← name]
    apply Descends.child
    · exact ih
    · exact hr'
    · exact up.trans parent

theorem onward_dot (names : List Bytes) : onward (names ++ [[DOT]]) = onward names := by
  simp [onward]

theorem onward_name {name : Bytes} (h : name ≠ [DOT]) :
    onward (names ++ [name]) = onward names ++ [name] := by
  simp [onward, h]

theorem Crosses.longer {q : Pno} (h : Crosses nc q names) (more : List Bytes) :
    Crosses nc q (names ++ more) := by
  obtain ⟨head, x, c, hne, hp, rest⟩ := h
  exact ⟨head, x, c, hne, hp.trans (List.prefix_append names more), rest⟩

end Names

/-- The node lies in the mount `m`, and the names lead to it from the name `b`. -/
structure Below (nc : NameCache) (m : MntId) (b : PbId) (names : List Bytes) (p : Pno) : Prop where
  mount : (nc.pnode p).mount = m
  path : Descends nc b (onward names) (nc.pnode p).base

section Steps

variable {s t : Sys D} {m : MntId} {b : PbId} {names : List Bytes} {p : Pno}

theorem stays_agree {safe : Pno → Prop} (k : WalkForest.Stays safe s t) (hs : Sound s) (c : PbId)
    (r r' : PnodeBase) (hr : s.nc.base c = some r) (hr' : t.nc.base c = some r') :
    r'.name = r.name ∧ r'.parent = r.parent := by
  obtain ⟨r₀, hr₀, name, up, -⟩ := k.base c r' hr' (hs.forest.lt_nextBase hr)
  obtain rfl : r = r₀ := Option.some.inj (hr.symm.trans hr₀)
  exact ⟨name, up⟩

theorem sound_above (hs : Sound s) (c : PbId) (r : PnodeBase) (q : PbId)
    (hr : s.nc.base c = some r) (up : r.parent = some q) : ∃ rq, s.nc.base q = some rq :=
  (hs.forest.parent c r q hr up).2

/-- A node that was there was where it is. -/
theorem Below.back {safe : Pno → Prop} (h : Below t.nc m b names p)
    (k : WalkForest.Stays safe s t) (hs : Sound s) (live : p ∈ s.nc.pnodes)
    (same : links (t.nc.pnode p) = links (s.nc.pnode p)) : Below s.nc m b names p := by
  obtain ⟨-, base, mount⟩ := links_eq same
  constructor
  · rw [← mount]
    exact h.mount
  · have there := hs.forest.based p live
    have path := h.path
    rw [base] at path
    refine path.transfer (fun c r r' hr hr' => ?_) (sound_above hs) there
    obtain ⟨name, up⟩ := stays_agree k hs c r' r hr' hr
    exact ⟨name.symm, up.symm⟩

theorem Below.of_shape (h : Below s.nc m b names p) (shape : SameShape s.nc t.nc) :
    Below t.nc m b names p := by
  obtain ⟨-, base, mount⟩ := links_eq (shape.pnode p)
  constructor
  · rw [mount]
    exact h.mount
  · rw [base]
    exact h.path.of_shape shape

/-- The cover loop stays at a node that nothing else covers. -/
theorem toTopCover_cases {fuel : ℕ} {q : Pno} (run : toTopCover fuel p s = .ok (q, t)) :
    (q = p ∧ t = s) ∨ ∃ c, (s.nc.pnode p).cover = some c ∧ c ≠ p := by
  cases fuel with
  | zero => cases run
  | succ fuel =>
    obtain ⟨n, _, hread, h1⟩ := bind_ok.mp run
    obtain ⟨rfl, rfl⟩ := read_ok.mp hread
    cases hcover : (s.nc.pnode p).cover with
    | none =>
      rw [hcover] at h1
      obtain ⟨rfl, rfl⟩ := pure_ok.mp h1
      exact Or.inl ⟨rfl, rfl⟩
    | some c =>
      rw [hcover] at h1
      by_cases hc : c = p
      · change (if c = p then pure p else _ : Sysio D Pno) s = _ at h1
        rw [if_pos hc] at h1
        obtain ⟨rfl, rfl⟩ := pure_ok.mp h1
        exact Or.inl ⟨rfl, rfl⟩
      · exact Or.inr ⟨c, rfl, hc⟩

end Steps

section Walk

variable {B : Type} {h : Host B} {r : Pno → ℤ} {s₀ s t : Sys (FuseData B)} {n : ℕ}
  {own : List Pno} {m : MntId} {b : PbId} {names : List Bytes} {cur p : Pno}

/-- A walk on the way may be taken to begin where it is. -/
theorem again {safe : Pno → Prop} (w : Walked r safe s₀ n own s) : Walked r (isRoot s.mt) s n own s where
  held := w.held
  sound := w.sound
  stays := Stays.refl fun _ hp => w.sound.live hp
  plain := w.plain
  evolve := Std.Refl.refl s
  guard := Or.inl fun _ hp => ⟨w.sound.live hp, Or.inr (Or.inr hp)⟩

/-- An alias of a child lies beside its parent: a root has no name above its own. -/
theorem alias_beside {d : PbId} {rd : PnodeBase} (fitted : Fitted s) (hrd : s.nc.base d = some rd)
    (up : rd.parent = some (s.nc.pnode cur).base) (mem : p ∈ rd.aliases)
    (hp : (s.nc.pnode p).parent = cur) :
    (s.nc.pnode p).mount = (s.nc.pnode cur).mount ∧ (s.nc.pnode p).base = d := by
  obtain ⟨live, base⟩ := (fitted.sound.forest.alias_ d rd hrd p).mp mem
  have below : ¬ isRoot s.mt p := by
    intro hroot
    rw [fitted.apex p hroot rd (by rw [base]; exact hrd)] at up
    cases up
  obtain ⟨-, mount, -⟩ := fitted.sound.forest.inside p live below
  rw [hp] at mount
  exact ⟨mount.symm, base⟩

/-- A new alias is put where it belongs. -/
theorem newAlias_beside {e : Env D} {s t : Sys D} {parent : Option Pno} {d : PbId} {mnt : MntId}
    {rd : PnodeBase} (hrd : s.nc.base d = some rd)
    (run : sysioPNewAlias e parent d mnt s = .ok (some p, t)) :
    (t.nc.pnode p).mount = mnt ∧ (t.nc.pnode p).base = d ∧
      ∃ r, t.nc.base d = some r ∧ r.name = rd.name ∧ r.parent = rd.parent := by
  obtain ⟨u, hu, hres⟩ := sysioPNewAlias_ok run
  have base : u.nc.base = s.nc.base := by
    rcases when_ok.mp hu with ⟨-, hu⟩ | ⟨-, rfl⟩
    · rcases morePnodes_ok hu with hk | ⟨v, hk, rfl⟩
      · rw [hk.nc]
      · change v.nc.base = _
        rw [hk.nc]
    · rfl
  rcases hres with ⟨hnone, -⟩ | ⟨q, r, hq, -, -, rfl⟩
  · cases hnone
  · obtain rfl := Option.some.inj hq
    have node : (insertPnode u.nc p (newPnode p parent d mnt)).pnode p = newPnode p parent d mnt :=
      Function.update_self ..
    refine ⟨congrArg Pnode.mount node, congrArg Pnode.base node, addAlias p rd, ?_, rfl, rfl⟩
    refine insertPnode_some.mpr ⟨rd, ?_, if_pos rfl⟩
    rw [base]
    exact hrd

/-- A name leads to a child of the node it is looked up in, and to the same mount. -/
theorem findAlias_child {name : Qstr} {err : ℤ} (hr : ∀ q, 0 ≤ r q) (fitted : Fitted s₀)
    (w : Walked r (isRoot s₀.mt) s₀ (n + 1) own s) (hname : Hashed name)
    (run : sysioPFindAlias (fuseEnv h) cur name s = .ok ((err, some p), t)) :
    (t.nc.pnode p).mount = (s.nc.pnode cur).mount ∧
      ∃ r, t.nc.base (t.nc.pnode p).base = some r ∧ r.parent = some (s.nc.pnode cur).base ∧
        r.name.name = name.name := by
  obtain ⟨nc, _, hread, h1⟩ := bind_ok.mp run
  obtain ⟨rfl, rfl⟩ := read_ok.mp hread
  obtain ⟨found, v, hv, h2⟩ := bind_ok.mp h1
  obtain ⟨wv, same, hfound⟩ := findBase_grows (walked_growth hr) fuseEnv_off.gone w hname hv
  cases found with
  | none =>
    obtain ⟨hres, -⟩ := pure_ok.mp h2
    cases hres
  | some d =>
    obtain ⟨rd, hrd, up, hn⟩ := hfound d rfl
    obtain ⟨rd', _, hread, h3⟩ := bind_ok.mp h2
    obtain ⟨hrd', rfl⟩ := deref_ok.mp hread
    obtain rfl : rd' = rd := Option.some.inj (hrd'.symm.trans hrd)
    obtain ⟨known, _, ha, h4⟩ := bind_ok.mp h3
    obtain rfl : v = _ := findAliasOf_moves (R := Eq) _ _ _ _ _ ha
    cases known with
    | some q =>
      obtain ⟨_, x, hx, h5⟩ := bind_ok.mp h4
      obtain ⟨hres, rfl⟩ := pure_ok.mp h5
      obtain rfl : p = q := Option.some.inj (Prod.mk.inj hres).2.symm
      obtain ⟨mem, hp⟩ := findAliasOf_some ha
      rw [← same] at up ⊢
      obtain ⟨mount, base⟩ := alias_beside (fitted.of_stays wv.stays wv.sound) hrd up mem hp
      obtain ⟨shape, bases, -⟩ := pRef_shape hx
      obtain ⟨-, base', mount'⟩ := links_eq (shape.pnode p)
      refine ⟨mount'.trans mount, rd', ?_, up, hn⟩
      rw [bases, base', base]
      exact hrd
    | none =>
      obtain ⟨np, _, hread, h5⟩ := bind_ok.mp h4
      obtain ⟨rfl, rfl⟩ := read_ok.mp hread
      obtain ⟨made, x, hx, h6⟩ := bind_ok.mp h5
      cases made with
      | none =>
        obtain ⟨hres, -⟩ := pure_ok.mp h6
        cases hres
      | some q =>
        obtain ⟨hres, rfl⟩ := pure_ok.mp h6
        obtain rfl : p = q := Option.some.inj (Prod.mk.inj hres).2.symm
        obtain ⟨mount, base, r, hr', name', up'⟩ := newAlias_beside hrd hx
        refine ⟨?_, r, ?_, up'.trans up, ?_⟩
        · rw [mount, same]
        · rw [base]
          exact hr'
        · rw [name']
          exact hn

theorem lookupNode_below {name : Qstr} {err : ℤ} (hr : ∀ q, 0 ≤ r q) (fitted : Fitted s₀)
    (w : Walked r (isRoot s₀.mt) s₀ (n + 1) own s) (hcur : cur ∈ own) (hname : Hashed name)
    (down : name.name ≠ [DOT, DOT]) (at_ : Below s.nc m b names cur)
    (run : lookupNode (fuseEnv h) cur name s = .ok ((err, some p), t)) :
    Below t.nc m b (names ++ [name.name]) p := by
  unfold lookupNode at run
  by_cases hdot : name.name = [DOT]
  · rw [if_pos hdot] at run
    obtain ⟨_, u, hu, h1⟩ := bind_ok.mp run
    obtain ⟨hres, rfl⟩ := pure_ok.mp h1
    obtain rfl : p = cur := Option.some.inj (Prod.mk.inj hres).2.symm
    obtain ⟨mount, path⟩ := at_.of_shape (pRef_shape hu).1
    constructor
    · exact mount
    · rw [hdot, onward_dot]
      exact path
  rw [if_neg hdot, if_neg down] at run
  obtain ⟨walked, -⟩ := (walked_rules hr).findAlias n own cur name hcur hname s (again w) _ t run
  obtain ⟨mount, rp, hrp, up, hn⟩ := findAlias_child hr fitted w hname run
  have above : Descends t.nc b (onward names) (s.nc.pnode cur).base :=
    at_.path.transfer (stays_agree walked.stays w.sound) (sound_above walked.sound)
      (sound_above walked.sound _ rp _ hrp up)
  constructor
  · exact mount.trans at_.mount
  · rw [onward_name hdot, ← hn]
    exact Descends.child above hrp up

end Walk

/-- The node lies below `q` in the mount of `q`, or a mount point was crossed on the way to it. -/
def Arrived (nc : NameCache) (q : Pno) (names : List Bytes) (nc' : NameCache) (p : Pno) : Prop :=
  Below nc' (nc.pnode q).mount (nc.pnode q).base names p ∨ Crosses nc q names

section Walk

variable {B : Type} {h : Host B} {r : Pno → ℤ} {s₀ s t : Sys (FuseData B)} {n : ℕ}
  {own : List Pno} {names : List Bytes} {q cur p : Pno}

/-- A component leads further down, or across a mount point. -/
theorem lookup_arrives {name : Qstr} {intnt : Option Intent} {path : Option Bytes} {check : Bool}
    {err : ℤ} (hr : ∀ q, 0 ≤ r q) (fitted : Fitted s₀)
    (w : Walked r (isRoot s₀.mt) s₀ (n + 1) own s) (hcur : cur ∈ own) (hname : Hashed name)
    (down : name.name ≠ [DOT, DOT]) (at_ : Arrived s₀.nc q names s.nc cur)
    (run : lookup (fuseEnv h) cur name intnt path check s = .ok ((err, some p), t)) :
    Arrived s₀.nc q (names ++ [name.name]) t.nc p := by
  rcases at_ with at_ | crossed
  swap
  · exact Or.inr (crossed.longer _)
  obtain ⟨ino, _, hino, h1⟩ := bind_ok.mp run
  obtain rfl : s = _ := inoOf_moves (R := Eq) _ _ _ _ hino
  by_cases hnone : ino = none
  · rw [if_pos hnone] at h1
    obtain ⟨hres, -⟩ := pure_ok.mp h1
    cases hres
  rw [if_neg hnone] at h1
  obtain ⟨perm, u, hperm, h2⟩ := bind_ok.mp h1
  have scratch : Scratch s u := moves_ite (fun _ => sysioPermitted_moves (fun _ _ k => k) cur X_OK)
    (fun _ => moves_pure _) s perm u hperm
  have wu := w.scratch scratch
  rw [← scratch.nc] at at_
  by_cases herr : perm ≠ 0
  · rw [if_pos herr] at h2
    obtain ⟨hres, -⟩ := pure_ok.mp h2
    cases hres
  rw [if_neg herr] at h2
  obtain ⟨⟨err', found⟩, v, hnode, h3⟩ := bind_ok.mp h2
  change (if err' ≠ 0 then pure (err', none) else _ : Fuse B (ℤ × Option Pno)) v = _ at h3
  by_cases herr' : err' ≠ 0
  · rw [if_pos herr'] at h3
    obtain ⟨hres, -⟩ := pure_ok.mp h3
    cases hres
  rw [if_neg herr'] at h3
  obtain ⟨p₀, _, hfound, h4⟩ := bind_ok.mp h3
  obtain ⟨rfl, rfl⟩ := deref_ok.mp hfound
  have below := lookupNode_below hr fitted wu hcur hname down at_ hnode
  obtain ⟨wv, -⟩ := lookupNode_rule (walked_rules hr) cur hcur name hname u wu _ v hnode
  obtain ⟨depth, _, hread, h5⟩ := bind_ok.mp h4
  obtain ⟨-, rfl⟩ := read_ok.mp hread
  obtain ⟨top, x, htop, h6⟩ := bind_ok.mp h5
  rcases toTopCover_cases htop with ⟨rfl, rfl⟩ | ⟨c, hcover, hc⟩
  · obtain ⟨err'', y, hval, h7⟩ := bind_ok.mp h6
    obtain ⟨hres, rfl⟩ := pure_ok.mp h7
    obtain rfl : p = top := Option.some.inj (Prod.mk.inj hres).2.symm
    left
    exact below.of_shape (sysioPValidate_inos fuseEnv_off p intnt path _ _ _ hval).shape
  · right
    obtain ⟨live, -⟩ := wv.owned hr p₀ (List.mem_cons_self ..)
    obtain ⟨was, same, cover⟩ := wv.stays.covered p₀ live c hcover
    have before := below.back wv.stays fitted.sound was same
    exact ⟨_, p₀, c, by simp, List.prefix_refl _, was, before.mount, cover, hc, before.path⟩

/-- A node that is held keeps its links while a component is looked up in it. -/
theorem lookup_links {e : Env D} {name : Qstr} {s t : Sys D} {intnt : Option Intent}
    {path : Option Bytes} {check : Bool} {res : ℤ × Option Pno} (ops : OpsMove OffInodes e)
    (lists : NodeLists s) (hcur : 0 < refs s cur)
    (run : lookup e cur name intnt path check s = .ok (res, t)) :
    links (t.nc.pnode cur) = links (s.nc.pnode cur) := by
  obtain ⟨ino, _, hino, h1⟩ := bind_ok.mp run
  obtain rfl : s = _ := inoOf_moves (R := Eq) _ _ _ _ hino
  by_cases hnone : ino = none
  · rw [if_pos hnone] at h1
    obtain ⟨-, rfl⟩ := pure_ok.mp h1
    rfl
  rw [if_neg hnone] at h1
  obtain ⟨perm, u, hperm, h2⟩ := bind_ok.mp h1
  have scratch : Scratch s u := moves_ite (fun _ => sysioPermitted_moves (fun _ _ k => k) cur X_OK)
    (fun _ => moves_pure _) s perm u hperm
  by_cases herr : perm ≠ 0
  · rw [if_pos herr] at h2
    obtain ⟨-, rfl⟩ := pure_ok.mp h2
    rw [scratch.nc]
  rw [if_neg herr] at h2
  obtain ⟨⟨err, found⟩, v, hnode, h3⟩ := bind_ok.mp h2
  have same : links (v.nc.pnode cur) = links (s.nc.pnode cur) := by
    rw [← scratch.nc]
    unfold lookupNode at hnode
    by_cases hdot : name.name = [DOT]
    · rw [if_pos hdot] at hnode
      have ref : SameLinks u v :=
        moves_bind (pRef_links cur) (fun _ => moves_pure _) u _ v hnode
      exact ref.links cur
    rw [if_neg hdot] at hnode
    by_cases hdots : name.name = [DOT, DOT]
    · rw [if_pos hdots] at hnode
      have ref : SameLinks u v := moves_bind (pnodeAt_moves cur) (fun n =>
        moves_bind (pRef_links n.parent) fun _ => moves_pure _) u _ v hnode
      exact ref.links cur
    · rw [if_neg hdots] at hnode
      have lists' : NodeLists u := (ListedNodes.listed_of_nc scratch.nc) lists
      have hcur' : 0 < refs u cur := by
        unfold refs at hcur ⊢
        rw [scratch.nc]
        exact hcur
      exact (findAlias_links ops hnode lists' hcur').1
  change (if err ≠ 0 then pure (err, none) else _ : Sysio D (ℤ × Option Pno)) v = _ at h3
  by_cases herr' : err ≠ 0
  · rw [if_pos herr'] at h3
    obtain ⟨-, rfl⟩ := pure_ok.mp h3
    exact same
  rw [if_neg herr'] at h3
  have rest : SameLinks v t := moves_bind (nonNull_moves found) (fun p =>
    moves_bind (moves_read _) fun depth => moves_bind (toTopCover_moves pRef_links pRele_links _ p) fun q =>
    moves_bind ((sysioPValidate_inos ops q intnt path).mono fun _ _ k =>
      ⟨fun x => by rw [k.pnode], k.mt⟩) fun _ => moves_pure _)
    v _ t h3
  exact (rest.links cur).trans same

/-- A walk that succeeds ends at the node it stands at, or at the parent where it stands at none. -/
theorem walkExit_node {s t : Sys D} {err : ℤ} {o parent : Option Pno}
    (run : walkExit err o parent s = .ok ((0, some p), t)) :
    (o = some p ∨ o = none ∧ parent = some p) ∧ err = 0 ∧
      (t.nc.pnode p).mount = (s.nc.pnode p).mount := by
  obtain ⟨⟨err', p', up⟩, u, hresult, h1⟩ := bind_ok.mp run
  have result : u = s ∧ (o = some p' ∨ o = none ∧ parent = some p') ∧ (err' = 0 → err = 0) := by
    cases o with
    | some c =>
      obtain ⟨hres, rfl⟩ := pure_ok.mp hresult
      cases hres
      exact ⟨rfl, Or.inl rfl, id⟩
    | none =>
      obtain ⟨c, _, hc, h2⟩ := bind_ok.mp hresult
      obtain ⟨rfl, rfl⟩ := deref_ok.mp hc
      by_cases herr : err ≠ 0
      · rw [if_pos herr] at h2
        obtain ⟨hres, rfl⟩ := pure_ok.mp h2
        cases hres
        exact ⟨rfl, Or.inr ⟨rfl, rfl⟩, id⟩
      · rw [if_neg herr] at h2
        have same : s = u := moves_bind (R := Eq) (inoOf_moves c) (fun _ =>
          moves_bind (nonNull_moves _) fun i => moves_bind (inodeAt_moves i) fun _ => moves_pure _)
          s _ u h2
        obtain ⟨_, _, -, h3⟩ := bind_ok.mp h2
        obtain ⟨_, _, -, h4⟩ := bind_ok.mp h3
        obtain ⟨_, _, -, h5⟩ := bind_ok.mp h4
        obtain ⟨hres, -⟩ := pure_ok.mp h5
        cases hres
        exact ⟨same.symm, Or.inr ⟨rfl, rfl⟩, fun _ => not_not.mp herr⟩
  obtain ⟨rfl, node, zero⟩ := result
  obtain ⟨_, v, hup, h2⟩ := bind_ok.mp h1
  have released : SameLinks u v := ifSome_moves (fun c _ => pRele_links c) u _ v hup
  by_cases herr : err' ≠ 0
  · rw [if_pos herr] at h2
    obtain ⟨_, _, -, h3⟩ := bind_ok.mp h2
    obtain ⟨hres, -⟩ := pure_ok.mp h3
    cases hres
  · rw [if_neg herr] at h2
    obtain ⟨hres, rfl⟩ := pure_ok.mp h2
    obtain rfl : p = p' := Option.some.inj (Prod.mk.inj hres).2.symm
    exact ⟨node, zero (not_not.mp herr), (links_eq (released.links p)).2.2⟩

theorem counted (hr : ∀ q, 0 ≤ r q) {safe : Pno → Prop}
    (w : Walked r safe s₀ n (cur :: own) s) : 0 < refs s cur := by
  obtain ⟨live, held⟩ := w.owned hr cur (List.mem_cons_self ..)
  unfold refs
  rw [if_pos live]
  exact Int.natCast_pos.mpr held

/-- Where a walk ends that has come to `cur`. -/
def Ends (nc : NameCache) (q : Pno) (names : List Bytes) (nc' : NameCache) (p : Pno) : Prop :=
  (nc'.pnode p).mount = (nc.pnode q).mount ∨ Crosses nc q names

theorem Arrived.ends {nc nc' : NameCache} (h : Arrived nc q names nc' p) (more : List Bytes) :
    Ends nc q (names ++ more) nc' p :=
  h.imp (fun below => below.mount) fun crossed => crossed.longer more

theorem Ends.exit {s t : Sys D} {nc : NameCache} {err : ℤ} {o parent : Option Pno}
    (run : walkExit err o parent s = .ok ((0, some p), t))
    (at_ : ∀ c, o = some c → Ends nc q names s.nc c)
    (up : ∀ c, parent = some c → Ends nc q names s.nc c) : Ends nc q names t.nc p := by
  obtain ⟨node, -, mount⟩ := walkExit_node run
  unfold Ends
  rw [mount]
  rcases node with rfl | ⟨-, rfl⟩
  · exact at_ p rfl
  · exact up p rfl

/-- A step of the walk down releases the node it leaves. -/
theorem Arrived.pRele {s t : Sys D} {nc : NameCache} {u : Unit} (h : Arrived nc q names s.nc p)
    (run : pRele cur s = .ok (u, t)) : Arrived nc q names t.nc p :=
  h.imp (fun below => below.of_shape (pRele_shape run).1) id

/-- The head of a round where no inode is a link. -/
theorem head_plain {α : Type} {k : ℤ × Pno → Fuse B α} {follow : Option (Follow (FuseData B))}
    {nd : Nameidata} {last : Bool} {c : Prop} [Decidable c] {a : α} (plain : Plain s)
    (run : (do
      let i ← nonNull (← inoOf cur)
      let ri ← inodeAt i
      let res ← (if ri.stbuf.isLnk ∧ c then followLink (fuseEnv h) follow nd last cur i
        else pure (0, cur))
      k res) s = .ok (a, t)) : k (0, cur) s = .ok (a, t) := by
  obtain ⟨o, _, hino, h1⟩ := bind_ok.mp run
  obtain rfl : s = _ := inoOf_moves (R := Eq) _ _ _ _ hino
  obtain ⟨i, _, hi, h2⟩ := bind_ok.mp h1
  obtain ⟨-, rfl⟩ := deref_ok.mp hi
  obtain ⟨ri, _, hread, h3⟩ := bind_ok.mp h2
  obtain ⟨hri, rfl⟩ := deref_ok.mp hread
  obtain ⟨res, _, hlink, h4⟩ := bind_ok.mp h3
  have noLink : ¬ (ri.stbuf.isLnk ∧ c) := by
    rw [plain.inode i ri hri]
    exact fun both => Bool.false_ne_true both.1
  rw [if_neg noLink] at hlink
  obtain ⟨rfl, rfl⟩ := pure_ok.mp hlink
  exact h4

/-- The rest of a walk. -/
theorem walkLoop_ends {follow : Option (Follow (FuseData B))} {nd : Nameidata}
    {comps : List Component} {path : Option Bytes} (hr : ∀ q, 0 ≤ r q) (fitted : Fitted s₀)
    (hashed : ∀ c ∈ comps, Hashed c.qstr) (down : ∀ c ∈ comps, c.qstr.name ≠ [DOT, DOT])
    (w : Walked r (isRoot s₀.mt) s₀ (n + comps.length) (cur :: own) s)
    (at_ : Arrived s₀.nc q names s.nc cur)
    (run : walkLoop (fuseEnv h) follow nd comps path cur s = .ok ((0, some p), t)) :
    Ends s₀.nc q (names ++ comps.map fun c => c.qstr.name) t.nc p := by
  induction comps generalizing path cur names s with
  | nil =>
    unfold walkLoop at run
    have h1 := head_plain w.plain run
    change (if (0 : ℤ) ≠ 0 then _ else _ : Fuse B (ℤ × Option Pno)) s = _ at h1
    rw [if_neg (not_not.mpr rfl)] at h1
    refine Ends.exit h1 ?_ fun c hc => by cases hc
    rintro _ ⟨⟩
    exact at_.ends []
  | cons this rest ih =>
    unfold walkLoop at run
    have h1 := head_plain w.plain run
    change (if (0 : ℤ) ≠ 0 then _ else _ : Fuse B (ℤ × Option Pno)) s = _ at h1
    rw [if_neg (not_not.mpr rfl)] at h1
    obtain ⟨o, _, hino, h2⟩ := bind_ok.mp h1
    obtain rfl : s = _ := inoOf_moves (R := Eq) _ _ _ _ hino
    cases o with
    | none =>
      obtain ⟨-, hzero, -⟩ := walkExit_node h2
      cases hzero
    | some i =>
      obtain ⟨ri, _, hread, h3⟩ := bind_ok.mp h2
      obtain ⟨-, rfl⟩ := deref_ok.mp hread
      by_cases hdir : (!ri.stbuf.isDir) = true
      · rw [if_pos hdir] at h3
        obtain ⟨-, hzero, -⟩ := walkExit_node h3
        cases hzero
      rw [if_neg hdir] at h3
      obtain ⟨⟨err, found⟩, u, hlookup, h4⟩ := bind_ok.mp h3
      have hashed' := hashed this (List.mem_cons_self ..)
      have reach : ∀ c, found = some c → Arrived s₀.nc q (names ++ [this.qstr.name]) u.nc c := by
        rintro c rfl
        exact lookup_arrives hr fitted w (List.mem_cons_self ..) hashed'
          (down this (List.mem_cons_self ..)) at_ hlookup
      obtain ⟨walked, -⟩ := lookup_rule (walked_rules hr) cur (List.mem_cons_self ..) this.qstr hashed'
        _ _ _ s w _ u hlookup
      have names' : names ++ (this :: rest).map (fun c => c.qstr.name) =
          names ++ [this.qstr.name] ++ rest.map fun c => c.qstr.name := by simp
      rw [names']
      change (if err ≠ 0 then _ else _ : Fuse B (ℤ × Option Pno)) u = _ at h4
      by_cases herr : err ≠ 0
      · rw [if_pos herr] at h4
        by_cases hneg : err = -ENOENT ∧ rest = [] ∧ nd.flags &&& ND_NEGOK ≠ 0
        · rw [if_pos hneg] at h4
          -- a negative node, or the parent where there is none
          refine Ends.exit h4 (fun c hc => (reach c hc).ends _) ?_
          rintro _ ⟨⟩
          have same := lookup_links fuseEnv_off w.held.lists (counted hr w) hlookup
          have here := at_.ends ([this.qstr.name] ++ rest.map fun c => c.qstr.name)
          rw [← List.append_assoc] at here
          exact here.imp (fun mount => (links_eq same).2.2.trans mount) id
        · rw [if_neg hneg] at h4
          exact absurd (walkExit_node h4).2.1 herr
      · rw [if_neg herr] at h4
        obtain ⟨p', _, hfound, h5⟩ := bind_ok.mp h4
        obtain ⟨rfl, rfl⟩ := deref_ok.mp hfound
        obtain ⟨_, _, hread, h6⟩ := bind_ok.mp h5
        obtain ⟨-, rfl⟩ := read_ok.mp hread
        obtain ⟨_, _, hread, h7⟩ := bind_ok.mp h6
        obtain ⟨-, rfl⟩ := read_ok.mp hread
        obtain ⟨_, _, hread, h8⟩ := bind_ok.mp h7
        obtain ⟨-, rfl⟩ := deref_ok.mp hread
        obtain ⟨_, _, hread, h9⟩ := bind_ok.mp h8
        obtain ⟨-, rfl⟩ := deref_ok.mp hread
        obtain ⟨_, x, hrele, h10⟩ := bind_ok.mp h9
        have swapped : Walked r (isRoot s₀.mt) s₀ (n + rest.length) (cur :: p' :: own) u :=
          (walked_rules (h := h) hr).perm (List.Perm.swap _ _ _) walked
        apply ih
        · exact fun c hc => hashed c (List.mem_cons_of_mem _ hc)
        · exact fun c hc => down c (List.mem_cons_of_mem _ hc)
        · exact pRele_walked hr cur u swapped _ x hrele
        · exact (reach p' rfl).pRele hrele
        · exact h10

theorem walkFrom_ends {follow : Option (Follow (FuseData B))} {parent : Option Pno}
    {nd : Nameidata} {rest : Bytes} (hr : ∀ q, 0 ≤ r q) (fitted : Fitted s₀)
    (w : ∀ n, Walked r (isRoot s₀.mt) s₀ n own s) (same : s.nc.pnode = s₀.nc.pnode)
    (hpath : nd.path = some rest) (straight : [DOT, DOT] ∉ pathNames rest)
    (run : walkFrom (fuseEnv h) follow parent nd s = .ok ((0, some p), t)) :
    ∃ q, (if rest.head? = some PATH_SEPARATOR then nd.root else parent) = some q ∧
      Ends s₀.nc q (pathNames rest) t.nc p := by
  unfold walkFrom at run
  rw [hpath] at run
  cases rest with
  | nil =>
    obtain ⟨hres, -⟩ := pure_ok.mp run
    cases hres
  | cons c l =>
    obtain ⟨q, _, hread, h1⟩ := bind_ok.mp run
    obtain ⟨hq, rfl⟩ := deref_ok.mp hread
    obtain ⟨err, u, hval, h2⟩ := bind_ok.mp h1
    have inos := sysioPValidate_inos fuseEnv_off q none none _ err u hval
    by_cases herr : err ≠ 0
    · rw [if_pos herr] at h2
      obtain ⟨hres, -⟩ := pure_ok.mp h2
      cases hres
    rw [if_neg herr] at h2
    obtain ⟨_, v, href, h3⟩ := bind_ok.mp h2
    have node : links (v.nc.pnode q) = links (s₀.nc.pnode q) := by
      rw [← same, ← inos.pnode]
      exact (pRef_links q u _ v href).links q
    obtain ⟨-, base, mount⟩ := links_eq node
    have start : Arrived s₀.nc q [] v.nc q := by
      left
      constructor
      · exact mount
      · rw [base]
        exact Descends.here
    have walked : Walked r (isRoot s₀.mt) s₀ (0 + (components (c :: l)).length) (q :: own) v := by
      apply pRef_walked q u
      · exact sysioPValidate_walked q none none _ (w _) err u hval
      · exact href
    have hnames := components_names (c :: l)
    have ends := walkLoop_ends hr fitted (components_hashed _) (fun x hx hdots => straight ?_) walked
      start h3
    · rw [hnames] at ends
      refine ⟨q, ?_, ends⟩
      simpa using hq
    · rw [← hnames, ← hdots]
      exact List.mem_map_of_mem hx

/-- A walk begins at the node it is given, or at the root of the name space. -/
theorem sysioNamei_ends {start : Option Pno} {rest : Bytes} {flags : ℕ} {intnt : Option Intent}
    (hr : ∀ q, 0 ≤ r q) (fitted : Fitted s₀) (w : ∀ n, Walked r (isRoot s₀.mt) s₀ n own s)
    (same : s.nc.pnode = s₀.nc.pnode) (straight : [DOT, DOT] ∉ pathNames rest)
    (run : sysioNamei (fuseEnv h) start (some rest) flags intnt s = .ok ((0, some p), t)) :
    ∃ q, (if rest.head? = some PATH_SEPARATOR then s₀.mt.root else start) = some q ∧
      Ends s₀.nc q (pathNames rest) t.nc p := by
  obtain ⟨root, _, hread, h1⟩ := bind_ok.mp run
  obtain ⟨rfl, rfl⟩ := read_ok.mp hread
  rw [← (w 0).stays.mt]
  exact walkFrom_ends hr fitted w same rfl straight h1

end Walk

/-- The calls whose path has a prefix, with what they are given besides the path. -/
inductive PathCall where
  | open_ (u : Uninit) (flags mode : ℕ)
  | stat
  | mkdir (mode : ℕ)
  | rmdir (u : Uninit)
  | unlink (u : Uninit)
  deriving DecidableEq, Repr

namespace PathCall

def call (path : Bytes) : PathCall → Call
  | .open_ u flags mode => .open_ u path flags mode
  | .stat => .stat path
  | .mkdir mode => .mkdir path mode
  | .rmdir u => .rmdir u path
  | .unlink u => .unlink u path

def flags : PathCall → ℕ
  | .open_ _ flags _ => (if flags &&& O_CREAT ≠ 0 then ND_NEGOK else 0)
    + if flags &&& O_NOFOLLOW ≠ 0 then ND_NOFOLLOW else 0
  | .rmdir _ => 0
  | _ => ND_NEGOK

def intent : PathCall → Intent
  | .open_ _ flags _ => ⟨if flags &&& O_CREAT ≠ 0 then INT_OPEN ||| INT_CREAT else INT_OPEN⟩
  | .mkdir _ => ⟨INT_CREAT⟩
  | _ => ⟨INT_UPDPARENT⟩

/-- Before the walk, `open` spells the path of the working directory. -/
def head (e : Env D) : PathCall → Sysio D Unit
  | .open_ _ _ _ => do
    let cwd ← nonNull (← Exec.read fun s => s.mt.cwd)
    let nc ← pnodeAt cwd
    let _ ← sysioPbPath e nc.base PATH_SEPARATOR
    return ()
  | _ => return ()

/-- The look-up of a call, with the node it goes on with if there is one. -/
def find (e : Env D) (path : Bytes) (c : PathCall) : Sysio D (Option Pno) := do
  match ← sysioFindMount path with
  | none => return none
  | some m => do
    let path ← afterPrefix m path
    c.head e
    let root ← mountRootOf m
    let (err, found) ← sysioNamei e root (some path) c.flags (some c.intent)
    return if err ≠ 0 then none else found

/-- What a call does to the node it has found. `open` has read the file mode creation mask before. -/
def act (e : Env D) (umask : ℕ) (p : Pno) : PathCall → Sysio D Ret
  | .open_ _ flags mode => do
    let rtn ← sysioOpen e p flags
      (if flags &&& O_CREAT ≠ 0 then mode - (mode &&& (umask &&& 0o777)) else 0)
    if rtn < 0 then
      openError e none (some p) rtn
    else
      match ← sysioFuseFnew e p flags with
      | none => openError e none (some p) (-ENOMEM)
      | some f => do
        let rtn ← sysioFdSet e f (-1) false
        if rtn < 0 then
          openError e (some f) (some p) rtn
        else do
          pRele p
          return (rtn, 0)
  | .stat => do
    let ino ← inoOf p
    let d ← parentIno p
    let err ← e.ops.getattr d (some p) ino
    return status err
  | .mkdir mode => do
    let umask ← Exec.read fun s => s.umask
    let err ← sysioMkdir e p (mode - (mode &&& (umask &&& 0o777)))
    pRele p
    return status err
  | .rmdir _ => do
    let err ← rmdirNode e p
    pRele p
    return status err
  | .unlink _ => do
    let err ← unlinkNode e p
    pRele p
    return status err

variable {s t : Sys D} {path : Bytes} {p : Pno}

/-- A look-up that finds a node, cut at the walk. -/
theorem find_ok {e : Env D} {c : PathCall} (found : c.find e path s = .ok (some p, t)) :
    ∃ m rest root u, sysioFindMount path s = .ok (some m, s) ∧
      afterPrefix m path s = .ok (rest, s) ∧ c.head e s = .ok ((), u) ∧
      mountRootOf m u = .ok (root, u) ∧
      sysioNamei e root (some rest) c.flags (some c.intent) u = .ok ((0, some p), t) := by
  obtain ⟨o, _, hm, h1⟩ := bind_ok.mp found
  obtain rfl : s = _ := sysioFindMount_moves (R := Eq) path _ _ _ hm
  cases o with
  | none =>
    obtain ⟨hp, -⟩ := pure_ok.mp h1
    cases hp
  | some m =>
    obtain ⟨rest, _, hrest, h2⟩ := bind_ok.mp h1
    obtain rfl : s = _ := afterPrefix_moves (R := Eq) m path _ _ _ hrest
    obtain ⟨_, u, hhead, h3⟩ := bind_ok.mp h2
    obtain ⟨root, _, hroot, h4⟩ := bind_ok.mp h3
    obtain rfl : u = _ := mountRootOf_moves (R := Eq) m _ _ _ hroot
    obtain ⟨⟨err, o⟩, v, hnamei, h5⟩ := bind_ok.mp h4
    obtain ⟨hp, rfl⟩ := pure_ok.mp h5
    by_cases herr : err ≠ 0
    · rw [if_pos herr] at hp
      cases hp
    · rw [if_neg herr] at hp
      obtain rfl : err = 0 := not_not.mp herr
      obtain rfl : o = some p := hp
      exact ⟨m, rest, root, u, hm, hrest, hhead, hroot, hnamei⟩

/-- The call does to the node it has found what it does to it. -/
theorem run_found {lib : Library D} {c : PathCall}
    (found : c.find lib.env path s = .ok (some p, t)) :
    step lib (c.call path) s = c.act lib.env s.umask p t := by
  cases c with
  | open_ w flags mode =>
    obtain ⟨m, rest, root, u, hm, hrest, hhead, hroot, hnamei⟩ := find_ok found
    obtain ⟨o, _, hcwd, h1⟩ := bind_ok.mp hhead
    obtain ⟨cwd, _, hnn, h2⟩ := bind_ok.mp h1
    obtain ⟨n, _, hn, h3⟩ := bind_ok.mp h2
    obtain ⟨pb, v, hpb, h4⟩ := bind_ok.mp h3
    obtain ⟨-, rfl⟩ := pure_ok.mp h4
    refine (bind_run hm).trans ((bind_run hrest).trans ((bind_run hcwd).trans ((bind_run hnn).trans
      ((bind_run hn).trans ((bind_run hpb).trans ((bind_run hroot).trans ((bind_run hnamei).trans ?_)))))))
    change (if (0 : ℤ) ≠ 0 then _ else _ : Sysio D Ret) t = _
    rw [if_neg (not_not.mpr rfl)]
    exact bind_run (deref_ok.mpr ⟨rfl, rfl⟩)
  | stat => exact onMount_run (found : resolve lib.env path _ (some ⟨INT_UPDPARENT⟩) s = _)
  | mkdir mode => exact onMount_run (found : resolve lib.env path _ (some ⟨INT_CREAT⟩) s = _)
  | rmdir w => exact onMount_run (found : resolve lib.env path _ (some ⟨INT_UPDPARENT⟩) s = _)
  | unlink w => exact onMount_run (found : resolve lib.env path _ (some ⟨INT_UPDPARENT⟩) s = _)

theorem head_scratch {e : Env D} (c : PathCall) : Moves Scratch (c.head e) := by
  cases c with
  | open_ w flags mode =>
    exact moves_bind (moves_read _) fun o => moves_bind (nonNull_moves o) fun cwd =>
      moves_bind (pnodeAt_moves cwd) fun n => moves_bind (sysioPbPath_moves (fun _ _ k => k) _ _)
      fun _ => moves_pure _
  | stat => exact moves_pure _
  | mkdir mode => exact moves_pure _
  | rmdir w => exact moves_pure _
  | unlink w => exact moves_pure _

end PathCall

/-- Where the walk over the rest of a path begins: the root of the mount found, or the root of the
name space where the rest has a leading separator. -/
def startOf (s : Sys D) (m : MntId) (rest : Bytes) : Option Pno :=
  if rest.head? = some PATH_SEPARATOR then s.mt.root else (s.mt.mount m).bind fun r => r.root

section Prefix

variable {B : Type} {h : Host B}

/-- The node a call is applied to lies in the mount where the walk over the rest of its path begins,
unless there is a mount point on the way. That is the mount found for the prefix where the rest has
no leading separator. -/
theorem prefix_start {b : B} {ok : Sys (FuseData B) → Call → Prop} {s t : Sys (FuseData B)}
    (run : FuseReached h b ok s) (c : PathCall) {path rest : Bytes} {m : MntId} {p : Pno}
    (found : sysioFindMount path s = .ok (some m, s)) (spelled : Spelled s m path rest)
    (straight : [DOT, DOT] ∉ pathNames rest)
    (node : c.find (fuseEnv h) path s = .ok (some p, t)) :
    step (fuseLibrary h) (c.call path) s = c.act (fuseEnv h) s.umask p t ∧ t.mt = s.mt ∧
      ∃ q, startOf s m rest = some q ∧
        (rest.head? ≠ some PATH_SEPARATOR → (s.nc.pnode q).mount = m) ∧
        (¬ Crosses s.nc q (pathNames rest) → (t.nc.pnode p).mount = (s.nc.pnode q).mount) := by
  obtain ⟨tidy, fitted⟩ := reached_fitted run
  obtain ⟨m', rest', root, u, hm, hrest, hhead, hroot, hnamei⟩ := PathCall.find_ok node
  obtain rfl : m = m' := by
    rw [found] at hm
    injection hm with hm
    exact Option.some.inj (Prod.mk.inj hm).1
  obtain rfl : rest = rest' := by
    rw [afterPrefix_spelled spelled] at hrest
    injection hrest with hrest
    exact (Prod.mk.inj hrest).1
  have scratch := c.head_scratch s () u hhead
  have walked : ∀ n, Walked (refs s) (isRoot s.mt) s n [] u := fun n =>
    (start_walked tidy.plain fitted n).scratch scratch
  obtain ⟨rm, _, hread, h1⟩ := bind_ok.mp hroot
  obtain ⟨hrm, rfl⟩ := deref_ok.mp hread
  obtain ⟨rfl, -⟩ := pure_ok.mp h1
  have hrm : s.mt.mount m = some rm := by
    rw [← scratch.mt]
    exact hrm
  refine ⟨@PathCall.run_found _ s t path p (fuseLibrary h) c node, ?_, ?_⟩
  · obtain ⟨after, -⟩ := sysioNamei_walked (refs_nonneg s) rm.root (some rest) c.flags
      (some c.intent) u (walked (0 + names (some rest))) _ t hnamei
    exact after.stays.mt
  · obtain ⟨q, hq, ends⟩ := sysioNamei_ends (refs_nonneg s) fitted walked (by rw [scratch.nc]) straight
      hnamei
    refine ⟨q, ?_, fun relative => ?_, fun clear => ends.resolve_right clear⟩
    · unfold startOf
      rw [hrm]
      exact hq
    · rw [if_neg relative] at hq
      obtain ⟨q', hq', -, mount⟩ := fitted.sound.root m rm hrm
      obtain rfl : q = q' := Option.some.inj (hq.symm.trans hq')
      exact mount

end Prefix

section Examples

theorem secondMount_reached : FuseReached calmHost () (fun _ _ => True) (calmRun [secondMount]) := by
  have run : runCalls (fuseLibrary calmHost) fuseTypeName [secondMount] (initState (initData ())) =
      .ok ((), calmRun [secondMount]) := ok_of_value (by decide +kernel)
  exact runCalls_reached run

/-- A path that spells the name of the file system mounted second. -/
theorem spelled_second (rest : Bytes) :
    Spelled (calmRun [secondMount]) 1 ([98, 98] ++ COLON :: rest) rest := by
  have name : mountName (calmRun [secondMount]) 1 = some [98, 98] := by decide +kernel
  exact ⟨[98, 98], name, rfl⟩

/-- No node of the second mount is covered. -/
theorem second_clear {q : Pno} (names : List Bytes)
    (mount : ((calmRun [secondMount]).nc.pnode q).mount = 1) :
    ¬ Crosses (calmRun [secondMount]).nc q names := by
  rintro ⟨head, x, c, -, -, live, same, cover, hne, -⟩
  have bare : ∀ x ∈ (calmRun [secondMount]).nc.pnodes,
      ((calmRun [secondMount]).nc.pnode x).mount = 1 →
      ∀ c ∈ ((calmRun [secondMount]).nc.pnode x).cover, c = x := by decide +kernel
  exact hne (bare x live (same.trans mount) c cover)

theorem found_mount {path : Bytes} {m : MntId}
    (first : ((calmRun [secondMount]).mt.mounts.find? fun m =>
      ((mountName (calmRun [secondMount]) m).getD []).isPrefixOf path) = some m) :
    sysioFindMount path (calmRun [secondMount]) = .ok (some m, calmRun [secondMount]) := by
  have run := sysioFindMount_run path secondMount_named
  rw [first] at run
  exact run

/-- The look-up of stat in the library that has "bb" on "/b". -/
def secondFind (path : Bytes) : Fuse Unit (Option Pno) := PathCall.stat.find (fuseEnv calmHost) path

/-- stat of "bb:x" with "bb" mounted on "/b": the node lies in the mount of "bb". -/
theorem prefix_start_relative : ∃ p t,
    secondFind [98, 98, 58, 120] (calmRun [secondMount]) = .ok (some p, t) ∧
      (t.nc.pnode p).mount = 1 := by
  have node : secondFind [98, 98, 58, 120] (calmRun [secondMount]) =
      .ok (some 107, (secondFind [98, 98, 58, 120]).final (calmRun [secondMount])) :=
    ok_of_value (by decide +kernel)
  have found := @found_mount [98, 98, 58, 120] 1 (by decide +kernel)
  obtain ⟨-, -, q, -, relative, clear⟩ := prefix_start secondMount_reached .stat found
    (spelled_second [120]) (by decide) node
  have mount := relative (by decide)
  exact ⟨107, _, node, (clear (second_clear _ mount)).trans mount⟩

/-- What the prefix is to do: the node the call is applied to lies in the mount found for it. -/
def Selects (s : Sys (FuseData Unit)) (c : PathCall) (path : Bytes) : Prop :=
  ∀ m rest p t, sysioFindMount path s = .ok (some m, s) → Spelled s m path rest →
    [DOT, DOT] ∉ pathNames rest → c.find (fuseEnv calmHost) path s = .ok (some p, t) →
    (t.nc.pnode p).mount = m

/-- With "bb" mounted on "/b", stat of "bb:/" is applied to the root of the name space, and stat of
"fuse:b" to the root of "bb". -/
theorem prefix_not_followed : FuseReached calmHost () (fun _ _ => True) (calmRun [secondMount]) ∧
    ¬ Selects (calmRun [secondMount]) .stat [98, 98, 58, 47] ∧
    ¬ Selects (calmRun [secondMount]) .stat [102, 117, 115, 101, 58, 98] := by
  have node : ∀ path p, (secondFind path).value (calmRun [secondMount]) = some (some p) →
      secondFind path (calmRun [secondMount]) =
        .ok (some p, (secondFind path).final (calmRun [secondMount])) := fun _ _ h => ok_of_value h
  refine ⟨secondMount_reached, fun selects => ?_, fun selects => ?_⟩
  · have mount := selects 1 [47] 110 _ (found_mount (by decide +kernel)) (spelled_second [47])
      (by decide) (node _ _ (by decide +kernel))
    have away : (((secondFind [98, 98, 58, 47]).final (calmRun [secondMount])).nc.pnode 110).mount =
        0 := by decide +kernel
    rw [away] at mount
    cases mount
  · have name : mountName (calmRun [secondMount]) 0 = some fuseTypeName := by decide +kernel
    have mount := selects 0 [98] 108 _ (found_mount (by decide +kernel)) ⟨fuseTypeName, name, rfl⟩
      (by decide) (node _ _ (by decide +kernel))
    have away : (((secondFind [102, 117, 115, 101, 58, 98]).final
        (calmRun [secondMount])).nc.pnode 108).mount = 1 := by decide +kernel
    rw [away] at mount
    cases mount

end Examples

end StartingMount
