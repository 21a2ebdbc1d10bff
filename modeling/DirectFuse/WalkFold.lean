import DirectFuse.Dispatch
import DirectFuse.PlainRuns

/-! Path walks where no name stands for a symbolic link. The loop, with its component of look-ahead,
its hints and its exits, comes to one step folded over the names of the path. -/
namespace WalkFold

open ExecLogic SysioState SysioInode SysioNamei CoreMoves WalkRules PathRefs NameForest GrowForest

variable {D : Type}

/-- The names of a path: what stands between its separators, where anything does. -/
def pathNames (path : Bytes) : List Bytes := (path.splitOn PATH_SEPARATOR).filter (· ≠ [])

/-- How far a walk has come: to a node, to a name that stands for nothing, or to an error. -/
inductive Place where
  | here (p : Pno)
  | missing (p : Pno)
  | failed (err : ℤ)
  deriving DecidableEq, Repr

/-- The node a name stands for below `cur`: itself, its parent, or its child of that name. -/
def named (e : Env D) (cur : Pno) (name : Bytes) : Sysio D (ℤ × Option Pno) := do
  if name = [DOT] then
    pRef cur
    return (0, some cur)
  else if name = [DOT, DOT] then
    let n ← pnodeAt cur
    pRef n.parent
    return (0, some n.parent)
  else
    sysioPFindAlias e cur ⟨name, nameHash name⟩

/-- The topmost node over the one a name stands for, and whether it is there. -/
def child (e : Env D) (cur : Pno) (name : Bytes) : Sysio D (ℤ × Option Pno) := do
  let (err, found) ← named e cur name
  match found with
  | none => return (err, none)
  | some p => do
    let depth ← Exec.read fun s => s.nc.pnodes.length
    let p ← toTopCover (depth + 1) p
    let err ← sysioPValidate e p none none
    return (err, some p)

/-- Where a step from `cur` has led to. -/
def settle : ℤ × Option Pno → Sysio D Place
  | (err, none) => pure (.failed err)
  | (err, some p) =>
    if err = 0 then
      pure (.here p)
    else if err = -ENOENT then
      pure (.missing p)
    else do
      pRele p
      return .failed err

/-- One step of a walk. The reference on the node left behind is given back. -/
def walkStep (e : Env D) : Place → Bytes → Sysio D Place
  | .failed err, _ => pure (.failed err)
  | .missing p, _ => do
    pRele p
    return .failed (-ENOENT)
  | .here cur, name => do
    let i ← nonNull (← inoOf cur)
    let r ← inodeAt i
    if !r.stbuf.isDir then
      pRele cur
      return .failed (-ENOTDIR)
    else do
      let res ← child e cur name
      pRele cur
      settle res

/-- What a walk returns: only at its end, and on demand, may a name stand for nothing. -/
def walkEnd (flags : ℕ) : Place → Sysio D (ℤ × Option Pno)
  | .here p => pure (0, some p)
  | .failed err => pure (err, none)
  | .missing p =>
    if flags &&& ND_NEGOK ≠ 0 then
      pure (0, some p)
    else do
      pRele p
      return (-ENOENT, none)

/-- The walk over a list of names. -/
def walkNames (e : Env D) (flags : ℕ) (start : Option Pno) (names : List Bytes) :
    Sysio D (ℤ × Option Pno) := do
  let start ← nonNull start
  let err ← sysioPValidate e start none none
  if err ≠ 0 then
    return (err, none)
  else do
    pRef start
    let place ← names.foldlM (walkStep e) (.here start)
    walkEnd flags place

section Names

theorem pathNames_separator (path : Bytes) :
    pathNames (PATH_SEPARATOR :: path) = pathNames path := by
  have split : (PATH_SEPARATOR :: path).splitOn PATH_SEPARATOR =
      [] :: path.splitOn PATH_SEPARATOR := by
    have := List.splitOn_append_cons_self (a := PATH_SEPARATOR) [] path
    simpa using this
  simp [pathNames, split]

theorem pathNames_dropWhile (path : Bytes) :
    pathNames (path.dropWhile (· == PATH_SEPARATOR)) = pathNames path := by
  induction path with
  | nil => rfl
  | cons c path ih =>
    rw [List.dropWhile_cons]
    by_cases hc : c = PATH_SEPARATOR
    · subst hc
      rw [pathNames_separator]
      simpa using ih
    · simp [hc]

/-- The names on both sides of a separator. -/
theorem pathNames_append (left right : Bytes) :
    pathNames (left ++ PATH_SEPARATOR :: right) = pathNames left ++ pathNames right := by
  simp only [pathNames, List.splitOn_append_cons_self, List.filter_append]

theorem pathNames_piece {name : Bytes} (hn : PATH_SEPARATOR ∉ name) (hne : name ≠ []) :
    pathNames name = [name] := by
  simp [pathNames, List.splitOn_eq_singleton hn, hne]

/-- A component ends where the path does or at a separator. -/
theorem sysioNextComponent_cases (path : Bytes) :
    ∃ name after, sysioNextComponent path = (⟨name, nameHash name⟩, after) ∧
      path.dropWhile (· == PATH_SEPARATOR) = name ++ after ∧ PATH_SEPARATOR ∉ name ∧
      (after = [] ∨ ∃ l, after = PATH_SEPARATOR :: l) := by
  generalize hrest : path.dropWhile (· == PATH_SEPARATOR) = rest
  obtain ⟨after, hafter⟩ := List.takeWhile_prefix (· != PATH_SEPARATOR) (l := rest)
  generalize hname : rest.takeWhile (· != PATH_SEPARATOR) = name at hafter
  have all : ∀ c ∈ name, (c != PATH_SEPARATOR) = true := by
    rw [← hname]
    exact List.all_eq_true.mp List.all_takeWhile
  refine ⟨name, after, ?_, hafter.symm, fun h => by simpa using all _ h, ?_⟩
  · have hdrop : rest.drop name.length = after := by rw [← hafter, List.drop_left]
    simp only [sysioNextComponent, hrest, hname, hdrop]
  · rw [← hafter, List.takeWhile_append_of_pos all] at hname
    cases after with
    | nil => exact Or.inl rfl
    | cons c l =>
      by_cases hc : c = PATH_SEPARATOR
      · exact Or.inr ⟨l, by rw [hc]⟩
      · rw [List.takeWhile_cons_of_pos (by simpa using hc)] at hname
        simpa using congrArg List.length hname

theorem pathNames_component (path : Bytes) : pathNames path =
    if (sysioNextComponent path).1.name = [] then []
    else (sysioNextComponent path).1.name :: pathNames (sysioNextComponent path).2 := by
  obtain ⟨name, after, hnext, hrest, hsep, hafter⟩ := sysioNextComponent_cases path
  rw [hnext, ← pathNames_dropWhile, hrest]
  by_cases hname : name = []
  · subst hname
    rcases hafter with rfl | ⟨l, rfl⟩
    · rfl
    · have hhead := List.head?_dropWhile_not (· == PATH_SEPARATOR) path
      simp [hrest] at hhead
  · rw [if_neg hname]
    rcases hafter with rfl | ⟨l, rfl⟩
    · rw [List.append_nil, pathNames_piece hsep hname]
      rfl
    · rw [pathNames_append, pathNames_piece hsep hname, pathNames_separator]
      rfl

theorem after_shorter {path : Bytes} (hname : (sysioNextComponent path).1.name ≠ []) :
    (sysioNextComponent path).2.length < path.length := by
  obtain ⟨name, after, hnext, hrest, -⟩ := sysioNextComponent_cases path
  rw [hnext] at hname ⊢
  have hle := (List.dropWhile_sublist (· == PATH_SEPARATOR) (l := path)).length_le
  have hpos : 0 < name.length := List.length_pos_of_ne_nil hname
  rw [hrest, List.length_append] at hle
  change after.length < path.length
  omega

/-- The calls of `_sysio_next_component` deliver the names of the path. -/
theorem components_names (path : Bytes) : (components path).map (·.qstr.name) = pathNames path := by
  have aux : ∀ (fuel : ℕ) (path : Bytes), path.length ≤ fuel →
      (componentsAux fuel path).map (·.qstr.name) = pathNames path := by
    intro fuel
    induction fuel with
    | zero =>
      intro path hlen
      obtain rfl := List.eq_nil_of_length_eq_zero (Nat.le_zero.mp hlen)
      rfl
    | succ fuel ih =>
      intro path hlen
      rw [pathNames_component, componentsAux]
      by_cases hname : (sysioNextComponent path).1.name = []
      · simp [hname]
      · have hlt := after_shorter hname
        simp only [hname, if_false, List.map_cons]
        rw [ih _ (by omega)]
  exact aux path.length path (Nat.le_refl _)

end Names

/-- No path node has moved to another parent, base node or mount, and the mounts are the same. -/
structure SameLinks (s t : Sys D) : Prop where
  links : ∀ q, links (t.nc.pnode q) = links (s.nc.pnode q)
  mt : t.mt = s.mt

instance : IsPreorder (Sys D) SameLinks where
  refl _ := ⟨fun _ => rfl, rfl⟩
  trans _ _ _ h k := ⟨fun q => (k.links q).trans (h.links q), k.mt.trans h.mt⟩

theorem still_links (s t : Sys D) (k : Still s t) : SameLinks s t :=
  ⟨fun q => by rw [k.pnode], k.mt⟩

section Links

variable {e : Env D}

theorem update_links {s t : Sys D} {p : Pno} {n : Pnode}
    (ht : t.nc.pnode = Function.update s.nc.pnode p n) (hn : links n = links (s.nc.pnode p))
    (mt : t.mt = s.mt) : SameLinks s t := by
  refine ⟨fun q => ?_, mt⟩
  rw [ht]
  by_cases hq : q = p
  · rw [hq, Function.update_self]
    exact hn
  · rw [Function.update_of_ne hq]

theorem pRef_links (p : Pno) : Moves SameLinks (pRef p : Sysio D Unit) :=
  moves_bind (moves_check _ _) fun _ => moves_write fun _ => update_links rfl rfl rfl

theorem pRele_links (p : Pno) : Moves SameLinks (pRele p : Sysio D Unit) :=
  moves_bind (moves_check _ _) fun _ => moves_write fun _ => update_links rfl rfl rfl

variable (ops : OpsMove OffInodes e)

include ops

theorem pbGone_links (b : PbId) : Moves SameLinks (sysioPbGone e b) :=
  sysioPbGone_moves still_links (fun i => (ops.gone i).mono fun s t k => still_links s t k.still) b

theorem pGone_links (p : Pno) : Moves SameLinks (sysioPGone e p) :=
  moves_bind (pnodeAt_moves p) fun _ => moves_bind (assert_moves _) fun _ =>
    moves_bind (assert_moves _) fun _ => moves_bind (moves_check _ _) fun _ =>
    moves_bind (moves_write fun _ => ⟨fun _ => rfl, rfl⟩) fun _ =>
    moves_bind (modBase_moves still_links _ _) fun _ => moves_bind (baseAt_moves _) fun _ =>
    moves_bind (moves_when fun _ => pbGone_links ops _) fun _ =>
    moves_write fun _ => ⟨fun _ => rfl, rfl⟩

theorem pPrune_links (p : Pno) : Moves SameLinks (sysioPPrune e p) :=
  sysioPPrune_moves (pbGone_links ops) (pGone_links ops) p

theorem pReclaim_links : Moves SameLinks (pReclaim e) := by
  refine pReclaim_moves (fun p => ?_) fun s k => ⟨fun _ => rfl, rfl⟩
  intro s next t run
  obtain ⟨n, _, hread, h1⟩ := bind_ok.mp run
  obtain ⟨rfl, rfl⟩ := read_ok.mp hread
  by_cases href : (s.nc.pnode p).ref ≠ 0
  · rw [if_pos href] at h1
    obtain ⟨-, rfl⟩ := read_ok.mp h1
    exact Std.Refl.refl s
  · rw [if_neg href] at h1
    obtain ⟨_, u, hu, h2⟩ := bind_ok.mp h1
    have raised : SameLinks s u := by
      obtain rfl := write_ok.mp hu
      exact update_links rfl rfl rfl
    refine IsTrans.trans s u t raised ?_
    exact moves_bind (pPrune_links ops p) (fun _ => moves_bind (moves_read _) fun next =>
      moves_bind (pRele_links p) fun _ => moves_bind (pnodeAt_moves p) fun n' =>
      moves_ite (fun _ => moves_pure _) fun _ => moves_bind (pPrune_links ops p) fun _ =>
      moves_pure _) _ _ _ h2

theorem pbNew_links (name : Qstr) (parent : Option PbId) (ino : Option InoId) :
    Moves SameLinks (sysioPbNew e name parent ino) :=
  moves_bind (moves_read _) fun _ => moves_bind (moves_when fun _ => pReclaim_links ops) fun _ =>
    moves_bind (malloc_moves fun s t k => still_links s t k.still) fun _ =>
    moves_ite (fun _ => moves_pure _) fun _ => moves_bind (moves_read _) fun _ =>
    moves_bind (moves_when fun _ => moves_bind (assert_moves _) fun _ =>
      moves_write fun _ => ⟨fun _ => rfl, rfl⟩) fun _ =>
    moves_bind (ifSome_moves fun q _ => modBase_moves still_links q _) fun _ =>
    moves_bind (moves_write fun _ => ⟨fun _ => rfl, rfl⟩) fun _ => moves_pure _

theorem findBase_links (parent : PbId) (name : Qstr) : Moves SameLinks (findBase e parent name) := by
  refine moves_bind (nameChain_moves parent name) fun chain =>
    moves_bind (findNamed_moves _ _ _) fun found => ?_
  cases found with
  | none => exact pbNew_links ops _ _ _
  | some b => exact moves_pure _

omit ops in
/-- A new alias is not one of the nodes on their trees. -/
theorem newAlias_links {parent : Option Pno} {b : PbId} {mnt : MntId} {s t : Sys D}
    {o : Option Pno} (run : sysioPNewAlias e parent b mnt s = .ok (o, t)) (lists : NodeLists s)
    {q : Pno} (hq : q ∈ s.nc.pnodes) :
    links (t.nc.pnode q) = links (s.nc.pnode q) ∧ t.mt = s.mt := by
  obtain ⟨u, hu, hcases⟩ := sysioPNewAlias_ok run
  have grown : Still s u ∨ ∃ v, Still s v ∧ u = { v with nc := growth v.nc } := by
    rcases when_ok.mp hu with ⟨-, hmore⟩ | ⟨-, rfl⟩
    · rcases morePnodes_ok hmore with k | ⟨v, k, rfl⟩
      · exact Or.inl k.still
      · exact Or.inr ⟨v, k.still, rfl⟩
    · exact Or.inl (Std.Refl.refl s)
  have same : u.nc.pnode = s.nc.pnode ∧ u.mt = s.mt ∧ u.nc.pnodes = s.nc.pnodes := by
    rcases grown with k | ⟨v, k, rfl⟩
    · exact ⟨k.pnode, k.mt, k.pnodes⟩
    · exact ⟨k.pnode, k.mt, k.pnodes⟩
  rcases hcases with ⟨-, rfl⟩ | ⟨p, r, -, hfree, -, rfl⟩
  · exact ⟨by rw [same.1], same.2.1⟩
  · have neutral : Neutral s u := moves_when (fun _ => morePnodes_neutral) _ _ _ hu
    have hp : p ≠ q := by
      rintro rfl
      refine (neutral lists).1.disjoint p (List.mem_of_mem_head? hfree) ?_
      rw [same.2.2]
      exact hq
    refine ⟨?_, same.2.1⟩
    rw [← same.1]
    simp [insertPnode, Function.update_of_ne hp.symm]

end Links

/-- The node lies in a mount. -/
def Placed (p : Pno) (s : Sys D) : Prop := ∃ m, s.mt.mount (s.nc.pnode p).mount = some m

/-- The node stands for an inode. -/
def Live (p : Pno) (s : Sys D) : Prop :=
  ∃ b i r, s.nc.base (s.nc.pnode p).base = some b ∧ b.ino = some i ∧ s.ic.inode i = some r

theorem Placed.of_links {p : Pno} {s t : Sys D} (h : Placed p s)
    (hl : links (t.nc.pnode p) = links (s.nc.pnode p)) (mt : t.mt = s.mt) : Placed p t := by
  obtain ⟨m, hm⟩ := h
  exact ⟨m, by rw [mt, (links_eq hl).2.2]; exact hm⟩

theorem Live.of_links {p : Pno} {s t : Sys D} (h : Live p s)
    (hl : links (t.nc.pnode p) = links (s.nc.pnode p)) (base : t.nc.base = s.nc.base)
    (ic : t.ic = s.ic) : Live p t := by
  obtain ⟨b, i, r, hb, hi, hr⟩ := h
  exact ⟨b, i, r, by rw [base, (links_eq hl).2.1]; exact hb, hi, by rw [ic]; exact hr⟩

def Stays (I : Sys D → Prop) (s t : Sys D) : Prop := I s → I t

instance {I : Sys D → Prop} : IsPreorder (Sys D) (Stays I) where
  refl _ h := h
  trans _ _ _ h k hs := k (h hs)

/-- What a walk relies on in the drivers: hints change nothing, a look-up that succeeds finds an
inode, an inode that goes takes no other along, and whatever `I` says of the inodes and the
drivers' data, which leaves no symbolic links, stays true. -/
structure LinkFree (e : Env D) (I : Sys D → Prop) : Prop where
  off : OpsMove OffInodes e
  hints : ∀ i p o intnt path, e.ops.lookup i p o intnt path = e.ops.lookup i p o none none
  live : ∀ {i p o o' s t}, e.ops.lookup i p o none none s = .ok ((0, o'), t) →
    ∃ j r, o' = some j ∧ t.ic.inode j = some r
  gone : ∀ i j : InoId, j ≠ i → Moves (fun s t => t.ic.inode j = s.ic.inode j) (e.ops.gone i)
  links : ∀ {s i r}, I s → s.ic.inode i = some r → r.stbuf.isLnk = false
  outside : ∀ s t, t.ic = s.ic → t.drv = s.drv → Stays I s t
  lookup : ∀ i p o, Moves (Stays I) (e.ops.lookup i p o none none)
  iRele : ∀ i, Moves (Stays I) (iRele e i)

/-- The walk stands at `cur` and owns the nodes in `own` besides. -/
structure Stands (I : Sys D → Prop) (r : Pno → ℤ) (cur : Pno) (own : List Pno) (s : Sys D) :
    Prop where
  held : Held r (own ++ [cur]) s
  free : I s
  placed : Placed cur s

/-- The inode `j` is what it was. -/
def SameInode (j : InoId) (s t : Sys D) : Prop := t.ic.inode j = s.ic.inode j

instance {j : InoId} : IsPreorder (Sys D) (SameInode j) where
  refl _ := rfl
  trans _ _ _ h k := k.trans h

theorem LinkFree.validate_hints {e : Env D} {I : Sys D → Prop} (d : LinkFree e I) (p : Pno)
    (intnt : Option Intent) (path : Option Bytes) :
    sysioPValidate e p intnt path = sysioPValidate e p none none := by
  unfold sysioPValidate
  simp only [d.hints _ _ _ intnt path]

section Inodes

variable {e : Env D} {I : Sys D → Prop} (d : LinkFree e I)

theorem setFs_inode {j : InoId} (f : FsId) (r : Filesys) :
    Moves (SameInode j) (setFs f r : Sysio D Unit) := moves_write fun _ => rfl

include d

theorem iRele_inode {i j : InoId} (hij : j ≠ i) : Moves (SameInode j) (iRele e i) := by
  have update : ∀ {s t : Sys D} {o}, t.ic.inode = Function.update s.ic.inode i o →
      SameInode j s t := fun h => by rw [SameInode, h, Function.update_of_ne hij]
  have gone : Moves (SameInode j) (sysioIGone e i) :=
    moves_bind (inodeAt_moves i) fun _ => moves_bind (moves_check _ _) fun _ =>
      moves_bind (moves_when fun _ => moves_bind (fsAt_moves _) fun _ => setFs_inode _ _) fun _ =>
      moves_bind (moves_write fun _ => rfl) fun _ => moves_bind (d.gone i j hij) fun _ =>
      moves_bind (moves_write fun _ => update rfl) fun _ => moves_bind (moves_check _ _) fun _ =>
      moves_write fun _ => rfl
  exact moves_bind (inodeAt_moves i) fun _ => moves_bind (assert_moves _) fun _ =>
    moves_bind (moves_write fun _ => update rfl) fun _ =>
    moves_ite (fun _ => gone) fun _ => moves_pure _

/-- A validated node stands for an inode and lies in a mount. -/
theorem validate_live {p : Pno} {s t : Sys D}
    (run : sysioPValidate e p none none s = .ok (0, t)) : Live p t ∧ Placed p t := by
  obtain ⟨n, _, hread, h1⟩ := bind_ok.mp run
  obtain ⟨rfl, rfl⟩ := read_ok.mp hread
  obtain ⟨r, _, hread, h2⟩ := bind_ok.mp h1
  obtain ⟨-, rfl⟩ := deref_ok.mp hread
  obtain ⟨m, _, hread, h3⟩ := bind_ok.mp h2
  obtain ⟨hm, rfl⟩ := deref_ok.mp hread
  obtain ⟨root, _, hread, h4⟩ := bind_ok.mp h3
  obtain ⟨-, rfl⟩ := deref_ok.mp hread
  obtain ⟨rn, _, hread, h5⟩ := bind_ok.mp h4
  obtain ⟨rfl, rfl⟩ := read_ok.mp hread
  obtain ⟨rootpb, _, hread, h6⟩ := bind_ok.mp h5
  obtain ⟨-, rfl⟩ := deref_ok.mp hread
  obtain ⟨_, _, hc, h7⟩ := bind_ok.mp h6
  obtain ⟨-, rfl⟩ := check_ok.mp hc
  obtain ⟨rooti, _, hread, h8⟩ := bind_ok.mp h7
  obtain ⟨-, rfl⟩ := deref_ok.mp hread
  obtain ⟨res, u, hu, h9⟩ := bind_ok.mp h8
  obtain ⟨err, ino⟩ := res
  obtain ⟨r', _, hread, h10⟩ := bind_ok.mp h9
  obtain ⟨hr', rfl⟩ := deref_ok.mp hread
  obtain ⟨_, v, hv, h11⟩ := bind_ok.mp h10
  obtain ⟨rfl, rfl⟩ := pure_ok.mp h11
  obtain ⟨j, rj, rfl, hj⟩ := d.live hu
  have ku : OffInodes s u := d.off.lookup _ _ _ _ _ _ _ _ hu
  have placed : Placed p u := ⟨m, by rw [ku.mt, ku.nc]; exact hm⟩
  rcases when_ok.mp hv with ⟨hne, hwhen⟩ | ⟨hsame, rfl⟩
  · have hne : r'.ino ≠ some j := by simpa using hne
    obtain ⟨_, w, hw, hmod⟩ := bind_ok.mp hwhen
    obtain ⟨rb, hrb, rfl⟩ := modBase_ok hmod
    have kw : OffInodes u w := ifSome_moves (fun i _ => iRele_moves (fun _ _ k => k)
      d.off.gone i) _ _ _ hw
    have hjw : w.ic.inode j = some rj := by
      rw [← hj]
      refine ifSome_moves (R := SameInode j) (fun i hi => iRele_inode d ?_) u _ w hw
      rintro rfl
      exact hne hi
    have hbase : (w.nc.pnode p).base = (s.nc.pnode p).base := by rw [kw.nc, ku.nc]
    refine ⟨⟨{ rb with ino := some j }, j, rj, ?_, rfl, hjw⟩, placed.of_links (by rw [kw.nc]) kw.mt⟩
    rw [hbase]
    exact Function.update_self ..
  · have hsame : r'.ino = some j := by simpa using hsame
    exact ⟨⟨r', j, rj, by rw [ku.nc] at hr' ⊢; exact hr', hsame, hj⟩, placed⟩

end Inodes

section Steps

variable {e : Env D} {I : Sys D → Prop} (d : LinkFree e I) {r : Pno → ℤ} (hr : ∀ q, 0 ≤ r q)
  {cur : Pno} {own own' : List Pno}

/-- A step that keeps the links of all nodes, and what it does to the references. -/
theorem stands_of_held {α : Type} {m : Sysio D α}
    (held : Triple (Held r (own ++ [cur])) m fun _ => Held r (own' ++ [cur]))
    (stays : Moves (Stays I) m) (same : Moves SameLinks m) :
    Triple (Stands I r cur own) m fun _ => Stands I r cur own' := by
  intro s hs a t run
  have k := same s a t run
  exact ⟨held s hs.held a t run, stays s a t run hs.free, hs.placed.of_links (k.links cur) k.mt⟩

include d

theorem validate_still (p : Pno) : Moves Still (sysioPValidate e p none none) :=
  sysioPValidate_moves (fun _ _ k => k)
    ⟨fun i p o intnt path => (d.off.lookup i p o intnt path).mono fun _ _ k => k.still,
      fun i p n => (d.off.readlink i p n).mono fun _ _ k => k.still,
      fun i => (d.off.gone i).mono fun _ _ k => k.still⟩ p none none

theorem validate_neutral (p : Pno) : Moves Neutral (sysioPValidate e p none none) :=
  (validate_still d p).mono fun s t k => Quiet.neutral s t (Still.quiet s t k)

theorem validate_stays (p : Pno) : Moves (Stays I) (sysioPValidate e p none none) := by
  have asked : ∀ i p o intnt path, Moves (Stays I) (e.ops.lookup i p o intnt path) := by
    intro i p o intnt path
    rw [d.hints]
    exact d.lookup i p o
  exact InodeMoves.validate_moves (InodeMoves.outside_files d.outside) d.iRele asked p none none

theorem pRef_stands (p : Pno) :
    Triple (Stands I r cur own) (pRef p : Sysio D Unit) fun _ => Stands I r cur (p :: own) :=
  stands_of_held (pRef_held p) (InodeMoves.outside_pRef (InodeMoves.outside_files d.outside) p) (pRef_links p)

include hr in
theorem pRele_stands (p : Pno) :
    Triple (Stands I r cur (p :: own)) (pRele p : Sysio D Unit) fun _ => Stands I r cur own :=
  stands_of_held (pRele_held hr p) (InodeMoves.outside_pRele (InodeMoves.outside_files d.outside) p) (pRele_links p)

omit d in
theorem stands_read {α : Type} {f : Sys D → α} :
    Triple (Stands I r cur own) (Exec.read f : Sysio D α) fun _ => Stands I r cur own :=
  triple_read fun _ hs => hs

include hr in
theorem toTopCover_stands (fuel : ℕ) (p : Pno) :
    Triple (Stands I r cur [p]) (toTopCover fuel p : Sysio D Pno) fun q => Stands I r cur [q] := by
  induction fuel generalizing p with
  | zero => exact triple_fault
  | succ fuel ih =>
    refine triple_bind (triple_same (pnodeAt_moves p)) fun np => ?_
    cases np.cover with
    | none => exact triple_pure fun s hs => hs
    | some c =>
      refine triple_ite (fun _ => triple_pure fun s hs => hs) fun _ => ?_
      refine triple_bind (pRef_stands d c) fun _ => triple_bind ?_ fun _ => ih c
      refine triple_weaken (pRele_stands d hr p) (fun s hs => ?_) fun _ _ h => h
      exact ⟨hs.held.perm (List.Perm.swap _ _ _), hs.free, hs.placed⟩

omit d in
theorem findBase_neutral (ops : OpsMove OffInodes e) (parent : PbId) (name : Qstr) :
    Moves Neutral (findBase e parent name) := by
  refine moves_bind (nameChain_moves parent name) fun chain =>
    moves_bind (findNamed_moves _ _ _) fun found => ?_
  cases found with
  | none => exact sysioPbNew_neutral (ListedNodes.quiet_ops ops) _ _ _
  | some b => exact moves_pure _

omit d in
/-- A node that is held keeps its links, and a look-up in the name cache fails for want of memory
only. -/
theorem findAlias_links (ops : OpsMove OffInodes e) {name : Qstr} {s t : Sys D}
    {res : ℤ × Option Pno} (run : sysioPFindAlias e cur name s = .ok (res, t))
    (lists : NodeLists s) (hcur : 0 < refs s cur) :
    links (t.nc.pnode cur) = links (s.nc.pnode cur) ∧ t.mt = s.mt ∧
      (res.2 = none → res.1 = -ENOMEM) := by
  obtain ⟨n, _, hread, h1⟩ := bind_ok.mp run
  obtain ⟨-, rfl⟩ := read_ok.mp hread
  obtain ⟨found, u, hu, h2⟩ := bind_ok.mp h1
  have ku : SameLinks s u := findBase_links ops _ _ _ _ _ hu
  obtain ⟨listsu, hrefs⟩ := findBase_neutral ops _ _ _ _ _ hu lists
  cases found with
  | none =>
    obtain ⟨rfl, rfl⟩ := pure_ok.mp h2
    exact ⟨ku.links cur, ku.mt, fun _ => rfl⟩
  | some b =>
    obtain ⟨rb, _, hread, h3⟩ := bind_ok.mp h2
    obtain ⟨-, rfl⟩ := deref_ok.mp hread
    obtain ⟨known, v, hv, h4⟩ := bind_ok.mp h3
    obtain rfl : u = v := findAliasOf_moves _ _ _ _ _ hv
    cases known with
    | some p =>
      obtain ⟨_, w, hw, h5⟩ := bind_ok.mp h4
      obtain ⟨rfl, rfl⟩ := pure_ok.mp h5
      have kw := IsTrans.trans _ _ _ ku (pRef_links p _ _ _ hw)
      exact ⟨kw.links cur, kw.mt, by simp⟩
    | none =>
      obtain ⟨n', _, hread, h5⟩ := bind_ok.mp h4
      obtain ⟨-, rfl⟩ := read_ok.mp hread
      obtain ⟨made, w, hw, h6⟩ := bind_ok.mp h5
      have hmem : cur ∈ u.nc.pnodes := refs_pos_mem (by rw [hrefs]; exact hcur)
      obtain ⟨hl, hmt⟩ := newAlias_links hw listsu hmem
      cases made with
      | none =>
        obtain ⟨rfl, rfl⟩ := pure_ok.mp h6
        exact ⟨hl.trans (ku.links cur), hmt.trans ku.mt, fun _ => rfl⟩
      | some p =>
        obtain ⟨rfl, rfl⟩ := pure_ok.mp h6
        exact ⟨hl.trans (ku.links cur), hmt.trans ku.mt, by simp⟩

include hr in
/-- A name leads to a node the walk then owns, or memory has run out. -/
theorem named_stands (name : Bytes) :
    Triple (Stands I r cur []) (named e cur name) fun res s =>
      Stands I r cur res.2.toList s ∧
        ((res.1 = 0 ∧ res.2.isSome) ∨ (res.1 = -ENOMEM ∧ res.2 = none)) := by
  refine triple_ite (fun _ => ?_) fun _ => triple_ite (fun _ => ?_) fun _ => ?_
  · exact triple_bind (pRef_stands d cur) fun _ => triple_pure fun s hs => ⟨hs, Or.inl ⟨rfl, rfl⟩⟩
  · exact triple_bind (triple_same (pnodeAt_moves cur)) fun n =>
      triple_bind (pRef_stands d n.parent) fun _ => triple_pure fun s hs =>
      ⟨hs, Or.inl ⟨rfl, rfl⟩⟩
  · intro s hs res t run
    obtain ⟨held, hsome, hnone⟩ := sysioPFindAlias_held (ListedNodes.quiet_ops d.off) cur _ s hs.held
      res t run
    have hcur : 0 < refs s cur := by
      have hcount := hs.held.count cur
      have := hr cur
      simp only [List.nil_append, List.count_singleton_self] at hcount
      omega
    obtain ⟨same, mt, herr⟩ := findAlias_links d.off run hs.held.lists hcur
    have placed := hs.placed.of_links same mt
    have free := InodeMoves.findAlias_moves (InodeMoves.outside_files d.outside) d.iRele cur _ s res t run hs.free
    refine ⟨⟨held, free, placed⟩, ?_⟩
    by_cases h0 : res.1 = 0
    · exact Or.inl ⟨h0, hsome h0⟩
    · exact Or.inr ⟨herr (hnone h0), hnone h0⟩

include hr in
/-- A step down holds the node it arrives at. -/
theorem child_stands (name : Bytes) :
    Triple (Stands I r cur []) (child e cur name) fun res s =>
      Stands I r cur res.2.toList s ∧ (∀ p, res.2 = some p → res.1 = 0 → Live p s ∧ Placed p s) ∧
        (res.2 = none → res.1 = -ENOMEM) := by
  refine triple_bind (named_stands d hr name) fun res => ?_
  obtain ⟨err, found⟩ := res
  cases found with
  | none =>
    refine triple_pure fun s hs => ⟨hs.1, by simp, fun _ => ?_⟩
    rcases hs.2 with ⟨-, h⟩ | ⟨h, -⟩
    · cases h
    · exact h
  | some p =>
    refine triple_weaken ?_ (fun s hs => hs.1) fun _ _ h => h
    refine triple_bind stands_read fun depth => triple_bind (toTopCover_stands d hr _ p) fun q => ?_
    intro s hs res t run
    obtain ⟨err, u, hu, h1⟩ := bind_ok.mp run
    obtain ⟨rfl, rfl⟩ := pure_ok.mp h1
    have validated : Triple (Stands I r cur [q]) (sysioPValidate e q none none)
        fun _ => Stands I r cur [q] :=
      stands_of_held (Held.neutral (validate_neutral d q)) (validate_stays d q)
        ((validate_still d q).mono still_links)
    refine ⟨validated s hs err u hu, ?_, by simp⟩
    rintro p hp rfl
    obtain rfl := Option.some.inj hp
    exact validate_live d hu

end Steps

section Exits

theorem nonNull_some {α : Type} (a : α) : (nonNull (some a) : Sysio D α) = pure a := rfl

/-- The walk leaves at the parent of what it did not find. -/
theorem walkExit_up {err : ℤ} (herr : err ≠ 0) (cur : Pno) :
    (walkExit err none (some cur) : Sysio D _) = do
      pRele cur
      return (err, none) := by
  simp [walkExit, walkResult, nonNull_some, herr, ifSome]

theorem walkExit_found (err : ℤ) (p cur : Pno) :
    (walkExit err (some p) (some cur) : Sysio D _) = do
      pRele cur
      if err ≠ 0 then do
        pRele p
        return (err, none)
      else
        return (err, some p) := by
  simp [walkExit, walkResult, ifSome]

theorem walkExit_end (cur : Pno) :
    (walkExit 0 (some cur) none : Sysio D _) = pure (0, some cur) := by
  simp [walkExit, walkResult, ifSome]

theorem foldlM_failed {e : Env D} (err : ℤ) (names : List Bytes) :
    names.foldlM (walkStep e) (.failed err) = pure (.failed err) := by
  induction names with
  | nil => rfl
  | cons name names ih => simpa [List.foldlM_cons, walkStep] using ih

end Exits

section Walk

variable {e : Env D} {I : Sys D → Prop} (d : LinkFree e I) {r : Pno → ℤ} (hr : ∀ q, 0 ≤ r q)

theorem Live.inoOf {p : Pno} {s : Sys D} (h : Live p s) :
    ∃ i ri, inoOf p s = .ok (some i, s) ∧ inodeAt i s = .ok (ri, s) ∧ s.ic.inode i = some ri := by
  obtain ⟨b, i, ri, hb, hi, hri⟩ := h
  refine ⟨i, ri, ?_, ?_, hri⟩
  · simp only [SysioInode.inoOf, pnodeAt, baseAt, bind_ok, read_ok, deref_ok, pure_ok]
    exact ⟨_, s, ⟨rfl, rfl⟩, b, s, ⟨hb, rfl⟩, hi, rfl⟩
  · exact deref_ok.mpr ⟨hri, rfl⟩

include d hr

/-- The look-up of a component is a step down. -/
theorem lookup_child {cur : Pno} {s : Sys D} (hs : Stands I r cur [] s) (live : Live cur s)
    (name : Bytes) (intnt : Option Intent) (path : Option Bytes) :
    lookup e cur ⟨name, nameHash name⟩ intnt path false s = child e cur name s := by
  obtain ⟨i, ri, hino, -, -⟩ := live.inoOf
  unfold lookup
  rw [bind_run hino]
  simp only [reduceCtorEq, if_false, Bool.false_eq_true, pure_bind, ne_eq, not_true_eq_false]
  refine bind_same (m := named e cur name) rfl fun res t run => ?_
  obtain ⟨-, hres⟩ := named_stands d hr name s hs res t run
  obtain ⟨err, found⟩ := res
  cases found with
  | none =>
    have herr : err ≠ 0 := by
      rcases hres with ⟨-, h⟩ | ⟨h, -⟩
      · cases h
      · rw [show err = -ENOMEM from h]
        simp [ENOMEM]
    simp [herr]
  | some p =>
    have herr : err = 0 := by
      rcases hres with ⟨h, -⟩ | ⟨-, h⟩
      · exact h
      · cases h
    simp only [herr, not_true_eq_false, if_false, nonNull_some, pure_bind, d.validate_hints]

omit hr in
/-- The head of a round: nothing to follow. -/
theorem walkLoop_head (follow : Option (Follow D)) (nd : Nameidata) {cur : Pno} {s : Sys D}
    (hs : Stands I r cur [] s) (live : Live cur s) {α : Type} (k : ℤ × Pno → Sysio D α)
    (last : Bool) (c : Prop) [Decidable c] :
    (do
      let i ← nonNull (← inoOf cur)
      let ri ← inodeAt i
      let res ← (if ri.stbuf.isLnk ∧ c then followLink e follow nd last cur i else pure (0, cur))
      k res) s = k (0, cur) s := by
  obtain ⟨i, ri, hino, hread, hri⟩ := live.inoOf
  rw [bind_run hino, nonNull_some, pure_bind, bind_run hread]
  simp only [d.links hs.free hri, Bool.false_eq_true, false_and, if_false, pure_bind]

/-- Where a step has succeeded, the walk gives the node behind it back and stands at the new one. -/
theorem hand_over {cur p : Pno} {s t : Sys D} {u : Unit} (hs : Stands I r cur [p] s)
    (live : Live p s) (placed : Placed p s) (run : pRele cur s = .ok (u, t)) :
    Stands I r p [] t ∧ Live p t := by
  have same := pRele_links cur s u t run
  have held : Held r [p] t := pRele_held hr cur s (hs.held.perm (List.Perm.swap _ _ _)) u t run
  refine ⟨⟨held, InodeMoves.outside_pRele (InodeMoves.outside_files d.outside) cur s u t run hs.free,
    placed.of_links (same.links p) same.mt⟩, ?_⟩
  obtain ⟨_, _, hc, hw⟩ := bind_ok.mp run
  obtain ⟨-, rfl⟩ := check_ok.mp hc
  obtain rfl := write_ok.mp hw
  exact live.of_links (same.links p) rfl rfl

theorem walkLoop_fold (follow : Option (Follow D)) (nd : Nameidata)
    (hperm : nd.flags &&& ND_NOPERMCHECK ≠ 0) (comps : List Component)
    (hashed : ∀ c ∈ comps, Hashed c.qstr) (path : Option Bytes) {cur : Pno} {s : Sys D}
    (hs : Stands I r cur [] s) (live : Live cur s) :
    walkLoop e follow nd comps path cur s =
      ((comps.map (·.qstr.name)).foldlM (walkStep e) (.here cur) >>= walkEnd nd.flags) s := by
  induction comps generalizing path cur s with
  | nil =>
    unfold walkLoop
    rw [walkLoop_head d follow nd hs live]
    simp [walkExit_end, walkEnd]
  | cons this rest ih =>
    unfold walkLoop
    rw [walkLoop_head d follow nd hs live]
    obtain ⟨i, ri, hino, hread, hri⟩ := live.inoOf
    simp only [ne_eq, not_true_eq_false, if_false, List.map_cons, List.foldlM_cons]
    rw [bind_run hino]
    change (inodeAt i >>= _) s = _
    rw [bind_run hread]
    have hstep : walkStep e (.here cur) this.qstr.name s =
        (if !ri.stbuf.isDir then do
          pRele cur
          return .failed (-ENOTDIR)
        else do
          let res ← child e cur this.qstr.name
          pRele cur
          settle res : Sysio D Place) s := by
      change (inoOf cur >>= _) s = _
      rw [bind_run hino, nonNull_some, pure_bind, bind_run hread]
    rw [bind_assoc, bind_same hstep fun _ _ _ => rfl]
    cases hdir : ri.stbuf.isDir with
    | false => simp [walkExit_up, ENOTDIR, foldlM_failed, walkEnd]
    | true =>
      simp only [Bool.not_true, Bool.false_eq_true, if_false, bind_assoc]
      have hq : this.qstr = ⟨this.qstr.name, nameHash this.qstr.name⟩ := by
        rw [← (hashed this (List.mem_cons_self ..)).2]
      rw [hq, decide_eq_false hperm]
      refine bind_same (lookup_child d hr hs live _ _ _) fun res t run => ?_
      obtain ⟨hstands, hlive, hnone⟩ := child_stands d hr _ s hs res t run
      obtain ⟨err, found⟩ := res
      cases found with
      | none =>
        have herr : err = -ENOMEM := hnone rfl
        simp [herr, ENOMEM, ENOENT, walkExit_up, settle, foldlM_failed, walkEnd]
      | some p =>
        by_cases h0 : err = 0
        · subst h0
          obtain ⟨live', mp, hmp⟩ := hlive p rfl rfl
          obtain ⟨mc, hmc⟩ := hstands.placed
          have node : ∀ q : Pno, pnodeAt q t = .ok (t.nc.pnode q, t) := fun q => rfl
          have mount : ∀ {m : MntId} {x}, t.mt.mount m = some x → mountAt m t = .ok (x, t) :=
            fun h => deref_ok.mpr ⟨h, rfl⟩
          simp only [not_true_eq_false, if_false, nonNull_some, pure_bind]
          rw [bind_run (node cur), bind_run (node p), bind_run (mount hmc), bind_run (mount hmp)]
          refine bind_same (m := pRele cur) rfl fun _ u hu => ?_
          obtain ⟨hs', live''⟩ := hand_over d hr hstands live' ⟨mp, hmp⟩ hu
          rw [ih (fun c hc => hashed c (List.mem_cons_of_mem _ hc)) _ hs' live'']
          simp [settle]
        · by_cases hgone : err = -ENOENT
          · cases rest with
            | nil =>
              by_cases hneg : nd.flags &&& ND_NEGOK = 0
              · simp [hgone, hneg, walkExit_found, settle, walkEnd, ENOENT]
              · simp [hgone, hneg, walkExit_found, settle, walkEnd, ENOENT]
            | cons next rest =>
              simp [hgone, walkExit_found, settle, foldlM_failed, walkEnd, walkStep, ENOENT]
          · simp [h0, hgone, walkExit_found, settle, foldlM_failed, walkEnd]

omit hr in
/-- The walk is the fold of one step over the names of its path. -/
theorem sysioPathWalk_names {s : Sys D} (lists : NodeLists s) (free : I s) (parent : Option Pno)
    (nd : Nameidata) {path : Bytes} (hpath : nd.path = some path) (hne : path ≠ [])
    (hperm : nd.flags &&& ND_NOPERMCHECK ≠ 0) :
    sysioPathWalk e parent nd s =
      walkNames e nd.flags (if path.head? = some PATH_SEPARATOR then nd.root else parent)
        (pathNames path) s := by
  obtain ⟨c, l, rfl⟩ := List.exists_cons_of_ne_nil hne
  change walkFrom e _ parent nd s = _
  unfold walkFrom
  rw [hpath]
  simp only [List.head?_cons, Option.some.injEq]
  refine bind_same (m := nonNull _) rfl fun start v hv => ?_
  obtain ⟨-, rfl⟩ := deref_ok.mp hv
  refine bind_same (m := sysioPValidate e start none none) rfl fun err t ht => ?_
  refine ite_same (fun _ => rfl) fun herr => ?_
  obtain rfl : err = 0 := not_not.mp herr
  refine bind_same (m := pRef start) rfl fun _ u hu => ?_
  have still := validate_still d start s 0 t ht
  obtain ⟨live, placed⟩ := validate_live d ht
  have same := pRef_links start t _ u hu
  have hheld : Held (refs s) [start] u := by
    have start_ : Held (refs s) [] s := ⟨lists, fun q => by simp⟩
    have valid := Held.neutral (validate_neutral d start) s start_ 0 t ht
    exact pRef_held start t valid _ u hu
  have hfree : I u := InodeMoves.outside_pRef (InodeMoves.outside_files d.outside) start t _ u hu
    (validate_stays d start s 0 t ht free)
  have hlive : Live start u := by
    obtain ⟨_, _, hc, hw⟩ := bind_ok.mp hu
    obtain ⟨-, rfl⟩ := check_ok.mp hc
    obtain rfl := write_ok.mp hw
    exact live.of_links (same.links start) rfl rfl
  rw [walkLoop_fold d (refs_nonneg s) _ nd hperm _ (components_hashed _) _
    ⟨hheld, hfree, placed.of_links (same.links start) same.mt⟩ hlive, components_names]

omit hr in
/-- Path walks by reference: with permissions left aside the walk is the fold of one step over the
names of its path, from the root of the name space or from the starting directory, and a separator
more changes nothing. -/
theorem path_walk_reference {s : Sys D} (lists : NodeLists s) (free : I s) (parent : Option Pno)
    (nd : Nameidata) {path : Bytes} (hpath : nd.path = some path) (hne : path ≠ [])
    (hperm : nd.flags &&& ND_NOPERMCHECK ≠ 0) :
    sysioPathWalk e parent nd s =
        walkNames e nd.flags (if path.head? = some PATH_SEPARATOR then nd.root else parent)
          (pathNames path) s ∧
      ∀ left right, path = left ++ PATH_SEPARATOR :: right →
        sysioPathWalk e parent
          { nd with path := some (left ++ PATH_SEPARATOR :: PATH_SEPARATOR :: right) } s =
            sysioPathWalk e parent nd s := by
  refine ⟨sysioPathWalk_names d lists free parent nd hpath hne hperm, ?_⟩
  rintro left right rfl
  have twice : pathNames (left ++ PATH_SEPARATOR :: PATH_SEPARATOR :: right) =
      pathNames (left ++ PATH_SEPARATOR :: right) := by
    rw [pathNames_append, pathNames_append, pathNames_separator]
  have first : (left ++ PATH_SEPARATOR :: PATH_SEPARATOR :: right).head? =
      (left ++ PATH_SEPARATOR :: right).head? := by
    cases left <;> rfl
  rw [sysioPathWalk_names d lists free parent nd hpath hne hperm, ← twice, ← first]
  exact sysioPathWalk_names d lists free parent
    { nd with path := some (left ++ PATH_SEPARATOR :: PATH_SEPARATOR :: right) } rfl
    (by simp) hperm

end Walk

section Fuse

open FuseDriver FuseMoves FusePlain FuseSystem

variable {B : Type} {h : Host B}

theorem sysioIFind_live {fs : FsId} {fid : ℕ} {i : InoId} {s t : Sys D}
    (run : sysioIFind fs fid s = .ok (some i, t)) : ∃ r, t.ic.inode i = some r := by
  obtain ⟨f, _, hread, h1⟩ := bind_ok.mp run
  obtain ⟨-, rfl⟩ := deref_ok.mp hread
  obtain ⟨found, u, hu, h2⟩ := bind_ok.mp h1
  cases found with
  | none =>
    obtain ⟨hnone, -⟩ := pure_ok.mp h2
    cases hnone
  | some j =>
    obtain ⟨_, v, hv, h3⟩ := bind_ok.mp h2
    obtain ⟨hj, rfl⟩ := pure_ok.mp h3
    obtain rfl := Option.some.inj hj
    obtain ⟨r, _, hread, hw⟩ := bind_ok.mp hv
    obtain ⟨-, rfl⟩ := deref_ok.mp hread
    obtain rfl := write_ok.mp hw
    exact ⟨_, Function.update_self ..⟩

theorem sysioINew_live {e : Env D} {fs : FsId} {fid : ℕ} {stat : Stat} {immunity : Bool} {priv : ℕ}
    {i : InoId} {s t : Sys D} (run : sysioINew e fs fid stat immunity priv s = .ok (some i, t)) :
    ∃ r, t.ic.inode i = some r := by
  obtain ⟨ic, _, hread, h1⟩ := bind_ok.mp run
  obtain ⟨-, rfl⟩ := read_ok.mp hread
  obtain ⟨_, u, -, h2⟩ := bind_ok.mp h1
  obtain ⟨ok, v, -, h3⟩ := bind_ok.mp h2
  by_cases hok : (!ok) = true
  · rw [if_pos hok] at h3
    obtain ⟨hnone, -⟩ := pure_ok.mp h3
    cases hnone
  · rw [if_neg hok] at h3
    simp only [bind_ok, read_ok, fsAt, deref_ok, write_ok, setFs, pure_ok, Option.some.injEq] at h3
    obtain ⟨j, _, ⟨rfl, rfl⟩, f, _, ⟨-, rfl⟩, _, _, rfl, _, _, rfl, rfl, rfl⟩ := h3
    exact ⟨_, Function.update_self ..⟩

/-- What the fuse driver's look-up finds is an inode. -/
theorem fuseInopLookup_live {p : Pno} {o o' : Option InoId} {s t : Sys (FuseData B)}
    (run : fuseInopLookup h p o s = .ok ((0, o'), t)) : ∃ j r, o' = some j ∧ t.ic.inode j = some r := by
  cases o with
  | some i =>
    simp only [fuseInopLookup, i2fi, finodeAt, inodeAt, setInode, bind_ok, deref_ok, pure_ok,
      write_ok, Prod.mk.injEq, true_and] at run
    obtain ⟨k, _, -, fino, _, -, r, _, -, _, _, rfl, rfl, rfl⟩ := run
    exact ⟨i, _, rfl, Function.update_self ..⟩
  | none =>
    obtain ⟨n, _, -, h1⟩ := bind_ok.mp run
    obtain ⟨d, _, -, h2⟩ := bind_ok.mp h1
    obtain ⟨d, _, -, h3⟩ := bind_ok.mp h2
    obtain ⟨rd, _, -, h4⟩ := bind_ok.mp h3
    obtain ⟨r, _, -, h5⟩ := bind_ok.mp h4
    obtain ⟨data, u, -, h6⟩ := bind_ok.mp h5
    cases hprobe : fuseDirectoryProbe data r.name.name with
    | none =>
      simp only [hprobe, pure_ok, Prod.mk.injEq] at h6
      simp [ENOENT] at h6
    | some de =>
      simp only [hprobe] at h6
      obtain ⟨found, v, hv, h7⟩ := bind_ok.mp h6
      cases found with
      | some i =>
        simp only [pure_ok, Prod.mk.injEq, true_and] at h7
        obtain ⟨rfl, rfl⟩ := h7
        obtain ⟨ri, hri⟩ := sysioIFind_live hv
        exact ⟨i, ri, rfl, hri⟩
      | none =>
        obtain ⟨fino, _, -, h8⟩ := bind_ok.mp h7
        obtain ⟨made, w, hw, h9⟩ := bind_ok.mp h8
        cases made with
        | none => simp [ENOENT] at h9
        | some i =>
          simp only [pure_ok, Prod.mk.injEq, true_and] at h9
          obtain ⟨rfl, rfl⟩ := h9
          obtain ⟨ri, hri⟩ := sysioINew_live hw
          exact ⟨i, ri, rfl, hri⟩

theorem fuse_linkFree : LinkFree (fuseEnv h) Plain where
  off := fuseEnv_off
  hints _ _ _ _ _ := rfl
  live run := fuseInopLookup_live run
  gone i j _ s _ t run := congrFun (congrArg InodeCache.inode (fuseInopGone_driver i s _ t run).ic) j
  links hs hi := hs.inode _ _ hi
  outside s t ic drv := (evolve_of_eq s t ic drv).plain
  lookup _ p o := (fuseInopLookup_evolve p o).mono fun _ _ k => k.plain
  iRele i := (iRele_evolve (fun _ => rfl) i).mono fun _ _ k => k.plain

end Fuse

section Mounted

open Dispatch FuseDriver FuseSystem PlainRuns

/-- A walk to "/b/f", where a file system is mounted on "/b". -/
def toFile : Nameidata :=
  { flags := ND_NOPERMCHECK, path := some [47, 98, 47, 102], root := some 110, intent := none }

/-- The walk goes from the root over the mount to the file that is open there. -/
theorem path_walk_reference_mounted :
    sysioPathWalk (fuseEnv calmHost) none toFile (calmRun fileOpen) =
        walkNames (fuseEnv calmHost) ND_NOPERMCHECK (some 110) [[98], [102]] (calmRun fileOpen) ∧
      sysioPathWalk (fuseEnv calmHost) none { toFile with path := some [47, 98, 47, 47, 102] }
          (calmRun fileOpen) =
        sysioPathWalk (fuseEnv calmHost) none toFile (calmRun fileOpen) ∧
      (walkNames (fuseEnv calmHost) ND_NOPERMCHECK (some 110) [[98], [102]]).value
          (calmRun fileOpen) = some (0, some 107) ∧
      ((calmRun fileOpen).nc.pnode 107).mount = 1 := by
  have lists := ListedNodes.reached_lists fileOpen_reached
  have free := (reached_tidy fileOpen_reached).plain
  have value : (walkNames (fuseEnv calmHost) ND_NOPERMCHECK (some 110) [[98], [102]]).value
      (calmRun fileOpen) = some (0, some 107) := by decide +kernel
  have mount : ((calmRun fileOpen).nc.pnode 107).mount = 1 := by decide +kernel
  obtain ⟨fold, more⟩ := path_walk_reference fuse_linkFree lists free none toFile
    (show toFile.path = some [47, 98, 47, 102] from rfl) (by decide) (by decide)
  exact ⟨fold, more [47, 98] [102] rfl, value, mount⟩

end Mounted

end WalkFold
