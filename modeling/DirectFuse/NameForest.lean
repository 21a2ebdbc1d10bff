import DirectFuse.PathRefs
import DirectFuse.Tally

/-! The forest that base nodes and path nodes form, and the edits of it. Base nodes are linked to
their parents and to the chains of the names table, path nodes are aliases of base nodes and hang
below path nodes of the same mount, except for the roots of mounts. -/
namespace NameForest

open ExecLogic SysioState SysioInode SysioNamei CoreMoves Tally PathRefs

/-- The links of a name cache, where `root` tells which path nodes are roots of mounts. -/
structure Forest (root : Pno → Prop) (nc : NameCache) : Prop where
  nodup : nc.pnodes.Nodup
  freeNodup : nc.freePnodes.Nodup
  apart : ∀ p ∈ nc.freePnodes, p ∉ nc.pnodes
  pnodeBound : ∀ p : ℕ, p ∈ nc.pnodes ∨ p ∈ nc.freePnodes → p < nc.nextPnode
  baseBound : ∀ b : ℕ, nc.nextBase ≤ b → nc.base b = none
  alias_ : ∀ b r, nc.base b = some r → ∀ p, p ∈ r.aliases ↔ p ∈ nc.pnodes ∧ (nc.pnode p).base = b
  aliasNodup : ∀ b r, nc.base b = some r → r.aliases.Nodup
  based : ∀ p ∈ nc.pnodes, ∃ r, nc.base (nc.pnode p).base = some r
  child : ∀ b r, nc.base b = some r →
    ∀ c, c ∈ r.children ↔ ∃ rc, nc.base c = some rc ∧ rc.parent = some b
  childNodup : ∀ b r, nc.base b = some r → r.children.Nodup
  parent : ∀ (b : ℕ) r (q : ℕ), nc.base b = some r → r.parent = some q →
    q < b ∧ ∃ rq, nc.base q = some rq
  chain : ∀ k b, b ∈ nc.names k ↔
    ∃ r, nc.base b = some r ∧ r.name.name ≠ [] ∧ r.name.hashval % NAMES_TABLE_LEN = k
  chainNodup : ∀ k, (nc.names k).Nodup
  hashed : ∀ b r, nc.base b = some r → r.name.name ≠ [] →
    r.name.hashval = nameHash r.name.name ∧ r.name.hashval ≠ 0
  unique : ∀ b c rb rc q, nc.base b = some rb → nc.base c = some rc → rb.parent = some q →
    rc.parent = some q → rb.name.name = rc.name.name → b = c
  nNames : nc.nNames = tally nc.nextBase nc.base fun _ => true
  inside : ∀ p ∈ nc.pnodes, ¬ root p → (nc.pnode p).parent ∈ nc.pnodes ∧
    (nc.pnode (nc.pnode p).parent).mount = (nc.pnode p).mount ∧
    ∃ r, nc.base (nc.pnode p).base = some r ∧
      r.parent = some (nc.pnode (nc.pnode p).parent).base
  oneAlias : ∀ p ∈ nc.pnodes, ∀ q ∈ nc.pnodes, (nc.pnode p).base = (nc.pnode q).base →
    (nc.pnode p).parent = (nc.pnode q).parent → (nc.pnode p).mount = (nc.pnode q).mount → p = q

variable {root : Pno → Prop} {nc : NameCache}

theorem Forest.lt_nextBase (hf : Forest root nc) {b : ℕ} {r : PnodeBase}
    (h : nc.base b = some r) : b < nc.nextBase := by
  by_contra hb
  rw [hf.baseBound b (by omega)] at h
  cases h

theorem Forest.mono {root' : Pno → Prop} (hf : Forest root nc)
    (h : ∀ p ∈ nc.pnodes, root p → root' p) : Forest root' nc :=
  { hf with inside := fun p hp hr => hf.inside p hp fun hroot => hr (h p hp hroot) }

theorem Forest.lists {D : Type} {s : Sys D} (hf : Forest root s.nc) : NodeLists s :=
  ⟨hf.nodup, hf.freeNodup, hf.apart, fun p hp => hf.pnodeBound p (Or.inl hp),
    fun p hp => hf.pnodeBound p (Or.inr hp)⟩

section Shape

/-- What a base node is apart from the inode it stands for. -/
def unbound (r : PnodeBase) : PnodeBase := { r with ino := none }

/-- The links of a path node, without its count and its cover. -/
def links (n : Pnode) : Pno × PbId × MntId := (n.parent, n.base, n.mount)

/-- Two name caches with the same links. Counts, covers, inodes and the order of the queue may
differ. -/
structure SameShape (nc nc' : NameCache) : Prop where
  pnode : ∀ p, links (nc'.pnode p) = links (nc.pnode p)
  base : ∀ b, (nc'.base b).map unbound = (nc.base b).map unbound
  pnodes : nc'.pnodes.Perm nc.pnodes
  freePnodes : nc'.freePnodes = nc.freePnodes
  names : nc'.names = nc.names
  nNames : nc'.nNames = nc.nNames
  nextPnode : nc'.nextPnode = nc.nextPnode
  nextBase : nc'.nextBase = nc.nextBase

theorem SameShape.refl (nc : NameCache) : SameShape nc nc :=
  ⟨fun _ => rfl, fun _ => rfl, List.Perm.refl _, rfl, rfl, rfl, rfl, rfl⟩

theorem SameShape.trans {nc nc' nc'' : NameCache} (h : SameShape nc nc') (k : SameShape nc' nc'') :
    SameShape nc nc'' :=
  ⟨fun p => (k.pnode p).trans (h.pnode p), fun b => (k.base b).trans (h.base b),
    k.pnodes.trans h.pnodes, k.freePnodes.trans h.freePnodes, k.names.trans h.names,
    k.nNames.trans h.nNames, k.nextPnode.trans h.nextPnode, k.nextBase.trans h.nextBase⟩

variable {nc' : NameCache}

theorem SameShape.some (h : SameShape nc nc') {b : PbId} {r' : PnodeBase}
    (hr : nc'.base b = some r') : ∃ r, nc.base b = some r ∧ unbound r = unbound r' := by
  have hb := h.base b
  rw [hr] at hb
  cases hn : nc.base b with
  | none => simp [hn] at hb
  | some r =>
    refine ⟨r, rfl, ?_⟩
    simp only [hn, Option.map_some, Option.some.injEq] at hb
    exact hb.symm

theorem SameShape.symm (h : SameShape nc nc') : SameShape nc' nc :=
  ⟨fun p => (h.pnode p).symm, fun b => (h.base b).symm, h.pnodes.symm, h.freePnodes.symm,
    h.names.symm, h.nNames.symm, h.nextPnode.symm, h.nextBase.symm⟩

theorem unbound_eq {r r' : PnodeBase} (h : unbound r = unbound r') : r.name = r'.name ∧
    r.children = r'.children ∧ r.aliases = r'.aliases ∧ r.parent = r'.parent := by
  simp only [unbound, PnodeBase.mk.injEq] at h
  exact ⟨h.1, h.2.2.1, h.2.2.2.1, h.2.2.2.2⟩

theorem links_eq {n n' : Pnode} (h : links n = links n') :
    n.parent = n'.parent ∧ n.base = n'.base ∧ n.mount = n'.mount := by
  simp only [links, Prod.mk.injEq] at h
  exact ⟨h.1, h.2.1, h.2.2⟩

theorem Forest.sameShape (hf : Forest root nc) (h : SameShape nc nc') : Forest root nc' := by
  have node : ∀ p, (nc'.pnode p).parent = (nc.pnode p).parent ∧
      (nc'.pnode p).base = (nc.pnode p).base ∧ (nc'.pnode p).mount = (nc.pnode p).mount :=
    fun p => links_eq (h.pnode p)
  have mem : ∀ p, p ∈ nc'.pnodes ↔ p ∈ nc.pnodes := fun p => h.pnodes.mem_iff
  -- every base node of one cache is one of the other
  have old : ∀ b r', nc'.base b = some r' → ∃ r, nc.base b = some r ∧ r.name = r'.name ∧
      r.children = r'.children ∧ r.aliases = r'.aliases ∧ r.parent = r'.parent := by
    intro b r' hr
    obtain ⟨r, hr, he⟩ := h.some hr
    exact ⟨r, hr, unbound_eq he⟩
  have new : ∀ b r, nc.base b = some r → ∃ r', nc'.base b = some r' ∧ r'.name = r.name ∧
      r'.parent = r.parent := by
    intro b r hr
    obtain ⟨r', hr', he⟩ := h.symm.some hr
    exact ⟨r', hr', (unbound_eq he).1, (unbound_eq he).2.2.2⟩
  constructor
  case nodup => exact h.pnodes.nodup_iff.mpr hf.nodup
  case freeNodup => rw [h.freePnodes]; exact hf.freeNodup
  case apart =>
    intro p hp
    rw [h.freePnodes] at hp
    rw [mem]
    exact hf.apart p hp
  case pnodeBound =>
    intro p hp
    rw [mem, h.freePnodes] at hp
    rw [h.nextPnode]
    exact hf.pnodeBound p hp
  case baseBound =>
    intro b hb
    rw [h.nextBase] at hb
    have hbase := h.base b
    rw [hf.baseBound b hb] at hbase
    simpa using hbase
  case alias_ =>
    intro b r' hr p
    obtain ⟨r, hr, -, -, hal, -⟩ := old b r' hr
    rw [← hal, hf.alias_ b r hr p, mem, (node p).2.1]
  case aliasNodup =>
    intro b r' hr
    obtain ⟨r, hr, -, -, hal, -⟩ := old b r' hr
    rw [← hal]
    exact hf.aliasNodup b r hr
  case based =>
    intro p hp
    rw [mem] at hp
    obtain ⟨r, hr⟩ := hf.based p hp
    obtain ⟨r', hr', -⟩ := new _ r hr
    rw [(node p).2.1]
    exact ⟨r', hr'⟩
  case child =>
    intro b r' hr c
    obtain ⟨r, hr, -, hch, -, -⟩ := old b r' hr
    rw [← hch, hf.child b r hr c]
    constructor
    · rintro ⟨rc, hrc, hp⟩
      obtain ⟨rc', hrc', -, hp'⟩ := new c rc hrc
      exact ⟨rc', hrc', hp'.trans hp⟩
    · rintro ⟨rc', hrc', hp⟩
      obtain ⟨rc, hrc, -, -, -, hp'⟩ := old c rc' hrc'
      exact ⟨rc, hrc, hp'.trans hp⟩
  case childNodup =>
    intro b r' hr
    obtain ⟨r, hr, -, hch, -, -⟩ := old b r' hr
    rw [← hch]
    exact hf.childNodup b r hr
  case parent =>
    intro b r' q hr hq
    obtain ⟨r, hr, -, -, -, hp⟩ := old b r' hr
    obtain ⟨hlt, rq, hrq⟩ := hf.parent b r q hr (hp.trans hq)
    obtain ⟨rq', hrq', -⟩ := new q rq hrq
    exact ⟨hlt, rq', hrq'⟩
  case chain =>
    intro k b
    rw [h.names, hf.chain k b]
    constructor
    · rintro ⟨r, hr, hname, hk⟩
      obtain ⟨r', hr', hn, -⟩ := new b r hr
      exact ⟨r', hr', by rwa [hn], by rwa [hn]⟩
    · rintro ⟨r', hr', hname, hk⟩
      obtain ⟨r, hr, hn, -⟩ := old b r' hr'
      exact ⟨r, hr, by rwa [hn], by rwa [hn]⟩
  case chainNodup =>
    intro k
    rw [h.names]
    exact hf.chainNodup k
  case hashed =>
    intro b r' hr hname
    obtain ⟨r, hr, hn, -⟩ := old b r' hr
    rw [← hn] at hname ⊢
    exact hf.hashed b r hr hname
  case unique =>
    intro b c rb' rc' q hb hc hpb hpc hname
    obtain ⟨rb, hb, hnb, -, -, hpb'⟩ := old b rb' hb
    obtain ⟨rc, hc, hnc, -, -, hpc'⟩ := old c rc' hc
    refine hf.unique b c rb rc q hb hc (hpb'.trans hpb) (hpc'.trans hpc) ?_
    rw [hnb, hnc]
    exact hname
  case nNames =>
    rw [h.nNames, hf.nNames, h.nextBase]
    apply tally_congr
    intro b _
    have hb := h.base b
    cases hn : nc.base b with
    | none => simp only [hn, Option.map_none, Option.map_eq_none_iff] at hb; rw [hb]
    | some r =>
      obtain ⟨r', hr', -⟩ := new b r hn
      rw [hr', weight_some, weight_some]
  case inside =>
    intro p hp hroot
    rw [mem] at hp
    obtain ⟨hpar, hmnt, r, hr, hrp⟩ := hf.inside p hp hroot
    obtain ⟨r', hr', -, hp'⟩ := new _ r hr
    rw [(node p).1, mem, (node p).2.2, (node (nc.pnode p).parent).2.2, (node p).2.1,
      (node (nc.pnode p).parent).2.1]
    exact ⟨hpar, hmnt, r', hr', hp'.trans hrp⟩
  case oneAlias =>
    intro p hp q hq hb hpar hmnt
    rw [mem] at hp hq
    rw [(node p).2.1, (node q).2.1] at hb
    rw [(node p).1, (node q).1] at hpar
    rw [(node p).2.2, (node q).2.2] at hmnt
    exact hf.oneAlias p hp q hq hb hpar hmnt

end Shape

section Edits

def dropChild (b : PbId) (r : PnodeBase) : PnodeBase := { r with children := r.children.erase b }
def dropAlias (p : Pno) (r : PnodeBase) : PnodeBase := { r with aliases := r.aliases.erase p }

/-- The forest without the base node `b`. -/
def removeBase (nc : NameCache) (b : PbId) : NameCache :=
  { nc with
    base := Function.update (fun c => (nc.base c).map (dropChild b)) b none
    names := fun k => (nc.names k).erase b
    nNames := nc.nNames - 1 }

/-- The forest without the path node `p`. -/
def removePnode (nc : NameCache) (p : Pno) : NameCache :=
  { nc with
    pnodes := nc.pnodes.erase p
    freePnodes := p :: nc.freePnodes
    base := fun c => (nc.base c).map (dropAlias p) }

theorem removeBase_some {b c : PbId} {r' : PnodeBase} :
    (removeBase nc b).base c = some r' ↔
      c ≠ b ∧ ∃ r, nc.base c = some r ∧ dropChild b r = r' := by
  unfold removeBase
  by_cases hc : c = b
  · simp [hc]
  · simp [hc]

theorem removePnode_some {p : Pno} {c : PbId} {r' : PnodeBase} :
    (removePnode nc p).base c = some r' ↔ ∃ r, nc.base c = some r ∧ dropAlias p r = r' := by
  simp [removePnode]

/-- A base node without aliases and children can go. -/
theorem Forest.removeBase (hf : Forest root nc) {b : PbId} {r : PnodeBase}
    (hb : nc.base b = some r) (halias : r.aliases = []) (hchild : r.children = []) :
    Forest root (removeBase nc b) := by
  have noAlias : ∀ p ∈ nc.pnodes, (nc.pnode p).base ≠ b := by
    intro p hp he
    have := (hf.alias_ b r hb p).mpr ⟨hp, he⟩
    simp [halias] at this
  have noChild : ∀ c rc, nc.base c = some rc → rc.parent ≠ some b := by
    intro c rc hc he
    have := (hf.child b r hb c).mpr ⟨rc, hc, he⟩
    simp [hchild] at this
  have keep : ∀ c rc, c ≠ b → nc.base c = some rc →
      (NameForest.removeBase nc b).base c = some (dropChild b rc) := fun c rc hne hc =>
    removeBase_some.mpr ⟨hne, rc, hc, rfl⟩
  constructor
  case nodup => exact hf.nodup
  case freeNodup => exact hf.freeNodup
  case apart => exact hf.apart
  case pnodeBound => exact hf.pnodeBound
  case baseBound =>
    intro c hc
    have hnone := hf.baseBound c hc
    by_contra hne
    obtain ⟨r', hr'⟩ := Option.ne_none_iff_exists'.mp hne
    obtain ⟨-, rc, hrc, -⟩ := removeBase_some.mp hr'
    rw [hnone] at hrc
    cases hrc
  case alias_ =>
    intro c r' hc p
    obtain ⟨-, rc, hrc, rfl⟩ := removeBase_some.mp hc
    exact hf.alias_ c rc hrc p
  case aliasNodup =>
    intro c r' hc
    obtain ⟨-, rc, hrc, rfl⟩ := removeBase_some.mp hc
    exact hf.aliasNodup c rc hrc
  case based =>
    intro p hp
    obtain ⟨rp, hrp⟩ := hf.based p hp
    exact ⟨_, keep _ rp (noAlias p hp) hrp⟩
  case child =>
    intro c r' hc d
    obtain ⟨hne, rc, hrc, rfl⟩ := removeBase_some.mp hc
    change d ∈ rc.children.erase b ↔ _
    rw [(hf.childNodup c rc hrc).mem_erase_iff, hf.child c rc hrc d]
    constructor
    · rintro ⟨hd, rd, hrd, hp⟩
      exact ⟨_, keep d rd hd hrd, hp⟩
    · rintro ⟨rd', hrd', hp⟩
      obtain ⟨hd, rd, hrd, rfl⟩ := removeBase_some.mp hrd'
      exact ⟨hd, rd, hrd, hp⟩
  case childNodup =>
    intro c r' hc
    obtain ⟨-, rc, hrc, rfl⟩ := removeBase_some.mp hc
    exact (hf.childNodup c rc hrc).erase b
  case parent =>
    intro c r' q hc hq
    obtain ⟨-, rc, hrc, rfl⟩ := removeBase_some.mp hc
    obtain ⟨hlt, rq, hrq⟩ := hf.parent c rc q hrc hq
    refine ⟨hlt, _, keep q rq ?_ hrq⟩
    rintro rfl
    exact noChild c rc hrc hq
  case chain =>
    intro k c
    change c ∈ (nc.names k).erase b ↔ _
    rw [(hf.chainNodup k).mem_erase_iff, hf.chain k c]
    constructor
    · rintro ⟨hne, rc, hrc, hname, hk⟩
      exact ⟨_, keep c rc hne hrc, hname, hk⟩
    · rintro ⟨rc', hrc', hname, hk⟩
      obtain ⟨hne, rc, hrc, rfl⟩ := removeBase_some.mp hrc'
      exact ⟨hne, rc, hrc, hname, hk⟩
  case chainNodup => exact fun k => (hf.chainNodup k).erase b
  case hashed =>
    intro c r' hc hname
    obtain ⟨-, rc, hrc, rfl⟩ := removeBase_some.mp hc
    exact hf.hashed c rc hrc hname
  case unique =>
    intro c d rc' rd' q hc hd hpc hpd hname
    obtain ⟨-, rc, hrc, rfl⟩ := removeBase_some.mp hc
    obtain ⟨-, rd, hrd, rfl⟩ := removeBase_some.mp hd
    exact hf.unique c d rc rd q hrc hrd hpc hpd hname
  case nNames =>
    have hlt := hf.lt_nextBase hb
    have hup := tally_update hlt (fun c => (nc.base c).map (dropChild b)) none fun _ => true
    rw [tally_map (dropChild b) fun _ => rfl] at hup
    simp only [hb, Option.map_some, weight_some, weight_none, if_true] at hup
    have hn := hf.nNames
    change nc.nNames - 1 = tally nc.nextBase
      (Function.update (fun c => (nc.base c).map (dropChild b)) b none) fun _ => true
    omega
  case inside =>
    intro p hp hroot
    obtain ⟨hpar, hmnt, rp, hrp, hpp⟩ := hf.inside p hp hroot
    exact ⟨hpar, hmnt, _, keep _ rp (noAlias p hp) hrp, hpp⟩
  case oneAlias => exact hf.oneAlias

/-- A path node that no other node hangs below can go. -/
theorem Forest.removePnode (hf : Forest root nc) {p : Pno} (hp : p ∈ nc.pnodes)
    (leaf : ∀ c ∈ nc.pnodes, ¬ root c → (nc.pnode c).parent ≠ p) :
    Forest root (removePnode nc p) := by
  have mem : ∀ q, q ∈ (NameForest.removePnode nc p).pnodes ↔ q ≠ p ∧ q ∈ nc.pnodes :=
    fun q => hf.nodup.mem_erase_iff
  have keep : ∀ c rc, nc.base c = some rc →
      (NameForest.removePnode nc p).base c = some (dropAlias p rc) := fun c rc hc =>
    removePnode_some.mpr ⟨rc, hc, rfl⟩
  constructor
  case nodup => exact hf.nodup.erase p
  case freeNodup => exact List.nodup_cons.mpr ⟨fun hm => hf.apart p hm hp, hf.freeNodup⟩
  case apart =>
    intro q hq
    rw [mem]
    rintro ⟨hne, hq'⟩
    rcases List.mem_cons.mp hq with rfl | hq
    · exact hne rfl
    · exact hf.apart q hq hq'
  case pnodeBound =>
    intro q hq
    rcases hq with hq | hq
    · exact hf.pnodeBound q (Or.inl ((mem q).mp hq).2)
    · rcases List.mem_cons.mp hq with rfl | hq
      · exact hf.pnodeBound q (Or.inl hp)
      · exact hf.pnodeBound q (Or.inr hq)
  case baseBound =>
    intro c hc
    change (nc.base c).map _ = none
    rw [hf.baseBound c hc]
    rfl
  case alias_ =>
    intro c r' hc q
    obtain ⟨rc, hrc, rfl⟩ := removePnode_some.mp hc
    change q ∈ rc.aliases.erase p ↔ _
    rw [(hf.aliasNodup c rc hrc).mem_erase_iff, hf.alias_ c rc hrc q, mem]
    exact (and_assoc).symm
  case aliasNodup =>
    intro c r' hc
    obtain ⟨rc, hrc, rfl⟩ := removePnode_some.mp hc
    exact (hf.aliasNodup c rc hrc).erase p
  case based =>
    intro q hq
    obtain ⟨rq, hrq⟩ := hf.based q ((mem q).mp hq).2
    exact ⟨_, keep _ rq hrq⟩
  case child =>
    intro c r' hc d
    obtain ⟨rc, hrc, rfl⟩ := removePnode_some.mp hc
    change d ∈ rc.children ↔ _
    rw [hf.child c rc hrc d]
    constructor
    · rintro ⟨rd, hrd, hpd⟩
      exact ⟨_, keep d rd hrd, hpd⟩
    · rintro ⟨rd', hrd', hpd⟩
      obtain ⟨rd, hrd, rfl⟩ := removePnode_some.mp hrd'
      exact ⟨rd, hrd, hpd⟩
  case childNodup =>
    intro c r' hc
    obtain ⟨rc, hrc, rfl⟩ := removePnode_some.mp hc
    exact hf.childNodup c rc hrc
  case parent =>
    intro c r' q hc hq
    obtain ⟨rc, hrc, rfl⟩ := removePnode_some.mp hc
    obtain ⟨hlt, rq, hrq⟩ := hf.parent c rc q hrc hq
    exact ⟨hlt, _, keep q rq hrq⟩
  case chain =>
    intro k c
    change c ∈ nc.names k ↔ _
    rw [hf.chain k c]
    constructor
    · rintro ⟨rc, hrc, hname, hk⟩
      exact ⟨_, keep c rc hrc, hname, hk⟩
    · rintro ⟨rc', hrc', hname, hk⟩
      obtain ⟨rc, hrc, rfl⟩ := removePnode_some.mp hrc'
      exact ⟨rc, hrc, hname, hk⟩
  case chainNodup => exact hf.chainNodup
  case hashed =>
    intro c r' hc hname
    obtain ⟨rc, hrc, rfl⟩ := removePnode_some.mp hc
    exact hf.hashed c rc hrc hname
  case unique =>
    intro c d rc' rd' q hc hd hpc hpd hname
    obtain ⟨rc, hrc, rfl⟩ := removePnode_some.mp hc
    obtain ⟨rd, hrd, rfl⟩ := removePnode_some.mp hd
    exact hf.unique c d rc rd q hrc hrd hpc hpd hname
  case nNames =>
    change nc.nNames = tally nc.nextBase (fun c => (nc.base c).map (dropAlias p)) fun _ => true
    rw [tally_map (dropAlias p) fun _ => rfl]
    exact hf.nNames
  case inside =>
    intro q hq hroot
    have hq' := ((mem q).mp hq).2
    obtain ⟨hpar, hmnt, rq, hrq, hpp⟩ := hf.inside q hq' hroot
    exact ⟨(mem _).mpr ⟨leaf q hq' hroot, hpar⟩, hmnt, _, keep _ rq hrq, hpp⟩
  case oneAlias =>
    intro q hq q' hq'
    exact hf.oneAlias q ((mem q).mp hq).2 q' ((mem q').mp hq').2

def addChild (b : PbId) (r : PnodeBase) : PnodeBase := { r with children := b :: r.children }
def addAlias (p : Pno) (r : PnodeBase) : PnodeBase := { r with aliases := p :: r.aliases }

/-- The forest with a new base node `r`, which has neither aliases nor children yet. -/
def insertBase (nc : NameCache) (r : PnodeBase) : NameCache :=
  { nc with
    base := Function.update (fun c => (nc.base c).map fun rc =>
      if r.parent = some c then addChild nc.nextBase rc else rc) nc.nextBase (some r)
    names := if r.name.name = [] then nc.names else
      Function.update nc.names (r.name.hashval % NAMES_TABLE_LEN)
        (nc.nextBase :: nc.names (r.name.hashval % NAMES_TABLE_LEN))
    nextBase := nc.nextBase + 1
    nNames := nc.nNames + 1 }

/-- The forest with the path node `p`, the first free one, made the record `n`. -/
def insertPnode (nc : NameCache) (p : Pno) (n : Pnode) : NameCache :=
  { nc with
    freePnodes := nc.freePnodes.tail
    pnode := Function.update nc.pnode p n
    pnodes := nc.pnodes ++ [p]
    base := fun c => (nc.base c).map fun rc => if c = n.base then addAlias p rc else rc }

theorem insertBase_some {r r' : PnodeBase} {c : PbId} :
    (insertBase nc r).base c = some r' ↔ (c = nc.nextBase ∧ r = r') ∨
      (c ≠ nc.nextBase ∧ ∃ rc, nc.base c = some rc ∧
        (if r.parent = some c then addChild nc.nextBase rc else rc) = r') := by
  unfold insertBase
  by_cases hc : c = nc.nextBase
  · simp [hc]
  · simp [hc]

theorem insertPnode_some {p : Pno} {n : Pnode} {r' : PnodeBase} {c : PbId} :
    (insertPnode nc p n).base c = some r' ↔
      ∃ rc, nc.base c = some rc ∧ (if c = n.base then addAlias p rc else rc) = r' := by
  simp [insertPnode]

/-- What a new base node has to be. -/
structure Fresh (nc : NameCache) (r : PnodeBase) : Prop where
  children : r.children = []
  aliases : r.aliases = []
  hashed : r.name.name ≠ [] → r.name.hashval = nameHash r.name.name ∧ r.name.hashval ≠ 0
  parent : ∀ q, r.parent = some q → ∃ rq, nc.base q = some rq
  unique : ∀ c rc q, nc.base c = some rc → rc.parent = some q → r.parent = some q →
    rc.name.name ≠ r.name.name

theorem Forest.insertBase (hf : Forest root nc) {r : PnodeBase} (fresh : Fresh nc r) :
    Forest root (insertBase nc r) := by
  have notOld : ∀ c rc, nc.base c = some rc → c ≠ nc.nextBase := by
    rintro c rc hc rfl
    exact Nat.lt_irrefl _ (hf.lt_nextBase hc)
  -- the links of an old node up to its list of children
  have keep : ∀ c rc, nc.base c = some rc → ∃ r', (NameForest.insertBase nc r).base c = some r' ∧
      r'.name = rc.name ∧ r'.aliases = rc.aliases ∧ r'.parent = rc.parent ∧
      r'.children = if r.parent = some c then nc.nextBase :: rc.children else rc.children := by
    intro c rc hc
    refine ⟨_, insertBase_some.mpr (Or.inr ⟨notOld c rc hc, rc, hc, rfl⟩), ?_⟩
    by_cases hp : r.parent = some c <;> simp [hp, addChild]
  have new : (NameForest.insertBase nc r).base nc.nextBase = some r :=
    insertBase_some.mpr (Or.inl ⟨rfl, rfl⟩)
  have old : ∀ c r', (NameForest.insertBase nc r).base c = some r' → (c = nc.nextBase ∧ r = r') ∨
      ∃ rc, nc.base c = some rc ∧ r'.name = rc.name ∧ r'.aliases = rc.aliases ∧
        r'.parent = rc.parent ∧
        r'.children = if r.parent = some c then nc.nextBase :: rc.children else rc.children := by
    intro c r' hc
    rcases insertBase_some.mp hc with h | ⟨-, rc, hrc, rfl⟩
    · exact Or.inl h
    · refine Or.inr ⟨rc, hrc, ?_⟩
      by_cases hp : r.parent = some c <;> simp [hp, addChild]
  constructor
  case nodup => exact hf.nodup
  case freeNodup => exact hf.freeNodup
  case apart => exact hf.apart
  case pnodeBound => exact hf.pnodeBound
  case baseBound =>
    intro c hc
    change nc.nextBase + 1 ≤ c at hc
    by_contra hne
    obtain ⟨r', hr'⟩ := Option.ne_none_iff_exists'.mp hne
    rcases old c r' hr' with ⟨rfl, -⟩ | ⟨rc, hrc, -⟩
    · omega
    · have := hf.lt_nextBase hrc
      omega
  case alias_ =>
    intro c r' hc p
    rcases old c r' hc with ⟨rfl, rfl⟩ | ⟨rc, hrc, -, hal, -⟩
    · rw [fresh.aliases]
      constructor
      · simp
      · rintro ⟨hp, hb⟩
        obtain ⟨rp, hrp⟩ := hf.based p hp
        exact absurd hb (notOld _ rp hrp)
    · rw [hal]
      exact hf.alias_ c rc hrc p
  case aliasNodup =>
    intro c r' hc
    rcases old c r' hc with ⟨rfl, rfl⟩ | ⟨rc, hrc, -, hal, -⟩
    · rw [fresh.aliases]
      exact List.nodup_nil
    · rw [hal]
      exact hf.aliasNodup c rc hrc
  case based =>
    intro p hp
    obtain ⟨rp, hrp⟩ := hf.based p hp
    obtain ⟨r', hr', -⟩ := keep _ rp hrp
    exact ⟨r', hr'⟩
  case child =>
    intro c r' hc d
    rcases old c r' hc with ⟨rfl, rfl⟩ | ⟨rc, hrc, -, -, -, hch⟩
    · rw [fresh.children]
      constructor
      · simp
      · rintro ⟨rd', hrd', hp⟩
        rcases old d rd' hrd' with ⟨rfl, rfl⟩ | ⟨rd, hrd, -, -, hpd, -⟩
        · obtain ⟨rq, hrq⟩ := fresh.parent _ hp
          exact absurd rfl (notOld _ rq hrq)
        · obtain ⟨-, rq, hrq⟩ := hf.parent d rd _ hrd (hpd ▸ hp)
          exact absurd rfl (notOld _ rq hrq)
    · rw [hch]
      constructor
      · intro hd
        by_cases hp : r.parent = some c
        · rw [if_pos hp] at hd
          rcases List.mem_cons.mp hd with rfl | hd
          · exact ⟨r, new, hp⟩
          · obtain ⟨rd, hrd, hpd⟩ := (hf.child c rc hrc d).mp hd
            obtain ⟨rd', hrd', -, -, hpd', -⟩ := keep d rd hrd
            exact ⟨rd', hrd', hpd'.trans hpd⟩
        · rw [if_neg hp] at hd
          obtain ⟨rd, hrd, hpd⟩ := (hf.child c rc hrc d).mp hd
          obtain ⟨rd', hrd', -, -, hpd', -⟩ := keep d rd hrd
          exact ⟨rd', hrd', hpd'.trans hpd⟩
      · rintro ⟨rd', hrd', hp⟩
        rcases old d rd' hrd' with ⟨rfl, rfl⟩ | ⟨rd, hrd, -, -, hpd, -⟩
        · rw [if_pos hp]
          exact List.mem_cons_self ..
        · have hd := (hf.child c rc hrc d).mpr ⟨rd, hrd, hpd ▸ hp⟩
          split
          · exact List.mem_cons_of_mem _ hd
          · exact hd
  case childNodup =>
    intro c r' hc
    rcases old c r' hc with ⟨rfl, rfl⟩ | ⟨rc, hrc, -, -, -, hch⟩
    · rw [fresh.children]
      exact List.nodup_nil
    · rw [hch]
      have hnd := hf.childNodup c rc hrc
      split
      · refine List.nodup_cons.mpr ⟨fun hm => ?_, hnd⟩
        obtain ⟨rd, hrd, -⟩ := (hf.child c rc hrc _).mp hm
        exact notOld _ rd hrd rfl
      · exact hnd
  case parent =>
    intro c r' q hc hq
    rcases old c r' hc with ⟨rfl, rfl⟩ | ⟨rc, hrc, -, -, hpar, -⟩
    · obtain ⟨rq, hrq⟩ := fresh.parent q hq
      obtain ⟨rq', hrq', -⟩ := keep q rq hrq
      exact ⟨hf.lt_nextBase hrq, rq', hrq'⟩
    · obtain ⟨hlt, rq, hrq⟩ := hf.parent c rc q hrc (hpar ▸ hq)
      obtain ⟨rq', hrq', -⟩ := keep q rq hrq
      exact ⟨hlt, rq', hrq'⟩
  case chain =>
    intro k c
    have names : c ∈ (NameForest.insertBase nc r).names k ↔
        c ∈ nc.names k ∨ (c = nc.nextBase ∧ r.name.name ≠ [] ∧
          r.name.hashval % NAMES_TABLE_LEN = k) := by
      unfold NameForest.insertBase
      by_cases hn : r.name.name = []
      · simp [hn]
      · by_cases hk : k = r.name.hashval % NAMES_TABLE_LEN
        · simp [hn, hk, or_comm]
        · simp [hn, hk, Ne.symm hk]
    rw [names, hf.chain k c]
    constructor
    · rintro (⟨rc, hrc, hname, hk⟩ | ⟨rfl, hname, hk⟩)
      · obtain ⟨rc', hrc', hn, -⟩ := keep c rc hrc
        exact ⟨rc', hrc', by rwa [hn], by rwa [hn]⟩
      · exact ⟨r, new, hname, hk⟩
    · rintro ⟨rc', hrc', hname, hk⟩
      rcases old c rc' hrc' with ⟨rfl, rfl⟩ | ⟨rc, hrc, hn, -⟩
      · exact Or.inr ⟨rfl, hname, hk⟩
      · rw [hn] at hname hk
        exact Or.inl ⟨rc, hrc, hname, hk⟩
  case chainNodup =>
    intro k
    have hnd := hf.chainNodup k
    have hnot : nc.nextBase ∉ nc.names k := by
      intro hm
      obtain ⟨rc, hrc, -⟩ := (hf.chain k _).mp hm
      exact notOld _ rc hrc rfl
    unfold NameForest.insertBase
    by_cases hn : r.name.name = []
    · simpa [hn] using hnd
    · by_cases hk : k = r.name.hashval % NAMES_TABLE_LEN
      · subst hk
        simpa [hn] using ⟨hnot, hnd⟩
      · simpa [hn, hk] using hnd
  case hashed =>
    intro c r' hc hname
    rcases old c r' hc with ⟨rfl, rfl⟩ | ⟨rc, hrc, hn, -⟩
    · exact fresh.hashed hname
    · rw [hn] at hname ⊢
      exact hf.hashed c rc hrc hname
  case unique =>
    intro c d rc' rd' q hc hd hpc hpd hname
    rcases old c rc' hc with ⟨rfl, rfl⟩ | ⟨rc, hrc, hnc, -, hpc', -⟩
    · rcases old d rd' hd with ⟨rfl, rfl⟩ | ⟨rd, hrd, hnd, -, hpd', -⟩
      · rfl
      · rw [hnd] at hname
        exact absurd hname.symm (fresh.unique d rd q hrd (hpd' ▸ hpd) hpc)
    · rcases old d rd' hd with ⟨rfl, rfl⟩ | ⟨rd, hrd, hnd, -, hpd', -⟩
      · rw [hnc] at hname
        exact absurd hname (fresh.unique c rc q hrc (hpc' ▸ hpc) hpd)
      · refine hf.unique c d rc rd q hrc hrd (hpc' ▸ hpc) (hpd' ▸ hpd) ?_
        rw [← hnc, ← hnd]
        exact hname
  case nNames =>
    have hpush := tally_push nc.nextBase (fun c => (nc.base c).map fun rc =>
      if r.parent = some c then addChild nc.nextBase rc else rc) (some r) fun _ => true
    have hsame : tally nc.nextBase (fun c => (nc.base c).map fun rc =>
        if r.parent = some c then addChild nc.nextBase rc else rc) (fun _ => true) =
        tally nc.nextBase nc.base fun _ => true := by
      apply tally_congr
      intro c _
      cases nc.base c with
      | none => rfl
      | some rc => simp only [Option.map_some, weight_some]
    rw [hsame, weight_some, if_pos rfl, ← hf.nNames] at hpush
    exact hpush.symm
  case inside =>
    intro p hp hroot
    obtain ⟨hpar, hmnt, rp, hrp, hpp⟩ := hf.inside p hp hroot
    obtain ⟨rp', hrp', -, -, hpar', -⟩ := keep _ rp hrp
    exact ⟨hpar, hmnt, rp', hrp', hpar'.trans hpp⟩
  case oneAlias => exact hf.oneAlias

/-- What a new path node has to be. -/
structure FreshNode (root : Pno → Prop) (nc : NameCache) (p : Pno) (n : Pnode) : Prop where
  free : nc.freePnodes.head? = some p
  based : ∃ r, nc.base n.base = some r
  inside : ¬ root p → n.parent ∈ nc.pnodes ∧ (nc.pnode n.parent).mount = n.mount ∧
    ∃ r, nc.base n.base = some r ∧ r.parent = some (nc.pnode n.parent).base
  oneAlias : ∀ q ∈ nc.pnodes, (nc.pnode q).base = n.base → (nc.pnode q).parent = n.parent →
    (nc.pnode q).mount ≠ n.mount

theorem Forest.insertPnode (hf : Forest root nc) {p : Pno} {n : Pnode}
    (fresh : FreshNode root nc p n) : Forest root (insertPnode nc p n) := by
  obtain ⟨rest, hfree⟩ : ∃ rest, nc.freePnodes = p :: rest := List.head?_eq_some_iff.mp fresh.free
  have hnd : (p :: rest).Nodup := hfree ▸ hf.freeNodup
  have notin : p ∉ nc.pnodes := hf.apart p (by rw [hfree]; exact List.mem_cons_self ..)
  have ne : ∀ q ∈ nc.pnodes, q ≠ p := by
    rintro q hq rfl
    exact notin hq
  have mem : ∀ q, q ∈ (NameForest.insertPnode nc p n).pnodes ↔ q ∈ nc.pnodes ∨ q = p := by
    intro q
    change q ∈ nc.pnodes ++ [p] ↔ _
    simp
  have self : (NameForest.insertPnode nc p n).pnode p = n := Function.update_self ..
  have other : ∀ q ∈ nc.pnodes, (NameForest.insertPnode nc p n).pnode q = nc.pnode q :=
    fun q hq => Function.update_of_ne (ne q hq) ..
  have keep : ∀ c rc, nc.base c = some rc → ∃ r', (NameForest.insertPnode nc p n).base c = some r' ∧
      r'.name = rc.name ∧ r'.children = rc.children ∧ r'.parent = rc.parent ∧
      r'.aliases = if c = n.base then p :: rc.aliases else rc.aliases := by
    intro c rc hc
    refine ⟨_, insertPnode_some.mpr ⟨rc, hc, rfl⟩, ?_⟩
    by_cases hcb : c = n.base <;> simp [hcb, addAlias]
  have old : ∀ c r', (NameForest.insertPnode nc p n).base c = some r' → ∃ rc, nc.base c = some rc ∧
      r'.name = rc.name ∧ r'.children = rc.children ∧ r'.parent = rc.parent ∧
      r'.aliases = if c = n.base then p :: rc.aliases else rc.aliases := by
    intro c r' hc
    obtain ⟨rc, hrc, rfl⟩ := insertPnode_some.mp hc
    refine ⟨rc, hrc, ?_⟩
    by_cases hcb : c = n.base <;> simp [hcb, addAlias]
  constructor
  case nodup =>
    refine List.nodup_append.mpr ⟨hf.nodup, List.nodup_singleton p, fun a ha b hb => ?_⟩
    rw [List.mem_singleton.mp hb]
    exact ne a ha
  case freeNodup =>
    change nc.freePnodes.tail.Nodup
    rw [hfree]
    exact (List.nodup_cons.mp hnd).2
  case apart =>
    intro q hq
    change q ∈ nc.freePnodes.tail at hq
    rw [hfree] at hq
    rw [mem]
    rintro (hq' | rfl)
    · exact hf.apart q (by rw [hfree]; exact List.mem_cons_of_mem _ hq) hq'
    · exact (List.nodup_cons.mp hnd).1 hq
  case pnodeBound =>
    intro q hq
    apply hf.pnodeBound q
    rcases hq with hq | hq
    · rcases (mem q).mp hq with hq | rfl
      · exact Or.inl hq
      · exact Or.inr (by rw [hfree]; exact List.mem_cons_self ..)
    · exact Or.inr (List.mem_of_mem_tail hq)
  case baseBound =>
    intro c hc
    change (nc.base c).map _ = none
    rw [hf.baseBound c hc]
    rfl
  case alias_ =>
    intro c r' hc q
    obtain ⟨rc, hrc, -, -, -, hal⟩ := old c r' hc
    rw [hal, mem]
    by_cases hqp : q = p
    · subst hqp
      rw [self]
      by_cases hcb : c = n.base
      · simp [hcb]
      · rw [if_neg hcb, hf.alias_ c rc hrc q]
        constructor
        · rintro ⟨hq, -⟩
          exact absurd hq notin
        · rintro ⟨-, he⟩
          exact absurd he.symm hcb
    · have : q ∈ (if c = n.base then p :: rc.aliases else rc.aliases) ↔ q ∈ rc.aliases := by
        split <;> simp [hqp]
      rw [this, hf.alias_ c rc hrc q]
      constructor
      · rintro ⟨hq, he⟩
        exact ⟨Or.inl hq, by rw [other q hq]; exact he⟩
      · rintro ⟨hq | hq, he⟩
        · rw [other q hq] at he
          exact ⟨hq, he⟩
        · exact absurd hq hqp
  case aliasNodup =>
    intro c r' hc
    obtain ⟨rc, hrc, -, -, -, hal⟩ := old c r' hc
    rw [hal]
    have hnd := hf.aliasNodup c rc hrc
    split
    · refine List.nodup_cons.mpr ⟨fun hm => ?_, hnd⟩
      exact notin ((hf.alias_ c rc hrc p).mp hm).1
    · exact hnd
  case based =>
    intro q hq
    rcases (mem q).mp hq with hq | rfl
    · obtain ⟨rq, hrq⟩ := hf.based q hq
      obtain ⟨r', hr', -⟩ := keep _ rq hrq
      rw [other q hq]
      exact ⟨r', hr'⟩
    · obtain ⟨r, hr⟩ := fresh.based
      obtain ⟨r', hr', -⟩ := keep _ r hr
      rw [self]
      exact ⟨r', hr'⟩
  case child =>
    intro c r' hc d
    obtain ⟨rc, hrc, -, hch, -⟩ := old c r' hc
    rw [hch, hf.child c rc hrc d]
    constructor
    · rintro ⟨rd, hrd, hp⟩
      obtain ⟨rd', hrd', -, -, hp', -⟩ := keep d rd hrd
      exact ⟨rd', hrd', hp'.trans hp⟩
    · rintro ⟨rd', hrd', hp⟩
      obtain ⟨rd, hrd, -, -, hp', -⟩ := old d rd' hrd'
      exact ⟨rd, hrd, hp' ▸ hp⟩
  case childNodup =>
    intro c r' hc
    obtain ⟨rc, hrc, -, hch, -⟩ := old c r' hc
    rw [hch]
    exact hf.childNodup c rc hrc
  case parent =>
    intro c r' q hc hq
    obtain ⟨rc, hrc, -, -, hp, -⟩ := old c r' hc
    obtain ⟨hlt, rq, hrq⟩ := hf.parent c rc q hrc (hp ▸ hq)
    obtain ⟨rq', hrq', -⟩ := keep q rq hrq
    exact ⟨hlt, rq', hrq'⟩
  case chain =>
    intro k c
    change c ∈ nc.names k ↔ _
    rw [hf.chain k c]
    constructor
    · rintro ⟨rc, hrc, hname, hk⟩
      obtain ⟨rc', hrc', hn, -⟩ := keep c rc hrc
      exact ⟨rc', hrc', by rwa [hn], by rwa [hn]⟩
    · rintro ⟨rc', hrc', hname, hk⟩
      obtain ⟨rc, hrc, hn, -⟩ := old c rc' hrc'
      rw [hn] at hname hk
      exact ⟨rc, hrc, hname, hk⟩
  case chainNodup => exact hf.chainNodup
  case hashed =>
    intro c r' hc hname
    obtain ⟨rc, hrc, hn, -⟩ := old c r' hc
    rw [hn] at hname ⊢
    exact hf.hashed c rc hrc hname
  case unique =>
    intro c d rc' rd' q hc hd hpc hpd hname
    obtain ⟨rc, hrc, hnc, -, hpc', -⟩ := old c rc' hc
    obtain ⟨rd, hrd, hnd, -, hpd', -⟩ := old d rd' hd
    refine hf.unique c d rc rd q hrc hrd (hpc' ▸ hpc) (hpd' ▸ hpd) ?_
    rw [← hnc, ← hnd]
    exact hname
  case nNames =>
    change nc.nNames = tally nc.nextBase (fun c => (nc.base c).map fun rc =>
      if c = n.base then addAlias p rc else rc) fun _ => true
    rw [hf.nNames]
    apply tally_congr
    intro c _
    cases nc.base c with
    | none => rfl
    | some rc => simp only [Option.map_some, weight_some]
  case inside =>
    intro q hq hroot
    rcases (mem q).mp hq with hq | rfl
    · obtain ⟨hpar, hmnt, rq, hrq, hpp⟩ := hf.inside q hq hroot
      obtain ⟨rq', hrq', -, -, hp', -⟩ := keep _ rq hrq
      rw [other q hq, other _ hpar]
      exact ⟨(mem _).mpr (Or.inl hpar), hmnt, rq', hrq', hp'.trans hpp⟩
    · obtain ⟨hpar, hmnt, rq, hrq, hpp⟩ := fresh.inside hroot
      obtain ⟨rq', hrq', -, -, hp', -⟩ := keep _ rq hrq
      rw [self, other _ hpar]
      exact ⟨(mem _).mpr (Or.inl hpar), hmnt, rq', hrq', hp'.trans hpp⟩
  case oneAlias =>
    intro q hq q' hq' hb hpar hmnt
    rcases (mem q).mp hq with live | rfl
    · rcases (mem q').mp hq' with live' | rfl
      · rw [other q live, other q' live'] at hb hpar hmnt
        exact hf.oneAlias q live q' live' hb hpar hmnt
      · rw [other q live, self] at hb hpar hmnt
        exact absurd hmnt (fresh.oneAlias q live hb hpar)
    · rcases (mem q').mp hq' with live' | rfl
      · rw [other q' live', self] at hb hpar hmnt
        exact absurd hmnt.symm (fresh.oneAlias q' live' hb.symm hpar.symm)
      · rfl

/-- A chunk of new free nodes. -/
theorem Forest.grow (hf : Forest root nc) (n : ℕ) : Forest root { nc with
    freePnodes := ((List.range n).map (nc.nextPnode + ·)).reverse ++ nc.freePnodes
    nextPnode := nc.nextPnode + n } := by
  have mem : ∀ p : ℕ, p ∈ ((List.range n).map (nc.nextPnode + ·)).reverse ↔
      ∃ k < n, nc.nextPnode + k = p := by
    intro p
    simp [List.mem_reverse, List.mem_map]
  refine { hf with freeNodup := ?_, apart := ?_, pnodeBound := ?_ }
  · refine List.nodup_append.mpr ⟨?_, hf.freeNodup, ?_⟩
    · rw [List.nodup_reverse]
      exact List.nodup_range.map fun a b hab => by simpa using hab
    · intro a ha b hb
      obtain ⟨k, -, hk⟩ := (mem a).mp ha
      have hlt := hf.pnodeBound b (Or.inr hb)
      intro he
      rw [← he, ← hk] at hlt
      exact Nat.not_lt.mpr (Nat.le_add_right _ _) hlt
  · intro p hp hp'
    have hlt := hf.pnodeBound p (Or.inl hp')
    rcases List.mem_append.mp hp with hp | hp
    · obtain ⟨k, -, rfl⟩ := (mem p).mp hp
      omega
    · exact hf.apart p hp hp'
  · intro p hp
    change p < nc.nextPnode + n
    rcases hp with hp | hp
    · have := hf.pnodeBound p (Or.inl hp)
      omega
    · rcases List.mem_append.mp hp with hp | hp
      · obtain ⟨k, hk, rfl⟩ := (mem p).mp hp
        omega
      · have := hf.pnodeBound p (Or.inr hp)
        omega

end Edits

end NameForest
