import DirectFuse.Dispatch
import DirectFuse.Lineage
import DirectFuse.StartingMount

/-! The name space a program sees: the tree of path nodes of every mount, and the look-up of a name
in it. Both are about every state that calls of the library with the fuse driver lead to. -/
namespace NameSpace

open ExecLogic SysioState SysioInode SysioNamei FuseMoves FuseDriver FuseSystem NameForest PruneForest GrowForest
open Tally PathRefs WalkForest WalkRules Lineage SoundRuns StartingMount

variable {D : Type}

/-- The path nodes of the mounts as trees. A node climbs over `p_parent` to the root of its own
mount, which mirrors the climb of its base node, and the names table holds just the named base
nodes. -/
structure Trees (s : Sys D) : Prop where
  climbs : ∀ p ∈ s.nc.pnodes, ∃ r q, s.mt.mount (s.nc.pnode p).mount = some r ∧ r.root = some q ∧
    q ∈ s.nc.pnodes ∧ Hangs (isRoot s.mt) s.nc.pnode p q
  apex : ∀ p, isRoot s.mt p → ∀ r, s.nc.base (s.nc.pnode p).base = some r → r.parent = none
  single : ∀ p ∈ s.nc.pnodes, ∀ q ∈ s.nc.pnodes, (s.nc.pnode p).base = (s.nc.pnode q).base →
    (s.nc.pnode p).mount = (s.nc.pnode q).mount → p = q
  mirror : ∀ p ∈ s.nc.pnodes, ∀ q ∈ s.nc.pnodes, (s.nc.pnode p).mount = (s.nc.pnode q).mount →
    (Hangs (isRoot s.mt) s.nc.pnode p q ↔ AtOrBelow s.nc (s.nc.pnode p).base (s.nc.pnode q).base)
  loopless : ∀ b, ¬ StrictlyBelow s.nc b b
  named : ∀ b c rb rc q, s.nc.base b = some rb → s.nc.base c = some rc → rb.parent = some q →
    rc.parent = some q → rb.name.name = rc.name.name → b = c
  table : ∀ k b, b ∈ s.nc.names k ↔
    ∃ r, s.nc.base b = some r ∧ r.name.name ≠ [] ∧ nameHash r.name.name % NAMES_TABLE_LEN = k
  count : s.nc.nNames = tally s.nc.nextBase s.nc.base fun _ => true

/-- A node above another one is reached by the climb of its base node. -/
theorem mirror_of_sound {s : Sys D} (sound : Sound s) {p q : Pno} (hp : p ∈ s.nc.pnodes)
    (hq : q ∈ s.nc.pnodes) (mount : (s.nc.pnode p).mount = (s.nc.pnode q).mount) :
    Hangs (isRoot s.mt) s.nc.pnode p q ↔ AtOrBelow s.nc (s.nc.pnode p).base (s.nc.pnode q).base := by
  constructor
  · intro way
    exact (way.live sound.forest hp).2.2
  · exact hangs_of_below sound hp hq mount

theorem climbs_of_sound {s : Sys D} (sound : Sound s) {p : Pno} (hp : p ∈ s.nc.pnodes) :
    ∃ r q, s.mt.mount (s.nc.pnode p).mount = some r ∧ r.root = some q ∧ q ∈ s.nc.pnodes ∧
      Hangs (isRoot s.mt) s.nc.pnode p q := by
  obtain ⟨q, root, way⟩ := hangs_root sound hp
  obtain ⟨live, mount, -⟩ := way.live sound.forest hp
  obtain ⟨r, hr⟩ := sound.mounted p hp
  have named := sound.rooted q live root r (by rw [mount]; exact hr)
  exact ⟨r, q, hr, named, live, way⟩

theorem trees_of_fitted {s : Sys D} (fitted : Fitted s) : Trees s := by
  have sound := fitted.sound
  constructor
  case climbs => exact fun p hp => climbs_of_sound sound hp
  case apex => exact fitted.apex
  case single => exact fun p hp q hq base mount => alias_one sound hp hq base mount
  case mirror => exact fun p hp q hq mount => mirror_of_sound sound hp hq mount
  case loopless =>
    intro b below
    exact Nat.lt_irrefl b (strictlyBelow_lt sound.forest below)
  case named => exact sound.forest.unique
  case table =>
    intro k b
    rw [sound.forest.chain k b]
    constructor
    · rintro ⟨r, hr, named, hash⟩
      rw [(sound.forest.hashed b r hr named).1] at hash
      exact ⟨r, hr, named, hash⟩
    · rintro ⟨r, hr, named, hash⟩
      rw [← (sound.forest.hashed b r hr named).1] at hash
      exact ⟨r, hr, named, hash⟩
  case count => exact sound.forest.nNames

/-- `p` is the alias through which `cur` has the name, in the mount of `cur`. -/
structure AliasAt (nc : NameCache) (cur : Pno) (name : Bytes) (p : Pno) : Prop where
  live : p ∈ nc.pnodes
  parent : (nc.pnode p).parent = cur
  mount : (nc.pnode p).mount = (nc.pnode cur).mount
  base : ∃ r, nc.base (nc.pnode p).base = some r ∧ r.parent = some (nc.pnode cur).base ∧
    r.name.name = name

theorem AliasAt.unique {root : Pno → Prop} {nc : NameCache} {cur p q : Pno} {name : Bytes}
    (forest : Forest root nc) (hp : AliasAt nc cur name p) (hq : AliasAt nc cur name q) : q = p := by
  obtain ⟨rp, hrp, upp, np⟩ := hp.base
  obtain ⟨rq, hrq, upq, nq⟩ := hq.base
  have base := forest.unique _ _ rq rp _ hrq hrp upq upp (nq.trans np.symm)
  apply forest.oneAlias q hq.live p hp.live base
  · rw [hq.parent, hp.parent]
  · rw [hq.mount, hp.mount]

section Search

variable {s : Sys D}

/-- A search of a chain finds the one child of that name, if all on the chain are there. -/
theorem findNamed_finds {q d : PbId} {name : Qstr} {rd : PnodeBase} {l : List PbId}
    (there : ∀ c ∈ l, ∃ rc, s.nc.base c = some rc) (hrd : s.nc.base d = some rd)
    (up : rd.parent = some q) (hn : rd.name.name = name.name)
    (one : ∀ c rc, s.nc.base c = some rc → rc.parent = some q → rc.name.name = name.name → c = d)
    (mem : d ∈ l) : findNamed q name l s = .ok (some d, s) := by
  induction l with
  | nil => cases mem
  | cons c l ih =>
    obtain ⟨rc, hrc⟩ := there c (List.mem_cons_self ..)
    have read : baseAt c s = .ok (rc, s) := deref_ok.mpr ⟨hrc, rfl⟩
    unfold findNamed
    rw [bind_run read]
    by_cases hit : rc.parent = some q ∧ rc.name.name = name.name
    · rw [if_pos hit, one c rc hrc hit.1 hit.2]
      rfl
    · rw [if_neg hit]
      apply ih
      · exact fun c hc => there c (List.mem_cons_of_mem _ hc)
      · rcases List.mem_cons.mp mem with rfl | mem
        · obtain rfl : rd = rc := Option.some.inj (hrd.symm.trans hrc)
          exact absurd ⟨up, hn⟩ hit
        · exact mem

theorem findAliasOf_finds {cur p : Pno} {l : List Pno} (hp : (s.nc.pnode p).parent = cur)
    (one : ∀ q ∈ l, (s.nc.pnode q).parent = cur → q = p) (mem : p ∈ l) :
    findAliasOf cur l s = .ok (some p, s) := by
  induction l with
  | nil => cases mem
  | cons q l ih =>
    have read : pnodeAt q s = .ok (s.nc.pnode q, s) := read_ok.mpr ⟨rfl, rfl⟩
    unfold findAliasOf
    rw [bind_run read]
    by_cases hit : (s.nc.pnode q).parent = cur
    · rw [if_pos hit, one q (List.mem_cons_self ..) hit]
      rfl
    · rw [if_neg hit]
      apply ih
      · exact fun q hq => one q (List.mem_cons_of_mem _ hq)
      · rcases List.mem_cons.mp mem with rfl | mem
        · exact absurd hp hit
        · exact mem

end Search

section Fuse

variable {B : Type} {s : Sys (FuseData B)}

/-- A name that has an alias is found under it, whatever else the cache holds. -/
theorem findAlias_known {e : Env (FuseData B)} {cur p : Pno} {name : Qstr} (fitted : Fitted s)
    (hname : Hashed name) (known : AliasAt s.nc cur name.name p) :
    ∃ t, pRef p s = .ok ((), t) ∧ sysioPFindAlias e cur name s = .ok ((0, some p), t) := by
  obtain ⟨rd, hrd, up, hn⟩ := known.base
  have forest := fitted.sound.forest
  have node : pnodeAt cur s = .ok (s.nc.pnode cur, s) := read_ok.mpr ⟨rfl, rfl⟩
  have chain : nameChain (s.nc.pnode cur).base name s =
      .ok (s.nc.names (name.hashval % NAMES_TABLE_LEN), s) := by
    unfold nameChain
    rw [if_pos hname.1]
    rfl
  have base : findBase e (s.nc.pnode cur).base name s = .ok (some (s.nc.pnode p).base, s) := by
    have found : findNamed (s.nc.pnode cur).base name
        (s.nc.names (name.hashval % NAMES_TABLE_LEN)) s = .ok (some (s.nc.pnode p).base, s) :=
      findNamed_finds (fun c hc => ((forest.chain _ c).mp hc).imp fun _ h => h.1) hrd up hn
      (fun c rc hrc hup hname => forest.unique c _ rc rd _ hrc hrd hup up (hname.trans hn.symm))
      (mem_nameChain forest hname chain _ rd hrd up hn)
    unfold findBase
    rw [bind_run chain, bind_run found]
    rfl
  have alias_ : findAliasOf cur rd.aliases s = .ok (some p, s) := by
    apply findAliasOf_finds known.parent
    · intro q hq hpar
      obtain ⟨mount, hbase⟩ := alias_beside fitted hrd up hq hpar
      have live := ((forest.alias_ _ rd hrd q).mp hq).1
      refine AliasAt.unique forest known ⟨live, hpar, mount, rd, ?_, up, hn⟩
      rw [hbase]
      exact hrd
    · exact (forest.alias_ _ rd hrd p).mpr ⟨known.live, rfl⟩
  have taken : ∃ t, pRef p s = .ok ((), t) := by
    have live : (Exec.check Fault.wild fun s : Sys (FuseData B) => decide (p ∈ s.nc.pnodes)) s = .ok ((), s) :=
      check_ok.mpr ⟨decide_eq_true known.live, rfl⟩
    exact ⟨_, bind_ok.mpr ⟨(), s, live, rfl⟩⟩
  obtain ⟨t, ht⟩ := taken
  refine ⟨t, ht, ?_⟩
  have record : baseAt (s.nc.pnode p).base s = .ok (rd, s) := deref_ok.mpr ⟨hrd, rfl⟩
  unfold sysioPFindAlias
  rw [bind_run node, bind_run base]
  change (baseAt (s.nc.pnode p).base >>= _) s = _
  rw [bind_run record, bind_run alias_]
  change (pRef p >>= _) s = _
  rw [bind_run ht]
  rfl

variable {h : Host B} {r : Pno → ℤ} {n : ℕ} {own : List Pno} {s₀ t : Sys (FuseData B)}
  {cur p : Pno} {name : Qstr}

/-- The alias that a look-up returns hangs below the node it was asked for, which stays where it is. -/
theorem findAlias_parent {err : ℤ} (hr : ∀ q, 0 ≤ r q)
    (w : Walked r (isRoot s₀.mt) s₀ (n + 1) own s) (hcur : cur ∈ own) (hname : Hashed name)
    (run : sysioPFindAlias (fuseEnv h) cur name s = .ok ((err, some p), t)) :
    (t.nc.pnode p).parent = cur ∧ links (t.nc.pnode cur) = links (s.nc.pnode cur) := by
  obtain ⟨_, _, hread, h1⟩ := bind_ok.mp run
  obtain ⟨rfl, rfl⟩ := read_ok.mp hread
  obtain ⟨found, v, hv, h2⟩ := bind_ok.mp h1
  obtain ⟨wv, same, -⟩ := findBase_grows (walked_growth hr) fuseEnv_off.gone w hname hv
  cases found with
  | none =>
    obtain ⟨hres, -⟩ := pure_ok.mp h2
    cases hres
  | some d =>
    obtain ⟨rd, _, hread, h3⟩ := bind_ok.mp h2
    obtain ⟨-, rfl⟩ := deref_ok.mp hread
    obtain ⟨known, _, ha, h4⟩ := bind_ok.mp h3
    obtain rfl : v = _ := CoreMoves.findAliasOf_moves (R := Eq) _ _ _ _ _ ha
    rw [← same]
    cases known with
    | some q =>
      obtain ⟨_, x, hx, h5⟩ := bind_ok.mp h4
      obtain ⟨hres, rfl⟩ := pure_ok.mp h5
      obtain rfl : p = q := Option.some.inj (Prod.mk.inj hres).2.symm
      have shape := (pRef_shape hx).1
      refine ⟨?_, shape.pnode cur⟩
      rw [(links_eq (shape.pnode p)).1]
      exact (findAliasOf_some ha).2
    | none =>
      obtain ⟨k, _, hread, h5⟩ := bind_ok.mp h4
      obtain ⟨-, rfl⟩ := read_ok.mp hread
      obtain ⟨made, x, hx, h6⟩ := bind_ok.mp h5
      cases made with
      | none =>
        obtain ⟨hres, -⟩ := pure_ok.mp h6
        cases hres
      | some q =>
        obtain ⟨hres, rfl⟩ := pure_ok.mp h6
        obtain rfl : p = q := Option.some.inj (Prod.mk.inj hres).2.symm
        have live : cur ∈ v.nc.pnodes := ((walked_growth (h := h) hr).owned wv cur hcur).1
        refine ⟨?_, (WalkFold.newAlias_links hx wv.held.lists live).1⟩
        obtain ⟨u, -, hcases⟩ := sysioPNewAlias_ok hx
        rcases hcases with ⟨hnone, -⟩ | ⟨q, r, hq, -, -, rfl⟩
        · cases hnone
        · obtain rfl := Option.some.inj hq
          have node : (insertPnode u.nc p (newPnode p (some cur) d k.mount)).pnode p =
              newPnode p (some cur) d k.mount := Function.update_self ..
          exact congrArg Pnode.parent node

variable {b : B} {ok : Sys (FuseData B) → SysioSystem.Call → Prop}

/-- A reference that is held on `cur` makes a start for the rules of a walk. -/
theorem held_walked {s : Sys (FuseData B)} (tidy : PlainRuns.Tidy s) (fitted : Fitted s)
    (held : 0 < refs s cur) (n : ℕ) :
    Walked (fun q => refs s q - if q = cur then 1 else 0) (isRoot s.mt) s n [cur] s := by
  refine { start_walked tidy.plain fitted n with held := ?_, guard := ?_ }
  · refine ⟨fitted.sound.forest.lists, fun q => ?_⟩
    rw [List.count_singleton]
    by_cases hq : q = cur
    · simp [hq]
    · simp [hq, Ne.symm hq]
  · exact Or.inl fun _ hp => ⟨fitted.sound.live hp, Or.inr (Or.inr hp)⟩

/-- The look-up of a name in a directory that is in use stays in the mount of the directory. The
alias it returns is the only one of the directory with that name, the caller has a reference to it,
and the next look-up of the name returns it again. -/
theorem alias_lookup (reached : FuseReached h b ok s) (held : 0 < refs s cur) (hname : Hashed name)
    (run : sysioPFindAlias (fuseEnv h) cur name s = .ok ((0, some p), t)) :
    AliasAt t.nc cur name.name p ∧ refs t p = refs s p + 1 ∧
      (∀ q, AliasAt t.nc cur name.name q → q = p) ∧
      ∃ u, sysioPFindAlias (fuseEnv h) cur name t = .ok ((0, some p), u) ∧ refs u p = refs t p + 1 := by
  obtain ⟨tidy, fitted⟩ := reached_fitted reached
  have nonneg : ∀ q, 0 ≤ refs s q - if q = cur then 1 else 0 := by
    intro q
    have := refs_nonneg s q
    split <;> rename_i hq
    · rw [hq]
      omega
    · omega
  have start := held_walked tidy fitted held 1
  obtain ⟨walked, -⟩ := (walked_rules nonneg).findAlias 0 [cur] cur name (List.mem_singleton_self _)
    hname s start _ t run
  obtain ⟨mount, rp, hrp, up, hn⟩ := findAlias_child nonneg fitted start hname run
  obtain ⟨parent, stays⟩ := findAlias_parent nonneg start (List.mem_singleton_self _) hname run
  obtain ⟨-, base', mount'⟩ := links_eq stays
  have fitted' : Fitted t := fitted.of_stays walked.stays walked.sound
  have count : refs t p = refs s p + 1 := by
    have hp := walked.held.count p
    simp only [Option.toList_some, List.singleton_append, List.count_cons_self,
      List.count_singleton] at hp
    by_cases same : p = cur
    · simp only [same, beq_self_eq_true, if_true] at hp ⊢
      omega
    · simp only [if_neg same, beq_iff_eq, if_neg (Ne.symm same)] at hp
      omega
  have live : p ∈ t.nc.pnodes := by
    by_contra gone
    have := refs_nonneg s p
    rw [refs, if_neg gone] at count
    omega
  have at_ : AliasAt t.nc cur name.name p := by
    refine ⟨live, parent, mount.trans mount'.symm, rp, hrp, ?_, hn⟩
    rw [base']
    exact up
  refine ⟨at_, count, fun q hq => at_.unique fitted'.sound.forest hq, ?_⟩
  obtain ⟨u, taken, again⟩ := findAlias_known (e := fuseEnv h) fitted' hname at_
  have grown : Held (refs t) [p] u :=
    pRef_held p t ⟨walked.held.lists, fun q => by simp⟩ () u taken
  have held := grown.count p
  rw [List.count_cons_self, List.count_nil] at held
  exact ⟨u, again, held⟩

/-- The path nodes of every mount are trees. -/
theorem name_space (reached : FuseReached h b ok s) : Trees s := trees_of_fitted (reached_fitted reached).2

end Fuse

/-- With a file system mounted on "/b" the name still leads to the node that is covered. -/
def lookB : Sysio (FuseData Unit) (ℤ × Option Pno) :=
  sysioPFindAlias (fuseEnv calmHost) 110 ⟨[98], nameHash [98]⟩

theorem alias_lookup_covered :
    AliasAt (lookB.final (calmRun Dispatch.fileOpen)).nc 110 [98] 109 ∧
      refs (lookB.final (calmRun Dispatch.fileOpen)) 109 = 2 := by
  have run : lookB (calmRun Dispatch.fileOpen) =
      .ok ((0, some 109), lookB.final (calmRun Dispatch.fileOpen)) := ok_of_value (by decide +kernel)
  have hashed : Hashed ⟨[98], nameHash [98]⟩ := ⟨List.cons_ne_nil _ _, rfl⟩
  obtain ⟨at_, count, -⟩ := alias_lookup Dispatch.fileOpen_reached (by decide +kernel) hashed run
  refine ⟨at_, count.trans ?_⟩
  decide +kernel

theorem name_space_fileOpen : Trees (calmRun Dispatch.fileOpen) := name_space Dispatch.fileOpen_reached

end NameSpace
