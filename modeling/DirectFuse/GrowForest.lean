import DirectFuse.PruneForest

/-! Making names keeps the forest. A state that a look-up may pass through is described by a
predicate with the number of names that may still be made and the path nodes that are held; what
the single edits of the forest do to it decides what a whole look-up does. -/
namespace GrowForest

open ExecLogic SysioState SysioInode SysioNamei CoreMoves PathRefs WalkRules NameForest PruneForest

variable {D : Type} {root : Pno → Prop}

/-- The record of a name that is made without an inode. -/
def nameless (name : Qstr) (parent : Option PbId) (ino : Option InoId) : PnodeBase :=
  { name := name, ino := ino, children := [], aliases := [], parent := parent }

/-- What `_sysio_pb_new` does once the cache has room. -/
theorem sysioPbNew_ok {e : Env D} {name : Qstr} {parent : Option PbId} {ino : Option InoId}
    {s t : Sys D} {o : Option PbId} (run : sysioPbNew e name parent ino s = .ok (o, t)) :
    ∃ u ok v, Exec.when (s.nc.maxNames < s.nc.nNames) (pReclaim e) s = .ok ((), u) ∧
      malloc e u = .ok (ok, v) ∧ ((o = none ∧ t = v) ∨ (o = some v.nc.nextBase ∧
        (name.name ≠ [] → name.hashval ≠ 0) ∧
        (∀ q, parent = some q → ∃ rq, v.nc.base q = some rq) ∧
        t = { v with nc := insertBase v.nc (nameless name parent ino) })) := by
  obtain ⟨nc, _, hread, h1⟩ := bind_ok.mp run
  obtain ⟨rfl, rfl⟩ := read_ok.mp hread
  obtain ⟨_, u, hu, h2⟩ := bind_ok.mp h1
  obtain ⟨ok, v, hv, h3⟩ := bind_ok.mp h2
  refine ⟨u, ok, v, hu, hv, ?_⟩
  by_cases hok : (!ok) = true
  · rw [if_pos hok] at h3
    obtain ⟨rfl, rfl⟩ := pure_ok.mp h3
    exact Or.inl ⟨rfl, rfl⟩
  rw [if_neg hok] at h3
  simp only [bind_ok, read_ok, write_ok, pure_ok] at h3
  obtain ⟨b, _, ⟨rfl, rfl⟩, _, w, hw, _, x, hx, _, _, rfl, rfl, rfl⟩ := h3
  have names : (name.name ≠ [] → name.hashval ≠ 0) ∧ w = { v with nc := { v.nc with
      names := if name.name = [] then v.nc.names else
        Function.update v.nc.names (name.hashval % NAMES_TABLE_LEN)
          (v.nc.nextBase :: v.nc.names (name.hashval % NAMES_TABLE_LEN)) } } := by
    rcases when_ok.mp hw with ⟨hne, hw⟩ | ⟨he, rfl⟩
    · simp only [assert, bind_ok, check_ok, write_ok] at hw
      obtain ⟨_, _, ⟨hhash, rfl⟩, rfl⟩ := hw
      refine ⟨fun _ => of_decide_eq_true hhash, ?_⟩
      rw [if_neg hne]
    · have he : name.name = [] := not_not.mp he
      refine ⟨fun hne => absurd he hne, ?_⟩
      rw [if_pos he]
  obtain ⟨hash, rfl⟩ := names
  refine Or.inr ⟨rfl, hash, ?_, ?_⟩
  · rintro q rfl
    obtain ⟨rq, hrq, -⟩ := modBase_ok hx
    exact ⟨rq, hrq⟩
  · cases parent with
    | none =>
      obtain ⟨-, rfl⟩ := pure_ok.mp hx
      have hmap : (fun c => (v.nc.base c).map fun rc =>
          if (nameless name none ino).parent = some c then addChild v.nc.nextBase rc else rc) =
          v.nc.base := by
        funext c
        cases v.nc.base c <;> simp [nameless]
      simp only [insertBase, hmap]
      rfl
    | some q =>
      obtain ⟨rq, hrq, rfl⟩ := modBase_ok hx
      have hrq : v.nc.base q = some rq := hrq
      have hbase : Function.update (Function.update v.nc.base q
            (some { rq with children := v.nc.nextBase :: rq.children })) v.nc.nextBase
            (some (nameless name (some q) ino)) =
          Function.update (fun c => (v.nc.base c).map fun rc =>
            if (nameless name (some q) ino).parent = some c then addChild v.nc.nextBase rc else rc)
            v.nc.nextBase (some (nameless name (some q) ino)) := by
        funext c
        by_cases hc : c = v.nc.nextBase
        · rw [hc, Function.update_self, Function.update_self]
        · rw [Function.update_of_ne hc, Function.update_of_ne hc]
          by_cases hcq : c = q
          · subst hcq
            rw [Function.update_self, hrq]
            simp [nameless, addChild]
          · rw [Function.update_of_ne hcq]
            have : some q ≠ some c := fun h => hcq (Option.some.inj h).symm
            cases v.nc.base c <;> simp [nameless, this]
      simp only [insertBase, ← hbase]
      rfl

/-- A chunk of new free nodes. -/
def growth (nc : NameCache) : NameCache :=
  { nc with
    freePnodes :=
      ((List.range PNODES_PER_CHUNK).map (nc.nextPnode + ·)).reverse ++ nc.freePnodes
    nextPnode := nc.nextPnode + PNODES_PER_CHUNK }

theorem morePnodes_ok {e : Env D} {s t : Sys D} {u : Unit} (run : morePnodes e s = .ok (u, t)) :
    Scratch s t ∨ ∃ v, Scratch s v ∧ t = { v with nc := growth v.nc } := by
  obtain ⟨ok, v, hv, h1⟩ := bind_ok.mp run
  have hscratch : Scratch s v := malloc_moves (fun _ _ k => k) _ _ _ hv
  by_cases hok : ok = true
  · rw [if_pos hok] at h1
    obtain rfl := write_ok.mp h1
    exact Or.inr ⟨v, hscratch, rfl⟩
  · rw [if_neg hok] at h1
    obtain ⟨-, rfl⟩ := pure_ok.mp h1
    exact Or.inl hscratch

/-- The record `_sysio_p_new_alias` writes. -/
def newPnode (p : Pno) (parent : Option Pno) (b : PbId) (mnt : MntId) : Pnode :=
  { ref := 1, parent := parent.getD p, base := b, mount := mnt, cover := none }

theorem sysioPNewAlias_ok {e : Env D} {parent : Option Pno} {b : PbId} {mnt : MntId} {s t : Sys D}
    {o : Option Pno} (run : sysioPNewAlias e parent b mnt s = .ok (o, t)) :
    ∃ u, Exec.when (s.nc.freePnodes = []) (morePnodes e) s = .ok ((), u) ∧
      ((o = none ∧ t = u) ∨ ∃ p r, o = some p ∧ u.nc.freePnodes.head? = some p ∧
        u.nc.base b = some r ∧
        t = { u with nc := insertPnode u.nc p (newPnode p parent b mnt) }) := by
  obtain ⟨r, _, hread, h1⟩ := bind_ok.mp run
  obtain ⟨-, rfl⟩ := deref_ok.mp hread
  obtain ⟨_, _, hc, h2⟩ := bind_ok.mp h1
  obtain ⟨-, rfl⟩ := check_ok.mp hc
  obtain ⟨free, _, hread, h3⟩ := bind_ok.mp h2
  obtain ⟨rfl, rfl⟩ := read_ok.mp hread
  obtain ⟨_, u, hu, h4⟩ := bind_ok.mp h3
  refine ⟨u, hu, ?_⟩
  obtain ⟨free, _, hread, h5⟩ := bind_ok.mp h4
  obtain ⟨rfl, rfl⟩ := read_ok.mp hread
  cases hfree : u.nc.freePnodes with
  | nil =>
    simp only [hfree] at h5
    obtain ⟨rfl, rfl⟩ := pure_ok.mp h5
    exact Or.inl ⟨rfl, rfl⟩
  | cons p rest =>
    simp only [hfree] at h5
    obtain ⟨_, _, hw, h6⟩ := bind_ok.mp h5
    obtain rfl := write_ok.mp hw
    obtain ⟨_, _, hm, h7⟩ := bind_ok.mp h6
    obtain ⟨rb, hrb, rfl⟩ := modBase_ok hm
    obtain ⟨rfl, rfl⟩ := pure_ok.mp h7
    have hrb : u.nc.base b = some rb := hrb
    refine Or.inr ⟨p, rb, rfl, by simp, hrb, ?_⟩
    have hbase : Function.update u.nc.base b (some { rb with aliases := p :: rb.aliases }) =
        fun c => (u.nc.base c).map fun rc =>
          if c = (newPnode p parent b mnt).base then addAlias p rc else rc := by
      funext c
      by_cases hcb : c = b
      · subst hcb
        rw [Function.update_self, hrb]
        simp [newPnode, addAlias]
      · rw [Function.update_of_ne hcb]
        cases u.nc.base c <;> simp [newPnode, hcb]
    simp only [insertPnode, hfree, List.tail_cons, ← hbase]
    rfl

theorem growth_free (nc : NameCache) : (growth nc).freePnodes ≠ [] := by
  unfold growth
  simp [PNODES_PER_CHUNK]

/-- There is no path node for a new alias when none is free and there is no memory for more. -/
theorem sysioPNewAlias_room {e : Env D} {parent : Option Pno} {b : PbId} {mnt : MntId} {s t : Sys D}
    {o : Option Pno} (run : sysioPNewAlias e parent b mnt s = .ok (o, t)) :
    o = none ↔ s.nc.freePnodes = [] ∧ e.malloc s.mallocs = false := by
  obtain ⟨r, _, hread, h1⟩ := bind_ok.mp run
  obtain ⟨-, rfl⟩ := deref_ok.mp hread
  obtain ⟨_, _, hc, h2⟩ := bind_ok.mp h1
  obtain ⟨-, rfl⟩ := check_ok.mp hc
  obtain ⟨free, _, hread, h3⟩ := bind_ok.mp h2
  obtain ⟨rfl, rfl⟩ := read_ok.mp hread
  obtain ⟨_, u, hu, h4⟩ := bind_ok.mp h3
  obtain ⟨free, _, hread, h5⟩ := bind_ok.mp h4
  obtain ⟨rfl, rfl⟩ := read_ok.mp hread
  -- what is free once more has been asked for
  have room : u.nc.freePnodes = [] ↔ s.nc.freePnodes = [] ∧ e.malloc s.mallocs = false := by
    rcases when_ok.mp hu with ⟨empty, hu⟩ | ⟨some_, rfl⟩
    · obtain ⟨ok, v, hv, h6⟩ := bind_ok.mp hu
      obtain ⟨rfl, rfl⟩ := Prod.mk.inj (Except.ok.inj hv)
      by_cases given : e.malloc s.mallocs = true
      · rw [if_pos given] at h6
        obtain rfl := write_ok.mp h6
        constructor
        · exact fun none => absurd none (growth_free s.nc)
        · rintro ⟨-, denied⟩
          rw [given] at denied
          cases denied
      · rw [if_neg given] at h6
        obtain ⟨-, rfl⟩ := pure_ok.mp h6
        exact ⟨fun _ => ⟨empty, Bool.eq_false_of_not_eq_true given⟩, fun _ => empty⟩
    · exact ⟨fun none => absurd none some_, fun none => none.1⟩
  rw [← room]
  cases hfree : u.nc.freePnodes with
  | nil =>
    simp only [hfree] at h5
    obtain ⟨rfl, -⟩ := pure_ok.mp h5
    exact ⟨fun _ => rfl, fun _ => rfl⟩
  | cons p rest =>
    simp only [hfree] at h5
    obtain ⟨_, _, hw, h6⟩ := bind_ok.mp h5
    obtain ⟨_, _, hm, h7⟩ := bind_ok.mp h6
    obtain ⟨rfl, -⟩ := pure_ok.mp h7
    exact ⟨fun none => (by cases none), fun none => (by cases none)⟩

section Searches

/-- A name that is not on its chain is the name of no child. -/
theorem findNamed_none {q : PbId} {name : Qstr} {l : List PbId} {s t : Sys D}
    (run : (findNamed q name l : Sysio D (Option PbId)) s = .ok (none, t)) :
    ∀ c ∈ l, ∀ rc, s.nc.base c = some rc → rc.parent = some q → rc.name.name ≠ name.name := by
  induction l generalizing s with
  | nil =>
    intro c hc
    cases hc
  | cons b l ih =>
    obtain ⟨r, _, hread, h1⟩ := bind_ok.mp run
    obtain ⟨hr, rfl⟩ := deref_ok.mp hread
    by_cases hit : r.parent = some q ∧ r.name.name = name.name
    · rw [if_pos hit] at h1
      obtain ⟨h, -⟩ := pure_ok.mp h1
      cases h
    · rw [if_neg hit] at h1
      intro c hc rc hrc hp hn
      rcases List.mem_cons.mp hc with rfl | hc
      · obtain rfl : r = rc := Option.some.inj (hr.symm.trans hrc)
        exact hit ⟨hp, hn⟩
      · exact ih h1 c hc rc hrc hp hn

theorem findNamed_some {q : PbId} {name : Qstr} {l : List PbId} {s t : Sys D} {b : PbId}
    (run : (findNamed q name l : Sysio D (Option PbId)) s = .ok (some b, t)) :
    ∃ r, s.nc.base b = some r ∧ r.parent = some q ∧ r.name.name = name.name := by
  induction l generalizing s with
  | nil =>
    obtain ⟨h, -⟩ := pure_ok.mp run
    cases h
  | cons c l ih =>
    obtain ⟨r, _, hread, h1⟩ := bind_ok.mp run
    obtain ⟨hr, rfl⟩ := deref_ok.mp hread
    by_cases hit : r.parent = some q ∧ r.name.name = name.name
    · rw [if_pos hit] at h1
      obtain ⟨h, -⟩ := pure_ok.mp h1
      obtain rfl := Option.some.inj h
      exact ⟨r, hr, hit⟩
    · rw [if_neg hit] at h1
      exact ih h1

theorem findAliasOf_none {parent : Pno} {l : List Pno} {s t : Sys D}
    (run : (findAliasOf parent l : Sysio D (Option Pno)) s = .ok (none, t)) :
    ∀ p ∈ l, (s.nc.pnode p).parent ≠ parent := by
  induction l generalizing s with
  | nil =>
    intro p hp
    cases hp
  | cons q l ih =>
    obtain ⟨n, _, hread, h1⟩ := bind_ok.mp run
    obtain ⟨rfl, rfl⟩ := read_ok.mp hread
    by_cases hit : (s.nc.pnode q).parent = parent
    · rw [if_pos hit] at h1
      obtain ⟨h, -⟩ := pure_ok.mp h1
      cases h
    · rw [if_neg hit] at h1
      intro p hp
      rcases List.mem_cons.mp hp with rfl | hp
      · exact hit
      · exact ih h1 p hp

theorem findAliasOf_some {parent : Pno} {l : List Pno} {s t : Sys D} {p : Pno}
    (run : (findAliasOf parent l : Sysio D (Option Pno)) s = .ok (some p, t)) :
    p ∈ l ∧ (s.nc.pnode p).parent = parent := by
  induction l generalizing s with
  | nil =>
    obtain ⟨h, -⟩ := pure_ok.mp run
    cases h
  | cons q l ih =>
    obtain ⟨n, _, hread, h1⟩ := bind_ok.mp run
    obtain ⟨rfl, rfl⟩ := read_ok.mp hread
    by_cases hit : (s.nc.pnode q).parent = parent
    · rw [if_pos hit] at h1
      obtain ⟨h, -⟩ := pure_ok.mp h1
      obtain rfl := Option.some.inj h
      exact ⟨List.mem_cons_self .., hit⟩
    · rw [if_neg hit] at h1
      exact ⟨List.mem_cons_of_mem _ (ih h1).1, (ih h1).2⟩

/-- The list that is searched holds every child of that name. -/
theorem mem_nameChain {q : PbId} {name : Qstr} {s t : Sys D} {l : List PbId}
    (hf : Forest root s.nc) (hname : Hashed name)
    (run : (nameChain q name : Sysio D (List PbId)) s = .ok (l, t)) :
    ∀ c rc, s.nc.base c = some rc → rc.parent = some q → rc.name.name = name.name → c ∈ l := by
  unfold nameChain at run
  rw [if_pos hname.1] at run
  obtain ⟨rfl, rfl⟩ := read_ok.mp run
  intro c rc hrc _ hn
  have hne : rc.name.name ≠ [] := hn ▸ hname.1
  refine (hf.chain _ c).mpr ⟨rc, hrc, hne, ?_⟩
  rw [(hf.hashed c rc hrc hne).1, hn, hname.2]

end Searches

/-- What the edits of a look-up do to the states described by `H`. -/
structure Growth (root : Pno → Prop) (e : Env D) (H : ℕ → List Pno → Sys D → Prop) : Prop where
  forest : ∀ {n own s}, H n own s → Forest root s.nc
  rooted : ∀ {n own s}, H n own s → Rooted root s
  live : ∀ {n own s}, H n own s → ∀ p, root p → p ∈ s.nc.pnodes
  owned : ∀ {n own s}, H n own s → ∀ p ∈ own, p ∈ s.nc.pnodes ∧ 0 < (s.nc.pnode p).ref
  fewer : ∀ {n own s}, H (n + 1) own s → H n own s
  scratch : ∀ {n own s t}, Scratch s t → H n own s → H n own t
  pRef : ∀ n own p, Triple (H n own) (pRef p : Sysio D Unit) fun _ => H n (p :: own)
  reclaim : ∀ n own, Triple (fun s => H (n + 1) own s ∧ s.nc.maxNames < s.nc.nNames) (pReclaim e)
    fun _ => H (n + 1) own
  grow : ∀ {n own s}, H n own s → H n own { s with nc := growth s.nc }
  base : ∀ {n own s name q}, H (n + 1) own s → Fresh s.nc (nameless name (some q) none) →
    H n own { s with nc := insertBase s.nc (nameless name (some q) none) }
  node : ∀ {n own s p parent b}, H n own s → parent ∈ own →
    FreshNode root s.nc p (newPnode p (some parent) b (s.nc.pnode parent).mount) →
    H n (p :: own) { s with
      nc := insertPnode s.nc p (newPnode p (some parent) b (s.nc.pnode parent).mount) }

section Growth

variable {e : Env D} {H : ℕ → List Pno → Sys D → Prop} (g : Growth root e H)
  (gone : ∀ i, Moves OffInodes (e.ops.gone i)) {n : ℕ} {own : List Pno}

include g gone

/-- The child of that name is there afterwards, if there was memory for it. -/
theorem findBase_grows {s t : Sys D} {parent : Pno} {name : Qstr} {o : Option PbId}
    (hs : H (n + 1) own s) (hname : Hashed name)
    (run : findBase e (s.nc.pnode parent).base name s = .ok (o, t)) :
    H n own t ∧ t.nc.pnode = s.nc.pnode ∧ ∀ b, o = some b → ∃ r, t.nc.base b = some r ∧
      r.parent = some (s.nc.pnode parent).base ∧ r.name.name = name.name := by
  obtain ⟨chain, _, hc, h1⟩ := bind_ok.mp run
  obtain rfl : s = _ := nameChain_moves (R := Eq) _ _ _ _ _ hc
  obtain ⟨found, _, hn, h2⟩ := bind_ok.mp h1
  obtain rfl : s = _ := findNamed_moves (R := Eq) _ _ _ _ _ _ hn
  cases found with
  | some b =>
    obtain ⟨rfl, rfl⟩ := pure_ok.mp h2
    refine ⟨g.fewer hs, rfl, ?_⟩
    rintro _ ⟨⟩
    exact findNamed_some hn
  | none =>
    obtain ⟨u, ok, v, hu, hv, hres⟩ := sysioPbNew_ok h2
    have kept : H (n + 1) own u ∧ Kept root s u := by
      rcases when_ok.mp hu with ⟨hmax, hu⟩ | ⟨-, rfl⟩
      · exact ⟨g.reclaim n own s ⟨hs, hmax⟩ _ _ hu,
          pReclaim_prunes gone _ _ _ hu (g.forest hs) (g.rooted hs)⟩
      · exact ⟨hs, Kept.refl (g.forest hs)⟩
    have scratch : Scratch u v := malloc_moves (fun _ _ k => k) _ _ _ hv
    have hv' : H (n + 1) own v := g.scratch scratch kept.1
    have same : v.nc.pnode = s.nc.pnode := by
      rw [scratch.nc]
      exact kept.2.pruned.pnode
    rcases hres with ⟨rfl, rfl⟩ | ⟨rfl, hash, hparent, rfl⟩
    · exact ⟨g.fewer hv', same, fun b hb => by cases hb⟩
    · have fresh : Fresh v.nc (nameless name (some (s.nc.pnode parent).base) none) := by
        constructor
        case children => rfl
        case aliases => rfl
        case hashed => exact fun hne => ⟨hname.2, hash hne⟩
        case parent => exact fun q hq => hparent q hq
        case unique =>
          rintro c rc q hrc hpar hq hn'
          obtain rfl : (s.nc.pnode parent).base = q := Option.some.inj hq
          rw [scratch.nc] at hrc
          obtain ⟨r, hr, he, -, hep⟩ := kept.2.pruned.base c rc hrc
          have hrname : r.name.name = name.name := by
            rw [← he]
            exact hn'
          have hrpar : r.parent = some (s.nc.pnode parent).base := hep ▸ hpar
          exact findNamed_none hn c (mem_nameChain (g.forest hs) hname hc c r hr hrpar hrname) r hr
            hrpar hrname
      refine ⟨g.base hv' fresh, same, ?_⟩
      rintro _ ⟨⟩
      exact ⟨_, insertBase_some.mpr (Or.inl ⟨rfl, rfl⟩), rfl, rfl⟩

omit gone in
/-- The new alias is held. -/
theorem newAlias_grows {s t : Sys D} {parent : Pno} {b : PbId} {r : PnodeBase} {o : Option Pno}
    (hs : H n own s) (hp : parent ∈ own) (hr : s.nc.base b = some r)
    (hpar : r.parent = some (s.nc.pnode parent).base)
    (none_ : ∀ p ∈ r.aliases, (s.nc.pnode p).parent ≠ parent)
    (run : sysioPNewAlias e (some parent) b (s.nc.pnode parent).mount s = .ok (o, t)) :
    H n (o.toList ++ own) t := by
  obtain ⟨u, hu, hres⟩ := sysioPNewAlias_ok run
  have hu' : H n own u ∧ u.nc.pnode = s.nc.pnode ∧ u.nc.pnodes = s.nc.pnodes ∧
      u.nc.base = s.nc.base := by
    rcases when_ok.mp hu with ⟨-, hu⟩ | ⟨-, rfl⟩
    · rcases morePnodes_ok hu with hk | ⟨v, hk, rfl⟩
      · exact ⟨g.scratch hk hs, by rw [hk.nc], by rw [hk.nc], by rw [hk.nc]⟩
      · refine ⟨g.grow (g.scratch hk hs), ?_, ?_, ?_⟩ <;> simp only [growth, hk.nc]
    · exact ⟨hs, rfl, rfl, rfl⟩
  obtain ⟨hus, hnode, hnodes, hbase⟩ := hu'
  rcases hres with ⟨rfl, rfl⟩ | ⟨p, r', rfl, hfree, hr', rfl⟩
  · exact hus
  · have hlive := (g.owned hs parent hp).1
    have hnot : ¬ root p := by
      intro hroot
      refine (g.forest hus).apart p ?_ (g.live hus p hroot)
      exact List.mem_of_mem_head? hfree
    rw [← hnode]
    refine g.node hus hp ⟨hfree, ⟨r', hr'⟩, fun _ => ⟨?_, rfl, r, ?_, ?_⟩, ?_⟩
    · change parent ∈ u.nc.pnodes
      rw [hnodes]
      exact hlive
    · change u.nc.base b = some r
      rw [hbase]
      exact hr
    · change r.parent = some (u.nc.pnode parent).base
      rw [hnode]
      exact hpar
    · intro q hq hqb hqp _
      rw [hnodes] at hq
      rw [hnode] at hqb hqp
      exact none_ q (((g.forest hs).alias_ b r hr q).mpr ⟨hq, hqb⟩) hqp

/-- A look-up in the cache holds the node it returns. -/
theorem sysioPFindAlias_grows (parent : Pno) (name : Qstr) (hp : parent ∈ own)
    (hname : Hashed name) : Triple (H (n + 1) own) (sysioPFindAlias e parent name) fun res s =>
      H n (res.2.toList ++ own) s ∧ (res.1 = 0 → res.2.isSome) ∧ (res.1 ≠ 0 → res.2 = none) := by
  intro s hs res t run
  obtain ⟨np, _, hread, h1⟩ := bind_ok.mp run
  obtain ⟨rfl, rfl⟩ := read_ok.mp hread
  obtain ⟨found, v, hv, h2⟩ := bind_ok.mp h1
  obtain ⟨hv', same, hfound⟩ := findBase_grows g gone hs hname hv
  cases found with
  | none =>
    obtain ⟨rfl, rfl⟩ := pure_ok.mp h2
    exact ⟨hv', fun h => absurd h (by decide), fun _ => rfl⟩
  | some b =>
    obtain ⟨r, hr, hpar, -⟩ := hfound b rfl
    obtain ⟨r', _, hread, h3⟩ := bind_ok.mp h2
    obtain ⟨hr', rfl⟩ := deref_ok.mp hread
    obtain rfl : r' = r := Option.some.inj (hr'.symm.trans hr)
    obtain ⟨known, _, ha, h4⟩ := bind_ok.mp h3
    obtain rfl : v = _ := findAliasOf_moves (R := Eq) _ _ _ _ _ ha
    cases known with
    | some p =>
      obtain ⟨_, w, hw, h5⟩ := bind_ok.mp h4
      obtain ⟨rfl, rfl⟩ := pure_ok.mp h5
      exact ⟨g.pRef n own p v hv' _ w hw, fun _ => rfl, fun h => absurd rfl h⟩
    | none =>
      obtain ⟨np, _, hread, h5⟩ := bind_ok.mp h4
      obtain ⟨rfl, rfl⟩ := read_ok.mp hread
      obtain ⟨made, w, hw, h6⟩ := bind_ok.mp h5
      rw [← same] at hpar
      have hw' := newAlias_grows g hv' hp hr hpar (findAliasOf_none ha) hw
      cases made with
      | none =>
        obtain ⟨rfl, rfl⟩ := pure_ok.mp h6
        exact ⟨hw', fun h => absurd h (by decide), fun _ => rfl⟩
      | some p =>
        obtain ⟨rfl, rfl⟩ := pure_ok.mp h6
        exact ⟨hw', fun _ => rfl, fun h => absurd rfl h⟩

end Growth

end GrowForest
