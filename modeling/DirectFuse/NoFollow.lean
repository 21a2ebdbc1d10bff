import DirectFuse.WalkPairs

/-! ND_NOFOLLOW. The walk over the text of a link gets the flags of the walk it serves, so the flag
stops it at a link at the end of that text, which the outer walk then takes for the node the link
leads to. -/
namespace NoFollow

open ExecLogic SysioState SysioInode SysioNamei WalkPairs

variable {D : Type}

def noFollow (nd : Nameidata) : Nameidata := { nd with flags := nd.flags ||| ND_NOFOLLOW }

/-- The walk to the node the last component names: the links on the way to it are followed, each
wherever it leads. -/
def walkToLast (e : Env D) (parent : Option Pno) (nd : Nameidata) : Sysio D (ℤ × Option Pno) :=
  walkFrom e (some fun p sub => walkBudget e (MAX_SYMLINK - 1) (some p) { sub with flags := nd.flags })
    parent (noFollow nd)

def isLinkAt (p : Pno) (s : Sys D) : Bool :=
  ((s.nc.base (s.nc.pnode p).base).bind fun b => b.ino.bind s.ic.inode).any fun r => r.stbuf.isLnk

/-- A walk over the text of a link that must not end at a link. -/
def straight (walk : Follow D) : Follow D := fun p nd => do
  let res ← walk p nd
  Exec.check .abort fun s => !(res.1 == 0 && res.2.any fun q => isLinkAt q s)
  return res

/-- `_sysio_path_walk`, stopping where the text of a link has led to another link. -/
def straightWalk (e : Env D) : ℕ → Option Pno → Nameidata → Sysio D (ℤ × Option Pno)
  | 0, parent, nd => walkFrom e none parent nd
  | budget + 1, parent, nd =>
    walkFrom e (some (straight fun p nd => straightWalk e budget (some p) nd)) parent nd

/-- No link followed on the way has a text whose own last component names a link. -/
def Straight (e : Env D) (parent : Option Pno) (nd : Nameidata) (s : Sys D) : Prop :=
  ∃ res t, straightWalk e MAX_SYMLINK parent (noFollow nd) s = .ok (res, t)

theorem isLinkAt_iff {p : Pno} {s : Sys D} : isLinkAt p s = true ↔ IsLink p s := by
  simp only [isLinkAt, Option.any_eq_true, Option.bind_eq_some_iff, IsLink]
  constructor
  · rintro ⟨r, ⟨b, hb, i, hi, hr⟩, hlnk⟩
    exact ⟨b, i, r, hb, hi, hr, hlnk⟩
  · rintro ⟨b, i, r, hb, hi, hr, hlnk⟩
    exact ⟨r, ⟨b, hb, i, hi, hr⟩, hlnk⟩

section Flags

variable (f : ℕ)

theorem noFollow_agrees : Agree (f ||| ND_NOFOLLOW) f where
  negok := by
    rw [Nat.and_or_distrib_right]
    exact (Nat.or_zero _).symm
  perm := by
    rw [Nat.and_or_distrib_right]
    exact (Nat.or_zero _).symm
  more h := by
    rw [Nat.and_or_distrib_right] at h
    exact (Nat.or_eq_zero_iff.mp h).1

theorem noFollow_set : (f ||| ND_NOFOLLOW) &&& ND_NOFOLLOW ≠ 0 := by
  intro h
  rw [Nat.and_or_distrib_right] at h
  exact absurd (Nat.or_eq_zero_iff.mp h).2 (by decide)

end Flags

section Straight

variable {e : Env D} {walk : Follow D} {p : Pno} {nd : Nameidata} {s t : Sys D}
  {res : ℤ × Option Pno}

theorem straight_ok : straight walk p nd s = .ok (res, t) ↔
    walk p nd s = .ok (res, t) ∧ ∀ q, res = (0, some q) → ¬ IsLink q t := by
  have checked : (!(res.1 == 0 && res.2.any fun q => isLinkAt q t)) = true ↔
      ∀ q, res = (0, some q) → ¬ IsLink q t := by
    obtain ⟨err, found⟩ := res
    cases found with
    | none => simp
    | some q =>
      by_cases h0 : err = 0
      · simp [h0, ← isLinkAt_iff]
      · simp [h0]
  constructor
  · intro run
    obtain ⟨out, u, hu, h1⟩ := bind_ok.mp run
    obtain ⟨_, _, hc, h2⟩ := bind_ok.mp h1
    obtain ⟨hcheck, rfl⟩ := check_ok.mp hc
    obtain ⟨rfl, rfl⟩ := pure_ok.mp h2
    exact ⟨hu, checked.mp hcheck⟩
  · rintro ⟨run, hno⟩
    refine bind_ok.mpr ⟨res, t, run, bind_ok.mpr ⟨(), t, ?_, pure_ok.mpr ⟨rfl, rfl⟩⟩⟩
    exact check_ok.mpr ⟨checked.mpr hno, rfl⟩

/-- A walk that goes straight is the walk. -/
theorem walk_of_straight (budget : ℕ) (parent : Option Pno) (nd : Nameidata)
    (run : straightWalk e budget parent nd s = .ok (res, t)) :
    walkBudget e budget parent nd s = .ok (res, t) := by
  induction budget generalizing parent nd s t res with
  | zero => exact run
  | succ budget ih =>
    have leads : Leads (D := D) (fun _ => False) nd.flags nd.flags
        (some (straight fun p nd => straightWalk e budget (some p) nd))
        (some fun p nd => walkBudget e budget (some p) nd) := by
      intro p path root intent s res t h
      exact Or.inl (ih _ _ (straight_ok.mp h).1)
    rcases walkFrom_leads leads (Agree.refl _) run with same | ⟨-, h⟩ | ⟨hf, hg, -⟩
    · exact same
    · exact h.elim
    · exact absurd hg hf

/-- Under the flag a walk that succeeds has gone straight: a link in the place of a directory ends
it. -/
theorem straight_of_walk (budget : ℕ) (parent : Option Pno) (nd : Nameidata)
    (hflag : nd.flags &&& ND_NOFOLLOW ≠ 0)
    (run : walkBudget e budget parent nd s = .ok (res, t)) :
    straightWalk e budget parent nd s = .ok (res, t) ∨ res.1 ≠ 0 := by
  induction budget generalizing parent nd s t res with
  | zero => exact Or.inl run
  | succ budget ih =>
    have leads : Leads (D := D) (fun _ => True) nd.flags nd.flags
        (some fun p nd => walkBudget e budget (some p) nd)
        (some (straight fun p nd => straightWalk e budget (some p) nd)) := by
      intro p path root intent s res t h
      by_cases herr : res.1 = 0
      · by_cases hlink : ∃ q, res = (0, some q) ∧ IsLink q t
        · exact Or.inr (Or.inr ⟨hflag, trivial, hlink⟩)
        · have inner := (ih (some p) ⟨nd.flags, path, root, intent⟩ hflag h).resolve_right
            (not_not.mpr herr)
          exact Or.inl (straight_ok.mpr ⟨inner, fun q hq h => hlink ⟨q, hq, h⟩⟩)
      · exact Or.inr (Or.inl ⟨herr, trivial⟩)
    rcases walkFrom_leads leads (Agree.refl _) run with same | ⟨h, -⟩ | ⟨hf, hg, -⟩
    · exact Or.inl same
    · exact Or.inr h
    · exact absurd hg hf

/-- Without the flag a walk goes as a straight one does under the flag, up to a link at its end. -/
theorem walk_beyond_straight (budget : ℕ) (parent : Option Pno) (nd : Nameidata)
    (run : straightWalk e budget parent (noFollow nd) s = .ok (res, t)) :
    walkBudget e budget parent nd s = .ok (res, t) ∨ ∃ q, res = (0, some q) ∧ IsLink q t := by
  induction budget generalizing parent nd s t res with
  | zero =>
    have leads : Leads (D := D) (fun _ => False) (nd.flags ||| ND_NOFOLLOW) nd.flags none none :=
      trivial
    rcases walkFrom_leads leads (noFollow_agrees _) run with same | ⟨-, h⟩ | ⟨-, -, h⟩
    · exact Or.inl same
    · exact h.elim
    · exact Or.inr h
  | succ budget ih =>
    have leads : Leads (D := D) (fun _ => False) (nd.flags ||| ND_NOFOLLOW) nd.flags
        (some (straight fun p nd => straightWalk e budget (some p) nd))
        (some fun p nd => walkBudget e budget (some p) nd) := by
      intro p path root intent s res t h
      obtain ⟨hrun, hno⟩ := straight_ok.mp h
      rcases ih _ ⟨nd.flags, path, root, intent⟩ hrun with same | ⟨q, hq, hlink⟩
      · exact Or.inl same
      · exact absurd hlink (hno q hq)
    rcases walkFrom_leads leads (noFollow_agrees _) run with same | ⟨-, h⟩ | ⟨-, -, h⟩
    · exact Or.inl same
    · exact h.elim
    · exact Or.inr h

theorem toLast_of_straight (parent : Option Pno) (nd : Nameidata)
    (run : straightWalk e MAX_SYMLINK parent (noFollow nd) s = .ok (res, t)) :
    walkToLast e parent nd s = .ok (res, t) := by
  have leads : Leads (D := D) (fun _ => False) (noFollow nd).flags (noFollow nd).flags
      (some (straight fun p nd => straightWalk e (MAX_SYMLINK - 1) (some p) nd))
      (some fun p sub => walkBudget e (MAX_SYMLINK - 1) (some p) { sub with flags := nd.flags }) := by
    intro p path root intent s res t h
    obtain ⟨hrun, hno⟩ := straight_ok.mp h
    rcases walk_beyond_straight _ _ ⟨nd.flags, path, root, intent⟩ hrun with same | ⟨q, hq, hlink⟩
    · exact Or.inl same
    · exact absurd hlink (hno q hq)
  rcases walkFrom_leads leads (Agree.refl _) run with same | ⟨-, h⟩ | ⟨hf, hg, -⟩
  · exact same
  · exact h.elim
  · exact absurd hg hf

end Straight

/-- ND_NOFOLLOW concerns the last component only exactly where no link on the way leads, by its own
text, to another link. -/
theorem nofollow_last_component {e : Env D} {parent : Option Pno} {nd : Nameidata} {s t u : Sys D}
    {p q : Pno}
    (found : sysioPathWalk e parent nd s = .ok ((0, some p), t))
    (last : walkToLast e parent nd s = .ok ((0, some q), u)) (hq : ¬ IsLink q u) :
    (∃ v, sysioPathWalk e parent (noFollow nd) s = .ok ((0, some p), v)) ↔
      Straight e parent nd s := by
  constructor
  · rintro ⟨v, run⟩
    have hstraight := straight_of_walk MAX_SYMLINK parent (noFollow nd) (noFollow_set _) run
    exact ⟨_, v, hstraight.resolve_right fun h => h rfl⟩
  · rintro ⟨res, v, run⟩
    have hlast := toLast_of_straight parent nd run
    rw [last] at hlast
    obtain ⟨rfl, rfl⟩ := Prod.mk.inj (Except.ok.inj hlast)
    rcases walk_beyond_straight _ _ _ run with same | ⟨q', hq', hlink⟩
    · have hsame := same.symm.trans found
      obtain ⟨hp, -⟩ := Prod.mk.inj (Except.ok.inj hsame)
      rw [← hp]
      exact ⟨u, walk_of_straight _ _ _ run⟩
    · obtain ⟨-, hqq⟩ := Prod.mk.inj hq'
      obtain rfl := Option.some.inj hqq
      exact absurd hlink hq

section Chain

open SysioMount SysioSystem

/-- The files of a name space with a chain of links: the root, the links `a` and `b`, and the
directory `d`. -/
def chainModes : List ℕ := [S_IFDIR, S_IFLNK, S_IFLNK, S_IFDIR, S_IFREG]

/-- Its names: `a` leads to `b` and `b` to `d`, where there is a file `f`. -/
def chainEntry : Option InoId → Bytes → Option InoId
  | some 0, [97] => some 1
  | some 0, [98] => some 2
  | some 0, [100] => some 3
  | some 3, [102] => some 4
  | _, _ => none

def chainText : InoId → Bytes
  | 1 => [98]
  | 2 => [100]
  | _ => []

/-- The driver of that name space, with just what a walk calls. -/
def chainOps : InodeOps Unit where
  lookup _ p o _ _ := do
    match o with
    | some i => return (0, some i)
    | none => do
      let n ← pnodeAt p
      let r ← baseAt n.base
      match chainEntry (← inoOf n.parent) r.name.name with
      | none => return (-ENOENT, none)
      | some i => do
        iRef i
        return (0, some i)
  getattr _ _ _ := Exec.fault .wild
  setattr _ _ _ _ := Exec.fault .wild
  mkdir _ _ _ := Exec.fault .wild
  rmdir _ _ := Exec.fault .wild
  symlink _ _ _ := Exec.fault .wild
  readlink i _ _ := return ((chainText i).length, chainText i)
  open_ _ _ _ _ := Exec.fault .wild
  close _ _ := Exec.fault .wild
  link _ _ _ := Exec.fault .wild
  unlink _ _ := Exec.fault .wild
  rename _ _ _ := Exec.fault .wild
  read _ _ _ _ := Exec.fault .wild
  write _ _ _ _ := Exec.fault .wild
  post _ _ _ := Exec.fault .wild
  iodone _ _ := Exec.fault .wild
  sync _ _ := Exec.fault .wild
  datasync _ _ := Exec.fault .wild
  mknod _ _ _ _ := Exec.fault .wild
  ftruncate _ _ _ := Exec.fault .wild
  gone _ := pure ()
  fsopGone _ := pure ()

def chainEnv : Env Unit where
  malloc _ := true
  junk _ := 0
  euid := 0
  egid := 0
  groups := []
  ops := chainOps

def chainFiles (f : FsId) : List ℕ → Sysio Unit Unit
  | [] => pure ()
  | mode :: l => do
    let i ← Exec.read fun s => s.ic.nextInode
    let _ ← sysioINew chainEnv f i ⟨0, i, mode ||| 0o755, 1, 0, 0, 0⟩ true 0
    chainFiles f l

def chainMount : FsswopMount Unit := fun _ flags fstype tocover => do
  let f ← nonNull (← sysioFsNew chainEnv flags fstype 0)
  chainFiles f chainModes
  let b ← nonNull (← sysioPbNew chainEnv ⟨[], 0⟩ none (some 0))
  sysioDoMount chainEnv f b flags tocover

def chainLibrary : Library Unit where
  env := chainEnv
  fssw _ := some chainMount

/-- The library with that name space, as start-up leaves it. -/
def chainStart : Sys Unit := (sysioStartup chainLibrary [99]).final (initState ())

def chainWalk (path : Bytes) : Nameidata :=
  { flags := 0, path := some path, root := chainStart.mt.root, intent := none }

/-- The walk to `a/f` reaches the file, but not under ND_NOFOLLOW: it stops at `b`, which `a` leads
to, and takes it for the directory. -/
theorem nofollow_at_chain : ¬ ∀ (nd : Nameidata) (p q : Pno) (t u : Sys Unit),
    sysioPathWalk chainEnv none nd chainStart = .ok ((0, some p), t) →
    walkToLast chainEnv none nd chainStart = .ok ((0, some q), u) → ¬ IsLink q u →
    ∃ v, sysioPathWalk chainEnv none (noFollow nd) chainStart = .ok ((0, some p), v) := by
  intro claim
  have found : sysioPathWalk chainEnv none (chainWalk [47, 97, 47, 102]) chainStart =
      .ok ((0, some 106), _) := ok_of_value (by decide +kernel)
  have last : walkToLast chainEnv none (chainWalk [47, 97, 47, 102]) chainStart =
      .ok ((0, some 106), _) := ok_of_value (by decide +kernel)
  have notLink : ¬ IsLink 106 ((walkToLast chainEnv none (chainWalk [47, 97, 47, 102])).final
      chainStart) := by
    rw [← isLinkAt_iff]
    decide +kernel
  obtain ⟨v, run⟩ := claim _ _ _ _ _ found last notLink
  have stopped : sysioPathWalk chainEnv none (noFollow (chainWalk [47, 97, 47, 102])) chainStart =
      .ok ((-ENOTDIR, none), _) := ok_of_value (by decide +kernel)
  rw [stopped] at run
  obtain ⟨hret, -⟩ := Prod.mk.inj (Except.ok.inj run)
  exact absurd (congrArg Prod.fst hret) (by decide)

/-- `b` leads to the directory at once. -/
theorem nofollow_last_component_link :
    ∃ v, sysioPathWalk chainEnv none (noFollow (chainWalk [47, 98, 47, 102])) chainStart =
      .ok ((0, some 107), v) := by
  have found : sysioPathWalk chainEnv none (chainWalk [47, 98, 47, 102]) chainStart =
      .ok ((0, some 107), _) := ok_of_value (by decide +kernel)
  have last : walkToLast chainEnv none (chainWalk [47, 98, 47, 102]) chainStart =
      .ok ((0, some 107), _) := ok_of_value (by decide +kernel)
  have notLink : ¬ IsLink 107 ((walkToLast chainEnv none (chainWalk [47, 98, 47, 102])).final
      chainStart) := by
    rw [← isLinkAt_iff]
    decide +kernel
  refine (nofollow_last_component found last notLink).mpr ⟨(0, some 107), _, ok_of_value ?_⟩
  decide +kernel

end Chain

end NoFollow
