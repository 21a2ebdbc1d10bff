import DirectFuse.WalkFold
import Mathlib.Data.List.DropRight

/-! Separators at the end of a path. `_sysio_next_component` drops them with the separators before a
component, so that the walk sees the same components with and without them; the check behind the loop
is only reached when a look-up has failed. -/
namespace TrailingSeparators

open ExecLogic SysioState SysioInode SysioNamei SysioSystem FuseDriver FuseSystem CoreMoves WalkRules
open WalkFold
open PathRefs (fileMade)

variable {D : Type} {e : Env D}

/-- Without the separators at its end. -/
def stripped (path : Bytes) : Bytes := path.rdropWhile (· == PATH_SEPARATOR)

/-- The same, except that a path of separators keeps one. -/
def bare (path : Bytes) : Bytes := if stripped path = [] then [PATH_SEPARATOR] else stripped path

section Names

theorem pathNames_separators (path seps : Bytes) (all : ∀ c ∈ seps, c = PATH_SEPARATOR) :
    pathNames (path ++ seps) = pathNames path := by
  induction seps generalizing path with
  | nil => rw [List.append_nil]
  | cons c seps ih =>
    obtain rfl : c = PATH_SEPARATOR := all c (List.mem_cons_self ..)
    rw [pathNames_append, ← List.nil_append seps, ih [] fun c hc => all c (List.mem_cons_of_mem _ hc)]
    exact List.append_nil _

/-- The components of a path are given by their names. -/
theorem components_qstr (path : Bytes) :
    (components path).map Component.qstr = (pathNames path).map fun name => ⟨name, nameHash name⟩ := by
  rw [← components_names, List.map_map]
  refine List.map_congr_left fun c hc => ?_
  obtain ⟨-, hash⟩ := components_hashed path c hc
  change c.qstr = ⟨c.qstr.name, nameHash c.qstr.name⟩
  rw [← hash]

theorem stripped_append (path : Bytes) : ∃ seps : Bytes, path = stripped path ++ seps ∧
    ∀ c ∈ seps, c = PATH_SEPARATOR := by
  refine ⟨path.rtakeWhile (· == PATH_SEPARATOR), (List.rdropWhile_append_rtakeWhile ..).symm, ?_⟩
  intro c hc
  simpa using List.mem_rtakeWhile_imp hc

/-- A path that is not empty is its bare form with separators behind it. -/
theorem bare_append {path : Bytes} (hne : path ≠ []) : bare path ≠ [] ∧ ∃ seps : Bytes,
    path = bare path ++ seps ∧ ∀ c ∈ seps, c = PATH_SEPARATOR := by
  obtain ⟨seps, hpath, all⟩ := stripped_append path
  unfold bare
  by_cases empty : stripped path = []
  · rw [if_pos empty]
    rw [empty, List.nil_append] at hpath
    cases seps with
    | nil => exact absurd hpath hne
    | cons c seps =>
      obtain rfl : c = PATH_SEPARATOR := all c (List.mem_cons_self ..)
      exact ⟨List.cons_ne_nil _ _, seps, hpath, fun c hc => all c (List.mem_cons_of_mem _ hc)⟩
  · rw [if_neg empty]
    exact ⟨empty, seps, hpath, all⟩

end Names

/-- The driver may look at whether it is given the rest of the path, and not at the text of it. -/
def HintOnly (e : Env D) : Prop := ∀ i p inop intnt path path', path.isSome = path'.isSome →
  e.ops.lookup i p inop intnt path = e.ops.lookup i p inop intnt path'

section Walk

variable (hint : HintOnly e)

include hint

theorem sysioPValidate_hint (p : Pno) (intnt : Option Intent) {path path' : Option Bytes}
    (same : path.isSome = path'.isSome) :
    sysioPValidate e p intnt path = sysioPValidate e p intnt path' := by
  unfold sysioPValidate
  simp only [hint _ _ _ _ path path' same]

theorem lookup_hint (parent : Pno) (name : Qstr) (intnt : Option Intent) {path path' : Option Bytes}
    (check : Bool) (same : path.isSome = path'.isSome) :
    lookup e parent name intnt path check = lookup e parent name intnt path' check := by
  unfold lookup
  simp only [sysioPValidate_hint hint _ intnt same]

/-- The loop only looks at the names of the components. -/
theorem walkLoop_names (follow : Option (Follow D)) (nd : Nameidata) (text : Option Bytes)
    {l l' : List Component} (names : l.map Component.qstr = l'.map Component.qstr)
    {path path' : Option Bytes} (same : path.isSome = path'.isSome) (cur : Pno) :
    walkLoop e follow nd l path cur = walkLoop e follow { nd with path := text } l' path' cur := by
  induction l generalizing l' path path' cur with
  | nil =>
    obtain rfl : l' = [] := List.map_eq_nil_iff.mp names.symm
    unfold walkLoop
    rfl
  | cons c l ih =>
    cases l' with
    | nil => cases names
    | cons c' l' =>
      rw [List.map_cons, List.map_cons, List.cons.injEq] at names
      obtain ⟨first, rest⟩ := names
      have last : l = [] ↔ l' = [] := by
        rw [← List.map_eq_nil_iff (f := Component.qstr), rest, List.map_eq_nil_iff]
      unfold walkLoop
      simp only [ne_eq, reduceCtorEq, not_false_eq_true, true_or, and_true, List.isEmpty_cons]
      refine bind_congr fun ino => bind_congr fun i => bind_congr fun r => bind_congr fun res => ?_
      refine ite_congr rfl (fun _ => rfl) fun _ => bind_congr fun ino => ?_
      cases ino with
      | none => rfl
      | some i =>
        refine bind_congr fun r => ite_congr rfl (fun _ => rfl) fun _ => ?_
        have given : (path.map fun _ => c.from_).isSome = (path'.map fun _ => c'.from_).isSome := by
          rw [Option.isSome_map, Option.isSome_map, same]
        rw [first, given]
        simp only [last]
        have handed : (if ¬ l' = [] then path.map fun _ => c.from_ else none).isSome =
            (if ¬ l' = [] then path'.map fun _ => c'.from_ else none).isSome := by
          split <;> simp [same]
        rw [lookup_hint hint _ _ _ _ handed]
        refine bind_congr fun found => ite_congr rfl (fun _ => rfl) fun _ => ?_
        refine bind_congr fun p => bind_congr fun nc => bind_congr fun np => bind_congr fun mc =>
          bind_congr fun mp => bind_congr fun _ => ih rest ?_ p
        split <;> rfl

omit hint in
theorem map_qstr_eq {path path' : Bytes} (names : pathNames path = pathNames path') :
    (components path).map Component.qstr = (components path').map Component.qstr := by
  rw [components_qstr, components_qstr, names]

/-- Separators at the end of a path make no difference to a walk. -/
theorem sysioPathWalk_separators (parent : Option Pno) (nd : Nameidata) {path seps : Bytes}
    (hne : path ≠ []) (all : ∀ c ∈ seps, c = PATH_SEPARATOR) :
    sysioPathWalk e parent { nd with path := some (path ++ seps) } =
      sysioPathWalk e parent { nd with path := some path } := by
  have from_ : ∀ follow : Option (Follow D),
      walkFrom e follow parent { nd with path := some (path ++ seps) } =
        walkFrom e follow parent { nd with path := some path } := by
    intro follow
    cases path with
    | nil => exact absurd rfl hne
    | cons c l =>
      have names := map_qstr_eq (pathNames_separators (c :: l) seps all)
      unfold walkFrom
      simp only [List.cons_append]
      refine bind_congr fun start => bind_congr fun err => ite_congr rfl (fun _ => rfl) fun _ =>
        bind_congr fun _ => ?_
      have given : (some (c :: (l ++ seps))).isSome = (some (c :: l)).isSome := rfl
      exact walkLoop_names hint follow { nd with path := some (c :: (l ++ seps)) } (some (c :: l))
        names given start
  exact from_ _

end Walk

/-- The inode of a node. -/
def inodeOf (p : Pno) (s : Sys D) : Option Inode := do
  let b ← s.nc.base (s.nc.pnode p).base
  let i ← b.ino
  s.ic.inode i

/-- The walk leads to a node with an inode that is no directory. -/
def LeadsToFile (e : Env D) (parent : Option Pno) (nd : Nameidata) (path : Bytes) (s : Sys D) : Prop :=
  ∃ p t r, sysioPathWalk e parent { nd with path := some path } s = .ok ((0, some p), t) ∧
    inodeOf p t = some r ∧ r.stbuf.isDir = false

/-- What a walk of a path with separators at its end owes: an inode at its end is a directory, and
where the path without them leads to something else, the walk is refused. -/
structure Trailing (e : Env D) (parent : Option Pno) (nd : Nameidata) (path : Bytes) (s : Sys D) :
    Prop where
  directory : ∀ p t r, sysioPathWalk e parent { nd with path := some path } s = .ok ((0, some p), t) →
    inodeOf p t = some r → r.stbuf.isDir = true
  refused : LeadsToFile e parent nd (stripped path) s →
    ∃ t, sysioPathWalk e parent { nd with path := some path } s = .ok ((-ENOTDIR, none), t)

/-- Trailing separators require a directory exactly where the path leads to no other thing without
them. -/
theorem trailing_separators (hint : HintOnly e) (parent : Option Pno) (nd : Nameidata) {path : Bytes}
    (ends : path.getLast? = some PATH_SEPARATOR) (s : Sys D) :
    Trailing e parent nd path s ↔ ¬ LeadsToFile e parent nd (bare path) s := by
  have hne : path ≠ [] := by
    rintro rfl
    cases ends
  have walk : sysioPathWalk e parent { nd with path := some path } =
      sysioPathWalk e parent { nd with path := some (bare path) } := by
    obtain ⟨hbare, seps, hpath, all⟩ := bare_append hne
    rw [← sysioPathWalk_separators hint parent nd hbare all, ← hpath]
  constructor
  · rintro trailing ⟨p, t, r, run, inode, file⟩
    rw [← walk] at run
    have dir := trailing.directory p t r run inode
    rw [file] at dir
    cases dir
  · intro noFile
    refine ⟨fun p t r run inode => ?_, fun leads => absurd ?_ noFile⟩
    · rw [walk] at run
      by_contra file
      exact noFile ⟨p, t, r, run, inode, Bool.eq_false_iff.mpr file⟩
    · -- an empty path leads nowhere
      have kept : stripped path ≠ [] := by
        intro empty
        obtain ⟨p, t, r, run, -⟩ := leads
        rw [empty] at run
        cases run
      rw [bare, if_neg kept]
      exact leads

/-- A walk from the system root of the library that has "f" on the file system at "/b". -/
def fromRoot : Nameidata := { flags := 0, path := none, root := fileMade.mt.root, intent := none }

section Runs

theorem fuseEnv_hint {B : Type} (h : Host B) : HintOnly (fuseEnv h) := fun _ _ _ _ _ _ _ => rfl

/-- A walk from the system root leads to a directory. -/
def leadsToDir (path : Bytes) : Bool :=
  let walk := sysioPathWalk (fuseEnv calmHost) none { fromRoot with path := some path }
  (walk.value fileMade).any fun res => res.2.any fun p =>
    (inodeOf p (walk.final fileMade)).any fun r => r.stbuf.isDir

end Runs

/-- "/b/" leads to a directory. -/
theorem trailing_separators_directory :
    Trailing (fuseEnv calmHost) none fromRoot [47, 98, 47] fileMade := by
  refine (trailing_separators (fuseEnv_hint calmHost) none fromRoot (by decide) fileMade).mpr ?_
  rintro ⟨p, t, r, run, inode, file⟩
  have dir : leadsToDir (bare [47, 98, 47]) = true := by decide +kernel
  simp [leadsToDir, Exec.value, Exec.final, run, inode, file] at dir

/-- "/b/f/" leads to the file "f". -/
theorem file_with_separator : ¬ ∀ path : Bytes, path.getLast? = some PATH_SEPARATOR →
    Trailing (fuseEnv calmHost) none fromRoot path fileMade := by
  intro trailing
  have run : sysioPathWalk (fuseEnv calmHost) none
      { fromRoot with path := some [47, 98, 47, 102, 47] } fileMade = .ok ((0, some 107), _) :=
    ok_of_value (by decide +kernel)
  have inode : ∃ r, inodeOf 107 ((sysioPathWalk (fuseEnv calmHost) none
      { fromRoot with path := some [47, 98, 47, 102, 47] }).final fileMade) = some r ∧
        r.stbuf.isDir = false := Option.map_eq_some_iff.mp (by decide +kernel)
  obtain ⟨r, hr, file⟩ := inode
  have dir := (trailing _ (by decide)).directory 107 _ r run hr
  rw [file] at dir
  cases dir

end TrailingSeparators
