import DirectFuse.BasePath
import DirectFuse.NoFollow
import Mathlib.Data.List.Nodup
import Mathlib.Data.List.Perm.Subperm
import Mathlib.Data.List.Range
import Mathlib.Data.List.TakeWhile

/-! The string that `_sysio_pb_path` (src/inode.c) gives a driver for a base node: the buffer of its
second pass, and the components that can be read from it. -/
namespace BackendPath

open ExecLogic SysioState SysioInode SysioNamei SysioSystem BasePath

section Buffer

/-- `strncpy` of a name: behind the end of the string there are zeros. -/
def strncpy (src : Bytes) (n : ℕ) : Bytes :=
  let s := (src.take n).takeWhile fun c => c ≠ 0
  s ++ List.replicate (n - s.length) 0

/-- The second pass on its buffer, and where its cursor ends. A cursor in front of the buffer is a
fault, and so is a store outside of it. -/
def pbPathStores (separator : UInt8) : List Bytes → Bytes → ℕ → Except Fault (Bytes × ℕ)
  | [], buf, cp => .ok (buf, cp)
  | name :: l, buf, cp =>
    if cp < name.length then
      .error .wild
    else if name = [] then
      pbPathStores separator l buf (cp - name.length)
    else if buf.length < cp ∨ cp = name.length then
      .error .wild
    else
      pbPathStores separator l
        ((writeAt buf (cp - name.length) (strncpy name name.length)).set (cp - name.length - 1)
          separator) (cp - name.length - 1)

/-- The buffer of `_sysio_pb_path` and its cursor at the end, from what the buffer holds at first. -/
def pbPathBuffer (separator : UInt8) (names : List Bytes) (buf : Bytes) :
    Except Fault (Bytes × ℕ) :=
  let len := pbPathLen names
  if buf.length ≤ len then
    .error .wild
  else
    pbPathStores separator names ((buf.set 0 separator).set len 0) len

theorem strncpy_string {name : Bytes} (string : 0 ∉ name) : strncpy name name.length = name := by
  have hall : (name.take name.length).takeWhile (fun c => decide (c ≠ 0)) = name := by
    rw [List.take_length, List.takeWhile_eq_self_iff]
    intro c hc
    apply decide_eq_true
    rintro rfl
    exact string hc
  unfold strncpy
  simp only
  rw [hall, Nat.sub_self, List.replicate_zero, List.append_nil]

theorem pbPathStores_skip {separator : UInt8} {names : List Bytes} (h : ∀ name ∈ names, name = [])
    (buf : Bytes) (cp : ℕ) : pbPathStores separator names buf cp = .ok (buf, cp) := by
  induction names with
  | nil => rfl
  | cons name l ih =>
    rcases h name List.mem_cons_self with rfl
    rw [pbPathStores, List.length_nil, if_neg (Nat.not_lt_zero cp), if_pos rfl]
    exact ih fun m hm => h m (List.mem_cons_of_mem _ hm)

/-- From a cursor behind as many bytes as the joined names have, nothing is stored elsewhere, and the
cursor ends at the first byte. -/
theorem pbPathStores_fill {separator : UInt8} {names : List Bytes} {buf : Bytes}
    (strings : ∀ name ∈ names, 0 ∉ name) (h : (joined separator names).length ≤ buf.length) :
    pbPathStores separator names buf (joined separator names).length =
      .ok (joined separator names ++ buf.drop (joined separator names).length, 0) := by
  induction names generalizing buf with
  | nil => rfl
  | cons name l ih =>
    have hl := fun m hm => strings m (List.mem_cons_of_mem name hm)
    rw [joined] at h ⊢
    rw [pbPathStores]
    by_cases hname : name = []
    · rw [if_pos hname] at h ⊢
      rcases hname with rfl
      rw [List.length_nil, if_neg (Nat.not_lt_zero _), if_pos rfl]
      exact ih hl h
    · rw [if_neg hname] at h ⊢
      rw [List.length_append, List.length_cons] at h ⊢
      generalize hcp : (joined separator l).length + (name.length + 1) = cp at h ⊢
      rw [if_neg (by omega), if_neg hname, if_neg (by omega),
        strncpy_string (strings name List.mem_cons_self)]
      have hrest : cp - name.length - 1 = (joined separator l).length := by omega
      have hfill := @fill_name buf name separator cp (by omega) h
      have hlen := @fill_length buf name separator cp (by omega) h
      rw [hrest] at hfill hlen ⊢
      rw [ih hl (by omega), hfill, List.append_assoc]

end Buffer

section Components

/-- The names that are not empty, the first one last in the list of names. -/
def components (names : List Bytes) : List Bytes := (names.filter fun name => name ≠ []).reverse

theorem joined_components (separator : UInt8) (names : List Bytes) :
    joined separator names = (components names).flatMap fun name => separator :: name := by
  unfold components
  induction names with
  | nil => rfl
  | cons name l ih =>
    rw [joined]
    by_cases hname : name = []
    · rw [if_pos hname, ih, List.filter_cons_of_neg (by simpa using hname)]
    · rw [if_neg hname, ih, List.filter_cons_of_pos (by simpa using hname), List.reverse_cons,
        List.flatMap_append, List.flatMap_singleton]

theorem flatMap_intercalate (separator : UInt8) {comps : List Bytes} (h : comps ≠ []) :
    (comps.flatMap fun name => separator :: name) = separator :: [separator].intercalate comps := by
  induction comps with
  | nil => exact absurd rfl h
  | cons name l ih =>
    rw [List.flatMap_cons]
    by_cases hl : l = []
    · rw [hl, List.flatMap_nil, List.append_nil, List.intercalate_singleton]
    · rw [ih hl, List.intercalate_cons_of_ne_nil hl, List.cons_append, List.append_assoc,
        List.singleton_append]

theorem components_nil_iff (separator : UInt8) (names : List Bytes) :
    joined separator names = [] ↔ components names = [] := by
  rw [joined_components]
  constructor
  · intro h
    by_contra hne
    rw [flatMap_intercalate separator hne] at h
    cases h
  · intro h
    rw [h]
    rfl

theorem pathOf_components (separator : UInt8) (names : List Bytes) :
    pathOf separator names = separator :: [separator].intercalate (components names) := by
  unfold pathOf
  by_cases h : joined separator names = []
  · rw [if_pos h, (components_nil_iff separator names).mp h, List.intercalate_nil]
  · rw [if_neg h, joined_components]
    apply flatMap_intercalate
    exact mt (components_nil_iff separator names).mpr h

theorem mem_components {names : List Bytes} {name : Bytes} :
    name ∈ components names ↔ name ∈ names ∧ name ≠ [] := by
  unfold components
  rw [List.mem_reverse, List.mem_filter, decide_eq_true_eq]

/-- The pieces between separators. -/
def pieces (separator : UInt8) (path : Bytes) : List Bytes :=
  (path.splitOn separator).filter fun name => name ≠ []

theorem piece_free {separator : UInt8} {path piece : Bytes}
    (h : piece ∈ path.splitOn separator) : separator ∉ piece := by
  induction path generalizing piece with
  | nil =>
    rcases List.mem_singleton.mp h with rfl
    exact List.not_mem_nil
  | cons c path ih =>
    rw [List.splitOn_cons_eq_if_modifyHead] at h
    by_cases hc : (c == separator) = true
    · rw [if_pos hc] at h
      rcases List.mem_cons.mp h with rfl | h
      · exact List.not_mem_nil
      · exact ih h
    · rw [if_neg hc] at h
      cases hsplit : path.splitOn separator with
      | nil => exact absurd hsplit (List.splitOn_ne_nil separator path)
      | cons first rest =>
        rw [hsplit] at h ih
        rcases List.mem_cons.mp h with rfl | h
        · intro hin
          rcases List.mem_cons.mp hin with rfl | hin
          · exact hc (beq_self_eq_true _)
          · exact ih List.mem_cons_self hin
        · exact ih (List.mem_cons_of_mem _ h)

/-- The pieces of a path are its components, if these are what separators can separate. -/
theorem pieces_path (separator : UInt8) (names : List Bytes) :
    pieces separator (separator :: [separator].intercalate (components names)) = components names ↔
      ∀ name ∈ names, separator ∉ name := by
  constructor
  · intro same name hname hin
    have hcomp : name ∈ components names := by
      apply mem_components.mpr
      refine ⟨hname, ?_⟩
      rintro rfl
      exact List.not_mem_nil hin
    rw [← same] at hcomp
    exact piece_free (List.mem_filter.mp hcomp).1 hin
  · intro free
    have hsplit : pieces separator (separator :: [separator].intercalate (components names)) =
        pieces separator ([separator].intercalate (components names)) := by
      unfold pieces
      rw [List.splitOn_cons_eq_if_modifyHead, if_pos (beq_self_eq_true separator)]
      rfl
    rw [hsplit]
    by_cases hnone : components names = []
    · rw [hnone]
      rfl
    · unfold pieces
      rw [List.splitOn_intercalate separator _ hnone]
      · apply List.filter_eq_self.mpr
        intro name hname
        exact decide_eq_true (mem_components.mp hname).2
      · intro name hname
        exact free name (mem_components.mp hname).1

end Components

section Paths

variable {separator : UInt8} {names : List Bytes} {buf : Bytes}

/-- Whatever the buffer holds at first, it ends with the path and a zero. -/
theorem pbPathBuffer_path (strings : ∀ name ∈ names, 0 ∉ name)
    (sized : buf.length = pbPathLen names + 1) :
    pbPathBuffer separator names buf = .ok (pathOf separator names ++ [0],
      if components names = [] then 1 else 0) := by
  have hlast : ∀ len : ℕ, buf.length = len + 1 →
      ((buf.set 0 separator).set len 0).drop len = [0] := by
    intro len hlen
    rw [List.drop_set, if_neg (Nat.lt_irrefl len), Nat.sub_self]
    have hone : ((buf.set 0 separator).drop len).length = 1 := by
      rw [List.length_drop, List.length_set]
      omega
    rcases List.length_eq_one_iff.mp hone with ⟨c, hc⟩
    rw [hc]
    rfl
  unfold pbPathBuffer
  simp only
  rw [if_neg (by omega)]
  by_cases hempty : joined separator names = []
  · have hnone := (components_nil_iff separator names).mp hempty
    have hnames : ∀ name ∈ names, name = [] := by
      intro name hname
      by_contra hne
      have hcomp := mem_components.mpr ⟨hname, hne⟩
      rw [hnone] at hcomp
      cases hcomp
    have hlen : pbPathLen names = 1 := by
      have hsum := joined_length separator names
      rw [hempty, List.length_nil] at hsum
      rw [pbPathLen, ← hsum]
      rfl
    rw [hlen] at sized ⊢
    rw [pbPathStores_skip hnames, pathOf, if_pos hempty, if_pos hnone]
    rcases List.length_eq_two.mp sized with ⟨c, d, rfl⟩
    rfl
  · have hlen : pbPathLen names = (joined separator names).length := by
      rw [pbPathLen, joined_length]
      apply if_neg
      rw [← joined_length separator names, List.length_eq_zero_iff]
      exact hempty
    rw [hlen] at sized ⊢
    rw [pbPathStores_fill strings (by rw [List.length_set, List.length_set]; omega),
      hlast _ sized, pathOf, if_neg hempty, if_neg (mt (components_nil_iff separator names).mpr hempty)]

end Paths

section Chains

variable {D : Type} {e : Env D} {s : Sys D} {b : PbId} {names : List Bytes} {separator : UInt8}

theorem Chain.unique {l l' : List Bytes} (h : Chain s b l) (h' : Chain s b l') : l = l' := by
  induction h generalizing l' with
  | top at_ alone =>
    cases h' with
    | top at' alone' =>
      rcases Option.some.inj (at_.symm.trans at') with rfl
      rfl
    | under at' up' rest' =>
      rcases Option.some.inj (at_.symm.trans at') with rfl
      rw [alone] at up'
      cases up'
  | under at_ up rest ih =>
    cases h' with
    | top at' alone' =>
      rcases Option.some.inj (at_.symm.trans at') with rfl
      rw [alone'] at up
      cases up
    | under at' up' rest' =>
      rcases Option.some.inj (at_.symm.trans at') with rfl
      rcases Option.some.inj (up.symm.trans up') with rfl
      rw [ih rest']

/-- The nodes on the way up differ, as each has a longer way than the next one. -/
theorem Chain.nodes (h : Chain s b names) : ∃ nodes : List PbId, nodes.length = names.length ∧
    nodes.Nodup ∧ ∀ q ∈ nodes, ∃ r l, s.nc.base q = some r ∧ Chain s q l ∧
      l.length ≤ names.length := by
  induction h with
  | @top b r at_ alone =>
    refine ⟨[b], rfl, List.nodup_singleton b, ?_⟩
    intro q hq
    rcases List.mem_singleton.mp hq with rfl
    exact ⟨r, _, at_, .top at_ alone, Nat.le_refl _⟩
  | @under b q r l at_ up rest ih =>
    rcases ih with ⟨nodes, hlen, hnodup, hnodes⟩
    have whole : Chain s b (r.name.name :: l) := .under at_ up rest
    refine ⟨b :: nodes, ?_, ?_, ?_⟩
    · rw [List.length_cons, List.length_cons, hlen]
    · apply List.nodup_cons.mpr
      refine ⟨?_, hnodup⟩
      intro hb
      rcases hnodes b hb with ⟨-, l', -, chain, hle⟩
      rw [Chain.unique chain whole, List.length_cons] at hle
      omega
    · intro p hp
      rcases List.mem_cons.mp hp with rfl | hp
      · exact ⟨r, _, at_, whole, Nat.le_refl _⟩
      · rcases hnodes p hp with ⟨r', l', at', chain, hle⟩
        exact ⟨r', l', at', chain, Nat.le_succ_of_le hle⟩

theorem Chain.length_le (bound : ∀ q, s.nc.nextBase ≤ q → s.nc.base q = none)
    (h : Chain s b names) : names.length ≤ s.nc.nextBase := by
  rcases Chain.nodes h with ⟨nodes, hlen, hnodup, hnodes⟩
  have hsub : nodes ⊆ List.range s.nc.nextBase := by
    intro q hq
    rcases hnodes q hq with ⟨r, -, at_, -⟩
    apply List.mem_range.mpr
    by_contra hout
    rw [bound q (Nat.le_of_not_lt hout)] at at_
    cases at_
  have hle := (hnodup.subperm hsub).length_le
  rw [List.length_range, hlen] at hle
  exact hle

theorem pbNames_run (h : Chain s b names) {fuel : ℕ} (hfuel : names.length ≤ fuel) :
    (pbNames fuel b : Sysio D (List Bytes)) s = .ok (names, s) := by
  induction h generalizing fuel with
  | @top b r at_ alone =>
    cases fuel with
    | zero => cases hfuel
    | succ fuel =>
      have hbase : (baseAt b : Sysio D PnodeBase) s = .ok (r, s) := deref_ok.mpr ⟨at_, rfl⟩
      rw [pbNames, bind_run hbase]
      simp only [alone]
      rfl
  | @under b q r l at_ up rest ih =>
    cases fuel with
    | zero => cases hfuel
    | succ fuel =>
      have hbase : (baseAt b : Sysio D PnodeBase) s = .ok (r, s) := deref_ok.mpr ⟨at_, rfl⟩
      rw [pbNames, bind_run hbase]
      simp only [up]
      rw [bind_run (ih (Nat.le_of_succ_le_succ hfuel))]
      rfl

/-- `_sysio_pb_path` goes through, and returns nothing only where there is no memory. -/
theorem sysioPbPath_run (bound : ∀ q, s.nc.nextBase ≤ q → s.nc.base q = none)
    (h : Chain s b names) : sysioPbPath e b separator s =
      .ok (if e.malloc s.mallocs = true then some (pathOf separator names) else none,
        { s with mallocs := s.mallocs + 1 }) := by
  have hdepth : (Exec.read fun s => s.nc.nextBase : Sysio D ℕ) s = .ok (s.nc.nextBase, s) := rfl
  have hmalloc : malloc e s = .ok (e.malloc s.mallocs, { s with mallocs := s.mallocs + 1 }) := rfl
  rw [sysioPbPath, bind_run hdepth, bind_run (pbNames_run h (Chain.length_le bound h)),
    bind_run hmalloc]
  cases e.malloc s.mallocs with
  | false => rfl
  | true =>
    simp only [pbPath_eq]
    rfl

/-- For a node with any chain of names above it, the path is a separator and the names that are not
empty, from the root down, with separators between them. The second pass stays inside the buffer that
the first one measures and leaves this string there with a zero behind it, and the pieces of the
string are the names just when no name has a separator. -/
theorem backend_path (bound : ∀ q, s.nc.nextBase ≤ q → s.nc.base q = none)
    (chain : Chain s b names) (strings : ∀ name ∈ names, 0 ∉ name) (separator : UInt8) :
    ∃ path, path = separator :: [separator].intercalate (components names) ∧
      sysioPbPath e b separator s = .ok (if e.malloc s.mallocs = true then some path else none,
        { s with mallocs := s.mallocs + 1 }) ∧
      (∀ buf : Bytes, buf.length = pbPathLen names + 1 → pbPathBuffer separator names buf =
        .ok (path ++ [0], if components names = [] then 1 else 0)) ∧
      (pieces separator path = components names ↔ ∀ name ∈ names, separator ∉ name) := by
  refine ⟨_, rfl, ?_, ?_, pieces_path separator names⟩
  · rw [← pathOf_components]
    exact sysioPbPath_run bound chain
  · intro buf sized
    rw [← pathOf_components]
    exact pbPathBuffer_path strings sized

/-- A base node of no inode. -/
def plainBase (name : Bytes) (children : List PbId) (parent : Option PbId) : PnodeBase :=
  ⟨⟨name, nameHash name⟩, none, children, [], parent⟩

/-- The root, `usr` and `usr/bin`. -/
def usrBases : List PnodeBase :=
  [plainBase [] [1] none, plainBase [117, 115, 114] [2] (some 0),
    plainBase [98, 105, 110] [] (some 1)]

def usrState : Sys Unit :=
  { initState () with
    nc := { (initState ()).nc with base := fun b => usrBases[b]?, nextBase := usrBases.length } }

theorem usr_bin_path : ∃ path, path = [47, 117, 115, 114, 47, 98, 105, 110] ∧
    sysioPbPath NoFollow.chainEnv 2 47 usrState = .ok (some path, { usrState with mallocs := 1 }) ∧
    (∀ buf : Bytes, buf.length = 9 → pbPathBuffer 47 [[98, 105, 110], [117, 115, 114], []] buf =
      .ok (path ++ [0], 0)) ∧
    (pieces 47 path = [[117, 115, 114], [98, 105, 110]] ↔
      ∀ name ∈ ([[98, 105, 110], [117, 115, 114], []] : List Bytes), 47 ∉ name) := by
  have bound : ∀ q, usrState.nc.nextBase ≤ q → usrState.nc.base q = none := by
    intro q hq
    exact @List.getElem?_eq_none PnodeBase usrBases q hq
  have chain : Chain usrState 2 [[98, 105, 110], [117, 115, 114], []] := by
    apply @Chain.under Unit usrState 2 1 (plainBase [98, 105, 110] [] (some 1)) _ rfl rfl
    apply @Chain.under Unit usrState 1 0 (plainBase [117, 115, 114] [2] (some 0)) _ rfl rfl
    exact @Chain.top Unit usrState 0 (plainBase [] [1] none) rfl rfl
  have comps : components [[98, 105, 110], [117, 115, 114], []] =
      [[117, 115, 114], [98, 105, 110]] := by decide
  rcases @backend_path Unit NoFollow.chainEnv usrState 2 [[98, 105, 110], [117, 115, 114], []] bound
    chain (by decide) 47 with ⟨path, hpath, run, buffer, split⟩
  rw [comps] at hpath buffer split
  exact ⟨path, hpath, run, buffer, split⟩

end Chains

end BackendPath
