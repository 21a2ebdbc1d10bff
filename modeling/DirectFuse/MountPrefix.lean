import DirectFuse.DeviceIdentity

/-! The prefix of a path that names a mounted file system. `_sysio_find_mount` compares the names of
the mounted file systems with the head of the path, its callers skip the name and one character more,
and a path that begins with no name at all leaves `open`, `unlink` and `rmdir` with the pointers they
have not set. -/
namespace MountPrefix

open ExecLogic SysioState SysioInode SysioNamei SysioMount SysioFile SysioInterface SysioSystem
open FuseDriver FuseSystem CoreMoves
open DeviceIdentity (secondMount)

variable {D : Type}

/-- The character between the name and the rest of the path. -/
def COLON : UInt8 := 58

/-- The name of the file system of a mount. -/
def mountName (s : Sys D) (m : MntId) : Option Bytes :=
  (s.mt.mount m).bind fun r => (s.ic.filesys r.fs).map Filesys.name

/-- Every mount on the list has its record, and so has its file system. -/
def Named (s : Sys D) : Prop := ∀ m ∈ s.mt.mounts, (mountName s m).isSome

/-- The path has the form of the name of the mount, a colon and `rest`. -/
def Spelled (s : Sys D) (m : MntId) (path rest : Bytes) : Prop :=
  ∃ name, mountName s m = some name ∧ path = name ++ COLON :: rest

/-- What `_sysio_find_mount` is for: it finds a mount exactly for the paths that spell one, one that
is spelled, and what its callers go on with is the rest. -/
structure PrefixParsed (s : Sys D) (path : Bytes) : Prop where
  found : (∃ m, sysioFindMount path s = .ok (some m, s)) ↔ ∃ m ∈ s.mt.mounts, ∃ rest,
    Spelled s m path rest
  rest : ∀ m, sysioFindMount path s = .ok (some m, s) → ∃ rest, Spelled s m path rest ∧
    afterPrefix m path s = .ok (rest, s)

/-- The first of the mounted names that the path begins with. -/
def firstName (s : Sys D) (path : Bytes) : Option Bytes :=
  (s.mt.mounts.filterMap (mountName s)).find? (·.isPrefixOf path)

section Finding

variable {s : Sys D}

theorem mountName_some {m : MntId} {name : Bytes} (h : mountName s m = some name) :
    ∃ r f, s.mt.mount m = some r ∧ s.ic.filesys r.fs = some f ∧ f.name = name := by
  obtain ⟨r, hr, h⟩ := Option.bind_eq_some_iff.mp h
  obtain ⟨f, hf, hname⟩ := Option.map_eq_some_iff.mp h
  exact ⟨r, f, hr, hf, hname⟩

/-- One round of the search. -/
theorem findMountLoop_cons {m : MntId} {l : List MntId} {path name : Bytes}
    (h : mountName s m = some name) : findMountLoop path (m :: l) s =
      if name.isPrefixOf path then .ok (some m, s) else findMountLoop path l s := by
  obtain ⟨r, f, hr, hf, rfl⟩ := mountName_some h
  have hmount : mountAt m s = .ok (r, s) := deref_ok.mpr ⟨hr, rfl⟩
  have hfs : fsAt r.fs s = .ok (f, s) := deref_ok.mpr ⟨hf, rfl⟩
  rw [findMountLoop, bind_run hmount, bind_run hfs]
  split <;> rfl

theorem findMountLoop_run (path : Bytes) (l : List MntId) (named : ∀ m ∈ l, (mountName s m).isSome) :
    findMountLoop path l s =
      .ok (l.find? fun m => ((mountName s m).getD []).isPrefixOf path, s) := by
  induction l with
  | nil => rfl
  | cons m l ih =>
    obtain ⟨name, hname⟩ := Option.isSome_iff_exists.mp (named m (List.mem_cons_self ..))
    rw [findMountLoop_cons hname, List.find?_cons, hname, Option.getD_some]
    cases hp : name.isPrefixOf path with
    | true => rfl
    | false => exact ih fun m hm => named m (List.mem_cons_of_mem _ hm)

theorem sysioFindMount_run (path : Bytes) (named : Named s) : sysioFindMount path s =
    .ok (s.mt.mounts.find? fun m => ((mountName s m).getD []).isPrefixOf path, s) :=
  findMountLoop_run path _ named

/-- The name of the mount found is the first one. -/
theorem firstName_eq (path : Bytes) (l : List MntId) (named : ∀ m ∈ l, (mountName s m).isSome) :
    (l.filterMap (mountName s)).find? (·.isPrefixOf path) =
      (l.find? fun m => ((mountName s m).getD []).isPrefixOf path).bind (mountName s) := by
  induction l with
  | nil => rfl
  | cons m l ih =>
    obtain ⟨name, hname⟩ := Option.isSome_iff_exists.mp (named m (List.mem_cons_self ..))
    rw [List.filterMap_cons, hname, List.find?_cons, List.find?_cons, hname, Option.getD_some]
    cases hp : name.isPrefixOf path with
    | true => exact hname.symm
    | false => exact ih fun m hm => named m (List.mem_cons_of_mem _ hm)

/-- A path that begins with a name spells it where a colon follows. -/
theorem spelled_iff {m : MntId} {path name : Bytes} (hname : mountName s m = some name)
    (hp : name.isPrefixOf path = true) :
    (∃ rest, Spelled s m path rest) ↔ path[name.length]? = some COLON := by
  obtain ⟨tail, rfl⟩ := List.isPrefixOf_iff_prefix.mp hp
  rw [List.getElem?_append_right (Nat.le_refl _), Nat.sub_self]
  constructor
  · rintro ⟨rest, name', hname', h⟩
    obtain rfl : name = name' := Option.some.inj (hname.symm.trans hname')
    rw [List.append_cancel_left h]
    rfl
  · intro h
    cases tail with
    | nil => cases h
    | cons c tail =>
      obtain rfl : c = COLON := Option.some.inj h
      exact ⟨tail, name, hname, rfl⟩

theorem afterPrefix_spelled {m : MntId} {path rest : Bytes} (h : Spelled s m path rest) :
    afterPrefix m path s = .ok (rest, s) := by
  obtain ⟨name, hname, rfl⟩ := h
  obtain ⟨r, f, hr, hf, rfl⟩ := mountName_some hname
  have hlt : f.name.length < (f.name ++ COLON :: rest).length := by simp
  refine bind_ok.mpr ⟨r, s, deref_ok.mpr ⟨hr, rfl⟩, bind_ok.mpr ⟨f, s, deref_ok.mpr ⟨hf, rfl⟩, ?_⟩⟩
  refine bind_ok.mpr ⟨(), s, check_ok.mpr ⟨decide_eq_true hlt, rfl⟩, ?_⟩
  simp [pure_ok]

end Finding

/-- The prefix of a path is parsed exactly when the first mounted name it begins with, if there is
one, is followed by a colon. -/
theorem mount_prefix {s : Sys D} (named : Named s) (path : Bytes) : PrefixParsed s path ↔
    ∀ name, firstName s path = some name → path[name.length]? = some COLON := by
  have run := sysioFindMount_run path named
  have first := firstName_eq path _ named
  constructor
  · intro parsed name hname
    rw [firstName, first] at hname
    obtain ⟨m, hm, hname⟩ := Option.bind_eq_some_iff.mp hname
    have hp := List.find?_some hm
    rw [hname, Option.getD_some] at hp
    obtain ⟨rest, spelled, -⟩ := parsed.rest m (by rw [run, hm])
    exact (spelled_iff hname hp).mp ⟨rest, spelled⟩
  · intro colon
    have spelled : ∀ m, sysioFindMount path s = .ok (some m, s) →
        m ∈ s.mt.mounts ∧ ∃ rest, Spelled s m path rest := by
      intro m hm
      rw [run] at hm
      have hm : s.mt.mounts.find? _ = some m := (Prod.mk.inj (Except.ok.inj hm)).1
      have hmem := List.mem_of_find?_eq_some hm
      obtain ⟨name, hname⟩ := Option.isSome_iff_exists.mp (named m hmem)
      have hp := List.find?_some hm
      rw [hname, Option.getD_some] at hp
      refine ⟨hmem, (spelled_iff hname hp).mpr (colon name ?_)⟩
      rw [firstName, first, hm]
      exact hname
    constructor
    · constructor
      · rintro ⟨m, hm⟩
        exact ⟨m, spelled m hm⟩
      · rintro ⟨m, hmem, rest, name, hname, rfl⟩
        rw [run]
        cases hfind : s.mt.mounts.find? _ with
        | some m => exact ⟨m, rfl⟩
        | none =>
          have := List.find?_eq_none.mp hfind m hmem
          rw [hname, Option.getD_some] at this
          exact absurd (List.isPrefixOf_iff_prefix.mpr (List.prefix_append name _)) this
    · intro m hm
      obtain ⟨-, rest, h⟩ := spelled m hm
      exact ⟨rest, h, afterPrefix_spelled h⟩

section Names

theorem secondMount_named : Named (calmRun [secondMount]) := by
  unfold Named
  decide +kernel

/-- "bb:/b/x" with "bb" mounted on "/b": the mount and the rest are found. -/
theorem mount_prefix_colon : PrefixParsed (calmRun [secondMount]) [98, 98, 58, 47, 98, 47, 120] := by
  apply Iff.mpr <| mount_prefix secondMount_named _
  intro name hname
  have first : firstName (calmRun [secondMount]) [98, 98, 58, 47, 98, 47, 120] = some [98, 98] := by
    decide +kernel
  obtain rfl : [98, 98] = name := Option.some.inj (first.symm.trans hname)
  rfl

/-- "bbx" has no colon at all and finds the mount of "bb" all the same. -/
theorem name_without_colon : ¬ ∀ path, PrefixParsed (calmRun [secondMount]) path := by
  intro parsed
  have found : (calmRun [secondMount]).mt.mounts.find? (fun m =>
      ((mountName (calmRun [secondMount]) m).getD []).isPrefixOf [98, 98, 120]) = some 1 := by
    decide +kernel
  have run := sysioFindMount_run [98, 98, 120] secondMount_named
  rw [found] at run
  obtain ⟨rest, ⟨name, hname, hpath⟩, -⟩ := (parsed [98, 98, 120]).rest 1 run
  have two : mountName (calmRun [secondMount]) 1 = some [98, 98] := by decide +kernel
  obtain rfl : [98, 98] = name := Option.some.inj (two.symm.trans hname)
  cases hpath

end Names

/-! ## Calls that find no mount -/

/-- No mounted name begins the path. -/
structure Unmatched (s : Sys D) (path : Bytes) : Prop where
  named : Named s
  apart : ∀ m ∈ s.mt.mounts, ∀ name, mountName s m = some name → ¬ name <+: path

/-- The call returns -1, and every path node and every file record keeps its reference count. -/
def Harmless (call : Sysio D Ret) (s : Sys D) : Prop :=
  ∃ err t, call s = .ok ((-1, err), t) ∧ (∀ p, (t.nc.pnode p).ref = (s.nc.pnode p).ref) ∧
    ∀ f, (t.ft.file f).map File.ref = (s.ft.file f).map File.ref

section Unmatched

variable {s t : Sys D}

theorem Unmatched.find {path : Bytes} (h : Unmatched s path) :
    sysioFindMount path s = .ok (none, s) := by
  rw [sysioFindMount_run path h.named, List.find?_eq_none.mpr]
  intro m hm
  obtain ⟨name, hname⟩ := Option.isSome_iff_exists.mp (h.named m hm)
  rw [hname, Option.getD_some, List.isPrefixOf_iff_prefix]
  exact h.apart m hm name hname

/-- A node that was released has one reference less. -/
theorem pRele_ref {p : Pno} (h : pRele p s = .ok ((), t)) :
    (t.nc.pnode p).ref ≠ (s.nc.pnode p).ref := by
  obtain ⟨_, _, held, run⟩ := bind_ok.mp h
  obtain ⟨live, rfl⟩ := check_ok.mp held
  obtain rfl := write_ok.mp run
  have live : (s.nc.pnode p).ref ≠ 0 := of_decide_eq_true live
  simp only [Function.update_self]
  omega

/-- A file that was released has one reference less or is gone. -/
theorem fRele_ref {e : Env D} {f : FilId} (h : fRele e f s = .ok ((), t)) :
    (t.ft.file f).map File.ref ≠ (s.ft.file f).map File.ref := by
  obtain ⟨r, _, at_, h⟩ := bind_ok.mp h
  obtain ⟨hr, rfl⟩ := deref_ok.mp at_
  obtain ⟨_, _, held, h⟩ := bind_ok.mp h
  obtain ⟨live, rfl⟩ := check_ok.mp held
  have live : r.ref ≠ 0 := of_decide_eq_true live
  obtain ⟨_, u, set, h⟩ := bind_ok.mp h
  obtain rfl := write_ok.mp set
  rw [hr]
  split at h
  · -- The last reference: the record is freed behind everything that the driver does.
    obtain ⟨_, _, -, h⟩ := bind_ok.mp h
    obtain ⟨_, _, -, h⟩ := bind_ok.mp h
    obtain ⟨_, _, -, h⟩ := bind_ok.mp h
    obtain ⟨_, _, -, h⟩ := bind_ok.mp h
    obtain ⟨_, _, -, h⟩ := bind_ok.mp h
    obtain rfl := write_ok.mp h
    simp only [Function.update_self]
    exact fun none => nomatch none
  · obtain ⟨-, rfl⟩ := pure_ok.mp h
    simp only [Function.update_self, Option.map_some, ne_eq, Option.some.injEq]
    omega

/-- Without a mount `open` is its error exit. -/
theorem interfaceOpen_unmatched {path : Bytes} (h : Unmatched s path) (e : Env D) (u : Uninit)
    (flags mode : ℕ) : interfaceOpen e u path flags mode s = openError e u.fil u.pno (-1) s :=
  bind_run h.find

/-- The error exit of `open` is harmless where it has nothing to release. -/
theorem openError_harmless {e : Env D} {fil : Option FilId} {pno : Option Pno} {rtn : ℤ} :
    Harmless (openError e fil pno rtn) s ↔ pno = none ∧ fil = none := by
  constructor
  · rintro ⟨err, t, run, pnodes, files⟩
    obtain ⟨_, u, closed, run⟩ := bind_ok.mp run
    obtain ⟨_, v, released, run⟩ := bind_ok.mp run
    obtain ⟨-, rfl⟩ := pure_ok.mp run
    have files_kept : v.ft = u.ft := by
      cases pno with
      | none => exact congrArg Sys.ft (pure_ok.mp released).2.symm
      | some p =>
        obtain ⟨_, _, held, write⟩ := bind_ok.mp released
        obtain ⟨-, rfl⟩ := check_ok.mp held
        rw [← write_ok.mp write]
    cases fil with
    | some f =>
      rw [files_kept] at files
      exact absurd (files f) (fRele_ref closed)
    | none =>
      obtain ⟨-, rfl⟩ := pure_ok.mp closed
      cases pno with
      | none => exact ⟨rfl, rfl⟩
      | some p => exact absurd (pnodes p) (pRele_ref released)
  · rintro ⟨rfl, rfl⟩
    exact ⟨rtn, s, rfl, fun _ => rfl, fun _ => rfl⟩

/-- Without a mount `unlink` and `rmdir` release a pointer that they have not set. -/
theorem releases_unset {u : Uninit} {act : MntId → Sysio D Ret} {path : Bytes}
    (h : Unmatched s path) : ¬ Harmless (do
      match ← sysioFindMount path with
      | none => do
        let p ← nonNull u.pno
        pRele p
        return status (-1)
      | some m => act m) s := by
  rintro ⟨err, t, run, pnodes, -⟩
  rw [bind_run h.find] at run
  obtain ⟨p, _, pointer, run⟩ := bind_ok.mp run
  obtain ⟨_, _, released, run⟩ := bind_ok.mp run
  obtain ⟨-, rfl⟩ := pure_ok.mp run
  obtain ⟨-, rfl⟩ := deref_ok.mp pointer
  exact pRele_ref released (pnodes p)

end Unmatched

/-- On a path that no mounted name begins, `open` is harmless exactly when its two pointers happen to
be NULL, and `unlink` and `rmdir` never are. -/
theorem unmounted_prefix {s : Sys D} {path : Bytes} (unmatched : Unmatched s path) (e : Env D)
    (u : Uninit) :
    (∀ flags mode, Harmless (interfaceOpen e u path flags mode) s ↔ u.pno = none ∧ u.fil = none) ∧
    ¬ Harmless (interfaceUnlink e u path) s ∧ ¬ Harmless (interfaceRmdir e u path) s := by
  refine ⟨fun flags mode => ?_, releases_unset unmatched, releases_unset unmatched⟩
  rw [Harmless, interfaceOpen_unmatched unmatched]
  exact openError_harmless

/-- "x:/f" begins with no name of the library that has "bb" on "/b". -/
theorem secondMount_unmatched : Unmatched (calmRun [secondMount]) [120, 58, 47, 102] := by
  have apart : ∀ m ∈ (calmRun [secondMount]).mt.mounts, ∀ name ∈
      mountName (calmRun [secondMount]) m, ¬ name <+: [120, 58, 47, 102] := by decide +kernel
  exact ⟨secondMount_named, apart⟩

theorem unmounted_prefix_open :
    Harmless (interfaceOpen (fuseEnv calmHost) ⟨none, none⟩ [120, 58, 47, 102] 0 0)
      (calmRun [secondMount]) := by
  have calls := unmounted_prefix secondMount_unmatched (fuseEnv calmHost) ⟨none, none⟩
  exact (calls.1 0 0).mpr ⟨rfl, rfl⟩

/-- A path node in the unset pointer of `rmdir` loses a reference. -/
theorem unset_pointer_released : ¬ ∀ s, FuseReached calmHost () (fun _ _ => True) s →
    ∀ path, Unmatched s path → ∀ u flags mode,
      Harmless (interfaceOpen (fuseEnv calmHost) u path flags mode) s ∧
      Harmless (interfaceUnlink (fuseEnv calmHost) u path) s ∧
      Harmless (interfaceRmdir (fuseEnv calmHost) u path) s := by
  intro harmless
  have run : runCalls (fuseLibrary calmHost) fuseTypeName [secondMount] (initState (initData ())) =
      .ok ((), calmRun [secondMount]) := ok_of_value (by decide +kernel)
  have calls := harmless _ (runCalls_reached run) _ secondMount_unmatched ⟨some 0, none⟩ 0 0
  exact releases_unset secondMount_unmatched calls.2.2

end MountPrefix
