import DirectFuse.CoreMoves
import DirectFuse.FuseSystem

/-! The permission decision. The buffer of the credential loader starts with the effective group,
the supplementary groups follow, and the number of entries it reports is that of the supplementary
groups: the checker never looks at the last one. -/
namespace Permission

open ExecLogic SysioState SysioInode SysioNamei SysioSystem FuseDriver FuseSystem CoreMoves

variable {D : Type} {e : Env D} {s t : Sys D} {p : Pno}

/-! ## Loading the groups -/

def INT_MAX : ℕ := 2 ^ 31 - 1

/-- A buffer of `n` entries can be doubled until it holds the effective and the supplementary groups;
`m` counts the allocations so far, and `g` is 1 where the buffer itself is still to be allocated. -/
def LoadsFrom (e : Env D) (m n g : ℕ) : Prop :=
  ∃ j, e.groups.length < n * 2 ^ j ∧ (∀ i < j, n * 2 ^ i ≤ INT_MAX / 2) ∧
    ∀ i < j + g, e.malloc (m + i) = true

/-- The group list can be loaded. -/
def Loads (e : Env D) (s : Sys D) : Prop :=
  LoadsFrom e s.mallocs (max 8 s.gidslen) (if s.gidslen < 8 then 1 else 0)

section Loading

/-- One doubling of the buffer. -/
theorem loadsFrom_double {m n g : ℕ} (short : n ≤ e.groups.length) (small : n ≤ INT_MAX / 2)
    (got : ∀ i < g, e.malloc (m + i) = true) :
    LoadsFrom e (m + g) (n * 2) 1 ↔ LoadsFrom e m n g := by
  constructor
  · rintro ⟨j, fits, bounded, mem⟩
    refine ⟨j + 1, ?_, fun i hi => ?_, fun i hi => ?_⟩
    · rw [Nat.pow_succ', ← Nat.mul_assoc]
      exact fits
    · cases i with
      | zero => simpa using small
      | succ i =>
        rw [Nat.pow_succ', ← Nat.mul_assoc]
        exact bounded i (by omega)
    · by_cases hg : i < g
      · exact got i hg
      · have := mem (i - g) (by omega)
        rwa [show m + g + (i - g) = m + i by omega] at this
  · rintro ⟨j, fits, bounded, mem⟩
    cases j with
    | zero => simp at fits; omega
    | succ j =>
      refine ⟨j, ?_, fun i hi => ?_, fun i hi => ?_⟩
      · rw [Nat.mul_assoc, ← Nat.pow_succ']
        exact fits
      · rw [Nat.mul_assoc, ← Nat.pow_succ']
        exact bounded (i + 1) (by omega)
      · rw [Nat.add_assoc]
        exact mem (g + i) (by omega)

/-- What the retry loop returns: the number of groups where they can be loaded, else an error. -/
def Loaded (e : Env D) (loads : Prop) (ret : ℤ) : Prop :=
  (loads ∧ ret = e.groups.length) ∨ (¬ loads ∧ (ret = -ENOMEM ∨ ret = -EINVAL))

/-- The loop, once the buffer has `n` entries. -/
theorem ldgroupsLoop_fits {fuel n g : ℕ} {m : ℕ} (got : ∀ i < g, e.malloc (m + i) = true)
    (next : ¬ INT_MAX / 2 < n → ∃ ret t, ldgroupsLoop e fuel (n * 2) s = .ok (ret, t) ∧
      Scratch s t ∧ Loaded e (LoadsFrom e (m + g) (n * 2) 1) ret) (pos : 0 < n) :
    ∃ ret t, (if n - 1 < e.groups.length then
        if (2 ^ 31 - 1) / 2 < n then pure (-EINVAL) else ldgroupsLoop e fuel (n * 2)
      else pure (e.groups.length : ℤ) : Sysio D ℤ) s = .ok (ret, t) ∧ Scratch s t ∧
        Loaded e (LoadsFrom e m n g) ret := by
  by_cases short : n - 1 < e.groups.length
  · rw [if_pos short]
    have short : n ≤ e.groups.length := by omega
    by_cases big : INT_MAX / 2 < n
    · refine ⟨-EINVAL, s, ?_, Std.Refl.refl s, Or.inr ⟨?_, Or.inr rfl⟩⟩
      · rw [if_pos (show (2 ^ 31 - 1) / 2 < n from big)]
        rfl
      · rintro ⟨j, fits, bounded, -⟩
        cases j with
        | zero => simp at fits; omega
        | succ j =>
          have := bounded 0 (Nat.succ_pos j)
          rw [Nat.pow_zero, Nat.mul_one] at this
          omega
    · rw [if_neg (show ¬ (2 ^ 31 - 1) / 2 < n from big)]
      obtain ⟨ret, t, run, scratch, loaded⟩ := next big
      rw [loadsFrom_double short (Nat.le_of_not_lt big) got] at loaded
      exact ⟨ret, t, run, scratch, loaded⟩
  · rw [if_neg short]
    refine ⟨_, s, rfl, Std.Refl.refl s, Or.inl ⟨⟨0, ?_, fun i hi => ?_, fun i hi => ?_⟩, rfl⟩⟩
    · rw [Nat.pow_zero, Nat.mul_one]
      omega
    · exact absurd hi (Nat.not_lt_zero i)
    · exact got i (by omega)

theorem ldgroupsLoop_run (fuel n : ℕ) (enough : INT_MAX / 2 < n * 2 ^ (fuel - 1)) (some_ : 0 < fuel)
    (held : s.gidslen ≤ n) (pos : 0 < n) : ∃ ret t, ldgroupsLoop e fuel n s = .ok (ret, t) ∧
      Scratch s t ∧ Loaded e (LoadsFrom e s.mallocs n (if s.gidslen < n then 1 else 0)) ret := by
  induction fuel generalizing n s with
  | zero => exact absurd some_ (Nat.lt_irrefl 0)
  | succ fuel ih =>
    -- The next round, from a state with the buffer at `n` entries; the last one is never short.
    have next : ∀ (u : Sys D), u.gidslen = n → ¬ INT_MAX / 2 < n →
        ∃ ret t, ldgroupsLoop e fuel (n * 2) u = .ok (ret, t) ∧ Scratch u t ∧
          Loaded e (LoadsFrom e u.mallocs (n * 2) 1) ret := by
      intro u hu big
      cases fuel with
      | zero =>
        rw [Nat.add_sub_cancel, Nat.pow_zero, Nat.mul_one] at enough
        exact absurd enough big
      | succ fuel =>
        have := ih (n * 2) (s := u) (by
          rw [Nat.add_sub_cancel] at enough ⊢
          rw [Nat.mul_assoc, ← Nat.pow_succ']
          exact enough) (Nat.succ_pos _) (by omega) (by omega)
        rwa [hu, if_pos (show n < n * 2 by omega)] at this
    have length : (Exec.read fun s => s.gidslen : Sysio D ℕ) s = .ok (s.gidslen, s) := rfl
    rw [ldgroupsLoop, bind_run length]
    by_cases less : s.gidslen < n
    · rw [if_pos less, if_pos less]
      cases got : e.malloc s.mallocs with
      | false =>
        have room : (malloc e : Sysio D Bool) s =
            .ok (false, { s with mallocs := s.mallocs + 1 }) := by rw [malloc, got]
        have grow : growGids e n s = .ok (false, { s with mallocs := s.mallocs + 1 }) :=
          bind_run room
        rw [bind_run grow]
        refine ⟨-ENOMEM, _, rfl, ⟨rfl, rfl, rfl, rfl, rfl, rfl, rfl⟩, Or.inr ⟨?_, Or.inl rfl⟩⟩
        rintro ⟨j, -, -, mem⟩
        have := mem 0 (by omega)
        rw [Nat.add_zero, got] at this
        cases this
      | true =>
        have room : (malloc e : Sysio D Bool) s = .ok (true, { s with mallocs := s.mallocs + 1 }) := by
          rw [malloc, got]
        have grow : growGids e n s =
            .ok (true, { s with mallocs := s.mallocs + 1, gidslen := n }) := bind_run room
        rw [bind_run grow]
        have first : ∀ i < 1, e.malloc (s.mallocs + i) = true := by
          intro i hi
          obtain rfl : i = 0 := by omega
          exact got
        obtain ⟨ret, t, run, scratch, loaded⟩ := ldgroupsLoop_fits first
          (next { s with mallocs := s.mallocs + 1, gidslen := n } rfl) pos
        refine ⟨ret, t, run, ?_, loaded⟩
        exact ⟨scratch.nc, scratch.ic, scratch.mt, scratch.ft, scratch.aio, scratch.umask,
          scratch.drv⟩
    · rw [if_neg less, if_neg less]
      have fits : (pure true : Sysio D Bool) s = .ok (true, s) := rfl
      rw [bind_run fits]
      have none_ : ∀ i < 0, e.malloc (s.mallocs + i) = true :=
        fun i hi => absurd hi (Nat.not_lt_zero i)
      exact ldgroupsLoop_fits none_ (next s (by omega)) pos

theorem sysioLdgroups_run : ∃ ret t, sysioLdgroups e s = .ok (ret, t) ∧ Scratch s t ∧
    Loaded e (Loads e s) ret := by
  have length : (Exec.read fun s => s.gidslen : Sysio D ℕ) s = .ok (s.gidslen, s) := rfl
  rw [sysioLdgroups, bind_run length, Loads]
  by_cases small : s.gidslen < 8
  · rw [if_pos small, if_pos small, Nat.max_eq_left (Nat.le_of_lt small)]
    have := @ldgroupsLoop_run _ e s 32 8 (by decide) (by decide) (by omega) (by decide)
    rwa [if_pos small] at this
  · rw [if_neg small, if_neg small, Nat.max_eq_right (Nat.le_of_not_lt small)]
    have := @ldgroupsLoop_run _ e s 32 s.gidslen (by unfold INT_MAX; omega) (by decide)
      (Nat.le_refl _) (by omega)
    rwa [if_neg (Nat.lt_irrefl _)] at this

end Loading

/-! ## The decision -/

/-- The three bits of `mode` at `shift` include `amode`. -/
def Grants (mode shift amode : ℕ) : Prop := mode >>> shift &&& amode = amode

instance (mode shift amode : ℕ) : Decidable (Grants mode shift amode) :=
  inferInstanceAs (Decidable (_ = _))

/-- The rule, for a caller with the groups `gids`: root may do all, the owner is judged by the owner
bits, a member of the group by the group bits, everybody else by the other bits. -/
def AllowedBy (uid : ℕ) (gids : List ℕ) (st : Stat) (amode : ℕ) : Prop :=
  uid = 0 ∨ (st.uid = uid ∧ Grants st.mode 6 amode) ∨
    (st.uid ≠ uid ∧ st.gid ∈ gids ∧ Grants st.mode 3 amode) ∨
    (st.uid ≠ uid ∧ st.gid ∉ gids ∧ Grants st.mode 0 amode)

instance (uid : ℕ) (gids : List ℕ) (st : Stat) (amode : ℕ) : Decidable (AllowedBy uid gids st amode) :=
  inferInstanceAs (Decidable (_ ∨ _))

/-- The caller has the effective group and the supplementary ones. -/
def Allowed (e : Env D) (st : Stat) (amode : ℕ) : Prop :=
  AllowedBy e.euid (e.egid :: e.groups) st amode

/-- The attributes of the file that a node has, and whether its mount is read-only. -/
def fileOf (p : Pno) (s : Sys D) : Option (Stat × Bool) := do
  let b ← s.nc.base (s.nc.pnode p).base
  let i ← b.ino
  let r ← s.ic.inode i
  let m ← s.mt.mount (s.nc.pnode p).mount
  return (r.stbuf, m.flags &&& MOUNT_F_RO != 0)

section Deciding

theorem and_shiftLeft (m a k : ℕ) : m &&& a <<< k = a <<< k ↔ m >>> k &&& a = a := by
  constructor
  · intro h
    refine Nat.eq_of_testBit_eq fun i => ?_
    have := congrArg (Nat.testBit · (k + i)) h
    simpa using this
  · intro h
    refine Nat.eq_of_testBit_eq fun i => ?_
    by_cases hi : k ≤ i
    · have := congrArg (Nat.testBit · (i - k)) h
      simp only [Nat.testBit_and, Nat.testBit_shiftRight, Nat.add_sub_cancel' hi] at this
      simpa [hi] using this
    · simp [hi]

/-- The masks of the code are the requested bits, moved to the class they are checked in. -/
theorem bitsOf_grants {amode : ℕ} (within : amode &&& (R_OK ||| W_OK ||| X_OK) = amode) (mode : ℕ) :
    (mode &&& bitsOf amode 0o100 = bitsOf amode 0o100 ↔ Grants mode 6 amode) ∧
    (mode &&& bitsOf amode 0o010 = bitsOf amode 0o010 ↔ Grants mode 3 amode) ∧
    (mode &&& bitsOf amode 0o001 = bitsOf amode 0o001 ↔ Grants mode 0 amode) := by
  have small : amode < 8 := by
    rw [← within]
    exact Nat.lt_of_le_of_lt Nat.and_le_right (by decide)
  have masks : ∀ a < 8, bitsOf a 0o100 = a <<< 6 ∧ bitsOf a 0o010 = a <<< 3 ∧
      bitsOf a 0o001 = a <<< 0 := by decide
  obtain ⟨owner, group, other⟩ := masks amode small
  rw [owner, group, other]
  exact ⟨and_shiftLeft _ _ _, and_shiftLeft _ _ _, and_shiftLeft _ _ _⟩

theorem permissionBits_eq {amode : ℕ} (within : amode &&& (R_OK ||| W_OK ||| X_OK) = amode) (st : Stat)
    (crp : Creds) : permissionBits st crp amode =
      if AllowedBy crp.uid crp.gids st amode then 0 else -EACCES := by
  obtain ⟨owner, group, other⟩ := bitsOf_grants within st.mode
  simp only [permissionBits, owner, group, other]
  by_cases root : crp.uid = 0
  · simp [AllowedBy, root]
  · by_cases own : st.uid = crp.uid
    · simp [AllowedBy, root, own]
    · by_cases member : st.gid ∈ crp.gids <;> simp [AllowedBy, root, own, member]

/-- What `_sysio_check_permission` returns. -/
theorem sysioCheckPermission_run {amode : ℕ} {st : Stat} {ro : Bool} {crp : Creds}
    (within : amode &&& (R_OK ||| W_OK ||| X_OK) = amode) (file : fileOf p s = some (st, ro)) :
    sysioCheckPermission p crp amode s = .ok (if AllowedBy crp.uid crp.gids st amode then
      if amode &&& W_OK ≠ 0 ∧ ro = true then -EROFS else 0 else -EACCES, s) := by
  simp only [fileOf, Option.bind_eq_bind, Option.bind_eq_some_iff, Option.pure_def,
    Option.some.injEq, Prod.mk.injEq] at file
  obtain ⟨b, hb, i, hi, r, hr, m, hm, rfl, hro⟩ := file
  rw [sysioCheckPermission, if_neg (not_not.mpr within)]
  by_cases nothing : amode = 0
  · -- nothing is asked for, so every class grants it
    have granted : AllowedBy crp.uid crp.gids r.stbuf amode := by
      subst nothing
      have all : ∀ shift, Grants r.stbuf.mode shift 0 := fun _ => Nat.and_zero _
      by_cases own : r.stbuf.uid = crp.uid
      · exact Or.inr (Or.inl ⟨own, all 6⟩)
      · by_cases member : r.stbuf.gid ∈ crp.gids
        · exact Or.inr (Or.inr (Or.inl ⟨own, member, all 3⟩))
        · exact Or.inr (Or.inr (Or.inr ⟨own, member, all 0⟩))
    rw [if_pos nothing, if_pos granted, if_neg (by simp [nothing])]
    rfl
  rw [if_neg nothing]
  have ino : (inoOf p : Sysio D (Option InoId)) s = .ok (some i, s) :=
    bind_ok.mpr ⟨_, s, rfl, bind_ok.mpr ⟨b, s, deref_ok.mpr ⟨hb, rfl⟩, pure_ok.mpr ⟨hi, rfl⟩⟩⟩
  have asserted : (assert (some i).isSome : Sysio D Unit) s = .ok ((), s) := rfl
  have pointer : (nonNull (some i) : Sysio D InoId) s = .ok (i, s) := rfl
  have inode : (inodeAt i : Sysio D Inode) s = .ok (r, s) := deref_ok.mpr ⟨hr, rfl⟩
  rw [bind_run ino, bind_run asserted, bind_run pointer, bind_run inode, permissionBits_eq within]
  by_cases granted : AllowedBy crp.uid crp.gids r.stbuf amode
  · rw [if_pos granted, if_pos granted, if_neg (by simp)]
    have rdonly : (isRdonly p : Sysio D Bool) s = .ok (ro, s) :=
      bind_ok.mpr ⟨_, s, rfl, bind_ok.mpr ⟨m, s, deref_ok.mpr ⟨hm, rfl⟩, pure_ok.mpr ⟨hro, rfl⟩⟩⟩
    by_cases write : amode &&& W_OK ≠ 0
    · rw [if_pos write, bind_run rdonly]
      cases ro with
      | true =>
        rw [if_pos (rfl : true = true), if_pos (And.intro write rfl)]
        rfl
      | false =>
        rw [if_neg Bool.false_ne_true, if_neg fun h => Bool.false_ne_true h.2]
        rfl
    · rw [if_neg write, if_neg fun h => write h.1]
      rfl
  · rw [if_neg granted, if_neg granted, if_pos (by decide)]
    rfl

/-- The checker's groups are all but the last. -/
theorem loaded_gids (e : Env D) :
    (e.egid :: e.groups).take ((e.groups.length : ℤ).toNat) = (e.egid :: e.groups).dropLast := by
  rw [Int.toNat_natCast, List.dropLast_eq_take, List.length_cons, Nat.add_sub_cancel]

/-- What `_sysio_permitted` returns. -/
theorem sysioPermitted_run {amode : ℕ} {st : Stat} {ro : Bool}
    (within : amode &&& (R_OK ||| W_OK ||| X_OK) = amode) (file : fileOf p s = some (st, ro)) :
    ∃ ret t, sysioPermitted e p amode s = .ok (ret, t) ∧
      ((Loads e s ∧ ret = if AllowedBy e.euid (e.egid :: e.groups).dropLast st amode then
          if amode &&& W_OK ≠ 0 ∧ ro = true then -EROFS else 0 else -EACCES) ∨
        (¬ Loads e s ∧ (ret = -ENOMEM ∨ ret = -EINVAL))) := by
  obtain ⟨n, t, load, scratch, loaded⟩ := @sysioLdgroups_run _ e s
  have file : fileOf p t = some (st, ro) := by
    rw [fileOf, scratch.nc, scratch.ic, scratch.mt]
    exact file
  rcases loaded with ⟨loads, rfl⟩ | ⟨fails, herr⟩
  · have creds : sysioLdcreds e s = .ok ((0, ⟨e.euid, (e.egid :: e.groups).dropLast⟩), t) := by
      rw [sysioLdcreds, bind_run load, if_neg (by omega), loaded_gids]
      rfl
    refine ⟨_, t, ?_, Or.inl ⟨loads, rfl⟩⟩
    rw [sysioPermitted, bind_run creds]
    exact sysioCheckPermission_run within file
  · have negative : n < 0 := by
      rcases herr with rfl | rfl <;> decide
    have creds : sysioLdcreds e s = .ok ((n, ⟨0, []⟩), t) := by
      rw [sysioLdcreds, bind_run load, if_pos negative]
      rfl
    refine ⟨n, t, ?_, Or.inr ⟨fails, herr⟩⟩
    rw [sysioPermitted, bind_run creds]
    change (if n < 0 then pure n else _ : Sysio D ℤ) t = _
    rw [if_pos negative]
    rfl

end Deciding

/-- The last entry of the group list makes no difference: the caller is judged by other bits, the
group of the file is not only there, or its bits grant what the other bits grant. -/
def Counted (e : Env D) (st : Stat) (amode : ℕ) : Prop :=
  e.euid = 0 ∨ st.uid = e.euid ∨
    (st.gid ∈ e.egid :: e.groups → st.gid ∈ (e.egid :: e.groups).dropLast) ∨
    (Grants st.mode 3 amode ↔ Grants st.mode 0 amode)

/-- `_sysio_permitted` follows the rule: it returns 0 exactly where the rule allows the access, except
that writing to a read-only mount then is -EROFS. -/
def Decided (e : Env D) (p : Pno) (amode : ℕ) (st : Stat) (ro : Bool) (s : Sys D) : Prop :=
  ∃ ret t, sysioPermitted e p amode s = .ok (ret, t) ∧
    (ret = 0 ↔ Allowed e st amode ∧ ¬ (amode &&& W_OK ≠ 0 ∧ ro = true)) ∧
    (Allowed e st amode → amode &&& W_OK ≠ 0 ∧ ro = true → ret = -EROFS)

theorem allowed_counted {st : Stat} {amode : ℕ} :
    (AllowedBy e.euid (e.egid :: e.groups).dropLast st amode ↔ Allowed e st amode) ↔
      Counted e st amode := by
  have sub : st.gid ∈ (e.egid :: e.groups).dropLast → st.gid ∈ e.egid :: e.groups :=
    fun h => (List.dropLast_sublist _).subset h
  unfold Allowed AllowedBy Counted
  by_cases root : e.euid = 0
  · simp [root]
  by_cases own : st.uid = e.euid
  · simp [own]
  by_cases member : st.gid ∈ (e.egid :: e.groups).dropLast
  · simp [root, own, member, sub member]
  by_cases last : st.gid ∈ e.egid :: e.groups
  · simp [root, own, member, last, iff_comm]
  · simp [root, own, member, last]

/-- The decision follows the rule exactly where the group list can be loaded and its last entry makes
no difference, or the rule denies what the call cannot grant: the list cannot be loaded, or the call
is to write to a read-only mount. -/
theorem permission_decision {amode : ℕ} {st : Stat} {ro : Bool}
    (within : amode &&& (R_OK ||| W_OK ||| X_OK) = amode) (file : fileOf p s = some (st, ro)) :
    Decided e p amode st ro s ↔ (Loads e s ∧ Counted e st amode) ∨
      (¬ Allowed e st amode ∧ (¬ Loads e s ∨ (amode &&& W_OK ≠ 0 ∧ ro = true))) := by
  obtain ⟨ret, t, run, result⟩ := @sysioPermitted_run _ e s p _ _ _ within file
  have only : Decided e p amode st ro s ↔
      (ret = 0 ↔ Allowed e st amode ∧ ¬ (amode &&& W_OK ≠ 0 ∧ ro = true)) ∧
      (Allowed e st amode → amode &&& W_OK ≠ 0 ∧ ro = true → ret = -EROFS) := by
    constructor
    · rintro ⟨ret', t', run', decided⟩
      obtain rfl : ret = ret' := (Prod.mk.inj (Except.ok.inj (run.symm.trans run'))).1
      exact decided
    · exact fun decided => ⟨ret, t, run, decided⟩
  rw [only]
  rcases result with ⟨loads, rfl⟩ | ⟨fails, herr⟩
  · rw [← allowed_counted]
    by_cases granted : AllowedBy e.euid (e.egid :: e.groups).dropLast st amode <;>
    by_cases rule : Allowed e st amode <;>
    by_cases write : amode &&& W_OK ≠ 0 ∧ ro = true <;>
    simp [granted, rule, write, loads, EROFS, EACCES]
  · have nonzero : ret ≠ 0 ∧ ret ≠ -EROFS := by
      rcases herr with rfl | rfl <;> decide
    by_cases rule : Allowed e st amode <;>
    by_cases write : amode &&& W_OK ≠ 0 ∧ ro = true <;>
    simp [rule, write, fails, nonzero]

/-- A host whose files belong to group 7. -/
def groupHost : Host Unit := { calmHost with gid := 7 }

/-- "bb" goes on "/b", and "/b/d" is made with mode 0750. -/
def groupRun : Sys (FuseData Unit) :=
  (runCalls (fuseLibrary groupHost) fuseTypeName
    [.mkdir [98, 98, 58, 47, 98, 47, 100] 0o750, .mount [] [47, 98] [98, 98] 2]).final
      (initState (initData ()))

/-- A caller that is not root. -/
def caller (egid : ℕ) (groups : List ℕ) : Env (FuseData Unit) :=
  { fuseEnv groupHost with euid := 1000, egid := egid, groups := groups }

/-- The attributes of "/b/d". -/
def groupStat : Stat :=
  { dev := 0, ino := 3, mode := 0o40750, nlink := 2, uid := 0, gid := 7, size := 0 }

section Groups

theorem groupRun_file : fileOf 107 groupRun = some (groupStat, false) := by decide +kernel

/-- Seven groups and fewer fit into the first buffer. -/
theorem groupRun_loads (egid : ℕ) {groups : List ℕ} (few : groups.length < 8) :
    Loads (caller egid groups) groupRun := by
  have eight : groupRun.gidslen = 8 := by decide +kernel
  rw [Loads, eight, if_neg (by decide), Nat.max_self]
  exact ⟨0, few, fun i hi => absurd hi (Nat.not_lt_zero i), fun i hi => absurd hi (Nat.not_lt_zero i)⟩

end Groups

/-- A member of group 7 that is also in group 8 may list "/b/d". -/
theorem permission_decision_member : Decided (caller 5 [7, 8]) 107 R_OK groupStat false groupRun := by
  have within : R_OK &&& (R_OK ||| W_OK ||| X_OK) = R_OK := by decide
  have loads : Loads (caller 5 [7, 8]) groupRun := groupRun_loads 5 (by decide)
  have member : (7 : ℕ) ∈ [5, 7] := by decide
  have counted : Counted (caller 5 [7, 8]) groupStat R_OK := Or.inr (Or.inr (Or.inl fun _ => member))
  exact (permission_decision within groupRun_file).mpr (Or.inl ⟨loads, counted⟩)

/-- A member of group 7 alone may not: the one group of the caller is not looked at. -/
theorem only_group_ignored : ¬ ∀ egid groups,
    Decided (caller egid groups) 107 R_OK groupStat false groupRun := by
  intro decided
  obtain ⟨ret, t, run, zero, -⟩ := decided 7 []
  have denied : sysioPermitted (caller 7 []) 107 R_OK groupRun = .ok (-EACCES, _) :=
    ok_of_value (by decide +kernel)
  obtain rfl : -EACCES = ret := (Prod.mk.inj (Except.ok.inj (denied.symm.trans run))).1
  have allowed : Allowed (caller 7 []) groupStat R_OK := by
    unfold Allowed
    decide
  exact absurd (zero.mpr ⟨allowed, by decide⟩) (by decide)

end Permission
