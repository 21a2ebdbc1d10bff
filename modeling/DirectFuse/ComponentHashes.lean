import DirectFuse.Sparing
import DirectFuse.WalkFold
import Mathlib.Data.Int.ModEq
import Mathlib.Data.List.TakeWhile
import Mathlib.Tactic.Linarith
import Mathlib.Tactic.NormNum
import Mathlib.Tactic.Positivity
import Mathlib.Tactic.Ring

/-! Hashes of path components. The hash is a polynomial in 37 over the bytes of the name, taken
modulo the word; the name cache takes it for granted that it is never zero. -/
namespace ComponentHashes

open ExecLogic SysioState SysioInode SysioNamei Sparing WalkFold

/-- The value of a plain char. -/
def charValue (c : UInt8) : ℤ := if c.toNat < 128 then c.toNat else c.toNat - 256

/-- The hash of a name before it is cut to a word. -/
def polynomial : Bytes → ℤ
  | [] => 0
  | c :: name => charValue c * 37 ^ name.length + polynomial name

/-- A name that can stand in a path. -/
structure Spelled (name : Bytes) : Prop where
  nonempty : name ≠ []
  plain : PATH_SEPARATOR ∉ name
  unended : 0 ∉ name

/-- What the name cache relies on. -/
structure Usable (name : Bytes) : Prop where
  nonzero : ∀ path, (sysioNextComponent path).1.name = name →
    (sysioNextComponent path).1.hashval ≠ 0
  equal : ∀ path path', (sysioNextComponent path).1.name = name →
    (sysioNextComponent path').1.name = name →
    (sysioNextComponent path).1.hashval = (sysioNextComponent path').1.hashval
  /-- A new base node stops at an assertion only while old nodes are reclaimed. -/
  base : ∀ {D : Type} (e : Env D) path parent ino (s : Sys D),
    (sysioNextComponent path).1.name = name →
    sysioPbNew e (sysioNextComponent path).1 parent ino s = .error .assertion →
    s.nc.maxNames < s.nc.nNames ∧ pReclaim e s = .error .assertion
  aliases : ∀ {D : Type} (e : Env D) path parent b mnt (s : Sys D) r,
    (sysioNextComponent path).1.name = name → s.nc.base b = some r →
    r.name = (sysioNextComponent path).1 → sysioPNewAlias e parent b mnt s ≠ .error .assertion

section Residues

theorem signedChar_residue (c : UInt8) : (signedChar c : ℤ) ≡ charValue c [ZMOD 2 ^ 32] := by
  unfold signedChar charValue
  split
  · exact Int.ModEq.refl _
  · apply Int.ModEq.symm
    apply Int.modEq_iff_dvd.mpr
    refine ⟨1, ?_⟩
    push_cast
    ring

/-- The loop of `_sysio_next_component` adds what is to come to what it has, shifted. -/
theorem loop_residue (name : Bytes) (h : ℕ) :
    (name.foldl (fun h c => (37 * h + signedChar c) % 2 ^ 32) h : ℕ) ≡
      (h * 37 ^ name.length + polynomial name : ℤ) [ZMOD 2 ^ 32] := by
  induction name generalizing h with
  | nil => simp [polynomial, Int.ModEq.refl]
  | cons c name ih =>
    have turn : (((37 * h + signedChar c) % 2 ^ 32 : ℕ) : ℤ) ≡ 37 * h + charValue c
        [ZMOD 2 ^ 32] := by
      push_cast
      apply (Int.mod_modEq _ _).trans
      exact (Int.ModEq.refl _).add (signedChar_residue c)
    apply (ih _).trans
    have shifted := (turn.mul_right (37 ^ name.length)).add (Int.ModEq.refl (polynomial name))
    apply shifted.trans
    have same : (37 * h + charValue c) * 37 ^ name.length + polynomial name =
        h * 37 ^ (name.length + 1) + polynomial (c :: name) := by
      simp only [polynomial, pow_succ]
      ring
    rw [same]
    exact Int.ModEq.refl _

theorem nameHash_lt (name : Bytes) : nameHash name < 2 ^ 32 := by
  have loop : ∀ (name : Bytes) (h : ℕ), h < 2 ^ 32 →
      name.foldl (fun h c => (37 * h + signedChar c) % 2 ^ 32) h < 2 ^ 32 := by
    intro name
    induction name with
    | nil =>
      intro h small
      exact small
    | cons c name ih =>
      intro h _
      apply ih
      exact Nat.mod_lt _ (by norm_num)
  exact loop name 0 (by norm_num)

theorem nameHash_eq_zero (name : Bytes) : nameHash name = 0 ↔ 2 ^ 32 ∣ polynomial name := by
  have residue : (nameHash name : ℤ) ≡ polynomial name [ZMOD 2 ^ 32] := by
    have loop := loop_residue name 0
    rwa [Int.ofNat_zero, zero_mul, zero_add] at loop
  have small := nameHash_lt name
  constructor
  · intro zero
    rw [zero] at residue
    exact Int.modEq_zero_iff_dvd.mp residue.symm
  · intro multiple
    have divides := Int.modEq_zero_iff_dvd.mp (residue.trans (Int.modEq_zero_iff_dvd.mpr multiple))
    have divides : 2 ^ 32 ∣ nameHash name := by exact_mod_cast divides
    exact Nat.eq_zero_of_dvd_of_lt divides small

theorem polynomial_bounds {name : Bytes} (ascii : ∀ c ∈ name, c.toNat < 128) :
    0 ≤ polynomial name ∧ 36 * polynomial name ≤ 127 * (37 ^ name.length - 1) := by
  induction name with
  | nil => simp [polynomial]
  | cons c name ih =>
    obtain ⟨low, high⟩ := ih fun d hd => ascii d (List.mem_cons_of_mem _ hd)
    have value : charValue c = c.toNat := if_pos (ascii c List.mem_cons_self)
    have small : (c.toNat : ℤ) ≤ 127 := by
      have first := ascii c List.mem_cons_self
      omega
    have power : (0 : ℤ) ≤ 37 ^ name.length := by positivity
    simp only [polynomial, value, List.length_cons, pow_succ]
    constructor
    · positivity
    · nlinarith [mul_le_mul_of_nonneg_right small power]

/-- The hash of a short name in ASCII is its polynomial, and not zero. -/
theorem polynomial_short {name : Bytes} (spelled : Spelled name)
    (ascii : ∀ c ∈ name, c.toNat < 128) (short : name.length ≤ 5) :
    ¬ 2 ^ 32 ∣ polynomial name := by
  intro multiple
  obtain ⟨-, high⟩ := polynomial_bounds ascii
  have power : (37 : ℤ) ^ name.length ≤ 37 ^ 5 := pow_le_pow_right₀ (by norm_num) short
  have positive : 0 < polynomial name := by
    cases name with
    | nil => exact absurd rfl spelled.nonempty
    | cons c name =>
      have value : charValue c = c.toNat := if_pos (ascii c List.mem_cons_self)
      have first : 0 < c.toNat := by
        apply Nat.pos_of_ne_zero
        intro zero
        apply spelled.unended
        have same : c = 0 := UInt8.toNat_inj.mp zero
        exact List.mem_cons.mpr (Or.inl same.symm)
      have rest := (polynomial_bounds fun d hd => ascii d (List.mem_cons_of_mem _ hd)).1
      have head : (0 : ℤ) < c.toNat * 37 ^ name.length := by positivity
      rw [polynomial, value]
      exact add_pos_of_pos_of_nonneg head rest
  have large := Int.le_of_dvd positive multiple
  norm_num at power large
  omega

end Residues

theorem sysioNextComponent_hash (path : Bytes) :
    (sysioNextComponent path).1.hashval = nameHash (sysioNextComponent path).1.name := by
  obtain ⟨name, after, next, -⟩ := sysioNextComponent_cases path
  rw [next]

theorem sysioNextComponent_self {name : Bytes} (spelled : Spelled name) :
    (sysioNextComponent name).1.name = name := by
  have plain : ∀ c ∈ name, (c != PATH_SEPARATOR) = true := fun c hc =>
    bne_iff_ne.mpr fun same => spelled.plain (same ▸ hc)
  have front : name.dropWhile (· == PATH_SEPARATOR) = name := by
    cases name with
    | nil => rfl
    | cons c name =>
      apply List.dropWhile_cons_of_neg
      have first := bne_iff_ne.mp (plain c List.mem_cons_self)
      simpa using first
  simp only [sysioNextComponent, front]
  exact List.takeWhile_eq_self_iff.mpr plain

section Assertions

variable {D : Type} {e : Env D} {s : Sys D}

theorem malloc_spares : Avoids .assertion (malloc e) := by
  intro s stops
  cases stops

theorem modBase_spares (b : PbId) (f : PnodeBase → PnodeBase) :
    Avoids .assertion (modBase b f : Sysio D Unit) :=
  avoids_bind (avoids_deref (by decide) _) fun _ => avoids_write _

theorem assert_spares {c : Bool} (holds : c = true) :
    Avoids .assertion (SysioState.assert c : Sysio D Unit) := by
  intro s stops
  unfold SysioState.assert Exec.check at stops
  rw [if_pos holds] at stops
  cases stops

/-- With a hash, nothing behind the reclaim of old nodes stops at an assertion. -/
theorem sysioPbNew_assertion {name : Qstr} {parent : Option PbId} {ino : Option InoId}
    (hash : name.hashval ≠ 0) (stops : sysioPbNew e name parent ino s = .error .assertion) :
    s.nc.maxNames < s.nc.nNames ∧ pReclaim e s = .error .assertion := by
  by_contra fine
  have reclaims : (Exec.when (s.nc.maxNames < s.nc.nNames) (pReclaim e)) s ≠ .error .assertion := by
    unfold Exec.when
    by_cases full : s.nc.maxNames < s.nc.nNames
    · rw [if_pos full]
      exact fun stops => fine ⟨full, stops⟩
    · rw [if_neg full]
      intro stops
      cases stops
  have whole : Spares .assertion (sysioPbNew e name parent ino) s fun _ _ => True := by
    apply spares_bind
    apply spares_read
    apply spares_bind
    refine ⟨reclaims, fun _ t _ => ?_⟩
    apply Avoids.spares _ fun _ _ _ => trivial
    apply avoids_bind malloc_spares
    intro got
    apply avoids_ite
    · intro _
      exact avoids_pure _
    · intro _
      apply avoids_bind (avoids_read _)
      intro b
      apply avoids_bind
      · apply avoids_when
        intro _
        apply avoids_bind (assert_spares (decide_eq_true hash))
        intro _
        exact avoids_write _
      · intro _
        apply avoids_bind
        · cases parent with
          | none => exact avoids_pure _
          | some q => exact modBase_spares q _
        · intro _
          apply avoids_bind (avoids_write _)
          intro _
          exact avoids_pure _
  exact whole.1 stops

theorem sysioPNewAlias_assertion {parent : Option Pno} {b : PbId} {mnt : MntId} {r : PnodeBase}
    (base : s.nc.base b = some r) (hash : r.name.hashval ≠ 0) :
    sysioPNewAlias e parent b mnt s ≠ .error .assertion := by
  have whole : Spares .assertion (sysioPNewAlias e parent b mnt) s fun _ _ => True := by
    apply spares_bind
    apply spares_deref (by decide)
    intro r' base'
    obtain rfl := Option.some.inj (base.symm.trans base')
    apply Avoids.spares _ fun _ _ _ => trivial
    apply avoids_bind (assert_spares (by simp [hash]))
    intro _
    apply avoids_bind (avoids_read _)
    intro free
    apply avoids_bind
    · apply avoids_when
      intro _
      apply avoids_bind malloc_spares
      intro got
      apply avoids_ite
      · intro _
        exact avoids_write _
      · intro _
        exact avoids_pure _
    · intro _
      apply avoids_bind (avoids_read _)
      intro free
      cases free with
      | nil => exact avoids_pure _
      | cons p rest =>
        apply avoids_bind (avoids_write _)
        intro _
        apply avoids_bind (modBase_spares b _)
        intro _
        exact avoids_pure _
  exact whole.1

end Assertions

/-- The hash of a component can be used exactly where its polynomial is no multiple of the word. -/
theorem component_hashes {name : Bytes} (spelled : Spelled name) :
    Usable name ↔ ¬ 2 ^ 32 ∣ polynomial name := by
  constructor
  · intro usable multiple
    have self := sysioNextComponent_self spelled
    apply usable.nonzero name self
    rw [sysioNextComponent_hash, self]
    exact (nameHash_eq_zero name).mpr multiple
  · intro free
    have nonzero : ∀ path, (sysioNextComponent path).1.name = name →
        (sysioNextComponent path).1.hashval ≠ 0 := by
      intro path found zero
      rw [sysioNextComponent_hash, found] at zero
      exact free ((nameHash_eq_zero name).mp zero)
    constructor
    · exact nonzero
    · intro path path' found found'
      rw [sysioNextComponent_hash, sysioNextComponent_hash, found, found']
    · intro D e path parent ino s found stops
      exact sysioPbNew_assertion (nonzero path found) stops
    · intro D e path parent b mnt s r found base same
      apply sysioPNewAlias_assertion base
      rw [same]
      exact nonzero path found

theorem component_hashes_ab : Usable [97, 98] := by
  have spelled : Spelled [97, 98] := ⟨by decide, by decide, by decide⟩
  have ascii : ∀ c ∈ ([97, 98] : Bytes), c.toNat < 128 := by
    intro c hc
    rcases List.mem_cons.mp hc with rfl | hc
    · decide
    · rcases List.mem_singleton.mp hc with rfl
      decide
  exact (component_hashes spelled).mpr (polynomial_short spelled ascii (by decide))

/-- `ygyiw3`. -/
def zeroName : Bytes := [121, 103, 121, 105, 119, 51]

theorem zeroName_unusable : ¬ Usable zeroName := by
  intro usable
  exact usable.nonzero zeroName (by decide) (by decide)

end ComponentHashes
