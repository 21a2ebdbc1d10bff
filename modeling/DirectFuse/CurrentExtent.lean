import DirectFuse.IovecSum
import DirectFuse.SysioFile
import DirectFuse.VectorBounds

/-! The extent that `_sysio_iiov` builds for I/O at the current position of a file. The test for an
overflow is also true where nothing is to be moved, and the extent of an empty request then goes to
the end of all files. -/
namespace CurrentExtent

open ExecLogic SysioState SysioFile SysioReconcile ReconcileStream ReconcileFull ReconcileValid
open VectorBounds

/-- `_SYSIO_OFF_T_MAX`. -/
def OFF_T_MAX : ℤ := 2 ^ 63 - 1

theorem toSize_lt (x : ℤ) : toSize x < 2 ^ 64 := by
  unfold toSize
  omega

/-- What `_sysio_iiov` puts into the extent it passes on, `pos` being the position of the file, or
the error it returns. -/
def iiovExtent (pos : ℤ) (iov : List Iovec) : Except ℤ Xtvec :=
  let cc := sysioSumIovec (iov.map Iovec.len)
  if cc < 0 then
    .error (toInt cc)
  else
    let off := wrap64 (pos + toSize cc)
    if pos ≠ 0 ∧ off ≤ pos then .ok ⟨pos, toSize (OFF_T_MAX - pos), toSize_lt _⟩
    else .ok ⟨pos, toSize cc, toSize_lt _⟩

/-- Where no extent is passed on, nothing is posted. -/
theorem sysioIiov_refused {D : Type} {e : Env D} {pos err : ℤ} {iov : List Iovec}
    (refused : iiovExtent pos iov = .error err) (wr : Bool) (f : FilId) (cc : ℤ)
    (v x : Option VecId) (cbs : List SysioState.Callback) :
    sysioIiov e wr f (iov.map Iovec.len) cc v x cbs = pure (err, none) := by
  unfold iiovExtent at refused
  simp only at refused
  by_cases hneg : sysioSumIovec (iov.map Iovec.len) < 0
  · rw [if_pos hneg] at refused
    obtain rfl := Except.error.inj refused
    exact if_pos hneg
  · rw [if_neg hneg] at refused
    split at refused <;> cases refused

theorem toSize_of_mem {x : ℤ} (h : 0 ≤ x) (hx : x ≤ SSIZE_MAX) : (toSize x : ℤ) = x := by
  have hsize : (SSIZE_MAX : ℤ) = 2 ^ 63 - 1 := by decide
  unfold toSize
  omega

section Extent

variable {pos : ℤ} {iov : List Iovec} (hpos : 0 ≤ pos) (hmax : pos ≤ OFF_T_MAX)
  (hsum : bufferBytes iov ≤ SSIZE_MAX)

include hpos hmax hsum

/-- The extent for a vector with any entries. -/
theorem iiovExtent_ok (hne : iov ≠ []) : ∃ x, iiovExtent pos iov = .ok x ∧ x.off = pos ∧
    (x.len : ℤ) = if pos ≠ 0 ∧ (bufferBytes iov = 0 ∨ OFF_T_MAX < pos + bufferBytes iov) then
      OFF_T_MAX - pos else bufferBytes iov := by
  have hsize : (SSIZE_MAX : ℤ) = 2 ^ 63 - 1 := by decide
  have hoff : OFF_T_MAX = 2 ^ 63 - 1 := rfl
  have hnil : iov.map Iovec.len ≠ [] := fun h => hne (List.map_eq_nil_iff.mp h)
  have typed : ∀ n ∈ iov.map Iovec.len, n < 2 ^ 64 := by
    intro n hn
    rcases List.mem_map.mp hn with ⟨v, -, rfl⟩
    exact v.size
  have fits : 0 + (iov.map Iovec.len).sum ≤ SSIZE_MAX := by
    rw [Nat.zero_add]
    exact hsum
  have hcc : sysioSumIovec (iov.map Iovec.len) = bufferBytes iov := by
    rw [(IovecSum.sysioSumIovec_caught typed).2 hnil (IovecSum.not_caught_of_le fits)]
    change wrap64 (bufferBytes iov) = bufferBytes iov
    exact wrap64_of_mem (by omega) (by omega)
  have hlen : (toSize (bufferBytes iov) : ℤ) = bufferBytes iov := toSize_of_mem (by omega) (by omega)
  have hrest : (toSize (OFF_T_MAX - pos) : ℤ) = OFF_T_MAX - pos := toSize_of_mem (by omega) (by omega)
  -- the sum wraps exactly where it is greater than the last offset
  have htest : wrap64 (pos + bufferBytes iov) ≤ pos ↔
      bufferBytes iov = 0 ∨ OFF_T_MAX < pos + bufferBytes iov := by
    by_cases hover : OFF_T_MAX < pos + bufferBytes iov
    · have := (wrap64_overflow (pos + bufferBytes iov)).2 (by omega) (by omega)
      omega
    · rw [wrap64_of_mem (by omega) (by omega)]
      omega
  unfold iiovExtent
  simp only [hcc, hlen, htest]
  rw [if_neg (by omega)]
  split
  · exact ⟨_, rfl, rfl, hrest⟩
  · exact ⟨_, rfl, rfl, hlen⟩

/-- A vector with any entries is passed on with an extent at the position of the file, and this is as
long as the vector, or as there is room for, unless the vector has no bytes. -/
theorem current_extent : (iov ≠ [] → ∃ x, iiovExtent pos iov = .ok x) ∧
    ∀ x, iiovExtent pos iov = .ok x →
      ((x.off = pos ∧ (x.len : ℤ) = min (bufferBytes iov : ℤ) (OFF_T_MAX - pos)) ↔
        bufferBytes iov ≠ 0 ∨ pos = 0 ∨ pos = OFF_T_MAX) := by
  have hsize : (SSIZE_MAX : ℤ) = 2 ^ 63 - 1 := by decide
  have hoff : OFF_T_MAX = 2 ^ 63 - 1 := rfl
  refine ⟨fun hne => ?_, fun x hx => ?_⟩
  · obtain ⟨x, hx, -⟩ := iiovExtent_ok hpos hmax hsum hne
    exact ⟨x, hx⟩
  · have hne : iov ≠ [] := by
      rintro rfl
      cases hx
    obtain ⟨y, hy, hat, hlen⟩ := iiovExtent_ok hpos hmax hsum hne
    obtain rfl : x = y := Except.ok.inj (hx.symm.trans hy)
    rw [hlen]
    split <;> omega

end Extent

theorem current_extent_middle :
    (∃ x, iiovExtent 7 [⟨0, 5, by decide⟩] = .ok x) ∧
      ∀ x, iiovExtent 7 [⟨0, 5, by decide⟩] = .ok x → x.off = 7 ∧
        (x.len : ℤ) = min (bufferBytes [⟨0, 5, by decide⟩] : ℤ) (OFF_T_MAX - 7) := by
  have hsum : bufferBytes [⟨0, 5, by decide⟩] ≤ SSIZE_MAX := by decide
  obtain ⟨passed, extent⟩ := @current_extent 7 [⟨0, 5, by decide⟩] (by decide) (by decide) hsum
  exact ⟨passed (by decide), fun x hx => (extent x hx).mpr (Or.inl (by decide))⟩

/-- An empty buffer at position 7: the extent goes to the end of all files. -/
theorem empty_request_extent :
    ¬ ∀ (pos : ℤ) (iov : List Iovec), 0 ≤ pos → pos ≤ OFF_T_MAX → bufferBytes iov ≤ SSIZE_MAX →
      ∀ x, iiovExtent pos iov = .ok x →
        x.off = pos ∧ (x.len : ℤ) = min (bufferBytes iov : ℤ) (OFF_T_MAX - pos) := by
  intro claim
  obtain ⟨-, hlen⟩ := claim 7 [⟨0, 0, by decide⟩] (by decide) (by decide) (by decide)
    ⟨7, 2 ^ 63 - 8, by decide⟩ (by decide +kernel)
  revert hlen
  decide

end CurrentExtent
