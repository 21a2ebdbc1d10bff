import DirectFuse.ByteRange
import DirectFuse.ExecLogic

/-! Bytes somewhere in a state, and computations that read and write them within their bounds. -/
namespace ByteAccess

open ExecLogic ByteRange

/-- A part of a state that is a sequence of bytes. -/
structure Region (σ : Type) where
  bytes : σ → List UInt8
  update : σ → List UInt8 → σ
  bytes_update : ∀ s l, bytes (update s l) = l
  update_update : ∀ s l l', update (update s l) l' = update s l'
  update_bytes : ∀ s, update s (bytes s) = s

variable {σ ε : Type} (R : Region σ) (wild : ε)

def loadBytes (off n : ℕ) : Exec σ ε (List UInt8) := do
  Exec.check wild fun s => decide (off + n ≤ (R.bytes s).length)
  Exec.read fun s => fetch (R.bytes s) off n

def load (off n : ℕ) : Exec σ ε ℕ := do
  let bytes ← loadBytes R wild off n
  return unle bytes

def storeBytes (off : ℕ) (new : List UInt8) : Exec σ ε Unit := do
  Exec.check wild fun s => decide (off + new.length ≤ (R.bytes s).length)
  Exec.write fun s => R.update s (store 0 (R.bytes s) off new)

/-- The length of a string, with `fuel` bytes to look at. -/
def strlen : ℕ → ℕ → Exec σ ε ℕ
  | 0, _ => Exec.fault wild
  | fuel + 1, off => do
    let c ← load R wild off 1
    if c = 0 then
      return 0
    else
      let n ← strlen fuel (off + 1)
      return n + 1

/-- A copy byte by byte, upwards. -/
def memcpy : ℕ → ℕ → ℕ → Exec σ ε Unit
  | _, _, 0 => return ()
  | dst, src, n + 1 => do
    let c ← loadBytes R wild src 1
    storeBytes R wild dst c
    memcpy (dst + 1) (src + 1) n

section Runs

variable {R : Region σ} {wild : ε} {s : σ} {front mid back new : List UInt8} {off n : ℕ}

theorem loadBytes_run (hs : R.bytes s = front ++ mid ++ back) (hoff : off = front.length)
    (hn : n = mid.length) : loadBytes R wild off n s = .ok (mid, s) := by
  have hroom : off + n ≤ (R.bytes s).length := by
    rw [hs, hoff, hn]
    simp
  have hcheck : Exec.check wild (fun s => decide (off + n ≤ (R.bytes s).length)) s = .ok ((), s) :=
    check_ok.mpr ⟨decide_eq_true hroom, rfl⟩
  have hfetch : fetch (R.bytes s) off n = mid := by
    rw [hs, hoff, hn, fetch_middle]
  rw [loadBytes, bind_run hcheck]
  exact read_ok.mpr ⟨hfetch, rfl⟩

theorem load_run (hs : R.bytes s = front ++ mid ++ back) (hoff : off = front.length)
    (hn : n = mid.length) : load R wild off n s = .ok (unle mid, s) := by
  rw [load, bind_run (loadBytes_run hs hoff hn)]
  rfl

theorem storeBytes_run (hs : R.bytes s = front ++ mid ++ back) (hoff : off = front.length)
    (hnew : new.length = mid.length) :
    storeBytes R wild off new s = .ok ((), R.update s (front ++ new ++ back)) := by
  have hroom : off + new.length ≤ (R.bytes s).length := by
    rw [hs, hoff, hnew]
    simp
  have hcheck : Exec.check wild (fun s => decide (off + new.length ≤ (R.bytes s).length)) s =
      .ok ((), s) := check_ok.mpr ⟨decide_eq_true hroom, rfl⟩
  have hstore : store 0 (R.bytes s) off new = front ++ new ++ back := by
    rw [hs, hoff, store_middle 0 front mid back hnew]
  rw [storeBytes, bind_run hcheck, ← hstore]
  rfl

theorem strlen_run {text : List UInt8} (hs : R.bytes s = front ++ (text ++ 0 :: back))
    (htext : 0 ∉ text) {fuel : ℕ} (hfuel : text.length < fuel) :
    strlen R wild fuel front.length s = .ok (text.length, s) := by
  induction text generalizing front fuel with
  | nil =>
    cases fuel with
    | zero => exact absurd hfuel (Nat.not_lt_zero _)
    | succ fuel =>
      have hbyte : R.bytes s = front ++ [0] ++ back := by
        rw [hs, List.append_assoc]
        rfl
      have hload := @load_run _ _ _ wild _ _ _ _ front.length 1 hbyte rfl rfl
      rw [strlen, bind_run hload]
      rfl
  | cons c l ih =>
    cases fuel with
    | zero => exact absurd hfuel (Nat.not_lt_zero _)
    | succ fuel =>
      have hc : c ≠ 0 := fun h => htext (h ▸ List.mem_cons_self)
      have hbyte : R.bytes s = front ++ [c] ++ (l ++ 0 :: back) := by
        rw [hs, List.append_assoc]
        rfl
      have hrest : R.bytes s = (front ++ [c]) ++ (l ++ 0 :: back) := hbyte
      have hfuel' : l.length < fuel := Nat.lt_of_succ_lt_succ hfuel
      have ih := ih hrest (fun h => htext (List.mem_cons_of_mem _ h)) hfuel'
      have hvalue : unle [c] ≠ 0 := by
        intro h
        apply hc
        apply UInt8.toNat_inj.mp
        simpa [unle] using h
      have hload := @load_run _ _ _ wild _ _ _ _ front.length 1 hbyte rfl rfl
      rw [List.length_append, List.length_singleton] at ih
      rw [strlen, bind_run hload, if_neg hvalue, bind_run ih]
      rfl

/-- Copying a text down over a gap leaves a gap of the same length behind it. -/
theorem memcpy_run {gap text : List UInt8} (hs : R.bytes s = front ++ gap ++ text ++ back) :
    ∃ gap', gap'.length = gap.length ∧
      memcpy R wild front.length (front.length + gap.length) text.length s =
        .ok ((), R.update s (front ++ text ++ gap' ++ back)) := by
  induction text generalizing s front gap with
  | nil =>
    refine ⟨gap, rfl, ?_⟩
    rw [List.append_nil] at hs ⊢
    rw [← hs, R.update_bytes]
    rfl
  | cons c l ih =>
    -- The byte goes to the front of the gap, which grows at its end by the place of the byte.
    have hload : R.bytes s = (front ++ gap) ++ [c] ++ (l ++ back) := by
      rw [hs]
      simp
    cases hgap : gap ++ [c] with
    | nil => simp at hgap
    | cons x gap₁ =>
      have hlen : gap₁.length = gap.length := by
        have := congrArg List.length hgap
        simpa using this.symm
      have hstore : R.bytes s = front ++ [x] ++ (gap₁ ++ l ++ back) := by
        have hsame : front ++ gap ++ c :: l ++ back = front ++ (gap ++ [c]) ++ l ++ back := by simp
        rw [hs, hsame, hgap]
        simp
      have hmoved : R.bytes (R.update s (front ++ [c] ++ (gap₁ ++ l ++ back))) =
          (front ++ [c]) ++ gap₁ ++ l ++ back := by
        rw [R.bytes_update]
        simp
      rcases ih hmoved with ⟨gap', hgap', hrest⟩
      refine ⟨gap', hgap'.trans hlen, ?_⟩
      have hstart : front.length + gap.length = (front ++ gap).length := by simp
      have hnext : (front ++ [c]).length = front.length + 1 := by simp
      have hsrc : front.length + 1 + gap₁.length = front.length + gap.length + 1 := by omega
      rw [hnext, hsrc, R.update_update] at hrest
      have hread := @loadBytes_run _ _ _ wild _ _ _ _ (front.length + gap.length) 1 hload hstart rfl
      have hwrite := @storeBytes_run _ _ _ wild _ _ _ _ [c] front.length hstore rfl rfl
      rw [List.length_cons, memcpy, bind_run hread, bind_run hwrite, hrest]
      simp

end Runs

end ByteAccess
