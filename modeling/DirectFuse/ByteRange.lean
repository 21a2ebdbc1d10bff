import Mathlib.Algebra.Order.Ring.Int
import Mathlib.Data.List.Range
import Mathlib.Data.Nat.Notation

/-! Stretches of a finite sequence: reading one, and writing one in place. -/
namespace ByteRange

variable {β : Type}

/-- The `n` places from `off` on, cut at the end. -/
def fetch (file : List β) (off n : ℕ) : List β := (file.drop off).take n

/-- Puts `new` at `off`. A hole between the end and `off` is filled, and writing nothing
changes nothing. -/
def store (fill : β) (file : List β) (off : ℕ) (new : List β) : List β :=
  if new = [] then file
  else file.take off ++ List.replicate (off - file.length) fill ++ new ++
    file.drop (off + new.length)

theorem fetch_length (file : List β) (off n : ℕ) :
    (fetch file off n).length = min n (file.length - off) := by
  simp [fetch]

theorem fetch_get (file : List β) (off n i : ℕ) :
    (fetch file off n)[i]? = if i < n then file[off + i]? else none := by
  rw [fetch, List.getElem?_take]
  by_cases hi : i < n
  · rw [if_pos hi, if_pos hi, List.getElem?_drop]
  · rw [if_neg hi, if_neg hi]

@[simp] theorem fetch_none (file : List β) (off : ℕ) : fetch file off 0 = [] := by
  simp [fetch]

@[simp] theorem store_nil (fill : β) (file : List β) (off : ℕ) : store fill file off [] = file :=
  if_pos rfl

theorem store_get {fill : β} {file new : List β} (hnew : new ≠ []) (off i : ℕ) :
    (store fill file off new)[i]? =
      if i < off then (if i < file.length then file[i]? else some fill)
      else if i < off + new.length then new[i - off]? else file[i]? := by
  have hpad : (file.take off ++ List.replicate (off - file.length) fill).length = off := by
    simp; omega
  rw [store, if_neg hnew]
  by_cases hlow : i < off
  · rw [if_pos hlow, List.append_assoc, List.getElem?_append_left (by omega)]
    by_cases hin : i < file.length
    · rw [if_pos hin, List.getElem?_append_left (by simp; omega), List.getElem?_take_of_lt hlow]
    · rw [if_neg hin, List.getElem?_append_right (by simp; omega), List.getElem?_replicate,
        if_pos (by simp; omega)]
  · rw [if_neg hlow]
    by_cases hmid : i < off + new.length
    · rw [if_pos hmid, List.getElem?_append_left (by rw [List.length_append]; omega),
        List.getElem?_append_right (by omega), hpad]
    · rw [if_neg hmid, List.getElem?_append_right (by rw [List.length_append]; omega),
        List.getElem?_drop, List.length_append, hpad]
      congr 1
      omega

/-- What was stored is read back. -/
theorem fetch_store (fill : β) (file : List β) (off : ℕ) (new : List β) :
    fetch (store fill file off new) off new.length = new := by
  by_cases hnew : new = []
  · subst hnew
    simp
  · apply List.ext_getElem?
    intro i
    rw [fetch_get]
    by_cases hi : i < new.length
    · rw [if_pos hi, store_get hnew, if_neg (by omega), if_pos (by omega), Nat.add_sub_cancel_left]
    · rw [if_neg hi, List.getElem?_eq_none (by omega)]

/-- Storing keeps every place outside the stretch. -/
theorem store_outside {fill : β} {file new : List β} {off i : ℕ} (hin : i < file.length)
    (hout : i < off ∨ off + new.length ≤ i) : (store fill file off new)[i]? = file[i]? := by
  by_cases hnew : new = []
  · rw [hnew, store_nil]
  · rw [store_get hnew]
    rcases hout with hlow | hhigh
    · rw [if_pos hlow, if_pos hin]
    · rw [if_neg (by omega), if_neg (by omega)]

theorem store_length {fill : β} {file new : List β} {off : ℕ}
    (h : off + new.length ≤ file.length) : (store fill file off new).length = file.length := by
  rw [store]
  split_ifs with hnew
  · rfl
  · simp only [List.length_append, List.length_take, List.length_replicate, List.length_drop]
    omega

/-- Storing one value sets its place. -/
theorem store_one {fill c : β} {file : List β} {off : ℕ} (h : off < file.length) :
    store fill file off [c] = file.set off c := by
  apply List.ext_getElem?
  intro i
  rw [List.getElem?_set, store_get (List.cons_ne_nil c [])]
  by_cases low : i < off
  · rw [if_neg (Nat.ne_of_gt low), if_pos low, if_pos (by omega)]
  · by_cases here : off = i
    · subst here
      rw [if_neg low, if_pos (by simp), Nat.sub_self]
      simp [h]
    · rw [if_neg here, if_neg low, if_neg (by simp; omega)]

/-- Storing two stretches that follow each other. -/
theorem store_store {fill : β} {file new more : List β} {off : ℕ}
    (h : off + new.length + more.length ≤ file.length) :
    store fill (store fill file off new) (off + new.length) more =
      store fill file off (new ++ more) := by
  by_cases hm : more = []
  · rw [hm, store_nil, List.append_nil]
  by_cases hn : new = []
  · rw [hn, store_nil, List.length_nil, Nat.add_zero, List.nil_append]
  have len : (store fill file off new).length = file.length := store_length (by omega)
  apply List.ext_getElem?
  intro i
  rw [store_get hm, store_get (List.append_ne_nil_of_left_ne_nil hn more), store_get hn, len,
    List.length_append]
  rcases Nat.lt_or_ge i off with low | low
  · rw [if_pos (by omega), if_pos (by omega), if_pos low, if_pos (by omega), if_pos low]
  · rw [if_neg (Nat.not_lt.mpr low), if_neg (Nat.not_lt.mpr low)]
    rcases Nat.lt_or_ge i (off + new.length) with mid | mid
    · rw [if_pos mid, if_pos (by omega), if_pos mid, if_pos (by omega),
        List.getElem?_append_left (by omega)]
    · rw [if_neg (Nat.not_lt.mpr mid), if_neg (Nat.not_lt.mpr mid), ← Nat.add_assoc,
        List.getElem?_append_right (by omega), Nat.sub_add_eq]

/-- The stretch between two parts of a file. -/
theorem fetch_middle (front mid back : List β) :
    fetch (front ++ mid ++ back) front.length mid.length = mid := by
  rw [fetch, List.append_assoc, List.drop_left, List.take_left]

/-- Storing over a part of its own length replaces that part. -/
theorem store_middle (fill : β) (front mid back : List β) {new : List β}
    (h : new.length = mid.length) :
    store fill (front ++ mid ++ back) front.length new = front ++ new ++ back := by
  by_cases hnew : new = []
  · have hmid : mid = [] := by
      rw [hnew, List.length_nil] at h
      exact List.length_eq_zero_iff.mp h.symm
    rw [hnew, hmid, store_nil]
  · have hnone : front.length - (front ++ mid ++ back).length = 0 := by
      simp
    have hlong : front.length + new.length = (front ++ mid).length := by
      rw [List.length_append, h]
    rw [store, if_neg hnew, hnone, List.replicate_zero, List.append_nil, hlong,
      List.append_assoc front mid, List.take_left, ← List.append_assoc front mid, List.drop_left]

/-! Numbers of a fixed width, the low byte first. -/

def le : ℕ → ℕ → List UInt8
  | 0, _ => []
  | k + 1, n => UInt8.ofNat n :: le k (n / 256)

def unle : List UInt8 → ℕ
  | [] => 0
  | b :: l => b.toNat + 256 * unle l

@[simp] theorem le_length (k n : ℕ) : (le k n).length = k := by
  induction k generalizing n with
  | zero => rfl
  | succ k ih => rw [le, List.length_cons, ih]

theorem unle_le (k n : ℕ) : unle (le k n) = n % 256 ^ k := by
  induction k generalizing n with
  | zero => simp [le, unle, Nat.mod_one]
  | succ k ih =>
    rw [le, unle, ih, Nat.pow_succ', Nat.mod_mul, UInt8.toNat_ofNat']

end ByteRange
