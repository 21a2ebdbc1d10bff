import DirectFuse.ByteRange
import DirectFuse.SysioReconcile

/-! Reads and writes of a cruise file (fuse_cruise.c). The cruise library is not part of the
repository: it is a parameter, and what is relied on is that a handle behaves as POSIX says. -/
namespace CruiseIo

open ByteRange SysioState SysioReconcile

/-- What a read or a write answers, and the bytes it put into the caller's buffer. -/
structure Answer (σ : Type) where
  after : σ
  ret : ℤ
  buf : Bytes := []

/-- The calls of the library that move bytes, on its own state. -/
structure Library (σ : Type) where
  read : σ → (fd : ℤ) → (size : ℕ) → Answer σ
  pread : σ → (fd : ℤ) → (size : ℕ) → (offset : ℤ) → Answer σ
  write : σ → (fd : ℤ) → Bytes → Answer σ
  pwrite : σ → (fd : ℤ) → Bytes → (offset : ℤ) → Answer σ

/-- POSIX on one handle of a regular file: `read` and `write` use and advance the handle's own
offset, `pread` and `pwrite` go by the offset they are given and leave it alone. -/
structure Posix {σ : Type} (lib : Library σ) (fd : ℤ) (contents : σ → Bytes)
    (position : σ → ℕ) : Prop where
  read_buf : ∀ s size, (lib.read s fd size).buf = fetch (contents s) (position s) size
  read_ret : ∀ s size, (lib.read s fd size).ret = (lib.read s fd size).buf.length
  read_contents : ∀ s size, contents (lib.read s fd size).after = contents s
  read_position : ∀ s size,
    position (lib.read s fd size).after = position s + (lib.read s fd size).buf.length
  pread_buf : ∀ s size (offset : ℕ), (lib.pread s fd size offset).buf =
    fetch (contents s) offset size
  pread_ret : ∀ s size (offset : ℕ), (lib.pread s fd size offset).ret =
    (lib.pread s fd size offset).buf.length
  pread_contents : ∀ s size (offset : ℕ),
    contents (lib.pread s fd size offset).after = contents s
  pread_position : ∀ s size (offset : ℕ),
    position (lib.pread s fd size offset).after = position s
  write_contents : ∀ s bytes, contents (lib.write s fd bytes).after =
    store 0 (contents s) (position s) bytes
  write_position : ∀ s bytes,
    position (lib.write s fd bytes).after = position s + bytes.length
  pwrite_contents : ∀ s bytes (offset : ℕ), contents (lib.pwrite s fd bytes offset).after =
    store 0 (contents s) offset bytes
  pwrite_position : ∀ s bytes (offset : ℕ),
    position (lib.pwrite s fd bytes offset).after = position s

/-- A file and the offset of one handle. -/
structure Handle where
  contents : Bytes
  position : ℕ
  deriving DecidableEq, Repr

/-- The library with POSIX's own definition of the calls. -/
def posix : Library Handle where
  read s _ size :=
    let got := fetch s.contents s.position size
    ⟨{ s with position := s.position + got.length }, got.length, got⟩
  pread s _ size offset :=
    let got := fetch s.contents offset.toNat size
    ⟨s, got.length, got⟩
  write s _ bytes :=
    ⟨⟨store 0 s.contents s.position bytes, s.position + bytes.length⟩, bytes.length, []⟩
  pwrite s _ bytes offset :=
    ⟨{ s with contents := store 0 s.contents offset.toNat bytes }, bytes.length, []⟩

theorem posix_ok (fd : ℤ) : Posix posix fd Handle.contents Handle.position := by
  constructor <;> intros <;> rfl

variable {σ : Type}

/-- `fuse_cruise_read`: the count goes through a size_t into the int that is returned. -/
def fuseCruiseRead (lib : Library σ) (s : σ) (fh : ℤ) (size : ℕ) (offset : ℤ) : Answer σ :=
  let r := if offset > 0 then lib.pread s fh size offset else lib.read s fh size
  { r with ret := toInt (toSize r.ret) }

/-- `fuse_cruise_write`. -/
def fuseCruiseWrite (lib : Library σ) (s : σ) (fh : ℤ) (buf : Bytes) (offset : ℤ) : Answer σ :=
  let r := if offset > 0 then lib.pwrite s fh buf offset else lib.write s fh buf
  { r with ret := toInt r.ret }

inductive Call where
  | read (size offset : ℕ)
  | write (bytes : Bytes) (offset : ℕ)
  deriving DecidableEq, Repr

def Call.answer (lib : Library σ) (fh : ℤ) (s : σ) : Call → Answer σ
  | .read size offset => fuseCruiseRead lib s fh size offset
  | .write bytes offset => fuseCruiseWrite lib s fh bytes offset

/-- The call does what it is for: a read returns the bytes stored at its stretch and keeps the
file, a write stores its bytes there and keeps the rest. -/
def Right (contents : σ → Bytes) (s : σ) (r : Answer σ) : Call → Prop
  | .read size offset => r.buf.take r.ret.toNat = fetch (contents s) offset size ∧
      contents r.after = contents s
  | .write bytes offset => contents r.after = store 0 (contents s) offset bytes

/-- Every call of a sequence does what it is for. -/
def AllRight (lib : Library σ) (fh : ℤ) (contents : σ → Bytes) : σ → List Call → Prop
  | _, [] => True
  | s, c :: cs => Right contents s (c.answer lib fh s) c ∧
      AllRight lib fh contents (c.answer lib fh s).after cs

/-- What a caller fixes of a call: everything but the bytes it writes. -/
inductive Plan where
  | read (size offset : ℕ)
  | write (size offset : ℕ)
  deriving DecidableEq, Repr

def Call.plan : Call → Plan
  | .read size offset => .read size offset
  | .write bytes offset => .write bytes.length offset

/-- A call that moves the handle's own offset. -/
def Plan.streams : Plan → Bool
  | .read size offset => offset == 0 && size != 0
  | .write size offset => offset == 0 && size != 0

/-- The count of a read fits the int that is returned. -/
def Plan.Fits : Plan → Prop
  | .read size _ => size < 2 ^ 31
  | .write _ _ => True

instance (p : Plan) : Decidable p.Fits := by
  cases p <;> unfold Plan.Fits <;> infer_instance

/-- At most one call of the sequence moves the handle's own offset, and no read is for 2 GiB or
more. -/
def Settled (plans : List Plan) : Prop :=
  plans.countP Plan.streams ≤ 1 ∧ ∀ p ∈ plans, p.Fits

instance (plans : List Plan) : Decidable (Settled plans) :=
  inferInstanceAs (Decidable (_ ∧ _))

theorem toInt_lt (x : ℤ) : toInt x < 2 ^ 31 := by
  have := @Int.bmod_lt x (2 ^ 32) (by omega)
  unfold toInt
  omega

/-- A count below 2 GiB passes through the size_t and the int unchanged. -/
theorem toInt_count {n : ℕ} (h : n < 2 ^ 31) : (toInt (toSize (n : ℤ))).toNat = n := by
  have hs : toSize (n : ℤ) = n := by
    unfold toSize
    omega
  rw [hs, toInt, Int.bmod_eq_of_le (by omega) (by omega), Int.toNat_natCast]

section Posix

variable {lib : Library σ} {fh : ℤ} {contents : σ → Bytes} {position : σ → ℕ}

/-- A read that returned the bytes of its stretch. -/
theorem right_read {s : σ} {r : Answer σ} {size offset : ℕ} (fits : size < 2 ^ 31)
    (hbuf : r.buf = fetch (contents s) offset size) (hret : r.ret = r.buf.length)
    (hkeep : contents r.after = contents s) :
    Right contents s { r with ret := toInt (toSize r.ret) } (.read size offset) := by
  have hlen : r.buf.length ≤ size := by
    rw [hbuf, fetch_length]
    omega
  have hcount : (toInt (toSize r.ret)).toNat = r.buf.length := by
    rw [hret, toInt_count (by omega)]
  simp only [Right]
  rw [hcount, List.take_length]
  exact ⟨hbuf, hkeep⟩

/-- A call is right when it goes by the offset it was given, or the handle's own is 0. -/
theorem call_right (h : Posix lib fh contents position) {s : σ} {c : Call}
    (fits : c.plan.Fits) (aligned : c.plan.streams = true → position s = 0) :
    Right contents s (c.answer lib fh s) c := by
  cases c with
  | read size offset =>
    have fits : size < 2 ^ 31 := fits
    by_cases hpos : (offset : ℤ) > 0
    · have hr := @right_read _ contents s (lib.pread s fh size offset) size offset fits
        (h.pread_buf ..) (h.pread_ret ..) (h.pread_contents ..)
      simpa only [Call.answer, fuseCruiseRead, if_pos hpos] using hr
    · have hoff : offset = 0 := by omega
      subst hoff
      have hbuf : (lib.read s fh size).buf = fetch (contents s) 0 size := by
        rw [h.read_buf]
        by_cases hsize : size = 0
        · rw [hsize, fetch_none, fetch_none]
        · rw [aligned (by simp [Call.plan, Plan.streams, hsize])]
      have hr := @right_read _ contents s (lib.read s fh size) size 0 fits
        hbuf (h.read_ret ..) (h.read_contents ..)
      simpa only [Call.answer, fuseCruiseRead, if_neg hpos] using hr
  | write bytes offset =>
    by_cases hpos : (offset : ℤ) > 0
    · simpa only [Call.answer, fuseCruiseWrite, if_pos hpos, Right] using
        h.pwrite_contents s bytes offset
    · have hoff : offset = 0 := by omega
      subst hoff
      have hstore : contents (lib.write s fh bytes).after = store 0 (contents s) 0 bytes := by
        rw [h.write_contents]
        by_cases hbytes : bytes = []
        · rw [hbytes, store_nil, store_nil]
        · rw [aligned (by simp [Call.plan, Plan.streams, hbytes])]
      simpa only [Call.answer, fuseCruiseWrite, if_neg hpos, Right] using hstore

/-- Only a streaming call moves the handle's own offset. -/
theorem call_position (h : Posix lib fh contents position) {s : σ} {c : Call}
    (still : c.plan.streams = false) : position (c.answer lib fh s).after = position s := by
  cases c with
  | read size offset =>
    by_cases hpos : (offset : ℤ) > 0
    · simpa only [Call.answer, fuseCruiseRead, if_pos hpos] using h.pread_position s size offset
    · have hsize : size = 0 := by
        simp [Call.plan, Plan.streams] at still
        omega
      have hstay := h.read_position s size
      rw [h.read_buf, hsize, fetch_none, List.length_nil, Nat.add_zero] at hstay
      simpa only [Call.answer, fuseCruiseRead, if_neg hpos, hsize] using hstay
  | write bytes offset =>
    by_cases hpos : (offset : ℤ) > 0
    · simpa only [Call.answer, fuseCruiseWrite, if_pos hpos] using h.pwrite_position s bytes offset
    · have hbytes : bytes = [] := by
        simp [Call.plan, Plan.streams] at still
        exact still (by omega)
      have hstay := h.write_position s bytes
      rw [hbytes, List.length_nil, Nat.add_zero] at hstay
      simpa only [Call.answer, fuseCruiseWrite, if_neg hpos, hbytes] using hstay

/-- The run: as long as the handle's own offset is 0, one streaming call may still come. -/
theorem calls_right (h : Posix lib fh contents position) (calls : List Call) (s : σ)
    (fits : ∀ c ∈ calls, c.plan.Fits)
    (room : (calls.map Call.plan).countP Plan.streams ≤ if position s = 0 then 1 else 0) :
    AllRight lib fh contents s calls := by
  induction calls generalizing s with
  | nil => trivial
  | cons c cs ih =>
    rw [List.map_cons, List.countP_cons] at room
    have hrest : ∀ d ∈ cs, d.plan.Fits := fun d hd => fits d (List.mem_cons_of_mem _ hd)
    constructor
    · apply call_right h (fits c List.mem_cons_self)
      intro hstream
      by_contra hpos
      rw [if_pos hstream, if_neg hpos] at room
      omega
    · apply ih _ hrest
      by_cases hstream : c.plan.streams = true
      · have hnone : (cs.map Call.plan).countP Plan.streams = 0 := by
          rw [if_pos hstream] at room
          split at room <;> omega
        omega
      · rw [call_position h (by simpa using hstream)]
        rw [if_neg hstream] at room
        omega

end Posix

section Marks

/-! A sequence that is not settled goes wrong on a file whose first byte is unlike all others. -/

/-- The bytes of a stretch of such a file. -/
def mark (off n : ℕ) : Bytes := (List.range n).map fun i => if off + i = 0 then 0 else 1

def Plan.mark : Plan → Call
  | .read size offset => .read size offset
  | .write size offset => .write (CruiseIo.mark offset size) offset

/-- How far a plan reaches, wherever it starts from. -/
def Plan.reach : Plan → ℕ
  | .read size offset => offset + size
  | .write size offset => offset + size

@[simp] theorem mark_length (off n : ℕ) : (mark off n).length = n := by
  simp [mark]

theorem mark_get (off n i : ℕ) :
    (mark off n)[i]? = if i < n then some (if off + i = 0 then 0 else 1) else none := by
  rw [mark, List.getElem?_map]
  by_cases hi : i < n
  · rw [if_pos hi, List.getElem?_range hi, Option.map_some]
  · rw [if_neg hi, List.getElem?_eq_none (by simp; omega), Option.map_none]

theorem mark_first {n : ℕ} (h : 0 < n) : (mark 0 n)[0]? = some 0 := by
  rw [mark_get, if_pos h, if_pos rfl]

theorem mark_later {off n i : ℕ} (h : i < n) (hi : 0 < off + i) : (mark off n)[i]? = some 1 := by
  rw [mark_get, if_pos h, if_neg (by omega)]

theorem mark_ne_nil {off n : ℕ} (h : 0 < n) : mark off n ≠ [] := by
  intro hnil
  have hlen := mark_length off n
  rw [hnil, List.length_nil] at hlen
  omega

@[simp] theorem mark_plan (p : Plan) : p.mark.plan = p := by
  cases p <;> simp [Plan.mark, Call.plan]

theorem marks_plan (plans : List Plan) : (plans.map Plan.mark).map Call.plan = plans := by
  rw [List.map_map]
  exact List.map_id'' mark_plan plans

/-- Marks stored at their own place change nothing. -/
theorem store_mark {len off n : ℕ} (h : off + n ≤ len) :
    store 0 (mark 0 len) off (mark off n) = mark 0 len := by
  by_cases hn : n = 0
  · rw [hn]
    exact store_nil 0 (mark 0 len) off
  · apply List.ext_getElem?
    intro i
    rw [store_get (mark_ne_nil (by omega)), mark_length, mark_length]
    by_cases hlow : i < off
    · rw [if_pos hlow, if_pos (by omega)]
    · rw [if_neg hlow]
      by_cases hmid : i < off + n
      · have hplace : off + (i - off) = 0 + i := by omega
        have hin : i - off < n := by omega
        have hlen : i < len := by omega
        rw [if_pos hmid, mark_get, mark_get, if_pos hin, if_pos hlen, hplace]
      · rw [if_neg hmid]

/-- On a marked file a streaming read away from the start returns the wrong bytes. -/
theorem fetch_mark_ne {len q n m : ℕ} (hq : 0 < q) (hlen : q < len) (hn : 0 < n) :
    (fetch (mark 0 len) q n).take m ≠ fetch (mark 0 len) 0 n := by
  intro heq
  have hgot : (fetch (mark 0 len) q n)[0]? = some 1 := by
    rw [fetch_get, if_pos hn, mark_later (by omega) (by omega)]
  have hwanted : ((fetch (mark 0 len) q n).take m)[0]? = some 0 := by
    rw [heq, fetch_get, if_pos hn, mark_first (by omega)]
  rw [List.getElem?_take, hgot] at hwanted
  split at hwanted <;> simp at hwanted

/-- A streaming write away from the start puts its first byte in the wrong place. -/
theorem store_mark_ne {len q n : ℕ} (hq : 0 < q) (hlen : q < len) (hn : 0 < n) :
    store 0 (mark 0 len) q (mark 0 n) ≠ store 0 (mark 0 len) 0 (mark 0 n) := by
  intro heq
  have hgot : (store 0 (mark 0 len) q (mark 0 n))[q]? = some 0 := by
    rw [store_get (mark_ne_nil hn), if_neg (by omega), mark_length, if_pos (by omega),
      Nat.sub_self, mark_first hn]
  have hwanted : (store 0 (mark 0 len) 0 (mark 0 n))[q]? = some 1 := by
    rw [store_get (mark_ne_nil hn), if_neg (by omega), mark_length]
    by_cases hin : q < 0 + n
    · rw [if_pos hin, mark_later (by omega) (by omega)]
    · rw [if_neg hin, mark_later (by omega) (by omega)]
  rw [heq, hwanted] at hgot
  simp at hgot

/-- What went through the int is below 2 GiB. -/
theorem count_fits {buf : Bytes} {x : ℤ} {n : ℕ} (h : (buf.take (toInt x).toNat).length = n) :
    n < 2 ^ 31 := by
  rw [List.length_take] at h
  have := toInt_lt x
  omega

/-- A read that is right on a marked file fits, and streams only from the start. -/
theorem right_marked_read {fh : ℤ} {len q size offset : ℕ} (hreach : q + (offset + size) < len)
    (right : Right Handle.contents ⟨mark 0 len, q⟩
      (fuseCruiseRead posix ⟨mark 0 len, q⟩ fh size offset) (.read size offset)) :
    size < 2 ^ 31 ∧ (offset = 0 → 0 < size → q = 0) := by
  have hbytes := right.1
  rw [fuseCruiseRead] at hbytes
  constructor
  · apply count_fits
    rw [hbytes, fetch_length, mark_length]
    omega
  · rintro rfl hsize
    by_contra hq
    rw [if_neg (by simp)] at hbytes
    exact @fetch_mark_ne len q size _ (by omega) (by omega) hsize hbytes

/-- The same of a write, and the file keeps its marks. -/
theorem right_marked_write {fh : ℤ} {len q size offset : ℕ} (hreach : q + (offset + size) < len)
    (right : Right Handle.contents ⟨mark 0 len, q⟩
      (fuseCruiseWrite posix ⟨mark 0 len, q⟩ fh (mark offset size) offset)
      (.write (mark offset size) offset)) :
    (fuseCruiseWrite posix ⟨mark 0 len, q⟩ fh (mark offset size) offset).after.contents =
      mark 0 len ∧ (offset = 0 → 0 < size → q = 0) := by
  constructor
  · exact right.trans (store_mark (by omega))
  · rintro rfl hsize
    by_contra hq
    rw [Right, fuseCruiseWrite, if_neg (by simp)] at right
    exact @store_mark_ne len q size (by omega) (by omega) hsize right

/-- What a call on a marked file leaves behind when it was right. -/
structure Kept (len q : ℕ) (p : Plan) (after : Handle) : Prop where
  fits : p.Fits
  start : p.streams = true → q = 0
  marks : after.contents = mark 0 len
  near : after.position ≤ q + p.reach
  moved : p.streams = true → 0 < after.position
  ahead : 0 < q → 0 < after.position

theorem right_marked {fh : ℤ} {len q : ℕ} {p : Plan} (hreach : q + p.reach < len)
    (right : Right Handle.contents ⟨mark 0 len, q⟩ (p.mark.answer posix fh ⟨mark 0 len, q⟩)
      p.mark) : Kept len q p (p.mark.answer posix fh ⟨mark 0 len, q⟩).after := by
  cases p with
  | read size offset =>
    have hreach : q + (offset + size) < len := hreach
    rcases right_marked_read hreach right with ⟨hfits, hstart⟩
    have hmarks := right.2
    change Kept len q _ (fuseCruiseRead posix ⟨mark 0 len, q⟩ fh size offset).after
    by_cases hpos : (offset : ℤ) > 0
    · rw [fuseCruiseRead, if_pos hpos]
      refine ⟨hfits, ?_, rfl, Nat.le_add_right .., ?_, id⟩ <;> intro hstream <;>
        simp [Plan.streams] at hstream <;> omega
    · rw [fuseCruiseRead, if_neg hpos]
      have hmoved : (posix.read ⟨mark 0 len, q⟩ fh size).after.position = q + size := by
        change q + (fetch (mark 0 len) q size).length = q + size
        rw [fetch_length, mark_length]
        omega
      constructor
      · exact hfits
      · intro hstream
        simp [Plan.streams] at hstream
        exact hstart hstream.1 (by omega)
      · rfl
      · simp only [hmoved, Plan.reach]
        omega
      · intro hstream
        simp [Plan.streams] at hstream
        simp only [hmoved]
        omega
      · intro hq
        simp only [hmoved]
        omega
  | write size offset =>
    have hreach : q + (offset + size) < len := hreach
    rcases right_marked_write hreach right with ⟨hmarks, hstart⟩
    change Kept len q _ (fuseCruiseWrite posix ⟨mark 0 len, q⟩ fh (mark offset size) offset).after
    have hfits : (Plan.write size offset).Fits := trivial
    by_cases hpos : (offset : ℤ) > 0
    · rw [fuseCruiseWrite, if_pos hpos] at hmarks ⊢
      refine ⟨hfits, ?_, hmarks, Nat.le_add_right .., ?_, id⟩ <;> intro hstream <;>
        simp [Plan.streams] at hstream <;> omega
    · rw [fuseCruiseWrite, if_neg hpos] at hmarks ⊢
      have hmoved :
          (posix.write ⟨mark 0 len, q⟩ fh (mark offset size)).after.position = q + size := by
        change q + (mark offset size).length = q + size
        rw [mark_length]
      constructor
      · exact hfits
      · intro hstream
        simp [Plan.streams] at hstream
        exact hstart hstream.1 (by omega)
      · exact hmarks
      · simp only [hmoved, Plan.reach]
        omega
      · intro hstream
        simp [Plan.streams] at hstream
        simp only [hmoved]
        omega
      · intro hq
        simp only [hmoved]
        omega

/-- The run on a marked file that is longer than all calls together reach. -/
theorem marked_settled {fh : ℤ} {len : ℕ} (plans : List Plan) (q : ℕ)
    (hreach : q + (plans.map Plan.reach).sum < len)
    (right : AllRight posix fh Handle.contents ⟨mark 0 len, q⟩ (plans.map Plan.mark)) :
    plans.countP Plan.streams ≤ (if q = 0 then 1 else 0) ∧ ∀ p ∈ plans, p.Fits := by
  induction plans generalizing q with
  | nil => simp
  | cons p ps ih =>
    rw [List.map_cons, List.sum_cons] at hreach
    rcases right with ⟨hfirst, hrest⟩
    have kept := right_marked (by omega) hfirst
    generalize (p.mark.answer posix fh ⟨mark 0 len, q⟩).after = after at kept hrest
    have hafter : after = ⟨mark 0 len, after.position⟩ := by
      rw [← kept.marks]
    rw [hafter] at hrest
    have hnear := kept.near
    rcases ih after.position (by omega) hrest with ⟨hcount, hfits⟩
    constructor
    · rw [List.countP_cons]
      by_cases hstream : p.streams = true
      · have hmoved := kept.moved hstream
        rw [if_neg (by omega)] at hcount
        rw [if_pos hstream, if_pos (kept.start hstream)]
        omega
      · rw [if_neg hstream]
        by_cases hq : q = 0
        · rw [if_pos hq]
          split at hcount <;> omega
        · have hahead := kept.ahead (by omega)
          rw [if_neg (by omega)] at hcount
          rw [if_neg hq]
          omega
    · intro d hd
      rcases List.mem_cons.mp hd with rfl | hd
      · exact kept.fits
      · exact hfits d hd

end Marks

/-- Through every library that keeps to POSIX, from an opened handle and whatever the file holds
and the writes carry, each call does what it is for: exactly the settled sequences. -/
theorem cruise_positional_io (plans : List Plan) :
    (∀ (σ : Type) (lib : Library σ) (fh : ℤ) (contents : σ → Bytes) (position : σ → ℕ),
      Posix lib fh contents position → ∀ s, position s = 0 →
        ∀ calls, calls.map Call.plan = plans → AllRight lib fh contents s calls) ↔
    Settled plans := by
  constructor
  · intro all
    have right := all Handle posix 0 Handle.contents Handle.position (posix_ok 0)
      ⟨mark 0 ((plans.map Plan.reach).sum + 1), 0⟩ rfl _ (marks_plan plans)
    exact marked_settled plans 0 (by omega) right
  · rintro ⟨hcount, hfits⟩ σ lib fh contents position h s hstart calls rfl
    apply calls_right h
    · intro c hc
      exact hfits _ (List.mem_map_of_mem hc)
    · rw [if_pos hstart]
      exact hcount

/-- Six bytes written at the start and read from there again: the read is empty. -/
theorem stream_after_write :
    ¬ ∀ (σ : Type) (lib : Library σ) (fh : ℤ) (contents : σ → Bytes) (position : σ → ℕ),
      Posix lib fh contents position → ∀ s, position s = 0 →
        ∀ calls, AllRight lib fh contents s calls := by
  intro all
  have right := all Handle posix 3 Handle.contents Handle.position (posix_ok 3) ⟨[], 0⟩ rfl
    [.write [48, 48, 48, 48, 48, 49] 0, .read 6 0]
  exact absurd right.2.1.1 (by decide)

end CruiseIo
