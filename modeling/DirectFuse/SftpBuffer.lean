import DirectFuse.ByteAccess
import DirectFuse.Codec
import DirectFuse.FuseDirectory
import Mathlib.Data.List.TakeWhile

/-! The buffers that requests and replies of the sftp driver (drivers/sshfs/sshfs.c) are made in and
taken apart in. Numbers stand in them with the high byte first. -/
namespace SftpBuffer

open ExecLogic ByteRange ByteAccess SysioState Codec
open FuseDirectory (Heap)

/-- `struct buffer`. `p` are the `size` bytes behind the pointer, and `len` is how many of them are
filled, or have been read. -/
structure Buffer where
  p : Bytes
  len : ℕ
  size : ℕ
  deriving DecidableEq, Repr

abbrev Sb (α : Type) := Exec Buffer Fault α

/-- The memory behind the pointer. -/
def mem : Region Buffer where
  bytes b := b.p
  update b l := { b with p := l }
  bytes_update _ _ := rfl
  update_update _ _ _ := rfl
  update_bytes _ := rfl

section Adding

/-- `buf_resize`. The new bytes hold whatever the allocator left there. -/
def bufResize (h : Heap) (len : ℕ) : Sb Unit := do
  Exec.write fun b => { b with size := (b.len + len + 63) % 2 ^ 64 / 32 * 32 }
  Exec.check .abort fun b => h.got && decide (b.size < 2 ^ 63)
  Exec.write fun b =>
    { b with p := b.p.take b.size ++ (List.range (b.size - b.p.length)).map h.junk }

/-- `buf_check_add`. -/
def bufCheckAdd (h : Heap) (len : ℕ) : Sb Unit := do
  let b ← Exec.read fun b => b
  Exec.when (b.size < (b.len + len) % 2 ^ 64) (bufResize h len)

/-- `buf_add_mem`. -/
def bufAddMem (h : Heap) (data : Bytes) : Sb Unit := do
  bufCheckAdd h data.length
  let b ← Exec.read fun b => b
  storeBytes mem .wild b.len data
  Exec.write fun b => { b with len := b.len + data.length }

/-- `buf_add_uint8`. -/
def bufAddUint8 (h : Heap) (val : ℕ) : Sb Unit := bufAddMem h (be 1 val)

/-- `buf_add_uint32`. -/
def bufAddUint32 (h : Heap) (val : ℕ) : Sb Unit := bufAddMem h (be 4 val)

/-- `buf_add_uint64`. -/
def bufAddUint64 (h : Heap) (val : ℕ) : Sb Unit := do
  bufAddUint32 h (val >>> 32)
  bufAddUint32 h (val &&& 0xffffffff)

/-- `buf_add_data`. -/
def bufAddData (h : Heap) (data : Bytes) : Sb Unit := do
  bufAddUint32 h data.length
  bufAddMem h data

/-- The bytes of a string, up to its NUL. -/
def cString (s : Bytes) : Bytes := s.takeWhile (· != 0)

/-- `buf_add_string`. -/
def bufAddString (h : Heap) (str : Bytes) : Sb Unit := bufAddData h (cString str)

/-- `realpath` in `buf_add_path`: the path below the directory that is mounted. -/
def realPath (basePath path : Bytes) : Bytes :=
  if basePath ≠ [] then
    if 1 < path.length then
      if basePath.getLast? ≠ some PATH_SEPARATOR then basePath ++ [PATH_SEPARATOR] ++ path.drop 1
      else basePath ++ path.drop 1
    else basePath
  else if 1 < path.length then path.drop 1
  else [46]

/-- `buf_add_path`. -/
def bufAddPath (h : Heap) (basePath path : Bytes) : Sb Unit := bufAddString h (realPath basePath path)

end Adding

section Getting

/-- `buf_check_get`. -/
def bufCheckGet (len : ℕ) : Sb Bool := Exec.read fun b => decide ((b.len + len) % 2 ^ 64 ≤ b.size)

/-- `buf_get_mem`; `none` stands for -1. -/
def bufGetMem (len : ℕ) : Sb (Option Bytes) := do
  let enough ← bufCheckGet len
  if !enough then
    return none
  else
    let b ← Exec.read fun b => b
    let data ← loadBytes mem .wild b.len len
    Exec.write fun b => { b with len := b.len + len }
    return some data

def bufGetNumber (len : ℕ) : Sb (Option ℕ) :=
  andRead (bufGetMem len) fun data => return some (unbe data)

/-- `buf_get_uint8`. -/
def bufGetUint8 : Sb (Option ℕ) := bufGetNumber 1

/-- `buf_get_uint32`. -/
def bufGetUint32 : Sb (Option ℕ) := bufGetNumber 4

/-- `buf_get_uint64`. -/
def bufGetUint64 : Sb (Option ℕ) :=
  andRead bufGetUint32 fun val1 => andRead bufGetUint32 fun val2 =>
    return some ((val1 <<< 32) % 2 ^ 64 + val2)

/-- `buf_init`, for memory that is all written over. -/
def bufInit (h : Heap) (size : ℕ) : Sb Unit :=
  Exec.when (size ≠ 0) (Exec.check .abort fun _ => h.got)

/-- `buf_get_data`. The memory for the data is one byte longer, for the NUL of a string; the length
of it is computed in 32 bits. -/
def bufGetData (h : Heap) : Sb (Option Bytes) :=
  andRead bufGetUint32 fun len => do
    let b ← Exec.read fun b => b
    if (b.size + 2 ^ 64 - b.len) % 2 ^ 64 < len then
      return none
    else
      bufInit h ((len + 1) % 2 ^ 32)
      Exec.check .wild fun _ => decide (len < (len + 1) % 2 ^ 32)
      bufGetMem len

/-- `buf_get_string`. -/
def bufGetString (h : Heap) : Sb (Option Bytes) :=
  andRead (bufGetData h) fun data => return some (cString data)

end Getting

section Reading

/-- A buffer to read from: the memory is as long as `size` says. Replies are not longer than 128 kB,
and nothing here needs more than lengths of 32 bits. -/
structure InOrder (b : Buffer) : Prop where
  whole : b.p.length = b.size
  inside : b.len ≤ b.size
  small : b.size < 2 ^ 31

/-- What is left of a buffer. -/
def source : Source Buffer UInt8 where
  rest b := b.p.drop b.len
  sound := InOrder

/-- The words of a length. -/
def word (n : ℕ) : Format Bytes UInt8 := fun d w => d = w ∧ w.length = n

theorem rest_length {b : Buffer} (order : InOrder b) :
    (source.rest b).length = b.size - b.len := by
  change (b.p.drop b.len).length = _
  rw [List.length_drop, order.whole]

theorem bufGetMem_run {b : Buffer} (order : InOrder b) {w r : Bytes}
    (rest : source.rest b = w ++ r) :
    bufGetMem w.length b = .ok (some w, { b with len := b.len + w.length }) := by
  have hlen := rest_length order
  have inside := order.inside
  have small := order.small
  rw [rest, List.length_append] at hlen
  have enough : bufCheckGet w.length b = .ok (true, b) := by
    refine read_ok.mpr ⟨decide_eq_true ?_, rfl⟩
    rw [Nat.mod_eq_of_lt (by omega)]
    omega
  have split : mem.bytes b = b.p.take b.len ++ w ++ r := by
    change b.p = _
    rw [List.append_assoc, ← rest]
    exact (List.take_append_drop b.len b.p).symm
  have start : b.len = (b.p.take b.len).length := by
    rw [List.length_take, order.whole, Nat.min_eq_left inside]
  have load := @loadBytes_run _ _ mem Fault.wild b _ w _ b.len w.length split start rfl
  unfold bufGetMem
  rw [bind_run enough]
  change (Exec.read (fun b : Buffer => b) >>= _) b = _
  rw [bind_run (read_ok.mpr ⟨rfl, rfl⟩), bind_run load]
  rfl

theorem moved_inOrder {b : Buffer} (order : InOrder b) {w r : Bytes}
    (rest : source.rest b = w ++ r) : InOrder { b with len := b.len + w.length } ∧
      source.rest { b with len := b.len + w.length } = r := by
  have hlen := rest_length order
  have inside := order.inside
  rw [rest, List.length_append] at hlen
  constructor
  · refine ⟨order.whole, ?_, order.small⟩
    change b.len + w.length ≤ b.size
    omega
  · change b.p.drop (b.len + w.length) = r
    have hrest : b.p.drop b.len = w ++ r := rest
    rw [← List.drop_drop, hrest, List.drop_left]

theorem bufGetMem_short {b : Buffer} (order : InOrder b) {n : ℕ} (hn : n < 2 ^ 32)
    (short : b.size < b.len + n) : bufGetMem n b = .ok (none, b) := by
  have inside := order.inside
  have small := order.small
  have enough : bufCheckGet n b = .ok (false, b) := by
    refine read_ok.mpr ⟨decide_eq_false ?_, rfl⟩
    rw [Nat.mod_eq_of_lt (by omega)]
    omega
  unfold bufGetMem
  rw [bind_run enough]
  rfl

theorem bufGetMem_reads {n : ℕ} (hn : n < 2 ^ 32) : Reads source (bufGetMem n) (word n) := by
  intro b order
  constructor
  · rintro d w r ⟨rfl, rfl⟩ rest
    obtain ⟨order', rest'⟩ := moved_inOrder order rest
    exact ⟨_, bufGetMem_run order rest, order', rest'⟩
  · intro none_
    refine ⟨b, bufGetMem_short order hn ?_, order⟩
    by_contra room
    apply none_ _ ((source.rest b).take n) ((source.rest b).drop n) ⟨rfl, ?_⟩
    · exact (List.take_append_drop n _).symm
    · rw [List.length_take, rest_length order]
      omega

theorem bufGetNumber_reads {k : ℕ} (hk : k < 2 ^ 32) : Reads source (bufGetNumber k) (number k) := by
  refine reads_congr (reads_seq (bufGetMem_reads hk) fun data => reads_pure (unbe data)) fun n w => ?_
  rw [number_iff]
  constructor
  · rintro ⟨d, u, x, rfl, ⟨rfl, hlen⟩, rfl, rfl⟩
    rw [List.append_nil]
    exact ⟨hlen, rfl⟩
  · rintro ⟨hlen, rfl⟩
    exact ⟨w, w, [], (List.append_nil w).symm, ⟨rfl, hlen⟩, rfl, rfl⟩

theorem bufGetUint32_reads : Reads source bufGetUint32 (number 4) := bufGetNumber_reads (by omega)

theorem bufGetUint64_reads : Reads source bufGetUint64 (number 8) := by
  refine reads_congr (reads_seq bufGetUint32_reads fun val1 => reads_seq bufGetUint32_reads
    fun val2 => reads_pure _) fun n w => ?_
  have shift : ∀ a b : ℕ, a < 256 ^ 4 → (a <<< 32) % 2 ^ 64 + b = a * 256 ^ 4 + b := by
    intro a b ha
    rw [Nat.shiftLeft_eq, Nat.mod_eq_of_lt (by omega)]
    rfl
  constructor
  · rintro ⟨val1, _, x, rfl, ⟨h1, rfl⟩, val2, _, _, rfl, ⟨h2, rfl⟩, rfl, rfl⟩
    rw [shift val1 val2 h1, List.append_nil]
    refine ⟨by omega, ?_⟩
    rw [be_append 4 4, Nat.add_comm, Nat.add_mul_div_right _ _ (by omega), Nat.div_eq_of_lt h2,
      Nat.add_mul_mod_self_right, Nat.mod_eq_of_lt h2, Nat.zero_add]
  · rintro ⟨hn, rfl⟩
    have high : n / 256 ^ 4 < 256 ^ 4 := by omega
    refine ⟨n / 256 ^ 4, _, _, be_append 4 4 n, ⟨high, rfl⟩, n % 256 ^ 4, _, [],
      (List.append_nil _).symm, ⟨Nat.mod_lt _ (by omega), rfl⟩, ?_, rfl⟩
    rw [shift _ _ high]
    exact (Nat.div_add_mod' n _).symm

/-- Data with its length in front. -/
def data : Format Bytes UInt8 := fun d w => d.length < 2 ^ 32 ∧ w = be 4 d.length ++ d

/-- A string with its length in front. What follows a NUL in it is lost. -/
def string : Format Bytes UInt8 := fun str w => ∃ d, data d w ∧ str = cString d

/-- The second half of `buf_get_data`. -/
theorem bufGetBody_reads {h : Heap} (got : h.got = true) (len : ℕ) : Reads source (do
    let b ← Exec.read fun b => b
    if (b.size + 2 ^ 64 - b.len) % 2 ^ 64 < len then
      return none
    else
      bufInit h ((len + 1) % 2 ^ 32)
      Exec.check .wild fun _ => decide (len < (len + 1) % 2 ^ 32)
      bufGetMem len : Sb (Option Bytes)) (word len) := by
  intro b order
  have inside := order.inside
  have small := order.small
  have left : (b.size + 2 ^ 64 - b.len) % 2 ^ 64 = b.size - b.len := by
    have : b.size + 2 ^ 64 - b.len = (b.size - b.len) + 2 ^ 64 := by omega
    rw [this, Nat.add_mod_right, Nat.mod_eq_of_lt (by omega)]
  rw [bind_run (read_ok.mpr ⟨rfl, rfl⟩), left]
  by_cases short : b.size - b.len < len
  · rw [if_pos short]
    constructor
    · rintro d w r ⟨rfl, rfl⟩ rest
      have := rest_length order
      rw [rest, List.length_append] at this
      omega
    · intro _
      exact ⟨b, rfl, order⟩
  · have room : (Exec.check .wild fun _ => decide (len < (len + 1) % 2 ^ 32) : Sb Unit) b =
        .ok ((), b) := by
      refine check_ok.mpr ⟨decide_eq_true ?_, rfl⟩
      rw [Nat.mod_eq_of_lt (by omega)]
      omega
    have init : bufInit h ((len + 1) % 2 ^ 32) b = .ok ((), b) := by
      apply when_ok.mpr
      left
      refine ⟨?_, check_ok.mpr ⟨got, rfl⟩⟩
      omega
    rw [if_neg short, bind_run init, bind_run room]
    exact bufGetMem_reads (by omega) b order

theorem bufGetData_reads {h : Heap} (got : h.got = true) : Reads source (bufGetData h) data := by
  refine reads_congr (reads_seq bufGetUint32_reads (bufGetBody_reads got)) fun d w => ?_
  constructor
  · rintro ⟨len, _, x, rfl, ⟨hlen, rfl⟩, rfl, rfl⟩
    exact ⟨hlen, rfl⟩
  · rintro ⟨hlen, rfl⟩
    exact ⟨d.length, _, d, rfl, ⟨hlen, rfl⟩, rfl, rfl⟩

theorem bufGetString_reads {h : Heap} (got : h.got = true) :
    Reads source (bufGetString h) string := by
  refine reads_congr (reads_seq (bufGetData_reads got) fun d => reads_pure (cString d)) fun str w => ?_
  constructor
  · rintro ⟨d, u, x, rfl, hd, rfl, rfl⟩
    rw [List.append_nil]
    exact ⟨d, hd, rfl⟩
  · rintro ⟨d, hd, rfl⟩
    exact ⟨d, w, [], (List.append_nil w).symm, hd, rfl, rfl⟩

/-- The heap with memory to be had. -/
def granted (h : Heap) : Heap := { h with got := true }

theorem granted_self {h : Heap} (got : h.got = true) : granted h = h := by
  rw [granted, ← got]

theorem bufInit_granted (h : Heap) (size : ℕ) :
    StopsAt .abort (bufInit h size) (bufInit (granted h) size) := by
  intro s
  unfold bufInit Exec.when
  by_cases some_ : size ≠ 0
  · rw [if_pos some_, if_pos some_]
    cases got : h.got with
    | true => exact Or.inl rfl
    | false => exact Or.inr rfl
  · rw [if_neg some_, if_neg some_]
    exact Or.inl rfl

/-- Refused memory does nothing to a reader but abort it. -/
theorem bufGetData_granted (h : Heap) : StopsAt .abort (bufGetData h) (bufGetData (granted h)) := by
  refine stopsAt_andRead (stopsAt_refl _) fun len => stopsAt_bind (stopsAt_refl _) fun b => ?_
  by_cases short : (b.size + 2 ^ 64 - b.len) % 2 ^ 64 < len
  · rw [if_pos short, if_pos short]
    exact stopsAt_refl _
  · rw [if_neg short, if_neg short]
    exact stopsAt_bind (bufInit_granted h _) fun _ => stopsAt_refl _

theorem bufGetString_granted (h : Heap) :
    StopsAt .abort (bufGetString h) (bufGetString (granted h)) :=
  stopsAt_andRead (bufGetData_granted h) fun _ => stopsAt_refl _

/-- What is read with memory to be had is read with any heap, if the reader is not aborted. -/
theorem run_or_abort {α : Type} {h : Heap} {m : Heap → Sb α} {b t : Buffer} {a : α}
    (stops : StopsAt .abort (m h) (m (granted h))) (run : m (granted h) b = .ok (a, t)) :
    m h b = .ok (a, t) ∨ h.got = false ∧ m h b = .error .abort := by
  cases got : h.got with
  | true => exact Or.inl (granted_self got ▸ run)
  | false =>
    rcases stops b with same | stopped
    · exact Or.inl (same.trans run)
    · exact Or.inr ⟨rfl, stopped⟩

end Reading

section Filling

variable {h : Heap} {b : Buffer}

/-- What has been put into a buffer. -/
def filled (b : Buffer) : Bytes := b.p.take b.len

/-- The memory is as long as `size` says, and filled up to `len`. -/
structure InShape (b : Buffer) : Prop where
  whole : b.p.length = b.size
  inside : b.len ≤ b.size

/-- `t` is `b` with `w` put behind what was in it. -/
structure Added (b t : Buffer) (w : Bytes) : Prop where
  shape : InShape t
  filled : filled t = filled b ++ w
  len : t.len = b.len + w.length

theorem added_trans {t u : Buffer} {w x : Bytes} (first : Added b t w) (second : Added t u x) :
    Added b u (w ++ x) := by
  constructor
  · exact second.shape
  · rw [second.filled, first.filled, List.append_assoc]
  · rw [second.len, first.len, List.length_append, Nat.add_assoc]

theorem bufCheckAdd_run (got : h.got = true) (shape : InShape b) {n : ℕ}
    (small : b.len + n < 2 ^ 62) :
    ∃ t, bufCheckAdd h n b = .ok ((), t) ∧ InShape t ∧ filled t = filled b ∧ t.len = b.len ∧
      t.len + n ≤ t.size := by
  have whole := shape.whole
  have inside := shape.inside
  unfold bufCheckAdd
  rw [bind_run (read_ok.mpr ⟨rfl, rfl⟩), Nat.mod_eq_of_lt (by omega)]
  by_cases short : b.size < b.len + n
  · -- the memory moves to a larger place
    let size := (b.len + n + 63) / 32 * 32
    have grown : b.len + n ≤ size ∧ size < 2 ^ 63 := by omega
    have size_eq : (b.len + n + 63) % 2 ^ 64 / 32 * 32 = size := by
      rw [Nat.mod_eq_of_lt (by omega)]
    have wide : (Exec.check .abort fun b => h.got && decide (b.size < 2 ^ 63) : Sb Unit)
        { b with size := size } = .ok ((), { b with size := size }) := by
      refine check_ok.mpr ⟨?_, rfl⟩
      rw [got, Bool.true_and]
      exact decide_eq_true grown.2
    refine ⟨{ b with p := b.p.take size ++ (List.range (size - b.p.length)).map h.junk, size := size },
      when_ok.mpr (Or.inl ⟨short, ?_⟩), ?_, ?_, rfl, grown.1⟩
    · unfold bufResize
      rw [bind_run (a := ()) (write_ok.mpr rfl), size_eq, bind_run wide]
      rfl
    · constructor
      · change (b.p.take size ++ (List.range (size - b.p.length)).map h.junk).length = size
        rw [List.length_append, List.length_take, List.length_map, List.length_range]
        omega
      · change b.len ≤ size
        omega
    · change (b.p.take size ++ (List.range (size - b.p.length)).map h.junk).take b.len = b.p.take b.len
      rw [List.take_append_of_le_length]
      · rw [List.take_take, Nat.min_eq_left (by omega)]
      · rw [List.length_take]
        omega
  · exact ⟨b, when_ok.mpr (Or.inr ⟨short, rfl⟩), shape, rfl, rfl, by omega⟩

theorem bufAddMem_run (got : h.got = true) (shape : InShape b) {d : Bytes}
    (small : b.len + d.length < 2 ^ 62) :
    ∃ t, bufAddMem h d b = .ok ((), t) ∧ Added b t d := by
  obtain ⟨u, hu, ushape, same, len, room⟩ := bufCheckAdd_run got shape small
  have whole := ushape.whole
  have split : mem.bytes u = u.p.take u.len ++ (u.p.drop u.len).take d.length ++
      (u.p.drop u.len).drop d.length := by
    rw [List.append_assoc, List.take_append_drop, List.take_append_drop]
    rfl
  have start : u.len = (u.p.take u.len).length := by
    rw [List.length_take]
    omega
  have mid : d.length = ((u.p.drop u.len).take d.length).length := by
    rw [List.length_take, List.length_drop]
    omega
  have store := @storeBytes_run _ _ mem Fault.wild u _ _ _ d u.len split start mid
  refine ⟨{ u with
      p := u.p.take u.len ++ d ++ (u.p.drop u.len).drop d.length
      len := u.len + d.length }, ?_, ?_⟩
  · unfold bufAddMem
    rw [bind_run hu, bind_run (read_ok.mpr ⟨rfl, rfl⟩), bind_run store]
    rfl
  · have lengths := congrArg List.length split
    rw [List.length_append, List.length_append, ← start, ← mid] at lengths
    have bytes : (mem.bytes u).length = u.size := whole
    constructor
    · constructor
      · change (u.p.take u.len ++ d ++ (u.p.drop u.len).drop d.length).length = u.size
        rw [List.length_append, List.length_append, ← start]
        omega
      · exact room
    · change (u.p.take u.len ++ d ++ (u.p.drop u.len).drop d.length).take (u.len + d.length) = _
      have front : u.len + d.length = (u.p.take u.len ++ d).length := by
        rw [List.length_append, ← start]
      rw [front, List.take_left, ← same]
      rfl
    · change u.len + d.length = _
      rw [len]

/-- One step behind another, with what they put in. -/
theorem add_bind {m : Sb Unit} {f : Unit → Sb Unit} {w x : Bytes}
    (first : ∃ t, m b = .ok ((), t) ∧ Added b t w)
    (second : ∀ t, Added b t w → ∃ u, f () t = .ok ((), u) ∧ Added t u x) :
    ∃ u, (m >>= f) b = .ok ((), u) ∧ Added b u (w ++ x) := by
  obtain ⟨t, ht, added⟩ := first
  obtain ⟨u, hu, added'⟩ := second t added
  refine ⟨u, ?_, added_trans added added'⟩
  rw [bind_run ht]
  exact hu

end Filling

section Fields

/-- What requests and replies are made of. -/
inductive Field where
  | uint8 (val : ℕ)
  | uint32 (val : ℕ)
  | uint64 (val : ℕ)
  | data (d : Bytes)
  deriving DecidableEq, Repr

/-- The value is one of its type. -/
def Field.InRange : Field → Prop
  | .uint8 val => val < 2 ^ 8
  | .uint32 val => val < 2 ^ 32
  | .uint64 val => val < 2 ^ 64
  | .data d => d.length < 2 ^ 32

instance (f : Field) : Decidable f.InRange := by
  cases f <;> unfold Field.InRange <;> infer_instance

/-- The bytes of a field in a message. -/
def Field.word : Field → Bytes
  | .uint8 val => be 1 val
  | .uint32 val => be 4 val
  | .uint64 val => be 8 val
  | .data d => be 4 d.length ++ d

def addField (h : Heap) : Field → Sb Unit
  | .uint8 val => bufAddUint8 h val
  | .uint32 val => bufAddUint32 h val
  | .uint64 val => bufAddUint64 h val
  | .data d => bufAddData h d

/-- Reads a field of the kind of the one given. -/
def getField (h : Heap) : Field → Sb (Option Field)
  | .uint8 _ => andRead bufGetUint8 fun val => return some (.uint8 val)
  | .uint32 _ => andRead bufGetUint32 fun val => return some (.uint32 val)
  | .uint64 _ => andRead bufGetUint64 fun val => return some (.uint64 val)
  | .data _ => andRead (bufGetData h) fun d => return some (.data d)

def addFields (h : Heap) : List Field → Sb Unit
  | [] => return ()
  | f :: l => do
    addField h f
    addFields h l

def getFields (h : Heap) : List Field → Sb (Option (List Field))
  | [] => return some []
  | f :: l => andRead (getField h f) fun g => andRead (getFields h l) fun k => return some (g :: k)

variable {h : Heap}

theorem addField_run (got : h.got = true) {f : Field} (range : f.InRange) {b : Buffer}
    (shape : InShape b) (small : b.len + f.word.length < 2 ^ 62) :
    ∃ t, addField h f b = .ok ((), t) ∧ Added b t f.word := by
  cases f with
  | uint8 val => exact bufAddMem_run got shape small
  | uint32 val => exact bufAddMem_run got shape small
  | uint64 val =>
    have low : val &&& 0xffffffff = val % 256 ^ 4 := Nat.and_two_pow_sub_one_eq_mod val 32
    have high : val >>> 32 = val / 256 ^ 4 := Nat.shiftRight_eq_div_pow val 32
    change ∃ t, bufAddUint64 h val b = .ok ((), t) ∧ Added b t (be (4 + 4) val)
    rw [be_append, ← low, ← high]
    change b.len + (be 8 val).length < 2 ^ 62 at small
    rw [be_length] at small
    refine add_bind (bufAddMem_run got shape ?_) fun t added => bufAddMem_run got added.shape ?_
    · rw [be_length]
      omega
    · rw [added.len, be_length, be_length]
      omega
  | data d =>
    change b.len + (be 4 d.length ++ d).length < 2 ^ 62 at small
    rw [List.length_append, be_length] at small
    refine add_bind (bufAddMem_run got shape ?_) fun t added => bufAddMem_run got added.shape ?_
    · rw [be_length]
      omega
    · rw [added.len, be_length]
      omega

theorem addFields_run (got : h.got = true) {l : List Field} (range : ∀ f ∈ l, f.InRange) {b : Buffer}
    (shape : InShape b) (small : b.len + (l.flatMap Field.word).length < 2 ^ 62) :
    ∃ t, addFields h l b = .ok ((), t) ∧ Added b t (l.flatMap Field.word) := by
  induction l generalizing b with
  | nil =>
    refine ⟨b, rfl, shape, ?_, rfl⟩
    rw [List.flatMap_nil, List.append_nil]
  | cons f l ih =>
    rw [List.flatMap_cons] at small ⊢
    rw [List.length_append] at small
    refine add_bind (addField_run got (range f (List.mem_cons_self ..)) shape (by omega)) ?_
    intro t added
    refine ih (fun g hg => range g (List.mem_cons_of_mem _ hg)) added.shape ?_
    rw [added.len]
    omega

def Field.kind : Field → ℕ
  | .uint8 _ => 0
  | .uint32 _ => 1
  | .uint64 _ => 2
  | .data _ => 3

/-- The format of a field of the kind of `f`. -/
def likeField (f : Field) : Format Field UInt8 := fun g w =>
  g.kind = f.kind ∧ g.InRange ∧ w = g.word

theorem getField_reads (got : h.got = true) (f : Field) :
    Reads source (getField h f) (likeField f) := by
  cases f with
  | uint8 =>
    refine reads_congr (reads_seq (bufGetNumber_reads (by omega)) fun val => reads_pure _) fun g w => ?_
    constructor
    · rintro ⟨val, u, _, rfl, ⟨hval, rfl⟩, rfl, rfl⟩
      exact ⟨rfl, hval, List.append_nil _⟩
    · rintro ⟨kind, range, rfl⟩
      cases g with
      | uint8 val => exact ⟨val, _, [], (List.append_nil _).symm, ⟨range, rfl⟩, rfl, rfl⟩
      | _ => cases kind
  | uint32 =>
    refine reads_congr (reads_seq bufGetUint32_reads fun val => reads_pure _) fun g w => ?_
    constructor
    · rintro ⟨val, u, _, rfl, ⟨hval, rfl⟩, rfl, rfl⟩
      exact ⟨rfl, hval, List.append_nil _⟩
    · rintro ⟨kind, range, rfl⟩
      cases g with
      | uint32 val => exact ⟨val, _, [], (List.append_nil _).symm, ⟨range, rfl⟩, rfl, rfl⟩
      | _ => cases kind
  | uint64 =>
    refine reads_congr (reads_seq bufGetUint64_reads fun val => reads_pure _) fun g w => ?_
    constructor
    · rintro ⟨val, u, _, rfl, ⟨hval, rfl⟩, rfl, rfl⟩
      exact ⟨rfl, hval, List.append_nil _⟩
    · rintro ⟨kind, range, rfl⟩
      cases g with
      | uint64 val => exact ⟨val, _, [], (List.append_nil _).symm, ⟨range, rfl⟩, rfl, rfl⟩
      | _ => cases kind
  | data =>
    refine reads_congr (reads_seq (bufGetData_reads got) fun d => reads_pure _) fun g w => ?_
    constructor
    · rintro ⟨d, u, _, rfl, ⟨hd, rfl⟩, rfl, rfl⟩
      exact ⟨rfl, hd, List.append_nil _⟩
    · rintro ⟨kind, range, rfl⟩
      cases g with
      | data d => exact ⟨d, _, [], (List.append_nil _).symm, ⟨range, rfl⟩, rfl, rfl⟩
      | _ => cases kind

/-- The format of fields of the kinds of those of a list. -/
def likeFields : List Field → Format (List Field) UInt8
  | [] => Format.empty []
  | f :: l => (likeField f).seq fun g => (likeFields l).seq fun k => Format.empty (g :: k)

theorem getFields_reads (got : h.got = true) (l : List Field) :
    Reads source (getFields h l) (likeFields l) := by
  induction l with
  | nil => exact reads_pure []
  | cons f l ih =>
    exact reads_seq (getField_reads got f) fun g => reads_seq ih fun k => reads_pure (g :: k)

theorem likeFields_self {l : List Field} (range : ∀ f ∈ l, f.InRange) :
    likeFields l l (l.flatMap Field.word) := by
  induction l with
  | nil => exact ⟨rfl, rfl⟩
  | cons f l ih =>
    refine ⟨f, f.word, l.flatMap Field.word, List.flatMap_cons .., ?_, l, l.flatMap Field.word, [], ?_, ?_,
      rfl, rfl⟩
    · exact ⟨rfl, range f (List.mem_cons_self ..), rfl⟩
    · exact (List.append_nil _).symm
    · exact ih fun g hg => range g (List.mem_cons_of_mem _ hg)

/-- What has been put into a buffer, as a buffer to read from. -/
def reading (b : Buffer) (from_ : ℕ) : Buffer := ⟨filled b, from_, b.len⟩

/-- What has been put behind the contents of a buffer is there to be read. -/
theorem reading_added {b t : Buffer} {w : Bytes} (shape : InShape b) (added : Added b t w)
    (small : b.len + w.length < 2 ^ 31) :
    InOrder (reading t b.len) ∧ source.rest (reading t b.len) = w ++ [] := by
  have front : (filled b).length = b.len := by
    have whole := shape.whole
    have inside := shape.inside
    rw [filled, List.length_take]
    omega
  have len := added.len
  constructor
  · have whole := added.shape.whole
    have inside := added.shape.inside
    constructor
    · change (t.p.take t.len).length = t.len
      rw [List.length_take]
      omega
    · change b.len ≤ t.len
      omega
    · change t.len < 2 ^ 31
      omega
  · change (filled t).drop b.len = _
    rw [added.filled, List.append_nil, ← front, List.drop_left]

/-- Fields are put behind what is in a buffer, which grows as they need it and is never written
outside of its memory. Whoever reads the bytes gets the same fields, and nothing is left then. -/
theorem sftp_fields_round_trip (got : h.got = true) {l : List Field} (range : ∀ f ∈ l, f.InRange)
    {b : Buffer} (shape : InShape b) (small : b.len + (l.flatMap Field.word).length < 2 ^ 31) :
    ∃ t, addFields h l b = .ok ((), t) ∧ filled t = filled b ++ l.flatMap Field.word ∧
      ∃ u, getFields h l (reading t b.len) = .ok (some l, u) ∧ source.rest u = [] := by
  obtain ⟨t, run, added⟩ := addFields_run got range shape (by omega)
  refine ⟨t, run, added.filled, ?_⟩
  obtain ⟨order, rest⟩ := reading_added shape added small
  obtain ⟨u, run', -, rest'⟩ :=
    (getFields_reads got l (reading t b.len) order).1 l _ [] (likeFields_self range) rest
  exact ⟨u, run', rest'⟩

/-- A request to open "f". -/
def openFields : List Field := [.data [102], .uint32 1, .uint32 0]

theorem open_round_trip : ∃ t, addFields ⟨true, fun _ => 7⟩ openFields ⟨[], 0, 0⟩ = .ok ((), t) ∧
    filled t = [0, 0, 0, 1, 102, 0, 0, 0, 1, 0, 0, 0, 0] ∧
    ∃ u, getFields ⟨true, fun _ => 7⟩ openFields (reading t 0) = .ok (some openFields, u) ∧ source.rest u = [] :=
  sftp_fields_round_trip rfl (by decide) ⟨rfl, Nat.le_refl _⟩ (by decide)

end Fields

section Paths

variable {h : Heap} {b : Buffer}

theorem cString_noNul {str : Bytes} (noNul : 0 ∉ str) : cString str = str := by
  apply List.takeWhile_eq_self_iff.mpr
  intro c hc
  simp only [bne_iff_ne, ne_eq]
  rintro rfl
  exact noNul hc

/-- A path that is asked for is, in the request, what is below the directory that is mounted. -/
theorem bufAddPath_read (got : h.got = true) (shape : InShape b) {basePath path : Bytes}
    (noNul : 0 ∉ realPath basePath path)
    (small : b.len + 4 + (realPath basePath path).length < 2 ^ 31) :
    ∃ t, bufAddPath h basePath path b = .ok ((), t) ∧
      ∃ u, bufGetString h (reading t b.len) = .ok (some (realPath basePath path), u) ∧
        source.rest u = [] := by
  have range : (Field.data (realPath basePath path)).InRange := by
    change (realPath basePath path).length < 2 ^ 32
    omega
  have length : (Field.data (realPath basePath path)).word.length =
      4 + (realPath basePath path).length := by
    rw [Field.word, List.length_append, be_length]
  obtain ⟨t, run, added⟩ := addField_run got range shape (by omega)
  have same : bufAddPath h basePath path = addField h (.data (realPath basePath path)) := by
    unfold bufAddPath bufAddString
    rw [cString_noNul noNul]
    rfl
  obtain ⟨order, rest⟩ := reading_added shape added (by omega)
  obtain ⟨u, read, -, rest'⟩ := (bufGetString_reads got (reading t b.len) order).1
    (realPath basePath path) _ [] ⟨_, ⟨range, rfl⟩, (cString_noNul noNul).symm⟩ rest
  exact ⟨t, same ▸ run, u, read, rest'⟩

end Paths

end SftpBuffer
