import DirectFuse.ByteAccess
import DirectFuse.SysioReconcile
import Mathlib.Algebra.Order.Group.Int
import Mathlib.Tactic.Linarith
import Mathlib.Tactic.Ring

/-! `getdirentries` (getdirentries.c) byte by byte: the records a driver has put into the caller's
buffer are rewritten there as the shorter ones of `struct dirent`. -/
namespace DirentConversion

open ExecLogic ByteRange ByteAccess SysioState
open SysioReconcile (EOVERFLOW)

/-- How wide `d_ino` and `d_off` are in `struct dirent`, and how it is aligned: 8, 8 and 8 on a
64-bit machine, 4, 4 and 4 on a 32-bit one. Behind these are the length in two bytes, the type in
one and the name. -/
structure Layout where
  ino : ℕ
  off : ℕ
  align : ℕ
  ino_le : ino ≤ 8
  off_le : off ≤ 8
  align_pos : 0 < align

/-- `_dbaselen`. -/
def Layout.dbaselen (L : Layout) : ℕ := L.ino + L.off + 3

/-- `_dreclen`; the alignment is a power of two. -/
def Layout.dreclen (L : Layout) (namlen : ℕ) : ℕ := (L.dbaselen + namlen + L.align) / L.align * L.align

/-- The caller's buffer, the position of the open file and what `basep` points to. -/
structure Call where
  buf : Bytes
  fPos : ℤ
  basep : Option ℤ
  deriving DecidableEq, Repr

abbrev Conv (α : Type) := Exec Call Fault α

def callBuf : Region Call where
  bytes := Call.buf
  update c l := { c with buf := l }
  bytes_update _ _ := rfl
  update_update _ _ _ := rfl
  update_bytes _ := rfl

/-- The value of `w` bytes of a signed type. -/
def signed (w n : ℕ) : ℤ := if 2 * n < 256 ^ w then n else n - 256 ^ w

/-- `inop_filldirentries`: from a position and a buffer to a count or an error, the new position
and what is in the buffer. -/
abbrev Driver := ℤ → Bytes → ℤ × ℤ × Bytes

/-- `filldirents`: the count, and the position for `basep`. -/
def filldirents (d : Driver) (st : Stat) : Conv (ℤ × ℤ) :=
  if st.isDir = false then return (-ENOTDIR, 0)
  else do
    let opos ← Exec.read fun c => c.fPos
    let r ← Exec.read fun c => d c.fPos c.buf
    Exec.write fun c => { c with fPos := r.2.1, buf := r.2.2 }
    return (r.1, opos)

/-- The loop of `getdirentries`. It ends with `cc` and with the place behind the last record. -/
def convert (L : Layout) (count : ℤ) : ℕ → ℤ → ℕ → ℕ → Conv (ℤ × ℕ)
  | 0, _, _, _ => Exec.fault .diverge
  | fuel + 1, cc, d64p, dp =>
    if cc ≤ 0 then return (cc, dp)
    else do
      let size ← Exec.read fun c => c.buf.length
      let n ← strlen callBuf .wild (size + 1) (d64p + 19)
      let reclen := L.dreclen n
      let ino ← load callBuf .wild d64p 8
      let off ← load callBuf .wild (d64p + 8) 8
      let type ← loadBytes callBuf .wild (d64p + 18) 1
      let d64Reclen ← load callBuf .wild (d64p + 16) 2
      memcpy callBuf .wild (dp + L.dbaselen) (d64p + 19) n
      storeBytes callBuf .wild dp (le L.ino ino)
      storeBytes callBuf .wild (dp + L.ino) (le L.off off)
      let ino' ← load callBuf .wild dp L.ino
      let off' ← load callBuf .wild (dp + L.ino) L.off
      if ino' ≠ ino ∨ signed L.off off' ≠ signed 8 off then
        return (if cc = count then -EOVERFLOW else cc, dp)
      else
        Exec.write fun c => { c with fPos := signed L.off off' }
        storeBytes callBuf .wild (dp + L.ino + L.off + 2) type
        storeBytes callBuf .wild (dp + L.ino + L.off) (le 2 reclen)
        let r ← load callBuf .wild (dp + L.ino + L.off) 2
        let p := dp + r
        let cp := dp + L.dbaselen + n
        -- The zeros are stored by a do-while loop, so that there is one at least.
        storeBytes callBuf .wild cp (List.replicate (max 1 (p - cp)) 0)
        convert L count fuel (cc - d64Reclen) (d64p + d64Reclen) p

/-- `getdirentries`: what it returns, and the error it sets. `fil` is what the descriptor's inode
says of itself, if there is one. The loop has `fuel` turns. -/
def getdirentries (L : Layout) (fuel : ℕ) (d : Driver) (fil : Option Stat) : Conv (ℤ × ℤ) :=
  match fil with
  | none => return (-1, -EBADF)
  | some st => do
    let filled ← filldirents d st
    let stopped ← convert L filled.1 fuel filled.1 0 0
    if stopped.1 < 0 then
      return (-1, stopped.1)
    else
      Exec.write fun c => { c with basep := some filled.2 }
      return (stopped.2, 0)

/-- A record of `struct dirent64`, with all that is behind the NUL of its name. The numbers are as
they are stored. -/
structure Entry64 where
  ino : ℕ
  off : ℕ
  type : UInt8
  name : Bytes
  rest : Bytes
  deriving DecidableEq, Repr

def Entry64.reclen (e : Entry64) : ℕ := 19 + e.name.length + 1 + e.rest.length

def Entry64.header (e : Entry64) : Bytes := le 8 e.ino ++ le 8 e.off ++ le 2 e.reclen ++ [e.type]

def Entry64.encode (e : Entry64) : Bytes := e.header ++ e.name ++ 0 :: e.rest

/-- The values fit their fields, and the name is a string. -/
structure Entry64.WellFormed (e : Entry64) : Prop where
  ino : e.ino < 256 ^ 8
  off : e.off < 256 ^ 8
  name : 0 ∉ e.name
  short : e.reclen < 256 ^ 2

/-- The fields have the same values in `struct dirent`. -/
def Representable (L : Layout) (e : Entry64) : Prop :=
  e.ino < 256 ^ L.ino ∧ -(256 : ℤ) ^ L.off ≤ 2 * signed 8 e.off ∧
    2 * signed 8 e.off < (256 : ℤ) ^ L.off

instance (L : Layout) (e : Entry64) : Decidable (Representable L e) :=
  inferInstanceAs (Decidable (_ ∧ _))

/-- The record of `struct dirent` for an entry: the same number, offset, type and name, and zeros
up to its end. -/
def converted (L : Layout) (e : Entry64) : Bytes :=
  le L.ino e.ino ++ le L.off e.off ++ le 2 (L.dreclen e.name.length) ++ [e.type] ++ e.name ++
    List.replicate (L.dreclen e.name.length - L.dbaselen - e.name.length) 0

/-- The entries that are converted. -/
def done (L : Layout) (es : List Entry64) : List Entry64 := es.takeWhile fun e => Representable L e

def total (es : List Entry64) : ℕ := (es.map Entry64.reclen).sum

def shrunk (L : Layout) (es : List Entry64) : ℕ := (es.map fun e => L.dreclen e.name.length).sum

/-- The position behind some entries. -/
def posBehind (es : List Entry64) (pos : ℤ) : ℤ := (es.getLast?.map fun e => signed 8 e.off).getD pos

section Numbers

variable {L : Layout} {e : Entry64}

theorem signed_range (w : ℕ) {n : ℕ} (h : n < 256 ^ w) :
    -(256 : ℤ) ^ w ≤ 2 * signed w n ∧ 2 * signed w n < (256 : ℤ) ^ w := by
  have hn : (n : ℤ) < (256 : ℤ) ^ w := by exact_mod_cast h
  unfold signed
  by_cases hlow : 2 * n < 256 ^ w
  · have hlow' : 2 * (n : ℤ) < (256 : ℤ) ^ w := by exact_mod_cast hlow
    rw [if_pos hlow]
    omega
  · have hhigh : (256 : ℤ) ^ w ≤ 2 * (n : ℤ) := by exact_mod_cast Nat.not_lt.mp hlow
    rw [if_neg hlow]
    omega

theorem signed_dvd (w n : ℕ) : (256 : ℤ) ^ w ∣ signed w n - n := by
  unfold signed
  by_cases hlow : 2 * n < 256 ^ w
  · rw [if_pos hlow, sub_self]
    exact dvd_zero _
  · rw [if_neg hlow]
    exact ⟨-1, by ring⟩

/-- Storing fewer bytes of an offset keeps its value exactly if that is in range. -/
theorem signed_mod {w n : ℕ} (hw : w ≤ 8) : signed w (n % 256 ^ w) = signed 8 n ↔
    -(256 : ℤ) ^ w ≤ 2 * signed 8 n ∧ 2 * signed 8 n < (256 : ℤ) ^ w := by
  have hpos : 0 < 256 ^ w := Nat.pow_pos (by decide)
  have hrange := signed_range w (Nat.mod_lt n hpos)
  constructor
  · intro h
    rw [← h]
    exact hrange
  · rintro ⟨hlow, hhigh⟩
    have hsmall := signed_dvd w (n % 256 ^ w)
    have hlarge : (256 : ℤ) ^ w ∣ signed 8 n - n := (pow_dvd_pow 256 hw).trans (signed_dvd 8 n)
    have hmod : (256 : ℤ) ^ w ∣ ((n % 256 ^ w : ℕ) : ℤ) - n := by
      refine ⟨-((n / 256 ^ w : ℕ) : ℤ), ?_⟩
      have hsplit : ((n % 256 ^ w + 256 ^ w * (n / 256 ^ w) : ℕ) : ℤ) = n := by
        rw [Nat.mod_add_div]
      push_cast at hsplit ⊢
      linarith
    have hdvd : (256 : ℤ) ^ w ∣ signed w (n % 256 ^ w) - signed 8 n := by
      have hsum := Int.dvd_sub (Int.dvd_add hsmall hmod) hlarge
      have hsame : signed w (n % 256 ^ w) - ((n % 256 ^ w : ℕ) : ℤ) +
          (((n % 256 ^ w : ℕ) : ℤ) - n) - (signed 8 n - n) =
          signed w (n % 256 ^ w) - signed 8 n := by ring
      rw [hsame] at hsum
      exact hsum
    have hzero := Int.eq_zero_of_abs_lt_dvd hdvd (by rw [abs_lt]; constructor <;> omega)
    exact sub_eq_zero.mp hzero

theorem dbaselen_le (L : Layout) : L.dbaselen ≤ 19 := by
  have hino := L.ino_le
  have hoff := L.off_le
  unfold Layout.dbaselen
  omega

/-- A record has room for a name and a NUL. -/
theorem dreclen_room (L : Layout) (n : ℕ) : L.dbaselen + n + 1 ≤ L.dreclen n := by
  have hpos := L.align_pos
  have hdiv := Nat.div_add_mod (L.dbaselen + n + L.align) L.align
  have hmod := Nat.mod_lt (L.dbaselen + n + L.align) hpos
  unfold Layout.dreclen
  rw [Nat.mul_comm]
  omega

theorem converted_length (L : Layout) (e : Entry64) :
    (converted L e).length = L.dreclen e.name.length := by
  have hroom := dreclen_room L e.name.length
  unfold converted
  simp only [List.length_append, le_length, List.length_singleton, List.length_replicate]
  unfold Layout.dbaselen at hroom ⊢
  omega

@[simp] theorem header_length : e.header.length = 19 := by
  simp [Entry64.header]

@[simp] theorem encode_length : e.encode.length = e.reclen := by
  simp [Entry64.encode, Entry64.reclen]
  omega

end Numbers

section Steps

variable {L : Layout} {c : Call} {e : Entry64} {conv junk back : Bytes} {count cc : ℤ} {fuel : ℕ}

/-- A part of a given length at the front of some bytes. -/
theorem split_at {l : Bytes} {n : ℕ} (h : n ≤ l.length) :
    ∃ a b, l = a ++ b ∧ a.length = n ∧ b.length = l.length - n :=
  ⟨l.take n, l.drop n, (List.take_append_drop n l).symm, by simp; omega, by simp⟩

/-- What is read of a record before any of it is overwritten. -/
theorem reads_run (wf : e.WellFormed) (hc : c.buf = conv ++ junk ++ e.encode ++ back) :
    strlen callBuf Fault.wild (c.buf.length + 1) (conv.length + junk.length + 19) c =
        .ok (e.name.length, c) ∧
      load callBuf Fault.wild (conv.length + junk.length) 8 c = .ok (e.ino, c) ∧
      load callBuf Fault.wild (conv.length + junk.length + 8) 8 c = .ok (e.off, c) ∧
      loadBytes callBuf Fault.wild (conv.length + junk.length + 18) 1 c = .ok ([e.type], c) ∧
      load callBuf Fault.wild (conv.length + junk.length + 16) 2 c = .ok (e.reclen, c) := by
  have hbuf : callBuf.bytes c = conv ++ junk ++ (le 8 e.ino ++ (le 8 e.off ++ (le 2 e.reclen ++
      ([e.type] ++ (e.name ++ (0 :: e.rest ++ back)))))) := by
    change c.buf = _
    rw [hc, Entry64.encode, Entry64.header]
    simp only [List.append_assoc]
  have hstart : (conv ++ junk).length = conv.length + junk.length := List.length_append
  refine ⟨?_, ?_, ?_, ?_, ?_⟩
  · have htext : callBuf.bytes c = (conv ++ junk ++ e.header) ++ (e.name ++ 0 :: (e.rest ++ back)) := by
      rw [hbuf, Entry64.header]
      simp only [List.append_assoc]
      rfl
    have hfuel : e.name.length < c.buf.length + 1 := by
      have hlen := congrArg List.length hc
      simp only [List.length_append, encode_length, Entry64.reclen] at hlen
      omega
    have run := @strlen_run _ _ callBuf Fault.wild c _ _ _ htext wf.name _ hfuel
    rw [List.length_append, hstart, header_length] at run
    exact run
  · have hsplit : callBuf.bytes c = (conv ++ junk) ++ le 8 e.ino ++ (le 8 e.off ++ (le 2 e.reclen ++
        ([e.type] ++ (e.name ++ (0 :: e.rest ++ back))))) := by
      rw [hbuf]
      simp only [List.append_assoc]
    have run := @load_run _ _ callBuf Fault.wild c _ _ _ _ 8 hsplit hstart.symm (by simp)
    rw [unle_le, Nat.mod_eq_of_lt wf.ino] at run
    exact run
  · have hsplit : callBuf.bytes c = (conv ++ junk ++ le 8 e.ino) ++ le 8 e.off ++ (le 2 e.reclen ++
        ([e.type] ++ (e.name ++ (0 :: e.rest ++ back)))) := by
      rw [hbuf]
      simp only [List.append_assoc]
    have run := @load_run _ _ callBuf Fault.wild c _ _ _ (conv.length + junk.length + 8) 8 hsplit
      (by simp; omega) (by simp)
    rw [unle_le, Nat.mod_eq_of_lt wf.off] at run
    exact run
  · have hsplit : callBuf.bytes c = (conv ++ junk ++ le 8 e.ino ++ le 8 e.off ++ le 2 e.reclen) ++
        [e.type] ++ (e.name ++ (0 :: e.rest ++ back)) := by
      rw [hbuf]
      simp only [List.append_assoc]
    exact loadBytes_run hsplit (by simp; omega) rfl
  · have hsplit : callBuf.bytes c = (conv ++ junk ++ le 8 e.ino ++ le 8 e.off) ++ le 2 e.reclen ++
        ([e.type] ++ (e.name ++ (0 :: e.rest ++ back))) := by
      rw [hbuf]
      simp only [List.append_assoc]
    have run := @load_run _ _ callBuf Fault.wild c _ _ _ (conv.length + junk.length + 16) 2 hsplit
      (by simp; omega) (by simp)
    rw [unle_le, Nat.mod_eq_of_lt wf.short] at run
    exact run

/-- The name is moved down, and the number and the offset are stored in front of it. -/
theorem moves_run (L : Layout) (hc : c.buf = conv ++ junk ++ e.encode ++ back) :
    ∃ three gap c₁ c₂, three.length = 3 ∧
      gap.length + L.dbaselen + e.name.length = junk.length + e.reclen ∧
      memcpy callBuf Fault.wild (conv.length + L.dbaselen) (conv.length + junk.length + 19)
        e.name.length c = .ok ((), c₁) ∧
      storeBytes callBuf Fault.wild conv.length (le L.ino e.ino) c₁ = .ok ((), c₂) ∧
      storeBytes callBuf Fault.wild (conv.length + L.ino) (le L.off e.off) c₂ = .ok ((), { c with
        buf := conv ++ le L.ino e.ino ++ le L.off e.off ++ three ++ e.name ++ gap ++ back }) := by
  have hbase := dbaselen_le L
  have hfront : L.dbaselen ≤ (junk ++ e.header).length := by
    rw [List.length_append, header_length]
    omega
  rcases split_at hfront with ⟨fixed, gap₀, hfixed, hlen, hgap⟩
  have hwidths : L.ino ≤ fixed.length := by
    rw [hlen]
    unfold Layout.dbaselen
    omega
  rcases split_at hwidths with ⟨old₁, rest₁, hold₁, hlen₁, hrest₁⟩
  have hwidths' : L.off ≤ rest₁.length := by
    rw [hrest₁, hlen]
    unfold Layout.dbaselen
    omega
  rcases split_at hwidths' with ⟨old₂, three, hold₂, hlen₂, hthree⟩
  have hbuf : callBuf.bytes c = (conv ++ fixed) ++ gap₀ ++ e.name ++ (0 :: e.rest ++ back) := by
    change c.buf = _
    have hsame : conv ++ junk ++ e.encode ++ back =
        conv ++ (junk ++ e.header) ++ e.name ++ (0 :: e.rest ++ back) := by
      rw [Entry64.encode]
      simp only [List.append_assoc]
    rw [hc, hsame, hfixed]
    simp only [List.append_assoc]
  rcases @memcpy_run _ _ callBuf Fault.wild c _ _ _ _ hbuf with ⟨gap₁, hgap₁, hcopy⟩
  have hdst : (conv ++ fixed).length = conv.length + L.dbaselen := by
    rw [List.length_append, hlen]
  have hheader := @header_length e
  rw [List.length_append, header_length] at hgap
  have hsrc : (conv ++ fixed).length + gap₀.length = conv.length + junk.length + 19 := by
    rw [hdst, hgap]
    omega
  rw [hsrc, hdst] at hcopy
  let moved := e.name ++ gap₁ ++ (0 :: e.rest ++ back)
  have hmoved : (conv ++ fixed) ++ e.name ++ gap₁ ++ (0 :: e.rest ++ back) =
      conv ++ old₁ ++ (old₂ ++ three ++ moved) := by
    rw [hold₁, hold₂]
    simp only [moved, List.append_assoc]
  have hino := @storeBytes_run _ _ callBuf Fault.wild { c with buf := conv ++ old₁ ++ (old₂ ++ three ++ moved) }
    _ _ _ (le L.ino e.ino) conv.length rfl rfl (by rw [le_length, hlen₁])
  have hnext : conv ++ le L.ino e.ino ++ (old₂ ++ three ++ moved) =
      (conv ++ le L.ino e.ino) ++ old₂ ++ (three ++ moved) := by
    simp only [List.append_assoc]
  have hoff := @storeBytes_run _ _ callBuf Fault.wild
    { c with buf := (conv ++ le L.ino e.ino) ++ old₂ ++ (three ++ moved) } _ _ _ (le L.off e.off)
    (conv.length + L.ino) rfl (by simp) (by rw [le_length, hlen₂])
  have hend : (conv ++ le L.ino e.ino) ++ le L.off e.off ++ (three ++ moved) =
      conv ++ le L.ino e.ino ++ le L.off e.off ++ three ++ e.name ++ (gap₁ ++ 0 :: e.rest) ++ back := by
    simp only [moved, List.append_assoc, List.cons_append]
  rw [hmoved] at hcopy
  rw [← hnext] at hoff
  rw [hend] at hoff
  refine ⟨three, gap₁ ++ 0 :: e.rest, _, _, ?_, ?_, hcopy, hino, hoff⟩
  · rw [hthree, hrest₁, hlen]
    unfold Layout.dbaselen
    omega
  · rw [List.length_append, List.length_cons, hgap₁, hgap]
    unfold Entry64.reclen
    omega

/-- What is read back of the fields just stored. -/
theorem fields_run (L : Layout) {three rest : Bytes}
    (hc : c.buf = conv ++ le L.ino e.ino ++ le L.off e.off ++ three ++ rest) :
    load callBuf Fault.wild conv.length L.ino c = .ok (e.ino % 256 ^ L.ino, c) ∧
      load callBuf Fault.wild (conv.length + L.ino) L.off c = .ok (e.off % 256 ^ L.off, c) := by
  constructor
  · have hsplit : callBuf.bytes c = conv ++ le L.ino e.ino ++ (le L.off e.off ++ three ++ rest) := by
      change c.buf = _
      rw [hc]
      simp only [List.append_assoc]
    have run := @load_run _ _ callBuf Fault.wild c _ _ _ conv.length L.ino hsplit rfl (by simp)
    rw [unle_le] at run
    exact run
  · have hsplit : callBuf.bytes c = (conv ++ le L.ino e.ino) ++ le L.off e.off ++ (three ++ rest) := by
      change c.buf = _
      rw [hc]
      simp only [List.append_assoc]
    have run := @load_run _ _ callBuf Fault.wild c _ _ _ (conv.length + L.ino) L.off hsplit (by simp)
      (by simp)
    rw [unle_le] at run
    exact run

theorem representable_iff (wf : e.WellFormed) : Representable L e ↔
    e.ino % 256 ^ L.ino = e.ino ∧ signed L.off (e.off % 256 ^ L.off) = signed 8 e.off := by
  rw [signed_mod L.off_le, Representable]
  constructor
  · rintro ⟨hino, hrange⟩
    exact ⟨Nat.mod_eq_of_lt hino, hrange⟩
  · rintro ⟨hino, hrange⟩
    refine ⟨?_, hrange⟩
    rw [← hino]
    exact Nat.mod_lt _ (Nat.pow_pos (by decide))

/-- The type and the length of the new record, and its zeros. -/
theorem finishes_run {three gap : Bytes} (hthree : three.length = 3) {new : ℕ}
    (hnew : new < 256 ^ 2) (hroom : L.dbaselen + e.name.length + 1 ≤ new)
    (hgap : new ≤ gap.length + L.dbaselen + e.name.length)
    (hc : c.buf = conv ++ le L.ino e.ino ++ le L.off e.off ++ three ++ e.name ++ gap ++ back) :
    ∃ junk' c₁ c₂, junk'.length + new = gap.length + L.dbaselen + e.name.length ∧
      storeBytes callBuf Fault.wild (conv.length + L.ino + L.off + 2) [e.type] c = .ok ((), c₁) ∧
      storeBytes callBuf Fault.wild (conv.length + L.ino + L.off) (le 2 new) c₁ = .ok ((), c₂) ∧
      load callBuf Fault.wild (conv.length + L.ino + L.off) 2 c₂ = .ok (new, c₂) ∧
      storeBytes callBuf Fault.wild (conv.length + L.dbaselen + e.name.length) (List.replicate
        (max 1 (conv.length + new - (conv.length + L.dbaselen + e.name.length))) 0) c₂ =
        .ok ((), { c with buf := conv ++ (le L.ino e.ino ++ le L.off e.off ++ le 2 new ++ [e.type] ++
          e.name ++ List.replicate (new - L.dbaselen - e.name.length) 0) ++ junk' ++ back }) := by
  rcases split_at (by omega : 2 ≤ three.length) with ⟨two, one, rfl, htwo, hone⟩
  rw [hthree] at hone
  have hzeros : new - L.dbaselen - e.name.length ≤ gap.length := by omega
  rcases split_at hzeros with ⟨gone, junk', rfl, hgone, hjunk⟩
  let fields := conv ++ le L.ino e.ino ++ le L.off e.off
  have hfields : fields.length = conv.length + L.ino + L.off := by simp [fields]; omega
  let behind := e.name ++ (gone ++ junk') ++ back
  have hstart : c.buf = (fields ++ two) ++ one ++ behind := by
    rw [hc]
    simp only [fields, behind, List.append_assoc]
  have htype := @storeBytes_run _ _ callBuf Fault.wild c _ _ _ [e.type]
    (conv.length + L.ino + L.off + 2) hstart (by rw [List.length_append, hfields, htwo]) hone.symm
  have hnext : (fields ++ two) ++ [e.type] ++ behind = fields ++ two ++ ([e.type] ++ behind) := by
    simp only [List.append_assoc]
  have hlength := @storeBytes_run _ _ callBuf Fault.wild
    { c with buf := fields ++ two ++ ([e.type] ++ behind) } _ _ _ (le 2 new)
    (conv.length + L.ino + L.off) rfl hfields.symm (by rw [le_length, htwo])
  have hread := @load_run _ _ callBuf Fault.wild
    { c with buf := fields ++ le 2 new ++ ([e.type] ++ behind) } _ _ _
    (conv.length + L.ino + L.off) 2 rfl hfields.symm (by simp)
  rw [unle_le, Nat.mod_eq_of_lt hnew] at hread
  have hmax : max 1 (conv.length + new - (conv.length + L.dbaselen + e.name.length)) =
      gone.length := by omega
  have hlast : fields ++ le 2 new ++ ([e.type] ++ behind) =
      (fields ++ le 2 new ++ [e.type] ++ e.name) ++ gone ++ (junk' ++ back) := by
    simp only [behind, List.append_assoc]
  have hplace : (fields ++ le 2 new ++ [e.type] ++ e.name).length =
      conv.length + L.dbaselen + e.name.length := by
    simp only [List.length_append, hfields, le_length, List.length_singleton]
    unfold Layout.dbaselen
    omega
  have hfill := @storeBytes_run _ _ callBuf Fault.wild
    { c with buf := (fields ++ le 2 new ++ [e.type] ++ e.name) ++ gone ++ (junk' ++ back) } _ _ _
    (List.replicate gone.length 0) (conv.length + L.dbaselen + e.name.length) rfl hplace.symm
    (by simp)
  have hdone : (fields ++ le 2 new ++ [e.type] ++ e.name) ++ List.replicate gone.length 0 ++
      (junk' ++ back) = conv ++ (le L.ino e.ino ++ le L.off e.off ++ le 2 new ++ [e.type] ++ e.name ++
        List.replicate (new - L.dbaselen - e.name.length) 0) ++ junk' ++ back := by
    rw [hgone]
    simp only [fields, List.append_assoc]
  rw [← hlast, hdone] at hfill
  rw [← hnext] at hlength
  rw [hmax]
  exact ⟨junk', _, _, by omega, htype, hlength, hread, hfill⟩

/-- One turn of the loop that converts a record. -/
theorem convert_step (wf : e.WellFormed) (room : L.dreclen e.name.length ≤ e.reclen)
    (hcc : 0 < cc) (hc : c.buf = conv ++ junk ++ e.encode ++ back) (fits : Representable L e) :
    ∃ junk', junk'.length + L.dreclen e.name.length = junk.length + e.reclen ∧
      convert L count (fuel + 1) cc (conv.length + junk.length) conv.length c =
        convert L count fuel (cc - e.reclen) (conv.length + junk.length + e.reclen)
          (conv.length + L.dreclen e.name.length)
          ⟨conv ++ converted L e ++ junk' ++ back, signed 8 e.off, c.basep⟩ := by
  rcases reads_run wf hc with ⟨hlen, hino, hoff, htype, hreclen⟩
  rcases moves_run L hc with ⟨three, gap, c₁, c₂, hthree, hgap, run₁, run₂, run₃⟩
  have hfields := @fields_run { c with buf := conv ++ le L.ino e.ino ++ le L.off e.off ++ three ++
    e.name ++ gap ++ back } e conv L three (e.name ++ gap ++ back) (by simp only [List.append_assoc])
  have hshort : L.dreclen e.name.length < 256 ^ 2 := Nat.lt_of_le_of_lt room wf.short
  have hfinish := @finishes_run L ⟨conv ++ le L.ino e.ino ++ le L.off e.off ++ three ++ e.name ++
    gap ++ back, signed 8 e.off, c.basep⟩ e conv back three gap hthree _ hshort
    (dreclen_room L e.name.length) (by omega) rfl
  rcases hfinish with ⟨junk', c₃, c₄, hjunk, run₄, run₅, run₆, run₇⟩
  have hsize : (Exec.read fun c => c.buf.length : Conv ℕ) c = .ok (c.buf.length, c) := rfl
  have hsame := (representable_iff wf).mp fits
  have hkeeps : ¬ (e.ino % 256 ^ L.ino ≠ e.ino ∨
      signed L.off (e.off % 256 ^ L.off) ≠ signed 8 e.off) := by
    rintro (hne | hne)
    · exact hne hsame.1
    · exact hne hsame.2
  refine ⟨junk', by omega, ?_⟩
  rw [convert, if_neg (by omega), bind_run hsize, bind_run hlen, bind_run hino, bind_run hoff,
    bind_run htype, bind_run hreclen, bind_run run₁, bind_run run₂, bind_run run₃,
    bind_run hfields.1, bind_run hfields.2, if_neg hkeeps, hsame.2]
  have hpos : (Exec.write fun c => { c with fPos := signed 8 e.off } : Conv Unit)
      { c with buf := conv ++ le L.ino e.ino ++ le L.off e.off ++ three ++ e.name ++ gap ++ back } =
      .ok ((), ⟨conv ++ le L.ino e.ino ++ le L.off e.off ++ three ++ e.name ++ gap ++ back,
        signed 8 e.off, c.basep⟩) := rfl
  rw [bind_run hpos, bind_run run₄, bind_run run₅, bind_run run₆, bind_run run₇]
  rfl

/-- One turn that finds a value too large. The record itself may be overwritten by then. -/
theorem convert_stop (wf : e.WellFormed) (hcc : 0 < cc)
    (hc : c.buf = conv ++ junk ++ e.encode ++ back) (large : ¬ Representable L e) :
    ∃ stale, stale.length = junk.length + e.reclen ∧
      convert L count (fuel + 1) cc (conv.length + junk.length) conv.length c =
        .ok ((if cc = count then -EOVERFLOW else cc, conv.length),
          { c with buf := conv ++ stale ++ back }) := by
  rcases reads_run wf hc with ⟨hlen, hino, hoff, htype, hreclen⟩
  rcases moves_run L hc with ⟨three, gap, c₁, c₂, hthree, hgap, run₁, run₂, run₃⟩
  have hfields := @fields_run { c with buf := conv ++ le L.ino e.ino ++ le L.off e.off ++ three ++
    e.name ++ gap ++ back } e conv L three (e.name ++ gap ++ back) (by simp only [List.append_assoc])
  have hsize : (Exec.read fun c => c.buf.length : Conv ℕ) c = .ok (c.buf.length, c) := rfl
  have hdiffers : e.ino % 256 ^ L.ino ≠ e.ino ∨
      signed L.off (e.off % 256 ^ L.off) ≠ signed 8 e.off := by
    rw [representable_iff wf] at large
    by_cases hsame : e.ino % 256 ^ L.ino = e.ino
    · exact Or.inr fun hoff => large ⟨hsame, hoff⟩
    · exact Or.inl hsame
  refine ⟨le L.ino e.ino ++ le L.off e.off ++ three ++ e.name ++ gap, ?_, ?_⟩
  · simp only [List.length_append, le_length, hthree]
    unfold Layout.dbaselen at hgap
    omega
  · rw [convert, if_neg (by omega), bind_run hsize, bind_run hlen, bind_run hino, bind_run hoff,
      bind_run htype, bind_run hreclen, bind_run run₁, bind_run run₂, bind_run run₃,
      bind_run hfields.1, bind_run hfields.2, if_pos hdiffers]
    have hend : conv ++ le L.ino e.ino ++ le L.off e.off ++ three ++ e.name ++ gap ++ back =
        conv ++ (le L.ino e.ino ++ le L.off e.off ++ three ++ e.name ++ gap) ++ back := by
      simp only [List.append_assoc]
    rw [hend]
    rfl

end Steps

section Runs

variable {L : Layout} {c : Call} {conv junk back : Bytes} {count : ℤ} {fuel : ℕ}

theorem done_cons (L : Layout) (e : Entry64) (es : List Entry64) :
    done L (e :: es) = if Representable L e then e :: done L es else [] := by
  unfold done
  by_cases fits : Representable L e
  · rw [if_pos fits, List.takeWhile_cons_of_pos (by simpa using fits)]
  · rw [if_neg fits, List.takeWhile_cons_of_neg (by simpa using fits)]

theorem total_cons (e : Entry64) (es : List Entry64) : total (e :: es) = e.reclen + total es := by
  simp [total]

theorem shrunk_cons (L : Layout) (e : Entry64) (es : List Entry64) :
    shrunk L (e :: es) = L.dreclen e.name.length + shrunk L es := by
  simp [shrunk]

theorem posBehind_cons (e : Entry64) (es : List Entry64) (pos : ℤ) :
    posBehind (e :: es) pos = posBehind es (signed 8 e.off) := by
  unfold posBehind
  cases es with
  | nil => rfl
  | cons e' l => rw [List.getLast?_cons_cons]; rfl

theorem reclen_pos (e : Entry64) : 0 < e.reclen := by
  unfold Entry64.reclen
  omega

/-- The loop from a place where some records are converted, those in `es` are still as the driver
put them there, and in between are bytes of no use. The induction is on the records left. -/
theorem convert_run (es : List Entry64) (wf : ∀ e ∈ es, e.WellFormed)
    (room : ∀ e ∈ es, L.dreclen e.name.length ≤ e.reclen)
    (hc : c.buf = conv ++ junk ++ es.flatMap Entry64.encode ++ back) (hfuel : es.length < fuel)
    (hcount : (total es : ℤ) ≤ count) : ∃ stale c',
      convert L count fuel (total es) (conv.length + junk.length) conv.length c =
        .ok ((if es ≠ [] ∧ done L es = [] ∧ (total es : ℤ) = count then -EOVERFLOW
          else total (es.drop (done L es).length), conv.length + shrunk L (done L es)), c') ∧
      c'.buf = conv ++ (done L es).flatMap (converted L) ++ stale ++
        (es.drop ((done L es).length + 1)).flatMap Entry64.encode ++ back ∧
      stale.length + shrunk L (done L es) = junk.length + total (es.take ((done L es).length + 1)) ∧
      c'.fPos = posBehind (done L es) c.fPos ∧ c'.basep = c.basep := by
  induction es generalizing c conv junk fuel with
  | nil =>
    cases fuel with
    | zero => exact absurd hfuel (Nat.not_lt_zero _)
    | succ fuel =>
      refine ⟨junk, c, ?_, ?_, rfl, rfl, rfl⟩
      · rw [convert, if_pos (by simp [total]), if_neg (by simp)]
        rfl
      · rw [hc]
        simp [done]
  | cons e es ih =>
    have hwf := wf e List.mem_cons_self
    have hroom := room e List.mem_cons_self
    have hpos := reclen_pos e
    have hbuf : c.buf = conv ++ junk ++ e.encode ++ (es.flatMap Entry64.encode ++ back) := by
      rw [hc, List.flatMap_cons]
      simp only [List.append_assoc]
    rw [total_cons] at hcount ⊢
    cases fuel with
    | zero => exact absurd hfuel (Nat.not_lt_zero _)
    | succ fuel =>
      have hmore : (0 : ℤ) < ((e.reclen + total es : ℕ) : ℤ) := by omega
      by_cases fits : Representable L e
      · rcases @convert_step L c e conv junk _ count _ fuel hwf hroom hmore hbuf fits with
          ⟨junk', hjunk, hstep⟩
        have hrest : (⟨conv ++ converted L e ++ junk' ++ (es.flatMap Entry64.encode ++ back),
            signed 8 e.off, c.basep⟩ : Call).buf =
            (conv ++ converted L e) ++ junk' ++ es.flatMap Entry64.encode ++ back := by
          simp only [List.append_assoc]
        have hleft : (total es : ℤ) ≤ count := by omega
        have hfuel' : es.length < fuel := Nat.lt_of_succ_lt_succ hfuel
        have ih := ih (fun e' he => wf e' (List.mem_cons_of_mem _ he))
          (fun e' he => room e' (List.mem_cons_of_mem _ he)) hrest hfuel' hleft
        rcases ih with ⟨stale, c', hrun, hafter, hover, hat, hbasep⟩
        have hsub : ((e.reclen + total es : ℕ) : ℤ) - e.reclen = total es := by omega
        have hplace : (conv ++ converted L e).length = conv.length + L.dreclen e.name.length := by
          rw [List.length_append, converted_length]
        have hsrc : conv.length + junk.length + e.reclen =
            conv.length + L.dreclen e.name.length + junk'.length := by omega
        have hnever : ¬ (es ≠ [] ∧ done L es = [] ∧ (total es : ℤ) = count) := by
          rintro ⟨-, -, hsame⟩
          omega
        rw [hplace, if_neg hnever] at hrun
        have hdone : done L (e :: es) = e :: done L es := by rw [done_cons, if_pos fits]
        refine ⟨stale, c', ?_, ?_, ?_, ?_, hbasep⟩
        · rw [hstep, hsub, hsrc, hrun, hdone, if_neg (by simp), shrunk_cons, Nat.add_assoc]
          rfl
        · rw [hafter, hdone, List.flatMap_cons]
          simp only [List.append_assoc, List.length_cons, List.drop_succ_cons]
        · rw [hdone, shrunk_cons, List.length_cons, List.take_succ_cons, total_cons]
          omega
        · rw [hat, hdone, posBehind_cons]
      · rcases @convert_stop L c e conv junk _ count _ fuel hwf hmore hbuf fits with
          ⟨stale, hover, hstop⟩
        have hdone : done L (e :: es) = [] := by rw [done_cons, if_neg fits]
        refine ⟨stale, { c with buf := conv ++ stale ++ (es.flatMap Entry64.encode ++ back) }, ?_, ?_,
          ?_, ?_, rfl⟩
        · have hsame : (if e :: es ≠ [] ∧ ([] : List Entry64) = [] ∧
              ((e.reclen + total es : ℕ) : ℤ) = count then -EOVERFLOW
              else ((total ((e :: es).drop 0) : ℕ) : ℤ)) =
              if ((e.reclen + total es : ℕ) : ℤ) = count then -EOVERFLOW
                else ((e.reclen + total es : ℕ) : ℤ) := by
            rw [List.drop_zero, total_cons]
            simp
          rw [hdone]
          change _ = Except.ok ((if e :: es ≠ [] ∧ ([] : List Entry64) = [] ∧
            ((e.reclen + total es : ℕ) : ℤ) = count then -EOVERFLOW
              else ((total ((e :: es).drop 0) : ℕ) : ℤ), conv.length), _)
          rw [hsame]
          exact hstop
        · rw [hdone]
          simp only [List.flatMap_nil, List.append_nil, List.length_nil, Nat.zero_add,
            List.drop_succ_cons, List.drop_zero, List.append_assoc]
        · rw [hdone]
          simp only [List.length_nil, Nat.zero_add, List.take_succ_cons, List.take_zero]
          rw [total_cons]
          exact hover
        · rw [hdone]
          rfl

/-- What a call does with the entries a driver has delivered. -/
structure Converts (L : Layout) (es : List Entry64) (tail : Bytes) (opos pos : ℤ) (ret : ℤ × ℤ)
    (c' : Call) : Prop where
  overflow : es ≠ [] → done L es = [] → ret = (-1, -EOVERFLOW)
  returned : es = [] ∨ done L es ≠ [] → ret = (((shrunk L (done L es) : ℕ) : ℤ), 0) ∧ c'.basep = some opos
  fPos : c'.fPos = posBehind (done L es) pos
  buf : ∃ stale, c'.buf = (done L es).flatMap (converted L) ++ stale ++
      (es.drop ((done L es).length + 1)).flatMap Entry64.encode ++ tail ∧
    stale.length + shrunk L (done L es) = total (es.take ((done L es).length + 1))

theorem filldirents_run {d : Driver} {st : Stat} (dir : st.isDir = true) {cc pos : ℤ} {buf : Bytes}
    (filled : d c.fPos c.buf = (cc, pos, buf)) :
    filldirents d st c = .ok ((cc, c.fPos), ⟨buf, pos, c.basep⟩) := by
  have hpos : (Exec.read fun c => c.fPos : Conv ℤ) c = .ok (c.fPos, c) := rfl
  have hfill : (Exec.read fun c => d c.fPos c.buf : Conv (ℤ × ℤ × Bytes)) c =
      .ok ((cc, pos, buf), c) := read_ok.mpr ⟨filled, rfl⟩
  rw [filldirents, if_neg (by simp [dir]), bind_run hpos, bind_run hfill]
  rfl

end Runs

/-- For every list of records that fill a directory's buffer, each at least as long as its new
form, `getdirentries` converts those in front of the first that is not representable. -/
theorem getdirentries_converts {L : Layout} {fuel : ℕ} {d : Driver} {st : Stat} {c : Call}
    {es : List Entry64} {tail : Bytes} {pos : ℤ} (dir : st.isDir = true)
    (filled : d c.fPos c.buf = (((total es : ℕ) : ℤ), pos, es.flatMap Entry64.encode ++ tail))
    (wf : ∀ e ∈ es, e.WellFormed) (room : ∀ e ∈ es, L.dreclen e.name.length ≤ e.reclen)
    (hfuel : es.length < fuel) : ∃ ret c',
      getdirentries L fuel d (some st) c = .ok (ret, c') ∧ Converts L es tail c.fPos pos ret c' := by
  have hfill := filldirents_run dir filled
  let filledCall : Call := ⟨es.flatMap Entry64.encode ++ tail, pos, c.basep⟩
  have hbuf : filledCall.buf = [] ++ [] ++ es.flatMap Entry64.encode ++ tail := rfl
  have hrun := @convert_run L filledCall [] [] tail (total es : ℕ) fuel es wf room hbuf hfuel
    (le_refl _)
  rcases hrun with ⟨stale, c', hrun, hafter, hover, hat, -⟩
  simp only [List.length_nil, Nat.zero_add, List.nil_append] at hrun hafter hover
  by_cases early : es ≠ [] ∧ done L es = []
  · rw [if_pos ⟨early.1, early.2, trivial⟩] at hrun
    refine ⟨(-1, -EOVERFLOW), c', ?_, ?_, ?_, hat, stale, hafter, hover⟩
    · rw [getdirentries, bind_run hfill]
      change (convert L (total es : ℕ) fuel (total es : ℕ) 0 0 >>= fun stopped => _ : Conv (ℤ × ℤ))
        filledCall = _
      have hneg : -EOVERFLOW < 0 := by decide
      rw [bind_run hrun, if_pos hneg]
      rfl
    · intro _ _
      rfl
    · rintro (hnil | hsome)
      · exact absurd hnil early.1
      · exact absurd early.2 hsome
  · have hlate : ¬ (es ≠ [] ∧ done L es = [] ∧ True) := by
      rintro ⟨hne, hnone, -⟩
      exact early ⟨hne, hnone⟩
    rw [if_neg hlate] at hrun
    refine ⟨(((shrunk L (done L es) : ℕ) : ℤ), 0), { c' with basep := some c.fPos }, ?_, ?_, ?_, hat,
      stale, hafter, hover⟩
    · rw [getdirentries, bind_run hfill]
      change (convert L (total es : ℕ) fuel (total es : ℕ) 0 0 >>= fun stopped => _ : Conv (ℤ × ℤ))
        filledCall = _
      rw [bind_run hrun, if_neg (by omega)]
      rfl
    · intro hne hnone
      exact absurd ⟨hne, hnone⟩ early
    · intro _
      exact ⟨rfl, rfl⟩

/-- A 32-bit layout. -/
def narrow : Layout := ⟨4, 4, 4, by decide, by decide, by decide⟩

/-- Two entries of a driver, the second with an offset that takes more than 32 bits. -/
def largeOffset : List Entry64 :=
  [⟨7, 24, 8, [97], [0, 0, 0]⟩, ⟨8, 2 ^ 40, 8, [98], [0, 0, 0]⟩]

theorem largeOffset_converts : ∃ ret c', getdirentries narrow 3 (fun _ _ => (48, 2 ^ 40,
      largeOffset.flatMap Entry64.encode)) (some ⟨1, 1, S_IFDIR, 2, 0, 0, 0⟩) ⟨[], 0, none⟩ =
        .ok (ret, c') ∧ Converts narrow largeOffset [] 0 (2 ^ 40) ret c' := by
  apply getdirentries_converts
  · decide
  · rw [List.append_nil]
    rfl
  · intro e he
    rcases List.mem_cons.mp he with rfl | he
    · exact ⟨by decide, by decide, by decide, by decide⟩
    · rw [List.mem_singleton.mp he]
      exact ⟨by decide, by decide, by decide, by decide⟩
  · decide
  · decide

end DirentConversion
