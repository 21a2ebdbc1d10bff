import DirectFuse.FuseDirectory
import Mathlib.Data.List.TakeWhile

/-! The data of a fuse directory as a list of records, and what each operation on the bytes does
to the list. -/
namespace FuseRecords

open ExecLogic ByteRange SysioState SysioNamei FuseDirectory
open FuseDriver (fuseDReclen dotDotName)

/-- A record; `body` is all there is behind the fixed part, the name first. -/
structure Rec where
  ino : ℕ
  off : ℕ
  type : UInt8
  body : Bytes
  deriving DecidableEq, Repr

def Rec.size (r : Rec) : ℕ := 19 + r.body.length

/-- The fixed part. -/
def Rec.header (r : Rec) : Bytes := le 8 r.ino ++ le 8 r.off ++ le 2 r.size ++ [r.type]

def Rec.encode (r : Rec) : Bytes := r.header ++ r.body

/-- The name of a record, up to its NUL. -/
def Rec.scan (r : Rec) : Bytes := r.body.takeWhile (· ≠ 0)

/-- The name ends in the record, and the length fits its field. -/
structure Rec.Fits (r : Rec) : Prop where
  nul : 0 ∈ r.body
  short : r.size < 2 ^ 16

def bytes (rs : List Rec) : Bytes := rs.flatMap Rec.encode

/-- The records fill the data of the directory, which is as long as its size says. -/
structure Holds (d : Directory) (rs : List Rec) : Prop where
  data : d.data = bytes rs
  size : d.stSize = (bytes rs).length
  fits : ∀ r ∈ rs, r.Fits

section Access

variable {d : Directory} {front mid back new : Bytes} {off n : ℕ}

theorem loadBytes_run (hd : d.data = front ++ mid ++ back) (hoff : off = front.length)
    (hn : n = mid.length) : loadBytes off n d = .ok (mid, d) := by
  have hroom : off + n ≤ d.data.length := by
    rw [hd, hoff, hn]
    simp
  have hcheck : Exec.check Fault.wild (fun d : Directory => decide (off + n ≤ d.data.length)) d =
      .ok ((), d) := check_ok.mpr ⟨decide_eq_true hroom, rfl⟩
  rw [loadBytes, bind_run hcheck]
  have hfetch : fetch d.data off n = mid := by rw [hd, hoff, hn, fetch_middle]
  exact read_ok.mpr ⟨hfetch, rfl⟩

theorem load_run (hd : d.data = front ++ mid ++ back) (hoff : off = front.length)
    (hn : n = mid.length) : load off n d = .ok (unle mid, d) := by
  rw [load, bind_run (loadBytes_run hd hoff hn)]
  rfl

theorem storeBytes_run (hd : d.data = front ++ mid ++ back) (hoff : off = front.length)
    (hnew : new.length = mid.length) :
    storeBytes off new d = .ok ((), { d with data := front ++ new ++ back }) := by
  have hroom : off + new.length ≤ d.data.length := by
    rw [hd, hoff, hnew]
    simp
  have hcheck : Exec.check Fault.wild
      (fun d : Directory => decide (off + new.length ≤ d.data.length)) d = .ok ((), d) :=
    check_ok.mpr ⟨decide_eq_true hroom, rfl⟩
  rw [storeBytes, bind_run hcheck]
  have hstore : store 0 d.data off new = front ++ new ++ back := by
    rw [hd, hoff, store_middle 0 front mid back hnew]
  rw [← hstore]
  rfl

end Access

section Records

variable {d : Directory} {r : Rec} {front back : Bytes}

@[simp] theorem header_length : r.header.length = 19 := by
  simp [Rec.header]

@[simp] theorem encode_length : r.encode.length = r.size := by
  simp [Rec.encode, Rec.size]

@[simp] theorem bytes_nil : bytes [] = [] := rfl

theorem bytes_cons (rs : List Rec) : bytes (r :: rs) = r.encode ++ bytes rs :=
  List.flatMap_cons

theorem bytes_append (rs ss : List Rec) : bytes (rs ++ ss) = bytes rs ++ bytes ss :=
  List.flatMap_append

/-- A record is longer than its fixed part by at least the NUL. -/
theorem size_pos : 19 ≤ r.size := Nat.le_add_right 19 _

theorem load_reclen (hd : d.data = front ++ r.encode ++ back) (hfits : r.Fits) :
    load (front.length + 16) 2 d = .ok (r.size, d) := by
  have hsplit : d.data = (front ++ (le 8 r.ino ++ le 8 r.off)) ++ le 2 r.size ++
      ([r.type] ++ r.body ++ back) := by
    rw [hd, Rec.encode, Rec.header]
    simp only [List.append_assoc]
  have run := @load_run _ _ _ _ (front.length + 16) 2 hsplit (by simp) (by simp)
  have hshort : r.size < 256 ^ 2 := hfits.short
  rw [unle_le, Nat.mod_eq_of_lt hshort] at run
  exact run

theorem load_ino (hd : d.data = front ++ r.encode ++ back) :
    load front.length 8 d = .ok (r.ino % 2 ^ 64, d) := by
  have hsplit : d.data = front ++ le 8 r.ino ++
      (le 8 r.off ++ le 2 r.size ++ [r.type] ++ r.body ++ back) := by
    rw [hd, Rec.encode, Rec.header]
    simp only [List.append_assoc]
  have run := @load_run _ _ _ _ front.length 8 hsplit rfl (by simp)
  rw [unle_le] at run
  exact run

theorem scan_run {body : Bytes} (hd : d.data = front ++ body ++ back) :
    scan body.length front.length d = .ok ((body.takeWhile (· ≠ 0)).length, d) := by
  induction body generalizing front with
  | nil => rfl
  | cons b l ih =>
    have hb : d.data = front ++ [b] ++ (l ++ back) := by
      rw [hd]
      simp
    have hload := @load_run _ _ _ _ front.length 1 hb rfl rfl
    have hbyte : unle [b] = b.toNat := by simp [unle]
    rw [hbyte] at hload
    rw [List.length_cons, scan, bind_run hload]
    by_cases hz : b = 0
    · subst hz
      rfl
    · have hnat : b.toNat ≠ 0 := by
        intro h
        exact hz (UInt8.toNat_inj.mp h)
      have hrest : d.data = (front ++ [b]) ++ l ++ back := by
        rw [hd]
        simp
      have ih := ih hrest
      rw [List.length_append, List.length_singleton] at ih
      rw [if_neg hnat, bind_run ih, List.takeWhile_cons_of_pos (by simpa using hz)]
      rfl

/-- Strings of one length, the first without a NUL, are the same for `strncmp` when they are. -/
theorem strncmp_eq {a b : Bytes} (hlen : a.length = b.length) (hnul : 0 ∉ a) :
    strncmp a b a.length = decide (a = b) := by
  induction a generalizing b with
  | nil =>
    have hb : b = [] := List.length_eq_zero_iff.mp hlen.symm
    rw [hb]
    rfl
  | cons x l ih =>
    cases b with
    | nil => simp at hlen
    | cons y m =>
      have hx : x ≠ 0 := fun h => hnul (h ▸ List.mem_cons_self)
      have ih := @ih m (by simpa using hlen) fun h => hnul (List.mem_cons_of_mem _ h)
      rw [List.length_cons, strncmp, ih]
      by_cases hxy : x = y <;> simp [hxy, hx]
      intro hy
      exact absurd (hxy.trans hy) hx

theorem scan_nul : 0 ∉ r.scan := by
  intro h
  have := List.mem_takeWhile_imp h
  simp at this

theorem match_run (hd : d.data = front ++ r.encode ++ back) (name : Bytes) :
    fuseDirectoryMatch front.length r.size name d = .ok (decide (r.scan = name), d) := by
  have hbody : d.data = (front ++ r.header) ++ r.body ++ back := by
    rw [hd, Rec.encode]
    simp only [List.append_assoc]
  have hscan := scan_run hbody
  have hstart : (front ++ r.header).length = front.length + 19 := by simp
  have hleft : r.size - 19 = r.body.length := by
    unfold Rec.size
    omega
  rw [hstart] at hscan
  rw [fuseDirectoryMatch, hleft, bind_run hscan]
  change (if name.length = r.scan.length then _ else _ : Fd Bool) d = _
  by_cases hlen : name.length = r.scan.length
  · have hname : d.data = (front ++ r.header) ++ r.scan ++ (r.body.dropWhile (· ≠ 0) ++ back) := by
      rw [hbody, List.append_assoc _ r.scan, ← List.append_assoc r.scan, Rec.scan,
        List.takeWhile_append_dropWhile, List.append_assoc]
    have hload := @loadBytes_run _ _ _ _ (front.length + 19) r.scan.length hname hstart.symm rfl
    rw [if_pos hlen]
    change (loadBytes (front.length + 19) r.scan.length >>= fun dName =>
      pure (strncmp dName name r.scan.length) : Fd Bool) d = _
    rw [bind_run hload, strncmp_eq hlen.symm scan_nul]
    rfl
  · have hne : r.scan ≠ name := fun h => hlen (congrArg List.length h.symm)
    rw [if_neg hlen, decide_eq_false hne]
    rfl

end Records

section Probe

variable {d : Directory} {name : Bytes}

/-- The record of a name among records that start at `at_`, and the last one looked at. -/
def seek (name : Bytes) : ℕ → List Rec → Option ℕ × ℕ
  | at_, [] => (none, at_)
  | at_, [r] => if r.scan = name then (some at_, at_) else (none, at_)
  | at_, r :: q :: rs =>
    if r.scan = name then (some at_, at_) else seek name (at_ + r.size) (q :: rs)

theorem seek_head {r : Rec} (hr : r.scan = name) (at_ : ℕ) (rs : List Rec) :
    seek name at_ (r :: rs) = (some at_, at_) := by
  cases rs with
  | nil => exact if_pos hr
  | cons q qs => exact if_pos hr

theorem seek_found {mid post : List Rec} {r : Rec} (hmid : ∀ m ∈ mid, m.scan ≠ name)
    (hr : r.scan = name) (at_ : ℕ) : seek name at_ (mid ++ r :: post) =
      (some (at_ + (bytes mid).length), at_ + (bytes mid).length) := by
  induction mid generalizing at_ with
  | nil => exact seek_head hr at_ post
  | cons m l ih =>
    have hrest : ∀ m' ∈ l, m'.scan ≠ name := fun m' h => hmid m' (List.mem_cons_of_mem _ h)
    have hne : m.scan ≠ name := hmid m List.mem_cons_self
    have hstep : seek name at_ (m :: l ++ r :: post) =
        seek name (at_ + m.size) (l ++ r :: post) := by
      cases l with
      | nil => exact if_neg hne
      | cons q rs => exact if_neg hne
    rw [hstep, ih hrest, bytes_cons, List.length_append, encode_length, Nat.add_assoc]

theorem seek_absent {mid : List Rec} {r : Rec} (hall : ∀ m ∈ mid ++ [r], m.scan ≠ name)
    (at_ : ℕ) : seek name at_ (mid ++ [r]) = (none, at_ + (bytes mid).length) := by
  induction mid generalizing at_ with
  | nil => exact if_neg (hall r (by simp))
  | cons m l ih =>
    have hrest : ∀ m' ∈ l ++ [r], m'.scan ≠ name :=
      fun m' h => hall m' (List.mem_cons_of_mem _ h)
    have hne : m.scan ≠ name := hall m List.mem_cons_self
    have hstep : seek name at_ (m :: l ++ [r]) = seek name (at_ + m.size) (l ++ [r]) := by
      cases l with
      | nil => exact if_neg hne
      | cons q rs => exact if_neg hne
    rw [hstep, ih hrest, bytes_cons, List.length_append, encode_length, Nat.add_assoc]

/-- From a record on, the probe goes through all records up to the last. -/
theorem fuseDirectoryProbe_run {pre rest : List Rec} (h : Holds d (pre ++ rest))
    (hne : rest ≠ []) {fuel : ℕ} (hfuel : rest.length ≤ fuel) :
    fuseDirectoryProbe name fuel (bytes pre).length d =
      .ok (seek name (bytes pre).length rest, d) := by
  induction rest generalizing pre fuel with
  | nil => exact absurd rfl hne
  | cons r rs ih =>
    rw [List.length_cons] at hfuel
    cases fuel with
    | zero => omega
    | succ fuel =>
      have hd : d.data = bytes pre ++ r.encode ++ bytes rs := by
        rw [h.data, bytes_append, bytes_cons, List.append_assoc]
      have hpos := @size_pos r
      have hcheck : Exec.check Fault.assertion (fun _ : Directory => decide (r.size ≠ 0)) d =
          .ok ((), d) := check_ok.mpr ⟨decide_eq_true (by omega), rfl⟩
      rw [fuseDirectoryProbe, bind_run (load_reclen hd (h.fits r (by simp))), bind_run hcheck,
        bind_run (match_run hd name)]
      by_cases hr : r.scan = name
      · rw [decide_eq_true hr, if_pos rfl, seek_head hr]
        rfl
      · have hsize : (Exec.read fun d => d.stSize : Fd ℕ) d = .ok (d.stSize, d) := rfl
        rw [decide_eq_false hr, if_neg (by simp), bind_run hsize, h.size]
        cases rs with
        | nil =>
          have hseek : seek name (bytes pre).length [r] = (none, (bytes pre).length) := if_neg hr
          rw [if_pos (by simp [bytes_append, bytes_cons]), hseek]
          rfl
        | cons q qs =>
          have hqpos := @size_pos q
          have hmore : ¬ (bytes (pre ++ r :: q :: qs)).length ≤ (bytes pre).length + r.size := by
            rw [bytes_append, bytes_cons, bytes_cons]
            simp only [List.length_append, encode_length]
            omega
          have hnext : (bytes pre).length + r.size = (bytes (pre ++ [r])).length := by
            rw [bytes_append, bytes_cons]
            simp
          have hmoved : Holds d ((pre ++ [r]) ++ q :: qs) := by
            rw [List.append_assoc]
            exact h
          have ih := @ih (pre ++ [r]) hmoved (by simp) fuel (by omega)
          have hseek : seek name (bytes pre).length (r :: q :: qs) =
              seek name ((bytes pre).length + r.size) (q :: qs) := if_neg hr
          rw [if_neg hmore, hnext, ih, hseek, hnext]

/-- There is at least a byte for each record. -/
theorem length_le_bytes (rs : List Rec) : 19 * rs.length ≤ (bytes rs).length := by
  induction rs with
  | nil => simp
  | cons r l ih =>
    have := @size_pos r
    rw [bytes_cons, List.length_append, encode_length, List.length_cons]
    omega

/-- A probe ends without a fault, having looked at all records up to the one it finds. -/
theorem probe_run {rs : List Rec} (h : Holds d rs) (hne : rs ≠ []) :
    probe name d = .ok (seek name 0 rs, d) := by
  have hsize : (Exec.read fun d => d.stSize : Fd ℕ) d = .ok (d.stSize, d) := rfl
  have hlen := length_le_bytes rs
  rw [probe, bind_run hsize, h.size]
  exact @fuseDirectoryProbe_run _ _ [] _ h hne _ (by omega)

/-- Either there is a first record of a name, or none has it. -/
theorem first_or_none (name : Bytes) (rs : List Rec) :
    (∃ mid r post, rs = mid ++ r :: post ∧ (∀ m ∈ mid, m.scan ≠ name) ∧ r.scan = name) ∨
      ∀ r ∈ rs, r.scan ≠ name := by
  induction rs with
  | nil => exact Or.inr (by simp)
  | cons r l ih =>
    by_cases hr : r.scan = name
    · exact Or.inl ⟨[], r, l, rfl, by simp, hr⟩
    · rcases ih with ⟨mid, q, post, rfl, hmid, hq⟩ | hnone
      · refine Or.inl ⟨r :: mid, q, post, rfl, ?_, hq⟩
        intro m hm
        rcases List.mem_cons.mp hm with rfl | hm
        · exact hr
        · exact hmid m hm
      · right
        intro m hm
        rcases List.mem_cons.mp hm with rfl | hm
        · exact hr
        · exact hnone m hm

end Probe

section Growth

variable {h : Heap} {d : Directory}

/-- Growing keeps the old bytes and clears the new ones. -/
theorem fuseTrunc_grow (got : h.got = true) (hd : d.stSize = d.data.length) {size : ℕ}
    (hgrow : d.stSize < size) (hsize : size < 2 ^ 63) :
    fuseTrunc h size true d =
      .ok (0, ⟨d.data ++ List.replicate (size - d.stSize) 0, size, d.nlink⟩) := by
  let junk := (List.range (size - d.data.length)).map h.junk
  let grown : Directory := { d with data := d.data.take size ++ junk }
  have hkeep : d.data.take size = d.data := List.take_of_length_le (by omega)
  have hwrite : (Exec.write fun d => { d with
      data := d.data.take size ++ (List.range (size - d.data.length)).map h.junk } : Fd Unit) d =
      .ok ((), grown) := rfl
  have hread : (Exec.read fun d => d.stSize : Fd ℕ) grown = .ok (d.stSize, grown) := rfl
  have hdata : grown.data = d.data ++ junk ++ [] := by
    rw [List.append_nil, ← hkeep]
  have hclear := @storeBytes_run _ _ _ _ (List.replicate (size - d.stSize) 0) d.stSize
    hdata hd (by simp [junk, hd])
  have hwhen : Exec.when (true = true ∧ d.stSize < size)
      (storeBytes d.stSize (List.replicate (size - d.stSize) 0)) grown = _ :=
    (congrFun (if_pos ⟨rfl, hgrow⟩) grown).trans hclear
  have hroom : ¬ (!(h.got && decide (size < 2 ^ 63))) = true := by
    rw [got, decide_eq_true hsize]
    decide
  rw [fuseTrunc, if_neg (by omega), if_neg hroom, bind_run hwrite, bind_run hread, bind_run hwhen,
    List.append_nil]
  rfl

/-- Without memory nothing changes. -/
theorem fuseTrunc_full {size : ℕ} (hfull : ¬ (h.got = true ∧ size < 2 ^ 63)) (hpos : 0 < size)
    (clear : Bool) : fuseTrunc h size clear d = .ok (-ENOSPC, d) := by
  have hcond : (!(h.got && decide (size < 2 ^ 63))) = true := by
    cases hgot : h.got with
    | false => rfl
    | true =>
      have hbig : ¬ size < 2 ^ 63 := fun hs => hfull ⟨hgot, hs⟩
      rw [decide_eq_false hbig]
      decide
  rw [fuseTrunc, if_neg (by omega), if_pos hcond]
  rfl

end Growth

section New

/-- The two records of a new directory. The name of the second one has a blank at its end. -/
def dotRec (ino : ℕ) : Rec := ⟨ino, 24, 4, [DOT, 0, 0, 0, 0]⟩

def dotDotRec (parent : ℕ) : Rec := ⟨parent, 48, 4, dotDotName ++ [0, 0]⟩

theorem template_eq : fuseDirTemplate = bytes [dotRec 0, dotDotRec 0] := by decide

/-- A new directory has its two records. -/
theorem fuseDirectoryNew_run {h : Heap} (got : h.got = true) (ino parent : ℕ) :
    fuseDirectoryNew h ino parent allocated =
      .ok (true, ⟨bytes [dotRec ino, dotDotRec parent], 48, 2⟩) := by
  have hlen : fuseDirTemplate.length = 48 := by decide
  have htrunc := @fuseTrunc_grow h allocated got rfl 48 (by decide) (by decide)
  have hsplit : ∀ i p, bytes [dotRec i, dotDotRec p] = [] ++ le 8 i ++
      (le 8 24 ++ le 2 24 ++ [4] ++ [DOT, 0, 0, 0, 0] ++ (dotDotRec p).encode) := by
    intro i p
    rw [bytes_cons, bytes_cons, bytes_nil]
    simp only [Rec.encode, Rec.header, dotRec, Rec.size, List.append_assoc, List.nil_append,
      List.append_nil]
    rfl
  have hoff : ∀ i p, bytes [dotRec i, dotDotRec p] = le 8 i ++ le 8 24 ++
      (le 2 24 ++ [4] ++ [DOT, 0, 0, 0, 0] ++ (dotDotRec p).encode) := by
    intro i p
    rw [hsplit]
    simp only [List.append_assoc, List.nil_append]
  have hsecond : ∀ i p, bytes [dotRec i, dotDotRec p] = (dotRec i).encode ++ le 8 p ++
      (le 8 48 ++ le 2 24 ++ [4] ++ (dotDotName ++ [0, 0])) := by
    intro i p
    rw [bytes_cons, bytes_cons, bytes_nil]
    simp only [Rec.encode, Rec.header, dotDotRec, Rec.size, List.append_assoc, List.append_nil]
    rfl
  have hcopy := @storeBytes_run ⟨List.replicate 48 0, 48, 2⟩ [] (List.replicate 48 0) []
    fuseDirTemplate 0 (by simp) rfl (by rw [hlen, List.length_replicate])
  have hself := @storeBytes_run ⟨bytes [dotRec 0, dotDotRec 0], 48, 2⟩ _ _ _ (le 8 ino) 0
    (hsplit 0 0) rfl (by simp)
  have hload := @load_run ⟨bytes [dotRec ino, dotDotRec 0], 48, 2⟩ _ _ _ 8 8
    (hoff ino 0) (by simp) (by simp)
  have hparent := @storeBytes_run ⟨bytes [dotRec ino, dotDotRec 0], 48, 2⟩ _ _ _ (le 8 parent) 24
    (hsecond ino 0) (by simp [dotRec, Rec.size]) (by simp)
  have htwentyfour : unle (le 8 24) = 24 := by decide
  rw [List.nil_append, List.append_nil, template_eq] at hcopy
  rw [← hsplit] at hself
  rw [htwentyfour] at hload
  rw [← hsecond] at hparent
  rw [fuseDirectoryNew, hlen, bind_run htrunc, if_neg (by decide), template_eq]
  change (storeBytes 0 (bytes [dotRec 0, dotDotRec 0]) >>= fun _ => _ : Fd Bool)
    ⟨List.replicate 48 0, 48, 2⟩ = _
  rw [bind_run hcopy, bind_run hself, bind_run hload, bind_run hparent]
  rfl

end New

section Insert

variable {h : Heap} {d : Directory} {name : Bytes} {inum : ℕ} {type : UInt8}

/-- The record `fuse_directory_insert` makes. -/
def newRec (name : Bytes) (inum off : ℕ) (type : UInt8) : Rec :=
  ⟨inum, off, type, name ++ List.replicate (fuseDReclen name.length - 19 - name.length) 0⟩

/-- A record length leaves room for the name and its NUL. -/
theorem room_for_name (n : ℕ) : 19 + n + 1 ≤ fuseDReclen n := by
  unfold fuseDReclen
  omega

theorem newRec_size {off : ℕ} : (newRec name inum off type).size = fuseDReclen name.length := by
  have := room_for_name name.length
  unfold Rec.size newRec
  rw [List.length_append, List.length_replicate]
  omega

/-- A name of at most 255 bytes makes a record that fits. -/
theorem newRec_fits {off : ℕ} (hname : name.length ≤ 255) : (newRec name inum off type).Fits := by
  constructor
  · have := room_for_name name.length
    apply List.mem_append_right
    rw [List.mem_replicate]
    exact ⟨by omega, rfl⟩
  · rw [newRec_size]
    unfold fuseDReclen
    omega

/-- A name without a NUL is what its record is found under. -/
theorem newRec_scan {off : ℕ} (hname : 0 ∉ name) : (newRec name inum off type).scan = name := by
  have hroom := room_for_name name.length
  have hzeros : fuseDReclen name.length - 19 - name.length =
      fuseDReclen name.length - 19 - name.length - 1 + 1 := by omega
  have hall : ∀ c ∈ name, decide (c ≠ 0) = true := by
    intro c hc
    apply decide_eq_true
    rintro rfl
    exact hname hc
  rw [Rec.scan, newRec, hzeros, List.replicate_succ, List.takeWhile_append_of_pos hall]
  simp

/-- A store at the start of cleared bytes. -/
theorem storeBytes_zeros {front new : Bytes} {off k : ℕ}
    (hd : d.data = front ++ List.replicate k 0) (hoff : off = front.length)
    (hnew : new.length ≤ k) : storeBytes off new d =
      .ok ((), { d with data := front ++ new ++ List.replicate (k - new.length) 0 }) := by
  apply @storeBytes_run _ _ (List.replicate new.length 0) _ _ _ _ hoff (by simp)
  rw [hd, List.append_assoc, List.replicate_append_replicate]
  congr 2
  omega

/-- A name that is there is refused. -/
theorem insert_present {rs : List Rec} (hold : Holds d rs) (hne : rs ≠ [])
    (hin : ∃ r ∈ rs, r.scan = name) :
    fuseDirectoryInsert h name inum type d = .ok (-EEXIST, d) := by
  rcases first_or_none name rs with ⟨mid, r, post, rfl, hmid, hr⟩ | hnone
  · have hprobe := @probe_run _ name _ hold hne
    rw [seek_found hmid hr] at hprobe
    rw [fuseDirectoryInsert, bind_run hprobe]
    rfl
  · rcases hin with ⟨r, hr, hname⟩
    exact absurd hname (hnone r hr)

/-- What an insert does before it stores anything. -/
theorem insert_absent_probe {mid : List Rec} {r : Rec} (hold : Holds d (mid ++ [r]))
    (habsent : ∀ m ∈ mid ++ [r], m.scan ≠ name) :
    probe name d = .ok ((none, (bytes mid).length), d) ∧
      load ((bytes mid).length + 16) 2 d = .ok (r.size, d) ∧
      d.stSize = (bytes mid).length + r.size := by
  have hprobe := @probe_run _ name _ hold (by simp)
  rw [seek_absent habsent, Nat.zero_add] at hprobe
  have hd : d.data = bytes mid ++ r.encode ++ [] := by
    rw [hold.data, bytes_append, bytes_cons, bytes_nil, List.append_assoc]
  refine ⟨hprobe, load_reclen hd (hold.fits r (by simp)), ?_⟩
  rw [hold.size, bytes_append, bytes_cons]
  simp

/-- Without memory an insert changes nothing. -/
theorem insert_full {mid : List Rec} {r : Rec} (hold : Holds d (mid ++ [r]))
    (habsent : ∀ m ∈ mid ++ [r], m.scan ≠ name)
    (hfull : ¬ (h.got = true ∧ d.stSize + fuseDReclen name.length < 2 ^ 63)) :
    fuseDirectoryInsert h name inum type d = .ok (-ENOSPC, d) := by
  rcases insert_absent_probe hold habsent with ⟨hprobe, hload, hend⟩
  have hroom := room_for_name name.length
  have hsize : (Exec.read fun d => d.stSize : Fd ℕ) d = .ok (d.stSize, d) := rfl
  have hgrows : decide (d.stSize = 0 ∨
      d.stSize < (bytes mid).length + r.size + fuseDReclen name.length) = true :=
    decide_eq_true (Or.inr (by omega))
  rw [hend] at hfull
  have htrunc := @fuseTrunc_full h d _ hfull (by omega) true
  rw [fuseDirectoryInsert, bind_run hprobe]
  change (load ((bytes mid).length + 16) 2 >>= fun r => _ : Fd ℤ) d = _
  rw [bind_run hload, bind_run hsize, hgrows]
  change (fuseTrunc h ((bytes mid).length + r.size + fuseDReclen name.length) true >>=
    fun err => _ : Fd ℤ) d = _
  rw [bind_run htrunc]
  rfl

/-- The record in front of a new one, with its offset set to its end. -/
def Rec.patched (r : Rec) (off : ℕ) : Rec := { r with off := off }

theorem bytes_patched (mid : List Rec) (r : Rec) (off : ℕ) :
    (bytes (mid ++ [r.patched off])).length = (bytes mid).length + r.size := by
  rw [bytes_append, bytes_cons, bytes_nil, List.append_nil, List.length_append, encode_length]
  rfl

/-- Storing the offset of the last record. -/
theorem patch_run {mid : List Rec} {r : Rec} {rest : Bytes}
    (hd : d.data = bytes (mid ++ [r]) ++ rest) (off : ℕ) :
    storeBytes ((bytes mid).length + 8) (le 8 off) d =
      .ok ((), { d with data := bytes (mid ++ [r.patched off]) ++ rest }) := by
  have hsplit : d.data = (bytes mid ++ le 8 r.ino) ++ le 8 r.off ++
      (le 2 r.size ++ [r.type] ++ r.body ++ rest) := by
    rw [hd, bytes_append, bytes_cons, bytes_nil, Rec.encode, Rec.header]
    simp only [List.append_assoc, List.append_nil]
  have hresult : bytes mid ++ le 8 r.ino ++ le 8 off ++
      (le 2 r.size ++ [r.type] ++ r.body ++ rest) = bytes (mid ++ [r.patched off]) ++ rest := by
    rw [bytes_append, bytes_cons, bytes_nil, Rec.encode, Rec.header]
    simp only [List.append_assoc, List.append_nil]
    rfl
  rw [storeBytes_run hsplit (by simp) (by simp), hresult]

/-- Storing the fields of a new record into cleared bytes, one behind the other. -/
theorem newRec_stores {front : Bytes} {off : ℕ} (hoff : off = front.length) (n size nlink : ℕ)
    (m : Fd ℤ) :
    let k := fuseDReclen name.length
    (do
      storeBytes off (le 8 inum)
      let n ← Exec.deref .wild fun _ => some n
      storeBytes (off + 8) (le 8 n)
      storeBytes (off + 16) (le 2 k)
      storeBytes (off + 18) [type]
      storeBytes (off + 19) name
      m : Fd ℤ) ⟨front ++ List.replicate k 0, size, nlink⟩ =
    m ⟨front ++ (newRec name inum n type).encode, size, nlink⟩ := by
  intro k
  subst hoff
  have hroom : 19 + name.length + 1 ≤ k := room_for_name name.length
  let f₁ := front ++ le 8 inum
  let f₂ := f₁ ++ le 8 n
  let f₃ := f₂ ++ le 2 k
  let f₄ := f₃ ++ [type]
  have run₁ := @storeBytes_zeros ⟨front ++ List.replicate k 0, size, nlink⟩ front (le 8 inum)
    front.length k rfl rfl (by simp; omega)
  have run₂ := @storeBytes_zeros ⟨f₁ ++ List.replicate (k - 8) 0, size, nlink⟩ f₁ (le 8 n)
    (front.length + 8) (k - 8) rfl (by simp [f₁]) (by simp; omega)
  have run₃ := @storeBytes_zeros ⟨f₂ ++ List.replicate (k - 8 - 8) 0, size, nlink⟩ f₂ (le 2 k)
    (front.length + 16) (k - 8 - 8) rfl (by simp [f₂, f₁]) (by simp; omega)
  have run₄ := @storeBytes_zeros ⟨f₃ ++ List.replicate (k - 8 - 8 - 2) 0, size, nlink⟩ f₃ [type]
    (front.length + 18) (k - 8 - 8 - 2) rfl (by simp [f₃, f₂, f₁]) (by simp; omega)
  have run₅ := @storeBytes_zeros ⟨f₄ ++ List.replicate (k - 8 - 8 - 2 - 1) 0, size, nlink⟩ f₄ name
    (front.length + 19) (k - 8 - 8 - 2 - 1) rfl (by simp [f₄, f₃, f₂, f₁]) (by omega)
  have hdone : f₄ ++ name ++ List.replicate (k - 8 - 8 - 2 - 1 - name.length) 0 =
      front ++ (newRec name inum n type).encode := by
    have hleft : k - 8 - 8 - 2 - 1 - name.length = k - 19 - name.length := by omega
    rw [Rec.encode, Rec.header, newRec_size, hleft]
    simp only [f₄, f₃, f₂, f₁, newRec, List.append_assoc]
    rfl
  simp only [le_length] at run₁ run₂ run₃
  rw [List.length_singleton] at run₄
  have hset : ∀ e : Directory, (Exec.deref .wild fun _ => some n : Fd ℕ) e = .ok (n, e) :=
    fun e => deref_ok.mpr ⟨rfl, rfl⟩
  rw [bind_run run₁, bind_run (hset _), bind_run run₂, bind_run run₃, bind_run run₄, bind_run run₅,
    hdone]

/-- With memory an insert patches the last record and appends the new one. -/
theorem insert_absent {mid : List Rec} {r : Rec} (hold : Holds d (mid ++ [r]))
    (habsent : ∀ m ∈ mid ++ [r], m.scan ≠ name) (got : h.got = true)
    (hsize : d.stSize + fuseDReclen name.length < 2 ^ 63) :
    fuseDirectoryInsert h name inum type d = .ok (0,
      ⟨bytes (mid ++ [r.patched d.stSize,
          newRec name inum (d.stSize + fuseDReclen name.length) type]),
        d.stSize + fuseDReclen name.length, d.nlink + 1⟩) := by
  rcases insert_absent_probe hold habsent with ⟨hprobe, hload, hend⟩
  have hroom := room_for_name name.length
  have hread : (Exec.read fun d => d.stSize : Fd ℕ) d = .ok (d.stSize, d) := rfl
  have hgrows : decide (d.stSize = 0 ∨
      d.stSize < (bytes mid).length + r.size + fuseDReclen name.length) = true :=
    decide_eq_true (Or.inr (by omega))
  have hfull : d.stSize = d.data.length := by rw [hold.size, hold.data]
  have htrunc := @fuseTrunc_grow h d got hfull (d.stSize + fuseDReclen name.length)
    (by omega) hsize
  rw [hold.data, Nat.add_sub_cancel_left] at htrunc
  have hpatch := @patch_run ⟨bytes (mid ++ [r]) ++ List.replicate (fuseDReclen name.length) 0,
    d.stSize + fuseDReclen name.length, d.nlink⟩ mid r _ rfl d.stSize
  rw [fuseDirectoryInsert, bind_run hprobe]
  change (load ((bytes mid).length + 16) 2 >>= fun r => _ : Fd ℤ) d = _
  rw [bind_run hload, bind_run hread, hgrows, ← hend]
  change (fuseTrunc h (d.stSize + fuseDReclen name.length) true >>= fun err => _ : Fd ℤ) d = _
  rw [bind_run htrunc, if_neg (by decide)]
  change (storeBytes ((bytes mid).length + 8) (le 8 d.stSize) >>= fun _ => _ : Fd ℤ) _ = _
  rw [bind_run hpatch]
  have hstart : d.stSize = (bytes (mid ++ [r.patched d.stSize])).length := by
    rw [bytes_patched, hend]
  have hencode : bytes (mid ++ [r.patched d.stSize]) ++
      (newRec name inum (d.stSize + fuseDReclen name.length) type).encode =
      bytes (mid ++ [r.patched d.stSize,
        newRec name inum (d.stSize + fuseDReclen name.length) type]) := by
    simp only [bytes_append, bytes_cons, bytes_nil, List.append_nil, List.append_assoc]
  rw [← hencode]
  exact newRec_stores hstart (d.stSize + fuseDReclen name.length)
    (d.stSize + fuseDReclen name.length) d.nlink
    (do Exec.write fun d => { d with nlink := d.nlink + 1 }; return 0)

end Insert

section Unlink

variable {d : Directory} {name : Bytes}

/-- What `fuse_unlink_entry` leaves of a record. -/
def Rec.wiped (r : Rec) : Rec := ⟨0, 0, 0, List.replicate r.body.length 0⟩

@[simp] theorem wiped_size (r : Rec) : r.wiped.size = r.size := by
  simp [Rec.size, Rec.wiped]

theorem wiped_fits {r : Rec} (h : r.Fits) : r.wiped.Fits := by
  constructor
  · have hpos := List.length_pos_of_mem h.nul
    exact List.mem_replicate.mpr ⟨by omega, rfl⟩
  · rw [wiped_size]
    exact h.short

/-- A wiped record has no name. -/
theorem wiped_scan (r : Rec) : r.wiped.scan = [] := by
  unfold Rec.scan Rec.wiped
  cases r.body.length with
  | zero => rfl
  | succ n => rfl

/-- The two stores of an unlink. -/
theorem wipe_run {mid post : List Rec} {r : Rec} (hd : d.data = bytes (mid ++ r :: post)) {m : Fd ℤ} :
    (do
      storeBytes (bytes mid).length (List.replicate r.size 0)
      storeBytes ((bytes mid).length + 16) (le 2 r.size)
      m : Fd ℤ) d = m { d with data := bytes (mid ++ r.wiped :: post) } := by
  have hwhole : d.data = bytes mid ++ r.encode ++ bytes post := by
    rw [hd, bytes_append, bytes_cons, List.append_assoc]
  have run₁ := @storeBytes_run _ _ _ _ (List.replicate r.size 0) (bytes mid).length
    hwhole rfl (by simp)
  have hzeros : (List.replicate r.size 0 : Bytes) =
      (le 8 0 ++ le 8 0) ++ le 2 0 ++ ([0] ++ List.replicate r.body.length 0) := by
    have hsize : r.size = 16 + 2 + 1 + r.body.length := by
      unfold Rec.size
      omega
    rw [hsize, List.replicate_add, List.replicate_add, List.replicate_add]
    simp only [List.append_assoc]
    rfl
  have hlast : (bytes mid ++ List.replicate r.size 0 ++ bytes post) =
      (bytes mid ++ (le 8 0 ++ le 8 0)) ++ le 2 0 ++
        ([0] ++ List.replicate r.body.length 0 ++ bytes post) := by
    rw [hzeros]
    simp only [List.append_assoc]
  have run₂ := @storeBytes_run ⟨_, d.stSize, d.nlink⟩ _ _ _ (le 2 r.size)
    ((bytes mid).length + 16) hlast (by simp) (by simp)
  have hdone : bytes mid ++ (le 8 0 ++ le 8 0) ++ le 2 r.size ++
      ([0] ++ List.replicate r.body.length 0 ++ bytes post) = bytes (mid ++ r.wiped :: post) := by
    rw [bytes_append, bytes_cons, Rec.encode, Rec.header, wiped_size]
    simp only [Rec.wiped, List.append_assoc]
  rw [hdone] at run₂
  rw [bind_run run₁, bind_run run₂]

theorem unlink_absent {rs : List Rec} (hold : Holds d rs) (hne : rs ≠ [])
    (habsent : ∀ r ∈ rs, r.scan ≠ name) : fuseUnlinkEntry name d = .ok (-ENOENT, d) := by
  have hprobe := @probe_run _ name _ hold hne
  rcases List.eq_nil_or_concat rs with hnil | ⟨mid, r, hlast⟩
  · exact absurd hnil hne
  · rw [List.concat_eq_append] at hlast
    subst hlast
    rw [seek_absent habsent] at hprobe
    rw [fuseUnlinkEntry, bind_run hprobe]
    rfl

/-- An unlink wipes the first record of the name, if the link count allows it. -/
theorem unlink_found {mid post : List Rec} {r : Rec} (hold : Holds d (mid ++ r :: post))
    (hmid : ∀ m ∈ mid, m.scan ≠ name) (hr : r.scan = name) :
    fuseUnlinkEntry name d =
      if 2 < d.nlink then .ok (0, ⟨bytes (mid ++ r.wiped :: post), d.stSize, d.nlink - 1⟩)
      else .error .assertion := by
  have hprobe := @probe_run _ name _ hold (by simp)
  rw [seek_found hmid hr, Nat.zero_add] at hprobe
  have hd : d.data = bytes mid ++ r.encode ++ bytes post := by
    rw [hold.data, bytes_append, bytes_cons, List.append_assoc]
  have hload := load_reclen hd (hold.fits r (by simp))
  rw [fuseUnlinkEntry, bind_run hprobe]
  change (load ((bytes mid).length + 16) 2 >>= fun reclen => _ : Fd ℤ) d = _
  rw [bind_run hload, wipe_run hold.data]
  by_cases hlinks : 2 < d.nlink
  · have hcheck : (Exec.check .assertion fun d => decide (2 < d.nlink) : Fd Unit)
        { d with data := bytes (mid ++ r.wiped :: post) } = .ok ((), _) :=
      check_ok.mpr ⟨decide_eq_true hlinks, rfl⟩
    rw [if_pos hlinks, bind_run hcheck]
    rfl
  · have hcheck : (Exec.check .assertion fun d => decide (2 < d.nlink) : Fd Unit)
        { d with data := bytes (mid ++ r.wiped :: post) } = .error .assertion := by
      unfold Exec.check
      exact if_neg (by simpa using hlinks)
    rw [if_neg hlinks, bind_error hcheck]

theorem lookup_absent {rs : List Rec} (hold : Holds d rs) (hne : rs ≠ [])
    (habsent : ∀ r ∈ rs, r.scan ≠ name) : lookupIno name d = .ok (none, d) := by
  have hprobe := @probe_run _ name _ hold hne
  rcases List.eq_nil_or_concat rs with hnil | ⟨mid, r, hlast⟩
  · exact absurd hnil hne
  · rw [List.concat_eq_append] at hlast
    subst hlast
    rw [seek_absent habsent] at hprobe
    rw [lookupIno, bind_run hprobe]
    rfl

/-- A lookup gives the inode number of the first record of the name. -/
theorem lookup_found {mid post : List Rec} {r : Rec} (hold : Holds d (mid ++ r :: post))
    (hmid : ∀ m ∈ mid, m.scan ≠ name) (hr : r.scan = name) :
    lookupIno name d = .ok (some (r.ino % 2 ^ 64), d) := by
  have hprobe := @probe_run _ name _ hold (by simp)
  rw [seek_found hmid hr, Nat.zero_add] at hprobe
  have hd : d.data = bytes mid ++ r.encode ++ bytes post := by
    rw [hold.data, bytes_append, bytes_cons, List.append_assoc]
  rw [lookupIno, bind_run hprobe]
  change (load (bytes mid).length 8 >>= fun ino => pure (some ino) : Fd (Option ℕ)) d = _
  rw [bind_run (load_ino hd)]
  rfl

end Unlink

section Runs

/-- A call that changes a directory. -/
inductive Op where
  | insert (h : Heap) (name : Bytes) (inum : ℕ) (type : UInt8)
  | unlink (name : Bytes)

def Op.name : Op → Bytes
  | .insert _ name _ _ => name
  | .unlink name => name

def Op.run : Op → Fd ℤ
  | .insert h name inum type => fuseDirectoryInsert h name inum type
  | .unlink name => fuseUnlinkEntry name

/-- What a new directory can become by calls with names of at most 255 bytes. -/
inductive Reached : Directory → Prop where
  | new {h : Heap} {ino parent : ℕ} {d : Directory}
      (run : fuseDirectoryNew h ino parent allocated = .ok (true, d)) : Reached d
  | op {d d' : Directory} {op : Op} {ret : ℤ} (before : Reached d)
      (short : op.name.length ≤ 255) (run : op.run d = .ok (ret, d')) : Reached d'

theorem holds_new {ino parent : ℕ} :
    Holds ⟨bytes [dotRec ino, dotDotRec parent], 48, 2⟩ [dotRec ino, dotDotRec parent] := by
  refine ⟨rfl, by simp [bytes_cons, dotRec, dotDotRec, Rec.size, FuseDriver.dotDotName], ?_⟩
  intro r hr
  rcases List.mem_cons.mp hr with rfl | hr
  · exact ⟨by simp [dotRec], by simp [Rec.size, dotRec]⟩
  · rw [List.mem_singleton.mp hr]
    exact ⟨by simp [dotDotRec], by simp [Rec.size, dotDotRec, FuseDriver.dotDotName]⟩

/-- A name is in no record, or the records can be told apart at its first one. -/
theorem last_record {rs : List Rec} (hne : rs ≠ []) : ∃ mid r, rs = mid ++ [r] := by
  rcases List.eq_nil_or_concat rs with hnil | ⟨mid, r, hlast⟩
  · exact absurd hnil hne
  · exact ⟨mid, r, by rw [hlast, List.concat_eq_append]⟩

/-- The records behind an insert fill the data again. -/
theorem appended_holds {d : Directory} {mid : List Rec} {r : Rec} {name : Bytes} {inum : ℕ}
    {type : UInt8} (hold : Holds d (mid ++ [r])) (short : name.length ≤ 255) :
    Holds ⟨bytes (mid ++ [r.patched d.stSize,
        newRec name inum (d.stSize + fuseDReclen name.length) type]),
      d.stSize + fuseDReclen name.length, d.nlink + 1⟩
      (mid ++ [r.patched d.stSize, newRec name inum (d.stSize + fuseDReclen name.length) type]) := by
  refine ⟨rfl, ?_, ?_⟩
  · simp only [bytes_append, bytes_cons, bytes_nil, List.append_nil, List.length_append,
      encode_length, newRec_size, hold.size]
    simp only [Rec.size, Rec.patched]
    omega
  · intro q hq
    rcases List.mem_append.mp hq with hq | hq
    · exact hold.fits q (List.mem_append_left _ hq)
    · rcases List.mem_cons.mp hq with rfl | hq
      · have hr := hold.fits r (by simp)
        exact ⟨hr.nul, hr.short⟩
      · rw [List.mem_singleton.mp hq]
        exact newRec_fits short

/-- The records behind an unlink fill the data still. -/
theorem wiped_holds {d : Directory} {mid post : List Rec} {r : Rec}
    (hold : Holds d (mid ++ r :: post)) (nlink : ℕ) :
    Holds ⟨bytes (mid ++ r.wiped :: post), d.stSize, nlink⟩ (mid ++ r.wiped :: post) := by
  refine ⟨rfl, ?_, ?_⟩
  · simp only [hold.size, bytes_append, bytes_cons, List.length_append, encode_length, wiped_size]
  · intro q hq
    rcases List.mem_append.mp hq with hq | hq
    · exact hold.fits q (List.mem_append_left _ hq)
    · rcases List.mem_cons.mp hq with rfl | hq
      · exact wiped_fits (hold.fits r (by simp))
      · exact hold.fits q (by simp [hq])

/-- An insert always returns, and leaves records. -/
theorem insert_holds {h : Heap} {d : Directory} {rs : List Rec} {name : Bytes} {inum : ℕ}
    {type : UInt8} (hold : Holds d rs) (hne : rs ≠ []) (short : name.length ≤ 255) :
    ∃ ret d' rs', fuseDirectoryInsert h name inum type d = .ok (ret, d') ∧ Holds d' rs' ∧
      rs' ≠ [] := by
  by_cases hin : ∃ r ∈ rs, r.scan = name
  · exact ⟨_, d, rs, insert_present hold hne hin, hold, hne⟩
  · have habsent : ∀ r ∈ rs, r.scan ≠ name := fun r hr hname => hin ⟨r, hr, hname⟩
    rcases last_record hne with ⟨mid, r, rfl⟩
    by_cases hfull : h.got = true ∧ d.stSize + fuseDReclen name.length < 2 ^ 63
    · exact ⟨_, _, _, insert_absent hold habsent hfull.1 hfull.2,
        appended_holds hold short, by simp⟩
    · exact ⟨_, d, mid ++ [r], insert_full hold habsent hfull, hold, hne⟩

/-- An unlink that returns leaves records. -/
theorem unlink_holds {d d' : Directory} {rs : List Rec} {name : Bytes} {ret : ℤ}
    (hold : Holds d rs) (hne : rs ≠ []) (run : fuseUnlinkEntry name d = .ok (ret, d')) :
    ∃ rs', Holds d' rs' ∧ rs' ≠ [] := by
  rcases first_or_none name rs with ⟨mid, r, post, rfl, hmid, hr⟩ | habsent
  · rw [unlink_found hold hmid hr] at run
    by_cases hlinks : 2 < d.nlink
    · rw [if_pos hlinks] at run
      rcases Prod.mk.inj (Except.ok.inj run) with ⟨-, rfl⟩
      exact ⟨mid ++ r.wiped :: post, wiped_holds hold _, by simp⟩
    · rw [if_neg hlinks] at run
      simp at run
  · rw [unlink_absent hold hne habsent] at run
    rcases Prod.mk.inj (Except.ok.inj run) with ⟨-, rfl⟩
    exact ⟨rs, hold, hne⟩

/-- The data of every directory is a list of records. -/
theorem reached_holds {d : Directory} (h : Reached d) : ∃ rs, Holds d rs ∧ rs ≠ [] := by
  induction h with
  | @new h ino parent d run =>
    by_cases got : h.got = true
    · rw [fuseDirectoryNew_run got] at run
      rcases Prod.mk.inj (Except.ok.inj run) with ⟨-, rfl⟩
      exact ⟨_, holds_new, by simp⟩
    · have htrunc := @fuseTrunc_full h allocated fuseDirTemplate.length
        (fun hfull => got hfull.1) (by decide) true
      rw [fuseDirectoryNew, bind_run htrunc, if_pos (by decide)] at run
      have hfalse : false = true := (pure_ok.mp run).1
      exact absurd hfalse (by decide)
  | @op d d' op ret _ short run ih =>
    rcases ih with ⟨rs, hold, hne⟩
    cases op with
    | insert h name inum type =>
      rcases @insert_holds h _ _ _ inum type hold hne short with
        ⟨ret', d'', rs', run', hold', hne'⟩
      have hret := run.symm.trans run'
      rcases Prod.mk.inj (Except.ok.inj hret) with ⟨-, rfl⟩
      exact ⟨rs', hold', hne'⟩
    | unlink name => exact unlink_holds hold hne run

end Runs

section Driver

/-! The driver's own list of entries is what the records say. -/

variable {name : Bytes} {mid post : List Rec} {r : Rec}

def dirents (rs : List Rec) : List FuseDriver.Dirent := rs.map fun r => ⟨r.ino, r.scan⟩

theorem dirents_probe (rs : List Rec) :
    (FuseDriver.fuseDirectoryProbe (dirents rs) name).isSome = true ↔ ∃ r ∈ rs, r.scan = name := by
  rw [FuseDriver.fuseDirectoryProbe, List.find?_isSome]
  constructor
  · rintro ⟨de, hde, hname⟩
    rcases List.mem_map.mp hde with ⟨r, hr, rfl⟩
    exact ⟨r, hr, eq_of_beq hname⟩
  · rintro ⟨r, hr, hname⟩
    exact ⟨_, List.mem_map_of_mem hr, beq_iff_eq.mpr hname⟩

theorem dirents_insert {off off' inum : ℕ} {type : UInt8} (hname : 0 ∉ name) :
    dirents (mid ++ [r.patched off, newRec name inum off' type]) =
      dirents (mid ++ [r]) ++ [⟨inum, name⟩] := by
  have hscan := @newRec_scan _ inum type off' hname
  simp only [dirents, List.map_append, List.map_cons, List.map_nil, hscan, List.append_assoc]
  rfl

theorem dirents_unlink (hmid : ∀ m ∈ mid, m.scan ≠ name) (hr : r.scan = name) :
    dirents (mid ++ r.wiped :: post) =
      FuseDriver.blankEntry name (dirents (mid ++ r :: post)) := by
  induction mid with
  | nil =>
    simp only [dirents, List.nil_append, List.map_cons, FuseDriver.blankEntry, if_pos hr,
      wiped_scan]
    rfl
  | cons m l ih =>
    have hrest := ih fun m' h => hmid m' (List.mem_cons_of_mem _ h)
    have hne : m.scan ≠ name := hmid m List.mem_cons_self
    simp only [dirents, List.cons_append, List.map_cons, FuseDriver.blankEntry, if_neg hne]
    exact congrArg _ hrest

/-- What a call does to the driver's list, by what it returns. -/
def Op.entries (ret : ℤ) (l : List FuseDriver.Dirent) : Op → List FuseDriver.Dirent
  | .insert _ name inum _ => if ret = 0 then l ++ [⟨inum, name⟩] else l
  | .unlink name => if ret = 0 then FuseDriver.blankEntry name l else l

/-- Where the driver's list has the name, an insert is refused, and where it has not, an unlink is. -/
def Op.Refused (ret : ℤ) (l : List FuseDriver.Dirent) : Op → Prop
  | .insert _ name _ _ => ret = -EEXIST ↔ (FuseDriver.fuseDirectoryProbe l name).isSome = true
  | .unlink name => ret = -ENOENT ↔ (FuseDriver.fuseDirectoryProbe l name).isSome = false

theorem Op.entries_failed {ret : ℤ} (failed : ret ≠ 0) (l : List FuseDriver.Dirent) (op : Op) :
    op.entries ret l = l := by
  cases op <;> exact if_neg failed

theorem insert_dirents {h : Heap} {d d' : Directory} {rs : List Rec} {inum : ℕ} {type : UInt8}
    {ret : ℤ} (hold : Holds d rs) (hne : rs ≠ []) (short : name.length ≤ 255) (string : 0 ∉ name)
    (run : fuseDirectoryInsert h name inum type d = .ok (ret, d')) :
    ∃ rs', Holds d' rs' ∧ dirents rs' = (Op.insert h name inum type).entries ret (dirents rs) ∧
      (Op.insert h name inum type).Refused ret (dirents rs) := by
  have probe := @dirents_probe name rs
  by_cases hin : ∃ r ∈ rs, r.scan = name
  · rw [insert_present hold hne hin] at run
    cases run
    refine ⟨rs, hold, ?_, iff_of_true rfl (probe.mpr hin)⟩
    rw [Op.entries_failed (by decide)]
  · have habsent : ∀ r ∈ rs, r.scan ≠ name := fun r hr hname => hin ⟨r, hr, hname⟩
    obtain ⟨mid, r, rfl⟩ := last_record hne
    by_cases hfull : h.got = true ∧ d.stSize + fuseDReclen name.length < 2 ^ 63
    · rw [insert_absent hold habsent hfull.1 hfull.2] at run
      cases run
      refine ⟨_, appended_holds hold short, ?_, iff_of_false (by decide) (probe.not.mpr hin)⟩
      exact dirents_insert string
    · rw [insert_full hold habsent hfull] at run
      cases run
      refine ⟨_, hold, ?_, iff_of_false (by decide) (probe.not.mpr hin)⟩
      rw [Op.entries_failed (by decide)]

theorem unlink_dirents {d d' : Directory} {rs : List Rec} {ret : ℤ} (hold : Holds d rs)
    (hne : rs ≠ []) (run : fuseUnlinkEntry name d = .ok (ret, d')) :
    ∃ rs', Holds d' rs' ∧ dirents rs' = (Op.unlink name).entries ret (dirents rs) ∧
      (Op.unlink name).Refused ret (dirents rs) := by
  have probe := @dirents_probe name rs
  rcases first_or_none name rs with ⟨mid, r, post, rfl, hmid, hr⟩ | habsent
  · rw [unlink_found hold hmid hr] at run
    by_cases hlinks : 2 < d.nlink
    · rw [if_pos hlinks] at run
      cases run
      refine ⟨_, wiped_holds hold _, dirents_unlink hmid hr, iff_of_false (by decide) ?_⟩
      rw [Bool.not_eq_false]
      exact probe.mpr ⟨r, by simp, hr⟩
    · rw [if_neg hlinks] at run
      cases run
  · rw [unlink_absent hold hne habsent] at run
    cases run
    refine ⟨rs, hold, ?_, iff_of_true rfl ?_⟩
    · rw [Op.entries_failed (by decide)]
    · rw [← Bool.not_eq_true, probe]
      rintro ⟨r, hr, hname⟩
      exact habsent r hr hname

/-- The calls on the bytes of a directory do to what its records say what the driver's model does to
its list of entries. -/
theorem op_dirents {d d' : Directory} {op : Op} {ret : ℤ} (reached : Reached d)
    (short : op.name.length ≤ 255) (string : 0 ∉ op.name) (run : op.run d = .ok (ret, d')) :
    ∃ rs rs', Holds d rs ∧ Holds d' rs' ∧ dirents rs' = op.entries ret (dirents rs) ∧
      op.Refused ret (dirents rs) := by
  obtain ⟨rs, hold, hne⟩ := reached_holds reached
  cases op with
  | insert h name inum type =>
    obtain ⟨rs', hold', same, refused⟩ := insert_dirents hold hne short string run
    exact ⟨rs, rs', hold, hold', same, refused⟩
  | unlink name =>
    obtain ⟨rs', hold', same, refused⟩ := unlink_dirents hold hne run
    exact ⟨rs, rs', hold, hold', same, refused⟩

end Driver

end FuseRecords
