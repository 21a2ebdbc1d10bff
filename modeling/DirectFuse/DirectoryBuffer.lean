import DirectFuse.FuseRecords

/-! The buffer of a fuse directory after any calls: its records tile it, and every walk over them
stays inside and ends at the last one. -/
namespace DirectoryBuffer

open ExecLogic ByteRange SysioState FuseDirectory FuseRecords

/-- The record length stored at an offset. -/
def reclenAt (data : Bytes) (off : ℕ) : ℕ := unle (fetch data (off + 16) 2)

/-- The records from an offset on, each where the one before it ends, up to the end of the data.
Every record holds its fixed part, and a name with its NUL behind that. -/
inductive Tiles (data : Bytes) : ℕ → List ℕ → Prop where
  | done {off : ℕ} (finish : off = data.length) : Tiles data off []
  | record {off : ℕ} {offs : List ℕ} (inside : off + reclenAt data off ≤ data.length)
      (fixed : 19 < reclenAt data off)
      (nul : 0 ∈ fetch data (off + 19) (reclenAt data off - 19))
      (rest : Tiles data (off + reclenAt data off) offs) : Tiles data off (off :: offs)

/-- The comparison of the record at an offset with a name. -/
def compared (d : Directory) (name : Bytes) (off : ℕ) : Except Fault (Bool × Directory) :=
  fuseDirectoryMatch off (reclenAt d.data off) name d

/-- What a probe does: it ends without a fault. When it finds nothing it has compared every
record, the last of which ends where the data does; else it stops at the first that matches. -/
structure Probes (d : Directory) (offs : List ℕ) (name : Bytes) (hit : Option ℕ) (last : ℕ) :
    Prop where
  run : probe name d = .ok ((hit, last), d)
  absent : hit = none → (∀ off ∈ offs, compared d name off = .ok (false, d)) ∧
    last ∈ offs ∧ last + reclenAt d.data last = d.stSize
  found : ∀ off, hit = some off → compared d name off = .ok (true, d) ∧
    ∃ before behind, offs = before ++ off :: behind ∧
      ∀ off' ∈ before, compared d name off' = .ok (false, d)

structure Sound (d : Directory) : Prop where
  whole : d.data.length = d.stSize
  walk : ∃ offs, offs ≠ [] ∧ Tiles d.data 0 offs ∧ ∀ name, ∃ hit last, Probes d offs name hit last
  inserts : ∀ h name inum type, name.length ≤ 255 →
    ∃ ret d', fuseDirectoryInsert h name inum type d = .ok (ret, d')

section Offsets

variable {d : Directory} {pre rest : List Rec} {name : Bytes}

/-- Where records that start at `at_` stand. -/
def offsets : ℕ → List Rec → List ℕ
  | _, [] => []
  | at_, r :: rs => at_ :: offsets (at_ + r.size) rs

theorem offsets_append (at_ : ℕ) (rs ss : List Rec) :
    offsets at_ (rs ++ ss) = offsets at_ rs ++ offsets (at_ + (bytes rs).length) ss := by
  induction rs generalizing at_ with
  | nil => rfl
  | cons r l ih =>
    rw [List.cons_append, offsets, offsets, ih, bytes_cons, List.length_append, encode_length,
      Nat.add_assoc]
    rfl

theorem load_value {off n v : ℕ} (run : load off n d = .ok (v, d)) :
    unle (fetch d.data off n) = v := by
  rw [load, loadBytes] at run
  rcases bind_ok.mp run with ⟨bs, e, hbytes, hend⟩
  rcases bind_ok.mp hbytes with ⟨u, e', hcheck, hread⟩
  rcases check_ok.mp hcheck with ⟨-, rfl⟩
  rcases read_ok.mp hread with ⟨rfl, rfl⟩
  exact (pure_ok.mp hend).1

/-- One record of the data, seen from its bytes. -/
theorem record_at {r : Rec} {back : Bytes} (hd : d.data = bytes pre ++ r.encode ++ back)
    (fits : r.Fits) : reclenAt d.data (bytes pre).length = r.size ∧
      fetch d.data ((bytes pre).length + 19) (r.size - 19) = r.body := by
  refine ⟨load_value (load_reclen hd fits), ?_⟩
  have hsplit : d.data = (bytes pre ++ r.header) ++ r.body ++ back := by
    rw [hd, Rec.encode]
    simp only [List.append_assoc]
  have hstart : (bytes pre).length + 19 = (bytes pre ++ r.header).length := by simp
  have hlen : r.size - 19 = r.body.length := by
    unfold Rec.size
    omega
  rw [hsplit, hstart, hlen, fetch_middle]

theorem tiles_records (pre : List Rec) (hold : Holds d (pre ++ rest)) :
    Tiles d.data (bytes pre).length (offsets (bytes pre).length rest) := by
  induction rest generalizing pre with
  | nil =>
    apply Tiles.done
    rw [hold.data, List.append_nil]
  | cons r rs ih =>
    have hd : d.data = bytes pre ++ r.encode ++ bytes rs := by
      rw [hold.data, bytes_append, bytes_cons, List.append_assoc]
    have fits := hold.fits r (by simp)
    rcases record_at hd fits with ⟨hlen, hbody⟩
    have hpos := List.length_pos_of_mem fits.nul
    have hnext : (bytes (pre ++ [r])).length = (bytes pre).length + r.size := by
      rw [bytes_append, bytes_cons]
      simp
    have hmoved : Holds d ((pre ++ [r]) ++ rs) := by
      rw [List.append_assoc]
      exact hold
    have ih := ih _ hmoved
    rw [hnext] at ih
    apply Tiles.record
    · rw [hlen, hd]
      simp
    · rw [hlen]
      unfold Rec.size
      omega
    · rw [hlen, hbody]
      exact fits.nul
    · rw [hlen]
      exact ih

/-- What the comparison says of each record. -/
theorem compared_record {r : Rec} (hold : Holds d (pre ++ r :: rest)) (name : Bytes) :
    compared d name (bytes pre).length = .ok (decide (r.scan = name), d) := by
  have hd : d.data = bytes pre ++ r.encode ++ bytes rest := by
    rw [hold.data, bytes_append, bytes_cons, List.append_assoc]
  rw [compared, (record_at hd (hold.fits r (by simp))).1]
  exact match_run hd name

/-- Records without a name compare as different. -/
theorem compared_absent (pre : List Rec) {mid : List Rec} (hold : Holds d (pre ++ mid ++ rest))
    (hmid : ∀ m ∈ mid, m.scan ≠ name) :
    ∀ off ∈ offsets (bytes pre).length mid, compared d name off = .ok (false, d) := by
  induction mid generalizing pre with
  | nil => simp [offsets]
  | cons m l ih =>
    intro off hoff
    rcases List.mem_cons.mp hoff with rfl | hoff
    · have hone : Holds d (pre ++ m :: (l ++ rest)) := by
        have := hold
        simpa only [List.append_assoc, List.cons_append] using this
      rw [compared_record hone, decide_eq_false (hmid m List.mem_cons_self)]
    · have hnext : (bytes (pre ++ [m])).length = (bytes pre).length + m.size := by
        rw [bytes_append, bytes_cons]
        simp
      have hmoved : Holds d ((pre ++ [m]) ++ l ++ rest) := by
        have := hold
        simpa only [List.append_assoc, List.cons_append, List.nil_append] using this
      apply ih _ hmoved fun m' h => hmid m' (List.mem_cons_of_mem _ h)
      rw [hnext]
      exact hoff

end Offsets

/-- A probe on a list of records. -/
theorem probes_records {d : Directory} {rs : List Rec} (hold : Holds d rs) (hne : rs ≠ [])
    (name : Bytes) : ∃ hit last, Probes d (offsets 0 rs) name hit last := by
  have hprobe := @probe_run _ name _ hold hne
  rcases first_or_none name rs with ⟨mid, r, post, rfl, hmid, hr⟩ | habsent
  · rw [seek_found hmid hr] at hprobe
    refine ⟨_, _, hprobe, by simp, ?_⟩
    intro off hoff
    rw [Option.some.inj hoff.symm, Nat.zero_add]
    constructor
    · rw [compared_record hold, decide_eq_true hr]
    · refine ⟨offsets 0 mid, offsets ((bytes mid).length + r.size) post, ?_, ?_⟩
      · rw [offsets_append, Nat.zero_add]
        rfl
      · exact compared_absent [] hold hmid
  · rcases last_record hne with ⟨mid, r, rfl⟩
    rw [seek_absent habsent] at hprobe
    refine ⟨_, _, hprobe, ?_, by simp⟩
    intro _
    have hd : d.data = bytes mid ++ r.encode ++ [] := by
      rw [hold.data, bytes_append, bytes_cons, bytes_nil, List.append_assoc]
    refine ⟨?_, ?_, ?_⟩
    · have hwhole : Holds d ([] ++ (mid ++ [r]) ++ []) := by
        rw [List.append_nil]
        exact hold
      exact compared_absent [] hwhole habsent
    · rw [offsets_append]
      simp [offsets]
    · rw [Nat.zero_add, (record_at hd (hold.fits r (by simp))).1, hold.size, bytes_append,
        bytes_cons]
      simp

/-- After a new directory was made and any inserts and unlinks that returned. -/
theorem directory_buffer {d : Directory} (h : Reached d) : Sound d := by
  rcases reached_holds h with ⟨rs, hold, hne⟩
  constructor
  · rw [hold.data, hold.size]
  · refine ⟨offsets 0 rs, ?_, tiles_records [] hold, probes_records hold hne⟩
    cases rs with
    | nil => exact absurd rfl hne
    | cons r l => simp [offsets]
  · intro h name inum type short
    rcases @insert_holds h _ _ _ inum type hold hne short with
      ⟨ret, d', -, run, -⟩
    exact ⟨ret, d', run⟩

/-- A directory with one name in it. -/
theorem directory_buffer_one : Sound
    ⟨bytes ([dotRec 5] ++ [(dotDotRec 5).patched 48, newRec [97] 7 72 4]), 72, 3⟩ :=
  directory_buffer (@Reached.op _ _ (.insert ⟨true, fun _ => 170⟩ [97] 7 4) _
    (.new (@fuseDirectoryNew_run ⟨true, fun _ => 170⟩ rfl 5 5)) (by decide)
    (@insert_absent _ _ _ _ _ [dotRec 5] _ holds_new (by decide) rfl (by decide)))

end DirectoryBuffer
