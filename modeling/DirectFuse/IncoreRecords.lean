import DirectFuse.FuseRecords
import DirectFuse.IncoreDirectory

/-! The data of an incore directory as a list of records, each with the offset of the next one,
and what a probe for a name does with the list. -/
namespace IncoreRecords

open ExecLogic ByteRange SysioState FuseDirectory IncoreDirectory
open FuseRecords (Rec encode_length header_length load_run storeBytes_run match_run load_reclen
  first_or_none)

/-- Records from `p` on, each with zeros behind it up to its offset. -/
def laid : ℕ → List Rec → Bytes
  | _, [] => []
  | p, r :: rs => r.encode ++ List.replicate (r.off - (p + r.size)) 0 ++ laid r.off rs

/-- The offset of the last of some records that start at `p`. -/
def finish : ℕ → List Rec → ℕ
  | p, [] => p
  | _, r :: rs => finish r.off rs

/-- No record reaches beyond its offset. -/
def Spaced : ℕ → List Rec → Prop
  | _, [] => True
  | p, r :: rs => p + r.size ≤ r.off ∧ Spaced r.off rs

/-- The records fill the data of the directory, which is as long as its size says. -/
structure Holds (d : Directory) (rs : List Rec) : Prop where
  data : d.data = laid 0 rs
  size : d.stSize = finish 0 rs
  spaced : Spaced 0 rs
  small : d.stSize < 2 ^ 63
  fits : ∀ r ∈ rs, r.Fits

section Layout

variable {p : ℕ} {rs ss : List Rec}

theorem finish_append (p : ℕ) (rs ss : List Rec) :
    finish p (rs ++ ss) = finish (finish p rs) ss := by
  induction rs generalizing p with
  | nil => rfl
  | cons r l ih => exact ih r.off

theorem laid_append (p : ℕ) (rs ss : List Rec) :
    laid p (rs ++ ss) = laid p rs ++ laid (finish p rs) ss := by
  induction rs generalizing p with
  | nil => rfl
  | cons r l ih =>
    rw [List.cons_append, laid, laid, ih, finish]
    simp only [List.append_assoc]

theorem spaced_append : Spaced p (rs ++ ss) ↔ Spaced p rs ∧ Spaced (finish p rs) ss := by
  induction rs generalizing p with
  | nil =>
    constructor
    · intro h
      exact ⟨trivial, h⟩
    · intro h
      exact h.2
  | cons r l ih =>
    rw [List.cons_append, Spaced, Spaced, ih, finish, and_assoc]

/-- Records take at least the bytes of their fixed parts. -/
theorem finish_ge (h : Spaced p rs) : p + 19 * rs.length ≤ finish p rs := by
  induction rs generalizing p with
  | nil => exact Nat.le_refl _
  | cons r l ih =>
    have hrest := ih h.2
    have hroom := h.1
    have hsize := @FuseRecords.size_pos r
    rw [List.length_cons, finish]
    omega

theorem laid_length (h : Spaced p rs) : p + (laid p rs).length = finish p rs := by
  induction rs generalizing p with
  | nil => rfl
  | cons r l ih =>
    have hrest := ih h.2
    have hroom := h.1
    rw [laid, finish]
    simp only [List.length_append, encode_length, List.length_replicate]
    omega

end Layout

section Places

variable {d : Directory} {pre post : List Rec} {r : Rec}

/-- Where a record of the list is, and what is around it. -/
structure Placed (d : Directory) (pre : List Rec) (r : Rec) (post : List Rec) : Prop where
  split : d.data = laid 0 pre ++ r.encode ++
    (List.replicate (r.off - (finish 0 pre + r.size)) 0 ++ laid r.off post)
  start : (laid 0 pre).length = finish 0 pre
  room : finish 0 pre + r.size ≤ r.off
  inside : r.off ≤ d.stSize
  fits : r.Fits

theorem Holds.placed (h : Holds d (pre ++ r :: post)) : Placed d pre r post := by
  have hspaced := spaced_append.mp h.spaced
  have hlen := laid_length hspaced.1
  have hend := finish_ge hspaced.2.2
  constructor
  · rw [h.data, laid_append, laid]
    simp only [List.append_assoc]
  · omega
  · exact hspaced.2.1
  · rw [h.size, finish_append, finish]
    omega
  · exact h.fits r (by simp)

/-- The data is as long as the size says. -/
theorem Holds.whole {rs : List Rec} (h : Holds d rs) : d.stSize = d.data.length := by
  have hlen := laid_length h.spaced
  rw [h.size, h.data, ← hlen, Nat.zero_add]

/-- There are fewer records than bytes. -/
theorem Holds.count {rs : List Rec} (h : Holds d rs) : 19 * rs.length ≤ d.stSize := by
  have hend := finish_ge h.spaced
  rw [h.size]
  omega

theorem load_off {front back : Bytes} (hd : d.data = front ++ r.encode ++ back)
    (hsmall : r.off < 2 ^ 64) : load (front.length + 8) 8 d = .ok (r.off, d) := by
  have hsplit : d.data = (front ++ le 8 r.ino) ++ le 8 r.off ++
      (le 2 r.size ++ [r.type] ++ r.body ++ back) := by
    rw [hd, Rec.encode, Rec.header]
    simp only [List.append_assoc]
  have run := @load_run _ _ _ _ (front.length + 8) 8 hsplit (by simp) (by simp)
  have hfield : r.off < 256 ^ 8 := hsmall
  rw [unle_le, Nat.mod_eq_of_lt hfield] at run
  exact run

theorem load_type (h : Placed d pre r post) :
    load (finish 0 pre + 18) 1 d = .ok (r.type.toNat, d) := by
  have hsplit : d.data = (laid 0 pre ++ (le 8 r.ino ++ le 8 r.off ++ le 2 r.size)) ++ [r.type] ++
      (r.body ++ (List.replicate (r.off - (finish 0 pre + r.size)) 0 ++ laid r.off post)) := by
    rw [h.split, Rec.encode, Rec.header]
    simp only [List.append_assoc]
  have hstart : finish 0 pre + 18 =
      (laid 0 pre ++ (le 8 r.ino ++ le 8 r.off ++ le 2 r.size)).length := by
    rw [List.length_append, h.start]
    simp
  have run := @load_run _ _ _ _ (finish 0 pre + 18) 1 hsplit hstart rfl
  have hbyte : unle [r.type] = r.type.toNat := by simp [unle]
  rw [hbyte] at run
  exact run

theorem sizeT_sub {a b : ℕ} (h : b ≤ a) (ha : a < 2 ^ 64) : sizeT a b = a - b := by
  unfold sizeT
  omega

end Places

section Steps

variable {σ : Type} {d : Directory} {entry hole : ProbeTy σ} {data siz origin fuel : ℕ}
  {pre post : List Rec} {r : Rec} {arg arg' : σ}

/-- A probe at a record starts with what the entry callback says to it. -/
theorem probe_looks (h : Placed d pre r post) (hsmall : d.stSize < 2 ^ 63) :
    incoreDirectoryProbe data siz origin entry hole (fuel + 1) (finish 0 pre) arg d =
      (do
        let seen ← entry (finish 0 pre) r.size arg
        if seen.1.isSome then
          return seen
        else
          let passed ← hole (finish 0 pre) r.size seen.2
          if passed.1.isSome then
            return passed
          else if siz ≤ sizeT r.off origin then
            return (none, passed.2)
          else
            incoreDirectoryProbe data siz origin entry hole fuel (data + sizeT r.off origin)
              passed.2 : Fd (Option ℕ × σ)) d := by
  have hinside := h.inside
  have hroom := h.room
  have hsize := @FuseRecords.size_pos r
  have hoff := load_off h.split (by omega)
  have hlen := load_reclen h.split h.fits
  have hcheck : Exec.check Fault.assertion (fun _ : Directory => decide (r.off ≠ 0)) d =
      .ok ((), d) := check_ok.mpr ⟨decide_eq_true (by omega), rfl⟩
  rw [h.start] at hoff hlen
  rw [incoreDirectoryProbe, bind_run hoff, bind_run hcheck, bind_run hlen]

theorem probe_stop (h : Placed d pre r post) (hsmall : d.stSize < 2 ^ 63) {p : ℕ}
    (hentry : entry (finish 0 pre) r.size arg d = .ok ((some p, arg'), d)) :
    incoreDirectoryProbe data siz origin entry hole (fuel + 1) (finish 0 pre) arg d =
      .ok ((some p, arg'), d) := by
  rw [probe_looks h hsmall, bind_run hentry]
  rfl

theorem probe_pass (h : Placed d pre r post) (hsmall : d.stSize < 2 ^ 63) {arg'' : σ}
    (hentry : entry (finish 0 pre) r.size arg d = .ok ((none, arg'), d))
    (hhole : hole (finish 0 pre) r.size arg' d = .ok ((none, arg''), d)) :
    incoreDirectoryProbe data siz origin entry hole (fuel + 1) (finish 0 pre) arg d =
      if siz ≤ sizeT r.off origin then .ok ((none, arg''), d)
      else incoreDirectoryProbe data siz origin entry hole fuel (data + sizeT r.off origin)
        arg'' d := by
  rw [probe_looks h hsmall, bind_run hentry]
  change (hole (finish 0 pre) r.size arg' >>= fun passed => _ : Fd (Option ℕ × σ)) d = _
  rw [bind_run hhole]
  by_cases hend : siz ≤ sizeT r.off origin
  · simp only [if_pos hend]
    rfl
  · simp only [if_neg hend]
    rfl

end Steps

section Names

variable {d : Directory} {hole : ProbeTy LookupData} {name : Bytes} {ld : LookupData}

/-- A callback for holes that leaves the rest of a lookup alone. -/
def Silent (d : Directory) (hole : ProbeTy LookupData) : Prop :=
  ∀ de reclen ld, ∃ ld', hole de reclen ld d = .ok ((none, ld'), d) ∧ ld'.name = ld.name ∧
    ld'.de = ld.de

theorem silent_noCallback : Silent d noCallback := by
  intro de reclen ld
  exact ⟨ld, rfl, rfl, rfl⟩

theorem silent_bestFit : Silent d incoreDirectoryBestFit := by
  intro de reclen ld
  by_cases hbetter : ld.hole.2 = 0 ∨ reclen < ld.hole.2
  · refine ⟨{ ld with hole := (some de, reclen) }, ?_, rfl, rfl⟩
    rw [incoreDirectoryBestFit, if_pos hbetter]
    rfl
  · refine ⟨ld, ?_, rfl, rfl⟩
    rw [incoreDirectoryBestFit, if_neg hbetter]
    rfl

/-- Where the last of some records starts. -/
def lastStart : ℕ → List Rec → Option ℕ → Option ℕ
  | _, [], start => start
  | p, r :: rs, _ => lastStart r.off rs (some p)

theorem lastStart_last (p : ℕ) (mid : List Rec) (r : Rec) (start : Option ℕ) :
    lastStart p (mid ++ [r]) start = some (finish p mid) := by
  induction mid generalizing p start with
  | nil => rfl
  | cons m l ih => exact ih m.off (some p)

theorem match_at {pre post : List Rec} {r : Rec} (h : Placed d pre r post) :
    incoreDirectoryMatch (finish 0 pre) r.size ld d =
      .ok (if r.scan = ld.name then (some (finish 0 pre), ld)
        else (none, { ld with de := some (finish 0 pre) }), d) := by
  have hsame := match_run h.split ld.name
  rw [h.start] at hsame
  rw [incoreDirectoryMatch, bind_run hsame]
  by_cases hname : r.scan = ld.name
  · rw [decide_eq_true hname, if_pos hname]
    rfl
  · rw [decide_eq_false hname, if_neg hname]
    rfl

/-- A probe goes past records of other names, as long as there are more behind them. -/
theorem probe_walk {pre mid rest : List Rec} (hold : Holds d (pre ++ (mid ++ rest)))
    (hrest : rest ≠ []) (silent : Silent d hole) (habsent : ∀ m ∈ mid, m.scan ≠ ld.name)
    (fuel : ℕ) : ∃ ld', incoreDirectoryProbe 0 d.stSize 0 incoreDirectoryMatch hole
        (mid.length + fuel) (finish 0 pre) ld d =
      incoreDirectoryProbe 0 d.stSize 0 incoreDirectoryMatch hole fuel
        (finish (finish 0 pre) mid) ld' d ∧ ld'.name = ld.name ∧
      ld'.de = lastStart (finish 0 pre) mid ld.de := by
  induction mid generalizing pre ld with
  | nil =>
    refine ⟨ld, ?_, rfl, rfl⟩
    rw [List.length_nil, Nat.zero_add]
    rfl
  | cons m l ih =>
    have hplaced : Placed d pre m (l ++ rest) := hold.placed
    have hne : m.scan ≠ ld.name := habsent m List.mem_cons_self
    have hmatch := @match_at _ ld _ _ _ hplaced
    rw [if_neg hne] at hmatch
    rcases silent (finish 0 pre) m.size { ld with de := some (finish 0 pre) } with
      ⟨ld₁, hhole, hname, hde⟩
    have hmoved : Holds d ((pre ++ [m]) ++ (l ++ rest)) := by
      rw [List.append_assoc]
      exact hold
    have hnext : finish 0 (pre ++ [m]) = m.off := finish_append 0 pre [m]
    have hothers : ∀ m' ∈ l, m'.scan ≠ ld₁.name := by
      intro m' hm'
      rw [hname]
      exact habsent m' (List.mem_cons_of_mem _ hm')
    rcases ih hmoved hothers with ⟨ld', hrun, hname', hde'⟩
    rw [hnext] at hrun hde'
    refine ⟨ld', ?_, hname'.trans hname, ?_⟩
    · have hspaced := spaced_append.mp (spaced_append.mp hmoved.spaced).2
      have hcount : 0 < rest.length := List.length_pos_of_ne_nil hrest
      have hbehind := finish_ge hspaced.2
      have hahead := finish_ge hspaced.1
      have hend : d.stSize = finish (finish m.off l) rest := by
        rw [hold.size, finish_append, List.cons_append, finish, finish_append]
      rw [hnext] at hbehind hahead
      have hsmall := hold.small
      have hsub : sizeT m.off 0 = m.off := sizeT_sub (Nat.zero_le _) (by omega)
      have hlen : (m :: l).length + fuel = (l.length + fuel) + 1 := by
        rw [List.length_cons]
        omega
      rw [hlen, probe_pass hplaced hold.small hmatch hhole, hsub, if_neg (by omega), Nat.zero_add,
        hrun]
      rfl
    · rw [hde', hde]
      rfl

/-- A probe for the name of a record finds the first one that has it, having noted the one in
front of it. -/
theorem nameProbe_found {mid post : List Rec} {r : Rec} (hold : Holds d (mid ++ r :: post))
    (silent : Silent d hole) (hmid : ∀ m ∈ mid, m.scan ≠ name) (hr : r.scan = name) :
    ∃ ld', nameProbe hole name d = .ok ((some (finish 0 mid), ld'), d) ∧
      ld'.de = lastStart 0 mid none := by
  have hcount := hold.count
  rw [List.length_append, List.length_cons] at hcount
  have hwalk := @probe_walk d hole (incoreLdInit name) [] mid (r :: post) hold (by simp) silent
    hmid (d.stSize - mid.length + 1)
  rcases hwalk with ⟨ld', hrun, hname, hde⟩
  refine ⟨ld', ?_, hde⟩
  have hplaced : Placed d mid r post := hold.placed
  have hmatch := @match_at _ ld' _ _ _ hplaced
  have hsize : (Exec.read fun d => d.stSize : Fd ℕ) d = .ok (d.stSize, d) := rfl
  have hfuel : mid.length + (d.stSize - mid.length + 1) = d.stSize + 1 := by omega
  rw [if_pos (hr.trans hname.symm)] at hmatch
  rw [hfuel] at hrun
  rw [nameProbe, bind_run hsize]
  exact hrun.trans (probe_stop hplaced hold.small hmatch)

/-- A probe for a name that no record has notes the last record. -/
theorem nameProbe_absent {mid : List Rec} {r : Rec} (hold : Holds d (mid ++ [r]))
    (silent : Silent d hole) (habsent : ∀ m ∈ mid ++ [r], m.scan ≠ name) :
    ∃ ld', nameProbe hole name d = .ok ((none, ld'), d) ∧ ld'.de = some (finish 0 mid) := by
  have hcount := hold.count
  rw [List.length_append, List.length_singleton] at hcount
  have hwalk := @probe_walk d hole (incoreLdInit name) [] mid [r] hold (by simp) silent
    (fun m hm => habsent m (List.mem_append_left _ hm)) (d.stSize - mid.length + 1)
  rcases hwalk with ⟨ld', hrun, hname, hde⟩
  have hplaced : Placed d mid r [] := hold.placed
  have hmatch := @match_at _ ld' _ _ _ hplaced
  have hne : r.scan ≠ ld'.name := by
    rw [hname]
    exact habsent r (by simp)
  rcases silent (finish 0 mid) r.size { ld' with de := some (finish 0 mid) } with
    ⟨ld'', hhole, -, hde''⟩
  refine ⟨ld'', ?_, hde''⟩
  have hsize : (Exec.read fun d => d.stSize : Fd ℕ) d = .ok (d.stSize, d) := rfl
  have hfuel : mid.length + (d.stSize - mid.length + 1) = d.stSize + 1 := by omega
  have hend : d.stSize = r.off := by
    rw [hold.size, finish_append]
    rfl
  have hsmall := hold.small
  have hsub : sizeT r.off 0 = r.off := sizeT_sub (Nat.zero_le _) (by omega)
  rw [if_neg hne] at hmatch
  rw [hfuel] at hrun
  rw [nameProbe, bind_run hsize]
  have hlast := @probe_pass _ _ _ _ 0 d.stSize 0 (d.stSize - mid.length) _ _ _ _ _ hplaced
    hold.small _ hmatch hhole
  rw [hsub, if_pos (Nat.le_of_eq hend)] at hlast
  exact hrun.trans hlast

end Names

section New

/-- Little memory is asked for as in the fuse driver. -/
theorem incoreTrunc_small {h : Heap} {size : ℕ} {clear : Bool} (hsize : size < 2 ^ 63) :
    incoreTrunc h size clear = fuseTrunc h size clear :=
  if_neg (Nat.not_le.mpr hsize)

theorem incoreDirectoryNew_eq (h : Heap) (ino parent : ℕ) :
    incoreDirectoryNew h ino parent = fuseDirectoryNew h ino parent := by
  have hlen : incoreDirTemplate.length < 2 ^ 63 := by decide
  rw [incoreDirectoryNew, incoreTrunc_small hlen]
  rfl

/-- The records of a new directory. -/
theorem holds_new (ino parent : ℕ) :
    Holds ⟨FuseRecords.bytes [FuseRecords.dotRec ino, FuseRecords.dotDotRec parent], 48, 2⟩
      [FuseRecords.dotRec ino, FuseRecords.dotDotRec parent] := by
  have hfits := (@FuseRecords.holds_new ino parent).fits
  constructor
  · rfl
  · rfl
  · exact ⟨Nat.le_refl _, Nat.le_refl _, trivial⟩
  · exact (by decide : 48 < 2 ^ 63)
  · exact hfits

end New

section Insert

variable {h : Heap} {d : Directory} {name : Bytes} {inum : ℕ} {type : UInt8}

open FuseRecords (newRec newRec_size newRec_fits newRec_scan room_for_name storeBytes_zeros)

theorem patch_run {r : Rec} {front back : Bytes} (hd : d.data = front ++ r.encode ++ back)
    (off : ℕ) : storeBytes (front.length + 8) (le 8 off) d =
      .ok ((), { d with data := front ++ (r.patched off).encode ++ back }) := by
  have hsplit : d.data = (front ++ le 8 r.ino) ++ le 8 r.off ++
      (le 2 r.size ++ [r.type] ++ r.body ++ back) := by
    rw [hd, Rec.encode, Rec.header]
    simp only [List.append_assoc]
  have hresult : front ++ le 8 r.ino ++ le 8 off ++ (le 2 r.size ++ [r.type] ++ r.body ++ back) =
      front ++ (r.patched off).encode ++ back := by
    rw [Rec.encode, Rec.header]
    simp only [List.append_assoc]
    rfl
  rw [storeBytes_run hsplit (by simp) (by simp), hresult]

/-- Storing the fields of a new record into zeros that have room for it. -/
theorem insertNew_run {front : Bytes} {off k : ℕ} (hd : d.data = front ++ List.replicate k 0)
    (hroom : incoreDReclen name.length ≤ k) :
    insertNew front.length inum off (incoreDReclen name.length) type name d =
      .ok ((), ⟨front ++ (newRec name inum off type).encode ++
        List.replicate (k - incoreDReclen name.length) 0, d.stSize, d.nlink⟩) := by
  have hname : 19 + name.length + 1 ≤ incoreDReclen name.length := room_for_name name.length
  let f₁ := front ++ le 8 inum
  let f₂ := f₁ ++ le 8 off
  let f₃ := f₂ ++ le 2 (incoreDReclen name.length)
  let f₄ := f₃ ++ [type]
  have run₁ := @storeBytes_zeros _ front (le 8 inum) front.length k hd rfl (by simp; omega)
  have run₂ := @storeBytes_zeros ⟨f₁ ++ List.replicate (k - 8) 0, d.stSize, d.nlink⟩ f₁ (le 8 off)
    (front.length + 8) (k - 8) rfl (by simp [f₁]) (by simp; omega)
  have run₃ := @storeBytes_zeros ⟨f₂ ++ List.replicate (k - 8 - 8) 0, d.stSize, d.nlink⟩ f₂
    (le 2 (incoreDReclen name.length)) (front.length + 16) (k - 8 - 8) rfl (by simp [f₂, f₁])
    (by simp; omega)
  have run₄ := @storeBytes_zeros ⟨f₃ ++ List.replicate (k - 8 - 8 - 2) 0, d.stSize, d.nlink⟩ f₃
    [type] (front.length + 18) (k - 8 - 8 - 2) rfl (by simp [f₃, f₂, f₁]) (by simp; omega)
  have run₅ := @storeBytes_zeros ⟨f₄ ++ List.replicate (k - 8 - 8 - 2 - 1) 0, d.stSize, d.nlink⟩
    f₄ name (front.length + 19) (k - 8 - 8 - 2 - 1) rfl (by simp [f₄, f₃, f₂, f₁]) (by omega)
  have hbehind : (List.replicate (k - 8 - 8 - 2 - 1 - name.length) 0 : Bytes) =
      List.replicate (incoreDReclen name.length - 19 - name.length) 0 ++
        List.replicate (k - incoreDReclen name.length) 0 := by
    rw [List.replicate_append_replicate]
    congr 1
    omega
  have hdone : f₄ ++ name ++ List.replicate (k - 8 - 8 - 2 - 1 - name.length) 0 =
      front ++ (newRec name inum off type).encode ++
        List.replicate (k - incoreDReclen name.length) 0 := by
    rw [hbehind, Rec.encode, Rec.header, newRec_size]
    simp only [f₄, f₃, f₂, f₁, newRec, List.append_assoc]
    rfl
  simp only [le_length] at run₁ run₂ run₃
  rw [List.length_singleton] at run₄
  rw [hdone] at run₅
  rw [insertNew, bind_run run₁, bind_run run₂, bind_run run₃, bind_run run₄]
  exact run₅

/-- A name that is there is refused. -/
theorem insert_present {mid post : List Rec} {r : Rec} (hold : Holds d (mid ++ r :: post))
    (hmid : ∀ m ∈ mid, m.scan ≠ name) (hr : r.scan = name) :
    incoreDirectoryInsert h name inum type d = .ok (-EEXIST, d) := by
  rcases nameProbe_found hold silent_bestFit hmid hr with ⟨ld', hprobe, -⟩
  rw [incoreDirectoryInsert, bind_run hprobe]
  rfl

/-- Where a new record goes behind the last one, and the size of the directory with it. -/
def newStart (mid : List Rec) (r : Rec) : ℕ := finish 0 mid + r.size

def newEnd (d : Directory) (mid : List Rec) (r : Rec) (name : Bytes) : ℕ :=
  max d.stSize (newStart mid r + incoreDReclen name.length)

/-- The data of a directory behind a growth to the new size, if there is one. -/
theorem grown_split {mid : List Rec} {r : Rec} (hold : Holds d (mid ++ [r])) {size : ℕ}
    (hsize : d.stSize ≤ size) : d.data ++ List.replicate (size - d.stSize) 0 =
      laid 0 mid ++ r.encode ++ List.replicate (size - newStart mid r) 0 := by
  have hplaced : Placed d mid r [] := hold.placed
  have hend : d.stSize = r.off := by
    rw [hold.size, finish_append]
    rfl
  have hroom := hplaced.room
  rw [hplaced.split, laid, List.append_nil, List.append_assoc _ _ (List.replicate _ _),
    List.replicate_append_replicate]
  congr 2
  unfold newStart
  omega

/-- The part of an insert that may ask for memory. -/
theorem growth_run {mid : List Rec} {r : Rec} (hold : Holds d (mid ++ [r]))
    (room : newStart mid r + incoreDReclen name.length ≤ d.stSize ∨
      (h.got = true ∧ newStart mid r + incoreDReclen name.length < 2 ^ 63)) :
    (if decide (d.stSize = 0 ∨ d.stSize < newStart mid r + incoreDReclen name.length) then
        incoreTrunc h (newStart mid r + incoreDReclen name.length) true
      else pure 0 : Fd ℤ) d =
      .ok (0, ⟨laid 0 mid ++ r.encode ++
        List.replicate (newEnd d mid r name - newStart mid r) 0, newEnd d mid r name, d.nlink⟩) := by
  have hsplit := @grown_split _ _ _ hold (newEnd d mid r name) (Nat.le_max_left _ _)
  rw [← hsplit]
  by_cases grows : d.stSize < newStart mid r + incoreDReclen name.length
  · have hroom : h.got = true ∧ newStart mid r + incoreDReclen name.length < 2 ^ 63 := by
      rcases room with hfits | hroom
      · omega
      · exact hroom
    have hnew : newEnd d mid r name = newStart mid r + incoreDReclen name.length :=
      Nat.max_eq_right (Nat.le_of_lt grows)
    rw [hnew, decide_eq_true (Or.inr grows), if_pos rfl, incoreTrunc_small hroom.2]
    exact FuseRecords.fuseTrunc_grow hroom.1 hold.whole grows hroom.2
  · have hnew : newEnd d mid r name = d.stSize := Nat.max_eq_left (Nat.not_lt.mp grows)
    have hpos := hold.count
    rw [List.length_append, List.length_singleton] at hpos
    have hstay : ¬ (d.stSize = 0 ∨ d.stSize < newStart mid r + incoreDReclen name.length) := by
      omega
    rw [hnew, decide_eq_false hstay, Nat.sub_self]
    simp only [List.replicate_zero, List.append_nil]
    rfl

/-- Without memory that is needed an insert changes nothing. -/
theorem insert_full {mid : List Rec} {r : Rec} (hold : Holds d (mid ++ [r]))
    (habsent : ∀ m ∈ mid ++ [r], m.scan ≠ name)
    (full : ¬ (newStart mid r + incoreDReclen name.length ≤ d.stSize ∨
      (h.got = true ∧ newStart mid r + incoreDReclen name.length < 2 ^ 63))) :
    ∃ ret, ret ≠ 0 ∧ incoreDirectoryInsert h name inum type d = .ok (ret, d) := by
  rcases nameProbe_absent hold silent_bestFit habsent with ⟨ld', hprobe, hde⟩
  have hplaced : Placed d mid r [] := hold.placed
  have hinside := hplaced.inside
  have hsmall := hold.small
  have hoff := load_off hplaced.split (by omega)
  have hlen := load_reclen hplaced.split hplaced.fits
  have hxt : (Exec.deref .wild fun _ => ld'.de : Fd ℕ) d = .ok (finish 0 mid, d) :=
    deref_ok.mpr ⟨hde, rfl⟩
  have hread : (Exec.read fun d => d.stSize : Fd ℕ) d = .ok (d.stSize, d) := rfl
  have hgrows : decide (d.stSize = 0 ∨
      d.stSize < finish 0 mid + r.size + incoreDReclen name.length) = true := by
    apply decide_eq_true
    right
    unfold newStart at full
    omega
  have hpos : 0 < newStart mid r + incoreDReclen name.length := by omega
  have htrunc : ∃ ret, ret ≠ 0 ∧
      incoreTrunc h (newStart mid r + incoreDReclen name.length) true d = .ok (ret, d) := by
    by_cases hsize : newStart mid r + incoreDReclen name.length < 2 ^ 63
    · refine ⟨-ENOSPC, by decide, ?_⟩
      rw [incoreTrunc_small hsize]
      apply FuseRecords.fuseTrunc_full _ hpos
      intro hgot
      exact full (Or.inr hgot)
    · refine ⟨-EINVAL, by decide, ?_⟩
      rw [incoreTrunc, if_pos (Nat.not_lt.mp hsize)]
      rfl
  rcases htrunc with ⟨ret, hret, htrunc⟩
  refine ⟨ret, hret, ?_⟩
  rw [hplaced.start] at hoff hlen
  rw [incoreDirectoryInsert, bind_run hprobe]
  change (Exec.deref .wild (fun _ => ld'.de) >>= fun xt => _ : Fd ℤ) d = _
  rw [bind_run hxt, bind_run hoff, bind_run hlen, bind_run hread, hgrows]
  change (incoreTrunc h (newStart mid r + incoreDReclen name.length) true >>= fun err => _ : Fd ℤ)
    d = _
  rw [bind_run htrunc, if_pos hret]
  rfl

/-- What the records are behind an insert. -/
def inserted (d : Directory) (mid : List Rec) (r : Rec) (name : Bytes) (inum : ℕ) (type : UInt8) :
    List Rec :=
  mid ++ [r.patched (newStart mid r), newRec name inum (newEnd d mid r name) type]

/-- With memory an insert cuts the gap of the last record and puts the new one there. -/
theorem insert_absent {mid : List Rec} {r : Rec} (hold : Holds d (mid ++ [r]))
    (habsent : ∀ m ∈ mid ++ [r], m.scan ≠ name)
    (room : newStart mid r + incoreDReclen name.length ≤ d.stSize ∨
      (h.got = true ∧ newStart mid r + incoreDReclen name.length < 2 ^ 63)) :
    incoreDirectoryInsert h name inum type d = .ok (0,
      ⟨laid 0 (inserted d mid r name inum type), newEnd d mid r name, d.nlink + 1⟩) := by
  rcases nameProbe_absent hold silent_bestFit habsent with ⟨ld', hprobe, hde⟩
  have hplaced : Placed d mid r [] := hold.placed
  have hinside := hplaced.inside
  have hsmall := hold.small
  have hend : d.stSize = r.off := by
    rw [hold.size, finish_append]
    rfl
  have hoff := load_off hplaced.split (by omega)
  have hlen := load_reclen hplaced.split hplaced.fits
  have hxt : (Exec.deref .wild fun _ => ld'.de : Fd ℕ) d = .ok (finish 0 mid, d) :=
    deref_ok.mpr ⟨hde, rfl⟩
  have hread : (Exec.read fun d => d.stSize : Fd ℕ) d = .ok (d.stSize, d) := rfl
  let grown : Directory := ⟨laid 0 mid ++ r.encode ++
    List.replicate (newEnd d mid r name - newStart mid r) 0, newEnd d mid r name, d.nlink⟩
  have hgrowth := @growth_run h d name mid r hold room
  have hnext : (Exec.read fun e => if decide (d.stSize = 0 ∨
      d.stSize < newStart mid r + incoreDReclen name.length) then e.stSize else r.off : Fd ℕ)
      grown = .ok (newEnd d mid r name, grown) := by
    apply read_ok.mpr
    refine ⟨?_, rfl⟩
    by_cases grows : d.stSize = 0 ∨ d.stSize < newStart mid r + incoreDReclen name.length
    · exact if_pos (decide_eq_true grows)
    · rw [if_neg (by simpa using grows)]
      have hstay : newStart mid r + incoreDReclen name.length ≤ d.stSize := by omega
      exact (hend.symm.trans (Nat.max_eq_left hstay).symm)
  have hpatch := @patch_run grown r _ _ rfl (newStart mid r)
  have hfront : (laid 0 mid ++ (r.patched (newStart mid r)).encode).length = newStart mid r := by
    rw [List.length_append, encode_length, hplaced.start]
    rfl
  have hnew := @insertNew_run ⟨laid 0 mid ++ (r.patched (newStart mid r)).encode ++
    List.replicate (newEnd d mid r name - newStart mid r) 0, newEnd d mid r name, d.nlink⟩ name inum
    type _ (newEnd d mid r name) _ rfl (by unfold newEnd; omega)
  have hlaid : laid 0 mid ++ (r.patched (newStart mid r)).encode ++
      (newRec name inum (newEnd d mid r name) type).encode ++ List.replicate
        (newEnd d mid r name - newStart mid r - incoreDReclen name.length) 0 =
      laid 0 (inserted d mid r name inum type) := by
    have hnone : (r.patched (newStart mid r)).off -
        (finish 0 mid + (r.patched (newStart mid r)).size) = 0 := Nat.sub_self _
    have hgap : newEnd d mid r name - newStart mid r - incoreDReclen name.length =
        newEnd d mid r name - (newStart mid r + incoreDReclen name.length) := Nat.sub_sub _ _ _
    rw [inserted, laid_append, laid, laid, laid, hnone, newRec_size, hgap, List.append_nil]
    simp only [List.replicate_zero, List.append_nil, List.append_assoc]
    rfl
  rw [hplaced.start] at hoff hlen hpatch
  rw [hfront, hlaid] at hnew
  rw [incoreDirectoryInsert, bind_run hprobe]
  change (Exec.deref .wild (fun _ => ld'.de) >>= fun xt => _ : Fd ℤ) d = _
  rw [bind_run hxt, bind_run hoff, bind_run hlen, bind_run hread]
  change ((if decide (d.stSize = 0 ∨ d.stSize < newStart mid r + incoreDReclen name.length) then
      incoreTrunc h (newStart mid r + incoreDReclen name.length) true else pure 0) >>=
    fun err => _ : Fd ℤ) d = _
  rw [bind_run hgrowth, if_neg (by decide)]
  change ((Exec.read fun e => if decide (d.stSize = 0 ∨
      d.stSize < newStart mid r + incoreDReclen name.length) then e.stSize else r.off) >>=
    fun n => _ : Fd ℤ) grown = _
  rw [bind_run hnext]
  change (storeBytes (finish 0 mid + 8) (le 8 (newStart mid r)) >>= fun _ => _ : Fd ℤ) grown = _
  rw [bind_run hpatch]
  change (insertNew (newStart mid r) inum (newEnd d mid r name) (incoreDReclen name.length) type
    name >>= fun _ => _ : Fd ℤ) _ = _
  rw [bind_run hnew]
  rfl

/-- The records behind an insert fill the data. -/
theorem inserted_holds {mid : List Rec} {r : Rec} (hold : Holds d (mid ++ [r]))
    (short : name.length ≤ 255) (hsmall : newEnd d mid r name < 2 ^ 63) :
    Holds ⟨laid 0 (inserted d mid r name inum type), newEnd d mid r name, d.nlink + 1⟩
      (inserted d mid r name inum type) := by
  have hspaced := (spaced_append.mp hold.spaced).1
  constructor
  · rfl
  · rw [inserted, finish_append]
    rfl
  · apply spaced_append.mpr
    refine ⟨hspaced, Nat.le_refl _, ?_, trivial⟩
    have hnew := @newRec_size name inum type (newEnd d mid r name)
    change newStart mid r + _ ≤ newEnd d mid r name
    rw [hnew]
    exact Nat.le_max_right _ _
  · exact hsmall
  · intro q hq
    rcases List.mem_append.mp hq with hq | hq
    · exact hold.fits q (List.mem_append_left _ hq)
    · rcases List.mem_cons.mp hq with rfl | hq
      · have hr := hold.fits r (by simp)
        exact ⟨hr.nul, hr.short⟩
      · rw [List.mem_singleton.mp hq]
        exact newRec_fits short

end Insert

section Unlink

variable {d : Directory} {name : Bytes} {mode : ℕ}

/-- A name that is not there. -/
theorem unlink_absent {mid : List Rec} {r : Rec} (hmode : sIsDir mode = true)
    (hold : Holds d (mid ++ [r])) (habsent : ∀ m ∈ mid ++ [r], m.scan ≠ name) :
    incoreUnlinkEntry mode name d = .ok (-ENOENT, d) := by
  rcases nameProbe_absent hold silent_noCallback habsent with ⟨ld', hprobe, -⟩
  rw [incoreUnlinkEntry, if_neg (by simp [hmode]), bind_run hprobe]
  rfl

/-- The template's records are not to be removed. -/
theorem unlink_low {mid post : List Rec} {r : Rec} (hmode : sIsDir mode = true)
    (hold : Holds d (mid ++ r :: post)) (hmid : ∀ m ∈ mid, m.scan ≠ name) (hr : r.scan = name)
    (low : finish 0 mid < 48) : incoreUnlinkEntry mode name d = .error .assertion := by
  rcases nameProbe_found hold silent_noCallback hmid hr with ⟨ld', hprobe, -⟩
  have hlen : incoreDirTemplate.length = 48 := by decide
  have hcheck : (Exec.check .assertion
      fun _ => decide (incoreDirTemplate.length ≤ finish 0 mid) : Fd Unit) d =
      .error .assertion := by
    unfold Exec.check
    exact if_neg (by simpa [hlen] using low)
  rw [incoreUnlinkEntry, if_neg (by simp [hmode]), bind_run hprobe]
  change (Exec.check .assertion (fun _ => decide (incoreDirTemplate.length ≤ finish 0 mid)) >>=
    fun _ => _ : Fd ℤ) d = _
  exact bind_error hcheck

/-- The records behind an unlink. -/
def unlinked (mid : List Rec) (q r : Rec) (post : List Rec) : List Rec :=
  mid ++ q.patched r.off :: post

/-- An unlink joins a record behind the first two to the gap of the one in front of it. -/
theorem unlink_found {mid post : List Rec} {q r : Rec} (hmode : sIsDir mode = true)
    (hold : Holds d (mid ++ q :: r :: post)) (habsent : ∀ m ∈ mid ++ [q], m.scan ≠ name)
    (hr : r.scan = name) (behind : 48 ≤ q.off) (hlinks : 2 < d.nlink) :
    incoreUnlinkEntry mode name d =
      .ok (0, ⟨laid 0 (unlinked mid q r post), d.stSize, d.nlink - 1⟩) := by
  have hsplit : mid ++ q :: r :: post = (mid ++ [q]) ++ r :: post := by simp
  have hfirst : Placed d mid q (r :: post) := hold.placed
  rw [hsplit] at hold
  have hplaced : Placed d (mid ++ [q]) r post := hold.placed
  rcases nameProbe_found hold silent_noCallback habsent hr with ⟨ld', hprobe, hde⟩
  rw [lastStart_last] at hde
  have hstart : finish 0 (mid ++ [q]) = q.off := finish_append 0 mid [q]
  have hinside := hplaced.inside
  have hroom := hplaced.room
  have hroom' := hfirst.room
  have hsmall := hold.small
  have hoff := load_off hplaced.split (by omega)
  rw [hplaced.start, hstart] at hoff
  rw [hstart] at hprobe hroom
  have htemplate : (Exec.check .assertion
      fun _ => decide (incoreDirTemplate.length ≤ q.off) : Fd Unit) d = .ok ((), d) :=
    check_ok.mpr ⟨decide_eq_true behind, rfl⟩
  have hsub : sizeT r.off q.off = r.off - q.off := sizeT_sub (by omega) (by omega)
  -- What is wiped is the record with its gap.
  have hwhole : d.data = laid 0 (mid ++ [q]) ++
      (r.encode ++ List.replicate (r.off - (q.off + r.size)) 0) ++ laid r.off post := by
    rw [hplaced.split, hstart]
    simp only [List.append_assoc]
  have hwipe := @storeBytes_run _ _ _ _ (List.replicate (r.off - q.off) 0) q.off hwhole
    (by rw [hplaced.start, hstart]) (by
      rw [List.length_append, List.length_replicate, List.length_replicate, encode_length]
      omega)
  have hgap : laid 0 (mid ++ [q]) ++ List.replicate (r.off - q.off) 0 ++ laid r.off post =
      laid 0 mid ++ q.encode ++
        (List.replicate (r.off - (finish 0 mid + q.size)) 0 ++ laid r.off post) := by
    have hsum : r.off - (finish 0 mid + q.size) =
        q.off - (finish 0 mid + q.size) + (r.off - q.off) := by omega
    rw [laid_append, laid, laid, hsum, List.replicate_add, List.append_nil]
    simp only [List.append_assoc]
  rw [hgap] at hwipe
  have hlast : ∀ e : Directory, (Exec.deref .wild fun _ => ld'.de : Fd ℕ) e =
      .ok (finish 0 mid, e) := fun e => deref_ok.mpr ⟨hde, rfl⟩
  have hpatch := @patch_run ⟨laid 0 mid ++ q.encode ++
    (List.replicate (r.off - (finish 0 mid + q.size)) 0 ++ laid r.off post), d.stSize, d.nlink⟩ q
    _ _ rfl r.off
  rw [hfirst.start] at hpatch
  have hdone : laid 0 mid ++ (q.patched r.off).encode ++
      (List.replicate (r.off - (finish 0 mid + q.size)) 0 ++ laid r.off post) =
      laid 0 (unlinked mid q r post) := by
    rw [unlinked, laid_append, laid]
    simp only [List.append_assoc]
    rfl
  rw [hdone] at hpatch
  have hcount : (Exec.check .assertion fun d => decide (2 < d.nlink) : Fd Unit)
      ⟨laid 0 (unlinked mid q r post), d.stSize, d.nlink⟩ = .ok ((), _) :=
    check_ok.mpr ⟨decide_eq_true hlinks, rfl⟩
  rw [incoreUnlinkEntry, if_neg (by simp [hmode]), bind_run hprobe]
  change (Exec.check .assertion (fun _ => decide (incoreDirTemplate.length ≤ q.off)) >>=
    fun _ => _ : Fd ℤ) d = _
  rw [bind_run htemplate, bind_run hoff, hsub, bind_run hwipe, bind_run (hlast _),
    bind_run hpatch, bind_run hcount]
  rfl

theorem unlinked_holds {mid post : List Rec} {q r : Rec}
    (hold : Holds d (mid ++ q :: r :: post)) (nlink : ℕ) :
    Holds ⟨laid 0 (unlinked mid q r post), d.stSize, nlink⟩ (unlinked mid q r post) := by
  have hspaced := spaced_append.mp hold.spaced
  have hq := hspaced.2.1
  have hr := hspaced.2.2.1
  constructor
  · rfl
  · rw [unlinked, finish_append, hold.size, finish_append]
    rfl
  · apply spaced_append.mpr
    refine ⟨hspaced.1, ?_, hspaced.2.2.2⟩
    change finish 0 mid + q.size ≤ r.off
    omega
  · exact hold.small
  · intro m hm
    rcases List.mem_append.mp hm with hm | hm
    · exact hold.fits m (List.mem_append_left _ hm)
    · rcases List.mem_cons.mp hm with rfl | hm
      · have hfits := hold.fits q (by simp)
        exact ⟨hfits.nul, hfits.short⟩
      · exact hold.fits m (by simp [hm])

theorem entryNamed_absent {mid : List Rec} {r : Rec} (hold : Holds d (mid ++ [r]))
    (habsent : ∀ m ∈ mid ++ [r], m.scan ≠ name) : entryNamed name d = .ok (none, d) := by
  rcases nameProbe_absent hold silent_noCallback habsent with ⟨ld', hprobe, -⟩
  rw [entryNamed, bind_run hprobe]
  rfl

theorem entryNamed_found {mid post : List Rec} {r : Rec} (hold : Holds d (mid ++ r :: post))
    (hmid : ∀ m ∈ mid, m.scan ≠ name) (hr : r.scan = name) :
    entryNamed name d = .ok (some (r.ino % 2 ^ 64, r.type.toNat), d) := by
  rcases nameProbe_found hold silent_noCallback hmid hr with ⟨ld', hprobe, -⟩
  have hplaced : Placed d mid r post := hold.placed
  have hload := FuseRecords.load_ino hplaced.split
  rw [hplaced.start] at hload
  rw [entryNamed, bind_run hprobe]
  change (load (finish 0 mid) 8 >>= fun ino => load (finish 0 mid + 18) 1 >>= fun type =>
    pure (some (ino, type)) : Fd (Option (ℕ × ℕ))) d = _
  rw [bind_run hload, bind_run (load_type hplaced)]
  rfl

end Unlink

end IncoreRecords
