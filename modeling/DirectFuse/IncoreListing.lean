import DirectFuse.IncoreChain

/-! Listing an incore directory by call after call of `_sysio_incore_dirop_filldirentries`: the
first call copies what fits, and no later one copies anything. -/
namespace IncoreListing

open ExecLogic ByteRange SysioState FuseDirectory IncoreDirectory IncoreRecords IncoreChain
open FuseRecords (Rec encode_length load_run loadBytes_run)
open DirectoryBuffer (reclenAt load_value)

/-- Calls one after the other, each at the position the one before it returned, up to the first
that returns 0, with the bytes each of them copies. -/
inductive Enumerates (d : Directory) (nbytes : ℕ) : ℕ → List Bytes → Prop where
  | finished {fuel posp posp' : ℕ} {buf : Bytes}
      (run : sysioIncoreDiropFilldirentries fuel posp nbytes d = .ok ((0, posp', buf), d)) :
      Enumerates d nbytes posp []
  | call {fuel posp posp' : ℕ} {n : ℤ} {buf : Bytes} {bufs : List Bytes} (some : 0 < n)
      (run : sysioIncoreDiropFilldirentries fuel posp nbytes d = .ok ((n, posp', buf), d))
      (rest : Enumerates d nbytes posp' bufs) : Enumerates d nbytes posp (buf :: bufs)

def typeAt (data : Bytes) (off : ℕ) : ℕ := unle (fetch data (off + 18) 1)

/-- The records of live entries among those at some offsets. Whiteouts are none. -/
def liveRecords (d : Directory) (offs : List ℕ) : List Bytes :=
  (offs.filter fun off => typeAt d.data off ≠ DT_WHT).map fun off =>
    fetch d.data off (reclenAt d.data off)

/-- A listing with a buffer of a size ends, having returned each live record once. -/
def Complete (d : Directory) (offs : List ℕ) (nbytes : ℕ) : Prop :=
  ∃ bufs, Enumerates d nbytes 0 bufs ∧ bufs.flatten = (liveRecords d offs).flatten

section Fuel

variable {σ : Type} {d e : Directory} {entry hole : ProbeTy σ} {data siz origin : ℕ}

/-- A probe that ends does the same with more steps left. -/
theorem probe_fuel {fuel de : ℕ} {arg : σ} {res : Option ℕ × σ}
    (run : incoreDirectoryProbe data siz origin entry hole fuel de arg d = .ok (res, e))
    (more : ℕ) :
    incoreDirectoryProbe data siz origin entry hole (fuel + more) de arg d = .ok (res, e) := by
  induction fuel generalizing de arg d with
  | zero => exact absurd run (by simp [incoreDirectoryProbe])
  | succ fuel ih =>
    have hfuel : fuel + 1 + more = (fuel + more) + 1 := by omega
    rw [incoreDirectoryProbe] at run
    rw [hfuel, incoreDirectoryProbe]
    rcases bind_ok.mp run with ⟨off, d₁, hoff, run⟩
    rcases bind_ok.mp run with ⟨u, d₂, hcheck, run⟩
    rcases bind_ok.mp run with ⟨reclen, d₃, hlen, run⟩
    rcases bind_ok.mp run with ⟨seen, d₄, hseen, run⟩
    rw [bind_run hoff, bind_run hcheck, bind_run hlen, bind_run hseen]
    by_cases hhit : seen.1.isSome
    · rw [if_pos hhit] at run ⊢
      exact run
    · rw [if_neg hhit] at run ⊢
      rcases bind_ok.mp run with ⟨passed, d₅, hpassed, run⟩
      rw [bind_run hpassed]
      by_cases hstop : passed.1.isSome
      · rw [if_pos hstop] at run ⊢
        exact run
      · rw [if_neg hstop] at run ⊢
        by_cases hend : siz ≤ sizeT off origin
        · rw [if_pos hend] at run ⊢
          exact run
        · rw [if_neg hend] at run ⊢
          exact ih run

/-- And so does a call. -/
theorem fill_fuel {fuel posp nbytes : ℕ} {res : ℤ × ℕ × Bytes}
    (run : sysioIncoreDiropFilldirentries fuel posp nbytes d = .ok (res, e)) (more : ℕ) :
    sysioIncoreDiropFilldirentries (fuel + more) posp nbytes d = .ok (res, e) := by
  rw [sysioIncoreDiropFilldirentries] at run ⊢
  rcases bind_ok.mp run with ⟨size, d₁, hsize, run⟩
  rw [bind_run hsize]
  by_cases hend : size ≤ posp
  · rw [if_pos hend] at run ⊢
    exact run
  · rw [if_neg hend] at run ⊢
    rcases bind_ok.mp run with ⟨found, d₂, hfound, run⟩
    rw [bind_run (probe_fuel hfound more)]
    cases hde : found.1 with
    | none =>
      rw [hde] at run
      exact run
    | some off =>
      rw [hde] at run
      rcases bind_ok.mp run with ⟨copied, d₃, hcopied, run⟩
      have hmore := probe_fuel hcopied more
      change (incoreDirectoryProbe off (size - off) off incoreDirectoryEnumerate noCallback
        (fuel + more) off ⟨[], nbytes, 0⟩ >>= fun copied => _ : Fd (ℤ × ℕ × Bytes)) d₂ = _
      rw [bind_run hmore]
      exact run

/-- Two calls that end return the same. -/
theorem fill_same {fuel fuel' posp nbytes : ℕ} {res res' : ℤ × ℕ × Bytes} {e' : Directory}
    (run : sysioIncoreDiropFilldirentries fuel posp nbytes d = .ok (res, e))
    (run' : sysioIncoreDiropFilldirentries fuel' posp nbytes d = .ok (res', e')) : res = res' := by
  have hmore := fill_fuel run fuel'
  have hmore' := fill_fuel run' fuel
  rw [Nat.add_comm] at hmore'
  exact (Prod.mk.inj (Except.ok.inj (hmore.symm.trans hmore'))).1

end Fuel

section Copies

variable {d : Directory} {pre post rs : List Rec} {r : Rec}

def live (rs : List Rec) : List Rec := rs.filter fun r => r.type.toNat ≠ DT_WHT

/-- The records a call copies from a list into a buffer: all live ones up to the first that does
not fit. -/
def taken : ℕ → List Rec → List Rec
  | _, [] => []
  | n, r :: rs =>
    if r.type.toNat = DT_WHT then taken n rs
    else if n < r.size then []
    else r :: taken (n - r.size) rs

def weight (rs : List Rec) : ℕ := (rs.map Rec.size).sum

theorem weight_cons (r : Rec) (rs : List Rec) : weight (r :: rs) = r.size + weight rs := by
  simp [weight]

theorem weight_length (rs : List Rec) : (rs.flatMap Rec.encode).length = weight rs := by
  induction rs with
  | nil => rfl
  | cons r l ih => rw [List.flatMap_cons, List.length_append, encode_length, ih, weight_cons]

theorem taken_weight (n : ℕ) (rs : List Rec) : weight (taken n rs) ≤ n := by
  induction rs generalizing n with
  | nil => exact Nat.zero_le n
  | cons r l ih =>
    rw [taken]
    by_cases hwhite : r.type.toNat = DT_WHT
    · rw [if_pos hwhite]
      exact ih n
    · rw [if_neg hwhite]
      by_cases hroom : n < r.size
      · rw [if_pos hroom]
        exact Nat.zero_le n
      · have hrest := ih (n - r.size)
        rw [if_neg hroom, weight_cons]
        omega

theorem taken_all {n : ℕ} (h : weight (live rs) ≤ n) : taken n rs = live rs := by
  induction rs generalizing n with
  | nil => rfl
  | cons r l ih =>
    rw [taken]
    by_cases hwhite : r.type.toNat = DT_WHT
    · have hlive : live (r :: l) = live l := List.filter_cons_of_neg (by simpa using hwhite)
      rw [hlive] at h ⊢
      rw [if_pos hwhite]
      exact ih h
    · have hlive : live (r :: l) = r :: live l := List.filter_cons_of_pos (by simpa using hwhite)
      rw [hlive, weight_cons] at h
      have hrest := @ih (n - r.size) (by omega)
      rw [hlive, if_neg hwhite, if_neg (by omega), hrest]

/-- What `incore_directory_enumerate` does with a record. -/
theorem enumerate_at (h : Placed d pre r post) (info : CopyInfo) :
    incoreDirectoryEnumerate (finish 0 pre) r.size info d = .ok
      (if r.type.toNat = DT_WHT then (none, info)
        else if info.nbytes < r.size then
          (some (finish 0 pre), { info with count := (info.count + 1) % 2 ^ 32 })
        else (none, ⟨info.data ++ r.encode, info.nbytes - r.size, (info.count + 1) % 2 ^ 32⟩), d) := by
  rw [incoreDirectoryEnumerate, bind_run (load_type h)]
  by_cases hwhite : r.type.toNat = DT_WHT
  · rw [if_pos hwhite, if_pos hwhite]
    rfl
  · rw [if_neg hwhite, if_neg hwhite]
    by_cases hroom : info.nbytes < r.size
    · simp only [if_pos hroom]
      rfl
    · have hbytes := @loadBytes_run _ _ _ _ (finish 0 pre) r.size h.split h.start.symm (by simp)
      simp only [if_neg hroom]
      rw [bind_run hbytes]
      rfl

/-- The probe of a call copies what is taken. -/
theorem enumerate_walk (hold : Holds d (pre ++ rs)) (hne : rs ≠ []) {fuel : ℕ}
    (hfuel : rs.length ≤ fuel) (data : Bytes) (n count : ℕ) : ∃ stop count',
      incoreDirectoryProbe 0 d.stSize 0 incoreDirectoryEnumerate noCallback fuel (finish 0 pre)
        ⟨data, n, count⟩ d =
      .ok ((stop, ⟨data ++ (taken n rs).flatMap Rec.encode, n - weight (taken n rs), count'⟩), d) := by
  induction rs generalizing pre fuel data n count with
  | nil => exact absurd rfl hne
  | cons r l ih =>
    have hplaced : Placed d pre r l := hold.placed
    have hmoved : Holds d ((pre ++ [r]) ++ l) := by
      rw [List.append_assoc]
      exact hold
    have hnext : finish 0 (pre ++ [r]) = r.off := finish_append 0 pre [r]
    have hsmall := hold.small
    have hinside := hplaced.inside
    have hsub : sizeT r.off 0 = r.off := sizeT_sub (Nat.zero_le _) (by omega)
    have hentry := enumerate_at hplaced ⟨data, n, count⟩
    rw [List.length_cons] at hfuel
    cases fuel with
    | zero => omega
    | succ fuel =>
      -- A record that is passed by leads to the rest, if there is any.
      have hpass : ∀ info, (∃ stop count', incoreDirectoryProbe 0 d.stSize 0
            incoreDirectoryEnumerate noCallback (fuel + 1) (finish 0 pre) ⟨data, n, count⟩ d =
          .ok ((stop, ⟨info.data ++ (taken info.nbytes l).flatMap Rec.encode,
            info.nbytes - weight (taken info.nbytes l), count'⟩), d)) ∨
          incoreDirectoryEnumerate (finish 0 pre) r.size ⟨data, n, count⟩ d ≠
            .ok ((none, info), d) := by
        intro info
        by_cases hseen : incoreDirectoryEnumerate (finish 0 pre) r.size ⟨data, n, count⟩ d =
            .ok ((none, info), d)
        · left
          have hstep := @probe_pass _ d incoreDirectoryEnumerate noCallback 0 d.stSize 0 fuel pre l r
            _ _ hplaced hsmall _ hseen rfl
          rw [hsub] at hstep
          rw [hstep]
          cases l with
          | nil =>
            have hend : d.stSize = r.off := by
              rw [hold.size, finish_append]
              rfl
            refine ⟨none, info.count, ?_⟩
            rw [if_pos (Nat.le_of_eq hend), taken, List.flatMap_nil, List.append_nil]
            rfl
          | cons q qs =>
            have hspaced := (spaced_append.mp hmoved.spaced).2
            have hbehind := finish_ge hspaced
            rw [← finish_append, ← hmoved.size, hnext, List.length_cons] at hbehind
            rcases @ih (pre ++ [r]) hmoved (List.cons_ne_nil _ _) fuel (by omega) info.data
              info.nbytes info.count with ⟨stop, count', hrest⟩
            rw [hnext] at hrest
            refine ⟨stop, count', ?_⟩
            rw [if_neg (by omega), Nat.zero_add]
            exact hrest
        · exact Or.inr hseen
      by_cases hwhite : r.type.toNat = DT_WHT
      · rw [if_pos hwhite] at hentry
        rcases hpass ⟨data, n, count⟩ with hrun | hno
        · rw [taken, if_pos hwhite]
          exact hrun
        · exact absurd hentry hno
      · rw [if_neg hwhite] at hentry
        by_cases hroom : n < r.size
        · rw [if_pos hroom] at hentry
          refine ⟨some (finish 0 pre), (count + 1) % 2 ^ 32, ?_⟩
          rw [probe_stop hplaced hsmall hentry, taken, if_neg hwhite, if_pos hroom,
            List.flatMap_nil, List.append_nil]
          rfl
        · rw [if_neg hroom] at hentry
          rcases hpass ⟨data ++ r.encode, n - r.size, (count + 1) % 2 ^ 32⟩ with hrun | hno
          · rcases hrun with ⟨stop, count', hrun⟩
            refine ⟨stop, count', ?_⟩
            rw [hrun, taken, if_neg hwhite, if_neg hroom, List.flatMap_cons, weight_cons,
              List.append_assoc, Nat.sub_sub]
          · exact absurd hentry hno

end Copies

section Calls

variable {d : Directory} {rs : List Rec} {nbytes : ℕ}

/-- The first call copies what is taken of the list, and returns its length. -/
theorem fill_first (list : Listing d rs) (htaken : 0 < weight (taken nbytes rs)) :
    sysioIncoreDiropFilldirentries (rs.length + 1) 0 nbytes d =
      .ok ((weight (taken nbytes rs), weight (taken nbytes rs),
        (taken nbytes rs).flatMap Rec.encode), d) := by
  have hold := list.hold
  have hne : rs ≠ [] := by
    rcases list.front with ⟨a, b, rest, rfl, -⟩
    exact List.cons_ne_nil _ _
  have hcount := hold.count
  have hpos := List.length_pos_of_ne_nil hne
  have hsize : (Exec.read fun d => d.stSize : Fd ℕ) d = .ok (d.stSize, d) := rfl
  have hfirst : incoreDirectoryProbe 0 d.stSize 0 (incoreDirectoryPosition 0) noCallback
      (rs.length + 1) 0 () d = .ok ((some 0, ()), d) := by
    rcases list.front with ⟨a, b, rest, rfl, -⟩
    have hplaced : Placed d [] a (b :: rest) := hold.placed
    exact probe_stop hplaced hold.small rfl
  rcases @enumerate_walk d [] rs hold hne (rs.length + 1) (by omega) [] nbytes 0 with
    ⟨stop, count', hcopied⟩
  have hzero : finish 0 ([] : List Rec) = 0 := rfl
  rw [hzero] at hcopied
  have hweight := taken_weight nbytes rs
  rw [sysioIncoreDiropFilldirentries, bind_run hsize, if_neg (by omega), bind_run hfirst]
  change (incoreDirectoryProbe 0 d.stSize 0 incoreDirectoryEnumerate noCallback (rs.length + 1) 0
    ⟨[], nbytes, 0⟩ >>= fun copied => _ : Fd (ℤ × ℕ × Bytes)) d = _
  rw [bind_run hcopied]
  have hsome : ¬ (nbytes = nbytes - weight (taken nbytes rs) ∧ count' ≠ 0) := by omega
  have hback : nbytes - (nbytes - weight (taken nbytes rs)) = weight (taken nbytes rs) := by omega
  simp only [if_neg hsome, hback, Nat.zero_add, List.nil_append]
  rfl

/-- What the first record is for a later call. -/
theorem first_record (list : Listing d rs) : ∃ a rest, Placed d [] a rest ∧ a.off = 24 := by
  rcases list.front with ⟨a, b, rest, rfl, dots⟩
  exact ⟨a, b :: rest, list.hold.placed, dots.off⟩

/-- A call from a position behind the second record on finds nothing, because it measures the
first record from that position. -/
theorem fill_behind (list : Listing d rs) {posp : ℕ} (hpos : 24 < posp) :
    ∃ posp' buf, sysioIncoreDiropFilldirentries 1 posp nbytes d = .ok ((0, posp', buf), d) := by
  refine ⟨posp, [], ?_⟩
  have hsize : (Exec.read fun d => d.stSize : Fd ℕ) d = .ok (d.stSize, d) := rfl
  rw [sysioIncoreDiropFilldirentries, bind_run hsize]
  by_cases hend : d.stSize ≤ posp
  · rw [if_pos hend]
    rfl
  · have hsmall := list.hold.small
    rcases first_record list with ⟨a, rest, hplaced, hoff⟩
    have hentry : incoreDirectoryPosition posp (finish 0 []) a.size () d = .ok ((none, ()), d) := by
      rw [incoreDirectoryPosition, if_neg (by change ¬ posp ≤ 0; omega)]
      rfl
    have hstep := @probe_pass _ d (incoreDirectoryPosition posp) noCallback 0 d.stSize posp 0 [] rest
      a () () hplaced hsmall () hentry rfl
    have hfar : d.stSize ≤ sizeT a.off posp := by
      rw [hoff]
      unfold sizeT
      omega
    have hzero : finish 0 ([] : List Rec) = 0 := rfl
    rw [if_pos hfar, hzero] at hstep
    rw [if_neg hend, bind_run hstep]
    rfl

/-- A call from the second record on comes back to the first record for ever. -/
theorem fill_second (list : Listing d rs) (fuel : ℕ) :
    sysioIncoreDiropFilldirentries fuel 24 nbytes d = .error .diverge := by
  have hsmall := list.hold.small
  have hcount := list.hold.count
  rcases first_record list with ⟨a, rest, hplaced, hoff⟩
  have hinside := hplaced.inside
  have hback : sizeT a.off 24 = 0 := by
    rw [hoff]
    rfl
  have hlong : 24 < d.stSize := by
    rcases list.front with ⟨a', b, rest', rfl, dots⟩
    have hb := list.hold.spaced.2.1
    have hend := finish_ge list.hold.spaced.2.2
    have hsizes := dots.size
    have hfirst := dots.off
    have hall := list.hold.size
    rw [finish, finish] at hall
    omega
  have hloop : incoreDirectoryProbe 0 d.stSize 24 (incoreDirectoryPosition 24) noCallback fuel 0 ()
      d = .error .diverge := by
    induction fuel with
    | zero => rfl
    | succ fuel ih =>
      have hstep := @probe_pass _ d (incoreDirectoryPosition 24) noCallback 0 d.stSize 24 fuel []
        rest a () () hplaced hsmall () rfl rfl
      rw [hback, if_neg (by omega)] at hstep
      exact hstep.trans ih
  have hsize : (Exec.read fun d => d.stSize : Fd ℕ) d = .ok (d.stSize, d) := rfl
  rw [sysioIncoreDiropFilldirentries, bind_run hsize, if_neg (by omega), bind_error hloop]

end Calls

section Listings

variable {d : Directory} {pre rs : List Rec} {nbytes : ℕ}

theorem live_records (hold : Holds d (pre ++ rs)) :
    liveRecords d (starts (finish 0 pre) rs) = (live rs).map Rec.encode := by
  induction rs generalizing pre with
  | nil => rfl
  | cons r l ih =>
    have hplaced : Placed d pre r l := hold.placed
    have hmoved : Holds d ((pre ++ [r]) ++ l) := by
      rw [List.append_assoc]
      exact hold
    have hnext : finish 0 (pre ++ [r]) = r.off := finish_append 0 pre [r]
    have hrest := ih hmoved
    rw [hnext] at hrest
    have htype : typeAt d.data (finish 0 pre) = r.type.toNat := load_value (load_type hplaced)
    have hbytes : fetch d.data (finish 0 pre) (reclenAt d.data (finish 0 pre)) = r.encode := by
      apply fetch_part hplaced.split hplaced.start.symm
      rw [(placed_shown hplaced hold.small).length, encode_length]
    rw [liveRecords, starts]
    by_cases hwhite : r.type.toNat = DT_WHT
    · have hlive : live (r :: l) = live l := List.filter_cons_of_neg (by simpa using hwhite)
      rw [hlive, List.filter_cons_of_neg (by rw [htype]; simpa using hwhite)]
      exact hrest
    · have hlive : live (r :: l) = r :: live l := List.filter_cons_of_pos (by simpa using hwhite)
      rw [hlive, List.filter_cons_of_pos (by rw [htype]; simpa using hwhite), List.map_cons,
        List.map_cons, hbytes]
      exact congrArg (r.encode :: ·) hrest

theorem live_weight (rs : List Rec) : (((live rs).map Rec.encode).map List.length).sum =
    weight (live rs) := by
  rw [List.map_map, weight]
  congr 1
  apply List.map_congr_left
  intro r _
  exact encode_length

/-- The first two records are live and make up 48 bytes. -/
theorem live_front (list : Listing d rs) : 48 ≤ weight (live rs) := by
  rcases list.front with ⟨a, b, rest, rfl, dots⟩
  have ha : a.type.toNat ≠ DT_WHT := by
    rw [dots.type.1]
    decide
  have hb : b.type.toNat ≠ DT_WHT := by
    rw [dots.type.2]
    decide
  have hlive : live (a :: b :: rest) = a :: b :: live rest := by
    rw [live, List.filter_cons_of_pos (by simpa using ha), List.filter_cons_of_pos
      (by simpa using hb)]
    rfl
  have hsizes := dots.size
  rw [hlive, weight_cons, weight_cons]
  omega

/-- A buffer that holds the first record takes it. -/
theorem taken_front (list : Listing d rs) (hroom : 24 ≤ nbytes) :
    24 ≤ weight (taken nbytes rs) := by
  rcases list.front with ⟨a, b, rest, rfl, dots⟩
  have ha : a.type.toNat ≠ DT_WHT := by
    rw [dots.type.1]
    decide
  have hsizes := dots.size
  rw [taken, if_neg ha, if_neg (by omega), weight_cons]
  omega

/-- A listing is complete exactly when one call can do it. -/
theorem complete_iff (list : Listing d rs) (hroom : 24 ≤ nbytes) :
    Complete d (starts 0 rs) nbytes ↔ weight (live rs) ≤ nbytes := by
  have hlive := @live_records d [] rs list.hold
  change liveRecords d (starts 0 rs) = _ at hlive
  have htaken := taken_front list hroom
  have hfirst := @fill_first d rs nbytes list (by omega)
  have hflat : (liveRecords d (starts 0 rs)).flatten.length = weight (live rs) := by
    rw [hlive, ← List.flatMap_def, weight_length]
  constructor
  · rintro ⟨bufs, listed, hall⟩
    have hsmall := taken_weight nbytes rs
    rcases listed with run | ⟨hsome, run, rest⟩
    · have hsame := fill_same hfirst run
      simp only [Prod.mk.injEq] at hsame
      omega
    · have hsame := fill_same hfirst run
      simp only [Prod.mk.injEq] at hsame
      rcases hsame with ⟨rfl, rfl, rfl⟩
      -- No second call copies anything.
      rcases Nat.lt_or_eq_of_le htaken with hbehind | hsecond
      · rcases @fill_behind d rs nbytes list _ hbehind with ⟨posp', buf', hnone⟩
        rcases rest with run' | ⟨hsome', run', -⟩
        · have hlen := congrArg List.length hall
          rw [List.flatten_cons, List.flatten_nil, List.append_nil, weight_length, hflat] at hlen
          omega
        · have hsame := fill_same hnone run'
          simp only [Prod.mk.injEq] at hsame
          omega
      · rw [← hsecond] at rest
        rcases rest with run' | ⟨-, run', -⟩
        · rw [fill_second list] at run'
          simp at run'
        · rw [fill_second list] at run'
          simp at run'
  · intro hfits
    have hfront := live_front list
    rw [taken_all hfits] at hfirst
    rcases @fill_behind d rs nbytes list (weight (live rs)) (by omega) with ⟨posp', buf', hnone⟩
    refine ⟨[(live rs).flatMap Rec.encode], ?_, ?_⟩
    · apply Enumerates.call _ hfirst (Enumerates.finished hnone)
      omega
    · rw [hlive, List.flatten_cons, List.flatten_nil, List.append_nil, List.flatMap_def]

/-- The same in terms of the records' bytes. -/
theorem listed_iff (list : Listing d rs)
    (longest : ∀ off ∈ starts 0 rs, reclenAt d.data off ≤ nbytes) :
    Complete d (starts 0 rs) nbytes ↔
      ((liveRecords d (starts 0 rs)).map List.length).sum ≤ nbytes := by
  have hlive := @live_records d [] rs list.hold
  change liveRecords d (starts 0 rs) = _ at hlive
  rw [hlive, live_weight]
  apply complete_iff list
  rcases list.front with ⟨a, b, rest, rfl, dots⟩
  have hplaced : Placed d [] a (b :: rest) := list.hold.placed
  have hfirst := longest 0 List.mem_cons_self
  have hsize := (placed_shown hplaced list.hold.small).length
  change reclenAt d.data 0 = a.size at hsize
  rw [hsize, dots.size.1] at hfirst
  exact hfirst

end Listings

/-- A listing of a directory with a buffer for its longest record is complete exactly when the
live records fit into the buffer together. -/
theorem incore_enumeration {names : List Bytes} {d : Directory} {offs : List ℕ} {nbytes : ℕ}
    (reached : Reached names d) (chained : Chained d offs)
    (longest : ∀ off ∈ offs, reclenAt d.data off ≤ nbytes) :
    Complete d offs nbytes ↔ ((liveRecords d offs).map List.length).sum ≤ nbytes := by
  rcases (reached_listing reached).1 with ⟨rs, list⟩
  have chained' := listing_chained list
  rcases chained.visits.unique chained'.visits chained.below chained'.below with rfl
  exact listed_iff list longest

/-- Three records, the last one behind the gap of a file that was removed. -/
theorem twoFiles_visits : Chained (twoFiles.final allocated) [0, 24, 72] := by
  rcases (reached_listing twoFiles_reached.1).1 with ⟨rs, list⟩
  have chained := listing_chained list
  have hvalues : offAt (twoFiles.final allocated).data 0 = 24 ∧
      offAt (twoFiles.final allocated).data 24 = 72 ∧
      offAt (twoFiles.final allocated).data 72 = 96 ∧ (twoFiles.final allocated).stSize = 96 := by
    decide +kernel
  generalize twoFiles.final allocated = d at hvalues chained ⊢
  rcases hvalues with ⟨hfirst, hsecond, hthird, hsize⟩
  have visits : Follows d.data 0 [0, 24, 72] d.stSize := by
    apply Follows.record
    rw [hfirst]
    apply Follows.record
    rw [hsecond]
    apply Follows.record
    rw [hthird, hsize]
    exact Follows.here
  have hbelow : ∀ off ∈ [0, 24, 72], off < d.stSize := by
    rw [hsize]
    decide
  have hsame := visits.unique chained.visits hbelow chained.below
  rw [hsame]
  exact chained

theorem twoFiles_complete : Complete (twoFiles.final allocated) [0, 24, 72] 72 := by
  apply (incore_enumeration twoFiles_reached.1 twoFiles_visits ?_).mpr
  · decide +kernel
  · decide +kernel

/-- With room for two of the three records the third one is never returned. -/
theorem twoFiles_incomplete : Reached [[98], [97]] (twoFiles.final allocated) ∧
    Chained (twoFiles.final allocated) [0, 24, 72] ∧
    (∀ off ∈ [0, 24, 72], reclenAt (twoFiles.final allocated).data off ≤ 48) ∧
    ¬ Complete (twoFiles.final allocated) [0, 24, 72] 48 := by
  have hlong : ∀ off ∈ [0, 24, 72], reclenAt (twoFiles.final allocated).data off ≤ 48 := by
    decide +kernel
  have hsum : ¬ ((liveRecords (twoFiles.final allocated) [0, 24, 72]).map List.length).sum ≤ 48 := by
    decide +kernel
  refine ⟨twoFiles_reached.1, twoFiles_visits, hlong, ?_⟩
  rcases (reached_listing twoFiles_reached.1).1 with ⟨rs, list⟩
  have chained := listing_chained list
  have hsame := twoFiles_visits.visits.unique chained.visits twoFiles_visits.below chained.below
  rw [hsame] at hlong hsum ⊢
  intro complete
  exact hsum ((listed_iff list hlong).mp complete)

end IncoreListing
