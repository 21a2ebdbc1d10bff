import DirectFuse.CoreMoves
import DirectFuse.FuseSystem

/-! The descriptor table. The references on a file record are the slots that hold it; a record that is
made and not yet installed has the one of its maker. -/
namespace DescriptorTable

open ExecLogic SysioState SysioInode SysioFile CoreMoves

variable {D : Type}

/-- The open files table is the same, and so is the number of files the driver has closed. -/
structure Apart (closes : D → ℕ) (s t : Sys D) : Prop where
  ft : t.ft = s.ft
  closes : closes t.drv = closes s.drv

instance (closes : D → ℕ) : IsPreorder (Sys D) (Apart closes) where
  refl _ := ⟨rfl, rfl⟩
  trans _ _ _ h k := ⟨k.ft.trans h.ft, k.closes.trans h.closes⟩

/-- A driver keeps off the open files table, and `closes` counts the calls of its `inop_close`. -/
structure ClosesCounted (closes : D → ℕ) (e : Env D) : Prop where
  gone : ∀ i, Moves (Apart closes) (e.ops.gone i)
  close : ∀ i p s err t, e.ops.close i p s = .ok (err, t) →
    t.ft = s.ft ∧ closes t.drv = closes s.drv + 1

/-- Each record has as many references as slots hold it, or its maker's one, and the slots hold
records. -/
structure Table (s : Sys D) : Prop where
  ref : ∀ f r, s.ft.file f = some r → r.ref = max 1 (s.ft.oftab.count (some f))
  live : ∀ f, some f ∈ s.ft.oftab → ∃ r, s.ft.file f = some r
  bound : ∀ f : ℕ, s.ft.nextFile ≤ f → s.ft.file f = none

/-- The slots that hold a record. -/
def held (s : Sys D) (f : FilId) : ℕ := s.ft.oftab.count (some f)

/-- The number of records that are gone in the end. -/
def destroyed (s t : Sys D) : ℕ :=
  (List.range s.ft.nextFile).countP fun f => (s.ft.file f).isSome && (t.ft.file f).isNone

/-- The file records that go with the slots `l`: a record that has lost its last slot is gone, the
others have a reference for each slot. -/
def settle (s : Sys D) (l : List (Option FilId)) (f : FilId) : Option File :=
  (s.ft.file f).bind fun r =>
    if l.count (some f) = 0 ∧ 0 < held s f then none else some { r with ref := max 1 (l.count (some f)) }

section Pieces

variable {closes : D → ℕ} {e : Env D} (counted : ClosesCounted closes e)

/-- The table without one reference on a record. -/
def released (file : FilId → Option File) (f : FilId) (r : File) : FilId → Option File :=
  Function.update file f (if r.ref = 1 then none else some { r with ref := r.ref - 1 })

include counted in
theorem iRele_apart (i : InoId) : Moves (Apart closes) (iRele e i) := by
  have inodes : ∀ g : Sys D → InodeCache,
      Moves (Apart closes) (Exec.write fun s => { s with ic := g s } : Sysio D Unit) :=
    fun g => moves_write fun s => ⟨rfl, rfl⟩
  have fsys : ∀ i r, Moves (Apart closes) (itblRemove i r : Sysio D Unit) := fun i r =>
    moves_bind (fsAt_moves _) fun f => moves_write fun s => ⟨rfl, rfl⟩
  refine moves_bind (inodeAt_moves i) fun r => moves_bind (assert_moves _) fun _ =>
    moves_bind (moves_write fun s => ⟨rfl, rfl⟩) fun _ =>
    moves_ite (fun _ => ?_) fun _ => moves_pure _
  exact moves_bind (inodeAt_moves i) fun r => moves_bind (moves_check _ _) fun _ =>
    moves_bind (moves_when fun _ => fsys i r) fun _ => moves_bind (inodes _) fun _ =>
    moves_bind (counted.gone i) fun _ => moves_bind (inodes _) fun _ =>
    moves_bind (moves_check _ _) fun _ => inodes _

include counted in
/-- A release takes one reference; with the last one the record goes, and its file is closed once. -/
theorem fRele_ok {f : FilId} {s t : Sys D} {u : Unit} (run : fRele e f s = .ok (u, t)) :
    ∃ r, s.ft.file f = some r ∧ r.ref ≠ 0 ∧ t.ft = { s.ft with file := released s.ft.file f r } ∧
      closes t.drv = closes s.drv + if r.ref = 1 then 1 else 0 := by
  obtain ⟨r, _, hread, h1⟩ := bind_ok.mp run
  obtain ⟨hr, rfl⟩ := deref_ok.mp hread
  obtain ⟨_, _, hc, h2⟩ := bind_ok.mp h1
  obtain ⟨href, rfl⟩ := check_ok.mp hc
  obtain ⟨_, v, hv, h3⟩ := bind_ok.mp h2
  obtain rfl := write_ok.mp hv
  have href : r.ref ≠ 0 := of_decide_eq_true href
  refine ⟨r, hr, href, ?_⟩
  by_cases hlast : r.ref - 1 = 0
  · have hone : r.ref = 1 := by omega
    rw [if_pos hlast] at h3
    obtain ⟨r', _, hread, h4⟩ := bind_ok.mp h3
    obtain ⟨hr', rfl⟩ := deref_ok.mp hread
    obtain ⟨_, _, hc, h5⟩ := bind_ok.mp h4
    obtain ⟨-, rfl⟩ := check_ok.mp hc
    obtain ⟨err, v, hv, h6⟩ := bind_ok.mp h5
    obtain ⟨hft, hcloses⟩ := counted.close _ _ _ _ _ hv
    obtain ⟨_, _, hc, h7⟩ := bind_ok.mp h6
    obtain ⟨-, rfl⟩ := check_ok.mp hc
    obtain ⟨_, w, hw, h8⟩ := bind_ok.mp h7
    have hapart := iRele_apart counted _ _ _ _ hw
    obtain rfl := write_ok.mp h8
    rw [if_pos hone]
    refine ⟨?_, hapart.closes.trans hcloses⟩
    change { w.ft with file := Function.update w.ft.file f none } = _
    rw [hapart.ft, hft, released, if_pos hone]
    simp
  · have hmore : r.ref ≠ 1 := by omega
    rw [if_neg hlast] at h3
    obtain ⟨-, rfl⟩ := pure_ok.mp h3
    rw [released, if_neg hmore, if_neg hmore]
    exact ⟨rfl, rfl⟩

/-- The table may have become longer. -/
def Grown (s t : Sys D) : Prop :=
  ∃ k, t.ft = { s.ft with oftab := s.ft.oftab ++ List.replicate k none } ∧ t.drv = s.drv

theorem Grown.refl (s : Sys D) : Grown s s := ⟨0, by simp, rfl⟩

theorem fdGrow_ok {n : ℕ} {s t : Sys D} {err : ℤ} (run : fdGrow e n s = .ok (err, t)) :
    Grown s t ∧ err ≤ 0 ∧ (err = 0 → n ≤ t.ft.oftab.length) := by
  unfold fdGrow at run
  by_cases hbig : 2 ^ 31 ≤ n
  · rw [if_pos hbig] at run
    obtain ⟨rfl, rfl⟩ := pure_ok.mp run
    exact ⟨Grown.refl _, by decide, fun h => absurd h (by decide)⟩
  rw [if_neg hbig] at run
  obtain ⟨size, _, hread, h1⟩ := bind_ok.mp run
  obtain ⟨rfl, rfl⟩ := read_ok.mp hread
  by_cases hfits : n ≤ s.ft.oftab.length
  · rw [if_pos hfits] at h1
    obtain ⟨rfl, rfl⟩ := pure_ok.mp h1
    exact ⟨Grown.refl _, Int.le_refl _, fun _ => hfits⟩
  rw [if_neg hfits] at h1
  obtain ⟨ok, v, hv, h2⟩ := bind_ok.mp h1
  have hscratch : Scratch s v := malloc_moves (fun _ _ k => k) s ok v hv
  have hgrown : Grown s v := ⟨0, by rw [hscratch.ft]; simp, hscratch.drv⟩
  cases ok with
  | false =>
    obtain ⟨rfl, rfl⟩ := pure_ok.mp h2
    exact ⟨hgrown, by decide, fun h => absurd h (by decide)⟩
  | true =>
    obtain ⟨_, w, hw, h3⟩ := bind_ok.mp h2
    obtain rfl := write_ok.mp hw
    obtain ⟨rfl, rfl⟩ := pure_ok.mp h3
    refine ⟨⟨n - s.ft.oftab.length, by simp [hscratch.ft], hscratch.drv⟩, Int.le_refl _, fun _ => ?_⟩
    simp [hscratch.ft]
    omega

/-- A table that cannot grow is left as it is. -/
theorem fdGrow_fails {n : ℕ} {err : ℤ} {s t : Sys D} (run : fdGrow e n s = .ok (err, t)) (herr : err ≠ 0) :
    Scratch s t := by
  unfold fdGrow at run
  by_cases hbig : 2 ^ 31 ≤ n
  · rw [if_pos hbig] at run
    obtain ⟨-, rfl⟩ := pure_ok.mp run
    exact Std.Refl.refl s
  rw [if_neg hbig] at run
  obtain ⟨size, _, hread, h1⟩ := bind_ok.mp run
  obtain ⟨rfl, rfl⟩ := read_ok.mp hread
  by_cases hfits : n ≤ s.ft.oftab.length
  · rw [if_pos hfits] at h1
    obtain ⟨rfl, -⟩ := pure_ok.mp h1
    exact absurd rfl herr
  rw [if_neg hfits] at h1
  obtain ⟨got, v, hgot, h2⟩ := bind_ok.mp h1
  have scratch : Scratch s v := malloc_moves (fun _ _ k => k) s got v hgot
  cases got with
  | false =>
    obtain ⟨-, rfl⟩ := pure_ok.mp h2
    exact scratch
  | true =>
    obtain ⟨_, w, -, h3⟩ := bind_ok.mp h2
    obtain ⟨rfl, -⟩ := pure_ok.mp h3
    exact absurd rfl herr

/-- A table that has grown need not grow for the same descriptor again. -/
theorem fdGrow_again {n : ℕ} {err : ℤ} {s t u : Sys D} (first : fdGrow e n s = .ok (0, t))
    (run : fdGrow e n t = .ok (err, u)) : err = 0 := by
  obtain ⟨-, -, long⟩ := fdGrow_ok first
  have small : ¬ 2 ^ 31 ≤ n := by
    intro hbig
    unfold fdGrow at first
    rw [if_pos hbig] at first
    obtain ⟨herr, -⟩ := pure_ok.mp first
    exact absurd herr (by decide)
  unfold fdGrow at run
  rw [if_neg small] at run
  obtain ⟨size, _, hread, h1⟩ := bind_ok.mp run
  obtain ⟨rfl, rfl⟩ := read_ok.mp hread
  rw [if_pos (long rfl)] at h1
  exact (pure_ok.mp h1).1.symm

theorem Grown.trans {s t u : Sys D} (h : Grown s t) (k : Grown t u) : Grown s u := by
  obtain ⟨m, hm, hd⟩ := h
  obtain ⟨n, hn, hd'⟩ := k
  refine ⟨m + n, ?_, hd'.trans hd⟩
  rw [hn, hm]
  simp only [List.append_assoc, List.replicate_append_replicate]

/-- The first slot behind `low` that is not taken. -/
theorem getD_takeWhile_isSome (oftab : List (Option FilId)) (low : ℕ) :
    oftab.getD (low + ((oftab.drop low).takeWhile (·.isSome)).length) none = none := by
  rw [List.getD_eq_getElem?_getD, ← List.getElem?_drop]
  generalize oftab.drop low = l
  induction l with
  | nil => rfl
  | cons o l ih =>
    cases o with
    | none => rfl
    | some f => simpa using ih

theorem getD_append_none (l : List (Option FilId)) (k n : ℕ) :
    (l ++ List.replicate k none).getD n none = l.getD n none := by
  simp only [List.getD_eq_getElem?_getD]
  by_cases hn : n < l.length
  · rw [List.getElem?_append_left hn]
  · rw [List.getElem?_append_right (by omega), List.getElem?_replicate,
      List.getElem?_eq_none (by omega)]
    split <;> rfl

/-- The descriptor found has a free slot. -/
theorem findFreeFildes_ok {low : ℕ} {s t : Sys D} {n : ℤ}
    (run : findFreeFildes e low s = .ok (n, t)) :
    Grown s t ∧ (0 ≤ n → t.ft.oftab.getD n.toNat none = none) := by
  obtain ⟨oftab, _, hread, h1⟩ := bind_ok.mp run
  obtain ⟨rfl, rfl⟩ := read_ok.mp hread
  obtain ⟨err, v, hv, h2⟩ := bind_ok.mp h1
  have hgrown : Grown s v ∧ err ≤ 0 := by
    by_cases hend : s.ft.oftab.length ≤ low + ((s.ft.oftab.drop low).takeWhile (·.isSome)).length
    · rw [if_pos hend] at hv
      obtain ⟨hgrown, herr, -⟩ := fdGrow_ok hv
      exact ⟨hgrown, herr⟩
    · rw [if_neg hend] at hv
      obtain ⟨rfl, rfl⟩ := pure_ok.mp hv
      exact ⟨Grown.refl _, Int.le_refl _⟩
  obtain ⟨rfl, rfl⟩ := pure_ok.mp h2
  refine ⟨hgrown.1, fun hn => ?_⟩
  obtain ⟨⟨k, hk, -⟩, herr⟩ := hgrown
  by_cases hzero : err = 0
  · rw [if_neg (not_not.mpr hzero), hk]
    change (s.ft.oftab ++ List.replicate k none).getD _ none = none
    rw [getD_append_none]
    exact getD_takeWhile_isSome s.ft.oftab low
  · rw [if_pos hzero] at hn
    omega

/-- What an installation finds and does: slot `n` of the table `u`, the record that stood there
loses a reference. -/
def Installed (closes : D → ℕ) (f : FilId) (n : ℕ) (u t : Sys D) : Prop :=
  n < u.ft.oftab.length ∧
    ((u.ft.oftab.getD n none = none ∧
        t.ft = { u.ft with oftab := u.ft.oftab.set n (some f) } ∧ closes t.drv = closes u.drv) ∨
      ∃ g r, u.ft.oftab.getD n none = some g ∧ u.ft.file g = some r ∧
        t.ft = { u.ft with oftab := u.ft.oftab.set n (some f), file := released u.ft.file g r } ∧
        closes t.drv = closes u.drv + if r.ref = 1 then 1 else 0)

include counted in
theorem sysioFdSet_ok {f : FilId} {fd : ℤ} {force : Bool} {s t : Sys D} {n : ℤ}
    (run : sysioFdSet e f fd force s = .ok (n, t)) :
    (n < 0 ∧ Grown s t) ∨
      ∃ u, Grown s u ∧ 0 ≤ n ∧ (0 ≤ fd → force = true → n = fd) ∧
        (fd < 0 ∨ force = false → u.ft.oftab.getD n.toNat none = none) ∧
        Installed closes f n.toNat u t := by
  obtain ⟨k, u, hu, h1⟩ := bind_ok.mp run
  have hfound : Grown s u ∧ (0 ≤ fd → force = true → k = fd) ∧
      (fd < 0 ∨ force = false → 0 ≤ k → u.ft.oftab.getD k.toNat none = none) := by
    by_cases hfind : fd < 0 ∨ !force
    · rw [if_pos hfind] at hu
      obtain ⟨hgrown, hfree⟩ := findFreeFildes_ok hu
      refine ⟨hgrown, fun hfd hforce => ?_, fun _ => hfree⟩
      rcases hfind with hneg | hnot
      · omega
      · rw [hforce] at hnot
        exact absurd hnot (by decide)
    · rw [if_neg hfind] at hu
      obtain ⟨rfl, rfl⟩ := pure_ok.mp hu
      refine ⟨Grown.refl _, fun _ _ => rfl, fun h => ?_⟩
      apply absurd _ hfind
      rcases h with hneg | hnot
      · exact Or.inl hneg
      · right
        rw [hnot]
        rfl
  obtain ⟨hgrown, hforced, hfree⟩ := hfound
  by_cases hneg : k < 0
  · rw [if_pos hneg] at h1
    obtain ⟨rfl, rfl⟩ := pure_ok.mp h1
    exact Or.inl ⟨hneg, hgrown⟩
  rw [if_neg hneg] at h1
  obtain ⟨err, v, hv, h2⟩ := bind_ok.mp h1
  obtain ⟨hgrown', herr, hlong⟩ := fdGrow_ok hv
  by_cases hfail : err ≠ 0
  · rw [if_pos hfail] at h2
    obtain ⟨rfl, rfl⟩ := pure_ok.mp h2
    exact Or.inl ⟨by omega, hgrown.trans hgrown'⟩
  rw [if_neg hfail] at h2
  obtain ⟨ofil, _, hread, h3⟩ := bind_ok.mp h2
  obtain ⟨hofil, rfl⟩ := read_ok.mp hread
  rw [if_neg hneg] at hofil
  obtain ⟨_, w, hw, h4⟩ := bind_ok.mp h3
  obtain rfl := write_ok.mp hw
  obtain ⟨_, x, hx, h5⟩ := bind_ok.mp h4
  obtain ⟨rfl, rfl⟩ := pure_ok.mp h5
  refine Or.inr ⟨v, hgrown.trans hgrown', by omega, hforced, fun h => ?_, ?_, ?_⟩
  · obtain ⟨j, hj, -⟩ := hgrown'
    rw [hj]
    change (u.ft.oftab ++ List.replicate j none).getD _ none = none
    rw [getD_append_none]
    exact hfree h (by omega)
  · have := hlong (by omega)
    omega
  · cases ofil with
    | none =>
      obtain ⟨-, rfl⟩ := pure_ok.mp hx
      exact Or.inl ⟨hofil, rfl, rfl⟩
    | some g =>
      obtain ⟨r, hr, -, hft, hcloses⟩ := fRele_ok counted hx
      exact Or.inr ⟨g, r, hofil, hr, hft, hcloses⟩

end Pieces

section Counts

variable {closes : D → ℕ}

theorem count_put {l : List (Option FilId)} {n : ℕ} (hn : n < l.length) (o : Option FilId)
    (f : FilId) :
    (l.set n o).count (some f) + (if l.getD n none = some f then 1 else 0) =
      l.count (some f) + if o = some f then 1 else 0 := by
  have hget : l.getD n none = l[n] := by
    rw [List.getD_eq_getElem?_getD, List.getElem?_eq_getElem hn]
    rfl
  have hpos : l[n] = some f → 0 < l.count (some f) := fun h =>
    List.count_pos_iff.mpr (h ▸ List.getElem_mem hn)
  rw [List.count_set hn, hget]
  simp only [beq_iff_eq]
  by_cases h : l[n] = some f
  · have := hpos h
    rw [if_pos h]
    omega
  · rw [if_neg h]
    omega

theorem count_grown (l : List (Option FilId)) (k : ℕ) (f : FilId) :
    (l ++ List.replicate k none).count (some f) = l.count (some f) := by
  rw [List.count_append, List.count_replicate]
  simp

theorem mem_put {l : List (Option FilId)} {n : ℕ} {o : Option FilId} {f : FilId}
    (h : some f ∈ l.set n o) : some f ∈ l ∨ o = some f := by
  rcases List.mem_or_eq_of_mem_set h with h | h
  · exact Or.inl h
  · exact Or.inr h.symm

/-- The records at the end of an operation are those that go with the slots, and the driver has
closed each that is gone. -/
structure Settled (closes : D → ℕ) (s t : Sys D) : Prop where
  next : t.ft.nextFile = s.ft.nextFile
  file : ∀ f, t.ft.file f = settle s t.ft.oftab f
  closes : closes t.drv = closes s.drv + destroyed s t

/-- The slots decide which records are alive. -/
theorem Settled.table {s t : Sys D} (table : Table s) (h : Settled closes s t)
    (slots : ∀ f, some f ∈ t.ft.oftab → ∃ r, s.ft.file f = some r) : Table t := by
  constructor
  · intro f r hr
    rw [h.file, settle] at hr
    obtain ⟨r', -, hr⟩ := Option.bind_eq_some_iff.mp hr
    by_cases hlost : t.ft.oftab.count (some f) = 0 ∧ 0 < held s f
    · rw [if_pos hlost] at hr
      cases hr
    · rw [if_neg hlost] at hr
      obtain rfl := Option.some.inj hr
      rfl
  · intro f hf
    obtain ⟨r, hr⟩ := slots f hf
    have hpos := List.count_pos_iff.mpr hf
    rw [h.file, settle, hr, Option.bind_some, if_neg (by omega)]
    exact ⟨_, rfl⟩
  · intro f hf
    rw [h.file, settle, table.bound f (h.next ▸ hf)]
    rfl

theorem settle_same {s : Sys D} (table : Table s) {l : List (Option FilId)} {f : FilId}
    (h : l.count (some f) = held s f) : settle s l f = s.ft.file f := by
  cases hr : s.ft.file f with
  | none => rw [settle, hr, Option.bind_none]
  | some r =>
    have href : r.ref = max 1 (l.count (some f)) := h ▸ table.ref f r hr
    rw [settle, hr, Option.bind_some, if_neg (by omega), ← href]

theorem settle_less {s : Sys D} (table : Table s) {l : List (Option FilId)} {f : FilId} {r : File}
    (hr : s.ft.file f = some r) (h : l.count (some f) + 1 = held s f) :
    settle s l f = if r.ref = 1 then none else some { r with ref := r.ref - 1 } := by
  have href : r.ref = max 1 (held s f) := table.ref f r hr
  rw [settle, hr, Option.bind_some]
  by_cases hlast : l.count (some f) = 0
  · rw [if_pos (by omega), if_pos (by omega)]
  · have : max 1 (l.count (some f)) = r.ref - 1 := by omega
    rw [if_neg (by omega), if_neg (by omega), this]

theorem settle_more {s : Sys D} {l : List (Option FilId)} {f : FilId} {r : File}
    (hr : s.ft.file f = some r) (h : 0 < l.count (some f)) :
    settle s l f = some { r with ref := l.count (some f) } := by
  have : max 1 (l.count (some f)) = l.count (some f) := by omega
  rw [settle, hr, Option.bind_some, if_neg (by omega), this]

theorem destroyed_zero {s t : Sys D}
    (h : ∀ f r, s.ft.file f = some r → ∃ r', t.ft.file f = some r') : destroyed s t = 0 := by
  refine List.countP_eq_zero.mpr fun f _ hf => ?_
  obtain ⟨hs, ht⟩ := Bool.and_eq_true_iff.mp hf
  obtain ⟨r, hr⟩ := Option.isSome_iff_exists.mp hs
  obtain ⟨r', hr'⟩ := h f r hr
  rw [hr'] at ht
  cases ht

theorem destroyed_one {s t : Sys D} {g : FilId} {r : File} (hg : g < s.ft.nextFile)
    (hr : s.ft.file g = some r) (gone : t.ft.file g = none)
    (others : ∀ f ≠ g, ∀ r, s.ft.file f = some r → ∃ r', t.ft.file f = some r') :
    destroyed s t = 1 := by
  have hat : ∀ f ∈ List.range s.ft.nextFile,
      (((s.ft.file f).isSome && (t.ft.file f).isNone) = true ↔ (f == g) = true) := by
    intro f _
    by_cases hf : f = g
    · subst hf
      simp [hr, gone]
    · cases hs : s.ft.file f with
      | none => simp [hf]
      | some r' =>
        obtain ⟨r'', hr''⟩ := others f hf r' hs
        simp [hr'', hf]
  rw [destroyed, List.countP_congr hat]
  exact (List.Nodup.count List.nodup_range).trans (if_pos (List.mem_range.mpr hg))

/-- A slot that is emptied takes a reference with it. -/
theorem settled_close {s t : Sys D} (table : Table s) {n : ℕ} {f : FilId} {r : File}
    (slot : s.ft.oftab.getD n none = some f) (hr : s.ft.file f = some r)
    (hft : t.ft = { s.ft with oftab := s.ft.oftab.set n none, file := released s.ft.file f r })
    (hcloses : closes t.drv = closes s.drv + if r.ref = 1 then 1 else 0) :
    Settled closes s t ∧ ∀ g, held t g ≤ held s g := by
  have hn : n < s.ft.oftab.length := by
    by_contra hlen
    rw [List.getD_eq_getElem?_getD, List.getElem?_eq_none (by omega)] at slot
    cases slot
  have hcount : ∀ g, held t g + (if f = g then 1 else 0) = held s g := by
    intro g
    have := count_put hn none g
    rw [slot] at this
    simp only [Option.some.injEq, reduceCtorEq, if_false, Nat.add_zero] at this
    rw [held, hft]
    exact this
  have hself := hcount f
  rw [if_pos rfl] at hself
  have hfile : t.ft.file = released s.ft.file f r := by rw [hft]
  refine ⟨⟨by rw [hft], fun g => ?_, ?_⟩, fun g => by have := hcount g; omega⟩
  · by_cases hg : g = f
    · subst hg
      rw [settle_less table hr hself, hfile, released, Function.update_self]
    · have hsame := hcount g
      rw [if_neg fun h => hg h.symm] at hsame
      rw [settle_same table hsame, hfile, released, Function.update_of_ne hg]
  · have hbound : f < s.ft.nextFile := by
      by_contra hf
      rw [table.bound f (Nat.le_of_not_lt hf)] at hr
      cases hr
    have hothers : ∀ g ≠ f, ∀ r, s.ft.file g = some r → ∃ r', t.ft.file g = some r' := by
      intro g hg r' hr'
      exact ⟨r', by rw [hfile, released, Function.update_of_ne hg, hr']⟩
    rw [hcloses]
    by_cases hlast : r.ref = 1
    · rw [if_pos hlast, destroyed_one hbound hr _ hothers]
      rw [hfile, released, Function.update_self, if_pos hlast]
    · rw [if_neg hlast, destroyed_zero]
      intro g r' hr'
      by_cases hg : g = f
      · subst hg
        exact ⟨_, by rw [hfile, released, Function.update_self, if_neg hlast]⟩
      · exact hothers g hg r' hr'

theorem Grown.table {s t : Sys D} (h : Grown s t) (table : Table s) : Table t := by
  obtain ⟨k, hft, -⟩ := h
  constructor
  · intro f r hr
    rw [hft] at hr ⊢
    rw [count_grown]
    exact table.ref f r hr
  · intro f hf
    rw [hft] at hf ⊢
    apply table.live
    rcases List.mem_append.mp hf with hf | hf
    · exact hf
    · cases (List.mem_replicate.mp hf).2
  · intro f hf
    rw [hft] at hf ⊢
    exact table.bound f hf

theorem Grown.held {s t : Sys D} (h : Grown s t) (f : FilId) : held t f = held s f := by
  obtain ⟨k, hft, -⟩ := h
  rw [DescriptorTable.held, hft]
  exact count_grown s.ft.oftab k f

theorem Grown.file {s t : Sys D} (h : Grown s t) : t.ft.file = s.ft.file := by
  obtain ⟨k, hft, -⟩ := h
  rw [hft]

theorem Grown.next {s t : Sys D} (h : Grown s t) : t.ft.nextFile = s.ft.nextFile := by
  obtain ⟨k, hft, -⟩ := h
  rw [hft]

theorem Grown.settled {s u t : Sys D} (h : Grown s u) (k : Settled closes u t) :
    Settled closes s t := by
  refine ⟨k.next.trans h.next, fun f => ?_, ?_⟩
  · rw [k.file, settle, settle, h.file, h.held]
  · rw [k.closes, destroyed, destroyed, h.file, h.next]
    obtain ⟨-, -, hdrv⟩ := h
    rw [hdrv]

theorem destroyed_add {s m t : Sys D} (next : m.ft.nextFile = s.ft.nextFile)
    (first : ∀ f, s.ft.file f = none → m.ft.file f = none)
    (second : ∀ f, m.ft.file f = none → t.ft.file f = none) :
    destroyed s t = destroyed s m + destroyed m t := by
  unfold destroyed
  rw [next]
  induction List.range s.ft.nextFile with
  | nil => rfl
  | cons f l ih =>
    rw [List.countP_cons, List.countP_cons, List.countP_cons, ih]
    have hfirst := first f
    have hsecond := second f
    cases hs : s.ft.file f with
    | none => simp [hfirst hs]
    | some r =>
      cases hm : m.ft.file f with
      | none =>
        simp [hsecond hm]
        omega
      | some r' =>
        simp
        omega

theorem settled_none {s t : Sys D} (h : Settled closes s t) {f : FilId}
    (hf : s.ft.file f = none) : t.ft.file f = none := by
  rw [h.file, settle, hf, Option.bind_none]

theorem settled_some {s t : Sys D} (h : Settled closes s t) {f : FilId} {r : File}
    (hf : s.ft.file f = some r) :
    t.ft.file f = if held t f = 0 ∧ 0 < held s f then none
      else some { r with ref := max 1 (held t f) } := by
  rw [h.file, settle, hf, Option.bind_some]
  rfl

/-- Two operations settle what both do, if the first takes slots only and the second brings back
no record that the first has lost. -/
theorem Settled.trans {s m t : Sys D} (h : Settled closes s m) (k : Settled closes m t)
    (less : ∀ f, held m f ≤ held s f) (stay : ∀ f, 0 < held s f → held m f = 0 → held t f = 0) :
    Settled closes s t := by
  refine ⟨k.next.trans h.next, fun f => ?_, ?_⟩
  · cases hs : s.ft.file f with
    | none => rw [settled_none k (settled_none h hs), settle, hs, Option.bind_none]
    | some r =>
      have hless := less f
      have hstay := stay f
      have hm := settled_some h hs
      rw [settle, hs, Option.bind_some]
      change _ = if held t f = 0 ∧ 0 < held s f then none else some { r with ref := max 1 (held t f) }
      by_cases hlost : held m f = 0 ∧ 0 < held s f
      · rw [if_pos hlost] at hm
        rw [settled_none k hm, if_pos ⟨hstay hlost.2 hlost.1, hlost.2⟩]
      · rw [if_neg hlost] at hm
        rw [settled_some k hm]
        by_cases hgone : held t f = 0 ∧ 0 < held m f
        · rw [if_pos hgone, if_pos (by omega)]
        · rw [if_neg hgone, if_neg (by omega)]
  · rw [k.closes, h.closes, destroyed_add h.next (fun f => settled_none h) fun f => settled_none k]
    omega

theorem held_pos {s : Sys D} {n : ℕ} {f : FilId} (slot : s.ft.oftab.getD n none = some f) :
    0 < held s f := by
  rw [List.getD_eq_getElem?_getD] at slot
  apply List.count_pos_iff.mpr
  cases hget : s.ft.oftab[n]? with
  | none =>
    rw [hget] at slot
    cases slot
  | some o =>
    rw [hget] at slot
    obtain rfl : o = some f := slot
    exact List.mem_of_getElem? hget

theorem held_free {s t : Sys D} {n : ℕ} {f : FilId} (hn : n < s.ft.oftab.length)
    (free : s.ft.oftab.getD n none = none) (slots : t.ft.oftab = s.ft.oftab.set n (some f))
    (g : FilId) : held t g = held s g + if f = g then 1 else 0 := by
  have := count_put hn (some f) g
  rw [free, ← slots] at this
  simp only [Option.some.injEq, reduceCtorEq, if_false, Nat.add_zero] at this
  exact this

/-- A record in a free slot has one more reference, or its maker's. -/
theorem settled_free {s t : Sys D} (table : Table s) {n : ℕ} {f : FilId} {r : File}
    (hn : n < s.ft.oftab.length) (free : s.ft.oftab.getD n none = none)
    (hr : s.ft.file f = some r) (next : t.ft.nextFile = s.ft.nextFile)
    (slots : t.ft.oftab = s.ft.oftab.set n (some f))
    (file : t.ft.file = Function.update s.ft.file f (some { r with ref := held s f + 1 }))
    (hcloses : closes t.drv = closes s.drv) : Settled closes s t := by
  have hcount := held_free hn free slots
  refine ⟨next, fun g => ?_, ?_⟩
  · by_cases hg : g = f
    · subst hg
      have hself := hcount g
      rw [if_pos rfl] at hself
      have hpos : 0 < t.ft.oftab.count (some g) := by
        change 0 < held t g
        omega
      rw [settle_more hr hpos, file, Function.update_self, ← hself]
      rfl
    · have hsame := hcount g
      rw [if_neg fun h => hg h.symm] at hsame
      rw [settle_same table hsame, file, Function.update_of_ne hg]
  · rw [hcloses, destroyed_zero, Nat.add_zero]
    intro g r' hr'
    by_cases hg : g = f
    · subst hg
      exact ⟨_, by rw [file, Function.update_self]⟩
    · exact ⟨r', by rw [file, Function.update_of_ne hg, hr']⟩

/-- An installation first empties the slot. -/
theorem Installed.empties {f : FilId} {n : ℕ} {u t : Sys D} (table : Table u)
    (h : Installed closes f n u t) :
    ∃ m, Settled closes u m ∧ Table m ∧ n < m.ft.oftab.length ∧ m.ft.oftab.getD n none = none ∧
      t.ft = { m.ft with oftab := m.ft.oftab.set n (some f) } ∧ closes t.drv = closes m.drv ∧
      (∀ g, held m g ≤ held u g) ∧
      ∀ k ≠ n, m.ft.oftab.getD k none = u.ft.oftab.getD k none := by
  obtain ⟨hn, ⟨hfree, hft, hcloses⟩ | ⟨g, r, hslot, hr, hft, hcloses⟩⟩ := h
  · refine ⟨u, ⟨rfl, fun g => (settle_same table rfl).symm, ?_⟩, table, hn, hfree, hft, hcloses,
      fun g => Nat.le_refl _, fun k _ => rfl⟩
    rw [destroyed_zero fun g r hr => ⟨r, hr⟩, Nat.add_zero]
  · obtain ⟨m, hm⟩ : ∃ m : Sys D, m = { u with
      ft.oftab := u.ft.oftab.set n none
      ft.file := released u.ft.file g r
      drv := t.drv } := ⟨_, rfl⟩
    have hfile : m.ft =
        { u.ft with oftab := u.ft.oftab.set n none, file := released u.ft.file g r } := by rw [hm]
    have hdrv : m.drv = t.drv := by rw [hm]
    rw [← hdrv] at hcloses
    obtain ⟨hsettled, hless⟩ := settled_close table hslot hr hfile hcloses
    have hslots : m.ft.oftab = u.ft.oftab.set n none := by rw [hfile]
    refine ⟨m, hsettled, hsettled.table table fun g' hg' => ?_, ?_, ?_, ?_, ?_, hless, ?_⟩
    · rw [hslots] at hg'
      rcases mem_put hg' with hg' | hg'
      · exact table.live g' hg'
      · cases hg'
    · rw [hslots, List.length_set]
      exact hn
    · rw [hslots, List.getD_eq_getElem?_getD, List.getElem?_set_self hn]
      rfl
    · rw [hft, hfile, List.set_set]
    · rw [hdrv]
    · intro k hk
      rw [hslots, List.getD_eq_getElem?_getD, List.getElem?_set_ne (Ne.symm hk),
        ← List.getD_eq_getElem?_getD]

end Counts

section Operations

variable {closes : D → ℕ} {e : Env D} (counted : ClosesCounted closes e)

/-- A step that keeps the table right and settles what its slots say. -/
def Keeps (closes : D → ℕ) (s t : Sys D) : Prop := Table t ∧ Settled closes s t

theorem keeps_grown {s t : Sys D} (table : Table s) (h : Grown s t) : Keeps closes s t := by
  have htable := h.table table
  refine ⟨htable, h.settled ⟨rfl, fun g => (settle_same htable rfl).symm, ?_⟩⟩
  rw [destroyed_zero fun g r hr => ⟨r, hr⟩, Nat.add_zero]

theorem Installed.keeps {f : FilId} {n : ℕ} {u v t : Sys D} (table : Table u)
    (h : Installed closes f n u v) {r : File} (hr : v.ft.file f = some r)
    (holds : held u f = 0 ∧ t = v ∨
      (∃ k ≠ n, u.ft.oftab.getD k none = some f) ∧ t.drv = v.drv ∧
        t.ft = { v.ft with
          file := Function.update v.ft.file f (some { r with ref := r.ref + 1 }) }) :
    Keeps closes u t := by
  obtain ⟨m, hsettled, htable, hn, hfree, hft, hcloses, hless, hothers⟩ := h.empties table
  have hrm : m.ft.file f = some r := by
    rw [hft] at hr
    exact hr
  have href : r.ref = max 1 (held m f) := htable.ref f r hrm
  have hlive : ∀ t : Sys D, t.ft.oftab = m.ft.oftab.set n (some f) →
      ∀ g, some g ∈ t.ft.oftab → ∃ r, u.ft.file g = some r := by
    intro t ht g hg
    rw [ht] at hg
    by_contra hnone
    have hgone : m.ft.file g = none := by
      apply settled_none hsettled
      cases hu : u.ft.file g with
      | none => rfl
      | some r' => exact absurd ⟨r', hu⟩ hnone
    rcases mem_put hg with hg | hg
    · obtain ⟨r', hr'⟩ := htable.live g hg
      rw [hgone] at hr'
      cases hr'
    · obtain rfl := Option.some.inj hg
      rw [hgone] at hrm
      cases hrm
  rcases holds with ⟨hheld, rfl⟩ | ⟨⟨k, hk, hslot⟩, hdrv, hft'⟩
  · have hslots : t.ft.oftab = m.ft.oftab.set n (some f) := by rw [hft]
    have hzero : held m f = 0 := by
      have := hless f
      omega
    have hput : Settled closes m t := by
      apply settled_free htable hn hfree hrm (by rw [hft]) hslots _ hcloses
      have hone : ({ r with ref := held m f + 1 } : File) = r := by
        rw [show held m f + 1 = r.ref by omega]
      rw [hone, hft]
      exact (Function.update_eq_self_iff.mpr hrm.symm).symm
    have hall : Settled closes u t := by
      refine hsettled.trans hput hless fun g hpos hg => ?_
      have hne : g ≠ f := by
        rintro rfl
        omega
      rw [held_free hn hfree hslots, if_neg hne.symm, hg]
    exact ⟨hall.table table (hlive t hslots), hall⟩
  · have hslots : t.ft.oftab = m.ft.oftab.set n (some f) := by rw [hft', hft]
    have hpos : 0 < held m f := held_pos ((hothers k hk).trans hslot)
    have hput : Settled closes m t := by
      apply settled_free htable hn hfree hrm (by rw [hft', hft]) hslots _ (by rw [hdrv, hcloses])
      rw [hft', hft, show r.ref = held m f by omega]
    have hall : Settled closes u t := by
      refine hsettled.trans hput hless fun g _ hg => ?_
      have hne : g ≠ f := by
        rintro rfl
        omega
      rw [held_free hn hfree hslots, if_neg hne.symm, hg]
    exact ⟨hall.table table (hlive t hslots), hall⟩

include counted in
theorem sysioFdSet_keeps {f : FilId} {fd : ℤ} {force : Bool} {s t : Sys D} {n : ℤ}
    (table : Table s) (live : ∃ r, s.ft.file f = some r) (fresh : held s f = 0)
    (run : sysioFdSet e f fd force s = .ok (n, t)) : Keeps closes s t := by
  rcases sysioFdSet_ok counted run with ⟨-, hgrown⟩ | ⟨u, hgrown, -, -, -, hinst⟩
  · exact keeps_grown table hgrown
  · obtain ⟨r, hr⟩ := live
    have htable := hgrown.table table
    have hkept : ∃ r', t.ft.file f = some r' := by
      rw [← hgrown.file] at hr
      obtain ⟨-, ⟨-, hft, -⟩ | ⟨g, r', hslot, hr', hft, -⟩⟩ := hinst
      · exact ⟨r, by rw [hft]; exact hr⟩
      · refine ⟨r, ?_⟩
        have hne : f ≠ g := by
          rintro rfl
          have hpos := held_pos hslot
          have hzero := (hgrown.held f).trans fresh
          omega
        rw [hft]
        change released _ _ _ f = _
        rw [released, Function.update_of_ne hne, hr]
    obtain ⟨r', hr'⟩ := hkept
    obtain ⟨hkeep, hsettled⟩ := hinst.keeps htable hr' (Or.inl ⟨(hgrown.held f).trans fresh, rfl⟩)
    exact ⟨hkeep, hgrown.settled hsettled⟩

include counted in
theorem sysioFdDup_keeps {oldfd newfd : ℤ} {force : Bool} {s t : Sys D} {n : ℤ} (table : Table s)
    (run : sysioFdDup e oldfd newfd force s = .ok (n, t)) : Keeps closes s t := by
  unfold sysioFdDup at run
  by_cases hsame : oldfd = newfd ∧ 0 ≤ oldfd
  · rw [if_pos hsame] at run
    obtain ⟨-, rfl⟩ := pure_ok.mp run
    exact keeps_grown table (Grown.refl s)
  rw [if_neg hsame] at run
  obtain ⟨o, _, hread, h1⟩ := bind_ok.mp run
  obtain ⟨ho, rfl⟩ := read_ok.mp hread
  cases o with
  | none =>
    obtain ⟨-, rfl⟩ := pure_ok.mp h1
    exact keeps_grown table (Grown.refl s)
  | some f =>
    obtain ⟨fd, v, hset, h2⟩ := bind_ok.mp h1
    obtain ⟨_, w, hw, h3⟩ := bind_ok.mp h2
    obtain ⟨rfl, rfl⟩ := pure_ok.mp h3
    by_cases hneg : oldfd < 0
    · rw [if_pos hneg] at ho
      cases ho
    rw [if_neg hneg] at ho
    rcases sysioFdSet_ok counted hset with ⟨hfd, hgrown⟩ | ⟨u, hgrown, hfd, hforced, hfree, hinst⟩
    · rcases when_ok.mp hw with ⟨hpos, -⟩ | ⟨-, rfl⟩
      · omega
      · exact keeps_grown table hgrown
    · rcases when_ok.mp hw with ⟨-, href⟩ | ⟨hnot, -⟩
      · obtain ⟨r, _, hread, hput⟩ := bind_ok.mp href
        obtain ⟨hr, rfl⟩ := deref_ok.mp hread
        have ht := write_ok.mp hput
        have hslot : u.ft.oftab.getD oldfd.toNat none = some f := by
          obtain ⟨k, hk, -⟩ := hgrown
          rw [hk]
          change (s.ft.oftab ++ List.replicate k none).getD _ none = _
          rw [getD_append_none, ho]
        have hne : oldfd.toNat ≠ fd.toNat := by
          intro heq
          by_cases hfind : newfd < 0 ∨ force = false
          · have := hfree hfind
            rw [← heq, hslot] at this
            cases this
          · have hforce : force = true := by simpa using fun h => hfind (Or.inr h)
            have := hforced (by omega) hforce
            apply hsame
            omega
        have hkeeps : Keeps closes u w := hinst.keeps (hgrown.table table) hr
          (Or.inr ⟨⟨_, hne, hslot⟩, by rw [← ht], by rw [← ht]⟩)
        obtain ⟨hkeep, hsettled⟩ := hkeeps
        exact ⟨hkeep, hgrown.settled hsettled⟩
      · exact absurd hfd hnot

/-- Taking a record out of slot `n`, whether the slot goes first or the reference. -/
theorem keeps_close {n : ℕ} {f : FilId} {r : File} {s t : Sys D} (table : Table s)
    (slot : s.ft.oftab.getD n none = some f) (hr : s.ft.file f = some r)
    (hft : t.ft = { s.ft with oftab := s.ft.oftab.set n none, file := released s.ft.file f r })
    (hcloses : closes t.drv = closes s.drv + if r.ref = 1 then 1 else 0) :
    Keeps closes s t ∧ ∀ g, held t g ≤ held s g := by
  obtain ⟨hsettled, hless⟩ := settled_close table slot hr hft hcloses
  refine ⟨⟨hsettled.table table fun g hg => ?_, hsettled⟩, hless⟩
  rw [hft] at hg
  rcases mem_put hg with hg | hg
  · exact table.live g hg
  · cases hg

include counted in
theorem sysioFdClose_keeps {fd : ℤ} {s t : Sys D} {n : ℤ} (table : Table s)
    (run : sysioFdClose e fd s = .ok (n, t)) : Keeps closes s t := by
  obtain ⟨o, _, hread, h1⟩ := bind_ok.mp run
  obtain ⟨ho, rfl⟩ := read_ok.mp hread
  cases o with
  | none =>
    obtain ⟨-, rfl⟩ := pure_ok.mp h1
    exact keeps_grown table (Grown.refl s)
  | some f =>
    obtain ⟨_, u, hu, h2⟩ := bind_ok.mp h1
    obtain rfl := write_ok.mp hu
    obtain ⟨_, v, hv, h3⟩ := bind_ok.mp h2
    obtain ⟨-, rfl⟩ := pure_ok.mp h3
    obtain ⟨r, hr, -, hft, hcloses⟩ := fRele_ok counted hv
    by_cases hneg : fd < 0
    · rw [if_pos hneg] at ho
      cases ho
    · rw [if_neg hneg] at ho
      exact (keeps_close table ho hr hft hcloses).1

include counted in
theorem closeAllLoop_keeps (n fd : ℕ) {s t : Sys D} {u : Unit} (table : Table s)
    (run : closeAllLoop e fd n s = .ok (u, t)) :
    Keeps closes s t ∧ ∀ g, held t g ≤ held s g := by
  induction n generalizing fd s with
  | zero =>
    obtain ⟨-, rfl⟩ := pure_ok.mp run
    exact ⟨keeps_grown table (Grown.refl s), fun g => Nat.le_refl _⟩
  | succ n ih =>
    obtain ⟨o, _, hread, h1⟩ := bind_ok.mp run
    obtain ⟨ho, rfl⟩ := read_ok.mp hread
    obtain ⟨_, m, hm, h2⟩ := bind_ok.mp h1
    have hfirst : Keeps closes s m ∧ ∀ g, held m g ≤ held s g := by
      cases o with
      | none =>
        obtain ⟨-, rfl⟩ := pure_ok.mp hm
        exact ⟨keeps_grown table (Grown.refl s), fun g => Nat.le_refl _⟩
      | some f =>
        obtain ⟨_, v, hv, h3⟩ := bind_ok.mp hm
        obtain rfl := write_ok.mp h3
        obtain ⟨r, hr, -, hft, hcloses⟩ := fRele_ok counted hv
        rw [if_neg (by omega)] at ho
        exact keeps_close table ho hr (by rw [hft]; rfl) hcloses
    obtain ⟨⟨htable, hsettled⟩, hless⟩ := hfirst
    obtain ⟨⟨htable', hsettled'⟩, hless'⟩ := ih (fd + 1) htable h2
    refine ⟨⟨htable', hsettled.trans hsettled' hless fun f _ hf => ?_⟩, fun g => ?_⟩
    · have := hless' f
      omega
    · exact Nat.le_trans (hless' g) (hless g)

include counted in
theorem sysioFdCloseAll_keeps {s t : Sys D} {n : ℤ} (table : Table s)
    (run : sysioFdCloseAll e s = .ok (n, t)) : Keeps closes s t := by
  obtain ⟨size, _, hread, h1⟩ := bind_ok.mp run
  obtain ⟨-, rfl⟩ := read_ok.mp hread
  obtain ⟨_, u, hloop, h2⟩ := bind_ok.mp h1
  obtain ⟨⟨htable, hsettled⟩, -⟩ := closeAllLoop_keeps counted _ _ table hloop
  obtain ⟨cwd, _, hread, h3⟩ := bind_ok.mp h2
  obtain ⟨-, rfl⟩ := read_ok.mp hread
  have hrest : t.ft = u.ft ∧ t.drv = u.drv := by
    cases cwd with
    | none =>
      obtain ⟨-, rfl⟩ := pure_ok.mp h3
      exact ⟨rfl, rfl⟩
    | some p =>
      obtain ⟨_, v, hv, h4⟩ := bind_ok.mp h3
      obtain ⟨_, w, hw, h5⟩ := bind_ok.mp h4
      obtain ⟨-, rfl⟩ := pure_ok.mp h5
      obtain rfl := write_ok.mp hw
      obtain ⟨_, x, hx, h6⟩ := bind_ok.mp hv
      obtain ⟨-, rfl⟩ := check_ok.mp hx
      obtain rfl := write_ok.mp h6
      exact ⟨rfl, rfl⟩
  refine ⟨⟨?_, ?_, ?_⟩, ⟨?_, ?_, ?_⟩⟩
  · rw [hrest.1]
    exact htable.ref
  · rw [hrest.1]
    exact htable.live
  · rw [hrest.1]
    exact htable.bound
  · rw [hrest.1]
    exact hsettled.next
  · rw [hrest.1]
    exact hsettled.file
  · rw [hrest.2, hsettled.closes, destroyed, destroyed, hrest.1]

end Operations

/-- The operations on the table, with the making of new records. -/
inductive TableOp where
  | fnew (p : Pno) (flags : ℕ)
  | set (f : FilId) (fd : ℤ) (force : Bool)
  | dup (oldfd newfd : ℤ) (force : Bool)
  | close (fd : ℤ)
  | closeAll
  deriving DecidableEq, Repr

def tableStep (e : Env D) : TableOp → Sysio D ℤ
  | .fnew p flags => do
    let f ← sysioFuseFnew e p flags
    return (f.map Int.ofNat).getD (-1)
  | .set f fd force => sysioFdSet e f fd force
  | .dup oldfd newfd force => sysioFdDup e oldfd newfd force
  | .close fd => sysioFdClose e fd
  | .closeAll => sysioFdCloseAll e

/-- `_sysio_fd_set` is for a record that is in no slot yet; `_sysio_fd_dup` is for the others. -/
def Allowed (s : Sys D) : TableOp → Prop
  | .set f _ _ => (∃ r, s.ft.file f = some r) ∧ held s f = 0
  | _ => True

/-- What an operation does to the records that were there: a record goes with its last slot, and
for each that goes the driver is called once. -/
structure Destroys (closes : D → ℕ) (s t : Sys D) : Prop where
  gone : ∀ f, s.ft.file f ≠ none → (t.ft.file f = none ↔ 0 < held s f ∧ held t f = 0)
  closes : closes t.drv = closes s.drv + destroyed s t

section Runs

variable {closes : D → ℕ} {e : Env D} (counted : ClosesCounted closes e)

theorem Settled.destroys {s t : Sys D} (h : Settled closes s t) : Destroys closes s t := by
  refine ⟨fun f hf => ?_, h.closes⟩
  obtain ⟨r, hr⟩ := Option.ne_none_iff_exists'.mp hf
  rw [settled_some h hr]
  by_cases hlost : held t f = 0 ∧ 0 < held s f
  · rw [if_pos hlost]
    exact ⟨fun _ => hlost.symm, fun _ => rfl⟩
  · rw [if_neg hlost]
    exact ⟨fun h => (by cases h), fun h => absurd h.symm hlost⟩

/-- A new record changes nothing for the others. -/
theorem sysioFuseFnew_keeps {p : Pno} {flags : ℕ} {s t : Sys D} {o : Option FilId} (table : Table s)
    (run : sysioFuseFnew e p flags s = .ok (o, t)) : Table t ∧ Destroys closes s t := by
  have same : ∀ t : Sys D, t.ft = s.ft → t.drv = s.drv → Table t ∧ Destroys closes s t := by
    intro t hft hdrv
    refine ⟨⟨hft ▸ table.ref, hft ▸ table.live, hft ▸ table.bound⟩, fun f hf => ?_, ?_⟩
    · rw [held, held, hft]
      exact ⟨fun h => absurd h hf, fun h => by omega⟩
    · rw [hdrv, destroyed_zero fun f r hr => ⟨r, by rw [hft, hr]⟩, Nat.add_zero]
  obtain ⟨ino, _, hread, h1⟩ := bind_ok.mp run
  obtain rfl := inoOf_moves (R := Eq) p _ _ _ hread
  obtain ⟨ok, v, hv, h2⟩ := bind_ok.mp h1
  have hscratch : Scratch s v := malloc_moves (fun _ _ k => k) s ok v hv
  cases ok with
  | false =>
    obtain ⟨-, rfl⟩ := pure_ok.mp h2
    exact same v hscratch.ft hscratch.drv
  | true =>
    obtain ⟨i, _, hread, h3⟩ := bind_ok.mp h2
    obtain ⟨-, rfl⟩ := deref_ok.mp hread
    obtain ⟨f, _, hread, h4⟩ := bind_ok.mp h3
    obtain ⟨rfl, rfl⟩ := read_ok.mp hread
    obtain ⟨_, w, hw, h5⟩ := bind_ok.mp h4
    obtain rfl := write_ok.mp hw
    obtain ⟨_, x, hx, h6⟩ := bind_ok.mp h5
    obtain ⟨-, rfl⟩ := pure_ok.mp h6
    obtain ⟨r, _, hread, h7⟩ := bind_ok.mp hx
    obtain ⟨-, rfl⟩ := deref_ok.mp hread
    obtain rfl := write_ok.mp h7
    have hfile : v.ft.file = s.ft.file := by rw [hscratch.ft]
    have hslots : v.ft.oftab = s.ft.oftab := by rw [hscratch.ft]
    have hnext : v.ft.nextFile = s.ft.nextFile := by rw [hscratch.ft]
    have hnew : s.ft.file v.ft.nextFile = none := table.bound _ (Nat.le_of_eq hnext.symm)
    have hunheld : held s v.ft.nextFile = 0 := by
      refine List.count_eq_zero.mpr fun hf => ?_
      obtain ⟨r', hr'⟩ := table.live _ hf
      rw [hnew] at hr'
      cases hr'
    have hold : ∀ f r', s.ft.file f = some r' → f ≠ v.ft.nextFile := by
      rintro f r' hr' rfl
      rw [hnew] at hr'
      cases hr'
    refine ⟨⟨fun f r' hr' => ?_, fun f hf => ?_, fun f hf => ?_⟩, fun f hf => ?_, ?_⟩
    · change Function.update v.ft.file _ _ f = _ at hr'
      change r'.ref = max 1 (v.ft.oftab.count (some f))
      rw [hfile] at hr'
      rw [hslots]
      by_cases hf : f = v.ft.nextFile
      · subst hf
        rw [Function.update_self] at hr'
        obtain rfl := Option.some.inj hr'
        have : s.ft.oftab.count (some v.ft.nextFile) = 0 := hunheld
        rw [this]
        rfl
      · rw [Function.update_of_ne hf] at hr'
        exact table.ref f r' hr'
    · change some f ∈ v.ft.oftab at hf
      rw [hslots] at hf
      obtain ⟨r', hr'⟩ := table.live f hf
      refine ⟨r', ?_⟩
      change Function.update v.ft.file _ _ f = _
      rw [hfile, Function.update_of_ne (hold f r' hr'), hr']
    · change v.ft.nextFile + 1 ≤ f at hf
      change Function.update v.ft.file _ _ f = _
      have hne : f ≠ v.ft.nextFile := by omega
      rw [hfile, Function.update_of_ne hne]
      exact table.bound f (Nat.le_trans (Nat.le_of_eq hnext.symm) (Nat.le_of_succ_le hf))
    · obtain ⟨r', hr'⟩ := Option.ne_none_iff_exists'.mp hf
      change Function.update v.ft.file _ _ f = _ ↔ 0 < held s f ∧ v.ft.oftab.count (some f) = 0
      rw [hfile, Function.update_of_ne (hold f r' hr'), hslots, held]
      exact ⟨fun h => absurd h hf, fun h => by omega⟩
    · change closes v.drv = _
      rw [hscratch.drv, destroyed_zero, Nat.add_zero]
      intro f r' hr'
      refine ⟨r', ?_⟩
      change Function.update v.ft.file _ _ f = _
      rw [hfile, Function.update_of_ne (hold f r' hr'), hr']

include counted in
theorem tableStep_keeps {op : TableOp} {s t : Sys D} {n : ℤ} (table : Table s)
    (allowed : Allowed s op) (run : tableStep e op s = .ok (n, t)) :
    Table t ∧ Destroys closes s t := by
  have settled : Keeps closes s t → Table t ∧ Destroys closes s t := fun h => ⟨h.1, h.2.destroys⟩
  cases op with
  | fnew p flags =>
    obtain ⟨o, u, hu, h⟩ := bind_ok.mp run
    obtain ⟨-, rfl⟩ := pure_ok.mp h
    exact sysioFuseFnew_keeps table hu
  | set f fd force => exact settled (sysioFdSet_keeps counted table allowed.1 allowed.2 run)
  | dup oldfd newfd force => exact settled (sysioFdDup_keeps counted table run)
  | close fd => exact settled (sysioFdClose_keeps counted table run)
  | closeAll => exact settled (sysioFdCloseAll_keeps counted table run)

include counted in
/-- The operations keep the table they start with, the empty one. -/
theorem table_of_steps {s t : Sys D} (run : Steps (tableStep e) Allowed s t)
    (empty : s.ft.oftab = [] ∧ ∀ f, s.ft.file f = none) : Table t := by
  refine run.invariant (I := Table) (fun s op n t table allowed last =>
    (tableStep_keeps counted table allowed last).1) ⟨fun f r hr => ?_, fun f hf => ?_, ?_⟩
  · rw [empty.2] at hr
    cases hr
  · rw [empty.1] at hf
    cases hf
  · exact fun f _ => empty.2 f

/-- In every state the operations reach, the slots account for the references of the records that
are in one and no slot holds a destroyed record; and in every step from there a record is destroyed,
by one call of the driver, exactly when it loses its last slot. -/
theorem descriptor_table {s t : Sys D} (run : Steps (tableStep e) Allowed s t)
    (empty : s.ft.oftab = [] ∧ ∀ f, s.ft.file f = none) (counted : ClosesCounted closes e) :
    (∀ f, 0 < held t f → ∃ r, t.ft.file f = some r ∧ r.ref = held t f) ∧
      ∀ op n u, Allowed t op → tableStep e op t = .ok (n, u) → Destroys closes t u := by
  have table := table_of_steps counted run empty
  refine ⟨fun f hf => ?_, fun op n u allowed last => (tableStep_keeps counted table allowed last).2⟩
  obtain ⟨r, hr⟩ := table.live f (List.count_pos_iff.mp hf)
  have href : r.ref = max 1 (held t f) := table.ref f r hr
  exact ⟨r, hr, by omega⟩

end Runs

section Fuse

open FuseDriver FuseSystem

variable {B : Type} {h : Host B}

def isRelease : BackendCall → Bool
  | .release _ _ => true
  | _ => false

/-- The files the backends were asked to release. -/
def releases (d : FuseData B) : ℕ := d.calls.countP fun c => isRelease c.1

theorem fuseEnv_closesCounted : ClosesCounted releases (fuseEnv h) := by
  have reads : ∀ i, Moves (Apart releases) (i2fi i : Fuse B FinoId) := fun i =>
    moves_bind (inodeAt_moves i) fun _ => moves_pure _
  constructor
  · intro i
    refine moves_bind (reads i) fun k => moves_bind (moves_deref _ _) fun r =>
      moves_bind (moves_deref _ _) fun l => moves_write fun s => ⟨rfl, rfl⟩
  · intro i p s err t run
    obtain ⟨n, _, hread, h1⟩ := bind_ok.mp run
    obtain ⟨-, rfl⟩ := read_ok.mp hread
    obtain ⟨path, u, hu, h2⟩ := bind_ok.mp h1
    have hpath : Scratch s u := sysioPbPath_moves (fun _ _ k => k) _ _ s path u hu
    obtain ⟨k, v, hv, h3⟩ := bind_ok.mp h2
    have hnode : Apart releases u v := moves_bind (inoOf_moves p) (fun _ =>
      moves_bind (nonNull_moves _) reads) u k v hv
    obtain ⟨fino, _, hread, h4⟩ := bind_ok.mp h3
    obtain ⟨-, rfl⟩ := deref_ok.mp hread
    obtain ⟨tag, _, hread, h5⟩ := bind_ok.mp h4
    obtain ⟨-, rfl⟩ := deref_ok.mp hread
    obtain ⟨b, _, hread, h6⟩ := bind_ok.mp h5
    obtain ⟨-, rfl⟩ := read_ok.mp hread
    obtain ⟨_, w, hw, h7⟩ := bind_ok.mp h6
    obtain ⟨-, rfl⟩ := pure_ok.mp h7
    obtain rfl := write_ok.mp hw
    refine ⟨hnode.ft.trans hpath.ft, ?_⟩
    have hbefore := hnode.closes
    rw [hpath.drv] at hbefore
    rw [← hbefore]
    exact List.countP_cons_of_pos rfl

/-- A file system of type "bb" is on "/b", and then come the operations of a list, the last one
first in the list. -/
def afterOps : List TableOp → Sys (FuseData Unit)
  | [] =>
    { calmRun [.mount [] [47, 98] [98, 98] 2] with ft := (SysioSystem.initState (initData ())).ft }
  | op :: l => (tableStep (fuseEnv calmHost) op).final (afterOps l)

theorem tableStep_afterOps {op : TableOp} {l : List TableOp} {n : ℤ}
    (value : (tableStep (fuseEnv calmHost) op).value (afterOps l) = some n) :
    tableStep (fuseEnv calmHost) op (afterOps l) = .ok (n, afterOps (op :: l)) :=
  ok_of_value value

theorem afterOps_steps {op : TableOp} {l : List TableOp} {n : ℤ}
    (run : Steps (tableStep (fuseEnv calmHost)) Allowed (afterOps []) (afterOps l))
    (allowed : Allowed (afterOps l) op)
    (value : (tableStep (fuseEnv calmHost) op).value (afterOps l) = some n) :
    Steps (tableStep (fuseEnv calmHost)) Allowed (afterOps []) (afterOps (op :: l)) :=
  run.snoc allowed (tableStep_afterOps value)

/-- The root of "/b" is opened, the descriptor is duplicated onto 3, and descriptor 0 is closed. -/
def onlyThree : List TableOp := [.close 0, .dup 0 3 true, .set 0 (-1) false, .fnew 108 2]

theorem onlyThree_steps :
    Steps (tableStep (fuseEnv calmHost)) Allowed (afterOps []) (afterOps onlyThree) := by
  have made : Steps _ _ _ (afterOps [.fnew 108 2]) :=
    @afterOps_steps _ [] 0 (.refl _) trivial (by decide +kernel)
  have live : ((afterOps [.fnew 108 2]).ft.file 0).isSome = true := by decide +kernel
  have fresh : held (afterOps [.fnew 108 2]) 0 = 0 := by decide +kernel
  have set : Steps _ _ _ (afterOps [.set 0 (-1) false, .fnew 108 2]) :=
    @afterOps_steps _ _ 0 made ⟨Option.isSome_iff_exists.mp live, fresh⟩ (by decide +kernel)
  have dup : Steps _ _ _ (afterOps [.dup 0 3 true, .set 0 (-1) false, .fnew 108 2]) :=
    @afterOps_steps _ _ 3 set trivial (by decide +kernel)
  exact @afterOps_steps _ _ 0 dup trivial (by decide +kernel)

theorem descriptor_table_onlyThree :
    (∃ r, (afterOps onlyThree).ft.file 0 = some r ∧ r.ref = 1) ∧
      Destroys releases (afterOps onlyThree) (afterOps (.close 3 :: onlyThree)) := by
  obtain ⟨refs, destroys⟩ := descriptor_table onlyThree_steps ⟨rfl, fun _ => rfl⟩ fuseEnv_closesCounted
  have one : held (afterOps onlyThree) 0 = 1 := by decide +kernel
  obtain ⟨r, hr, href⟩ := refs 0 (by rw [one]; decide)
  have last : tableStep (fuseEnv calmHost) (.close 3) (afterOps onlyThree) =
      .ok (0, afterOps (.close 3 :: onlyThree)) := tableStep_afterOps (by decide +kernel)
  exact ⟨⟨r, hr, href.trans one⟩, destroys (.close 3) 0 _ trivial last⟩

end Fuse

end DescriptorTable
