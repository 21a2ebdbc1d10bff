import DirectFuse.DirectoryBuffer
import DirectFuse.IncoreRecords

/-! The chain of records in an incore directory after any insertions and removals: where it goes,
what is between the records, and what an insertion leaves alone. -/
namespace IncoreChain

open ExecLogic ByteRange SysioState SysioNamei FuseDirectory IncoreDirectory IncoreRecords
open FuseRecords (Rec newRec dotRec dotDotRec)
open FuseDriver (dotDotName)
open DirectoryBuffer (reclenAt load_value)

/-- The offset stored in the record at an offset, and its name up to the NUL. -/
def offAt (data : Bytes) (off : ℕ) : ℕ := unle (fetch data (off + 8) 8)

def nameAt (data : Bytes) (off : ℕ) : Bytes :=
  (fetch data (off + 19) (reclenAt data off - 19)).takeWhile (· ≠ 0)

/-- Following the stored offsets from one offset to another visits a list of them. -/
inductive Follows (data : Bytes) : ℕ → List ℕ → ℕ → Prop where
  | here {off : ℕ} : Follows data off [] off
  | record {off stop : ℕ} {offs : List ℕ} (rest : Follows data (offAt data off) offs stop) :
      Follows data off (off :: offs) stop

structure Chained (d : Directory) (offs : List ℕ) : Prop where
  visits : Follows d.data 0 offs d.stSize
  whole : d.data.length = d.stSize
  increasing : offs.Pairwise (· < ·)
  within : ∀ off ∈ offs, off + reclenAt d.data off ≤ offAt d.data off ∧ offAt d.data off ≤ d.stSize
  gap : ∀ off ∈ offs, ∀ i, off + reclenAt d.data off ≤ i → i < offAt d.data off →
    d.data[i]? = some 0
  nul : ∀ off ∈ offs, 0 ∈ fetch d.data (off + 19) (reclenAt d.data off - 19)
  names : (offs.map (nameAt d.data)).Nodup
  links : d.nlink = offs.length

/-- What an insertion does to a directory whose last visited record is at `last`. The gap there
is kept as long as the new record fits into it. -/
structure Appends (d d' : Directory) (before : List ℕ) (last : ℕ) (name : Bytes) (inum : ℕ)
    (type : UInt8) : Prop where
  chain : Chained d' (before ++ [last, last + reclenAt d.data last])
  live : ∀ off ∈ before ++ [last], ∀ i, off ≤ i → i < off + reclenAt d.data off →
    (i < last + 8 ∨ last + 16 ≤ i) → d'.data[i]? = d.data[i]?
  size : d'.stSize = max d.stSize (last + reclenAt d.data last + incoreDReclen name.length)
  named : nameAt d'.data (last + reclenAt d.data last) = name
  ino : unle (fetch d'.data (last + reclenAt d.data last) 8) = inum % 2 ^ 64
  type : fetch d'.data (last + reclenAt d.data last + 18) 1 = [type]
  length : reclenAt d'.data (last + reclenAt d.data last) = incoreDReclen name.length

/-- What a new directory can become, and the names inserted so far. -/
inductive Reached : List Bytes → Directory → Prop where
  | new {h : Heap} {ino parent : ℕ} {d : Directory}
      (run : incoreDirectoryNew h ino parent allocated = .ok (true, d)) : Reached [] d
  | insert {names : List Bytes} {d d' : Directory} {h : Heap} {name : Bytes} {inum : ℕ}
      {type : UInt8} {ret : ℤ} (before : Reached names d) (short : name.length ≤ 255)
      (string : 0 ∉ name) (run : incoreDirectoryInsert h name inum type d = .ok (ret, d')) :
      Reached (if ret = 0 then name :: names else names) d'
  | unlink {names : List Bytes} {d d' : Directory} {mode : ℕ} {name : Bytes} {ret : ℤ}
      (before : Reached names d) (directory : sIsDir mode = true) (known : name ∈ names)
      (run : incoreUnlinkEntry mode name d = .ok (ret, d')) : Reached names d'

section Listings

/-- What stays of the two records of a new directory. -/
structure Dots (a b : Rec) : Prop where
  dot : a.scan = [DOT]
  dots : b.scan = dotDotName
  off : a.off = 24
  size : a.size = 24 ∧ b.size = 24
  type : a.type = 4 ∧ b.type = 4

/-- The records of a directory with different names, the first two those of a new one. -/
structure Listing (d : Directory) (rs : List Rec) : Prop where
  hold : Holds d rs
  names : (rs.map Rec.scan).Nodup
  links : d.nlink = rs.length
  front : ∃ a b rest, rs = a :: b :: rest ∧ Dots a b

variable {h : Heap} {d : Directory} {rs : List Rec} {name : Bytes} {inum : ℕ} {type : UInt8}
  {mode : ℕ}

theorem listing_new (ino parent : ℕ) :
    Listing ⟨FuseRecords.bytes [dotRec ino, dotDotRec parent], 48, 2⟩
      [dotRec ino, dotDotRec parent] := by
  constructor
  · exact holds_new ino parent
  · change [(dotRec ino).scan, (dotDotRec parent).scan].Nodup
    exact (by decide : [[DOT], dotDotName].Nodup)
  · rfl
  · refine ⟨dotRec ino, dotDotRec parent, [], rfl, ?_, ?_, rfl, ⟨rfl, rfl⟩, ⟨rfl, rfl⟩⟩
    · exact (by decide : ([DOT, 0, 0, 0, 0] : Bytes).takeWhile (· ≠ 0) = [DOT])
    · exact (by decide : (dotDotName ++ [0, 0]).takeWhile (· ≠ 0) = dotDotName)

theorem patched_scan (r : Rec) (off : ℕ) : (r.patched off).scan = r.scan := rfl

/-- Changing the offset of a record behind the first keeps the first two what they are. -/
theorem front_patched {mid post post' : List Rec} {q : Rec} (off : ℕ)
    (hfront : ∃ a b rest, mid ++ q :: post = a :: b :: rest ∧ Dots a b) (hmid : mid ≠ []) :
    ∃ a b rest, mid ++ q.patched off :: post' = a :: b :: rest ∧ Dots a b := by
  rcases hfront with ⟨a, b, rest, hsplit, dots⟩
  match mid, hmid with
  | [m], _ =>
    rw [List.cons_append, List.nil_append] at hsplit
    rcases List.cons.inj hsplit with ⟨rfl, hsecond⟩
    rcases List.cons.inj hsecond with ⟨rfl, -⟩
    exact ⟨m, q.patched off, post', rfl, dots.dot, dots.dots, dots.off, dots.size, dots.type⟩
  | m :: m' :: l, _ =>
    rw [List.cons_append, List.cons_append] at hsplit
    rcases List.cons.inj hsplit with ⟨rfl, hsecond⟩
    rcases List.cons.inj hsecond with ⟨rfl, -⟩
    exact ⟨m, m', l ++ q.patched off :: post', rfl, dots⟩

theorem listing_inserted {mid : List Rec} {r : Rec} (list : Listing d (mid ++ [r]))
    (habsent : ∀ m ∈ mid ++ [r], m.scan ≠ name) (short : name.length ≤ 255) (string : 0 ∉ name)
    (hsmall : newEnd d mid r name < 2 ^ 63) :
    Listing ⟨laid 0 (inserted d mid r name inum type), newEnd d mid r name, d.nlink + 1⟩
      (inserted d mid r name inum type) := by
  constructor
  · exact inserted_holds list.hold short hsmall
  · have hnew := @FuseRecords.newRec_scan name inum type (newEnd d mid r name) string
    have hscans : (inserted d mid r name inum type).map Rec.scan =
        (mid ++ [r]).map Rec.scan ++ [name] := by
      rw [inserted]
      simp only [List.map_append, List.map_cons, List.map_nil, hnew, List.append_assoc]
      rfl
    rw [hscans]
    apply List.nodup_append.mpr
    refine ⟨list.names, by simp, ?_⟩
    intro s hs t ht hsame
    rcases List.mem_map.mp hs with ⟨m, hm, rfl⟩
    exact habsent m hm (hsame.trans (List.mem_singleton.mp ht))
  · have hlinks := list.links
    rw [inserted]
    simp only [List.length_append, List.length_cons, List.length_nil] at hlinks ⊢
    omega
  · apply front_patched _ list.front
    rintro rfl
    rcases list.front with ⟨a, b, rest, hsplit, -⟩
    simp at hsplit

theorem listing_unlinked {mid post : List Rec} {q r : Rec}
    (list : Listing d (mid ++ q :: r :: post)) (hmid : mid ≠ []) :
    Listing ⟨laid 0 (unlinked mid q r post), d.stSize, d.nlink - 1⟩ (unlinked mid q r post) := by
  constructor
  · exact unlinked_holds list.hold _
  · have hscans : (unlinked mid q r post).map Rec.scan = (mid ++ q :: post).map Rec.scan := by
      rw [unlinked]
      simp only [List.map_append, List.map_cons]
      rfl
    rw [hscans]
    apply List.Nodup.sublist _ list.names
    apply List.Sublist.map
    exact List.Sublist.append_left (List.Sublist.cons_cons q (List.sublist_cons_self r post)) mid
  · have hlinks := list.links
    rw [unlinked]
    simp only [List.length_append, List.length_cons] at hlinks ⊢
    omega
  · exact front_patched _ list.front hmid

/-- What an insertion does to a list of records: the name is there, or there is no memory, or the
last record makes room for a new one. -/
theorem Listing.insert (list : Listing d rs) (short : name.length ≤ 255) (string : 0 ∉ name) :
    (∃ ret, ret ≠ 0 ∧ incoreDirectoryInsert h name inum type d = .ok (ret, d)) ∨
    ∃ mid r, rs = mid ++ [r] ∧ (∀ m ∈ mid ++ [r], m.scan ≠ name) ∧
      incoreDirectoryInsert h name inum type d = .ok (0,
        ⟨laid 0 (inserted d mid r name inum type), newEnd d mid r name, d.nlink + 1⟩) ∧
      Listing ⟨laid 0 (inserted d mid r name inum type), newEnd d mid r name, d.nlink + 1⟩
        (inserted d mid r name inum type) := by
  rcases FuseRecords.first_or_none name rs with ⟨mid, r, post, rfl, hmid, hr⟩ | habsent
  · exact Or.inl ⟨-EEXIST, by decide, insert_present list.hold hmid hr⟩
  · have hne : rs ≠ [] := by
      rcases list.front with ⟨a, b, rest, rfl, -⟩
      exact List.cons_ne_nil _ _
    rcases FuseRecords.last_record hne with ⟨mid, r, rfl⟩
    by_cases room : newStart mid r + incoreDReclen name.length ≤ d.stSize ∨
        (h.got = true ∧ newStart mid r + incoreDReclen name.length < 2 ^ 63)
    · right
      have hsmall : newEnd d mid r name < 2 ^ 63 := by
        have hold := list.hold.small
        unfold newEnd
        rcases room with hfits | ⟨-, hgrown⟩ <;> omega
      exact ⟨mid, r, rfl, habsent, insert_absent list.hold habsent room,
        listing_inserted list habsent short string hsmall⟩
    · exact Or.inl (insert_full list.hold habsent room)

/-- What a removal does: the name is not there, or its record joins the gap in front of it. -/
theorem Listing.unlink (list : Listing d rs) (hmode : sIsDir mode = true) (hdot : name ≠ [DOT])
    (hdots : name ≠ dotDotName) :
    ((∀ r ∈ rs, r.scan ≠ name) ∧ incoreUnlinkEntry mode name d = .ok (-ENOENT, d)) ∨
    ∃ mid q r post, rs = mid ++ q :: r :: post ∧ r.scan = name ∧ mid ≠ [] ∧
      incoreUnlinkEntry mode name d =
        .ok (0, ⟨laid 0 (unlinked mid q r post), d.stSize, d.nlink - 1⟩) ∧
      Listing ⟨laid 0 (unlinked mid q r post), d.stSize, d.nlink - 1⟩ (unlinked mid q r post) := by
  rcases list.front with ⟨a, b, rest, hfront, dots⟩
  rcases FuseRecords.first_or_none name rs with ⟨before, r, post, rfl, hbefore, hr⟩ | habsent
  · right
    -- The record is neither of the first two, so that there is one in front of it.
    have htwo : ∃ t, before = a :: b :: t := by
      match before, hfront, hbefore with
      | [], hfront, _ =>
        rcases List.cons.inj hfront with ⟨rfl, -⟩
        exact absurd (hr.symm.trans dots.dot) hdot
      | [m], hfront, _ =>
        rcases List.cons.inj hfront with ⟨-, hsecond⟩
        rcases List.cons.inj hsecond with ⟨rfl, -⟩
        exact absurd (hr.symm.trans dots.dots) hdots
      | m :: m' :: t, hfront, _ =>
        rcases List.cons.inj hfront with ⟨rfl, hsecond⟩
        rcases List.cons.inj hsecond with ⟨rfl, -⟩
        exact ⟨t, rfl⟩
    rcases htwo with ⟨t, hbefore'⟩
    have hne : before ≠ [] := by
      rw [hbefore']
      exact List.cons_ne_nil _ _
    rcases FuseRecords.last_record hne with ⟨mid, q, rfl⟩
    have hmid : mid ≠ [] := by
      rintro rfl
      simp at hbefore'
    have hassoc : (mid ++ [q]) ++ r :: post = mid ++ q :: r :: post := by simp
    rw [hassoc] at list
    have hspaced := (spaced_append.mp (hassoc ▸ list.hold.spaced)).1
    have hbehind : 48 ≤ q.off := by
      have hq : q.off = finish 0 (mid ++ [q]) := (finish_append 0 mid [q]).symm
      rw [hbefore'] at hq hspaced
      have hend := finish_ge hspaced.2.2
      have hroom := hspaced.2.1
      have hsizes := dots.size
      have hfirst := dots.off
      change q.off = finish b.off t at hq
      omega
    have hlinks : 2 < d.nlink := by
      have hcount := congrArg List.length hbefore'
      have hall := list.links
      simp only [List.length_append, List.length_cons, List.length_nil] at hcount hall
      omega
    exact ⟨mid, q, r, post, hassoc, hr, hmid,
      unlink_found hmode list.hold hbefore hr hbehind hlinks, listing_unlinked list hmid⟩
  · left
    refine ⟨habsent, ?_⟩
    have hne : rs ≠ [] := by
      rw [hfront]
      exact List.cons_ne_nil _ _
    rcases FuseRecords.last_record hne with ⟨mid, r, rfl⟩
    exact unlink_absent hmode list.hold habsent

/-- Every directory is a list of records, and no name inserted is that of the first two. -/
theorem reached_listing {names : List Bytes} (reached : Reached names d) :
    (∃ rs, Listing d rs) ∧ ∀ name ∈ names, name ≠ [DOT] ∧ name ≠ dotDotName := by
  induction reached with
  | @new h ino parent d run =>
    refine ⟨?_, by simp⟩
    rw [incoreDirectoryNew_eq] at run
    by_cases got : h.got = true
    · rw [FuseRecords.fuseDirectoryNew_run got] at run
      rcases Prod.mk.inj (Except.ok.inj run) with ⟨-, rfl⟩
      exact ⟨_, listing_new ino parent⟩
    · have htrunc := @FuseRecords.fuseTrunc_full h allocated fuseDirTemplate.length
        (fun hfull => got hfull.1) (by decide) true
      rw [fuseDirectoryNew, bind_run htrunc, if_pos (by decide)] at run
      have hfalse : false = true := (pure_ok.mp run).1
      exact absurd hfalse (by decide)
  | @insert names d d' h name inum type ret _ short string run ih =>
    rcases ih with ⟨⟨rs, list⟩, hnames⟩
    rcases @Listing.insert h d rs name inum type list short string with
      ⟨ret', hret, run'⟩ | ⟨mid, r, rfl, habsent, run', list'⟩
    · have hsame := run.symm.trans run'
      rcases Prod.mk.inj (Except.ok.inj hsame) with ⟨rfl, rfl⟩
      rw [if_neg hret]
      exact ⟨⟨rs, list⟩, hnames⟩
    · have hsame := run.symm.trans run'
      rcases Prod.mk.inj (Except.ok.inj hsame) with ⟨rfl, rfl⟩
      refine ⟨⟨_, list'⟩, ?_⟩
      intro n hn
      rw [if_pos rfl] at hn
      rcases List.mem_cons.mp hn with rfl | hn
      · rcases list.front with ⟨a, b, rest, hfront, dots⟩
        rw [hfront] at habsent
        refine ⟨?_, ?_⟩
        · intro hdot
          exact habsent a (by simp) (dots.dot.trans hdot.symm)
        · intro hdots
          exact habsent b (by simp) (dots.dots.trans hdots.symm)
      · exact hnames n hn
  | @unlink names d d' mode name ret _ directory known run ih =>
    rcases ih with ⟨⟨rs, list⟩, hnames⟩
    refine ⟨?_, hnames⟩
    rcases list.unlink directory (hnames name known).1 (hnames name known).2 with
      ⟨-, run'⟩ | ⟨mid, q, r, post, rfl, -, -, run', list'⟩
    · have hsame := run.symm.trans run'
      rcases Prod.mk.inj (Except.ok.inj hsame) with ⟨-, rfl⟩
      exact ⟨rs, list⟩
    · have hsame := run.symm.trans run'
      rcases Prod.mk.inj (Except.ok.inj hsame) with ⟨-, rfl⟩
      exact ⟨_, list'⟩

end Listings

section Chains

variable {d : Directory} {pre post rs : List Rec} {r : Rec}

/-- Where records start whose first one is at `p`. -/
def starts : ℕ → List Rec → List ℕ
  | _, [] => []
  | p, r :: rs => p :: starts r.off rs

theorem starts_append (p : ℕ) (rs ss : List Rec) :
    starts p (rs ++ ss) = starts p rs ++ starts (finish p rs) ss := by
  induction rs generalizing p with
  | nil => rfl
  | cons r l ih => exact congrArg (p :: ·) (ih r.off)

theorem mem_starts {p off : ℕ} (hoff : off ∈ starts p rs) :
    ∃ pre r post, rs = pre ++ r :: post ∧ off = finish p pre := by
  induction rs generalizing p with
  | nil => simp [starts] at hoff
  | cons r l ih =>
    rcases List.mem_cons.mp hoff with rfl | hoff
    · exact ⟨[], r, l, rfl, rfl⟩
    · rcases ih hoff with ⟨pre, r', post, rfl, hstart⟩
      exact ⟨r :: pre, r', post, rfl, hstart⟩

theorem starts_length (p : ℕ) (rs : List Rec) : (starts p rs).length = rs.length := by
  induction rs generalizing p with
  | nil => rfl
  | cons r l ih => exact congrArg (· + 1) (ih r.off)

theorem starts_increase {p : ℕ} (h : Spaced p rs) :
    (starts p rs).Pairwise (· < ·) ∧ ∀ off ∈ starts p rs, p ≤ off := by
  induction rs generalizing p with
  | nil => exact ⟨List.Pairwise.nil, by simp [starts]⟩
  | cons r l ih =>
    rcases ih h.2 with ⟨hrest, hbehind⟩
    have hroom := h.1
    have hsize := @FuseRecords.size_pos r
    constructor
    · apply List.Pairwise.cons _ hrest
      intro off hoff
      have := hbehind off hoff
      omega
    · intro off hoff
      rcases List.mem_cons.mp hoff with rfl | hoff
      · exact Nat.le_refl _
      · have := hbehind off hoff
        omega

/-- A record as its bytes show it. -/
structure Shown (d : Directory) (off : ℕ) (r : Rec) : Prop where
  next : offAt d.data off = r.off
  length : reclenAt d.data off = r.size
  body : fetch d.data (off + 19) (r.size - 19) = r.body
  name : nameAt d.data off = r.scan

theorem fetch_part {front mid back data : Bytes} {off n : ℕ} (hd : data = front ++ mid ++ back)
    (hoff : off = front.length) (hn : n = mid.length) : fetch data off n = mid := by
  rw [hd, hoff, hn, fetch_middle]

theorem placed_shown (h : Placed d pre r post) (hsmall : d.stSize < 2 ^ 63) :
    Shown d (finish 0 pre) r := by
  have hinside := h.inside
  have hoff := load_value (load_off h.split (by omega))
  have hlen := load_value (FuseRecords.load_reclen h.split h.fits)
  rw [h.start] at hoff hlen
  have hsplit : d.data = (laid 0 pre ++ r.header) ++ r.body ++
      (List.replicate (r.off - (finish 0 pre + r.size)) 0 ++ laid r.off post) := by
    rw [h.split, Rec.encode]
    simp only [List.append_assoc]
  have hstart : finish 0 pre + 19 = (laid 0 pre ++ r.header).length := by
    rw [List.length_append, FuseRecords.header_length, h.start]
  have hrest : r.size - 19 = r.body.length := by
    unfold Rec.size
    omega
  have hbody := fetch_part hsplit hstart hrest
  have hreclen : reclenAt d.data (finish 0 pre) = r.size := hlen
  refine ⟨hoff, hreclen, hbody, ?_⟩
  rw [nameAt, hreclen, hbody]
  rfl

theorem holds_follows (hold : Holds d (pre ++ rs)) :
    Follows d.data (finish 0 pre) (starts (finish 0 pre) rs) (finish (finish 0 pre) rs) := by
  induction rs generalizing pre with
  | nil => exact Follows.here
  | cons r l ih =>
    have hplaced : Placed d pre r l := hold.placed
    have hmoved : Holds d ((pre ++ [r]) ++ l) := by
      rw [List.append_assoc]
      exact hold
    have hnext : finish 0 (pre ++ [r]) = r.off := finish_append 0 pre [r]
    have hrest := ih hmoved
    rw [hnext] at hrest
    apply Follows.record
    rw [(placed_shown hplaced hold.small).next]
    exact hrest

theorem holds_names (hold : Holds d (pre ++ rs)) :
    (starts (finish 0 pre) rs).map (nameAt d.data) = rs.map Rec.scan := by
  induction rs generalizing pre with
  | nil => rfl
  | cons r l ih =>
    have hplaced : Placed d pre r l := hold.placed
    have hmoved : Holds d ((pre ++ [r]) ++ l) := by
      rw [List.append_assoc]
      exact hold
    have hnext : finish 0 (pre ++ [r]) = r.off := finish_append 0 pre [r]
    have hrest := ih hmoved
    rw [hnext] at hrest
    rw [starts, List.map_cons, List.map_cons, (placed_shown hplaced hold.small).name, hrest]

/-- Between a record and its offset there are zeros. -/
theorem placed_gap (h : Placed d pre r post) {i : ℕ} (hlow : finish 0 pre + r.size ≤ i)
    (hhigh : i < r.off) : d.data[i]? = some 0 := by
  have hsplit : d.data = (laid 0 pre ++ r.encode) ++
      List.replicate (r.off - (finish 0 pre + r.size)) 0 ++ laid r.off post := by
    rw [h.split]
    simp only [List.append_assoc]
  have hlen : (laid 0 pre ++ r.encode).length = finish 0 pre + r.size := by
    rw [List.length_append, FuseRecords.encode_length, h.start]
  rw [hsplit, List.getElem?_append_left (by rw [List.length_append, hlen]; simp; omega),
    List.getElem?_append_right (by omega), List.getElem?_replicate, if_pos (by omega)]

/-- The records of a list are visited one after the other. -/
theorem listing_chained (list : Listing d rs) : Chained d (starts 0 rs) := by
  have hold := list.hold
  have hat : ∀ off ∈ starts 0 rs, ∃ pre r post, Placed d pre r post ∧ off = finish 0 pre ∧
      Shown d off r := by
    intro off hoff
    rcases mem_starts hoff with ⟨pre, r, post, rfl, rfl⟩
    exact ⟨pre, r, post, hold.placed, rfl, placed_shown hold.placed hold.small⟩
  constructor
  · rw [hold.size]
    exact @holds_follows d [] rs hold
  · exact hold.whole.symm
  · exact (starts_increase hold.spaced).1
  · intro off hoff
    rcases hat off hoff with ⟨pre, r, post, hplaced, hstart, shown⟩
    rw [shown.length, shown.next, hstart]
    exact ⟨hplaced.room, hplaced.inside⟩
  · intro off hoff i hlow hhigh
    rcases hat off hoff with ⟨pre, r, post, hplaced, hstart, shown⟩
    rw [shown.length, hstart] at hlow
    rw [shown.next] at hhigh
    exact placed_gap hplaced hlow hhigh
  · intro off hoff
    rcases hat off hoff with ⟨pre, r, post, hplaced, -, shown⟩
    rw [shown.length, shown.body]
    exact hplaced.fits.nul
  · have hnames := @holds_names d [] rs hold
    change (starts 0 rs).map (nameAt d.data) = rs.map Rec.scan at hnames
    rw [hnames]
    exact list.names
  · rw [starts_length]
    exact list.links

/-- Before its end a chain can be followed in one way only. -/
theorem Follows.unique {data : Bytes} {off stop : ℕ} {offs offs' : List ℕ}
    (follows : Follows data off offs stop) (follows' : Follows data off offs' stop)
    (below : ∀ o ∈ offs, o < stop) (below' : ∀ o ∈ offs', o < stop) : offs = offs' := by
  induction follows generalizing offs' with
  | here =>
    cases follows' with
    | here => rfl
    | record rest => exact absurd (below' _ List.mem_cons_self) (Nat.lt_irrefl _)
  | record rest ih =>
    cases follows' with
    | here => exact absurd (below _ List.mem_cons_self) (Nat.lt_irrefl _)
    | record rest' =>
      have hrest := ih rest' (fun o ho => below o (List.mem_cons_of_mem _ ho))
        fun o ho => below' o (List.mem_cons_of_mem _ ho)
      rw [hrest]

/-- All records visited are before the end. -/
theorem Chained.below {offs : List ℕ} (chained : Chained d offs) : ∀ off ∈ offs, off < d.stSize := by
  intro off hoff
  have hin := chained.within off hoff
  have hlen : 0 < reclenAt d.data off - 19 := by
    have hpos := List.length_pos_of_mem (chained.nul off hoff)
    rw [fetch_length] at hpos
    omega
  omega

end Chains

section Insertions

open FuseRecords (newRec_size newRec_scan encode_length header_length)

variable {d : Directory} {mid : List Rec} {r : Rec} {name : Bytes} {inum : ℕ} {type : UInt8}

/-- A record keeps its bytes when its offset is changed, those of the offset apart. -/
theorem patched_bytes (r : Rec) (off k : ℕ) (h : k < 8 ∨ 16 ≤ k) :
    (r.patched off).encode[k]? = r.encode[k]? := by
  have hfront : (r.patched off).encode = le 8 r.ino ++ (le 8 off ++
      (le 2 r.size ++ [r.type] ++ r.body)) := by
    rw [Rec.encode, Rec.header]
    simp only [List.append_assoc]
    rfl
  have hback : r.encode = le 8 r.ino ++ (le 8 r.off ++ (le 2 r.size ++ [r.type] ++ r.body)) := by
    rw [Rec.encode, Rec.header]
    simp only [List.append_assoc]
  rw [hfront, hback]
  rcases h with hlow | hhigh
  · rw [List.getElem?_append_left (by simpa using hlow),
      List.getElem?_append_left (by simpa using hlow)]
  · have hino : (le 8 r.ino).length ≤ k := by
      rw [le_length]
      omega
    rw [List.getElem?_append_right hino, List.getElem?_append_right hino, le_length]
    have hoff : ∀ n, (le 8 n).length ≤ k - 8 := by
      intro n
      rw [le_length]
      omega
    rw [List.getElem?_append_right (hoff _), List.getElem?_append_right (hoff _), le_length,
      le_length]

/-- An insertion keeps the bytes of the records that were there, the offset of the last apart. -/
theorem inserted_live {d' : Directory} (hold : Holds d (mid ++ [r]))
    (hdata : d'.data = laid 0 (inserted d mid r name inum type)) {i : ℕ}
    (hin : i < finish 0 mid + r.size) (hout : i < finish 0 mid + 8 ∨ finish 0 mid + 16 ≤ i) :
    d'.data[i]? = d.data[i]? := by
  have hplaced : Placed d mid r [] := hold.placed
  have hnew : d'.data = laid 0 mid ++ ((r.patched (newStart mid r)).encode ++
      (List.replicate ((r.patched (newStart mid r)).off -
        (finish 0 mid + (r.patched (newStart mid r)).size)) 0 ++
        laid (newStart mid r) [newRec name inum (newEnd d mid r name) type])) := by
    rw [hdata, inserted, laid_append, laid]
    simp only [List.append_assoc]
    rfl
  have hold' := hplaced.split
  rw [List.append_assoc] at hold'
  rw [hnew, hold']
  by_cases hlow : i < finish 0 mid
  · rw [List.getElem?_append_left (by rw [hplaced.start]; exact hlow),
      List.getElem?_append_left (by rw [hplaced.start]; exact hlow)]
  · have hstart : (laid 0 mid).length ≤ i := by
      rw [hplaced.start]
      omega
    have hsize : (r.patched (newStart mid r)).size = r.size := rfl
    rw [List.getElem?_append_right hstart, List.getElem?_append_right hstart, hplaced.start,
      List.getElem?_append_left (by rw [encode_length, hsize]; omega),
      List.getElem?_append_left (by rw [encode_length]; omega)]
    exact patched_bytes r _ _ (by omega)

theorem inserted_appends (list : Listing d (mid ++ [r])) (string : 0 ∉ name) {d' : Directory}
    (hdata : d'.data = laid 0 (inserted d mid r name inum type))
    (hsize : d'.stSize = newEnd d mid r name)
    (list' : Listing d' (inserted d mid r name inum type)) :
    starts 0 (mid ++ [r]) = starts 0 mid ++ [finish 0 mid] ∧
      Appends d d' (starts 0 mid) (finish 0 mid) name inum type := by
  have hold := list.hold
  have hplaced : Placed d mid r [] := hold.placed
  have hreclen := (placed_shown hplaced hold.small).length
  have hnext : finish 0 (mid ++ [r.patched (newStart mid r)]) = newStart mid r :=
    finish_append 0 mid _
  have hassoc : inserted d mid r name inum type = (mid ++ [r.patched (newStart mid r)]) ++
      newRec name inum (newEnd d mid r name) type :: [] := by
    rw [inserted, List.append_assoc]
    rfl
  have hnew : Placed d' (mid ++ [r.patched (newStart mid r)])
      (newRec name inum (newEnd d mid r name) type) [] := by
    apply Holds.placed
    rw [← hassoc]
    exact list'.hold
  have shown := placed_shown hnew list'.hold.small
  rw [hnext] at shown
  refine ⟨starts_append 0 mid [r], ?_⟩
  constructor
  · have hstarts : starts 0 (inserted d mid r name inum type) =
        starts 0 mid ++ [finish 0 mid, newStart mid r] := by
      rw [inserted, starts_append]
      rfl
    rw [hreclen]
    have hchain := listing_chained list'
    rw [hstarts] at hchain
    exact hchain
  · intro off hoff i hlow hhigh hout
    apply inserted_live hold hdata _ hout
    rcases List.mem_append.mp hoff with hoff | hoff
    · rcases mem_starts hoff with ⟨pre, q, post, rfl, rfl⟩
      have hassoc : (pre ++ q :: post) ++ [r] = pre ++ q :: (post ++ [r]) := by simp
      rw [hassoc] at hold
      have hq : Placed d pre q (post ++ [r]) := hold.placed
      have hbehind := finish_ge (spaced_append.mp (spaced_append.mp hold.spaced).2.2).1
      have hroom := hq.room
      rw [(placed_shown hq hold.small).length] at hhigh
      rw [finish_append, finish]
      omega
    · rw [List.mem_singleton.mp hoff, hreclen] at hhigh
      exact hhigh
  · rw [hsize, hreclen]
    rfl
  · rw [hreclen]
    exact shown.name.trans (newRec_scan string)
  · have hload := load_value (FuseRecords.load_ino hnew.split)
    rw [hnew.start, hnext] at hload
    rw [hreclen]
    exact hload
  · have hsplit : d'.data = (laid 0 (mid ++ [r.patched (newStart mid r)]) ++ (le 8 inum ++
        le 8 (newEnd d mid r name) ++
        le 2 (newRec name inum (newEnd d mid r name) type).size)) ++ [type] ++
        ((newRec name inum (newEnd d mid r name) type).body ++ List.replicate
          ((newRec name inum (newEnd d mid r name) type).off -
            (finish 0 (mid ++ [r.patched (newStart mid r)]) +
              (newRec name inum (newEnd d mid r name) type).size)) 0) := by
      rw [hnew.split, Rec.encode, Rec.header, laid]
      simp only [List.append_assoc, List.append_nil]
      rfl
    rw [hreclen]
    apply fetch_part hsplit _ rfl
    rw [List.length_append, hnew.start, hnext]
    simp
    rfl
  · rw [hreclen]
    exact shown.length.trans newRec_size

end Insertions

/-- In every directory the stored offsets lead through all its records to its end. Behind that, an
insertion of any name either leaves the directory alone or appends, and a removal of a name
inserted before returns. -/
theorem incore_directory_chain {names : List Bytes} {d : Directory} (reached : Reached names d) :
    ∃ offs, Chained d offs ∧
      (∀ (h : Heap) (name : Bytes) (inum : ℕ) (type : UInt8), name.length ≤ 255 → 0 ∉ name →
        ∃ ret d', incoreDirectoryInsert h name inum type d = .ok (ret, d') ∧
          (ret ≠ 0 → d' = d) ∧ (ret = 0 → ∃ before last, offs = before ++ [last] ∧
            Appends d d' before last name inum type)) ∧
      ∀ (mode : ℕ) (name : Bytes), sIsDir mode = true → name ∈ names →
        ∃ ret d', incoreUnlinkEntry mode name d = .ok (ret, d') := by
  rcases reached_listing reached with ⟨⟨rs, list⟩, hnames⟩
  refine ⟨starts 0 rs, listing_chained list, ?_, ?_⟩
  · intro h name inum type short string
    rcases @Listing.insert h d rs name inum type list short string with
      ⟨ret, hret, run⟩ | ⟨mid, r, rfl, -, run, list'⟩
    · refine ⟨ret, d, run, fun _ => rfl, ?_⟩
      intro hzero
      exact absurd hzero hret
    · refine ⟨0, _, run, fun hne => absurd rfl hne, ?_⟩
      intro _
      rcases inserted_appends list string rfl rfl list' with ⟨hstarts, appends⟩
      exact ⟨starts 0 mid, finish 0 mid, hstarts, appends⟩
  · intro mode name directory known
    rcases list.unlink directory (hnames name known).1 (hnames name known).2 with
      ⟨-, run⟩ | ⟨mid, q, r, post, rfl, -, -, run, -⟩
    · exact ⟨_, _, run⟩
    · exact ⟨_, _, run⟩

/-- A directory in which two files are made and the first one is removed. -/
def twoFiles : Fd ((Bool × ℤ) × (ℤ × ℤ) × ℕ) := do
  let made ← incoreDirectoryNew ⟨true, fun _ => 7⟩ 2 1
  let first ← incoreDirectoryInsert ⟨true, fun _ => 7⟩ [97] 3 8
  let second ← incoreDirectoryInsert ⟨true, fun _ => 7⟩ [98] 4 8
  let removed ← incoreUnlinkEntry S_IFDIR [97]
  let nlink ← Exec.read fun d => d.nlink
  return ((made, first), (second, removed), nlink)

theorem twoFiles_reached : Reached [[98], [97]] (twoFiles.final allocated) ∧
    (twoFiles.final allocated).nlink = 3 := by
  have hvalue : twoFiles.value allocated = some ((true, 0), (0, 0), 3) := by decide +kernel
  have run := ok_of_value hvalue
  generalize twoFiles.final allocated = d at run ⊢
  rw [twoFiles] at run
  rcases bind_ok.mp run with ⟨made, d₁, run₁, run⟩
  rcases bind_ok.mp run with ⟨first, d₂, run₂, run⟩
  rcases bind_ok.mp run with ⟨second, d₃, run₃, run⟩
  rcases bind_ok.mp run with ⟨removed, d₄, run₄, run⟩
  rcases bind_ok.mp run with ⟨nlink, d₅, hread, run⟩
  rcases read_ok.mp hread with ⟨hlinks, rfl⟩
  rcases pure_ok.mp run with ⟨hend, rfl⟩
  simp only [Prod.mk.injEq] at hend
  rcases hend with ⟨⟨rfl, rfl⟩, ⟨rfl, rfl⟩, rfl⟩
  have two := Reached.insert (Reached.insert (Reached.new run₁) (by decide) (by decide) run₂)
    (by decide) (by decide) run₃
  exact ⟨Reached.unlink two (by decide) (by decide) run₄, hlinks⟩

theorem twoFiles_chain : ∃ offs, Chained (twoFiles.final allocated) offs ∧ offs.length = 3 := by
  rcases incore_directory_chain twoFiles_reached.1 with ⟨offs, chained, -⟩
  exact ⟨offs, chained, chained.links.symm.trans twoFiles_reached.2⟩

end IncoreChain
