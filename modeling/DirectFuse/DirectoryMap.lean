import DirectFuse.FuseRecords
import Mathlib.Data.Finset.Card

/-! A fuse directory as a map from names to inode numbers. -/
namespace DirectoryMap

open ExecLogic SysioState SysioNamei FuseDirectory FuseRecords
open FuseDriver (fuseDReclen dotDotName)

/-- A component of a path. -/
structure Component where
  name : Bytes
  nonempty : name ≠ []
  short : name.length ≤ 255
  plain : 47 ∉ name ∧ 0 ∉ name
  deriving DecidableEq

/-- A component an entry is made or removed for. -/
structure EntryName extends Component where
  proper : name ≠ [DOT] ∧ name ≠ [DOT, DOT]
  deriving DecidableEq

inductive Step where
  | insert (h : Heap) (name : EntryName) (inum : UInt64) (type : UInt8)
  | unlink (name : EntryName)
  | lookup (name : Component)

def Step.name : Step → Bytes
  | .insert _ name _ _ => name.name
  | .unlink name => name.name
  | .lookup name => name.name

/-- What the directory says: its own and its parent's number, and those of the names in it. -/
structure Names where
  self : UInt64
  parent : UInt64
  present : Finset Bytes
  inode : Bytes → UInt64

def Names.find (m : Names) (q : Bytes) : Option ℕ :=
  if q = [DOT] then some m.self.toNat
  else if q = [DOT, DOT] then some m.parent.toNat
  else if q ∈ m.present then some (m.inode q).toNat
  else none

/-- Whether `realloc` can give what an insert asks for. -/
def hasRoom (d : Directory) (h : Heap) (name : Bytes) : Prop :=
  h.got = true ∧ d.stSize + fuseDReclen name.length < 2 ^ 63

instance (d : Directory) (h : Heap) (name : Bytes) : Decidable (hasRoom d h name) :=
  inferInstanceAs (Decidable (_ ∧ _))

/-- The map after a step; a name is only added when there is room. -/
def Names.next (m : Names) (d : Directory) : Step → Names
  | .insert h name inum _ =>
    if (m.find name.name).isSome ∨ ¬ hasRoom d h name.name then m
    else { m with
      present := insert name.name m.present
      inode := Function.update m.inode name.name inum }
  | .unlink name => { m with present := m.present.erase name.name }
  | .lookup _ => m

def Names.insertRet (m : Names) (d : Directory) (h : Heap) (name : Bytes) : ℤ :=
  if (m.find name).isSome then -EEXIST else if hasRoom d h name then 0 else -ENOSPC

def Names.unlinkRet (m : Names) (name : Bytes) : ℤ :=
  if (m.find name).isSome then 0 else -ENOENT

/-- The directory after a step. -/
def after (d : Directory) : Step → Directory
  | .insert h name inum type => (fuseDirectoryInsert h name.name inum.toNat type).final d
  | .unlink name => (fuseUnlinkEntry name.name).final d
  | .lookup name => (lookupIno name.name).final d

/-- A step answers as the map does, and the link count is 2 more than there are names. -/
def Right (d : Directory) (m : Names) (s : Step) : Prop :=
  (after d s).nlink = 2 + (m.next d s).present.card ∧
  match s with
  | .insert h name inum type =>
    (fuseDirectoryInsert h name.name inum.toNat type).value d = some (m.insertRet d h name.name)
  | .unlink name => (fuseUnlinkEntry name.name).value d = some (m.unlinkRet name.name)
  | .lookup name => (lookupIno name.name).value d = some (m.find name.name)

def AllRight : Directory → Names → List Step → Prop
  | _, _, [] => True
  | d, m, s :: l => Right d m s ∧ AllRight (after d s) (m.next d s) l

/-- The names that do not meet the template's second record. -/
def Apart (s : Step) : Prop := s.name ≠ [DOT, DOT] ∧ s.name ≠ dotDotName

instance (s : Step) : Decidable (Apart s) := inferInstanceAs (Decidable (_ ∧ _))

/-- A new directory, when there was memory for it. -/
def newDirectory (junk : ℕ → UInt8) (ino parent : UInt64) : Directory :=
  (fuseDirectoryNew ⟨true, junk⟩ ino.toNat parent.toNat).final allocated

def newNames (ino parent : UInt64) : Names := ⟨ino, parent, ∅, fun _ => 0⟩

/-- The names of records that have one. -/
def named (rs : List Rec) : List Bytes := (rs.map Rec.scan).filter (· ≠ [])

/-- The records of a directory, the first two being the template's, against its map. -/
structure Rep (d : Directory) (m : Names) (dot dotDot : Rec) (rest : List Rec) : Prop where
  holds : Holds d (dot :: dotDot :: rest)
  self : dot.scan = [DOT] ∧ dot.ino % 2 ^ 64 = m.self.toNat
  blank : dotDot.scan = dotDotName
  distinct : (named rest).Nodup
  present : ∀ q, q ∈ named rest ↔ q ∈ m.present
  inode : ∀ r ∈ rest, r.scan ≠ [] → r.ino % 2 ^ 64 = (m.inode r.scan).toNat
  proper : ∀ q ∈ m.present, q ≠ [DOT] ∧ q ≠ [DOT, DOT] ∧ q ≠ dotDotName
  links : d.nlink = 2 + m.present.card

section Named

theorem mem_named {rs : List Rec} {q : Bytes} (hq : q ≠ []) :
    q ∈ named rs ↔ ∃ r ∈ rs, r.scan = q := by
  simp [named, hq]

theorem named_append (rs ss : List Rec) : named (rs ++ ss) = named rs ++ named ss := by
  simp [named]

theorem named_single {r : Rec} (h : r.scan ≠ []) : named [r] = [r.scan] := by
  simp [named, h]

theorem named_wiped (r : Rec) : named [r.wiped] = [] := by
  simp [named, wiped_scan]

theorem named_patched (r : Rec) (off : ℕ) : named [r.patched off] = named [r] := rfl

end Named

section Rep

variable {d : Directory} {m : Names} {dot dotDot : Rec} {rest : List Rec} {q : Bytes}

theorem find_proper (hdot : q ≠ [DOT]) (hdd : q ≠ [DOT, DOT]) :
    m.find q = if q ∈ m.present then some (m.inode q).toNat else none := by
  rw [Names.find, if_neg hdot, if_neg hdd]

/-- A name that is not in the map is in no record. -/
theorem Rep.absent (rep : Rep d m dot dotDot rest) (hq : q ≠ []) (hdot : q ≠ [DOT])
    (hblank : q ≠ dotDotName) (hout : q ∉ m.present) :
    ∀ r ∈ dot :: dotDot :: rest, r.scan ≠ q := by
  intro r hr
  rcases List.mem_cons.mp hr with rfl | hr
  · rw [rep.self.1]
    exact Ne.symm hdot
  · rcases List.mem_cons.mp hr with rfl | hr
    · rw [rep.blank]
      exact Ne.symm hblank
    · intro hname
      exact hout ((rep.present q).mp ((mem_named hq).mpr ⟨r, hr, hname⟩))

/-- A name of the map has a first record, which is none of the template's. -/
theorem Rep.first (rep : Rep d m dot dotDot rest) (hq : q ≠ []) (hin : q ∈ m.present) :
    ∃ mid r post, rest = mid ++ r :: post ∧ r.scan = q ∧
      ∀ r' ∈ dot :: dotDot :: mid, r'.scan ≠ q := by
  rcases (mem_named hq).mp ((rep.present q).mpr hin) with ⟨r, hr, hname⟩
  rcases rep.proper q hin with ⟨hdot, -, hblank⟩
  rcases first_or_none q rest with ⟨mid, r, post, hrest, hmid, hfirst⟩ | hnone
  · refine ⟨mid, r, post, hrest, hfirst, ?_⟩
    intro r' hr'
    rcases List.mem_cons.mp hr' with rfl | hr'
    · rw [rep.self.1]
      exact Ne.symm hdot
    · rcases List.mem_cons.mp hr' with rfl | hr'
      · rw [rep.blank]
        exact Ne.symm hblank
      · exact hmid r' hr'
  · exact absurd hname (hnone r hr)

/-- A lookup apart from the template's second record answers as the map. -/
theorem Rep.lookup (rep : Rep d m dot dotDot rest) (hq : q ≠ []) (hdd : q ≠ [DOT, DOT])
    (hblank : q ≠ dotDotName) : lookupIno q d = .ok (m.find q, d) := by
  by_cases hdot : q = [DOT]
  · have hfirst := @lookup_found _ _ [] _ _ rep.holds (by simp) (rep.self.1.trans hdot.symm)
    rw [hfirst, rep.self.2, Names.find, if_pos hdot]
  · rw [find_proper hdot hdd]
    by_cases hin : q ∈ m.present
    · rcases rep.first hq hin with ⟨mid, r, post, hrest, hname, hmid⟩
      have hold := rep.holds
      rw [hrest] at hold
      have hfound := @lookup_found _ _ (dot :: dotDot :: mid) _ _ hold hmid hname
      have hino := rep.inode r (by rw [hrest]; simp) (by rw [hname]; exact hq)
      rw [hfound, hino, hname, if_pos hin]
    · rw [if_neg hin]
      exact lookup_absent rep.holds (by simp) (rep.absent hq hdot hblank hin)

/-- The map and the records after a name was added behind them. -/
theorem Rep.added (rep : Rep d m dot dotDot rest) {name : EntryName} {inum : UInt64}
    {d' : Directory} {dotDot' : Rec} {rest' : List Rec} (hout : name.name ∉ m.present)
    (hapart : name.name ≠ dotDotName) (hold : Holds d' (dot :: dotDot' :: rest'))
    (hblank : dotDot'.scan = dotDotName) (hnamed : named rest' = named rest ++ [name.name])
    (hino : ∀ r ∈ rest', r.scan = name.name ∧ r.ino = inum.toNat ∨
      ∃ r₀ ∈ rest, r₀.scan = r.scan ∧ r₀.ino = r.ino)
    (hlinks : d'.nlink = d.nlink + 1) :
    Rep d' { m with
      present := insert name.name m.present
      inode := Function.update m.inode name.name inum } dot dotDot' rest' := by
  constructor
  · exact hold
  · exact rep.self
  · exact hblank
  · rw [hnamed]
    apply List.Nodup.append rep.distinct (List.nodup_singleton _)
    intro q hq hone
    rw [List.mem_singleton.mp hone] at hq
    exact hout ((rep.present _).mp hq)
  · intro q
    rw [hnamed, List.mem_append, List.mem_singleton, Finset.mem_insert, rep.present q]
    exact or_comm
  · intro r hr hscan
    change r.ino % 2 ^ 64 = (Function.update m.inode name.name inum r.scan).toNat
    rcases hino r hr with ⟨hname, hinum⟩ | ⟨r₀, hr₀, hsame, hsameIno⟩
    · rw [hname, Function.update_self, hinum]
      exact Nat.mod_eq_of_lt (UInt64.toNat_lt inum)
    · have hold₀ := rep.inode r₀ hr₀ (by rw [hsame]; exact hscan)
      have hne : r.scan ≠ name.name := by
        intro heq
        apply hout
        rw [← heq]
        exact (rep.present _).mp ((mem_named hscan).mpr ⟨r₀, hr₀, hsame⟩)
      rw [Function.update_of_ne hne, ← hsameIno, hold₀, hsame]
  · intro q hq
    rcases Finset.mem_insert.mp hq with rfl | hq
    · exact ⟨name.proper.1, name.proper.2, hapart⟩
    · exact rep.proper q hq
  · rw [hlinks, rep.links, Finset.card_insert_of_notMem hout]
    omega

/-- The directory after an insert of a name that was not there. -/
theorem Rep.insert_new (rep : Rep d m dot dotDot rest) {h : Heap} {name : EntryName}
    {inum : UInt64} {type : UInt8} (hout : name.name ∉ m.present)
    (hapart : name.name ≠ dotDotName) (room : hasRoom d h name.name) :
    ∃ d' dotDot' rest', fuseDirectoryInsert h name.name inum.toNat type d = .ok (0, d') ∧
      Rep d' { m with
        present := insert name.name m.present
        inode := Function.update m.inode name.name inum } dot dotDot' rest' := by
  have habsent := rep.absent name.nonempty name.proper.1 hapart hout
  have hscan : ∀ off, (newRec name.name inum.toNat off type).scan = name.name :=
    fun off => newRec_scan name.plain.2
  have hnew : ∀ off, named [newRec name.name inum.toNat off type] = [name.name] := by
    intro off
    have hsome : (newRec name.name inum.toNat off type).scan ≠ [] := by
      rw [hscan]
      exact name.nonempty
    rw [named_single hsome, hscan]
  rcases List.eq_nil_or_concat rest with hnil | ⟨mid, l, hlast⟩
  · subst hnil
    have hold : Holds d ([dot] ++ [dotDot]) := rep.holds
    have run := @insert_absent h d name.name inum.toNat type [dot] dotDot hold habsent room.1 room.2
    have hold' := @appended_holds d [dot] dotDot name.name inum.toNat type hold name.short
    refine ⟨_, _, _, run, rep.added hout hapart hold' rep.blank (hnew _) ?_ rfl⟩
    intro r hr
    rw [List.mem_singleton.mp hr]
    exact Or.inl ⟨hscan _, rfl⟩
  · rw [List.concat_eq_append] at hlast
    subst hlast
    have hold : Holds d ((dot :: dotDot :: mid) ++ [l]) := rep.holds
    have run := @insert_absent h d name.name inum.toNat type (dot :: dotDot :: mid) l hold habsent
      room.1 room.2
    have hold' := @appended_holds d (dot :: dotDot :: mid) l name.name inum.toNat type hold
      name.short
    refine ⟨_, _, _, run, rep.added hout hapart hold' rep.blank ?_ ?_ rfl⟩
    · have htail : ∀ p n : Rec, named (mid ++ [p, n]) = named mid ++ (named [p] ++ named [n]) := by
        intro p n
        rw [named_append, ← named_append [p] [n]]
        rfl
      apply (htail _ _).trans
      rw [hnew, named_patched, named_append, List.append_assoc]
    · intro r hr
      rcases List.mem_append.mp hr with hr | hr
      · exact Or.inr ⟨r, List.mem_append_left _ hr, rfl, rfl⟩
      · rcases List.mem_cons.mp hr with rfl | hr
        · exact Or.inr ⟨l, by simp, rfl, rfl⟩
        · rw [List.mem_singleton.mp hr]
          exact Or.inl ⟨hscan _, rfl⟩

/-- The directory after an unlink of a name that was there. -/
theorem Rep.unlink_old (rep : Rep d m dot dotDot rest) {name : EntryName}
    (hin : name.name ∈ m.present) :
    ∃ d' rest', fuseUnlinkEntry name.name d = .ok (0, d') ∧
      Rep d' { m with present := m.present.erase name.name } dot dotDot rest' := by
  rcases rep.first name.nonempty hin with ⟨mid, r, post, hrest, hname, hmid⟩
  subst hrest
  have hold : Holds d ((dot :: dotDot :: mid) ++ r :: post) := rep.holds
  have hcard := Finset.card_pos.mpr ⟨_, hin⟩
  have run := unlink_found hold hmid hname
  rw [if_pos (by have := rep.links; omega)] at run
  have hold' := wiped_holds hold (d.nlink - 1)
  have hsome : r.scan ≠ [] := by
    rw [hname]
    exact name.nonempty
  have hbefore : named (mid ++ r :: post) = named mid ++ name.name :: named post := by
    have hcons : mid ++ r :: post = mid ++ ([r] ++ post) := rfl
    rw [hcons, named_append, named_append, named_single hsome, hname]
    rfl
  have hafter : named (mid ++ r.wiped :: post) = named mid ++ named post := by
    have hcons : mid ++ r.wiped :: post = mid ++ ([r.wiped] ++ post) := rfl
    rw [hcons, named_append, named_append, named_wiped, List.nil_append]
  have hdistinct := rep.distinct
  rw [hbefore] at hdistinct
  rcases List.nodup_middle.mp hdistinct |> List.nodup_cons.mp with ⟨hgone, hleft⟩
  refine ⟨_, mid ++ r.wiped :: post, run, ?_⟩
  constructor
  · exact hold'
  · exact rep.self
  · exact rep.blank
  · rw [hafter]
    exact hleft
  · intro q
    have hq := rep.present q
    rw [hbefore, List.mem_append, List.mem_cons] at hq
    rw [hafter, List.mem_append, Finset.mem_erase, ← hq]
    rw [List.mem_append] at hgone
    constructor
    · intro hmem
      constructor
      · rintro rfl
        exact hgone hmem
      · rcases hmem with hmem | hmem
        · exact Or.inl hmem
        · exact Or.inr (Or.inr hmem)
    · rintro ⟨hne, hmem | hmem | hmem⟩
      · exact Or.inl hmem
      · exact absurd hmem hne
      · exact Or.inr hmem
  · intro r' hr' hscan
    rcases List.mem_append.mp hr' with hr' | hr'
    · exact rep.inode r' (List.mem_append_left _ hr') hscan
    · rcases List.mem_cons.mp hr' with rfl | hr'
      · exact absurd (wiped_scan r) hscan
      · exact rep.inode r' (by simp [hr']) hscan
  · intro q hq
    exact rep.proper q (Finset.mem_of_mem_erase hq)
  · have hlinks := rep.links
    change d.nlink - 1 = 2 + (m.present.erase name.name).card
    rw [Finset.card_erase_of_mem hin]
    omega

end Rep

section Steps

variable {d : Directory} {m : Names} {dot dotDot : Rec} {rest : List Rec}

theorem run_right {α : Type} {f : Fd α} {a : α} {d' : Directory} (run : f d = .ok (a, d')) :
    f.value d = some a ∧ f.final d = d' := by
  unfold Exec.value Exec.final
  rw [run]
  exact ⟨rfl, rfl⟩

theorem find_isSome {q : Bytes} (hdot : q ≠ [DOT]) (hdd : q ≠ [DOT, DOT]) :
    (m.find q).isSome = true ↔ q ∈ m.present := by
  rw [find_proper hdot hdd]
  by_cases hin : q ∈ m.present <;> simp [hin]

/-- A step apart from the template's second record answers right and keeps the map. -/
theorem Rep.step (rep : Rep d m dot dotDot rest) {s : Step} (apart : Apart s) :
    Right d m s ∧ ∃ dotDot' rest', Rep (after d s) (m.next d s) dot dotDot' rest' := by
  cases s with
  | insert h name inum type =>
    rcases apart with ⟨-, hblank⟩
    have hblank : name.name ≠ dotDotName := hblank
    have hsome := find_isSome (m := m) name.proper.1 name.proper.2
    by_cases hin : name.name ∈ m.present
    · rcases rep.first name.nonempty hin with ⟨mid, r, post, hrest, hname, -⟩
      have hexists : ∃ r ∈ dot :: dotDot :: rest, r.scan = name.name :=
        ⟨r, by rw [hrest]; simp, hname⟩
      have run := @insert_present h _ _ inum.toNat type _ rep.holds (by simp)
        hexists
      rcases run_right run with ⟨hvalue, hfinal⟩
      have hnext : m.next d (.insert h name inum type) = m := if_pos (Or.inl (hsome.mpr hin))
      have hafter : after d (.insert h name inum type) = d := hfinal
      refine ⟨⟨?_, ?_⟩, dotDot, rest, ?_⟩
      · rw [hafter, hnext]
        exact rep.links
      · change _ = some (m.insertRet d h name.name)
        rw [hvalue, Names.insertRet, if_pos (hsome.mpr hin)]
      · rw [hafter, hnext]
        exact rep
    · have hnone : ¬ (m.find name.name).isSome = true := fun hs => hin (hsome.mp hs)
      by_cases room : hasRoom d h name.name
      · rcases @Rep.insert_new _ _ _ _ _ rep _ _ inum type hin hblank room with
          ⟨d', dotDot', rest', run, rep'⟩
        rcases run_right run with ⟨hvalue, hfinal⟩
        have hnext : m.next d (.insert h name inum type) = { m with
            present := insert name.name m.present
            inode := Function.update m.inode name.name inum } :=
          if_neg (by rintro (hs | hroom); exacts [hnone hs, hroom room])
        have hafter : after d (.insert h name inum type) = d' := hfinal
        refine ⟨⟨?_, ?_⟩, dotDot', rest', ?_⟩
        · rw [hafter, hnext]
          exact rep'.links
        · change _ = some (m.insertRet d h name.name)
          rw [hvalue, Names.insertRet, if_neg hnone, if_pos room]
        · rw [hafter, hnext]
          exact rep'
      · have habsent := rep.absent name.nonempty name.proper.1 hblank hin
        rcases @last_record (dot :: dotDot :: rest) (by simp) with ⟨mid, l, hlast⟩
        have hold := rep.holds
        rw [hlast] at hold habsent
        have run := @insert_full h _ _ inum.toNat type _ _ hold habsent room
        rcases run_right run with ⟨hvalue, hfinal⟩
        have hnext : m.next d (.insert h name inum type) = m := if_pos (Or.inr room)
        have hafter : after d (.insert h name inum type) = d := hfinal
        refine ⟨⟨?_, ?_⟩, dotDot, rest, ?_⟩
        · rw [hafter, hnext]
          exact rep.links
        · change _ = some (m.insertRet d h name.name)
          rw [hvalue, Names.insertRet, if_neg hnone, if_neg room]
        · rw [hafter, hnext]
          exact rep
  | unlink name =>
    rcases apart with ⟨-, hblank⟩
    have hblank : name.name ≠ dotDotName := hblank
    have hsome := find_isSome (m := m) name.proper.1 name.proper.2
    by_cases hin : name.name ∈ m.present
    · rcases rep.unlink_old hin with ⟨d', rest', run, rep'⟩
      rcases run_right run with ⟨hvalue, hfinal⟩
      have hafter : after d (.unlink name) = d' := hfinal
      refine ⟨⟨?_, ?_⟩, dotDot, rest', ?_⟩
      · rw [hafter]
        exact rep'.links
      · change _ = some (m.unlinkRet name.name)
        rw [hvalue, Names.unlinkRet, if_pos (hsome.mpr hin)]
      · rw [hafter]
        exact rep'
    · have run := unlink_absent rep.holds (by simp)
        (rep.absent name.nonempty name.proper.1 hblank hin)
      rcases run_right run with ⟨hvalue, hfinal⟩
      have hnone : ¬ (m.find name.name).isSome = true := fun hs => hin (hsome.mp hs)
      have hnext : m.next d (.unlink name) = m := by
        change { m with present := m.present.erase name.name } = m
        rw [Finset.erase_eq_of_notMem hin]
      have hafter : after d (.unlink name) = d := hfinal
      refine ⟨⟨?_, ?_⟩, dotDot, rest, ?_⟩
      · rw [hafter, hnext]
        exact rep.links
      · change _ = some (m.unlinkRet name.name)
        rw [hvalue, Names.unlinkRet, if_neg hnone]
      · rw [hafter, hnext]
        exact rep
  | lookup name =>
    rcases apart with ⟨hdd, hblank⟩
    have run := rep.lookup name.nonempty hdd hblank
    rcases run_right run with ⟨hvalue, hfinal⟩
    have hafter : after d (.lookup name) = d := hfinal
    refine ⟨⟨?_, hvalue⟩, dotDot, rest, ?_⟩
    · rw [hafter]
      exact rep.links
    · rw [hafter]
      exact rep

/-- A step that meets the template's second record, or that looks for it, answers wrong. -/
theorem Rep.wrong (rep : Rep d m dot dotDot rest) {s : Step} (meets : ¬ Apart s) :
    ¬ Right d m s := by
  have hout : dotDotName ∉ m.present := fun hin => (rep.proper _ hin).2.2 rfl
  have hfind : m.find dotDotName = none := by
    rw [find_proper (by decide) (by decide), if_neg hout]
  have hfirst : ∀ r ∈ [dot], r.scan ≠ dotDotName := by
    intro r hr
    rw [List.mem_singleton.mp hr, rep.self.1]
    decide
  have hold : Holds d ([dot] ++ dotDot :: rest) := rep.holds
  rintro ⟨-, right⟩
  cases s with
  | insert h name inum type =>
    have hname : name.name = dotDotName := by
      by_contra hne
      exact meets ⟨name.proper.2, hne⟩
    have run := @insert_present h _ name.name inum.toNat type _
      rep.holds (by simp) ⟨dotDot, by simp, by rw [rep.blank, hname]⟩
    change _ = some (m.insertRet d h name.name) at right
    rw [(run_right run).1, Names.insertRet, hname, hfind, if_neg (by simp)] at right
    have hret := Option.some.inj right
    split at hret <;> exact absurd hret (by decide)
  | unlink name =>
    have hname : name.name = dotDotName := by
      by_contra hne
      exact meets ⟨name.proper.2, hne⟩
    have run := unlink_found hold hfirst rep.blank
    change _ = some (m.unlinkRet name.name) at right
    rw [Names.unlinkRet, hname, hfind, if_neg (by simp)] at right
    by_cases hlinks : 2 < d.nlink
    · rw [if_pos hlinks] at run
      rw [(run_right run).1] at right
      exact absurd (Option.some.inj right) (by decide)
    · rw [if_neg hlinks] at run
      unfold Exec.value at right
      rw [run] at right
      simp at right
  | lookup name =>
    change _ = some (m.find name.name) at right
    by_cases hdd : name.name = [DOT, DOT]
    · have hnone : ∀ r ∈ dot :: dotDot :: rest, r.scan ≠ [DOT, DOT] := by
        intro r hr
        rcases List.mem_cons.mp hr with rfl | hr
        · rw [rep.self.1]
          decide
        · rcases List.mem_cons.mp hr with rfl | hr
          · rw [rep.blank]
            decide
          · intro hname
            have hin := (rep.present _).mp ((mem_named (by decide)).mpr ⟨r, hr, hname⟩)
            exact (rep.proper _ hin).2.1 rfl
      have run := lookup_absent rep.holds (by simp) hnone
      rw [hdd, (run_right run).1, Names.find, if_neg (by decide), if_pos rfl] at right
      exact absurd (Option.some.inj right) (by simp)
    · have hname : name.name = dotDotName := by
        by_contra hne
        exact meets ⟨hdd, hne⟩
      have run := lookup_found hold hfirst rep.blank
      rw [hname, (run_right run).1, hfind] at right
      exact absurd (Option.some.inj right) (by simp)

/-- The run: right throughout exactly when every step is apart. -/
theorem Rep.steps (steps : List Step) (rep : Rep d m dot dotDot rest) :
    AllRight d m steps ↔ ∀ s ∈ steps, Apart s := by
  induction steps generalizing d m dotDot rest with
  | nil => simp [AllRight]
  | cons s l ih =>
    constructor
    · rintro ⟨hfirst, hrest⟩
      have apart : Apart s := by
        by_contra meets
        exact rep.wrong meets hfirst
      rcases (rep.step apart).2 with ⟨dotDot', rest', rep'⟩
      intro s' hs'
      rcases List.mem_cons.mp hs' with rfl | hs'
      · exact apart
      · exact (ih rep').mp hrest s' hs'
    · intro hall
      rcases rep.step (hall s List.mem_cons_self) with ⟨right, dotDot', rest', rep'⟩
      exact ⟨right, (ih rep').mpr fun s' hs' => hall s' (List.mem_cons_of_mem _ hs')⟩

theorem new_rep (junk : ℕ → UInt8) (ino parent : UInt64) :
    Rep (newDirectory junk ino parent) (newNames ino parent) (dotRec ino.toNat)
      (dotDotRec parent.toNat) [] := by
  have run := fuseDirectoryNew_run (h := ⟨true, junk⟩) rfl ino.toNat parent.toNat
  have hnew : newDirectory junk ino parent =
      ⟨bytes [dotRec ino.toNat, dotDotRec parent.toNat], 48, 2⟩ := (run_right run).2
  rw [hnew]
  constructor
  · exact holds_new
  · exact ⟨rfl, Nat.mod_eq_of_lt (UInt64.toNat_lt ino)⟩
  · rfl
  · exact List.nodup_nil
  · simp [named, newNames]
  · simp
  · simp [newNames]
  · rfl

end Steps

/-- A directory is the map of its names, with its own and its parent's number, for exactly the
sequences that stay apart from the template's second record. -/
theorem directory_is_map (junk : ℕ → UInt8) (ino parent : UInt64) (steps : List Step) :
    AllRight (newDirectory junk ino parent) (newNames ino parent) steps ↔
      ∀ s ∈ steps, Apart s :=
  (new_rep junk ino parent).steps steps

/-- The parent is not found under its name in a new directory. -/
theorem dot_dot_missing : ¬ ∀ junk ino parent steps,
    AllRight (newDirectory junk ino parent) (newNames ino parent) steps := by
  intro all
  have right := all (fun _ => 0) 5 5
    [.lookup ⟨[DOT, DOT], by decide, by decide, by decide⟩]
  have apart := ((new_rep (fun _ => 0) 5 5).steps _).mp right _ List.mem_cons_self
  exact apart.1 rfl

end DirectoryMap
