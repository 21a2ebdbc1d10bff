import DirectFuse.SftpBuffer

/-! Attributes and directory entries in the replies of an sftp server (drivers/sshfs/sshfs.c). -/
namespace SftpAttrs

open ExecLogic SysioState Codec SftpBuffer
open FuseDirectory (Heap)

def EIO : ℤ := 5

def SSH_FILEXFER_ATTR_SIZE : ℕ := 0x00000001
def SSH_FILEXFER_ATTR_UIDGID : ℕ := 0x00000002
def SSH_FILEXFER_ATTR_PERMISSIONS : ℕ := 0x00000004
def SSH_FILEXFER_ATTR_ACMODTIME : ℕ := 0x00000008
def SSH_FILEXFER_ATTR_EXTENDED : ℕ := 0x80000000

inductive Idmap where
  | none
  | user
  | file
  deriving DecidableEq, Repr

inductive Nomap where
  | ignore
  | error
  deriving DecidableEq, Repr

/-- What `struct sshfs` has on the attributes of files. A map of ids is absent where no file was
given for it. -/
structure Options where
  remoteUidDetected : Bool
  remoteUid : ℕ
  localUid : ℕ
  idmap : Idmap
  nomap : Nomap
  uidMap : Option (ℕ → Option ℕ)
  gidMap : Option (ℕ → Option ℕ)
  blksize : ℕ
  followSymlinks : Bool

/-- `struct stat` as `buf_get_attrs` fills it in. -/
structure SshStat where
  mode : ℕ
  nlink : ℕ
  size : ℕ
  blksize : ℕ
  blocks : ℕ
  uid : ℕ
  gid : ℕ
  atime : ℕ
  mtime : ℕ
  ctime : ℕ
  deriving DecidableEq, Repr

/-- `translate_id`; `none` stands for -1. -/
def translateId (o : Options) (id : ℕ) (map : ℕ → Option ℕ) : Option ℕ :=
  match map id with
  | some id => some id
  | none =>
    match o.nomap with
    | .error => none
    | .ignore => some id

/-- A map is used with `idmap=file` only. -/
def mapId (o : Options) (id : ℕ) (map : Option (ℕ → Option ℕ)) : Option ℕ :=
  if o.idmap = .file then
    match map with
    | none => some id
    | some map => translateId o id map
  else some id

/-- The local variables of `buf_get_attrs`. -/
structure AttrFields where
  flags : ℕ
  size : ℕ
  uid : ℕ
  gid : ℕ
  mode : ℕ
  atime : ℕ
  mtime : ℕ
  deriving DecidableEq, Repr

/-- A field that is only there if its flag is set. -/
def onFlag {α : Type} (flags flag : ℕ) (default : α) (m : Sb (Option α)) : Sb (Option α) :=
  if flags &&& flag ≠ 0 then m else return some default

def getTwo : Sb (Option (ℕ × ℕ)) :=
  andRead bufGetUint32 fun a => andRead bufGetUint32 fun b => return some (a, b)

/-- One extension, a type and its data. -/
def getExtension (h : Heap) : Sb (Option (Bytes × Bytes)) :=
  andRead (bufGetData h) fun type => andRead (bufGetData h) fun data => return some (type, data)

def getExtensions (h : Heap) : Sb (Option (List (Bytes × Bytes))) :=
  andRead bufGetUint32 fun extcount => readList (getExtension h) extcount

/-- The fields of `buf_get_attrs`, in the order they are read. Nobody keeps the extensions. -/
def getAttrFields (h : Heap) : Sb (Option AttrFields) :=
  andRead bufGetUint32 fun flags =>
  andRead (onFlag flags SSH_FILEXFER_ATTR_SIZE 0 bufGetUint64) fun size =>
  andRead (onFlag flags SSH_FILEXFER_ATTR_UIDGID (0, 0) getTwo) fun ids =>
  andRead (onFlag flags SSH_FILEXFER_ATTR_PERMISSIONS (S_IFREG ||| 0o777) bufGetUint32) fun mode =>
  andRead (onFlag flags SSH_FILEXFER_ATTR_ACMODTIME (0, 0) getTwo) fun times =>
  andRead (onFlag flags SSH_FILEXFER_ATTR_EXTENDED [] (getExtensions h)) fun _ =>
    return some ⟨flags, size, ids.1, ids.2, mode, times.1, times.2⟩

/-- `st_blocks`: the size in whole blocks, counted in units of 512 bytes. -/
def blocksOf (size blksize : ℕ) : ℕ :=
  (((size + blksize + (2 ^ 64 - 1)) % 2 ^ 64) &&& (2 ^ 64 - 1 - (blksize - 1))) >>> 9

/-- `*stbuf` with the ids that are left after the mapping. -/
def statOf (o : Options) (f : AttrFields) (uid gid : ℕ) : SshStat where
  mode := f.mode
  nlink := 1
  size := f.size
  blksize := o.blksize
  blocks := if o.blksize ≠ 0 then blocksOf f.size o.blksize else 0
  uid := uid
  gid := gid
  atime := f.atime
  mtime := f.mtime
  ctime := f.mtime

/-- The second half of `buf_get_attrs`; a failure is an id that no map has. -/
def mappedStat (o : Options) (f : AttrFields) : Except ℤ SshStat :=
  let uid := if o.remoteUidDetected ∧ f.uid = o.remoteUid then o.localUid else f.uid
  match mapId o uid o.uidMap with
  | none => .error (-EPERM)
  | some uid =>
    match mapId o f.gid o.gidMap with
    | none => .error (-EPERM)
    | some gid => .ok (statOf o f uid gid)

/-- `buf_get_attrs`, with the attributes or the error. -/
def bufGetAttrs (h : Heap) (o : Options) : Sb (Except ℤ SshStat) := do
  match ← getAttrFields h with
  | none => return .error (- EIO)
  | some f => return mappedStat o f

/-- `S_ISLNK`. -/
def sIsLnk (mode : ℕ) : Bool := mode &&& S_IFMT == S_IFLNK

/-- What the filler is handed of an entry: a link that is to be followed goes without its mode. -/
def listedStat (o : Options) (st : SshStat) : SshStat :=
  if o.followSymlinks && sIsLnk st.mode then { st with mode := 0 } else st

/-- The loop of `buf_get_entries` with `n` entries to come, and what the filler is called with. -/
def entriesLoop (h : Heap) (o : Options) : ℕ → Sb (ℤ × List (Bytes × SshStat))
  | 0 => return (0, [])
  | n + 1 => do
    match ← bufGetString h with
    | none => return (- EIO, [])
    | some name =>
      match ← bufGetString h with
      | none => return (-1, [])
      | some _ =>
        match ← bufGetAttrs h o with
        | .error err => return (err, [])
        | .ok st => do
          let (err, l) ← entriesLoop h o n
          return (err, (name, listedStat o st) :: l)

/-- `buf_get_entries`. -/
def bufGetEntries (h : Heap) (o : Options) : Sb (ℤ × List (Bytes × SshStat)) := do
  match ← bufGetUint32 with
  | none => return (- EIO, [])
  | some count => entriesLoop h o count

section Format

/-- Attributes as the protocol has them: flags, and the fields that the flags announce. -/
structure Attrs where
  flags : ℕ
  size : Option ℕ
  ids : Option (ℕ × ℕ)
  permissions : Option ℕ
  times : Option (ℕ × ℕ)
  extended : Option (List (Bytes × Bytes))
  deriving DecidableEq, Repr

/-- The flags announce the fields, and every value is one of its type. Other flags mean nothing. -/
structure Attrs.Proper (a : Attrs) : Prop where
  flags : a.flags < 2 ^ 32
  hasSize : a.size.isSome ↔ a.flags &&& SSH_FILEXFER_ATTR_SIZE ≠ 0
  hasIds : a.ids.isSome ↔ a.flags &&& SSH_FILEXFER_ATTR_UIDGID ≠ 0
  hasPermissions : a.permissions.isSome ↔ a.flags &&& SSH_FILEXFER_ATTR_PERMISSIONS ≠ 0
  hasTimes : a.times.isSome ↔ a.flags &&& SSH_FILEXFER_ATTR_ACMODTIME ≠ 0
  hasExtended : a.extended.isSome ↔ a.flags &&& SSH_FILEXFER_ATTR_EXTENDED ≠ 0
  size : ∀ n ∈ a.size, n < 2 ^ 64
  ids : ∀ i ∈ a.ids, i.1 < 2 ^ 32 ∧ i.2 < 2 ^ 32
  permissions : ∀ n ∈ a.permissions, n < 2 ^ 32
  times : ∀ i ∈ a.times, i.1 < 2 ^ 32 ∧ i.2 < 2 ^ 32
  extended : ∀ l ∈ a.extended, l.length < 2 ^ 32 ∧
    ∀ x ∈ l, x.1.length < 2 ^ 32 ∧ x.2.length < 2 ^ 32

/-- Data as it stands in a message. -/
def dataWord (d : Bytes) : Bytes := be 4 d.length ++ d

def twoWord (i : ℕ × ℕ) : Bytes := be 4 i.1 ++ be 4 i.2

def extensionWord (x : Bytes × Bytes) : Bytes := dataWord x.1 ++ dataWord x.2

def extensionsWord (l : List (Bytes × Bytes)) : Bytes := be 4 l.length ++ l.flatMap extensionWord

/-- Attributes as they stand in a message. -/
def Attrs.word (a : Attrs) : Bytes :=
  be 4 a.flags ++ (a.size.elim [] (be 8) ++ (a.ids.elim [] twoWord ++
    (a.permissions.elim [] (be 4) ++ (a.times.elim [] twoWord ++ a.extended.elim [] extensionsWord))))

/-- The values of the fields, and what stands for a field that is not there. -/
def Attrs.fields (a : Attrs) : AttrFields where
  flags := a.flags
  size := a.size.getD 0
  uid := (a.ids.getD (0, 0)).1
  gid := (a.ids.getD (0, 0)).2
  mode := a.permissions.getD (S_IFREG ||| 0o777)
  atime := (a.times.getD (0, 0)).1
  mtime := (a.times.getD (0, 0)).2

variable {α : Type} {h : Heap}

/-- The format of a field that may be missing. -/
def perhaps (there : Prop) (default : α) (valid : α → Prop) (word : α → Bytes) : Format α UInt8 :=
  fun a w => ∃ o : Option α, (o.isSome ↔ there) ∧ (∀ x ∈ o, valid x) ∧ a = o.getD default ∧
    w = o.elim [] word

theorem onFlag_reads {flags flag : ℕ} {default : α} {m : Sb (Option α)} {valid : α → Prop}
    {word : α → Bytes} (hm : Reads source m fun a w => valid a ∧ w = word a) :
    Reads source (onFlag flags flag default m) (perhaps (flags &&& flag ≠ 0) default valid word) := by
  unfold onFlag
  by_cases set : flags &&& flag ≠ 0
  · rw [if_pos set]
    refine reads_congr hm fun a w => ?_
    constructor
    · rintro ⟨ha, rfl⟩
      exact ⟨some a, ⟨fun _ => set, fun _ => rfl⟩, fun x hx => Option.some.inj hx ▸ ha, rfl, rfl⟩
    · rintro ⟨o, there, valid, rfl, rfl⟩
      obtain ⟨x, rfl⟩ := Option.isSome_iff_exists.mp (there.mpr set)
      exact ⟨valid x rfl, rfl⟩
  · rw [if_neg set]
    refine reads_congr (reads_pure default) fun a w => ?_
    constructor
    · rintro ⟨rfl, rfl⟩
      refine ⟨none, ⟨fun h => (by cases h), fun h => absurd h set⟩, fun x hx => (by cases hx), rfl, rfl⟩
    · rintro ⟨o, there, valid, rfl, rfl⟩
      cases o with
      | none => exact ⟨rfl, rfl⟩
      | some x => exact absurd (there.mp rfl) set

theorem getTwo_reads : Reads source getTwo fun i w =>
    (i.1 < 2 ^ 32 ∧ i.2 < 2 ^ 32) ∧ w = twoWord i := by
  refine reads_congr (reads_seq bufGetUint32_reads fun a => reads_seq bufGetUint32_reads fun b =>
    reads_pure (a, b)) fun i w => ?_
  constructor
  · rintro ⟨a, _, _, rfl, ⟨ha, rfl⟩, b, _, _, rfl, ⟨hb, rfl⟩, rfl, rfl⟩
    rw [List.append_nil]
    exact ⟨⟨ha, hb⟩, rfl⟩
  · rintro ⟨⟨ha, hb⟩, rfl⟩
    exact ⟨i.1, _, _, rfl, ⟨ha, rfl⟩, i.2, _, [], (List.append_nil _).symm, ⟨hb, rfl⟩, rfl, rfl⟩

theorem getExtension_reads (got : h.got = true) : Reads source (getExtension h) fun x w =>
    (x.1.length < 2 ^ 32 ∧ x.2.length < 2 ^ 32) ∧ w = extensionWord x := by
  refine reads_congr (reads_seq (bufGetData_reads got) fun a => reads_seq (bufGetData_reads got) fun b =>
    reads_pure (a, b)) fun x w => ?_
  constructor
  · rintro ⟨a, _, _, rfl, ⟨ha, rfl⟩, b, _, _, rfl, ⟨hb, rfl⟩, rfl, rfl⟩
    rw [List.append_nil]
    exact ⟨⟨ha, hb⟩, rfl⟩
  · rintro ⟨⟨ha, hb⟩, rfl⟩
    exact ⟨x.1, _, _, rfl, ⟨ha, rfl⟩, x.2, _, [], (List.append_nil _).symm, ⟨hb, rfl⟩, rfl, rfl⟩

theorem getExtensions_reads (got : h.got = true) : Reads source (getExtensions h) fun l w =>
    (l.length < 2 ^ 32 ∧ ∀ x ∈ l, x.1.length < 2 ^ 32 ∧ x.2.length < 2 ^ 32) ∧
      w = extensionsWord l := by
  refine reads_congr (reads_seq bufGetUint32_reads fun n => reads_list (getExtension_reads got) n)
    fun l w => ?_
  constructor
  · rintro ⟨n, _, _, rfl, ⟨hn, rfl⟩, hl⟩
    obtain ⟨rfl, ws, hall, rfl⟩ := list_iff.mp hl
    have words : (∀ x ∈ l, x.1.length < 2 ^ 32 ∧ x.2.length < 2 ^ 32) ∧
        ws = l.map extensionWord := by
      clear hn hl
      induction hall with
      | nil => exact ⟨fun x hx => (by cases hx), rfl⟩
      | cons hx _ ih =>
        refine ⟨?_, by rw [List.map_cons, hx.2, ih.2]⟩
        intro y hy
        rcases List.mem_cons.mp hy with rfl | hy
        · exact hx.1
        · exact ih.1 y hy
    refine ⟨⟨hn, words.1⟩, ?_⟩
    rw [words.2, extensionsWord, List.flatMap_def]
  · rintro ⟨⟨hn, hl⟩, rfl⟩
    refine ⟨l.length, _, _, rfl, ⟨hn, rfl⟩, list_iff.mpr ⟨rfl, l.map extensionWord, ?_, ?_⟩⟩
    · clear hn
      induction l with
      | nil => exact List.Forall₂.nil
      | cons x l ih =>
        refine List.Forall₂.cons ⟨hl x (List.mem_cons_self ..), rfl⟩ ?_
        exact ih fun y hy => hl y (List.mem_cons_of_mem _ hy)
    · rw [List.flatMap_def]

/-- The format of attributes. -/
def attrs : Format AttrFields UInt8 := fun f w => ∃ a : Attrs, a.Proper ∧ w = a.word ∧ f = a.fields

theorem getAttrFields_reads (got : h.got = true) : Reads source (getAttrFields h) attrs := by
  have number64 : Reads source bufGetUint64 fun n w => n < 2 ^ 64 ∧ w = be 8 n := bufGetUint64_reads
  have number32 : Reads source bufGetUint32 fun n w => n < 2 ^ 32 ∧ w = be 4 n := bufGetUint32_reads
  refine reads_congr (reads_seq number32 fun flags => reads_seq (onFlag_reads number64) fun size =>
    reads_seq (onFlag_reads getTwo_reads) fun ids => reads_seq (onFlag_reads number32) fun mode =>
    reads_seq (onFlag_reads getTwo_reads) fun times =>
    reads_seq (onFlag_reads (getExtensions_reads got)) fun _ => reads_pure _) fun f w => ?_
  constructor
  · rintro ⟨flags, _, _, rfl, ⟨hflags, rfl⟩, _, _, _, rfl, ⟨size, hasSize, hsize, rfl, rfl⟩,
      _, _, _, rfl, ⟨ids, hasIds, hids, rfl, rfl⟩, _, _, _, rfl, ⟨mode, hasMode, hmode, rfl, rfl⟩,
      _, _, _, rfl, ⟨times, hasTimes, htimes, rfl, rfl⟩, _, _, _, rfl, ⟨ext, hasExt, hext, -, rfl⟩,
      rfl, rfl⟩
    refine ⟨⟨flags, size, ids, mode, times, ext⟩, ?_, ?_, rfl⟩
    · exact ⟨hflags, hasSize, hasIds, hasMode, hasTimes, hasExt, hsize, hids, hmode, htimes, hext⟩
    · rw [List.append_nil]
      rfl
  · rintro ⟨a, h, rfl, rfl⟩
    refine ⟨a.flags, _, _, rfl, ⟨h.flags, rfl⟩, _, _, _, rfl, ⟨a.size, h.hasSize, h.size, rfl, rfl⟩,
      _, _, _, rfl, ⟨a.ids, h.hasIds, h.ids, rfl, rfl⟩, _, _, _, rfl,
      ⟨a.permissions, h.hasPermissions, h.permissions, rfl, rfl⟩,
      _, _, _, rfl, ⟨a.times, h.hasTimes, h.times, rfl, rfl⟩, _, _, [], (List.append_nil _).symm,
      ⟨a.extended, h.hasExtended, h.extended, rfl, rfl⟩, rfl, rfl⟩

end Format

section Attributes

variable {h : Heap} {o : Options} {b : Buffer}

theorem bufGetAttrs_run (got : h.got = true) (order : InOrder b) {a : Attrs} (proper : a.Proper) {r : Bytes}
    (rest : source.rest b = a.word ++ r) :
    ∃ t, bufGetAttrs h o b = .ok (mappedStat o a.fields, t) ∧ InOrder t ∧ source.rest t = r := by
  obtain ⟨t, run, order', rest'⟩ :=
    (getAttrFields_reads got b order).1 a.fields a.word r ⟨a, proper, rfl, rfl⟩ rest
  refine ⟨t, ?_, order', rest'⟩
  unfold bufGetAttrs
  rw [bind_run run]
  rfl

theorem bufGetAttrs_missing (got : h.got = true) (order : InOrder b)
    (missing : ∀ (a : Attrs) (r : Bytes), a.Proper → source.rest b ≠ a.word ++ r) :
    ∃ t, bufGetAttrs h o b = .ok (.error (- EIO), t) := by
  have none_ : ∀ f w r, attrs f w → source.rest b ≠ w ++ r := by
    rintro f w r ⟨a, proper, rfl, -⟩
    exact missing a r proper
  obtain ⟨t, run, -⟩ := (getAttrFields_reads got b order).2 none_
  refine ⟨t, ?_⟩
  unfold bufGetAttrs
  rw [bind_run run]
  rfl

theorem bufGetAttrs_granted (h : Heap) (o : Options) :
    StopsAt .abort (bufGetAttrs h o) (bufGetAttrs (granted h) o) := by
  have extension : StopsAt .abort (getExtension h) (getExtension (granted h)) :=
    stopsAt_andRead (bufGetData_granted h) fun _ =>
      stopsAt_andRead (bufGetData_granted h) fun _ => stopsAt_refl _
  have extensions : StopsAt .abort (getExtensions h) (getExtensions (granted h)) :=
    stopsAt_andRead (stopsAt_refl _) fun n => stopsAt_readList extension n
  -- only the extensions are put into memory of their own
  have fields : StopsAt .abort (getAttrFields h) (getAttrFields (granted h)) := by
    refine stopsAt_andRead (stopsAt_refl _) fun flags => ?_
    refine stopsAt_andRead (stopsAt_refl _) fun size => ?_
    refine stopsAt_andRead (stopsAt_refl _) fun ids => ?_
    refine stopsAt_andRead (stopsAt_refl _) fun mode => ?_
    refine stopsAt_andRead (stopsAt_refl _) fun times => ?_
    refine stopsAt_andRead ?_ fun _ => stopsAt_refl _
    unfold onFlag
    by_cases set : flags &&& SSH_FILEXFER_ATTR_EXTENDED ≠ 0
    · rw [if_pos set, if_pos set]
      exact extensions
    · rw [if_neg set, if_neg set]
      exact stopsAt_refl _
  refine stopsAt_bind fields fun f => ?_
  cases f with
  | none => exact stopsAt_refl _
  | some f => exact stopsAt_refl _

/-- Attributes are taken from a reply just if attributes of the protocol stand there, whichever of
their fields are there and whatever comes behind them. They are taken whole, with the default of a
field that is missing and the ids mapped, which fails for an id that its map has not; no byte outside
of the reply is looked at. Only memory that is refused can abort this. -/
theorem sftp_attributes (order : InOrder b) :
    (∀ (a : Attrs) (r : Bytes), a.Proper → source.rest b = a.word ++ r →
      (∃ t, bufGetAttrs h o b = .ok (mappedStat o a.fields, t) ∧ source.rest t = r) ∨
        h.got = false ∧ bufGetAttrs h o b = .error .abort) ∧
    ((∀ (a : Attrs) (r : Bytes), a.Proper → source.rest b ≠ a.word ++ r) →
      (∃ t, bufGetAttrs h o b = .ok (.error (- EIO), t)) ∨
        h.got = false ∧ bufGetAttrs h o b = .error .abort) := by
  have stops := bufGetAttrs_granted h o
  constructor
  · intro a r proper rest
    obtain ⟨t, run, -, rest'⟩ := bufGetAttrs_run (h := granted h) rfl order proper rest
    exact (run_or_abort (m := fun h => bufGetAttrs h o) stops run).imp (fun run => ⟨t, run, rest'⟩) id
  · intro missing
    obtain ⟨t, run⟩ := bufGetAttrs_missing (h := granted h) rfl order missing
    exact (run_or_abort (m := fun h => bufGetAttrs h o) stops run).imp (fun run => ⟨t, run⟩) id

/-- Options without a map of ids. -/
def plainOptions : Options := ⟨false, 0, 0, .none, .error, none, none, 4096, false⟩

/-- A file of 5000 bytes. -/
def fileAttrs : Attrs := ⟨5, some 5000, none, some 0o100644, none, none⟩

theorem fileAttrs_proper : fileAttrs.Proper := by
  constructor <;> simp [fileAttrs, SSH_FILEXFER_ATTR_SIZE, SSH_FILEXFER_ATTR_UIDGID,
    SSH_FILEXFER_ATTR_PERMISSIONS, SSH_FILEXFER_ATTR_ACMODTIME, SSH_FILEXFER_ATTR_EXTENDED]

/-- Its attributes in a reply, with a byte behind them. -/
def fileReply : Buffer := ⟨fileAttrs.word ++ [9], 0, 17⟩

theorem fileReply_order : InOrder fileReply := ⟨by decide, by decide, by decide⟩

theorem file_attributes : ∃ t, bufGetAttrs ⟨true, fun _ => 7⟩ plainOptions fileReply =
    .ok (.ok ⟨0o100644, 1, 5000, 4096, 16, 0, 0, 0, 0, 0⟩, t) ∧ source.rest t = [9] :=
  ((sftp_attributes fileReply_order).1 fileAttrs [9] fileAttrs_proper rfl).resolve_right
    fun refused => Bool.noConfusion refused.1

end Attributes

section Entries

/-- An entry of a directory as the protocol has it. -/
structure Entry where
  name : Bytes
  longname : Bytes
  attrs : Attrs
  deriving DecidableEq, Repr

structure Entry.Proper (e : Entry) : Prop where
  name : e.name.length < 2 ^ 32
  longname : e.longname.length < 2 ^ 32
  attrs : e.attrs.Proper

def Entry.word (e : Entry) : Bytes := dataWord e.name ++ (dataWord e.longname ++ e.attrs.word)

/-- No data stands at the front. -/
def NoData (r : Bytes) : Prop := ∀ d r', d.length < 2 ^ 32 → r ≠ dataWord d ++ r'

def NoAttrs (r : Bytes) : Prop := ∀ (a : Attrs) r', a.Proper → r ≠ a.word ++ r'

/-- What is to be delivered of `n` entries that should stand in front of some bytes: all up to the
first one that is cut off, spoilt or of a foreign user, and the error for that one. -/
inductive Listing (o : Options) : ℕ → Bytes → ℤ → List (Bytes × SshStat) → Prop where
  | done (r : Bytes) : Listing o 0 r 0 []
  | entry {n : ℕ} {e : Entry} {r : Bytes} {err : ℤ} {l : List (Bytes × SshStat)} {st : SshStat}
      (proper : e.Proper) (mapped : mappedStat o e.attrs.fields = .ok st)
      (rest : Listing o n r err l) :
      Listing o (n + 1) (e.word ++ r) err ((cString e.name, listedStat o st) :: l)
  | noName {n : ℕ} {r : Bytes} (missing : NoData r) : Listing o (n + 1) r (- EIO) []
  | noLongname {n : ℕ} {name r : Bytes} (short : name.length < 2 ^ 32) (missing : NoData r) :
      Listing o (n + 1) (dataWord name ++ r) (-1) []
  | noAttrs {n : ℕ} {name longname r : Bytes} (short : name.length < 2 ^ 32)
      (short' : longname.length < 2 ^ 32) (missing : NoAttrs r) :
      Listing o (n + 1) (dataWord name ++ (dataWord longname ++ r)) (- EIO) []
  | unmapped {n : ℕ} {e : Entry} {r : Bytes} {err : ℤ} (proper : e.Proper)
      (unmapped : mappedStat o e.attrs.fields = .error err) : Listing o (n + 1) (e.word ++ r) err []

variable {h : Heap} {o : Options} {b : Buffer}

/-- Something is to be delivered whatever the reply holds. -/
theorem listing_total (o : Options) (n : ℕ) (r : Bytes) : ∃ err l, Listing o n r err l := by
  induction n generalizing r with
  | zero => exact ⟨0, [], Listing.done r⟩
  | succ n ih =>
    by_cases hname : NoData r
    · exact ⟨_, _, Listing.noName hname⟩
    obtain ⟨name, r₁, short, rfl⟩ : ∃ d r', d.length < 2 ^ 32 ∧ r = dataWord d ++ r' := by
      simpa [NoData] using hname
    by_cases hlong : NoData r₁
    · exact ⟨_, _, Listing.noLongname short hlong⟩
    obtain ⟨longname, r₂, short', rfl⟩ : ∃ d r', d.length < 2 ^ 32 ∧ r₁ = dataWord d ++ r' := by
      simpa [NoData] using hlong
    by_cases hattrs : NoAttrs r₂
    · exact ⟨_, _, Listing.noAttrs short short' hattrs⟩
    obtain ⟨a, r₃, proper, rfl⟩ : ∃ (a : Attrs) (r' : Bytes), a.Proper ∧ r₂ = a.word ++ r' := by
      simpa [NoAttrs] using hattrs
    have word : dataWord name ++ (dataWord longname ++ (a.word ++ r₃)) =
        (⟨name, longname, a⟩ : Entry).word ++ r₃ := by
      simp only [Entry.word, List.append_assoc]
    rw [word]
    cases mapped : mappedStat o a.fields with
    | error err => exact ⟨_, _, Listing.unmapped ⟨short, short', proper⟩ mapped⟩
    | ok st =>
      obtain ⟨err, l, rest⟩ := ih r₃
      exact ⟨_, _, Listing.entry ⟨short, short', proper⟩ mapped rest⟩

theorem bufGetString_run (got : h.got = true) (order : InOrder b) {d r : Bytes} (short : d.length < 2 ^ 32)
    (rest : source.rest b = dataWord d ++ r) :
    ∃ t, bufGetString h b = .ok (some (cString d), t) ∧ InOrder t ∧ source.rest t = r :=
  (bufGetString_reads got b order).1 _ _ r ⟨d, ⟨short, rfl⟩, rfl⟩ rest

theorem bufGetString_missing (got : h.got = true) (order : InOrder b) (missing : NoData (source.rest b)) :
    ∃ t, bufGetString h b = .ok (none, t) := by
  have none_ : ∀ s w r, string s w → source.rest b ≠ w ++ r := by
    rintro s w r ⟨d, ⟨short, rfl⟩, -⟩
    exact missing d r short
  obtain ⟨t, run, -⟩ := (bufGetString_reads got b order).2 none_
  exact ⟨t, run⟩

/-- The loop delivers what is to be delivered. -/
theorem entriesLoop_run (got : h.got = true) {n : ℕ} {r : Bytes} {err : ℤ} {l : List (Bytes × SshStat)}
    (listing : Listing o n r err l) (order : InOrder b) (rest : source.rest b = r) :
    ∃ t, entriesLoop h o n b = .ok ((err, l), t) := by
  induction listing generalizing b with
  | done r => exact ⟨b, rfl⟩
  | @entry n e r err l st proper mapped _ ih =>
    rw [Entry.word, List.append_assoc, List.append_assoc] at rest
    obtain ⟨t₁, run₁, order₁, rest₁⟩ := bufGetString_run got order proper.name rest
    obtain ⟨t₂, run₂, order₂, rest₂⟩ := bufGetString_run got order₁ proper.longname rest₁
    obtain ⟨t₃, run₃, order₃, rest₃⟩ := bufGetAttrs_run (o := o) got order₂ proper.attrs rest₂
    obtain ⟨t, run⟩ := ih order₃ rest₃
    rw [mapped] at run₃
    refine ⟨t, ?_⟩
    unfold entriesLoop
    rw [bind_run run₁]
    change (bufGetString h >>= _) t₁ = _
    rw [bind_run run₂]
    change (bufGetAttrs h o >>= _) t₂ = _
    rw [bind_run run₃]
    change (entriesLoop h o n >>= _) t₃ = _
    rw [bind_run run]
    rfl
  | noName missing =>
    obtain ⟨t, run⟩ := bufGetString_missing got order (rest ▸ missing)
    refine ⟨t, ?_⟩
    unfold entriesLoop
    rw [bind_run run]
    rfl
  | noLongname short missing =>
    obtain ⟨t₁, run₁, order₁, rest₁⟩ := bufGetString_run got order short rest
    obtain ⟨t, run⟩ := bufGetString_missing got order₁ (rest₁ ▸ missing)
    refine ⟨t, ?_⟩
    unfold entriesLoop
    rw [bind_run run₁]
    change (bufGetString h >>= _) t₁ = _
    rw [bind_run run]
    rfl
  | noAttrs short short' missing =>
    obtain ⟨t₁, run₁, order₁, rest₁⟩ := bufGetString_run got order short rest
    obtain ⟨t₂, run₂, order₂, rest₂⟩ := bufGetString_run got order₁ short' rest₁
    obtain ⟨t, run⟩ := bufGetAttrs_missing (o := o) got order₂ fun a r proper => rest₂ ▸ missing a r proper
    refine ⟨t, ?_⟩
    unfold entriesLoop
    rw [bind_run run₁]
    change (bufGetString h >>= _) t₁ = _
    rw [bind_run run₂]
    change (bufGetAttrs h o >>= _) t₂ = _
    rw [bind_run run]
    rfl
  | @unmapped n e r err proper unmapped =>
    rw [Entry.word, List.append_assoc, List.append_assoc] at rest
    obtain ⟨t₁, run₁, order₁, rest₁⟩ := bufGetString_run got order proper.name rest
    obtain ⟨t₂, run₂, order₂, rest₂⟩ := bufGetString_run got order₁ proper.longname rest₁
    obtain ⟨t₃, run₃, -⟩ := bufGetAttrs_run (o := o) got order₂ proper.attrs rest₂
    rw [unmapped] at run₃
    refine ⟨t₃, ?_⟩
    unfold entriesLoop
    rw [bind_run run₁]
    change (bufGetString h >>= _) t₁ = _
    rw [bind_run run₂]
    change (bufGetAttrs h o >>= _) t₂ = _
    rw [bind_run run₃]
    rfl

theorem entriesLoop_granted (h : Heap) (o : Options) (n : ℕ) :
    StopsAt .abort (entriesLoop h o n) (entriesLoop (granted h) o n) := by
  induction n with
  | zero => exact stopsAt_refl _
  | succ n ih =>
    refine stopsAt_bind (bufGetString_granted h) fun name => ?_
    cases name with
    | none => exact stopsAt_refl _
    | some name =>
      refine stopsAt_bind (bufGetString_granted h) fun longname => ?_
      cases longname with
      | none => exact stopsAt_refl _
      | some longname =>
        refine stopsAt_bind (bufGetAttrs_granted h o) fun st => ?_
        cases st with
        | error err => exact stopsAt_refl _
        | ok st => exact stopsAt_bind ih fun _ => stopsAt_refl _

/-- Of the entries in a reply the filler gets all in front of the first bad one, with the error that
the bad one gives. A reply that is right delivers them all, and nothing outside of the reply is looked
at whatever it holds. Only memory that is refused can abort this. -/
theorem sftp_entries (order : InOrder b) :
    (∀ count r, count < 2 ^ 32 → source.rest b = be 4 count ++ r →
      ∃ err l, Listing o count r err l ∧
        ((∃ t, bufGetEntries h o b = .ok ((err, l), t)) ∨
          h.got = false ∧ bufGetEntries h o b = .error .abort) ∧
        ∀ err' l', Listing o count r err' l' → err' = err ∧ l' = l) ∧
    ((source.rest b).length < 4 → ∃ t, bufGetEntries h o b = .ok ((- EIO, []), t)) := by
  constructor
  · intro count r small rest
    obtain ⟨t₁, run₁, order₁, rest₁⟩ := (bufGetUint32_reads b order).1 count _ r ⟨small, rfl⟩ rest
    have whole : ∀ err l, Listing o count r err l →
        ∃ t, entriesLoop (granted h) o count t₁ = .ok ((err, l), t) := fun err l listing =>
      entriesLoop_run rfl listing order₁ rest₁
    obtain ⟨err, l, listing⟩ := listing_total o count r
    obtain ⟨t, run⟩ := whole err l listing
    refine ⟨err, l, listing, ?_, fun err' l' listing' => ?_⟩
    · unfold bufGetEntries
      rw [bind_run run₁]
      exact (run_or_abort (m := fun h => entriesLoop h o count) (entriesLoop_granted h o count) run).imp
        (fun run => ⟨t, run⟩) id
    · obtain ⟨t', run'⟩ := whole err' l' listing'
      rw [run] at run'
      cases run'
      exact ⟨rfl, rfl⟩
  · intro short
    have none_ : ∀ n w r, number 4 n w → source.rest b ≠ w ++ r := by
      rintro n w r ⟨-, rfl⟩ rest
      rw [rest, List.length_append, be_length] at short
      omega
    obtain ⟨t, run, -⟩ := (bufGetUint32_reads b order).2 none_
    refine ⟨t, ?_⟩
    unfold bufGetEntries
    rw [bind_run run]
    rfl

/-- A reply that announces two entries and has one. -/
def shortListing : Buffer :=
  ⟨be 4 2 ++ (⟨[102], [], fileAttrs⟩ : Entry).word, 0, 29⟩

theorem short_entries : ∃ t, bufGetEntries ⟨true, fun _ => 7⟩ plainOptions shortListing =
    .ok ((- EIO, [([102], ⟨0o100644, 1, 5000, 4096, 16, 0, 0, 0, 0, 0⟩)]), t) := by
  have order : InOrder shortListing := ⟨by decide, by decide, by decide⟩
  have rest : source.rest shortListing = be 4 2 ++ ((⟨[102], [], fileAttrs⟩ : Entry).word ++ []) := by
    decide
  obtain ⟨err, l, -, run, unique⟩ := (sftp_entries (h := ⟨true, fun _ => 7⟩) (o := plainOptions) order).1 2 _ (by decide) rest
  have none_ : NoData [] := by
    intro d r' _ empty
    have := congrArg List.length empty
    rw [List.length_append, dataWord, List.length_append, be_length, List.length_nil] at this
    omega
  have listing := Listing.entry (o := plainOptions) (e := ⟨[102], [], fileAttrs⟩)
    ⟨by decide, by decide, fileAttrs_proper⟩ rfl (Listing.noName (n := 0) none_)
  obtain ⟨rfl, rfl⟩ := unique _ _ listing
  exact run.resolve_right fun refused => Bool.noConfusion refused.1

end Entries

end SftpAttrs
