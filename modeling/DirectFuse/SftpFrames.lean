import DirectFuse.SftpBuffer

/-! Messages on the connection of the sftp driver (drivers/sshfs/sshfs.c), which takes and gives as
many bytes at a time as it likes. -/
namespace SftpFrames

open SysioState Codec SftpBuffer

def MAX_REPLY_LEN : ℕ := 1 <<< 17

section Writing

/-- What is left of a vector when its first `res` bytes are written, the inner loop of `do_write`. -/
def advance : ℕ → List Bytes → List Bytes
  | _, [] => []
  | res, v :: iov => if res < v.length then v.drop res :: iov else advance (res - v.length) iov

/-- `do_write`. `cuts` tells how many bytes each `writev` takes at most; one that takes none has
failed, as has one behind the end. The result, the bytes written and what is left of `cuts`. -/
def doWrite : List ℕ → List Bytes → ℤ × Bytes × List ℕ
  | cuts, [] => (0, [], cuts)
  | [], _ :: _ => (-1, [], [])
  | n :: cuts, v :: iov =>
    let res := min n (v :: iov).flatten.length
    if res = 0 then (-1, [], cuts)
    else
      let rest := doWrite cuts (advance res (v :: iov))
      (rest.1, (v :: iov).flatten.take res ++ rest.2.1, rest.2.2)

/-- What is handed to `sftp_send_iov`. -/
structure Message where
  type : ℕ
  id : ℕ
  iov : List Bytes
  deriving DecidableEq, Repr

/-- A type of 8 bits, an id of 32 bits and at most `SFTP_MAX_IOV - 1` pieces, that are short enough
for whoever reads them. -/
structure Message.Proper (m : Message) : Prop where
  type : m.type < 2 ^ 8
  id : m.id < 2 ^ 32
  iov : m.iov.length ≤ 2
  short : m.iov.flatten.length + 5 ≤ MAX_REPLY_LEN

/-- The buffer that `sftp_send_iov` puts in front of the vector. -/
def headerFields (m : Message) : List Field :=
  [.uint32 (m.iov.flatten.length + 5), .uint8 m.type, .uint32 m.id]

def header (m : Message) : Bytes := (headerFields m).flatMap Field.word

/-- A message on the wire. -/
def frame (m : Message) : Bytes := header m ++ m.iov.flatten

/-- `sftp_send_iov`, with the bytes it writes. -/
def sftpSendIov (cuts : List ℕ) (m : Message) : ℤ × Bytes × List ℕ := doWrite cuts (header m :: m.iov)

/-- Messages sent one after the other on one connection: what each sending returned, and all bytes
written. Nobody stops after a sending that failed. -/
def sendAll : List ℕ → List Message → List ℤ × Bytes
  | _, [] => ([], [])
  | cuts, m :: ms =>
    let sent := sftpSendIov cuts m
    let rest := sendAll sent.2.2 ms
    (sent.1 :: rest.1, sent.2.1 ++ rest.2)

/-- How many sendings returned 0 before the first that did not. -/
def sentWhole (results : List ℤ) : ℕ := (results.takeWhile (· = 0)).length

end Writing

section Reading

/-- `do_read` for `size` bytes. `cuts` tells how many bytes each `read` gives at most; one that gives
none has met the end or has failed. The bytes, what is left in the stream and of `cuts`. -/
def doRead : List ℕ → ℕ → Bytes → Option (Bytes × Bytes × List ℕ)
  | cuts, 0, stream => some ([], stream, cuts)
  | [], _ + 1, _ => none
  | n :: cuts, size + 1, stream =>
    let res := min n (min (size + 1) stream.length)
    if res = 0 then none
    else
      match doRead cuts (size + 1 - res) (stream.drop res) with
      | none => none
      | some (got, rest, cuts) => some (stream.take res ++ got, rest, cuts)

/-- `sftp_read`: the type and the buffer behind it. A length of 0 makes the buffer as long as it can
get. -/
def sftpRead (cuts : List ℕ) (stream : Bytes) : Option (ℕ × Bytes × Bytes × List ℕ) :=
  match doRead cuts 5 stream with
  | none => none
  | some (buf2, stream, cuts) =>
    let len := unbe (buf2.take 4)
    if MAX_REPLY_LEN < len then none
    else
      match doRead cuts ((len + (2 ^ 32 - 1)) % 2 ^ 32) stream with
      | none => none
      | some (buf, stream, cuts) => some (unbe (buf2.drop 4), buf, stream, cuts)

/-- What is read until a read fails, at most `n` messages. -/
def readAll : ℕ → List ℕ → Bytes → List (ℕ × Bytes) × Bool
  | 0, _, _ => ([], true)
  | n + 1, cuts, stream =>
    match sftpRead cuts stream with
    | none => ([], false)
    | some (type, buf, stream, cuts) =>
      let rest := readAll n cuts stream
      ((type, buf) :: rest.1, rest.2)

end Reading

section Writes

theorem advance_flatten (res : ℕ) (iov : List Bytes) :
    (advance res iov).flatten = iov.flatten.drop res := by
  induction iov generalizing res with
  | nil => simp [advance]
  | cons v iov ih =>
    unfold advance
    by_cases inside : res < v.length
    · rw [if_pos inside, List.flatten_cons, List.flatten_cons,
        List.drop_append_of_le_length (Nat.le_of_lt inside)]
    · rw [if_neg inside, ih, List.flatten_cons, List.drop_append,
        List.drop_of_length_le (Nat.not_lt.mp inside), List.nil_append]

/-- Where something is left, something is to be written. -/
theorem advance_cons {res : ℕ} {iov iov' : List Bytes} {v : Bytes}
    (h : advance res iov = v :: iov') : v ≠ [] := by
  induction iov generalizing res with
  | nil => cases h
  | cons w iov ih =>
    unfold advance at h
    by_cases inside : res < w.length
    · rw [if_pos inside] at h
      obtain ⟨rfl, -⟩ := List.cons.inj h
      rw [← List.length_pos_iff, List.length_drop]
      omega
    · rw [if_neg inside] at h
      exact ih h

/-- A write puts all of the vector on the wire, or it fails and has put less than all there. -/
theorem doWrite_wire {cuts : List ℕ} {iov : List Bytes} (some_ : ∀ v l, iov = v :: l → v ≠ []) :
    ((doWrite cuts iov).1 = 0 → (doWrite cuts iov).2.1 = iov.flatten) ∧
    ((doWrite cuts iov).1 ≠ 0 →
      ∃ w, w ≠ [] ∧ iov.flatten = (doWrite cuts iov).2.1 ++ w) := by
  induction cuts generalizing iov with
  | nil =>
    cases iov with
    | nil => exact ⟨fun _ => rfl, fun h => absurd rfl h⟩
    | cons v iov =>
      have failed : (doWrite [] (v :: iov)).1 = -1 := rfl
      rw [failed]
      refine ⟨fun h => absurd h (by decide), fun _ => ⟨(v :: iov).flatten, ?_, rfl⟩⟩
      rw [List.flatten_cons]
      exact List.append_ne_nil_of_left_ne_nil (some_ v iov rfl) _
  | cons n cuts ih =>
    cases iov with
    | nil => exact ⟨fun _ => rfl, fun h => absurd rfl h⟩
    | cons v iov =>
      have filled : (v :: iov).flatten ≠ [] := by
        rw [List.flatten_cons]
        exact List.append_ne_nil_of_left_ne_nil (some_ v iov rfl) _
      unfold doWrite
      by_cases failed : min n (v :: iov).flatten.length = 0
      · simp only [failed, if_true]
        exact ⟨fun h => absurd h (by decide), fun _ => ⟨_, filled, rfl⟩⟩
      · simp only [failed, if_false]
        have rest := @ih (advance (min n (v :: iov).flatten.length) (v :: iov))
          fun w l hw => advance_cons hw
        rw [advance_flatten] at rest
        constructor
        · intro done
          rw [rest.1 done, List.take_append_drop]
        · intro stopped
          obtain ⟨w, hw, tail⟩ := rest.2 stopped
          refine ⟨w, hw, ?_⟩
          rw [List.append_assoc, ← tail, List.take_append_drop]

theorem header_length (m : Message) : (header m).length = 9 := by
  simp [header, headerFields, Field.word]

theorem sftpSendIov_wire (cuts : List ℕ) (m : Message) :
    ((sftpSendIov cuts m).1 = 0 → (sftpSendIov cuts m).2.1 = frame m) ∧
    ((sftpSendIov cuts m).1 ≠ 0 → ∃ w, w ≠ [] ∧ frame m = (sftpSendIov cuts m).2.1 ++ w) := by
  apply doWrite_wire
  intro v l hv
  obtain ⟨rfl, -⟩ := List.cons.inj hv
  rw [← List.length_pos_iff, header_length]
  omega

/-- The wire has the frames of the messages in front of the first whose sending failed, a part of the
frame of that one, and what the later ones have put behind it. -/
theorem sendAll_wire (cuts : List ℕ) (ms : List Message) :
    sentWhole (sendAll cuts ms).1 ≤ ms.length ∧ ∃ torn cuts',
      (sendAll cuts ms).2 = (ms.take (sentWhole (sendAll cuts ms).1)).flatMap frame ++
        (torn ++ (sendAll cuts' (ms.drop (sentWhole (sendAll cuts ms).1 + 1))).2) ∧
      (sentWhole (sendAll cuts ms).1 = ms.length → torn = []) ∧
      ∀ m ∈ ms[sentWhole (sendAll cuts ms).1]?, ∃ w, w ≠ [] ∧ frame m = torn ++ w := by
  induction ms generalizing cuts with
  | nil => exact ⟨Nat.le_refl _, [], cuts, rfl, fun _ => rfl, fun m hm => by cases hm⟩
  | cons m ms ih =>
    obtain ⟨whole, part⟩ := sftpSendIov_wire cuts m
    by_cases sent : (sftpSendIov cuts m).1 = 0
    · have count : sentWhole (sendAll cuts (m :: ms)).1 =
          sentWhole (sendAll (sftpSendIov cuts m).2.2 ms).1 + 1 := by
        simp [sendAll, sentWhole, sent]
      obtain ⟨le, torn, cuts', wire, all, next⟩ := ih (sftpSendIov cuts m).2.2
      rw [count]
      refine ⟨Nat.succ_le_succ le, torn, cuts', ?_, ?_, ?_⟩
      · change (sftpSendIov cuts m).2.1 ++ (sendAll (sftpSendIov cuts m).2.2 ms).2 = _
        rw [List.take_succ_cons, List.flatMap_cons, List.drop_succ_cons, whole sent, wire,
          List.append_assoc]
      · intro full
        exact all (Nat.succ.inj full)
      · intro k hk
        exact next k hk
    · have count : sentWhole (sendAll cuts (m :: ms)).1 = 0 := by
        simp [sendAll, sentWhole, sent]
      obtain ⟨w, hw, hpart⟩ := part sent
      rw [count]
      refine ⟨Nat.zero_le _, _, (sftpSendIov cuts m).2.2, rfl, ?_, ?_⟩
      · intro full
        cases full
      · intro k hk
        obtain rfl : m = k := Option.some.inj hk
        exact ⟨w, hw, hpart⟩

end Writes

section Reads

/-- A read gets what is there if it is there, however it comes. -/
theorem doRead_run (got rest : Bytes) {cuts : List ℕ} (positive : ∀ n ∈ cuts, 0 < n)
    (enough : got.length ≤ cuts.length) : ∃ cuts', doRead cuts got.length (got ++ rest) =
      some (got, rest, cuts') ∧ (∀ n ∈ cuts', 0 < n) ∧ cuts.length ≤ cuts'.length + got.length := by
  induction cuts generalizing got with
  | nil =>
    obtain rfl := List.length_eq_zero_iff.mp (Nat.le_zero.mp enough)
    exact ⟨[], rfl, positive, Nat.le_refl _⟩
  | cons n cuts ih =>
    cases hgot : got with
    | nil => exact ⟨n :: cuts, rfl, positive, Nat.le_refl _⟩
    | cons c l =>
      have hn := positive n (List.mem_cons_self ..)
      have hlen : (c :: l).length = l.length + 1 := rfl
      rw [hgot, hlen, List.length_cons] at enough
      -- the first read takes `res` of the bytes
      let res := min n (min (l.length + 1) (c :: l ++ rest).length)
      have res_le : res ≤ l.length + 1 := by omega
      have res_pos : res ≠ 0 := by
        have : (c :: l ++ rest).length = l.length + 1 + rest.length := by
          rw [List.length_append, hlen]
        omega
      have left : ((c :: l).drop res).length = l.length + 1 - res := by
        rw [List.length_drop, hlen]
      obtain ⟨cuts', run, positive', enough'⟩ := ih ((c :: l).drop res)
        (fun k hk => positive k (List.mem_cons_of_mem _ hk)) (by omega)
      refine ⟨cuts', ?_, positive', ?_⟩
      · rw [hlen]
        unfold doRead
        change (if res = 0 then _ else _) = _
        rw [if_neg res_pos, List.drop_append_of_le_length (by rw [hlen]; exact res_le), ← left, run]
        simp only [Option.some.injEq, Prod.mk.injEq, and_true]
        rw [List.take_append_of_le_length (by rw [hlen]; exact res_le), List.take_append_drop]
      · rw [left] at enough'
        rw [hlen, List.length_cons]
        omega

/-- A read of more than is there fails. -/
theorem doRead_short {cuts : List ℕ} {size : ℕ} {stream : Bytes} (short : stream.length < size) :
    doRead cuts size stream = none := by
  induction cuts generalizing size stream with
  | nil =>
    cases size with
    | zero => cases short
    | succ size => rfl
  | cons n cuts ih =>
    cases size with
    | zero => cases short
    | succ size =>
      unfold doRead
      by_cases failed : min n (min (size + 1) stream.length) = 0
      · simp only [failed, if_true]
      · simp only [failed, if_false]
        rw [ih]
        rw [List.length_drop]
        omega

/-- What the reader of a message gets, the id with what follows it. -/
def received (m : Message) : ℕ × Bytes := (m.type, be 4 m.id ++ m.iov.flatten)

/-- A frame is five bytes that tell how long it is, and the rest. -/
theorem frame_eq (m : Message) :
    frame m = (be 4 (m.iov.flatten.length + 5) ++ be 1 m.type) ++ (received m).2 := by
  simp [frame, header, headerFields, Field.word, received]

theorem opening {m : Message} (proper : m.Proper) :
    unbe ((be 4 (m.iov.flatten.length + 5) ++ be 1 m.type).take 4) = (received m).2.length + 1 ∧
    unbe ((be 4 (m.iov.flatten.length + 5) ++ be 1 m.type).drop 4) = m.type := by
  have short : m.iov.flatten.length + 5 ≤ 2 ^ 17 := proper.short
  have type := proper.type
  have front : 4 = (be 4 (m.iov.flatten.length + 5)).length := (be_length 4 _).symm
  constructor
  · rw [List.take_left' front.symm, unbe_be, Nat.mod_eq_of_lt (by omega), received,
      List.length_append, be_length]
    omega
  · rw [List.drop_left' front.symm, unbe_be, Nat.mod_eq_of_lt (by omega)]

theorem sftpRead_run {m : Message} (proper : m.Proper) (rest : Bytes) {cuts : List ℕ}
    (positive : ∀ n ∈ cuts, 0 < n) (enough : (frame m).length ≤ cuts.length) :
    ∃ cuts', sftpRead cuts (frame m ++ rest) = some (m.type, (received m).2, rest, cuts') ∧
      (∀ n ∈ cuts', 0 < n) ∧ cuts.length ≤ cuts'.length + (frame m).length := by
  obtain ⟨len, type⟩ := opening proper
  have short : m.iov.flatten.length + 5 ≤ 2 ^ 17 := proper.short
  have five : (be 4 (m.iov.flatten.length + 5) ++ be 1 m.type).length = 5 := by
    rw [List.length_append, be_length, be_length]
  have body : (received m).2.length = m.iov.flatten.length + 4 := by
    rw [received, List.length_append, be_length, Nat.add_comm]
  have whole : (frame m).length = 5 + (received m).2.length := by
    rw [frame_eq, List.length_append, five]
  obtain ⟨cuts₁, run₁, positive₁, left₁⟩ :=
    doRead_run (be 4 (m.iov.flatten.length + 5) ++ be 1 m.type) ((received m).2 ++ rest) positive
      (by omega)
  obtain ⟨cuts₂, run₂, positive₂, left₂⟩ :=
    doRead_run (received m).2 rest positive₁ (by omega)
  refine ⟨cuts₂, ?_, positive₂, by omega⟩
  rw [five] at run₁
  have size : ((received m).2.length + 1 + (2 ^ 32 - 1)) % 2 ^ 32 = (received m).2.length := by
    omega
  have fits : ¬ MAX_REPLY_LEN < (received m).2.length + 1 := by
    change ¬ 2 ^ 17 < _
    omega
  unfold sftpRead
  rw [frame_eq, List.append_assoc, run₁]
  simp only [len, if_neg fits, size, run₂, type]

/-- Where the length of a torn frame is there, that much is read behind it. -/
theorem sftpRead_begun {m : Message} (proper : m.Proper) {cuts : List ℕ} {torn w later : Bytes}
    (positive : ∀ n ∈ cuts, 0 < n) (enough : (torn ++ later).length ≤ cuts.length)
    (part : frame m = torn ++ w) (begun : 5 ≤ torn.length) :
    ∃ cuts₁, (∀ n ∈ cuts₁, 0 < n) ∧ (torn.drop 5 ++ later).length ≤ cuts₁.length ∧
      sftpRead cuts (torn ++ later) =
        (doRead cuts₁ (received m).2.length (torn.drop 5 ++ later)).map fun x => (m.type, x) := by
  obtain ⟨len, type⟩ := opening proper
  have short : m.iov.flatten.length + 5 ≤ 2 ^ 17 := proper.short
  have five : (be 4 (m.iov.flatten.length + 5) ++ be 1 m.type).length = 5 := by
    rw [List.length_append, be_length, be_length]
  have body : (received m).2.length = m.iov.flatten.length + 4 := by
    rw [received, List.length_append, be_length, Nat.add_comm]
  have size : ((received m).2.length + 1 + (2 ^ 32 - 1)) % 2 ^ 32 = (received m).2.length := by
    omega
  have fits : ¬ MAX_REPLY_LEN < (received m).2.length + 1 := by
    change ¬ 2 ^ 17 < _
    omega
  have split : torn = (be 4 (m.iov.flatten.length + 5) ++ be 1 m.type) ++ torn.drop 5 := by
    have front := congrArg (List.take 5) part
    rw [frame_eq, List.take_left' five, List.take_append_of_le_length begun] at front
    rw [front, List.take_append_drop]
  rw [List.length_append] at enough
  obtain ⟨cuts₁, run₁, positive₁, left₁⟩ :=
    doRead_run (be 4 (m.iov.flatten.length + 5) ++ be 1 m.type) (torn.drop 5 ++ later) positive
      (by omega)
  rw [five, ← List.append_assoc, ← split] at run₁
  refine ⟨cuts₁, positive₁, ?_, ?_⟩
  · rw [List.length_append, List.length_drop]
    omega
  · unfold sftpRead
    rw [run₁]
    simp only [len, if_neg fits, size, type]
    cases doRead cuts₁ (received m).2.length (torn.drop 5 ++ later) with
    | none => rfl
    | some x => rfl

/-- What a reader makes of a frame that is cut off, with other bytes behind it. Where its five first
bytes are there, the rest of it is taken from what follows; where nothing follows, or not enough, it
is no message. -/
structure Spoilt (m : Message) (torn missing later : Bytes) (reads : List ℕ) : Prop where
  filled : 5 ≤ torn.length → missing.length ≤ later.length → ∃ reads',
    sftpRead reads (torn ++ later) = some (m.type, torn.drop 5 ++ later.take missing.length,
      later.drop missing.length, reads')
  short : 5 ≤ torn.length → later.length < missing.length → sftpRead reads (torn ++ later) = none
  alone : later = [] → sftpRead reads (torn ++ later) = none

theorem sftpRead_torn {m : Message} (proper : m.Proper) {cuts : List ℕ} {torn w later : Bytes}
    (positive : ∀ n ∈ cuts, 0 < n) (enough : (torn ++ later).length ≤ cuts.length)
    (missing : w ≠ []) (part : frame m = torn ++ w) : Spoilt m torn w later cuts := by
  have begun := @sftpRead_begun m proper cuts torn w later positive enough part
  have whole : (frame m).length = 5 + (received m).2.length := by
    rw [frame_eq, List.length_append, List.length_append, be_length, be_length]
  have less := List.length_pos_iff.mpr missing
  have sum := congrArg List.length part
  rw [List.length_append, whole] at sum
  have short : 5 ≤ torn.length → later.length < w.length →
      sftpRead cuts (torn ++ later) = none := by
    intro five_there lacking
    obtain ⟨cuts₁, -, -, run⟩ := begun five_there
    have lack : (torn.drop 5 ++ later).length < (received m).2.length := by
      rw [List.length_append, List.length_drop]
      omega
    rw [run, doRead_short lack]
    rfl
  constructor
  case filled =>
    intro five_there room
    obtain ⟨cuts₁, positive₁, left₁, run⟩ := begun five_there
    have parts : torn.drop 5 ++ later =
        (torn.drop 5 ++ later.take w.length) ++ later.drop w.length := by
      rw [List.append_assoc, List.take_append_drop]
    have length : (torn.drop 5 ++ later.take w.length).length = (received m).2.length := by
      rw [List.length_append, List.length_drop, List.length_take]
      omega
    rw [List.length_append] at left₁
    obtain ⟨cuts₂, run₂, -⟩ := doRead_run (torn.drop 5 ++ later.take w.length)
      (later.drop w.length) positive₁ (by rw [List.length_append, List.length_take]; omega)
    refine ⟨cuts₂, ?_⟩
    rw [run, parts, ← length, run₂]
    rfl
  case short => exact short
  case alone =>
    rintro rfl
    by_cases five_there : 5 ≤ torn.length
    · exact short five_there less
    · unfold sftpRead
      rw [doRead_short]
      rw [List.append_nil]
      exact Nat.lt_of_not_le five_there

/-- A reader gets the whole messages, and goes on with what is behind them. -/
theorem readAll_run {ms : List Message} (proper : ∀ m ∈ ms, m.Proper) (rest : Bytes)
    {cuts : List ℕ} (positive : ∀ n ∈ cuts, 0 < n)
    (enough : (ms.flatMap frame ++ rest).length ≤ cuts.length) :
    ∃ cuts', (∀ n ∈ cuts', 0 < n) ∧ rest.length ≤ cuts'.length ∧
      ∀ n, readAll (ms.length + n) cuts (ms.flatMap frame ++ rest) =
        (ms.map received ++ (readAll n cuts' rest).1, (readAll n cuts' rest).2) := by
  induction ms generalizing cuts with
  | nil =>
    refine ⟨cuts, positive, enough, fun n => ?_⟩
    rw [List.length_nil, Nat.zero_add]
    rfl
  | cons m ms ih =>
    have here := proper m (List.mem_cons_self ..)
    rw [List.flatMap_cons, List.append_assoc, List.length_append] at enough
    obtain ⟨cuts₁, run, positive₁, left⟩ :=
      sftpRead_run here (ms.flatMap frame ++ rest) positive (by omega)
    obtain ⟨cuts', positive', enough', all⟩ :=
      ih (fun x hx => proper x (List.mem_cons_of_mem _ hx)) positive₁ (by omega)
    refine ⟨cuts', positive', enough', fun n => ?_⟩
    have turns : (m :: ms).length + n = ms.length + n + 1 := by
      rw [List.length_cons]
      omega
    rw [List.flatMap_cons, List.append_assoc, turns, readAll, run]
    simp only [all]
    rfl

/-- The second of three messages breaks off before its last byte, and the third is sent behind it. -/
def threeMessages : List Message :=
  [⟨7, 1, [[47]]⟩, ⟨11, 3, [[47, 98, 99, 100, 101]]⟩, ⟨17, 2, [[47, 97]]⟩]

/-- The reader takes the first byte of the third message for the last of the second. -/
example : readAll 2 (List.replicate 40 3) (sendAll [4, 6, 13, 0, 11] threeMessages).2 =
    ([(7, [0, 0, 0, 1, 47]), (11, [0, 0, 0, 3, 47, 98, 99, 100, 0])], true) := by decide

end Reads

end SftpFrames
