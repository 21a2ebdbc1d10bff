import DirectFuse.BootArgs

/-! The loop over the commands of a boot script. It reads the script to its end, the token buffer
has room for every command, and nothing stops it but a fault of a command itself. -/
namespace BootLoop

open ExecLogic ByteRange Cutting SysioState SysioInit BootTokens BootArgs

variable {S α β : Type} {w : Works S} {mem : Memory} {p q : Ptr} {str : Bytes} {s t : Boot S}

section Places

/-- Writing is not ahead of reading. -/
def Behind (tbuf buf : Ptr) : Prop := tbuf.buffer = buf.buffer ∧ tbuf.off ≤ buf.off

/-- The turns that the loop of `_sysio_get_token` takes from a place on. -/
inductive Turns (delim ignore : Bytes) : Place → Boot S → Place → Boot S → Prop where
  | refl (x : Place) (s : Boot S) : Turns delim ignore x s x s
  | tail {x y z : Place} {s t u : Boot S} : Turns delim ignore x s y t →
      tokenTurn delim ignore y t = .ok (.on z, u) → Turns delim ignore x s z u

theorem Behind.read (h : Behind p q) : Behind p (q.add 1) := ⟨h.1, Nat.le_succ_of_le h.2⟩

theorem Behind.copied (h : Behind p q) : Behind (p.add 1) (q.add 1) := ⟨h.1, Nat.succ_le_succ h.2⟩

/-- A turn reads a byte and writes one at most, so that writing stays behind reading, whether the
loop goes on or ends. -/
theorem tokenTurn_behind {delim ignore : Bytes} {x : Place} {turned : Turned}
    (behind : Behind x.tbuf x.buf) (next : tokenTurn delim ignore x s = .ok (turned, t)) :
    match turned with
    | .on y => Behind y.tbuf y.buf
    | .out buf tbuf _ => Behind tbuf buf := by
  obtain ⟨c, s₁, first, rest⟩ := bind_ok.mp next
  by_cases h₀ : c = 0
  · rw [if_pos h₀] at rest
    obtain ⟨rfl, -⟩ := pure_ok.mp rest
    exact behind
  rw [if_neg h₀] at rest
  by_cases h₁ : ¬ x.escape ∧ c = BACKSLASH
  · rw [if_pos h₁] at rest
    obtain ⟨rfl, -⟩ := pure_ok.mp rest
    exact behind.read
  rw [if_neg h₁] at rest
  by_cases h₂ : ¬ x.escape ∧ c = QUOTE
  · rw [if_pos h₂] at rest
    obtain ⟨rfl, -⟩ := pure_ok.mp rest
    exact behind.read
  rw [if_neg h₂] at rest
  by_cases h₃ : ¬ x.escape ∧ ¬ x.quote ∧ c ∈ delim
  · rw [if_pos h₃] at rest
    obtain ⟨rfl, -⟩ := pure_ok.mp rest
    exact behind.read
  rw [if_neg h₃] at rest
  by_cases h₄ : ¬ x.escape ∧ ¬ x.quote ∧ c ∈ ignore
  · rw [if_pos h₄] at rest
    obtain ⟨rfl, -⟩ := pure_ok.mp rest
    exact behind.read
  rw [if_neg h₄] at rest
  obtain ⟨u, s₂, set, rest⟩ := bind_ok.mp rest
  obtain ⟨rfl, -⟩ := pure_ok.mp rest
  exact behind.copied

/-- Writing is behind reading at the beginning of every turn. -/
theorem turns_behind {delim ignore : Bytes} {x y : Place}
    (turns : Turns delim ignore x s y t) (behind : Behind x.tbuf x.buf) : Behind y.tbuf y.buf := by
  induction turns with
  | refl => exact behind
  | tail _ next ih => exact tokenTurn_behind ih next

/-- And it is behind reading where the loop ends, which is where the NUL goes. -/
theorem getTokenLoop_behind {delim ignore : Bytes} (fuel : ℕ) {x : Place} {buf tbuf : Ptr}
    {found : Bool} (behind : Behind x.tbuf x.buf)
    (run : getTokenLoop delim ignore fuel x s = .ok ((buf, tbuf, found), t)) : Behind tbuf buf := by
  induction fuel generalizing x s with
  | zero => cases run
  | succ fuel ih =>
    obtain ⟨turned, s₁, next, rest⟩ := bind_ok.mp run
    have there := tokenTurn_behind behind next
    cases turned with
    | on y => exact ih there rest
    | out buf tbuf found =>
      obtain ⟨same, -⟩ := pure_ok.mp rest
      cases same
      exact there

end Places

section Commands

/-- What the boot loop finds in a text: the end, no command, the text behind a comment, or a command
and the text behind it. -/
inductive Scanned where
  | done
  | malformed
  | comment (rest : Bytes)
  | command (token rest : Bytes)
  deriving DecidableEq, Repr

/-- The body of a command, from behind its opening brace. -/
def commandCut (str : Bytes) : Cut UInt8 := cut marks [CLOSE_BRACE] IGNORE_WHITE false false str

def inComment (c : UInt8) : Bool := c ≠ 0 ∧ c ≠ NEWLINE

/-- What the text is from its first byte on that is no white space. -/
def scanHere : Bytes → Scanned
  | [] => .done
  | c :: str =>
    if c = COMMENT_INTRO then .comment ((c :: str).dropWhile inComment)
    else if c ≠ OPEN_BRACE then .malformed
    else if (commandCut str).found then .command (commandCut str).token (commandCut str).rest
    else .malformed

def scanNext (str : Bytes) : Scanned := scanHere (str.dropWhile (· ∈ IGNORE_WHITE))

theorem takeWhile_front {test : UInt8 → Bool} (nul : test 0 = false) (str rest : Bytes) :
    (str ++ 0 :: rest).takeWhile test = str.takeWhile test := by
  induction str with
  | nil => simp [nul]
  | cons c str ih =>
    rw [List.cons_append, List.takeWhile_cons, List.takeWhile_cons, ih]

/-- Stepping over bytes of a string. -/
theorem skipWhile_run {test : UInt8 → Bool} (nul : test 0 = false) (text : Text s.mem p str) :
    skipWhile test p s = .ok (p.add (str.length - (str.dropWhile test).length), s) := by
  obtain ⟨rest, split⟩ := text.split
  have parts := congrArg List.length (List.takeWhile_append_dropWhile (p := test) (l := str))
  rw [List.length_append] at parts
  apply read_ok.mpr
  refine ⟨?_, rfl⟩
  rw [split, takeWhile_front nul]
  congr 1
  omega

/-- The script and the length of the token buffer are as they were. -/
def Keeps (s t : Boot S) : Prop :=
  t.mem .arg = s.mem .arg ∧ (t.mem .tok).length = (s.mem .tok).length

theorem Keeps.refl (s : Boot S) : Keeps s s := ⟨rfl, rfl⟩

theorem Keeps.trans {u : Boot S} (h : Keeps s t) (h' : Keeps t u) : Keeps s u :=
  ⟨h'.1.trans h.1, h'.2.trans h.2⟩

/-- What a turn of the boot loop finds: nothing, a comment up to the rest of the text, or a command
in the token buffer. -/
def FoundAt (p : Ptr) (str : Bytes) (found : Found) (s t : Boot S) : Scanned → Prop
  | .done => found = .done ∧ t = s
  | .malformed => found = .malformed ∧ t.sys = s.sys ∧ Keeps s t
  | .comment rest => found = .comment (p.add (str.length - rest.length)) ∧ t = s
  | .command token rest => found = .command (p.add (str.length - rest.length)) ∧ t.sys = s.sys ∧
      Text t.mem tok token ∧ Keeps s t

theorem scanHere_cons (c : UInt8) (str : Bytes) :
    scanHere (c :: str) =
      if c = COMMENT_INTRO then .comment ((c :: str).dropWhile inComment)
      else if c ≠ OPEN_BRACE then .malformed
      else if (commandCut str).found then .command (commandCut str).token (commandCut str).rest
      else .malformed := rfl

/-- The text behind what was found, if the loop goes on. -/
def Scanned.behind : Scanned → Option Bytes
  | .done => none
  | .malformed => none
  | .comment rest => some rest
  | .command _ rest => some rest

theorem scanHere_behind {str rest : Bytes} (h : (scanHere str).behind = some rest) :
    rest <:+ str ∧ rest.length < str.length := by
  cases str with
  | nil => cases h
  | cons c str =>
    have one : str <:+ c :: str := List.suffix_cons c str
    rw [scanHere_cons] at h
    by_cases comment : c = COMMENT_INTRO
    · have stays : inComment c = true := by
        rw [comment]
        decide
      rw [if_pos comment, List.dropWhile_cons_of_pos stays] at h
      obtain rfl := Option.some.inj h
      have later : str.dropWhile inComment <:+ str := List.dropWhile_suffix _
      exact ⟨later.trans one, Nat.lt_succ_of_le later.length_le⟩
    rw [if_neg comment] at h
    by_cases brace : c ≠ OPEN_BRACE
    · rw [if_pos brace] at h
      cases h
    rw [if_neg brace] at h
    by_cases found : (commandCut str).found
    · rw [if_pos found] at h
      obtain rfl := Option.some.inj h
      have later : (commandCut str).rest <:+ str := cut_rest _ _ _ false false str
      exact ⟨later.trans one, Nat.lt_succ_of_le later.length_le⟩
    · rw [if_neg found] at h
      cases h

theorem scanNext_behind {str rest : Bytes} (h : (scanNext str).behind = some rest) :
    rest <:+ str ∧ rest.length < str.length := by
  have skipped : str.dropWhile (· ∈ IGNORE_WHITE) <:+ str := List.dropWhile_suffix _
  obtain ⟨later, less⟩ := scanHere_behind h
  exact ⟨later.trans skipped, less.trans_le skipped.length_le⟩

/-- A place in a string, reached in two steps. -/
theorem add_suffix {str mid rest : Bytes} (p : Ptr) (h : mid <:+ str) (h' : rest <:+ mid) :
    (p.add (str.length - mid.length)).add (mid.length - rest.length) =
      p.add (str.length - rest.length) := by
  have := h.length_le
  have := h'.length_le
  rw [Ptr.add_add]
  congr 1
  omega

/-- What is put into the token buffer leaves the script and the length of the buffer. -/
theorem put_keeps (s : Boot S) {bytes : Bytes}
    (room : tok.off + bytes.length ≤ (s.mem tok.buffer).length) :
    Keeps s { s with mem := put s.mem tok bytes } := by
  have apart : Buffer.arg ≠ tok.buffer := by decide
  constructor
  · exact Function.update_of_ne apart (store 0 (s.mem tok.buffer) tok.off bytes) s.mem
  · exact put_length room .tok

/-- A turn of the boot loop finds what its text is, when the token buffer is as long as the text. -/
theorem nextCommand_finds (text : Text s.mem p str) (arg : p.buffer = .arg)
    (room : max str.length 1 ≤ (s.mem .tok).length) :
    ∃ found t, nextCommand p s = .ok (found, t) ∧ FoundAt p str found s t (scanNext str) := by
  have skipped : str.dropWhile (· ∈ IGNORE_WHITE) <:+ str := List.dropWhile_suffix _
  have nul : decide ((0 : UInt8) ∈ IGNORE_WHITE) = false := by decide
  have here := text.drop skipped
  have short := skipped.length_le
  unfold nextCommand scanNext
  rw [bind_run (skipWhile_run nul text)]
  cases rest : str.dropWhile (· ∈ IGNORE_WHITE) with
  | nil =>
    rw [rest] at here
    rw [bind_run (byteAt_run here.stop), if_neg (by decide), if_pos rfl]
    exact ⟨_, s, rfl, rfl, rfl⟩
  | cons c later =>
    rw [rest] at here skipped short
    rw [bind_run (byteAt_run here.head), scanHere_cons]
    by_cases comment : c = COMMENT_INTRO
    · rw [if_pos comment, if_pos comment]
      have ends : inComment 0 = false := by decide
      have behind : (c :: later).dropWhile inComment <:+ c :: later := List.dropWhile_suffix _
      rw [show (fun c => decide (c ≠ 0 ∧ c ≠ NEWLINE)) = inComment from rfl,
        bind_run (skipWhile_run ends here), add_suffix p skipped behind]
      exact ⟨_, s, rfl, rfl, rfl⟩
    have full : c ≠ 0 := fun h => here.noNul (h ▸ List.mem_cons_self)
    rw [if_neg comment, if_neg comment, if_neg full]
    by_cases brace : c ≠ OPEN_BRACE
    · rw [if_pos brace, if_pos brace]
      exact ⟨_, s, rfl, rfl, rfl, Keeps.refl s⟩
    rw [if_neg brace, if_neg brace]
    rw [List.length_cons] at short
    have first : tok.off < (s.mem tok.buffer).length := by
      change 0 < (s.mem .tok).length
      omega
    have one : tok.off + [(0 : UInt8)].length ≤ (s.mem tok.buffer).length := first
    have cleared := put_keeps s one
    have apart : tok.buffer = ((p.add (str.length - (c :: later).length)).add 1).buffer →
        tok.off ≤ ((p.add (str.length - (c :: later).length)).add 1).off := fun _ => Nat.zero_le _
    have body : Text (put s.mem tok [0]) ((p.add (str.length - (c :: later).length)).add 1)
        later := by
      apply (put_within s.mem tok [0] one).text here.tail
      intro same
      rw [Ptr.add_buffer, Ptr.add_buffer, arg] at same
      cases same
    have inside := cut_length marks [CLOSE_BRACE] IGNORE_WHITE false false later
    have fits : tok.off + (cut marks [CLOSE_BRACE] IGNORE_WHITE false false later).token.length <
        (put s.mem tok [0] tok.buffer).length := by
      rw [put_length one]
      change 0 + _ < (s.mem .tok).length
      omega
    have run := sysioGetToken_cut (s := { s with mem := put s.mem tok [0] }) [CLOSE_BRACE]
      IGNORE_WHITE tok false body apart fits
    rw [Bool.false_or] at run
    change _ = if (commandCut later).found = true then _ else _ at run
    rw [bind_run (setByte_run 0 first)]
    by_cases found : (commandCut later).found
    · rw [if_pos found] at run
      rw [bind_run run, if_pos found]
      have tail : later <:+ c :: later := List.suffix_cons c later
      have behind : (commandCut later).rest <:+ later := cut_rest _ _ _ false false later
      have step : ((p.add (str.length - (c :: later).length)).add 1).add
          (later.length - (commandCut later).rest.length) =
          p.add (str.length - (commandCut later).rest.length) := by
        have one_more := add_suffix p skipped tail
        rw [List.length_cons, Nat.add_sub_cancel_left] at one_more
        rw [List.length_cons, one_more]
        exact add_suffix p (tail.trans skipped) behind
      change ∃ found t, (pure (Found.command (((p.add (str.length - (c :: later).length)).add
        1).add (later.length - (commandCut later).rest.length))) : Booting S Found) _ =
        .ok (found, t) ∧ _
      rw [step]
      have noNul : 0 ∉ (commandCut later).token := fun h => body.noNul (mem_token h)
      have grown : tok.off + ((commandCut later).token ++ [0]).length ≤
          (put s.mem tok [0] tok.buffer).length := by
        rw [List.length_append]
        exact fits
      refine ⟨_, _, rfl, rfl, rfl, put_text _ tok noNul, ?_⟩
      exact cleared.trans (put_keeps { s with mem := put s.mem tok [0] } grown)
    · rw [if_neg found] at run
      rw [bind_run run, if_neg found]
      refine ⟨_, _, rfl, rfl, rfl, ?_⟩
      exact cleared.trans (put_keeps { s with mem := put s.mem tok [0] } fits.le)

/-- The command of a name. -/
def commandOf (name : Bytes) : Option Command :=
  if name = Command.creat.name then some .creat
  else if name = Command.mnt.name then some .mnt
  else if name = Command.chmd.name then some .chmd
  else if name = Command.open_.name then some .open_
  else none

theorem commandOf_name (cmd : Command) : commandOf cmd.name = some cmd := by
  cases cmd <;> decide

/-- The command in a buffer and the values of its options, when its name is known and its arguments
are accepted. -/
def handed (buf : Ptr) : Booting S (Option (Command × List (Option Ptr))) := do
  match ← sysioGetToken buf true [COMMA] IGNORE_WHITE buf with
  | none => return none
  | some args =>
    let name ← cString buf
    match commandOf name with
    | none => return none
    | some cmd =>
      let values ← acceptedArgs cmd args
      return values.map fun v => (cmd, v)

def performGiven (w : Works S) : Option (Command × List (Option Ptr)) → Booting S ℤ
  | none => pure (-EINVAL)
  | some (cmd, values) => perform w cmd values

theorem doArgs_eq (w : Works S) (cmd : Command) (args : Ptr) :
    doArgs w cmd args = (do
      let values ← acceptedArgs cmd args
      performGiven w (values.map fun v => (cmd, v))) := by
  apply bind_congr
  intro values
  cases values <;> rfl

/-- `do_command` performs the command that is handed to it. -/
theorem doCommand_eq (w : Works S) (buf : Ptr) :
    doCommand w buf = handed buf >>= performGiven w := by
  unfold doCommand handed
  rw [bind_assoc]
  apply bind_congr
  intro args
  cases args with
  | none => rfl
  | some args =>
    dsimp only
    rw [bind_assoc]
    apply bind_congr
    intro name
    have one : ∀ cmd, doArgs w cmd args =
        (acceptedArgs cmd args >>= fun values => pure (values.map fun v => (cmd, v))) >>=
          performGiven w := by
      intro cmd
      rw [doArgs_eq, bind_assoc]
      rfl
    unfold commandOf
    split_ifs
    · exact one .creat
    · exact one .mnt
    · exact one .chmd
    · exact one .open_
    · rfl

theorem keeps_of_within {n : ℕ} (h : Within p n s.mem t.mem) (there : p.buffer = .tok) :
    Keeps s t := by
  refine ⟨List.ext_getElem? fun i => ?_, h.length .tok⟩
  apply h.same
  intro same
  rw [there] at same
  cases same

theorem unset_names (names : List Bytes) : (unset names).map OptionValue.name = names := by
  rw [unset, List.map_map]
  exact List.map_id names

/-- What a command sees of the options: the last value of each, unless that is empty. -/
def optionsSeen (names : List Bytes) (args : List (Bytes × Bytes)) : List (Option Bytes) :=
  names.map fun n => (lastValue args n).filter (· ≠ [])

def Shows (mem : Memory) : Option Ptr → Option Bytes → Prop
  | none, none => True
  | some p, some v => p.buffer = .tok ∧ Text mem p v
  | _, _ => False

/-- The values are the strings, each in a place of its own in the token buffer. -/
structure Shown (mem : Memory) (values : List (Option Ptr)) (strs : List (Option Bytes)) :
    Prop where
  strings : List.Forall₂ (Shows mem) values strs
  apart : values.Pairwise fun v v' => ∀ p q, v = some p → v' = some q → Apart mem p q

theorem shown_of_set {names : List Bytes} {args : List (Bytes × Bytes)} {vec : List OptionValue}
    {n : ℕ} (set : SetBy mem args (unset names) vec) (rows : Rows mem ⟨.tok, n⟩ vec)
    (nodup : names.Nodup) : Shown mem (vec.map OptionValue.value) (optionsSeen names args) := by
  have len : vec.length = names.length := by
    have := congrArg List.length set.names
    rwa [List.length_map, unset_names] at this
  have placed : ∀ (i : ℕ) (h : i < names.length), place (unset names) names[i] = i := by
    intro i h
    rw [place, unset_names]
    exact nodup.idxOf_getElem i h
  constructor
  case strings =>
    apply List.forall₂_iff_get.mpr
    refine ⟨by simp [optionsSeen, len], fun i h₁ h₂ => ?_⟩
    have h : i < names.length := by simpa [optionsSeen] using h₂
    have hv : i < vec.length := len ▸ h
    simp only [optionsSeen, List.get_eq_getElem, List.getElem_map]
    cases given : lastValue args names[i] with
    | some v =>
      obtain ⟨o, there, -, denotes⟩ := set.named names[i] v given
      rw [placed i h, List.getElem?_eq_getElem hv] at there
      obtain rfl := Option.some.inj there
      cases value : vec[i].value with
      | none =>
        rw [value] at denotes
        rw [show v = [] from denotes]
        trivial
      | some p =>
        rw [value] at denotes
        obtain ⟨nonempty, text⟩ := denotes
        rw [Option.filter_some_pos (by simpa using nonempty)]
        exact ⟨(rows.row vec[i] (List.getElem_mem hv) p value).1, text⟩
    | none =>
      have same : vec[i]? = (unset names)[i]? := by
        apply set.others
        intro name v hname same
        rw [place, unset_names] at same
        have there : names.idxOf name < names.length := by
          rw [same]
          exact h
        have found := List.getElem_idxOf there
        simp only [same] at found
        rw [found, hname] at given
        cases given
      have value : vec[i].value = none := by
        rw [List.getElem?_eq_getElem hv, unset, List.getElem?_map, List.getElem?_eq_getElem h]
          at same
        rw [Option.some.inj same]
      rw [value]
      trivial
  case apart =>
    apply List.pairwise_iff_getElem.mpr
    intro i j hi hj less p q hp hq
    rw [List.length_map] at hi hj
    rw [List.getElem_map] at hp hq
    exact rows.apart i j vec[i] vec[j] (Nat.ne_of_lt less) (List.getElem?_eq_getElem hi)
      (List.getElem?_eq_getElem hj) p q hp hq

theorem options_nodup (cmd : Command) : cmd.options.Nodup := by
  cases cmd <;> decide

/-- The command of a string and what it sees of its options, if its arguments are read to their
end. -/
def commandGiven (str : Bytes) : Option (Command × List (Option Bytes)) :=
  (commandOf (valueCut str).token).bind fun cmd =>
    if (argsOf cmd.options (valueCut str).rest).2 = some [] then
      some (cmd, optionsSeen cmd.options (argsOf cmd.options (valueCut str).rest).1)
    else none

/-- What is handed over are the strings that are given. -/
inductive Handing (mem : Memory) : Option (Command × List (Option Ptr)) →
    Option (Command × List (Option Bytes)) → Prop where
  | none : Handing mem none none
  | some (cmd : Command) {values : List (Option Ptr)} {strs : List (Option Bytes)} :
      Shown mem values strs → Handing mem (some (cmd, values)) (some (cmd, strs))

theorem acceptedArgs_reads {args : Ptr} (cmd : Command) (text : Text s.mem args str)
    (there : args.buffer = .tok) : ∃ given t, acceptedArgs cmd args s = .ok (given, t) ∧
      t.sys = s.sys ∧ Keeps s t ∧
      if (argsOf cmd.options str).2 = some [] then ∃ values, given = some values ∧
        Shown t.mem values (optionsSeen cmd.options (argsOf cmd.options str).1)
      else given = none := by
  obtain ⟨vec, t, run, sys, within, set, rows⟩ := sysioGetArgs_reads text (unset cmd.options)
  rw [unset_names] at run set
  have whole := @read_whole args str (argsOf cmd.options str).2 fun l => argsOf_length
  rw [acceptedArgs, bind_run (strlen_run text), bind_run run]
  dsimp only
  by_cases all : (argsOf cmd.options str).2 = some []
  · rw [if_neg (not_not.mpr (whole.mpr all))]
    refine ⟨_, t, rfl, sys, keeps_of_within within there, ?_⟩
    rw [if_pos all]
    have rows' := rows (Rows.unset cmd.options)
    have place : args.add str.length = ⟨.tok, args.off + str.length⟩ := by
      rw [Ptr.add, there]
    rw [place] at rows'
    exact ⟨_, rfl, shown_of_set set rows' (options_nodup cmd)⟩
  · rw [if_pos fun h => all (whole.mp h)]
    refine ⟨_, t, rfl, sys, keeps_of_within within there, ?_⟩
    rw [if_neg all]

theorem handed_reads (text : Text s.mem tok str) : ∃ given t, handed tok s = .ok (given, t) ∧
    t.sys = s.sys ∧ Keeps s t ∧ Handing t.mem given (commandGiven str) := by
  obtain ⟨s₁, cutRun, sys₁, within₁, word, args⟩ := sysioGetToken_inPlace [COMMA] IGNORE_WHITE text
  change Text s₁.mem tok (valueCut str).token at word
  change Text s₁.mem (tok.add (str.length - (valueCut str).rest.length)) (valueCut str).rest at args
  rw [handed, bind_run cutRun]
  dsimp only
  rw [bind_run (cString_run word)]
  unfold commandGiven
  have keeps := keeps_of_within within₁ rfl
  cases known : commandOf (valueCut str).token with
  | none => exact ⟨none, s₁, rfl, sys₁, keeps, Handing.none⟩
  | some cmd =>
    obtain ⟨given, t, run, sys, keeps', reads⟩ := acceptedArgs_reads cmd args rfl
    refine ⟨given.map fun v => (cmd, v), t, bind_run run, sys.trans sys₁, keeps.trans keeps', ?_⟩
    rw [Option.bind_some]
    by_cases all : (argsOf cmd.options (valueCut str).rest).2 = some []
    · rw [if_pos all] at reads ⊢
      obtain ⟨values, rfl, shown⟩ := reads
      exact Handing.some cmd shown
    · rw [if_neg all] at reads ⊢
      rw [reads]
      exact Handing.none

end Commands

section Meaning

/-- Runs like a computation on the library alone, and keeps the script and the buffer's length. -/
def Agrees (m : Booting S α) (s : Boot S) (m' : Exec S Fault α) : Prop :=
  match m' s.sys with
  | .ok (a, sys) => ∃ t, m s = .ok (a, t) ∧ t.sys = sys ∧ Keeps s t
  | .error f => m s = .error f

/-- Runs that go on alike agree from the beginning. -/
theorem Agrees.after {m n : Booting S α} {m' n' : Exec S Fault α} (h : Agrees m t m')
    (keeps : Keeps s t) (step : n s = m t) (step' : n' s.sys = m' t.sys) : Agrees n s n' := by
  unfold Agrees at h ⊢
  rw [step', step]
  cases done : m' t.sys with
  | error f =>
    rw [done] at h
    exact h
  | ok r =>
    rw [done] at h
    obtain ⟨u, run, sys, keeps'⟩ := h
    exact ⟨u, run, sys, keeps.trans keeps'⟩

def colonCut (str : Bytes) : Cut UInt8 := cut marks [COLON] [] false false str

/-- What a command does with the strings that are given to it. -/
def deliver (w : Works S) (cmd : Command) (strs : List (Option Bytes)) : Exec S Fault ℤ :=
  if (strs.take cmd.required).any Option.isNone then pure (-EINVAL)
  else match cmd, strs with
    | .mnt, some dev :: rest => w.mnt (colonCut dev).rest (colonCut dev).token rest
    | .mnt, _ => pure (-EINVAL)
    | .creat, strs => w.creat strs
    | .chmd, strs => w.chmd strs
    | .open_, strs => w.open_ strs

def deliverGiven (w : Works S) : Option (Command × List (Option Bytes)) → Exec S Fault ℤ
  | none => pure (-EINVAL)
  | some (cmd, strs) => deliver w cmd strs

/-- What a script does. -/
def meaning (w : Works S) : ℕ → Bytes → Exec S Fault ℤ
  | 0, _ => pure 0
  | fuel + 1, str =>
    match scanNext str with
    | .done => pure 0
    | .malformed => pure (-EINVAL)
    | .comment rest => meaning w fuel rest
    | .command token rest => do
      let err ← deliverGiven w (commandGiven token)
      if err ≠ 0 then pure err else meaning w fuel rest

theorem optionStrings_run {values : List (Option Ptr)} {strs : List (Option Bytes)}
    (h : List.Forall₂ (Shows s.mem) values strs) : optionStrings values s = .ok (strs, s) := by
  induction h with
  | nil => rfl
  | @cons value str values strs shows _ ih =>
    have one : optionString value s = .ok (str, s) := by
      cases value with
      | none =>
        cases str with
        | none => rfl
        | some v => exact absurd shows id
      | some p =>
        cases str with
        | none => exact absurd shows id
        | some v => exact bind_run (cString_run shows.2)
    rw [optionStrings, bind_run one, bind_run ih]
    rfl

theorem any_none {values : List (Option Ptr)} {strs : List (Option Bytes)} (n : ℕ)
    (h : List.Forall₂ (Shows mem) values strs) :
    (values.take n).any Option.isNone = (strs.take n).any Option.isNone := by
  induction h generalizing n with
  | nil => rw [List.take_nil, List.take_nil, List.any_nil, List.any_nil]
  | @cons value str values strs shows _ ih =>
    cases n with
    | zero => rfl
    | succ n =>
      have one : value.isNone = str.isNone := by
        cases value with
        | none =>
          cases str with
          | none => rfl
          | some v => exact absurd shows id
        | some p =>
          cases str with
          | none => exact absurd shows id
          | some v => rfl
      rw [List.take_succ_cons, List.take_succ_cons, List.any_cons, List.any_cons, one, ih]

/-- Cutting one string in place leaves the strings that are elsewhere. -/
theorem strings_kept {n : ℕ} {dev : Bytes} {values : List (Option Ptr)}
    {strs : List (Option Bytes)} (h : List.Forall₂ (Shows mem) values strs)
    (text : Text mem p dev) {mem' : Memory} (within : Within p n mem mem') (len : n = dev.length)
    (apart : ∀ v ∈ values, ∀ q, v = some q → Apart mem p q) :
    List.Forall₂ (Shows mem') values strs := by
  induction h with
  | nil => exact List.Forall₂.nil
  | @cons value str values strs shows _ ih =>
    refine List.Forall₂.cons ?_ (ih fun v hv => apart v (List.mem_cons_of_mem _ hv))
    cases value with
    | none =>
      cases str with
      | none => trivial
      | some v => exact absurd shows id
    | some q =>
      cases str with
      | none => exact absurd shows id
      | some v =>
        refine ⟨shows.1, within.text shows.2 fun _ => ?_⟩
        have away := apart (some q) List.mem_cons_self q rfl dev v text shows.2
        omega

/-- A command does with its values what it does with their strings. -/
theorem perform_delivers (w : Works S) (cmd : Command) {values : List (Option Ptr)}
    {strs : List (Option Bytes)} (shown : Shown s.mem values strs) :
    ∃ t, perform w cmd values s = onSys (deliver w cmd strs) t ∧ t.sys = s.sys ∧ Keeps s t := by
  unfold perform deliver
  rw [any_none cmd.required shown.strings]
  by_cases missing : (strs.take cmd.required).any Option.isNone
  · rw [if_pos missing, if_pos missing]
    exact ⟨s, rfl, rfl, Keeps.refl s⟩
  rw [if_neg missing, if_neg missing]
  cases cmd with
  | creat => exact ⟨s, bind_run (optionStrings_run shown.strings), rfl, Keeps.refl s⟩
  | chmd => exact ⟨s, bind_run (optionStrings_run shown.strings), rfl, Keeps.refl s⟩
  | open_ => exact ⟨s, bind_run (optionStrings_run shown.strings), rfl, Keeps.refl s⟩
  | mnt =>
    obtain ⟨strings, apart⟩ := shown
    cases strings with
    | nil => exact ⟨s, rfl, rfl, Keeps.refl s⟩
    | @cons value str values strs shows strings =>
      cases value with
      | none =>
        cases str with
        | none => exact ⟨s, rfl, rfl, Keeps.refl s⟩
        | some v => exact absurd shows id
      | some p =>
        cases str with
        | none => exact absurd shows id
        | some dev =>
          obtain ⟨there, text⟩ := shows
          obtain ⟨t, run, sys, within, name, ty⟩ := sysioGetToken_inPlace [COLON] [] text
          obtain ⟨first, -⟩ := List.pairwise_cons.mp apart
          have rest := strings_kept strings text within rfl fun v hv q hq =>
            first v hv p q rfl hq
          refine ⟨t, ?_, sys, keeps_of_within within there⟩
          dsimp only
          rw [bind_run run]
          dsimp only
          rw [bind_run (cString_run name), bind_run (cString_run ty),
            bind_run (optionStrings_run rest)]
          rfl

/-- A command does what its string means, and leaves the script and the length of the buffer. -/
theorem doCommand_means (w : Works S) (text : Text s.mem tok str) :
    ∃ t, doCommand w tok s = onSys (deliverGiven w (commandGiven str)) t ∧ t.sys = s.sys ∧
      Keeps s t := by
  obtain ⟨given, t, run, sys, keeps, handing⟩ := handed_reads text
  rw [doCommand_eq, bind_run run]
  generalize commandGiven str = strs at handing
  cases handing with
  | none => exact ⟨t, rfl, sys, keeps⟩
  | some cmd shown =>
    obtain ⟨u, run', sys', keeps'⟩ := perform_delivers w cmd shown
    exact ⟨u, run', sys'.trans sys, keeps.trans keeps'⟩

/-- What holds at the beginning of a turn of the boot loop: the rest of the script is at `p`, and the
token buffer is as long as that. -/
structure Ready (p : Ptr) (str : Bytes) (s : Boot S) : Prop where
  text : Text s.mem p str
  script : p.buffer = .arg
  room : max str.length 1 ≤ (s.mem .tok).length

/-- The rest of a script is ready when nothing but the token buffer has changed. -/
theorem Ready.later {rest : Bytes} (ready : Ready p str s) (keeps : Keeps s t)
    (behind : rest <:+ str) : Ready (p.add (str.length - rest.length)) rest t := by
  have shorter := behind.length_le
  have room := ready.room
  constructor
  case text =>
    have here := ready.text.drop behind
    refine ⟨?_, here.noNul⟩
    rw [Ptr.add_buffer, ready.script, keeps.1]
    have bytes := here.bytes
    rwa [Ptr.add_buffer, ready.script] at bytes
  case script => exact ready.script
  case room =>
    rw [keeps.2]
    omega

/-- The boot loop does what the script means. -/
theorem bootLoop_means (w : Works S) (fuel : ℕ) (ready : Ready p str s)
    (enough : str.length < fuel) : Agrees (bootLoop w fuel p) s (meaning w fuel str) := by
  induction fuel generalizing p str s with
  | zero => exact absurd enough (Nat.not_lt_zero _)
  | succ fuel ih =>
    obtain ⟨found, t, run, at_⟩ := nextCommand_finds ready.text ready.script ready.room
    rw [meaning]
    have behind := @scanNext_behind str
    cases next : scanNext str with
    | done =>
      rw [next] at at_
      obtain ⟨rfl, rfl⟩ := at_
      exact ⟨t, bind_run run, rfl, Keeps.refl t⟩
    | malformed =>
      rw [next] at at_
      obtain ⟨rfl, sys, keeps⟩ := at_
      exact ⟨t, bind_run run, sys, keeps⟩
    | comment rest =>
      rw [next] at at_ behind
      obtain ⟨rfl, rfl⟩ := at_
      obtain ⟨suffix, less⟩ := behind rfl
      have later := ih (ready.later (Keeps.refl t) suffix) (by omega)
      exact later.after (Keeps.refl t) (bind_run run) rfl
    | command token rest =>
      rw [next] at at_ behind
      obtain ⟨rfl, sys, text, kept⟩ := at_
      obtain ⟨suffix, less⟩ := behind rfl
      obtain ⟨u, runs, sys', keeps⟩ := doCommand_means w text
      have same : u.sys = s.sys := sys'.trans sys
      have kept' : Keeps s u := kept.trans keeps
      have step : bootLoop w (fuel + 1) p s = (do
          let err ← doCommand w tok
          if err ≠ 0 then return err else
            bootLoop w fuel (p.add (str.length - rest.length))) t := by
        rw [bootLoop, bind_run run]
      dsimp only
      cases done : deliverGiven w (commandGiven token) s.sys with
      | error f =>
        have faults : doCommand w tok t = .error f := by
          rw [runs, onSys, same, done]
        unfold Agrees
        rw [bind_error done, step, bind_error faults]
      | ok r =>
        obtain ⟨err, sys''⟩ := r
        have returns : doCommand w tok t = .ok (err, { u with sys := sys'' }) := by
          rw [runs, onSys, same, done]
        rw [bind_run returns] at step
        by_cases failed : err ≠ 0
        · rw [if_pos failed] at step
          unfold Agrees
          rw [bind_run done, if_pos failed]
          exact ⟨_, step, rfl, kept'⟩
        · rw [if_neg failed] at step
          have ready' : Ready _ rest { u with sys := sys'' } := ready.later kept' suffix
          apply (ih ready' (by omega)).after kept' step
          rw [bind_run done, if_neg failed]

/-- The state with other contents in the token buffer. -/
def withToken (bytes : Bytes) (s : Boot S) : Boot S :=
  { s with mem := Function.update s.mem .tok bytes }

theorem setToken_run (bytes : Bytes) (s : Boot S) : setToken bytes s = .ok ((), withToken bytes s) :=
  write_ok.mpr rfl

/-- What `malloc` delivers for a string. -/
def allocated (junk : ℕ → UInt8) (str : Bytes) : Bytes := (List.range (max str.length 1)).map junk

theorem allocated_length (junk : ℕ → UInt8) (str : Bytes) (s : Boot S) :
    ((withToken (allocated junk str) s).mem .tok).length = max str.length 1 := by
  have tok : (withToken (allocated junk str) s).mem .tok = allocated junk str := by
    simp [withToken]
  rw [tok, allocated, List.length_map, List.length_range]

/-- The loop is ready for the script when the token buffer has been allocated. -/
theorem ready_start (text : Text s.mem p str) (script : p.buffer = .arg) (junk : ℕ → UInt8) :
    Ready p str (withToken (allocated junk str) s) := by
  have apart : Buffer.arg ≠ Buffer.tok := by decide
  have here : (withToken (allocated junk str) s).mem p.buffer = s.mem p.buffer := by
    rw [script]
    exact Function.update_of_ne apart (allocated junk str) s.mem
  have length := allocated_length junk str s
  constructor
  case text =>
    refine ⟨?_, text.noNul⟩
    rw [here]
    exact text.bytes
  case script => exact script
  case room => exact length.ge

/-- `_sysio_boot_namespace` is the loop, with a token buffer as long as the script, and the way
out. -/
theorem sysioBootNamespace_run (w : Works S) (junk : ℕ → UInt8) (text : Text s.mem p str)
    (script : p.buffer = .arg) : sysioBootNamespace w (some junk) p s =
      (bootLoop w ((s.mem p.buffer).length - p.off + 1) p >>= endBoot)
        (withToken (allocated junk str) s) := by
  have left : bytesLeft p (withToken (allocated junk str) s) =
      .ok ((s.mem p.buffer).length - p.off, withToken (allocated junk str) s) := by
    apply read_ok.mpr
    refine ⟨?_, rfl⟩
    rw [script]
    rfl
  rw [sysioBootNamespace, bind_run (strlen_run text)]
  exact (bind_run (setToken_run (allocated junk str) s)).trans (bind_run left)

end Meaning

section Bounds

/-- Every command returns, whatever that is. -/
structure WorksReturn (w : Works S) : Prop where
  creat : ∀ v sys, ∃ r, w.creat v sys = .ok r
  mnt : ∀ ty name v sys, ∃ r, w.mnt ty name v sys = .ok r
  chmd : ∀ v sys, ∃ r, w.chmd v sys = .ok r
  open_ : ∀ v sys, ∃ r, w.open_ v sys = .ok r

theorem deliver_returns (works : WorksReturn w) (cmd : Command) (strs : List (Option Bytes))
    (sys : S) : ∃ r, deliver w cmd strs sys = .ok r := by
  unfold deliver
  by_cases missing : (strs.take cmd.required).any Option.isNone
  · rw [if_pos missing]
    exact ⟨_, rfl⟩
  rw [if_neg missing]
  cases cmd with
  | creat => exact works.creat strs sys
  | chmd => exact works.chmd strs sys
  | open_ => exact works.open_ strs sys
  | mnt =>
    cases strs with
    | nil => exact ⟨_, rfl⟩
    | cons str strs =>
      cases str with
      | none => exact ⟨_, rfl⟩
      | some dev => exact works.mnt _ _ strs sys

theorem meaning_returns (works : WorksReturn w) (fuel : ℕ) (str : Bytes) (sys : S) :
    ∃ r, meaning w fuel str sys = .ok r := by
  induction fuel generalizing str sys with
  | zero => exact ⟨_, rfl⟩
  | succ fuel ih =>
    rw [meaning]
    cases scanNext str with
    | done => exact ⟨_, rfl⟩
    | malformed => exact ⟨_, rfl⟩
    | comment rest => exact ih rest sys
    | command token rest =>
      have returns : ∃ r, deliverGiven w (commandGiven token) sys = .ok r := by
        cases commandGiven token with
        | none => exact ⟨_, rfl⟩
        | some given => exact deliver_returns works given.1 given.2 sys
      obtain ⟨⟨err, sys'⟩, run⟩ := returns
      dsimp only
      rw [bind_run run]
      by_cases failed : err ≠ 0
      · rw [if_pos failed]
        exact ⟨_, rfl⟩
      · rw [if_neg failed]
        exact ih rest sys'

/-- The report of a failure reads no further than the token buffer if there is a NUL in it. -/
theorem reportFailure_run (room : 1 ≤ (s.mem .tok).length) :
    reportFailure s = if 0 ∉ s.mem .tok then .error .wild else .ok ((), s) := by
  cases bytes : s.mem .tok with
  | nil =>
    rw [bytes] at room
    exact absurd room (Nat.not_succ_le_zero 0)
  | cons c rest =>
    have first : byteAt tok s = .ok (c, s) := by
      apply byteAt_run
      change (s.mem .tok)[0]? = some c
      rw [bytes]
      rfl
    unfold reportFailure
    rw [bind_run first]
    by_cases empty : c = 0
    · rw [if_pos empty, empty, if_neg (not_not.mpr List.mem_cons_self)]
      rfl
    rw [if_neg empty]
    have here : (s.mem tok.buffer).drop tok.off = c :: rest := bytes
    by_cases nul : 0 ∈ c :: rest
    · have str : untilNul ((s.mem tok.buffer).drop tok.off) =
          some ((c :: rest).takeWhile (· != 0)) := by
        rw [here]
        exact if_pos nul
      have run : cString tok s = .ok (_, s) := deref_ok.mpr ⟨str, rfl⟩
      rw [if_neg (not_not.mpr nul), bind_run run]
      rfl
    · have str : untilNul ((s.mem tok.buffer).drop tok.off) = none := by
        rw [here]
        exact if_neg nul
      have run : cString tok s = .error .wild := by
        unfold cString Exec.deref
        beta_reduce
        rw [str]
      rw [if_pos nul, bind_error run]

theorem endBoot_run (err : ℤ) (room : 1 ≤ (s.mem .tok).length) :
    endBoot err s =
      if err ≠ 0 ∧ 0 ∉ s.mem .tok then .error .wild else .ok (err, withToken [] s) := by
  have free : (do
      setToken []
      return err : Booting S ℤ) s = .ok (err, withToken [] s) := bind_run (setToken_run [] s)
  have report := reportFailure_run room
  unfold endBoot
  by_cases failed : err ≠ 0
  · rw [if_pos failed]
    by_cases nul : 0 ∉ s.mem .tok
    · rw [if_pos nul] at report
      rw [if_pos ⟨failed, nul⟩]
      exact bind_error report
    · rw [if_neg nul] at report
      rw [if_neg fun h => nul h.2]
      exact (bind_run report).trans free
  · rw [if_neg failed, if_neg fun h => failed h.1]
    exact free

/-- Commands that do nothing. -/
def idleWorks : Works Unit := ⟨fun _ => pure 0, fun _ _ _ => pure 0, fun _ => pure 0, fun _ => pure 0⟩

theorem idle_return : WorksReturn idleWorks where
  creat _ _ := ⟨_, rfl⟩
  mnt _ _ _ _ := ⟨_, rfl⟩
  chmd _ _ := ⟨_, rfl⟩
  open_ _ _ := ⟨_, rfl⟩

/-- A script that ends in an escape, inside a command. -/
def openScript : Bytes := bytesOf ['{', '"', 'a', '\\']

/-- A boot call with a script. -/
def scripted (str : Bytes) : Boot Unit :=
  ⟨fun b => if b = Buffer.arg then str ++ [0] else [], ()⟩

theorem scripted_text (noNul : 0 ∉ str) : Text (scripted str).mem ⟨.arg, 0⟩ str := by
  refine ⟨?_, noNul⟩
  change ((str ++ [0]).drop 0).take (str.length + 1) = str ++ [0]
  apply List.take_of_length_le
  simp

end Bounds

end BootLoop
