import DirectFuse.ByteRange
import DirectFuse.Cutting
import DirectFuse.SysioInit

/-! Tokens and argument lists of the boot script, read off the strings in memory: what
`_sysio_get_token` cuts off in place is what the list function cuts off, and what is cut off stays
where it is. -/
namespace BootTokens

open ExecLogic ByteRange Cutting SysioState SysioInit

variable {S : Type} {mem mem' : Memory} {p q : Ptr} {str new : Bytes} {s : Boot S}

def marks : Marks UInt8 := ⟨BACKSLASH, QUOTE⟩

theorem marks_escape : marks.escape = BACKSLASH := rfl
theorem marks_quote : marks.quote = QUOTE := rfl

section Memory

/-- The memory has the string `str` at `p`. -/
structure Text (mem : Memory) (p : Ptr) (str : Bytes) : Prop where
  bytes : fetch (mem p.buffer) p.off (str.length + 1) = str ++ [0]
  noNul : 0 ∉ str

/-- From `p` on the bytes are `new`. -/
def put (mem : Memory) (p : Ptr) (new : Bytes) : Memory :=
  Function.update mem p.buffer (store 0 (mem p.buffer) p.off new)

/-- Nothing has changed but the `n` bytes from `p` on. -/
structure Within (p : Ptr) (n : ℕ) (mem mem' : Memory) : Prop where
  length : ∀ b, (mem' b).length = (mem b).length
  same : ∀ b i, (b = p.buffer → i < p.off ∨ p.off + n ≤ i) → (mem' b)[i]? = (mem b)[i]?

theorem Text.get (h : Text mem p str) {i : ℕ} (hi : i ≤ str.length) :
    (mem p.buffer)[p.off + i]? = (str ++ [0])[i]? := by
  rw [← h.bytes, fetch_get, if_pos (Nat.lt_succ_of_le hi)]

theorem text_of_get (noNul : 0 ∉ str)
    (h : ∀ i ≤ str.length, (mem p.buffer)[p.off + i]? = (str ++ [0])[i]?) : Text mem p str := by
  refine ⟨List.ext_getElem? fun i => ?_, noNul⟩
  rw [fetch_get]
  by_cases hi : i < str.length + 1
  · rw [if_pos hi, h i (Nat.le_of_lt_succ hi)]
  · rw [if_neg hi, List.getElem?_eq_none]
    rw [List.length_append]
    exact Nat.le_of_not_lt hi

theorem Text.room (h : Text mem p str) : p.off + str.length < (mem p.buffer).length := by
  have last := h.get le_rfl
  rw [List.getElem?_append_right le_rfl, Nat.sub_self] at last
  exact (List.getElem?_eq_some_iff.mp last).1

theorem Text.head {c : UInt8} (h : Text mem p (c :: str)) : (mem p.buffer)[p.off]? = some c :=
  h.get (Nat.zero_le _)

theorem Text.stop (h : Text mem p []) : (mem p.buffer)[p.off]? = some 0 :=
  h.get le_rfl

theorem Text.tail {c : UInt8} (h : Text mem p (c :: str)) : Text mem (p.add 1) str := by
  apply text_of_get fun mem => h.noNul (List.mem_cons_of_mem c mem)
  intro i hi
  have there := h.get (i := i + 1) (Nat.succ_le_succ hi)
  rw [Ptr.add_off, Ptr.add_buffer, Nat.add_assoc, Nat.add_comm 1, there]
  rfl

/-- The end of a string is a string. -/
theorem Text.drop (h : Text mem p str) {rest : Bytes} (suffix : rest <:+ str) :
    Text mem (p.add (str.length - rest.length)) rest := by
  obtain ⟨front, rfl⟩ := suffix
  induction front generalizing p with
  | nil => simpa using h
  | cons c front ih =>
    have step := ih h.tail
    rw [Ptr.add_add] at step
    convert step using 2
    simp only [List.cons_append, List.length_cons, List.length_append]
    omega

theorem Text.split (h : Text mem p str) :
    ∃ rest, (mem p.buffer).drop p.off = str ++ 0 :: rest := by
  have parts := List.take_append_drop (str.length + 1) ((mem p.buffer).drop p.off)
  have front : ((mem p.buffer).drop p.off).take (str.length + 1) = str ++ [0] := h.bytes
  rw [front, List.append_assoc] at parts
  exact ⟨_, parts.symm⟩

theorem text_untilNul (h : Text mem p str) : untilNul ((mem p.buffer).drop p.off) = some str := by
  obtain ⟨rest, split⟩ := h.split
  rw [split]
  unfold untilNul
  rw [if_pos (List.mem_append_right str List.mem_cons_self), List.takeWhile_append_of_pos]
  · simp
  · intro c hc
    simp only [bne_iff_ne, ne_eq]
    rintro rfl
    exact h.noNul hc

theorem text_unique {str' : Bytes} (h : Text mem p str) (h' : Text mem p str') : str = str' :=
  Option.some.inj ((text_untilNul h).symm.trans (text_untilNul h'))

/-- Changes of parts of a stretch are changes of the stretch. -/
theorem Within.trans {n k l : ℕ} {mem'' : Memory} (h : Within p n mem mem')
    (h' : Within (p.add k) l mem' mem'') (inside : k + l ≤ n) : Within p n mem mem'' := by
  constructor
  · intro b
    rw [h'.length, h.length]
  · intro b i out
    rw [h'.same b i, h.same b i out]
    intro hb
    have := out hb
    simp only [Ptr.add_off]
    omega

theorem Within.text {n : ℕ} (h : Within p n mem mem') (text : Text mem q str)
    (apart : q.buffer = p.buffer → n = 0 ∨ q.off + str.length < p.off ∨ p.off + n ≤ q.off) :
    Text mem' q str := by
  apply text_of_get text.noNul
  intro i hi
  rw [h.same, text.get hi]
  intro hb
  have := apart hb
  omega

theorem put_length (h : p.off + new.length ≤ (mem p.buffer).length) (b : Buffer) :
    (put mem p new b).length = (mem b).length := by
  by_cases hb : b = p.buffer
  · subst hb
    rw [put, Function.update_self, store_length h]
  · rw [put, Function.update_of_ne hb]

theorem put_outside (h : p.off + new.length ≤ (mem p.buffer).length) {b : Buffer} {i : ℕ}
    (out : b = p.buffer → i < p.off ∨ p.off + new.length ≤ i) :
    (put mem p new b)[i]? = (mem b)[i]? := by
  by_cases hb : b = p.buffer
  · subst hb
    by_cases hin : i < (mem p.buffer).length
    · rw [put, Function.update_self, store_outside hin (out rfl)]
    · have short := put_length h p.buffer
      rw [List.getElem?_eq_none (by omega), List.getElem?_eq_none (by omega)]
  · rw [put, Function.update_of_ne hb]

theorem put_within (mem : Memory) (p : Ptr) (new : Bytes)
    (h : p.off + new.length ≤ (mem p.buffer).length) :
    Within p new.length mem (put mem p new) :=
  ⟨put_length h, fun _ _ out => put_outside h out⟩

/-- A string that is put somewhere is there. -/
theorem put_text (mem : Memory) (p : Ptr) (noNul : 0 ∉ str) : Text (put mem p (str ++ [0])) p str := by
  refine ⟨?_, noNul⟩
  have there := fetch_store 0 (mem p.buffer) p.off (str ++ [0])
  rw [put, Function.update_self]
  simpa using there

theorem put_nil : put mem p [] = mem := by
  rw [put, store_nil, Function.update_eq_self]

/-- Bytes put one after the other. -/
theorem put_put (mem : Memory) (p : Ptr) (new more : Bytes)
    (h : p.off + (new ++ more).length ≤ (mem p.buffer).length) :
    put (put mem p new) (p.add new.length) more = put mem p (new ++ more) := by
  rw [List.length_append, ← Nat.add_assoc] at h
  unfold put
  rw [Ptr.add_buffer, Function.update_self, Function.update_idem, Ptr.add_off, store_store h]

end Memory

section Tokens

variable {delim ignore : Bytes} {buf tbuf : Ptr}

theorem byteAt_run {c : UInt8} (h : (s.mem p.buffer)[p.off]? = some c) :
    byteAt p s = .ok (c, s) :=
  deref_ok.mpr ⟨h, rfl⟩

theorem cString_run (h : Text s.mem p str) : cString p s = .ok (str, s) :=
  deref_ok.mpr ⟨text_untilNul h, rfl⟩

theorem strlen_run (h : Text s.mem p str) : strlen p s = .ok (str.length, s) :=
  bind_run (cString_run h)

theorem setByte_run (c : UInt8) (h : p.off < (s.mem p.buffer).length) :
    setByte p c s = .ok ((), { s with mem := put s.mem p [c] }) := by
  have inside : (Exec.check .wild fun s => p.off < (s.mem p.buffer).length : Booting S Unit) s =
      .ok ((), s) := check_ok.mpr ⟨decide_eq_true h, rfl⟩
  rw [setByte, bind_run inside]
  apply write_ok.mpr
  rw [put, store_one h]

/-- A turn of the loop and the turns behind it. -/
theorem getTokenLoop_succ (fuel : ℕ) (escape quote : Bool) :
    (getTokenLoop delim ignore (fuel + 1) ⟨buf, tbuf, escape, quote⟩ : Booting S _) = (do
      let c ← byteAt buf
      if c = 0 then
        return (buf, tbuf, false)
      else if ¬ escape ∧ c = BACKSLASH then
        getTokenLoop delim ignore fuel ⟨buf.add 1, tbuf, true, quote⟩
      else if ¬ escape ∧ c = QUOTE then
        getTokenLoop delim ignore fuel ⟨buf.add 1, tbuf, false, !quote⟩
      else if ¬ escape ∧ ¬ quote ∧ c ∈ delim then
        return (buf.add 1, tbuf, true)
      else if ¬ escape ∧ ¬ quote ∧ c ∈ ignore then
        getTokenLoop delim ignore fuel ⟨buf.add 1, tbuf, false, quote⟩
      else
        setByte tbuf c
        getTokenLoop delim ignore fuel ⟨buf.add 1, tbuf.add 1, false, quote⟩) := by
  rw [getTokenLoop, tokenTurn, bind_assoc]
  apply bind_congr
  intro c
  split_ifs
  · rfl
  · rfl
  · rfl
  · rfl
  · rfl
  · rw [bind_assoc]
    rfl

/-- The turns of the loop from a place in the text: reading never falls behind writing, and what is
written is the token. -/
theorem getTokenLoop_cut (fuel : ℕ) (escape quote : Bool) (text : Text s.mem buf str)
    (enough : str.length < fuel) (clear : tbuf.buffer = buf.buffer → tbuf.off ≤ buf.off)
    (room : tbuf.off + (cut marks delim ignore escape quote str).token.length ≤
      (s.mem tbuf.buffer).length) :
    getTokenLoop delim ignore fuel ⟨buf, tbuf, escape, quote⟩ s =
      .ok ((buf.add (str.length - (cut marks delim ignore escape quote str).rest.length),
        tbuf.add (cut marks delim ignore escape quote str).token.length,
        (cut marks delim ignore escape quote str).found),
        { s with mem := put s.mem tbuf (cut marks delim ignore escape quote str).token }) := by
  induction str generalizing fuel escape quote buf tbuf s with
  | nil =>
    obtain _ | fuel := fuel
    · exact absurd enough (Nat.not_lt_zero _)
    rw [getTokenLoop_succ, bind_run (byteAt_run text.stop), if_pos rfl]
    simp only [cut, put_nil]
    rfl
  | cons c str ih =>
    obtain _ | fuel := fuel
    · exact absurd enough (Nat.not_lt_zero _)
    have less : str.length < fuel := Nat.lt_of_succ_lt_succ enough
    have notNul : c ≠ 0 := fun h => text.noNul (h ▸ List.mem_cons_self)
    have ahead : tbuf.buffer = (buf.add 1).buffer → tbuf.off ≤ (buf.add 1).off :=
      fun same => Nat.le_succ_of_le (clear same)
    -- the pointers behind a turn
    have next : ∀ e q, (buf.add 1).add
        (str.length - (cut marks delim ignore e q str).rest.length) =
        buf.add ((c :: str).length - (cut marks delim ignore e q str).rest.length) := by
      intro e q
      have := (cut_rest marks delim ignore e q str).length_le
      rw [Ptr.add_add, List.length_cons]
      congr 1
      omega
    rw [getTokenLoop_succ, bind_run (byteAt_run text.head), if_neg notNul]
    unfold cut at room ⊢
    rw [marks_escape, marks_quote] at room ⊢
    by_cases h₁ : ¬ escape ∧ c = BACKSLASH
    · rw [if_pos h₁] at room
      rw [if_pos h₁, if_pos h₁, ih fuel true quote text.tail less ahead room, next]
    by_cases h₂ : ¬ escape ∧ c = QUOTE
    · rw [if_neg h₁, if_pos h₂] at room
      rw [if_neg h₁, if_neg h₁, if_pos h₂, if_pos h₂, ih fuel false (!quote) text.tail less ahead
        room, next]
    by_cases h₃ : ¬ escape ∧ ¬ quote ∧ c ∈ delim
    · rw [if_neg h₁, if_neg h₁, if_neg h₂, if_neg h₂, if_pos h₃, if_pos h₃]
      simp only [put_nil, List.length_cons, Nat.add_sub_cancel_left]
      rfl
    by_cases h₄ : ¬ escape ∧ ¬ quote ∧ c ∈ ignore
    · rw [if_neg h₁, if_neg h₂, if_neg h₃, if_pos h₄] at room
      rw [if_neg h₁, if_neg h₁, if_neg h₂, if_neg h₂, if_neg h₃, if_neg h₃, if_pos h₄, if_pos h₄,
        ih fuel false quote text.tail less ahead room, next]
    · rw [if_neg h₁, if_neg h₂, if_neg h₃, if_neg h₄] at room
      simp only [Cut.keep, List.length_cons] at room
      rw [if_neg h₁, if_neg h₁, if_neg h₂, if_neg h₂, if_neg h₃, if_neg h₃, if_neg h₄, if_neg h₄,
        bind_run (setByte_run c (by omega))]
      have short : tbuf.off + [c].length ≤ (s.mem tbuf.buffer).length := by
        rw [List.length_singleton]
        omega
      have tail : Text (put s.mem tbuf [c]) (buf.add 1) str := by
        apply (put_within s.mem tbuf [c] short).text text.tail
        intro same
        right
        right
        exact Nat.succ_le_succ (clear same.symm)
      have step := @ih { s with mem := put s.mem tbuf [c] } (buf.add 1) (tbuf.add 1) fuel false
        quote tail less (fun same => Nat.succ_le_succ (clear same))
        (by rw [put_length short, Ptr.add_off, Ptr.add_buffer]; omega)
      rw [step, next]
      have joined := put_put s.mem tbuf [c] (cut marks delim ignore false quote str).token
        (by rw [List.length_append, List.length_singleton]; omega)
      rw [List.length_singleton] at joined
      simp only [Cut.keep, List.length_cons, joined, Ptr.add_add, Nat.add_comm 1,
        List.singleton_append]

/-- `_sysio_get_token` on a string, with room for the token. -/
theorem sysioGetToken_cut (delim ignore : Bytes) (tbuf : Ptr) (accepts : Bool) (text : Text s.mem buf str)
    (clear : tbuf.buffer = buf.buffer → tbuf.off ≤ buf.off)
    (room : tbuf.off + (cut marks delim ignore false false str).token.length <
      (s.mem tbuf.buffer).length) :
    sysioGetToken buf accepts delim ignore tbuf s =
      if accepts || (cut marks delim ignore false false str).found then
        .ok (some (buf.add (str.length - (cut marks delim ignore false false str).rest.length)),
          { s with mem := put s.mem tbuf ((cut marks delim ignore false false str).token ++ [0]) })
      else .ok (none,
        { s with mem := put s.mem tbuf (cut marks delim ignore false false str).token }) := by
  have enough : str.length < (s.mem buf.buffer).length - buf.off + 1 := by
    have := text.room
    omega
  have left : bytesLeft buf s = .ok ((s.mem buf.buffer).length - buf.off, s) := rfl
  rw [sysioGetToken, bind_run left,
    bind_run (getTokenLoop_cut _ false false text enough clear room.le)]
  dsimp only
  by_cases accepted : (accepts || (cut marks delim ignore false false str).found) = true
  · rw [if_pos accepted, if_neg (not_not.mpr accepted)]
    have inside : tbuf.off + (cut marks delim ignore false false str).token.length ≤
      (s.mem tbuf.buffer).length := room.le
    rw [bind_run (setByte_run 0 (by rw [put_length inside]; exact room))]
    have joined := put_put s.mem tbuf (cut marks delim ignore false false str).token [0]
      (by rw [List.length_append]; exact room)
    rw [joined]
    rfl
  · rw [if_neg accepted, if_pos accepted]
    rfl

/-- A token that is cut off in place: it stands where the text began, and the rest of the text is
behind it. -/
theorem sysioGetToken_inPlace (delim ignore : Bytes) (text : Text s.mem buf str) :
    ∃ t, sysioGetToken buf true delim ignore buf s =
        .ok (some (buf.add (str.length -
          (cut marks delim ignore false false str).rest.length)), t) ∧
      t.sys = s.sys ∧ Within buf str.length s.mem t.mem ∧
      Text t.mem buf (cut marks delim ignore false false str).token ∧
      Text t.mem (buf.add (str.length - (cut marks delim ignore false false str).rest.length))
        (cut marks delim ignore false false str).rest := by
  have short := cut_length marks delim ignore false false str
  have room := text.room
  have run := sysioGetToken_cut delim ignore buf true text (fun _ => le_rfl) (by omega)
  rw [Bool.true_or, if_pos rfl] at run
  have noNul : 0 ∉ (cut marks delim ignore false false str).token :=
    fun h => text.noNul (mem_token h)
  have within : Within buf str.length s.mem
      (put s.mem buf ((cut marks delim ignore false false str).token ++ [0])) := by
    have inside := put_within s.mem buf ((cut marks delim ignore false false str).token ++ [0])
      (by rw [List.length_append, List.length_singleton]; omega)
    refine ⟨inside.length, fun b i out => ?_⟩
    by_cases last : b = buf.buffer ∧ i = buf.off + str.length ∧
        (cut marks delim ignore false false str).token.length = str.length
    · -- the end of the text is written over with itself
      obtain ⟨rfl, rfl, whole⟩ := last
      have put := (put_text s.mem buf noNul).get whole.ge
      rw [put, text.get le_rfl, List.getElem?_append_right whole.le,
        List.getElem?_append_right le_rfl, whole]
    · apply inside.same
      intro hb
      have := out hb
      rw [List.length_append, List.length_singleton]
      by_contra h
      apply last
      refine ⟨hb, ?_, ?_⟩ <;> omega
  refine ⟨_, run, rfl, within, put_text _ _ noNul, ?_⟩
  have rest := text.drop (cut_rest marks delim ignore false false str)
  cases found : (cut marks delim ignore false false str).found with
  | false =>
    rw [cut_not_found false false str found] at rest ⊢
    apply within.text rest
    intro _
    right
    right
    exact le_rfl
  | true =>
    have inside := put_within s.mem buf ((cut marks delim ignore false false str).token ++ [0])
      (by rw [List.length_append, List.length_singleton]; omega)
    apply inside.text rest
    intro _
    right
    right
    rw [found, Bool.toNat_true] at short
    rw [List.length_append, List.length_singleton, Ptr.add_off]
    omega

/-- What is done with the rest of a text leaves the token that was cut off in front of it. -/
theorem Text.token_kept (token : Text mem buf (cut marks delim ignore false false str).token)
    (later : Within (buf.add (str.length - (cut marks delim ignore false false str).rest.length))
      (cut marks delim ignore false false str).rest.length mem mem') :
    Text mem' buf (cut marks delim ignore false false str).token := by
  apply later.text token
  intro _
  cases found : (cut marks delim ignore false false str).found with
  | false =>
    left
    rw [cut_not_found false false str found, List.length_nil]
  | true =>
    right
    left
    have short := cut_length marks delim ignore false false str
    rw [found, Bool.toNat_true] at short
    rw [Ptr.add_off]
    omega

end Tokens

end BootTokens
