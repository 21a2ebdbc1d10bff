import DirectFuse.SysioInode

/-! The path a base node is given by `_sysio_pb_path`: its two passes against the names joined
from the root of the tree on. -/
namespace BasePath

open ExecLogic SysioState SysioInode

/-- Every name behind a separator, the first of the list last. -/
def joined (separator : UInt8) : List Bytes → Bytes
  | [] => []
  | name :: l => if name = [] then joined separator l else joined separator l ++ separator :: name

/-- The path of a chain of names, the last one first. -/
def pathOf (separator : UInt8) (names : List Bytes) : Bytes :=
  if joined separator names = [] then [separator] else joined separator names

theorem joined_length (separator : UInt8) (names : List Bytes) :
    (joined separator names).length =
      (names.map fun name => if name = [] then 0 else name.length + 1).sum := by
  induction names with
  | nil => rfl
  | cons name l ih =>
    rw [List.map_cons, List.sum_cons, joined]
    by_cases hname : name = []
    · rw [if_pos hname, if_pos hname, ih, Nat.zero_add]
    · rw [if_neg hname, if_neg hname, List.length_append, List.length_cons, ih]
      omega

/-- What one name of the second pass leaves from the cursor on. -/
theorem fill_name {buf name : Bytes} {separator : UInt8} {cp : ℕ} (hroom : name.length + 1 ≤ cp)
    (hcp : cp ≤ buf.length) :
    ((writeAt buf (cp - name.length) name).set (cp - name.length - 1) separator).drop
      (cp - name.length - 1) = separator :: name ++ buf.drop cp := by
  have htake : (buf.take (cp - name.length)).length = cp - name.length := by
    rw [List.length_take]
    omega
  have hend : cp - name.length + name.length = cp := by omega
  rw [List.drop_set, if_neg (by omega), Nat.sub_self, writeAt, hend, List.append_assoc,
    List.drop_append_of_le_length (by omega)]
  have hsep : (buf.take (cp - name.length)).drop (cp - name.length - 1) =
      [buf.get ⟨cp - name.length - 1, by omega⟩] := by
    apply List.ext_getElem?
    intro i
    rw [List.getElem?_drop]
    by_cases hi : i = 0
    · subst hi
      rw [List.getElem?_take_of_lt (by omega), List.getElem?_eq_getElem (by omega)]
      rfl
    · rw [List.getElem?_eq_none (by omega), List.getElem?_eq_none (by simp; omega)]
  rw [hsep]
  rfl

theorem fill_length {buf name : Bytes} {separator : UInt8} {cp : ℕ} (hroom : name.length ≤ cp)
    (hcp : cp ≤ buf.length) :
    ((writeAt buf (cp - name.length) name).set (cp - name.length - 1) separator).length =
      buf.length := by
  rw [List.length_set, writeAt]
  simp
  omega

/-- The second pass puts the joined names in front of the cursor. -/
theorem pbPathFill_eq (separator : UInt8) (names : List Bytes) (buf : Bytes)
    (h : (joined separator names).length ≤ buf.length) :
    pbPathFill separator names buf (joined separator names).length =
      joined separator names ++ buf.drop (joined separator names).length := by
  induction names generalizing buf with
  | nil => rfl
  | cons name l ih =>
    rw [joined] at h ⊢
    rw [pbPathFill]
    by_cases hname : name = []
    · rw [if_pos hname] at h ⊢
      rw [if_pos hname]
      exact ih buf h
    · rw [if_neg hname] at h ⊢
      rw [if_neg hname]
      rw [List.length_append, List.length_cons] at h ⊢
      generalize hcp : (joined separator l).length + (name.length + 1) = cp at h ⊢
      have hrest : cp - name.length - 1 = (joined separator l).length := by omega
      have hfill := @fill_name buf name separator cp (by omega) h
      have hlen := @fill_length buf name separator cp (by omega) h
      rw [hrest] at hfill hlen ⊢
      rw [ih _ (by omega), hfill, List.append_assoc]

/-- Both passes of `_sysio_pb_path` together. -/
theorem pbPath_eq (separator : UInt8) (names : List Bytes) :
    (pbPathFill separator names ((List.replicate (pbPathLen names + 1) 0).set 0 separator)
      (pbPathLen names)).take (pbPathLen names) = pathOf separator names := by
  by_cases hempty : joined separator names = []
  · have hsum := joined_length separator names
    rw [hempty, List.length_nil] at hsum
    have hlen : pbPathLen names = 1 := by
      rw [pbPathLen, ← hsum]
      rfl
    have hnames : ∀ name ∈ names, name = [] := by
      intro name hin
      have hz := List.sum_eq_zero_iff_forall_eq_nat.mp hsum.symm
        (if name = [] then 0 else name.length + 1) (List.mem_map_of_mem hin)
      by_contra hne
      rw [if_neg hne] at hz
      omega
    have hskip : ∀ (l : List Bytes) (buf : Bytes) (cp : ℕ), (∀ name ∈ l, name = []) →
        pbPathFill separator l buf cp = buf := by
      intro l
      induction l with
      | nil => intros; rfl
      | cons name l ih =>
        intro buf cp hl
        rw [pbPathFill, if_pos (hl name List.mem_cons_self)]
        exact ih buf cp fun m hm => hl m (List.mem_cons_of_mem _ hm)
    rw [hlen, hskip names _ _ hnames, pathOf, if_pos hempty]
    rfl
  · have hlen : pbPathLen names = (joined separator names).length := by
      rw [pbPathLen, joined_length]
      apply if_neg
      rw [← joined_length separator names, List.length_eq_zero_iff]
      exact hempty
    rw [hlen, pbPathFill_eq separator names _ (by simp), pathOf, if_neg hempty,
      List.take_left' rfl]

/-- The path of a node from its mount's root on, whose base node has no name. -/
def below (separator : UInt8) (rel : List Bytes) : Bytes :=
  if rel = [] then [separator] else rel.flatMap fun name => separator :: name

theorem joined_append (separator : UInt8) (l m : List Bytes) :
    joined separator (l ++ m) = joined separator m ++ joined separator l := by
  induction l with
  | nil => simp [joined]
  | cons name l ih =>
    rw [List.cons_append, joined, joined]
    by_cases hname : name = []
    · rw [if_pos hname, if_pos hname, ih]
    · rw [if_neg hname, if_neg hname, ih, List.append_assoc]

theorem pathOf_below {separator : UInt8} {rel : List Bytes} (h : ∀ name ∈ rel, name ≠ []) :
    pathOf separator (rel.reverse ++ [[]]) = below separator rel := by
  have hroot : joined separator [[]] = [] := by simp [joined]
  have hjoin : joined separator rel.reverse = rel.flatMap fun name => separator :: name := by
    induction rel with
    | nil => rfl
    | cons name l ih =>
      have hone : joined separator [name] = separator :: name := by
        rw [joined, if_neg (h name List.mem_cons_self)]
        rfl
      rw [List.reverse_cons, joined_append, hone, List.flatMap_cons,
        ih fun m hm => h m (List.mem_cons_of_mem _ hm)]
  rw [pathOf, joined_append, hroot, List.nil_append, hjoin, below]
  cases rel with
  | nil => rfl
  | cons name l => simp

/-- The names on the way from a base node to the root of its tree. -/
inductive Chain {D : Type} (s : Sys D) : PbId → List Bytes → Prop where
  | top {b : PbId} {r : PnodeBase} (at_ : s.nc.base b = some r) (alone : r.parent = none) :
      Chain s b [r.name.name]
  | under {b q : PbId} {r : PnodeBase} {l : List Bytes} (at_ : s.nc.base b = some r)
      (up : r.parent = some q) (rest : Chain s q l) : Chain s b (r.name.name :: l)

end BasePath
