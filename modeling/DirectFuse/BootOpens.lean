import DirectFuse.BootCommands
import DirectFuse.DescriptorTable
import DirectFuse.InodeMoves

/-! The descriptor that an `open` of the boot script installs. -/
namespace BootOpens

open ExecLogic SysioState SysioInode SysioNamei SysioFile SysioInterface BootCommands
open CoreMoves DescriptorTable

variable {D : Type} {closes : D → ℕ} {e : Env D}

/-- The open files table is the same. -/
def SameFiles (s t : Sys D) : Prop := t.ft = s.ft

instance : IsPreorder (Sys D) SameFiles where
  refl _ := rfl
  trans _ _ _ h k := k.trans h

/-- Drivers keep off the open files table. -/
structure OffTable (closes : D → ℕ) (e : Env D) : Prop where
  counted : ClosesCounted closes e
  lookup : ∀ i p o intnt path, Moves SameFiles (e.ops.lookup i p o intnt path)
  readlink : ∀ i p n, Moves SameFiles (e.ops.readlink i p n)
  open_ : ∀ i p flags mode, Moves SameFiles (e.ops.open_ i p flags mode)

/-- The slots hold records that have been made. -/
def Made (s : Sys D) : Prop := ∀ f, some f ∈ s.ft.oftab → f < s.ft.nextFile

section Pieces

variable (off : OffTable closes e)

include off

theorem iRele_files (i : InoId) : Moves SameFiles (iRele e i) :=
  (iRele_apart off.counted i).mono fun _ _ k => k.ft

theorem namei_files (parent : Option Pno) (path : Option Bytes) (flags : ℕ)
    (intnt : Option Intent) : Moves SameFiles (sysioNamei e parent path flags intnt) :=
  (InodeMoves.path_moves (fun _ _ _ ft _ _ => ft) (iRele_files off) off.lookup off.readlink).namei
    parent path flags intnt

theorem sysioOpen_files (p : Pno) (flags mode : ℕ) : Moves SameFiles (sysioOpen e p flags mode) := by
  have validate : ∀ p intnt path, Moves SameFiles (sysioPValidate e p intnt path) :=
    InodeMoves.validate_moves (fun _ _ _ ft _ _ => ft) (iRele_files off) off.lookup
  refine moves_bind (isRdonly_moves p) fun ro => moves_ite (fun _ => moves_pure _) fun _ =>
    moves_ite (fun _ => moves_pure _) fun _ => moves_bind (inoOf_moves p) fun ino => ?_
  cases ino with
  | none =>
    exact moves_ite (fun _ => moves_ite (fun _ => moves_pure _) fun _ =>
      moves_bind (pnodeAt_moves p) fun n => moves_bind (validate _ _ _) fun err =>
      moves_ite (fun _ => moves_pure _) fun _ => moves_bind (inoOf_moves _) fun ino =>
      moves_bind (assert_moves _) fun _ => moves_bind (nonNull_moves _) fun i => off.open_ _ _ _ _)
      fun _ => validate _ _ _
  | some i =>
    exact moves_ite (fun _ => moves_pure _) fun _ => moves_bind (inodeAt_moves i) fun r =>
      moves_ite (fun _ => moves_pure _) fun _ => off.open_ _ _ _ _

end Pieces

theorem pRele_files (p : Pno) : Moves SameFiles (pRele p : Sysio D Unit) :=
  InodeMoves.outside_pRele (fun _ _ _ ft _ _ => ft) p

/-- A new record has the flags it is made with, and a number that no slot has. -/
theorem sysioFnew_files {ino : Option InoId} {flags : ℕ} {f : FilId} {s t : Sys D}
    (run : sysioFnew e ino flags s = .ok (some f, t)) : f = s.ft.nextFile ∧
      t.ft.oftab = s.ft.oftab ∧ t.ft.nextFile = f + 1 ∧
      ∃ r, t.ft.file f = some r ∧ r.flags = flags := by
  obtain ⟨pno, _, read, rest⟩ := bind_ok.mp run
  obtain ⟨-, rfl⟩ := read_ok.mp read
  obtain ⟨got, u, alloc, rest⟩ := bind_ok.mp rest
  have scratch : Scratch s u := malloc_moves (fun _ _ k => k) s got u alloc
  cases got with
  | false =>
    obtain ⟨none, -⟩ := pure_ok.mp rest
    cases none
  | true =>
    obtain ⟨i, _, nonNull, rest⟩ := bind_ok.mp rest
    obtain ⟨-, rfl⟩ := deref_ok.mp nonNull
    obtain ⟨g, _, read, rest⟩ := bind_ok.mp rest
    obtain ⟨rfl, rfl⟩ := read_ok.mp read
    obtain ⟨_, v, write, rest⟩ := bind_ok.mp rest
    obtain rfl := write_ok.mp write
    obtain ⟨_, w, ref, rest⟩ := bind_ok.mp rest
    obtain ⟨same, rfl⟩ := pure_ok.mp rest
    obtain rfl := Option.some.inj same
    obtain ⟨r, _, found, put⟩ := bind_ok.mp ref
    obtain ⟨-, rfl⟩ := deref_ok.mp found
    obtain rfl := write_ok.mp put
    rw [scratch.ft]
    refine ⟨rfl, rfl, rfl, _, Function.update_self .., rfl⟩

theorem sysioFdSet_files (counted : ClosesCounted closes e) {f : FilId} {fd n : ℤ} {s t : Sys D}
    {r : File} (run : sysioFdSet e f fd true s = .ok (n, t)) (good : ¬ n < 0) (low : 0 ≤ fd)
    (record : s.ft.file f = some r) (fresh : some f ∉ s.ft.oftab) :
    t.ft.oftab[fd.toNat]? = some (some f) ∧ t.ft.file f = some r := by
  rcases sysioFdSet_ok counted run with ⟨bad, -⟩ | ⟨u, ⟨k, grown, -⟩, -, forced, -, room, installed⟩
  · exact absurd bad good
  · obtain rfl := forced low rfl
    have kept : u.ft.file f = some r := by
      rw [grown]
      exact record
    rcases installed with ⟨-, ft, -⟩ | ⟨g, r', slot, -, ft, -⟩
    · rw [ft]
      exact ⟨List.getElem?_set_self room, kept⟩
    · have other : f ≠ g := by
        rintro rfl
        have held : some f ∈ u.ft.oftab := by
          rw [List.getD_eq_getElem?_getD, List.getElem?_eq_getElem room] at slot
          exact List.mem_of_getElem slot
        rw [grown] at held
        rcases List.mem_append.mp held with old | new
        · exact fresh old
        · cases (List.mem_replicate.mp new).2
      rw [ft]
      refine ⟨List.getElem?_set_self room, ?_⟩
      change released u.ft.file g r' f = _
      rw [released, Function.update_of_ne other, kept]

section Library

variable {o : Outside D} {p q : Process (Sys D)} {α : Type}

theorem onLib_ok {m : Sysio D α} {a : α} (run : onLib o m p = .ok (a, q)) :
    m p.lib = .ok (a, q.lib) := by
  unfold onLib at run
  cases done : m p.lib with
  | error f =>
    rw [done] at run
    cases run
  | ok r =>
    obtain ⟨b, s⟩ := r
    rw [done] at run
    obtain ⟨rfl, rfl⟩ := Prod.mk.inj (Except.ok.inj run)
    rfl

theorem onLib_files {m : Sysio D α} (moves : Moves SameFiles m) {a : α}
    (run : onLib o m p = .ok (a, q)) : q.lib.ft = p.lib.ft :=
  moves _ _ _ (onLib_ok run)

/-- An open that succeeds has put a record with the access mode it was given in the slot of the
descriptor. -/
theorem openAt_installs (off : OffTable closes o.env) {nm : Bytes} {fd : ℤ} {m : ℕ}
    (low : 0 ≤ fd) (made : Made p.lib) (run : openAt (sysioCalls o) nm fd m p = .ok (0, q)) :
    ∃ f r, q.lib.ft.oftab[fd.toNat]? = some (some f) ∧ q.lib.ft.file f = some r ∧ r.flags = m := by
  obtain ⟨dir, p₀, start, rest⟩ := bind_ok.mp run
  change (Exec.read fun p => p.lib.mt.cwd.or p.lib.mt.root) p = _ at start
  obtain ⟨-, rfl⟩ := read_ok.mp start
  cases dir with
  | none =>
    obtain ⟨err, -⟩ := pure_ok.mp rest
    exact absurd err (by decide)
  | some dir =>
    obtain ⟨⟨err, found⟩, p₁, look, rest⟩ := bind_ok.mp rest
    have same₁ := onLib_files (namei_files off _ _ _ _) look
    dsimp only at rest
    by_cases bad : err ≠ 0
    · rw [if_pos bad] at rest
      obtain ⟨zero, -⟩ := pure_ok.mp rest
      exact absurd zero bad
    rw [if_neg bad] at rest
    obtain ⟨pno, _, node, rest⟩ := bind_ok.mp rest
    obtain ⟨-, rfl⟩ := deref_ok.mp node
    obtain ⟨err', p₂, opened, rest⟩ := bind_ok.mp rest
    have same₂ := onLib_files (sysioOpen_files off pno m 0) opened
    by_cases bad' : err' ≠ 0
    · rw [if_pos bad'] at rest
      obtain ⟨_, p₃, -, rest⟩ := bind_ok.mp rest
      obtain ⟨zero, -⟩ := pure_ok.mp rest
      exact absurd zero bad'
    rw [if_neg bad'] at rest
    obtain ⟨ino, p₃, read, rest⟩ := bind_ok.mp rest
    have same₃ : p₃.lib.ft = p₂.lib.ft := onLib_files (inoOf_moves pno) read
    obtain ⟨fil, p₄, new, rest⟩ := bind_ok.mp rest
    cases fil with
    | none =>
      obtain ⟨_, p₅, -, rest⟩ := bind_ok.mp rest
      obtain ⟨zero, -⟩ := pure_ok.mp rest
      exact absurd zero (by decide)
    | some f =>
      obtain ⟨number, slots, -, r, record, flags⟩ := sysioFnew_files (onLib_ok new)
      obtain ⟨err'', p₅, set, rest⟩ := bind_ok.mp rest
      by_cases bad'' : err'' < 0
      · rw [if_pos bad''] at rest
        obtain ⟨_, p₆, -, rest⟩ := bind_ok.mp rest
        obtain ⟨_, p₇, -, rest⟩ := bind_ok.mp rest
        obtain ⟨zero, -⟩ := pure_ok.mp rest
        exact absurd (zero ▸ bad'') (by decide)
      rw [if_neg bad''] at rest
      obtain ⟨_, p₆, rele, rest⟩ := bind_ok.mp rest
      obtain ⟨-, rfl⟩ := pure_ok.mp rest
      have before : p₃.lib.ft = p.lib.ft := same₃.trans (same₂.trans same₁)
      have fresh : some f ∉ p₄.lib.ft.oftab := by
        intro held
        rw [slots, before] at held
        have less := made f held
        rw [number, before] at less
        exact Nat.lt_irrefl _ less
      obtain ⟨slot, kept⟩ := sysioFdSet_files off.counted (onLib_ok set) bad'' low record fresh
      have same₆ : p₆.lib.ft = p₅.lib.ft := onLib_files (pRele_files pno) rele
      refine ⟨f, r, ?_, ?_, flags⟩
      · rw [same₆]
        exact slot
      · rw [same₆]
        exact kept

end Library

/-- The fuse driver keeps off the table. -/
theorem fuseEnv_offTable {B : Type} {h : FuseDriver.Host B} :
    OffTable releases (FuseDriver.fuseEnv h) where
  counted := fuseEnv_closesCounted
  lookup i p o intnt path := (FuseMoves.fuseEnv_off.lookup i p o intnt path).mono fun _ _ k => k.ft
  readlink i p n := (FuseMoves.fuseEnv_off.readlink i p n).mono fun _ _ k => k.ft
  open_ _ p flags mode := (FuseMoves.fuseInopOpen_rebinds p flags mode).mono fun _ _ k => k.ft

end BootOpens
