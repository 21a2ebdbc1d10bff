import DirectFuse.SysioReconcile

/-! Strided transfers with a driver that keeps a state. Its answers depend on the calls before only
through the state they left. -/
namespace StatefulDriver

open ExecLogic SysioState SysioReconcile

/-- What a driver does for a piece of a buffer and a file offset. -/
structure Driver (σ : Type) where
  move : ℕ → ℕ → ℤ → Exec σ Fault ℤ
  le : ∀ {base n : ℕ} {off r : ℤ} {s s' : σ}, move base n off s = .ok (r, s') → r ≤ n

variable {σ : Type}

/-- The calls of a history, one after the other. -/
def Driver.replay (d : Driver σ) : List Transfer → Exec σ Fault Unit
  | [] => return ()
  | t :: l => do
    let _ ← d.move t.base t.size t.off
    d.replay l

/-- The driver's answers from a state on. Behind a fault there are none to give. -/
def Driver.answer (d : Driver σ) (s : σ) (h : List Transfer) (base n : ℕ) (off : ℤ) : ℤ :=
  match (d.replay h >>= fun _ => d.move base n off) s with
  | .ok (r, _) => r
  | .error _ => 0

theorem Driver.answer_le (d : Driver σ) (s : σ) (h : List Transfer) (base n : ℕ) (off : ℤ) :
    d.answer s h base n off ≤ n := by
  unfold answer
  cases run : (d.replay h >>= fun _ => d.move base n off) s with
  | error e => exact Int.natCast_nonneg n
  | ok res =>
    rcases res with ⟨r, s'⟩
    rcases bind_ok.mp run with ⟨u, s₁, -, hmove⟩
    exact d.le hmove

def Driver.callback (d : Driver σ) (s : σ) : SysioReconcile.Callback := ⟨d.answer s, d.answer_le s⟩

/-- `_sysio_doio` with the driver: the calls it makes are made in the state. -/
def Driver.doio (d : Driver σ) (xtv : List Xtvec) (iov : List Iovec) : Exec σ Fault ℤ := fun s =>
  match sysioDoio (d.callback s) xtv iov [] with
  | .error e => .error e
  | .ok (r, h) => (do
    d.replay h
    return r) s

/-- The calls of a history are made from one state to another, and have the counts that it says. -/
inductive Played (d : Driver σ) : σ → List Transfer → σ → Prop where
  | nil (s : σ) : Played d s [] s
  | cons {s s₁ s' : σ} {t : Transfer} {l : List Transfer}
      (call : d.move t.base t.size t.off s = .ok (t.count, s₁)) (rest : Played d s₁ l s') :
      Played d s (t :: l) s'

section Histories

/-- Every call of a history was answered as the callback answers it. -/
def Honest (c : SysioReconcile.Callback) (h : List Transfer) : Prop :=
  ∀ l t l', h = l ++ t :: l' → t.count = c.answer l t.base t.size t.off

theorem Honest.nil (c : SysioReconcile.Callback) : Honest c [] := by
  intro l t l' hsplit
  exact absurd hsplit.symm (by simp)

theorem Honest.snoc {c : SysioReconcile.Callback} {h : List Transfer} (honest : Honest c h)
    (base n : ℕ) (off : ℤ) : Honest c (h ++ [⟨base, n, off, c.answer h base n off⟩]) := by
  intro l t l' hsplit
  rcases List.eq_nil_or_concat l' with rfl | ⟨m, u, rfl⟩
  · rcases List.append_inj' hsplit rfl with ⟨rfl, hlast⟩
    rcases List.cons.inj hlast with ⟨rfl, -⟩
    rfl
  · rw [List.concat_eq_append, ← List.cons_append, ← List.append_assoc] at hsplit
    exact honest l t m (List.append_inj' hsplit rfl).1

/-- A computation that keeps a history honest. -/
abbrev Keeps (c : SysioReconcile.Callback) {α : Type} (m : Io α) : Prop :=
  Moves (fun h h' => Honest c h → Honest c h') m

variable {c : SysioReconcile.Callback}

instance : IsPreorder (List Transfer) fun h h' => Honest c h → Honest c h' where
  refl _ honest := honest
  trans _ _ _ first second honest := second (first honest)

theorem call_keeps (base n : ℕ) (off : ℤ) : Keeps c (c.call base n off) := by
  intro h r h' run honest
  rcases bind_ok.mp run with ⟨h₁, h₂, hread, run⟩
  rcases read_ok.mp hread with ⟨rfl, rfl⟩
  rcases bind_ok.mp run with ⟨u, h₃, hwrite, hend⟩
  rcases write_ok.mp hwrite with rfl
  rcases pure_ok.mp hend with ⟨-, rfl⟩
  exact honest.snoc base n off

theorem fault_keeps {α : Type} (e : Fault) : Keeps c (Exec.fault e : Io α) := by
  intro h r h' run
  exact (fault_ok.mp run).elim

theorem check_keeps (e : Fault) (f : List Transfer → Bool) : Keeps c (Exec.check e f : Io Unit) :=
  moves_check e f

theorem ite_keeps {α : Type} {p : Prop} [Decidable p] {m n : Io α} (hm : Keeps c m) (hn : Keeps c n) :
    Keeps c (if p then m else n) := by
  by_cases hp : p
  · rw [if_pos hp]
    exact hm
  · rw [if_neg hp]
    exact hn

theorem available_keeps (l : List Iovec) (count n : ℕ) (acc : ℤ) :
    Keeps c (available l count n acc) := by
  induction l generalizing count n acc with
  | nil =>
    unfold available
    exact ite_keeps (moves_pure _) (fault_keeps _)
  | cons v l ih =>
    unfold available
    apply ite_keeps (moves_pure _)
    apply ite_keeps (moves_pure _)
    apply ite_keeps (ih _ _ _)
    exact ite_keeps (moves_pure _) (ih _ _ _)

theorem iovecLoop_keeps (l : List Iovec) (count : ℕ) (off limit acc : ℤ) :
    Keeps c (iovecLoop c l count off limit acc) := by
  induction l generalizing count off limit acc with
  | nil =>
    cases count with
    | zero => exact moves_pure _
    | succ k => exact fault_keeps _
  | cons v l ih =>
    cases count with
    | zero => exact moves_pure _
    | succ k =>
      unfold iovecLoop
      apply ite_keeps (ih _ _ _ _)
      apply moves_bind (call_keeps _ _ _)
      intro cc
      apply ite_keeps (moves_pure _)
      apply moves_bind (check_keeps _ _)
      intro u
      exact ite_keeps (moves_pure _) (ih _ _ _ _)

theorem sysioDoioHelper_keeps (iov : List Iovec) (count off limit : ℤ) :
    Keeps c (sysioDoioHelper c iov count off limit) := by
  unfold sysioDoioHelper sysioEnumerateIovec
  apply ite_keeps (moves_pure _)
  apply moves_bind (check_keeps _ _)
  intro u
  apply moves_bind (available_keeps _ _ _ _)
  intro acc
  apply ite_keeps (moves_pure _)
  exact ite_keeps (moves_pure _) (iovecLoop_keeps _ _ _ _ _)

theorem extentsLoop_keeps (fuel : ℕ) (off : ℤ) (len : ℕ) (xtv : List Xtvec) (carried : Iovec)
    (iov : List Iovec) (acc : ℤ) :
    Keeps c (extentsLoop (sysioDoioHelper c) fuel off len xtv carried iov acc) := by
  induction fuel generalizing off len xtv carried iov acc with
  | zero => exact fault_keeps _
  | succ fuel ih =>
    unfold extentsLoop
    apply ite_keeps
    · cases xtv with
      | nil => exact moves_pure _
      | cons x l => exact ih _ _ _ _ _ _
    apply ite_keeps
    · apply moves_bind (sysioDoioHelper_keeps _ _ _ _)
      intro cc
      apply ite_keeps (moves_pure _)
      apply moves_bind (check_keeps _ _)
      intro u
      exact ih _ _ _ _ _ _
    · cases iov with
      | nil => exact moves_pure _
      | cons v l =>
        apply ite_keeps (ih _ _ _ _ _ _)
        apply moves_bind (sysioDoioHelper_keeps _ _ _ _)
        intro cc
        apply ite_keeps (moves_pure _)
        apply moves_bind (check_keeps _ _)
        intro u
        exact ite_keeps (moves_pure _) (ih _ _ _ _ _ _)

end Histories

section Play

variable {d : Driver σ} {s s₁ s' : σ} {xtv : List Xtvec} {iov : List Iovec} {r : ℤ}

theorem replay_append (h l : List Transfer) :
    d.replay (h ++ l) = d.replay h >>= fun _ => d.replay l := by
  induction h with
  | nil => rfl
  | cons t h ih =>
    change d.move t.base t.size t.off >>= (fun _ => d.replay (h ++ l)) = _
    rw [ih]
    exact (bind_assoc _ _ _).symm

/-- The answer to a call is what the driver returns where the calls before left off. -/
theorem answer_move {h : List Transfer} {base n : ℕ} {off : ℤ} (before : d.replay h s = .ok ((), s₁))
    (call : d.move base n off s₁ = .ok (r, s')) : d.answer s h base n off = r := by
  unfold Driver.answer
  rw [bind_run before, call]

/-- An honest history that can be replayed was played. -/
theorem played_of_honest (l : List Transfer) {h : List Transfer} (honest : Honest (d.callback s) (h ++ l))
    (before : d.replay h s = .ok ((), s₁)) (run : d.replay l s₁ = .ok ((), s')) :
    Played d s₁ l s' := by
  induction l generalizing h s₁ with
  | nil =>
    rcases pure_ok.mp run with ⟨-, rfl⟩
    exact Played.nil s₁
  | cons t l ih =>
    rcases bind_ok.mp run with ⟨r, s₂, call, rest⟩
    have hcount : t.count = r := (honest h t l rfl).trans (answer_move before call)
    have honest' : Honest (d.callback s) ((h ++ [t]) ++ l) := by
      rw [List.append_assoc]
      exact honest
    have before' : d.replay (h ++ [t]) s = .ok ((), s₂) := by
      rw [replay_append, bind_run before]
      apply bind_ok.mpr
      exact ⟨r, s₂, call, rfl⟩
    rw [← hcount] at call
    exact Played.cons call (ih honest' before' rest)

theorem Played.replay {l : List Transfer} (played : Played d s l s') :
    d.replay l s = .ok ((), s') := by
  induction played with
  | nil s => rfl
  | cons call _ ih =>
    apply bind_ok.mpr
    exact ⟨_, _, call, ih⟩

/-- A transfer whose calls can all be made returns. -/
theorem doio_run {h : List Transfer} (loops : sysioDoio (d.callback s) xtv iov [] = .ok (r, h))
    (replay : d.replay h s = .ok ((), s')) : d.doio xtv iov s = .ok (r, s') := by
  unfold Driver.doio
  rw [loops]
  apply bind_ok.mpr
  exact ⟨(), s', replay, rfl⟩

/-- A transfer that returns has played the calls that it made. -/
theorem doio_ok : d.doio xtv iov s = .ok (r, s') ↔
    ∃ h, sysioDoio (d.callback s) xtv iov [] = .ok (r, h) ∧ Played d s h s' := by
  constructor
  · intro run
    unfold Driver.doio at run
    cases hloops : sysioDoio (d.callback s) xtv iov [] with
    | error e =>
      rw [hloops] at run
      exact absurd run (by simp)
    | ok res =>
      rcases res with ⟨r₁, h⟩
      rw [hloops] at run
      rcases bind_ok.mp run with ⟨u, s₁, hreplay, hend⟩
      rcases pure_ok.mp hend with ⟨rfl, rfl⟩
      have honest : Honest (d.callback s) ([] ++ h) :=
        extentsLoop_keeps _ _ _ _ _ _ _ _ _ _ hloops (Honest.nil _)
      exact ⟨h, rfl, played_of_honest h honest rfl hreplay⟩
  · rintro ⟨h, hloops, played⟩
    exact doio_run hloops played.replay

end Play

end StatefulDriver
