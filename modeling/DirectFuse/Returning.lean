import DirectFuse.ExecLogic

/-! Runs that return: they stop at no fault. A run is followed forwards, with what holds on the way
as its postcondition. -/
namespace Returning

open ExecLogic Exec

variable {σ ε α β : Type}

/-- The run from `s` returns, into `Q`. -/
def Returns (m : Exec σ ε α) (s : σ) (Q : α → σ → Prop) : Prop := ∃ a t, m s = .ok (a, t) ∧ Q a t

section Rules

variable {m n : Exec σ ε α} {s : σ} {Q Q' : α → σ → Prop}

theorem returns_mono (h : Returns m s Q) (hq : ∀ a t, m s = .ok (a, t) → Q a t → Q' a t) :
    Returns m s Q' := by
  obtain ⟨a, t, run, hQ⟩ := h
  exact ⟨a, t, run, hq a t run hQ⟩

theorem returns_of_run {a : α} {t : σ} (run : m s = .ok (a, t)) (h : Q a t) : Returns m s Q :=
  ⟨a, t, run, h⟩

theorem returns_bind {f : β → Exec σ ε α} {m : Exec σ ε β}
    (h : Returns m s fun b t => Returns (f b) t Q) : Returns (m >>= f) s Q := by
  obtain ⟨b, u, hb, a, t, run, hQ⟩ := h
  refine ⟨a, t, ?_, hQ⟩
  rw [bind_run hb]
  exact run

theorem returns_pure {a : α} (h : Q a s) : Returns (pure a : Exec σ ε α) s Q :=
  returns_of_run (pure_ok.mpr ⟨rfl, rfl⟩) h

theorem returns_read {f : σ → α} (h : Q (f s) s) : Returns (read f : Exec σ ε α) s Q :=
  returns_of_run (read_ok.mpr ⟨rfl, rfl⟩) h

theorem returns_write {f : σ → σ} {Q : Unit → σ → Prop} (h : Q () (f s)) :
    Returns (write f : Exec σ ε Unit) s Q :=
  returns_of_run (write_ok.mpr rfl) h

theorem returns_deref {e : ε} {f : σ → Option α} {a : α} (ha : f s = some a) (h : Q a s) :
    Returns (deref e f : Exec σ ε α) s Q :=
  returns_of_run (deref_ok.mpr ⟨ha, rfl⟩) h

theorem returns_check {e : ε} {f : σ → Bool} {Q : Unit → σ → Prop} (hc : f s = true) (h : Q () s) :
    Returns (check e f : Exec σ ε Unit) s Q :=
  returns_of_run (check_ok.mpr ⟨hc, rfl⟩) h

theorem returns_ite {c : Prop} [Decidable c] (hm : c → Returns m s Q) (hn : ¬ c → Returns n s Q) :
    Returns (if c then m else n) s Q := by
  by_cases h : c
  · rw [if_pos h]
    exact hm h
  · rw [if_neg h]
    exact hn h

theorem returns_when {c : Prop} [Decidable c] {m : Exec σ ε Unit} {Q : Unit → σ → Prop}
    (hm : c → Returns m s Q) (hn : ¬ c → Q () s) : Returns (when c m) s Q :=
  returns_ite hm fun h => returns_pure (hn h)

end Rules

end Returning
