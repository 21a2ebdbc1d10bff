import DirectFuse.ExecLogic

/-! Runs that spare a fault: they may stop at others, or return into a postcondition. For a fault
that stands for a loop without an end this is termination. -/
namespace Sparing

open ExecLogic Exec

variable {σ ε α β : Type}

/-- The run from `s` does not stop at `e`, and where it returns, it does so into `Q`. -/
def Spares (e : ε) (m : Exec σ ε α) (s : σ) (Q : α → σ → Prop) : Prop :=
  m s ≠ .error e ∧ ∀ a t, m s = .ok (a, t) → Q a t

section Rules

variable {e e' : ε} {m n : Exec σ ε α} {s : σ} {Q Q' : α → σ → Prop}

theorem spares_mono (h : Spares e m s Q) (hq : ∀ a t, m s = .ok (a, t) → Q a t → Q' a t) :
    Spares e m s Q' :=
  ⟨h.1, fun a t run => hq a t run (h.2 a t run)⟩

theorem spares_bind {f : β → Exec σ ε α} {m : Exec σ ε β}
    (h : Spares e m s fun b t => Spares e (f b) t Q) : Spares e (m >>= f) s Q := by
  constructor
  · cases hm : m s with
    | error d =>
      rw [bind_error hm]
      intro hd
      exact h.1 (hm.trans (congrArg Except.error (Except.error.inj hd)))
    | ok res =>
      obtain ⟨b, t⟩ := res
      rw [bind_run hm]
      exact (h.2 b t hm).1
  · intro a t run
    obtain ⟨b, u, hb, hf⟩ := bind_ok.mp run
    exact (h.2 b u hb).2 a t hf

theorem spares_pure {a : α} (h : Q a s) : Spares e (pure a : Exec σ ε α) s Q := by
  constructor
  · intro hd
    cases hd
  · intro b t run
    obtain ⟨rfl, rfl⟩ := pure_ok.mp run
    exact h

theorem spares_read {f : σ → α} (h : Q (f s) s) : Spares e (read f : Exec σ ε α) s Q := by
  constructor
  · intro hd
    cases hd
  · intro a t run
    obtain ⟨rfl, rfl⟩ := read_ok.mp run
    exact h

theorem spares_write {f : σ → σ} {Q : Unit → σ → Prop} (h : Q () (f s)) :
    Spares e (write f : Exec σ ε Unit) s Q := by
  constructor
  · intro hd
    cases hd
  · intro u t run
    obtain rfl := write_ok.mp run
    exact h

theorem spares_deref (hne : e' ≠ e) {f : σ → Option α} (h : ∀ a, f s = some a → Q a s) :
    Spares e (deref e' f : Exec σ ε α) s Q := by
  constructor
  · unfold deref
    cases f s with
    | none =>
      intro hd
      exact hne (Except.error.inj hd)
    | some a =>
      intro hd
      cases hd
  · intro a t run
    obtain ⟨ha, rfl⟩ := deref_ok.mp run
    exact h a ha

theorem spares_check (hne : e' ≠ e) {f : σ → Bool} {Q : Unit → σ → Prop} (h : f s = true → Q () s) :
    Spares e (check e' f : Exec σ ε Unit) s Q := by
  constructor
  · unfold check
    split
    · intro hd
      cases hd
    · intro hd
      exact hne (Except.error.inj hd)
  · intro u t run
    obtain ⟨hc, rfl⟩ := check_ok.mp run
    exact h hc

theorem spares_ite {c : Prop} [Decidable c] (hm : c → Spares e m s Q) (hn : ¬ c → Spares e n s Q) :
    Spares e (if c then m else n) s Q := by
  by_cases h : c
  · rw [if_pos h]
    exact hm h
  · rw [if_neg h]
    exact hn h

theorem spares_when {c : Prop} [Decidable c] {m : Exec σ ε Unit} {Q : Unit → σ → Prop}
    (hm : c → Spares e m s Q) (hn : ¬ c → Q () s) : Spares e (when c m) s Q :=
  spares_ite hm fun h => spares_pure (hn h)

/-- A run that stops at `e` gets past what spares `e`; another run goes the same way as far as
that. -/
theorem bind_turn {k k' : α → Exec σ ε β} {P : Except ε (β × σ) → Prop} (h : Spares e m s Q)
    (run : (m >>= k) s = .error e)
    (rest : ∀ a t, m s = .ok (a, t) → Q a t → k a t = .error e → P (k' a t)) :
    P ((m >>= k') s) := by
  cases hm : m s with
  | error d =>
    rw [bind_error hm] at run
    exact absurd (hm.trans (congrArg Except.error (Except.error.inj run))) h.1
  | ok res =>
    obtain ⟨a, t⟩ := res
    rw [bind_run hm] at run ⊢
    exact rest a t hm (h.2 a t hm) run

theorem ite_turn {c : Prop} [Decidable c] {m' n' : Exec σ ε α} {P : Except ε (α × σ) → Prop}
    (run : (if c then m else n) s = .error e) (yes : c → m s = .error e → P (m' s))
    (no : ¬ c → n s = .error e → P (n' s)) : P ((if c then m' else n') s) := by
  by_cases h : c
  · rw [if_pos h] at run ⊢
    exact yes h run
  · rw [if_neg h] at run ⊢
    exact no h run

end Rules

/-- The computation stops at `e` from no state. -/
def Avoids (e : ε) (m : Exec σ ε α) : Prop := ∀ s, m s ≠ .error e

theorem Avoids.spares {e : ε} {m : Exec σ ε α} {s : σ} {Q : α → σ → Prop} (h : Avoids e m)
    (hm : ∀ a t, m s = .ok (a, t) → Q a t) : Spares e m s Q := ⟨h s, hm⟩

theorem avoids_of_spares {e : ε} {m : Exec σ ε α}
    (h : ∀ s, Spares e m s fun _ _ => True) : Avoids e m := fun s => (h s).1

section AvoidsRules

variable {e e' : ε} {m n : Exec σ ε α}

theorem avoids_bind {f : β → Exec σ ε α} {m : Exec σ ε β} (hm : Avoids e m)
    (hf : ∀ b, Avoids e (f b)) : Avoids e (m >>= f) :=
  avoids_of_spares fun _ => spares_bind (hm.spares fun b _ _ => (hf b).spares fun _ _ _ => trivial)

theorem avoids_pure (a : α) : Avoids e (pure a : Exec σ ε α) :=
  avoids_of_spares fun _ => spares_pure trivial

theorem avoids_read (f : σ → α) : Avoids e (read f : Exec σ ε α) :=
  avoids_of_spares fun _ => spares_read trivial

theorem avoids_write (f : σ → σ) : Avoids e (write f : Exec σ ε Unit) :=
  avoids_of_spares fun _ => spares_write trivial

theorem avoids_deref (hne : e' ≠ e) (f : σ → Option α) : Avoids e (deref e' f : Exec σ ε α) :=
  avoids_of_spares fun _ => spares_deref hne fun _ _ => trivial

theorem avoids_check (hne : e' ≠ e) (f : σ → Bool) : Avoids e (check e' f : Exec σ ε Unit) :=
  avoids_of_spares fun _ => spares_check hne fun _ => trivial

theorem avoids_ite {c : Prop} [Decidable c] (hm : c → Avoids e m) (hn : ¬ c → Avoids e n) :
    Avoids e (if c then m else n) :=
  fun s => (spares_ite (fun h => (hm h).spares fun _ _ _ => trivial)
    fun h => (hn h).spares fun _ _ _ => trivial : Spares e _ s fun _ _ => True).1

theorem avoids_when {c : Prop} [Decidable c] {m : Exec σ ε Unit} (hm : c → Avoids e m) :
    Avoids e (when c m) := avoids_ite hm fun _ => avoids_pure ()

end AvoidsRules

end Sparing
