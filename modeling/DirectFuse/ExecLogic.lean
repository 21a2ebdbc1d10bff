import Mathlib.Logic.Function.Basic
import Mathlib.Order.Defs.Unbundled

/-! State-threading computations that may stop at a fault, and their program logic.
A computation either returns a value with the next state or stops: a fault has no
next state, so a postcondition only speaks about the runs that return. -/
namespace ExecLogic

def Exec (σ ε α : Type) : Type := σ → Except ε (α × σ)

variable {σ ε α β γ : Type}

namespace Exec

def ret (a : α) : Exec σ ε α := fun s => .ok (a, s)

def andThen (m : Exec σ ε α) (f : α → Exec σ ε β) : Exec σ ε β := fun s =>
  match m s with
  | .ok (a, t) => f a t
  | .error e => .error e

instance : Monad (Exec σ ε) where
  pure := ret
  bind := andThen

def fault (e : ε) : Exec σ ε α := fun _ => .error e

def read (f : σ → α) : Exec σ ε α := fun s => .ok (f s, s)

def write (f : σ → σ) : Exec σ ε Unit := fun s => .ok ((), f s)

/-- Reads a partial view of the state; a missing value is the fault `e`. -/
def deref (e : ε) (f : σ → Option α) : Exec σ ε α := fun s =>
  match f s with
  | some a => .ok (a, s)
  | none => .error e

def check (e : ε) (f : σ → Bool) : Exec σ ε Unit := fun s =>
  if f s then .ok ((), s) else .error e

def when (c : Prop) [Decidable c] (m : Exec σ ε Unit) : Exec σ ε Unit :=
  if c then m else ret ()

/-- The value a run returns, if it returns. -/
def value (m : Exec σ ε α) (s : σ) : Option α :=
  match m s with
  | .ok (a, _) => some a
  | .error _ => none

/-- The state a run ends in; a run that stops at a fault ends where it started. -/
def final (m : Exec σ ε α) (s : σ) : σ :=
  match m s with
  | .ok (_, t) => t
  | .error _ => s

end Exec

open Exec

theorem ok_of_value {m : Exec σ ε α} {s : σ} {a : α} (h : m.value s = some a) :
    m s = .ok (a, m.final s) := by
  unfold value at h
  unfold final
  cases hm : m s with
  | error e => simp [hm] at h
  | ok r =>
    obtain ⟨b, t⟩ := r
    simp only [hm, Option.some.injEq] at h
    simp [h]

@[simp] theorem pure_ok {a b : α} {s t : σ} :
    (pure a : Exec σ ε α) s = .ok (b, t) ↔ a = b ∧ s = t := by
  change Except.ok (a, s) = Except.ok (b, t) ↔ _
  simp

@[simp] theorem bind_ok {m : Exec σ ε α} {f : α → Exec σ ε β} {s t : σ} {b : β} :
    (m >>= f) s = .ok (b, t) ↔ ∃ a u, m s = .ok (a, u) ∧ f a u = .ok (b, t) := by
  change andThen m f s = _ ↔ _
  unfold andThen
  cases h : m s with
  | error e => simp
  | ok r =>
    obtain ⟨a, u⟩ := r
    constructor
    · intro hf
      exact ⟨a, u, rfl, hf⟩
    · rintro ⟨a', u', he, hf⟩
      cases he
      exact hf

theorem bind_run {m : Exec σ ε α} {f : α → Exec σ ε β} {s t : σ} {a : α} (hm : m s = .ok (a, t)) :
    (m >>= f) s = f a t := by
  change andThen m f s = _
  unfold andThen
  rw [hm]

theorem bind_error {m : Exec σ ε α} {f : α → Exec σ ε β} {s : σ} {e : ε} (hm : m s = .error e) :
    (m >>= f) s = .error e := by
  change andThen m f s = _
  unfold andThen
  rw [hm]

/-- Two computations that begin alike, and go on alike where they get to, run alike. -/
theorem bind_same {m m' : Exec σ ε α} {f f' : α → Exec σ ε β} {s : σ} (hm : m' s = m s)
    (hf : ∀ a t, m s = .ok (a, t) → f' a t = f a t) : (m' >>= f') s = (m >>= f) s := by
  cases h : m s with
  | error e => rw [bind_error h, bind_error (hm.trans h)]
  | ok res =>
    obtain ⟨a, t⟩ := res
    rw [bind_run h, bind_run (hm.trans h)]
    exact hf a t h

theorem ite_same {c : Prop} [Decidable c] {m m' n n' : Exec σ ε α} {s : σ} (hm : c → m' s = m s)
    (hn : ¬ c → n' s = n s) : (if c then m' else n') s = (if c then m else n) s := by
  by_cases h : c
  · simpa [h] using hm h
  · simpa [h] using hn h

theorem andThen_ret (m : Exec σ ε α) : andThen m ret = m := by
  funext s
  unfold andThen
  cases m s <;> rfl

theorem andThen_assoc (m : Exec σ ε α) (f : α → Exec σ ε β) (g : β → Exec σ ε γ) :
    andThen (andThen m f) g = andThen m fun a => andThen (f a) g := by
  funext s
  unfold andThen
  cases m s <;> rfl

instance : LawfulMonad (Exec σ ε) :=
  LawfulMonad.mk' _ andThen_ret (fun _ _ => rfl) andThen_assoc

theorem ite_bind {c : Prop} [Decidable c] (m n : Exec σ ε α) (f : α → Exec σ ε β) :
    (if c then m else n) >>= f = if c then m >>= f else n >>= f := by
  by_cases h : c <;> simp [h]

@[simp] theorem fault_ok {e : ε} {s t : σ} {a : α} :
    (fault e : Exec σ ε α) s = .ok (a, t) ↔ False := by simp [fault]

@[simp] theorem read_ok {f : σ → α} {s t : σ} {a : α} :
    (read f : Exec σ ε α) s = .ok (a, t) ↔ f s = a ∧ s = t := by simp [Exec.read]

@[simp] theorem write_ok {f : σ → σ} {s t : σ} {u : Unit} :
    (write f : Exec σ ε Unit) s = .ok (u, t) ↔ f s = t := by simp [write]

@[simp] theorem deref_ok {e : ε} {f : σ → Option α} {s t : σ} {a : α} :
    (deref e f : Exec σ ε α) s = .ok (a, t) ↔ f s = some a ∧ s = t := by
  unfold deref
  cases f s <;> simp

@[simp] theorem check_ok {e : ε} {f : σ → Bool} {s t : σ} {u : Unit} :
    (check e f : Exec σ ε Unit) s = .ok (u, t) ↔ f s = true ∧ s = t := by
  unfold check
  split <;> simp_all

@[simp] theorem when_ok {c : Prop} [Decidable c] {m : Exec σ ε Unit} {s t : σ} {u : Unit} :
    (when c m) s = .ok (u, t) ↔ (c ∧ m s = .ok (u, t)) ∨ (¬ c ∧ s = t) := by
  unfold when
  by_cases h : c <;> simp [h, ret]


/-- Partial correctness: every run from `P` that returns, returns into `Q`. -/
def Triple (P : σ → Prop) (m : Exec σ ε α) (Q : α → σ → Prop) : Prop :=
  ∀ s, P s → ∀ a t, m s = .ok (a, t) → Q a t

/-- Every returning run relates its first and its last state by `R`. -/
def Moves (R : σ → σ → Prop) (m : Exec σ ε α) : Prop :=
  ∀ s a t, m s = .ok (a, t) → R s t

section Rules

variable {P P' : σ → Prop} {Q Q' : α → σ → Prop} {R : σ → σ → Prop}

theorem triple_use {m : Exec σ ε α} {s t : σ} {a : α} (hs : P s) (run : m s = .ok (a, t))
    (h : Triple P m Q) : Q a t := h s hs a t run

theorem triple_bind {M : β → σ → Prop} {m : Exec σ ε β} {f : β → Exec σ ε α}
    (hm : Triple P m M) (hf : ∀ b, Triple (M b) (f b) Q) : Triple P (m >>= f) Q := by
  intro s hs a t h
  obtain ⟨b, u, hb, hu⟩ := bind_ok.mp h
  exact hf b u (hm s hs b u hb) a t hu

theorem triple_pure {a : α} (h : ∀ s, P s → Q a s) :
    Triple P (pure a : Exec σ ε α) Q := by
  intro s hs b t hm
  obtain ⟨rfl, rfl⟩ := pure_ok.mp hm
  exact h s hs

theorem triple_fault {e : ε} : Triple P (fault e : Exec σ ε α) Q := by
  intro s _ a t h
  exact (fault_ok.mp h).elim

theorem triple_read {f : σ → α} (h : ∀ s, P s → Q (f s) s) :
    Triple P (read f : Exec σ ε α) Q := by
  intro s hs a t hm
  obtain ⟨rfl, rfl⟩ := read_ok.mp hm
  exact h s hs

theorem triple_ite {c : Prop} [Decidable c] {m n : Exec σ ε α}
    (hm : c → Triple P m Q) (hn : ¬ c → Triple P n Q) :
    Triple P (if c then m else n) Q := by
  by_cases h : c
  · simpa [h] using hm h
  · simpa [h] using hn h

theorem triple_weaken {m : Exec σ ε α} (h : Triple P' m Q') (hp : ∀ s, P s → P' s)
    (hq : ∀ a s, Q' a s → Q a s) : Triple P m Q :=
  fun s hs a t hm => hq a t (h s (hp s hs) a t hm)

end Rules

section MovesRules

variable {R : σ → σ → Prop} [IsPreorder σ R]

theorem moves_pure (a : α) : Moves R (pure a : Exec σ ε α) := by
  intro s b t h
  obtain ⟨-, rfl⟩ := pure_ok.mp h
  exact Std.Refl.refl s

theorem moves_read (f : σ → α) : Moves R (read f : Exec σ ε α) := by
  intro s b t h
  obtain ⟨-, rfl⟩ := read_ok.mp h
  exact Std.Refl.refl s

theorem moves_deref (e : ε) (f : σ → Option α) : Moves R (deref e f : Exec σ ε α) := by
  intro s b t h
  obtain ⟨-, rfl⟩ := deref_ok.mp h
  exact Std.Refl.refl s

theorem moves_check (e : ε) (f : σ → Bool) : Moves R (check e f : Exec σ ε Unit) := by
  intro s b t h
  obtain ⟨-, rfl⟩ := check_ok.mp h
  exact Std.Refl.refl s

theorem moves_bind {m : Exec σ ε α} {f : α → Exec σ ε β} (hm : Moves R m)
    (hf : ∀ a, Moves R (f a)) : Moves R (m >>= f) := by
  intro s b t h
  obtain ⟨a, u, hu, ht⟩ := bind_ok.mp h
  exact IsTrans.trans s u t (hm s a u hu) (hf a u b t ht)

theorem moves_when {c : Prop} [Decidable c] {m : Exec σ ε Unit} (hm : c → Moves R m) :
    Moves R (when c m) := by
  intro s u t h
  rcases when_ok.mp h with ⟨hc, h⟩ | ⟨-, rfl⟩
  · exact hm hc s u t h
  · exact Std.Refl.refl s

end MovesRules

/-- Runs of a system: each step is a computation that returned, from a state where `ok` allowed it. -/
inductive Steps {κ : Type} (step : κ → Exec σ ε α) (ok : σ → κ → Prop) : σ → σ → Prop where
  | refl (s : σ) : Steps step ok s s
  | snoc {s t u : σ} {c : κ} {a : α} (run : Steps step ok s t) (allowed : ok t c)
      (last : step c t = .ok (a, u)) : Steps step ok s u

theorem Steps.invariant {κ : Type} {step : κ → Exec σ ε α} {ok : σ → κ → Prop} {I : σ → Prop}
    (preserved : ∀ s c a t, I s → ok s c → step c s = .ok (a, t) → I t) {s t : σ}
    (run : Steps step ok s t) (start : I s) : I t := by
  induction run with
  | refl => exact start
  | snoc _ allowed last ih => exact preserved _ _ _ _ ih allowed last

/-- One step of a run, with the states around it. -/
structure Event (σ κ α : Type) where
  before : σ
  call : κ
  result : α
  after : σ

/-- Runs with what happened in them, the latest step first. -/
inductive Traced {κ : Type} (step : κ → Exec σ ε α) (ok : σ → κ → Prop) (s : σ) :
    List (Event σ κ α) → σ → Prop where
  | nil : Traced step ok s [] s
  | cons {h : List (Event σ κ α)} {t u : σ} {c : κ} {a : α} (run : Traced step ok s h t)
      (allowed : ok t c) (last : step c t = .ok (a, u)) : Traced step ok s (⟨t, c, a, u⟩ :: h) u

theorem Traced.invariant {κ : Type} {step : κ → Exec σ ε α} {ok : σ → κ → Prop}
    {I : List (Event σ κ α) → σ → Prop} {s t : σ} {h : List (Event σ κ α)}
    (run : Traced step ok s h t) (start : I [] s)
    (preserved : ∀ h t c a u, I h t → ok t c → step c t = .ok (a, u) → I (⟨t, c, a, u⟩ :: h) u) :
    I h t := by
  induction run with
  | nil => exact start
  | cons _ allowed last ih => exact preserved _ _ _ _ _ ih allowed last

theorem moves_fault {R : σ → σ → Prop} (e : ε) : Moves R (fault e : Exec σ ε α) := by
  intro s b t h
  exact (fault_ok.mp h).elim

theorem moves_write {R : σ → σ → Prop} {f : σ → σ} (h : ∀ s, R s (f s)) :
    Moves R (write f : Exec σ ε Unit) := by
  intro s u t hm
  obtain rfl := write_ok.mp hm
  exact h s

theorem moves_ite {R : σ → σ → Prop} {c : Prop} [Decidable c] {m n : Exec σ ε α}
    (hm : c → Moves R m) (hn : ¬ c → Moves R n) : Moves R (if c then m else n) := by
  by_cases h : c
  · simpa [h] using hm h
  · simpa [h] using hn h

theorem Moves.mono {R R' : σ → σ → Prop} {m : Exec σ ε α} (h : Moves R m)
    (hr : ∀ s t, R s t → R' s t) : Moves R' m :=
  fun s a t hm => hr s t (h s a t hm)

end ExecLogic
