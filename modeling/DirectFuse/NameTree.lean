import Mathlib.Data.Nat.Notation
import Mathlib.Logic.Function.Basic

/-! Trees of names: nodes with numbers and kinds, and in each directory some names that lead to
nodes. Directories are named once, in a directory that is older. -/
namespace NameTree

variable {ν κ : Type} [DecidableEq ν]

structure Tree (ν κ : Type) where
  find : ℕ × ν → Option ℕ
  kind : ℕ → Option κ
  up : ℕ → ℕ

/-- What calls do to the names. -/
inductive Change (ν κ : Type) where
  | make (i : ℕ) (k : κ) (p : ℕ) (n : ν)
  | bind (p : ℕ) (n : ν) (i : ℕ)
  | unbind (p : ℕ) (n : ν)
  | move (p : ℕ) (n : ν) (q : ℕ) (m : ν)
  | same

namespace Tree

variable {t : Tree ν κ} {dir : κ}

def bind (t : Tree ν κ) (p : ℕ) (n : ν) (i : Option ℕ) : Tree ν κ :=
  { t with find := Function.update t.find (p, n) i }

def apply (t : Tree ν κ) : Change ν κ → Tree ν κ
  | .make i k p n =>
    { find := Function.update t.find (p, n) (some i)
      kind := Function.update t.kind i (some k)
      up := Function.update t.up i p }
  | .bind p n i => t.bind p n (some i)
  | .unbind p n => t.bind p n none
  | .move p n q m => (t.bind q m (t.find (p, n))).bind p n none
  | .same => t

structure Sound (dir : κ) (t : Tree ν κ) : Prop where
  known : ∀ x i, t.find x = some i → t.kind i ≠ none
  above : ∀ x i, t.find x = some i → t.kind i = some dir → t.up i = x.1 ∧ x.1 < i
  once : ∀ x y i, t.find x = some i → t.find y = some i → t.kind i = some dir → x = y

/-- A name that is bound to nothing, or to what is no directory. -/
theorem Sound.bind (sound : Sound dir t) {p : ℕ} {n : ν} {i : Option ℕ}
    (other : ∀ j, i = some j → ∃ k, t.kind j = some k ∧ k ≠ dir) : Sound dir (t.bind p n i) := by
  have cases_ : ∀ x j, (t.bind p n i).find x = some j →
      t.find x = some j ∨ ∃ k, t.kind j = some k ∧ k ≠ dir := by
    intro x j h
    by_cases hx : x = (p, n)
    · subst hx
      exact Or.inr (other j (by simpa [Tree.bind] using h))
    · left
      simpa [Tree.bind, Function.update_of_ne hx] using h
  have kept : ∀ x j, (t.bind p n i).find x = some j → t.kind j = some dir → t.find x = some j := by
    intro x j h hdir
    rcases cases_ x j h with old | ⟨k, hk, hne⟩
    · exact old
    · rw [hk] at hdir
      exact absurd (Option.some.inj hdir) hne
  constructor
  · intro x j h
    rcases cases_ x j h with old | ⟨k, hk, -⟩
    · exact sound.known x j old
    · exact fun none => Option.some_ne_none k (hk.symm.trans none)
  · intro x j h hdir
    exact sound.above x j (kept x j h hdir) hdir
  · intro x y j hx hy hdir
    exact sound.once x y j (kept x j hx hdir) (kept y j hy hdir) hdir

omit [DecidableEq ν] in
/-- A node that is new has no name. -/
theorem Sound.grow (sound : Sound dir t) {i u : ℕ} {k : κ} (new : t.kind i = none) :
    Sound dir { t with kind := Function.update t.kind i (some k), up := Function.update t.up i u } := by
  have other : ∀ x j, t.find x = some j → j ≠ i := by
    rintro x j h rfl
    exact sound.known x j h new
  constructor
  · intro x j h
    simpa [Function.update_of_ne (other x j h)] using sound.known x j h
  · intro x j h hdir
    simp only [Function.update_of_ne (other x j h)] at hdir ⊢
    exact sound.above x j h hdir
  · intro x y j hx hy hdir
    simp only [Function.update_of_ne (other x j hx)] at hdir
    exact sound.once x y j hx hy hdir

/-- A node that is new has one name. -/
theorem Sound.make (sound : Sound dir t) {i p : ℕ} {k : κ} {n : ν} (older : p < i)
    (new : t.kind i = none) : Sound dir (t.apply (.make i k p n)) := by
  have unnamed : ∀ x, t.find x ≠ some i := fun x h => sound.known x i h new
  have cases_ : ∀ x j, (t.apply (.make i k p n)).find x = some j →
      x = (p, n) ∧ j = i ∨ x ≠ (p, n) ∧ t.find x = some j ∧ j ≠ i := by
    intro x j h
    by_cases hx : x = (p, n)
    · subst hx
      left
      simpa [apply, eq_comm] using h
    · have old : t.find x = some j := by simpa [apply, Function.update_of_ne hx] using h
      refine Or.inr ⟨hx, old, ?_⟩
      rintro rfl
      exact unnamed x old
  constructor
  · intro x j h
    rcases cases_ x j h with ⟨-, rfl⟩ | ⟨-, old, hj⟩
    · simp [apply]
    · simpa [apply, Function.update_of_ne hj] using sound.known x j old
  · intro x j h hdir
    rcases cases_ x j h with ⟨rfl, rfl⟩ | ⟨-, old, hj⟩
    · simpa [apply] using older
    · simp only [apply, Function.update_of_ne hj] at hdir ⊢
      exact sound.above x j old hdir
  · intro x y j hx hy hdir
    rcases cases_ x j hx with ⟨rfl, rfl⟩ | ⟨-, oldx, hj⟩
    · rcases cases_ y j hy with ⟨rfl, -⟩ | ⟨-, -, hne⟩
      · rfl
      · exact absurd rfl hne
    · rcases cases_ y j hy with ⟨-, rfl⟩ | ⟨-, oldy, -⟩
      · exact absurd rfl hj
      · simp only [apply, Function.update_of_ne hj] at hdir
        exact sound.once x y j oldx oldy hdir

/-- A directory at the top with no names in it. -/
def root (dir : κ) (i : ℕ) : Tree ν κ where
  find _ := none
  kind := Function.update (fun _ => none) i (some dir)
  up _ := i

omit [DecidableEq ν] in
theorem root_sound (dir : κ) (i : ℕ) : Sound dir (root dir i : Tree ν κ) := by
  constructor
  · rintro x j ⟨⟩
  · rintro x j ⟨⟩
  · rintro x y j ⟨⟩

/-- The way up from a named directory to one that is not named. -/
inductive Climbs (t : Tree ν κ) : ℕ → ℕ → Prop where
  | top {i : ℕ} (unnamed : ∀ x, t.find x ≠ some i) : Climbs t i i
  | step {i j : ℕ} {n : ν} (named : t.find (t.up i, n) = some i) (rest : Climbs t (t.up i) j) :
      Climbs t i j

omit [DecidableEq ν] in
/-- Going up from a directory comes to an end. -/
theorem Sound.climbs (sound : Sound dir t)
    (holds : ∀ p n i, t.find (p, n) = some i → t.kind p = some dir) (i : ℕ)
    (h : t.kind i = some dir) : ∃ j, j ≤ i ∧ Climbs t i j := by
  induction i using Nat.strongRecOn with
  | _ i ih =>
    by_cases named : ∃ x, t.find x = some i
    · obtain ⟨⟨p, n⟩, hx⟩ := named
      obtain ⟨up, older⟩ := sound.above (p, n) i hx h
      obtain ⟨j, below, rest⟩ := ih p older (holds p n i hx)
      refine ⟨j, Nat.le_trans below (Nat.le_of_lt older), ?_⟩
      have hx : t.find (t.up i, n) = some i := by rw [up]; exact hx
      exact .step hx (up ▸ rest)
    · refine ⟨i, Nat.le_refl i, .top ?_⟩
      intro x hx
      exact named ⟨x, hx⟩

end Tree

end NameTree
