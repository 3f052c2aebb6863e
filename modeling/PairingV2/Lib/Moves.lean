import Mathlib

/-!
# Moves

What can be reached from a state by moves, each of which is possible or not and meets a guard, and
the states that are reached by a list of moves.
-/

namespace PairingV2

universe u v

variable {S : Type u} {M : Type v}

/-- What moves that meet the guard can reach. -/
inductive Reaches (step : S → M → Option S) (guard : S → M → Prop) (s₀ : S) : S → Prop where
  | start : Reaches step guard s₀ s₀
  | move {s s' : S} {m : M} (h : Reaches step guard s₀ s) (hg : guard s m)
      (hs : step s m = some s') : Reaches step guard s₀ s'

/-- The guard that every move meets. -/
def always (_ : S) (_ : M) : Prop := True

instance (s : S) (m : M) : Decidable (always s m) := inferInstanceAs (Decidable True)

namespace Reaches

variable {step : S → M → Option S} {guard : S → M → Prop} {s₀ s : S} {P : S → Prop}

theorem invariant (h : Reaches step guard s₀ s) (h₀ : P s₀)
    (hP : ∀ s s' m, P s → guard s m → step s m = some s' → P s') : P s := by
  induction h with
  | start => exact h₀
  | move _ hg hs ih => exact hP _ _ _ ih hg hs

/-- What every move in a run leaves as it is or moves on its own is a run too. -/
theorem simulated {S' M' : Type*} {step' : S' → M' → Option S'} {guard' : S' → M' → Prop}
    (f : S → S') (hf : ∀ s s' m, Reaches step guard s₀ s → guard s m → step s m = some s' →
      f s' = f s ∨ ∃ m', guard' (f s) m' ∧ step' (f s) m' = some (f s'))
    (h : Reaches step guard s₀ s) : Reaches step' guard' (f s₀) (f s) := by
  induction h with
  | start => exact .start
  | @move s s' m h hg hs ih =>
    rcases hf s s' m h hg hs with heq | ⟨m', hg', hm'⟩
    · rw [heq]
      exact ih
    · exact ih.move hg' hm'

/-- A part of the state that every move leaves as it is or moves on its own. -/
theorem part {S' M' : Type*} {step' : S' → M' → Option S'} (f : S → S')
    (hf : ∀ s s' m, step s m = some s' → f s' = f s ∨ ∃ m', step' (f s) m' = some (f s'))
    (h : Reaches step guard s₀ s) : Reaches step' always (f s₀) (f s) := by
  refine h.simulated f fun s s' m _ _ hs => (hf s s' m hs).imp_right ?_
  rintro ⟨m', hm'⟩
  exact ⟨m', trivial, hm'⟩

end Reaches

/-- The state after a list of moves; `none` where one is not possible or does not meet the guard. -/
def playAll (step : S → M → Option S) (guard : S → M → Prop) [∀ s m, Decidable (guard s m)] :
    S → List M → Option S
  | s, [] => some s
  | s, m :: ms => if guard s m then (step s m).bind fun s' => playAll step guard s' ms else none

theorem reaches_playAll {step : S → M → Option S} {guard : S → M → Prop}
    [∀ s m, Decidable (guard s m)] {s₀ : S} : ∀ {ms : List M} {s s' : S},
      Reaches step guard s₀ s → playAll step guard s ms = some s' → Reaches step guard s₀ s'
  | [], s, s', h, hp => by
    obtain rfl := Option.some.inj hp
    exact h
  | m :: ms, s, s', h, hp => by
    unfold playAll at hp
    split_ifs at hp with hg
    obtain ⟨s₁, hs, hp⟩ := Option.bind_eq_some_iff.1 hp
    exact reaches_playAll (.move h hg hs) hp

end PairingV2
