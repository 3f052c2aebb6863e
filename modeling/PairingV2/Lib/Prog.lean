import Mathlib

/-!
# Programs of actions

A program over a type of actions has ended in a result or performs its next action and goes on
with the answer. `Steps` is what it can do against a relation that says which answers an action may
get, and `exec` and `run` are the same against a function that answers every action, or that may
refuse to (a blocked action).
-/

namespace PairingV2

universe u v w x y

/-- A program: it has ended in a result, or performs the action `i` and goes on with its answer. -/
inductive Prog (ι : Type u) (ο : ι → Type v) (ρ : Type w) : Type (max u v w) where
  | ret (r : ρ) : Prog ι ο ρ
  | act (i : ι) (k : ο i → Prog ι ο ρ) : Prog ι ο ρ

abbrev Event (ι : Type u) (ο : ι → Type v) := (i : ι) × ο i

namespace Prog

variable {ι : Type u} {ο : ι → Type v} {ρ : Type w} {ρ' : Type x} {S : Type y}

def bind : Prog ι ο ρ → (ρ → Prog ι ο ρ') → Prog ι ο ρ'
  | .ret r, f => f r
  | .act i k, f => .act i fun a => (k a).bind f

/-- The program that performs one action and ends in its answer. -/
def perform (i : ι) : Prog ι ο (ο i) := .act i .ret

instance : Monad (Prog ι ο) where
  pure := .ret
  bind := bind

@[simp] theorem pure_eq (r : ρ) : (pure r : Prog ι ο ρ) = .ret r := rfl

@[simp] theorem bind_eq {ρ' : Type w} (p : Prog ι ο ρ) (f : ρ → Prog ι ο ρ') :
    (p >>= f) = p.bind f := rfl

@[simp] theorem ret_bind (r : ρ) (f : ρ → Prog ι ο ρ') : (ret r).bind f = f r := rfl

@[simp] theorem act_bind (i : ι) (k : ο i → Prog ι ο ρ) (f : ρ → Prog ι ο ρ') :
    (act i k).bind f = act i fun a => (k a).bind f := rfl

@[simp] theorem perform_bind (i : ι) (f : ο i → Prog ι ο ρ') :
    (perform i).bind f = act i f := rfl

/-! ## What a program can do -/

/-- `p` from `s` performs `es` and has `q` left, in `s'`. -/
inductive Steps (sem : (i : ι) → S → ο i → S → Prop) :
    Prog ι ο ρ → S → List (Event ι ο) → Prog ι ο ρ → S → Prop where
  | refl (p : Prog ι ο ρ) (s : S) : Steps sem p s [] p s
  | cons {i : ι} {k : ο i → Prog ι ο ρ} {s s₁ s' : S} {a : ο i} {es : List (Event ι ο)}
      {q : Prog ι ο ρ} (h : sem i s a s₁) (hs : Steps sem (k a) s₁ es q s') :
      Steps sem (.act i k) s (⟨i, a⟩ :: es) q s'

variable {sem : (i : ι) → S → ο i → S → Prop}

theorem Steps.trans {p q r : Prog ι ο ρ} {s s₁ s₂ : S} {es fs : List (Event ι ο)}
    (h : Steps sem p s es q s₁) (h' : Steps sem q s₁ fs r s₂) :
    Steps sem p s (es ++ fs) r s₂ := by
  induction h with
  | refl => exact h'
  | cons ha _ ih => exact .cons ha (ih h')

theorem Steps.snoc {p : Prog ι ο ρ} {s s₁ s₂ : S} {es : List (Event ι ο)} {i : ι}
    {k : ο i → Prog ι ο ρ} {a : ο i} (h : Steps sem p s es (.act i k) s₁)
    (ha : sem i s₁ a s₂) : Steps sem p s (es ++ [⟨i, a⟩]) (k a) s₂ :=
  h.trans (.cons ha (.refl _ _))

theorem steps_ret {r : ρ} {q : Prog ι ο ρ} {s s' : S} {es : List (Event ι ο)} :
    Steps sem (.ret r) s es q s' ↔ es = [] ∧ q = .ret r ∧ s' = s := by
  constructor
  · intro h
    cases h
    exact ⟨rfl, rfl, rfl⟩
  · rintro ⟨rfl, rfl, rfl⟩
    exact .refl _ _

theorem steps_act {i : ι} {k : ο i → Prog ι ο ρ} {r : ρ} {s s' : S} {es : List (Event ι ο)} :
    Steps sem (.act i k) s es (.ret r) s' ↔
      ∃ a s₁ fs, es = ⟨i, a⟩ :: fs ∧ sem i s a s₁ ∧ Steps sem (k a) s₁ fs (.ret r) s' := by
  constructor
  · intro h
    cases h with
    | cons ha hs => exact ⟨_, _, _, rfl, ha, hs⟩
  · rintro ⟨a, s₁, fs, rfl, ha, hs⟩
    exact .cons ha hs

/-- A sequence that has ended ended its first part and then its second. -/
theorem steps_bind {f : ρ → Prog ι ο ρ'} {r : ρ'} :
    ∀ {p : Prog ι ο ρ} {s s' : S} {es : List (Event ι ο)},
      Steps sem (p.bind f) s es (.ret r) s' → ∃ es₁ r₁ s₁ es₂, es = es₁ ++ es₂ ∧
        Steps sem p s es₁ (.ret r₁) s₁ ∧ Steps sem (f r₁) s₁ es₂ (.ret r) s'
  | .ret r₁, s, s', es, h => ⟨[], r₁, s, es, rfl, .refl _ _, h⟩
  | .act i k, s, s', es, h => by
    obtain ⟨a, s₁, fs, rfl, ha, hs⟩ := steps_act.1 h
    obtain ⟨es₁, r₁, s₂, es₂, rfl, h₁, h₂⟩ := steps_bind hs
    exact ⟨⟨i, a⟩ :: es₁, r₁, s₂, es₂, rfl, .cons ha h₁, h₂⟩

/-- What a program can do whatever the answers are. -/
abbrev Follows (p : Prog ι ο ρ) (es : List (Event ι ο)) (q : Prog ι ο ρ) : Prop :=
  Steps (fun _ (_ : Unit) _ _ => True) p () es q ()

/-! ## Answered programs -/

/-- The run of a program whose every action is answered by `h`: what it performed, its result and
the state it ends in. -/
def exec (h : (i : ι) → S → ο i × S) : Prog ι ο ρ → S → List (Event ι ο) × ρ × S
  | .ret r, s => ([], r, s)
  | .act i k, s =>
    let x := exec h (k (h i s).1) (h i s).2
    (⟨i, (h i s).1⟩ :: x.1, x.2)

/-- The run of a program some of whose actions `h` may refuse; `none` if one was refused. -/
def run (h : (i : ι) → S → Option (ο i × S)) : Prog ι ο ρ → S → Option (List (Event ι ο) × ρ × S)
  | .ret r, s => some ([], r, s)
  | .act i k, s =>
    match h i s with
    | none => none
    | some (a, s₁) => (run h (k a) s₁).map fun x => (⟨i, a⟩ :: x.1, x.2)

def det (h : (i : ι) → S → ο i × S) (i : ι) (s : S) (a : ο i) (s' : S) : Prop := h i s = (a, s')

variable (h : (i : ι) → S → ο i × S)

@[simp] theorem exec_ret (r : ρ) (s : S) : (ret r : Prog ι ο ρ).exec h s = ([], r, s) := rfl

@[simp] theorem exec_act (i : ι) (k : ο i → Prog ι ο ρ) (s : S) :
    (act i k).exec h s = (⟨i, (h i s).1⟩ :: ((k (h i s).1).exec h (h i s).2).1,
      ((k (h i s).1).exec h (h i s).2).2) := rfl

theorem exec_bind (f : ρ → Prog ι ο ρ') : ∀ (p : Prog ι ο ρ) (s : S),
    (p.bind f).exec h s = ((p.exec h s).1 ++ ((f (p.exec h s).2.1).exec h (p.exec h s).2.2).1,
      ((f (p.exec h s).2.1).exec h (p.exec h s).2.2).2)
  | .ret r, s => by simp
  | .act i k, s => by
    simp only [act_bind, exec_act, exec_bind f (k (h i s).1), List.cons_append]

theorem steps_exec : ∀ (p : Prog ι ο ρ) (s : S),
    Steps (det h) p s (p.exec h s).1 (.ret (p.exec h s).2.1) (p.exec h s).2.2
  | .ret _, _ => .refl _ _
  | .act i k, s => .cons rfl (steps_exec (k (h i s).1) (h i s).2)

/-- Where an answered program has got to, the rest of its run is the run of what is left. -/
theorem exec_of_steps {p q : Prog ι ο ρ} {s s' : S} {es : List (Event ι ο)}
    (hs : Steps (det h) p s es q s') :
    p.exec h s = (es ++ (q.exec h s').1, (q.exec h s').2) := by
  induction hs with
  | refl => simp
  | cons ha _ ih =>
    simp only [det] at ha
    rw [exec_act, ha, ih, List.cons_append]

theorem exec_of_steps_ret {p : Prog ι ο ρ} {r : ρ} {s s' : S} {es : List (Event ι ο)}
    (hs : Steps (det h) p s es (.ret r) s') : p.exec h s = (es, r, s') := by
  rw [exec_of_steps h hs]
  simp

/-- Answers that agree in related states give runs that agree. -/
theorem exec_sim {T : Type*} {h : (i : ι) → S → ο i × S} {g : (i : ι) → T → ο i × T}
    {R : S → T → Prop}
    (hsim : ∀ i s t, R s t → (h i s).1 = (g i t).1 ∧ R (h i s).2 (g i t).2) :
    ∀ (p : Prog ι ο ρ) {s : S} {t : T}, R s t →
      (p.exec h s).1 = (p.exec g t).1 ∧ (p.exec h s).2.1 = (p.exec g t).2.1 ∧
        R (p.exec h s).2.2 (p.exec g t).2.2
  | .ret r, s, t, hR => ⟨rfl, rfl, hR⟩
  | .act i k, s, t, hR => by
    obtain ⟨hans, hnext⟩ := hsim i s t hR
    obtain ⟨hevents, hres, hend⟩ := exec_sim hsim (k (h i s).1) hnext
    rw [exec_act, exec_act, ← hans]
    exact ⟨by rw [hevents], hres, hend⟩

end Prog

end PairingV2
