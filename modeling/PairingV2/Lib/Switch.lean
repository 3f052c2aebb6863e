import Mathlib

/-!
# Switch statements

Statement lists of C++ with labels: a `switch` jumps into its body, to the label of its value or
else to `default`, and the statements from there on are executed through later labels until a
`break` or a `return`. A `break` leaves the innermost `switch` only, and the labels of an inner
`switch` are not seen from an outer one.
-/

namespace PairingV2

/-- A statement list: `X` are the variables a `switch` may ask for, `V` their values, `R` what a
`return` may return. -/
inductive Stmts (X V R : Type*) where
  | nil
  | case (v : V) (rest : Stmts X V R)
  | default (rest : Stmts X V R)
  | skip (rest : Stmts X V R)
  | brk (rest : Stmts X V R)
  | ret (r : R) (rest : Stmts X V R)
  | switch (x : X) (body rest : Stmts X V R)

inductive Executed (R : Type*) where
  | brk
  | ret (r : R)
  deriving DecidableEq

inductive Outcome (R : Type*) where
  | fell
  | broke
  | returned (r : R)
  deriving DecidableEq

/-- What was returned, by a function that does return. -/
def Outcome.value {R : Type*} : (o : Outcome R) → (∃ r, o = .returned r) → R
  | .returned r, _ => r
  | .fell, h => absurd h (by simp)
  | .broke, h => absurd h (by simp)

theorem Outcome.value_eq {R : Type*} {o : Outcome R} {r : R} (h : o = .returned r) :
    o.value ⟨r, h⟩ = r := by
  subst h
  rfl

/-- Executing statements, or on the way to a label of this `switch`. -/
inductive Mode (V : Type*) where
  | run
  | seekCase (v : V)
  | seekDefault

namespace Stmts

variable {X V R : Type*} [DecidableEq V]

/-- The body has a label for the value, not counting those of an inner `switch`. -/
def hasCase (v : V) : Stmts X V R → Bool
  | .nil => false
  | .case v' c => v = v' || c.hasCase v
  | .default c => c.hasCase v
  | .skip c => c.hasCase v
  | .brk c => c.hasCase v
  | .ret _ c => c.hasCase v
  | .switch _ _ c => c.hasCase v

/-- The label that a `switch` on the value jumps to. -/
def label (v : V) (body : Stmts X V R) : Mode V :=
  if body.hasCase v then .seekCase v else .seekDefault

/-- The statements executed, and how the list was left. -/
def exec (env : X → V) : Mode V → Stmts X V R → List (Executed R) × Outcome R
  | _, .nil => ([], .fell)
  | .run, .case _ c => exec env .run c
  | .seekCase v, .case v' c => if v = v' then exec env .run c else exec env (.seekCase v) c
  | .seekDefault, .case _ c => exec env .seekDefault c
  | .run, .default c => exec env .run c
  | .seekCase v, .default c => exec env (.seekCase v) c
  | .seekDefault, .default c => exec env .run c
  | m, .skip c => exec env m c
  | .run, .brk _ => ([.brk], .broke)
  | .seekCase v, .brk c => exec env (.seekCase v) c
  | .seekDefault, .brk c => exec env .seekDefault c
  | .run, .ret r _ => ([.ret r], .returned r)
  | .seekCase v, .ret _ c => exec env (.seekCase v) c
  | .seekDefault, .ret _ c => exec env .seekDefault c
  | .run, .switch x body c =>
    match exec env (body.label (env x)) body with
    | (tr, .returned r) => (tr, .returned r)
    | (tr, .broke) => (tr ++ (exec env .run c).1, (exec env .run c).2)
    | (tr, .fell) => (tr ++ (exec env .run c).1, (exec env .run c).2)
  | .seekCase v, .switch _ _ c => exec env (.seekCase v) c
  | .seekDefault, .switch _ _ c => exec env .seekDefault c

end Stmts

end PairingV2
