import PairingV2.Lib.Monitor

/-!
# The state machine of `usm.h`

`StateMachine` calls three hooks of a derived class. `run_current_state` and `choose_next_state`
may read and change the members of the object; `print_transition` is `const`, so it reads them and
changes only where it writes to. A hook returns or throws. `iterateOnce` and `getState` are the two
public members, as the actions they perform under the state mutex; `Iter` lists what one
`iterate_once` can do.
-/

namespace PairingV2

namespace Usm

inductive Transition where
  | tRepeat | tNext1 | tNext2 | tNext3 | tNext4 | tError
  deriving DecidableEq, Repr

/-- The hooks of a derived class: `H` is its members and whatever else the hooks may read and
change, `P` where `print_transition` writes to, `E` what a hook may throw.
`_print_repeat_transition` is a member that the hooks may set. -/
structure Hooks (σ H P E : Type) where
  runCurrentState : σ → H → Except E Transition × H
  chooseNextState : σ → Transition → H → Except E σ × H
  printTransition : σ → σ → Transition → H → P → Except E Unit × P
  printRepeatTransition : H → Bool

structure Fields (σ H P : Type) where
  currentState : σ
  vars : H
  log : P

/-- The actions on the fields. `change` is what a derived class does between `state_lock` and
`state_unlock`: `_current_state` is private, so it reaches the other members only. -/
inductive Act (σ H : Type) where
  | readCurrentState
  | writeCurrentState (newState : σ)
  | runCurrentState (currentState : σ)
  | chooseNextState (currentState : σ) (transition : Transition)
  | printTransition (currentState newState : σ) (t : Transition)
  | readPrintRepeatTransition
  | change (f : H → H)

@[reducible] def Ans (σ H E : Type) : Act σ H → Type
  | .readCurrentState => σ
  | .writeCurrentState _ => Unit
  | .runCurrentState _ => Except E Transition
  | .chooseNextState _ _ => Except E σ
  | .printTransition _ _ _ => Except E Unit
  | .readPrintRepeatTransition => Bool
  | .change _ => Unit

variable {σ H P E : Type}

def answer (hk : Hooks σ H P E) : (i : Act σ H) → Fields σ H P → Ans σ H E i × Fields σ H P
  | .readCurrentState, f => (f.currentState, f)
  | .writeCurrentState s, f => ((), { f with currentState := s })
  | .runCurrentState s, f =>
    let x := hk.runCurrentState s f.vars
    (x.1, { f with vars := x.2 })
  | .chooseNextState s t, f =>
    let x := hk.chooseNextState s t f.vars
    (x.1, { f with vars := x.2 })
  | .printTransition s s' t, f =>
    let x := hk.printTransition s s' t f.vars f.log
    (x.1, { f with log := x.2 })
  | .readPrintRepeatTransition, f => (hk.printRepeatTransition f.vars, f)
  | .change g, f => ((), { f with vars := g f.vars })

abbrev Code (σ H E ρ : Type) := ExceptT E (Prog (Act σ H) (Ans σ H E)) ρ

namespace Code

def currentState : Code σ H E σ := ExceptT.lift (.perform Act.readCurrentState)

def setCurrentState (newState : σ) : Code σ H E Unit :=
  ExceptT.lift (.perform (Act.writeCurrentState newState))

def printRepeatTransition : Code σ H E Bool := ExceptT.lift (.perform Act.readPrintRepeatTransition)

def runCurrentState (currentState : σ) : Code σ H E Transition :=
  ExceptT.mk (.perform (Act.runCurrentState currentState))

def chooseNextState (currentState : σ) (transition : Transition) : Code σ H E σ :=
  ExceptT.mk (.perform (Act.chooseNextState currentState transition))

def printTransition (currentState newState : σ) (t : Transition) : Code σ H E Unit :=
  ExceptT.mk (.perform (Act.printTransition currentState newState t))

end Code

/-- The body of `iterate_once`. -/
def iterateOnce : Code σ H E Bool := do
  let t ← Code.runCurrentState (← Code.currentState)
  if t ≠ .tRepeat then
    let newState ← Code.chooseNextState (← Code.currentState) t
    Code.printTransition (← Code.currentState) newState t
    Code.setCurrentState newState
    return true
  else
    if ← Code.printRepeatTransition then
      Code.printTransition (← Code.currentState) (← Code.currentState) t
    return false

def getState : Prog (Act σ H) (Ans σ H E) σ := .perform Act.readCurrentState

/-- What a derived class does between `state_lock` and `state_unlock`. -/
def lockedSection : List (H → H) → Prog (Act σ H) (Ans σ H E) Unit
  | [] => .ret ()
  | g :: gs => .act (.change g) fun _ => lockedSection gs

abbrev Ev (σ H E : Type) := Event (Act σ H) (Ans σ H E)

namespace Ev

abbrev read (s : σ) : Ev σ H E := ⟨.readCurrentState, s⟩
abbrev write (s : σ) : Ev σ H E := ⟨.writeCurrentState s, ()⟩
abbrev run (s : σ) (r : Except E Transition) : Ev σ H E := ⟨.runCurrentState s, r⟩
abbrev choose (s : σ) (t : Transition) (r : Except E σ) : Ev σ H E := ⟨.chooseNextState s t, r⟩
abbrev print (s s' : σ) (t : Transition) (r : Except E Unit) : Ev σ H E :=
  ⟨.printTransition s s' t, r⟩
abbrev readPrintRepeat (b : Bool) : Ev σ H E := ⟨.readPrintRepeatTransition, b⟩

end Ev

section Exec

variable (hk : Hooks σ H P E) {ρ : Type} (f : Fields σ H P)

@[simp] theorem exec_pure (r : ρ) :
    (pure r : Code σ H E ρ).run.exec (answer hk) f = ([], .ok r, f) := rfl

@[simp] theorem exec_currentState (k : σ → Code σ H E ρ) :
    (Code.currentState >>= k).run.exec (answer hk) f =
      (Ev.read f.currentState :: ((k f.currentState).run.exec (answer hk) f).1,
        ((k f.currentState).run.exec (answer hk) f).2) := rfl

@[simp] theorem exec_setCurrentState (s : σ) (k : Unit → Code σ H E ρ) :
    (Code.setCurrentState s >>= k).run.exec (answer hk) f =
      (Ev.write s :: ((k ()).run.exec (answer hk) { f with currentState := s }).1,
        ((k ()).run.exec (answer hk) { f with currentState := s }).2) := rfl

@[simp] theorem exec_printRepeatTransition (k : Bool → Code σ H E ρ) :
    (Code.printRepeatTransition >>= k).run.exec (answer hk) f =
      (Ev.readPrintRepeat (hk.printRepeatTransition f.vars) ::
        ((k (hk.printRepeatTransition f.vars)).run.exec (answer hk) f).1,
        ((k (hk.printRepeatTransition f.vars)).run.exec (answer hk) f).2) := rfl

theorem exec_runCurrentState {s : σ} {r : Except E Transition} {h : H}
    (hr : hk.runCurrentState s f.vars = (r, h)) (k : Transition → Code σ H E ρ) :
    (Code.runCurrentState s >>= k).run.exec (answer hk) f =
      (Ev.run s r :: ((ExceptT.bindCont k r).exec (answer hk) { f with vars := h }).1,
        ((ExceptT.bindCont k r).exec (answer hk) { f with vars := h }).2) := by
  obtain ⟨rfl, rfl⟩ := Prod.mk.inj hr
  rfl

theorem exec_chooseNextState {s : σ} {t : Transition} {r : Except E σ} {h : H}
    (hr : hk.chooseNextState s t f.vars = (r, h)) (k : σ → Code σ H E ρ) :
    (Code.chooseNextState s t >>= k).run.exec (answer hk) f =
      (Ev.choose s t r :: ((ExceptT.bindCont k r).exec (answer hk) { f with vars := h }).1,
        ((ExceptT.bindCont k r).exec (answer hk) { f with vars := h }).2) := by
  obtain ⟨rfl, rfl⟩ := Prod.mk.inj hr
  rfl

theorem exec_printTransition {s s' : σ} {t : Transition} {r : Except E Unit} {p : P}
    (hr : hk.printTransition s s' t f.vars f.log = (r, p)) (k : Unit → Code σ H E ρ) :
    (Code.printTransition s s' t >>= k).run.exec (answer hk) f =
      (Ev.print s s' t r :: ((ExceptT.bindCont k r).exec (answer hk) { f with log := p }).1,
        ((ExceptT.bindCont k r).exec (answer hk) { f with log := p }).2) := by
  obtain ⟨rfl, rfl⟩ := Prod.mk.inj hr
  rfl

/-- A hook that returned: the code goes on with its value. -/
@[simp] theorem exec_bindCont_ok (r : ρ) {ρ' : Type} (k : ρ → Code σ H E ρ') :
    (ExceptT.bindCont k (.ok r)).exec (answer hk) f = (k r).run.exec (answer hk) f := rfl

/-- A hook that threw: the code has ended. -/
@[simp] theorem exec_bindCont_error (e : E) {ρ' : Type} (k : ρ → Code σ H E ρ') :
    (ExceptT.bindCont k (.error e)).exec (answer hk) f = ([], .error e, f) := rfl

end Exec

/-- What one `iterate_once` can do: the events, the result and the fields after it. -/
inductive Iter (hk : Hooks σ H P E) (f : Fields σ H P) :
    List (Ev σ H E) → Except E Bool → Fields σ H P → Prop where
  | runThrew {e : E} {h : H} (hrun : hk.runCurrentState f.currentState f.vars = (.error e, h)) :
      Iter hk f [.read f.currentState, .run f.currentState (.error e)] (.error e)
        { f with vars := h }
  | repeatQuiet {h : H} (hrun : hk.runCurrentState f.currentState f.vars = (.ok .tRepeat, h))
      (hq : hk.printRepeatTransition h = false) :
      Iter hk f [.read f.currentState, .run f.currentState (.ok .tRepeat), .readPrintRepeat false]
        (.ok false) { f with vars := h }
  | repeatPrinted {h : H} {p : P} {r : Except E Unit}
      (hrun : hk.runCurrentState f.currentState f.vars = (.ok .tRepeat, h))
      (hq : hk.printRepeatTransition h = true)
      (hprint : hk.printTransition f.currentState f.currentState .tRepeat h f.log = (r, p)) :
      Iter hk f [.read f.currentState, .run f.currentState (.ok .tRepeat), .readPrintRepeat true,
          .read f.currentState, .read f.currentState,
          .print f.currentState f.currentState .tRepeat r]
        (r.map fun _ => false) { f with vars := h, log := p }
  | chooseThrew {t : Transition} {e : E} {h h' : H} (ht : t ≠ .tRepeat)
      (hrun : hk.runCurrentState f.currentState f.vars = (.ok t, h))
      (hchoose : hk.chooseNextState f.currentState t h = (.error e, h')) :
      Iter hk f [.read f.currentState, .run f.currentState (.ok t), .read f.currentState,
          .choose f.currentState t (.error e)] (.error e) { f with vars := h' }
  | printThrew {t : Transition} {e : E} {s' : σ} {h h' : H} {p : P} (ht : t ≠ .tRepeat)
      (hrun : hk.runCurrentState f.currentState f.vars = (.ok t, h))
      (hchoose : hk.chooseNextState f.currentState t h = (.ok s', h'))
      (hprint : hk.printTransition f.currentState s' t h' f.log = (.error e, p)) :
      Iter hk f [.read f.currentState, .run f.currentState (.ok t), .read f.currentState,
          .choose f.currentState t (.ok s'), .read f.currentState,
          .print f.currentState s' t (.error e)] (.error e) { f with vars := h', log := p }
  | stepped {t : Transition} {s' : σ} {h h' : H} {p : P} (ht : t ≠ .tRepeat)
      (hrun : hk.runCurrentState f.currentState f.vars = (.ok t, h))
      (hchoose : hk.chooseNextState f.currentState t h = (.ok s', h'))
      (hprint : hk.printTransition f.currentState s' t h' f.log = (.ok (), p)) :
      Iter hk f [.read f.currentState, .run f.currentState (.ok t), .read f.currentState,
          .choose f.currentState t (.ok s'), .read f.currentState,
          .print f.currentState s' t (.ok ()), .write s'] (.ok true)
        { currentState := s', vars := h', log := p }

def iteration (hk : Hooks σ H P E) (f : Fields σ H P) :
    List (Ev σ H E) × Except E Bool × Fields σ H P :=
  iterateOnce.run.exec (answer hk) f

theorem iter_iteration (hk : Hooks σ H P E) (f : Fields σ H P) :
    Iter hk f (iteration hk f).1 (iteration hk f).2.1 (iteration hk f).2.2 := by
  unfold iteration iterateOnce
  rcases hrun : hk.runCurrentState f.currentState f.vars with ⟨e | t, h⟩ <;>
    simp only [exec_currentState, exec_runCurrentState hk f hrun, exec_bindCont_error,
      exec_bindCont_ok]
  · exact .runThrew hrun
  by_cases ht : t = .tRepeat
  · subst ht
    simp only [ne_eq, not_true_eq_false, ↓reduceIte, exec_printRepeatTransition]
    rcases hq : hk.printRepeatTransition h with _ | _
    · exact .repeatQuiet hrun hq
    · rcases hprint : hk.printTransition f.currentState f.currentState .tRepeat h f.log with ⟨r, p⟩
      simp only [↓reduceIte, exec_currentState,
        exec_printTransition hk { f with vars := h } hprint]
      rcases r with e | _
      · exact .repeatPrinted hrun hq hprint
      · exact .repeatPrinted hrun hq hprint
  · simp only [ne_eq, ht, not_false_eq_true, ↓reduceIte, exec_currentState]
    rcases hchoose : hk.chooseNextState f.currentState t h with ⟨e | s', h'⟩ <;>
      simp only [exec_chooseNextState hk { f with vars := h } hchoose, exec_bindCont_error,
        exec_bindCont_ok]
    · exact .chooseThrew ht hrun hchoose
    · rcases hprint : hk.printTransition f.currentState s' t h' f.log with ⟨e | _, p⟩ <;>
        simp only [exec_currentState, exec_printTransition hk { f with vars := h' } hprint,
          exec_bindCont_error, exec_bindCont_ok, exec_setCurrentState, exec_pure]
      · exact .printThrew ht hrun hchoose hprint
      · exact .stepped ht hrun hchoose hprint

/-- Hooks that always go on to the other of two states. -/
def toggle : Hooks Bool Unit Unit Unit where
  runCurrentState _ h := (.ok .tNext1, h)
  chooseNextState s _ h := (.ok !s, h)
  printTransition _ _ _ _ p := (.ok (), p)
  printRepeatTransition _ := false

end Usm

end PairingV2
