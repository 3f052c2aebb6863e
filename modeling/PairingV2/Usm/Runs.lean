import PairingV2.Usm.Machine

/-!
# Runs of `iterate_once`

One thread calls `iterate_once` again and again. `calls_spec` is what every such run looks like
(`Calls`: each call starts from the object the one before it left, and does one `Iter`); what the
log of the transitions says, and when an iteration is all or nothing, is read off it.
-/

namespace PairingV2

namespace Usm

variable {σ H P E : Type}

/-- An object of the class: the fields, and the state mutex. -/
abbrev Object (σ H P : Type) := Locked Unit (Fields σ H P)

/-- The constructor, with the members the derived class starts from. -/
def construct (startingState : σ) (vars : H) (log : P) : Object σ H P :=
  ⟨none, ⟨startingState, vars, log⟩⟩

abbrev LockEv (σ H E : Type) := Event (LockAct (Act σ H)) (LockAns (Ans σ H E))

namespace Object

def iterateOnce (hk : Hooks σ H P E) (o : Object σ H P) :
    Option (List (LockEv σ H E) × Except E Bool × Object σ H P) :=
  Usm.iterateOnce.run.lockGuard.run (lockAnswer (answer hk) ()) o

def getState (hk : Hooks σ H P E) (o : Object σ H P) :
    Option (List (LockEv σ H E) × σ × Object σ H P) :=
  Usm.getState.lockGuard.run (lockAnswer (answer hk) ()) o

end Object

structure Iterated (σ H P E : Type) where
  before : Object σ H P
  evs : List (LockEv σ H E)
  res : Except E Bool
  after : Object σ H P

/-- `n` calls of `iterate_once`, and the object after them; `none` if one has to wait for ever. -/
def calls (hk : Hooks σ H P E) :
    ℕ → Object σ H P → Option (List (Iterated σ H P E) × Object σ H P)
  | 0, o => some ([], o)
  | n + 1, o => (o.iterateOnce hk).bind fun x =>
      (calls hk n x.2.2).map fun y => (⟨o, x.1, x.2.1, x.2.2⟩ :: y.1, y.2)

/-- A call that found the mutex free did one iteration and left the mutex free. -/
structure Iterated.Ok (hk : Hooks σ H P E) (it : Iterated σ H P E) (es : List (Ev σ H E)) :
    Prop where
  before : it.before.owner = none
  after : it.after.owner = none
  evs : it.evs = acquired :: (es.map bodyEvent ++ [released])
  iter : Iter hk it.before.val es it.res it.after.val

inductive Calls (hk : Hooks σ H P E) :
    Object σ H P → List (Iterated σ H P E) → Object σ H P → Prop where
  | nil (o : Object σ H P) : Calls hk o [] o
  | cons {it : Iterated σ H P E} {es : List (Ev σ H E)} {its : List (Iterated σ H P E)}
      {o : Object σ H P} (ok : it.Ok hk es) (rest : Calls hk it.after its o) :
      Calls hk it.before (it :: its) o

section Runs

variable (hk : Hooks σ H P E)

theorem iterateOnce_ok {o : Object σ H P} (ho : o.owner = none) :
    ∃ evs r o' es, o.iterateOnce hk = some (evs, r, o') ∧
      Iterated.Ok hk ⟨o, evs, r, o'⟩ es := by
  have hrun := Prog.run_lockGuard (answer hk) () (Usm.iterateOnce (E := E)).run o
  rw [ho] at hrun
  exact ⟨_, _, _, _, hrun, ho, rfl, rfl, iter_iteration hk o.val⟩

theorem getState_eq {o : Object σ H P} (ho : o.owner = none) :
    o.getState hk = some ([acquired, bodyEvent (Ev.read o.val.currentState), released],
      o.val.currentState, o) := by
  have hrun := Prog.run_lockGuard (answer hk) () Usm.getState o
  rw [ho] at hrun
  obtain ⟨owner, val⟩ := o
  simp only at ho
  subst ho
  exact hrun

/-- The mutex is free at every call, so a run never waits. -/
theorem calls_spec : ∀ (n : ℕ) {o : Object σ H P}, o.owner = none →
    ∃ its o', calls hk n o = some (its, o') ∧ its.length = n ∧ o'.owner = none ∧
      Calls hk o its o'
  | 0, o, ho => ⟨[], o, rfl, rfl, ho, .nil o⟩
  | n + 1, o, ho => by
    obtain ⟨evs, r, o₁, es, hit, hok⟩ := iterateOnce_ok hk ho
    obtain ⟨its, o', hits, hlen, hfree, hcalls⟩ := calls_spec n hok.after
    refine ⟨⟨o, evs, r, o₁⟩ :: its, o', ?_, by simp [hlen], hfree, .cons hok hcalls⟩
    simp only at hits
    simp only [calls, hit, Option.bind_some, hits, Option.map_some]

variable {hk}

theorem calls_split : ∀ {pre post : List (Iterated σ H P E)} {it : Iterated σ H P E}
    {o o' : Object σ H P}, Calls hk o (pre ++ it :: post) o' →
      Calls hk o pre it.before ∧ ∃ es, it.Ok hk es
  | [], post, it, o, o', h => by
    cases h with
    | cons ok rest => exact ⟨.nil _, _, ok⟩
  | it' :: pre, post, it, o, o', h => by
    cases h with
    | cons ok rest =>
      obtain ⟨hpre, hit⟩ := calls_split rest
      exact ⟨.cons ok hpre, hit⟩

end Runs

/-! ## The log of the transitions -/

/-- The step of the log that an event is: a `print_transition` that returned, of a transition
other than `T_REPEAT`. -/
def edge? : LockEv σ H E → Option (σ × σ)
  | ⟨.body (.printTransition s s' t), .ok _⟩ => if t = .tRepeat then none else some (s, s')
  | _ => none

def edges (evs : List (LockEv σ H E)) : List (σ × σ) := evs.filterMap edge?

def path (its : List (Iterated σ H P E)) : List (σ × σ) := its.flatMap fun it => edges it.evs

/-- Each step starts where the one before it ended. -/
def IsPath : σ → List (σ × σ) → σ → Prop
  | s, [], s' => s = s'
  | s, e :: es, s' => e.1 = s ∧ IsPath e.2 es s'

/-- The state the last step of the log ended in. -/
def committed : σ → List (σ × σ) → σ
  | s, [] => s
  | _, e :: es => committed e.2 es

theorem IsPath.append {s₁ s' : σ} {fs : List (σ × σ)} : ∀ {s : σ} {es : List (σ × σ)},
    IsPath s es s₁ → IsPath s₁ fs s' → IsPath s (es ++ fs) s'
  | _, [], h, h' => by
    cases h
    exact h'
  | _, _ :: _, ⟨h1, h2⟩, h' => ⟨h1, h2.append h'⟩

theorem IsPath.committed_eq : ∀ {s s' : σ} {es : List (σ × σ)}, IsPath s es s' →
    committed s es = s'
  | _, _, [], h => h
  | _, _, _ :: _, h => h.2.committed_eq

theorem edges_guarded (es : List (Ev σ H E)) :
    edges (acquired :: (es.map bodyEvent ++ [released])) = edges (es.map bodyEvent) := by
  simp [edges, List.filterMap_cons, acquired, released, edge?]

/-- An iteration that returned `true` added one step to the log and moved along it; any other one
added none and stayed. -/
theorem Iterated.Ok.edges_cases {hk : Hooks σ H P E} {it : Iterated σ H P E}
    {es : List (Ev σ H E)} (h : it.Ok hk es) :
    (it.res = .ok true ∧
        edges it.evs = [(it.before.val.currentState, it.after.val.currentState)]) ∨
      (it.res ≠ .ok true ∧ edges it.evs = [] ∧
        it.after.val.currentState = it.before.val.currentState) := by
  obtain ⟨-, -, hevs, hiter⟩ := h
  rw [hevs, edges_guarded]
  obtain ⟨before, evs, res, after⟩ := it
  simp only at hiter ⊢
  generalize after.val = f' at hiter
  cases hiter with
  | runThrew hrun => right; simp [edges, edge?, bodyEvent]
  | repeatQuiet hrun hq => right; simp [edges, edge?, bodyEvent]
  | @repeatPrinted h p r hrun hq hprint =>
    right
    rcases r with e | u <;> simp [edges, edge?, bodyEvent, Except.map]
  | chooseThrew ht hrun hchoose => right; simp [edges, edge?, bodyEvent]
  | printThrew ht hrun hchoose hprint => right; simp [edges, edge?, bodyEvent]
  | stepped ht hrun hchoose hprint => left; simp [edges, List.filterMap_cons, edge?, bodyEvent, ht]

theorem Iterated.Ok.isPath {hk : Hooks σ H P E} {it : Iterated σ H P E} {es : List (Ev σ H E)}
    (h : it.Ok hk es) :
    IsPath it.before.val.currentState (edges it.evs) it.after.val.currentState := by
  rcases h.edges_cases with ⟨-, he⟩ | ⟨-, he, hs⟩
  · rw [he]
    exact ⟨rfl, rfl⟩
  · rw [he]
    exact hs.symm

theorem Calls.isPath {hk : Hooks σ H P E} {o o' : Object σ H P} {its : List (Iterated σ H P E)}
    (h : Calls hk o its o') : IsPath o.val.currentState (path its) o'.val.currentState := by
  induction h with
  | nil => exact rfl
  | cons ok _ ih => exact ok.isPath.append ih

/-- The hook `run_current_state` is called once, with the state the iteration starts from. -/
theorem Iterated.Ok.run_mem {hk : Hooks σ H P E} {it : Iterated σ H P E} {es : List (Ev σ H E)}
    (h : it.Ok hk es) :
    (∃ r, bodyEvent (Ev.run it.before.val.currentState r) ∈ it.evs) ∧
      ∀ s r, bodyEvent (Ev.run s r) ∈ it.evs → s = it.before.val.currentState := by
  obtain ⟨-, -, hevs, hiter⟩ := h
  rw [hevs]
  obtain ⟨before, evs, res, after⟩ := it
  simp only at hiter ⊢
  generalize after.val = f' at hiter
  cases hiter <;> simp [bodyEvent, acquired, released]

end Usm

end PairingV2
