import PairingV2.Usm.Reach

/-!
# The automaton of a table

A machine whose next state is a table runs a finite automaton: its state is where the automaton
gets to on the transitions of the iterations that did not throw (`calls_automaton`). The states that
machines can be brought to are exactly those of the closure (`closure_iff_calls`), and what a table
says of other states does not matter (`calls_eq_of_closure`).
-/

namespace PairingV2

namespace Usm

variable {σ H P E : Type}

namespace Table

variable (T : Table ℤ ℤ) {error s₀ s s' : ℤ} {t : Transition}

open scoped Classical in
/-- The state that the entry of a state and a transition names, and the error state if there is no
entry. -/
noncomputable def next (error s : ℤ) (t : Transition) : ℤ :=
  if h : ∃ s', T.Entry s t.val s' then h.choose else error

/-- The automaton of a table, which stays where it is on `T_REPEAT`; it accepts what leads to the
error state. -/
noncomputable def automaton (error s₀ : ℤ) : DFA Transition ℤ where
  step s t := if t = .tRepeat then s else T.next error s t
  start := s₀
  accept := {error}

variable {T}

theorem next_of_entry (h : T.Entry s t.val s') : T.next error s t = s' := by
  have hex : ∃ s', T.Entry s t.val s' := ⟨s', h⟩
  rw [next, dif_pos hex]
  exact T.entry_unique hex.choose_spec h

theorem next_of_no_entry (h : ∀ s', ¬ T.Entry s t.val s') : T.next error s t = error :=
  dif_neg fun ⟨s', hs'⟩ => h s' hs'

/-- The code of the table does what its entries say. -/
theorem next_eq_call : T.next error s t = T.call error s t.val := by
  by_cases h : ∃ s', T.Entry s t.val s'
  · obtain ⟨s', hs'⟩ := h
    rw [next_of_entry hs', call_of_exec (exec_of_entry hs')]
  · have hno : ∀ s', ¬ T.Entry s t.val s' := fun s' hs' => h ⟨s', hs'⟩
    rw [next_of_no_entry hno, call_of_exec (exec_of_no_entry hno)]

theorem automaton_repeat : (T.automaton error s₀).step s .tRepeat = s := by
  simp [automaton]

theorem automaton_next (ht : t ≠ .tRepeat) :
    (T.automaton error s₀).step s t = T.next error s t := if_neg ht

end Table

/-- The transition of an event of `run_current_state` that returned. -/
def returned? : LockEv σ H E → Option Transition
  | ⟨.body (.runCurrentState _), .ok t⟩ => some t
  | _ => none

/-- The transition of an iteration, if it did not throw. -/
def Iterated.taken (it : Iterated σ H P E) : Option Transition :=
  match it.res with
  | .ok _ => it.evs.findSome? returned?
  | .error _ => none

section Machine

variable {T : Table ℤ ℤ} {error s₀ : ℤ} {run : ℤ → H → Except E Transition × H}
  {print : ℤ → ℤ → Transition → H → P → Except E Unit × P} {flag : H → Bool}

theorem Iterated.Ok.taken {it : Iterated ℤ H P E} {es : List (Ev ℤ H E)}
    (h : it.Ok (machine T error run print flag) es) :
    it.after.val.currentState =
      (T.automaton error s₀).evalFrom it.before.val.currentState it.taken.toList := by
  obtain ⟨-, -, hevs, hiter⟩ := h
  unfold Iterated.taken
  rw [hevs]
  obtain ⟨before, evs, res, after⟩ := it
  simp only at hiter ⊢
  generalize after.val = f' at hiter
  cases hiter with
  | runThrew | chooseThrew | printThrew => rfl
  | repeatQuiet => exact Table.automaton_repeat.symm
  | @repeatPrinted h p r =>
    rcases r with e | u
    · rfl
    · exact Table.automaton_repeat.symm
  | @stepped t s' h h' p ht hrun hchoose hprint =>
    simp only [machine, Prod.mk.injEq, Except.ok.injEq] at hchoose
    obtain ⟨rfl, -⟩ := hchoose
    exact Table.next_eq_call.symm.trans (Table.automaton_next ht).symm

theorem Calls.automaton {o o' : Object ℤ H P} {its : List (Iterated ℤ H P E)}
    (h : Calls (machine T error run print flag) o its o') :
    o'.val.currentState =
      (T.automaton error s₀).evalFrom o.val.currentState (its.filterMap Iterated.taken) := by
  induction h with
  | nil => rfl
  | @cons it es its o' ok _ ih =>
    rw [ih, ok.taken, ← DFA.evalFrom_of_append]
    rcases htaken : it.taken with _ | t
    · rw [List.filterMap_cons_none htaken]
      rfl
    · rw [List.filterMap_cons_some htaken]
      rfl

end Machine

/-- The state of a machine is where the automaton of its table gets to on the transitions of the
iterations that did not throw, before each iteration and after the last one. -/
theorem calls_automaton (T : Table ℤ ℤ) (error : ℤ) (run : ℤ → H → Except E Transition × H)
    (print : ℤ → ℤ → Transition → H → P → Except E Unit × P) (flag : H → Bool) (s₀ : ℤ) (vars : H)
    (log : P) (n : ℕ) :
    ∃ its o, calls (machine T error run print flag) n (construct s₀ vars log) = some (its, o) ∧
      its.length = n ∧
      o.val.currentState = (T.automaton error s₀).eval (its.filterMap Iterated.taken) ∧
      ∀ pre it post, its = pre ++ it :: post →
        it.before.val.currentState =
          (T.automaton error s₀).eval (pre.filterMap Iterated.taken) := by
  obtain ⟨its, o, hits, hlen, -, hcalls⟩ := calls_spec (machine T error run print flag) n
    (show (construct s₀ vars log : Object ℤ H P).owner = none from rfl)
  refine ⟨its, o, hits, hlen, hcalls.automaton, ?_⟩
  rintro pre it post rfl
  exact (calls_split hcalls).1.automaton

/-! ## The closure -/

theorem exists_eval_of_closure {T : Table ℤ ℤ} {error s₀ s : ℤ} (h : Closure T error s₀ s) :
    ∃ ts, (T.automaton error s₀).eval ts = s := by
  induction h with
  | start => exact ⟨[], rfl⟩
  | @follow s s' t _ ht hs ih =>
    obtain ⟨ts, rfl⟩ := ih
    refine ⟨ts ++ [t], ?_⟩
    rw [DFA.eval_append_singleton, Table.automaton_next ht]
    exact Table.next_of_entry hs
  | @error s t _ ht hno ih =>
    obtain ⟨ts, rfl⟩ := ih
    refine ⟨ts ++ [t], ?_⟩
    rw [DFA.eval_append_singleton, Table.automaton_next ht]
    exact Table.next_of_no_entry hno

/-- A run of any machine of a table ends in the closure. -/
theorem closure_of_calls {T : Table ℤ ℤ} {error s₀ : ℤ} {run : ℤ → H → Except E Transition × H}
    {print : ℤ → ℤ → Transition → H → P → Except E Unit × P} {flag : H → Bool} {vars : H} {log : P}
    {n : ℕ} {its : List (Iterated ℤ H P E)} {o : Object ℤ H P}
    (h : calls (machine T error run print flag) n (construct s₀ vars log) = some (its, o)) :
    Closure T error s₀ o.val.currentState := by
  obtain ⟨its', o', hits', -, -, hcalls⟩ := calls_spec (machine T error run print flag) n
    (show (construct s₀ vars log : Object ℤ H P).owner = none from rfl)
  obtain ⟨-, rfl⟩ := Prod.mk.inj (Option.some.inj (h.symm.trans hits'))
  exact (hcalls.closure (show Closure T error s₀ _ from .start)).2

/-- A machine whose `run_current_state` returns the transitions of a list. -/
def scripted (T : Table ℤ ℤ) (error : ℤ) : Hooks ℤ (List Transition) Unit Unit :=
  machine T error
    (fun _ ts => match ts with
      | [] => (.ok .tRepeat, [])
      | t :: ts => (.ok t, ts))
    (fun _ _ _ _ p => (.ok (), p)) fun _ => false

theorem iter_scripted (T : Table ℤ ℤ) (error s₀ s : ℤ) (t : Transition) (ts : List Transition) :
    ∃ es r, Iter (scripted T error) ⟨s, t :: ts, ()⟩ es r
      ⟨(T.automaton error s₀).step s t, ts, ()⟩ := by
  by_cases ht : t = .tRepeat
  · subst ht
    rw [Table.automaton_repeat]
    exact ⟨_, _, .repeatQuiet rfl rfl⟩
  · rw [Table.automaton_next ht, Table.next_eq_call]
    exact ⟨_, _, .stepped ht rfl rfl rfl⟩

theorem iterateOnce_of_iter {hk : Hooks σ H P E} {f f' : Fields σ H P} {es : List (Ev σ H E)}
    {r : Except E Bool} (h : Iter hk f es r f') :
    Object.iterateOnce hk ⟨none, f⟩ =
      some (acquired :: (es.map bodyEvent ++ [released]), r, ⟨none, f'⟩) := by
  have hiter := h.iteration_eq
  unfold iteration at hiter
  unfold Object.iterateOnce
  rw [Prog.run_lockGuard, hiter]
  rfl

theorem calls_scripted (T : Table ℤ ℤ) (error s₀ : ℤ) : ∀ (ts : List Transition) (s : ℤ),
    ∃ its o, calls (scripted T error) ts.length (construct s ts ()) = some (its, o) ∧
      o.val.currentState = (T.automaton error s₀).evalFrom s ts
  | [], s => ⟨[], _, rfl, rfl⟩
  | t :: ts, s => by
    obtain ⟨es, r, hiter⟩ := iter_scripted T error s₀ s t ts
    obtain ⟨its, o, hits, ho⟩ := calls_scripted T error s₀ ts ((T.automaton error s₀).step s t)
    have hfirst : (construct s (t :: ts) () : Object ℤ (List Transition) Unit).iterateOnce
        (scripted T error) = some (_, r, construct _ ts ()) := iterateOnce_of_iter hiter
    rw [List.length_cons, calls, hfirst, Option.bind_some, hits, Option.map_some]
    exact ⟨_, o, rfl, ho⟩

/-- A state is in the closure of a table exactly if a machine of the table can be scripted to get
there, and no machine of the table, whatever its hooks are, gets to another state in any number of
calls. -/
theorem closure_iff_calls (T : Table ℤ ℤ) (error s₀ : ℤ) :
    (∀ s, Closure T error s₀ s ↔ ∃ ts its o,
      calls (scripted T error) ts.length (construct s₀ ts ()) = some (its, o) ∧
        o.val.currentState = s) ∧
    ∀ {H P E : Type} (run : ℤ → H → Except E Transition × H)
      (print : ℤ → ℤ → Transition → H → P → Except E Unit × P) (flag : H → Bool) (vars : H)
      (log : P) (n : ℕ) (its : List (Iterated ℤ H P E)) (o : Object ℤ H P),
      calls (machine T error run print flag) n (construct s₀ vars log) = some (its, o) →
        Closure T error s₀ o.val.currentState := by
  refine ⟨fun s => ⟨?_, ?_⟩, ?_⟩
  · intro h
    obtain ⟨ts, rfl⟩ := exists_eval_of_closure h
    obtain ⟨its, o, hits, ho⟩ := calls_scripted T error s₀ ts s₀
    exact ⟨ts, its, o, hits, ho⟩
  · rintro ⟨ts, its, o, hits, rfl⟩
    exact closure_of_calls hits
  · intro H P E run print flag vars log n its o hits
    exact closure_of_calls hits

/-! ## What a table says of other states -/

/-- An iteration asks `choose_next_state` about its own state only. -/
theorem Iter.of_choose_here {hk hk' : Hooks σ H P E} {f f' : Fields σ H P} {es : List (Ev σ H E)}
    {r : Except E Bool} (h : Iter hk f es r f')
    (hrun : hk'.runCurrentState = hk.runCurrentState)
    (hchoose : ∀ t h, t ≠ .tRepeat →
      hk'.chooseNextState f.currentState t h = hk.chooseNextState f.currentState t h)
    (hprint : hk'.printTransition = hk.printTransition)
    (hflag : hk'.printRepeatTransition = hk.printRepeatTransition) : Iter hk' f es r f' := by
  cases h with
  | runThrew h1 => exact .runThrew (by rw [hrun, h1])
  | repeatQuiet h1 h2 => exact .repeatQuiet (by rw [hrun, h1]) (by rw [hflag, h2])
  | repeatPrinted h1 h2 h3 =>
    exact .repeatPrinted (by rw [hrun, h1]) (by rw [hflag, h2]) (by rw [hprint, h3])
  | chooseThrew ht h1 h2 => exact .chooseThrew ht (by rw [hrun, h1]) (by rw [hchoose _ _ ht, h2])
  | printThrew ht h1 h2 h3 =>
    exact .printThrew ht (by rw [hrun, h1]) (by rw [hchoose _ _ ht, h2]) (by rw [hprint, h3])
  | stepped ht h1 h2 h3 =>
    exact .stepped ht (by rw [hrun, h1]) (by rw [hchoose _ _ ht, h2]) (by rw [hprint, h3])

theorem call_eq_of_entries {T T' : Table ℤ ℤ} {error s : ℤ} {t : Transition}
    (h : ∀ s', T'.Entry s t.val s' ↔ T.Entry s t.val s') :
    T'.call error s t.val = T.call error s t.val := by
  by_cases hs : ∃ s', T.Entry s t.val s'
  · obtain ⟨s', hs⟩ := hs
    rw [call_of_exec (exec_of_entry hs), call_of_exec (exec_of_entry ((h s').2 hs))]
  · have hno : ∀ s', ¬ T.Entry s t.val s' := fun s' hs' => hs ⟨s', hs'⟩
    rw [call_of_exec (exec_of_no_entry hno),
      call_of_exec (exec_of_no_entry fun s' hs' => hno s' ((h s').1 hs'))]

/-- Tables that agree on the states of the closure but for `T_REPEAT` make the same machine: rows
of other states and other entries are dead. -/
theorem calls_eq_of_closure {T T' : Table ℤ ℤ} {error s₀ : ℤ}
    (hT : ∀ s, Closure T error s₀ s → ∀ t : Transition, t ≠ .tRepeat → ∀ s',
      T'.Entry s t.val s' ↔ T.Entry s t.val s') (run : ℤ → H → Except E Transition × H)
    (print : ℤ → ℤ → Transition → H → P → Except E Unit × P) (flag : H → Bool) (vars : H) (log : P)
    (n : ℕ) : calls (machine T' error run print flag) n (construct s₀ vars log) =
      calls (machine T error run print flag) n (construct s₀ vars log) := by
  have hall : ∀ (n : ℕ) (f : Fields ℤ H P), Closure T error s₀ f.currentState →
      calls (machine T' error run print flag) n ⟨none, f⟩ =
        calls (machine T error run print flag) n ⟨none, f⟩ := by
    intro n
    induction n with
    | zero => exact fun _ _ => rfl
    | succ n ih =>
      intro f hf
      have hiter := iter_iteration (machine T error run print flag) f
      have hiter' : Iter (machine T' error run print flag) f _ _ _ :=
        hiter.of_choose_here rfl
          (fun t x ht => by simp only [machine, call_eq_of_entries (hT _ hf t ht)]) rfl rfl
      rw [calls, calls, iterateOnce_of_iter hiter, iterateOnce_of_iter hiter', Option.bind_some,
        Option.bind_some, ih _ (hiter.closure hf)]
  exact hall n _ .start

/-- A table with a row of a state outside of the closure. -/
def swingAndMore : Table ℤ ℤ where
  rows := ⟨7, [1, 2].map (·, 9), by simp⟩ :: (swing 0).rows
  nodup := by simp [swing]

theorem swingAndMore_entry {s t s' : ℤ} (hs : s = 0 ∨ s = 1) :
    swingAndMore.Entry s t s' ↔ (swing 0).Entry s t s' := by
  have hne : (7 : ℤ) ≠ s := by omega
  simp only [Table.Entry, swingAndMore, List.mem_cons, exists_eq_or_imp, hne, false_and, false_or]

theorem calls_eq_of_closure_swing :
    calls (machine (E := Unit) swingAndMore 9 (fun _ (h : Unit) => (.ok .tNext1, h))
      (fun _ _ _ _ (p : Unit) => (.ok (), p)) fun _ => false) 3 (construct 0 () ()) =
    calls (machine (swing 0) 9 (fun _ h => (.ok .tNext1, h)) (fun _ _ _ _ p => (.ok (), p))
      fun _ => false) 3 (construct 0 () ()) :=
  calls_eq_of_closure (fun _ hs _ _ _ => swingAndMore_entry (swing_closure hs)) _ _ _ () () 3

end Usm

end PairingV2
