import PairingV2.Usm.Runs

/-!
# The exits of `iterate_once`

A hook may throw between the choice of a state, the log entry and the assignment. The log is a path
whatever throws (`calls_path`), because the assignment comes last; but the resets that
`choose_next_state` made stay when the log throws (`allOrNothing_iff`).
-/

namespace PairingV2

namespace Usm

variable {σ H P E : Type}

/-! ## The log entry of a repeat -/

structure Hooks.NoThrow (hk : Hooks σ H P E) : Prop where
  run : ∀ s h, ∃ t, (hk.runCurrentState s h).1 = .ok t
  choose : ∀ s t h, ∃ s', (hk.chooseNextState s t h).1 = .ok s'
  print : ∀ s s' t h p, (hk.printTransition s s' t h p).1 = .ok ()

def Hooks.withPrintRepeat (hk : Hooks σ H P E) (flag : H → Bool) : Hooks σ H P E :=
  { hk with printRepeatTransition := flag }

theorem Hooks.NoThrow.withPrintRepeat {hk : Hooks σ H P E} (hn : hk.NoThrow) (flag : H → Bool) :
    (hk.withPrintRepeat flag).NoThrow :=
  ⟨hn.run, hn.choose, hn.print⟩

/-- What an iteration comes to when no hook throws: its result, and the state and the members
after it. -/
def Hooks.advance (hk : Hooks σ H P E) (s : σ) (h : H) : Bool × σ × H :=
  match hk.runCurrentState s h with
  | (.error _, h) => (false, s, h)
  | (.ok t, h) =>
    if t = .tRepeat then (false, s, h)
    else
      match hk.chooseNextState s t h with
      | (.error _, h) => (false, s, h)
      | (.ok s', h) => (true, s', h)

theorem Iter.advance {hk : Hooks σ H P E} (hn : hk.NoThrow) {f f' : Fields σ H P}
    {es : List (Ev σ H E)} {r : Except E Bool} (h : Iter hk f es r f') :
    r = .ok (hk.advance f.currentState f.vars).1 ∧
      f'.currentState = (hk.advance f.currentState f.vars).2.1 ∧
      f'.vars = (hk.advance f.currentState f.vars).2.2 := by
  cases h with
  | runThrew hrun =>
    obtain ⟨t, ht⟩ := hn.run f.currentState f.vars
    simp [hrun] at ht
  | repeatQuiet hrun hq => simp [Hooks.advance, hrun]
  | @repeatPrinted h p r hrun hq hprint =>
    have := hn.print f.currentState f.currentState .tRepeat h f.log
    rw [hprint] at this
    simp only at this
    subst this
    simp [Hooks.advance, hrun, Except.map]
  | @chooseThrew t e h h' ht hrun hchoose =>
    obtain ⟨s', hs⟩ := hn.choose f.currentState t h
    simp [hchoose] at hs
  | @printThrew t e s' h h' p ht hrun hchoose hprint =>
    have := hn.print f.currentState s' t h' f.log
    simp [hprint] at this
  | stepped ht hrun hchoose hprint => simp [Hooks.advance, hrun, hchoose, ht]

theorem Iterated.Ok.edges_eq {hk : Hooks σ H P E} {it : Iterated σ H P E} {es : List (Ev σ H E)}
    (h : it.Ok hk es) {b : Bool} (hb : it.res = .ok b) :
    edges it.evs =
      if b then [(it.before.val.currentState, it.after.val.currentState)] else [] := by
  rcases h.edges_cases with ⟨hr, he⟩ | ⟨hr, he, -⟩
  · cases hb.symm.trans hr
    exact he
  · rw [he]
    cases b
    · rfl
    · exact absurd hb hr

/-- What a run shows to its caller and in its log of steps. -/
def shown (its : List (Iterated σ H P E)) : List (List (σ × σ) × Except E Bool × σ) :=
  its.map fun it => (edges it.evs, it.res, it.after.val.currentState)

/-- Two runs with different `_print_repeat_transition` from the same state and members show the
same. -/
theorem Calls.shown_eq {hk : Hooks σ H P E} (hn : hk.NoThrow) (flag : H → Bool)
    {o o₁ : Object σ H P} {its : List (Iterated σ H P E)} (h : Calls hk o its o₁) :
    ∀ {o' o₁' : Object σ H P} {its' : List (Iterated σ H P E)},
      Calls (hk.withPrintRepeat flag) o' its' o₁' → its'.length = its.length →
      o'.val.currentState = o.val.currentState → o'.val.vars = o.val.vars →
      shown its' = shown its := by
  induction h with
  | nil =>
    intro o' o₁' its' _ hlen _ _
    obtain rfl := List.eq_nil_of_length_eq_zero hlen
    rfl
  | cons ok _ ih =>
    intro o' o₁' its' h' hlen hs hv
    cases h' with
    | nil => simp at hlen
    | cons ok' rest' =>
      obtain ⟨hr, hs₁, hv₁⟩ := ok.iter.advance hn
      obtain ⟨hr', hs₁', hv₁'⟩ := ok'.iter.advance (hn.withPrintRepeat flag)
      rw [hs, hv] at hr' hs₁' hv₁'
      have hs₂ := hs₁'.trans hs₁.symm
      simp only [shown, List.map_cons, List.cons.injEq, Prod.mk.injEq]
      refine ⟨⟨?_, hr'.trans hr.symm, hs₂⟩, ih rest' (by simpa using hlen) hs₂ ?_⟩
      · rw [ok.edges_eq hr, ok'.edges_eq hr', hs, hs₂]
        rfl
      · exact hv₁'.trans hv₁.symm

/-! ## The path of the log -/

/-- The completed log entries of steps form a path from the starting state to what `get_state`
returns; a call adds one step exactly when it returns `true`, calls `run_current_state` with the
last committed state, and leaves the mutex free on every exit. When no hook throws, nothing but
the log depends on `_print_repeat_transition`. -/
theorem calls_path (hk : Hooks σ H P E) (s₀ : σ) (vars : H) (log : P) (n : ℕ) :
    ∃ its o, calls hk n (construct s₀ vars log) = some (its, o) ∧ its.length = n ∧
      o.owner = none ∧ IsPath s₀ (path its) o.val.currentState ∧
      (∃ evs, o.getState hk = some (evs, committed s₀ (path its), o)) ∧
      (∀ pre it post, its = pre ++ it :: post →
        it.before.owner = none ∧ it.after.owner = none ∧
        it.before.val.currentState = committed s₀ (path pre) ∧
        (∃ r, bodyEvent (Ev.run (committed s₀ (path pre)) r) ∈ it.evs) ∧
        (∀ s r, bodyEvent (Ev.run s r) ∈ it.evs → s = committed s₀ (path pre)) ∧
        (it.res = .ok true →
          edges it.evs = [(it.before.val.currentState, it.after.val.currentState)]) ∧
        (it.res ≠ .ok true →
          edges it.evs = [] ∧ it.after.val.currentState = it.before.val.currentState)) ∧
      (hk.NoThrow → ∀ flag : H → Bool, ∃ its' o',
        calls (hk.withPrintRepeat flag) n (construct s₀ vars log) = some (its', o') ∧
          shown its' = shown its) := by
  obtain ⟨its, o, hits, hlen, hfree, hcalls⟩ := calls_spec hk n
    (show (construct s₀ vars log : Object σ H P).owner = none from rfl)
  have hpath : IsPath s₀ (path its) o.val.currentState := hcalls.isPath
  refine ⟨its, o, hits, hlen, hfree, hpath, ?_, ?_, ?_⟩
  · rw [hpath.committed_eq]
    exact ⟨_, getState_eq hk hfree⟩
  · rintro pre it post rfl
    obtain ⟨hpre, es, hok⟩ := calls_split hcalls
    have hstate := hpre.isPath.committed_eq
    simp only [construct] at hstate
    obtain ⟨hrun, honly⟩ := hok.run_mem
    refine ⟨hok.before, hok.after, hstate.symm, hstate ▸ hrun, hstate ▸ honly, ?_, ?_⟩
    · intro hr
      exact (hok.edges_eq hr).trans rfl
    · intro hr
      rcases hok.edges_cases with ⟨hr', -⟩ | ⟨-, he, hs⟩
      · exact absurd hr' hr
      · exact ⟨he, hs⟩
  · intro hn flag
    obtain ⟨its', o', hits', hlen', -, hcalls'⟩ := calls_spec (hk.withPrintRepeat flag) n
      (show (construct s₀ vars log : Object σ H P).owner = none from rfl)
    exact ⟨its', o', hits', hcalls.shown_eq hn flag hcalls' (hlen'.trans hlen.symm) rfl rfl⟩

theorem toggle_noThrow : toggle.NoThrow := ⟨fun _ _ => ⟨_, rfl⟩, fun _ _ _ => ⟨_, rfl⟩,
  fun _ _ _ _ _ => rfl⟩

theorem calls_path_toggle : ∃ its o its' o',
    calls toggle 3 (construct false () ()) = some (its, o) ∧
      IsPath false (path its) o.val.currentState ∧
      calls (toggle.withPrintRepeat fun _ => true) 3 (construct false () ()) = some (its', o') ∧
      shown its' = shown its := by
  obtain ⟨its, o, hits, -, -, hpath, -, -, hflag⟩ := calls_path toggle false () () 3
  obtain ⟨its', o', hits', hshown⟩ := hflag toggle_noThrow fun _ => true
  exact ⟨its, o, its', o', hits, hpath, hits', hshown⟩

/-! ## All or nothing -/

/-- The resets of `choose_next_state` and the assignment of the state it chose were both made, or
neither was: then it has not returned, and the members are as `run_current_state` left them. -/
def AllOrNothing (hk : Hooks σ H P E) (it : Iterated σ H P E) : Prop :=
  let f := it.before.val
  let f' := it.after.val
  (∃ t h s' h', hk.runCurrentState f.currentState f.vars = (.ok t, h) ∧
      hk.chooseNextState f.currentState t h = (.ok s', h') ∧
      bodyEvent (Ev.choose f.currentState t (.ok s')) ∈ it.evs ∧
      bodyEvent (Ev.write s') ∈ it.evs ∧ f'.currentState = s' ∧ f'.vars = h') ∨
    ((∀ s t s', bodyEvent (Ev.choose s t (.ok s')) ∉ it.evs) ∧
      (∀ s', bodyEvent (Ev.write s') ∉ it.evs) ∧ f'.currentState = f.currentState ∧
      f'.vars = (hk.runCurrentState f.currentState f.vars).2)

/-- `print_transition` threw between the choice of a state and its assignment. -/
def LogThrew (it : Iterated σ H P E) : Prop :=
  ∃ s s' t e, t ≠ Transition.tRepeat ∧ bodyEvent (Ev.print s s' t (.error e)) ∈ it.evs

theorem Iterated.Ok.allOrNothing_iff {hk : Hooks σ H P E}
    (hchoose : ∀ s t h e, (hk.chooseNextState s t h).1 = .error e →
      (hk.chooseNextState s t h).2 = h)
    {it : Iterated σ H P E} {es : List (Ev σ H E)} (h : it.Ok hk es) :
    AllOrNothing hk it ↔ ¬ LogThrew it := by
  obtain ⟨-, -, hevs, hiter⟩ := h
  obtain ⟨before, evs, res, after⟩ := it
  simp only at hiter hevs
  simp only [AllOrNothing, LogThrew, hevs]
  generalize after.val = f' at hiter
  cases hiter with
  | runThrew hrun => simp [bodyEvent, acquired, released, hrun]
  | repeatQuiet hrun hq => simp [bodyEvent, acquired, released, hrun]
  | repeatPrinted hrun hq hprint => simp [bodyEvent, acquired, released, hrun]
  | @chooseThrew t e h h' ht hrun hc =>
    have hreset : h' = h := by
      have := hchoose before.val.currentState t h e (by rw [hc])
      rwa [hc] at this
    simp [bodyEvent, acquired, released, hrun, hreset]
  | printThrew ht hrun hc hprint => simp [bodyEvent, acquired, released, hrun, ht]
  | stepped ht hrun hc hprint => simp [bodyEvent, acquired, released, hrun, hc]

/-- When the log threw, the resets were made and the state was not stored. -/
theorem Iterated.Ok.logThrew {hk : Hooks σ H P E} {it : Iterated σ H P E} {es : List (Ev σ H E)}
    (h : it.Ok hk es) (hlog : LogThrew it) :
    it.after.val.currentState = it.before.val.currentState ∧
      ∃ t x s', hk.runCurrentState it.before.val.currentState it.before.val.vars = (.ok t, x) ∧
        hk.chooseNextState it.before.val.currentState t x = (.ok s', it.after.val.vars) := by
  obtain ⟨-, -, hevs, hiter⟩ := h
  obtain ⟨before, evs, res, after⟩ := it
  simp only at hiter hevs ⊢
  simp only [LogThrew, hevs] at hlog
  generalize after.val = f' at hiter ⊢
  cases hiter with
  | printThrew ht hrun hc hprint => exact ⟨rfl, _, _, _, hrun, hc⟩
  | runThrew hrun => simp [bodyEvent, acquired, released] at hlog
  | repeatQuiet hrun hq => simp [bodyEvent, acquired, released] at hlog
  | repeatPrinted hrun hq hprint => simp [bodyEvent, acquired, released] at hlog
  | chooseThrew ht hrun hc => simp [bodyEvent, acquired, released] at hlog
  | stepped ht hrun hc hprint => simp [bodyEvent, acquired, released] at hlog

/-- Every iteration of a run is all or nothing but those whose `print_transition` threw after a
choice: these keep the resets and the old state. -/
theorem calls_allOrNothing (hk : Hooks σ H P E)
    (hchoose : ∀ s t h e, (hk.chooseNextState s t h).1 = .error e →
      (hk.chooseNextState s t h).2 = h) (s₀ : σ) (vars : H) (log : P) (n : ℕ) :
    ∃ its o, calls hk n (construct s₀ vars log) = some (its, o) ∧ its.length = n ∧
      ∀ it ∈ its, (AllOrNothing hk it ↔ ¬ LogThrew it) ∧
        (LogThrew it → it.after.val.currentState = it.before.val.currentState ∧
          ∃ t x s', hk.runCurrentState it.before.val.currentState it.before.val.vars =
              (.ok t, x) ∧
            hk.chooseNextState it.before.val.currentState t x = (.ok s', it.after.val.vars)) := by
  obtain ⟨its, o, hits, hlen, -, hcalls⟩ := calls_spec hk n
    (show (construct s₀ vars log : Object σ H P).owner = none from rfl)
  refine ⟨its, o, hits, hlen, ?_⟩
  intro it hit
  obtain ⟨pre, post, rfl⟩ := List.append_of_mem hit
  obtain ⟨-, es, hok⟩ := calls_split hcalls
  exact ⟨hok.allOrNothing_iff hchoose, hok.logThrew⟩

/-- Hooks with a variable that `run_current_state` counts up and `choose_next_state` resets, which
throws at 1, and a log that takes one entry. -/
def onceLogged : Hooks Bool ℕ ℕ Unit where
  runCurrentState _ h := (.ok .tNext1, h + 1)
  chooseNextState s _ h := if h = 1 then (.error (), h) else (.ok !s, 0)
  printTransition _ _ _ _ p := if p = 0 then (.ok (), 1) else (.error (), p)
  printRepeatTransition _ := false

/-- The choice throws, the second iteration steps, the choice throws again, and the log throws. -/
theorem calls_allOrNothing_onceLogged : ∃ its o,
    calls onceLogged 4 (construct false 0 0) = some (its, o) ∧
      its.map Iterated.res = [.error (), .ok true, .error (), .error ()] ∧
      o.val.currentState = true ∧ o.val.vars = 0 ∧
      ∀ it ∈ its, AllOrNothing onceLogged it ↔ ¬ LogThrew it := by
  have hreset : ∀ s t h e, (onceLogged.chooseNextState s t h).1 = .error e →
      (onceLogged.chooseNextState s t h).2 = h := by
    intro s t h e
    by_cases hh : h = 1 <;> simp [onceLogged, hh]
  obtain ⟨its, o, hits, -, hall⟩ := calls_allOrNothing onceLogged hreset false 0 0 4
  obtain ⟨rfl, rfl⟩ := Prod.mk.inj (Option.some.inj hits)
  exact ⟨_, _, hits, rfl, rfl, rfl, fun it hit => (hall it hit).1⟩

/-- Hooks with a variable that `choose_next_state` resets and a log that cannot be written. -/
def fullLog : Hooks Bool Bool Unit Unit where
  runCurrentState _ h := (.ok .tNext1, h)
  chooseNextState s _ _ := (.ok !s, true)
  printTransition _ _ _ _ p := (.error (), p)
  printRepeatTransition _ := false

theorem fullLog_not_allOrNothing :
    (∀ s t h e, (fullLog.chooseNextState s t h).1 = .error e →
      (fullLog.chooseNextState s t h).2 = h) ∧
    ∃ its o, calls fullLog 1 (construct false false ()) = some (its, o) ∧
      o.val.currentState = false ∧ o.val.vars = true ∧
      ¬ ∀ it ∈ its, AllOrNothing fullLog it := by
  refine ⟨by simp [fullLog], _, _, rfl, rfl, rfl, ?_⟩
  intro h
  rcases h _ List.mem_cons_self with ⟨t, x, s', x', -, -, -, hwrite, -⟩ | ⟨-, -, -, hvars⟩
  · simp [bodyEvent, fullLog] at hwrite
  · exact absurd hvars (by decide)

end Usm

end PairingV2
