import PairingV2.Lib.Ending
import PairingV2.Usm.Atomic
import PairingV2.Usm.Reach

/-!
# Every schedule of the threads

Threads that share a state machine come to an end whatever the schedule is, and then every call has
returned and the object is as the calls left it one after the other (`threads_complete`). Where the
next state is a table, no schedule shows a thread a state outside of the closure of the table
(`threads_closure`).
-/

namespace PairingV2

namespace Usm

variable {σ H P E : Type} {τ : Type} [DecidableEq τ]

/-- What the calls of the threads are made of. -/
abbrev ThreadStep (hk : Hooks σ H P E) (c : Threads τ σ H P E) (t : τ)
    (e : Event (LockAct (Act σ H)) (LockAns (Ans σ H E))) (c' : Threads τ σ H P E) : Prop :=
  Config.Step (fun call => (body call).lockGuard) (lockSem (Prog.det (answer hk))) c t e c'

/-- No thread can go on. -/
def Halted (hk : Hooks σ H P E) (c : Threads τ σ H P E) : Prop :=
  ∀ t e c', ¬ ThreadStep hk c t e c'

theorem calls_of_halted {hk : Hooks σ H P E} {f₀ : Fields σ H P} {script : τ → List (Call H)}
    {c : Threads τ σ H P E} (h : Reachable hk f₀ script c)
    (hidle : ∀ t, (c.thread t).cur = none ∧ (c.thread t).todo = []) (t : τ) :
    (c.done.filter (·.tid = t)).map Finished.call = script t := by
  have hcalls := h.calls_eq t
  obtain ⟨hcur, htodo⟩ := hidle t
  simpa [Config.calls, hcur, htodo] using hcalls

/-- The threads cannot go on for ever, and where none of them can go on, each has made its calls,
the mutex is free, and the object is what an atomic machine is left as by the calls in the order in
which they took the mutex: no hook that throws keeps the mutex, and nobody waits for it for ever. -/
theorem threads_complete [Finite τ] (hk : Hooks σ H P E) (f₀ : Fields σ H P)
    (script : τ → List (Call H)) :
    (¬ ∃ f : ℕ → Threads τ σ H P E, ∀ n, ∃ t e, ThreadStep hk (f n) t e (f (n + 1))) ∧
    ∀ c : Threads τ σ H P E, Reachable hk f₀ script c → Halted hk c →
      c.shared.owner = none ∧
      (∀ t, (c.done.filter (·.tid = t)).map Finished.call = script t) ∧
      acquirers c.trace = c.done.map Finished.tid ∧
      AtomicRun hk f₀ (c.done.map fun d => (d.tid, d.call, d.res)) c.shared.val := by
  refine ⟨threads_end _ _, fun c h hhalt => ?_⟩
  have hsem : ∀ (i : Act σ H) f, ∃ a f', Prog.det (answer hk) i f a f' := fun i f => ⟨_, _, rfl⟩
  obtain ⟨⟨f, hserial, hshared⟩, hidle⟩ := monitor_rest hsem (monitorInv_reach h) hhalt
  have horder := acquirers_reach h
  rw [hshared, Option.toList_none, List.append_nil] at horder
  rw [hshared]
  exact ⟨rfl, calls_of_halted h hidle, horder, serial_atomic hserial⟩

theorem halted_of_idle {hk : Hooks σ H P E} {c : Threads τ σ H P E}
    (hidle : ∀ t, (c.thread t).cur = none ∧ (c.thread t).todo = []) : Halted hk c := by
  rintro t e c' h
  obtain ⟨call, evs, i, k, todo, a, hh, -⟩ := Config.step_cases h
  obtain ⟨hcur, htodo⟩ := hidle t
  rcases Config.head_cases hh with ⟨h, -⟩ | ⟨-, h, -⟩
  · rw [hcur] at h
    cases h
  · rw [htodo] at h
    cases h

omit [DecidableEq τ] in
theorem threads_complete_toggle : ∃ c : Threads Bool Bool Unit Unit Unit, Halted toggle c ∧
    c.shared.owner = none ∧ AtomicRun toggle ⟨false, (), ()⟩
      (c.done.map fun d => (d.tid, d.call, d.res)) c.shared.val := by
  have hplay : (Config.play (fun call => (body call).lockGuard) (lockAnswer (answer toggle))
      Config.free (Config.initial ⟨none, ⟨false, (), ()⟩⟩
        fun t => if t then [Call.iterateOnce] else [Call.getState])
      (List.replicate 9 true ++ List.replicate 3 false)).any
        (fun c => ∀ t, (c.thread t).cur.isNone ∧ (c.thread t).todo.isEmpty) = true := by
    decide +kernel
  obtain ⟨c, hc, hidle⟩ := (Option.any_eq_true _ _).1 hplay
  have hreach : Reachable toggle ⟨false, (), ()⟩ _ c :=
    Config.reach_play (lockAnswer_sem _) _ .start hc
  have hhalt : Halted toggle c := halted_of_idle (by simpa using hidle)
  obtain ⟨-, hrest⟩ := threads_complete toggle ⟨false, (), ()⟩
    fun t : Bool => if t then [Call.iterateOnce] else [Call.getState]
  obtain ⟨howner, -, -, hatomic⟩ := hrest c hreach hhalt
  exact ⟨c, hhalt, howner, hatomic⟩

/-! ## Tables -/

/-- The states that an event shows. -/
def Ev.states : Ev σ H E → List σ
  | ⟨.readCurrentState, s⟩ => [s]
  | ⟨.writeCurrentState s, _⟩ => [s]
  | ⟨.runCurrentState s, _⟩ => [s]
  | ⟨.chooseNextState s _, .ok s'⟩ => [s, s']
  | ⟨.chooseNextState s _, .error _⟩ => [s]
  | ⟨.printTransition s s' _, _⟩ => [s, s']
  | ⟨.readPrintRepeatTransition, _⟩ => []
  | ⟨.change _, _⟩ => []

/-- An iteration shows the state it starts from and one that was chosen. -/
theorem Iter.states_cases {hk : Hooks σ H P E} {f f' : Fields σ H P} {es : List (Ev σ H E)}
    {r : Except E Bool} (h : Iter hk f es r f') {s : σ} (hs : s ∈ es.flatMap Ev.states) :
    s = f.currentState ∨
      ∃ t x, t ≠ .tRepeat ∧ (hk.chooseNextState f.currentState t x).1 = .ok s := by
  cases h with
  | runThrew | repeatQuiet | repeatPrinted | chooseThrew =>
    exact .inl (by simpa [Ev.states] using hs)
  | @printThrew t _ s' h _ _ ht _ hchoose | @stepped t s' h _ _ ht _ hchoose =>
    by_cases heq : s = s'
    · exact .inr ⟨t, h, ht, by rw [hchoose, heq]⟩
    · exact .inl (by simpa [Ev.states, heq] using hs)

section Table

variable {T : Table ℤ ℤ} {error s₀ : ℤ} {run : ℤ → H → Except E Transition × H}
  {print : ℤ → ℤ → Transition → H → P → Except E Unit × P} {flag : H → Bool}

theorem Iter.states_closure {f f' : Fields ℤ H P} {es : List (Ev ℤ H E)} {r : Except E Bool}
    (h : Iter (machine T error run print flag) f es r f')
    (hs : Closure T error s₀ f.currentState) {s : ℤ} (hmem : s ∈ es.flatMap Ev.states) :
    Closure T error s₀ s := by
  rcases h.states_cases hmem with rfl | ⟨t, x, ht, hchoose⟩
  · exact hs
  · simp only [machine, Except.ok.injEq] at hchoose
    rw [← hchoose]
    exact hs.call ht

theorem Atomic.closure {f f' : Fields ℤ H P} {call : Call H} {es : List (Ev ℤ H E)}
    {r : Result ℤ E} (h : Atomic (machine T error run print flag) f call es r f')
    (hs : Closure T error s₀ f.currentState) :
    Closure T error s₀ f'.currentState ∧ (∀ s ∈ es.flatMap Ev.states, Closure T error s₀ s) ∧
      ∀ s, r = .state s → Closure T error s₀ s := by
  cases h with
  | iterateOnce h => exact ⟨h.closure hs, fun s => h.states_closure hs, nofun⟩
  | getState =>
    refine ⟨hs, by simpa [Ev.states] using hs, ?_⟩
    rintro s ⟨⟩
    exact hs
  | locked gs =>
    refine ⟨hs, ?_, nofun⟩
    intro s hmem
    simp [Ev.states, List.mem_flatMap] at hmem

omit [DecidableEq τ] in
theorem serial_closure {f₀ f : Fields ℤ H P}
    {ds : List (Finished τ (Call H) (LockAct (Act ℤ H)) (LockAns (Ans ℤ H E)) (Result ℤ E))}
    (h : Serial body (Prog.det (answer (machine T error run print flag))) f₀ ds f)
    (hs : Closure T error s₀ f₀.currentState) : Closure T error s₀ f.currentState := by
  induction h with
  | nil => exact hs
  | snoc _ hsteps ih => exact ((atomic_of_steps hsteps).closure ih).1

variable {vars : H} {log : P} {script : τ → List (Call H)} {c : Threads τ ℤ H P E}

/-- Every state that a hook is called with, that is read or written, or that `get_state` returns is
in the closure of the table, and none is the error state if the table maps its closure. -/
theorem threads_closure
    (h : Reachable (machine T error run print flag) ⟨s₀, vars, log⟩ script c) :
    (∀ t e, (t, bodyEvent e) ∈ c.trace → ∀ s ∈ Ev.states e, Closure T error s₀ s) ∧
    (∀ d ∈ c.done, ∀ s, d.res = .state s → Closure T error s₀ s) ∧
    (error ≠ s₀ → (∀ s t s', T.Entry s t s' → s' ≠ error) →
      (∀ s, Closure T error s₀ s → ∀ t : Transition, t ≠ .tRepeat → ∃ s', T.Entry s t.val s') →
      (∀ t e, (t, bodyEvent e) ∈ c.trace → error ∉ Ev.states e) ∧
        ∀ d ∈ c.done, d.res ≠ .state error) := by
  have htrace : ∀ t e, (t, bodyEvent e) ∈ c.trace → ∀ s ∈ Ev.states e, Closure T error s₀ s := by
    intro t e he s hs
    obtain ⟨pre, post, htr⟩ := List.append_of_mem he
    obtain ⟨ds, ext, f', hserial, hext⟩ := serial_complete h
    rw [htr, List.append_assoc, List.cons_append] at hext
    obtain ⟨ds₁, f, call, es, fs, r, f₁, hpre, hsteps, -⟩ := serial_event hserial hext.symm
    have hf := serial_closure hpre .start
    refine ((atomic_of_steps hsteps).closure hf).2.1 s ?_
    exact List.mem_flatMap.2 ⟨e, List.mem_append_right _ List.mem_cons_self, hs⟩
  have hdone : ∀ d ∈ c.done, ∀ s, d.res = .state s → Closure T error s₀ s := by
    intro d hd s hres
    obtain ⟨pre, post, hsplit⟩ := List.append_of_mem hd
    obtain ⟨f', hserial⟩ : ∃ f', Serial body (Prog.det (answer (machine T error run print flag)))
        ⟨s₀, vars, log⟩ c.done f' := by
      rcases monitorInv_reach h with ⟨serial, -, -, -⟩ | ⟨-, -, -, serial, -⟩ <;> exact ⟨_, serial⟩
    obtain ⟨f, es, f₁, hpre, hsteps, -⟩ := serial_split hserial hsplit
    exact ((atomic_of_steps hsteps).closure (serial_closure hpre .start)).2.2 s hres
  refine ⟨htrace, hdone, fun hstart htarget htotal => ?_⟩
  have hne : ¬ Closure T error s₀ error := fun hs => hs.ne_error hstart htarget htotal rfl
  exact ⟨fun t e he hmem => hne (htrace t e he error hmem),
    fun d hd hres => hne (hdone d hd error hres)⟩

/-- Two threads, one of which iterates while the other asks for the state. -/
theorem threads_closure_swing : ∃ c : Threads Bool ℤ Unit Unit Unit,
    c.done.map Finished.tid = [true, false] ∧ ∀ d ∈ c.done, d.res ≠ .state 9 := by
  have hplay : (Config.play (fun call => (body call).lockGuard)
      (lockAnswer (answer (machine (E := Unit) (swing 0) 9 (fun _ (h : Unit) => (.ok .tNext1, h))
        (fun _ _ _ _ (p : Unit) => (.ok (), p)) fun _ => false)))
      Config.free (Config.initial ⟨none, ⟨0, (), ()⟩⟩
        fun t => if t then [Call.iterateOnce] else [Call.getState])
      (List.replicate 9 true ++ List.replicate 3 false)).any
        (fun c => c.done.map Finished.tid = [true, false]) = true := by
    decide +kernel
  obtain ⟨c, hc, hdone⟩ := (Option.any_eq_true _ _).1 hplay
  have hreach := Config.reach_play (lockAnswer_sem _) _ .start hc
  refine ⟨c, of_decide_eq_true hdone, ((threads_closure hreach).2.2 (by decide) ?_ ?_).2⟩
  · intro s t s' hs
    rw [swing_entry] at hs
    omega
  · intro s hs t ht
    have hval := Transition.val_bounds ht
    have hstate := swing_closure hs
    exact ⟨1 - s, swing_entry.2 (by omega)⟩

end Table

end Usm

end PairingV2
