import PairingV2.Usm.Machine

/-!
# The members of the state machine are atomic

Any number of threads call `iterate_once`, `get_state` and locked sections of a derived class, and
take turns after every single action. What they do is what a machine does that makes each call in
one step (`AtomicRun`), in the order in which the mutex was taken.
-/

namespace PairingV2

namespace Usm

/-- A call of a thread. A locked section is the changes a derived class makes between `state_lock`
and `state_unlock`. -/
inductive Call (H : Type) where
  | iterateOnce
  | getState
  | locked (fs : List (H → H))

inductive Result (σ E : Type) where
  | iterated (r : Except E Bool)
  | state (s : σ)
  | unlocked

variable {σ H P E : Type} {τ : Type}

/-- What a call does under the mutex. -/
def body : Call H → Prog (Act σ H) (Ans σ H E) (Result σ E)
  | .iterateOnce => iterateOnce.run.bind fun r => .ret (.iterated r)
  | .getState => getState.bind fun s => .ret (.state s)
  | .locked fs => (lockedSection fs).bind fun _ => .ret .unlocked

abbrev Threads (τ σ H P E : Type) :=
  Config τ (Call H) (LockAct (Act σ H)) (LockAns (Ans σ H E)) (Result σ E)
    (Locked τ (Fields σ H P))

/-- What the threads can reach, taking turns after every action. -/
abbrev Reachable [DecidableEq τ] (hk : Hooks σ H P E) (f₀ : Fields σ H P)
    (script : τ → List (Call H)) (c : Threads τ σ H P E) : Prop :=
  Config.Reach (fun call => (body call).lockGuard) (lockSem (Prog.det (answer hk))) Config.free
    (Config.initial ⟨none, f₀⟩ script) c

/-! ## The atomic machine -/

inductive Atomic (hk : Hooks σ H P E) (f : Fields σ H P) :
    Call H → List (Ev σ H E) → Result σ E → Fields σ H P → Prop where
  | iterateOnce {es : List (Ev σ H E)} {r : Except E Bool} {f' : Fields σ H P}
      (h : Iter hk f es r f') : Atomic hk f .iterateOnce es (.iterated r) f'
  | getState : Atomic hk f .getState [.read f.currentState] (.state f.currentState) f
  | locked (gs : List (H → H)) :
      Atomic hk f (.locked gs) (gs.map fun g => ⟨.change g, ()⟩) .unlocked
        { f with vars := gs.foldl (fun h g => g h) f.vars }

/-- The runs of the machine that makes each call in one step: the calls with their threads and
results. -/
inductive AtomicRun (hk : Hooks σ H P E) (f₀ : Fields σ H P) :
    List (τ × Call H × Result σ E) → Fields σ H P → Prop where
  | nil : AtomicRun hk f₀ [] f₀
  | snoc {cs : List (τ × Call H × Result σ E)} {f f' : Fields σ H P} {t : τ} {call : Call H}
      {es : List (Ev σ H E)} {r : Result σ E} (h : AtomicRun hk f₀ cs f)
      (hc : Atomic hk f call es r f') : AtomicRun hk f₀ (cs ++ [(t, call, r)]) f'

theorem exec_lockedSection (hk : Hooks σ H P E) : ∀ (gs : List (H → H)) (f : Fields σ H P),
    (lockedSection gs).exec (answer hk) f =
      (gs.map fun g => ⟨.change g, ()⟩, (), { f with vars := gs.foldl (fun h g => g h) f.vars })
  | [], f => rfl
  | g :: gs, f => by
    simp only [lockedSection, Prog.exec_act, answer, exec_lockedSection hk gs, List.map_cons,
      List.foldl_cons]

theorem atomic_exec (hk : Hooks σ H P E) (f : Fields σ H P) (call : Call H) :
    Atomic hk f call ((body call).exec (answer hk) f).1 ((body call).exec (answer hk) f).2.1
      ((body call).exec (answer hk) f).2.2 := by
  cases call with
  | iterateOnce =>
    simp only [body, Prog.exec_bind, Prog.exec_ret, List.append_nil]
    exact .iterateOnce (iter_iteration hk f)
  | getState => exact .getState
  | locked gs =>
    simp only [body, Prog.exec_bind, exec_lockedSection, Prog.exec_ret, List.append_nil]
    exact .locked gs

theorem atomic_of_steps {hk : Hooks σ H P E} {f f' : Fields σ H P} {call : Call H}
    {es : List (Ev σ H E)} {r : Result σ E}
    (h : Prog.Steps (Prog.det (answer hk)) (body call) f es (.ret r) f') :
    Atomic hk f call es r f' := by
  have := atomic_exec hk f call
  rwa [Prog.exec_of_steps_ret _ h] at this

theorem serial_atomic {hk : Hooks σ H P E} {f₀ f : Fields σ H P}
    {ds : List (Finished τ (Call H) (LockAct (Act σ H)) (LockAns (Ans σ H E)) (Result σ E))}
    (h : Serial body (Prog.det (answer hk)) f₀ ds f) :
    AtomicRun hk f₀ (ds.map fun d => (d.tid, d.call, d.res)) f := by
  induction h with
  | nil => exact .nil
  | snoc _ hs ih =>
    rw [List.map_append]
    exact .snoc ih (atomic_of_steps hs)

/-! ## The state in a trace -/

abbrev Trace (τ σ H E : Type) := List (τ × Event (LockAct (Act σ H)) (LockAns (Ans σ H E)))

def writes (s : σ) : τ × Event (LockAct (Act σ H)) (LockAns (Ans σ H E)) → σ
  | (_, ⟨.body (.writeCurrentState s'), _⟩) => s'
  | _ => s

/-- The state written last in a trace, or the one it started from. -/
def lastWritten (s : σ) (tr : Trace τ σ H E) : σ := tr.foldl writes s

theorem lastWritten_append (s : σ) (tr tr' : Trace τ σ H E) :
    lastWritten s (tr ++ tr') = lastWritten (lastWritten s tr) tr' := List.foldl_append

theorem lastWritten_steps {hk : Hooks σ H P E} (t : τ) {ρ : Type}
    {p q : Prog (Act σ H) (Ans σ H E) ρ} {f f' : Fields σ H P} {es : List (Ev σ H E)}
    (h : Prog.Steps (Prog.det (answer hk)) p f es q f') :
    lastWritten f.currentState (es.map fun e => (t, bodyEvent e)) = f'.currentState := by
  induction h with
  | refl => rfl
  | @cons i k f f₁ f' a es q ha _ ih =>
    rw [List.map_cons, ← ih]
    cases i <;> cases ha <;> rfl

theorem lastWritten_serial {hk : Hooks σ H P E} {f₀ f : Fields σ H P}
    {ds : List (Finished τ (Call H) (LockAct (Act σ H)) (LockAns (Ans σ H E)) (Result σ E))}
    (h : Serial body (Prog.det (answer hk)) f₀ ds f) :
    lastWritten f₀.currentState (ds.flatMap Finished.labels) = f.currentState := by
  induction h with
  | nil => rfl
  | @snoc ds f f' t call es r _ hs ih =>
    rw [List.flatMap_append, lastWritten_append, ih, ← lastWritten_steps t hs]
    simp [Finished.labels, lastWritten, acquired, released, writes, Function.comp_def]

/-! ## The events of one call -/

theorem Iter.run_split {hk : Hooks σ H P E} {f f' : Fields σ H P} {r : Except E Bool}
    {es fs : List (Ev σ H E)} {s : σ} {t : Transition} (ht : t ≠ .tRepeat)
    (h : Iter hk f (es ++ .run s (.ok t) :: fs) r f') :
    f.currentState = s ∧ ∃ a fs', fs = .read s :: .choose s t a :: fs' := by
  generalize hl : es ++ .run s (.ok t) :: fs = l at h
  cases h <;> simp [List.append_eq_cons_iff, List.cons_eq_append_iff] at hl
  case repeatQuiet => exact absurd hl.2.1.2 ht
  case repeatPrinted => exact absurd hl.2.1.2 ht
  all_goals
    obtain ⟨-, ⟨rfl, rfl⟩, rfl⟩ := hl
    exact ⟨rfl, _, _, rfl⟩

theorem Iter.choose_split {hk : Hooks σ H P E} {f f' : Fields σ H P} {r : Except E Bool}
    {es fs : List (Ev σ H E)} {s : σ} {t : Transition} {a : Except E σ}
    (h : Iter hk f (es ++ .choose s t a :: fs) r f') :
    f.currentState = s ∧ t ≠ .tRepeat ∧ es = [.read s, .run s (.ok t), .read s] := by
  generalize hl : es ++ .choose s t a :: fs = l at h
  cases h <;> simp [List.append_eq_cons_iff, List.cons_eq_append_iff] at hl
  all_goals
    obtain ⟨rfl, ⟨⟨rfl, rfl⟩, rfl⟩, rfl⟩ := hl
    exact ⟨rfl, by assumption, rfl⟩

theorem Iter.write_split {hk : Hooks σ H P E} {f f' : Fields σ H P} {r : Except E Bool}
    {es fs : List (Ev σ H E)} {s' : σ} (h : Iter hk f (es ++ .write s' :: fs) r f') :
    ∃ t, t ≠ .tRepeat ∧ es = [.read f.currentState, .run f.currentState (.ok t),
      .read f.currentState, .choose f.currentState t (.ok s'), .read f.currentState,
      .print f.currentState s' t (.ok ())] := by
  generalize hl : es ++ .write s' :: fs = l at h
  cases h <;> simp [List.append_eq_cons_iff, List.cons_eq_append_iff] at hl
  obtain ⟨rfl, rfl, rfl⟩ := hl
  exact ⟨_, by assumption, rfl⟩

/-- Only `iterate_once` calls the hooks and writes the state. -/
theorem Atomic.iter {hk : Hooks σ H P E} {f f' : Fields σ H P} {call : Call H} {r : Result σ E}
    {es : List (Ev σ H E)} (h : Atomic hk f call es r f') {e : Ev σ H E} (he : e ∈ es)
    (hread : ∀ s, e ≠ .read s) (hchange : ∀ g, e ≠ ⟨.change g, ()⟩) :
    ∃ r', Iter hk f es r' f' := by
  cases h with
  | iterateOnce h => exact ⟨_, h⟩
  | getState =>
    rw [List.mem_singleton] at he
    exact absurd he (hread _)
  | locked gs =>
    obtain ⟨g, -, rfl⟩ := List.mem_map.1 he
    exact absurd rfl (hchange g)

section Reachable

variable [DecidableEq τ] {hk : Hooks σ H P E} {f₀ : Fields σ H P} {script : τ → List (Call H)}
  {c : Threads τ σ H P E}

/-- What the threads performed is the beginning of a serial run: the call under way could go on
alone. -/
theorem serial_complete (h : Reachable hk f₀ script c) :
    ∃ ds ext f, Serial body (Prog.det (answer hk)) f₀ ds f ∧
      c.trace ++ ext = ds.flatMap Finished.labels := by
  rcases monitorInv_reach h with ⟨serial, -, -, trace⟩ |
    @⟨s, t, call, es, rest, serial, -, -, steps, -, trace⟩
  · exact ⟨c.done, [], _, serial, by rw [trace, List.append_nil]⟩
  · have hs := steps.trans (Prog.steps_exec (answer hk) rest c.shared.val)
    refine ⟨_, ((rest.exec (answer hk) c.shared.val).1.map fun e => (t, bodyEvent e)) ++
      [(t, released)], _, serial.snoc (t := t) hs, ?_⟩
    rw [trace]
    simp [Finished.labels, Function.comp_def]

/-- Every action of a body belongs to a call made, as an atomic step, from the state written
last before its thread took the mutex. -/
theorem event_atomic (h : Reachable hk f₀ script c) {pre post : Trace τ σ H E} {t : τ}
    {e : Ev σ H E} (htr : c.trace = pre ++ (t, bodyEvent e) :: post) :
    ∃ pre' f call es fs r f', pre = pre' ++ (t, acquired) :: es.map (fun e => (t, bodyEvent e)) ∧
      lastWritten f₀.currentState pre' = f.currentState ∧
      Atomic hk f call (es ++ e :: fs) r f' ∧
      ∃ ext, (fs.map fun e => (t, bodyEvent e)) <+: post ++ ext := by
  obtain ⟨ds, ext, f', hserial, hext⟩ := serial_complete h
  rw [htr, List.append_assoc, List.cons_append] at hext
  obtain ⟨ds₁, f, call, es, fs, r, f₁, hpre, hsteps, rfl, hpost⟩ := serial_event hserial hext.symm
  exact ⟨_, f, call, es, fs, r, f₁, rfl, lastWritten_serial hpre, atomic_of_steps hsteps, ext,
    (List.prefix_append _ _).trans hpost⟩

theorem lastWritten_trace (h : Reachable hk f₀ script c) :
    lastWritten f₀.currentState c.trace = c.shared.val.currentState := by
  rcases monitorInv_reach h with ⟨serial, shared, -, trace⟩ |
    @⟨s, t, call, es, rest, serial, -, -, steps, -, trace⟩
  · rw [trace, lastWritten_serial serial, shared]
  · rw [trace, lastWritten_append, lastWritten_serial serial, ← lastWritten_steps t steps]
    rfl

/-- Whatever the schedule, the calls that have returned are a run of the atomic machine, in the
order in which the mutex was taken, and each thread's are the ones it was to make. A transition
that `run_current_state` returned for a state goes to `choose_next_state` with the same state, and
what it chose is written while that state is still the one written last; `get_state` returns what
the last call before it left; only the holder of the mutex touches the object. -/
theorem threads_refine_atomic (h : Reachable hk f₀ script c) :
    (∃ f, AtomicRun hk f₀ (c.done.map fun d => (d.tid, d.call, d.res)) f ∧
      (c.shared.owner = none → c.shared.val = f)) ∧
    (∀ t, c.calls t = script t) ∧
    acquirers c.trace = c.done.map Finished.tid ++ c.shared.owner.toList ∧
    (∀ pre post t s tr, tr ≠ .tRepeat →
      c.trace = pre ++ (t, bodyEvent (Ev.run s (.ok tr))) :: post →
      ∃ a, [(t, bodyEvent (Ev.read s)), (t, bodyEvent (Ev.choose s tr a))] <+: post ∨
        post <+: [(t, bodyEvent (Ev.read s)), (t, bodyEvent (Ev.choose s tr a))]) ∧
    (∀ pre post t s tr a, c.trace = pre ++ (t, bodyEvent (Ev.choose s tr a)) :: post →
      ∃ pre', lastWritten f₀.currentState pre' = s ∧ tr ≠ .tRepeat ∧
        pre = pre' ++ [(t, acquired), (t, bodyEvent (Ev.read s)),
          (t, bodyEvent (Ev.run s (.ok tr))), (t, bodyEvent (Ev.read s))]) ∧
    (∀ pre post t s', c.trace = pre ++ (t, bodyEvent (Ev.write s')) :: post →
      ∃ pre' s tr, lastWritten f₀.currentState pre' = s ∧ tr ≠ .tRepeat ∧
        pre = pre' ++ [(t, acquired), (t, bodyEvent (Ev.read s)),
          (t, bodyEvent (Ev.run s (.ok tr))), (t, bodyEvent (Ev.read s)),
          (t, bodyEvent (Ev.choose s tr (.ok s'))), (t, bodyEvent (Ev.read s)),
          (t, bodyEvent (Ev.print s s' tr (.ok ())))]) ∧
    lastWritten f₀.currentState c.trace = c.shared.val.currentState ∧
    (∀ pre d post, c.done = pre ++ d :: post → d.call = .getState →
      d.res = .state (lastWritten f₀.currentState (pre.flatMap Finished.labels))) ∧
    (∀ pre post t e, c.trace = pre ++ (t, e) :: post →
      (e = acquired ∧ holder pre = none) ∨ (e ≠ acquired ∧ holder pre = some t)) := by
  refine ⟨?_, h.calls_eq, acquirers_reach h, ?_, ?_, ?_, lastWritten_trace h, ?_,
    fun pre post t e => mutual_exclusion h⟩
  · rcases monitorInv_reach h with ⟨serial, shared, -, -⟩ | ⟨-, -, -, serial, owner⟩
    · exact ⟨_, serial_atomic serial, fun _ => by rw [shared]⟩
    · exact ⟨_, serial_atomic serial, fun hn => absurd (hn.symm.trans owner) nofun⟩
  · intro pre post t s tr ht htr
    obtain ⟨pre', f, call, es, fs, r, f', -, -, hat, ext, hpost⟩ := event_atomic h htr
    obtain ⟨r', hiter⟩ := hat.iter (e := .run s (.ok tr)) (by simp) nofun nofun
    obtain ⟨-, a, fs', rfl⟩ := hiter.run_split ht
    have hnext : [(t, bodyEvent (Ev.read s)), (t, bodyEvent (Ev.choose s tr a))] <+: post ++ ext :=
      (List.prefix_append _ (fs'.map fun e => (t, bodyEvent e))).trans hpost
    exact ⟨a, List.prefix_or_prefix_of_prefix hnext (List.prefix_append _ _)⟩
  · intro pre post t s tr a htr
    obtain ⟨pre', f, call, es, fs, r, f', rfl, hlast, hat, -⟩ := event_atomic h htr
    obtain ⟨r', hiter⟩ := hat.iter (e := .choose s tr a) (by simp) nofun nofun
    obtain ⟨rfl, ht, rfl⟩ := hiter.choose_split
    exact ⟨pre', hlast, ht, rfl⟩
  · intro pre post t s' htr
    obtain ⟨pre', f, call, es, fs, r, f', rfl, hlast, hat, -⟩ := event_atomic h htr
    obtain ⟨r', hiter⟩ := hat.iter (e := .write s') (by simp) nofun nofun
    obtain ⟨tr, ht, rfl⟩ := hiter.write_split
    exact ⟨pre', f.currentState, tr, hlast, ht, rfl⟩
  · intro pre d post hd hcall
    obtain ⟨f, hserial⟩ : ∃ f, Serial body (Prog.det (answer hk)) f₀ c.done f := by
      rcases monitorInv_reach h with ⟨serial, -, -, -⟩ | ⟨-, -, -, serial, -⟩ <;>
        exact ⟨_, serial⟩
    obtain ⟨f₁, es, f₂, hpre, hsteps, -⟩ := serial_split hserial hd
    rw [lastWritten_serial hpre]
    have hat := atomic_of_steps hsteps
    rw [hcall] at hat
    generalize d.res = r at hat
    cases hat
    rfl

end Reachable

theorem threads_refine_atomic_toggle :
    ∃ c : Threads Bool Bool Unit Unit Unit, c.done.map Finished.tid = [true, false] ∧
      lastWritten false c.trace = c.shared.val.currentState := by
  have hplay : (Config.play (fun call => (body call).lockGuard) (lockAnswer (answer toggle))
      Config.free (Config.initial ⟨none, ⟨false, (), ()⟩⟩
        fun t => if t then [Call.iterateOnce] else [Call.getState])
      (List.replicate 9 true ++ List.replicate 3 false)).any
        (fun c => c.done.map Finished.tid = [true, false]) = true := by
    decide +kernel
  obtain ⟨c, hc, hdone⟩ := (Option.any_eq_true _ _).1 hplay
  have hreach : Reachable toggle ⟨false, (), ()⟩ _ c :=
    Config.reach_play (lockAnswer_sem _) _ .start hc
  exact ⟨c, of_decide_eq_true hdone, (threads_refine_atomic hreach).2.2.2.2.2.2.1⟩

end Usm

end PairingV2
