import PairingV2.Usm.Runs
import PairingV2.Usm.Table

/-!
# What a table can reach

A machine whose `choose_next_state` is a `USM_TABLE` stays in the closure of its starting state
under the entries of the table other than those of `T_REPEAT`, and under the error state where an
entry is missing (`table_reach`): a repeat never gets as far as the table.
-/

namespace PairingV2

namespace Usm

variable {σ H P E : Type}

def Transition.val : Transition → ℤ
  | .tRepeat => 0
  | .tNext1 => 1
  | .tNext2 => 2
  | .tNext3 => 3
  | .tNext4 => 4
  | .tError => 5

theorem Transition.val_injective : Function.Injective Transition.val := by
  intro t t' h
  cases t <;> cases t' <;> simp [Transition.val] at h ⊢

/-! ## What an iteration depends on -/

theorem Iter.iteration_eq {hk : Hooks σ H P E} {f f' : Fields σ H P} {es : List (Ev σ H E)}
    {r : Except E Bool} (h : Iter hk f es r f') : iteration hk f = (es, r, f') := by
  unfold iteration iterateOnce
  rw [exec_currentState]
  cases h with
  | runThrew hrun => rw [exec_runCurrentState hk f hrun]; rfl
  | repeatQuiet hrun hq =>
    rw [exec_runCurrentState hk f hrun]
    simp only [exec_bindCont_ok, ne_eq, not_true_eq_false, ↓reduceIte,
      exec_printRepeatTransition, hq]
    rfl
  | @repeatPrinted h p r hrun hq hprint =>
    rw [exec_runCurrentState hk f hrun]
    simp only [exec_bindCont_ok, ne_eq, not_true_eq_false, ↓reduceIte,
      exec_printRepeatTransition, hq, exec_currentState,
      exec_printTransition hk { f with vars := h } hprint]
    rcases r with e | u <;> rfl
  | @chooseThrew t e h h' ht hrun hchoose =>
    rw [exec_runCurrentState hk f hrun]
    simp only [exec_bindCont_ok, ne_eq, ht, not_false_eq_true, ↓reduceIte, exec_currentState,
      exec_chooseNextState hk { f with vars := h } hchoose]
    rfl
  | @printThrew t e s' h h' p ht hrun hchoose hprint =>
    rw [exec_runCurrentState hk f hrun]
    simp only [exec_bindCont_ok, ne_eq, ht, not_false_eq_true, ↓reduceIte, exec_currentState,
      exec_chooseNextState hk { f with vars := h } hchoose,
      exec_printTransition hk { f with vars := h' } hprint]
    rfl
  | @stepped t s' h h' p ht hrun hchoose hprint =>
    rw [exec_runCurrentState hk f hrun]
    simp only [exec_bindCont_ok, ne_eq, ht, not_false_eq_true, ↓reduceIte, exec_currentState,
      exec_chooseNextState hk { f with vars := h } hchoose,
      exec_printTransition hk { f with vars := h' } hprint]
    rfl

/-- An iteration asks `choose_next_state` for the transitions other than `T_REPEAT` only. -/
theorem Iter.of_choose_eq {hk hk' : Hooks σ H P E} {f f' : Fields σ H P} {es : List (Ev σ H E)}
    {r : Except E Bool} (h : Iter hk f es r f')
    (hrun : hk'.runCurrentState = hk.runCurrentState)
    (hchoose : ∀ s t h, t ≠ .tRepeat → hk'.chooseNextState s t h = hk.chooseNextState s t h)
    (hprint : hk'.printTransition = hk.printTransition)
    (hflag : hk'.printRepeatTransition = hk.printRepeatTransition) :
    Iter hk' f es r f' := by
  cases h with
  | runThrew h1 => exact .runThrew (by rw [hrun, h1])
  | repeatQuiet h1 h2 => exact .repeatQuiet (by rw [hrun, h1]) (by rw [hflag, h2])
  | repeatPrinted h1 h2 h3 =>
    exact .repeatPrinted (by rw [hrun, h1]) (by rw [hflag, h2]) (by rw [hprint, h3])
  | chooseThrew ht h1 h2 => exact .chooseThrew ht (by rw [hrun, h1]) (by rw [hchoose _ _ _ ht, h2])
  | printThrew ht h1 h2 h3 =>
    exact .printThrew ht (by rw [hrun, h1]) (by rw [hchoose _ _ _ ht, h2]) (by rw [hprint, h3])
  | stepped ht h1 h2 h3 =>
    exact .stepped ht (by rw [hrun, h1]) (by rw [hchoose _ _ _ ht, h2]) (by rw [hprint, h3])

theorem calls_eq_of_iteration_eq {hk hk' : Hooks σ H P E}
    (h : ∀ f, iteration hk' f = iteration hk f) :
    ∀ (n : ℕ) (o : Object σ H P), calls hk' n o = calls hk n o
  | 0, o => rfl
  | n + 1, o => by
    have hit : ∀ o : Object σ H P, o.iterateOnce hk' = o.iterateOnce hk := by
      intro o
      unfold Object.iterateOnce
      rw [Prog.run_lockGuard, Prog.run_lockGuard]
      simp only [iteration] at h
      simp only [h]
    simp only [calls, hit, calls_eq_of_iteration_eq h n]

/-- An iteration stays in its state or goes to one that was chosen. -/
theorem Iter.currentState_cases {hk : Hooks σ H P E} {f f' : Fields σ H P}
    {es : List (Ev σ H E)} {r : Except E Bool} (h : Iter hk f es r f') :
    f'.currentState = f.currentState ∨
      ∃ t x, t ≠ .tRepeat ∧
        (hk.chooseNextState f.currentState t x).1 = .ok f'.currentState := by
  cases h with
  | stepped ht _ hchoose _ => exact .inr ⟨_, _, ht, by rw [hchoose]⟩
  | runThrew | repeatQuiet | repeatPrinted | chooseThrew | printThrew => exact .inl rfl

/-! ## Machines of a table -/

/-- The hooks of a machine whose `choose_next_state` is a table. -/
def machine (T : Table ℤ ℤ) (error : ℤ) (run : ℤ → H → Except E Transition × H)
    (print : ℤ → ℤ → Transition → H → P → Except E Unit × P) (flag : H → Bool) :
    Hooks ℤ H P E where
  runCurrentState := run
  chooseNextState currentState transition h :=
    (.ok (T.call error currentState transition.val), h)
  printTransition := print
  printRepeatTransition := flag

/-- The least set with the starting state that follows the entries and falls back to the error
state, on the transitions other than `T_REPEAT`. -/
inductive Closure (T : Table ℤ ℤ) (error s₀ : ℤ) : ℤ → Prop where
  | start : Closure T error s₀ s₀
  | follow {s s' : ℤ} {t : Transition} (h : Closure T error s₀ s) (ht : t ≠ .tRepeat)
      (hs : T.Entry s t.val s') : Closure T error s₀ s'
  | error {s : ℤ} {t : Transition} (h : Closure T error s₀ s) (ht : t ≠ .tRepeat)
      (hno : ∀ s', ¬ T.Entry s t.val s') : Closure T error s₀ error

/-- The tables have the same entries but for those of `T_REPEAT`. -/
def Table.SameButRepeat (T T' : Table ℤ ℤ) : Prop :=
  ∀ currentState transition s, transition ≠ Transition.tRepeat.val →
    (T'.Entry currentState transition s ↔ T.Entry currentState transition s)

theorem Closure.call {T : Table ℤ ℤ} {error s₀ s : ℤ} {t : Transition}
    (h : Closure T error s₀ s) (ht : t ≠ .tRepeat) :
    Closure T error s₀ (T.call error s t.val) := by
  by_cases hs : ∃ s', T.Entry s t.val s'
  · obtain ⟨s', hs⟩ := hs
    rw [call_of_exec (exec_of_entry hs)]
    exact .follow h ht hs
  · have hno : ∀ s', ¬ T.Entry s t.val s' := fun s' hs' => hs ⟨s', hs'⟩
    rw [call_of_exec (exec_of_no_entry hno)]
    exact .error h ht hno

/-- The error state is not in the closure unless the machine starts there, an entry leads there or
an entry is missing. -/
theorem Closure.ne_error {T : Table ℤ ℤ} {error s₀ : ℤ} (hstart : error ≠ s₀)
    (htarget : ∀ s t s', T.Entry s t s' → s' ≠ error)
    (htotal : ∀ s, Closure T error s₀ s → ∀ t : Transition, t ≠ .tRepeat →
      ∃ s', T.Entry s t.val s') {s : ℤ} (h : Closure T error s₀ s) : s ≠ error := by
  cases h with
  | start => exact hstart.symm
  | follow _ _ hs => exact htarget _ _ _ hs
  | error h ht hno =>
    obtain ⟨s', hs⟩ := htotal _ h _ ht
    exact absurd hs (hno s')

theorem Table.SameButRepeat.call_eq {T T' : Table ℤ ℤ} (h : T.SameButRepeat T') (error s : ℤ)
    {t : Transition} (ht : t ≠ .tRepeat) : T'.call error s t.val = T.call error s t.val := by
  have hval : t.val ≠ Transition.tRepeat.val := fun he => ht (Transition.val_injective he)
  by_cases hs : ∃ s', T.Entry s t.val s'
  · obtain ⟨s', hs⟩ := hs
    rw [call_of_exec (exec_of_entry hs), call_of_exec (exec_of_entry ((h _ _ _ hval).2 hs))]
  · have hno : ∀ s', ¬ T.Entry s t.val s' := fun s' hs' => hs ⟨s', hs'⟩
    rw [call_of_exec (exec_of_no_entry hno),
      call_of_exec (exec_of_no_entry fun s' hs' => hno s' ((h _ _ _ hval).1 hs'))]

section Machine

variable {T : Table ℤ ℤ} {error : ℤ} {run : ℤ → H → Except E Transition × H}
  {print : ℤ → ℤ → Transition → H → P → Except E Unit × P} {flag : H → Bool}

theorem Iter.closure {f f' : Fields ℤ H P} {es : List (Ev ℤ H E)} {r : Except E Bool} {s₀ : ℤ}
    (h : Iter (machine T error run print flag) f es r f')
    (hs : Closure T error s₀ f.currentState) : Closure T error s₀ f'.currentState := by
  rcases h.currentState_cases with he | ⟨t, x, ht, hchoose⟩
  · rw [he]
    exact hs
  · simp only [machine, Except.ok.injEq] at hchoose
    rw [← hchoose]
    exact hs.call ht

theorem Calls.closure {o o' : Object ℤ H P} {its : List (Iterated ℤ H P E)} {s₀ : ℤ}
    (h : Calls (machine T error run print flag) o its o')
    (hs : Closure T error s₀ o.val.currentState) :
    (∀ it ∈ its, Closure T error s₀ it.before.val.currentState ∧
      Closure T error s₀ it.after.val.currentState) ∧ Closure T error s₀ o'.val.currentState := by
  induction h with
  | nil => exact ⟨by simp, hs⟩
  | cons ok _ ih =>
    have hafter := ok.iter.closure hs
    obtain ⟨hits, ho⟩ := ih hafter
    refine ⟨?_, ho⟩
    intro it hit
    rcases List.mem_cons.1 hit with rfl | hit
    · exact ⟨hs, hafter⟩
    · exact hits it hit

end Machine

/-- Every run of `iterate_once` stays in the closure of the starting state; the error state is not
reached from a starting state whose closure the table maps; and the entries of `T_REPEAT` are
dead. -/
theorem table_reach (T : Table ℤ ℤ) (error : ℤ) (run : ℤ → H → Except E Transition × H)
    (print : ℤ → ℤ → Transition → H → P → Except E Unit × P) (flag : H → Bool) (s₀ : ℤ) (vars : H)
    (log : P) (n : ℕ) :
    ∃ its o, calls (machine T error run print flag) n (construct s₀ vars log) = some (its, o) ∧
      its.length = n ∧
      (∀ it ∈ its, Closure T error s₀ it.before.val.currentState ∧
        Closure T error s₀ it.after.val.currentState) ∧
      Closure T error s₀ o.val.currentState ∧
      (error ≠ s₀ → (∀ s t s', T.Entry s t s' → s' ≠ error) →
        (∀ s, Closure T error s₀ s → ∀ t : Transition, t ≠ .tRepeat →
          ∃ s', T.Entry s t.val s') →
        (∀ it ∈ its, it.before.val.currentState ≠ error ∧ it.after.val.currentState ≠ error) ∧
          o.val.currentState ≠ error) ∧
      ∀ T', T.SameButRepeat T' →
        calls (machine T' error run print flag) n (construct s₀ vars log) = some (its, o) := by
  obtain ⟨its, o, hits, hlen, -, hcalls⟩ := calls_spec (machine T error run print flag) n
    (show (construct s₀ vars log : Object ℤ H P).owner = none from rfl)
  obtain ⟨hclosure, ho⟩ := hcalls.closure (show Closure T error s₀ _ from .start)
  refine ⟨its, o, hits, hlen, hclosure, ho, ?_, ?_⟩
  · intro hstart htarget htotal
    have hne : ∀ s, Closure T error s₀ s → s ≠ error := fun s hs =>
      hs.ne_error hstart htarget htotal
    exact ⟨fun it hit => ⟨hne _ (hclosure it hit).1, hne _ (hclosure it hit).2⟩, hne _ ho⟩
  · intro T' hT
    rw [← hits]
    refine calls_eq_of_iteration_eq ?_ n _
    intro f
    have hiter : Iter (machine T' error run print flag) f _ _ _ :=
      (iter_iteration (machine T error run print flag) f).of_choose_eq rfl
        (fun s t h ht => by simp only [machine, hT.call_eq error s ht]) rfl rfl
    exact hiter.iteration_eq

/-- Two states that every transition but `T_REPEAT` exchanges, and an entry of `T_REPEAT`. -/
def swing (s : ℤ) : Table ℤ ℤ where
  rows := [⟨0, (0, s) :: [1, 2, 3, 4, 5].map (·, 1), by simp⟩,
    ⟨1, [1, 2, 3, 4, 5].map (·, 0), by simp⟩]
  nodup := by simp

theorem swing_entry {r s t s' : ℤ} : (swing r).Entry s t s' ↔
    (s = 0 ∧ (t = 0 ∧ s' = r ∨ 1 ≤ t ∧ t ≤ 5 ∧ s' = 1)) ∨
      (s = 1 ∧ 1 ≤ t ∧ t ≤ 5 ∧ s' = 0) := by
  have hmap : ∀ x, (t, s') ∈ [(1 : ℤ), 2, 3, 4, 5].map (·, x) ↔ 1 ≤ t ∧ t ≤ 5 ∧ s' = x := by
    intro x
    simp only [List.map_cons, List.map_nil, List.mem_cons, Prod.mk.injEq, List.not_mem_nil,
      or_false, ← or_and_right, ← and_assoc]
    refine and_congr_left ?_
    intro _
    omega
  have hrows : ∀ P : Row ℤ ℤ → Prop, (∃ x ∈ (swing r).rows, P x) ↔
      P ⟨0, (0, r) :: [1, 2, 3, 4, 5].map (·, 1), by simp⟩ ∨
        P ⟨1, [1, 2, 3, 4, 5].map (·, 0), by simp⟩ := by
    simp [swing]
  simp only [Table.Entry, hrows, List.mem_cons, hmap, Prod.mk.injEq, @eq_comm _ _ s]

theorem Transition.val_bounds {t : Transition} (ht : t ≠ .tRepeat) : 1 ≤ t.val ∧ t.val ≤ 5 := by
  cases t <;> simp [Transition.val] at ht ⊢

theorem swing_closure {s : ℤ} (h : Closure (swing 0) 9 0 s) : s = 0 ∨ s = 1 := by
  induction h with
  | start => exact .inl rfl
  | follow _ ht hs ih =>
    rw [swing_entry] at hs
    omega
  | @error s t _ ht hno ih =>
    have hval := Transition.val_bounds ht
    refine absurd (swing_entry.2 ?_) (hno (1 - s))
    omega

theorem table_reach_swing : ∃ its o,
    calls (machine (swing 0) 9 (fun _ h => (.ok .tNext1, h)) (fun _ _ _ _ p => (.ok (), p))
      fun _ => false) 3 (construct 0 () () : Object ℤ Unit Unit) =
        some ((its : List (Iterated ℤ Unit Unit Unit)), o) ∧
      o.val.currentState ≠ 9 ∧
      calls (machine (swing 7) 9 (fun _ h => (.ok .tNext1, h)) (fun _ _ _ _ p => (.ok (), p))
        fun _ => false) 3 (construct 0 () ()) = some (its, o) := by
  obtain ⟨its, o, hits, -, -, -, hne, hdead⟩ := table_reach (E := Unit) (swing 0) 9
    (fun _ (h : Unit) => (.ok .tNext1, h)) (fun _ _ _ _ (p : Unit) => (.ok (), p))
    (fun _ => false) 0 () () 3
  refine ⟨its, o, hits, (hne (by decide) ?_ ?_).2, hdead (swing 7) ?_⟩
  · intro s t s' hs
    rw [swing_entry] at hs
    omega
  · intro s hs t ht
    have hval := Transition.val_bounds ht
    have hstate := swing_closure hs
    exact ⟨1 - s, swing_entry.2 (by omega)⟩
  · intro s t s' ht
    have hzero : t ≠ 0 := ht
    rw [swing_entry, swing_entry]
    omega

end Usm

end PairingV2
