import PairingV2.Lib.Ending
import PairingV2.Sample.Order

/-!
# How far a test gets

Between two moves of its environment (a callback invoked, a wake-up, a deadline) a test and the
callbacks come to rest (`own_moves_end`), and where they rest the test has returned or sleeps for
what was not reported yet (`returns_or_sleeps`): no wake-up is lost. The one thing that keeps a
callback from returning is the lock that the master keeps after its wait for the pairing list, and
if the thread that is kept by it is the one that would report the awaited status, the test never
ends (`deadlock`).
-/

namespace PairingV2

namespace Sample

variable {τ : Type}

/-- The moves of the program and of the threads that are in a callback. -/
def TestMove.own : TestMove τ → Bool
  | .callback _ | .program _ => true
  | .report _ _ | .list _ | .wakeStatus | .wakePairing | .expire => false

namespace Test

/-! ## Own moves -/

/-- The moves that a wait takes before it sleeps, where the program has not begun it, and the move
that unlocks the mutex at the end. -/
def ahead (s : Test τ) : ℕ :=
  match s.code with
  | .ret _ => if s.pairing.waiter.wait.isSome then 1 else 0
  | .act (.awaitStatus _) _ => if s.status.waiter.wait.isSome then 0 else 3
  | .act .awaitPairing _ => if s.pairing.waiter.wait.isSome then 0 else 3
  | _ => 0

def left [Fintype τ] (s : Test τ) : ℕ := s.status.left + s.pairing.left + s.ahead

variable [DecidableEq τ] {s s' : Test τ} {m : TestMove τ}

theorem left_status [Fintype τ] {c} {m : CondVar.Move τ ConnectionStatus ConnectionStatusEnum}
    (hm : m.own = true) (hc : s.status.step statuses m = some c) (registered : Bool)
    (trace : List (TestEvent τ)) :
    left ⟨s.code, c, s.pairing, registered, s.listRegistered, trace⟩ < s.left := by
  have hmoved := CondVar.moved_of_step hc
  have hlt := CondVar.left_lt hm hmoved
  have hwait : c.waiter.wait = s.status.waiter.wait := by
    rw [CondVar.wait_moved hmoved]
    cases m <;> first | rfl | cases hm
  simp only [left, ahead, hwait]
  omega

theorem left_pairing [Fintype τ] {c} {m : CondVar.Move τ Unit Unit} (hm : m.own = true)
    (hc : s.pairing.step listFlag m = some c) (trace : List (TestEvent τ)) :
    left ⟨s.code, s.status, c, s.statusRegistered, s.listRegistered, trace⟩ < s.left := by
  have hmoved := CondVar.moved_of_step hc
  have hlt := CondVar.left_lt hm hmoved
  have hwait : c.waiter.wait = s.pairing.waiter.wait := by
    rw [CondVar.wait_moved hmoved]
    cases m <;> first | rfl | cases hm
  simp only [left, ahead, hwait]
  omega

/-- An own move goes past an action or lowers the number of the moves that are left. -/
theorem own_lower [Fintype τ] (hown : m.own = true) (h : Moved s m s') :
    Prog.Below s'.code s.code ∨ s'.code = s.code ∧ s'.left < s.left := by
  cases h with
  | pairingCallback _ hc => exact .inr ⟨rfl, left_pairing rfl hc _⟩
  | statusCallback _ hc => exact .inr ⟨rfl, left_status rfl hc _ _⟩
  | @unlock r c hcode hc =>
    have hmoved := CondVar.moved_of_step hc
    obtain ⟨hleft, hwait⟩ := CondVar.left_leave hmoved
    have hout : c.waiter.wait = none := CondVar.wait_moved hmoved
    refine .inr ⟨rfl, ?_⟩
    simp only [left, ahead, hcode, hwait, hout, hleft]
    simp
  | @waitStatus r code k m c hcode hm hc =>
    refine .inr ⟨rfl, ?_⟩
    rcases hm with ⟨rfl, -⟩ | ⟨rfl, -⟩
    · have hmoved := CondVar.moved_of_step hc
      obtain ⟨hleft, hnone⟩ := CondVar.left_wait hmoved
      have hin : c.waiter.wait = some code := CondVar.wait_moved hmoved
      simp only [left, ahead, hcode, hin, hnone, hleft, Option.isSome]
      simp
      omega
    · exact left_status rfl hc _ _
  | @waitPairing r k m c hcode hm hc =>
    refine .inr ⟨rfl, ?_⟩
    rcases hm with ⟨rfl, -⟩ | ⟨rfl, -⟩
    · have hmoved := CondVar.moved_of_step hc
      obtain ⟨hleft, hnone⟩ := CondVar.left_wait hmoved
      have hin : c.waiter.wait = some () := CondVar.wait_moved hmoved
      simp only [left, ahead, hcode, hin, hnone, hleft, Option.isSome]
      simp
      omega
    · exact left_pairing rfl hc _
  | foundStatus hcode | foundPairing hcode | call hcode => exact .inl ⟨_, _, _, hcode, rfl⟩
  | report | list | wakeStatus | wakePairing | expire => cases hown

/-- The program and the callbacks cannot go on for ever by themselves. -/
theorem own_moves_end [Finite τ] :
    ¬ ∃ f : ℕ → Test τ, ∀ n, ∃ m, m.own = true ∧ (f n).step m = some (f (n + 1)) := by
  have := Fintype.ofFinite τ
  have hr : WellFounded (Prod.Lex Prog.Below (· < ·) : Code Unit × ℕ → Code Unit × ℕ → Prop) :=
    Prog.wellFounded_below.prod_lex wellFounded_lt
  have hlower : ∀ s s' : Test τ, (∃ m, m.own = true ∧ s.step m = some s') →
      Prod.Lex Prog.Below (· < ·) (s'.code, s'.left) (s.code, s.left) := by
    rintro s s' ⟨m, hm, h⟩
    rcases own_lower hm (moved_of_step h).2 with hcode | ⟨hcode, hleft⟩
    · exact .left _ _ hcode
    · rw [hcode]
      exact .right _ hleft
  exact not_endless hr (fun s : Test τ => (s.code, s.left)) hlower

/-! ## Rest -/

/-- A thread is in one callback at a time. -/
def Single (s : Test τ) : Prop := ∀ t, s.status.poster t = .idle ∨ s.pairing.poster t = .idle

theorem Single.of_status (hs : Single s) {c}
    {m : CondVar.Move τ ConnectionStatus ConnectionStatusEnum}
    (hc : s.status.step statuses m = some c)
    (hm : ∀ t, m.thread = some t → s.pairing.poster t = .idle) (t : τ) :
    c.poster t = .idle ∨ s.pairing.poster t = .idle := by
  by_cases ht : m.thread = some t
  · exact .inr (hm t ht)
  · have hsame := CondVar.poster_moved (CondVar.moved_of_step hc) ht
    exact (hs t).imp_left fun h => hsame.trans h

theorem Single.of_pairing (hs : Single s) {c} {m : CondVar.Move τ Unit Unit}
    (hc : s.pairing.step listFlag m = some c)
    (hm : ∀ t, m.thread = some t → s.status.poster t = .idle) (t : τ) :
    s.status.poster t = .idle ∨ c.poster t = .idle := by
  by_cases ht : m.thread = some t
  · exact .inl (hm t ht)
  · have hsame := CondVar.poster_moved (CondVar.moved_of_step hc) ht
    exact (hs t).imp_right fun h => hsame.trans h

theorem single_moved (hs : Single s) (h : Moved s m s') : Single s' := by
  cases h with
  | report _ hfree hc => exact hs.of_status hc fun u hu => Option.some.inj hu ▸ hfree.2
  | list _ hfree hc => exact hs.of_pairing hc fun u hu => Option.some.inj hu ▸ hfree.1
  | pairingCallback h hc => exact hs.of_pairing hc fun u hu => Option.some.inj hu ▸ h
  | @statusCallback t c h hc =>
    exact hs.of_status hc fun u hu => Option.some.inj hu ▸ (hs t).resolve_left h
  | waitStatus _ hm hc => exact hs.of_status hc fun u hu => by cases hm.thread.symm.trans hu
  | waitPairing _ hm hc => exact hs.of_pairing hc fun u hu => by cases hm.thread.symm.trans hu
  | foundStatus _ _ hc | wakeStatus hc | expire hc => exact hs.of_status hc nofun
  | unlock _ hc | wakePairing hc => exact hs.of_pairing hc nofun
  | foundPairing | call => exact hs

variable {guard : Test τ → TestMove τ → Prop} {p : Code Unit}

theorem single (h : Reaches step guard (start p) s) : Single s :=
  h.invariant (fun _ => .inl rfl) fun _ _ _ hs _ h => single_moved hs (moved_of_step h).2

/-- What the moves of the callbacks and of the program say where there are none. -/
structure Resting (s : Test τ) : Prop where
  status : ∀ t, s.status.step statuses (.poster t) = none
  pairing : ∀ t, s.pairing.step listFlag (.poster t) = none
  program : ∀ r, s.programStep r = none

theorem resting_of_step (hs : Single s) (hret : s.returned = false)
    (h : ∀ m : TestMove τ, m.own = true → s.step m = none) : Resting s := by
  have hcallback : ∀ t, s.callbackStep t = none := by
    intro t
    simpa [step, hret] using h (.callback t) rfl
  refine ⟨fun t => ?_, fun t => ?_, fun r => ?_⟩
  · by_cases hidle : s.status.poster t = .idle
    · simp [CondVar.State.step, CondVar.State.posterStep, hidle]
    · simpa [callbackStep, hidle] using hcallback t
  · by_cases hidle : s.pairing.poster t = .idle
    · simp [CondVar.State.step, CondVar.State.posterStep, hidle]
    · simpa [callbackStep, (hs t).resolve_right hidle] using hcallback t
  · simpa [step, hret] using h (.program r) rfl

omit [DecidableEq τ] in
theorem outside_of_wait {X K D : Type} {c : CondVar.State τ X K D} (h : c.waiter.wait = none) :
    c.waiter = .outside := by
  cases hw : c.waiter <;> rw [hw] at h <;> first | rfl | cases h

/-- Where the program is when it cannot go on. -/
theorem program_rest (hret : s.returned = false) (hs : Placed s) (h : ∀ r, s.programStep r = none) :
    (∃ code k, s.code = .act (.awaitStatus code) k ∧ s.status.waiterStep statuses = none ∧
      s.status.waiter ≠ .outside ∧ ∀ code', s.status.waiter ≠ .inside code') ∨
    (∃ k, s.code = .act .awaitPairing k ∧ s.pairing.waiterStep listFlag = none ∧
      s.pairing.waiter ≠ .outside ∧ ∀ k', s.pairing.waiter ≠ .inside k') := by
  have hr := h ⟨true, []⟩
  unfold programStep at hr
  split at hr
  · rename_i hcode
    have hw : s.pairing.waiter ≠ .outside := fun hw => by simp [returned, hcode, hw] at hret
    rcases hs.pairing with hwait | hin | ⟨k, hk⟩
    · exact absurd (outside_of_wait hwait) hw
    · simp [onPairing, CondVar.State.step, hin] at hr
    · rw [hcode] at hk
      cases hk
  · rename_i code k hcode
    split at hr
    · rename_i hw
      simp [onStatus, CondVar.State.step, hw] at hr
    · rename_i code' hw
      simp [onStatus, CondVar.State.step, hw] at hr
    · rename_i hout hin
      exact .inl ⟨code, k, hcode, Option.map_eq_none_iff.1 hr, hout, hin⟩
  · rename_i k hcode
    split at hr
    · rename_i hw
      simp [onPairing, CondVar.State.step, hw] at hr
    · cases hr
    · rename_i hout hin
      exact .inr ⟨k, hcode, Option.map_eq_none_iff.1 hr, hout, hin⟩
  · cases hr

/-- Where neither the program nor a callback can go on, the test has returned, or it sleeps for a
status that was not reported, or for the pairing list, which was not reported either. Then no
thread is in the status callback, and one that is in the callback of the pairing list waits for
the lock that the master keeps. -/
theorem returns_or_sleeps (h : Reaches step guard (start p) s)
    (hown : ∀ m : TestMove τ, m.own = true → s.step m = none) :
    s.returned = true ∨
    (∃ code, s.status.waiter = .waiting code ∧ ¬ Told code s.trace ∧ ∀ t,
      s.status.poster t = .idle ∧ (s.pairing.poster t = .idle ∨
        s.pairing.waiter = .inside () ∧ ∃ x, s.pairing.poster t = .acquire x)) ∨
    (s.pairing.waiter = .waiting () ∧ ¬ Listed s.trace ∧ ∀ t, s.Free t) := by
  by_cases hret : s.returned = true
  · exact .inl hret
  have hplaced := placed h
  have hresting := resting_of_step (single h) (by simpa using hret) hown
  have hstatus := CondVar.rest (CondVar.owned_of_reaches (status_reaches h))
    (CondVar.wakeable_of_reaches (status_reaches h))
  have hpairing := CondVar.rest (CondVar.owned_of_reaches (pairing_reaches h))
    (CondVar.wakeable_of_reaches (pairing_reaches h))
  have hmoves : ∀ {X K D : Type} {G : CondVar.Guarded X K D} {c : CondVar.State τ X K D},
      (∀ t, c.step G (.poster t) = none) → c.waiterStep G = none →
        ∀ m : CondVar.Move τ X K, m.own = true → c.step G m = none := by
    intro X K D G c hposter hwaiter m hm
    cases m with
    | poster t => exact hposter t
    | waiter => exact hwaiter
    | post | wait | leave | wake | expire => cases hm
  rcases program_rest (by simpa using hret) hplaced hresting.program with
    ⟨code, k, hcode, hstep, hout, hin⟩ | ⟨k, hcode, hstep, hout, hin⟩
  · refine .inr (.inl ⟨code, ?_⟩)
    rcases hstatus (hmoves hresting.status hstep) with
      ⟨code', hw⟩ | ⟨hidle, hw | ⟨code', hw, hready⟩⟩
    · exact absurd hw (hin code')
    · exact absurd hw hout
    · obtain ⟨k', hk'⟩ := hplaced.status code' (by rw [hw]; rfl)
      rw [hcode] at hk'
      obtain rfl := Act.awaitStatus.inj (Prog.act.inj hk').1
      refine ⟨hw, ?_, fun t => ⟨hidle t, ?_⟩⟩
      · rw [← ready_iff_told (reported h), hready]
        exact Bool.false_ne_true
      · rcases CondVar.poster_rest (hresting.pairing t) with hpc | ⟨x, hpc, -⟩
        · exact .inl hpc
        rcases hplaced.pairing with hwait | hinside | ⟨k', hk'⟩
        · have hout' := outside_of_wait hwait
          have hstep' : s.pairing.waiterStep listFlag = none := by
            rw [CondVar.State.waiterStep, hout']
          rcases hpairing (hmoves hresting.pairing hstep') with ⟨k', hw'⟩ | ⟨hidle', -⟩
          · rw [hout'] at hw'
            cases hw'
          · exact .inl (hidle' t)
        · exact .inr ⟨hinside, x, hpc⟩
        · rw [hcode] at hk'
          cases hk'
  · have hout' : s.status.waiter = .outside := by
      refine outside_of_wait (Option.eq_none_iff_forall_ne_some.2 fun code hwait => ?_)
      obtain ⟨k', hk'⟩ := hplaced.status code hwait
      rw [hcode] at hk'
      cases hk'
    have hstep' : s.status.waiterStep statuses = none := by
      rw [CondVar.State.waiterStep, hout']
    rcases hpairing (hmoves hresting.pairing hstep) with ⟨k', hw⟩ | ⟨hidle, hw | ⟨k', hw, hready⟩⟩
    · exact absurd hw (hin k')
    · exact absurd hw hout
    · refine .inr (.inr ⟨hw, ?_, fun t => ⟨?_, hidle t⟩⟩)
      · rw [← listed h]
        exact Bool.eq_false_iff.1 hready
      · rcases hstatus (hmoves hresting.status hstep') with ⟨code, hw'⟩ | ⟨hidle', -⟩
        · rw [hout'] at hw'
          cases hw'
        · exact hidle' t

/-- The program and the callbacks come to rest by themselves, and where they rest the test has
returned or sleeps for what was not reported. -/
theorem test_progress [Finite τ] (p : Code Unit) :
    (¬ ∃ f : ℕ → Test τ, ∀ n, ∃ m, m.own = true ∧ (f n).step m = some (f (n + 1))) ∧
    ∀ s : Test τ, Reaches step always (start p) s →
      (∀ m : TestMove τ, m.own = true → s.step m = none) →
        s.returned = true ∨
        (∃ code, s.status.waiter = .waiting code ∧ ¬ Told code s.trace ∧ ∀ t,
          s.status.poster t = .idle ∧ (s.pairing.poster t = .idle ∨
            s.pairing.waiter = .inside () ∧ ∃ x, s.pairing.poster t = .acquire x)) ∨
        (s.pairing.waiter = .waiting () ∧ ¬ Listed s.trace ∧ ∀ t, s.Free t) :=
  ⟨own_moves_end, fun _ => returns_or_sleeps⟩

/-- The master sleeps until a driver is connected. -/
theorem test_progress_master : ∃ s : Test Unit,
    Reaches step always (start (Master.testPairConnectReconfigure [] [])) s ∧
      ¬ Told .driverConnected s.trace := by
  obtain ⟨s, hplay, hret, hwaiter, hlist, hown⟩ : ∃ s : Test Unit,
      playAll step always (start (Master.testPairConnectReconfigure [] [])) (goesOn [] 8) =
        some s ∧ s.returned = false ∧ s.status.waiter = .waiting .driverConnected ∧
      s.pairing.waiter = .outside ∧ ∀ m : TestMove Unit, m.own = true → s.step m = none := by
    refine ⟨_, rfl, rfl, rfl, rfl, fun m hm => ?_⟩
    cases m with
    | callback | program => rfl
    | report | list | wakeStatus | wakePairing | expire => cases hm
  have hreach := reaches_playAll .start hplay
  refine ⟨s, hreach, ?_⟩
  rcases (test_progress (Master.testPairConnectReconfigure [] [])).2 s hreach hown with
    hend | ⟨code, hw, htold, -⟩ | ⟨hw, -⟩
  · rw [hret] at hend
    cases hend
  · obtain rfl := CondVar.WaitPc.waiting.inj (hwaiter.symm.trans hw)
    exact htold
  · rw [hlist] at hw
    cases hw

/-! ## The lock that is kept -/

/-- The program has the lock of the pairing list and waits for a status that nobody has reported or
is about to report, and the threads `blocked` wait for that lock. -/
structure Stuck (blocked : τ → Prop) (code : ConnectionStatusEnum)
    (k : Ans (.awaitStatus code) → Code Unit) (s : Test τ) : Prop where
  program : s.code = .act (.awaitStatus code) k
  lock : s.pairing.waiter = .inside ()
  queued : ∀ t, blocked t → s.pairing.poster t = .acquire ()
  told : ¬ Told code s.trace
  pending : ∀ t, ∀ status ∈ (s.status.poster t).pending, status.code ≠ code

variable {blocked : τ → Prop} {code : ConnectionStatusEnum}
  {k : Ans (.awaitStatus code) → Code Unit}

omit [DecidableEq τ] in
theorem told_append {pre es : List (TestEvent τ)} (hpre : ¬ Told code pre)
    (hes : ∀ t status, .reported t status ∈ es → status.code ≠ code) : ¬ Told code (pre ++ es) := by
  rintro ⟨t, context, he⟩
  rcases List.mem_append.1 he with he | he
  · exact hpre ⟨t, context, he⟩
  · exact hes t _ he rfl

/-- A move on the mutex of the pairing list other than letting it go. -/
theorem Stuck.of_pairing (ho : CondVar.Owned s.pairing) (hs : Stuck blocked code k s) {c}
    {m : CondVar.Move τ Unit Unit} (hc : s.pairing.step listFlag m = some c) (hleave : m ≠ .leave)
    {es : List (TestEvent τ)} (hes : ∀ t status, .reported t status ∉ es) :
    Stuck blocked code k { s with pairing := c, trace := s.trace ++ es } := by
  have hmoved := CondVar.moved_of_step hc
  refine ⟨hs.program, CondVar.inside_moved hleave hs.lock hmoved, fun t ht => ?_, ?_, hs.pending⟩
  · exact CondVar.blocked_moved ho hs.lock hmoved (hs.queued t ht)
  · exact told_append hs.told fun t status he => absurd he (hes t status)

/-- A move of the waiter on the mutex of the statuses. -/
theorem Stuck.of_status (hs : Stuck blocked code k s) {c}
    {m : CondVar.Move τ ConnectionStatus ConnectionStatusEnum}
    (hc : s.status.step statuses m = some c) (hm : m.thread = none) :
    Stuck blocked code k { s with status := c } := by
  refine ⟨hs.program, hs.lock, hs.queued, hs.told, fun t => ?_⟩
  have hsame : c.poster t = s.status.poster t :=
    CondVar.poster_moved (CondVar.moved_of_step hc) (by simp [hm])
  simp only [hsame]
  exact hs.pending t

end Test

end Sample

end PairingV2
