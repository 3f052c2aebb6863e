import PairingV2.Sample.PairingWait
import PairingV2.Sample.Progress

/-!
# The pairing wait in the master test

Seen from the mutex of the pairing list, a run of the whole master test is a run of the wait alone
(`wait_reaches`): the statuses, their mutex and the calls in between are steps that it does not see.
What is known of the wait so holds of the test. If the library invokes the callback of the pairing
list in one thread at a time, the test rests with every thread free (`free_at_rest`).
-/

namespace PairingV2

namespace Sample

variable {τ : Type}

/-! ## What is seen of a mutex -/

def CallbackPc.ofPost : CondVar.PostPc Unit → CallbackPc
  | .idle => .idle
  | .test _ => .test
  | .acquire _ => .acquire
  | .change _ => .set
  | .release => .release
  | .notify => .notify

def Party.ofHolder : CondVar.Holder τ → Party τ
  | .waiter => .program
  | .poster t => .callback t

/-- Where the master is among the actions that the model of the wait has. -/
inductive Phase where
  | before
  | passed
  | pairTo
  | connecting
  | connected
  deriving DecidableEq

def Phase.next : Phase → Event Act Ans → Option Phase
  | .before, ⟨.awaitPairing, _⟩ => some .passed
  | .passed, ⟨.getPairingList, _ :: _⟩ => some .pairTo
  | .pairTo, ⟨.pairTo _, _⟩ => some .connecting
  | .connecting, ⟨.awaitStatus .connected, _⟩ => some .connected
  | _, ⟨.awaitPairing, _⟩ => none
  | phase, _ => some phase

/-- The master does not return between `pair_to` and its end. -/
def Phase.last (phase : Phase) (_ : Unit) : Prop := phase ≠ .pairTo ∧ phase ≠ .connecting

/-- The place of the program. The last three are those of a wait with a deadline. -/
def ProgramPc.ofWait (phase : Phase) : CondVar.WaitPc Unit → ProgramPc
  | .outside => if phase = .before then .lock else .returned
  | .lock _ => .lock
  | .check _ => .check
  | .waiting _ => .waiting
  | .woken _ => .woken
  | .inside _ => match phase with
    | .before => .passed
    | .passed => .passed
    | .pairTo => .pairTo
    | .connecting => .connecting
    | .connected => .connected
  | .expired _ => .woken
  | .recheck _ => .check
  | .again _ => .check

def State.ofCondVar (phase : Phase) (c : CondVar.State τ Unit Unit Bool) : State τ where
  callback := CallbackPc.ofPost ∘ c.poster
  program := .ofWait phase c.waiter
  owner := c.owner.map .ofHolder
  called := c.data

namespace Test

/-- The phase of a test. -/
def phase (s : Test τ) : Phase := (phaseAfter Phase.next .before (did s.trace)).getD .before

/-- The master test at its start. -/
def master (config newConfig : Str) : Test τ :=
  start (Master.testPairConnectReconfigure config newConfig)

/-- The wait for the pairing list in a test. -/
def wait (s : Test τ) : State τ := .ofCondVar s.phase s.pairing

end Test

/-! ## Moves of the mutex -/

variable [DecidableEq τ] {c c' : CondVar.State τ Unit Unit Bool} {phase : Phase}

@[simp] theorem ofPost_goto (t : τ) (pc : CondVar.PostPc Unit) :
    CallbackPc.ofPost ∘ (c.goto t pc).poster =
      Function.update (CallbackPc.ofPost ∘ c.poster) t (.ofPost pc) :=
  Function.comp_update _ _ _ _

omit [DecidableEq τ] in
theorem callback_ofCondVar (t : τ) :
    (State.ofCondVar phase c).callback t = .ofPost (c.poster t) := rfl

omit [DecidableEq τ] in
theorem ofWait_notified (w : CondVar.WaitPc Unit) :
    ProgramPc.ofWait phase (CondVar.State.notified w) =
      if ProgramPc.ofWait phase w = .waiting then .woken else .ofWait phase w := by
  cases w with
  | outside => cases phase <;> rfl
  | inside => cases phase <;> rfl
  | _ => rfl

/-- What is seen of a move of a thread. -/
theorem callback_step {t : τ} (h : CondVar.Moved listFlag c (.poster t) c') :
    (State.ofCondVar phase c).step (.callback t) = some (.ofCondVar phase c') := by
  rw [State.step, State.callbackStep, callback_ofCondVar]
  cases h with
  | skip h hx | queue h hx =>
    have hcalled : c.data = _ := hx
    simp [h, CallbackPc.ofPost, State.ofCondVar, State.goto, hcalled]
  | acquire h ho => simp [h, CallbackPc.ofPost, State.ofCondVar, State.goto, ho, Party.ofHolder]
  | change h => simp [h, CallbackPc.ofPost, State.ofCondVar, State.goto, listFlag]
  | release h => simp [h, CallbackPc.ofPost, State.ofCondVar, State.goto]
  | notify h =>
    simp only [h, CallbackPc.ofPost, State.ofCondVar, State.goto, ofPost_goto, ofWait_notified]
    rfl

/-- What is seen of an invocation of the callback. -/
theorem invoke_step {t : τ} (h : CondVar.Moved listFlag c (.post t ()) c') :
    (State.ofCondVar phase c).step (.invoke t) = some (.ofCondVar phase c') := by
  rw [State.step, callback_ofCondVar]
  cases h with
  | post x h => simp [h, CallbackPc.ofPost, State.ofCondVar, State.goto]

theorem wake_step (h : CondVar.Moved listFlag c .wake c') :
    (State.ofCondVar phase c).step .wake = some (.ofCondVar phase c') := by
  cases h with
  | wake h => simp [State.step, State.ofCondVar, h, ProgramPc.ofWait]

/-- What is seen of a move of the program in its wait. -/
theorem program_step (hlate : c.waiter.late = false) (h : CondVar.Moved listFlag c .waiter c') :
    (State.ofCondVar .before c).step .program = some (.ofCondVar .before c') := by
  rw [State.step, State.programStep]
  cases h with
  | lock h ho =>
    rcases h with h | h <;>
      simp [State.programAcquire, State.ofCondVar, h, ho, ProgramPc.ofWait, Party.ofHolder]
  | pass h hk =>
    have hcalled : c.data = true := hk
    rcases h with h | h
    · simp [State.ofCondVar, h, ProgramPc.ofWait, hcalled]
    · rw [h] at hlate
      cases hlate
  | sleep h hk =>
    have hcalled : c.data = false := hk
    simp [State.ofCondVar, h, ProgramPc.ofWait, hcalled]
  | late h | fail h | again h =>
    rw [h] at hlate
    cases hlate

/-- What is seen of the end of the test. -/
theorem return_step (hphase : phase.last () ∧ phase ≠ .before)
    (h : CondVar.Moved listFlag c .leave c') :
    ∃ m, (m = .program ∨ m = .listed true) ∧
      (State.ofCondVar phase c).step m = some (.ofCondVar phase c') := by
  obtain ⟨⟨hpairTo, hconnecting⟩, hbefore⟩ := hphase
  cases h with
  | leave h =>
    cases phase with
    | before => exact absurd rfl hbefore
    | pairTo => exact absurd rfl hpairTo
    | connecting => exact absurd rfl hconnecting
    | passed =>
      refine ⟨.listed true, .inr rfl, ?_⟩
      simp [State.step, State.ofCondVar, h, ProgramPc.ofWait]
    | connected =>
      refine ⟨.program, .inl rfl, ?_⟩
      simp [State.step, State.programStep, State.ofCondVar, h, ProgramPc.ofWait]

/-! ## Phases -/

theorem next_cases {phase' : Phase} {i : Act} {a : Ans i} (h : phase.next ⟨i, a⟩ = some phase') :
    (i = .awaitPairing → phase = .before) ∧
    (phase' = phase ∧ i ≠ .awaitPairing ∨ phase = .before ∧ phase' = .passed ∧ i = .awaitPairing ∨
      phase = .passed ∧ phase' = .pairTo ∨ phase = .pairTo ∧ phase' = .connecting ∨
      phase = .connecting ∧ phase' = .connected) := by
  have hbefore : i = .awaitPairing → phase = .before := by
    rintro rfl
    cases phase <;> first | rfl | cases h
  have hawait : i = .awaitPairing → phase' = .passed := by
    rintro rfl
    obtain rfl := hbefore rfl
    exact (Option.some.inj h).symm
  refine ⟨hbefore, ?_⟩
  · unfold Phase.next at h
    split at h
    · rename_i he
      obtain ⟨rfl, -⟩ := Sigma.mk.inj he
      exact .inr (.inl ⟨rfl, (Option.some.inj h).symm, rfl⟩)
    · exact .inr (.inr (.inl ⟨rfl, (Option.some.inj h).symm⟩))
    · exact .inr (.inr (.inr (.inl ⟨rfl, (Option.some.inj h).symm⟩)))
    · exact .inr (.inr (.inr (.inr ⟨rfl, (Option.some.inj h).symm⟩)))
    · cases h
    · obtain rfl := Option.some.inj h
      refine .inl ⟨rfl, fun hi => ?_⟩
      have hboth := (hbefore hi).symm.trans (hawait hi)
      cases hboth

/-- What is seen of an action of the program. -/
theorem perform_step {phase' : Phase} {i : Act} {a : Ans i} (h : phase.next ⟨i, a⟩ = some phase')
    (hw : c.waiter = .inside () ∨ c.waiter = .outside ∧ i ≠ .awaitPairing) :
    State.ofCondVar phase' c = .ofCondVar phase c ∨
      ∃ m, (m = .program ∨ m = .connected ∨ m = .listed false) ∧
        (State.ofCondVar phase c).step m = some (.ofCondVar phase' c) := by
  rcases (next_cases h).2 with ⟨rfl, -⟩ | hnext
  · exact .inl rfl
  rcases hw with hw | ⟨hw, hi⟩
  · rcases hnext with ⟨rfl, rfl, -⟩ | ⟨rfl, rfl⟩ | ⟨rfl, rfl⟩ | ⟨rfl, rfl⟩
    · exact .inl (by simp [State.ofCondVar, hw, ProgramPc.ofWait])
    · refine .inr ⟨.listed false, .inr (.inr rfl), ?_⟩
      simp [State.step, State.ofCondVar, hw, ProgramPc.ofWait]
    · refine .inr ⟨.program, .inl rfl, ?_⟩
      simp [State.step, State.programStep, State.ofCondVar, hw, ProgramPc.ofWait]
    · refine .inr ⟨.connected, .inr (.inl rfl), ?_⟩
      simp [State.step, State.ofCondVar, hw, ProgramPc.ofWait]
  · refine .inl ?_
    rcases hnext with ⟨-, -, hawait⟩ | ⟨rfl, rfl⟩ | ⟨rfl, rfl⟩ | ⟨rfl, rfl⟩
    · exact absurd hawait hi
    all_goals simp [State.ofCondVar, hw, ProgramPc.ofWait]

theorem keeps_master (config newConfig : Str) :
    (Master.testPairConnectReconfigure config newConfig).Keeps Phase.next Phase.last .before := by
  refine fun _ => ⟨_, rfl, fun _ => ⟨_, rfl, fun _ => ⟨_, rfl, fun res => ⟨_, rfl, ?_⟩⟩⟩⟩
  refine fun _ => ⟨_, rfl, fun modemFound => ⟨_, rfl, fun _ => ⟨_, rfl, ?_⟩⟩⟩
  rcases modemFound with _ | _
  · exact ⟨nofun, nofun⟩
  refine fun _ => ⟨_, rfl, fun called => ⟨_, rfl, fun _ => ⟨_, rfl, fun pairingList => ?_⟩⟩⟩
  rcases pairingList with _ | ⟨vehicle, others⟩
  · exact ⟨_, rfl, fun _ => ⟨_, rfl, nofun, nofun⟩⟩
  refine ⟨_, rfl, fun _ => ⟨_, rfl, fun _ => ⟨_, rfl, fun connected => ⟨_, rfl, fun _ => ?_⟩⟩⟩⟩
  refine ⟨_, rfl, ?_⟩
  rcases connected with _ | _
  · exact ⟨nofun, nofun⟩
  refine fun _ => ⟨_, rfl, fun found => ⟨_, rfl, fun _ => ⟨_, rfl, fun list => ⟨_, rfl, ?_⟩⟩⟩⟩
  exact fun _ => ⟨_, rfl, nofun, nofun⟩

namespace Test

variable {guard : Test τ → TestMove τ → Prop} {config newConfig : Str} {s s' : Test τ}
  {m : TestMove τ}

/-- The phase is the one of what was performed, and the program keeps to it. -/
theorem phased (h : Reaches step guard (master config newConfig) s) :
    phaseAfter Phase.next .before (did s.trace) = some s.phase ∧
      s.code.Keeps Phase.next Phase.last s.phase := by
  obtain ⟨phase, hphase, hkeeps⟩ := (keeps_master config newConfig).steps (follows h)
  have heq : s.phase = phase := by
    rw [Test.phase, hphase]
    rfl
  rw [heq]
  exact ⟨hphase, hkeeps⟩

omit [DecidableEq τ] in
theorem phase_of_did (h : did s'.trace = did s.trace) : s'.phase = s.phase := by
  rw [Test.phase, h]
  rfl

omit [DecidableEq τ] in
theorem did_reportedBy (t : τ) : did (s.reportedBy t) = [] := by
  unfold reportedBy
  rcases (s.status.poster t).posts_cases with hposts | ⟨x, hposts, -⟩ <;> rw [hposts] <;> rfl

omit [DecidableEq τ] in
theorem did_listedBy (t : τ) : did (s.listedBy t) = [] := by
  unfold listedBy
  rcases (s.pairing.poster t).posts_cases with hposts | ⟨x, hposts, -⟩ <;> rw [hposts] <;> rfl

theorem phase_perform (h : Reaches step guard (master config newConfig) s) {i : Act}
    {k : Ans i → Code Unit} (hcode : s.code = .act i k) (a : Ans i) {status} :
    s.phase.next ⟨i, a⟩ = some (Test.perform { s with status := status } i a (k a)).phase := by
  obtain ⟨hphase, hkeeps⟩ := phased h
  rw [hcode] at hkeeps
  obtain ⟨phase, hnext, -⟩ := hkeeps a
  have hdid : did (s.trace ++ [.did ⟨i, a⟩]) = did s.trace ++ [⟨i, a⟩] := did_append _ _
  change _ = some ((phaseAfter Phase.next .before (did (s.trace ++ [.did ⟨i, a⟩]))).getD .before)
  rw [hdid, phaseAfter_snoc hphase, hnext]
  rfl

/-- The program is in its wait or has the lock, and the wait has no deadline. -/
structure InWait (s : Test τ) : Prop where
  early : s.pairing.waiter.wait ≠ none → s.phase = .before → ∃ k, s.code = .act .awaitPairing k
  late : s.pairing.waiter.late = false

omit [DecidableEq τ] in
theorem InWait.still (hs : InWait s) (hcode : s'.code = s.code) (hdid : did s'.trace = did s.trace)
    (hwait : s'.pairing.waiter.wait = s.pairing.waiter.wait)
    (hlate : s'.pairing.waiter.late = false) : InWait s' := by
  refine ⟨?_, hlate⟩
  rw [hwait, phase_of_did hdid, hcode]
  exact hs.early

/-- A move on the mutex of the pairing list that begins no wait and ends none. -/
theorem InWait.of_pairing (hs : InWait s) {m : CondVar.Move τ Unit Unit} {c}
    (hc : s.pairing.step listFlag m = some c) (hm : s.pairing.waitAfter m = s.pairing.waiter.wait)
    (hexpire : m ≠ .expire) {es : List (TestEvent τ)} (hes : did es = []) :
    InWait { s with pairing := c, trace := s.trace ++ es } := by
  have hmoved := CondVar.moved_of_step hc
  refine hs.still rfl ?_ ((CondVar.wait_moved hmoved).trans hm)
    (CondVar.late_moved hmoved hexpire hs.late)
  rw [did_append, hes, List.append_nil]

theorem InWait.perform (h : Reaches step guard (master config newConfig) s)
    (hs : InWait s) {i : Act} {k : Ans i → Code Unit} (hcode : s.code = .act i k) (a : Ans i)
    {status} : InWait (Test.perform { s with status := status } i a (k a)) := by
  refine ⟨fun hwait hphase => ?_, hs.late⟩
  have hnext : s.phase.next ⟨i, a⟩ =
      some (Test.perform { s with status := status } i a (k a)).phase := phase_perform h hcode a
  rw [hphase] at hnext
  rcases (next_cases hnext).2 with ⟨hsame, hi⟩ | ⟨-, hlater, -⟩ | ⟨-, hlater⟩ | ⟨-, hlater⟩ |
    ⟨-, hlater⟩
  · obtain ⟨k', hk'⟩ := hs.early hwait hsame.symm
    rw [hcode] at hk'
    exact absurd (Prog.act.inj hk').1 hi
  all_goals cases hlater

theorem inWait (h : Reaches step guard (master config newConfig) s) :
    InWait s := by
  induction h with
  | start => exact ⟨fun h => absurd rfl h, rfl⟩
  | move h _ hs ih =>
    cases (moved_of_step hs).2 with
    | report => exact ih.still rfl (by simp [did]) rfl ih.late
    | waitStatus | wakeStatus | expire => exact ih.still rfl rfl rfl ih.late
    | statusCallback => exact ih.still rfl (by simp [did_reportedBy]) rfl ih.late
    | list _ _ hc | wakePairing hc =>
      have hnil : did ([] : List (TestEvent τ)) = [] := rfl
      simpa using ih.of_pairing hc rfl (by simp) hnil
    | pairingCallback _ hc => exact ih.of_pairing hc rfl (by simp) (did_listedBy _)
    | unlock hcode hc =>
      have hmoved := CondVar.moved_of_step hc
      have hout := CondVar.wait_moved hmoved
      exact ⟨fun hwait => absurd hout hwait, CondVar.late_moved hmoved (by simp) ih.late⟩
    | waitPairing hcode hm hc =>
      refine ⟨fun _ _ => ⟨_, hcode⟩, CondVar.late_moved (CondVar.moved_of_step hc) ?_ ih.late⟩
      rcases hm with ⟨rfl, -⟩ | ⟨rfl, -⟩ <;> simp
    | foundStatus hcode => exact ih.perform h hcode _
    | foundPairing hcode => exact ih.perform h hcode _
    | call hcode => exact ih.perform h hcode _

/-! ## The run that is seen -/

/-- What a move of the test is seen as. -/
def Shows : TestMove τ → Move τ → Prop
  | .list t, m => m = .invoke t
  | .callback t, m => m = .callback t
  | .wakePairing, m => m = .wake
  | .program _, m => m = .program ∨ m = .connected ∨ ∃ empty, m = .listed empty
  | .report _ _, _ | .wakeStatus, _ | .expire, _ => False

/-- What is seen of an action of the test. -/
theorem wait_perform (h : Reaches step guard (master config newConfig) s) {i : Act}
    {k : Ans i → Code Unit} (hcode : s.code = .act i k)
    (hi : i = .awaitPairing → s.pairing.waiter = .inside ()) (r : Reply) (a : Ans i) {status} :
    let s' := Test.perform { s with status := status } i a (k a)
    s'.wait = s.wait ∨ ∃ m, Shows (.program r : TestMove τ) m ∧ s.wait.step m = some s'.wait := by
  have hw : s.pairing.waiter = .inside () ∨ s.pairing.waiter = .outside ∧ i ≠ .awaitPairing := by
    rcases (placed h).pairing with hwait | hin | ⟨k', hk'⟩
    · have hout := outside_of_wait hwait
      refine .inr ⟨hout, fun hawait => ?_⟩
      have hin := hi hawait
      rw [hout] at hin
      cases hin
    · exact .inl hin
    · rw [hcode] at hk'
      exact .inl (hi (Prog.act.inj hk').1)
  refine (perform_step (phase_perform h hcode a) hw).imp_right ?_
  rintro ⟨m, hm, hstep⟩
  exact ⟨m, hm.imp_right fun hm => hm.imp_right fun hm => ⟨false, hm⟩, hstep⟩

theorem wait_moved (h : Reaches step guard (master config newConfig) s)
    (hm : Moved s m s') : s'.wait = s.wait ∨ ∃ m', Shows m m' ∧ s.wait.step m' = some s'.wait := by
  have hs := inWait h
  cases hm with
  | report => exact .inl (congrArg (State.ofCondVar · s.pairing) (phase_of_did (by simp [did])))
  | waitStatus | wakeStatus | expire => exact .inl rfl
  | @statusCallback t =>
    exact .inl (congrArg (State.ofCondVar · s.pairing) (phase_of_did (by simp [did_reportedBy])))
  | list _ _ hc => exact .inr ⟨_, rfl, invoke_step (CondVar.moved_of_step hc)⟩
  | wakePairing hc => exact .inr ⟨_, rfl, wake_step (CondVar.moved_of_step hc)⟩
  | @pairingCallback t c _ hc =>
    refine .inr ⟨_, rfl, ?_⟩
    have hphase : phase { s with pairing := c, trace := s.trace ++ s.listedBy t } = s.phase :=
      phase_of_did (by simp [did_listedBy])
    rw [Test.wait, Test.wait, hphase]
    exact callback_step (CondVar.moved_of_step hc)
  | unlock hcode hc =>
    have hmoved := CondVar.moved_of_step hc
    have hbefore : s.phase ≠ .before := by
      intro hphase
      have hin : s.pairing.waiter.wait ≠ none := by
        cases hmoved with
        | leave hin => simp [hin, CondVar.WaitPc.wait]
      obtain ⟨k, hk⟩ := hs.early hin hphase
      rw [hcode] at hk
      cases hk
    have hlast := (phased h).2
    rw [hcode] at hlast
    obtain ⟨m', hm', hstep⟩ := return_step ⟨hlast, hbefore⟩ hmoved
    exact .inr ⟨m', hm'.imp_right fun hm' => .inr ⟨true, hm'⟩, hstep⟩
  | @waitPairing r k m c hcode hm hc =>
    have hmoved := CondVar.moved_of_step hc
    have hkeeps := (phased h).2
    rw [hcode] at hkeeps
    obtain ⟨_, hnext, -⟩ := hkeeps true
    have hbefore : s.phase = .before := (next_cases hnext).1 rfl
    have hsame : phase { s with pairing := c } = s.phase := rfl
    rw [Test.wait, Test.wait, hsame, hbefore]
    rcases hm with ⟨rfl, -⟩ | ⟨rfl, -⟩
    · cases hmoved with
      | wait _ hout => exact .inl (by simp [State.ofCondVar, hout, ProgramPc.ofWait])
    · exact .inr ⟨_, .inl rfl, program_step hs.late hmoved⟩
  | foundStatus hcode => exact wait_perform h hcode (by simp) _ _
  | foundPairing hcode hw => exact wait_perform h hcode (fun _ => hw) _ _
  | call hcode _ hpairing => exact wait_perform h hcode (fun hi => absurd hi hpairing) _ _

/-- Moves that meet a guard are seen as moves that meet another. -/
theorem wait_reaches {guard' : State τ → Sample.Move τ → Prop}
    (hguard : ∀ s m m', InWait s → guard s m → Shows m m' → guard' s.wait m')
    (h : Reaches step guard (master config newConfig) s) :
    Reaches State.step guard' State.initial s.wait := by
  refine h.simulated Test.wait fun s s' m h hg hs => ?_
  refine (wait_moved h (moved_of_step hs).2).imp_right ?_
  rintro ⟨m', hm', hstep⟩
  exact ⟨m', hguard s m m' (inWait h) hg hm', hstep⟩

/-- A vehicle is paired, and the master sleeps until it is connected. -/
def pairedRun (vehicle : Str) : List (TestMove Unit) :=
  goesOn [] 5 ++ waited (.report () ⟨.driverConnected, []⟩) ++ goesOn [] 2 ++ waited (.list ()) ++
  goesOn [vehicle] 4 ++ goesOn [] 3

/-- The wait of the test ends only when no invocation has seen the flag unset without having taken
the mutex yet. -/
def nobodyQueued (s : Test τ) : TestMove τ → Prop
  | .program _ => s.pairing.waiter = .check () → s.pairing.data = true →
      ∀ t x, s.pairing.poster t ≠ .acquire x
  | _ => True

/-- The library invokes the callback of the pairing list when it is in no other invocation of it. -/
def serial (s : Test τ) : TestMove τ → Prop
  | .list _ => ∀ t, s.pairing.poster t = .idle
  | _ => True

omit [DecidableEq τ] in
theorem acquire_of_wait {t : τ} :
    s.wait.callback t = .acquire ↔ ∃ x, s.pairing.poster t = .acquire x := by
  rw [Test.wait, callback_ofCondVar]
  cases s.pairing.poster t <;> simp [CallbackPc.ofPost]

omit [DecidableEq τ] in
theorem check_of_wait (hs : InWait s) (h : s.wait.program = .check) :
    s.pairing.waiter = .check () := by
  have hlate := hs.late
  change ProgramPc.ofWait s.phase s.pairing.waiter = .check at h
  cases hw : s.pairing.waiter with
  | check => rfl
  | outside =>
    rw [hw, ProgramPc.ofWait] at h
    split_ifs at h
  | inside =>
    rw [hw] at h
    cases hphase : s.phase <;> rw [hphase] at h <;> cases h
  | expired | recheck | again =>
    rw [hw] at hlate
    cases hlate
  | lock | waiting | woken =>
    rw [hw] at h
    cases h

theorem wait_nobodyQueued (h : Reaches step nobodyQueued (master config newConfig) s) :
    Reaches State.step Sample.nobodyQueued State.initial s.wait := by
  refine wait_reaches (fun s m m' hs hg hshows => ?_) h
  cases m with
  | program r =>
    rcases hshows with rfl | rfl | ⟨empty, rfl⟩
    · intro hcheck hcalled t ht
      obtain ⟨x, hx⟩ := acquire_of_wait.1 ht
      exact hg (check_of_wait hs hcheck) hcalled t x hx
    · trivial
    · trivial
  | list | callback | wakePairing =>
    subst hshows
    trivial
  | report | wakeStatus | expire => cases hshows

theorem wait_serial (h : Reaches step serial (master config newConfig) s) :
    Reaches State.step oneAtATime State.initial s.wait := by
  refine wait_reaches (fun s m m' hs hg hshows => ?_) h
  cases m with
  | list t =>
    subst hshows
    intro u
    rw [Test.wait, callback_ofCondVar, hg u]
    rfl
  | callback | wakePairing =>
    subst hshows
    trivial
  | program r => rcases hshows with rfl | rfl | ⟨empty, rfl⟩ <;> trivial
  | report | wakeStatus | expire => cases hshows

/-- Where the library invokes the callback of the pairing list once at a time, nobody is queued. -/
theorem nobodyQueued_of_serial (h : Reaches step serial (master config newConfig) s) :
    Reaches step nobodyQueued (master config newConfig) s := by
  induction h with
  | start => exact .start
  | @move s s' m h hg hs ih =>
    refine ih.move ?_ hs
    cases m with
    | program r =>
      intro _ hdata t x hacquire
      have hserial : Serial s.wait := by
        refine (wait_serial h).invariant ⟨fun t u ht => absurd rfl ht, nofun⟩ ?_
        exact fun _ _ _ hs hg h => serial_moved hs hg (Sample.moved_of_step h)
      have hunset : s.pairing.data = false := hserial.unset t (acquire_of_wait.2 ⟨x, hacquire⟩)
      rw [hdata] at hunset
      cases hunset
    | report | list | callback | wakeStatus | wakePairing | expire => trivial

theorem rest_of_nobodyQueued (h : Reaches step nobodyQueued (master config newConfig) s)
    (hown : ∀ m : TestMove τ, m.own = true → s.step m = none) :
    s.returned = true ∨
    (∃ code, s.status.waiter = .waiting code ∧ ¬ Told code s.trace ∧ ∀ t, s.Free t) ∨
    (s.pairing.waiter = .waiting () ∧ ¬ Listed s.trace ∧ ∀ t, s.Free t) := by
  refine (returns_or_sleeps h hown).imp_right fun h' => h'.imp_left ?_
  rintro ⟨code, hw, htold, hthread⟩
  refine ⟨code, hw, htold, fun t => ⟨(hthread t).1, (hthread t).2.resolve_right ?_⟩⟩
  rintro ⟨hin, hacquire⟩
  have hpast : s.wait.program.past = true := by
    change (ProgramPc.ofWait s.phase s.pairing.waiter).past = true
    rw [hin]
    cases s.phase <;> rfl
  exact (cleared_of_reaches (wait_nobodyQueued h) hpast).callback t (acquire_of_wait.2 hacquire)

/-- A library that invokes the callback of the pairing list once at a time lets nobody be queued at
the end of the wait. Where nobody is, the master and the callbacks rest with every thread free: the
master has returned or sleeps for what was not reported. -/
theorem free_at_rest (config newConfig : Str) :
    (∀ s : Test τ, Reaches step serial (master config newConfig) s →
      Reaches step nobodyQueued (master config newConfig) s) ∧
    ∀ s : Test τ, Reaches step nobodyQueued (master config newConfig) s →
      (∀ m : TestMove τ, m.own = true → s.step m = none) →
        s.returned = true ∨
        (∃ code, s.status.waiter = .waiting code ∧ ¬ Told code s.trace ∧ ∀ t, s.Free t) ∨
        (s.pairing.waiter = .waiting () ∧ ¬ Listed s.trace ∧ ∀ t, s.Free t) :=
  ⟨fun _ => nobodyQueued_of_serial, fun _ => rest_of_nobodyQueued⟩

instance [Fintype τ] (s : Test τ) : ∀ m, Decidable (serial s m)
  | .list _ => inferInstanceAs (Decidable (∀ t, s.pairing.poster t = .idle))
  | .report _ _ | .callback _ | .program _ | .wakeStatus | .wakePairing | .expire =>
    inferInstanceAs (Decidable True)

theorem free_at_rest_paired : ∃ s : Test Unit,
    Reaches step serial (master [] []) s ∧
      s.pairing.waiter = .inside () ∧ ¬ Told .connected s.trace ∧ ∀ t, s.Free t := by
  obtain ⟨s, hplay, hret, hinside, hwaiter, hown⟩ : ∃ s : Test Unit,
      playAll step serial (master [] []) (pairedRun [65]) =
        some s ∧ s.returned = false ∧ s.pairing.waiter = .inside () ∧
      s.status.waiter = .waiting .connected ∧
      ∀ m : TestMove Unit, m.own = true → s.step m = none := by
    refine ⟨_, rfl, rfl, rfl, rfl, fun m hm => ?_⟩
    cases m with
    | callback | program => rfl
    | report | list | wakeStatus | wakePairing | expire => cases hm
  have hreach : Reaches step serial _ s := reaches_playAll .start hplay
  obtain ⟨hqueued, hrest⟩ := @free_at_rest Unit _ [] []
  refine ⟨s, hreach, hinside, ?_⟩
  rcases hrest s (hqueued s hreach) hown with hend | ⟨code, hw, htold, hfree⟩ | ⟨hw, -⟩
  · rw [hret] at hend
    cases hend
  · obtain rfl := CondVar.WaitPc.waiting.inj (hwaiter.symm.trans hw)
    exact ⟨htold, hfree⟩
  · rw [hinside] at hw
    cases hw

end Test

end Sample

end PairingV2
