import PairingV2.Lib.Moves

/-!
# The pairing wait of the sample program

The callback of the pairing list in `test_pair_connect_reconfigure`, invoked from any threads of the
library, and the wait of the program for it. The program keeps the mutex after its wait, so an
invocation that has seen the flag unset by then is blocked until the function returns
(`pairing_wait`, `blocked_until_return`).
-/

namespace PairingV2

namespace Sample

/-- Where a thread of the library is in the callback. -/
inductive CallbackPc where
  | idle
  | test
  | acquire
  | set
  | release
  | notify
  deriving DecidableEq

/-- The thread has the mutex. -/
def CallbackPc.holds : CallbackPc → Bool
  | .set | .release => true
  | .idle | .test | .acquire | .notify => false

/-- Where the program is: before its lock, at the predicate of the wait, in the wait, notified but
without the mutex, and then past the wait up to the end of the function. -/
inductive ProgramPc where
  | lock
  | check
  | waiting
  | woken
  | passed
  | pairTo
  | connecting
  | connected
  | returned
  deriving DecidableEq

def ProgramPc.past : ProgramPc → Bool
  | .lock | .check | .waiting | .woken => false
  | .passed | .pairTo | .connecting | .connected | .returned => true

/-- The program has the mutex. -/
def ProgramPc.holds : ProgramPc → Bool
  | .lock | .waiting | .woken | .returned => false
  | .check | .passed | .pairTo | .connecting | .connected => true

inductive Party (τ : Type*) where
  | program
  | callback (t : τ)
  deriving DecidableEq

/-- The threads, who has `pairing_list_mutex`, and `pairing_list_callback_called`. -/
structure State (τ : Type*) where
  callback : τ → CallbackPc
  program : ProgramPc
  owner : Option (Party τ)
  called : Bool

/-- The library invokes the callback in a thread, a thread goes on in it, the program goes on or
wakes up on its own, it finds the pairing list empty or not, and CONNECTED is reported. -/
inductive Move (τ : Type*) where
  | invoke (t : τ)
  | callback (t : τ)
  | program
  | wake
  | listed (empty : Bool)
  | connected

namespace State

variable {τ : Type*}

def initial : State τ := ⟨fun _ => .idle, .lock, none, false⟩

/-- An invocation that waits for the mutex while somebody has it. -/
def Blocked (s : State τ) (t : τ) : Prop := s.callback t = .acquire ∧ s.owner ≠ none

variable [DecidableEq τ]

def goto (s : State τ) (t : τ) (pc : CallbackPc) : State τ :=
  { s with callback := Function.update s.callback t pc }

def callbackStep (s : State τ) (t : τ) : Option (State τ) :=
  match s.callback t with
  | .idle => none
  | .test => some (s.goto t (if s.called then .idle else .acquire))
  | .acquire =>
    if s.owner = none then some { s.goto t .set with owner := some (.callback t) } else none
  | .set => some { s.goto t .release with called := true }
  | .release => some { s.goto t .notify with owner := none }
  | .notify =>
    some { s.goto t .idle with program := if s.program = .waiting then .woken else s.program }

def programAcquire (s : State τ) : Option (State τ) :=
  if s.owner = none then some { s with program := .check, owner := some .program } else none

def programStep (s : State τ) : Option (State τ) :=
  match s.program with
  | .lock => s.programAcquire
  | .check =>
    if s.called then some { s with program := .passed }
    else some { s with program := .waiting, owner := none }
  | .woken => s.programAcquire
  | .pairTo => some { s with program := .connecting }
  | .connected => some { s with program := .returned, owner := none }
  | .waiting | .passed | .connecting | .returned => none

def step (s : State τ) : Move τ → Option (State τ)
  | .invoke t => if s.callback t = .idle then some (s.goto t .test) else none
  | .callback t => s.callbackStep t
  | .program => s.programStep
  | .wake => if s.program = .waiting then some { s with program := .woken } else none
  | .listed empty =>
    if s.program = .passed then
      if empty then some { s with program := .returned, owner := none }
      else some { s with program := .pairTo }
    else none
  | .connected => if s.program = .connecting then some { s with program := .connected } else none

end State

open State

variable {τ : Type*}

/-- Who has the mutex is where it has it. -/
structure Owned (s : State τ) : Prop where
  program : s.program.holds = true → s.owner = some .program
  callback : ∀ t, (s.callback t).holds = true → s.owner = some (.callback t)

theorem owned_initial : Owned (initial : State τ) := by
  refine ⟨?_, ?_⟩
  · intro h
    cases h
  · intro t h
    cases h

variable {s s' : State τ} {m : Move τ}

/-- A move of the program that leaves the mutex. -/
theorem Owned.keep (hs : Owned s) {program : ProgramPc}
    (hp : program.holds = true → s.program.holds = true) :
    Owned ⟨s.callback, program, s.owner, s.called⟩ :=
  ⟨fun h => hs.program (hp h), hs.callback⟩

/-- A move of the program to or from the mutex, where no thread has it. -/
theorem Owned.change (hs : Owned s) (ho : ∀ t, s.owner ≠ some (.callback t)) {program : ProgramPc}
    {owner : Option (Party τ)} (hp : program.holds = true → owner = some .program) :
    Owned ⟨s.callback, program, owner, s.called⟩ :=
  ⟨hp, fun t h => absurd (hs.callback t h) (ho t)⟩

variable [DecidableEq τ]

/-! ## What a move does -/

inductive Moved (s : State τ) : Move τ → State τ → Prop where
  | invoke {t : τ} (h : s.callback t = .idle) : Moved s (.invoke t) (s.goto t .test)
  | skip {t : τ} (h : s.callback t = .test) (hc : s.called = true) :
      Moved s (.callback t) (s.goto t .idle)
  | queue {t : τ} (h : s.callback t = .test) (hc : s.called = false) :
      Moved s (.callback t) (s.goto t .acquire)
  | acquire {t : τ} (h : s.callback t = .acquire) (ho : s.owner = none) :
      Moved s (.callback t) { s.goto t .set with owner := some (.callback t) }
  | set {t : τ} (h : s.callback t = .set) :
      Moved s (.callback t) { s.goto t .release with called := true }
  | release {t : τ} (h : s.callback t = .release) :
      Moved s (.callback t) { s.goto t .notify with owner := none }
  | notify {t : τ} (h : s.callback t = .notify) : Moved s (.callback t)
      { s.goto t .idle with program := if s.program = .waiting then .woken else s.program }
  | lock (h : s.program = .lock ∨ s.program = .woken) (ho : s.owner = none) :
      Moved s .program { s with program := .check, owner := some .program }
  | pass (h : s.program = .check) (hc : s.called = true) :
      Moved s .program { s with program := .passed }
  | wait (h : s.program = .check) (hc : s.called = false) :
      Moved s .program { s with program := .waiting, owner := none }
  | pairTo (h : s.program = .pairTo) : Moved s .program { s with program := .connecting }
  | finish (h : s.program = .connected) :
      Moved s .program { s with program := .returned, owner := none }
  | wake (h : s.program = .waiting) : Moved s .wake { s with program := .woken }
  | empty (h : s.program = .passed) :
      Moved s (.listed true) { s with program := .returned, owner := none }
  | listed (h : s.program = .passed) : Moved s (.listed false) { s with program := .pairTo }
  | connected (h : s.program = .connecting) : Moved s .connected { s with program := .connected }

theorem moved_callback {t : τ} (h : s.callbackStep t = some s') : Moved s (.callback t) s' := by
  unfold callbackStep at h
  split at h
  · cases h
  · rename_i htest
    obtain rfl := Option.some.inj h
    rcases hc : s.called with _ | _
    · exact .queue htest hc
    · exact .skip htest hc
  · rename_i hacquire
    split_ifs at h with ho
    obtain rfl := Option.some.inj h
    exact .acquire hacquire ho
  · obtain rfl := Option.some.inj h
    exact .set ‹_›
  · obtain rfl := Option.some.inj h
    exact .release ‹_›
  · obtain rfl := Option.some.inj h
    exact .notify ‹_›

theorem moved_lock (hp : s.program = .lock ∨ s.program = .woken)
    (h : s.programAcquire = some s') : Moved s .program s' := by
  unfold programAcquire at h
  split_ifs at h with ho
  obtain rfl := Option.some.inj h
  exact .lock hp ho

theorem moved_program (h : s.programStep = some s') : Moved s .program s' := by
  unfold programStep at h
  split at h
  · exact moved_lock (.inl ‹_›) h
  · rename_i hcheck
    split_ifs at h with hc
    · obtain rfl := Option.some.inj h
      exact .pass hcheck hc
    · obtain rfl := Option.some.inj h
      exact .wait hcheck (by simpa using hc)
  · exact moved_lock (.inr ‹_›) h
  · obtain rfl := Option.some.inj h
    exact .pairTo ‹_›
  · obtain rfl := Option.some.inj h
    exact .finish ‹_›
  all_goals cases h

theorem moved_of_step (h : step s m = some s') : Moved s m s' := by
  cases m with
  | callback t => exact moved_callback h
  | program => exact moved_program h
  | invoke t =>
    simp only [step] at h
    split_ifs at h with hidle
    obtain rfl := Option.some.inj h
    exact .invoke hidle
  | wake =>
    simp only [step] at h
    split_ifs at h with hwaiting
    obtain rfl := Option.some.inj h
    exact .wake hwaiting
  | listed empty =>
    simp only [step] at h
    split_ifs at h with hpassed hempty
    · obtain rfl := Option.some.inj h
      subst hempty
      exact .empty hpassed
    · obtain rfl := Option.some.inj h
      obtain rfl : empty = false := by simpa using hempty
      exact .listed hpassed
  | connected =>
    simp only [step] at h
    split_ifs at h with hconnecting
    obtain rfl := Option.some.inj h
    exact .connected hconnecting

theorem goto_callback (s : State τ) (t u : τ) (pc : CallbackPc) :
    (s.goto t pc).callback u = if u = t then pc else s.callback u :=
  Function.update_apply _ _ _ _

theorem called_mono (h : Moved s m s') (hc : s.called = true) : s'.called = true := by
  cases h <;> first | exact hc | rfl

/-- An invocation comes to the mutex by finding the flag unset only. -/
theorem moved_acquire (h : Moved s m s') {t : τ} (ht : s'.callback t = .acquire) :
    s.callback t = .acquire ∨ s.called = false := by
  cases h with
  | queue _ hc => exact .inr hc
  | invoke | skip | acquire | set | release | notify =>
    simp only [goto_callback] at ht
    split_ifs at ht
    exact .inl ht
  | _ => exact .inl ht

theorem moved_past (h : Moved s m s') (hp : s'.program.past = true) :
    s.program.past = true ∨ (m = .program ∧ s.program = .check ∧ s.called = true ∧
      s' = { s with program := .passed }) := by
  cases h with
  | pass h hc => exact .inr ⟨rfl, h, hc, rfl⟩
  | notify h =>
    simp only at hp
    split_ifs at hp
    · cases hp
    · exact .inl hp
  | lock | wait | wake => cases hp
  | pairTo h | finish h | empty h | listed h | connected h => exact .inl (by rw [h]; rfl)
  | _ => exact .inl hp

/-! ## The mutex -/

/-- A move of a thread that leaves the mutex. -/
theorem Owned.goto (hs : Owned s) {t : τ} {pc : CallbackPc} {program : ProgramPc} {called : Bool}
    (hpc : pc.holds = true → (s.callback t).holds = true)
    (hp : program.holds = true → s.program.holds = true) :
    Owned ⟨(s.goto t pc).callback, program, s.owner, called⟩ := by
  refine ⟨fun h => hs.program (hp h), ?_⟩
  intro u hu
  simp only [goto_callback] at hu
  split_ifs at hu with hut
  · subst hut
    exact hs.callback u (hpc hu)
  · exact hs.callback u hu

/-- A move of a thread to or from the mutex, where nobody else has it. -/
theorem Owned.gotoChange (hs : Owned s) {t : τ} {pc : CallbackPc} {owner : Option (Party τ)}
    (hnot : s.owner ≠ some .program) (ho : ∀ u, s.owner = some (.callback u) → u = t)
    (hpc : pc.holds = true → owner = some (.callback t)) :
    Owned ⟨(s.goto t pc).callback, s.program, owner, s.called⟩ := by
  refine ⟨fun h => absurd (hs.program h) hnot, ?_⟩
  intro u hu
  simp only [goto_callback] at hu
  split_ifs at hu with hut
  · subst hut
    exact hpc hu
  · exact absurd (ho u (hs.callback u hu)) hut

theorem owned_moved (hs : Owned s) (h : Moved s m s') : Owned s' := by
  cases h with
  | invoke h | skip h | queue h => exact hs.goto (fun hpc => by cases hpc) id
  | set h => exact hs.goto (fun _ => by rw [h]; rfl) id
  | notify h =>
    refine hs.goto (fun hpc => by cases hpc) ?_
    split_ifs
    · intro hp
      cases hp
    · exact id
  | acquire h ho => exact hs.gotoChange (by simp [ho]) (by simp [ho]) fun _ => rfl
  | release h =>
    have ho := hs.callback _ (by rw [h]; rfl)
    exact hs.gotoChange (by simp [ho]) (by simp [ho, eq_comm]) fun hpc => by cases hpc
  | lock h ho => exact hs.change (by simp [ho]) fun _ => rfl
  | wait h | finish h | empty h =>
    have ho := hs.program (by rw [h]; rfl)
    exact hs.change (by simp [ho]) fun hp => by cases hp
  | pass h | pairTo h | listed h | connected h => exact hs.keep fun _ => by rw [h]; rfl
  | wake h => exact hs.keep fun hp => by cases hp

theorem owned {guard : State τ → Move τ → Prop} (h : Reaches step guard initial s) : Owned s :=
  h.invariant owned_initial fun _ _ _ hs _ h => owned_moved hs (moved_of_step h)

/-! ## Past the wait -/

/-- The program leaves its wait only when no invocation has seen the flag unset without having
taken the mutex yet. -/
def nobodyQueued (s : State τ) : Move τ → Prop
  | .program => s.program = .check → s.called = true → ∀ t, s.callback t ≠ .acquire
  | _ => True

def anyMove (_ : State τ) (_ : Move τ) : Prop := True

structure Cleared (s : State τ) : Prop where
  called : s.called = true
  callback : ∀ t, s.callback t ≠ .acquire

theorem cleared_moved (hs : Cleared s) (h : Moved s m s') : Cleared s' := by
  refine ⟨called_mono h hs.called, ?_⟩
  intro t ht
  rcases moved_acquire h ht with hacquire | hcalled
  · exact hs.callback t hacquire
  · exact absurd hs.called (by simp [hcalled])

theorem cleared_of_reaches (h : Reaches step nobodyQueued initial s)
    (hp : s.program.past = true) : Cleared s := by
  revert hp
  refine h.invariant (P := fun s => s.program.past = true → Cleared s) ?_ ?_
  · intro hp
    cases hp
  · intro s s' m hs hg h hp
    have hmoved := moved_of_step h
    rcases moved_past hmoved hp with hpast | ⟨rfl, hcheck, hcalled, rfl⟩
    · exact cleared_moved (hs hpast) hmoved
    · exact ⟨hcalled, hg hcheck hcalled⟩

/-- The program keeps the mutex until the function returns, and a blocked invocation stays blocked
until then. -/
theorem blocked_until_return (hs : Owned s) (h : Moved s m s') (hp : s.program.past = true)
    (hholds : s.program.holds = true) {t : τ} (hb : s.Blocked t) :
    s'.program = .returned ∨ (s'.program.past = true ∧ s'.program.holds = true ∧ s'.Blocked t) := by
  have howner := hs.program hholds
  obtain ⟨hacquire, -⟩ := hb
  have hstay : s'.program = .returned ∨ (s'.program.past = true ∧ s'.program.holds = true) := by
    cases h with
    | notify h =>
      refine .inr ?_
      simp only
      split_ifs with hw
      · rw [hw] at hp
        cases hp
      · exact ⟨hp, hholds⟩
    | lock h => rcases h with h | h <;> rw [h] at hp <;> cases hp
    | pass h | wait h | wake h =>
      rw [h] at hp
      cases hp
    | finish h | empty h => exact .inl rfl
    | pairTo h | listed h | connected h => exact .inr ⟨rfl, rfl⟩
    | _ => exact .inr ⟨hp, hholds⟩
  refine hstay.imp_right fun ⟨hpast, hholds'⟩ => ⟨hpast, hholds', ?_, ?_⟩
  · cases h with
    | @acquire u h ho =>
      rw [howner] at ho
      cases ho
    | @invoke u h | @skip u h | @queue u h | @set u h | @release u h | @notify u h =>
      have htu : t ≠ u := by
        rintro rfl
        rw [hacquire] at h
        cases h
      simp only [goto_callback, if_neg htu, hacquire]
    | _ => exact hacquire
  · rw [(owned_moved hs h).program hholds']
    simp

/-- No move makes the function return. -/
def notReturning (s : State τ) (m : Move τ) : Prop :=
  ∀ s', s.step m = some s' → s'.program ≠ .returned

theorem blocked_run (hs : Owned s) (hp : s.program.past = true) (hholds : s.program.holds = true)
    {t : τ} (hb : s.Blocked t) (h : Reaches step notReturning s s') : s'.Blocked t := by
  have hinv : Owned s' ∧ s'.program.past = true ∧ s'.program.holds = true ∧ s'.Blocked t := by
    refine h.invariant
      (P := fun s => Owned s ∧ s.program.past = true ∧ s.program.holds = true ∧ s.Blocked t)
      ⟨hs, hp, hholds, hb⟩ ?_
    rintro s s' m ⟨hs, hp, hholds, hb⟩ hg h
    have hmoved := moved_of_step h
    rcases blocked_until_return hs hmoved hp hholds hb with hret | hnext
    · exact absurd hret (hg s' h)
    · exact ⟨owned_moved hs hmoved, hnext⟩
  exact hinv.2.2.2

/-! ## One thread -/

/-- The library invokes the callback when no other invocation is under way. -/
def oneAtATime (s : State τ) : Move τ → Prop
  | .invoke _ => ∀ u, s.callback u = .idle
  | _ => True

structure Serial (s : State τ) : Prop where
  alone : ∀ t u, s.callback t ≠ .idle → s.callback u ≠ .idle → t = u
  unset : ∀ t, s.callback t = .acquire → s.called = false

theorem serial_goto (hs : Serial s) {t : τ} (ht : s.callback t ≠ .idle) {pc : CallbackPc}
    (hpc : pc = .acquire → s.called = false) (program : ProgramPc) (owner : Option (Party τ))
    {called : Bool} (hcalled : called = s.called ∨ pc ≠ .acquire) :
    Serial ⟨(s.goto t pc).callback, program, owner, called⟩ := by
  have hidle : ∀ u, u ≠ t → s.callback u = .idle := by
    intro u hu
    by_contra hne
    exact hu (hs.alone u t hne ht)
  have honly : ∀ u, (s.goto t pc).callback u ≠ .idle → u = t := by
    intro u hu
    by_contra hne
    rw [goto_callback, if_neg hne] at hu
    exact hu (hidle u hne)
  refine ⟨?_, ?_⟩
  · intro u v hu hv
    rw [honly u hu, honly v hv]
  · intro u hu
    have hut : u = t := honly u (by rw [hu]; decide)
    subst hut
    rw [goto_callback, if_pos rfl] at hu
    rcases hcalled with rfl | hne
    · exact hpc hu
    · exact absurd hu hne

theorem serial_moved (hs : Serial s) (hg : oneAtATime s m) (h : Moved s m s') : Serial s' := by
  cases h with
  | @invoke t h =>
    refine ⟨?_, ?_⟩
    · intro u v hu hv
      rw [goto_callback] at hu hv
      split_ifs at hu hv with hut hvt
      · rw [hut, hvt]
      · exact absurd (hg v) hv
      · exact absurd (hg u) hu
      · exact absurd (hg u) hu
    · intro u hu
      rw [goto_callback] at hu
      split_ifs at hu
      exact hs.unset u hu
  | queue h hc => exact serial_goto hs (by simp [h]) (fun _ => hc) _ _ (.inl rfl)
  | skip h | release h | notify h =>
    exact serial_goto hs (by simp [h]) (fun h => by cases h) _ _ (.inl rfl)
  | acquire h | set h =>
    exact serial_goto hs (by simp [h]) (fun h => by cases h) _ _ (.inr (by decide))
  | _ => exact ⟨hs.alone, hs.unset⟩

/-- A library that invokes the callback in one thread at a time leaves nobody queued. -/
theorem nobodyQueued_of_oneAtATime (h : Reaches step oneAtATime initial s) :
    Reaches step nobodyQueued initial s := by
  refine (h.invariant (P := fun s => Serial s ∧ Reaches step nobodyQueued initial s) ?_ ?_).2
  · refine ⟨⟨?_, ?_⟩, .start⟩
    · intro t u ht
      exact absurd rfl ht
    · intro t ht
      cases ht
  · rintro s s' m ⟨hs, hr⟩ hg h
    refine ⟨serial_moved hs hg (moved_of_step h), hr.move ?_ h⟩
    cases m with
    | program =>
      intro hcheck hcalled t ht
      rw [hs.unset t ht] at hcalled
      cases hcalled
    | _ => trivial

/-! ## The wait -/

/-- Past the wait no invocation is blocked if nobody was queued at its end. If somebody was, it is
blocked at once. Nobody is if the library invokes the callback in one thread at a time. -/
theorem pairing_wait :
    (∀ s : State τ, Reaches step nobodyQueued initial s → s.program.past = true →
        ∀ t, ¬ s.Blocked t) ∧
      (∀ (s s' : State τ) (m : Move τ), Reaches step anyMove initial s → s.step m = some s' →
        s.program.past = false → s'.program.past = true →
          (nobodyQueued s m ↔ ∀ t, ¬ s'.Blocked t)) ∧
      ∀ s : State τ, Reaches step oneAtATime initial s → s.program.past = true →
        ∀ t, ¬ s.Blocked t := by
  have hclear : ∀ s : State τ, Reaches step nobodyQueued initial s → s.program.past = true →
      ∀ t, ¬ s.Blocked t := fun s h hp t hblocked =>
    (cleared_of_reaches h hp).callback t hblocked.1
  refine ⟨hclear, ?_, fun s h => hclear s (nobodyQueued_of_oneAtATime h)⟩
  · intro s s' m h hs hp hp'
    rcases moved_past (moved_of_step hs) hp' with hpast | ⟨rfl, hcheck, hcalled, rfl⟩
    · rw [hp] at hpast
      cases hpast
    · have howner : s.owner = some .program := (owned h).program (by rw [hcheck]; rfl)
      constructor
      · intro hg t hblocked
        exact hg hcheck hcalled t hblocked.1
      · intro hfree _ _ t ht
        exact hfree t ⟨ht, by simp [howner]⟩

instance (s : State τ) (m : Move τ) : Decidable (anyMove s m) := inferInstanceAs (Decidable True)

instance [Fintype τ] (s : State τ) : ∀ m, Decidable (nobodyQueued s m)
  | .program => inferInstanceAs
      (Decidable (s.program = .check → s.called = true → ∀ t, s.callback t ≠ .acquire))
  | .invoke _ | .callback _ | .wake | .listed _ | .connected => inferInstanceAs (Decidable True)

theorem pairing_wait_single : ∃ s : State Unit, Reaches step nobodyQueued initial s ∧
    s.program = .connecting ∧ ∀ t, ¬ s.Blocked t := by
  obtain ⟨s, hplay, hprogram⟩ : ∃ s : State Unit, playAll step nobodyQueued initial
      [.invoke (), .callback (), .program, .program, .callback (), .callback (), .callback (),
        .callback (), .program, .program, .listed false, .program] = some s ∧
      s.program = .connecting := ⟨_, rfl, rfl⟩
  have hreach : Reaches step nobodyQueued initial s := reaches_playAll .start hplay
  exact ⟨s, hreach, hprogram, pairing_wait.1 s hreach (by rw [hprogram]; rfl)⟩

/-- Two invocations see the flag unset, and the wait ends after the first of them. -/
def overlapping : List (Move ℕ) :=
  [.invoke 0, .invoke 1, .callback 0, .callback 1, .program, .program, .callback 0, .callback 0,
    .callback 0, .callback 0, .program, .program, .listed false, .program]

/-- The second invocation is blocked while the program waits for CONNECTED. -/
theorem callback_hangs : ∃ s : State ℕ, Reaches step anyMove initial s ∧
    s.program = .connecting ∧ s.Blocked 1 ∧
      ∀ s', Reaches step notReturning s s' → s'.Blocked 1 := by
  obtain ⟨s, hplay, hprogram, hblocked⟩ : ∃ s, playAll step anyMove initial overlapping = some s ∧
      s.program = .connecting ∧ s.Blocked 1 := ⟨_, rfl, rfl, rfl, by decide⟩
  have hreach : Reaches step anyMove initial s := reaches_playAll .start hplay
  refine ⟨s, hreach, hprogram, hblocked, fun s' h => ?_⟩
  exact blocked_run (owned hreach) (by rw [hprogram]; rfl) (by rw [hprogram]; rfl) hblocked h

end Sample

end PairingV2
