import PairingV2.Lib.Protocol
import PairingV2.Sample.Program

/-!
# What the tests wait for

Whatever the library does and whenever it invokes the callbacks, a test has been told of a status
when it goes past a wait for it, so its calls come in order (`calls_order`), and the list of
statuses is what was reported: each invocation once, those of a thread in their order
(`statuses_of_reports`).
-/

namespace PairingV2

namespace Sample

variable {τ : Type} [DecidableEq τ]

/-! ## What a move does -/

namespace Test

/-- A move of the program in a wait: it begins it or goes on in it. -/
def Waits {X K D : Type} (c : CondVar.State τ X K D) (k : K) (m : CondVar.Move τ X K) : Prop :=
  (m = .wait k ∧ c.waiter = .outside) ∨
    (m = .waiter ∧ c.waiter ≠ .outside ∧ ∀ k', c.waiter ≠ .inside k')

omit [DecidableEq τ] in
theorem Waits.thread {X K D : Type} {c : CondVar.State τ X K D} {k : K} {m : CondVar.Move τ X K}
    (h : Waits c k m) : m.thread = none := by
  rcases h with ⟨rfl, -⟩ | ⟨rfl, -⟩ <;> rfl

inductive Moved (s : Test τ) : TestMove τ → Test τ → Prop where
  | report {t : τ} {status : ConnectionStatus} {c} (hreg : s.statusRegistered = true)
      (hfree : s.Free t) (hc : s.status.step statuses (.post t status) = some c) :
      Moved s (.report t status) { s with status := c, trace := s.trace ++ [.invoked t status] }
  | list {t : τ} {c} (hreg : s.listRegistered = true) (hfree : s.Free t)
      (hc : s.pairing.step listFlag (.post t ()) = some c) :
      Moved s (.list t) { s with pairing := c }
  | pairingCallback {t : τ} {c} (h : s.status.poster t = .idle)
      (hc : s.pairing.step listFlag (.poster t) = some c) :
      Moved s (.callback t) { s with pairing := c, trace := s.trace ++ s.listedBy t }
  | statusCallback {t : τ} {c} (h : s.status.poster t ≠ .idle)
      (hc : s.status.step statuses (.poster t) = some c) :
      Moved s (.callback t) { s with status := c, trace := s.trace ++ s.reportedBy t }
  | unlock {r : Reply} {c} (hcode : s.code = .ret ())
      (hc : s.pairing.step listFlag .leave = some c) : Moved s (.program r) { s with pairing := c }
  | waitStatus {r : Reply} {code k m c} (hcode : s.code = .act (.awaitStatus code) k)
      (hm : Waits s.status code m) (hc : s.status.step statuses m = some c) :
      Moved s (.program r) { s with status := c }
  | foundStatus {r : Reply} {code k code' c} (hcode : s.code = .act (.awaitStatus code) k)
      (hw : s.status.waiter = .inside code') (hc : s.status.step statuses .leave = some c) :
      Moved s (.program r)
        (Test.perform { s with status := c } (.awaitStatus code) true (k true))
  | waitPairing {r : Reply} {k m c} (hcode : s.code = .act .awaitPairing k)
      (hm : Waits s.pairing () m) (hc : s.pairing.step listFlag m = some c) :
      Moved s (.program r) { s with pairing := c }
  | foundPairing {r : Reply} {k k'} (hcode : s.code = .act .awaitPairing k)
      (hw : s.pairing.waiter = .inside k') :
      Moved s (.program r) (s.perform .awaitPairing s.pairing.data (k s.pairing.data))
  | call {r : Reply} {i k} (hcode : s.code = .act i k) (hstatus : ∀ code, i ≠ .awaitStatus code)
      (hpairing : i ≠ .awaitPairing) :
      Moved s (.program r) (s.perform i (r.answer i) (k (r.answer i)))
  | wakeStatus {c} (hc : s.status.step statuses .wake = some c) :
      Moved s .wakeStatus { s with status := c }
  | wakePairing {c} (hc : s.pairing.step listFlag .wake = some c) :
      Moved s .wakePairing { s with pairing := c }
  | expire {c} (hc : s.status.step statuses .expire = some c) :
      Moved s .expire { s with status := c }

variable {s s' : Test τ} {m : TestMove τ}

theorem moved_program {r : Reply} (h : s.programStep r = some s') : Moved s (.program r) s' := by
  unfold programStep at h
  split at h
  · rename_i hcode
    obtain ⟨c, hc, rfl⟩ := Option.map_eq_some_iff.1 h
    exact .unlock hcode hc
  · rename_i code k hcode
    split at h
    · rename_i hw
      obtain ⟨c, hc, rfl⟩ := Option.map_eq_some_iff.1 h
      exact .waitStatus hcode (.inl ⟨rfl, hw⟩) hc
    · rename_i code' hw
      obtain ⟨s₁, hs₁, rfl⟩ := Option.map_eq_some_iff.1 h
      obtain ⟨c, hc, rfl⟩ := Option.map_eq_some_iff.1 hs₁
      exact .foundStatus hcode hw hc
    · rename_i hout hin
      obtain ⟨c, hc, rfl⟩ := Option.map_eq_some_iff.1 h
      exact .waitStatus hcode (.inr ⟨rfl, hout, hin⟩) hc
  · rename_i k hcode
    split at h
    · rename_i hw
      obtain ⟨c, hc, rfl⟩ := Option.map_eq_some_iff.1 h
      exact .waitPairing hcode (.inl ⟨rfl, hw⟩) hc
    · rename_i hw
      obtain rfl := Option.some.inj h
      exact .foundPairing hcode hw
    · rename_i hout hin
      obtain ⟨c, hc, rfl⟩ := Option.map_eq_some_iff.1 h
      exact .waitPairing hcode (.inr ⟨rfl, hout, hin⟩) hc
  · rename_i i k hstatus hpairing hcode
    obtain rfl := Option.some.inj h
    refine .call hcode ?_ ?_
    · rintro code rfl
      exact hstatus _ k rfl HEq.rfl
    · rintro rfl
      exact hpairing k rfl HEq.rfl

theorem moved_of_step (h : s.step m = some s') : s.returned = false ∧ Moved s m s' := by
  unfold step at h
  split_ifs at h with hret
  refine ⟨by simpa using hret, ?_⟩
  cases m with
  | report t status =>
    simp only at h
    split_ifs at h with hguard
    obtain ⟨s₁, hs₁, rfl⟩ := Option.map_eq_some_iff.1 h
    obtain ⟨c, hc, rfl⟩ := Option.map_eq_some_iff.1 hs₁
    exact .report hguard.1 hguard.2 hc
  | list t =>
    simp only at h
    split_ifs at h with hguard
    obtain ⟨c, hc, rfl⟩ := Option.map_eq_some_iff.1 h
    exact .list hguard.1 hguard.2 hc
  | callback t =>
    simp only [callbackStep] at h
    split_ifs at h with hidle
    · obtain ⟨c, hc, rfl⟩ := Option.map_eq_some_iff.1 h
      exact .pairingCallback hidle hc
    · obtain ⟨c, hc, rfl⟩ := Option.map_eq_some_iff.1 h
      exact .statusCallback hidle hc
  | program r => exact moved_program h
  | wakeStatus =>
    obtain ⟨c, hc, rfl⟩ := Option.map_eq_some_iff.1 h
    exact .wakeStatus hc
  | wakePairing =>
    obtain ⟨c, hc, rfl⟩ := Option.map_eq_some_iff.1 h
    exact .wakePairing hc
  | expire =>
    obtain ⟨c, hc, rfl⟩ := Option.map_eq_some_iff.1 h
    exact .expire hc

/-! ## The two mutexes -/

theorem status_of_moved (h : Moved s m s') :
    s'.status = s.status ∨ ∃ m', s.status.step statuses m' = some s'.status := by
  cases h with
  | report _ _ hc | statusCallback _ hc | waitStatus _ _ hc | foundStatus _ _ hc | wakeStatus hc
  | expire hc => exact .inr ⟨_, hc⟩
  | _ => exact .inl rfl

theorem pairing_of_moved (h : Moved s m s') :
    s'.pairing = s.pairing ∨ ∃ m', s.pairing.step listFlag m' = some s'.pairing := by
  cases h with
  | list _ _ hc | pairingCallback _ hc | unlock _ hc | waitPairing _ _ hc | wakePairing hc =>
    exact .inr ⟨_, hc⟩
  | _ => exact .inl rfl

section Runs

variable {guard : Test τ → TestMove τ → Prop} {p : Code Unit}

theorem status_reaches (h : Reaches step guard (start p) s) :
    Reaches (CondVar.State.step statuses) always (.initial []) s.status :=
  h.part Test.status fun _ _ _ hs => status_of_moved (moved_of_step hs).2

theorem pairing_reaches (h : Reaches step guard (start p) s) :
    Reaches (CondVar.State.step listFlag) always (.initial false) s.pairing :=
  h.part Test.pairing fun _ _ _ hs => pairing_of_moved (moved_of_step hs).2

end Runs

/-! ## Where the program is -/

/-- The program is in a wait for a status only at that action, and in the wait for the pairing list
only at that action or with its lock. -/
structure Placed (s : Test τ) : Prop where
  status : ∀ code, s.status.waiter.wait = some code → ∃ k, s.code = .act (.awaitStatus code) k
  pairing : s.pairing.waiter.wait = none ∨ s.pairing.waiter = .inside () ∨
    ∃ k, s.code = .act .awaitPairing k

theorem Placed.of_status (hs : Placed s) {m : CondVar.Move τ ConnectionStatus ConnectionStatusEnum}
    {c} (hc : s.status.step statuses m = some c) (hm : s.status.waitAfter m = s.status.waiter.wait)
    (registered : Bool) (trace : List (TestEvent τ)) :
    Placed ⟨s.code, c, s.pairing, registered, s.listRegistered, trace⟩ := by
  refine ⟨?_, hs.pairing⟩
  rw [CondVar.wait_moved (CondVar.moved_of_step hc), hm]
  exact hs.status

theorem Placed.of_pairing (hs : Placed s) {m : CondVar.Move τ Unit Unit} {c}
    (hc : s.pairing.step listFlag m = some c) (hm : s.pairing.waitAfter m = s.pairing.waiter.wait)
    (hleave : m ≠ .leave) (trace : List (TestEvent τ)) :
    Placed ⟨s.code, s.status, c, s.statusRegistered, s.listRegistered, trace⟩ := by
  refine ⟨hs.status, ?_⟩
  have hmoved := CondVar.moved_of_step hc
  rw [CondVar.wait_moved hmoved, hm]
  exact hs.pairing.imp_right fun h => h.imp_left (CondVar.inside_moved hleave · hmoved)

theorem placed_moved (hs : Placed s) (h : Moved s m s') : Placed s' := by
  cases h with
  | report _ _ hc => exact hs.of_status hc rfl _ _
  | statusCallback _ hc => exact hs.of_status hc rfl _ _
  | wakeStatus hc => exact hs.of_status hc rfl _ _
  | expire hc => exact hs.of_status hc rfl _ _
  | list _ _ hc => exact hs.of_pairing hc rfl nofun _
  | pairingCallback _ hc => exact hs.of_pairing hc rfl nofun _
  | wakePairing hc => exact hs.of_pairing hc rfl nofun _
  | unlock hcode hc =>
    refine ⟨hs.status, .inl ?_⟩
    exact CondVar.wait_moved (CondVar.moved_of_step hc)
  | @waitStatus r code k m c hcode hm hc =>
    rcases hm with ⟨rfl, -⟩ | ⟨rfl, -⟩
    · refine ⟨?_, hs.pairing⟩
      intro code' hcode'
      have hwait := CondVar.wait_moved (CondVar.moved_of_step hc)
      obtain rfl : code = code' := Option.some.inj (hwait.symm.trans hcode')
      exact ⟨k, hcode⟩
    · exact hs.of_status hc rfl _ _
  | waitPairing hcode => exact ⟨hs.status, .inr (.inr ⟨_, hcode⟩)⟩
  | foundStatus hcode hw hc =>
    refine ⟨?_, ?_⟩
    · intro code hwait
      have hnone := CondVar.wait_moved (CondVar.moved_of_step hc)
      cases hnone.symm.trans hwait
    · refine hs.pairing.imp_right fun h => .inl ?_
      refine h.resolve_right ?_
      rintro ⟨k, hk⟩
      rw [hcode] at hk
      cases hk
  | foundPairing hcode hw =>
    refine ⟨?_, .inr (.inl hw)⟩
    intro code hwait
    obtain ⟨k, hk⟩ := hs.status code hwait
    rw [hcode] at hk
    cases hk
  | call hcode hstatus hpairing =>
    refine ⟨?_, ?_⟩
    · intro code hwait
      obtain ⟨k, hk⟩ := hs.status code hwait
      rw [hcode] at hk
      exact absurd (Prog.act.inj hk).1 (hstatus code)
    · refine hs.pairing.imp_right fun h => .inl ?_
      refine h.resolve_right ?_
      rintro ⟨k, hk⟩
      rw [hcode] at hk
      exact absurd (Prog.act.inj hk).1 hpairing

theorem placed {guard : Test τ → TestMove τ → Prop} {p : Code Unit}
    (h : Reaches step guard (start p) s) : Placed s := by
  refine h.invariant ⟨?_, .inl rfl⟩ fun _ _ _ hs _ h => placed_moved hs (moved_of_step h).2
  intro code hwait
  cases hwait

/-! ## What has happened -/

/-- The program goes past a wait only inside it. -/
def Answered (s : Test τ) : (i : Act) → Ans i → Prop
  | .awaitStatus _, found => found = true ∧ ∃ code, s.status.waiter = .inside code
  | .awaitPairing, called => called = s.pairing.data ∧ s.pairing.waiter = .inside ()
  | _, _ => True

/-- What an event says about the move that it happens in. -/
def Happens (s s' : Test τ) : TestEvent τ → Prop
  | .did ⟨i, a⟩ => ∃ k, s.code = .act i k ∧ Answered s i a ∧ s'.code = k a
  | .invoked _ _ | .reported _ _ | .listed _ => s'.code = s.code

omit [DecidableEq τ] in
theorem happens_perform {i : Act} {k : Ans i → Code Unit} {a : Ans i} {status pairing}
    (hcode : s.code = .act i k) (ha : Answered s i a) :
    let s' := Test.perform { s with status := status, pairing := pairing } i a (k a)
    s'.trace = s.trace ++ [.did ⟨i, a⟩] ∧ Happens s s' (.did ⟨i, a⟩) :=
  ⟨rfl, k, hcode, ha, rfl⟩

theorem happens_moved (h : Moved s m s') : (s'.code = s.code ∧ s'.trace = s.trace) ∨
    ∃ e, s'.trace = s.trace ++ [e] ∧ Happens s s' e := by
  cases h with
  | report => exact .inr ⟨_, rfl, rfl⟩
  | @statusCallback t =>
    unfold reportedBy
    rcases (s.status.poster t).posts_cases with hposts | ⟨status, hposts, -⟩ <;> rw [hposts]
    · exact .inl ⟨rfl, List.append_nil _⟩
    · exact .inr ⟨.reported t status, rfl, rfl⟩
  | @pairingCallback t =>
    unfold listedBy
    rcases (s.pairing.poster t).posts_cases with hposts | ⟨x, hposts, -⟩ <;> rw [hposts]
    · exact .inl ⟨rfl, List.append_nil _⟩
    · exact .inr ⟨.listed t, rfl, rfl⟩
  | foundStatus hcode hw => exact .inr ⟨_, happens_perform hcode ⟨rfl, _, hw⟩⟩
  | foundPairing hcode hw => exact .inr ⟨_, happens_perform hcode ⟨rfl, hw⟩⟩
  | @call r i k hcode hstatus hpairing =>
    refine .inr ⟨_, happens_perform hcode ?_⟩
    cases i with
    | awaitStatus code => exact absurd rfl (hstatus code)
    | awaitPairing => exact absurd rfl hpairing
    | _ => trivial
  | list | unlock | waitStatus | waitPairing | wakeStatus | wakePairing | expire =>
    exact .inl ⟨rfl, rfl⟩

/-- A status of this code was reported. -/
def Told (code : ConnectionStatusEnum) (tr : List (TestEvent τ)) : Prop :=
  ∃ t context, .reported t ⟨code, context⟩ ∈ tr

/-- The flag was set. -/
def Listed (tr : List (TestEvent τ)) : Prop := ∃ t, .listed t ∈ tr

/-- The actions of the program. -/
def did (trace : List (TestEvent τ)) : List (Event Act Ans) := trace.filterMap fun
  | .did e => some e
  | _ => none

omit [DecidableEq τ] in
@[simp] theorem did_append (tr tr' : List (TestEvent τ)) : did (tr ++ tr') = did tr ++ did tr' :=
  List.filterMap_append

section Runs

variable {guard : Test τ → TestMove τ → Prop} {p : Code Unit}

/-- The program does what its code says, whatever the answers are. -/
theorem follows (h : Reaches step guard (start p) s) : Prog.Follows p (did s.trace) s.code := by
  refine h.invariant (P := fun s => Prog.Follows p (did s.trace) s.code) (.refl _ _) ?_
  intro s s' m hs _ h
  rcases happens_moved (moved_of_step h).2 with ⟨hcode, htrace⟩ | ⟨e, htrace, he⟩
  · rw [hcode, htrace]
    exact hs
  · rw [htrace, did_append]
    cases e with
    | did e =>
      obtain ⟨k, hcode, -, hcode'⟩ := he
      rw [hcode] at hs
      rw [hcode']
      exact hs.snoc trivial
    | invoked | reported | listed =>
      have hcode : s'.code = s.code := he
      rw [hcode]
      simpa [did] using hs

/-! ## Reports -/

/-- The statuses that were reported. -/
def reports (trace : List (TestEvent τ)) : List ConnectionStatus := trace.filterMap fun
  | .reported _ status => some status
  | _ => none

def reportsOf (t : τ) (trace : List (TestEvent τ)) : List ConnectionStatus := trace.filterMap fun
  | .reported u status => if u = t then some status else none
  | _ => none

def invocationsOf (t : τ) (trace : List (TestEvent τ)) : List ConnectionStatus :=
  trace.filterMap fun
    | .invoked u status => if u = t then some status else none
    | _ => none

/-- The list of statuses is what was reported, and each invocation of the callback reports its
status or has still to do so. -/
structure Reported (s : Test τ) : Prop where
  data : s.status.data = reports s.trace
  thread : ∀ t, invocationsOf t s.trace = reportsOf t s.trace ++ (s.status.poster t).pending

omit [DecidableEq τ] in
theorem filterMap_append_none {β : Type} {f : TestEvent τ → Option β} {tr es : List (TestEvent τ)}
    (hes : ∀ e ∈ es, f e = none) : (tr ++ es).filterMap f = tr.filterMap f := by
  rw [List.filterMap_append, List.filterMap_eq_nil_iff.2 hes, List.append_nil]

/-- The move of neither a thread in the callback nor the library. -/
theorem Reported.quiet (hs : Reported s) (hdata : s'.status.data = s.status.data)
    (hposter : ∀ t, s'.status.poster t = s.status.poster t) {es : List (TestEvent τ)}
    (htrace : s'.trace = s.trace ++ es) (hreported : ∀ t status, .reported t status ∉ es)
    (hinvoked : ∀ t status, .invoked t status ∉ es) : Reported s' := by
  refine ⟨?_, fun t => ?_⟩
  · have hreports : reports (s.trace ++ es) = reports s.trace :=
      filterMap_append_none fun e he => by
        cases e with
        | reported t status => exact absurd he (hreported t status)
        | _ => rfl
    rw [hdata, htrace, hreports, hs.data]
  · have hreportsOf : reportsOf t (s.trace ++ es) = reportsOf t s.trace :=
      filterMap_append_none fun e he => by
        cases e with
        | reported t status => exact absurd he (hreported t status)
        | _ => rfl
    have hinvocationsOf : invocationsOf t (s.trace ++ es) = invocationsOf t s.trace :=
      filterMap_append_none fun e he => by
        cases e with
        | invoked t status => exact absurd he (hinvoked t status)
        | _ => rfl
    rw [htrace, hreportsOf, hinvocationsOf, hposter, hs.thread]

theorem reported_moved (hs : Reported s) (h : Moved s m s') : Reported s' := by
  cases h with
  | @report t status c _ _ hc =>
    have hmoved := CondVar.moved_of_step hc
    refine ⟨?_, ?_⟩
    · rw [CondVar.data_moved hmoved]
      simpa [CondVar.State.dataAfter, reports] using hs.data
    · intro u
      have hu := hs.thread u
      by_cases hut : u = t
      · subst hut
        cases hmoved with
        | post x hidle =>
          rw [hidle] at hu
          simpa [invocationsOf, reportsOf, CondVar.State.goto_poster, CondVar.PostPc.pending]
            using hu
      · simp only
        rw [CondVar.poster_moved hmoved (by simp [CondVar.Move.thread, Ne.symm hut])]
        simpa [invocationsOf, reportsOf, Ne.symm hut] using hu
  | @statusCallback t c _ hc =>
    have hmoved := CondVar.moved_of_step hc
    refine ⟨?_, ?_⟩
    · rw [CondVar.data_moved hmoved, CondVar.State.dataAfter, hs.data]
      unfold reportedBy
      rcases (s.status.poster t).posts_cases with hposts | ⟨x, hposts, -⟩ <;>
        simp [hposts, reports, statuses]
    · intro u
      have hu := hs.thread u
      by_cases hut : u = t
      · subst hut
        rw [CondVar.pending_moved hmoved fun _ _ => rfl] at hu
        unfold reportedBy
        rcases (s.status.poster u).posts_cases with hposts | ⟨x, hposts, -⟩ <;>
          simpa [hposts, invocationsOf, reportsOf] using hu
      · simp only
        rw [CondVar.poster_moved hmoved (by simp [CondVar.Move.thread, Ne.symm hut])]
        unfold reportedBy
        rcases (s.status.poster t).posts_cases with hposts | ⟨x, hposts, -⟩ <;>
          simpa [hposts, invocationsOf, reportsOf, Ne.symm hut] using hu
  | @pairingCallback t =>
    refine hs.quiet rfl (fun _ => rfl) rfl ?_ ?_ <;> simp [listedBy]
  | waitStatus _ hm hc =>
    have hmoved := CondVar.moved_of_step hc
    have hnone := hm.thread
    refine hs.quiet (CondVar.data_of_thread hmoved hnone) (fun t => ?_) (List.append_nil _).symm
      (by simp) (by simp)
    exact CondVar.poster_moved hmoved (by simp [hnone])
  | foundStatus _ _ hc =>
    have hmoved := CondVar.moved_of_step hc
    refine hs.quiet (CondVar.data_of_thread hmoved rfl) (fun t => ?_) rfl (by simp) (by simp)
    exact CondVar.poster_moved hmoved (by simp [CondVar.Move.thread])
  | wakeStatus hc | expire hc =>
    have hmoved := CondVar.moved_of_step hc
    refine hs.quiet (CondVar.data_of_thread hmoved rfl) (fun t => ?_) (List.append_nil _).symm
      (by simp) (by simp)
    exact CondVar.poster_moved hmoved (by simp [CondVar.Move.thread])
  | foundPairing | call => exact hs.quiet rfl (fun _ => rfl) rfl (by simp) (by simp)
  | list | unlock | waitPairing | wakePairing =>
    exact hs.quiet rfl (fun _ => rfl) (List.append_nil _).symm (by simp) (by simp)

theorem reported (h : Reaches step guard (start p) s) : Reported s :=
  h.invariant ⟨rfl, fun _ => rfl⟩ fun _ _ _ hs _ h => reported_moved hs (moved_of_step h).2

/-- The flag is set exactly after a callback has set it. -/
theorem listed (h : Reaches step guard (start p) s) :
    s.pairing.data = true ↔ Listed s.trace := by
  unfold Listed
  refine h.invariant (P := fun s => s.pairing.data = true ↔ ∃ t, .listed t ∈ s.trace) ?_ ?_
  · simp [start, CondVar.State.initial]
  · intro s s' m hs _ h
    cases (moved_of_step h).2 with
    | @pairingCallback t c _ hc =>
      rw [CondVar.data_moved (CondVar.moved_of_step hc), CondVar.State.dataAfter]
      unfold listedBy
      rcases (s.pairing.poster t).posts_cases with hposts | ⟨x, hposts, -⟩
      · simpa [hposts] using hs
      · simp [hposts, listFlag]
    | waitPairing _ hm hc =>
      rw [CondVar.data_of_thread (CondVar.moved_of_step hc) hm.thread]
      exact hs
    | list _ _ hc | unlock _ hc | wakePairing hc =>
      rw [CondVar.data_moved (CondVar.moved_of_step hc)]
      exact hs
    | statusCallback => simpa [reportedBy] using hs
    | report | foundStatus | foundPairing | call => simpa [Test.perform] using hs
    | waitStatus | wakeStatus | expire => exact hs

/-- A wait for a status looks for what was reported. -/
theorem ready_iff_told (hs : Reported s) {code : ConnectionStatusEnum} :
    statuses.ready code s.status.data = true ↔ Told code s.trace := by
  rw [hs.data]
  constructor
  · intro hready
    obtain ⟨status, hstatus, heq⟩ := List.any_eq_true.1 hready
    obtain ⟨e, he, hreported⟩ := List.mem_filterMap.1 hstatus
    cases e with
    | reported t status' =>
      obtain rfl := Option.some.inj hreported
      exact ⟨t, status'.context, by rwa [← of_decide_eq_true heq]⟩
    | did | invoked | listed => cases hreported
  · rintro ⟨t, context, he⟩
    have hmem : (⟨code, context⟩ : ConnectionStatus) ∈ reports s.trace :=
      List.mem_filterMap.2 ⟨_, he, rfl⟩
    exact List.any_eq_true.2 ⟨_, hmem, decide_eq_true rfl⟩

/-- What was reported before the program goes past a wait. -/
def Backed (pre : List (TestEvent τ)) : (i : Act) → Ans i → Prop
  | .awaitStatus code, found => found = true ∧ Told code pre
  | .awaitPairing, called => called = true ∧ Listed pre
  | _, _ => True

theorem backed_of_answered (h : Reaches step guard (start p) s) {i : Act} {a : Ans i}
    {k : Ans i → Code Unit} (hcode : s.code = .act i k) (ha : Answered s i a) :
    Backed s.trace i a := by
  cases i with
  | awaitStatus code =>
    obtain ⟨rfl, code', hw⟩ := ha
    obtain ⟨k', hcode'⟩ := (placed h).status code' (by rw [hw]; rfl)
    rw [hcode] at hcode'
    obtain rfl := Act.awaitStatus.inj (Prog.act.inj hcode').1
    have hready := CondVar.ready_of_reaches (status_reaches h) hw
    exact ⟨rfl, (ready_iff_told (reported h)).1 hready⟩
  | awaitPairing =>
    obtain ⟨rfl, hw⟩ := ha
    have hready := CondVar.ready_of_reaches (pairing_reaches h) hw
    exact ⟨hready, (listed h).1 hready⟩
  | _ => trivial

theorem backed (h : Reaches step guard (start p) s) : ∀ {pre post : List (TestEvent τ)} {i : Act}
    {a : Ans i}, s.trace = pre ++ .did ⟨i, a⟩ :: post → Backed pre i a := by
  induction h with
  | start =>
    intro pre post i a htrace
    simp [start] at htrace
  | @move s s' m h hg hs ih =>
    intro pre post i a htrace
    rcases happens_moved (moved_of_step hs).2 with ⟨-, hsame⟩ | ⟨e, hsnoc, he⟩
    · exact ih (hsame ▸ htrace)
    · rw [hsnoc] at htrace
      rcases snoc_split htrace with ⟨rfl, rfl⟩ | ⟨post', htrace⟩
      · obtain ⟨k, hcode, ha, -⟩ := he
        exact backed_of_answered h hcode ha
      · exact ih htrace

end Runs

/-! ## The order of the calls -/

/-- What a test has done before it performs an action. -/
def Allowed (es : List (Event Act Ans)) : Event Act Ans → Prop
  | ⟨.enterPairingMode, _⟩ => ∃ found, ⟨.awaitStatus .driverConnected, found⟩ ∈ es
  | ⟨.getPairingList, _⟩ => ⟨.enterPairingMode, ()⟩ ∈ es ∧ ∃ called, ⟨.awaitPairing, called⟩ ∈ es
  | ⟨.pairTo name, _⟩ => ∃ rest, ⟨.getPairingList, name :: rest⟩ ∈ es
  | ⟨.reconfigure _, _⟩ =>
    (∃ name, ⟨.pairTo name, ()⟩ ∈ es) ∧ ∃ found, ⟨.awaitStatus .connected, found⟩ ∈ es
  | ⟨.getConnectedList, _⟩ =>
    (∃ config, ⟨.reconfigure config, ()⟩ ∈ es) ∧ ∃ found, ⟨.awaitStatus .reconfigured, found⟩ ∈ es
  | ⟨.expect b, _⟩ => b = false →
    (∃ config, ⟨.init config, false⟩ ∈ es) ∨ ⟨.getPairingList, []⟩ ∈ es ∨
      ⟨.getConnectedList, []⟩ ∈ es ∨ (∃ code, ⟨.awaitStatus code, false⟩ ∈ es) ∨
      ⟨.awaitPairing, false⟩ ∈ es
  | _ => True

/-- What a test has done when it returns. -/
def Ended (es : List (Event Act Ans)) (_ : Unit) : Prop :=
  (∃ code, ⟨.awaitStatus code, false⟩ ∈ es) ∨
    (∃ found, ⟨.awaitStatus .driverConnected, found⟩ ∈ es) ∧
      (⟨.getPairingList, []⟩ ∈ es ∨ (∃ found, ⟨.awaitStatus .connected, found⟩ ∈ es) ∧
        (⟨.enterPairingMode, ()⟩ ∈ es → ∃ found, ⟨.awaitStatus .reconfigured, found⟩ ∈ es))

def tests (config newConfig : Str) : List (Code Unit) :=
  [Master.testPairConnectReconfigure config newConfig, Master.testAutoconnect config,
    Slave.testPairConnectReconfigure config, Slave.testAutoconnect config]

section Obeys

variable {es : List (Event Act Ans)} {code : ConnectionStatusEnum} {config newConfig : Str}

/-- A wait whose `EXPECT` can fail only without the wait having succeeded. -/
theorem obeys_await {rest : Bool → Code Unit}
    (h : ∀ found, Prog.Obeys Allowed Ended
      (es ++ [⟨.awaitStatus code, found⟩, ⟨.expect found, ()⟩]) (rest found)) :
    Prog.Obeys Allowed Ended es (do
      let found ← Sample.perform (.awaitStatus code)
      Sample.perform (.expect found)
      rest found) := by
  intro found
  refine ⟨trivial, fun _ => ⟨?_, ?_⟩⟩
  · rintro rfl
    exact .inr (.inr (.inr (.inl ⟨code, by simp⟩)))
  · rw [List.append_assoc]
    exact h found

/-- A wait after which the test returns if it did not succeed. -/
theorem obeys_await_or_return {rest : Code Unit}
    (h : Prog.Obeys Allowed Ended (es ++ [⟨.awaitStatus code, true⟩, ⟨.expect true, ()⟩]) rest) :
    Prog.Obeys Allowed Ended es (do
      let found ← Sample.perform (.awaitStatus code)
      Sample.perform (.expect found)
      if !found then
        return
      rest) := by
  refine obeys_await fun found => ?_
  cases found with
  | false => exact .inl ⟨code, by simp⟩
  | true => exact h

theorem obeys_init {rest : Code Unit}
    (h : ∀ res, Prog.Obeys Allowed Ended (es ++ [⟨.init config, res⟩, ⟨.expect res, ()⟩]) rest) :
    Prog.Obeys Allowed Ended es (do
      let res ← Sample.perform (.init config)
      Sample.perform (.expect res)
      rest) := by
  intro res
  refine ⟨trivial, fun _ => ⟨?_, ?_⟩⟩
  · rintro rfl
    exact .inl ⟨config, by simp⟩
  · rw [List.append_assoc]
    exact h res

/-- The last wait of a test. -/
theorem obeys_await_last
    (h : ∀ found, Ended (es ++ [⟨.awaitStatus code, found⟩, ⟨.expect found, ()⟩]) ()) :
    Prog.Obeys Allowed Ended es (do
      let found ← Sample.perform (.awaitStatus code)
      Sample.perform (.expect found)) :=
  @obeys_await es code (fun _ => pure ()) h

theorem obeys_pairToFirst (newConfig : Str) {pairingList : List Str}
    (hfound : ∃ found, (⟨.awaitStatus .driverConnected, found⟩ : Event Act Ans) ∈ es)
    (hlist : (⟨.getPairingList, pairingList⟩ : Event Act Ans) ∈ es) :
    Prog.Obeys Allowed Ended es (pairToFirst newConfig pairingList) := by
  obtain ⟨found, hfound⟩ := hfound
  rcases pairingList with _ | ⟨vehicle, rest⟩
  · exact .inr ⟨⟨found, hfound⟩, .inl hlist⟩
  · refine fun _ => ⟨⟨rest, hlist⟩, obeys_await_or_return ?_⟩
    refine fun _ => ⟨⟨⟨vehicle, by simp⟩, true, by simp⟩, obeys_await fun found' => ?_⟩
    refine fun connectedList => ⟨⟨⟨newConfig, by simp⟩, found', by simp⟩, fun _ => ⟨?_, ?_⟩⟩
    · intro hempty
      have hnil : connectedList = [] := by simpa using hempty
      exact .inr (.inr (.inl (by simp [hnil])))
    · refine .inr ⟨⟨found, by simp [hfound]⟩, .inr ⟨⟨true, by simp⟩, fun _ => ⟨found', by simp⟩⟩⟩

theorem obeys_tests {p : Code Unit} (hp : p ∈ tests config newConfig) :
    Prog.Obeys Allowed Ended [] p := by
  simp only [tests, List.mem_cons, List.not_mem_nil, or_false] at hp
  rcases hp with rfl | rfl | rfl | rfl
  · refine fun _ => ⟨trivial, fun _ => ⟨trivial, fun _ => ⟨trivial, obeys_init fun res => ?_⟩⟩⟩
    refine obeys_await_or_return fun _ => ⟨⟨true, by simp⟩, fun called => ⟨trivial, fun _ => ?_⟩⟩
    refine ⟨?_, fun pairingList => ⟨⟨by simp, called, by simp⟩, fun _ => ⟨?_, ?_⟩⟩⟩
    · rintro rfl
      exact .inr (.inr (.inr (.inr (by simp))))
    · intro hempty
      have hnil : pairingList = [] := by simpa using hempty
      exact .inr (.inl (by simp [hnil]))
    · exact obeys_pairToFirst newConfig ⟨true, by simp⟩ (by simp)
  · refine fun _ => ⟨trivial, fun _ => ⟨trivial, obeys_init fun res => ?_⟩⟩
    refine obeys_await_or_return (obeys_await_last fun found => ?_)
    exact .inr ⟨⟨true, by simp⟩, .inr ⟨⟨found, by simp⟩, by simp⟩⟩
  · refine fun _ => ⟨trivial, obeys_init fun res => ?_⟩
    refine obeys_await_or_return fun _ => ⟨⟨true, by simp⟩, obeys_await_or_return ?_⟩
    refine obeys_await_last fun found => ?_
    exact .inr ⟨⟨true, by simp⟩, .inr ⟨⟨true, by simp⟩, fun _ => ⟨found, by simp⟩⟩⟩
  · refine fun _ => ⟨trivial, obeys_init fun res => ?_⟩
    refine obeys_await_or_return (obeys_await_last fun found => ?_)
    exact .inr ⟨⟨true, by simp⟩, .inr ⟨⟨found, by simp⟩, by simp⟩⟩

end Obeys

omit [DecidableEq τ] in
theorem mem_did {e : Event Act Ans} {tr : List (TestEvent τ)} : e ∈ did tr ↔ .did e ∈ tr := by
  unfold did
  rw [List.mem_filterMap]
  constructor
  · rintro ⟨e', he', h⟩
    cases e' with
    | did e' => rwa [Option.some.inj h] at he'
    | invoked | reported | listed => cases h
  · exact fun h => ⟨_, h, rfl⟩

def Done (i : Act) (a : Ans i) (tr : List (TestEvent τ)) : Prop := .did ⟨i, a⟩ ∈ tr

/-- `P` says what has happened whenever the test performs the action. -/
def After (i : Act) (P : Ans i → List (TestEvent τ) → Prop) (tr : List (TestEvent τ)) : Prop :=
  ∀ a pre post, tr = pre ++ .did ⟨i, a⟩ :: post → P a pre

section Runs

variable {guard : Test τ → TestMove τ → Prop} {p : Code Unit} {pre rest : List (TestEvent τ)}

theorem told_of_awaited (h : Reaches step guard (start p) s) (htrace : s.trace = pre ++ rest)
    {code : ConnectionStatusEnum} {found : Bool} (he : ⟨.awaitStatus code, found⟩ ∈ did pre) :
    found = true ∧ Told code pre := by
  obtain ⟨pre₁, pre₂, rfl⟩ := List.append_of_mem (mem_did.1 he)
  rw [List.append_assoc, List.cons_append] at htrace
  obtain ⟨hfound, t, context, hreported⟩ := backed h htrace
  exact ⟨hfound, t, context, List.mem_append_left _ hreported⟩

theorem listed_of_awaited (h : Reaches step guard (start p) s) (htrace : s.trace = pre ++ rest)
    {called : Bool} (he : ⟨.awaitPairing, called⟩ ∈ did pre) :
    called = true ∧ Listed pre := by
  obtain ⟨pre₁, pre₂, rfl⟩ := List.append_of_mem (mem_did.1 he)
  rw [List.append_assoc, List.cons_append] at htrace
  obtain ⟨hcalled, t, hlisted⟩ := backed h htrace
  exact ⟨hcalled, t, List.mem_append_left _ hlisted⟩

theorem allowed_of_reaches {config newConfig : Str} (hp : p ∈ tests config newConfig)
    (h : Reaches step guard (start p) s) {e : Event Act Ans} {post : List (TestEvent τ)}
    (htrace : s.trace = pre ++ .did e :: post) : Allowed (did pre) e := by
  obtain ⟨-, hall⟩ := (obeys_tests hp).steps (follows h)
  refine hall (did pre) e (did post) ?_
  rw [htrace, did_append]
  rfl

theorem ended_of_returned {config newConfig : Str} (hp : p ∈ tests config newConfig)
    (h : Reaches step guard (start p) s) (hret : s.returned = true) : Ended (did s.trace) () := by
  obtain ⟨hobeys, -⟩ := (obeys_tests hp).steps (follows h)
  unfold returned at hret
  split at hret
  · rename_i hcode _
    rw [hcode] at hobeys
    exact hobeys
  · cases hret

/-- The pairing mode is entered after a driver was reported connected, the pairing list is asked
for after that and after it was reported to have changed, and the test pairs to its first vehicle;
it reconfigures that once it was reported connected, and asks for the connected vehicles once it
was reported reconfigured. An `EXPECT` fails only for what the library answered. -/
theorem calls_order {config newConfig : Str} (hp : p ∈ tests config newConfig)
    (h : Reaches step guard (start p) s) :
    After .enterPairingMode (fun _ pre => Told .driverConnected pre) s.trace ∧
    After .getPairingList (fun _ pre => Done .enterPairingMode () pre ∧ Listed pre) s.trace ∧
    (∀ name, After (.pairTo name)
      (fun _ pre => ∃ others, Done .getPairingList (name :: others) pre) s.trace) ∧
    (∀ c, After (.reconfigure c)
      (fun _ pre => (∃ name, Done (.pairTo name) () pre) ∧ Told .connected pre) s.trace) ∧
    After .getConnectedList
      (fun _ pre => (∃ c, Done (.reconfigure c) () pre) ∧ Told .reconfigured pre) s.trace ∧
    After (.expect false) (fun _ pre => (∃ c, Done (.init c) false pre) ∨
      Done .getPairingList [] pre ∨ Done .getConnectedList [] pre) s.trace ∧
    (s.returned = true → Told .driverConnected s.trace ∧
      (Done .getPairingList [] s.trace ∨ Told .connected s.trace ∧
        (Done .enterPairingMode () s.trace → Told .reconfigured s.trace))) := by
  refine ⟨?_, ?_, ?_, ?_, ?_, ?_, ?_⟩
  · intro a pre post htrace
    obtain ⟨found, hfound⟩ := allowed_of_reaches hp h htrace
    exact (told_of_awaited h htrace hfound).2
  · intro pairingList pre post htrace
    obtain ⟨henter, called, hcalled⟩ := allowed_of_reaches hp h htrace
    exact ⟨mem_did.1 henter, (listed_of_awaited h htrace hcalled).2⟩
  · intro name a pre post htrace
    obtain ⟨others, hlist⟩ := allowed_of_reaches hp h htrace
    exact ⟨others, mem_did.1 hlist⟩
  · intro c a pre post htrace
    obtain ⟨⟨name, hname⟩, found, hfound⟩ := allowed_of_reaches hp h htrace
    exact ⟨⟨name, mem_did.1 hname⟩, (told_of_awaited h htrace hfound).2⟩
  · intro connectedList pre post htrace
    obtain ⟨⟨c, hc⟩, found, hfound⟩ := allowed_of_reaches hp h htrace
    exact ⟨⟨c, mem_did.1 hc⟩, (told_of_awaited h htrace hfound).2⟩
  · intro a pre post htrace
    have hallowed := allowed_of_reaches hp h htrace rfl
    rcases hallowed with ⟨c, hc⟩ | hlist | hlist | ⟨code, hcode⟩ | hcalled
    · exact .inl ⟨c, mem_did.1 hc⟩
    · exact .inr (.inl (mem_did.1 hlist))
    · exact .inr (.inr (mem_did.1 hlist))
    · cases (told_of_awaited h htrace hcode).1
    · cases (listed_of_awaited h htrace hcalled).1
  · intro hret
    have htold : ∀ {code : ConnectionStatusEnum} {found : Bool},
        ⟨.awaitStatus code, found⟩ ∈ did s.trace → found = true ∧ Told code s.trace := fun he =>
      told_of_awaited h (List.append_nil _).symm he
    rcases ended_of_returned hp h hret with ⟨code, hcode⟩ | ⟨⟨found, hfound⟩, hend⟩
    · cases (htold hcode).1
    · refine ⟨(htold hfound).2, ?_⟩
      rcases hend with hlist | ⟨⟨found', hfound'⟩, hrec⟩
      · exact .inl (mem_did.1 hlist)
      · refine .inr ⟨(htold hfound').2, fun henter => ?_⟩
        obtain ⟨found'', hfound''⟩ := hrec (mem_did.2 henter)
        exact (htold hfound'').2

/-- `status_list` is what was reported, in the order of the reports. No invocation of the callback
is lost and none is reported twice: those of a thread are its reports, in their order, but for the
one that the thread is in. -/
theorem statuses_of_reports (h : Reaches step guard (start p) s) :
    s.status.data = reports s.trace ∧ ∀ t,
      invocationsOf t s.trace = reportsOf t s.trace ++ (s.status.poster t).pending ∧
      (invocationsOf t s.trace).length ≤ (reportsOf t s.trace).length + 1 ∧
      (s.Free t → invocationsOf t s.trace = reportsOf t s.trace) := by
  obtain ⟨hdata, hthread⟩ := reported h
  refine ⟨hdata, fun t => ⟨hthread t, ?_, ?_⟩⟩
  · have hone : (s.status.poster t).pending.length ≤ 1 := by
      cases s.status.poster t <;> simp [CondVar.PostPc.pending]
    rw [hthread t, List.length_append]
    omega
  · rintro ⟨hidle, -⟩
    rw [hthread t, hidle]
    exact List.append_nil _

end Runs

/-! ## A run of the master -/

/-- The program goes on `n` times, and the library answers `list` when it is asked. -/
def goesOn (list : List Str) (n : ℕ) : List (TestMove τ) := List.replicate n (.program ⟨true, list⟩)

def inCallback (t : τ) (n : ℕ) : List (TestMove τ) := List.replicate n (.callback t)

/-- The program sleeps in a wait, a thread of the library ends it, and the program goes on. -/
def waited (told : TestMove Unit) : List (TestMove Unit) :=
  goesOn [] 3 ++ told :: inCallback () 5 ++ goesOn [] 3

/-- A vehicle is paired, connected and reconfigured. -/
def masterRun (vehicle : Str) : List (TestMove Unit) :=
  goesOn [] 5 ++ waited (.report () ⟨.driverConnected, []⟩) ++ goesOn [] 2 ++ waited (.list ()) ++
  goesOn [vehicle] 4 ++ waited (.report () ⟨.connected, []⟩) ++ goesOn [] 2 ++
  waited (.report () ⟨.reconfigured, []⟩) ++ goesOn [vehicle] 4

theorem masterRun_played : ∃ s : Test Unit,
    Reaches step always (start (Master.testPairConnectReconfigure [] [])) s ∧
      s.returned = true ∧ s.status.data.length = 3 := by
  obtain ⟨s, hplay, hs⟩ : ∃ s : Test Unit,
      playAll step always (start (Master.testPairConnectReconfigure [] [])) (masterRun [65]) =
        some s ∧ s.returned = true ∧ s.status.data.length = 3 := ⟨_, rfl, rfl, rfl⟩
  exact ⟨s, reaches_playAll .start hplay, hs⟩

theorem calls_order_master : ∃ s : Test Unit,
    Reaches step always (start (Master.testPairConnectReconfigure [] [])) s ∧
      s.returned = true ∧ Told .driverConnected s.trace := by
  obtain ⟨s, hreach, hret, -⟩ := masterRun_played
  have hp : Master.testPairConnectReconfigure [] [] ∈ tests [] [] := List.mem_cons_self
  obtain ⟨-, -, -, -, -, -, hend⟩ := calls_order hp hreach
  exact ⟨s, hreach, hret, (hend hret).1⟩

theorem statuses_of_reports_master : ∃ s : Test Unit,
    Reaches step always (start (Master.testPairConnectReconfigure [] [])) s ∧
      s.status.data.length = 3 ∧ s.status.data = reports s.trace := by
  obtain ⟨s, hreach, -, hdata⟩ := masterRun_played
  exact ⟨s, hreach, hdata, (statuses_of_reports hreach).1⟩

end Test

end Sample

end PairingV2
