import PairingV2.Lib.Monitor

/-!
# Runs that end

Steps that lower a rank cannot go on for ever, nor can steps each of which lowers one of finitely
many ranks and leaves the others. A program gets lower with each action, whatever the answer is, so
finitely many threads come to an end (`threads_end`), and where calls under one lock cannot go on,
all of them have returned (`monitor_rest`).
-/

namespace PairingV2

universe u v w

/-- The program that is left after an action is below the one before it. -/
def Prog.Below {ι : Type u} {ο : ι → Type v} {ρ : Type w} (q p : Prog ι ο ρ) : Prop :=
  ∃ i k a, p = .act i k ∧ q = k a

theorem Prog.wellFounded_below {ι : Type u} {ο : ι → Type v} {ρ : Type w} :
    WellFounded (Below : Prog ι ο ρ → Prog ι ο ρ → Prop) := by
  refine ⟨fun p => ?_⟩
  induction p with
  | ret r =>
    refine ⟨_, ?_⟩
    rintro q ⟨i, k, a, hp, -⟩
    cases hp
  | act i k ih =>
    refine ⟨_, ?_⟩
    rintro q ⟨j, l, a, hp, rfl⟩
    cases hp
    exact ih a

section Steps

variable {S : Type*} {α : Type*} {r : α → α → Prop} {step : S → S → Prop}

theorem not_endless (hr : WellFounded r) (rank : S → α)
    (hstep : ∀ s s', step s s' → r (rank s') (rank s)) :
    ¬ ∃ f : ℕ → S, ∀ n, step (f n) (f (n + 1)) := by
  rintro ⟨f, hf⟩
  have : IsWellFounded α r := ⟨hr⟩
  obtain ⟨n, hn⟩ := WellFounded.not_rel_apply_succ (r := r) fun n => rank (f n)
  exact hn (hstep _ _ (hf n))

theorem not_endless_of_component {ι : Type*} [Finite ι] (hr : WellFounded r) (rank : S → ι → α)
    (hstep : ∀ s s', step s s' → ∃ i, r (rank s' i) (rank s i) ∧
      ∀ j, j ≠ i → rank s' j = rank s j) : ¬ ∃ f : ℕ → S, ∀ n, step (f n) (f (n + 1)) := by
  have : IsWellFounded α r := ⟨hr⟩
  have hlt : WellFounded ((· < ·) : (ι → Ordinal) → (ι → Ordinal) → Prop) := wellFounded_lt
  refine not_endless hlt (fun s i => IsWellFounded.rank r (rank s i)) fun s s' h => ?_
  obtain ⟨i, hi, hothers⟩ := hstep s s' h
  have hlow := IsWellFounded.rank_lt_of_rel hi
  refine Pi.lt_def.2 ⟨fun j => ?_, i, hlow⟩
  by_cases hj : j = i
  · rw [hj]
    exact hlow.le
  · exact (congrArg (IsWellFounded.rank r) (hothers j hj)).le

end Steps

/-! ## Threads -/

/-- A call that goes on gets lower, and one that has returned is lowest. -/
def Lower {ι : Type u} {ο : ι → Type v} {ρ : Type w} (q p : Option (Prog ι ο ρ)) : Prop :=
  ∃ p', p = some p' ∧ ∀ q', q = some q' → Prog.Below q' p'

theorem wellFounded_lower {ι : Type u} {ο : ι → Type v} {ρ : Type w} :
    WellFounded (Lower : Option (Prog ι ο ρ) → Option (Prog ι ο ρ) → Prop) := by
  have hnone : Acc Lower (none : Option (Prog ι ο ρ)) := by
    refine ⟨_, ?_⟩
    rintro q ⟨p', hp', -⟩
    cases hp'
  refine ⟨fun p => ?_⟩
  rcases p with _ | p
  · exact hnone
  · induction p using Prog.wellFounded_below.induction with
    | _ p ih =>
      refine ⟨_, ?_⟩
      rintro q ⟨p', hp', hq⟩
      obtain rfl := Option.some.inj hp'
      rcases q with _ | q
      · exact hnone
      · exact ih q (hq q rfl)

section Threads

variable {τ κ ι : Type u} {ο : ι → Type v} {ρ : Type w} {S : Type*}

/-- What a thread has left: calls to make, and the rest of the one it is in. -/
def Thread.left (th : Thread κ ι ο ρ) : ℕ × Option (Prog ι ο ρ) :=
  (th.todo.length, th.cur.map Running.rest)

variable [DecidableEq τ] {prog : κ → Prog ι ο ρ} {sem : τ → (i : ι) → S → ο i → S → Prop}
  {c c' : Config τ κ ι ο ρ S}

theorem Config.step_left {t : τ} {e : Event ι ο} (h : Config.Step prog sem c t e c') :
    Prod.Lex (· < ·) Lower (c'.thread t).left (c.thread t).left ∧
      ∀ u, u ≠ t → (c'.thread u).left = (c.thread u).left := by
  obtain ⟨call, evs, i, k, todo, a, hh, -, -, -, hd⟩ := Config.step_cases h
  refine ⟨?_, ?_⟩
  · rcases Config.head_cases hh with ⟨hcur, htodo⟩ | ⟨hcur, htodo, -, -⟩
    · have hrest : (c.thread t).left = (todo.length, some (.act i k)) := by
        rw [Thread.left, hcur, htodo]
        rfl
      rw [hrest]
      rcases hd with ⟨v, -, -, hthread⟩ | ⟨-, -, hthread⟩
      · rw [hthread, Function.update_self]
        exact .right _ ⟨_, rfl, nofun⟩
      · rw [hthread, Function.update_self]
        refine .right _ ⟨_, rfl, ?_⟩
        intro q hq
        exact ⟨i, k, a, rfl, (Option.some.inj hq).symm⟩
    · have hlt : ∀ cur : Option (Running κ ι ο ρ),
          Prod.Lex (· < ·) Lower (Thread.left ⟨todo, cur⟩) (c.thread t).left := by
        intro cur
        refine .left _ _ ?_
        rw [htodo]
        exact Nat.lt_succ_self _
      rcases hd with ⟨v, -, -, hthread⟩ | ⟨-, -, hthread⟩ <;> rw [hthread, Function.update_self] <;>
        exact hlt _
  · intro u hu
    rcases hd with ⟨v, -, -, hthread⟩ | ⟨-, -, hthread⟩ <;> rw [hthread, Function.update_of_ne hu]

/-- Finitely many threads do not go on for ever. -/
theorem threads_end [Finite τ] (prog : κ → Prog ι ο ρ) (sem : τ → (i : ι) → S → ο i → S → Prop) :
    ¬ ∃ f : ℕ → Config τ κ ι ο ρ S, ∀ n, ∃ t e, Config.Step prog sem (f n) t e (f (n + 1)) := by
  have hr : WellFounded (Prod.Lex (· < ·) Lower :
      ℕ × Option (Prog ι ο ρ) → ℕ × Option (Prog ι ο ρ) → Prop) :=
    wellFounded_lt.prod_lex wellFounded_lower
  have hlower : ∀ c c' : Config τ κ ι ο ρ S, (∃ t e, Config.Step prog sem c t e c') →
      ∃ t, Prod.Lex (· < ·) Lower (c'.thread t).left (c.thread t).left ∧
        ∀ u, u ≠ t → (c'.thread u).left = (c.thread u).left := by
    rintro c c' ⟨t, e, h⟩
    exact ⟨t, Config.step_left h⟩
  exact not_endless_of_component hr (fun (c : Config τ κ ι ο ρ S) t => (c.thread t).left) hlower

end Threads

section Monitor

variable {τ κ ι : Type u} {ο : ι → Type v} {ρ : Type w} {S : Type*} [DecidableEq τ]
  {body : κ → Prog ι ο ρ} {sem : (i : ι) → S → ο i → S → Prop} {s₀ : S}
  {c : Config τ κ (LockAct ι) (LockAns ο) ρ (Locked τ S)}

/-- Where every action of a body has an answer and no thread can go on, no call is under way or
still to be made. -/
theorem monitor_rest (hsem : ∀ i s, ∃ a s', sem i s a s') (hinv : MonitorInv body sem s₀ c)
    (h : ∀ t e c', ¬ Config.Step (fun call => (body call).lockGuard) (lockSem sem) c t e c') :
    (∃ s, Serial body sem s₀ c.done s ∧ c.shared = ⟨none, s⟩) ∧
      ∀ t, (c.thread t).cur = none ∧ (c.thread t).todo = [] := by
  have hstuck : ∀ t i a s, c.pending (fun call => (body call).lockGuard) t = some i →
      ¬ lockSem sem t i c.shared a s := by
    intro t i a s hpending hs
    obtain ⟨c', hstep⟩ := Config.step_of_pending hpending hs
    exact h t _ c' hstep
  rcases hinv with ⟨serial, shared, idle, -⟩ |
    @⟨s, t, call, es, rest, serial, owner, cur, steps, idle, trace⟩
  · refine ⟨⟨_, serial, shared⟩, fun t => ⟨idle t, ?_⟩⟩
    rcases htodo : (c.thread t).todo with _ | ⟨call, todo⟩
    · rfl
    · have hpending : c.pending (fun call => (body call).lockGuard) t = some .acquire := by
        simp [Config.pending, Thread.head, idle t, htodo, Prog.lockGuard]
      exact absurd ⟨by rw [shared], rfl⟩ (hstuck t .acquire PUnit.unit _ hpending)
  · rcases rest with v | ⟨i, k⟩
    · have hpending : c.pending (fun call => (body call).lockGuard) t = some .release := by
        simp [Config.pending, Thread.head, cur, Prog.unlockAfter]
      exact absurd rfl (hstuck t .release PUnit.unit _ hpending)
    · have hpending : c.pending (fun call => (body call).lockGuard) t = some (.body i) := by
        simp [Config.pending, Thread.head, cur, Prog.unlockAfter]
      obtain ⟨a, s', ha⟩ := hsem i c.shared.val
      exact absurd ⟨s', ha, rfl⟩ (hstuck t (.body i) a _ hpending)

end Monitor

end PairingV2
