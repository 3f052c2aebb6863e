import PairingV2.Lib.Moves

/-!
# Condition variables

Data under a mutex with a condition variable: posters change the data under the mutex, let it go
and notify, and one waiter goes to sleep on the variable until the data are ready for it. What the
waiter looks for may differ from wait to wait. A wait may have a deadline: it then looks a last
time when it is over, and starts again if the data are still not ready.

A waiter is never left asleep on data that are ready (`wakeable_of_reaches`), and the two sides
come to rest by themselves, the waiter past its wait unless the data are not ready (`rest`).
-/

namespace PairingV2

namespace CondVar

/-- What is guarded: posting `x` is left out where it `skips`, and changes the data otherwise;
`ready` says when the wait `k` is over. -/
structure Guarded (X K D : Type*) where
  skips : X → D → Bool
  change : X → D → D
  ready : K → D → Bool

/-- Where a poster is. -/
inductive PostPc (X : Type*) where
  | idle
  | test (x : X)
  | acquire (x : X)
  | change (x : X)
  | release
  | notify
  deriving DecidableEq

/-- Where the waiter is. It has the mutex where it looks at the data, and once it is `inside`. -/
inductive WaitPc (K : Type*) where
  | outside
  | lock (k : K)
  | check (k : K)
  | waiting (k : K)
  | woken (k : K)
  | expired (k : K)
  | recheck (k : K)
  | again (k : K)
  | inside (k : K)
  deriving DecidableEq

inductive Holder (τ : Type*) where
  | waiter
  | poster (t : τ)
  deriving DecidableEq

variable {τ X K D : Type*}

/-- What the next move of a poster posts. -/
def PostPc.posts : PostPc X → List X
  | .change x => [x]
  | .idle | .test _ | .acquire _ | .release | .notify => []

theorem PostPc.posts_cases (pc : PostPc X) :
    pc.posts = [] ∨ ∃ x, pc.posts = [x] ∧ pc = .change x := by
  cases pc with
  | change x => exact .inr ⟨x, rfl, rfl⟩
  | _ => exact .inl rfl

def PostPc.holds : PostPc X → Bool
  | .change _ | .release => true
  | .idle | .test _ | .acquire _ | .notify => false

def WaitPc.holds : WaitPc K → Bool
  | .check _ | .recheck _ | .again _ | .inside _ => true
  | .outside | .lock _ | .waiting _ | .woken _ | .expired _ => false

/-- The wait that the waiter is in, up to its end. -/
def WaitPc.wait : WaitPc K → Option K
  | .outside => none
  | .lock k | .check k | .waiting k | .woken k | .expired k | .recheck k | .again k | .inside k =>
    some k

structure State (τ X K D : Type*) where
  poster : τ → PostPc X
  waiter : WaitPc K
  owner : Option (Holder τ)
  data : D

/-- A poster begins or goes on, the waiter begins a wait, goes on in it or ends what it does with
the mutex, it wakes up without having been notified, and the deadline of its wait passes. -/
inductive Move (τ X K : Type*) where
  | post (t : τ) (x : X)
  | poster (t : τ)
  | wait (k : K)
  | waiter
  | leave
  | wake
  | expire
  deriving DecidableEq

namespace State

def initial (d : D) : State τ X K D := ⟨fun _ => .idle, .outside, none, d⟩

variable [DecidableEq τ]

def goto (s : State τ X K D) (t : τ) (pc : PostPc X) : State τ X K D :=
  { s with poster := Function.update s.poster t pc }

theorem goto_poster (s : State τ X K D) (t u : τ) (pc : PostPc X) :
    (s.goto t pc).poster u = if u = t then pc else s.poster u :=
  Function.update_apply _ _ _ _

@[simp] theorem goto_waiter (s : State τ X K D) (t : τ) (pc : PostPc X) :
    (s.goto t pc).waiter = s.waiter := rfl

@[simp] theorem goto_owner (s : State τ X K D) (t : τ) (pc : PostPc X) :
    (s.goto t pc).owner = s.owner := rfl

@[simp] theorem goto_data (s : State τ X K D) (t : τ) (pc : PostPc X) :
    (s.goto t pc).data = s.data := rfl

/-- `notify_one`: there is one waiter. -/
def notified : WaitPc K → WaitPc K
  | .waiting k => .woken k
  | w => w

variable (G : Guarded X K D)

def posterStep (s : State τ X K D) (t : τ) : Option (State τ X K D) :=
  match s.poster t with
  | .idle => none
  | .test x => some (s.goto t (if G.skips x s.data then .idle else .acquire x))
  | .acquire x =>
    if s.owner = none then some { s.goto t (.change x) with owner := some (.poster t) } else none
  | .change x => some { s.goto t .release with data := G.change x s.data }
  | .release => some { s.goto t .notify with owner := none }
  | .notify => some { s.goto t .idle with waiter := notified s.waiter }

def waiterStep (s : State τ X K D) : Option (State τ X K D) :=
  match s.waiter with
  | .lock k =>
    if s.owner = none then some { s with waiter := .check k, owner := some .waiter } else none
  | .woken k =>
    if s.owner = none then some { s with waiter := .check k, owner := some .waiter } else none
  | .check k =>
    if G.ready k s.data then some { s with waiter := .inside k }
    else some { s with waiter := .waiting k, owner := none }
  | .expired k =>
    if s.owner = none then some { s with waiter := .recheck k, owner := some .waiter } else none
  | .recheck k => some { s with waiter := if G.ready k s.data then .inside k else .again k }
  | .again k => some { s with waiter := .lock k, owner := none }
  | .outside | .waiting _ | .inside _ => none

def step (s : State τ X K D) : Move τ X K → Option (State τ X K D)
  | .post t x => match s.poster t with
    | .idle => some (s.goto t (.test x))
    | _ => none
  | .poster t => s.posterStep G t
  | .wait k => match s.waiter with
    | .outside => some { s with waiter := .lock k }
    | _ => none
  | .waiter => s.waiterStep G
  | .leave => match s.waiter with
    | .inside _ => some { s with waiter := .outside, owner := none }
    | _ => none
  | .wake => match s.waiter with
    | .waiting k => some { s with waiter := .woken k }
    | _ => none
  | .expire => match s.waiter with
    | .waiting k => some { s with waiter := .expired k }
    | _ => none

end State

open State

variable {G : Guarded X K D} {s s' : State τ X K D} {m : Move τ X K}

/-! ## What a move does -/

inductive Moved [DecidableEq τ] (G : Guarded X K D) (s : State τ X K D) :
    Move τ X K → State τ X K D → Prop where
  | post {t : τ} (x : X) (h : s.poster t = .idle) : Moved G s (.post t x) (s.goto t (.test x))
  | skip {t : τ} {x : X} (h : s.poster t = .test x) (hx : G.skips x s.data = true) :
      Moved G s (.poster t) (s.goto t .idle)
  | queue {t : τ} {x : X} (h : s.poster t = .test x) (hx : G.skips x s.data = false) :
      Moved G s (.poster t) (s.goto t (.acquire x))
  | acquire {t : τ} {x : X} (h : s.poster t = .acquire x) (ho : s.owner = none) :
      Moved G s (.poster t) { s.goto t (.change x) with owner := some (.poster t) }
  | change {t : τ} {x : X} (h : s.poster t = .change x) :
      Moved G s (.poster t) { s.goto t .release with data := G.change x s.data }
  | release {t : τ} (h : s.poster t = .release) :
      Moved G s (.poster t) { s.goto t .notify with owner := none }
  | notify {t : τ} (h : s.poster t = .notify) :
      Moved G s (.poster t) { s.goto t .idle with waiter := notified s.waiter }
  | wait (k : K) (h : s.waiter = .outside) : Moved G s (.wait k) { s with waiter := .lock k }
  | lock {k : K} (h : s.waiter = .lock k ∨ s.waiter = .woken k) (ho : s.owner = none) :
      Moved G s .waiter { s with waiter := .check k, owner := some .waiter }
  | pass {k : K} (h : s.waiter = .check k ∨ s.waiter = .recheck k)
      (hk : G.ready k s.data = true) : Moved G s .waiter { s with waiter := .inside k }
  | sleep {k : K} (h : s.waiter = .check k) (hk : G.ready k s.data = false) :
      Moved G s .waiter { s with waiter := .waiting k, owner := none }
  | late {k : K} (h : s.waiter = .expired k) (ho : s.owner = none) :
      Moved G s .waiter { s with waiter := .recheck k, owner := some .waiter }
  | fail {k : K} (h : s.waiter = .recheck k) (hk : G.ready k s.data = false) :
      Moved G s .waiter { s with waiter := .again k }
  | again {k : K} (h : s.waiter = .again k) :
      Moved G s .waiter { s with waiter := .lock k, owner := none }
  | leave {k : K} (h : s.waiter = .inside k) :
      Moved G s .leave { s with waiter := .outside, owner := none }
  | wake {k : K} (h : s.waiter = .waiting k) : Moved G s .wake { s with waiter := .woken k }
  | expire {k : K} (h : s.waiter = .waiting k) : Moved G s .expire { s with waiter := .expired k }

theorem moved_waiter [DecidableEq τ] (h : s.waiterStep G = some s') : Moved G s .waiter s' := by
  unfold waiterStep at h
  split at h
  · rename_i hw
    split_ifs at h with ho
    obtain rfl := Option.some.inj h
    exact .lock (.inl hw) ho
  · rename_i hw
    split_ifs at h with ho
    obtain rfl := Option.some.inj h
    exact .lock (.inr hw) ho
  · rename_i hw
    split_ifs at h with hk
    · obtain rfl := Option.some.inj h
      exact .pass (.inl hw) hk
    · obtain rfl := Option.some.inj h
      exact .sleep hw (by simpa using hk)
  · rename_i hw
    split_ifs at h with ho
    obtain rfl := Option.some.inj h
    exact .late hw ho
  · rename_i k hw
    obtain rfl := Option.some.inj h
    rcases hk : G.ready k s.data with _ | _
    · exact .fail hw hk
    · exact .pass (.inr hw) hk
  · obtain rfl := Option.some.inj h
    exact .again ‹_›
  all_goals cases h

variable [DecidableEq τ]

theorem moved_poster {t : τ} (h : s.posterStep G t = some s') : Moved G s (.poster t) s' := by
  unfold posterStep at h
  split at h
  · cases h
  · rename_i x hpc
    obtain rfl := Option.some.inj h
    rcases hx : G.skips x s.data with _ | _
    · exact .queue hpc hx
    · exact .skip hpc hx
  · rename_i hpc
    split_ifs at h with ho
    obtain rfl := Option.some.inj h
    exact .acquire hpc ho
  · obtain rfl := Option.some.inj h
    exact .change ‹_›
  · obtain rfl := Option.some.inj h
    exact .release ‹_›
  · obtain rfl := Option.some.inj h
    exact .notify ‹_›

theorem moved_of_step (h : s.step G m = some s') : Moved G s m s' := by
  cases m with
  | poster t => exact moved_poster h
  | waiter => exact moved_waiter h
  | post t x =>
    simp only [step] at h
    split at h
    · obtain rfl := Option.some.inj h
      exact .post x ‹_›
    · cases h
  | wait k =>
    simp only [step] at h
    split at h
    · obtain rfl := Option.some.inj h
      exact .wait k ‹_›
    · cases h
  | leave | wake | expire =>
    simp only [step] at h
    split at h
    · obtain rfl := Option.some.inj h
      constructor
      assumption
    · cases h

/-- The data after a move: only a poster at its change changes them. -/
def State.dataAfter (G : Guarded X K D) (s : State τ X K D) : Move τ X K → D
  | .poster t => (s.poster t).posts.foldr G.change s.data
  | _ => s.data

theorem data_moved (h : Moved G s m s') : s'.data = s.dataAfter G m := by
  cases h with
  | skip h | queue h | acquire h | change h | release h | notify h =>
    simp only [State.dataAfter, h, State.goto, PostPc.posts, List.foldr]
  | _ => rfl

/-- The wait after a move. -/
def State.waitAfter (s : State τ X K D) : Move τ X K → Option K
  | .wait k => some k
  | .leave => none
  | _ => s.waiter.wait

theorem wait_moved (h : Moved G s m s') : s'.waiter.wait = s.waitAfter m := by
  cases h with
  | notify h =>
    simp only [State.waitAfter]
    cases s.waiter <;> rfl
  | lock h | pass h => rcases h with h | h <;> simp only [State.waitAfter, h, WaitPc.wait]
  | sleep h | late h | fail h | again h | wake h | expire h =>
    simp only [State.waitAfter, h, WaitPc.wait]
  | post | skip | queue | acquire | change | release | wait | leave => rfl

theorem inside_moved (hm : m ≠ .leave) {k : K} (hk : s.waiter = .inside k) (h : Moved G s m s') :
    s'.waiter = .inside k := by
  cases h with
  | post | skip | queue | acquire | change | release => exact hk
  | notify => simp [hk, notified]
  | leave => exact absurd rfl hm
  | lock h | pass h => rcases h with h | h <;> rw [hk] at h <;> cases h
  | wait _ h | sleep h | late h | fail h | again h | wake h | expire h =>
    rw [hk] at h
    cases h

/-- Where a wait gets only when its deadline passes. -/
def WaitPc.late : WaitPc K → Bool
  | .expired _ | .recheck _ | .again _ => true
  | .outside | .lock _ | .check _ | .waiting _ | .woken _ | .inside _ => false

theorem late_moved (h : Moved G s m s') (hm : m ≠ .expire) (hlate : s.waiter.late = false) :
    s'.waiter.late = false := by
  cases h with
  | expire => exact absurd rfl hm
  | late h | fail h =>
    rw [h] at hlate
    cases hlate
  | notify =>
    revert hlate
    cases s.waiter <;> exact id
  | post | skip | queue | acquire | change | release => exact hlate
  | wait | lock | pass | sleep | again | leave | wake => rfl

/-- What a poster has still to post. -/
def PostPc.pending : PostPc X → List X
  | .test x | .acquire x | .change x => [x]
  | .idle | .release | .notify => []

theorem pending_moved {t : τ} (h : Moved G s (.poster t) s')
    (hskip : ∀ x, s.poster t = .test x → G.skips x s.data = false) :
    (s.poster t).pending = (s.poster t).posts ++ (s'.poster t).pending := by
  cases h with
  | skip h hx => simp [hskip _ h] at hx
  | queue h | acquire h | change h | release h | notify h =>
    simp only [h, goto_poster, if_true]
    rfl

/-- The poster whose move it is. -/
def Move.thread : Move τ X K → Option τ
  | .post t _ | .poster t => some t
  | .wait _ | .waiter | .leave | .wake | .expire => none

theorem poster_moved (h : Moved G s m s') {t : τ} (hm : m.thread ≠ some t) :
    s'.poster t = s.poster t := by
  have hne : ∀ {u : τ}, m.thread = some u → t ≠ u := by
    rintro u hu rfl
    exact hm hu
  cases h with
  | post | skip | queue | acquire | change | release | notify =>
    simp only [goto_poster, if_neg (hne rfl)]
  | _ => rfl

/-- Only the move of a poster changes the data. -/
theorem data_of_thread (h : Moved G s m s') (hm : m.thread = none) : s'.data = s.data := by
  rw [data_moved h]
  cases m <;> first | rfl | cases hm

/-! ## The mutex -/

/-- Who has the mutex is where it has it. -/
structure Owned (s : State τ X K D) : Prop where
  waiter : s.waiter.holds = true ↔ s.owner = some .waiter
  poster : ∀ t, (s.poster t).holds = true ↔ s.owner = some (.poster t)

omit [DecidableEq τ] in
theorem owned_initial (d : D) : Owned (initial d : State τ X K D) := by
  refine ⟨?_, fun t => ?_⟩ <;> simp [initial, WaitPc.holds, PostPc.holds]

theorem Owned.goto (hs : Owned s) {t : τ} {pc : PostPc X} {waiter : WaitPc K}
    {owner : Option (Holder τ)} {d : D} (hpc : pc.holds = true ↔ owner = some (.poster t))
    (ho : ∀ h, h ≠ .poster t → (owner = some h ↔ s.owner = some h))
    (hw : waiter.holds = s.waiter.holds) : Owned ⟨(s.goto t pc).poster, waiter, owner, d⟩ := by
  refine ⟨?_, ?_⟩
  · simp only [hw, hs.waiter, ho .waiter nofun]
  · intro u
    simp only [goto_poster]
    by_cases hu : u = t
    · rw [if_pos hu, hu, hpc]
    · rw [if_neg hu, hs.poster u, ho (.poster u) (by simp [hu])]

omit [DecidableEq τ] in
theorem Owned.move (hs : Owned s) {waiter : WaitPc K} {owner : Option (Holder τ)}
    (hw : waiter.holds = true ↔ owner = some .waiter)
    (ho : ∀ t, owner = some (.poster t) ↔ s.owner = some (.poster t)) :
    Owned ⟨s.poster, waiter, owner, s.data⟩ :=
  ⟨hw, fun t => (hs.poster t).trans (ho t).symm⟩

omit [DecidableEq τ] in
theorem notified_holds (w : WaitPc K) : (notified w).holds = w.holds := by
  cases w <;> rfl

theorem owned_moved (hs : Owned s) (h : Moved G s m s') : Owned s' := by
  cases h with
  | @post t x h | @skip t x h | @queue t x h | @change t x h =>
    have ht := hs.poster t
    rw [h] at ht
    exact hs.goto ht (fun _ _ => Iff.rfl) rfl
  | acquire h ho =>
    refine hs.goto (iff_of_true rfl rfl) ?_ rfl
    intro u hu
    simp [ho, hu.symm]
  | @release t h =>
    have ho : s.owner = some (.poster t) := (hs.poster t).1 (by rw [h]; rfl)
    refine hs.goto (by simp [PostPc.holds]) ?_ rfl
    intro u hu
    simp [ho, hu.symm]
  | @notify t h =>
    have ht := hs.poster t
    rw [h] at ht
    exact hs.goto ht (fun _ _ => Iff.rfl) (notified_holds _)
  | wait k h | wake h | expire h =>
    refine hs.move ?_ fun _ => Iff.rfl
    rw [← hs.waiter, h]
    rfl
  | lock h ho | late h ho => exact hs.move (iff_of_true rfl rfl) fun t => by simp [ho]
  | pass h hk =>
    refine hs.move ?_ fun _ => Iff.rfl
    rw [← hs.waiter]
    rcases h with h | h <;> rw [h] <;> rfl
  | fail h hk =>
    refine hs.move ?_ fun _ => Iff.rfl
    rw [← hs.waiter, h]
    rfl
  | sleep h | again h | leave h =>
    have ho : s.owner = some .waiter := hs.waiter.1 (by rw [h]; rfl)
    exact hs.move (by simp [WaitPc.holds]) fun t => by simp [ho]

/-! ## Wake-ups -/

/-- Where the waiter sleeps on data that are ready, somebody is about to notify it. -/
def Wakeable (G : Guarded X K D) (s : State τ X K D) : Prop :=
  ∀ k, s.waiter = .waiting k → G.ready k s.data = true →
    ∃ t, s.poster t = .release ∨ s.poster t = .notify

/-- A move of a poster that is not the notification, and leaves the data. -/
theorem Wakeable.goto (hs : Wakeable G s) {t : τ} {pc : PostPc X} {owner : Option (Holder τ)}
    (hpc : s.poster t = .release ∨ s.poster t = .notify → pc = .notify) :
    Wakeable G ⟨(s.goto t pc).poster, s.waiter, owner, s.data⟩ := by
  intro k hk hready
  obtain ⟨u, hu⟩ := hs k hk hready
  refine ⟨u, ?_⟩
  simp only [goto_poster]
  split_ifs with hut
  · exact .inr (hpc (hut ▸ hu))
  · exact hu

theorem wakeable_moved (hs : Wakeable G s) (h : Moved G s m s') : Wakeable G s' := by
  cases h with
  | post x h | skip h | queue h | acquire h => exact hs.goto (by simp [h])
  | release h => exact hs.goto fun _ => rfl
  | @change t x h =>
    intro k _ _
    exact ⟨t, .inl (by simp only [goto_poster, if_true])⟩
  | notify h =>
    intro k hk
    have hnot : notified s.waiter ≠ .waiting k := by cases s.waiter <;> simp [notified]
    exact absurd hk hnot
  | sleep h hk =>
    intro k' hk' hready
    obtain rfl := WaitPc.waiting.inj hk'
    exact absurd hready (by simp [hk])
  | wait k h | lock h | pass h | late h | fail h | again h | leave h | wake h | expire h =>
    intro k' hk'
    cases hk'

variable {guard : State τ X K D → Move τ X K → Prop} {d : D}

theorem owned_of_reaches (h : Reaches (step G) guard (initial d) s) : Owned s :=
  h.invariant (owned_initial d) fun _ _ _ hs _ h => owned_moved hs (moved_of_step h)

theorem wakeable_of_reaches (h : Reaches (step G) guard (initial d) s) : Wakeable G s := by
  refine h.invariant ?_ fun _ _ _ hs _ h => wakeable_moved hs (moved_of_step h)
  intro k hk
  cases hk

/-! ## Inside -/

/-- Nothing changes the data while the waiter has the mutex. -/
theorem ready_moved (ho : Owned s) (hs : ∀ k, s.waiter = .inside k → G.ready k s.data = true)
    (h : Moved G s m s') : ∀ k, s'.waiter = .inside k → G.ready k s'.data = true := by
  intro k hk
  cases h with
  | pass h hk' =>
    obtain rfl := WaitPc.inside.inj hk
    exact hk'
  | @change t x h =>
    have hw : s.owner = some .waiter := ho.waiter.1 (by rw [show s.waiter = .inside k from hk]; rfl)
    have hp : s.owner = some (.poster t) := (ho.poster t).1 (by rw [h]; rfl)
    rw [hw] at hp
    cases hp
  | notify h =>
    refine hs k ?_
    have hn : notified s.waiter = .inside k := hk
    revert hn
    cases s.waiter <;> simp [notified]
  | post | skip | queue | acquire | release => exact hs k hk
  | wait | lock | sleep | late | fail | again | leave | wake | expire => cases hk

theorem ready_of_reaches (h : Reaches (step G) guard (initial d) s) {k : K}
    (hk : s.waiter = .inside k) : G.ready k s.data = true := by
  have hinv : Owned s ∧ ∀ k, s.waiter = .inside k → G.ready k s.data = true := by
    refine h.invariant (P := fun s => Owned s ∧ ∀ k, s.waiter = .inside k → G.ready k s.data = true)
      ⟨owned_initial d, fun k hk => by cases hk⟩ ?_
    rintro s s' m ⟨ho, hs⟩ - h
    exact ⟨owned_moved ho (moved_of_step h), ready_moved ho hs (moved_of_step h)⟩
  exact hinv.2 k hk

/-- A poster that comes to the mutex while the waiter is inside stays there until it leaves. -/
theorem blocked_moved (ho : Owned s) {k : K} (hk : s.waiter = .inside k)
    (h : Moved G s m s') {t : τ} {x : X} (ht : s.poster t = .acquire x) :
    s'.poster t = .acquire x := by
  have howner : s.owner = some .waiter := ho.waiter.1 (by rw [hk]; rfl)
  by_cases hm : m.thread = some t
  · cases h with
    | acquire h hfree =>
      rw [howner] at hfree
      cases hfree
    | post x h | skip h | queue h | change h | release h | notify h =>
      obtain rfl := Option.some.inj hm
      rw [ht] at h
      cases h
    | _ => cases hm
  · rw [poster_moved h hm, ht]

/-! ## Rest -/

def Move.own : Move τ X K → Bool
  | .poster _ | .waiter => true
  | .post _ _ | .wait _ | .leave | .wake | .expire => false

/-- An upper bound for the moves that a poster has left. -/
def PostPc.left : PostPc X → ℕ
  | .idle => 0
  | .notify => 3
  | .release => 4
  | .change _ => 5
  | .acquire _ => 6
  | .test _ => 7

/-- One for the moves that the waiter has left before it sleeps or is inside. -/
def WaitPc.left : WaitPc K → ℕ
  | .outside | .waiting _ | .inside _ => 0
  | .check _ => 1
  | .lock _ | .woken _ => 2
  | .again _ => 3
  | .recheck _ => 4
  | .expired _ => 5

def State.left [Fintype τ] (s : State τ X K D) : ℕ := ∑ t, (s.poster t).left + s.waiter.left

theorem sum_goto [Fintype τ] (s : State τ X K D) (t : τ) (pc : PostPc X) :
    ∑ u, ((s.goto t pc).poster u).left + (s.poster t).left =
      ∑ u, (s.poster u).left + pc.left := by
  have hrest : ∑ u ∈ Finset.univ.erase t, ((s.goto t pc).poster u).left =
      ∑ u ∈ Finset.univ.erase t, (s.poster u).left := by
    refine Finset.sum_congr rfl fun u hu => ?_
    rw [goto_poster, if_neg (Finset.ne_of_mem_erase hu)]
  rw [← Finset.add_sum_erase _ _ (Finset.mem_univ t), hrest,
    ← Finset.add_sum_erase (a := t) _ (fun u => (s.poster u).left) (Finset.mem_univ t),
    goto_poster, if_pos rfl]
  omega

theorem left_lt [Fintype τ] (hm : m.own = true) (h : Moved G s m s') : s'.left < s.left := by
  have hsum := sum_goto s
  have hgoto : ∀ {t : τ} {pc : PostPc X} {w : WaitPc K} {o : Option (Holder τ)} {d : D},
      pc.left + w.left < (s.poster t).left + s.waiter.left →
        State.left ⟨(s.goto t pc).poster, w, o, d⟩ < s.left := by
    intro t pc w o d hlt
    have := hsum t pc
    simp only [State.left]
    omega
  have hwaiter : ∀ {w : WaitPc K} {o : Option (Holder τ)}, w.left < s.waiter.left →
      State.left ⟨s.poster, w, o, s.data⟩ < s.left := by
    intro w o hlt
    simp only [State.left]
    omega
  cases h with
  | skip h | queue h | acquire h | change h | release h =>
    refine hgoto ?_
    rw [h]
    simp [PostPc.left]
  | notify h =>
    refine hgoto ?_
    rw [h]
    cases s.waiter <;> simp [PostPc.left, WaitPc.left, notified]
  | lock h | pass h => rcases h with h | h <;> exact hwaiter (by simp [h, WaitPc.left])
  | sleep h | late h | fail h | again h => exact hwaiter (by simp [h, WaitPc.left])
  | post | wait | leave | wake | expire => cases hm

theorem left_wait [Fintype τ] {k : K} (h : Moved G s (.wait k) s') :
    s'.left = s.left + 2 ∧ s.waiter.wait = none := by
  cases h with
  | wait _ h => simp [State.left, WaitPc.left, WaitPc.wait, h]

theorem left_leave [Fintype τ] (h : Moved G s .leave s') :
    s'.left = s.left ∧ s.waiter.wait.isSome = true := by
  cases h with
  | leave h => simp [State.left, WaitPc.left, WaitPc.wait, h]

theorem poster_rest {t : τ} (h : s.posterStep G t = none) :
    s.poster t = .idle ∨ ∃ x, s.poster t = .acquire x ∧ s.owner ≠ none := by
  unfold posterStep at h
  split at h
  · exact .inl ‹_›
  · cases h
  · rename_i x hpc
    split_ifs at h with hfree
    exact .inr ⟨x, hpc, hfree⟩
  all_goals cases h

omit [DecidableEq τ] in
theorem waiter_rest (h : s.waiterStep G = none) :
    s.waiter = .outside ∨ (∃ k, s.waiter = .inside k) ∨ (∃ k, s.waiter = .waiting k) ∨
      (s.waiter.holds = false ∧ s.owner ≠ none) := by
  unfold waiterStep at h
  split at h
  · rename_i hw
    split_ifs at h with hfree
    exact .inr (.inr (.inr ⟨by rw [hw]; rfl, hfree⟩))
  · rename_i hw
    split_ifs at h with hfree
    exact .inr (.inr (.inr ⟨by rw [hw]; rfl, hfree⟩))
  · split_ifs at h
  · rename_i hw
    split_ifs at h with hfree
    exact .inr (.inr (.inr ⟨by rw [hw]; rfl, hfree⟩))
  · cases h
  · cases h
  · exact .inl ‹_›
  · exact .inr (.inr (.inl ⟨_, ‹_›⟩))
  · exact .inr (.inl ⟨_, ‹_›⟩)

/-- Where no own move is left, the waiter is past its wait, or all posters are done and the waiter
has no wait or sleeps on data that are not ready. -/
theorem rest (ho : Owned s) (hs : Wakeable G s)
    (h : ∀ m : Move τ X K, m.own = true → s.step G m = none) :
    (∃ k, s.waiter = .inside k) ∨ ((∀ t, s.poster t = .idle) ∧
      (s.waiter = .outside ∨ ∃ k, s.waiter = .waiting k ∧ G.ready k s.data = false)) := by
  have hposter : ∀ t, s.poster t = .idle ∨ ∃ x, s.poster t = .acquire x ∧ s.owner ≠ none :=
    fun t => poster_rest (h (.poster t) rfl)
  by_cases hin : ∃ k, s.waiter = .inside k
  · exact .inl hin
  have hwaiter := waiter_rest (h .waiter rfl)
  -- nobody who could let the mutex go has it
  have hfree : s.owner = none := by
    rcases howner : s.owner with _ | (_ | t)
    · rfl
    · have hholds := ho.waiter.2 howner
      rcases hwaiter with hw | hw | ⟨k, hw⟩ | ⟨hw, -⟩
      · rw [hw] at hholds
        cases hholds
      · exact absurd hw hin
      · rw [hw] at hholds
        cases hholds
      · rw [hw] at hholds
        cases hholds
    · have hholds := (ho.poster t).2 howner
      rcases hposter t with hpc | ⟨x, hpc, -⟩ <;> rw [hpc] at hholds <;> cases hholds
  have hidle : ∀ t, s.poster t = .idle := fun t =>
    (hposter t).resolve_right fun ⟨_, _, hne⟩ => hne hfree
  refine .inr ⟨hidle, ?_⟩
  rcases hwaiter with hw | hw | ⟨k, hw⟩ | ⟨-, hne⟩
  · exact .inl hw
  · exact absurd hw hin
  · refine .inr ⟨k, hw, ?_⟩
    by_contra hready
    obtain ⟨t, ht⟩ := hs k hw (by simpa using hready)
    rw [hidle t] at ht
    rcases ht with ht | ht <;> cases ht
  · exact absurd hfree hne

end CondVar

end PairingV2
