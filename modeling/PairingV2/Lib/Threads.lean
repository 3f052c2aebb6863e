import PairingV2.Lib.Prog

/-!
# Threads

Threads that share a state, each working through its own list of calls: a call is a program, and a
step of a thread is one action of the call it is in, or the first action of its next. A call whose
program has ended has returned. `Config.done` lists the calls that have returned, in the order in
which they did, and `Config.trace` everything that was performed.
-/

namespace PairingV2

universe u v w

variable {τ κ ι : Type u} {ο : ι → Type v} {ρ : Type w} {S : Type*}

/-- A call under way: what it has performed and what it has left. -/
structure Running (κ : Type*) (ι : Type u) (ο : ι → Type v) (ρ : Type w) where
  call : κ
  evs : List (Event ι ο)
  rest : Prog ι ο ρ

/-- A thread: the calls it has still to make, and the one it is in. -/
structure Thread (κ : Type*) (ι : Type u) (ο : ι → Type v) (ρ : Type w) where
  todo : List κ
  cur : Option (Running κ ι ο ρ)

structure Finished (τ κ : Type*) (ι : Type u) (ο : ι → Type v) (ρ : Type w) where
  tid : τ
  call : κ
  evs : List (Event ι ο)
  res : ρ

structure Config (τ κ : Type*) (ι : Type u) (ο : ι → Type v) (ρ : Type w) (S : Type*) where
  shared : S
  thread : τ → Thread κ ι ο ρ
  done : List (Finished τ κ ι ο ρ)
  trace : List (τ × Event ι ο)

/-- The call a thread is in or, between two calls, is about to make. -/
def Thread.head (prog : κ → Prog ι ο ρ) (th : Thread κ ι ο ρ) :
    Option (Running κ ι ο ρ × List κ) :=
  match th.cur, th.todo with
  | some r, todo => some (r, todo)
  | none, [] => none
  | none, c :: todo => some (⟨c, [], prog c⟩, todo)

/-- What the call that a thread is in has performed. -/
def Thread.evs (th : Thread κ ι ο ρ) : List (Event ι ο) :=
  match th.cur with
  | some r => r.evs
  | none => []

/-- An element of a list with one more element is the last one, or was there before. -/
theorem snoc_split {α : Type*} {as pre post : List α} {a b : α} (h : as ++ [b] = pre ++ a :: post) :
    (as = pre ∧ b = a) ∨ ∃ post', as = pre ++ a :: post' := by
  rcases List.eq_nil_or_concat post with rfl | ⟨post, x, rfl⟩
  · obtain ⟨rfl, hb⟩ := List.append_inj' h rfl
    simp only [List.cons.injEq, and_true] at hb
    exact .inl ⟨rfl, hb⟩
  · rw [List.concat_eq_append, ← List.cons_append, ← List.append_assoc] at h
    exact .inr ⟨post, (List.append_inj' h rfl).1⟩

namespace Config

def initial (s₀ : S) (script : τ → List κ) : Config τ κ ι ο ρ S where
  shared := s₀
  thread t := ⟨script t, none⟩
  done := []
  trace := []

variable [DecidableEq τ]

/-- After thread `t` performed `e` in the call `r`, which left the state `s`. -/
def settle (c : Config τ κ ι ο ρ S) (t : τ) (r : Running κ ι ο ρ) (todo : List κ) (s : S)
    (e : Event ι ο) : Config τ κ ι ο ρ S :=
  match r.rest with
  | .ret v =>
    { shared := s
      thread := Function.update c.thread t ⟨todo, none⟩
      done := c.done ++ [⟨t, r.call, r.evs, v⟩]
      trace := c.trace ++ [(t, e)] }
  | .act _ _ =>
    { shared := s
      thread := Function.update c.thread t ⟨todo, some r⟩
      done := c.done
      trace := c.trace ++ [(t, e)] }

inductive Step (prog : κ → Prog ι ο ρ) (sem : τ → (i : ι) → S → ο i → S → Prop)
    (c : Config τ κ ι ο ρ S) : τ → Event ι ο → Config τ κ ι ο ρ S → Prop where
  | mk {t : τ} {call : κ} {evs : List (Event ι ο)} {i : ι} {k : ο i → Prog ι ο ρ}
      {todo : List κ} {a : ο i} {s : S}
      (hh : (c.thread t).head prog = some (⟨call, evs, .act i k⟩, todo))
      (hs : sem t i c.shared a s) :
      Step prog sem c t ⟨i, a⟩ (c.settle t ⟨call, evs ++ [⟨i, a⟩], k a⟩ todo s ⟨i, a⟩)

/-- What the threads can reach by steps that meet `guard`, in any order. -/
inductive Reach (prog : κ → Prog ι ο ρ) (sem : τ → (i : ι) → S → ο i → S → Prop)
    (guard : Config τ κ ι ο ρ S → τ → Event ι ο → Prop) (c₀ : Config τ κ ι ο ρ S) :
    Config τ κ ι ο ρ S → Prop where
  | start : Reach prog sem guard c₀ c₀
  | step {c c' : Config τ κ ι ο ρ S} {t : τ} {e : Event ι ο} (h : Reach prog sem guard c₀ c)
      (hg : guard c t e) (hs : Step prog sem c t e c') : Reach prog sem guard c₀ c'

def free (_ : Config τ κ ι ο ρ S) (_ : τ) (_ : Event ι ο) : Prop := True

instance (c : Config τ κ ι ο ρ S) (t : τ) (e : Event ι ο) : Decidable (free c t e) :=
  inferInstanceAs (Decidable True)

variable {prog : κ → Prog ι ο ρ} {sem : τ → (i : ι) → S → ο i → S → Prop}
  {guard : Config τ κ ι ο ρ S → τ → Event ι ο → Prop} {c₀ c c' : Config τ κ ι ο ρ S}

/-- What a step can do: the call it belongs to returns, or goes on. -/
theorem step_cases {t : τ} {e : Event ι ο} (h : Step prog sem c t e c') :
    ∃ call evs i k todo a, (c.thread t).head prog = some (⟨call, evs, .act i k⟩, todo) ∧
      e = ⟨i, a⟩ ∧ sem t i c.shared a c'.shared ∧ c'.trace = c.trace ++ [(t, ⟨i, a⟩)] ∧
      ((∃ v, k a = .ret v ∧ c'.done = c.done ++ [⟨t, call, evs ++ [⟨i, a⟩], v⟩] ∧
          c'.thread = Function.update c.thread t ⟨todo, none⟩) ∨
        ((∀ v, k a ≠ .ret v) ∧ c'.done = c.done ∧
          c'.thread = Function.update c.thread t ⟨todo, some ⟨call, evs ++ [⟨i, a⟩], k a⟩⟩)) := by
  obtain ⟨hh, hs⟩ := h
  rename_i call evs i k todo a s
  refine ⟨call, evs, i, k, todo, a, hh, rfl, ?_⟩
  rcases hk : k a with v | ⟨j, k'⟩
  · simpa [settle] using hs
  · simpa [settle] using hs

theorem head_of_cur {th : Thread κ ι ο ρ} {r : Running κ ι ο ρ} (h : th.cur = some r) :
    th.head prog = some (r, th.todo) := by
  simp [Thread.head, h]

theorem head_cases {th : Thread κ ι ο ρ} {r : Running κ ι ο ρ} {todo : List κ}
    (h : th.head prog = some (r, todo)) :
    (th.cur = some r ∧ th.todo = todo) ∨
      (th.cur = none ∧ th.todo = r.call :: todo ∧ r.evs = [] ∧ r.rest = prog r.call) := by
  unfold Thread.head at h
  split at h
  · rename_i r' todo' hc
    simp only [Option.some.injEq, Prod.mk.injEq] at h
    obtain ⟨rfl, rfl⟩ := h
    exact .inl ⟨hc, rfl⟩
  · simp at h
  · rename_i call todo' hc ht
    simp only [Option.some.injEq, Prod.mk.injEq] at h
    obtain ⟨rfl, rfl⟩ := h
    exact .inr ⟨hc, ht, rfl, rfl⟩

theorem evs_of_head {th : Thread κ ι ο ρ} {r : Running κ ι ο ρ} {todo : List κ}
    (h : th.head prog = some (r, todo)) : th.evs = r.evs := by
  rcases head_cases h with ⟨h, -⟩ | ⟨h, -, hevs, -⟩
  · rw [Thread.evs, h]
  · rw [Thread.evs, h, hevs]

/-- Everything performed was performed by a step from a configuration reached before. -/
theorem Reach.trace_split (h : Reach prog sem guard c₀ c) (h₀ : c₀.trace = []) :
    ∀ {pre post : List (τ × Event ι ο)} {t : τ} {e : Event ι ο},
      c.trace = pre ++ (t, e) :: post → ∃ c₁ c₂, Reach prog sem guard c₀ c₁ ∧ guard c₁ t e ∧
        Step prog sem c₁ t e c₂ ∧ c₁.trace = pre := by
  induction h with
  | start =>
    intro pre post t e ht
    simp [h₀] at ht
  | @step c c' t' e' hr hg hs ih =>
    intro pre post t e ht
    obtain ⟨call, evs, i, k, todo, a, -, rfl, -, htr, -⟩ := step_cases hs
    rw [htr] at ht
    rcases snoc_split ht with ⟨hpre, hx⟩ | ⟨post', ht⟩
    · obtain ⟨rfl, rfl⟩ := Prod.mk.inj hx
      exact ⟨c, c', hr, hg, hs, hpre⟩
    · exact ih ht

/-- The calls of a thread, made and still to be made. -/
def calls (c : Config τ κ ι ο ρ S) (t : τ) : List κ :=
  (c.done.filter (·.tid = t)).map Finished.call ++ ((c.thread t).cur.map Running.call).toList ++
    (c.thread t).todo

theorem step_calls {t : τ} {e : Event ι ο} (h : Step prog sem c t e c') (u : τ) :
    c'.calls u = c.calls u := by
  obtain ⟨call, evs, i, k, todo, a, hh, -, -, -, hd⟩ := step_cases h
  by_cases hu : t = u
  · subst hu
    rcases hd with ⟨v, -, hd, ht⟩ | ⟨-, hd, ht⟩ <;>
      rcases head_cases hh with ⟨h1, h2⟩ | ⟨h1, h2, -, -⟩ <;>
      simp [calls, hd, ht, h1, h2]
  · rcases hd with ⟨v, -, hd, ht⟩ | ⟨-, hd, ht⟩ <;>
      simp [calls, hd, ht, hu, Function.update_of_ne (Ne.symm hu)]

/-- No call of a thread is lost or made twice. -/
theorem Reach.calls_eq {s₀ : S} {script : τ → List κ}
    (h : Reach prog sem guard (initial s₀ script) c) (t : τ) : c.calls t = script t := by
  induction h with
  | start => simp [calls, initial]
  | step _ _ hs ih => rw [step_calls hs, ih]

omit [DecidableEq τ] in
theorem follows_of_head {t : τ} {r : Running κ ι ο ρ} {todo : List κ}
    (hcur : ∀ r, (c.thread t).cur = some r → Prog.Follows (prog r.call) r.evs r.rest)
    (hh : (c.thread t).head prog = some (r, todo)) : Prog.Follows (prog r.call) r.evs r.rest := by
  rcases head_cases hh with ⟨h, -⟩ | ⟨-, -, hevs, hrest⟩
  · exact hcur r h
  · rw [hevs, hrest]
    exact .refl _ _

/-- What a call has performed is what its program can perform, whatever the other threads do. -/
theorem Reach.follows {s₀ : S} {script : τ → List κ}
    (h : Reach prog sem guard (initial s₀ script) c) :
    (∀ t r, (c.thread t).cur = some r → Prog.Follows (prog r.call) r.evs r.rest) ∧
      ∀ d ∈ c.done, Prog.Follows (prog d.call) d.evs (.ret d.res) := by
  induction h with
  | start => exact ⟨fun t r hr => by simp [initial] at hr, fun d hd => by simp [initial] at hd⟩
  | @step c c' t e _ _ hs ih =>
    obtain ⟨hcur, hdone⟩ := ih
    obtain ⟨call, evs, i, k, todo, a, hh, -, -, -, hd⟩ := step_cases hs
    have hnext : Prog.Follows (prog call) (evs ++ [⟨i, a⟩]) (k a) :=
      (follows_of_head (hcur t) hh).snoc trivial
    rcases hd with ⟨v, hv, hdone', hthread⟩ | ⟨-, hdone', hthread⟩
    · refine ⟨?_, ?_⟩
      · intro u r hr
        rw [hthread, Function.update_apply] at hr
        split_ifs at hr
        exact hcur u r hr
      · intro d hd
        rw [hdone', List.mem_append, List.mem_singleton] at hd
        rcases hd with hd | rfl
        · exact hdone d hd
        · rw [hv] at hnext
          exact hnext
    · refine ⟨?_, fun d hd => hdone d (hdone' ▸ hd)⟩
      intro u r hr
      rw [hthread, Function.update_apply] at hr
      split_ifs at hr with hu
      · obtain rfl := Option.some.inj hr
        exact hnext
      · exact hcur u r hr

/-- What a thread has performed. -/
def performed (t : τ) (tr : List (τ × Event ι ο)) : List (Event ι ο) :=
  (tr.filter (·.1 = t)).map Prod.snd

theorem mem_performed {t : τ} {tr : List (τ × Event ι ο)} {e : Event ι ο} :
    e ∈ performed t tr ↔ (t, e) ∈ tr := by
  simp [performed]

/-- What a call under way has performed is the last that its thread has. -/
theorem Reach.evs_suffix {s₀ : S} {script : τ → List κ}
    (h : Reach prog sem guard (initial s₀ script) c) (t : τ) :
    (c.thread t).evs <:+ performed t c.trace := by
  induction h with
  | start => exact List.nil_suffix
  | @step c c' u e _ _ hs ih =>
    obtain ⟨call, evs, i, k, todo, a, hh, -, -, htr, hd⟩ := step_cases hs
    have hevs := evs_of_head hh
    by_cases hut : u = t
    · subst hut
      have hperformed : performed u c'.trace = performed u c.trace ++ [⟨i, a⟩] := by
        simp [performed, htr]
      rw [hperformed]
      rcases hd with ⟨v, -, -, hthread⟩ | ⟨-, -, hthread⟩
      · rw [hthread, Function.update_self]
        exact List.nil_suffix
      · rw [hthread, Function.update_self]
        obtain ⟨pre, hpre⟩ := ih
        refine ⟨pre, ?_⟩
        rw [← hpre, hevs, List.append_assoc]
        rfl
    · have hperformed : performed t c'.trace = performed t c.trace := by
        simp [performed, htr, hut]
      rw [hperformed]
      rcases hd with ⟨v, -, -, hthread⟩ | ⟨-, -, hthread⟩ <;>
        rw [hthread, Function.update_of_ne (Ne.symm hut)] <;> exact ih

/-! ## Schedules -/

def pending (prog : κ → Prog ι ο ρ) (c : Config τ κ ι ο ρ S) (t : τ) : Option ι :=
  match (c.thread t).head prog with
  | some (⟨_, _, .act i _⟩, _) => some i
  | _ => none

theorem step_of_pending {t : τ} {i : ι} {a : ο i} {s : S} (hp : c.pending prog t = some i)
    (hs : sem t i c.shared a s) : ∃ c', Step prog sem c t ⟨i, a⟩ c' := by
  unfold pending at hp
  split at hp
  · rename_i call evs j k todo hhead
    obtain rfl := Option.some.inj hp
    exact ⟨_, .mk hhead hs⟩
  · cases hp

/-- The step of thread `t` when `h` answers the actions; `none` where it has none. -/
def next (prog : κ → Prog ι ο ρ) (h : τ → (i : ι) → S → Option (ο i × S))
    (guard : Config τ κ ι ο ρ S → τ → Event ι ο → Prop) [∀ c t e, Decidable (guard c t e)]
    (c : Config τ κ ι ο ρ S) (t : τ) : Option (Config τ κ ι ο ρ S) :=
  match (c.thread t).head prog with
  | some (⟨call, evs, .act i k⟩, todo) =>
    match h t i c.shared with
    | some (a, s) =>
      if guard c t ⟨i, a⟩ then
        some (c.settle t ⟨call, evs ++ [⟨i, a⟩], k a⟩ todo s ⟨i, a⟩)
      else none
    | none => none
  | _ => none

/-- The steps of the threads in the order of a schedule. -/
def play (prog : κ → Prog ι ο ρ) (h : τ → (i : ι) → S → Option (ο i × S))
    (guard : Config τ κ ι ο ρ S → τ → Event ι ο → Prop) [∀ c t e, Decidable (guard c t e)] :
    Config τ κ ι ο ρ S → List τ → Option (Config τ κ ι ο ρ S)
  | c, [] => some c
  | c, t :: ts => (next prog h guard c t).bind fun c' => play prog h guard c' ts

variable {h : τ → (i : ι) → S → Option (ο i × S)} [∀ c t e, Decidable (guard c t e)]

theorem next_step (hh : ∀ t i s a s', h t i s = some (a, s') → sem t i s a s') {t : τ}
    (hn : next prog h guard c t = some c') :
    ∃ e, guard c t e ∧ Step prog sem c t e c' := by
  unfold next at hn
  split at hn
  · rename_i call evs i k todo hhead
    split at hn
    · rename_i a s hs
      split_ifs at hn with hg
      simp only [Option.some.injEq] at hn
      subst hn
      exact ⟨⟨i, a⟩, hg, .mk hhead (hh _ _ _ _ _ hs)⟩
    · simp at hn
  · simp at hn

theorem reach_play (hh : ∀ t i s a s', h t i s = some (a, s') → sem t i s a s') :
    ∀ (ts : List τ) {c c' : Config τ κ ι ο ρ S}, Reach prog sem guard c₀ c →
      play prog h guard c ts = some c' → Reach prog sem guard c₀ c'
  | [], c, c', hr, hp => by
    simp only [play, Option.some.injEq] at hp
    exact hp ▸ hr
  | t :: ts, c, c', hr, hp => by
    obtain ⟨c₁, hn, hp⟩ := Option.bind_eq_some_iff.1 hp
    obtain ⟨e, hg, hs⟩ := next_step hh hn
    exact reach_play hh ts (.step hr hg hs) hp

end Config

end PairingV2
