import PairingV2.Lib.Threads

/-!
# Calls under one lock

A call that holds a mutex from its first action to its end: `lockGuard p` acquires, performs the
body `p` and releases when the body has ended, as the scope of a lock guard does. The body has no
action on the mutex.

Nothing in a step asks whether the thread that performs an action of a body holds the mutex. That
it does is the invariant `MonitorInv`: whatever the threads do, the calls that have returned were
performed one after the other (`Serial`), and at most one call is under way.
-/

namespace PairingV2

universe u v w

variable {τ κ ι : Type u} {ο : ι → Type v} {ρ : Type w} {S : Type*}

/-- The actions of a call that holds a mutex. -/
inductive LockAct (ι : Type u) : Type u where
  | acquire
  | release
  | body (i : ι)
  deriving DecidableEq

@[reducible] def LockAns (ο : ι → Type v) : LockAct ι → Type v
  | .acquire => PUnit
  | .release => PUnit
  | .body i => ο i

/-- A state and the thread that holds its mutex, if one does. -/
structure Locked (τ : Type*) (S : Type*) where
  owner : Option τ
  val : S

def bodyEvent (e : Event ι ο) : Event (LockAct ι) (LockAns ο) := ⟨.body e.1, e.2⟩

theorem bodyEvent_injective : Function.Injective (bodyEvent (ι := ι) (ο := ο)) := by
  rintro ⟨i, a⟩ ⟨j, b⟩ h
  simp only [bodyEvent, Sigma.mk.injEq, LockAct.body.injEq] at h
  obtain ⟨rfl, h⟩ := h
  rw [eq_of_heq h]

def acquired : Event (LockAct ι) (LockAns ο) := ⟨.acquire, PUnit.unit⟩

def released : Event (LockAct ι) (LockAns ο) := ⟨.release, PUnit.unit⟩

namespace Prog

/-- The rest of a body, and the release of the mutex when it has ended. -/
def unlockAfter : Prog ι ο ρ → Prog (LockAct ι) (LockAns ο) ρ
  | .ret r => .act .release fun _ => .ret r
  | .act i k => .act (.body i) fun a => unlockAfter (k a)

/-- The body under a lock guard. -/
def lockGuard (p : Prog ι ο ρ) : Prog (LockAct ι) (LockAns ο) ρ :=
  .act .acquire fun _ => p.unlockAfter

theorem unlockAfter_ne_ret (p : Prog ι ο ρ) (r : ρ) : p.unlockAfter ≠ .ret r := by
  cases p <;> simp [unlockAfter]

end Prog

/-- A free mutex can be acquired; an action of a body acts on the state whoever holds the mutex. -/
def lockSem (sem : (i : ι) → S → ο i → S → Prop) (t : τ) :
    (i : LockAct ι) → Locked τ S → LockAns ο i → Locked τ S → Prop
  | .acquire, s, _, s' => s.owner = none ∧ s' = { s with owner := some t }
  | .release, s, _, s' => s' = { s with owner := none }
  | .body i, s, a, s' => ∃ x, sem i s.val a x ∧ s' = { s with val := x }

/-- The same for actions that `h` answers; `none` where a thread has to wait. -/
def lockAnswer (h : (i : ι) → S → ο i × S) (t : τ) :
    (i : LockAct ι) → Locked τ S → Option (LockAns ο i × Locked τ S)
  | .acquire, s => if s.owner.isNone then some (PUnit.unit, { s with owner := some t }) else none
  | .release, s => some (PUnit.unit, { s with owner := none })
  | .body i, s => some ((h i s.val).1, { s with val := (h i s.val).2 })

theorem lockAnswer_sem (h : (i : ι) → S → ο i × S) (t : τ) :
    ∀ (i : LockAct ι) (s : Locked τ S) (a : LockAns ο i) (s' : Locked τ S),
      lockAnswer h t i s = some (a, s') → lockSem (Prog.det h) t i s a s'
  | .acquire, s, a, s', he => by
    simp only [lockAnswer] at he
    split_ifs at he with hn
    cases he
    exact ⟨Option.isNone_iff_eq_none.1 hn, rfl⟩
  | .release, s, a, s', he => by
    cases he
    rfl
  | .body i, s, a, s', he => by
    cases he
    exact ⟨_, rfl, rfl⟩

namespace Prog

theorem run_unlockAfter (h : (i : ι) → S → ο i × S) (t : τ) :
    ∀ (p : Prog ι ο ρ) (o : Option τ) (s : S),
      p.unlockAfter.run (lockAnswer h t) ⟨o, s⟩ =
        some ((p.exec h s).1.map bodyEvent ++ [released], (p.exec h s).2.1,
          ⟨none, (p.exec h s).2.2⟩)
  | .ret r, o, s => rfl
  | .act i k, o, s => by
    simp only [unlockAfter, run, lockAnswer, run_unlockAfter h t (k (h i s).1) o (h i s).2]
    rfl

/-- A guarded call waits for a free mutex, performs its body and leaves the mutex free, whatever
the body ends in. -/
theorem run_lockGuard (h : (i : ι) → S → ο i × S) (t : τ) (p : Prog ι ο ρ) (s : Locked τ S) :
    p.lockGuard.run (lockAnswer h t) s =
      if s.owner.isNone then
        some (acquired :: ((p.exec h s.val).1.map bodyEvent ++ [released]), (p.exec h s.val).2.1,
          ⟨none, (p.exec h s.val).2.2⟩)
      else none := by
  simp only [lockGuard, run, lockAnswer]
  split_ifs
  · simp only [run_unlockAfter, Option.map_some]
    rfl
  · rfl

end Prog

/-- What a call of thread `t` performed, as part of a trace. -/
def Finished.labels (d : Finished τ κ ι ο ρ) : List (τ × Event ι ο) := d.evs.map (d.tid, ·)

section Serial

variable (body : κ → Prog ι ο ρ) (sem : (i : ι) → S → ο i → S → Prop)

/-- The returned calls as performed one after the other, each from the state the one before it
left. -/
inductive Serial (s₀ : S) :
    List (Finished τ κ (LockAct ι) (LockAns ο) ρ) → S → Prop where
  | nil : Serial s₀ [] s₀
  | snoc {ds : List (Finished τ κ (LockAct ι) (LockAns ο) ρ)} {s s' : S} {t : τ} {call : κ}
      {es : List (Event ι ο)} {r : ρ} (h : Serial s₀ ds s)
      (hs : Prog.Steps sem (body call) s es (.ret r) s') :
      Serial s₀ (ds ++ [⟨t, call, acquired :: (es.map bodyEvent ++ [released]), r⟩]) s'

/-- Either the mutex is free and no call is under way, or one call is, and its thread holds the
mutex. -/
inductive MonitorInv (s₀ : S) (c : Config τ κ (LockAct ι) (LockAns ο) ρ (Locked τ S)) : Prop where
  | free {s : S} (serial : Serial body sem s₀ c.done s) (shared : c.shared = ⟨none, s⟩)
      (idle : ∀ u, (c.thread u).cur = none)
      (trace : c.trace = c.done.flatMap Finished.labels)
  | held {s : S} {t : τ} (call : κ) (es : List (Event ι ο)) (rest : Prog ι ο ρ)
      (serial : Serial body sem s₀ c.done s) (owner : c.shared.owner = some t)
      (cur : (c.thread t).cur = some ⟨call, acquired :: es.map bodyEvent, rest.unlockAfter⟩)
      (steps : Prog.Steps sem (body call) s es rest c.shared.val)
      (idle : ∀ u, u ≠ t → (c.thread u).cur = none)
      (trace : c.trace = c.done.flatMap Finished.labels ++
        (t, acquired) :: es.map fun e => (t, bodyEvent e))

variable {body sem}

theorem monitorInv_initial {s₀ : S} {script : τ → List κ} :
    MonitorInv body sem s₀ (Config.initial ⟨none, s₀⟩ script) :=
  .free .nil rfl (fun _ => rfl) rfl

variable [DecidableEq τ]

/-- The first action of a call: the mutex is free. -/
theorem monitorInv_acquire {s₀ : S}
    {c c' : Config τ κ (LockAct ι) (LockAns ο) ρ (Locked τ S)} {t : τ}
    {e : Event (LockAct ι) (LockAns ο)} (hinv : MonitorInv body sem s₀ c)
    (hcur : (c.thread t).cur = none)
    (h : Config.Step (fun call => (body call).lockGuard) (lockSem sem) c t e c') :
    c.shared.owner = none ∧ e = acquired ∧ MonitorInv body sem s₀ c' := by
  obtain ⟨call, evs, i, k, todo, a, hh, rfl, hs, htr, hd⟩ := Config.step_cases h
  rcases Config.head_cases hh with ⟨h1, -⟩ | ⟨-, -, hevs, hprog⟩
  · simp [hcur] at h1
  simp only at hevs
  subst hevs
  have hacquire : Prog.act i k = (body call).lockGuard := hprog
  obtain ⟨rfl, hk⟩ := Prog.act.inj hacquire
  obtain rfl := eq_of_heq hk
  obtain ⟨hfree, hshared⟩ := hs
  refine ⟨hfree, rfl, ?_⟩
  rcases hinv with ⟨serial, shared, idle, trace⟩ | ⟨-, -, -, -, owner⟩
  · rcases hd with ⟨v, hv, -⟩ | ⟨-, hdone, hthread⟩
    · exact absurd hv (Prog.unlockAfter_ne_ret _ v)
    · refine .held call [] (body call) (hdone ▸ serial) (by rw [hshared])
        (by rw [hthread, Function.update_self]; rfl) ?_ ?_ ?_
      · rw [hshared, shared]
        exact .refl _ _
      · intro u hu
        rw [hthread, Function.update_of_ne hu]
        exact idle u
      · rw [htr, hdone, trace]
        rfl
  · simp [owner] at hfree

omit [DecidableEq τ] in
theorem held_of_cur {s₀ : S} {c : Config τ κ (LockAct ι) (LockAns ο) ρ (Locked τ S)} {t : τ}
    {r : Running κ (LockAct ι) (LockAns ο) ρ} (hinv : MonitorInv body sem s₀ c)
    (hcur : (c.thread t).cur = some r) :
    ∃ s es rest, Serial body sem s₀ c.done s ∧ c.shared.owner = some t ∧
      r = ⟨r.call, acquired :: es.map bodyEvent, rest.unlockAfter⟩ ∧
      Prog.Steps sem (body r.call) s es rest c.shared.val ∧
      (∀ u, u ≠ t → (c.thread u).cur = none) ∧
      c.trace = c.done.flatMap Finished.labels ++
        (t, acquired) :: es.map fun e => (t, bodyEvent e) := by
  rcases hinv with ⟨serial, shared, idle, trace⟩ |
    @⟨s, t', call, es, rest, serial, owner, cur, steps, idle, trace⟩
  · simp [idle] at hcur
  obtain rfl : t = t' := by
    by_contra hne
    simp [idle t hne] at hcur
  rw [cur, Option.some.injEq] at hcur
  subst hcur
  exact ⟨s, es, rest, serial, owner, rfl, steps, idle, trace⟩

/-- A later action of a call: of its body, or the release. -/
theorem monitorInv_go {s₀ : S} {c c' : Config τ κ (LockAct ι) (LockAns ο) ρ (Locked τ S)} {t : τ}
    {e : Event (LockAct ι) (LockAns ο)} {r : Running κ (LockAct ι) (LockAns ο) ρ}
    (hinv : MonitorInv body sem s₀ c) (hcur : (c.thread t).cur = some r)
    (h : Config.Step (fun call => (body call).lockGuard) (lockSem sem) c t e c') :
    c.shared.owner = some t ∧ e ≠ acquired ∧ MonitorInv body sem s₀ c' := by
  obtain ⟨call, evs, i, k, todo, a, hh, rfl, hs, htr, hd⟩ := Config.step_cases h
  rw [Config.head_of_cur hcur] at hh
  simp only [Option.some.injEq, Prod.mk.injEq] at hh
  obtain ⟨rfl, -⟩ := hh
  obtain ⟨s, es, rest, serial, owner, hr, steps, idle, trace⟩ := held_of_cur hinv hcur
  simp only [Running.mk.injEq, true_and] at hr steps
  obtain ⟨rfl, hrest⟩ := hr
  rcases rest with v | ⟨j, k'⟩
  · obtain ⟨rfl, hk⟩ := Prog.act.inj hrest
    obtain rfl := eq_of_heq hk
    refine ⟨owner, nofun, ?_⟩
    rcases hd with ⟨v', hv, hdone, hthread⟩ | ⟨hv, -⟩
    · simp only [Prog.ret.injEq] at hv
      subst hv
      have hshared : c'.shared = ⟨none, c.shared.val⟩ := hs
      refine .free (s := c.shared.val) ?_ hshared ?_ ?_
      · rw [hdone]
        exact .snoc serial steps
      · intro u
        rw [hthread]
        by_cases hu : u = t
        · rw [hu, Function.update_self]
        · rw [Function.update_of_ne hu]
          exact idle u hu
      · rw [htr, hdone, trace]
        simp [Finished.labels]
    · exact absurd rfl (hv v)
  · obtain ⟨rfl, hk⟩ := Prog.act.inj hrest
    obtain rfl := eq_of_heq hk
    refine ⟨owner, nofun, ?_⟩
    obtain ⟨x, hx, hshared⟩ := hs
    rcases hd with ⟨v, hv, -⟩ | ⟨-, hdone, hthread⟩
    · exact absurd hv (Prog.unlockAfter_ne_ret _ v)
    · refine .held call (es ++ [⟨j, a⟩]) (k' a) (hdone ▸ serial) (by rw [hshared]; exact owner)
        ?_ ?_ ?_ ?_
      · rw [hthread, Function.update_self]
        simp [bodyEvent]
      · rw [hshared]
        exact steps.snoc hx
      · intro u hu
        rw [hthread, Function.update_of_ne hu]
        exact idle u hu
      · rw [htr, hdone, trace]
        simp [bodyEvent]

theorem monitorInv_step {s₀ : S} {c c' : Config τ κ (LockAct ι) (LockAns ο) ρ (Locked τ S)}
    {t : τ} {e : Event (LockAct ι) (LockAns ο)} (hinv : MonitorInv body sem s₀ c)
    (h : Config.Step (fun call => (body call).lockGuard) (lockSem sem) c t e c') :
    MonitorInv body sem s₀ c' := by
  rcases hcur : (c.thread t).cur with _ | r
  · exact (monitorInv_acquire hinv hcur h).2.2
  · exact (monitorInv_go hinv hcur h).2.2

/-- Whatever the schedule, the calls are serial. -/
theorem monitorInv_reach {s₀ : S} {script : τ → List κ}
    {guard : Config τ κ (LockAct ι) (LockAns ο) ρ (Locked τ S) → τ →
      Event (LockAct ι) (LockAns ο) → Prop}
    {c : Config τ κ (LockAct ι) (LockAns ο) ρ (Locked τ S)}
    (h : Config.Reach (fun call => (body call).lockGuard) (lockSem sem) guard
      (Config.initial ⟨none, s₀⟩ script) c) : MonitorInv body sem s₀ c := by
  induction h with
  | start => exact monitorInv_initial
  | step _ _ hs ih => exact monitorInv_step ih hs

omit [DecidableEq τ] in
/-- A call in a serial run was performed from the state the calls before it left. -/
theorem serial_split {s₀ s' : S} {d : Finished τ κ (LockAct ι) (LockAns ο) ρ} :
    ∀ {pre ds post : List (Finished τ κ (LockAct ι) (LockAns ο) ρ)}, Serial body sem s₀ ds s' →
      ds = pre ++ d :: post → ∃ s es s₁, Serial body sem s₀ pre s ∧
        Prog.Steps sem (body d.call) s es (.ret d.res) s₁ ∧
        d.evs = acquired :: (es.map bodyEvent ++ [released]) := by
  intro pre ds post h
  induction h generalizing post with
  | nil =>
    intro he
    simp at he
  | @snoc ds s s' t call es r h hs ih =>
    intro he
    rcases snoc_split he with ⟨rfl, rfl⟩ | ⟨post', he⟩
    · exact ⟨s, es, s', h, hs, rfl⟩
    · exact ih he

theorem flatMap_split {α β : Type*} {g : α → List β} {x : β} {post : List β} :
    ∀ {as : List α} {pre : List β}, as.flatMap g = pre ++ x :: post →
      ∃ as₁ a as₂ p q, as = as₁ ++ a :: as₂ ∧ g a = p ++ x :: q ∧ pre = as₁.flatMap g ++ p ∧
        post = q ++ as₂.flatMap g
  | [], pre, h => by simp at h
  | a :: as, pre, h => by
    rw [List.flatMap_cons, List.append_eq_append_iff] at h
    rcases h with ⟨pre', rfl, h⟩ | ⟨q, hq, h⟩
    · obtain ⟨as₁, a', as₂, p, q, rfl, hp, rfl, rfl⟩ := flatMap_split h
      exact ⟨a :: as₁, a', as₂, p, q, rfl, hp, by simp, rfl⟩
    · rcases q with _ | ⟨y, q⟩
      · obtain ⟨as₁, a', as₂, p, q, rfl, hp, hpre, rfl⟩ := flatMap_split
          (show as.flatMap g = [] ++ x :: post from h.symm)
        simp only [List.append_nil] at hq
        exact ⟨a :: as₁, a', as₂, p, q, rfl, hp, by simp [hq, ← hpre], rfl⟩
      · simp only [List.cons_append, List.cons.injEq] at h
        obtain ⟨rfl, rfl⟩ := h
        exact ⟨[], a, as, pre, q, rfl, hq, by simp, rfl⟩

omit [DecidableEq τ] in
/-- An action of a body in the trace of a serial run belongs to one call, which acquired the
mutex before its first action and released it after its last. -/
theorem serial_event {s₀ s' : S} {ds : List (Finished τ κ (LockAct ι) (LockAns ο) ρ)}
    (h : Serial body sem s₀ ds s') {pre post : List (τ × Event (LockAct ι) (LockAns ο))} {t : τ}
    {e : Event ι ο} (htr : ds.flatMap Finished.labels = pre ++ (t, bodyEvent e) :: post) :
    ∃ ds₁ s call es fs r s₁, Serial body sem s₀ ds₁ s ∧
      Prog.Steps sem (body call) s (es ++ e :: fs) (.ret r) s₁ ∧
      pre = ds₁.flatMap Finished.labels ++ (t, acquired) :: es.map (fun e => (t, bodyEvent e)) ∧
      (fs.map (fun e => (t, bodyEvent e)) ++ [(t, released)]) <+: post := by
  obtain ⟨ds₁, d, ds₂, p, q, rfl, hd, rfl, rfl⟩ := flatMap_split htr
  obtain ⟨s, es, s₁, hpre, hs, hevs⟩ := serial_split h rfl
  obtain ⟨u, call, evs, r⟩ := d
  simp only at hs hevs
  subst hevs
  simp only [Finished.labels, List.map_cons, List.map_append, List.map_map, List.map_nil,
    Function.comp_def] at hd
  rcases p with _ | ⟨x, p⟩
  · simp only [List.nil_append, List.cons.injEq, Prod.mk.injEq] at hd
    exact absurd hd.1.2 nofun
  simp only [List.cons_append, List.cons.injEq] at hd
  obtain ⟨rfl, hd⟩ := hd
  rw [List.append_eq_append_iff] at hd
  rcases hd with ⟨p', rfl, hd⟩ | ⟨q', hq', hd⟩
  · rcases p' with _ | ⟨y, p'⟩ <;> simp at hd
    exact absurd hd.1.2 nofun
  · rcases q' with _ | ⟨y, q'⟩
    · simp only [List.nil_append, List.cons.injEq, Prod.mk.injEq] at hd
      exact absurd hd.1.2 nofun
    · simp only [List.cons_append, List.cons.injEq] at hd
      obtain ⟨rfl, rfl⟩ := hd
      obtain ⟨es₁, es₂, rfl, rfl, hes⟩ := List.map_eq_append_iff.1 hq'
      obtain ⟨e', fs, rfl, he, rfl⟩ := List.map_eq_cons_iff.1 hes
      obtain ⟨rfl, hbody⟩ := Prod.mk.inj he
      obtain rfl := bodyEvent_injective hbody
      exact ⟨ds₁, s, call, es₁, fs, r, s₁, hpre, hs, rfl, List.prefix_append _ _⟩

/-! ## The mutex in a trace -/

def holds (o : Option τ) : τ × Event (LockAct ι) (LockAns ο) → Option τ
  | (t, ⟨.acquire, _⟩) => some t
  | (_, ⟨.release, _⟩) => none
  | (_, ⟨.body _, _⟩) => o

/-- Who holds the mutex after a trace. -/
def holder (tr : List (τ × Event (LockAct ι) (LockAns ο))) : Option τ := tr.foldl holds none

/-- The threads that acquired the mutex, in order. -/
def acquirers (tr : List (τ × Event (LockAct ι) (LockAns ο))) : List τ :=
  tr.filterMap fun
    | (t, ⟨.acquire, _⟩) => some t
    | _ => none

variable {s₀ : S} {script : τ → List κ}
  {guard : Config τ κ (LockAct ι) (LockAns ο) ρ (Locked τ S) → τ →
    Event (LockAct ι) (LockAns ο) → Prop}
  {c : Config τ κ (LockAct ι) (LockAns ο) ρ (Locked τ S)}

theorem holder_reach
    (h : Config.Reach (fun call => (body call).lockGuard) (lockSem sem) guard
      (Config.initial ⟨none, s₀⟩ script) c) : holder c.trace = c.shared.owner := by
  induction h with
  | start => rfl
  | step _ _ hs ih =>
    obtain ⟨call, evs, i, k, todo, a, -, -, hsem, htr, -⟩ := Config.step_cases hs
    simp only [holder] at ih ⊢
    rw [htr, List.foldl_append, ih]
    cases i with
    | acquire =>
      obtain ⟨-, hshared⟩ := hsem
      rw [hshared]
      rfl
    | release =>
      have hshared : _ = _ := hsem
      rw [hshared]
      rfl
    | body i =>
      obtain ⟨x, -, hshared⟩ := hsem
      rw [hshared]
      rfl

/-- The mutex is acquired when it is free, and everything else is performed by its holder. -/
theorem mutual_exclusion
    (h : Config.Reach (fun call => (body call).lockGuard) (lockSem sem) guard
      (Config.initial ⟨none, s₀⟩ script) c)
    {pre post : List (τ × Event (LockAct ι) (LockAns ο))} {t : τ}
    {e : Event (LockAct ι) (LockAns ο)} (htr : c.trace = pre ++ (t, e) :: post) :
    (e = acquired ∧ holder pre = none) ∨ (e ≠ acquired ∧ holder pre = some t) := by
  obtain ⟨c₁, c₂, hr, -, hs, rfl⟩ := h.trace_split rfl htr
  rw [holder_reach hr]
  rcases hcur : (c₁.thread t).cur with _ | r
  · obtain ⟨howner, he, -⟩ := monitorInv_acquire (monitorInv_reach hr) hcur hs
    exact .inl ⟨he, howner⟩
  · obtain ⟨howner, he, -⟩ := monitorInv_go (monitorInv_reach hr) hcur hs
    exact .inr ⟨he, howner⟩

omit [DecidableEq τ] in
theorem acquirers_serial {ds : List (Finished τ κ (LockAct ι) (LockAns ο) ρ)} {s : S}
    (h : Serial body sem s₀ ds s) :
    acquirers (ds.flatMap Finished.labels) = ds.map Finished.tid := by
  induction h with
  | nil => rfl
  | snoc _ _ ih =>
    simp only [acquirers] at ih ⊢
    simp [ih, Finished.labels, acquired, released, bodyEvent]

/-- The calls that have returned, and the one under way, are in the order in which they took the
mutex. -/
theorem acquirers_reach
    (h : Config.Reach (fun call => (body call).lockGuard) (lockSem sem) guard
      (Config.initial ⟨none, s₀⟩ script) c) :
    acquirers c.trace = c.done.map Finished.tid ++ c.shared.owner.toList := by
  rcases monitorInv_reach h with ⟨serial, shared, -, trace⟩ |
    @⟨s, t, call, es, rest, serial, owner, -, -, -, trace⟩
  · rw [trace, acquirers_serial serial, shared]
    simp
  · have hpart : acquirers ((t, acquired) :: es.map fun e => (t, bodyEvent e)) = [t] := by
      simp [acquirers, acquired, bodyEvent]
    rw [trace, acquirers, List.filterMap_append, ← acquirers, ← acquirers,
      acquirers_serial serial, hpart, owner]
    rfl

end Serial

end PairingV2
