import PairingV2.Lib.Threads
import PairingV2.Demo.Phases

/-!
# Displays and commands at the same time

The callbacks run `display_lists` on threads of the library while `main` runs the command loop, and
nothing guards `vehicles`. `Exclusive` is what a lock would give: no thread clears `vehicles` or
looks a vehicle up while another one is between its clearing and the end of its display, or between
its look-up and the operation it calls. In runs that keep to it a row command acts on the row last
displayed (`row_command_race`); without it, it need not (`rebuilt_during_command`).
-/

namespace PairingV2

namespace Demo

variable {τ : Type} {signed : Bool}

/-- What an operation does to `vehicles`; the manager and the terminal may answer anything. -/
def sharedSem (_ : τ) : (i : Act) → OrdSet Str → Ans i → OrdSet Str → Prop
  | .clear, _, _, s' => s' = ∅
  | .insert v, s, _, s' => s' = s.insert v
  | .elements, s, vs, s' => vs = s.elements ∧ s' = s
  | .lookup n, s, name, s' => name = getVehicleName n s ∧ s' = s
  | .getPairingList, s, _, s' => s' = s
  | .getPairedList, s, _, s' => s' = s
  | .getConnectedList, s, _, s' => s' = s
  | .getPairedAutoconnect _, s, _, s' => s' = s
  | .getConnectedDrivers _, s, _, s' => s' = s
  | .put _, s, _, s' => s' = s
  | .call _, s, _, s' => s' = s
  | .readWord, s, _, s' => s' = s

/-- The operation that a display starts its work on `vehicles` with, or a command. -/
def Act.Opens : Act → Bool
  | .clear => true
  | .lookup _ => true
  | _ => false

abbrev Threads (τ : Type) := Config τ Call Act Ans Bool (OrdSet Str)

/-- No other thread is in a call that has cleared `vehicles` or looked a vehicle up. -/
def Exclusive (c : Threads τ) (t : τ) (e : Ev) : Prop :=
  e.1.Opens = true → ∀ u, u ≠ t → ∀ e' ∈ (c.thread u).evs, e'.1.Opens = false

/-! ## Phases -/

namespace Phase

def Busy (q : Phase) : Prop := q.stage ≠ .idle

def Displaying (q : Phase) : Prop := q.stage = .rebuilding ∨ ∃ vs, q.stage = .listed vs

def shows (q : Phase) : Option (List Str) :=
  match q.stage with
  | .listed vs => some vs
  | _ => none

theorem shows_eq {q : Phase} {vs : List Str} : q.shows = some vs ↔ q.stage = .listed vs := by
  rcases q with ⟨word, _ | _ | _ | _ | _⟩ <;> simp [shows]

end Phase

/-- What an event does to the phase of its call and to `vehicles`. -/
inductive Move (signed : Bool) (s : OrdSet Str) (q : Phase) : Phase → OrdSet Str → Prop where
  | quiet : Move signed s q q s
  | read (inp : Str) (hq : q.stage = .idle) : Move signed s q ⟨some inp, .idle⟩ s
  | clear (hq : q.stage = .idle) : Move signed s q { q with stage := .rebuilding } ∅
  | insert (v : Str) (hq : q.stage = .rebuilding) : Move signed s q q (s.insert v)
  | list (hq : q.stage = .rebuilding) :
      Move signed s q { q with stage := .listed s.elements } s
  | look {inp : Str} (hq : q.stage = .idle) (hword : q.word = some inp) :
      Move signed s q
        { q with stage := .looked (getVehicleName (charToInt signed (inp.getD 1 nul)) s) } s
  | act {name : Str} (hq : q.stage = .looked name) : Move signed s q { q with stage := .acted } s

theorem sharedSem_quiet {t : τ} {i : Act} (hi : i.Quiet = true) {s s' : OrdSet Str} {a : Ans i}
    (h : sharedSem t i s a s') : s' = s := by
  cases i <;> first | exact h | cases hi

theorem move_of_step {q q' : Phase} {e : Ev} {s s' : OrdSet Str} {t : τ}
    (h : q.Step signed e q') (hs : sharedSem t e.1 s e.2 s') : Move signed s q q' s' := by
  cases h with
  | quiet a hi =>
    obtain rfl := sharedSem_quiet hi hs
    exact .quiet
  | operation =>
    obtain rfl : s' = s := hs
    exact .quiet
  | read inp _ hq =>
    obtain rfl : s' = s := hs
    exact .read inp hq
  | clear hq =>
    obtain rfl : s' = ∅ := hs
    exact .clear hq
  | insert v hq =>
    obtain rfl : s' = s.insert v := hs
    exact .insert v hq
  | elements vs hq =>
    obtain ⟨rfl, rfl⟩ : vs = s.elements ∧ s' = s := hs
    exact .list hq
  | lookup name hq hword =>
    obtain ⟨rfl, rfl⟩ : name = _ ∧ s' = s := hs
    exact .look hq hword
  | act hq =>
    obtain rfl : s' = s := hs
    exact .act hq

theorem busy_iff {q q' : Phase} {e : Ev} (h : Phase.next signed q e = some q') :
    q'.Busy ↔ q.Busy ∨ e.1.Opens = true := by
  cases Phase.step_of_next h with
  | @quiet i a hi => cases i <;> simp [Act.Quiet, Act.Opens] at hi ⊢
  | operation hq hc => simp [Act.Opens]
  | read inp hword hq => simp [Phase.Busy, Act.Opens, hq]
  | clear hq => simp [Phase.Busy, Act.Opens]
  | insert v hq => simp [Act.Opens]
  | elements vs hq => simp [Phase.Busy, hq]
  | lookup name hq hword => simp [Phase.Busy, Act.Opens]
  | act hq hc => simp [Phase.Busy, hq]

theorem shows_iff {q q' : Phase} {vs : List Str} {e : Ev}
    (h : Phase.next signed q e = some q') :
    q'.shows = some vs ↔ q.shows = some vs ∨ e = ⟨.elements, vs⟩ := by
  cases Phase.step_of_next h with
  | @quiet i a hi => cases i <;> simp [Act.Quiet] at hi ⊢
  | operation hq hc => simp
  | read inp hword hq => simp [Phase.shows, hq]
  | clear hq => simp [Phase.shows, hq]
  | insert v hq => simp
  | elements vs hq => simp [Phase.shows, hq]
  | lookup name hq hword => simp [Phase.shows, hq]
  | act hq hc => simp [Phase.shows, hq]

theorem word_iff {q q' : Phase} {inp : Str} {e : Ev}
    (h : Phase.next signed q e = some q') :
    q'.word = some inp ↔ q.word = some inp ∨ e = ⟨.readWord, inp⟩ := by
  cases Phase.step_of_next h with
  | @quiet i a hi => cases i <;> simp [Act.Quiet] at hi ⊢
  | operation hq hc => simp
  | read inp hword hq => simp [hword]
  | clear hq => simp
  | insert v hq => simp
  | elements vs hq => simp
  | lookup name hq hword => simp
  | act hq hc => simp

/-! ## The invariant -/

/-- `vehicles` is what a call that has visited it was given, and has the vehicle that a call has
looked up at the number it was looked up by. -/
structure Phase.Agrees (signed : Bool) (s : OrdSet Str) (q : Phase) : Prop where
  listed : ∀ vs, q.stage = .listed vs → s.elements = vs
  looked : ∀ name, q.stage = .looked name → ∃ inp, q.word = some inp ∧
    name = getVehicleName (charToInt signed (inp.getD 1 nul)) s

/-- One call at a time is busy, and agrees with `vehicles`. Unless it is a display, `vehicles` is
what was last displayed. -/
structure RaceInv (signed : Bool) (phase : τ → Phase) (s : OrdSet Str) (shown : List Str) :
    Prop where
  alone : ∀ t u, (phase t).Busy → (phase u).Busy → t = u
  table : (∀ t, ¬ (phase t).Displaying) → s.elements = shown
  agrees : ∀ t, (phase t).Agrees signed s

theorem Phase.not_busy_start : ¬ start.Busy := by simp [Busy, start]

theorem Phase.busy_of_displaying {q : Phase} (h : q.Displaying) : q.Busy := by
  rcases h with h | ⟨vs, h⟩ <;> simp [Phase.Busy, h]

theorem Phase.agrees_of_not_busy {q : Phase} {s : OrdSet Str} (h : ¬ q.Busy) :
    q.Agrees signed s := by
  have hidle : q.stage = .idle := not_not.1 h
  refine ⟨?_, ?_⟩
  · intro vs hq
    rw [hidle] at hq
    cases hq
  · intro name hq
    rw [hidle] at hq
    cases hq

section Moves

variable {s s' : OrdSet Str} {q q' : Phase}

theorem Move.not_displaying (h : Move signed s q q' s') (hq' : ¬ q'.Displaying) :
    s' = s ∧ ¬ q.Displaying := by
  cases h with
  | quiet => exact ⟨rfl, hq'⟩
  | read inp hq => exact ⟨rfl, by simp [Phase.Displaying, hq]⟩
  | clear hq => exact absurd (.inl rfl) hq'
  | insert v hq => exact absurd (.inl hq) hq'
  | list hq => exact absurd (.inr ⟨_, rfl⟩) hq'
  | look hq hword => exact ⟨rfl, by simp [Phase.Displaying, hq]⟩
  | act hq => exact ⟨rfl, by simp [Phase.Displaying, hq]⟩

theorem Move.agrees (h : Move signed s q q' s') (hq : q.Agrees signed s) :
    q'.Agrees signed s' := by
  refine ⟨?_, ?_⟩
  · intro vs hvs
    cases h with
    | quiet => exact hq.listed vs hvs
    | list hrebuilding => exact Stage.listed.inj hvs
    | insert v hrebuilding => exact absurd (hrebuilding.symm.trans hvs) nofun
    | read | clear | look | act => cases hvs
  · intro name hname
    cases h with
    | quiet => exact hq.looked name hname
    | look hidle hword => exact ⟨_, hword, (Stage.looked.inj hname).symm⟩
    | insert v hrebuilding => exact absurd (hrebuilding.symm.trans hname) nofun
    | read | clear | list | act => cases hname

end Moves

variable [DecidableEq τ] {phase : τ → Phase} {s s' : OrdSet Str} {shown : List Str}

/-- A call moves on. If that makes it busy, no other call was. -/
theorem RaceInv.move {t : τ} {q' : Phase} (hinv : RaceInv signed phase s shown)
    (h : Move signed s (phase t) q' s')
    (hopen : ¬ (phase t).Busy → q'.Busy → ∀ u, u ≠ t → ¬ (phase u).Busy) :
    RaceInv signed (Function.update phase t q') s' shown := by
  have hothers : q'.Busy → ∀ u, u ≠ t → ¬ (phase u).Busy := by
    intro hb u hu hbu
    by_cases ht : (phase t).Busy
    · exact hu (hinv.alone u t hbu ht)
    · exact hopen ht hb u hu hbu
  have hstill : ∀ u, u ≠ t → (phase u).Busy → s' = s := fun u hu hbu =>
    (h.not_displaying fun hd => hothers (Phase.busy_of_displaying hd) u hu hbu).1
  refine ⟨?_, ?_, ?_⟩
  · intro u v hu hv
    rw [Function.update_apply] at hu hv
    split_ifs at hu hv with hut hvt hvt
    · rw [hut, hvt]
    · exact absurd hv (hothers hu v hvt)
    · exact absurd hu (hothers hv u hut)
    · exact hinv.alone u v hu hv
  · intro hno
    have ht := hno t
    rw [Function.update_self] at ht
    obtain ⟨rfl, hq⟩ := h.not_displaying ht
    refine hinv.table ?_
    intro u
    by_cases hut : u = t
    · rwa [hut]
    · have hu := hno u
      rwa [Function.update_of_ne hut] at hu
  · intro u
    rw [Function.update_apply]
    split_ifs with hut
    · exact h.agrees (hinv.agrees t)
    · by_cases hbu : (phase u).Busy
      · rw [hstill u hut hbu]
        exact hinv.agrees u
      · exact Phase.agrees_of_not_busy hbu

/-- A call returns. If it was a display, it is now the last one. -/
theorem RaceInv.finish {t : τ} (hinv : RaceInv signed phase s shown) (h : (phase t).Final) :
    RaceInv signed (Function.update phase t .start) s ((phase t).shows.getD shown) := by
  have hstart := Phase.not_busy_start
  refine ⟨?_, ?_, ?_⟩
  · intro u v hu hv
    rw [Function.update_apply] at hu hv
    split_ifs at hu hv
    · exact absurd hu hstart
    · exact absurd hu hstart
    · exact absurd hv hstart
    · exact hinv.alone u v hu hv
  · intro hno
    rcases hshows : (phase t).shows with _ | vs
    · refine hinv.table ?_
      intro u
      by_cases hut : u = t
      · rw [hut]
        rintro (hd | ⟨vs, hd⟩)
        · exact h.1 hd
        · rw [Phase.shows_eq.2 hd] at hshows
          cases hshows
      · have hu := hno u
        rwa [Function.update_of_ne hut] at hu
    · exact (hinv.agrees t).listed vs (Phase.shows_eq.1 hshows)
  · intro u
    rw [Function.update_apply]
    split_ifs
    · exact Phase.agrees_of_not_busy hstart
    · exact hinv.agrees u

/-! ## Runs -/

/-- The phase of what a call has performed. -/
def phaseOf (signed : Bool) (es : List Ev) : Phase :=
  (phaseAfter (Phase.next signed) .start es).getD .start

/-- What the displays among the returned calls have visited last. -/
def lastShown (signed : Bool) (ds : List (Finished τ Call Act Ans Bool)) : List Str :=
  ds.foldl (fun vs d => (phaseOf signed d.evs).shows.getD vs) []

/-- Of the calls that have displayed the table, the one that returned last. -/
def LastDisplay (ds : List (Finished τ Call Act Ans Bool)) (d : Finished τ Call Act Ans Bool) :
    Prop :=
  ∃ pre post, ds = pre ++ d :: post ∧ (∃ vs, (⟨.elements, vs⟩ : Ev) ∈ d.evs) ∧
    ∀ d' ∈ post, ∀ vs, (⟨.elements, vs⟩ : Ev) ∉ d'.evs

section Runs

variable {script : τ → List Call} {c c' : Threads τ}
  {guard : Threads τ → τ → Ev → Prop}

/-- What the threads can reach by steps that meet the condition. -/
abbrev Reachable (signed : Bool) (guard : Threads τ → τ → Ev → Prop) (script : τ → List Call)
    (c : Threads τ) : Prop :=
  Config.Reach (Call.code signed) sharedSem guard (Config.initial ∅ script) c

theorem phaseAfter_evs (h : Reachable signed guard script c) (t : τ) :
    phaseAfter (Phase.next signed) .start (c.thread t).evs =
      some (phaseOf signed (c.thread t).evs) := by
  rcases hcur : (c.thread t).cur with _ | r
  · simp [Thread.evs, hcur, phaseOf, phaseAfter]
  · obtain ⟨q, hq, -⟩ := (keeps_call r.call).steps (h.follows.1 t r hcur)
    simp [Thread.evs, hcur, phaseOf, hq]

theorem busy_evs (h : Reachable signed guard script c) (t : τ) :
    (phaseOf signed (c.thread t).evs).Busy ↔ ∃ e ∈ (c.thread t).evs, e.1.Opens = true := by
  have hnext : ∀ q e q', Phase.next signed q e = some q' →
      (q'.Busy ↔ q.Busy ∨ e.1.Opens = true) := fun _ _ _ => busy_iff
  rw [phaseAfter_iff hnext (phaseAfter_evs h t)]
  exact or_iff_right fun hstart => hstart rfl

theorem word_evs (h : Reachable signed guard script c) (t : τ) (inp : Str) :
    (phaseOf signed (c.thread t).evs).word = some inp ↔
      (⟨.readWord, inp⟩ : Ev) ∈ (c.thread t).evs := by
  have hnext : ∀ q e q', Phase.next signed q e = some q' →
      (q'.word = some inp ↔ q.word = some inp ∨ e = ⟨.readWord, inp⟩) := fun _ _ _ => word_iff
  rw [phaseAfter_iff hnext (phaseAfter_evs h t)]
  simp [Phase.start]

theorem shows_done (h : Reachable signed guard script c) {d : Finished τ Call Act Ans Bool}
    (hd : d ∈ c.done) (vs : List Str) :
    (phaseOf signed d.evs).shows = some vs ↔ (⟨.elements, vs⟩ : Ev) ∈ d.evs := by
  have hnext : ∀ q e q', Phase.next signed q e = some q' →
      (q'.shows = some vs ↔ q.shows = some vs ∨ e = ⟨.elements, vs⟩) := fun _ _ _ => shows_iff
  obtain ⟨q, hq, -⟩ := (keeps_call d.call).steps (h.follows.2 d hd)
  rw [phaseOf, hq, Option.getD_some, phaseAfter_iff hnext hq]
  simp [Phase.start, Phase.shows]

/-- A step moves the phase of its thread, and the call may then return. -/
theorem step_phase (h : Reachable signed guard script c) {t : τ} {e : Ev}
    (hs : Config.Step (Call.code signed) sharedSem c t e c') :
    ∃ q', Phase.next signed (phaseOf signed (c.thread t).evs) e = some q' ∧
      sharedSem t e.1 c.shared e.2 c'.shared ∧
      ((fun u => phaseOf signed (c'.thread u).evs) =
            Function.update (fun u => phaseOf signed (c.thread u).evs) t q' ∧
          c'.done = c.done ∨
        q'.Final ∧ (fun u => phaseOf signed (c'.thread u).evs) =
            Function.update (fun u => phaseOf signed (c.thread u).evs) t .start ∧
          ∃ d, c'.done = c.done ++ [d] ∧ phaseOf signed d.evs = q') := by
  obtain ⟨call, evs, i, k, todo, a, hh, rfl, hsem, -, hd⟩ := Config.step_cases hs
  have hevs := Config.evs_of_head hh
  have hfollows := Config.follows_of_head (h.follows.1 t) hh
  obtain ⟨q, hq, hkeeps⟩ := (keeps_call call).steps hfollows
  obtain ⟨q', hq', hkeeps'⟩ := hkeeps a
  have hafter : phaseOf signed (evs ++ [⟨i, a⟩]) = q' := by
    rw [phaseOf, phaseAfter_snoc hq, hq', Option.getD_some]
  refine ⟨q', ?_, hsem, ?_⟩
  · rw [hevs, phaseOf, hq]
    exact hq'
  · rcases hd with ⟨v, hv, hdone, hthread⟩ | ⟨-, hdone, hthread⟩
    · rw [hv] at hkeeps'
      refine .inr ⟨hkeeps', funext fun u => ?_, _, hdone, hafter⟩
      rw [hthread]
      by_cases hu : u = t
      · subst hu
        simp [Thread.evs, phaseOf, phaseAfter]
      · simp [hu]
    · refine .inl ⟨funext fun u => ?_, hdone⟩
      rw [hthread]
      by_cases hu : u = t
      · subst hu
        simpa [Thread.evs] using hafter
      · simp [hu]

theorem raceInv_reach (h : Reachable signed Exclusive script c) :
    RaceInv signed (fun t => phaseOf signed (c.thread t).evs) c.shared
      (lastShown signed c.done) := by
  induction h with
  | start =>
    have hstart : ∀ t, phaseOf signed ((Config.initial ∅ script : Threads τ).thread t).evs =
        .start := fun t => rfl
    have hidle := Phase.not_busy_start
    refine ⟨?_, fun _ => rfl, ?_⟩
    · intro t u ht
      rw [hstart] at ht
      exact absurd ht hidle
    · intro t
      rw [hstart]
      exact Phase.agrees_of_not_busy hidle
  | @step c c' t e hr hg hs ih =>
    obtain ⟨q', hnext, hsem, hd⟩ := step_phase hr hs
    have hmove := ih.move (move_of_step (Phase.step_of_next hnext) hsem) fun hnot hb u hu => by
      have hopens : e.1.Opens = true := ((busy_iff hnext).1 hb).resolve_left hnot
      rw [busy_evs hr]
      rintro ⟨e', he', hopens'⟩
      rw [hg hopens u hu e' he'] at hopens'
      cases hopens'
    rcases hd with ⟨hphase, hdone⟩ | ⟨hfinal, hphase, d, hdone, hdq⟩
    · rw [hphase, hdone]
      exact hmove
    · have hfin := hmove.finish (t := t) (by rwa [Function.update_self])
      rw [Function.update_self, Function.update_idem] at hfin
      rw [hphase, hdone, lastShown, List.foldl_append, List.foldl_cons, List.foldl_nil, hdq]
      exact hfin

omit [DecidableEq τ] in
/-- What was shown last was shown by the last of the calls that displayed. -/
theorem lastShown_split : ∀ {ds : List (Finished τ Call Act Ans Bool)} {k : ℕ} {v : Str},
    (lastShown signed ds)[k]? = some v → ∃ pre d post vs, ds = pre ++ d :: post ∧
      (phaseOf signed d.evs).shows = some vs ∧ vs[k]? = some v ∧
      ∀ d' ∈ post, (phaseOf signed d'.evs).shows = none := by
  intro ds
  induction ds using List.reverseRecOn with
  | nil =>
    intro k v h
    simp [lastShown] at h
  | append_singleton ds d ih =>
    intro k v h
    rw [lastShown, List.foldl_append, List.foldl_cons, List.foldl_nil, ← lastShown] at h
    rcases hd : (phaseOf signed d.evs).shows with _ | vs
    · rw [hd] at h
      obtain ⟨pre, d', post, vs, rfl, hshows, hv, hpost⟩ := ih h
      refine ⟨pre, d', post ++ [d], vs, by simp, hshows, hv, ?_⟩
      intro d'' hd''
      rcases List.mem_append.1 hd'' with h' | h'
      · exact hpost d'' h'
      · rw [List.mem_singleton.1 h', hd]
    · rw [hd] at h
      exact ⟨ds, d, [], vs, rfl, hd, h, by simp⟩

/-- When no thread works on `vehicles` while another one does, a row command of a one-digit number
that passes a name to the manager passes the one in that row of the display that was completed
last. -/
theorem row_command_race (h : Reachable signed Exclusive script c) {t : τ} {cmd : Command}
    {a : Ans (.call cmd)} (hs : Config.Step (Call.code signed) sharedSem c t ⟨.call cmd, a⟩ c')
    {name : Str} (hname : cmd.vehicle = some name) (hne : name ≠ []) {rc : RowCommand} {N : ℕ}
    (hN : N < 10) (hread : (⟨.readWord, rc.token N⟩ : Ev) ∈ (c.thread t).evs) :
    ∃ d, LastDisplay c.done d ∧ Shows (outs d.evs) N name := by
  have hinv := raceInv_reach h
  obtain ⟨q', hnext, -, -⟩ := step_phase h hs
  have hlooked : (phaseOf signed (c.thread t).evs).stage = .looked name := by
    cases Phase.step_of_next hnext with
    | quiet a hi => cases hi
    | operation hq hc => rw [hc] at hname; cases hname
    | act hq hc => rw [hq, Option.some.inj (hc.symm.trans hname)]
  obtain ⟨inp, hinp, hlookup⟩ := (hinv.agrees t).looked name hlooked
  rw [(word_evs h t _).2 hread, Option.some.injEq] at hinp
  subst hinp
  have hdigit : (rc.token N).getD 1 nul = digit N := by
    rw [RowCommand.token, decimal_of_lt hN]
    rfl
  rw [hdigit, getVehicleName_digit signed hN] at hlookup
  have htable : c.shared.elements = lastShown signed c.done := by
    refine hinv.table ?_
    intro u hu
    have hut : u = t := hinv.alone u t (Phase.busy_of_displaying hu) (by simp [Phase.Busy, hlooked])
    subst hut
    rcases hu with hu | ⟨vs, hu⟩ <;> rw [hlooked] at hu <;> cases hu
  have hrow : (lastShown signed c.done)[N]? = some name := by
    rw [← htable]
    rcases hv : c.shared.elements[N]? with _ | v
    · rw [hv] at hlookup
      exact absurd hlookup hne
    · rw [hv] at hlookup
      rw [hlookup]
      rfl
  obtain ⟨pre, d, post, vs, hdone, hshows, hv, hpost⟩ := lastShown_split hrow
  have hd : d ∈ c.done := hdone ▸ List.mem_append_right _ List.mem_cons_self
  have hvs := (shows_done h hd vs).1 hshows
  refine ⟨d, ⟨pre, post, hdone, ⟨vs, hvs⟩, ?_⟩,
    (shows_of_elements (h.follows.2 d hd) hvs N name).2 hv⟩
  intro d' hd' vs' hvs'
  have hmem : d' ∈ c.done := hdone ▸ List.mem_append_right _ (List.mem_cons_of_mem _ hd')
  have hnone := hpost d' hd'
  rw [(shows_done h hmem vs').2 hvs'] at hnone
  cases hnone

end Runs

/-! ## Schedules -/

instance [Fintype τ] (c : Threads τ) (t : τ) (e : Ev) : Decidable (Exclusive c t e) :=
  inferInstanceAs (Decidable (e.1.Opens = true →
    ∀ u, u ≠ t → ∀ e' ∈ (c.thread u).evs, e'.1.Opens = false))

/-- An operation on `vehicles` while the manager and the input stay as they are. -/
def answerShared (m : Manager) (inp : Str) (_ : τ) (i : Act) (s : OrdSet Str) :
    Option (Ans i × OrdSet Str) :=
  let x := answer (fun _ => m) i ⟨s, .ofText inp, 0⟩
  some (x.1, x.2.vehicles)

omit [DecidableEq τ] in
/-- The operations are those of the whole demo. -/
theorem sharedSem_answer (m : ℕ → Manager) (t : τ) (i : Act) (w : World) :
    sharedSem t i w.vehicles (answer m i w).1 (answer m i w).2.vehicles := by
  cases i <;> simp [sharedSem, answer, World.query]

omit [DecidableEq τ] in
theorem answerShared_sem {m : Manager} {inp : Str} (t : τ) (i : Act) (s : OrdSet Str) (a : Ans i)
    (s' : OrdSet Str) (h : answerShared m inp t i s = some (a, s')) : sharedSem t i s a s' := by
  obtain ⟨rfl, rfl⟩ := Prod.mk.inj (Option.some.inj h)
  exact sharedSem_answer (fun _ => m) t i ⟨s, .ofText inp, 0⟩

instance (os : List Out) (k : ℕ) (v : Str) : Decidable (Shows os k v) :=
  inferInstanceAs (Decidable (_ <:+: _))

/-- Thread `true` runs a round of the loop while thread `false` displays twice. -/
def displaysAndRound (t : Bool) : List Call :=
  if t then [.loopBody] else [.displayLists, .displayLists]

/-- The word is "p0", and the pairing list is not in the order of the table. -/
def race (guard : Threads Bool → Bool → Ev → Prop) [∀ c t e, Decidable (guard c t e)]
    (schedule : List Bool) : Option (Threads Bool) :=
  Config.play (Call.code true) (answerShared (pairable ["b", "a"] 0) (str "p0")) guard
    (Config.initial ∅ displaysAndRound) schedule

theorem race_reach {guard : Threads Bool → Bool → Ev → Prop} [∀ c t e, Decidable (guard c t e)]
    {schedule : List Bool} {c : Threads Bool} (h : race guard schedule = some c) :
    Reachable true guard displaysAndRound c :=
  Config.reach_play answerShared_sem schedule .start h

theorem row_command_race_done :
    ∃ c d, Reachable true Exclusive displaysAndRound c ∧ LastDisplay c.done d ∧
      Shows (outs d.evs) 0 (str "a") := by
  have hplay : (race Exclusive (List.replicate 36 false ++ List.replicate 3 true)).any (fun c =>
      c.pending (Call.code true) true = some (.call (.pairTo (str "a") false)) ∧
        (phaseOf true (c.thread true).evs).word = some (str "p0")) = true := by
    decide +kernel
  obtain ⟨c, hc, hcall⟩ := (Option.any_eq_true _ _).1 hplay
  obtain ⟨hcall, hword⟩ := of_decide_eq_true hcall
  have hreach := race_reach hc
  obtain ⟨c', hs⟩ : ∃ c', Config.Step (Call.code true) sharedSem c true
      ⟨.call (.pairTo (str "a") false), ()⟩ c' := Config.step_of_pending hcall rfl
  have hread : (⟨.readWord, RowCommand.token .pair 0⟩ : Ev) ∈ (c.thread true).evs :=
    (word_evs hreach true _).1 hword
  obtain ⟨d, hd, hshows⟩ := row_command_race hreach hs rfl (by decide) (by decide) hread
  exact ⟨c, d, hreach, hd, hshows⟩

/-- The command comes while the second display has put only "b" back, and pairs to it, though the
one display that was completed shows "a" in that row. -/
theorem rebuilt_during_command :
    ∃ c c' d, Reachable true Config.free displaysAndRound c ∧
      Config.Step (Call.code true) sharedSem c true ⟨.call (.pairTo (str "b") false), ()⟩ c' ∧
      (⟨.readWord, RowCommand.token .pair 0⟩ : Ev) ∈ (c.thread true).evs ∧
      c.done = [d] ∧ d.call = .displayLists ∧
      Shows (outs d.evs) 0 (str "a") ∧ ¬ Shows (outs d.evs) 0 (str "b") := by
  have hplay : (race Config.free (List.replicate 51 false ++ List.replicate 3 true)).any (fun c =>
      c.pending (Call.code true) true = some (.call (.pairTo (str "b") false)) ∧
        (phaseOf true (c.thread true).evs).word = some (str "p0") ∧ c.done.length = 1 ∧
        ∀ d ∈ c.done, d.call = .displayLists ∧
          Shows (outs d.evs) 0 (str "a") ∧ ¬ Shows (outs d.evs) 0 (str "b")) = true := by
    decide +kernel
  obtain ⟨c, hc, hrun⟩ := (Option.any_eq_true _ _).1 hplay
  obtain ⟨hcall, hword, hdone, hall⟩ := of_decide_eq_true hrun
  have hreach := race_reach hc
  obtain ⟨c', hs⟩ : ∃ c', Config.Step (Call.code true) sharedSem c true
      ⟨.call (.pairTo (str "b") false), ()⟩ c' := Config.step_of_pending hcall rfl
  obtain ⟨d, hd⟩ := List.length_eq_one_iff.1 hdone
  exact ⟨c, c', d, hreach, hs, (word_evs hreach true _).1 hword, hd,
    hall d (hd ▸ List.mem_singleton_self d)⟩

end Demo

end PairingV2
