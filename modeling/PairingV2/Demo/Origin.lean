import PairingV2.Demo.Race

/-!
# Where the names come from

However the displays of the callbacks and the rounds of the command loop interleave, only a round
calls the operations of the manager, and a name that it passes is empty or in a list that the
manager has returned before (`commands_origin`): no interleaving makes a name up.
-/

namespace PairingV2

namespace Demo

variable {τ : Type} {signed : Bool}

/-- The name that an operation is called for has just been looked up, and the pairing mode was
entered right before it was if the operation pairs. -/
def LookedUp (es : List Ev) : Command → Prop
  | .pairTo name skipConfig => skipConfig = false ∧
    ∃ n, [⟨.call .enterPairingMode, ()⟩, ⟨.lookup n, name⟩] <:+ es
  | .connectTo name | .disconnectFrom name | .unpairFrom name => ∃ n, [⟨.lookup n, name⟩] <:+ es
  | .enterPairingMode | .stopPairing | .stopConnecting => True

/-- The vehicle is in a list that the manager has returned. -/
def ListedIn (es : List Ev) (v : Str) : Prop :=
  ∃ vs, v ∈ vs ∧ (⟨.getPairingList, vs⟩ ∈ es ∨ ⟨.getPairedList, vs⟩ ∈ es)

theorem ListedIn.mono {es es' : List Ev} (h : es ⊆ es') {v : Str} (hv : ListedIn es v) :
    ListedIn es' v := by
  obtain ⟨vs, hvs, hlist⟩ := hv
  exact ⟨vs, hvs, hlist.imp (h ·) (h ·)⟩

/-- What a call has performed before it performs an event: it inserts what a list told it, and it
calls operations in a round that has read a word. -/
def Allowed (es : List Ev) : Ev → Prop
  | ⟨.insert v, _⟩ => ListedIn es v
  | ⟨.call c, _⟩ => (∃ inp, ⟨.readWord, inp⟩ ∈ es) ∧ LookedUp es c
  | _ => True

theorem LookedUp.lookup {es : List Ev} {c : Command} (h : LookedUp es c) {name : Str}
    (hname : c.vehicle = some name) : ∃ n, ⟨.lookup n, name⟩ ∈ es := by
  cases c with
  | pairTo name' skipConfig =>
    obtain rfl := Option.some.inj hname
    obtain ⟨-, n, hsuffix⟩ := h
    exact ⟨n, hsuffix.subset (by simp)⟩
  | connectTo name' | disconnectFrom name' | unpairFrom name' =>
    obtain rfl := Option.some.inj hname
    obtain ⟨n, hsuffix⟩ := h
    exact ⟨n, hsuffix.subset List.mem_cons_self⟩
  | enterPairingMode | stopPairing | stopConnecting => cases hname

/-! ## Programs obey -/

/-- What was performed is still there. -/
abbrev Later (es : List Ev) {ρ : Type} (es' : List Ev) (_ : ρ) : Prop := es <+: es'

theorem Later.of_snoc {es : List Ev} {e : Ev} {ρ : Type} {p : Code ρ}
    (h : Prog.Obeys Allowed (Later (es ++ [e])) (es ++ [e]) p) :
    Prog.Obeys Allowed (Later es) (es ++ [e]) p :=
  h.mono fun _ _ => (List.prefix_append _ _).trans

theorem obeys_putAll : ∀ (os : List Out) (es : List Ev),
    Prog.Obeys Allowed (Later es) es (putAll os)
  | [], _ => List.prefix_rfl
  | _ :: os, _ => fun _ => ⟨trivial, Later.of_snoc (obeys_putAll os _)⟩

theorem obeys_insertAll : ∀ {vs : List Str} {es : List Ev}, (∀ v ∈ vs, ListedIn es v) →
    Prog.Obeys Allowed (Later es) es (insertAll vs)
  | [], _, _ => List.prefix_rfl
  | v :: vs, es, h => fun _ => by
    refine ⟨h v List.mem_cons_self, Later.of_snoc (obeys_insertAll fun v' hv' => ?_)⟩
    exact (h v' (List.mem_cons_of_mem _ hv')).mono (List.subset_append_left _ _)

theorem obeys_displayRow (pairingList pairedList connectedList : List Str) (i : ℕ) (v : Str)
    (es : List Ev) :
    Prog.Obeys Allowed (Later es) es (displayRow pairingList pairedList connectedList i v) := by
  rw [displayRow_eq]
  refine (obeys_putAll _ es).bind fun es₁ _ h₁ => ?_
  by_cases hv : v ∈ connectedList
  · rw [if_pos hv]
    refine (obeys_putAll _ es₁).bind fun es₂ _ h₂ => fun ds => ⟨trivial, ?_⟩
    refine (Later.of_snoc (obeys_putAll _ _)).mono fun es₃ _ h₃ => ?_
    exact h₁.trans (h₂.trans h₃)
  · rw [if_neg hv]
    refine fun b => ⟨trivial, ?_⟩
    exact (Later.of_snoc (obeys_putAll _ _)).mono fun es₃ _ h₃ => h₁.trans h₃

theorem obeys_displayRows (pairingList pairedList connectedList : List Str) :
    ∀ (vs : List Str) (i : ℕ) (es : List Ev),
      Prog.Obeys Allowed (Later es) es (displayRows pairingList pairedList connectedList i vs)
  | [], _, _ => List.prefix_rfl
  | v :: vs, i, es => by
    refine (obeys_displayRow pairingList pairedList connectedList i v es).bind fun es₁ _ h₁ => ?_
    refine (obeys_displayRows pairingList pairedList connectedList vs (i + 1) es₁).mono ?_
    exact fun es₂ _ h₂ => h₁.trans h₂

theorem obeys_displayLists (es : List Ev) :
    Prog.Obeys Allowed (fun _ _ => True) es displayLists := by
  unfold displayLists
  rw [displayHeader_eq, displayFooter_eq]
  refine (obeys_putAll _ es).bind fun es₁ _ _ => fun pairingList => ⟨trivial, ?_⟩
  refine fun pairedList => ⟨trivial, fun connectedList => ⟨trivial, fun _ => ⟨trivial, ?_⟩⟩⟩
  refine (obeys_insertAll fun v hv => ⟨pairingList, hv, .inl (by simp)⟩).bind fun es₂ _ h₂ => ?_
  refine (obeys_insertAll fun v hv => ⟨pairedList, hv, .inr (h₂.subset (by simp))⟩).bind
    fun es₃ _ _ => fun vs => ⟨trivial, ?_⟩
  refine (obeys_displayRows _ _ _ vs 0 _).bind fun es₄ _ _ => ?_
  exact (obeys_putAll _ es₄).mono fun _ _ _ => trivial

theorem obeys_processToken {es : List Ev} {inp : Str} (hread : ⟨.readWord, inp⟩ ∈ es) :
    Prog.Obeys Allowed (fun _ _ => True) es (processToken signed inp) := by
  have hcode := tokenCode signed inp
  generalize processToken signed inp = p at hcode
  cases hcode with
  | exit | ignored => trivial
  | display =>
    refine (obeys_displayLists es).bind ?_
    exact fun _ _ _ => trivial
  | help =>
    rw [displayHelp_eq]
    refine (obeys_putAll _ es).bind ?_
    exact fun _ _ _ => trivial
  | enterPairingMode | stopPairing | stopConnecting =>
    exact fun _ => ⟨⟨⟨_, hread⟩, trivial⟩, trivial⟩
  | connectTo | disconnectFrom | unpairFrom =>
    refine fun name => ⟨trivial, fun _ => ⟨⟨⟨_, List.mem_append_left _ hread⟩, ?_⟩, trivial⟩⟩
    exact ⟨_, List.suffix_append _ _⟩
  | pairTo =>
    refine fun _ => ⟨⟨⟨_, hread⟩, trivial⟩, fun name => ⟨trivial, fun _ => ⟨⟨?_, ?_⟩, trivial⟩⟩⟩
    · exact ⟨_, List.mem_append_left _ (List.mem_append_left _ hread)⟩
    · rw [List.append_assoc]
      exact ⟨rfl, _, List.suffix_append _ _⟩

theorem obeys_call (call : Call) :
    Prog.Obeys Allowed (fun _ _ => True) [] (call.code signed) := by
  cases call with
  | displayLists =>
    refine (obeys_displayLists []).bind ?_
    exact fun _ _ _ => trivial
  | loopBody => exact fun inp => ⟨trivial, obeys_processToken List.mem_cons_self⟩

/-! ## Runs -/

theorem LookedUp.of_suffix {es es' : List Ev} (h : es <:+ es') {c : Command} (hc : LookedUp es c) :
    LookedUp es' c := by
  cases c with
  | pairTo name skipConfig =>
    obtain ⟨hskip, n, hsuffix⟩ := hc
    exact ⟨hskip, n, hsuffix.trans h⟩
  | connectTo | disconnectFrom | unpairFrom =>
    obtain ⟨n, hsuffix⟩ := hc
    exact ⟨n, hsuffix.trans h⟩
  | enterPairingMode | stopPairing | stopConnecting => trivial

/-- Only an insertion puts a vehicle into `vehicles`. -/
theorem mem_of_sharedSem {t : τ} {i : Act} {s s' : OrdSet Str} {a : Ans i}
    (h : sharedSem t i s a s') {v : Str} (hv : v ∈ s') : v ∈ s ∨ i = .insert v := by
  cases i with
  | clear =>
    have hs : s' = ∅ := h
    rw [hs] at hv
    exact absurd hv (OrdSet.not_mem_empty v)
  | insert v' =>
    have hs : s' = s.insert v' := h
    rw [hs, OrdSet.mem_insert] at hv
    exact hv.symm.imp_right fun heq => by rw [heq]
  | elements | lookup => exact .inl (h.2 ▸ hv)
  | getPairingList | getPairedList | getConnectedList | getPairedAutoconnect | getConnectedDrivers
  | put | call | readWord =>
    have hs : s' = s := h
    exact .inl (hs ▸ hv)

theorem getVehicleName_mem (n : ℤ) (vehicles : OrdSet Str) :
    getVehicleName n vehicles = [] ∨ getVehicleName n vehicles ∈ vehicles := by
  by_cases hn : n ∈ rowNumbers vehicles
  · exact .inr (getVehicleName_of_mem hn).1
  · exact .inl (getVehicleName_of_not_mem hn)

section Runs

variable [DecidableEq τ] {script : τ → List Call} {c : Threads τ}
  {guard : Threads τ → τ → Ev → Prop}

/-- An event of a run was allowed in its call. -/
theorem allowed_step (h : Reachable signed guard script c) {t : τ} {e : Ev} {c' : Threads τ}
    (hs : Config.Step (Call.code signed) sharedSem c t e c') : Allowed (c.thread t).evs e := by
  obtain ⟨call, evs, i, k, todo, a, hh, rfl, -, -, -⟩ := Config.step_cases hs
  rw [Config.evs_of_head hh]
  obtain ⟨hrest, -⟩ := (obeys_call call).steps (Config.follows_of_head (h.follows.1 t) hh)
  exact (hrest a).1

theorem mem_trace_of_evs (h : Reachable signed guard script c) {t : τ} {e : Ev}
    (he : e ∈ (c.thread t).evs) : (t, e) ∈ c.trace :=
  Config.mem_performed.1 ((h.evs_suffix t).subset he)

/-- `vehicles` holds what the manager has listed. -/
theorem listed_of_mem (h : Reachable signed guard script c) {v : Str} (hv : v ∈ c.shared) :
    ListedIn (c.trace.map Prod.snd) v := by
  induction h with
  | start => exact absurd hv (OrdSet.not_mem_empty v)
  | @step c c' t e hr _ hs ih =>
    have hallowed := allowed_step hr hs
    obtain ⟨call, evs, i, k, todo, a, -, rfl, hsem, htr, -⟩ := Config.step_cases hs
    rw [htr, List.map_append]
    rcases mem_of_sharedSem hsem hv with hold | rfl
    · exact (ih hold).mono (List.subset_append_left _ _)
    · refine ListedIn.mono (fun e he => ?_) hallowed
      exact List.mem_append_left _ (List.mem_map.2 ⟨_, mem_trace_of_evs hr he, rfl⟩)

/-- Only a round of the loop calls operations of the manager. It pairs right after it has entered
the pairing mode, and the vehicle of an operation is the one just looked up, which is the empty
name or in a list that the manager returned before. -/
theorem commands_origin (h : Reachable signed guard script c) {pre post : List (τ × Ev)} {t : τ}
    {cmd : Command} (htr : c.trace = pre ++ (t, ⟨.call cmd, ()⟩) :: post) :
    (∃ inp, (t, ⟨.readWord, inp⟩) ∈ pre) ∧ LookedUp (Config.performed t pre) cmd ∧
      ∀ name, cmd.vehicle = some name → name = [] ∨ ListedIn (pre.map Prod.snd) name := by
  obtain ⟨c₁, c₂, hr, -, hs, rfl⟩ := h.trace_split rfl htr
  obtain ⟨⟨inp, hinp⟩, hlooked⟩ := allowed_step hr hs
  refine ⟨⟨inp, mem_trace_of_evs hr hinp⟩, hlooked.of_suffix (hr.evs_suffix t), ?_⟩
  intro name hname
  obtain ⟨n, hn⟩ := hlooked.lookup hname
  obtain ⟨pre', post', hpre⟩ := List.append_of_mem (mem_trace_of_evs hr hn)
  obtain ⟨c₃, c₄, hr', -, hs', rfl⟩ := hr.trace_split rfl hpre
  obtain ⟨call, evs, i, k, todo, a, -, he, hsem, -, -⟩ := Config.step_cases hs'
  cases he
  obtain ⟨rfl, -⟩ := hsem
  refine (getVehicleName_mem n c₃.shared).imp_right fun hmem => ?_
  refine (listed_of_mem hr' hmem).mono ?_
  rw [hpre, List.map_append]
  exact List.subset_append_left _ _

end Runs

/-- A vehicle is paired to while another thread displays. -/
theorem commands_origin_race : ∃ (c : Threads Bool) (pre post : List (Bool × Ev)),
    c.trace = pre ++ (true, ⟨.call (.pairTo (str "b") false), ()⟩) :: post ∧
      ListedIn (pre.map Prod.snd) (str "b") := by
  have hplay : (race Config.free (List.replicate 51 false ++ List.replicate 3 true)).any (fun c =>
      c.pending (Call.code true) true = some (.call (.pairTo (str "b") false))) = true := by
    decide +kernel
  obtain ⟨c, hc, hcall⟩ := (Option.any_eq_true _ _).1 hplay
  obtain ⟨c', hs⟩ : ∃ c', Config.Step (Call.code true) sharedSem c true
      ⟨.call (.pairTo (str "b") false), ()⟩ c' :=
    Config.step_of_pending (of_decide_eq_true hcall) rfl
  obtain ⟨_, _, _, _, _, _, -, he, -, htr, -⟩ := Config.step_cases hs
  cases he
  obtain ⟨-, -, horigin⟩ := commands_origin ((race_reach hc).step trivial hs) htr
  exact ⟨c', c.trace, [], htr, (horigin _ rfl).resolve_left (by decide)⟩

end Demo

end PairingV2
