import PairingV2.Lib.Protocol
import PairingV2.Demo.Commands

/-!
# How the demo uses `vehicles`

The order in which a call of `display_lists`, or a round of the command loop, works on the global
`vehicles`: it clears the set, fills it and visits it once, or looks one vehicle up and calls an
operation for it. `Phase` is how far it has got, and every call keeps to that order (`keeps_call`).
-/

namespace PairingV2

namespace Demo

/-- Neither `vehicles` nor an operation of the manager has to do with it. -/
def Act.Quiet : Act → Bool
  | .getPairingList => true
  | .getPairedList => true
  | .getConnectedList => true
  | .getPairedAutoconnect _ => true
  | .getConnectedDrivers _ => true
  | .put _ => true
  | _ => false

inductive Stage where
  | idle
  | rebuilding
  | listed (vs : List Str)
  | looked (name : Str)
  | acted
  deriving DecidableEq

/-- The word a round has read, and what it has done to `vehicles`. -/
structure Phase where
  word : Option Str
  stage : Stage

namespace Phase

def start : Phase := ⟨none, .idle⟩

/-- The phase after an event, where it is allowed. -/
def next (signed : Bool) (q : Phase) : Ev → Option Phase
  | ⟨.readWord, inp⟩ =>
    if q.word = none ∧ q.stage = .idle then some ⟨some inp, .idle⟩ else none
  | ⟨.clear, _⟩ => if q.stage = .idle then some { q with stage := .rebuilding } else none
  | ⟨.insert _, _⟩ => if q.stage = .rebuilding then some q else none
  | ⟨.elements, vs⟩ =>
    if q.stage = .rebuilding then some { q with stage := .listed vs } else none
  | ⟨.lookup n, name⟩ =>
    if q.stage = .idle ∧ q.word.map (fun inp => charToInt signed (inp.getD 1 nul)) = some n then
      some { q with stage := .looked name }
    else none
  | ⟨.call c, _⟩ =>
    match q.stage, c.vehicle with
    | .idle, none => some q
    | .looked name, some name' => if name = name' then some { q with stage := .acted } else none
    | _, _ => none
  | ⟨.put _, _⟩ => some q
  | ⟨.getPairingList, _⟩ => some q
  | ⟨.getPairedList, _⟩ => some q
  | ⟨.getConnectedList, _⟩ => some q
  | ⟨.getPairedAutoconnect _, _⟩ => some q
  | ⟨.getConnectedDrivers _, _⟩ => some q

/-- What an allowed event does to the phase. -/
inductive Step (signed : Bool) (q : Phase) : Ev → Phase → Prop where
  | quiet {i : Act} (a : Ans i) (hi : i.Quiet = true) : Step signed q ⟨i, a⟩ q
  | operation {c : Command} (hq : q.stage = .idle) (hc : c.vehicle = none) :
      Step signed q ⟨.call c, ()⟩ q
  | read (inp : Str) (hword : q.word = none) (hq : q.stage = .idle) :
      Step signed q ⟨.readWord, inp⟩ ⟨some inp, .idle⟩
  | clear (hq : q.stage = .idle) : Step signed q ⟨.clear, ()⟩ { q with stage := .rebuilding }
  | insert (v : Str) (hq : q.stage = .rebuilding) : Step signed q ⟨.insert v, ()⟩ q
  | elements (vs : List Str) (hq : q.stage = .rebuilding) :
      Step signed q ⟨.elements, vs⟩ { q with stage := .listed vs }
  | lookup {inp : Str} (name : Str) (hq : q.stage = .idle) (hword : q.word = some inp) :
      Step signed q ⟨.lookup (charToInt signed (inp.getD 1 nul)), name⟩
        { q with stage := .looked name }
  | act {c : Command} {name : Str} (hq : q.stage = .looked name) (hc : c.vehicle = some name) :
      Step signed q ⟨.call c, ()⟩ { q with stage := .acted }

theorem step_of_next {signed : Bool} {q q' : Phase} {e : Ev} (h : next signed q e = some q') :
    Step signed q e q' := by
  obtain ⟨i, a⟩ := e
  cases i with
  | readWord =>
    rw [next, Option.ite_none_right_eq_some, Option.some.injEq] at h
    obtain ⟨⟨hword, hq⟩, rfl⟩ := h
    exact .read _ hword hq
  | clear =>
    rw [next, Option.ite_none_right_eq_some, Option.some.injEq] at h
    obtain ⟨hq, rfl⟩ := h
    exact .clear hq
  | insert v =>
    rw [next, Option.ite_none_right_eq_some, Option.some.injEq] at h
    obtain ⟨hq, rfl⟩ := h
    exact .insert v hq
  | elements =>
    rw [next, Option.ite_none_right_eq_some, Option.some.injEq] at h
    obtain ⟨hq, rfl⟩ := h
    exact .elements _ hq
  | lookup n =>
    rw [next, Option.ite_none_right_eq_some, Option.some.injEq] at h
    obtain ⟨⟨hq, hn⟩, rfl⟩ := h
    obtain ⟨inp, hinp, rfl⟩ := Option.map_eq_some_iff.1 hn
    exact .lookup _ hq hinp
  | call c =>
    simp only [next] at h
    split at h
    · rename_i hq hc
      obtain rfl := Option.some.inj h
      exact .operation hq hc
    · rename_i name name' hq hc
      rw [Option.ite_none_right_eq_some, Option.some.injEq] at h
      obtain ⟨rfl, rfl⟩ := h
      exact .act hq hc
    · cases h
  | getPairingList | getPairedList | getConnectedList | getPairedAutoconnect | getConnectedDrivers
  | put =>
    obtain rfl := Option.some.inj h
    exact .quiet _ rfl

def Final (q : Phase) : Prop := q.stage ≠ .rebuilding ∧ ∀ name, q.stage ≠ .looked name

end Phase

variable {signed : Bool}

/-! ## Programs keep to it -/

theorem keeps_putAll : ∀ (os : List Out) (q : Phase),
    Prog.Keeps (Phase.next signed) (fun q' _ => q' = q) q (putAll os)
  | [], _ => rfl
  | _ :: os, q => fun _ => ⟨q, rfl, keeps_putAll os q⟩

theorem keeps_insertAll {q : Phase} (hq : q.stage = .rebuilding) : ∀ vs : List Str,
    Prog.Keeps (Phase.next signed) (fun q' _ => q' = q) q (insertAll vs)
  | [] => rfl
  | v :: vs => fun _ => ⟨q, by rw [Phase.next, if_pos hq], keeps_insertAll hq vs⟩

theorem keeps_displayRow (pairingList pairedList connectedList : List Str) (i : ℕ) (v : Str)
    (q : Phase) :
    Prog.Keeps (Phase.next signed) (fun q' _ => q' = q) q
      (displayRow pairingList pairedList connectedList i v) := by
  rw [displayRow_eq]
  refine (keeps_putAll _ q).bind ?_
  rintro _ _ rfl
  by_cases hv : v ∈ connectedList
  · rw [if_pos hv]
    refine (keeps_putAll _ _).bind ?_
    rintro _ _ rfl ds
    exact ⟨_, rfl, keeps_putAll _ _⟩
  · rw [if_neg hv]
    exact fun b => ⟨_, rfl, keeps_putAll _ _⟩

theorem keeps_displayRows (pairingList pairedList connectedList : List Str) (q : Phase) :
    ∀ (vs : List Str) (i : ℕ),
      Prog.Keeps (Phase.next signed) (fun q' _ => q' = q) q
        (displayRows pairingList pairedList connectedList i vs)
  | [], _ => rfl
  | v :: vs, i => by
    refine (keeps_displayRow pairingList pairedList connectedList i v q).bind ?_
    rintro _ _ rfl
    exact keeps_displayRows pairingList pairedList connectedList _ vs (i + 1)

theorem keeps_displayLists {q : Phase} (hq : q.stage = .idle) :
    Prog.Keeps (Phase.next signed) (fun q' _ => ∃ vs, q' = { q with stage := .listed vs }) q
      displayLists := by
  unfold displayLists
  rw [displayHeader_eq, displayFooter_eq]
  refine (keeps_putAll _ q).bind ?_
  rintro _ _ rfl pairingList
  refine ⟨_, rfl, fun pairedList => ⟨_, rfl, fun connectedList => ⟨_, rfl, fun _ =>
    ⟨_, if_pos hq, ?_⟩⟩⟩⟩
  refine (keeps_insertAll rfl pairingList).bind ?_
  rintro _ _ rfl
  refine (keeps_insertAll rfl pairedList).bind ?_
  rintro _ _ rfl vs
  refine ⟨_, rfl, ?_⟩
  refine (keeps_displayRows pairingList pairedList connectedList _ vs 0).bind ?_
  rintro _ _ rfl
  refine (keeps_putAll footerOuts _).mono ?_
  rintro _ _ rfl
  exact ⟨vs, rfl⟩

/-! ## Tokens -/

theorem keeps_operation {q : Phase} {c : Command} (hq : q.stage = .idle)
    (hc : c.vehicle = none) :
    Prog.Keeps (Phase.next signed) (fun q' _ => q' = q) q (Code.call c) :=
  fun _ => ⟨q, by simp [Phase.next, hq, hc], rfl⟩

/-- A vehicle is looked up by the second character of the word, and the operation is called for
what was found. -/
theorem keeps_lookupAnd {q : Phase} {inp : Str} {b : Byte} {operation : Str → Command}
    (hq : q.stage = .idle) (hword : q.word = some inp) (hb : inp.getD 1 nul = b)
    (hop : ∀ name, (operation name).vehicle = some name) :
    Prog.Keeps (Phase.next signed) (fun q' _ => q'.Final) q (lookupAnd signed b operation) := by
  intro name
  refine ⟨{ q with stage := .looked name }, by simp [Phase.next, hq, hword, ← hb], ?_⟩
  intro _
  exact ⟨{ q with stage := .acted }, by simp [Phase.next, hop], by simp [Prog.Keeps, Phase.Final]⟩

theorem keeps_processToken {q : Phase} {inp : Str} (hq : q.stage = .idle)
    (hword : q.word = some inp) :
    Prog.Keeps (Phase.next signed) (fun q' _ => q'.Final) q (processToken signed inp) := by
  have hfinal : q.Final := by simp [Phase.Final, hq]
  have hop : ∀ {c : Command}, c.vehicle = none → Prog.Keeps (Phase.next signed)
      (fun q' _ => q'.Final) q ((Code.call c).bind fun _ => .ret true) := by
    intro c hc
    refine (keeps_operation hq hc).bind ?_
    rintro _ _ rfl
    exact hfinal
  have hcode := tokenCode signed inp
  generalize processToken signed inp = p at hcode
  cases hcode with
  | exit | ignored => exact hfinal
  | display =>
    refine (keeps_displayLists hq).bind ?_
    rintro _ _ ⟨vs, rfl⟩
    simp [Prog.Keeps, Phase.Final]
  | help =>
    rw [displayHelp_eq]
    refine (keeps_putAll _ q).bind ?_
    rintro _ _ rfl
    exact hfinal
  | enterPairingMode | stopPairing | stopConnecting => exact hop rfl
  | connectTo | disconnectFrom | unpairFrom =>
    exact keeps_lookupAnd hq hword rfl fun _ => rfl
  | pairTo =>
    refine (keeps_operation hq rfl).bind ?_
    rintro _ _ rfl
    exact keeps_lookupAnd hq hword rfl fun _ => rfl

/-! ## Calls -/

/-- A call of `display_lists` by a callback, or a round of the command loop. -/
inductive Call where
  | displayLists
  | loopBody
  deriving DecidableEq

def Call.code (signed : Bool) : Call → Code Bool
  | .displayLists => Demo.displayLists.bind fun _ => .ret true
  | .loopBody => Demo.loopBody signed

theorem keeps_call (call : Call) :
    Prog.Keeps (Phase.next signed) (fun q' _ => q'.Final) .start (call.code signed) := by
  cases call with
  | displayLists =>
    refine (keeps_displayLists rfl).bind ?_
    rintro _ _ ⟨vs, rfl⟩
    simp [Prog.Keeps, Phase.Final]
  | loopBody => exact fun inp => ⟨_, rfl, keeps_processToken rfl rfl⟩

/-! ## What a pass over `vehicles` prints -/

theorem not_elements_putEvents (vs : List Str) (os : List Out) :
    (⟨.elements, vs⟩ : Ev) ∉ putEvents os := by
  simp [putEvents]

theorem not_elements_rowsEvents (vs : List Str) (pairingList pairedList connectedList : List Str) :
    ∀ (xs : List Visit) (i : ℕ),
      (⟨.elements, vs⟩ : Ev) ∉ rowsEvents pairingList pairedList connectedList i xs
  | [], _ => List.not_mem_nil
  | x :: xs, i => by
    have ih := not_elements_rowsEvents vs pairingList pairedList connectedList xs (i + 1)
    rw [rowsEvents, rowEvents]
    split_ifs <;> simp [not_elements_putEvents, ih]

theorem elements_mem_displayEvents {vs pairingList pairedList connectedList : List Str}
    {xs : List Visit} (h : (⟨.elements, vs⟩ : Ev) ∈
      displayEvents pairingList pairedList connectedList xs) : vs = xs.map Prod.fst := by
  simpa [displayEvents, not_elements_putEvents, not_elements_rowsEvents, insertEvents] using h

theorem shows_of_follows_displayLists {es : List Ev} {run : Bool}
    (h : Prog.Follows (displayLists.bind fun _ => .ret true) es (.ret run)) {vs : List Str}
    (hvs : ⟨.elements, vs⟩ ∈ es) (k : ℕ) (v : Str) : Shows (outs es) k v ↔ vs[k]? = some v := by
  obtain ⟨es₁, _, s, es₂, rfl, h₁, h₂⟩ := Prog.steps_bind h
  obtain ⟨rfl, -, -⟩ := Prog.steps_ret.1 h₂
  obtain ⟨pairingList, pairedList, connectedList, xs, rfl⟩ := follows_displayLists h₁
  rw [List.append_nil] at hvs ⊢
  rw [elements_mem_displayEvents hvs, outs_displayEvents, shows_tableOuts, List.map_map]
  rfl

theorem follows_lookupAnd {b : Byte} {operation : Str → Command} {es : List Ev} {run : Bool}
    (h : Prog.Follows (lookupAnd signed b operation) es (.ret run)) :
    ∃ name, es = [⟨.lookup (charToInt signed b), name⟩, ⟨.call (operation name), ()⟩] := by
  obtain ⟨name, _, _, rfl, -, h⟩ := Prog.steps_act.1 h
  obtain ⟨_, _, _, rfl, -, h⟩ := Prog.steps_act.1 h
  obtain ⟨rfl, -, -⟩ := Prog.steps_ret.1 h
  exact ⟨name, rfl⟩

/-- A token other than that of `display_lists` makes no pass. -/
theorem shows_of_follows_processToken {inp : Str} {es : List Ev} {run : Bool}
    (h : Prog.Follows (processToken signed inp) es (.ret run)) {vs : List Str}
    (hvs : ⟨.elements, vs⟩ ∈ es) (k : ℕ) (v : Str) : Shows (outs es) k v ↔ vs[k]? = some v := by
  have hcode := tokenCode signed inp
  generalize processToken signed inp = p at hcode h
  cases hcode with
  | exit | ignored =>
    obtain ⟨rfl, -, -⟩ := Prog.steps_ret.1 h
    exact absurd hvs List.not_mem_nil
  | display => exact shows_of_follows_displayLists h hvs k v
  | help =>
    obtain ⟨es₁, _, s, es₂, rfl, h₁, h₂⟩ := Prog.steps_bind h
    obtain ⟨rfl, -, -⟩ := Prog.steps_ret.1 h₂
    rw [displayHelp_eq] at h₁
    rw [follows_putAll h₁, List.append_nil] at hvs
    exact absurd hvs (not_elements_putEvents vs _)
  | enterPairingMode | stopPairing | stopConnecting =>
    obtain ⟨_, _, _, rfl, -, h⟩ := Prog.steps_act.1 h
    obtain ⟨rfl, -, -⟩ := Prog.steps_ret.1 h
    simp at hvs
  | connectTo | disconnectFrom | unpairFrom =>
    obtain ⟨name, rfl⟩ := follows_lookupAnd h
    simp at hvs
  | pairTo =>
    obtain ⟨_, _, _, rfl, -, h⟩ := Prog.steps_act.1 h
    obtain ⟨name, rfl⟩ := follows_lookupAnd h
    simp at hvs

/-- What a call that has returned has printed, if it made a pass over `vehicles`. -/
theorem shows_of_elements {call : Call} {es : List Ev} {run : Bool}
    (h : Prog.Follows (call.code signed) es (.ret run)) {vs : List Str}
    (hvs : ⟨.elements, vs⟩ ∈ es) (k : ℕ) (v : Str) : Shows (outs es) k v ↔ vs[k]? = some v := by
  cases call with
  | displayLists => exact shows_of_follows_displayLists h hvs k v
  | loopBody =>
    obtain ⟨inp, _, es, rfl, -, h⟩ := Prog.steps_act.1 h
    have houts : outs (⟨.readWord, inp⟩ :: es) = outs es := rfl
    rw [houts]
    exact shows_of_follows_processToken h (by simpa using hvs) k v

end Demo

end PairingV2
