import PairingV2.Demo.Config
import PairingV2.Demo.Loop
import PairingV2.Demo.Text

/-!
# Sessions

A run of `main` is an interpreter of the words that it reads: `Session.run` says which operations
it calls and what it prints for a list of words, from what `vehicles` is and how often the manager
was queried. A word that begins with an l makes `vehicles` and prints the table of it, the others
act on what the last such word has left. `main_session` is the whole program, from its arguments
on.
-/

namespace PairingV2

namespace Demo

/-! ## The interpreter -/

/-- What can be seen of a run: operations called, and what is printed. -/
abbrev Visible := Command ⊕ Out

def visible (es : List Ev) : List Visible := es.filterMap fun
  | ⟨.call c, _⟩ => some (.inl c)
  | ⟨.put o, _⟩ => some (.inr o)
  | _ => none

structure Session where
  vehicles : OrdSet Str
  queries : ℕ

def helpOuts : List Out := helpLines.flatMap fun line => [.put 0 (str line), .endl]

def helpText : Str := helpLines.flatMap fun line => str line ++ str "\n"

namespace Session

variable (m : ℕ → Manager) (signed : Bool)

def displayed (s : Session) : Session :=
  let vehicles := vehiclesOf (m s.queries).pairingList (m (s.queries + 1)).pairedList
  ⟨vehicles, s.queries + 3 + vehicles.elements.length⟩

/-- The rows of the table that a display prints. -/
def rows (s : Session) : List Row :=
  (visits m (s.queries + 3) (s.displayed m).vehicles.elements).map
    (row (m s.queries).pairingList (m (s.queries + 1)).pairedList (m (s.queries + 2)).connectedList)

def after (s : Session) (word : Str) : Session :=
  if word.head? = some (ch 'l') then s.displayed m else s

def turn (s : Session) (word : Str) : List Visible :=
  if word.head? = some (ch 'l') then (tableOuts (s.rows m)).map .inr
  else if word.head? = some (ch '?') ∨ word.head? = some (ch 'h') then helpOuts.map .inr
  else (tokenCalls signed s.vehicles word).map .inl

/-- What is seen for a list of words, up to the first that ends the session. -/
def run : Session → List Str → List Visible
  | _, [] => []
  | s, word :: ws => if exits word then [] else s.turn m signed word ++ (s.after m word).run ws

/-- The text that a word prints. -/
def shown (s : Session) (word : Str) : Str :=
  if word.head? = some (ch 'l') then tableText (s.rows m)
  else if word.head? = some (ch '?') ∨ word.head? = some (ch 'h') then helpText
  else []

def screen : Session → List Str → Str
  | _, [] => []
  | s, word :: ws => if exits word then [] else s.shown m word ++ (s.after m word).screen ws

end Session

def World.session (w : World) : Session := ⟨w.vehicles, w.queries⟩

/-! ## A word -/

@[simp] theorem visible_append (es fs : List Ev) : visible (es ++ fs) = visible es ++ visible fs :=
  List.filterMap_append

@[simp] theorem visible_putEvents : ∀ os : List Out, visible (putEvents os) = os.map .inr
  | [] => rfl
  | o :: os => congrArg (Sum.inr o :: ·) (visible_putEvents os)

/-- Where no operation is called, what is seen is what is printed. -/
theorem visible_of_commands : ∀ {es : List Ev}, commands es = [] → visible es = (outs es).map .inr
  | [], _ => rfl
  | ⟨i, a⟩ :: es, h => by
    cases i with
    | call c => cases h
    | put o => exact congrArg (Sum.inr o :: ·) (@visible_of_commands es h)
    | _ => exact @visible_of_commands es h

/-- Where nothing is printed, what is seen is the operations called. -/
theorem visible_of_outs : ∀ {es : List Ev}, outs es = [] → visible es = (commands es).map .inl
  | [], _ => rfl
  | ⟨i, a⟩ :: es, h => by
    cases i with
    | call c => exact congrArg (Sum.inl c :: ·) (@visible_of_outs es h)
    | put o => cases h
    | _ => exact @visible_of_outs es h

section Exec

variable (m : ℕ → Manager) (signed : Bool)

theorem visible_displayLists (w : World) :
    visible (displayLists.exec (answer m) w).1 = (tableOuts (w.session.rows m)).map .inr := by
  rw [visible_of_commands (commands_displayLists m w), exec_displayLists, outs_displayEvents]
  rfl

theorem processToken_display (rest : Str) :
    processToken signed (ch 'l' :: rest) = displayLists.bind fun _ => .ret true := rfl

theorem processToken_help {c : Byte} (hc : c = ch '?' ∨ c = ch 'h') (rest : Str) :
    processToken signed (c :: rest) = (displayHelp helpLines).bind fun _ => .ret true := by
  rcases hc with rfl | rfl <;> rfl

/-- Any other word prints nothing and leaves `vehicles` and the manager alone. -/
theorem exec_other {inp : Str} (hl : inp.head? ≠ some (ch 'l'))
    (hh : inp.head? ≠ some (ch '?') ∧ inp.head? ≠ some (ch 'h')) (w : World) :
    outs ((processToken signed inp).exec (answer m) w).1 = [] ∧
      ((processToken signed inp).exec (answer m) w).2.2.session = w.session := by
  have hcode := tokenCode signed inp
  generalize processToken signed inp = p at hcode
  cases hcode with
  | display => exact absurd rfl hl
  | help hc => rcases hc with rfl | rfl <;> simp at hh
  | exit | enterPairingMode | pairTo | stopPairing | stopConnecting | connectTo | disconnectFrom
  | unpairFrom | ignored => exact ⟨rfl, rfl⟩

/-- A word shows what the interpreter says and leaves what it says. -/
theorem exec_turn (inp : Str) (w : World) :
    visible ((processToken signed inp).exec (answer m) w).1 = w.session.turn m signed inp ∧
      ((processToken signed inp).exec (answer m) w).2.2.session = w.session.after m inp := by
  unfold Session.turn Session.after
  by_cases hl : inp.head? = some (ch 'l')
  · obtain ⟨rest, rfl⟩ := List.head?_eq_some_iff.1 hl
    rw [if_pos hl, if_pos hl, processToken_display, Prog.exec_bind, visible_append,
      visible_displayLists, exec_displayLists]
    exact ⟨List.append_nil _, rfl⟩
  rw [if_neg hl, if_neg hl]
  by_cases hh : inp.head? = some (ch '?') ∨ inp.head? = some (ch 'h')
  · obtain ⟨c, rest, rfl⟩ : ∃ c rest, inp = c :: rest := by
      rcases inp with _ | ⟨c, rest⟩
      · simp at hh
      · exact ⟨c, rest, rfl⟩
    rw [if_pos hh, processToken_help signed (by simpa using hh), displayHelp_eq, Prog.exec_bind,
      exec_putAll, visible_append, visible_putEvents]
    exact ⟨List.append_nil _, rfl⟩
  · obtain ⟨houts, hsession⟩ := exec_other m signed hl (not_or.1 hh) w
    rw [if_neg hh, visible_of_outs houts, (exec_processToken m signed inp w).1]
    exact ⟨rfl, hsession⟩

/-! ## The loop -/

/-- The loop of `main`, of at most `n` rounds; the result is `run`. -/
def loop : ℕ → Code Bool
  | 0 => pure true
  | n + 1 => do
    if ← loopBody signed then
      loop n
    else
      return false

variable {m signed} in
theorem exec_loop_of_run {w : World} (hrun : ((loopBody signed).exec (answer m) w).2.1 = true)
    (n : ℕ) :
    let x := (loopBody signed).exec (answer m) w
    (loop signed (n + 1)).exec (answer m) w =
      (x.1 ++ ((loop signed n).exec (answer m) x.2.2).1,
        ((loop signed n).exec (answer m) x.2.2).2) := by
  simp only [loop, Prog.bind_eq, Prog.exec_bind, hrun, if_true]

variable {m signed} in
theorem exec_loop_of_exit {w : World} (hrun : ((loopBody signed).exec (answer m) w).2.1 = false)
    (n : ℕ) : (loop signed (n + 1)).exec (answer m) w =
      (((loopBody signed).exec (answer m) w).1, false,
        ((loopBody signed).exec (answer m) w).2.2) := by
  simp only [loop, Prog.bind_eq, Prog.exec_bind, hrun, Bool.false_eq_true, if_false, Prog.pure_eq,
    Prog.exec_ret, List.append_nil]

/-- The rounds of the loop are those counted before. -/
theorem exec_loop : ∀ (n : ℕ) (w : World),
    ((loop signed n).exec (answer m) w).2 = rounds m signed n w
  | 0, _ => rfl
  | n + 1, w => by
    rw [rounds]
    split_ifs with hrun
    · rw [exec_loop_of_run hrun]
      exact exec_loop n _
    · rw [exec_loop_of_exit (by simpa using hrun)]

theorem exec_loopBody_turn (w : World) :
    visible ((loopBody signed).exec (answer m) w).1 = w.session.turn m signed w.stdin.readWord.1 ∧
      ((loopBody signed).exec (answer m) w).2.2.session =
        w.session.after m w.stdin.readWord.1 :=
  exec_turn m signed w.stdin.readWord.1 { w with stdin := w.stdin.readWord.2 }

/-- After the end of the input the loop goes round without doing anything. -/
theorem exec_loop_nil : ∀ (n : ℕ) {w : World}, w.stdin.Feeds [] →
    visible ((loop signed n).exec (answer m) w).1 = [] ∧
      ((loop signed n).exec (answer m) w).2.1 = true
  | 0, _, _ => ⟨rfl, rfl⟩
  | n + 1, w, h => by
    obtain ⟨hempty, hnext⟩ := h.nil
    obtain ⟨-, hrun, hin⟩ := exec_loopBody m signed w
    obtain ⟨hvisible, -⟩ := exec_loopBody_turn m signed w
    rw [hempty] at hrun hvisible
    rw [exec_loop_of_run (by rw [hrun]; rfl), visible_append, hvisible]
    exact exec_loop_nil n (by rw [hin]; exact hnext)

theorem turn_of_exits (s : Session) {word : Str} (h : exits word = true) :
    s.turn m signed word = [] := by
  obtain ⟨rest, rfl⟩ := List.head?_eq_some_iff.1 (of_decide_eq_true h)
  have hcalls : tokenCalls signed s.vehicles (ch 'x' :: rest) = [] := by
    rcases rest with _ | ⟨b, _ | ⟨d, rest⟩⟩ <;> rfl
  rw [Session.turn, if_neg (by simp [ch]), if_neg (by simp [ch]), hcalls]
  rfl

/-- The loop is the interpreter of the words that it has the rounds for. -/
theorem exec_loop_run : ∀ {n : ℕ} {w : World} {ws : List Str}, w.stdin.Feeds ws →
    visible ((loop signed n).exec (answer m) w).1 = w.session.run m signed (ws.take n) ∧
      (((loop signed n).exec (answer m) w).2.1 = false ↔ ∃ word ∈ ws.take n, exits word = true)
  | 0, w, ws, _ => by
    rw [List.take_zero]
    exact ⟨rfl, by simp [loop]⟩
  | n + 1, w, [], h => by
    obtain ⟨hvisible, hrun⟩ := exec_loop_nil m signed (n + 1) h
    rw [hvisible, hrun]
    exact ⟨rfl, by simp⟩
  | n + 1, w, word :: ws, h => by
    obtain ⟨hword, -, hnext⟩ := h.cons
    obtain ⟨-, hrun, hin⟩ := exec_loopBody m signed w
    obtain ⟨hvisible, hafter⟩ := exec_loopBody_turn m signed w
    rw [hword] at hrun hvisible hafter
    by_cases hexits : exits word = true
    · have hstop : ((loopBody signed).exec (answer m) w).2.1 = false := by
        rw [hrun]
        simpa [exits] using hexits
      rw [exec_loop_of_exit hstop, hvisible, turn_of_exits m signed _ hexits]
      simp [Session.run, hexits]
    · have hgo : ((loopBody signed).exec (answer m) w).2.1 = true := by
        rw [hrun]
        simpa [exits] using hexits
      rw [← hin] at hnext
      obtain ⟨hrest, hleft⟩ := @exec_loop_run n _ _ hnext
      rw [exec_loop_of_run hgo, visible_append, hvisible, hrest, hafter, hleft]
      simp [Session.run, hexits]

/-! ## The screen -/

theorem outs_of_visible : ∀ es : List Ev, outs es = (visible es).filterMap Sum.getRight?
  | [] => rfl
  | ⟨i, a⟩ :: es => by
    cases i with
    | put o => exact congrArg (o :: ·) (outs_of_visible es)
    | _ => exact outs_of_visible es

/-- What is printed first does not depend on what follows, and passes on its adjustment only. -/
theorem written_append : ∀ (left : Bool) (os os' : List Out),
    ∃ left', written left (os ++ os') = written left os ++ written left' os'
  | left, [], os' => ⟨left, rfl⟩
  | left, .put width s :: os, os' => by
    obtain ⟨left', h⟩ := written_append left os os'
    exact ⟨left', by simp only [List.cons_append, written, h, List.append_assoc]⟩
  | left, .endl :: os, os' => by
    obtain ⟨left', h⟩ := written_append left os os'
    exact ⟨left', by simp only [List.cons_append, written, h]⟩
  | left, .right :: os, os' => written_append false os os'
  | left, .left :: os, os' => written_append true os os'

theorem written_helpOuts (left : Bool) : written left helpOuts = helpText := by
  have hlines : ∀ lines : List String,
      written left (lines.flatMap fun line => [.put 0 (str line), .endl]) =
        lines.flatMap fun line => str line ++ str "\n" := by
    intro lines
    induction lines with
    | nil => rfl
    | cons line lines ih =>
      simp only [List.flatMap_cons, List.cons_append, List.nil_append, written_put_zero, written,
        ih, List.append_assoc]
      rfl
  exact hlines helpLines

variable {m} in
theorem written_turn (left : Bool) (s : Session) (word : Str) :
    written left ((s.turn m signed word).filterMap Sum.getRight?) = s.shown m word := by
  have hright : ∀ os : List Out, (os.map Sum.inr : List Visible).filterMap Sum.getRight? = os := by
    intro os
    rw [List.filterMap_map]
    exact List.filterMap_some
  unfold Session.turn Session.shown
  split_ifs
  · rw [hright, written_tableOuts]
  · rw [hright, written_helpOuts]
  · rw [List.filterMap_map]
    have hnone : (tokenCalls signed s.vehicles word).filterMap
        (Sum.getRight? ∘ (Sum.inl : Command → Visible)) = [] :=
      List.filterMap_eq_nil_iff.2 fun _ _ => rfl
    rw [hnone, written]

/-- The adjustment of the stream that a table leaves behind shows nowhere. -/
theorem written_run : ∀ (left : Bool) (ws : List Str) (s : Session),
    written left ((s.run m signed ws).filterMap Sum.getRight?) = s.screen m ws
  | _, [], _ => rfl
  | left, word :: ws, s => by
    rw [Session.run, Session.screen]
    split_ifs
    · rfl
    · rw [List.filterMap_append]
      obtain ⟨left', h⟩ := written_append left ((s.turn m signed word).filterMap Sum.getRight?) _
      rw [h, written_turn, written_run left' ws]

end Exec

/-! ## The program -/

/-- The actions of `main`: its callbacks are registered, the connection manager is started, and
the rest is the demo. -/
inductive MainAct where
  | registerPairingListChangedCallback
  | registerPairedListChangedCallback
  | registerConnectedListChangedCallback
  | registerTelemetryCallback
  | registerStatusCallback
  | init (config : Str)
  | demo (i : Act)
  deriving DecidableEq

@[reducible] def MainAns : MainAct → Type
  | .registerPairingListChangedCallback => Unit
  | .registerPairedListChangedCallback => Unit
  | .registerConnectedListChangedCallback => Unit
  | .registerTelemetryCallback => Unit
  | .registerStatusCallback => Unit
  | .init _ => Bool
  | .demo i => Ans i

abbrev MainCode (ρ : Type) := Prog MainAct MainAns ρ

abbrev MainEv := Event MainAct MainAns

/-- A part of the demo as a part of `main`. -/
def Code.inMain {ρ : Type} : Code ρ → MainCode ρ
  | .ret r => .ret r
  | .act i k => .act (.demo i) fun a => Code.inMain (k a)

def demoEvent (e : Ev) : MainEv := ⟨.demo e.1, e.2⟩

/-- `main` with a loop of at most `n` rounds; the result is its status, or none if the loop is
still running. -/
def mainCode (signed : Bool) (argv : List Str) (n : ℕ) : MainCode (Option ℤ) :=
  match configuration argv with
  | none => pure (some (-1))
  | some config => do
    Prog.perform MainAct.registerPairingListChangedCallback
    Prog.perform MainAct.registerPairedListChangedCallback
    Prog.perform MainAct.registerConnectedListChangedCallback
    Prog.perform MainAct.registerTelemetryCallback
    Prog.perform MainAct.registerStatusCallback
    let initialized ← Prog.perform (MainAct.init config)
    if !initialized then
      return some (-1)
    Code.inMain (displayHelp helpLines)
    let run ← Code.inMain (loop signed n)
    return if run then none else some 0

/-- The manager can be started with the configurations that `ok` accepts. -/
def mainAnswer (m : ℕ → Manager) (ok : Str → Bool) : (i : MainAct) → World → MainAns i × World
  | .init config, w => (ok config, w)
  | .demo i, w => answer m i w
  | .registerPairingListChangedCallback, w => ((), w)
  | .registerPairedListChangedCallback, w => ((), w)
  | .registerConnectedListChangedCallback, w => ((), w)
  | .registerTelemetryCallback, w => ((), w)
  | .registerStatusCallback, w => ((), w)

theorem exec_inMain (m : ℕ → Manager) (ok : Str → Bool) {ρ : Type} : ∀ (p : Code ρ) (w : World),
    (Code.inMain p).exec (mainAnswer m ok) w =
      ((p.exec (answer m) w).1.map demoEvent, (p.exec (answer m) w).2)
  | .ret r, w => rfl
  | .act i k, w => by
    rw [Code.inMain, Prog.exec_act, mainAnswer, exec_inMain m ok (k (answer m i w).1),
      Prog.exec_act]
    rfl

def registrations : List MainEv :=
  [⟨.registerPairingListChangedCallback, ()⟩, ⟨.registerPairedListChangedCallback, ()⟩,
    ⟨.registerConnectedListChangedCallback, ()⟩, ⟨.registerTelemetryCallback, ()⟩,
    ⟨.registerStatusCallback, ()⟩]

/-- Without a driver among its arguments `main` does nothing and returns -1. Otherwise it registers
its callbacks and starts the manager with the configuration of its drivers; if that fails, it
returns -1 without anything else, and if not, what is seen of it is the help and what the
interpreter says for the words of its input, to the bytes on the screen, and it returns 0 exactly if
one of them ends the session. -/
theorem main_session (m : ℕ → Manager) (ok : Str → Bool) (signed : Bool) (argv : List Str)
    (text : Str) (n : ℕ) :
    let x := (mainCode signed argv n).exec (mainAnswer m ok) ⟨∅, .ofText text, 0⟩
    match configuration argv with
    | none => x.1 = [] ∧ x.2.1 = some (-1)
    | some config => ∃ es, x.1 = registrations ++ ⟨.init config, ok config⟩ :: es.map demoEvent ∧
      if ok config then
        visible es = helpOuts.map .inr ++ Session.run m signed ⟨∅, 0⟩ ((words text).take n) ∧
          (∀ left, written left (outs es) =
            helpText ++ Session.screen m ⟨∅, 0⟩ ((words text).take n)) ∧
          (x.2.1 = some 0 ↔ ∃ word ∈ (words text).take n, exits word = true) ∧
          (x.2.1 = none ↔ ∀ word ∈ (words text).take n, exits word = false)
      else es = [] ∧ x.2.1 = some (-1) := by
  intro x
  rcases hconfig : configuration argv with _ | config
  · have hx : x = ([], some (-1), ⟨∅, .ofText text, 0⟩) := by
      simp only [x, mainCode, hconfig]
      rfl
    rw [hx]
    exact ⟨rfl, rfl⟩
  · rcases hok : ok config with _ | _
    · refine ⟨[], ?_, by simp [x, mainCode, hconfig, hok, mainAnswer]⟩
      simp [x, mainCode, hconfig, hok, mainAnswer, registrations]
    · let w : World := ⟨∅, .ofText text, 0⟩
      let l := (loop signed n).exec (answer m) w
      have hhelp : (displayHelp helpLines).exec (answer m) w = (putEvents helpOuts, (), w) := by
        rw [displayHelp_eq, exec_putAll]
        rfl
      have hx : x = (registrations ++ ⟨.init config, ok config⟩ ::
          (putEvents helpOuts ++ l.1).map demoEvent, if l.2.1 then none else some 0, l.2.2) := by
        simp [x, mainCode, hconfig, hok, mainAnswer, Prog.exec_bind, exec_inMain, hhelp,
          registrations, l, w]
      obtain ⟨hvisible, hleft⟩ :=
        @exec_loop_run m signed n w (words text) (IStream.feeds_ofText text)
      have hgoing : l.2.1 = true ↔ ∀ word ∈ (words text).take n, exits word = false := by
        rw [← Bool.not_eq_false, hleft]
        simp
      refine ⟨putEvents helpOuts ++ l.1, by rw [hx, hok], ?_⟩
      rw [if_pos hok, hx, visible_append, visible_putEvents]
      refine ⟨congrArg _ hvisible, fun left => ?_, ?_, ?_⟩
      · obtain ⟨left', hwritten⟩ := written_append left helpOuts (outs l.1)
        rw [outs_append, outs_putEvents, hwritten, written_helpOuts, outs_of_visible, hvisible]
        exact congrArg _ (written_run m signed left' _ _)
      · rw [← hleft]
        change (if l.2.1 then none else some 0) = some (0 : ℤ) ↔ l.2.1 = false
        cases l.2.1 <;> simp
      · rw [← hgoing]
        cases l.2.1 <;> simp

end Demo

end PairingV2
