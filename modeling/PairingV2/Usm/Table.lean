import PairingV2.Lib.Switch

/-!
# Transition tables

The macros of `usm.h` as the statements they expand to, and what the expansion does: it returns the
next state of the entry for the state and the transition, and the error state when there is none
(`exec_code`). States and transitions are values of any type with a decidable equality, so they
need not be enumerators; the returned values are arbitrary, so they can say which entry they
come from.
-/

namespace PairingV2

namespace Usm

variable {X V R : Type}

/-- Macro arguments, each followed by a semicolon; with none of them the semicolon is an empty
statement. -/
def semicolons (args : List (Stmts X V R → Stmts X V R)) (rest : Stmts X V R) : Stmts X V R :=
  match args with
  | [] => .skip rest
  | a :: as => (a :: as).foldr (fun a c => a c) rest

/-- `USM_MAP` -/
def usmMap (transition : V) (nextState : R) (rest : Stmts X V R) : Stmts X V R :=
  .case transition (.ret nextState rest)

/-- `USM_STATE` -/
def usmState (transition : X) (startState : V) (args : List (Stmts X V R → Stmts X V R))
    (rest : Stmts X V R) : Stmts X V R :=
  .case startState (.switch transition (semicolons args (.default (.brk .nil))) (.brk rest))

/-- `USM_TABLE` -/
def usmTable (currentState : X) (error : R) (args : List (Stmts X V R → Stmts X V R)) :
    Stmts X V R :=
  .switch currentState (semicolons args (.default (.brk .nil))) (.ret error .nil)

inductive Var where
  | currentState | transition

/-- The arguments of a `USM_STATE`; C++ refuses two equal labels. -/
structure Row (V R : Type) where
  start : V
  entries : List (V × R)
  nodup : (entries.map Prod.fst).Nodup

structure Table (V R : Type) where
  rows : List (Row V R)
  nodup : (rows.map Row.start).Nodup

def Row.code (r : Row V R) : Stmts Var V R → Stmts Var V R :=
  usmState .transition r.start (r.entries.map fun e => usmMap e.1 e.2)

def Table.code (T : Table V R) (error : R) : Stmts Var V R :=
  usmTable .currentState error (T.rows.map Row.code)

/-- The values of the two parameters of `choose_next_state`. -/
def params (currentState transition : V) : Var → V
  | .currentState => currentState
  | .transition => transition

/-- The entry of the table for a state and a transition. -/
def Table.Entry (T : Table V R) (currentState transition : V) (nextState : R) : Prop :=
  ∃ r ∈ T.rows, r.start = currentState ∧ (transition, nextState) ∈ r.entries

section Exec

variable [DecidableEq V]

/-- The call of a function whose body is the table. -/
def Table.exec (T : Table V R) (error : R) (currentState transition : V) :
    List (Executed R) × Outcome R :=
  (T.code error).exec (params currentState transition) .run

theorem exec_semicolons (env : X → V) (m : Mode V) (args : List (Stmts X V R → Stmts X V R))
    (c : Stmts X V R) :
    (semicolons args c).exec env m = (args.foldr (fun a c => a c) c).exec env m := by
  rcases args with _ | ⟨a, as⟩
  · cases m <;> simp [semicolons, Stmts.exec]
  · rfl

theorem label_semicolons (v : V) (args : List (Stmts X V R → Stmts X V R)) (c : Stmts X V R) :
    (semicolons args c).label v = (args.foldr (fun a c => a c) c).label v := by
  rcases args with _ | ⟨a, as⟩
  · rfl
  · rfl

/-- The body of the inner `switch`: to the entry, or to the default and out. -/
theorem exec_entries (env : X → V) (v : V) : ∀ es : List (V × R),
    let body := (es.map fun e => usmMap e.1 e.2).foldr (fun a c => a c)
      (Stmts.default (.brk .nil) : Stmts X V R)
    body.exec env (body.label v) =
      match es.lookup v with
      | some s => ([.ret s], .returned s)
      | none => ([.brk], .broke)
  | [] => rfl
  | (v', s) :: es => by
    have ih := exec_entries env v es
    by_cases hv : v = v'
    · subst hv
      simp [usmMap, Stmts.label, Stmts.hasCase, Stmts.exec]
    · have hlookup : List.lookup v ((v', s) :: es) = es.lookup v := by
        simp [List.lookup, beq_eq_false_iff_ne.2 hv]
      rw [hlookup, ← ih]
      simp only [List.map_cons, List.foldr_cons, usmMap, Stmts.label, Stmts.hasCase, hv,
        decide_false, Bool.false_or]
      split_ifs <;> simp [Stmts.exec, hv]

/-- The body of the outer `switch`: to the row of the state, which is left by the `return` of its
entry or by its own `break`, or to the default and out. -/
theorem exec_rows (env : Var → V) (v : V) : ∀ rows : List (Row V R),
    let body := (rows.map Row.code).foldr (fun a c => a c)
      (Stmts.default (.brk .nil) : Stmts Var V R)
    body.exec env (body.label v) =
      match rows.find? (fun r => v = r.start) with
      | some r =>
        match r.entries.lookup (env .transition) with
        | some s => ([.ret s], .returned s)
        | none => ([.brk, .brk], .broke)
      | none => ([.brk], .broke)
  | [] => rfl
  | r :: rows => by
    have ih := exec_rows env v rows
    by_cases hv : v = r.start
    · subst hv
      have hes := exec_entries (R := R) env (env .transition) r.entries
      simp only [List.map_cons, List.foldr_cons, Row.code, usmState, Stmts.label, Stmts.hasCase,
        decide_true, Bool.true_or, ↓reduceIte, Stmts.exec, List.find?_cons_of_pos]
      rw [exec_semicolons, ← Stmts.label, label_semicolons, hes]
      rcases r.entries.lookup (env .transition) with _ | s <;> simp
    · rw [List.find?_cons_of_neg (by simpa using hv), ← ih]
      simp only [List.map_cons, List.foldr_cons, Row.code, usmState, Stmts.label, Stmts.hasCase, hv,
        decide_false, Bool.false_or]
      split_ifs <;> simp [Stmts.exec, hv]

/-- What a table does: the entry for the state and the transition is returned, and the error state
if there is none, after the `break` of the inner `default`, if the state has a row, and that of the
row or of the outer `default`. -/
theorem exec_table (T : Table V R) (error : R) (currentState transition : V) :
    T.exec error currentState transition =
      match T.rows.find? (fun r => currentState = r.start) with
      | some r =>
        match r.entries.lookup transition with
        | some s => ([.ret s], .returned s)
        | none => ([.brk, .brk, .ret error], .returned error)
      | none => ([.brk, .ret error], .returned error) := by
  have hrows := exec_rows (params currentState transition) currentState T.rows
  simp only [Table.exec, Table.code, usmTable, Stmts.exec, params]
  rw [exec_semicolons, label_semicolons, hrows]
  rcases hr : T.rows.find? (fun r => currentState = r.start) with _ | r
  · simp only [hr]
    rfl
  · rcases hs : r.entries.lookup transition with _ | s <;> simp only [hr, hs, params]
    rfl

theorem lookup_eq_some {es : List (V × R)} (hes : (es.map Prod.fst).Nodup) {v : V} {s : R} :
    es.lookup v = some s ↔ (v, s) ∈ es := by
  induction es with
  | nil => simp
  | cons e es ih =>
    obtain ⟨v', s'⟩ := e
    simp only [List.map_cons, List.nodup_cons, List.mem_map, Prod.exists, exists_and_right,
      exists_eq_right, not_exists] at hes
    by_cases hv : v = v'
    · subst hv
      have hmem : (v, s) ∉ es := hes.1 s
      simp [List.lookup, hmem, eq_comm]
    · simp [List.lookup, beq_eq_false_iff_ne.2 hv, ih hes.2, hv]

theorem find_row {T : Table V R} {r : Row V R} {v : V} (hr : r ∈ T.rows) (hv : r.start = v) :
    T.rows.find? (fun r => v = r.start) = some r := by
  obtain ⟨rows, hrows⟩ := T
  simp only at hr ⊢
  induction rows with
  | nil => simp at hr
  | cons r' rows ih =>
    simp only [List.map_cons, List.nodup_cons, List.mem_map, not_exists, not_and] at hrows
    rcases List.mem_cons.1 hr with rfl | hr
    · rw [List.find?_cons_of_pos (by simp [hv])]
    · have hne : v ≠ r'.start := fun h => hrows.1 r hr (hv.trans h)
      rw [List.find?_cons_of_neg (by simpa using hne)]
      exact ih hrows.2 hr

theorem Table.entry_iff (T : Table V R) {currentState transition : V} {s : R} :
    T.Entry currentState transition s ↔
      (T.rows.find? fun r => currentState = r.start).bind (·.entries.lookup transition) =
        some s := by
  constructor
  · rintro ⟨r, hr, hstart, hs⟩
    rw [find_row hr hstart]
    exact (lookup_eq_some r.nodup).2 hs
  · intro h
    obtain ⟨r, hr, hs⟩ := Option.bind_eq_some_iff.1 h
    have hstart := List.find?_some hr
    simp only [decide_eq_true_eq] at hstart
    exact ⟨r, List.mem_of_find?_eq_some hr, hstart.symm, (lookup_eq_some r.nodup).1 hs⟩

theorem Table.entry_unique {T : Table V R} {currentState transition : V} {s s' : R}
    (h : T.Entry currentState transition s) (h' : T.Entry currentState transition s') : s = s' :=
  Option.some.inj ((T.entry_iff.1 h).symm.trans (T.entry_iff.1 h'))

theorem exec_of_entry {T : Table V R} {error : R} {currentState transition : V} {s : R}
    (h : T.Entry currentState transition s) :
    T.exec error currentState transition = ([.ret s], .returned s) := by
  obtain ⟨r, hr, hs⟩ := Option.bind_eq_some_iff.1 (T.entry_iff.1 h)
  rw [exec_table, hr]
  simp only [hs]

theorem exec_of_no_entry {T : Table V R} {error : R} {currentState transition : V}
    (h : ∀ s, ¬ T.Entry currentState transition s) :
    T.exec error currentState transition =
      (if ∃ r ∈ T.rows, r.start = currentState then [.brk, .brk, .ret error]
        else [.brk, .ret error], .returned error) := by
  rw [exec_table]
  rcases hr : T.rows.find? (fun r => currentState = r.start) with _ | r
  · have hno : ¬ ∃ r ∈ T.rows, r.start = currentState := by
      rintro ⟨r, hr', hstart⟩
      simp [find_row hr' hstart] at hr
    rw [if_neg hno]
    simp only [hr]
  · have hstart := List.find?_some hr
    simp only [decide_eq_true_eq] at hstart
    have hlookup : r.entries.lookup transition = none := by
      rcases hs : r.entries.lookup transition with _ | s
      · rfl
      · exact absurd (T.entry_iff.2 (by rw [hr]; exact hs)) (h s)
    rw [if_pos ⟨r, List.mem_of_find?_eq_some hr, hstart.symm⟩]
    simp only [hr, hlookup]

theorem exec_returns (T : Table V R) (error : R) (currentState transition : V) :
    ∃ s, (T.exec error currentState transition).2 = .returned s := by
  by_cases h : ∃ s, T.Entry currentState transition s
  · obtain ⟨s, hs⟩ := h
    exact ⟨s, by rw [exec_of_entry hs]⟩
  · exact ⟨error, by rw [exec_of_no_entry fun s hs => h ⟨s, hs⟩]⟩

def Table.call (T : Table V R) (error : R) (currentState transition : V) : R :=
  (T.exec error currentState transition).2.value (exec_returns T error currentState transition)

theorem call_of_exec {T : Table V R} {error : R} {currentState transition : V}
    {tr : List (Executed R)} {s : R}
    (h : T.exec error currentState transition = (tr, .returned s)) :
    T.call error currentState transition = s :=
  Outcome.value_eq (by rw [h])

/-- The same rows with the same entries, each in any order. -/
def Table.Reordered (T T' : Table V R) : Prop :=
  ∃ mid, List.Forall₂ (fun r r' => r.start = r'.start ∧ r.entries.Perm r'.entries) T.rows mid ∧
    mid.Perm T'.rows

omit [DecidableEq V] in
theorem entry_of_forall₂ {currentState transition : V} {s : R} : ∀ {rows rows' : List (Row V R)},
    List.Forall₂ (fun r r' => r.start = r'.start ∧ r.entries.Perm r'.entries) rows rows' →
      ((∃ r ∈ rows, r.start = currentState ∧ (transition, s) ∈ r.entries) ↔
        ∃ r ∈ rows', r.start = currentState ∧ (transition, s) ∈ r.entries)
  | _, _, .nil => by simp
  | _, _, .cons ⟨hstart, hperm⟩ h => by
    simp only [List.mem_cons, exists_eq_or_imp, entry_of_forall₂ h, hstart, hperm.mem_iff]

omit [DecidableEq V] in
theorem Table.Reordered.entry_iff {T T' : Table V R} (h : T.Reordered T') {currentState
    transition : V} {s : R} :
    T.Entry currentState transition s ↔ T'.Entry currentState transition s := by
  obtain ⟨mid, hmid, hperm⟩ := h
  simp only [Table.Entry, entry_of_forall₂ hmid, hperm.mem_iff]

omit [DecidableEq V] in
theorem row_of_forall₂ {v : V} : ∀ {rows rows' : List (Row V R)},
    List.Forall₂ (fun r r' => r.start = r'.start ∧ r.entries.Perm r'.entries) rows rows' →
      ((∃ r ∈ rows, r.start = v) ↔ ∃ r ∈ rows', r.start = v)
  | _, _, .nil => by simp
  | _, _, .cons ⟨hstart, _⟩ h => by
    simp only [List.mem_cons, exists_eq_or_imp, row_of_forall₂ h, hstart]

theorem exec_reordered {T T' : Table V R} (h : T.Reordered T') (error : R)
    (currentState transition : V) :
    T'.exec error currentState transition = T.exec error currentState transition := by
  by_cases hs : ∃ s, T.Entry currentState transition s
  · obtain ⟨s, hs⟩ := hs
    rw [exec_of_entry hs, exec_of_entry (h.entry_iff.1 hs)]
  · have hno : ∀ s, ¬ T.Entry currentState transition s := fun s hs' => hs ⟨s, hs'⟩
    obtain ⟨mid, hmid, hperm⟩ := id h
    have hrow : (∃ r ∈ T'.rows, r.start = currentState) ↔ ∃ r ∈ T.rows, r.start = currentState := by
      simp only [row_of_forall₂ hmid, hperm.mem_iff]
    rw [exec_of_no_entry hno, exec_of_no_entry fun s hs' => hno s (h.entry_iff.2 hs')]
    simp only [hrow]

/-- Each entry with the labels it stands at. -/
def Row.sited (r : Row V R) : Row V (Option (V × V) × R) where
  start := r.start
  entries := r.entries.map fun e => (e.1, some (r.start, e.1), e.2)
  nodup := by simpa [Function.comp_def] using r.nodup

def Table.sited (T : Table V R) : Table V (Option (V × V) × R) where
  rows := T.rows.map Row.sited
  nodup := by simpa [Function.comp_def, Row.sited] using T.nodup

omit [DecidableEq V] in
theorem Table.sited_entry {T : Table V R} {currentState transition : V}
    {x : Option (V × V) × R} (h : T.sited.Entry currentState transition x) :
    x.1 = some (currentState, transition) ∧ T.Entry currentState transition x.2 := by
  obtain ⟨_, hsited, rfl, hx⟩ := h
  obtain ⟨r, hr, rfl⟩ := List.mem_map.1 hsited
  obtain ⟨e, he, hex⟩ := List.mem_map.1 hx
  obtain ⟨rfl, rfl⟩ := Prod.mk.inj hex
  exact ⟨rfl, r, hr, rfl, he⟩

/-- A call returns the next state of the one entry for the state and the transition and, without
such an entry, the error state after nothing but breaks. The only entry it reaches is the one
that stands at the two labels, and the order of rows and entries does not matter. -/
theorem exec_code (T : Table V R) (error : R) (currentState transition : V) :
    (∀ s, T.Entry currentState transition s →
      T.exec error currentState transition = ([.ret s], .returned s) ∧
        ∀ s', T.Entry currentState transition s' → s' = s) ∧
    ((∀ s, ¬ T.Entry currentState transition s) → ∃ n,
      T.exec error currentState transition =
        (List.replicate n .brk ++ [.ret error], .returned error)) ∧
    (∀ v t s, .ret (some (v, t), s) ∈ (T.sited.exec (none, error) currentState transition).1 →
      v = currentState ∧ t = transition) ∧
    ∀ T', T.Reordered T' →
      T'.exec error currentState transition = T.exec error currentState transition := by
  refine ⟨fun s hs => ⟨exec_of_entry hs, fun s' hs' => Table.entry_unique hs' hs⟩, ?_,
    ?_, fun T' h => exec_reordered h error currentState transition⟩
  · intro hno
    rw [exec_of_no_entry hno]
    split_ifs
    · exact ⟨2, rfl⟩
    · exact ⟨1, rfl⟩
  · intro v t s hret
    by_cases hx : ∃ x, T.sited.Entry currentState transition x
    · obtain ⟨x, hx⟩ := hx
      rw [exec_of_entry hx, List.mem_singleton, Executed.ret.injEq] at hret
      obtain ⟨hsite, -⟩ := Table.sited_entry hx
      rw [← hret, Option.some.injEq, Prod.mk.injEq] at hsite
      exact hsite
    · rw [exec_of_no_entry fun x hx' => hx ⟨x, hx'⟩] at hret
      split_ifs at hret <;> simp at hret

end Exec

/-- State 0 goes to state 1 on the transition 1; state 1 has a row without entries. -/
def door : Table ℕ ℕ where
  rows := [⟨0, [(1, 1)], by simp⟩, ⟨1, [], by simp⟩]
  nodup := by simp

theorem exec_code_door :
    door.exec 9 0 1 = ([.ret 1], .returned 1) ∧
      ∃ n, door.exec 9 1 1 = (List.replicate n .brk ++ [.ret 9], .returned 9) := by
  refine ⟨((exec_code door 9 0 1).1 1 ⟨⟨0, [(1, 1)], by simp⟩, by simp [door]⟩).1,
    (exec_code door 9 1 1).2.1 ?_⟩
  rintro s ⟨r, hr, hstart, hs⟩
  simp only [door, List.mem_cons, List.not_mem_nil, or_false] at hr
  rcases hr with rfl | rfl
  · simp at hstart
  · simp at hs

end Usm

end PairingV2
