import PairingV2.Demo.Program

/-!
# The printed table

What `display_lists` performs: `exec_displayLists` when the manager answers, and
`follows_displayLists` whatever its operations are answered. Either way it prints a header, a row
for each element of `vehicles` it visited and a footer, and row `k` shows the name of the `k`-th of
them and no other (`shows_tableOuts`).
-/

namespace PairingV2

namespace Demo

/-! ## Rows -/

/-- A printed row. The drivers are printed for a connected vehicle. -/
structure Row where
  name : Str
  pairing : Bool
  paired : Bool
  connecting : Bool
  drivers : Option (List ConnectionDriver)
  deriving DecidableEq

def Row.connected (r : Row) : Bool := r.drivers.isSome

def driverOuts : Bool → List ConnectionDriver → List Out
  | _, [] => []
  | first, i :: is =>
    (if first then [] else [.put 0 (str ", ")]) ++ .put 0 i.instanceName :: driverOuts false is

def Row.driversOuts (r : Row) : List Out :=
  match r.drivers with
  | none => []
  | some ds => .put 0 (str " (") :: driverOuts true ds ++ [.put 0 (str ")")]

def Row.outs (i : ℕ) (r : Row) : List Out :=
  [.put 1 (decimal i), .put 20 r.name, .put 12 (yesNo r.pairing), .put 12 (yesNo r.paired),
    .put 12 (yesNo r.connecting), .put 12 (yesNo r.connected)] ++ r.driversOuts ++ [.endl]

def rowsOuts : ℕ → List Row → List Out
  | _, [] => []
  | i, r :: rs => r.outs i ++ rowsOuts (i + 1) rs

def headerOuts : List Out :=
  [.put 0 separator, .endl, .right, .put 1 (str "N"), .put 20 (str "Vehicle"),
    .put 12 (str "Pairing"), .put 12 (str "Paired"), .put 12 (str "Connecting"),
    .put 12 (str "Connected"), .endl]

def footerOuts : List Out := [.left, .put 0 separator, .endl]

def tableOuts (rows : List Row) : List Out := headerOuts ++ rowsOuts 0 rows ++ footerOuts

/-! ## Programs that only print -/

def putAll : List Out → Code Unit
  | [] => pure ()
  | o :: os => do
    Code.manip o
    putAll os

def putEvents (os : List Out) : List Ev := os.map fun o => ⟨.put o, ()⟩

theorem putAll_append (os os' : List Out) :
    putAll (os ++ os') = (putAll os).bind fun _ => putAll os' := by
  induction os with
  | nil => rfl
  | cons o os ih =>
    rw [List.cons_append, putAll, ih]
    rfl

theorem displayHeader_eq : displayHeader = putAll headerOuts := rfl

theorem displayFooter_eq : displayFooter = putAll footerOuts := rfl

theorem displayDrivers_eq : ∀ (first : Bool) (ds : List ConnectionDriver),
    displayDrivers first ds = putAll (driverOuts first ds)
  | _, [] => rfl
  | true, i :: is => by
    rw [displayDrivers, displayDrivers_eq false is]
    rfl
  | false, i :: is => by
    rw [displayDrivers, displayDrivers_eq false is]
    rfl

theorem displayHelp_eq : ∀ lines : List String,
    displayHelp lines = putAll (lines.flatMap fun line => [.put 0 (str line), .endl])
  | [] => rfl
  | line :: lines => by
    rw [displayHelp, displayHelp_eq lines]
    rfl

theorem displayRow_eq (pairingList pairedList connectedList : List Str) (i : ℕ) (v : Str) :
    displayRow pairingList pairedList connectedList i v =
      (putAll [.put 1 (decimal i), .put 20 v, .put 12 (yesNo (v ∈ pairingList)),
        .put 12 (yesNo (v ∈ pairedList))]).bind fun _ =>
        if v ∈ connectedList then
          (putAll [.put 12 (yesNo false), .put 12 (yesNo true), .put 0 (str " (")]).bind fun _ =>
            (Code.perform (.getConnectedDrivers v)).bind fun ds =>
              putAll (driverOuts true ds ++ [.put 0 (str ")"), .endl])
        else
          (Code.perform (.getPairedAutoconnect v)).bind fun b =>
            putAll [.put 12 (yesNo b), .put 12 (yesNo false), .endl] := by
  by_cases hv : v ∈ connectedList
  · simp only [displayRow, displayDrivers_eq, hv, if_true, putAll_append]
    rfl
  · simp only [displayRow, hv, if_false]
    rfl

/-! ## What `display_lists` performs -/

def insertEvents (vs : List Str) : List Ev := vs.map fun v => ⟨.insert v, ()⟩

/-- The events of a row; `b` and `ds` are what the manager answers about its vehicle. -/
def rowEvents (pairingList pairedList connectedList : List Str) (i : ℕ) (v : Str) (b : Bool)
    (ds : List ConnectionDriver) : List Ev :=
  putEvents [.put 1 (decimal i), .put 20 v, .put 12 (yesNo (v ∈ pairingList)),
    .put 12 (yesNo (v ∈ pairedList))] ++
  if v ∈ connectedList then
    putEvents [.put 12 (yesNo false), .put 12 (yesNo true), .put 0 (str " (")] ++
      ⟨.getConnectedDrivers v, ds⟩ :: putEvents (driverOuts true ds ++ [.put 0 (str ")"), .endl])
  else
    ⟨.getPairedAutoconnect v, b⟩ :: putEvents [.put 12 (yesNo b), .put 12 (yesNo false), .endl]

/-- An element that was visited, and what the manager answers about it. -/
abbrev Visit := Str × Bool × List ConnectionDriver

def rowsEvents (pairingList pairedList connectedList : List Str) : ℕ → List Visit → List Ev
  | _, [] => []
  | i, x :: xs => rowEvents pairingList pairedList connectedList i x.1 x.2.1 x.2.2 ++
      rowsEvents pairingList pairedList connectedList (i + 1) xs

def displayEvents (pairingList pairedList connectedList : List Str) (xs : List Visit) : List Ev :=
  putEvents headerOuts ++ ⟨.getPairingList, pairingList⟩ :: ⟨.getPairedList, pairedList⟩ ::
    ⟨.getConnectedList, connectedList⟩ :: ⟨.clear, ()⟩ ::
    (insertEvents pairingList ++ (insertEvents pairedList ++
      ⟨.elements, xs.map Prod.fst⟩ ::
        (rowsEvents pairingList pairedList connectedList 0 xs ++ putEvents footerOuts)))

section Exec

variable (m : ℕ → Manager)

theorem exec_putAll : ∀ (os : List Out) (w : World),
    (putAll os).exec (answer m) w = (putEvents os, (), w)
  | [], w => rfl
  | o :: os, w => by
    simp only [putAll, Code.manip, Code.perform, Prog.bind_eq, Prog.perform_bind, Prog.exec_act,
      answer, exec_putAll os]
    rfl

theorem exec_insertAll : ∀ (vs : List Str) (w : World),
    (insertAll vs).exec (answer m) w =
      (insertEvents vs, (), { w with vehicles := w.vehicles.insertAll vs })
  | [], w => rfl
  | v :: vs, w => by
    simp only [insertAll, Code.perform, Prog.bind_eq, Prog.perform_bind, Prog.exec_act, answer,
      exec_insertAll vs]
    rfl

theorem exec_displayRow (pairingList pairedList connectedList : List Str) (i : ℕ) (v : Str)
    (w : World) :
    (displayRow pairingList pairedList connectedList i v).exec (answer m) w =
      (rowEvents pairingList pairedList connectedList i v ((m w.queries).pairedAutoconnect v)
        ((m w.queries).connectedDrivers v), (), w.query) := by
  rw [displayRow_eq]
  by_cases hv : v ∈ connectedList
  · simp only [hv, if_true, Code.perform, Prog.perform_bind, Prog.exec_bind, Prog.exec_act,
      exec_putAll, answer, rowEvents]
  · simp only [hv, if_false, Code.perform, Prog.perform_bind, Prog.exec_bind, Prog.exec_act,
      exec_putAll, answer, rowEvents]

/-- What the manager answers about the rows, from the `k`-th query on. -/
def visits : ℕ → List Str → List Visit
  | _, [] => []
  | k, v :: vs => (v, (m k).pairedAutoconnect v, (m k).connectedDrivers v) :: visits (k + 1) vs

theorem visits_names : ∀ (k : ℕ) (vs : List Str), (visits m k vs).map Prod.fst = vs
  | _, [] => rfl
  | k, v :: vs => by rw [visits, List.map_cons, visits_names (k + 1) vs]

theorem exec_displayRows (pairingList pairedList connectedList : List Str) :
    ∀ (vs : List Str) (i : ℕ) (w : World),
      (displayRows pairingList pairedList connectedList i vs).exec (answer m) w =
        (rowsEvents pairingList pairedList connectedList i (visits m w.queries vs), (),
          { w with queries := w.queries + vs.length })
  | [], i, w => rfl
  | v :: vs, i, w => by
    simp only [displayRows, Prog.bind_eq, Prog.exec_bind, exec_displayRow,
      exec_displayRows _ _ _ vs, World.query, visits, rowsEvents, List.length_cons]
    rw [Nat.add_assoc, Nat.add_comm 1]

def vehiclesOf (pairingList pairedList : List Str) : OrdSet Str :=
  ((∅ : OrdSet Str).insertAll pairingList).insertAll pairedList

theorem mem_vehiclesOf {pairingList pairedList : List Str} {v : Str} :
    v ∈ (vehiclesOf pairingList pairedList).elements ↔ v ∈ pairingList ∨ v ∈ pairedList := by
  simp [vehiclesOf, or_comm]

/-- `display_lists`, when query `k` is its first. -/
theorem exec_displayLists (w : World) :
    let k := w.queries
    let vehicles := vehiclesOf (m k).pairingList (m (k + 1)).pairedList
    displayLists.exec (answer m) w =
      (displayEvents (m k).pairingList (m (k + 1)).pairedList (m (k + 2)).connectedList
        (visits m (k + 3) vehicles.elements), (),
        { w with vehicles := vehicles, queries := k + 3 + vehicles.elements.length }) := by
  simp only [displayLists, displayHeader_eq, displayFooter_eq, Code.perform, Prog.bind_eq,
    Prog.perform_bind, Prog.exec_bind, Prog.exec_act, exec_putAll, exec_insertAll,
    exec_displayRows, answer, World.query, displayEvents, visits_names, vehiclesOf]

end Exec

/-! ## Whatever is answered -/

section Follows

theorem follows_perform {i : Act} {es : List Ev} {a : Ans i}
    (h : Prog.Follows (Code.perform i) es (.ret a)) : es = [⟨i, a⟩] := by
  obtain ⟨a', s, fs, rfl, -, hs⟩ := Prog.steps_act.1 h
  obtain ⟨rfl, ha, -⟩ := Prog.steps_ret.1 hs
  rw [Prog.ret.inj ha]

theorem follows_putAll : ∀ {os : List Out} {es : List Ev},
    Prog.Follows (putAll os) es (.ret ()) → es = putEvents os
  | [], es, h => (Prog.steps_ret.1 h).1
  | o :: os, es, h => by
    obtain ⟨es₁, a, s, es₂, rfl, h₁, h₂⟩ := Prog.steps_bind h
    rw [follows_perform h₁, follows_putAll h₂]
    rfl

theorem follows_insertAll : ∀ {vs : List Str} {es : List Ev},
    Prog.Follows (insertAll vs) es (.ret ()) → es = insertEvents vs
  | [], es, h => (Prog.steps_ret.1 h).1
  | v :: vs, es, h => by
    obtain ⟨es₁, a, s, es₂, rfl, h₁, h₂⟩ := Prog.steps_bind h
    rw [follows_perform h₁, follows_insertAll h₂]
    rfl

theorem follows_displayRow {pairingList pairedList connectedList : List Str} {i : ℕ} {v : Str}
    {es : List Ev}
    (h : Prog.Follows (displayRow pairingList pairedList connectedList i v) es (.ret ())) :
    ∃ b ds, es = rowEvents pairingList pairedList connectedList i v b ds := by
  rw [displayRow_eq] at h
  obtain ⟨es₁, _, s₁, es₂, rfl, h₁, h⟩ := Prog.steps_bind h
  by_cases hv : v ∈ connectedList
  · rw [if_pos hv] at h
    obtain ⟨es₂, _, s₂, es₃, rfl, h₂, h⟩ := Prog.steps_bind h
    obtain ⟨es₃, ds, s₃, es₄, rfl, h₃, h⟩ := Prog.steps_bind h
    refine ⟨false, ds, ?_⟩
    rw [follows_putAll h₁, follows_putAll h₂, follows_perform h₃, follows_putAll h, rowEvents,
      if_pos hv]
    rfl
  · rw [if_neg hv] at h
    obtain ⟨es₂, b, s₂, es₃, rfl, h₂, h⟩ := Prog.steps_bind h
    refine ⟨b, [], ?_⟩
    rw [follows_putAll h₁, follows_perform h₂, follows_putAll h, rowEvents, if_neg hv]
    rfl

theorem follows_displayRows {pairingList pairedList connectedList : List Str} :
    ∀ {vs : List Str} {i : ℕ} {es : List Ev},
      Prog.Follows (displayRows pairingList pairedList connectedList i vs) es (.ret ()) →
        ∃ xs, xs.map Prod.fst = vs ∧ es = rowsEvents pairingList pairedList connectedList i xs
  | [], i, es, h => ⟨[], rfl, (Prog.steps_ret.1 h).1⟩
  | v :: vs, i, es, h => by
    obtain ⟨es₁, _, s, es₂, rfl, h₁, h₂⟩ := Prog.steps_bind h
    obtain ⟨b, ds, rfl⟩ := follows_displayRow h₁
    obtain ⟨xs, rfl, rfl⟩ := follows_displayRows h₂
    exact ⟨(v, b, ds) :: xs, rfl, rfl⟩

theorem follows_displayLists {es : List Ev} (h : Prog.Follows displayLists es (.ret ())) :
    ∃ pairingList pairedList connectedList xs,
      es = displayEvents pairingList pairedList connectedList xs := by
  unfold displayLists at h
  obtain ⟨es₁, _, s₁, es, rfl, h₁, h⟩ := Prog.steps_bind h
  obtain ⟨es₂, pairingList, s₂, es, rfl, h₂, h⟩ := Prog.steps_bind h
  obtain ⟨es₃, pairedList, s₃, es, rfl, h₃, h⟩ := Prog.steps_bind h
  obtain ⟨es₄, connectedList, s₄, es, rfl, h₄, h⟩ := Prog.steps_bind h
  obtain ⟨es₅, _, s₅, es, rfl, h₅, h⟩ := Prog.steps_bind h
  obtain ⟨es₆, _, s₆, es, rfl, h₆, h⟩ := Prog.steps_bind h
  obtain ⟨es₇, _, s₇, es, rfl, h₇, h⟩ := Prog.steps_bind h
  obtain ⟨es₈, vs, s₈, es, rfl, h₈, h⟩ := Prog.steps_bind h
  obtain ⟨es₉, _, s₉, es, rfl, h₉, h₁₀⟩ := Prog.steps_bind h
  rw [displayHeader_eq] at h₁
  rw [displayFooter_eq] at h₁₀
  obtain ⟨xs, rfl, rfl⟩ := follows_displayRows h₉
  refine ⟨pairingList, pairedList, connectedList, xs, ?_⟩
  rw [follows_putAll h₁, follows_perform h₂, follows_perform h₃, follows_perform h₄,
    follows_perform h₅, follows_insertAll h₆, follows_insertAll h₇, follows_perform h₈,
    follows_putAll h₁₀]
  rfl

end Follows

/-! ## What is printed -/

/-- The row printed for an element that was visited. -/
def row (pairingList pairedList connectedList : List Str) (x : Visit) : Row where
  name := x.1
  pairing := x.1 ∈ pairingList
  paired := x.1 ∈ pairedList
  connecting := x.1 ∉ connectedList && x.2.1
  drivers := if x.1 ∈ connectedList then some x.2.2 else none

@[simp] theorem outs_append (es fs : List Ev) : outs (es ++ fs) = outs es ++ outs fs :=
  List.filterMap_append

@[simp] theorem outs_putEvents : ∀ os : List Out, outs (putEvents os) = os
  | [] => rfl
  | o :: os => congrArg (o :: ·) (outs_putEvents os)

@[simp] theorem outs_insertEvents : ∀ vs : List Str, outs (insertEvents vs) = []
  | [] => rfl
  | _ :: vs => outs_insertEvents vs

@[simp] theorem outs_cons {i : Act} (hi : ∀ o, i ≠ .put o) (a : Ans i) (es : List Ev) :
    outs (⟨i, a⟩ :: es) = outs es := by
  cases i <;> first | rfl | exact absurd rfl (hi _)

theorem outs_rowEvents (pairingList pairedList connectedList : List Str) (i : ℕ) (x : Visit) :
    outs (rowEvents pairingList pairedList connectedList i x.1 x.2.1 x.2.2) =
      (row pairingList pairedList connectedList x).outs i := by
  by_cases hv : x.1 ∈ connectedList
  · simp [rowEvents, hv, Row.outs, Row.driversOuts, Row.connected, row]
  · simp [rowEvents, hv, Row.outs, Row.driversOuts, Row.connected, row]

theorem outs_rowsEvents (pairingList pairedList connectedList : List Str) :
    ∀ (xs : List Visit) (i : ℕ), outs (rowsEvents pairingList pairedList connectedList i xs) =
      rowsOuts i (xs.map (row pairingList pairedList connectedList))
  | [], _ => rfl
  | x :: xs, i => by
    rw [rowsEvents, outs_append, outs_rowEvents, outs_rowsEvents _ _ _ xs]
    rfl

theorem outs_displayEvents (pairingList pairedList connectedList : List Str) (xs : List Visit) :
    outs (displayEvents pairingList pairedList connectedList xs) =
      tableOuts (xs.map (row pairingList pairedList connectedList)) := by
  simp [displayEvents, outs_rowsEvents, tableOuts]

/-! ## Row numbers -/

/-- Row `k` is printed for `v`. -/
def Shows (os : List Out) (k : ℕ) (v : Str) : Prop :=
  [.put 1 (decimal k), .put 20 v] <:+: os

theorem shows_cons {o : Out} {os : List Out} {k : ℕ} {v : Str} (ho : ∀ n, o ≠ .put 1 n) :
    Shows (o :: os) k v ↔ Shows os k v := by
  rw [Shows, List.infix_cons_iff, Shows]
  refine or_iff_right ?_
  intro h
  obtain ⟨rest, hrest⟩ := h
  simp only [List.cons_append, List.cons.injEq] at hrest
  exact ho _ hrest.1.symm

theorem shows_append {os os' : List Out} {k : ℕ} {v : Str} (hos : ∀ n, .put 1 n ∉ os) :
    Shows (os ++ os') k v ↔ Shows os' k v := by
  induction os with
  | nil => rfl
  | cons o os ih =>
    simp only [List.mem_cons, not_or] at hos
    rw [List.cons_append, shows_cons fun n h => (hos n).1 h.symm, ih fun n => (hos n).2]

theorem shows_start {n name : Str} {os : List Out} {k : ℕ} {v : Str} :
    Shows (.put 1 n :: .put 20 name :: os) k v ↔ (n = decimal k ∧ name = v) ∨ Shows os k v := by
  rw [Shows, List.infix_cons_iff, ← Shows, shows_cons (by simp)]
  simp [eq_comm]

theorem not_mem_driverOuts (n : Str) : ∀ (first : Bool) (ds : List ConnectionDriver),
    .put 1 n ∉ driverOuts first ds
  | _, [] => by simp [driverOuts]
  | true, i :: is => by simp [driverOuts, not_mem_driverOuts n false is]
  | false, i :: is => by simp [driverOuts, not_mem_driverOuts n false is]

theorem not_mem_driversOuts (n : Str) (r : Row) : .put 1 n ∉ r.driversOuts := by
  rcases h : r.drivers with _ | ds
  · simp [Row.driversOuts, h]
  · simp [Row.driversOuts, h, not_mem_driverOuts]

theorem shows_row {i : ℕ} {r : Row} {os : List Out} {k : ℕ} {v : Str} :
    Shows (r.outs i ++ os) k v ↔ (i = k ∧ r.name = v) ∨ Shows os k v := by
  have hsplit : r.outs i ++ os = .put 1 (decimal i) :: .put 20 r.name ::
      (([.put 12 (yesNo r.pairing), .put 12 (yesNo r.paired), .put 12 (yesNo r.connecting),
        .put 12 (yesNo r.connected)] ++ r.driversOuts ++ [.endl]) ++ os) := by
    simp [Row.outs]
  rw [hsplit, shows_start, shows_append fun n => by simp [not_mem_driversOuts],
    decimal_injective.eq_iff]

theorem shows_rows : ∀ {rows : List Row} {i k : ℕ} {v : Str} {os : List Out},
    Shows (rowsOuts i rows ++ os) k v ↔
      (i ≤ k ∧ (rows.map Row.name)[k - i]? = some v) ∨ Shows os k v
  | [], i, k, v, os => by simp [rowsOuts]
  | r :: rows, i, k, v, os => by
    rw [rowsOuts, List.append_assoc, shows_row, shows_rows, ← or_assoc, List.map_cons]
    refine or_congr_left ?_
    rcases Nat.lt_trichotomy i k with hlt | rfl | hgt
    · obtain ⟨d, rfl⟩ := Nat.exists_eq_add_of_lt hlt
      have hle : i + 1 ≤ i + d + 1 := by omega
      rw [show i + d + 1 - i = d + 1 by omega, show i + d + 1 - (i + 1) = d by omega]
      simp [hle, hlt.ne, hlt.le]
    · simp
    · simp [hgt.ne', Nat.not_le.2 hgt, Nat.not_le.2 (Nat.lt_succ_of_lt hgt)]

theorem header_not_row (k : ℕ) : str "N" ≠ decimal k := by
  obtain ⟨d, hd, bs, h⟩ := decimal_head k
  rw [h]
  intro hN
  have hhead : ch 'N' = digit d := (List.cons.inj hN).1
  have hval := congrArg Fin.val hhead
  rw [digit_val hd] at hval
  have hcode : (ch 'N').val = 78 := rfl
  omega

/-- Row `k` is printed for the `k`-th row, and there is no other row. -/
theorem shows_tableOuts {rows : List Row} {k : ℕ} {v : Str} :
    Shows (tableOuts rows) k v ↔ (rows.map Row.name)[k]? = some v := by
  have hheader : Shows (tableOuts rows) k v ↔ Shows (rowsOuts 0 rows ++ footerOuts) k v := by
    simp only [tableOuts, headerOuts, List.cons_append, List.nil_append]
    rw [shows_cons (by simp), shows_cons (by simp), shows_cons (by simp), shows_start,
      or_iff_right fun h => header_not_row k h.1]
    rw [shows_cons (by simp), shows_cons (by simp), shows_cons (by simp), shows_cons (by simp),
      shows_cons (by simp)]
  have hfooter : ¬ Shows footerOuts k v := by
    rw [footerOuts, shows_cons (by simp), shows_cons (by simp), shows_cons (by simp), Shows]
    simp
  rw [hheader, shows_rows, or_iff_left hfooter]
  simp

/-- The rows of a display are the elements it leaves in `vehicles`. -/
theorem shows_displayLists {m : ℕ → Manager} {w : World} {k : ℕ} {v : Str} :
    Shows (outs (displayLists.exec (answer m) w).1) k v ↔
      (displayLists.exec (answer m) w).2.2.vehicles.elements[k]? = some v := by
  rw [exec_displayLists, outs_displayEvents, shows_tableOuts, List.map_map]
  exact iff_of_eq (congrArg (fun vs => vs[k]? = some v) (visits_names m _ _))

end Demo

end PairingV2
