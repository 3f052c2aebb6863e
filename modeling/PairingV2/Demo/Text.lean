import PairingV2.Lib.Separators
import PairingV2.Demo.Snapshot

/-!
# The text of the table

The bytes that `display_lists` leaves on the screen. For a manager that does not change they are
the text of its snapshot, and `display_table` says what that holds: a numbered row for each vehicle
of the pairing and paired lists, in order.
-/

namespace PairingV2

namespace Demo

def driversText (ds : List ConnectionDriver) : Str :=
  (str ", ").intercalate (ds.map ConnectionDriver.instanceName)

def Row.driversText (r : Row) : Str :=
  match r.drivers with
  | none => []
  | some ds => str " (" ++ Demo.driversText ds ++ str ")"

def Row.text (i : ℕ) (r : Row) : Str :=
  decimal i ++ pad false 20 r.name ++ pad false 12 (yesNo r.pairing) ++
    pad false 12 (yesNo r.paired) ++ pad false 12 (yesNo r.connecting) ++
    pad false 12 (yesNo r.connected) ++ r.driversText ++ str "\n"

/-- The text of the rows, numbered from `i` on. -/
def rowsText : ℕ → List Row → Str
  | _, [] => []
  | i, r :: rs => r.text i ++ rowsText (i + 1) rs

def headerText : Str :=
  separator ++ str "\n" ++ str "N" ++ pad false 20 (str "Vehicle") ++
    pad false 12 (str "Pairing") ++ pad false 12 (str "Paired") ++
    pad false 12 (str "Connecting") ++ pad false 12 (str "Connected") ++ str "\n"

def footerText : Str := separator ++ str "\n"

def tableText (rows : List Row) : Str := headerText ++ rowsText 0 rows ++ footerText

/-- The text that a sequence of operations prints. -/
def printed (left : Bool) (es : List Ev) : Str := written left (outs es)

/-! ## The text of what is inserted -/

theorem written_put_zero (left : Bool) (s : Str) (os : List Out) :
    written left (.put 0 s :: os) = s ++ written left os := by
  rw [written, pad_of_le (Nat.zero_le _)]

theorem written_driverOuts_false (left : Bool) (os : List Out) : ∀ ds : List ConnectionDriver,
    written left (driverOuts false ds ++ os) =
      (ds.flatMap fun i => str ", " ++ i.instanceName) ++ written left os
  | [] => rfl
  | i :: is => by
    unfold driverOuts
    simp only [Bool.false_eq_true, if_false, List.cons_append, List.nil_append, written_put_zero,
      written_driverOuts_false left os is, List.flatMap_cons, List.append_assoc]

theorem written_driverOuts (left : Bool) (os : List Out) (ds : List ConnectionDriver) :
    written left (driverOuts true ds ++ os) = driversText ds ++ written left os := by
  rcases ds with _ | ⟨i, is⟩
  · rfl
  · unfold driverOuts driversText
    rw [List.map_cons, intercalate_cons, List.flatMap_map]
    simp only [if_true, List.cons_append, List.nil_append, written_put_zero,
      written_driverOuts_false, List.append_assoc]

theorem written_driversOuts (left : Bool) (os : List Out) (r : Row) :
    written left (r.driversOuts ++ os) = r.driversText ++ written left os := by
  unfold Row.driversOuts Row.driversText
  cases r.drivers with
  | none => rfl
  | some ds =>
    simp only [List.cons_append, List.append_assoc, List.nil_append, written_put_zero,
      written_driverOuts]

theorem written_row (i : ℕ) (r : Row) (os : List Out) :
    written false (r.outs i ++ os) = r.text i ++ written false os := by
  have hnumber : pad false 1 (decimal i) = decimal i := by
    obtain ⟨d, -, bs, h⟩ := decimal_head i
    refine pad_of_le ?_
    rw [h, List.length_cons]
    omega
  unfold Row.outs Row.text
  simp only [List.cons_append, List.append_assoc, List.nil_append, written, hnumber,
    written_driversOuts]
  rfl

theorem written_rows : ∀ (i : ℕ) (rows : List Row) (os : List Out),
    written false (rowsOuts i rows ++ os) = rowsText i rows ++ written false os
  | _, [], _ => rfl
  | i, r :: rows, os => by
    rw [rowsOuts, List.append_assoc, written_row, written_rows (i + 1) rows, rowsText,
      List.append_assoc]

/-- The adjustment that the stream has before the call does not show. -/
theorem written_tableOuts (left : Bool) (rows : List Row) :
    written left (tableOuts rows) = tableText rows := by
  have hheader : ∀ os, written left (headerOuts ++ os) = headerText ++ written false os := by
    intro os
    unfold headerOuts headerText
    simp only [List.cons_append, List.nil_append, List.append_assoc, written_put_zero]
    rfl
  have hfooter : written false footerOuts = footerText := by
    unfold footerOuts footerText
    rw [written, written_put_zero]
    rfl
  rw [tableOuts, List.append_assoc, hheader, written_rows, hfooter, tableText, List.append_assoc]

/-! ## A manager that does not change -/

theorem printed_displayLists (left : Bool) (M : Manager) (w : World) :
    printed left (displayLists.exec (answer fun _ => M) w).1 = tableText (snapshot M) := by
  unfold printed
  rw [exec_displayLists, outs_displayEvents, written_tableOuts,
    visits_of_const (M := M) fun _ _ => rfl, List.map_map]
  rfl

theorem snapshot_names (M : Manager) :
    (snapshot M).map Row.name = (vehiclesOf M.pairingList M.pairedList).elements := by
  unfold snapshot
  rw [List.map_map]
  exact List.map_id' _

/-- The table has a row for each vehicle of the pairing and paired lists, in order and numbered
from 0 on; the columns are those of the vehicle, and `vehicles` is left as the set of the names. -/
theorem display_table (left : Bool) (M : Manager) (w : World) :
    let x := displayLists.exec (answer fun _ => M) w
    ∃ rows : List Row, printed left x.1 = tableText rows ∧
      (rows.map Row.name).Pairwise (· < ·) ∧
      (∀ v, v ∈ rows.map Row.name ↔ v ∈ M.pairingList ∨ v ∈ M.pairedList) ∧
      (∀ r ∈ rows, (r.pairing = true ↔ r.name ∈ M.pairingList) ∧
        (r.paired = true ↔ r.name ∈ M.pairedList) ∧
        (r.connecting = true ↔ M.pairedAutoconnect r.name = true ∧ r.name ∉ M.connectedList) ∧
        (r.connected = true ↔ r.name ∈ M.connectedList) ∧
        r.drivers = if r.name ∈ M.connectedList then some (M.connectedDrivers r.name) else none) ∧
      x.2.2.vehicles.elements = rows.map Row.name := by
  intro x
  refine ⟨snapshot M, printed_displayLists left M w, ?_, ?_, ?_, ?_⟩
  · rw [snapshot_names]
    exact (vehiclesOf M.pairingList M.pairedList).sorted
  · intro v
    rw [snapshot_names]
    exact mem_vehiclesOf
  · intro r hr
    obtain ⟨v, -, rfl⟩ := List.mem_map.1 hr
    unfold Row.connected row
    by_cases hv : v ∈ M.connectedList <;> simp [hv]
  · rw [snapshot_names]
    show (displayLists.exec (answer fun _ => M) w).2.2.vehicles.elements = _
    rw [exec_displayLists]

end Demo

end PairingV2
