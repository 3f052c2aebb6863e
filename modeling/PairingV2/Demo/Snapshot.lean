import PairingV2.Demo.Display

/-!
# The table while the manager changes

`display_lists` asks the manager for three lists and then once for each row, and the manager may
change between any two queries. `moment k` is when query `k` is made and `history` what the manager
is at each moment. The table need not be that of any moment (`moved_no_snapshot`): its rows and
columns are those of the queries they come from (`display_pieces`).
-/

namespace PairingV2

namespace Demo

/-- The table of a manager that does not change. -/
def snapshot (M : Manager) : List Row :=
  (vehiclesOf M.pairingList M.pairedList).elements.map fun v =>
    row M.pairingList M.pairedList M.connectedList
      (v, M.pairedAutoconnect v, M.connectedDrivers v)

theorem getElem?_visits (m : ℕ → Manager) : ∀ (vs : List Str) (k i : ℕ),
    (visits m k vs)[i]? = vs[i]?.map fun v =>
      (v, (m (k + i)).pairedAutoconnect v, (m (k + i)).connectedDrivers v)
  | [], k, i => by simp [visits]
  | v :: vs, k, 0 => rfl
  | v :: vs, k, i + 1 => by
    have ih := getElem?_visits m vs (k + 1) i
    rw [visits, List.getElem?_cons_succ, List.getElem?_cons_succ, ih, Nat.add_right_comm,
      Nat.add_assoc]

theorem visits_of_const {m : ℕ → Manager} {M : Manager} : ∀ {vs : List Str} {k : ℕ},
    (∀ i < vs.length, m (k + i) = M) →
      visits m k vs = vs.map fun v => (v, M.pairedAutoconnect v, M.connectedDrivers v)
  | [], k, _ => rfl
  | v :: vs, k, h => by
    have hk : m k = M := h 0 (by simp)
    rw [visits, hk, visits_of_const (M := M) fun i hi => ?_]
    · rfl
    · rw [Nat.add_right_comm]
      exact h (i + 1) (by simpa using hi)

/-- The rows are the vehicles of the pairing list at the first query and of the paired list at the
second; the columns of the lists are those of the first three queries, and the rest of row `i` is
that of the query for it. A vehicle that is in one of the two lists throughout has a row, and a
manager that does not change during the call has its own table printed. -/
theorem display_pieces (history : ℕ → Manager) (moment : ℕ → ℕ) (hmoment : Monotone moment)
    (w : World) :
    let m := history ∘ moment
    let k := w.queries
    let pairingList := (m k).pairingList
    let pairedList := (m (k + 1)).pairedList
    let connectedList := (m (k + 2)).connectedList
    let x := displayLists.exec (answer m) w
    let last := x.2.2.queries - 1
    ∃ rows, outs x.1 = tableOuts rows ∧
      rows.map Row.name = (vehiclesOf pairingList pairedList).elements ∧
      (∀ v, v ∈ rows.map Row.name ↔ v ∈ pairingList ∨ v ∈ pairedList) ∧
      (∀ i r, rows[i]? = some r → k + 3 + i ≤ last ∧
        r = row pairingList pairedList connectedList (r.name,
          (m (k + 3 + i)).pairedAutoconnect r.name, (m (k + 3 + i)).connectedDrivers r.name)) ∧
      (∀ v, ((∀ τ ∈ Set.Icc (moment k) (moment last), v ∈ (history τ).pairingList) ∨
          ∀ τ ∈ Set.Icc (moment k) (moment last), v ∈ (history τ).pairedList) →
        v ∈ rows.map Row.name) ∧
      ∀ M, (∀ τ ∈ Set.Icc (moment k) (moment last), history τ = M) → rows = snapshot M := by
  intro m k pairingList pairedList connectedList x last
  have hx : x = (displayEvents pairingList pairedList connectedList
      (visits m (k + 3) (vehiclesOf pairingList pairedList).elements), (),
      { w with vehicles := vehiclesOf pairingList pairedList
               queries := k + 3 + (vehiclesOf pairingList pairedList).elements.length }) :=
    exec_displayLists m w
  have hlast : last = k + 2 + (vehiclesOf pairingList pairedList).elements.length := by
    simp only [last, hx]
    omega
  have hduring : ∀ j, k ≤ j → j ≤ last → moment j ∈ Set.Icc (moment k) (moment last) :=
    fun j hk hl => ⟨hmoment hk, hmoment hl⟩
  have hnames : ∀ vs, (visits m (k + 3) vs |>.map (row pairingList pairedList connectedList)).map
      Row.name = vs := by
    intro vs
    rw [List.map_map]
    exact visits_names m (k + 3) vs
  refine ⟨_, by rw [hx]; exact outs_displayEvents _ _ _ _, hnames _, ?_, ?_, ?_, ?_⟩
  · intro v
    rw [hnames]
    exact mem_vehiclesOf
  · intro i r hr
    rw [List.getElem?_map, getElem?_visits, Option.map_map] at hr
    obtain ⟨v, hv, rfl⟩ := Option.map_eq_some_iff.1 hr
    obtain ⟨hi, -⟩ := List.getElem?_eq_some_iff.1 hv
    exact ⟨by omega, rfl⟩
  · intro v hv
    rw [hnames]
    rcases hv with hv | hv
    · exact mem_vehiclesOf.2 (.inl (hv _ (hduring k le_rfl (by omega))))
    · exact mem_vehiclesOf.2 (.inr (hv _ (hduring (k + 1) (by omega) (by omega))))
  · intro M hM
    have hm : ∀ j, k ≤ j → j ≤ last → m j = M := fun j hk hl => hM _ (hduring j hk hl)
    have h₀ : m k = M := hm k le_rfl (by omega)
    have h₁ : m (k + 1) = M := hm (k + 1) (by omega) (by omega)
    have h₂ : m (k + 2) = M := hm (k + 2) (by omega) (by omega)
    rw [visits_of_const (M := M) fun i hi => hm _ (by omega) (by omega), List.map_map]
    simp only [pairingList, pairedList, connectedList, h₀, h₁, h₂, snapshot]
    rfl

/-- A vehicle that goes over from the paired to the pairing list. -/
def moved (τ : ℕ) : Manager where
  pairingList := if τ = 0 then [] else [str "a"]
  pairedList := if τ = 0 then [str "a"] else []
  connectedList := []
  pairedAutoconnect _ := false
  connectedDrivers _ := []

theorem display_pieces_moved : ∃ rows,
    outs (displayLists.exec (answer moved) ⟨∅, .ofText [], 0⟩).1 = tableOuts rows ∧
      str "a" ∉ rows.map Row.name := by
  obtain ⟨rows, houts, -, hmem, -⟩ := display_pieces moved id monotone_id ⟨∅, .ofText [], 0⟩
  refine ⟨rows, houts, ?_⟩
  rw [hmem]
  decide

theorem moved_no_snapshot :
    let x := displayLists.exec (answer moved) ⟨∅, .ofText [], 0⟩
    (∀ τ, outs x.1 ≠ tableOuts (snapshot (moved τ))) ∧
      (∀ τ, str "a" ∈ (moved τ).pairingList ∨ str "a" ∈ (moved τ).pairedList) ∧
      ∀ k, ¬ Shows (outs x.1) k (str "a") := by
  intro x
  have hx : outs x.1 = tableOuts [] := rfl
  have hnone : ∀ k, ¬ Shows (outs x.1) k (str "a") := by
    intro k
    rw [hx, shows_tableOuts]
    simp
  refine ⟨fun τ h => hnone 0 ?_, ?_, hnone⟩
  · rw [h, shows_tableOuts]
    by_cases hτ : τ = 0
    · subst hτ
      rfl
    · simp only [snapshot, moved, hτ, if_false]
      rfl
  · intro τ
    by_cases hτ : τ = 0 <;> simp [moved, hτ]

end Demo

end PairingV2
