import PairingV2.Demo.Config
import PairingV2.Lib.JsonReading

/-!
# What the configuration says

The text that `main` hands to `init` stands for one JSON value, and the drivers that are named
among the arguments can be read from it again.
-/

namespace PairingV2

namespace Demo

theorem names_inj {d d' : Driver} (hd : d ∈ drivers) (hd' : d' ∈ drivers) (h : d.name = d'.name) :
    d = d' := by
  have hnodup : (drivers.map Driver.name).Nodup := by decide +kernel
  exact List.inj_on_of_nodup_map hnodup hd hd' h

/-- The names of the selected drivers tell which drivers are selected. -/
theorem selected_of_names {argv argv' : List Str}
    (h : (selected argv').map (fun d => some d.name) = (selected argv).map fun d => some d.name) :
    selected argv' = selected argv := by
  have hsub : ∀ {argv argv' : List Str}, (selected argv').map (fun d => some d.name) =
      (selected argv).map (fun d => some d.name) → ∀ d ∈ drivers,
        findInArgv d.keyword argv = true → findInArgv d.keyword argv' = true := by
    intro argv argv' h d hd hfound
    have hmem : some d.name ∈ (selected argv').map fun d => some d.name := by
      rw [h]
      exact List.mem_map_of_mem (List.mem_filter.2 ⟨hd, hfound⟩)
    obtain ⟨d', hd', hname⟩ := List.mem_map.1 hmem
    obtain ⟨hdrivers, hfound'⟩ := List.mem_filter.1 hd'
    rwa [names_inj hdrivers hd (Option.some.inj hname)] at hfound'
  refine List.filter_congr fun d hd => Bool.eq_iff_iff.2 ⟨?_, ?_⟩
  · exact hsub h.symm d hd
  · exact hsub h d hd

theorem map_nameOf {ds : List Driver} {vs : List Json}
    (h : List.Forall₂ (fun d v => Json.Item d.fragment v ∧ nameOf v = some d.name) ds vs) :
    vs.map nameOf = ds.map fun d => some d.name := by
  induction h with
  | nil => rfl
  | cons h _ ih => rw [List.map_cons, List.map_cons, h.2, ih]

/-- A text that stands for a value stands for no other. -/
theorem item_iff {s : Str} {u v : Json} (h : Json.Item s v) : Json.Item s u ↔ u = v := by
  constructor
  · exact fun hu => hu.unique h
  · rintro rfl
    exact h

/-- A configuration is an object whose drivers are the selected ones. -/
theorem item_configuration {argv : List Str} {config : Str} (h : configuration argv = some config) :
    ∃ ms ds, Json.Item config (.obj ms) ∧
      ms.filter (fun m => m.1 = str "drivers") = [(str "drivers", .arr ds)] ∧
      List.Forall₂ (fun d v => Json.Item d.fragment v ∧ nameOf v = some d.name) (selected argv)
        ds := by
  rw [configuration_eq] at h
  split_ifs at h with hempty
  obtain rfl := Option.some.inj h
  rw [List.isEmpty_iff] at hempty
  obtain ⟨ms, hms, hfilter⟩ := members_configHead
  obtain ⟨ds, hds⟩ := exists_items (selected argv) fun d hd => (mem_selected.1 hd).1
  have hitems : List.Forall₂ Json.Item ((selected argv).map Driver.fragment) ds :=
    List.forall₂_map_left_iff.2 (hds.imp fun _ _ h => h.1)
  refine ⟨_, ds, item_config hms hitems (by simpa using hempty), ?_, hds⟩
  rw [List.filter_append, hfilter]
  simp

/-- A configuration has one reading, an object whose drivers are those that the texts of the
selected ones stand for, in their order; and it is the configuration of exactly those arguments
that select the same drivers. -/
theorem configuration_reading {argv : List Str} {config : Str}
    (h : configuration argv = some config) :
    (∃ ms ds, (∀ v, Json.Item config v ↔ v = .obj ms) ∧
      ms.filter (fun m => m.1 = str "drivers") = [(str "drivers", .arr ds)] ∧
      List.Forall₂ (fun d v => (∀ u, Json.Item d.fragment u ↔ u = v) ∧ nameOf v = some d.name)
        (selected argv) ds) ∧
    ∀ argv', configuration argv' = some config ↔ selected argv' = selected argv := by
  obtain ⟨ms, ds, hitem, hfilter, hds⟩ := item_configuration h
  refine ⟨⟨ms, ds, fun v => item_iff hitem, hfilter, ?_⟩, fun argv' => ⟨?_, ?_⟩⟩
  · exact hds.imp fun d v hv => ⟨fun u => item_iff hv.1, hv.2⟩
  · intro h'
    obtain ⟨ms', ds', hitem', hfilter', hds'⟩ := item_configuration h'
    obtain rfl := Json.obj.inj (hitem'.unique hitem)
    obtain rfl : ds' = ds := by simpa using hfilter'.symm.trans hfilter
    exact selected_of_names ((map_nameOf hds').symm.trans (map_nameOf hds))
  · intro hselected
    rw [configuration_eq, hselected, ← configuration_eq, h]

theorem configuration_reading_usbc : ∃ config v,
    configuration [str "demo", str "usbc"] = some config ∧ Json.Item config v ∧
      configuration [str "demo", str "?", str "usbc", str "usbc"] = some config := by
  obtain ⟨config, hconfig⟩ : ∃ config, configuration [str "demo", str "usbc"] = some config :=
    ⟨_, rfl⟩
  obtain ⟨⟨ms, ds, hreading, -⟩, hsame⟩ := configuration_reading hconfig
  exact ⟨config, .obj ms, hconfig, (hreading _).2 rfl, (hsame _).2 rfl⟩

end Demo

end PairingV2
