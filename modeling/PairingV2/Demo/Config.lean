import PairingV2.Lib.Json
import PairingV2.Lib.Separators

/-!
# The configuration of the demo

How `main` puts the configuration together from the fragments of the drivers that its arguments
name, and that the text is a JSON object with these drivers (`configuration_spec`).
-/

namespace PairingV2

namespace Demo

/-! ## Fragments -/

def configBegin : Str :=
  [
    "\x7b                                           ",
    "\"machine_name\" : \"DemoGCS\",                 ",
    "\"encryption_key\" : \"1234567890\",            ",
    "\"link_layer\" : \"udp\",                       ",
    "\"configuration_file\" : \"pairing-cm.json\",   ",
    "\"aes_encryption\" : false,                   ",
    "\"rsa_encryption\" : true,                    ",
    "\"drivers\" : [                               "
  ].flatMap str

def configMicrohard : Str :=
  [
    "  \x7b                                     ",
    "    \"name\" : \"Microhard\",               ",
    "    \"password\" : \"auterionfct\",         ",
    "    \"local\" : \x7b                         ",
    "        \"mode\" : \"0\",                   ",
    "        \"tx_rate\" : \"8\"                 ",
    "    \x7d,                                  ",
    "    \"pairing\" : \x7b                       ",
    "        \"encryption_key\" : \"1234567890\",",
    "        \"network_id\" : \"AUTERION\",      ",
    "        \"channel\" : \"36\",               ",
    "        \"bandwidth\" : \"0\",              ",
    "        \"tx_power\" : \"20\"               ",
    "    \x7d,                                  ",
    "    \"connection\" : \x7b                    ",
    "        \"channel\" : \"56\",               ",
    "        \"bandwidth\" : \"0\",              ",
    "        \"tx_power\" : \"20\"               ",
    "    \x7d                                   ",
    "  \x7d                                     "
  ].flatMap str

def configSilvus : Str :=
  [
    "  \x7b                                     ",
    "    \"name\" : \"Silvus\",                  ",
    "    \"ip\" : \"172.20.145.251\",            ",
    "    \"simplified\" : true,                ",
    "    \"encryption_key\" : \"1234567890\",    ",
    "    \"network_id\" : \"AUTERION\",          ",
    "    \"pairing\" : \x7b                       ",
    "        \"channel\" : \"2490\",             ",
    "        \"bandwidth\" : \"10\",             ",
    "        \"tx_power\" : \"30\"               ",
    "    \x7d,                                  ",
    "    \"connection\" : \x7b                    ",
    "        \"channel\" : \"2490\",             ",
    "        \"bandwidth\" : \"10\",             ",
    "        \"tx_power\" : \"30\"               ",
    "    \x7d                                   ",
    "  \x7d                                     "
  ].flatMap str

def configZerotier : Str :=
  [
    "  \x7b                                     ",
    "    \"name\" : \"ZeroTier\",                ",
    "    \"ip\" : \"10.147.17\",                 ",
    "    \"ip_status\" : true,                 ",
    "    \"mavlink\" : true                    ",
    "  \x7d                                     "
  ].flatMap str

def configWifi : Str :=
  [
    "  \x7b                                     ",
    "    \"name\" : \"WIFI\",                    ",
    "    \"ip\" : \"10.41.0\",                   ",
    "    \"ip_status\" : true,                 ",
    "    \"simplified\" : true,                ",
    "    \"autopair\" : true,                  ",
    "    \"mavlink\" : false                   ",
    "  \x7d                                     "
  ].flatMap str

def configUsbC : Str :=
  [
    "  \x7b                                     ",
    "    \"name\" : \"USB-C\",                   ",
    "    \"ip\" : \"10.41.1\",                   ",
    "    \"ip_status\" : true,                 ",
    "    \"simplified\" : true,                ",
    "    \"autopair\" : true,                  ",
    "    \"mavlink\" : false                   ",
    "  \x7d                                     "
  ].flatMap str

def configDoodleLabs : Str :=
  [
    "  \x7b                                     ",
    "    \"name\" : \"DoodleLabs\",              ",
    "    \"ip\" : \"10.223.8.26\",               ",
    "    \"autopair\" : true,                  ",
    "    \"pairing\" : \x7b                       ",
    "        \"encryption_key\" : \"1234567890\",",
    "        \"network_id\" : \"AUTERION\",      ",
    "        \"channel\" : \"7\",                ",
    "        \"bandwidth\" : \"15\"              ",
    "    \x7d,                                  ",
    "    \"connection\" : \x7b                    ",
    "        \"channel\" : \"7\",                ",
    "        \"bandwidth\" : \"15\",             ",
    "        \"network_id\" : \"AUTERION\"       ",
    "    \x7d                                   ",
    "  \x7d                                     "
  ].flatMap str

def configEnd : Str :=
  [
    "]                                       ",
    "\x7d                                       "
  ].flatMap str

/-! ## `main` up to the call of `init` -/

def findInArgs (s : Str) : List Str → Bool
  | [] => false
  | arg :: args => if s = arg ∨ str "all" = arg then true else findInArgs s args

def findInArgv (s : Str) (argv : List Str) : Bool := findInArgs s (argv.drop 1)

/-- The block of a driver, on the variables `first` and `config`. -/
def addDriver (driver : Bool) (fragment : Str) : Bool × Str → Bool × Str
  | (first, config) =>
    if driver then (false, (if !first then config ++ str "," else config) ++ fragment)
    else (first, config)

/-- The configuration that `init` is called with, or `none` where `main` returns before. -/
def configuration (argv : List Str) : Option Str :=
  let driverMicrohard := findInArgv (str "microhard") argv
  let driverSilvus := findInArgv (str "silvus") argv
  let driverWifi := findInArgv (str "wifi") argv
  let driverUsbC := findInArgv (str "usbc") argv
  let driverDoodleLabs := findInArgv (str "doodlelabs") argv
  let driverZerotier := findInArgv (str "zerotier") argv
  let s := (true, configBegin)
  let s := addDriver driverMicrohard configMicrohard s
  let s := addDriver driverSilvus configSilvus s
  let s := addDriver driverWifi configWifi s
  let s := addDriver driverUsbC configUsbC s
  let s := addDriver driverDoodleLabs configDoodleLabs s
  let s := addDriver driverZerotier configZerotier s
  let config := s.2 ++ configEnd
  if s.1 then none else some config

/-! ## The drivers -/

structure Driver where
  keyword : Str
  name : Str
  fragment : Str

def drivers : List Driver :=
  [⟨str "microhard", str "Microhard", configMicrohard⟩, ⟨str "silvus", str "Silvus", configSilvus⟩,
    ⟨str "wifi", str "WIFI", configWifi⟩, ⟨str "usbc", str "USB-C", configUsbC⟩,
    ⟨str "doodlelabs", str "DoodleLabs", configDoodleLabs⟩,
    ⟨str "zerotier", str "ZeroTier", configZerotier⟩]

theorem findInArgs_iff {s : Str} : ∀ {args : List Str},
    findInArgs s args = true ↔ s ∈ args ∨ str "all" ∈ args
  | [] => by simp [findInArgs]
  | arg :: args => by
    unfold findInArgs
    split_ifs with h
    · rcases h with rfl | rfl <;> simp
    · rw [not_or] at h
      rw [findInArgs_iff, List.mem_cons, List.mem_cons, or_iff_right h.1, or_iff_right h.2]

theorem addDriver_false (fragment : Str) (s : Bool × Str) : addDriver false fragment s = s := rfl

theorem addDriver_first (fragment config : Str) :
    addDriver true fragment (true, config) = (false, config ++ fragment) := rfl

theorem addDriver_next (fragment config : Str) :
    addDriver true fragment (false, config) = (false, config ++ str "," ++ fragment) := rfl

section Blocks

variable (p : Driver → Bool)

/-- The blocks of these drivers one after the other. -/
def addDrivers : List Driver → Bool × Str → Bool × Str
  | [], s => s
  | d :: ds, s => addDrivers ds (addDriver (p d) d.fragment s)

theorem addDrivers_next : ∀ (ds : List Driver) (config : Str),
    addDrivers p ds (false, config) =
      (false, config ++ ((ds.filter p).map Driver.fragment).flatMap (str "," ++ ·))
  | [], config => by simp [addDrivers]
  | d :: ds, config => by
    unfold addDrivers
    rcases hp : p d with _ | _
    · rw [addDriver_false, addDrivers_next ds, List.filter_cons_of_neg (by simp [hp])]
    · rw [addDriver_next, addDrivers_next ds, List.filter_cons_of_pos hp, List.map_cons,
        List.flatMap_cons]
      simp only [List.append_assoc]

/-- There is a comma between any two fragments and nowhere else. -/
theorem addDrivers_eq : ∀ (ds : List Driver) (config : Str),
    addDrivers p ds (true, config) = ((ds.filter p).isEmpty,
      config ++ (str ",").intercalate ((ds.filter p).map Driver.fragment))
  | [], config => by simp [addDrivers]
  | d :: ds, config => by
    unfold addDrivers
    rcases hp : p d with _ | _
    · rw [addDriver_false, addDrivers_eq ds, List.filter_cons_of_neg (by simp [hp])]
    · rw [addDriver_first, addDrivers_next, List.filter_cons_of_pos hp, List.map_cons,
        intercalate_cons]
      simp only [List.append_assoc, List.isEmpty_cons]

end Blocks

def selected (argv : List Str) : List Driver := drivers.filter fun d => findInArgv d.keyword argv

theorem mem_selected {argv : List Str} {d : Driver} :
    d ∈ selected argv ↔ d ∈ drivers ∧ (d.keyword ∈ argv.drop 1 ∨ str "all" ∈ argv.drop 1) := by
  rw [selected, List.mem_filter]
  exact and_congr_right' findInArgs_iff

theorem selected_eq (argv : List Str) : selected argv =
    drivers.filter fun d => d.keyword ∈ argv.drop 1 ∨ str "all" ∈ argv.drop 1 := by
  refine List.filter_congr fun d _ => ?_
  rw [Bool.eq_iff_iff, decide_eq_true_eq]
  exact findInArgs_iff

theorem configuration_eq (argv : List Str) :
    configuration argv = if (selected argv).isEmpty then none else
      some (configBegin ++ (str ",").intercalate ((selected argv).map Driver.fragment) ++
        configEnd) := by
  let s := addDrivers (fun d => findInArgv d.keyword argv) drivers (true, configBegin)
  have hs : s = _ := addDrivers_eq (fun d => findInArgv d.keyword argv) drivers configBegin
  show (if s.1 then none else some (s.2 ++ configEnd)) = _
  rw [hs]
  rfl

/-! ## The text -/

/-- The name in the object of a driver. -/
def nameOf : Json → Option Str
  | .obj ms =>
    match ms.lookup (str "name") with
    | some (.str name) => some name
    | _ => none
  | _ => none

def blanks (n : ℕ) : Str := List.replicate n (ch ' ')

theorem ws_blanks (n : ℕ) : Json.Ws (blanks n) := by
  intro b hb
  rw [(List.mem_replicate.1 hb).2]
  rfl

/-- The members before the drivers. -/
def configHead : Str := (configBegin.drop 1).take 286

theorem configBegin_eq : configBegin = Json.lbrace :: (configHead ++ Json.comma ::
    (blanks 20 ++ Json.quote :: str "drivers" ++ Json.quote :: blanks 1 ++ Json.colon ::
      (blanks 1 ++ Json.lbracket :: blanks 31))) := by decide +kernel

theorem configEnd_eq : configEnd = Json.rbracket :: (blanks 39 ++ Json.rbrace :: blanks 39) := by
  decide +kernel

theorem members_configHead :
    ∃ ms, Json.Members configHead ms ∧ ms.filter (fun m => m.1 = str "drivers") = [] := by
  have hparse : ((Json.parseMembers 20 (configHead ++ [Json.rbrace])).any fun x =>
      x.2.isEmpty && (x.1.filter fun m => m.1 = str "drivers").isEmpty) = true := by decide +kernel
  obtain ⟨⟨ms, r⟩, hms, h⟩ := Option.any_eq_true _ _ |>.1 hparse
  rw [Bool.and_eq_true, List.isEmpty_iff, List.isEmpty_iff] at h
  obtain ⟨rfl, hfilter⟩ := h
  obtain ⟨t, ht, hmembers⟩ := (Json.sound 20).members hms
  obtain rfl := List.append_cancel_right ht
  exact ⟨ms, hmembers, hfilter⟩

/-- Every fragment is the object of its driver. -/
theorem item_fragment : ∀ d ∈ drivers, ∃ v, Json.Item d.fragment v ∧ nameOf v = some d.name := by
  have hparse : ∀ d ∈ drivers, ((Json.parseItem 30 d.fragment).any fun x =>
      x.2.isEmpty && nameOf x.1 = some d.name) = true := by decide +kernel
  intro d hd
  obtain ⟨⟨v, r⟩, hv, h⟩ := Option.any_eq_true _ _ |>.1 (hparse d hd)
  rw [Bool.and_eq_true, List.isEmpty_iff, decide_eq_true_eq] at h
  obtain ⟨rfl, hname⟩ := h
  exact ⟨v, Json.parseItem_sound hv, hname⟩

/-- The text of the configuration with any items as the drivers. -/
theorem item_config {ms : List (Str × Json)} (hms : Json.Members configHead ms) {items : List Str}
    {ds : List Json} (h : List.Forall₂ Json.Item items ds) (hne : items ≠ []) :
    Json.Item (configBegin ++ (str ",").intercalate items ++ configEnd)
      (.obj (ms ++ [(str "drivers", .arr ds)])) := by
  have helements := (Json.elements_intercalate h hne).ws_append (ws_blanks 31)
  have hkey : Json.Chars (str "drivers") := by
    obtain ⟨-, h⟩ := Json.parseChars_sound (s := str "drivers" ++ [Json.quote]) (k := str "drivers")
      (r := []) rfl
    exact h
  have hmember : Json.Member _ (str "drivers", .arr ds) :=
    .mk (ws_blanks 20) hkey (ws_blanks 1) (.mk (ws_blanks 1) (.arr helements) (ws_blanks 39))
  have hitem := Json.Item.mk (ws_blanks 0) (.obj (hms.concat hmember)) (ws_blanks 39)
  have htext : str "," = [Json.comma] := rfl
  rw [configBegin_eq, configEnd_eq, htext]
  simpa [blanks] using hitem

theorem exists_items : ∀ ds : List Driver, (∀ d ∈ ds, d ∈ drivers) →
    ∃ vs, List.Forall₂ (fun d v => Json.Item d.fragment v ∧ nameOf v = some d.name) ds vs
  | [], _ => ⟨[], .nil⟩
  | d :: ds, h => by
    obtain ⟨v, hv⟩ := item_fragment d (h d (by simp))
    obtain ⟨vs, hvs⟩ := exists_items ds fun d hd => h d (List.mem_cons_of_mem _ hd)
    exact ⟨v :: vs, .cons hv hvs⟩

theorem selected_eq_nil_iff (argv : List Str) : selected argv = [] ↔
    ∀ arg ∈ argv.drop 1, arg ≠ str "all" ∧ ∀ d ∈ drivers, arg ≠ d.keyword := by
  constructor
  · intro h arg harg
    have hnone : ∀ d ∈ drivers, ¬ (d.keyword ∈ argv.drop 1 ∨ str "all" ∈ argv.drop 1) := by
      intro d hd hnamed
      exact List.ne_nil_of_mem (mem_selected.2 ⟨hd, hnamed⟩) h
    refine ⟨?_, ?_⟩
    · rintro rfl
      exact hnone _ (by unfold drivers; exact List.mem_cons_self) (.inr harg)
    · rintro d hd rfl
      exact hnone d hd (.inl harg)
  · intro h
    by_contra hne
    obtain ⟨d, hd⟩ := List.exists_mem_of_ne_nil _ hne
    obtain ⟨hd, hnamed⟩ := mem_selected.1 hd
    rcases hnamed with hnamed | hall
    · exact (h _ hnamed).2 d hd rfl
    · exact (h _ hall).1 rfl

/-- `main` returns before `init` if no argument names a driver or all of them. Otherwise the
configuration is an object with the drivers that are named, in their order, each once. It depends
on the names that occur among the arguments only. -/
theorem configuration_spec (argv : List Str) :
    (configuration argv = none ↔
        ∀ arg ∈ argv.drop 1, arg ≠ str "all" ∧ ∀ d ∈ drivers, arg ≠ d.keyword) ∧
      (∀ config, configuration argv = some config → ∃ ms ds, Json.Item config (.obj ms) ∧
        ms.filter (fun m => m.1 = str "drivers") = [(str "drivers", .arr ds)] ∧
        List.Forall₂ (fun d v => Json.Item d.fragment v ∧ nameOf v = some d.name)
          (drivers.filter fun d => d.keyword ∈ argv.drop 1 ∨ str "all" ∈ argv.drop 1) ds) ∧
      ∀ argv' : List Str, (∀ k ∈ str "all" :: drivers.map Driver.keyword,
          k ∈ argv.drop 1 ↔ k ∈ argv'.drop 1) → configuration argv = configuration argv' := by
  refine ⟨?_, ?_, ?_⟩
  · rw [configuration_eq, ← selected_eq_nil_iff]
    split_ifs with hempty
    · exact iff_of_true rfl (List.isEmpty_iff.1 hempty)
    · exact iff_of_false (by simp) (by simpa using hempty)
  · intro config h
    rw [configuration_eq] at h
    split_ifs at h with hempty
    obtain rfl := Option.some.inj h
    rw [List.isEmpty_iff] at hempty
    obtain ⟨ms, hms, hfilter⟩ := members_configHead
    obtain ⟨ds, hds⟩ := exists_items (selected argv) fun d hd => (mem_selected.1 hd).1
    have hitems : List.Forall₂ Json.Item ((selected argv).map Driver.fragment) ds :=
      List.forall₂_map_left_iff.2 (hds.imp fun _ _ h => h.1)
    refine ⟨_, ds, item_config hms hitems (by simpa using hempty), ?_, ?_⟩
    · rw [List.filter_append, hfilter]
      simp
    · rw [← selected_eq]
      exact hds
  · intro argv' h
    have hselected : selected argv = selected argv' := by
      rw [selected_eq, selected_eq]
      refine List.filter_congr fun d hd => decide_eq_decide.2 (or_congr ?_ ?_)
      · exact h d.keyword (List.mem_cons_of_mem _ (List.mem_map_of_mem hd))
      · exact h _ List.mem_cons_self
    rw [configuration_eq, configuration_eq, hselected]

theorem configuration_spec_two : ∃ config ms v w,
    configuration [str "demo", str "wifi", str "x", str "wifi", str "microhard"] = some config ∧
      Json.Item config (.obj ms) ∧ (str "drivers", .arr [v, w]) ∈ ms ∧
      nameOf v = some (str "Microhard") ∧ nameOf w = some (str "WIFI") := by
  obtain ⟨hnone, hsome, -⟩ :=
    configuration_spec [str "demo", str "wifi", str "x", str "wifi", str "microhard"]
  obtain ⟨config, hconfig⟩ := Option.ne_none_iff_exists'.1 fun h =>
    ((hnone.1 h) (str "wifi") (by decide)).2 ⟨str "wifi", str "WIFI", configWifi⟩
      (by unfold drivers; simp) rfl
  obtain ⟨ms, ds, hitem, hfilter, hds⟩ := hsome config hconfig
  have hnamed : drivers.filter (fun d => d.keyword ∈ [str "wifi", str "x", str "wifi",
      str "microhard"] ∨ str "all" ∈ [str "wifi", str "x", str "wifi", str "microhard"]) =
      [⟨str "microhard", str "Microhard", configMicrohard⟩,
        ⟨str "wifi", str "WIFI", configWifi⟩] := rfl
  have hds' := hnamed ▸ hds
  obtain _ | ⟨⟨-, hv⟩, _ | ⟨⟨-, hw⟩, _ | _⟩⟩ := hds'
  refine ⟨config, ms, _, _, hconfig, hitem, ?_, hv, hw⟩
  exact List.mem_of_mem_filter (hfilter ▸ List.mem_singleton_self _)

end Demo

end PairingV2
