import PairingV2.Demo.Text

/-!
# Reading the table back

Names are printed as they are, so some tables print the same text as others (`table_ambiguous`). For
names that are `Plain` the text tells the table (`printed_inj`): a row that is not of a connected
vehicle ends at the first line break, and the drivers of a connected one begin at the last `YES (`
of its first line.
-/

namespace PairingV2

namespace Demo

/-- The names in a row cannot be taken for other parts of the table. -/
structure Row.Plain (r : Row) : Prop where
  one_line : ch '\n' ∉ r.name
  no_blank : r.name.length ≤ 20 → r.name.head? ≠ some (ch ' ')
  separate : ∀ ds, r.drivers = some ds → ∀ d ∈ ds, ¬ str ", " <:+: d.instanceName
  unmarked : ∀ ds, r.drivers = some ds → ∀ d ∈ ds, ¬ str "YES (" <:+: d.instanceName
  not_empty : ∀ ds, r.drivers = some ds → ds ≠ [⟨[]⟩]

/-! ## Columns -/

/-- A row up to the column Connected. -/
def Row.columns (i : ℕ) (r : Row) : Str :=
  decimal i ++ pad false 20 r.name ++ pad false 12 (yesNo r.pairing) ++
    pad false 12 (yesNo r.paired) ++ pad false 12 (yesNo r.connecting)

theorem text_of_none {r : Row} (h : r.drivers = none) (i : ℕ) :
    r.text i = r.columns i ++ pad false 12 (str "NO") ++ [ch '\n'] := by
  unfold Row.text Row.columns Row.driversText Row.connected
  rw [h]
  simp [yesNo, str]

theorem text_of_some {r : Row} {ds : List ConnectionDriver} (h : r.drivers = some ds) (i : ℕ) :
    r.text i = r.columns i ++ List.replicate 9 (ch ' ') ++
      (str "YES (" ++ (driversText ds ++ [ch ')', ch '\n'])) := by
  have hcell : pad false 12 (str "YES") ++ str " (" =
      List.replicate 9 (ch ' ') ++ str "YES (" := rfl
  unfold Row.text Row.columns Row.driversText Row.connected
  rw [h]
  simp only [Option.isSome_some, yesNo, if_true, List.append_assoc]
  rw [← List.append_assoc (pad false 12 (str "YES")), hcell]
  simp [str]

theorem cell_injective : Function.Injective fun b => pad false 12 (yesNo b) := by
  intro b b' h
  cases b <;> cases b' <;> first | rfl | exact absurd h (by decide)

theorem length_cell (b : Bool) : (pad false 12 (yesNo b)).length = 12 := by cases b <;> rfl

theorem columns_inj {i : ℕ} {r r' : Row} (hr : r.Plain) (hr' : r'.Plain)
    (h : r.columns i = r'.columns i) : r.name = r'.name ∧ r.pairing = r'.pairing ∧
      r.paired = r'.paired ∧ r.connecting = r'.connecting := by
  have hcell : ∀ b b', (pad false 12 (yesNo b)).length = (pad false 12 (yesNo b')).length := by
    intro b b'
    rw [length_cell, length_cell]
  unfold Row.columns at h
  obtain ⟨h, hconnecting⟩ := List.append_inj' h (hcell _ _)
  obtain ⟨h, hpaired⟩ := List.append_inj' h (hcell _ _)
  obtain ⟨h, hpairing⟩ := List.append_inj' h (hcell _ _)
  refine ⟨?_, cell_injective hpairing, cell_injective hpaired, cell_injective hconnecting⟩
  exact pad_injOn hr.no_blank hr'.no_blank (List.append_cancel_left h)

theorem not_mem_cell (b : Bool) : ch '\n' ∉ pad false 12 (yesNo b) := by cases b <;> decide

theorem not_mem_columns {r : Row} (hr : r.Plain) (i : ℕ) : ch '\n' ∉ r.columns i := by
  have hnumber : ch '\n' ∉ decimal i := by
    intro h
    exact absurd (le_of_mem_decimal h) (by decide)
  have hname : ch '\n' ∉ pad false 20 r.name := by
    unfold pad
    simp only [Bool.false_eq_true, if_false, List.mem_append, List.mem_replicate, not_or]
    exact ⟨fun h => absurd h.2 (by decide), hr.one_line⟩
  unfold Row.columns
  simp only [List.mem_append, not_or]
  exact ⟨⟨⟨⟨hnumber, hname⟩, not_mem_cell _⟩, not_mem_cell _⟩, not_mem_cell _⟩

/-! ## Drivers -/

theorem driversText_inj {r r' : Row} (hr : r.Plain) (hr' : r'.Plain)
    {ds ds' : List ConnectionDriver} (hd : r.drivers = some ds) (hd' : r'.drivers = some ds')
    (h : driversText ds = driversText ds') : ds = ds' := by
  have hname : Function.Injective ConnectionDriver.instanceName := by
    rintro ⟨a⟩ ⟨b⟩ (rfl : a = b)
    rfl
  have hne : ∀ {r : Row} {ds}, r.Plain → r.drivers = some ds →
      ds.map ConnectionDriver.instanceName ≠ [[]] := by
    intro r ds hr hd hmap
    obtain ⟨d, rfl, hempty⟩ := List.map_eq_singleton_iff.1 hmap
    exact hr.not_empty _ hd (congrArg (fun a => [ConnectionDriver.mk a]) hempty)
  refine hname.list_map (intercalate_inj (x := ch ',') (m := str " ") (by decide) ?_ ?_ (hne hr hd)
    (hne hr' hd') h)
  · exact List.forall_mem_map.2 (hr.separate ds hd)
  · exact List.forall_mem_map.2 (hr'.separate ds' hd')

theorem driversText_unmarked {r : Row} (hr : r.Plain) {ds : List ConnectionDriver}
    (hd : r.drivers = some ds) : ¬ str "YES (" <:+: driversText ds := by
  intro h
  obtain ⟨a, ha, h⟩ := infix_intercalate (s := ch ',') (x := ch 'Y') (p := str " ")
    (w := str "ES (") (by decide) (by decide) h
  obtain ⟨d, hd', rfl⟩ := List.mem_map.1 ha
  exact hr.unmarked ds hd d hd' h

/-! ## Rows -/

/-- The text of the rows and what follows them. -/
def restText (i : ℕ) (rows : List Row) : Str := rowsText i rows ++ footerText

theorem restText_cons (i : ℕ) (r : Row) (rows : List Row) :
    restText i (r :: rows) = r.text i ++ restText (i + 1) rows := by
  unfold restText
  rw [rowsText, List.append_assoc]

theorem row_ne_footer (i : ℕ) (r : Row) (u : Str) : r.text i ++ u ≠ footerText := by
  obtain ⟨d, hd, bs, h⟩ := decimal_head i
  unfold Row.text
  simp only [h, List.cons_append]
  intro heq
  have hval := congrArg Fin.val (List.cons.inj heq).1
  rw [digit_val hd] at hval
  have hcode : (ch '*').val = 42 := rfl
  have hstar : (48 + d : ℕ) = (ch '*').val := hval
  omega

theorem last_ne {a b : Str} {c d : Byte} (hcd : c ≠ d) : a ++ [c] ≠ b ++ [d] := by
  intro h
  exact hcd (by simpa using (List.append_inj' h rfl).2)

/-- A row that is not of a connected vehicle is its first line. -/
theorem row_of_none {r : Row} (hr : r.Plain) (hd : r.drivers = none) (i : ℕ) (v : Str) :
    ∃ l, l = r.columns i ++ (List.replicate 10 (ch ' ') ++ [ch 'N']) ∧ ch '\n' ∉ l ++ [ch 'O'] ∧
      r.text i ++ v = l ++ [ch 'O'] ++ ch '\n' :: v := by
  have hcell : pad false 12 (str "NO") = (List.replicate 10 (ch ' ') ++ [ch 'N']) ++ [ch 'O'] := rfl
  refine ⟨_, rfl, ?_, ?_⟩
  · rw [List.append_assoc, ← hcell, List.mem_append, not_or]
    exact ⟨not_mem_columns hr i, by decide⟩
  · rw [text_of_none hd, hcell]
    simp only [List.append_assoc, List.cons_append, List.nil_append]

/-- The drivers of a connected vehicle follow the mark in the first line. -/
theorem row_of_some {r : Row} (hr : r.Plain) {ds : List ConnectionDriver} (hd : r.drivers = some ds)
    (i : ℕ) (v : Str) : ∃ l, l = r.columns i ++ List.replicate 9 (ch ' ') ∧
      ch '\n' ∉ l ++ str "YES (" ∧
      r.text i ++ v = l ++ (str "YES (" ++ (driversText ds ++ ch ')' :: ch '\n' :: v)) := by
  refine ⟨_, rfl, ?_, ?_⟩
  · simp only [List.mem_append, not_or]
    exact ⟨⟨not_mem_columns hr i, by decide⟩, by decide⟩
  · rw [text_of_some hd]
    simp only [List.append_assoc, List.cons_append, List.nil_append]

/-- No row begins in a text without a mark and ends with the line of a bracket behind it. -/
theorem restText_ne : ∀ {rows : List Row} {i : ℕ} {b u : Str}, (∀ r ∈ rows, r.Plain) →
    ¬ str "YES (" <:+: b → restText i rows ≠ b ++ ch ')' :: ch '\n' :: u
  | [], i, b, u, _, _, h => by
    have hmem : ch ')' ∈ footerText := by
      show ch ')' ∈ restText i []
      rw [h]
      simp
    revert hmem
    decide
  | r :: rows, i, b, u, hrows, hb, h => by
    have hr : r.Plain := hrows r (by simp)
    rw [restText_cons] at h
    rcases hd : r.drivers with _ | ds
    · obtain ⟨l, -, hl, htext⟩ := row_of_none hr hd i (restText (i + 1) rows)
      rw [htext] at h
      by_cases hmem : ch '\n' ∈ b
      · obtain ⟨b₁, b₂, rfl, hb₁⟩ := List.eq_append_cons_of_mem hmem
        rw [List.append_assoc b₁, List.cons_append] at h
        obtain ⟨-, hrest⟩ := append_cons_inj hl hb₁ h
        exact restText_ne (fun r hr => hrows r (List.mem_cons_of_mem _ hr)) (not_infix_tail hb)
          hrest
      · have hb' : ch '\n' ∉ b ++ [ch ')'] := by
          rw [List.mem_append, not_or]
          exact ⟨hmem, by decide⟩
        rw [List.append_cons b] at h
        exact last_ne (by decide) (append_cons_inj hl hb' h).1
    · obtain ⟨l, -, hl, htext⟩ := row_of_some hr hd i (restText (i + 1) rows)
      rw [htext, ← List.append_assoc] at h
      rcases List.append_eq_append_iff.1 h with ⟨cs, rfl, -⟩ | ⟨_ | ⟨c, _ | ⟨d, cs⟩⟩, heq, h'⟩
      · exact hb (List.infix_append _ _ _)
      · rw [List.append_nil] at heq
        exact hb (heq ▸ List.infix_append_right)
      · obtain ⟨rfl, -⟩ := List.cons.inj h'
        exact last_ne (a := l ++ str "YES ") (by decide) ((List.append_assoc _ _ _).trans heq)
      · obtain ⟨rfl, h''⟩ := List.cons.inj h'
        obtain ⟨rfl, -⟩ := List.cons.inj h''
        rw [heq] at hl
        simp at hl

/-- The drivers of a row end at the last bracket with a line break that leaves a table. -/
theorem drivers_end {rows rows' : List Row} {i : ℕ} {D D' : Str} (hrows : ∀ r ∈ rows, r.Plain)
    (hrows' : ∀ r ∈ rows', r.Plain) (hD : ¬ str "YES (" <:+: D) (hD' : ¬ str "YES (" <:+: D')
    (h : D ++ ch ')' :: ch '\n' :: restText i rows = D' ++ ch ')' :: ch '\n' :: restText i rows') :
    D = D' ∧ restText i rows = restText i rows' := by
  have hclose : ∀ {rows rows' : List Row} {as : Str}, (∀ r ∈ rows, r.Plain) →
      ¬ str "YES (" <:+: as → ch ')' :: ch '\n' :: restText i rows =
        as ++ ch ')' :: ch '\n' :: restText i rows' → as = [] := by
    intro rows rows' as hrows has h
    rcases as with _ | ⟨c, _ | ⟨d, as⟩⟩
    · rfl
    · have hbreak := (List.cons.inj (List.cons.inj h).2).1
      exact absurd hbreak (by decide)
    · have hrest := (List.cons.inj (List.cons.inj h).2).2
      exact absurd hrest (restText_ne hrows (not_infix_tail (a := [c]) has))
  rcases List.append_eq_append_iff.1 h with ⟨as, rfl, h'⟩ | ⟨as, rfl, h'⟩
  · obtain rfl := hclose hrows (fun hin => hD' (hin.trans List.infix_append_right)) h'
    simpa using h'
  · obtain rfl := hclose hrows' (fun hin => hD (hin.trans List.infix_append_right)) h'
    simpa [eq_comm] using h'

/-- The first line of a row with drivers, from the mark on, has no other mark. -/
theorem line_unmarked {D : Str} (hD : ¬ str "YES (" <:+: D) (v : Str) :
    ¬ str "YES (" <:+: (D ++ ch ')' :: ch '\n' :: v).takeWhile (· ≠ ch '\n') := by
  have hprefix : (D ++ ch ')' :: ch '\n' :: v).takeWhile (· ≠ ch '\n') <+: D ++ [ch ')'] := by
    rw [List.append_cons, List.takeWhile_append]
    split_ifs with hlen
    · simp
    · exact List.takeWhile_prefix _
  intro hin
  rcases List.infix_concat_iff.1 (hin.trans hprefix.isInfix) with ⟨l, hl⟩ | hin
  · exact last_ne (a := l ++ str "YES ") (by decide) ((List.append_assoc _ _ _).trans hl)
  · exact hD hin

theorem mark_inj {l l' D D' v v' : Str} (hl : ch '\n' ∉ l ++ str "YES (")
    (hl' : ch '\n' ∉ l' ++ str "YES (") (hD : ¬ str "YES (" <:+: D) (hD' : ¬ str "YES (" <:+: D')
    (h : l ++ (str "YES (" ++ (D ++ ch ')' :: ch '\n' :: v)) =
      l' ++ (str "YES (" ++ (D' ++ ch ')' :: ch '\n' :: v'))) : l = l' := by
  have hline : ∀ {l u : Str}, ch '\n' ∉ l ++ str "YES (" →
      (l ++ (str "YES (" ++ u)).takeWhile (· ≠ ch '\n') =
        l ++ (str "YES (" ++ u.takeWhile (· ≠ ch '\n')) := by
    intro l u hl
    rw [← List.append_assoc, List.takeWhile_append_of_pos, List.append_assoc]
    intro b hb
    rw [decide_eq_true_eq]
    rintro rfl
    exact hl hb
  have hlines := congrArg (List.takeWhile (· ≠ ch '\n')) h
  rw [hline hl, hline hl'] at hlines
  exact (append_marker_inj_right (x := ch 'Y') (m := str "ES (") (by decide) (line_unmarked hD v)
    (line_unmarked hD' v') hlines).1

/-! ## The table -/

theorem none_ne_some {i : ℕ} {r r' : Row} {rows rows' : List Row} {ds : List ConnectionDriver}
    (hr : r.Plain) (hr' : r'.Plain) (hrows : ∀ r ∈ rows, r.Plain) (hd : r.drivers = none)
    (hd' : r'.drivers = some ds) :
    r.text i ++ restText (i + 1) rows ≠ r'.text i ++ restText (i + 1) rows' := by
  obtain ⟨l, -, hl, htext⟩ := row_of_none hr hd i (restText (i + 1) rows)
  obtain ⟨l', -, hl', htext'⟩ := row_of_some hr' hd' i (restText (i + 1) rows')
  have hD := driversText_unmarked hr' hd'
  generalize driversText ds = D at hD htext'
  rw [htext, htext', ← List.append_assoc]
  intro h
  by_cases hmem : ch '\n' ∈ D
  · obtain ⟨a, b, rfl, ha⟩ := List.eq_append_cons_of_mem hmem
    rw [List.append_assoc a, ← List.append_assoc] at h
    have hline : ch '\n' ∉ l' ++ str "YES (" ++ a := by
      rw [List.mem_append, not_or]
      exact ⟨hl', ha⟩
    obtain ⟨-, hrest⟩ := append_cons_inj hl hline h
    exact restText_ne hrows (not_infix_tail hD) hrest
  · rw [List.append_cons D, ← List.append_assoc, ← List.append_assoc] at h
    have hline : ch '\n' ∉ l' ++ str "YES (" ++ D ++ [ch ')'] := by
      simp only [List.mem_append, not_or] at hl' ⊢
      exact ⟨⟨hl', hmem⟩, by decide⟩
    exact last_ne (by decide) (append_cons_inj hl hline h).1

theorem row_inj {i : ℕ} {r r' : Row} {rows rows' : List Row} (hr : r.Plain) (hr' : r'.Plain)
    (hrows : ∀ r ∈ rows, r.Plain) (hrows' : ∀ r ∈ rows', r.Plain)
    (h : r.text i ++ restText (i + 1) rows = r'.text i ++ restText (i + 1) rows') :
    r = r' ∧ restText (i + 1) rows = restText (i + 1) rows' := by
  have hrow : r.columns i = r'.columns i → r.drivers = r'.drivers → r = r' := by
    intro hcolumns hdrivers
    obtain ⟨hname, hpairing, hpaired, hconnecting⟩ := columns_inj hr hr' hcolumns
    cases r
    cases r'
    simp_all only
  rcases hd : r.drivers with _ | ds <;> rcases hd' : r'.drivers with _ | ds'
  · obtain ⟨l, hcolumns, hl, htext⟩ := row_of_none hr hd i (restText (i + 1) rows)
    obtain ⟨l', hcolumns', hl', htext'⟩ := row_of_none hr' hd' i (restText (i + 1) rows')
    rw [htext, htext'] at h
    obtain ⟨hline, hrest⟩ := append_cons_inj hl hl' h
    obtain rfl := List.append_cancel_right hline
    exact ⟨hrow (List.append_cancel_right (hcolumns.symm.trans hcolumns')) (hd.trans hd'.symm),
      hrest⟩
  · exact absurd h (none_ne_some hr hr' hrows hd hd')
  · exact absurd h.symm (none_ne_some hr' hr hrows' hd' hd)
  · obtain ⟨l, hcolumns, hl, htext⟩ := row_of_some hr hd i (restText (i + 1) rows)
    obtain ⟨l', hcolumns', hl', htext'⟩ := row_of_some hr' hd' i (restText (i + 1) rows')
    have hD := driversText_unmarked hr hd
    have hD' := driversText_unmarked hr' hd'
    rw [htext, htext'] at h
    obtain rfl := mark_inj hl hl' hD hD' h
    obtain ⟨hdrivers, hrest⟩ := drivers_end hrows hrows' hD hD'
      (List.append_cancel_left (List.append_cancel_left h))
    have hds : r.drivers = r'.drivers := by
      rw [hd, hd', driversText_inj hr hr' hd hd' hdrivers]
    exact ⟨hrow (List.append_cancel_right (hcolumns.symm.trans hcolumns')) hds, hrest⟩

theorem restText_inj : ∀ {rows rows' : List Row} {i : ℕ}, (∀ r ∈ rows, r.Plain) →
    (∀ r ∈ rows', r.Plain) → restText i rows = restText i rows' → rows = rows'
  | [], [], _, _, _, _ => rfl
  | [], r :: rows, i, _, _, h => by
    rw [restText_cons] at h
    exact absurd h.symm (row_ne_footer i r _)
  | r :: rows, [], i, _, _, h => by
    rw [restText_cons] at h
    exact absurd h (row_ne_footer i r _)
  | r :: rows, r' :: rows', i, hrows, hrows', h => by
    rw [restText_cons, restText_cons] at h
    have htail : ∀ r ∈ rows, r.Plain := fun r hr => hrows r (List.mem_cons_of_mem _ hr)
    have htail' : ∀ r ∈ rows', r.Plain := fun r hr => hrows' r (List.mem_cons_of_mem _ hr)
    obtain ⟨rfl, hrest⟩ := row_inj (hrows r (by simp)) (hrows' r' (by simp)) htail htail' h
    rw [restText_inj htail htail' hrest]

/-- Every name in the table is plain. -/
def Manager.Plain (M : Manager) : Prop := ∀ r ∈ snapshot M, r.Plain

/-- The text of a table with plain names tells the table. -/
theorem printed_inj (left left' : Bool) (w w' : World) {M M' : Manager} (hM : M.Plain)
    (hM' : M'.Plain) :
    printed left (displayLists.exec (answer fun _ => M) w).1 =
        printed left' (displayLists.exec (answer fun _ => M') w').1 ↔
      snapshot M = snapshot M' := by
  rw [printed_displayLists, printed_displayLists]
  constructor
  · intro h
    unfold tableText at h
    rw [List.append_assoc, List.append_assoc] at h
    exact restText_inj hM hM' (List.append_cancel_left h)
  · intro h
    rw [h]

/-- A manager with vehicles to pair to, which are connected if drivers are given. -/
def listed (names : List Str) (instances : Option (List Str)) : Manager where
  pairingList := names
  pairedList := []
  connectedList := if instances.isSome then names else []
  pairedAutoconnect _ := false
  connectedDrivers _ := (instances.getD []).map ConnectionDriver.mk

theorem printed_inj_connected :
    printed false (displayLists.exec (answer fun _ => listed [str "a"] (some [str "wifi"]))
        ⟨∅, .ofText [], 0⟩).1 ≠
      printed false (displayLists.exec (answer fun _ => listed [str "b"] none)
        ⟨∅, .ofText [], 0⟩).1 := by
  have hM : (listed [str "a"] (some [str "wifi"])).Plain := by
    refine List.forall_mem_singleton.2 ⟨by decide, by decide, ?_, ?_, ?_⟩ <;>
      · rintro ds (h : some [⟨str "wifi"⟩] = some ds)
        obtain rfl := Option.some.inj h
        decide
  have hM' : (listed [str "b"] none).Plain := by
    refine List.forall_mem_singleton.2 ⟨by decide, by decide, ?_, ?_, ?_⟩ <;>
      · rintro ds (h : none = some ds)
        cases h
  intro h
  exact absurd ((printed_inj false false _ _ hM hM').1 h) (by decide)

/-- Tables that differ and print the same text. -/
def Confused (M M' : Manager) : Prop :=
  (∀ (left : Bool) (w : World), printed left (displayLists.exec (answer fun _ => M) w).1 =
    printed left (displayLists.exec (answer fun _ => M') w).1) ∧ snapshot M ≠ snapshot M'

theorem confused {M M' : Manager} (h : tableText (snapshot M) = tableText (snapshot M'))
    (hne : snapshot M ≠ snapshot M') : Confused M M' := by
  refine ⟨fun left w => ?_, hne⟩
  rw [printed_displayLists, printed_displayLists, h]

/-- The columns of a vehicle of the pairing list, connected or not. -/
def cells (connected : Bool) : Str :=
  pad false 12 (str "YES") ++ pad false 12 (str "NO") ++ pad false 12 (str "NO") ++
    pad false 12 (yesNo connected)

/-- A line break in a name, a blank before it, and in the drivers a comma, an empty instance and the
mark of the drivers. -/
theorem table_ambiguous :
    Confused
        (listed [pad false 20 (str "a") ++ cells false ++ str "\n1" ++ pad false 20 (str "b")]
          none)
        (listed [str "a", str "b"] none) ∧
      Confused (listed [str " a"] none) (listed [str "a"] none) ∧
      Confused (listed [str "a"] (some [str "x, y"])) (listed [str "a"] (some [str "x", str "y"])) ∧
      Confused (listed [str "a"] (some [[]])) (listed [str "a"] (some [])) ∧
      Confused (listed [str "a"] (some [str "x)" ++ cells true ++ str " (y"]))
        (listed [pad false 20 (str "a") ++ cells true ++ str " (x)"] (some [str "y"])) := by
  refine ⟨?_, ?_, ?_, ?_, ?_⟩ <;> exact confused (by decide +kernel) (by decide +kernel)

end Demo

end PairingV2
