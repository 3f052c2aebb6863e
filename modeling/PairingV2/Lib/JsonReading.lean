import PairingV2.Lib.Json

/-!
# One reading

A JSON text stands for one value (`Item.unique`). The first byte of a value tells what it is, and
what follows it tells where it ends.
-/

namespace PairingV2

/-- A run of `p` and the rest of the text are told apart where the rest does not begin with `p`. -/
theorem span_unique {α : Type*} {p : α → Bool} : ∀ {s s' r r' : List α}, (∀ b ∈ s, p b = true) →
    (∀ b ∈ s', p b = true) → (∀ b ∈ r.head?, p b = false) → (∀ b ∈ r'.head?, p b = false) →
    s ++ r = s' ++ r' → s = s' ∧ r = r'
  | [], [], r, r', _, _, _, _, h => ⟨rfl, h⟩
  | [], b :: s', r, r', _, hs', hr, _, h => by
    have hb := hr b (by rw [List.nil_append] at h; rw [h]; rfl)
    rw [hs' b List.mem_cons_self] at hb
    cases hb
  | b :: s, [], r, r', hs, _, _, hr', h => by
    have hb := hr' b (by rw [List.nil_append] at h; rw [← h]; rfl)
    rw [hs b List.mem_cons_self] at hb
    cases hb
  | b :: s, b' :: s', r, r', hs, hs', hr, hr', h => by
    obtain ⟨rfl, htail⟩ := List.cons.inj h
    obtain ⟨rfl, hrest⟩ := span_unique (fun c hc => hs c (List.mem_cons_of_mem _ hc))
      (fun c hc => hs' c (List.mem_cons_of_mem _ hc)) hr hr' htail
    exact ⟨rfl, hrest⟩

namespace Json

/-! ## Strings and numbers -/

theorem plain_ne {b : Byte} (h : isPlain b = true) : b ≠ quote ∧ b ≠ backslash := by
  unfold isPlain at h
  simp only [Bool.and_eq_true, decide_eq_true_eq, ne_eq] at h
  exact ⟨h.1.2, h.2⟩

theorem escape_ne {b : Byte} (h : b ∈ quote :: backslash :: PairingV2.str "/bfnrt") :
    b ≠ ch 'u' := by
  rintro rfl
  revert h
  decide

/-- A string ends at its first quote that is not escaped. -/
theorem Chars.unique {k k' r r' : Str} (h : Chars k) (h' : Chars k')
    (heq : k ++ quote :: r = k' ++ quote :: r') : k = k' ∧ r = r' := by
  induction h generalizing k' with
  | nil =>
    cases h' with
    | nil => exact ⟨rfl, (List.cons.inj heq).2⟩
    | plain hb => exact absurd (List.cons.inj heq).1.symm (plain_ne hb).1
    | escape | unicode => cases (List.cons.inj heq).1
  | @plain b s hb h ih =>
    cases h' with
    | nil => exact absurd (List.cons.inj heq).1 (plain_ne hb).1
    | plain hb' h' =>
      obtain ⟨rfl, htail⟩ := List.cons.inj heq
      obtain ⟨rfl, hr⟩ := ih h' htail
      exact ⟨rfl, hr⟩
    | escape | unicode => exact absurd (List.cons.inj heq).1 (plain_ne hb).2
  | @escape b s hb h ih =>
    cases h' with
    | nil => cases (List.cons.inj heq).1
    | plain hb' => exact absurd (List.cons.inj heq).1.symm (plain_ne hb').2
    | escape hb' h' =>
      obtain ⟨rfl, htail⟩ := List.cons.inj (List.cons.inj heq).2
      obtain ⟨rfl, hr⟩ := ih h' htail
      exact ⟨rfl, hr⟩
    | unicode => exact absurd (List.cons.inj (List.cons.inj heq).2).1 (escape_ne hb)
  | @unicode bs s hlen hbs h ih =>
    cases h' with
    | nil => cases (List.cons.inj heq).1
    | plain hb' => exact absurd (List.cons.inj heq).1.symm (plain_ne hb').2
    | escape hb' => exact absurd (List.cons.inj (List.cons.inj heq).2).1.symm (escape_ne hb')
    | @unicode bs' s' hlen' _ h' =>
      have htail : bs ++ (s ++ quote :: r) = bs' ++ (s' ++ quote :: r') := by simpa using heq
      obtain ⟨rfl, htail'⟩ := List.append_inj htail (hlen.trans hlen'.symm)
      obtain ⟨rfl, hr⟩ := ih h' htail'
      exact ⟨rfl, hr⟩

/-- What a number is written with. -/
def isNum (b : Byte) : Bool := isDigit b || b ∈ PairingV2.str "+-.eE"

theorem Digits.num {ds : Str} (h : Digits ds) : ∀ b ∈ ds, isNum b = true := by
  intro b hb
  rw [isNum, h.2 b hb]
  rfl

theorem Number.num {s : Str} (h : Number s) : ∀ b ∈ s, isNum b = true := by
  obtain ⟨sign, int, frac, exp, rfl, hsign, hint, hfrac, hexp⟩ := h.parts
  have hsign' : ∀ b ∈ sign, isNum b = true := by
    rcases hsign with rfl | rfl <;> simp [isNum, PairingV2.str]
  have hint' : ∀ b ∈ int, isNum b = true := by
    rcases hint with rfl | ⟨hds, -⟩
    · simp [isNum, isDigit, ch]
    · exact hds.num
  have hfrac' : ∀ b ∈ frac, isNum b = true := by
    rcases hfrac with rfl | ⟨ds, rfl, hds⟩
    · simp
    · exact List.forall_mem_cons.2 ⟨by decide, hds.num⟩
  have hexp' : ∀ b ∈ exp, isNum b = true := by
    rcases hexp with rfl | ⟨e, he, sign', hsign', ds, rfl, hds⟩
    · simp
    · have hletter : ∀ e ∈ [ch 'e', ch 'E'], isNum e = true := by decide +kernel
      have hsigns : ∀ sign ∈ [[], [ch '+'], [ch '-']], ∀ b ∈ sign, isNum b = true := by
        decide +kernel
      refine List.forall_mem_cons.2 ⟨hletter e he, fun b hb => ?_⟩
      rcases List.mem_append.1 hb with hb | hb
      · exact hsigns sign' hsign' b hb
      · exact hds.num b hb
  intro b hb
  simp only [List.mem_append] at hb
  rcases hb with ((hb | hb) | hb) | hb
  · exact hsign' b hb
  · exact hint' b hb
  · exact hfrac' b hb
  · exact hexp' b hb

/-- A number begins with a digit or a minus. -/
theorem Number.head {s : Str} (h : Number s) :
    ∃ b t, s = b :: t ∧ (isDigit b = true ∨ b = ch '-') := by
  obtain ⟨sign, int, frac, exp, rfl, hsign, hint, -, -⟩ := h.parts
  rcases hsign with rfl | rfl
  · rcases hint with rfl | ⟨⟨hne, hds⟩, -⟩
    · exact ⟨ch '0', _, rfl, .inl rfl⟩
    · obtain ⟨b, int, rfl⟩ := List.exists_cons_of_ne_nil hne
      exact ⟨b, _, rfl, .inl (hds b List.mem_cons_self)⟩
  · exact ⟨ch '-', _, rfl, .inr rfl⟩

/-! ## Values -/

/-- What a value is by its first byte. -/
def kindOf (b : Byte) : ℕ :=
  if b = quote then 0
  else if b = lbracket then 1
  else if b = lbrace then 2
  else if b = ch 't' then 3
  else if b = ch 'f' then 4
  else if b = ch 'n' then 5
  else 6

def kind : Json → ℕ
  | .str _ => 0
  | .arr _ => 1
  | .obj _ => 2
  | .bool true => 3
  | .bool false => 4
  | .null => 5
  | .num _ => 6

/-- A byte that neither is white space nor ends an array. -/
def Begins (b : Byte) : Prop := isWs b = false ∧ b ≠ rbracket ∧ b ≠ rbrace

theorem Value.head {s : Str} {v : Json} (h : Value s v) :
    ∃ b t, s = b :: t ∧ Begins b ∧ kindOf b = v.kind := by
  cases h with
  | null => exact ⟨ch 'n', _, rfl, ⟨rfl, by decide, by decide⟩, rfl⟩
  | false => exact ⟨ch 'f', _, rfl, ⟨rfl, by decide, by decide⟩, rfl⟩
  | true => exact ⟨ch 't', _, rfl, ⟨rfl, by decide, by decide⟩, rfl⟩
  | num h =>
    obtain ⟨b, t, rfl, hb⟩ := h.head
    have hdigit : ∀ b : Byte, isDigit b = Bool.true ∨ b = ch '-' → isWs b = Bool.false ∧
        b ≠ rbracket ∧ b ≠ rbrace ∧ kindOf b = 6 := by decide +kernel
    obtain ⟨hws, hrbracket, hrbrace, hkind⟩ := hdigit b hb
    exact ⟨b, t, rfl, ⟨hws, hrbracket, hrbrace⟩, hkind⟩
  | str => exact ⟨quote, _, rfl, ⟨rfl, by decide, by decide⟩, rfl⟩
  | emptyArr | arr => exact ⟨lbracket, _, rfl, ⟨rfl, by decide, by decide⟩, rfl⟩
  | emptyObj | obj => exact ⟨lbrace, _, rfl, ⟨rfl, by decide, by decide⟩, rfl⟩

/-- What may follow a value and the white space after it. -/
def Ends (r : Str) : Prop := ∀ b ∈ r.head?, isWs b = false ∧ isNum b = false

variable {n : ℕ}

theorem ends_comma (r : Str) : Ends (comma :: r) := by
  intro b hb
  obtain rfl := Option.some.inj hb
  decide

theorem ends_rbracket (r : Str) : Ends (rbracket :: r) := by
  intro b hb
  obtain rfl := Option.some.inj hb
  decide

theorem ends_rbrace (r : Str) : Ends (rbrace :: r) := by
  intro b hb
  obtain rfl := Option.some.inj hb
  decide

/-- Of the texts of at most this length, `P` reads what stands before an end in one way. -/
def UniqueBefore {α : Type} (P : Str → α → Prop) (n : ℕ) : Prop := ∀ ⦃s s' r r' : Str⦄ ⦃x x' : α⦄,
  s.length ≤ n → P s x → P s' x' → Ends r → Ends r' → s ++ r = s' ++ r' → s = s' ∧ x = x'

/-- The same for what stands before the byte `c`. -/
def UniqueUpTo {α : Type} (c : Byte) (P : Str → α → Prop) (n : ℕ) : Prop :=
  ∀ ⦃s s' r r' : Str⦄ ⦃x x' : α⦄, s.length ≤ n → P s x → P s' x' → s ++ c :: r = s' ++ c :: r' →
    s = s' ∧ x = x'

/-- A value ends where no byte of a number follows. -/
def UniqueValue (n : ℕ) : Prop := ∀ ⦃s s' r r' : Str⦄ ⦃v v' : Json⦄, s.length ≤ n → Value s v →
  Value s' v' → (∀ b ∈ r.head?, isNum b = false) → (∀ b ∈ r'.head?, isNum b = false) →
    s ++ r = s' ++ r' → s = s' ∧ v = v'

theorem ws_head {w r : Str} (hw : Ws w) (hr : ∀ b ∈ r.head?, isNum b = false) :
    ∀ b ∈ (w ++ r).head?, isNum b = false := by
  rcases w with _ | ⟨c, w⟩
  · exact hr
  · intro b hb
    obtain rfl := Option.some.inj hb
    have hnum : ∀ b : Byte, isWs b = true → isNum b = false := by decide +kernel
    exact hnum _ (hw _ List.mem_cons_self)

theorem uniqueItem (hvalue : UniqueValue n) : UniqueBefore Item n := by
  rintro _ _ r r' v v' hn @⟨w, s, w₁, _, hw, hs, hw₁⟩ @⟨w', s', w₁', _, hw', hs', hw₁'⟩ hr hr' heq
  obtain ⟨b, t, hb, hbegins, -⟩ := hs.head
  obtain ⟨b', t', hb', hbegins', -⟩ := hs'.head
  have hlen : s.length ≤ n := by
    simp only [List.length_append] at hn
    omega
  have heq₁ : w ++ (s ++ (w₁ ++ r)) = w' ++ (s' ++ (w₁' ++ r')) := by simpa using heq
  obtain ⟨rfl, heq₂⟩ :=
    span_unique hw hw' (by simp [hb, hbegins.1]) (by simp [hb', hbegins'.1]) heq₁
  obtain ⟨rfl, rfl⟩ := hvalue hlen hs hs' (ws_head hw₁ fun b hb => (hr b hb).2)
    (ws_head hw₁' fun b hb => (hr' b hb).2) heq₂
  obtain ⟨rfl, -⟩ := span_unique hw₁ hw₁' (fun b hb => (hr b hb).1) (fun b hb => (hr' b hb).1)
    (List.append_cancel_left heq₂)
  exact ⟨rfl, rfl⟩

theorem uniqueMember (hitem : UniqueBefore Item n) : UniqueBefore Member n := by
  rintro _ _ r r' _ _ hn @⟨w, k, w₁, s, v, hw, hk, hw₁, hs⟩
    @⟨w', k', w₁', s', v', hw', hk', hw₁', hs'⟩ hr hr' heq
  have hlen : s.length ≤ n := by
    simp only [List.length_append, List.length_cons] at hn
    omega
  have heq₁ : w ++ quote :: (k ++ quote :: (w₁ ++ colon :: (s ++ r))) =
      w' ++ quote :: (k' ++ quote :: (w₁' ++ colon :: (s' ++ r'))) := by simpa using heq
  have hquote : ∀ t : Str, ∀ b ∈ (quote :: t).head?, isWs b = false := by simp [isWs, quote, ch]
  have hcolon : ∀ t : Str, ∀ b ∈ (colon :: t).head?, isWs b = false := by simp [isWs, colon, ch]
  obtain ⟨rfl, heq₂⟩ := span_unique hw hw' (hquote _) (hquote _) heq₁
  obtain ⟨rfl, heq₃⟩ := hk.unique hk' (List.cons.inj heq₂).2
  obtain ⟨rfl, heq₄⟩ := span_unique hw₁ hw₁' (hcolon _) (hcolon _) heq₃
  obtain ⟨rfl, rfl⟩ := hitem hlen hs hs' hr hr' (List.cons.inj heq₄).2
  exact ⟨rfl, rfl⟩

/-- What is separated by commas up to `c` is told apart where its parts are. -/
theorem uniqueUpTo {α : Type} {P : Str → α → Prop} {Q : Str → List α → Prop} {c : Byte}
    (hc : ∀ r, Ends (c :: r)) (hcomma : c ≠ comma) (hnil : ∀ s, ¬ Q s [])
    (hcons : ∀ s x xs, Q s (x :: xs) →
      P s x ∧ xs = [] ∨ ∃ t u, s = t ++ comma :: u ∧ P t x ∧ Q u xs)
    (hP : UniqueBefore P n) : UniqueUpTo c Q n := by
  intro s s' r r' xs xs' hn h h' heq
  induction xs generalizing s s' xs' with
  | nil => exact absurd h (hnil s)
  | cons x xs ih =>
    rcases xs' with _ | ⟨x', xs'⟩
    · exact absurd h' (hnil s')
    rcases hcons s x xs h with ⟨hs, rfl⟩ | ⟨t, u, rfl, ht, hu⟩ <;>
      rcases hcons s' x' xs' h' with ⟨hs', rfl⟩ | ⟨t', u', rfl, ht', hu'⟩
    · obtain ⟨rfl, rfl⟩ := hP hn hs hs' (hc _) (hc _) heq
      exact ⟨rfl, rfl⟩
    · rw [List.append_assoc] at heq
      obtain ⟨rfl, -⟩ := hP hn hs ht' (hc _) (ends_comma _) heq
      exact absurd (List.cons.inj (List.append_cancel_left heq)).1 hcomma
    · rw [List.append_assoc] at heq
      have hlen : t.length ≤ n := by
        rw [List.length_append] at hn
        omega
      obtain ⟨rfl, -⟩ := hP hlen ht hs' (ends_comma _) (hc _) heq
      exact absurd (List.cons.inj (List.append_cancel_left heq)).1.symm hcomma
    · rw [List.append_assoc, List.append_assoc] at heq
      rw [List.length_append, List.length_cons] at hn
      obtain ⟨rfl, rfl⟩ := hP (by omega) ht ht' (ends_comma _) (ends_comma _) heq
      have htail := (List.cons.inj (List.append_cancel_left heq)).2
      obtain ⟨rfl, rfl⟩ := ih (by omega) hu hu' htail
      exact ⟨rfl, rfl⟩

theorem uniqueElements (hitem : UniqueBefore Item n) : UniqueUpTo rbracket Elements n := by
  refine uniqueUpTo ends_rbracket (by decide) (fun s h => by cases h) (fun s v vs h => ?_) hitem
  cases h with
  | one h => exact .inl ⟨h, rfl⟩
  | cons h ht => exact .inr ⟨_, _, rfl, h, ht⟩

theorem uniqueMembers (hitem : UniqueBefore Item n) : UniqueUpTo rbrace Members n := by
  refine uniqueUpTo ends_rbrace (by decide) (fun s h => by cases h) (fun s m ms h => ?_)
    (uniqueMember hitem)
  cases h with
  | one h => exact .inl ⟨h, rfl⟩
  | cons h ht => exact .inr ⟨_, _, rfl, h, ht⟩

/-! ## Arrays and objects -/

/-- White space and then the first byte of something. -/
def Headed (s : Str) : Prop := ∃ w b t, s = w ++ b :: t ∧ Ws w ∧ Begins b

theorem Headed.append {s : Str} (h : Headed s) (t : Str) : Headed (s ++ t) := by
  obtain ⟨w, b, u, rfl, hw, hb⟩ := h
  exact ⟨w, b, u ++ t, List.append_assoc _ _ _, hw, hb⟩

theorem Item.headed {s : Str} {v : Json} (h : Item s v) : Headed s := by
  obtain ⟨hw, hs, -⟩ := h
  obtain ⟨b, t, rfl, hb, -⟩ := hs.head
  exact Headed.append ⟨_, b, t, rfl, hw, hb⟩ _

theorem Member.headed {s : Str} {m : Str × Json} (h : Member s m) : Headed s := by
  obtain ⟨hw, -, -, -⟩ := h
  have hquote : Begins quote := ⟨rfl, by decide, by decide⟩
  exact Headed.append (Headed.append ⟨_, quote, _, rfl, hw, hquote⟩ _) _

theorem Elements.headed {s : Str} {vs : List Json} (h : Elements s vs) : Headed s := by
  cases h with
  | one h => exact h.headed
  | cons h => exact h.headed.append _

theorem Members.headed {s : Str} {ms : List (Str × Json)} (h : Members s ms) : Headed s := by
  cases h with
  | one h => exact h.headed
  | cons h => exact h.headed.append _

/-- White space alone is not read as a list. -/
theorem uniqueUpTo_or_empty {α : Type} {Q : Str → List α → Prop} {c : Byte} (hc : isWs c = false)
    (hbegins : ∀ b, Begins b → b ≠ c) (hheaded : ∀ s xs, Q s xs → Headed s)
    (hQ : UniqueUpTo c Q n) : UniqueUpTo c (fun s xs => Ws s ∧ xs = [] ∨ Q s xs) n := by
  have hnot : ∀ {s s' r r' : Str} {xs : List α}, Ws s → Q s' xs →
      s ++ c :: r ≠ s' ++ c :: r' := by
    intro s s' r r' xs hs h heq
    obtain ⟨w, b, t, rfl, hw, hb⟩ := hheaded s' xs h
    rw [List.append_assoc] at heq
    obtain ⟨-, htail⟩ := span_unique hs hw (by simp [hc]) (by simp [hb.1]) heq
    exact hbegins b hb (List.cons.inj htail).1.symm
  rintro s s' r r' xs xs' hn (⟨hs, rfl⟩ | h) (⟨hs', rfl⟩ | h') heq
  · exact ⟨(span_unique hs hs' (by simp [hc]) (by simp [hc]) heq).1, rfl⟩
  · exact absurd heq (hnot hs h')
  · exact absurd heq.symm (hnot hs' h)
  · exact hQ hn h h' heq

theorem Value.arr_inv {s : Str} {vs : List Json} (h : Value s (.arr vs)) :
    ∃ t, s = lbracket :: t ++ [rbracket] ∧ (Ws t ∧ vs = [] ∨ Elements t vs) := by
  cases h with
  | emptyArr hw => exact ⟨_, rfl, .inl ⟨hw, rfl⟩⟩
  | arr h => exact ⟨_, rfl, .inr h⟩

theorem Value.obj_inv {s : Str} {ms : List (Str × Json)} (h : Value s (.obj ms)) :
    ∃ t, s = lbrace :: t ++ [rbrace] ∧ (Ws t ∧ ms = [] ∨ Members t ms) := by
  cases h with
  | emptyObj hw => exact ⟨_, rfl, .inl ⟨hw, rfl⟩⟩
  | obj h => exact ⟨_, rfl, .inr h⟩

theorem kind_eq {s s' r r' : Str} {v v' : Json} (h : Value s v) (h' : Value s' v')
    (heq : s ++ r = s' ++ r') : v.kind = v'.kind := by
  obtain ⟨b, t, rfl, -, hkind⟩ := h.head
  obtain ⟨b', t', rfl, -, hkind'⟩ := h'.head
  rw [← hkind, ← hkind', (List.cons.inj heq).1]

theorem uniqueValue_succ (helements : UniqueUpTo rbracket Elements n)
    (hmembers : UniqueUpTo rbrace Members n) : UniqueValue (n + 1) := by
  intro s s' r r' v v' hn h h' hr hr' heq
  have hkind := kind_eq h h' heq
  have harr := uniqueUpTo_or_empty rfl (fun b hb => hb.2.1) (fun _ _ => Elements.headed) helements
  have hobj := uniqueUpTo_or_empty rfl (fun b hb => hb.2.2) (fun _ _ => Members.headed) hmembers
  cases v with
  | null =>
    cases v' with
    | null =>
      cases h
      cases h'
      exact ⟨rfl, rfl⟩
    | bool b => cases b <;> simp [kind] at hkind
    | num | str | arr | obj => simp [kind] at hkind
  | bool b =>
    cases v' with
    | bool b' =>
      obtain rfl : b = b' := by cases b <;> cases b' <;> simp [kind] at hkind ⊢
      cases b <;> cases h <;> cases h' <;> exact ⟨rfl, rfl⟩
    | null | num | str | arr | obj => cases b <;> simp [kind] at hkind
  | num k =>
    cases v' with
    | num k' =>
      cases h with
      | num hk =>
        cases h' with
        | num hk' =>
          obtain ⟨rfl, -⟩ := span_unique hk.num hk'.num hr hr' heq
          exact ⟨rfl, rfl⟩
    | bool b => cases b <;> simp [kind] at hkind
    | null | str | arr | obj => simp [kind] at hkind
  | str k =>
    cases v' with
    | str k' =>
      cases h with
      | str hk =>
        cases h' with
        | str hk' =>
          have htail : k ++ quote :: r = k' ++ quote :: r' := by simpa using heq
          obtain ⟨rfl, -⟩ := hk.unique hk' htail
          exact ⟨rfl, rfl⟩
    | bool b => cases b <;> simp [kind] at hkind
    | null | num | arr | obj => simp [kind] at hkind
  | arr vs =>
    cases v' with
    | arr vs' =>
      obtain ⟨t, rfl, ht⟩ := h.arr_inv
      obtain ⟨t', rfl, ht'⟩ := h'.arr_inv
      have hlen : t.length ≤ n := by
        simp only [List.length_append, List.length_cons] at hn
        omega
      have htail : t ++ rbracket :: r = t' ++ rbracket :: r' := by simpa using heq
      obtain ⟨rfl, rfl⟩ := harr hlen ht ht' htail
      exact ⟨rfl, rfl⟩
    | bool b => cases b <;> simp [kind] at hkind
    | null | num | str | obj => simp [kind] at hkind
  | obj ms =>
    cases v' with
    | obj ms' =>
      obtain ⟨t, rfl, ht⟩ := h.obj_inv
      obtain ⟨t', rfl, ht'⟩ := h'.obj_inv
      have hlen : t.length ≤ n := by
        simp only [List.length_append, List.length_cons] at hn
        omega
      have htail : t ++ rbrace :: r = t' ++ rbrace :: r' := by simpa using heq
      obtain ⟨rfl, rfl⟩ := hobj hlen ht ht' htail
      exact ⟨rfl, rfl⟩
    | bool b => cases b <;> simp [kind] at hkind
    | null | num | str | arr => simp [kind] at hkind

theorem uniqueValue : ∀ n, UniqueValue n
  | 0 => by
    intro s s' r r' v v' hn h
    obtain ⟨b, t, rfl, -⟩ := h.head
    cases hn
  | n + 1 =>
    have hitem := uniqueItem (uniqueValue n)
    uniqueValue_succ (uniqueElements hitem) (uniqueMembers hitem)

/-- A JSON text stands for one value. -/
theorem Item.unique {s : Str} {v v' : Json} (h : Item s v) (h' : Item s v') : v = v' := by
  have hend : Ends [] := by simp [Ends]
  exact (uniqueItem (uniqueValue s.length) le_rfl h h' hend hend rfl).2

end Json

end PairingV2
