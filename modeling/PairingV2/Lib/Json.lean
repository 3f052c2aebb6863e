import PairingV2.Lib.Strings

/-!
# JSON texts

The grammar of JSON over the texts of ASCII characters, as the relation `Item` of a text to the
value it stands for. Strings and numbers are kept as they are written. `parseItem` reads the texts
without numbers and escapes, and what it reads is grammatical (`parseItem_sound`).
-/

namespace PairingV2

inductive Json where
  | null
  | bool (b : Bool)
  | num (s : Str)
  | str (s : Str)
  | arr (vs : List Json)
  | obj (ms : List (Str × Json))

namespace Json

def quote : Byte := ch '\x22'

def backslash : Byte := ch '\x5c'

def lbrace : Byte := ch '\x7b'

def rbrace : Byte := ch '\x7d'

def lbracket : Byte := ch '['

def rbracket : Byte := ch ']'

def comma : Byte := ch ','

def colon : Byte := ch ':'

/-! ## Grammar -/

def isWs (b : Byte) : Bool := b = ch ' ' || b = ch '\t' || b = ch '\n' || b = ch '\r'

def Ws (s : Str) : Prop := ∀ b ∈ s, isWs b = true

def isDigit (b : Byte) : Bool := 48 ≤ b.val && b.val ≤ 57

def isHex (b : Byte) : Bool :=
  isDigit b || (97 ≤ b.val && b.val ≤ 102) || (65 ≤ b.val && b.val ≤ 70)

def isPlain (b : Byte) : Bool := 32 ≤ b.val && b.val < 128 && b ≠ quote && b ≠ backslash

/-- What stands between the quotes of a string. -/
inductive Chars : Str → Prop where
  | nil : Chars []
  | plain {b : Byte} {s : Str} (hb : isPlain b = true) (h : Chars s) : Chars (b :: s)
  | escape {b : Byte} {s : Str} (hb : b ∈ quote :: backslash :: PairingV2.str "/bfnrt")
      (h : Chars s) : Chars (backslash :: b :: s)
  | unicode {bs s : Str} (hlen : bs.length = 4) (hbs : ∀ b ∈ bs, isHex b = true) (h : Chars s) :
      Chars (backslash :: ch 'u' :: bs ++ s)

def Digits (s : Str) : Prop := s ≠ [] ∧ ∀ b ∈ s, isDigit b = true

structure Number (s : Str) : Prop where
  parts : ∃ sign int frac exp, s = sign ++ int ++ frac ++ exp ∧
    (sign = [] ∨ sign = [ch '-']) ∧
    (int = [ch '0'] ∨ Digits int ∧ int.head? ≠ some (ch '0')) ∧
    (frac = [] ∨ ∃ ds, frac = ch '.' :: ds ∧ Digits ds) ∧
    (exp = [] ∨ ∃ e ∈ [ch 'e', ch 'E'], ∃ sign ∈ [[], [ch '+'], [ch '-']], ∃ ds,
      exp = e :: sign ++ ds ∧ Digits ds)

mutual

inductive Value : Str → Json → Prop where
  | null : Value (PairingV2.str "null") .null
  | false : Value (PairingV2.str "false") (.bool Bool.false)
  | true : Value (PairingV2.str "true") (.bool Bool.true)
  | num {s : Str} (h : Number s) : Value s (.num s)
  | str {s : Str} (h : Chars s) : Value (quote :: s ++ [quote]) (.str s)
  | emptyArr {w : Str} (hw : Ws w) : Value (lbracket :: w ++ [rbracket]) (.arr [])
  | arr {s : Str} {vs : List Json} (h : Elements s vs) :
      Value (lbracket :: s ++ [rbracket]) (.arr vs)
  | emptyObj {w : Str} (hw : Ws w) : Value (lbrace :: w ++ [rbrace]) (.obj [])
  | obj {s : Str} {ms : List (Str × Json)} (h : Members s ms) :
      Value (lbrace :: s ++ [rbrace]) (.obj ms)

/-- A value and the white space around it, such as a whole JSON text. -/
inductive Item : Str → Json → Prop where
  | mk {w s w' : Str} {v : Json} (hw : Ws w) (h : Value s v) (hw' : Ws w') : Item (w ++ s ++ w') v

inductive Elements : Str → List Json → Prop where
  | one {s : Str} {v : Json} (h : Item s v) : Elements s [v]
  | cons {s t : Str} {v : Json} {vs : List Json} (h : Item s v) (ht : Elements t vs) :
      Elements (s ++ comma :: t) (v :: vs)

inductive Member : Str → Str × Json → Prop where
  | mk {w k w' s : Str} {v : Json} (hw : Ws w) (hk : Chars k) (hw' : Ws w') (h : Item s v) :
      Member (w ++ quote :: k ++ quote :: w' ++ colon :: s) (k, v)

inductive Members : Str → List (Str × Json) → Prop where
  | one {s : Str} {m : Str × Json} (h : Member s m) : Members s [m]
  | cons {s t : Str} {m : Str × Json} {ms : List (Str × Json)} (h : Member s m)
      (ht : Members t ms) : Members (s ++ comma :: t) (m :: ms)

end

/-! ## Putting texts together -/

theorem Ws.append {w w' : Str} (h : Ws w) (h' : Ws w') : Ws (w ++ w') := by
  intro b hb
  rcases List.mem_append.1 hb with hb | hb
  · exact h b hb
  · exact h' b hb

theorem Item.ws_append {w s : Str} {v : Json} (hw : Ws w) (h : Item s v) : Item (w ++ s) v := by
  obtain ⟨hw₁, hv, hw₂⟩ := h
  rw [← List.append_assoc, ← List.append_assoc]
  exact .mk (hw.append hw₁) hv hw₂

theorem Elements.ws_append {w s : Str} {vs : List Json} (hw : Ws w) (h : Elements s vs) :
    Elements (w ++ s) vs := by
  cases h with
  | one h => exact .one (h.ws_append hw)
  | cons h ht =>
    rw [← List.append_assoc]
    exact .cons (h.ws_append hw) ht

theorem elements_intercalate {ss : List Str} {vs : List Json} (h : List.Forall₂ Item ss vs) :
    ss ≠ [] → Elements ([comma].intercalate ss) vs := by
  induction h with
  | nil => exact fun hne => absurd rfl hne
  | @cons s v ss vs hv hvs ih =>
    intro _
    rcases ss with _ | ⟨s', ss⟩
    · cases hvs
      simpa using Elements.one hv
    · rw [List.intercalate_cons_cons, List.append_assoc]
      exact .cons hv (ih (by simp))

theorem Members.concat {s t : Str} {ms : List (Str × Json)} {m : Str × Json} (h : Members s ms)
    (hm : Member t m) : Members (s ++ comma :: t) (ms ++ [m]) := by
  induction ms generalizing s with
  | nil => cases h
  | cons m' ms ih =>
    cases h with
    | one h => exact .cons h (.one hm)
    | cons h ht =>
      rw [List.append_assoc, List.cons_append]
      exact .cons h (ih ht)

/-! ## Reading texts -/

def expect (c : Byte) : Str → Option Str
  | [] => none
  | b :: s => if b = c then some s else none

/-- A string of plain characters, up to the quote that ends it. -/
def parseChars : Str → Option (Str × Str)
  | [] => none
  | b :: s =>
    if b = quote then some ([], s)
    else if isPlain b then (parseChars s).map fun x => (b :: x.1, x.2)
    else none

def parseWord (s : Str) : Option (Json × Str) :=
  if PairingV2.str "true" <+: s then some (.bool true, s.drop 4)
  else if PairingV2.str "false" <+: s then some (.bool false, s.drop 5)
  else if PairingV2.str "null" <+: s then some (.null, s.drop 4)
  else none

mutual

/-- A value and the white space around it; the number bounds the depth. -/
def parseItem : ℕ → Str → Option (Json × Str)
  | 0, _ => none
  | n + 1, s => do
    let (v, s) ← parseValue n (s.dropWhile isWs)
    return (v, s.dropWhile isWs)

def parseValue : ℕ → Str → Option (Json × Str)
  | 0, _ => none
  | _ + 1, [] => none
  | n + 1, b :: s =>
    if b = quote then (parseChars s).map fun x => (.str x.1, x.2)
    else if b = lbrace then (parseMembers n s).map fun x => (.obj x.1, x.2)
    else if b = lbracket then (parseElements n s).map fun x => (.arr x.1, x.2)
    else parseWord (b :: s)

def parseElements : ℕ → Str → Option (List Json × Str)
  | 0, _ => none
  | n + 1, s => do
    let (v, s) ← parseItem n s
    match expect comma s with
    | some s => (parseElements n s).map fun x => (v :: x.1, x.2)
    | none => (expect rbracket s).map fun s => ([v], s)

def parseMember : ℕ → Str → Option ((Str × Json) × Str)
  | 0, _ => none
  | n + 1, s => do
    let s ← expect quote (s.dropWhile isWs)
    let (k, s) ← parseChars s
    let s ← expect colon (s.dropWhile isWs)
    let (v, s) ← parseItem n s
    return ((k, v), s)

def parseMembers : ℕ → Str → Option (List (Str × Json) × Str)
  | 0, _ => none
  | n + 1, s => do
    let (m, s) ← parseMember n s
    match expect comma s with
    | some s => (parseMembers n s).map fun x => (m :: x.1, x.2)
    | none => (expect rbrace s).map fun s => ([m], s)

end

theorem ws_takeWhile (s : Str) : Ws (s.takeWhile isWs) := fun _ => List.mem_takeWhile_imp

theorem expect_eq {c : Byte} {s r : Str} (h : expect c s = some r) : s = c :: r := by
  unfold expect at h
  split at h
  · cases h
  · split_ifs at h with hc
    rw [hc, Option.some.inj h]

theorem parseChars_sound : ∀ {s k r : Str}, parseChars s = some (k, r) →
    s = k ++ quote :: r ∧ Chars k
  | [], k, r, h => by cases h
  | b :: s, k, r, h => by
    unfold parseChars at h
    split_ifs at h with hq hplain
    · obtain ⟨rfl, rfl⟩ : [] = k ∧ s = r := by simpa using h
      exact ⟨by rw [hq]; rfl, .nil⟩
    · obtain ⟨⟨k', r'⟩, hparse, heq⟩ := Option.map_eq_some_iff.1 h
      obtain ⟨rfl, rfl⟩ : b :: k' = k ∧ r' = r := by simpa using heq
      obtain ⟨rfl, hk⟩ := parseChars_sound hparse
      exact ⟨rfl, .plain hplain hk⟩

theorem prefix_drop {w s : Str} (h : w <+: s) : s = w ++ s.drop w.length := by
  obtain ⟨t, rfl⟩ := h
  rw [List.drop_left]

theorem parseWord_sound {s r : Str} {v : Json} (h : parseWord s = some (v, r)) :
    ∃ t, s = t ++ r ∧ Value t v := by
  unfold parseWord at h
  split_ifs at h with htrue hfalse hnull <;>
    obtain ⟨rfl, rfl⟩ := Prod.mk.inj (Option.some.inj h)
  · exact ⟨_, prefix_drop htrue, .true⟩
  · exact ⟨_, prefix_drop hfalse, .false⟩
  · exact ⟨_, prefix_drop hnull, .null⟩

/-- What the parsers read at a depth is grammatical. -/
structure Sound (n : ℕ) : Prop where
  item : ∀ {s r v}, parseItem n s = some (v, r) → ∃ t, s = t ++ r ∧ Item t v
  value : ∀ {s r v}, parseValue n s = some (v, r) → ∃ t, s = t ++ r ∧ Value t v
  elements : ∀ {s r vs}, parseElements n s = some (vs, r) →
    ∃ t, s = t ++ rbracket :: r ∧ Elements t vs
  member : ∀ {s r m}, parseMember n s = some (m, r) → ∃ t, s = t ++ r ∧ Member t m
  members : ∀ {s r ms}, parseMembers n s = some (ms, r) → ∃ t, s = t ++ rbrace :: r ∧ Members t ms

section Step

variable {n : ℕ} (ih : Sound n)
include ih

theorem parseItem_step {s r : Str} {v : Json} (h : parseItem (n + 1) s = some (v, r)) :
    ∃ t, s = t ++ r ∧ Item t v := by
  unfold parseItem at h
  obtain ⟨⟨v', s'⟩, hvalue, heq⟩ := Option.bind_eq_some_iff.1 h
  obtain ⟨rfl, rfl⟩ := Prod.mk.inj (Option.some.inj heq)
  obtain ⟨t, hs, ht⟩ := ih.value hvalue
  refine ⟨s.takeWhile isWs ++ t ++ s'.takeWhile isWs, ?_, .mk (ws_takeWhile s) ht (ws_takeWhile s')⟩
  rw [List.append_assoc, List.takeWhile_append_dropWhile, List.append_assoc, ← hs,
    List.takeWhile_append_dropWhile]

theorem parseValue_step {s r : Str} {v : Json} (h : parseValue (n + 1) s = some (v, r)) :
    ∃ t, s = t ++ r ∧ Value t v := by
  rcases s with _ | ⟨b, s⟩
  · cases h
  unfold parseValue at h
  split_ifs at h with hq hbrace hbracket
  · obtain ⟨⟨k, r'⟩, hparse, heq⟩ := Option.map_eq_some_iff.1 h
    obtain ⟨rfl, rfl⟩ := Prod.mk.inj heq
    obtain ⟨rfl, hk⟩ := parseChars_sound hparse
    exact ⟨quote :: k ++ [quote], by simp [hq], .str hk⟩
  · obtain ⟨⟨ms, r'⟩, hparse, heq⟩ := Option.map_eq_some_iff.1 h
    obtain ⟨rfl, rfl⟩ := Prod.mk.inj heq
    obtain ⟨t, rfl, ht⟩ := ih.members hparse
    exact ⟨lbrace :: t ++ [rbrace], by simp [hbrace], .obj ht⟩
  · obtain ⟨⟨vs, r'⟩, hparse, heq⟩ := Option.map_eq_some_iff.1 h
    obtain ⟨rfl, rfl⟩ := Prod.mk.inj heq
    obtain ⟨t, rfl, ht⟩ := ih.elements hparse
    exact ⟨lbracket :: t ++ [rbracket], by simp [hbracket], .arr ht⟩
  · exact parseWord_sound h

theorem parseElements_step {s r : Str} {vs : List Json}
    (h : parseElements (n + 1) s = some (vs, r)) :
    ∃ t, s = t ++ rbracket :: r ∧ Elements t vs := by
  unfold parseElements at h
  obtain ⟨⟨v, s'⟩, hitem, hnext⟩ := Option.bind_eq_some_iff.1 h
  obtain ⟨t, rfl, ht⟩ := ih.item hitem
  rcases hcomma : expect comma s' with _ | s'' <;> simp only [hcomma] at hnext
  · obtain ⟨r', hend, heq⟩ := Option.map_eq_some_iff.1 hnext
    obtain ⟨rfl, rfl⟩ := Prod.mk.inj heq
    exact ⟨t, by rw [expect_eq hend], .one ht⟩
  · obtain ⟨⟨vs', r'⟩, hrest, heq⟩ := Option.map_eq_some_iff.1 hnext
    obtain ⟨rfl, rfl⟩ := Prod.mk.inj heq
    obtain ⟨t', rfl, ht'⟩ := ih.elements hrest
    exact ⟨t ++ comma :: t', by rw [expect_eq hcomma]; simp, .cons ht ht'⟩

theorem parseMember_step {s r : Str} {m : Str × Json} (h : parseMember (n + 1) s = some (m, r)) :
    ∃ t, s = t ++ r ∧ Member t m := by
  unfold parseMember at h
  obtain ⟨s₁, hquote, h⟩ := Option.bind_eq_some_iff.1 h
  obtain ⟨⟨k, s₂⟩, hchars, h⟩ := Option.bind_eq_some_iff.1 h
  obtain ⟨s₃, hcolon, h⟩ := Option.bind_eq_some_iff.1 h
  obtain ⟨⟨v, s₄⟩, hitem, heq⟩ := Option.bind_eq_some_iff.1 h
  obtain ⟨rfl, rfl⟩ := Prod.mk.inj (Option.some.inj heq)
  obtain ⟨rfl, hk⟩ := parseChars_sound hchars
  obtain ⟨t, rfl, ht⟩ := ih.item hitem
  refine ⟨_, ?_, .mk (ws_takeWhile s) hk (ws_takeWhile s₂) ht⟩
  have hs : s = s.takeWhile isWs ++ quote :: (k ++ quote :: s₂) := by
    rw [← expect_eq hquote, List.takeWhile_append_dropWhile]
  have hs₂ : s₂ = s₂.takeWhile isWs ++ colon :: (t ++ s₄) := by
    rw [← expect_eq hcolon, List.takeWhile_append_dropWhile]
  rw [hs₂] at hs
  simpa using hs

theorem parseMembers_step {s r : Str} {ms : List (Str × Json)}
    (h : parseMembers (n + 1) s = some (ms, r)) :
    ∃ t, s = t ++ rbrace :: r ∧ Members t ms := by
  unfold parseMembers at h
  obtain ⟨⟨m, s'⟩, hmember, hnext⟩ := Option.bind_eq_some_iff.1 h
  obtain ⟨t, rfl, ht⟩ := ih.member hmember
  rcases hcomma : expect comma s' with _ | s'' <;> simp only [hcomma] at hnext
  · obtain ⟨r', hend, heq⟩ := Option.map_eq_some_iff.1 hnext
    obtain ⟨rfl, rfl⟩ := Prod.mk.inj heq
    exact ⟨t, by rw [expect_eq hend], .one ht⟩
  · obtain ⟨⟨ms', r'⟩, hrest, heq⟩ := Option.map_eq_some_iff.1 hnext
    obtain ⟨rfl, rfl⟩ := Prod.mk.inj heq
    obtain ⟨t', rfl, ht'⟩ := ih.members hrest
    exact ⟨t ++ comma :: t', by rw [expect_eq hcomma]; simp, .cons ht ht'⟩

end Step

theorem sound : ∀ n, Sound n
  | 0 => by
    refine ⟨?_, ?_, ?_, ?_, ?_⟩
    · intro _ _ _ h
      unfold parseItem at h
      cases h
    · intro _ _ _ h
      unfold parseValue at h
      cases h
    · intro _ _ _ h
      unfold parseElements at h
      cases h
    · intro _ _ _ h
      unfold parseMember at h
      cases h
    · intro _ _ _ h
      unfold parseMembers at h
      cases h
  | n + 1 =>
    have ih := sound n
    ⟨parseItem_step ih, parseValue_step ih, parseElements_step ih, parseMember_step ih,
      parseMembers_step ih⟩

theorem parseItem_sound {n : ℕ} {s : Str} {v : Json} (h : parseItem n s = some (v, [])) :
    Item s v := by
  obtain ⟨t, hs, ht⟩ := (sound n).item h
  rw [List.append_nil] at hs
  exact hs ▸ ht

end Json

end PairingV2
