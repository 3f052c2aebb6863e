import Mathlib

/-!
# Separators

How a list that was put together with separators comes apart again: at the first separator, if what
comes before holds none (`append_cons_inj`, `append_marker_inj_left`), or at the last one
(`append_marker_inj_right`). A marker is a separator whose first symbol does not come back in it, so
that no two occurrences of it overlap.
-/

namespace PairingV2

variable {α : Type*}

theorem append_cons_inj {x : α} {a b u v : List α} (ha : x ∉ a) (hb : x ∉ b)
    (h : a ++ x :: u = b ++ x :: v) : a = b ∧ u = v := by
  rcases List.append_eq_append_iff.1 h with ⟨_ | ⟨y, as⟩, rfl, h'⟩ | ⟨_ | ⟨y, as⟩, rfl, h'⟩
  · simpa using h'
  · obtain ⟨rfl, -⟩ := List.cons.inj h'
    simp at hb
  · simpa [eq_comm] using h'
  · obtain ⟨rfl, -⟩ := List.cons.inj h'
    simp at ha

section Marker

variable {x : α} {m : List α}

/-- After an occurrence of a marker, the next one is behind it. -/
theorem marker_next (hx : x ∉ m) {as u v : List α} (h : x :: m ++ u = as ++ (x :: m ++ v)) :
    as = [] ∨ ∃ cs, as = x :: m ++ cs ∧ u = cs ++ (x :: m ++ v) := by
  rcases as with _ | ⟨y, as⟩
  · exact .inl rfl
  simp only [List.cons_append, List.cons.injEq] at h
  obtain ⟨rfl, h⟩ := h
  rcases List.append_eq_append_iff.1 h with ⟨cs, rfl, hu⟩ | ⟨_ | ⟨z, bs⟩, hm, hu⟩
  · exact .inr ⟨cs, rfl, hu⟩
  · rw [List.append_nil] at hm
    subst hm
    exact .inr ⟨[], by simp, by simpa using hu.symm⟩
  · obtain ⟨rfl, -⟩ := List.cons.inj hu
    exact absurd (hm ▸ by simp) hx

theorem append_marker_inj_left (hx : x ∉ m) {a b u v : List α} (ha : ¬ x :: m <:+: a)
    (hb : ¬ x :: m <:+: b) (h : a ++ (x :: m ++ u) = b ++ (x :: m ++ v)) : a = b ∧ u = v := by
  rcases List.append_eq_append_iff.1 h with ⟨as, rfl, h'⟩ | ⟨as, rfl, h'⟩
  · rcases marker_next hx h' with rfl | ⟨cs, rfl, -⟩
    · simpa using h'
    · exact absurd (List.infix_append' _ _ _) hb
  · rcases marker_next hx h' with rfl | ⟨cs, rfl, -⟩
    · simpa [eq_comm] using h'
    · exact absurd (List.infix_append' _ _ _) ha

theorem append_marker_inj_right (hx : x ∉ m) {a b u v : List α} (hu : ¬ x :: m <:+: u)
    (hv : ¬ x :: m <:+: v) (h : a ++ (x :: m ++ u) = b ++ (x :: m ++ v)) : a = b ∧ u = v := by
  rcases List.append_eq_append_iff.1 h with ⟨as, rfl, h'⟩ | ⟨as, rfl, h'⟩
  · rcases marker_next hx h' with rfl | ⟨cs, -, rfl⟩
    · simpa using h'
    · exact absurd (List.infix_append' _ _ _) hu
  · rcases marker_next hx h' with rfl | ⟨cs, -, rfl⟩
    · simpa [eq_comm] using h'
    · exact absurd (List.infix_append' _ _ _) hv

end Marker

/-! ## Where a marker can occur -/

theorem infix_of_not_mem {s : α} {w a b : List α} (hs : s ∉ w) (h : w <:+: a ++ s :: b) :
    w <:+: a ∨ w <:+: b := by
  obtain ⟨p, q, h⟩ := h
  rw [List.append_assoc] at h
  rcases List.append_eq_append_iff.1 h with ⟨as, rfl, h'⟩ | ⟨_ | ⟨y, bs⟩, rfl, h'⟩
  · rcases List.append_eq_append_iff.1 h' with ⟨cs, rfl, -⟩ | ⟨_ | ⟨y, cs⟩, rfl, h''⟩
    · exact .inl (List.infix_append' _ _ _)
    · exact .inl (by simpa using List.infix_append_right)
    · obtain ⟨rfl, -⟩ := List.cons.inj h''
      simp at hs
  · rcases w with _ | ⟨z, w⟩
    · exact .inl List.nil_infix
    · obtain ⟨rfl, -⟩ := List.cons.inj h'
      simp at hs
  · obtain ⟨-, rfl⟩ := List.cons.inj h'
    exact .inr (List.infix_append' _ _ _)

theorem not_infix_tail {s : α} {w a b : List α} (h : ¬ w <:+: a ++ s :: b) : ¬ w <:+: b := by
  intro hw
  exact h (hw.trans ((List.suffix_cons s b).trans (List.suffix_append a _)).isInfix)

theorem infix_of_head_not_mem {x : α} {w b : List α} : ∀ {a : List α}, x ∉ a →
    x :: w <:+: a ++ b → x :: w <:+: b
  | [], _, h => h
  | y :: a, hx, h => by
    rw [List.cons_append, List.infix_cons_iff] at h
    rcases h with h | h
    · obtain ⟨rfl, -⟩ := List.cons_prefix_cons.1 h
      simp at hx
    · exact infix_of_head_not_mem (fun ha => hx (List.mem_cons_of_mem y ha)) h

/-! ## Joined lists -/

theorem intercalate_cons (sep a : List α) : ∀ l : List (List α),
    sep.intercalate (a :: l) = a ++ l.flatMap (sep ++ ·)
  | [] => by simp
  | b :: l => by
    rw [List.intercalate_cons_cons, intercalate_cons sep b l, List.flatMap_cons]
    simp only [List.append_assoc]

/-- What neither begins in the separator nor holds its first symbol occurs in a part. -/
theorem infix_intercalate {s x : α} {p w : List α} (hs : s ∉ x :: w) (hx : x ∉ p) :
    ∀ {l : List (List α)}, x :: w <:+: (s :: p).intercalate l → ∃ a ∈ l, x :: w <:+: a
  | [], h => by simp at h
  | [a], h => ⟨a, by simp, by simpa using h⟩
  | a :: b :: l, h => by
    rw [List.intercalate_cons_cons, List.append_assoc, List.cons_append] at h
    rcases infix_of_not_mem hs h with h | h
    · exact ⟨a, by simp, h⟩
    · obtain ⟨c, hc, h⟩ := infix_intercalate hs hx (infix_of_head_not_mem hx h)
      exact ⟨c, List.mem_cons_of_mem a hc, h⟩

variable {x : α} {m : List α}

theorem joined_inj (hx : x ∉ m) : ∀ {l l' : List (List α)} {a a' : List α},
    (∀ b ∈ a :: l, ¬ x :: m <:+: b) → (∀ b ∈ a' :: l', ¬ x :: m <:+: b) →
    a ++ l.flatMap (x :: m ++ ·) = a' ++ l'.flatMap (x :: m ++ ·) → a :: l = a' :: l'
  | [], [], a, a', _, _, h => by simpa using h
  | [], b' :: l', a, a', ha, _, h => by
    refine absurd ?_ (ha a (by simp))
    rw [List.flatMap_nil, List.append_nil, List.flatMap_cons, List.append_assoc] at h
    rw [h]
    exact List.infix_append' _ _ _
  | b :: l, [], a, a', _, ha', h => by
    refine absurd ?_ (ha' a' (by simp))
    rw [List.flatMap_nil, List.append_nil, List.flatMap_cons, List.append_assoc] at h
    rw [← h]
    exact List.infix_append' _ _ _
  | b :: l, b' :: l', a, a', ha, ha', h => by
    simp only [List.flatMap_cons, List.append_assoc] at h
    obtain ⟨rfl, htail⟩ := append_marker_inj_left hx (ha a (by simp)) (ha' a' (by simp)) h
    rw [joined_inj hx (fun c hc => ha c (List.mem_cons_of_mem a hc))
      (fun c hc => ha' c (List.mem_cons_of_mem a hc)) htail]

/-- Joined lists whose parts do not hold the separator, where the empty list and the list of one
empty part are not told apart. -/
theorem intercalate_inj (hx : x ∉ m) {l l' : List (List α)} (hl : ∀ a ∈ l, ¬ x :: m <:+: a)
    (hl' : ∀ a ∈ l', ¬ x :: m <:+: a) (hne : l ≠ [[]]) (hne' : l' ≠ [[]])
    (h : (x :: m).intercalate l = (x :: m).intercalate l') : l = l' := by
  rcases l with _ | ⟨a, l⟩ <;> rcases l' with _ | ⟨a', l'⟩
  · rfl
  · rw [intercalate_cons] at h
    rcases l' with _ | ⟨b, l'⟩
    · simp at h hne'
      exact absurd h hne'
    · simp at h
  · rw [intercalate_cons] at h
    rcases l with _ | ⟨b, l⟩
    · simp at h hne
      exact absurd h hne
    · simp at h
  · rw [intercalate_cons, intercalate_cons] at h
    exact joined_inj hx hl hl' h

end PairingV2
