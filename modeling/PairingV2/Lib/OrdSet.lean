import Mathlib

/-!
# Ordered sets

`std::set` as the strictly increasing list that a traversal of it visits. The rank of an element is
the number of those before it, which is its place in that list (`getElem?_iff_rank`).
-/

namespace PairingV2

structure OrdSet (α : Type*) [LinearOrder α] where
  elements : List α
  sorted : elements.Pairwise (· < ·)

namespace OrdSet

variable {α : Type*} [LinearOrder α]

instance : EmptyCollection (OrdSet α) := ⟨⟨[], .nil⟩⟩

instance : Membership α (OrdSet α) := ⟨fun s a => a ∈ s.elements⟩

instance (a : α) (s : OrdSet α) : Decidable (a ∈ s) :=
  inferInstanceAs (Decidable (a ∈ s.elements))

/-- An equal element is already there. -/
def insertSorted (a : α) : List α → List α
  | [] => [a]
  | b :: bs => if a < b then a :: b :: bs else if a = b then b :: bs else b :: insertSorted a bs

theorem mem_insertSorted {a x : α} : ∀ {l : List α}, x ∈ insertSorted a l ↔ x = a ∨ x ∈ l
  | [] => by simp [insertSorted]
  | b :: bs => by
    unfold insertSorted
    split_ifs with hlt heq
    · rw [List.mem_cons]
    · subst heq
      simp
    · simp only [List.mem_cons, mem_insertSorted (l := bs)]
      tauto

theorem sorted_insertSorted {a : α} : ∀ {l : List α}, l.Pairwise (· < ·) →
    (insertSorted a l).Pairwise (· < ·)
  | [], _ => by simp [insertSorted]
  | b :: bs, h => by
    obtain ⟨hb, hbs⟩ := List.pairwise_cons.1 h
    unfold insertSorted
    split_ifs with hlt heq
    · refine List.pairwise_cons.2 ⟨?_, h⟩
      intro x hx
      rcases List.mem_cons.1 hx with rfl | hx
      · exact hlt
      · exact hlt.trans (hb x hx)
    · exact h
    · refine List.pairwise_cons.2 ⟨?_, sorted_insertSorted hbs⟩
      intro x hx
      rcases mem_insertSorted.1 hx with rfl | hx
      · exact lt_of_le_of_ne (not_lt.1 hlt) (Ne.symm heq)
      · exact hb x hx

def insert (a : α) (s : OrdSet α) : OrdSet α :=
  ⟨insertSorted a s.elements, sorted_insertSorted s.sorted⟩

def insertAll (as : List α) (s : OrdSet α) : OrdSet α := as.foldl (fun s a => s.insert a) s

@[simp] theorem elements_empty : (∅ : OrdSet α).elements = [] := rfl

@[simp] theorem mem_elements {a : α} {s : OrdSet α} : a ∈ s.elements ↔ a ∈ s := Iff.rfl

@[simp] theorem not_mem_empty (a : α) : a ∉ (∅ : OrdSet α) := List.not_mem_nil

@[simp] theorem mem_insert {a x : α} {s : OrdSet α} : x ∈ s.insert a ↔ x = a ∨ x ∈ s :=
  mem_insertSorted

@[simp] theorem mem_insertAll {x : α} : ∀ {as : List α} {s : OrdSet α},
    x ∈ s.insertAll as ↔ x ∈ as ∨ x ∈ s
  | [], s => by simp [insertAll]
  | a :: as, s => by
    have ih : x ∈ (s.insert a).insertAll as ↔ x ∈ as ∨ x ∈ s.insert a := mem_insertAll
    simp only [insertAll, List.foldl_cons] at ih ⊢
    rw [ih, mem_insert, List.mem_cons]
    tauto

def size (s : OrdSet α) : ℕ := s.elements.length

/-- How many elements come before. -/
def rank (s : OrdSet α) (a : α) : ℕ := s.elements.countP (· < a)

theorem countP_getElem? {a : α} : ∀ {l : List α} {k : ℕ}, l.Pairwise (· < ·) → l[k]? = some a →
    l.countP (· < a) = k
  | [], k, _, h => by simp at h
  | b :: bs, 0, hs, h => by
    obtain rfl : b = a := by simpa using h
    rw [List.countP_eq_zero]
    intro x hx
    rw [decide_eq_true_eq, not_lt]
    rcases List.mem_cons.1 hx with rfl | hx
    · exact le_rfl
    · exact (List.rel_of_pairwise_cons hs hx).le
  | b :: bs, k + 1, hs, h => by
    rw [List.getElem?_cons_succ] at h
    have hlt : b < a := List.rel_of_pairwise_cons hs (List.mem_of_getElem? h)
    rw [List.countP_cons_of_pos (by simpa using hlt), countP_getElem? hs.of_cons h]

theorem rank_eq {s : OrdSet α} {a : α} {k : ℕ} (h : s.elements[k]? = some a) : s.rank a = k :=
  countP_getElem? s.sorted h

/-- An element has one rank. -/
theorem rank_unique {s : OrdSet α} {a : α} {i j : ℕ} (hi : s.elements[i]? = some a)
    (hj : s.elements[j]? = some a) : i = j := by
  rw [← rank_eq hi, rank_eq hj]

theorem rank_lt {s : OrdSet α} {a : α} (ha : a ∈ s) : s.rank a < s.size := by
  obtain ⟨k, hk⟩ := List.mem_iff_getElem?.1 ha
  obtain ⟨hlt, -⟩ := List.getElem?_eq_some_iff.1 hk
  rw [rank_eq hk]
  exact hlt

/-- A place holds the element of that rank. -/
theorem getElem?_iff_rank {s : OrdSet α} {a : α} {k : ℕ} :
    s.elements[k]? = some a ↔ a ∈ s ∧ s.rank a = k := by
  constructor
  · intro h
    exact ⟨List.mem_of_getElem? h, rank_eq h⟩
  · rintro ⟨ha, rfl⟩
    obtain ⟨k, hk⟩ := List.mem_iff_getElem?.1 ha
    rw [rank_eq hk]
    exact hk

theorem rank_injOn {s : OrdSet α} {a b : α} (ha : a ∈ s) (hb : b ∈ s) (h : s.rank a = s.rank b) :
    a = b :=
  Option.some.inj ((getElem?_iff_rank.2 ⟨ha, h⟩).symm.trans (getElem?_iff_rank.2 ⟨hb, rfl⟩))

theorem exists_of_lt_size {s : OrdSet α} {k : ℕ} (hk : k < s.size) : ∃ a ∈ s, s.rank a = k :=
  ⟨s.elements.get ⟨k, hk⟩, getElem?_iff_rank.1 (List.getElem?_eq_getElem hk)⟩

end OrdSet

end PairingV2
