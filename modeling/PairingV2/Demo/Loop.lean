import PairingV2.Demo.Commands

/-!
# The end of the command loop

The loop ends with the first word that begins with an x (`rounds_of_mem`). It does not ask whether
there was anything to read: without such a word it goes round for ever, on the empty word
(`rounds_of_no_exit`).
-/

namespace PairingV2

namespace Demo

/-- At most `n` rounds of the loop, and what `run` is after them. -/
def rounds (m : ℕ → Manager) (signed : Bool) : ℕ → World → Bool × World
  | 0, w => (true, w)
  | n + 1, w =>
    let x := (loopBody signed).exec (answer m) w
    if x.2.1 then rounds m signed n x.2.2 else (false, x.2.2)

def exits (word : Str) : Bool := word.head? = some (ch 'x')

section

variable (m : ℕ → Manager) (signed : Bool)

/-- A word of the input that does not end the loop, or the empty one after its end. -/
theorem rounds_succ_of_feeds {w : World} {ws : List Str} (h : w.stdin.Feeds ws)
    (hexits : ∀ word ∈ ws.head?, exits word = false) (n : ℕ) :
    ∃ w' : World, w'.stdin.Feeds ws.tail ∧ rounds m signed (n + 1) w = rounds m signed n w' := by
  obtain ⟨-, hrun, hin⟩ := exec_loopBody m signed w
  have hword : exits w.stdin.readWord.1 = false ∧ w.stdin.readWord.2.Feeds ws.tail := by
    rcases ws with _ | ⟨word, ws⟩
    · rw [h.nil.1]
      exact ⟨rfl, h.nil.2⟩
    · rw [h.cons.1]
      exact ⟨hexits word rfl, h.cons.2.2⟩
  have hgo : ((loopBody signed).exec (answer m) w).2.1 = true := by
    rw [hrun]
    simpa [exits] using hword.1
  refine ⟨((loopBody signed).exec (answer m) w).2.2, by rw [hin]; exact hword.2, ?_⟩
  rw [rounds, if_pos hgo]

theorem rounds_of_no_exit : ∀ (n : ℕ) {w : World} {ws : List Str}, w.stdin.Feeds ws →
    (∀ word ∈ ws, exits word = false) → (rounds m signed n w).1 = true
  | 0, _, _, _, _ => rfl
  | n + 1, w, ws, h, hexits => by
    obtain ⟨w', hin, hw⟩ := rounds_succ_of_feeds m signed h
      (fun word hword => hexits word (List.mem_of_mem_head? hword)) n
    rw [hw]
    exact rounds_of_no_exit n hin fun word hword => hexits word (List.mem_of_mem_tail hword)

/-- The loop ends in the round that reads the first word that begins with an x. -/
theorem rounds_of_mem : ∀ {ws : List Str} {w : World}, w.stdin.Feeds ws →
    (∃ word ∈ ws, exits word = true) → (rounds m signed (ws.findIdx exits + 1) w).1 = false
  | [], _, _, hexits => by simp at hexits
  | word :: ws, w, h, hexits => by
    by_cases hword : exits word = true
    · obtain ⟨-, hrun, -⟩ := exec_loopBody m signed w
      have hstop : ((loopBody signed).exec (answer m) w).2.1 = false := by
        rw [hrun, h.cons.1]
        simpa [exits] using hword
      rw [List.findIdx_cons, hword, rounds, hstop]
      rfl
    · have hword' : exits word = false := Bool.eq_false_iff.2 hword
      obtain ⟨w', hin, hw⟩ := rounds_succ_of_feeds m signed h
        (fun _ hmem => Option.mem_some.1 hmem ▸ hword') (ws.findIdx exits + 1)
      rw [List.findIdx_cons, hword', cond_false, hw]
      refine rounds_of_mem hin ?_
      simpa [hword'] using hexits

end

/-- The loop is left, at the latest in the round of the first word that begins with an x or else
in that of the first empty read, exactly when the input has such a word. Otherwise it is never
left. -/
theorem loop_left_iff (m : ℕ → Manager) (signed : Bool) (text : Str) (vehicles : OrdSet Str)
    (queries : ℕ) :
    let w : World := ⟨vehicles, .ofText text, queries⟩
    ((∃ n ≤ (words text).findIdx exits + 1, (rounds m signed n w).1 = false) ↔
        ∃ word ∈ words text, exits word = true) ∧
      ((∀ word ∈ words text, exits word = false) → ∀ n, (rounds m signed n w).1 = true) := by
  intro w
  have hin : w.stdin.Feeds (words text) := IStream.feeds_ofText text
  have hnever : (∀ word ∈ words text, exits word = false) → ∀ n, (rounds m signed n w).1 = true :=
    fun h n => rounds_of_no_exit m signed n hin h
  refine ⟨⟨fun ⟨n, _, hn⟩ => ?_, fun h => ⟨_, le_rfl, rounds_of_mem m signed hin h⟩⟩, hnever⟩
  by_contra hno
  have htrue := hnever (fun word hword => Bool.eq_false_iff.2 fun h => hno ⟨word, hword, h⟩) n
  rw [hn] at htrue
  cases htrue

theorem loop_left_iff_exit :
    ∃ n, (rounds (pairable []) true n ⟨∅, .ofText (str "l x"), 0⟩).1 = false := by
  obtain ⟨n, -, hn⟩ := (loop_left_iff (pairable []) true (str "l x") ∅ 0).1.2
    ⟨str "x", by decide, by decide⟩
  exact ⟨n, hn⟩

theorem empty_input_not_left :
    ¬ ∃ n, (rounds (pairable []) true n ⟨∅, .ofText (str "l\n"), 0⟩).1 = false := by
  rintro ⟨n, hn⟩
  have hin : (⟨∅, .ofText (str "l\n"), 0⟩ : World).stdin.Feeds (words (str "l\n")) :=
    IStream.feeds_ofText _
  have htrue := rounds_of_no_exit (pairable []) true n hin (by decide)
  rw [hn] at htrue
  cases htrue

end Demo

end PairingV2
