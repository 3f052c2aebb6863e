import PairingV2.Lib.Prog

/-!
# Protocols

A protocol says which phase an event leads to from a phase, if it is allowed there. A program that
keeps to it performs allowed events only, whatever their answers are, and ends as `post` says.
-/

namespace PairingV2

universe u v w x y

variable {ι : Type u} {ο : ι → Type v} {ρ : Type w} {ρ' : Type x} {Q : Type*}

def phaseAfter (next : Q → Event ι ο → Option Q) : Q → List (Event ι ο) → Option Q
  | q, [] => some q
  | q, e :: es => (next q e).bind fun q' => phaseAfter next q' es

variable {next : Q → Event ι ο → Option Q}

theorem phaseAfter_append : ∀ {es fs : List (Event ι ο)} {q : Q},
    phaseAfter next q (es ++ fs) = (phaseAfter next q es).bind fun q' => phaseAfter next q' fs
  | [], fs, q => rfl
  | e :: es, fs, q => by
    rw [List.cons_append, phaseAfter, phaseAfter]
    rcases next q e with _ | q'
    · rfl
    · exact phaseAfter_append

theorem phaseAfter_snoc {es : List (Event ι ο)} {e : Event ι ο} {q q' : Q}
    (h : phaseAfter next q es = some q') : phaseAfter next q (es ++ [e]) = next q' e := by
  rw [phaseAfter_append, h, Option.bind_some, phaseAfter]
  rcases next q' e <;> rfl

/-- What one event can bring about, a list of them can. -/
theorem phaseAfter_iff {P : Q → Prop} {R : Event ι ο → Prop}
    (hnext : ∀ q e q', next q e = some q' → (P q' ↔ P q ∨ R e)) :
    ∀ {es : List (Event ι ο)} {q q' : Q}, phaseAfter next q es = some q' →
      (P q' ↔ P q ∨ ∃ e ∈ es, R e)
  | [], q, q', h => by
    obtain rfl := Option.some.inj h
    simp
  | e :: es, q, q', h => by
    obtain ⟨q₁, hq₁, h⟩ := Option.bind_eq_some_iff.1 h
    simp only [phaseAfter_iff hnext h, hnext q e q₁ hq₁, or_assoc, List.mem_cons, exists_eq_or_imp]

namespace Prog

/-- The program keeps to the protocol from a phase on. -/
def Keeps (next : Q → Event ι ο → Option Q) (post : Q → ρ → Prop) : Q → Prog ι ο ρ → Prop
  | q, .ret r => post q r
  | q, .act i k => ∀ a, ∃ q', next q ⟨i, a⟩ = some q' ∧ Keeps next post q' (k a)

variable {post : Q → ρ → Prop} {post' : Q → ρ' → Prop}

theorem Keeps.bind {f : ρ → Prog ι ο ρ'} (hf : ∀ q r, post q r → Keeps next post' q (f r)) :
    ∀ {p : Prog ι ο ρ} {q : Q}, Keeps next post q p → Keeps next post' q (p.bind f)
  | .ret r, q, h => hf q r h
  | .act i k, q, h => fun a => by
    obtain ⟨q', hq, hk⟩ := h a
    exact ⟨q', hq, hk.bind hf⟩

theorem Keeps.mono {post' : Q → ρ → Prop} (hpost : ∀ q r, post q r → post' q r) :
    ∀ {p : Prog ι ο ρ} {q : Q}, Keeps next post q p → Keeps next post' q p
  | .ret r, q, h => hpost q r h
  | .act i k, q, h => fun a => by
    obtain ⟨q', hq, hk⟩ := h a
    exact ⟨q', hq, hk.mono hpost⟩

/-- What a program that keeps to the protocol has performed leads to a phase that what is left of
it keeps to the protocol from. -/
theorem Keeps.steps {S : Type y} {sem : (i : ι) → S → ο i → S → Prop} {p p' : Prog ι ο ρ}
    {es : List (Event ι ο)} {s s' : S} (hs : Steps sem p s es p' s') :
    ∀ {q : Q}, Keeps next post q p → ∃ q', phaseAfter next q es = some q' ∧
      Keeps next post q' p' := by
  induction hs with
  | refl => exact fun h => ⟨_, rfl, h⟩
  | cons _ _ ih =>
    intro q h
    obtain ⟨q₁, hq₁, hk⟩ := h _
    obtain ⟨q', hq', hp'⟩ := ih hk
    exact ⟨q', by rw [phaseAfter, hq₁]; exact hq', hp'⟩

/-! ## Histories -/

/-- After what it has performed, the program performs only what is allowed then, and ends as `post`
says. -/
def Obeys (allowed : List (Event ι ο) → Event ι ο → Prop) (post : List (Event ι ο) → ρ → Prop) :
    List (Event ι ο) → Prog ι ο ρ → Prop
  | es, .ret r => post es r
  | es, .act i k => ∀ a, allowed es ⟨i, a⟩ ∧ Obeys allowed post (es ++ [⟨i, a⟩]) (k a)

variable {allowed : List (Event ι ο) → Event ι ο → Prop} {post : List (Event ι ο) → ρ → Prop}

theorem Obeys.steps {S : Type y} {sem : (i : ι) → S → ο i → S → Prop} {p p' : Prog ι ο ρ}
    {es : List (Event ι ο)} {s s' : S} (hs : Steps sem p s es p' s') :
    ∀ {done : List (Event ι ο)}, Obeys allowed post done p → Obeys allowed post (done ++ es) p' ∧
      ∀ pre e rest, es = pre ++ e :: rest → allowed (done ++ pre) e := by
  induction hs with
  | refl => exact fun h => ⟨by rwa [List.append_nil], by simp⟩
  | @cons i k s s₁ s' a es q _ _ ih =>
    intro done h
    obtain ⟨ha, hk⟩ := h a
    obtain ⟨hq, hall⟩ := ih hk
    refine ⟨by rwa [List.append_assoc] at hq, ?_⟩
    intro pre e rest hsplit
    rcases pre with _ | ⟨x, pre⟩
    · obtain ⟨rfl, -⟩ := List.cons.inj hsplit
      rwa [List.append_nil]
    · obtain ⟨rfl, hes⟩ := List.cons.inj hsplit
      have hpre := hall pre e rest hes
      rwa [List.append_assoc] at hpre

theorem Obeys.mono {post' : List (Event ι ο) → ρ → Prop} (hpost : ∀ es r, post es r → post' es r) :
    ∀ {p : Prog ι ο ρ} {es : List (Event ι ο)}, Obeys allowed post es p → Obeys allowed post' es p
  | .ret r, es, h => hpost es r h
  | .act _ _, _, h => fun a => ⟨(h a).1, (h a).2.mono hpost⟩

theorem Obeys.bind {post' : List (Event ι ο) → ρ' → Prop} {f : ρ → Prog ι ο ρ'}
    (hf : ∀ es r, post es r → Obeys allowed post' es (f r)) :
    ∀ {p : Prog ι ο ρ} {es : List (Event ι ο)}, Obeys allowed post es p →
      Obeys allowed post' es (p.bind f)
  | .ret r, es, h => hf es r h
  | .act _ _, _, h => fun a => ⟨(h a).1, (h a).2.bind hf⟩

end Prog

end PairingV2
