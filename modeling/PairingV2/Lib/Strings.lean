import Mathlib

/-!
# Byte strings

`std::string` as its bytes, compared as `std::string` compares them, and the decimal that a stream
prints for a number.
-/

namespace PairingV2

abbrev Byte := Fin 256

abbrev Str := List Byte

instance : LawfulBEq Str := inferInstance

/-- The byte that ends a string; it can be read at its length. -/
def nul : Byte := 0

def ch (c : Char) : Byte := Fin.ofNat 256 c.toNat

def str (s : String) : Str := s.toList.map ch

def decimal (n : ℕ) : Str := (Nat.toDigits 10 n).map ch

def digit (d : ℕ) : Byte := ch d.digitChar

/-- The conversion of a `char` to an `int`; the implementation says whether `char` is signed. -/
def charToInt (signed : Bool) (b : Byte) : ℤ :=
  if signed ∧ 128 ≤ b.val then b.val - 256 else b.val

theorem digit_val {d : ℕ} (hd : d < 10) : (digit d).val = 48 + d := by
  interval_cases d <;> rfl

theorem charToInt_digit (signed : Bool) {d : ℕ} (hd : d < 10) :
    charToInt signed (digit d) - charToInt signed (ch '0') = d := by
  have hzero : (ch '0').val = 48 := rfl
  simp only [charToInt, digit_val hd, hzero]
  split_ifs <;> omega

theorem decimal_of_lt {n : ℕ} (hn : n < 10) : decimal n = [digit n] := by
  rw [decimal, Nat.toDigits_of_lt_base hn]
  rfl

theorem decimal_of_le {n : ℕ} (hn : 10 ≤ n) :
    ∃ d < 10, ∃ b bs, decimal n = digit d :: b :: bs := by
  have hlast : decimal n = decimal (n / 10) ++ [digit (n % 10)] := by
    simp only [decimal, Nat.toDigits_of_base_le (by omega : 1 < 10) hn, List.map_append]
    rfl
  by_cases hlt : n / 10 < 10
  · exact ⟨n / 10, hlt, digit (n % 10), [], by rw [hlast, decimal_of_lt hlt]; rfl⟩
  · obtain ⟨d, hd, b, bs, h⟩ := decimal_of_le (not_lt.1 hlt)
    exact ⟨d, hd, b, bs ++ [digit (n % 10)], by rw [hlast, h]; rfl⟩

theorem decimal_head (n : ℕ) : ∃ d < 10, ∃ bs, decimal n = digit d :: bs := by
  rcases lt_or_ge n 10 with hn | hn
  · exact ⟨n, hn, [], decimal_of_lt hn⟩
  · obtain ⟨d, hd, b, bs, h⟩ := decimal_of_le hn
    exact ⟨d, hd, b :: bs, h⟩

theorem ofNat_ch_of_isDigit {c : Char} (hc : c.isDigit) : Char.ofNat (ch c).val = c := by
  have hval : c.toNat < 256 := by
    simp only [Char.isDigit, Bool.and_eq_true, decide_eq_true_eq] at hc
    have : c.toNat ≤ 57 := UInt32.le_iff_toNat_le.1 hc.2
    omega
  simp [ch, Nat.mod_eq_of_lt hval]

theorem le_of_mem_decimal {n : ℕ} {b : Byte} (h : b ∈ decimal n) : 48 ≤ b.val := by
  obtain ⟨c, hc, rfl⟩ := List.mem_map.1 h
  have hdigit : c.isDigit := Nat.isDigit_of_mem_toDigits (by omega) le_rfl hc
  simp only [Char.isDigit, Bool.and_eq_true, decide_eq_true_eq] at hdigit
  have hle : 48 ≤ c.toNat := UInt32.le_iff_toNat_le.1 hdigit.1
  have hlt : c.toNat ≤ 57 := UInt32.le_iff_toNat_le.1 hdigit.2
  show 48 ≤ c.toNat % 256
  omega

theorem decimal_injective : Function.Injective decimal := by
  have hback : ∀ n : ℕ, (decimal n).map (fun b => Char.ofNat b.val) = Nat.toDigits 10 n := by
    intro n
    have hdigit : ∀ c ∈ Nat.toDigits 10 n, Char.ofNat (ch c).val = c := fun c hc =>
      ofNat_ch_of_isDigit (Nat.isDigit_of_mem_toDigits (by omega) le_rfl hc)
    rw [decimal, List.map_map]
    exact (List.map_congr_left hdigit).trans (List.map_id' _)
  intro n n' h
  have hdigits : Nat.toDigits 10 n = Nat.toDigits 10 n' := by rw [← hback, ← hback, h]
  have := congrArg (fun ds => Nat.ofDigitChars 10 ds 0) hdigits
  simpa using this

end PairingV2
