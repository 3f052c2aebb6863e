import PairingV2.Demo.Display

/-!
# The commands of the demo

The numbers of rows name the elements of `vehicles` by rank (`getVehicleName_rank`).
`exec_processToken` says which operations a token makes the loop call (`tokenCalls`). A row command
acts on its row for the row numbers of one digit only (`row_command_iff`), and the tokens that are
not in the documented grammar but have an effect are those of `Sloppy` (`grammar_iff`).
-/

namespace PairingV2

namespace Demo

/-! ## Looking up a vehicle -/

theorem getVehicleNameFrom_eq (n : ℤ) : ∀ (vs : List Str) (i : ℕ),
    getVehicleNameFrom n i vs =
      if (i : ℤ) ≤ n - charToInt true (ch '0') then
        (vs[(n - charToInt true (ch '0') - i).toNat]?).getD [] else []
  | [], i => by simp [getVehicleNameFrom, str]
  | v :: vs, i => by
    rw [getVehicleNameFrom, getVehicleNameFrom_eq n vs (i + 1)]
    generalize n - charToInt true (ch '0') = r
    push_cast
    by_cases heq : r = i
    · subst heq
      simp
    rw [if_neg heq]
    by_cases hle : (i : ℤ) ≤ r
    · have hnext : (i : ℤ) + 1 ≤ r := by omega
      have hsub : (r - i).toNat = (r - (i + 1)).toNat + 1 := by omega
      rw [if_pos hle, if_pos hnext, hsub, List.getElem?_cons_succ]
    · have hnext : ¬ (i : ℤ) + 1 ≤ r := by omega
      rw [if_neg hle, if_neg hnext]

/-- A name that is not empty is that of the element of the rank that was asked for. -/
theorem getVehicleName_digit (signed : Bool) {d : ℕ} (hd : d < 10) (vehicles : OrdSet Str) :
    getVehicleName (charToInt signed (digit d)) vehicles = (vehicles.elements[d]?).getD [] := by
  have hrank : charToInt signed (digit d) - charToInt true (ch '0') = d := by
    have h := charToInt_digit signed hd
    cases signed <;> exact h
  rw [getVehicleName, getVehicleNameFrom_eq, hrank]
  simp

/-- The numbers of rows. -/
def rowNumbers (vehicles : OrdSet Str) : Set ℤ :=
  {n | 0 ≤ n - charToInt true (ch '0') ∧ n - charToInt true (ch '0') < vehicles.size}

/-- Where the number is in range, the name is that of the element of its rank. -/
theorem getVehicleName_of_mem {vehicles : OrdSet Str} {n : ℤ} (hn : n ∈ rowNumbers vehicles) :
    getVehicleName n vehicles ∈ vehicles ∧
      (vehicles.rank (getVehicleName n vehicles) : ℤ) = n - charToInt true (ch '0') := by
  obtain ⟨hle, hlt⟩ := hn
  obtain ⟨k, hk⟩ := Int.eq_ofNat_of_zero_le hle
  obtain ⟨v, hv, hrank⟩ := vehicles.exists_of_lt_size (k := k) (by omega)
  have hname : getVehicleName n vehicles = v := by
    unfold getVehicleName
    rw [getVehicleNameFrom_eq, hk, if_pos (by simp)]
    simp [OrdSet.getElem?_iff_rank.2 ⟨hv, hrank⟩]
  rw [hname, hk, hrank]
  exact ⟨hv, rfl⟩

theorem getVehicleName_of_not_mem {vehicles : OrdSet Str} {n : ℤ} (hn : n ∉ rowNumbers vehicles) :
    getVehicleName n vehicles = str "" := by
  unfold getVehicleName
  rw [getVehicleNameFrom_eq]
  split_ifs with hle
  · have hge : vehicles.elements.length ≤ (n - charToInt true (ch '0') - (0 : ℕ)).toNat := by
      have hlt : ¬ n - charToInt true (ch '0') < vehicles.size := fun h => hn ⟨hle, h⟩
      unfold OrdSet.size at hlt
      omega
    rw [List.getElem?_eq_none hge]
    rfl
  · rfl

theorem getVehicleName_row (vehicles : OrdSet Str) (k : ℕ) (v : Str) :
    vehicles.elements[k]? = some v ↔
      k < vehicles.size ∧ getVehicleName (charToInt true (ch '0') + k) vehicles = v := by
  have hmem : (charToInt true (ch '0') + k : ℤ) ∈ rowNumbers vehicles ↔ k < vehicles.size := by
    constructor
    · rintro ⟨-, hlt⟩
      omega
    · intro hk
      exact ⟨by omega, by omega⟩
  rw [OrdSet.getElem?_iff_rank]
  constructor
  · rintro ⟨hv, rfl⟩
    have hlt := OrdSet.rank_lt hv
    obtain ⟨hname, hrank⟩ := getVehicleName_of_mem (hmem.2 hlt)
    refine ⟨hlt, OrdSet.rank_injOn hname hv ?_⟩
    omega
  · rintro ⟨hk, rfl⟩
    obtain ⟨hname, hrank⟩ := getVehicleName_of_mem (hmem.2 hk)
    exact ⟨hname, by omega⟩

/-- The numbers of rows name the elements one to one, by rank, and every other number gives the
empty name. A display of the set prints each element in the row of its number. -/
theorem getVehicleName_rank (vehicles : OrdSet Str) :
    (∀ n ∈ rowNumbers vehicles, getVehicleName n vehicles ∈ vehicles ∧
        (vehicles.rank (getVehicleName n vehicles) : ℤ) = n - charToInt true (ch '0')) ∧
      (∀ n ∉ rowNumbers vehicles, getVehicleName n vehicles = str "") ∧
      Set.BijOn (getVehicleName · vehicles) (rowNumbers vehicles) {v | v ∈ vehicles} ∧
      ∀ (m : ℕ → Manager) (w : World),
        let x := displayLists.exec (answer m) w
        x.2.2.vehicles = vehicles → ∀ (k : ℕ) (v : Str), Shows (outs x.1) k v ↔
          k < vehicles.size ∧ getVehicleName (charToInt true (ch '0') + k) vehicles = v := by
  refine ⟨fun n => getVehicleName_of_mem, fun n => getVehicleName_of_not_mem, ⟨?_, ?_, ?_⟩, ?_⟩
  · intro n hn
    exact (getVehicleName_of_mem hn).1
  · intro n hn n' hn' heq
    obtain ⟨-, hrank⟩ := getVehicleName_of_mem hn
    obtain ⟨-, hrank'⟩ := getVehicleName_of_mem hn'
    simp only at heq
    rw [heq] at hrank
    omega
  · intro v hv
    obtain ⟨k, hk⟩ := List.mem_iff_getElem?.1 hv
    obtain ⟨hlt, hname⟩ := (getVehicleName_row vehicles k v).1 hk
    refine ⟨_, ⟨?_, ?_⟩, hname⟩ <;> omega
  · intro m w x hx k v
    rw [shows_displayLists, ← getVehicleName_row, ← hx]

theorem getVehicleName_rank_two :
    let vehicles : OrdSet Str := OrdSet.insertAll [str "b", str "a"] ∅
    getVehicleName 49 vehicles = str "b" ∧ getVehicleName 58 vehicles = str "" ∧
      (vehicles.rank (getVehicleName 49 vehicles) : ℤ) = 1 := by
  intro vehicles
  obtain ⟨hrank, hnone, -, -⟩ := getVehicleName_rank vehicles
  exact ⟨rfl, hnone 58 (fun h => absurd h.2 (by decide)), (hrank 49 ⟨by decide, by decide⟩).2⟩

/-! ## Operations called -/

@[simp] theorem commands_nil : commands [] = [] := rfl

@[simp] theorem commands_append (es fs : List Ev) :
    commands (es ++ fs) = commands es ++ commands fs :=
  List.filterMap_append

@[simp] theorem commands_cons {i : Act} (hi : ∀ c, i ≠ .call c) (a : Ans i) (es : List Ev) :
    commands (⟨i, a⟩ :: es) = commands es := by
  cases i <;> first | rfl | exact absurd rfl (hi _)

@[simp] theorem commands_putEvents : ∀ os : List Out, commands (putEvents os) = []
  | [] => rfl
  | _ :: os => commands_putEvents os

@[simp] theorem commands_insertEvents : ∀ vs : List Str, commands (insertEvents vs) = []
  | [] => rfl
  | _ :: vs => commands_insertEvents vs

theorem commands_rowsEvents (pairingList pairedList connectedList : List Str) :
    ∀ (xs : List Visit) (i : ℕ),
      commands (rowsEvents pairingList pairedList connectedList i xs) = []
  | [], _ => rfl
  | x :: xs, i => by
    rw [rowsEvents, commands_append, commands_rowsEvents _ _ _ xs, rowEvents]
    split_ifs <;> simp

theorem commands_displayEvents (pairingList pairedList connectedList : List Str)
    (xs : List Visit) : commands (displayEvents pairingList pairedList connectedList xs) = [] := by
  simp [displayEvents, commands_rowsEvents]

/-! ## The code of a token -/

/-- The tokens whose first letter is enough for the loop to act. -/
def Sloppy (inp : Str) : Prop :=
  inp.head? = some (ch 'x') ∨ inp.head? = some (ch 'p') ∨
    (inp.length = 2 ∧ (inp.head? = some (ch 'c') ∨ inp.head? = some (ch 'd') ∨
      inp.head? = some (ch 'u')))

/-- The code of a case that looks a vehicle up. -/
def lookupAnd (signed : Bool) (b : Byte) (operation : Str → Command) : Code Bool :=
  (Code.perform (.lookup (charToInt signed b))).bind fun name =>
    (Code.call (operation name)).bind fun _ => .ret true

/-- What the body of the loop is for a token. -/
inductive TokenCode (signed : Bool) : Str → Code Bool → Prop where
  | exit (rest : Str) : TokenCode signed (ch 'x' :: rest) (.ret false)
  | display (rest : Str) :
      TokenCode signed (ch 'l' :: rest) (displayLists.bind fun _ => .ret true)
  | enterPairingMode :
      TokenCode signed [ch 'p'] ((Code.call .enterPairingMode).bind fun _ => .ret true)
  | pairTo (b : Byte) (rest : Str) :
      TokenCode signed (ch 'p' :: b :: rest)
        ((Code.call .enterPairingMode).bind fun _ => lookupAnd signed b (.pairTo · false))
  | stopPairing : TokenCode signed (str "sp") ((Code.call .stopPairing).bind fun _ => .ret true)
  | stopConnecting :
      TokenCode signed (str "sc") ((Code.call .stopConnecting).bind fun _ => .ret true)
  | connectTo (b : Byte) : TokenCode signed [ch 'c', b] (lookupAnd signed b .connectTo)
  | disconnectFrom (b : Byte) : TokenCode signed [ch 'd', b] (lookupAnd signed b .disconnectFrom)
  | unpairFrom (b : Byte) : TokenCode signed [ch 'u', b] (lookupAnd signed b .unpairFrom)
  | help {c : Byte} (hc : c = ch '?' ∨ c = ch 'h') (rest : Str) :
      TokenCode signed (c :: rest) ((displayHelp helpLines).bind fun _ => .ret true)
  | ignored {inp : Str} (h : ¬ Sloppy inp) (hsp : inp ≠ str "sp") (hsc : inp ≠ str "sc") :
      TokenCode signed inp (.ret true)

theorem tokenCode_of_length {signed : Bool} {inp : Str} (h : ¬ Sloppy inp)
    (hlen : inp.length ≠ 2) : TokenCode signed inp (.ret true) := by
  refine .ignored h ?_ ?_
  · rintro rfl
    exact hlen rfl
  · rintro rfl
    exact hlen rfl

/-- A case with a test for two characters does nothing for other lengths. -/
theorem tokenCode_onVehicle {signed : Bool} {c : Byte} {rest : Str} {operation : Str → Command}
    (hc : c ∈ [ch 'c', ch 'd', ch 'u'])
    (h : ∀ b, TokenCode signed [c, b] (lookupAnd signed b operation)) :
    TokenCode signed (c :: rest)
      ((onVehicle signed (c :: rest) operation).bind fun _ => .ret true) := by
  have hsloppy : (c :: rest).length ≠ 2 → ¬ Sloppy (c :: rest) := by
    intro hlen
    simp only [List.mem_cons, List.not_mem_nil, or_false] at hc
    rcases hc with rfl | rfl | rfl <;> simpa [Sloppy, ch] using hlen
  rcases rest with _ | ⟨b, _ | ⟨d, rest⟩⟩
  · exact tokenCode_of_length (hsloppy (by simp)) (by simp)
  · exact h b
  · exact tokenCode_of_length (hsloppy (by simp)) (by simp)

theorem tokenCode (signed : Bool) (inp : Str) : TokenCode signed inp (processToken signed inp) := by
  rcases inp with _ | ⟨c, rest⟩
  · exact tokenCode_of_length (by simp [Sloppy]) (by simp)
  have hlen : (c :: rest).length ≠ 0 := Nat.succ_ne_zero _
  have hhead : (c :: rest).getD 0 nul = c := rfl
  unfold processToken
  rw [if_neg hlen]
  simp only [hhead]
  by_cases hx : c = ch 'x'
  · rw [if_pos hx, hx]
    exact .exit rest
  rw [if_neg hx]
  by_cases hl : c = ch 'l'
  · rw [if_pos hl, hl]
    exact .display rest
  rw [if_neg hl]
  by_cases hp : c = ch 'p'
  · rw [if_pos hp, hp]
    rcases rest with _ | ⟨b, rest⟩
    · exact .enterPairingMode
    · exact .pairTo b rest
  rw [if_neg hp]
  by_cases hs : c = ch 's'
  · rw [if_pos hs, hs]
    rcases rest with _ | ⟨b, _ | ⟨d, rest⟩⟩
    · exact tokenCode_of_length (by simp [Sloppy, ch]) (by simp)
    · by_cases hsp : b = ch 'p'
      · rw [hsp]
        exact .stopPairing
      by_cases hsc : b = ch 'c'
      · rw [hsc]
        exact .stopConnecting
      have hcode : TokenCode signed [ch 's', b] (.ret true) := by
        refine .ignored (by simp [Sloppy, ch]) ?_ ?_
        · intro h
          exact hsp (List.cons.inj (List.cons.inj h).2).1
        · intro h
          exact hsc (List.cons.inj (List.cons.inj h).2).1
      simpa [hsp, hsc] using hcode
    · exact tokenCode_of_length (by simp [Sloppy, ch]) (by simp)
  rw [if_neg hs]
  by_cases hc : c = ch 'c'
  · rw [if_pos hc]
    exact tokenCode_onVehicle (by simp [hc]) fun b => hc ▸ .connectTo b
  rw [if_neg hc]
  by_cases hd : c = ch 'd'
  · rw [if_pos hd]
    exact tokenCode_onVehicle (by simp [hd]) fun b => hd ▸ .disconnectFrom b
  rw [if_neg hd]
  by_cases hu : c = ch 'u'
  · rw [if_pos hu]
    exact tokenCode_onVehicle (by simp [hu]) fun b => hu ▸ .unpairFrom b
  rw [if_neg hu]
  by_cases hh : c = ch '?' ∨ c = ch 'h'
  · rw [if_pos hh]
    exact .help hh rest
  · rw [if_neg hh]
    refine .ignored (by simp [Sloppy, hx, hp, hc, hd, hu]) ?_ ?_
    · intro h
      exact hs (List.cons.inj h).1
    · intro h
      exact hs (List.cons.inj h).1

/-! ## What a token does -/

/-- The operations that a token calls when `vehicles` is as it is. -/
def tokenCalls (signed : Bool) (vehicles : OrdSet Str) (inp : Str) : List Command :=
  let name (b : Byte) := getVehicleName (charToInt signed b) vehicles
  match inp with
  | [] => []
  | [c] => if c = ch 'p' then [.enterPairingMode] else []
  | [c, b] =>
    if c = ch 'p' then [.enterPairingMode, .pairTo (name b) false]
    else if c = ch 's' then
      if b = ch 'p' then [.stopPairing] else if b = ch 'c' then [.stopConnecting] else []
    else if c = ch 'c' then [.connectTo (name b)]
    else if c = ch 'd' then [.disconnectFrom (name b)]
    else if c = ch 'u' then [.unpairFrom (name b)]
    else []
  | c :: b :: _ :: _ =>
    if c = ch 'p' then [.enterPairingMode, .pairTo (name b) false] else []

theorem tokenCalls_of_sloppy {signed : Bool} {vehicles : OrdSet Str} {inp : Str}
    (h : Sloppy inp) : inp.head? = some (ch 'x') ∨ tokenCalls signed vehicles inp ≠ [] := by
  rcases h with hx | hp | ⟨hlen, h⟩
  · exact .inl hx
  · obtain ⟨rest, rfl⟩ := List.head?_eq_some_iff.1 hp
    right
    rcases rest with _ | ⟨b, _ | ⟨d, rest⟩⟩ <;> simp [tokenCalls]
  · right
    rcases inp with _ | ⟨c, _ | ⟨b, _ | ⟨d, rest⟩⟩⟩ <;> simp at hlen
    simp only [List.head?_cons, Option.some.injEq] at h
    rcases h with rfl | rfl | rfl <;> simp [tokenCalls, ch]

theorem tokenCalls_of_not_sloppy {signed : Bool} {vehicles : OrdSet Str} {inp : Str}
    (h : ¬ Sloppy inp) :
    tokenCalls signed vehicles inp = [] ∨
      (inp = str "sp" ∧ tokenCalls signed vehicles inp = [.stopPairing]) ∨
      (inp = str "sc" ∧ tokenCalls signed vehicles inp = [.stopConnecting]) := by
  rcases inp with _ | ⟨c, rest⟩
  · exact .inl rfl
  simp only [Sloppy, List.head?_cons, Option.some.injEq, not_or, not_and] at h
  obtain ⟨-, hp, hrow⟩ := h
  rcases rest with _ | ⟨b, _ | ⟨d, rest⟩⟩
  · exact .inl (if_neg hp)
  · obtain ⟨hc, hd, hu⟩ := hrow rfl
    by_cases hs : c = ch 's'
    · subst hs
      by_cases hb : b = ch 'p'
      · subst hb
        exact .inr (.inl ⟨rfl, rfl⟩)
      by_cases hb' : b = ch 'c'
      · subst hb'
        exact .inr (.inr ⟨rfl, rfl⟩)
      simp [tokenCalls, hp, hb, hb']
    · simp [tokenCalls, hp, hs, hc, hd, hu]
  · exact .inl (if_neg hp)

section Exec

variable (m : ℕ → Manager) (signed : Bool)

theorem commands_displayLists (w : World) :
    commands (displayLists.exec (answer m) w).1 = [] := by
  rw [exec_displayLists]
  exact commands_displayEvents _ _ _ _

theorem stdin_displayLists (w : World) :
    (displayLists.exec (answer m) w).2.2.stdin = w.stdin := by
  rw [exec_displayLists]

/-- A token calls these operations, and only one that begins with an x ends the loop. -/
theorem exec_processToken (inp : Str) (w : World) :
    commands ((processToken signed inp).exec (answer m) w).1 =
        tokenCalls signed w.vehicles inp ∧
      ((processToken signed inp).exec (answer m) w).2.1 =
        decide (inp.head? ≠ some (ch 'x')) ∧
      ((processToken signed inp).exec (answer m) w).2.2.stdin = w.stdin := by
  have hcode := tokenCode signed inp
  generalize processToken signed inp = p at hcode
  cases hcode with
  | exit rest =>
    rcases rest with _ | ⟨b, _ | ⟨d, rest⟩⟩ <;> exact ⟨by simp [tokenCalls, ch], rfl, rfl⟩
  | display rest =>
    have hcalls : tokenCalls signed w.vehicles (ch 'l' :: rest) = [] := by
      rcases rest with _ | ⟨b, _ | ⟨d, rest⟩⟩ <;> simp [tokenCalls, ch]
    rw [Prog.exec_bind, commands_append, commands_displayLists, hcalls]
    exact ⟨rfl, rfl, stdin_displayLists m w⟩
  | pairTo b rest => rcases rest with _ | ⟨d, rest⟩ <;> exact ⟨rfl, rfl, rfl⟩
  | @help c hc rest =>
    have hcalls : tokenCalls signed w.vehicles (c :: rest) = [] := by
      rcases hc with rfl | rfl <;> rcases rest with _ | ⟨b, _ | ⟨d, rest⟩⟩ <;>
        simp [tokenCalls, ch]
    rw [displayHelp_eq, Prog.exec_bind, exec_putAll, commands_append, commands_putEvents, hcalls]
    rcases hc with rfl | rfl <;> exact ⟨rfl, rfl, rfl⟩
  | ignored h hsp hsc =>
    have hx : inp.head? ≠ some (ch 'x') := fun hx => h (.inl hx)
    rcases tokenCalls_of_not_sloppy h with hcalls | ⟨hinp, -⟩ | ⟨hinp, -⟩
    · rw [hcalls]
      exact ⟨rfl, (decide_eq_true hx).symm, rfl⟩
    · exact absurd hinp hsp
    · exact absurd hinp hsc
  | enterPairingMode | stopPairing | stopConnecting | connectTo | disconnectFrom | unpairFrom =>
    exact ⟨rfl, rfl, rfl⟩

theorem exec_loopBody (w : World) :
    commands ((loopBody signed).exec (answer m) w).1 =
        tokenCalls signed w.vehicles w.stdin.readWord.1 ∧
      ((loopBody signed).exec (answer m) w).2.1 =
        decide (w.stdin.readWord.1.head? ≠ some (ch 'x')) ∧
      ((loopBody signed).exec (answer m) w).2.2.stdin = w.stdin.readWord.2 :=
  exec_processToken m signed w.stdin.readWord.1 { w with stdin := w.stdin.readWord.2 }

end Exec

/-! ## Row commands -/

inductive RowCommand where
  | pair | connect | disconnect | unpair

namespace RowCommand

def letter : RowCommand → Byte
  | .pair => ch 'p'
  | .connect => ch 'c'
  | .disconnect => ch 'd'
  | .unpair => ch 'u'

def calls (name : Str) : RowCommand → List Command
  | .pair => [.enterPairingMode, .pairTo name false]
  | .connect => [.connectTo name]
  | .disconnect => [.disconnectFrom name]
  | .unpair => [.unpairFrom name]

def token (c : RowCommand) (k : ℕ) : Str := c.letter :: decimal k

theorem calls_injective (c : RowCommand) : Function.Injective fun name => c.calls name := by
  intro name name' h
  cases c <;> simpa [calls] using h

end RowCommand

theorem tokenCalls_row_of_lt (signed : Bool) (vehicles : OrdSet Str) (c : RowCommand) {k : ℕ}
    (hk : k < 10) :
    tokenCalls signed vehicles (c.token k) = c.calls ((vehicles.elements[k]?).getD []) := by
  rw [RowCommand.token, decimal_of_lt hk, ← getVehicleName_digit signed hk]
  cases c <;> rfl

/-- A number of more than one digit is cut to its first digit by p and refused by the others. -/
theorem tokenCalls_row_of_le (signed : Bool) (vehicles : OrdSet Str) (c : RowCommand) {k : ℕ}
    (hk : 10 ≤ k) :
    ∃ d < 10, tokenCalls signed vehicles (c.token k) =
      match c with
      | .pair => c.calls ((vehicles.elements[d]?).getD [])
      | _ => [] := by
  obtain ⟨d, hd, b, bs, h⟩ := decimal_of_le hk
  refine ⟨d, hd, ?_⟩
  rw [RowCommand.token, h, ← getVehicleName_digit signed hd]
  cases c <;> rfl

/-- Once `display_lists` has printed row `k` for a vehicle, the letter of a row command and `k`
make the loop call the operations of that command for that vehicle exactly when `k` has one
digit. -/
theorem row_command_iff (signed : Bool) (m m' : ℕ → Manager) (w w' : World) {k : ℕ} {name : Str}
    (hrow : Shows (outs (displayLists.exec (answer m) w).1) k name)
    (hw : w'.vehicles = (displayLists.exec (answer m) w).2.2.vehicles) (c : RowCommand)
    {ws : List Str} (hin : w'.stdin.Feeds (c.token k :: ws)) :
    commands ((loopBody signed).exec (answer m') w').1 = c.calls name ↔ k < 10 := by
  have hrank : w'.vehicles.elements[k]? = some name := by
    rw [hw]
    exact shows_displayLists.1 hrow
  have hcalls : commands ((loopBody signed).exec (answer m') w').1 =
      tokenCalls signed w'.vehicles (c.token k) := by
    rw [(exec_loopBody m' signed w').1, hin.cons.1]
  rw [hcalls]
  constructor
  · intro h
    by_contra hk
    obtain ⟨d, hd, hd'⟩ := tokenCalls_row_of_le signed w'.vehicles c (not_lt.1 hk)
    rw [hd'] at h
    cases c with
    | pair =>
      have hname : (w'.vehicles.elements[d]?).getD [] = name := RowCommand.calls_injective _ h
      obtain ⟨hlen, -⟩ := List.getElem?_eq_some_iff.1 hrank
      have hd' := List.getElem?_eq_getElem (show d < w'.vehicles.elements.length by omega)
      rw [hd', Option.getD_some] at hname
      rw [hname] at hd'
      exact hk ((OrdSet.rank_unique hrank hd').trans_lt hd)
    | connect | disconnect | unpair => simp [RowCommand.calls] at h
  · intro hk
    rw [tokenCalls_row_of_lt signed _ c hk, hrank]
    rfl

/-- A manager that does not change, with these vehicles to pair to. -/
def pairable (names : List String) (_ : ℕ) : Manager where
  pairingList := names.map str
  pairedList := []
  connectedList := []
  pairedAutoconnect _ := false
  connectedDrivers _ := []

/-- The world after `display_lists` was run with this manager, with a line typed. -/
def displayed (names : List String) (line : String) : World :=
  { (displayLists.exec (answer (pairable names)) ⟨∅, .ofText [], 0⟩).2.2 with
    stdin := .ofText (str line) }

theorem row_command_iff_one :
    commands ((loopBody true).exec (answer (pairable ["a", "b"])) (displayed ["a", "b"] "d1\n")).1 =
      [.disconnectFrom (str "b")] := by
  have hin : (displayed ["a", "b"] "d1\n").stdin.Feeds [RowCommand.token .disconnect 1] :=
    .inl ⟨rfl, by decide⟩
  have hrow := shows_displayLists (m := pairable ["a", "b"]) (w := ⟨∅, .ofText [], 0⟩)
    (k := 1) (v := str "b")
  exact (row_command_iff true (pairable ["a", "b"]) (pairable ["a", "b"]) ⟨∅, .ofText [], 0⟩
    (displayed ["a", "b"] "d1\n") (hrow.2 rfl) rfl .disconnect hin).2 (by decide)

/-- With eleven vehicles, p and the number of the last pairs to the second. -/
theorem row_ten_pairs_to_one :
    let names := ["a", "b", "c", "d", "e", "f", "g", "h", "i", "j", "k"]
    Shows (outs (displayLists.exec (answer (pairable names)) ⟨∅, .ofText [], 0⟩).1) 10 (str "k") ∧
      commands ((loopBody true).exec (answer (pairable names)) (displayed names "p10\n")).1 =
        RowCommand.calls (str "b") .pair ∧
      RowCommand.calls (str "b") .pair ≠ RowCommand.calls (str "k") .pair :=
  ⟨shows_displayLists.2 rfl, rfl, by decide⟩

/-! ## The documented grammar -/

/-- The tokens of the help text, with the numbers of the rows there are. -/
def Documented (vehicles : OrdSet Str) (inp : Str) : Prop :=
  inp ∈ [str "l", str "p", str "sp", str "sc", str "x", str "?", str "h"] ∨
    ∃ (c : RowCommand) (k : ℕ), k < vehicles.elements.length ∧ inp = c.token k

theorem getD_mem {vehicles : OrdSet Str} {k : ℕ} (hk : k < vehicles.elements.length) :
    (vehicles.elements[k]?).getD [] ∈ vehicles := by
  rw [List.getElem?_eq_getElem hk]
  exact List.getElem_mem hk

theorem RowCommand.vehicle_of_mem {c : RowCommand} {x : Command} {name v : Str}
    (h : x ∈ c.calls name) (hv : x.vehicle = some v) : v = name := by
  cases c with
  | pair =>
    simp only [calls, List.mem_cons, List.not_mem_nil, or_false] at h
    rcases h with rfl | rfl
    · cases hv
    · exact (Option.some.inj hv).symm
  | connect | disconnect | unpair =>
    rw [List.mem_singleton.1 h] at hv
    exact (Option.some.inj hv).symm

/-- A documented token acts on vehicles of the table only. -/
theorem mem_of_documented {signed : Bool} {vehicles : OrdSet Str} {inp : Str}
    (h : Documented vehicles inp) {c : Command} (hc : c ∈ tokenCalls signed vehicles inp)
    {name : Str} (hname : c.vehicle = some name) : name ∈ vehicles := by
  rcases h with h | ⟨c', k, hk, rfl⟩
  · have hnone : ∀ c ∈ tokenCalls signed vehicles inp, c.vehicle = none := by
      simp only [List.mem_cons, List.not_mem_nil, or_false] at h
      rcases h with rfl | rfl | rfl | rfl | rfl | rfl | rfl <;> intro c hc
      · exact absurd hc List.not_mem_nil
      · rw [List.mem_singleton.1 hc]; rfl
      · rw [List.mem_singleton.1 hc]; rfl
      · rw [List.mem_singleton.1 hc]; rfl
      · exact absurd hc List.not_mem_nil
      · exact absurd hc List.not_mem_nil
      · exact absurd hc List.not_mem_nil
    rw [hnone c hc] at hname
    cases hname
  · rcases lt_or_ge k 10 with hlt | hle
    · rw [tokenCalls_row_of_lt signed vehicles c' hlt] at hc
      rw [RowCommand.vehicle_of_mem hc hname]
      exact getD_mem hk
    · obtain ⟨d, hd, h⟩ := tokenCalls_row_of_le signed vehicles c' hle
      rw [h] at hc
      cases c' with
      | pair =>
        rw [RowCommand.vehicle_of_mem hc hname]
        exact getD_mem (by omega)
      | connect | disconnect | unpair => exact absurd hc List.not_mem_nil

/-- A token outside the documented grammar calls nothing and does not end the loop, and no token
makes it act on a vehicle that is not in the table, exactly when the token is documented or not
sloppy. -/
theorem grammar_iff (signed : Bool) (m : ℕ → Manager) (w : World) (inp : Str) :
    let x := (processToken signed inp).exec (answer m) w
    ((¬ Documented w.vehicles inp → commands x.1 = [] ∧ x.2.1 = true) ∧
        ∀ c ∈ commands x.1, ∀ name, c.vehicle = some name → name ∈ w.vehicles) ↔
      Documented w.vehicles inp ∨ ¬ Sloppy inp := by
  intro x
  obtain ⟨hcalls, hrun, -⟩ := exec_processToken m signed inp w
  rw [hcalls, hrun, decide_eq_true_eq]
  constructor
  · rintro ⟨h, -⟩
    by_contra hnot
    rw [not_or, not_not] at hnot
    obtain ⟨hnil, hne⟩ := h hnot.1
    rcases tokenCalls_of_sloppy hnot.2 with hx | hcall
    · exact hne hx
    · exact hcall hnil
  · rintro (hdoc | hsloppy)
    · exact ⟨fun hnot => absurd hdoc hnot, fun c hc name => mem_of_documented hdoc hc⟩
    · refine ⟨?_, ?_⟩
      · intro hnot
        refine ⟨?_, fun hx => hsloppy (.inl hx)⟩
        rcases tokenCalls_of_not_sloppy hsloppy with h | ⟨rfl, -⟩ | ⟨rfl, -⟩
        · exact h
        · exact absurd (.inl (by simp)) hnot
        · exact absurd (.inl (by simp)) hnot
      · intro c hc name hname
        rcases tokenCalls_of_not_sloppy hsloppy with h | ⟨-, h⟩ | ⟨-, h⟩ <;>
          rw [h] at hc <;> simp at hc <;> subst hc <;> simp [Command.vehicle] at hname

/-- Without any vehicle, c and a number connects to the empty name. -/
theorem row_five_of_none :
    let w : World := ⟨∅, .ofText [], 0⟩
    ¬ Documented w.vehicles (str "c5") ∧
      commands ((processToken true (str "c5")).exec (answer (pairable [])) w).1 =
        [.connectTo (str "")] ∧
      str "" ∉ w.vehicles := by
  refine ⟨?_, rfl, by simp⟩
  rintro (h | ⟨c, k, hk, -⟩)
  · exact absurd h (by decide)
  · simp at hk

end Demo

end PairingV2
