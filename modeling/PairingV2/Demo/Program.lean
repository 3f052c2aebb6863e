import PairingV2.Lib.Prog
import PairingV2.Lib.OrdSet
import PairingV2.Lib.Streams

/-!
# The demo program

`display_lists`, `get_vehicle_name` and the command loop of `master_demo.cpp`, as programs over the
operations they perform: calls of the connection manager, operations on the global `vehicles`, and
input and output. The lists of the manager may change whenever it is called: `m k` is what its
`k`-th query finds.
-/

namespace PairingV2

namespace Demo

/-- The part of a driver that is printed: `instance()`. -/
structure ConnectionDriver where
  instanceName : Str
  deriving DecidableEq

/-- What the queries of the connection manager tell. -/
structure Manager where
  pairingList : List Str
  pairedList : List Str
  connectedList : List Str
  pairedAutoconnect : Str → Bool
  connectedDrivers : Str → List ConnectionDriver

/-- The operations of the connection manager that change its state. -/
inductive Command where
  | enterPairingMode
  | pairTo (name : Str) (skipConfig : Bool)
  | stopPairing
  | stopConnecting
  | connectTo (name : Str)
  | disconnectFrom (name : Str)
  | unpairFrom (name : Str)
  deriving DecidableEq

def Command.vehicle : Command → Option Str
  | .pairTo name _ => some name
  | .connectTo name => some name
  | .disconnectFrom name => some name
  | .unpairFrom name => some name
  | .enterPairingMode => none
  | .stopPairing => none
  | .stopConnecting => none

/-- The operations of the demo. `elements` and `lookup` are each one pass over `vehicles`, of the
row loop of `display_lists` and of `get_vehicle_name`. -/
inductive Act where
  | getPairingList
  | getPairedList
  | getConnectedList
  | getPairedAutoconnect (name : Str)
  | getConnectedDrivers (name : Str)
  | clear
  | insert (v : Str)
  | elements
  | lookup (n : ℤ)
  | put (o : Out)
  | call (c : Command)
  | readWord
  deriving DecidableEq

@[reducible] def Ans : Act → Type
  | .getPairingList => List Str
  | .getPairedList => List Str
  | .getConnectedList => List Str
  | .getPairedAutoconnect _ => Bool
  | .getConnectedDrivers _ => List ConnectionDriver
  | .clear => Unit
  | .insert _ => Unit
  | .elements => List Str
  | .lookup _ => Str
  | .put _ => Unit
  | .call _ => Unit
  | .readWord => Str

abbrev Ev := Event Act Ans

abbrev Code (ρ : Type) := Prog Act Ans ρ

/-! ## `get_vehicle_name` -/

def getVehicleNameFrom (n : ℤ) : ℕ → List Str → Str
  | _, [] => str ""
  | i, v :: vs => if n - charToInt true (ch '0') = i then v else getVehicleNameFrom n (i + 1) vs

def getVehicleName (n : ℤ) (vehicles : OrdSet Str) : Str :=
  getVehicleNameFrom n 0 vehicles.elements

/-! ## `display_lists` -/

namespace Code

def perform (i : Act) : Code (Ans i) := Prog.perform i

def put (width : ℕ) (s : Str) : Code Unit := perform (.put (.put width s))

def manip (o : Out) : Code Unit := perform (.put o)

def call (c : Command) : Code Unit := perform (.call c)

end Code

def separator : Str := List.replicate (1 + 20 + 4 * 12) (ch '*')

def yesNo (b : Bool) : Str := if b then str "YES" else str "NO"

/-- The loop that fills `vehicles` from a list. -/
def insertAll : List Str → Code Unit
  | [] => pure ()
  | v :: vs => do
    Code.perform (.insert v)
    insertAll vs

def displayDrivers : Bool → List ConnectionDriver → Code Unit
  | _, [] => pure ()
  | first, i :: is => do
    if !first then Code.put 0 (str ", ")
    Code.put 0 i.instanceName
    displayDrivers false is

def displayRow (pairingList pairedList connectedList : List Str) (i : ℕ) (v : Str) : Code Unit := do
  Code.put 1 (decimal i)
  Code.put 20 v
  Code.put 12 (yesNo (v ∈ pairingList))
  Code.put 12 (yesNo (v ∈ pairedList))
  let connected : Bool := v ∈ connectedList
  let connecting ← if connected then pure false else Code.perform (.getPairedAutoconnect v)
  Code.put 12 (yesNo connecting)
  Code.put 12 (yesNo connected)
  if connected then
    Code.put 0 (str " (")
    displayDrivers true (← Code.perform (.getConnectedDrivers v))
    Code.put 0 (str ")")
  Code.manip .endl

def displayRows (pairingList pairedList connectedList : List Str) : ℕ → List Str → Code Unit
  | _, [] => pure ()
  | i, v :: vs => do
    displayRow pairingList pairedList connectedList i v
    displayRows pairingList pairedList connectedList (i + 1) vs

def displayHeader : Code Unit := do
  Code.put 0 separator
  Code.manip .endl
  Code.manip .right
  Code.put 1 (str "N")
  Code.put 20 (str "Vehicle")
  Code.put 12 (str "Pairing")
  Code.put 12 (str "Paired")
  Code.put 12 (str "Connecting")
  Code.put 12 (str "Connected")
  Code.manip .endl

def displayFooter : Code Unit := do
  Code.manip .left
  Code.put 0 separator
  Code.manip .endl

def displayLists : Code Unit := do
  displayHeader
  let pairingList ← Code.perform .getPairingList
  let pairedList ← Code.perform .getPairedList
  let connectedList ← Code.perform .getConnectedList
  Code.perform .clear
  insertAll pairingList
  insertAll pairedList
  displayRows pairingList pairedList connectedList 0 (← Code.perform .elements)
  displayFooter

/-! ## The command loop -/

def helpLines : List String :=
  ["l  - display lists", "p  - enter pairing mode", "sp - stop pairing", "sc - stop connecting",
    "pN - pair to N", "cN - connect to N", "dN - disconnect from N", "uN - unpair from N",
    "x  - exit"]

def displayHelp : List String → Code Unit
  | [] => pure ()
  | line :: lines => do
    Code.put 0 (str line)
    Code.manip .endl
    displayHelp lines

/-- The case of a command that takes the number of a vehicle. -/
def onVehicle (signed : Bool) (inp : Str) (operation : Str → Command) : Code Unit := do
  if inp.length = 2 then
    let name ← Code.perform (.lookup (charToInt signed (inp.getD 1 nul)))
    Code.call (operation name)

/-- The body of the loop after the token was read; the result is `run`. -/
def processToken (signed : Bool) (inp : Str) : Code Bool := do
  if inp.length = 0 then
    return true
  let c := inp.getD 0 nul
  if c = ch 'x' then
    return false
  else if c = ch 'l' then
    displayLists
    return true
  else if c = ch 'p' then
    Code.call .enterPairingMode
    if inp.length > 1 then
      let name ← Code.perform (.lookup (charToInt signed (inp.getD 1 nul)))
      Code.call (.pairTo name false)
    return true
  else if c = ch 's' then
    if inp.length = 2 then
      if inp.getD 1 nul = ch 'p' then
        Code.call .stopPairing
      else if inp.getD 1 nul = ch 'c' then
        Code.call .stopConnecting
    return true
  else if c = ch 'c' then
    onVehicle signed inp .connectTo
    return true
  else if c = ch 'd' then
    onVehicle signed inp .disconnectFrom
    return true
  else if c = ch 'u' then
    onVehicle signed inp .unpairFrom
    return true
  else if c = ch '?' ∨ c = ch 'h' then
    displayHelp helpLines
    return true
  else
    return true

def loopBody (signed : Bool) : Code Bool := do
  let inp ← Code.perform .readWord
  processToken signed inp

/-! ## Running -/

/-- The global `vehicles`, standard input, and how often the manager was queried. -/
structure World where
  vehicles : OrdSet Str
  stdin : IStream
  queries : ℕ

def World.query (w : World) : World := { w with queries := w.queries + 1 }

def answer (m : ℕ → Manager) : (i : Act) → World → Ans i × World
  | .getPairingList, w => ((m w.queries).pairingList, w.query)
  | .getPairedList, w => ((m w.queries).pairedList, w.query)
  | .getConnectedList, w => ((m w.queries).connectedList, w.query)
  | .getPairedAutoconnect name, w => ((m w.queries).pairedAutoconnect name, w.query)
  | .getConnectedDrivers name, w => ((m w.queries).connectedDrivers name, w.query)
  | .clear, w => ((), { w with vehicles := ∅ })
  | .insert v, w => ((), { w with vehicles := w.vehicles.insert v })
  | .elements, w => (w.vehicles.elements, w)
  | .lookup n, w => (getVehicleName n w.vehicles, w)
  | .put _, w => ((), w)
  | .call _, w => ((), w)
  | .readWord, w => (w.stdin.readWord.1, { w with stdin := w.stdin.readWord.2 })

def outs (es : List Ev) : List Out := es.filterMap fun
  | ⟨.put o, _⟩ => some o
  | _ => none

def commands (es : List Ev) : List Command := es.filterMap fun
  | ⟨.call c, _⟩ => some c
  | _ => none

end Demo

end PairingV2
