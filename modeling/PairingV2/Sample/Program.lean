import PairingV2.Lib.CondVar
import PairingV2.Lib.Strings
import PairingV2.Lib.Threads

/-!
# The sample programs

The tests of `cm_master_test.cpp` and `cm_slave_test.cpp` as programs over what they ask of the
library and the waits they make, and a test while it runs: any threads of the library invoke its
callbacks, at any time, while it goes on. The statuses that were reported are under
`status_mutex`, the flag of the pairing list under `pairing_list_mutex`. A test that has returned
makes no moves any more, nor do its callbacks: their variables are gone.
-/

namespace PairingV2

namespace Sample

inductive ConnectionStatusEnum where
  | idle | configureForPairing | pairingIdle | pairing | configureForConnecting | connecting
  | connected | disconnected | reconfiguring | reconfigured
  | driverNotConnected | driverConnected | driverWiredConnected
  | errorStatus | errorPairing | errorConnecting | errorReconfiguring
  | errorDriverDetection | errorDriverConnection | errorDriverLogin | errorDriverConfiguration
  | errorDriverTimeout
  deriving DecidableEq

structure ConnectionStatus where
  code : ConnectionStatusEnum
  context : Str
  deriving DecidableEq

/-! ## The tests -/

/-- The actions of a test. `awaitStatus` is a loop around a timed wait for a status of this code
and yields the variable that it sets; `awaitPairing` is the wait for the pairing list, whose lock
lasts until the test returns, and yields the flag. `expect` is an `EXPECT`, which records a failure
and goes on. -/
inductive Act where
  | registerStatusCallback
  | registerPairingListChangedCallback
  | registerConnectedListChangedCallback
  | init (configuration : Str)
  | expect (b : Bool)
  | awaitStatus (code : ConnectionStatusEnum)
  | enterPairingMode
  | awaitPairing
  | getPairingList
  | pairTo (name : Str)
  | reconfigure (newConfiguration : Str)
  | getConnectedList
  deriving DecidableEq

@[reducible] def Ans : Act → Type
  | .init _ => Bool
  | .awaitStatus _ => Bool
  | .awaitPairing => Bool
  | .getPairingList => List Str
  | .getConnectedList => List Str
  | .registerStatusCallback => Unit
  | .registerPairingListChangedCallback => Unit
  | .registerConnectedListChangedCallback => Unit
  | .expect _ => Unit
  | .enterPairingMode => Unit
  | .pairTo _ => Unit
  | .reconfigure _ => Unit

abbrev Code (ρ : Type) := Prog Act Ans ρ

abbrev perform (i : Act) : Code (Ans i) := Prog.perform i

/-- `vehicle = *pairing_list.begin()` and what depends on it, where the list is not empty. -/
def pairToFirst (newConfig : Str) (pairingList : List Str) : Code Unit :=
  match pairingList with
  | [] => pure ()
  | vehicle :: _ => do
    perform (.pairTo vehicle)
    let connected ← perform (.awaitStatus .connected)
    perform (.expect connected)
    if !connected then
      return
    perform (.reconfigure newConfig)
    let reconfigured ← perform (.awaitStatus .reconfigured)
    perform (.expect reconfigured)
    let connectedList ← perform .getConnectedList
    perform (.expect (0 < connectedList.length))

namespace Master

variable (config newConfig : Str)

def testPairConnectReconfigure : Code Unit := do
  perform .registerStatusCallback
  perform .registerPairingListChangedCallback
  perform .registerConnectedListChangedCallback
  let res ← perform (.init config)
  perform (.expect res)
  let modemFound ← perform (.awaitStatus .driverConnected)
  perform (.expect modemFound)
  if !modemFound then
    return
  perform .enterPairingMode
  let pairingListCallbackCalled ← perform .awaitPairing
  perform (.expect pairingListCallbackCalled)
  let pairingList ← perform .getPairingList
  perform (.expect !pairingList.isEmpty)
  pairToFirst newConfig pairingList

def testAutoconnect : Code Unit := do
  perform .registerStatusCallback
  perform .registerConnectedListChangedCallback
  let res ← perform (.init config)
  perform (.expect res)
  let modemFound ← perform (.awaitStatus .driverConnected)
  perform (.expect modemFound)
  if !modemFound then
    return
  let connected ← perform (.awaitStatus .connected)
  perform (.expect connected)

end Master

namespace Slave

variable (config : Str)

def testPairConnectReconfigure : Code Unit := do
  perform .registerStatusCallback
  let res ← perform (.init config)
  perform (.expect res)
  let modemFound ← perform (.awaitStatus .driverConnected)
  perform (.expect modemFound)
  if !modemFound then
    return
  perform .enterPairingMode
  let connected ← perform (.awaitStatus .connected)
  perform (.expect connected)
  if !connected then
    return
  let reconfigured ← perform (.awaitStatus .reconfigured)
  perform (.expect reconfigured)

def testAutoconnect : Code Unit := do
  perform .registerStatusCallback
  let res ← perform (.init config)
  perform (.expect res)
  let modemFound ← perform (.awaitStatus .driverConnected)
  perform (.expect modemFound)
  if !modemFound then
    return
  let connected ← perform (.awaitStatus .connected)
  perform (.expect connected)

end Slave

/-! ## A running test -/

/-- `status_list`: the callback appends, and a wait looks for a status of its code. -/
def statuses : CondVar.Guarded ConnectionStatus ConnectionStatusEnum (List ConnectionStatus) where
  skips _ _ := false
  change status statusList := statusList ++ [status]
  ready code statusList := statusList.any (·.code = code)

/-- `pairing_list_callback_called`: the callback does nothing once it is set. -/
def listFlag : CondVar.Guarded Unit Unit Bool where
  skips _ called := called
  change _ _ := true
  ready _ called := called

/-- What happens in a run: the test performs an action, the library invokes the status callback,
the status is in the list, and the flag is set. -/
inductive TestEvent (τ : Type) where
  | did (e : Event Act Ans)
  | invoked (t : τ) (status : ConnectionStatus)
  | reported (t : τ) (status : ConnectionStatus)
  | listed (t : τ)

/-- A test that runs: what is left of it, its two mutexes, which callbacks are registered, and
what has happened. -/
structure Test (τ : Type) where
  code : Code Unit
  status : CondVar.State τ ConnectionStatus ConnectionStatusEnum (List ConnectionStatus)
  pairing : CondVar.State τ Unit Unit Bool
  statusRegistered : Bool
  listRegistered : Bool
  trace : List (TestEvent τ)

/-- What the library answers. The waits are not for it to answer. -/
structure Reply where
  ok : Bool
  list : List Str

def Reply.answer (r : Reply) : (i : Act) → Ans i
  | .init _ => r.ok
  | .awaitStatus _ => true
  | .awaitPairing => true
  | .getPairingList => r.list
  | .getConnectedList => r.list
  | .registerStatusCallback => ()
  | .registerPairingListChangedCallback => ()
  | .registerConnectedListChangedCallback => ()
  | .expect _ => ()
  | .enterPairingMode => ()
  | .pairTo _ => ()
  | .reconfigure _ => ()

/-- The library reports a status or a new pairing list in a thread, a thread goes on in its
callback, the test goes on, wakes up on its own or its wait times out. -/
inductive TestMove (τ : Type) where
  | report (t : τ) (status : ConnectionStatus)
  | list (t : τ)
  | callback (t : τ)
  | program (r : Reply)
  | wakeStatus
  | wakePairing
  | expire

namespace Test

variable {τ : Type}

def start (p : Code Unit) : Test τ := ⟨p, .initial [], .initial false, false, false, []⟩

def returned (s : Test τ) : Bool :=
  match s.code, s.pairing.waiter with
  | .ret _, .outside => true
  | _, _ => false

/-- The test has performed an action. -/
def perform (s : Test τ) (i : Act) (a : Ans i) (rest : Code Unit) : Test τ :=
  { s with
    code := rest
    statusRegistered := s.statusRegistered || i = .registerStatusCallback
    listRegistered := s.listRegistered || i = .registerPairingListChangedCallback
    trace := s.trace ++ [.did ⟨i, a⟩] }

variable [DecidableEq τ]

/-- The thread is in no callback. -/
def Free (s : Test τ) (t : τ) : Prop := s.status.poster t = .idle ∧ s.pairing.poster t = .idle

instance (s : Test τ) (t : τ) : Decidable (s.Free t) := inferInstanceAs (Decidable (_ ∧ _))

/-- What a move of a thread in a callback adds to what has happened. -/
def reportedBy (s : Test τ) (t : τ) : List (TestEvent τ) :=
  (s.status.poster t).posts.map (.reported t)

def listedBy (s : Test τ) (t : τ) : List (TestEvent τ) :=
  (s.pairing.poster t).posts.map fun _ => .listed t

def callbackStep (s : Test τ) (t : τ) : Option (Test τ) :=
  if s.status.poster t = .idle then
    (s.pairing.step listFlag (.poster t)).map fun c =>
      { s with pairing := c, trace := s.trace ++ s.listedBy t }
  else
    (s.status.step statuses (.poster t)).map fun c =>
      { s with status := c, trace := s.trace ++ s.reportedBy t }

/-- A move of the test on one of its mutexes. -/
def onStatus (s : Test τ) (m : CondVar.Move τ ConnectionStatus ConnectionStatusEnum) :
    Option (Test τ) :=
  (s.status.step statuses m).map fun c => { s with status := c }

def onPairing (s : Test τ) (m : CondVar.Move τ Unit Unit) : Option (Test τ) :=
  (s.pairing.step listFlag m).map fun c => { s with pairing := c }

def programStep (s : Test τ) (r : Reply) : Option (Test τ) :=
  match s.code with
  | .ret _ => s.onPairing .leave
  | .act (.awaitStatus code) k =>
    match s.status.waiter with
    | .outside => s.onStatus (.wait code)
    | .inside _ => (s.onStatus .leave).map fun s => s.perform (.awaitStatus code) true (k true)
    | _ => s.onStatus .waiter
  | .act .awaitPairing k =>
    match s.pairing.waiter with
    | .outside => s.onPairing (.wait ())
    | .inside _ => some (s.perform .awaitPairing s.pairing.data (k s.pairing.data))
    | _ => s.onPairing .waiter
  | .act i k => some (s.perform i (r.answer i) (k (r.answer i)))

def step (s : Test τ) (m : TestMove τ) : Option (Test τ) :=
  if s.returned then none else
  match m with
  | .report t status =>
    if s.statusRegistered ∧ s.Free t then
      (s.onStatus (.post t status)).map fun s =>
        { s with trace := s.trace ++ [.invoked t status] }
    else none
  | .list t => if s.listRegistered ∧ s.Free t then s.onPairing (.post t ()) else none
  | .callback t => s.callbackStep t
  | .program r => s.programStep r
  | .wakeStatus => s.onStatus .wake
  | .wakePairing => s.onPairing .wake
  | .expire => s.onStatus .expire

end Test

end Sample

end PairingV2
