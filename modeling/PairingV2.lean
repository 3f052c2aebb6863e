import PairingV2.Usm.Exits
import PairingV2.Usm.Atomic
import PairingV2.Usm.Reach
import PairingV2.Demo.Snapshot
import PairingV2.Demo.Loop
import PairingV2.Demo.Race
import PairingV2.Demo.Unambiguous
import PairingV2.Demo.Config
import PairingV2.Util.Closures
import PairingV2.Sample.PairingWait
import PairingV2.Sample.Refinement
import PairingV2.Usm.Schedules
import PairingV2.Usm.Automaton
import PairingV2.Demo.Origin
import PairingV2.Demo.Session
import PairingV2.Demo.Reading
