import Swansong.Lifetime
import Swansong.ChildSlots
import Swansong.RegistryRuns
import Swansong.Departures
import Swansong.Steady
import Swansong.Transparency
import Swansong.Visibility
import Swansong.Events
import Swansong.GuardReport
import Swansong.Retention
import Swansong.Governance
import Swansong.Locks
import Swansong.PackedRuns
import Swansong.Progress

