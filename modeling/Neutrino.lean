import Neutrino.Alloc.Runs
import Neutrino.Device.Enumeration
import Neutrino.Device.Madt
import Neutrino.Device.Probing
import Neutrino.Fs.Descriptors
import Neutrino.Fs.Window
import Neutrino.Ipc.Messages
import Neutrino.Ipc.Overrun
import Neutrino.Ipc.Refinement
import Neutrino.Lists.Leaks
import Neutrino.Loader.Segments
import Neutrino.Physical.Counters
import Neutrino.Physical.Enumeration
import Neutrino.Physical.Memmap
import Neutrino.Spaces.Ranges
import Neutrino.Tasks.Affinity
import Neutrino.Tasks.Preemption
import Neutrino.Tasks.Rotation
import Neutrino.Tasks.Switch
import Neutrino.Text.Log
import Neutrino.Time.DayCount
import Neutrino.Virtual.Accounts
import Neutrino.Virtual.UserHeap
import Neutrino.Virtual.Rights
import Neutrino.Virtual.Translation
