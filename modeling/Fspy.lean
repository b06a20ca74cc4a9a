import Fspy.Collector
import Fspy.Fixture
import Fspy.Macos.FileActions
import Fspy.Macos.Tree
import Fspy.Seccomp.PidReuse
import Fspy.Seccomp.RemoteString
import Fspy.Seccomp.Returning
import Fspy.Seccomp.Supervised
import Fspy.Seccomp.Wakeup
import Fspy.Shm.Collect
import Fspy.Shm.Names
import Fspy.Shm.Signal
import Fspy.Trackers
import Fspy.Unix.Builder
import Fspy.Unix.Consulted
import Fspy.Unix.Denotes
import Fspy.Unix.EnvBindings
import Fspy.Unix.ExecFamily
import Fspy.Unix.FopenMode
import Fspy.Unix.Hooks
import Fspy.Unix.Inherited
import Fspy.Unix.Open
import Fspy.Unix.PathSearch
import Fspy.Unix.Payload
import Fspy.Unix.Peek
import Fspy.Unix.TrackedChild
import Fspy.Unix.Transparency
import Fspy.Windows.DllMain
import Fspy.Windows.ReadBack
import Fspy.Windows.ShortWrites
