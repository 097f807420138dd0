import Arandu.Mir.BoundsCheckElim
import Arandu.Mir.Gvn
import Arandu.Mir.Sccp.Sound
import Arandu.Mir.SimplifyCfg.Sound
import Arandu.Match.Exhaust
import Arandu.Mir.Dataflow.Guards
import Arandu.Mir.Dataflow.InitPaths
import Arandu.Mir.Loops.LicmSound
import Arandu.Mir.Loops.DeletionSound
import Arandu.Runtime.Waker
import Arandu.Runtime.GenRefSound
import Arandu.Runtime.PhaseLockFair
import Arandu.Runtime.WorkerPool
import Arandu.Runtime.Supervisor
import Arandu.Runtime.Spawn
import Arandu.Runtime.Condvar
import Arandu.Runtime.NativeThreadSound
import Arandu.Stdlib.Rc
import Arandu.Stdlib.HashMapSound
import Arandu.Stdlib.Parallel
import Arandu.Wasm.StackifySound
import Arandu.BackendC.FunctionNames
import Arandu.Types.Aliasing
import Arandu.Stdlib.Text
import Arandu.Stdlib.Random
import Arandu.Stdlib.Arena
import Arandu.Stdlib.Channel
import Arandu.Stdlib.Slab
import Arandu.Fmt.Edits
import Arandu.Middle.SymbolMangling
