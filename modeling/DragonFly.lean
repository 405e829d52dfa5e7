import DragonFly.HammerRedoExecution
import DragonFly.HammerRedoSync
import DragonFly.BlistResize
import DragonFly.HammerBlockmapRun
import DragonFly.HammerSeparator
import DragonFly.HammerPrune
import DragonFly.HammerMirrorIdempotence
import DragonFly.HammerMirrorConvergence
import DragonFly.LockfBlocked
import DragonFly.AlistFreeInfo
import DragonFly.TcpSackPipe
import DragonFly.MutexExclusion
import DragonFly.SlabSignal
import DragonFly.IpiqWait
import DragonFly.SpinlockExclusion
import DragonFly.NmallocContract
import DragonFly.LockmgrResidue
import DragonFly.MutexWaiters
import DragonFly.LwktTokenExclusion
import DragonFly.KdmsgStates
