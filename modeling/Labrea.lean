import Labrea.Anchors
import Labrea.AroundAnswer
import Labrea.CallNesting
import Labrea.CriticalSections
import Labrea.Dispatch
import Labrea.ExitHandlers
import Labrea.HookOrder
import Labrea.HookTrace
import Labrea.LoadOutcome
import Labrea.MemoryCalls
import Labrea.Observation
import Labrea.PassThrough
import Labrea.Progress
import Labrea.ReadScript
import Labrea.Reinit
import Labrea.ScriptInvoke
import Labrea.ScriptNumbers
import Labrea.SignatureCode
import Labrea.SleepRequests
import Labrea.StackRoom
import Labrea.StartUpCalls
import Labrea.TimerFaults
import Labrea.TimerProgress
import Labrea.TimerSchedule
import Labrea.TimerTermination
