import Jato.Vm.FirstPassSafety
import Jato.Jit.RegAllocSafety
import Jato.Jit.ConvertBlock
import Jato.Lib.RadixTree
import Jato.Vm.Assignable
import Jato.Vm.MonitorRun
import Jato.Jit.MimicStackCorrect
import Jato.Cafebabe.CodeAttribute
import Jato.Cafebabe.ClassFile
import Jato.Runtime.Arraycopy
import Jato.Arch.NativeCall
import Jato.Jit.BcOffsetMap
import Jato.Vm.Itable
import Jato.Vm.FinalMethods
import Jato.Vm.ClassInitRun
import Jato.Vm.ClassLoaderCycle
import Jato.Jit.SwitchCorrect
import Jato.Jit.Emulate
import Jato.Arch.CopySlot
import Jato.Arch.Fixup
import Jato.Jit.Args
import Jato.Jit.SubroutineNesting
import Jato.Vm.VerifierState
