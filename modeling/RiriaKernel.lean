import RiriaKernel.ContextSwitches
import RiriaKernel.PagemapLatches
import RiriaKernel.KernelHeapContexts
import RiriaKernel.LatchPreemption
import RiriaKernel.ExceptionStubs
import RiriaKernel.TarWalks
import RiriaKernel.KernelHeapRequests
import RiriaKernel.ReadCalls
import RiriaKernel.PagemapCopies
import RiriaKernel.PagePermissions
import RiriaKernel.SleepingProcesses
import RiriaKernel.ProcessIsolation
import RiriaKernel.MappingReplacements
import RiriaKernel.ProcessLifetimes
import RiriaKernel.AudioDriver
import RiriaKernel.MountTables
import RiriaKernel.PciDevices
import RiriaKernel.ProcessSwitches
import RiriaKernel.MemoryMoves
import RiriaKernel.AnonymousMappings
import RiriaKernel.KernelHalf
