import AlpineOnIOS.Elf2macho.ImagePreservation
import AlpineOnIOS.Elf2macho.Exports
import AlpineOnIOS.Elf2macho.LocalRelocations
import AlpineOnIOS.Futex.Wakeup
import AlpineOnIOS.Futex.Accounting
import AlpineOnIOS.Futex.Requeue
import AlpineOnIOS.Vfs.MountDispatch
import AlpineOnIOS.Vfs.Normalize
import AlpineOnIOS.AddressSpace.Heap
import AlpineOnIOS.AddressSpace.Sharing
import AlpineOnIOS.SysFile.DirectoryFds
import AlpineOnIOS.AddressSpace.Mremap
import AlpineOnIOS.Process.ForkThreads
import AlpineOnIOS.Process.Reaping
import AlpineOnIOS.Process.Death
import AlpineOnIOS.Process.Clone
import AlpineOnIOS.Signal.Masks
import AlpineOnIOS.Signal.ExecveCommit
import AlpineOnIOS.SysFile.DescriptorOwnership
import AlpineOnIOS.SysFile.Eventfd
import AlpineOnIOS.SysFile.Getdents
import AlpineOnIOS.SysFile.Vectored
import AlpineOnIOS.SysFile.Timerfd
import AlpineOnIOS.SysFile.Epoll
import AlpineOnIOS.SysFile.DevFd
import AlpineOnIOS.SysFile.PrivateState
import AlpineOnIOS.SysFile.DescriptorNumbers
import AlpineOnIOS.Emu.Branch
import AlpineOnIOS.Terminal.Sgr
import AlpineOnIOS.Emu.Flags
import AlpineOnIOS.AddressSpace.Tlb
