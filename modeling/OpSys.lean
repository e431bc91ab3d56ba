import OpSys.Cow.Accounting
import OpSys.Cow.Births
import OpSys.Cow.CopyCost
import OpSys.Cow.Isolation
import OpSys.Cow.Race
import OpSys.Cow.Refine
import OpSys.Cow.Restore
import OpSys.Cow.Sizes
import OpSys.Cow.Starve
import OpSys.Cow.Tlb
import OpSys.Fortune.Commands
import OpSys.Kernel.Asking
import OpSys.Kernel.BufferHistory
import OpSys.Kernel.Descriptors
import OpSys.Kernel.Kinds
import OpSys.Kernel.Mkfs
import OpSys.Kernel.Pipe
import OpSys.Psort.Chunks
import OpSys.Psort.Lossless
import OpSys.Runscan.Seeks
import OpSys.Smash.Lexer
import OpSys.Smash.Loop
import OpSys.Smash.Pipes
import OpSys.Stride.Settickets
import OpSys.Stride.Wrap
import OpSys.Syscalls.Nextpid
import OpSys.Syscalls.Stores
