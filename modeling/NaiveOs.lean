import NaiveOs.Basic
import NaiveOs.Lib.ByteMem
import NaiveOs.Lib.Triple
import NaiveOs.Lib.IndexLinks
import NaiveOs.Mm.Address
import NaiveOs.Mm.FrameAllocator
import NaiveOs.Mm.PageTable
import NaiveOs.Mm.PageTableRefine
import NaiveOs.Mm.MemorySet
import NaiveOs.Mm.AddressSpace
import NaiveOs.Mm.UserBuffer
import NaiveOs.Mm.ElfLoad
import NaiveOs.Trap.Context
import NaiveOs.Fs.File
import NaiveOs.Fs.BlockCache
import NaiveOs.Fs.Device
import NaiveOs.Fs.Fat32
import NaiveOs.Task.Basic
import NaiveOs.Task.Tree
import NaiveOs.Syscall.Mm
import NaiveOs.Syscall.Process
import NaiveOs.Task.Proc
import NaiveOs.Syscall.Fs
import NaiveOs.Syscall.Mount
