import Mathlib.Data.Nat.Notation

/-!
# Compile-time constants and the superblock

The constants of `kernel/param.h` and `kernel/fs.h`, and the superblock that
`mkfs/mkfs.c` computes from them.
-/

namespace Xv6

/-- `MAXOPBLOCKS`: max # of blocks any FS op writes. -/
def maxOpBlocks : ℕ := 10

/-- `LOGSIZE`: max data blocks in on-disk log. -/
def logSize : ℕ := maxOpBlocks * 3

/-- `NBUF`: size of the disk block cache. -/
def nBuf : ℕ := maxOpBlocks * 3

/-- `FSSIZE`: size of file system in blocks. -/
def fsSize : ℕ := 2000

/-- `BSIZE`: block size in bytes. -/
def bSize : ℕ := 1024

/-- `IPB`: inodes per block, a `struct dinode` being 64 bytes. -/
def ipb : ℕ := bSize / 64

/-- `BPB`: bitmap bits per block. -/
def bpb : ℕ := bSize * 8

/-- `NINODE`: maximum number of active i-nodes. -/
def nInode : ℕ := 50

/-- `NFILE`: open files per system. -/
def nFile : ℕ := 100

/-- `NPROC`: maximum number of processes. -/
def nProc : ℕ := 64

/-- `NOFILE`: open files per process. -/
def nOfile : ℕ := 16

/-- `MAXPATH`: maximum file path name. -/
def maxPath : ℕ := 128

/-- `NDEV`: maximum major device number. -/
def nDev : ℕ := 10

/-- `ROOTINO`: root i-number. -/
def rootIno : ℕ := 1

def nDirect : ℕ := 12

def nIndirect : ℕ := bSize / 4

def maxFile : ℕ := nDirect + nIndirect

/-- `DIRSIZ`: length of the name in a directory entry. -/
def dirSiz : ℕ := 14

structure Superblock where
  size : ℕ
  nblocks : ℕ
  ninodes : ℕ
  nlog : ℕ
  logstart : ℕ
  inodestart : ℕ
  bmapstart : ℕ
  deriving DecidableEq, Repr

/-- The first data block. -/
def Superblock.dataStart (sb : Superblock) : ℕ := sb.size - sb.nblocks

/-- `IBLOCK(i, sb)`: block containing inode `i`. -/
def Superblock.iblock (sb : Superblock) (i : ℕ) : ℕ := i / ipb + sb.inodestart

/-- `BBLOCK(b, sb)`: block of free map containing bit for block `b`. -/
def Superblock.bblock (sb : Superblock) (b : ℕ) : ℕ := b / bpb + sb.bmapstart

namespace Mkfs

/-- `NINODES` of `mkfs.c`. -/
def ninodes : ℕ := 200

def nbitmap : ℕ := fsSize / (bSize * 8) + 1

def ninodeblocks : ℕ := ninodes / ipb + 1

def nlog : ℕ := logSize

/-- Number of meta blocks (boot, sb, nlog, inode, bitmap). -/
def nmeta : ℕ := 2 + nlog + ninodeblocks + nbitmap

def nblocks : ℕ := fsSize - nmeta

def superblock : Superblock where
  size := fsSize
  nblocks := nblocks
  ninodes := ninodes
  nlog := nlog
  logstart := 2
  inodestart := 2 + nlog
  bmapstart := 2 + nlog + ninodeblocks

end Mkfs

end Xv6
