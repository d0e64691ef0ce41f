import Mathlib.Data.Int.Notation
import TgCryptFs.Core.Crypto

set_option autoImplicit false

namespace TgCryptFs

inductive FileType where
  | regularFile | directory | symlink
deriving DecidableEq, Repr

/-- Nanoseconds since the UNIX epoch. -/
structure Timestamps where
  atimeNs : ℤ
  mtimeNs : ℤ
  ctimeNs : ℤ
  crtimeNs : ℤ
deriving DecidableEq, Repr

def Timestamps.now (ns : ℤ) : Timestamps := ⟨ns, ns, ns, ns⟩

structure BlockPointer where
  rid : Bytes
  messageId : ℤ
  fileOffset : ℕ
  length : ℕ
  blockDataOffset : ℕ
  encryptedSize : ℕ
  compressed : Bool
  contentHash : Bytes
  epoch : ℕ
deriving DecidableEq, Repr

structure FileManifest where
  inode : ℕ
  version : ℕ
  totalSize : ℕ
  fileHash : Bytes
  blocks : List BlockPointer
deriving DecidableEq, Repr

def FileManifest.new (inode : ℕ) : FileManifest :=
  { inode, version := 0, totalSize := 0, fileHash := List.replicate 32 0, blocks := [] }

/-- The blocks that overlap `[offset, offset + length)`. -/
def FileManifest.blocksInRange (m : FileManifest) (offset length : ℕ) : List BlockPointer :=
  m.blocks.filter fun bp =>
    bp.fileOffset < offset + length && bp.fileOffset + bp.length > offset

structure Inode where
  ino : ℕ
  parent : ℕ
  name : String
  fileType : FileType
  mode : ℕ
  uid : ℕ
  gid : ℕ
  size : ℕ
  nlink : ℕ
  timestamps : Timestamps
  manifest : Option FileManifest
  symlinkTarget : Option String
  children : List ℕ
deriving DecidableEq, Repr

namespace Inode

def root (now : ℤ) : Inode :=
  { ino := 1, parent := 0, name := "", fileType := .directory, mode := 0o755, uid := 0, gid := 0,
    size := 0, nlink := 2, timestamps := .now now, manifest := none, symlinkTarget := none,
    children := [] }

def newFile (ino parent : ℕ) (name : String) (mode uid gid : ℕ) (now : ℤ) : Inode :=
  { ino, parent, name, fileType := .regularFile, mode, uid, gid, size := 0, nlink := 1,
    timestamps := .now now, manifest := some (FileManifest.new ino), symlinkTarget := none,
    children := [] }

def newDir (ino parent : ℕ) (name : String) (mode uid gid : ℕ) (now : ℤ) : Inode :=
  { ino, parent, name, fileType := .directory, mode, uid, gid, size := 0, nlink := 2,
    timestamps := .now now, manifest := none, symlinkTarget := none, children := [] }

def newSymlink (ino parent : ℕ) (name target : String) (uid gid : ℕ) (now : ℤ) : Inode :=
  { ino, parent, name, fileType := .symlink, mode := 0o777, uid, gid,
    size := (utf8 target).length, nlink := 1, timestamps := .now now, manifest := none,
    symlinkTarget := some target, children := [] }

def isDir (i : Inode) : Bool := i.fileType == .directory
def isFile (i : Inode) : Bool := i.fileType == .regularFile

/-- `children.push(ino)`, with a link for the `..` of a directory. -/
def addChild (ino : ℕ) (dir : Bool) (p : Inode) : Inode :=
  { p with children := p.children ++ [ino], nlink := if dir then p.nlink + 1 else p.nlink }

/-- `children.retain(|&c| c != ino)`, with one link less (saturating) for a directory. -/
def dropChild (ino : ℕ) (dir : Bool) (p : Inode) : Inode :=
  { p with children := p.children.filter (· ≠ ino), nlink := if dir then p.nlink - 1 else p.nlink }

/-- The row of an entry that got the name `newname` in `newparent`. -/
def renamed (newparent : ℕ) (newname : String) (now : ℤ) (i : Inode) : Inode :=
  { i with name := newname, parent := newparent, timestamps := { i.timestamps with ctimeNs := now } }

@[simp] theorem renamed_ino (np : ℕ) (n : String) (now : ℤ) (i : Inode) :
    (i.renamed np n now).ino = i.ino := rfl
@[simp] theorem addChild_ino (i : ℕ) (d : Bool) (p : Inode) : (p.addChild i d).ino = p.ino := rfl
@[simp] theorem addChild_manifest (i : ℕ) (d : Bool) (p : Inode) :
    (p.addChild i d).manifest = p.manifest := rfl

end Inode
end TgCryptFs
