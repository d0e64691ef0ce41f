import TgCryptFs.Fuse.Calls

set_option autoImplicit false

/-!
# The request handlers of `CryptFs`

One call tree per handler, with the source's early returns. A result the source
discards with `let _ =` is an answer the tree ignores.
-/
namespace TgCryptFs
open Library

inductive Errno where
  | einval | eio | enoent | enotdir | eexist | eisdir | enotempty | ebadf
deriving DecidableEq, Repr

/-- A file name as the kernel sends it. -/
inductive OsStr where
  | utf8 (s : String)
  | invalid (raw : Bytes)
deriving DecidableEq, Repr

def OsStr.toStr : OsStr → Option String
  | .utf8 s => some s
  | .invalid _ => none

structure Caller where
  uid : ℕ
  gid : ℕ
deriving DecidableEq, Repr

inductive TimeOrNow where
  | specificTime (ns : ℤ)
  | now
deriving DecidableEq, Repr

structure FileAttr where
  ino : ℕ
  size : ℕ
  blocks : ℕ
  atime : ℕ
  mtime : ℕ
  ctime : ℕ
  crtime : ℕ
  kind : FileType
  perm : ℕ
  nlink : ℕ
  uid : ℕ
  gid : ℕ
  rdev : ℕ
  blksize : ℕ
  flags : ℕ
deriving DecidableEq, Repr

inductive Reply where
  | ok
  | error (e : Errno)
  | attr (a : FileAttr)
  | entry (a : FileAttr)
  | created (a : FileAttr) (fh : ℕ)
  | opened (fh : ℕ)
  | data (b : Bytes)
  | written (n : ℕ)
  | directory (entries : List (ℕ × ℕ × FileType × String))
  | statfs (bsize namelen frsize : ℕ)
deriving DecidableEq, Repr

def Reply.isError : Reply → Bool
  | .error _ => true
  | _ => false

def blockSize : ℕ := 4096

/-- `ns as u64` after the epoch, the epoch itself before it. -/
def nsToSystemTime (ns : ℤ) : ℕ := ns.toNat % 2 ^ 64

def systemTimeToNs (t : ℤ) : ℤ := max t 0

def inodeToAttr (i : Inode) : FileAttr where
  ino := i.ino
  size := i.size
  blocks := (i.size + 511) / 512
  atime := nsToSystemTime i.timestamps.atimeNs
  mtime := nsToSystemTime i.timestamps.mtimeNs
  ctime := nsToSystemTime i.timestamps.ctimeNs
  crtime := nsToSystemTime i.timestamps.crtimeNs
  kind := i.fileType
  perm := i.mode % 2 ^ 16
  nlink := i.nlink
  uid := i.uid
  gid := i.gid
  rdev := 0
  blksize := blockSize
  flags := 0

/-- The reading of the clock is used only for `Now`. -/
def timeOrNowToNs (t : TimeOrNow) (reading : ℤ) : ℤ :=
  match t with
  | .specificTime ns => systemTimeToNs ns
  | .now => systemTimeToNs reading

variable [Primitives]

def blockFilename (ino : ℕ) (contentHash : Bytes) : String :=
  "block_" ++ toString ino ++ "_" ++ hexEncode (contentHash.take 8)

/-- The record of an uploaded block is inserted, and the block cached. -/
def recordBlock (block : BlockRecord) (data : Bytes) : Fuse (Option BlockRecord) :=
  .call (.blockInsert block) fun
  | .error _ => .ret none
  | .ok _ => .call (.cachePut 0 block.rid data) fun _ => .ret (some block)

/-- A block the volume does not hold yet. -/
def uploadNew (m : Mount) (ino : ℕ) (data : Bytes) : Fuse (Option BlockRecord) :=
  .call (.upload data (blockFilename ino (blake3 data))) fun
  | none => .ret none
  | some messageId =>
    .call .fillBytes fun rid =>
    recordBlock
      { rid, contentHash := blake3 data, messageId, encryptedSize := data.length,
        epoch := m.currentEpoch, refCount := 1, compressed := false } data

def flushToTransport (m : Mount) (ino : ℕ) (data : Bytes) : Fuse (Option BlockRecord) :=
  if !m.transport then .ret none
  else if !m.rt then .ret none
  else
    .call (.findByContentHash (blake3 data)) fun
    | .ok (some existing) => .call (.incrementRef existing.rid) fun _ => .ret (some existing)
    | _ => uploadNew m ino data

/-- `i` counts the downloads of one read. -/
def downloadBlock (m : Mount) (i : ℕ) (messageId : ℤ) (rid : Bytes) : Fuse (Option Bytes) :=
  .call (.cacheGet i rid) fun
  | .ok data => .ret (some data)
  | .error _ =>
    if !m.transport then .ret none
    else if !m.rt then .ret none
    else .call (.download i messageId) fun
      | some data => .call (.cachePut i rid data) fun _ => .ret (some data)
      | none => .ret none

/-- The root directory, owned by the mounting user. -/
def mountRoot (m : Mount) (now : ℤ) : Inode := { Inode.root now with uid := m.uid, gid := m.gid }

def init (m : Mount) : Fuse Reply :=
  .call (.get .find 1) fun
  | .ok (some _) => .ret .ok
  | .ok none =>
    .call (.now 0) fun t =>
    .call (.insert (mountRoot m (systemTimeToNs t))) fun
    | .error _ => .ret (.error .eio)
    | .ok _ => .ret .ok
  | .error _ => .ret (.error .eio)

def lookup (parent : ℕ) (name : OsStr) : Fuse Reply :=
  match name.toStr with
  | none => .ret (.error .einval)
  | some name =>
    .call (.lookup .find parent name) fun
    | .ok (some inode) => .ret (.entry (inodeToAttr inode))
    | .ok none => .ret (.error .enoent)
    | .error _ => .ret (.error .eio)

def getattr (ino : ℕ) : Fuse Reply :=
  .call (.get .find ino) fun
  | .ok (some inode) => .ret (.attr (inodeToAttr inode))
  | .ok none => .ret (.error .enoent)
  | .error _ => .ret (.error .eio)

structure AttrChange where
  mode : Option ℕ := none
  uid : Option ℕ := none
  gid : Option ℕ := none
  size : Option ℕ := none
  atime : Option TimeOrNow := none
  mtime : Option TimeOrNow := none
deriving DecidableEq, Repr

/-- The three readings are for `atime`, `mtime` and `ctime`. -/
def AttrChange.apply (c : AttrChange) (r0 r1 r2 : ℤ) (i : Inode) : Inode :=
  { i with
    mode := c.mode.getD i.mode
    uid := c.uid.getD i.uid
    gid := c.gid.getD i.gid
    size := c.size.getD i.size
    timestamps :=
      { i.timestamps with
        atimeNs := c.atime.elim i.timestamps.atimeNs (timeOrNowToNs · r0)
        mtimeNs := c.mtime.elim i.timestamps.mtimeNs (timeOrNowToNs · r1)
        ctimeNs := systemTimeToNs r2 } }

def setattr (ino : ℕ) (c : AttrChange) : Fuse Reply :=
  .call (.get .find ino) fun
  | .ok (some inode) =>
    .call (.now 0) fun r0 =>
    .call (.now 1) fun r1 =>
    .call (.now 2) fun r2 =>
    let inode := c.apply r0 r1 r2 inode
    .call (.update .update inode) fun
    | .ok _ => .ret (.attr (inodeToAttr inode))
    | .error _ => .ret (.error .eio)
  | .ok none => .ret (.error .enoent)
  | .error _ => .ret (.error .eio)

/-- The transaction of `mkdir` and `create`: the new row, then the parent's list. -/
def linkEntry (parentInode inode : Inode) (dir : Bool) : Fuse (Except Errno Inode) :=
  .call .begin fun
  | .error _ => .ret (.error .eio)
  | .ok _ =>
    .call (.insert inode) fun
    | .error _ => .call .rollback fun _ => .ret (.error .eio)
    | .ok _ =>
      .call (.update .update (parentInode.addChild inode.ino dir)) fun
      | .error _ => .call .rollback fun _ => .ret (.error .eio)
      | .ok _ =>
        .call .commit fun
        | .error _ => .ret (.error .eio)
        | .ok _ => .ret (.ok inode)

/-- The new inode gets its number and is linked. -/
def linkFresh (parentInode : Inode) (make : ℕ → ℤ → Inode) (dir : Bool) :
    Fuse (Except Errno Inode) :=
  .call .nextIno fun
  | .error _ => .ret (.error .eio)
  | .ok ino => .call (.now 0) fun t => linkEntry parentInode (make ino (systemTimeToNs t)) dir

/-- The body `mkdir` and `create` share, with the inode they build. -/
def linkNew (parent : ℕ) (name : String) (make : ℕ → ℤ → Inode) (dir : Bool) :
    Fuse (Except Errno Inode) :=
  .call (.get .find parent) fun
  | .ok (some parentInode) =>
    if !parentInode.isDir then .ret (.error .enotdir) else
    .call (.lookup .probe parent name) fun
    | .ok (some _) => .ret (.error .eexist)
    | _ => linkFresh parentInode make dir
  | .ok none => .ret (.error .enoent)
  | .error _ => .ret (.error .eio)

def mkdir (caller : Caller) (parent : ℕ) (name : OsStr) (mode : ℕ) : Fuse Reply :=
  match name.toStr with
  | none => .ret (.error .einval)
  | some name =>
    linkNew parent name
      (fun ino now => Inode.newDir ino parent name mode caller.uid caller.gid now) true >>= fun
    | .error e => .ret (.error e)
    | .ok dir => .ret (.entry (inodeToAttr dir))

def create (caller : Caller) (parent : ℕ) (name : OsStr) (mode : ℕ) (flags : ℤ) : Fuse Reply :=
  match name.toStr with
  | none => .ret (.error .einval)
  | some name =>
    linkNew parent name
      (fun ino now => Inode.newFile ino parent name mode caller.uid caller.gid now) false >>= fun
    | .error e => .ret (.error e)
    | .ok file =>
      .call (.handleOpen file.ino flags) fun fh => .ret (.created (inodeToAttr file) fh)

def openFile (ino : ℕ) (flags : ℤ) : Fuse Reply :=
  .call (.get .find ino) fun
  | .ok (some _) => .call (.handleOpen ino flags) fun fh => .ret (.opened fh)
  | .ok none => .ret (.error .enoent)
  | .error _ => .ret (.error .eio)

/-- The one-block manifest `release` installs. -/
def flushedManifest (ino : ℕ) (block : BlockRecord) (data : Bytes) : FileManifest where
  inode := ino
  version := 1
  totalSize := data.length
  fileHash := blake3 data
  blocks :=
    [{ rid := block.rid, messageId := block.messageId, fileOffset := 0, length := data.length,
       blockDataOffset := 0, encryptedSize := block.encryptedSize.toNat,
       compressed := block.compressed, contentHash := block.contentHash, epoch := block.epoch }]

/-- The block is uploaded and recorded; the inode follows if its row can be read. -/
def flushHandle (m : Mount) (ino : ℕ) (data : Bytes) : Fuse Unit :=
  flushToTransport m ino data >>= fun
  | none => .ret ()
  | some block =>
    .call (.get .find ino) fun
    | .ok (some inode) =>
      .call (.update .update
        { inode with manifest := some (flushedManifest ino block data), size := data.length })
        fun _ => .ret ()
    | _ => .ret ()

/-- The flush `release` begins with. -/
def flushOpen (m : Mount) (ino fh : ℕ) : Fuse Unit :=
  .call (.handleGet fh) fun
  | some handle =>
    if handle.dirty && !handle.writeBuffer.isEmpty && m.transport then
      flushHandle m ino handle.writeBuffer
    else .ret ()
  | none => .ret ()

def release (m : Mount) (ino fh : ℕ) : Fuse Reply :=
  flushOpen m ino fh >>= fun _ => .call (.handleClose fh) fun _ => .ret .ok

/-- The part of a downloaded block that falls into the range, copied if it is there. -/
def copyBlock (readOffset readLen : ℕ) (bp : BlockPointer) (data resultBuf : Bytes) : Bytes :=
  let readStart := max readOffset bp.fileOffset
  let readEnd := min (readOffset + readLen) (bp.fileOffset + bp.length)
  if readStart < readEnd then
    let srcOff := readStart - bp.fileOffset
    let dstOff := readStart - readOffset
    let copyLen := readEnd - readStart
    if srcOff + copyLen ≤ data.length ∧ dstOff + copyLen ≤ resultBuf.length then
      splice resultBuf dstOff (slice data srcOff copyLen)
    else resultBuf
  else resultBuf

/-- `none` once a block could not be had. -/
def readBlocks (m : Mount) (readOffset readLen : ℕ) :
    List BlockPointer → ℕ → Bytes → Fuse (Option Bytes)
  | [], _, resultBuf => .ret (some resultBuf)
  | bp :: rest, i, resultBuf =>
    downloadBlock m i bp.messageId bp.rid >>= fun
    | none => .ret none
    | some data =>
      readBlocks m readOffset readLen rest (i + 1) (copyBlock readOffset readLen bp data resultBuf)

def readManifest (m : Mount) (inode : Inode) (offset size : ℕ) : Fuse Reply :=
  match inode.manifest with
  | none => .ret (.data [])
  | some manifest =>
    if manifest.blocks.isEmpty then .ret (.data []) else
    let needed := manifest.blocksInRange offset size
    readBlocks m offset size needed 0 (List.replicate size 0) >>= fun
    | some resultBuf =>
      if needed.isEmpty then .ret (.data [])
      else .ret (.data (resultBuf.take (min size (inode.size - offset))))
    | none => .ret (.data [])

def read (m : Mount) (ino fh offset size : ℕ) : Fuse Reply :=
  .call (.get .find ino) fun
  | .ok (some inode) =>
    if !inode.isFile then .ret (.error .eisdir) else
    .call (.handleGet fh) fun
    | some handle =>
      if !handle.writeBuffer.isEmpty then .ret (.data (slice handle.writeBuffer offset size))
      else readManifest m inode offset size
    | none => readManifest m inode offset size
  | .ok none => .ret (.error .enoent)
  | .error _ => .ret (.error .eio)

def bufferWrite (offset : ℕ) (data : Bytes) (h : FileHandle) : FileHandle :=
  { h with writeBuffer := pwrite 0 h.writeBuffer offset data, dirty := true }

def write (ino fh offset : ℕ) (data : Bytes) : Fuse Reply :=
  .call (.handleUpdate fh (bufferWrite offset data)) fun updated =>
  if updated then
    .call (.handleGet fh) fun
    | some handle =>
      .call (.get .find ino) fun
      | .ok (some inode) =>
        .call (.now 0) fun t =>
        .call (.update .update
          { inode with
            size := handle.writeBuffer.length
            timestamps := { inode.timestamps with mtimeNs := systemTimeToNs t } })
          fun _ => .ret (.written data.length)
      | _ => .ret (.written data.length)
    | none => .ret (.written data.length)
  else .ret (.error .ebadf)

/-- Read a row and write it back changed; both results are discarded. -/
def editRow (getSite updateSite : Site) (ino : ℕ) (f : Inode → Inode) : Fuse Unit :=
  .call (.get getSite ino) fun
  | .ok (some p) => .call (.update updateSite (f p)) fun _ => .ret ()
  | _ => .ret ()

/-- The common end of `unlink` and `rmdir`, from BEGIN on. -/
def removeEntry (parent : ℕ) (inode : Inode) (dir : Bool) : Fuse Reply :=
  .call .begin fun
  | .error _ => .ret (.error .eio)
  | .ok _ =>
    editRow .parentGet .parentUpdate parent (·.dropChild inode.ino dir) >>= fun _ =>
    .call (.delete .delete inode.ino) fun
    | .error _ => .call .rollback fun _ => .ret (.error .eio)
    | .ok _ => .call .commit fun _ => .ret .ok

def unlink (parent : ℕ) (name : OsStr) : Fuse Reply :=
  match name.toStr with
  | none => .ret (.error .einval)
  | some name =>
    .call (.lookup .find parent name) fun
    | .ok (some inode) =>
      if inode.isDir then .ret (.error .eisdir) else removeEntry parent inode false
    | .ok none => .ret (.error .enoent)
    | .error _ => .ret (.error .eio)

def rmdir (parent : ℕ) (name : OsStr) : Fuse Reply :=
  match name.toStr with
  | none => .ret (.error .einval)
  | some name =>
    .call (.lookup .find parent name) fun
    | .ok (some inode) =>
      if !inode.isDir then .ret (.error .enotdir)
      else if !inode.children.isEmpty then .ret (.error .enotempty)
      else removeEntry parent inode true
    | .ok none => .ret (.error .enoent)
    | .error _ => .ret (.error .eio)

/-- `capacity` is the number of entries the reply buffer takes. -/
def readdir (ino offset capacity : ℕ) : Fuse Reply :=
  .call (.get .find ino) fun
  | .ok (some inode) =>
    if !inode.isDir then .ret (.error .enotdir) else
    .call (.listChildren ino) fun
    | .error _ => .ret (.error .eio)
    | .ok children =>
      let entries := (ino, FileType.directory, ".") ::
        (max inode.parent 1, FileType.directory, "..") ::
        children.map fun c => (c.ino, c.fileType, c.name)
      .ret (.directory
        (((entries.zipIdx.map fun e => (e.1.1, e.2 + 1, e.1.2)).drop offset).take capacity))
  | .ok none => .ret (.error .enoent)
  | .error _ => .ret (.error .eio)

/-- From the removal of the replaced entry on, every result is discarded. -/
def moveEntry (parent newparent : ℕ) (newname : String) (inode : Inode) : Fuse Reply :=
  editRow .parentGet .parentUpdate parent (·.dropChild inode.ino inode.isDir) >>= fun _ =>
  .call (.now 0) fun t =>
  .call (.update .update (inode.renamed newparent newname (systemTimeToNs t))) fun _ =>
  editRow .newParentGet .newParentUpdate newparent (·.addChild inode.ino inode.isDir) >>= fun _ =>
  .call .commit fun _ => .ret .ok

def rename (parent : ℕ) (name : OsStr) (newparent : ℕ) (newname : OsStr) : Fuse Reply :=
  match name.toStr, newname.toStr with
  | none, _ => .ret (.error .einval)
  | some _, none => .ret (.error .einval)
  | some name, some newname =>
    .call (.lookup .find parent name) fun
    | .ok (some inode) =>
      .call .begin fun
      | .error _ => .ret (.error .eio)
      | .ok _ =>
        .call (.lookup .probe newparent newname) fun
        | .ok (some existing) =>
          if existing.isDir && !existing.children.isEmpty then .ret (.error .enotempty)
          else
            .call (.delete .destDelete existing.ino) fun _ =>
            editRow .destParentGet .destParentUpdate newparent (·.dropChild existing.ino false)
              >>= fun _ =>
            moveEntry parent newparent newname inode
        | _ => moveEntry parent newparent newname inode
    | .ok none => .ret (.error .enoent)
    | .error _ => .ret (.error .eio)

def readlink (ino : ℕ) : Fuse Reply :=
  .call (.get .find ino) fun
  | .ok (some inode) =>
    match inode.symlinkTarget with
    | some target => .ret (.data (utf8 target))
    | none => .ret (.error .einval)
  | .ok none => .ret (.error .enoent)
  | .error _ => .ret (.error .eio)

/-- No transaction here, and no look at an existing name. -/
def symlink (caller : Caller) (parent : ℕ) (linkName target : OsStr) : Fuse Reply :=
  match linkName.toStr, target.toStr with
  | none, _ => .ret (.error .einval)
  | some _, none => .ret (.error .einval)
  | some name, some target =>
    .call (.get .find parent) fun
    | .ok (some parentInode) =>
      if !parentInode.isDir then .ret (.error .enoent) else
      .call .nextIno fun
      | .error _ => .ret (.error .eio)
      | .ok ino =>
        .call (.now 0) fun t =>
        let link := Inode.newSymlink ino parent name target caller.uid caller.gid (systemTimeToNs t)
        .call (.insert link) fun
        | .error _ => .ret (.error .eio)
        | .ok _ =>
          .call (.update .update (parentInode.addChild ino false)) fun _ =>
          .ret (.entry (inodeToAttr link))
    | _ => .ret (.error .enoent)

def statfs : Fuse Reply := .ret (.statfs blockSize 256 blockSize)

inductive Request where
  | init
  | lookup (parent : ℕ) (name : OsStr)
  | getattr (ino : ℕ)
  | setattr (ino : ℕ) (c : AttrChange)
  | mkdir (caller : Caller) (parent : ℕ) (name : OsStr) (mode : ℕ)
  | create (caller : Caller) (parent : ℕ) (name : OsStr) (mode : ℕ) (flags : ℤ)
  | openFile (ino : ℕ) (flags : ℤ)
  | release (ino fh : ℕ)
  | read (ino fh offset size : ℕ)
  | write (ino fh offset : ℕ) (data : Bytes)
  | unlink (parent : ℕ) (name : OsStr)
  | rmdir (parent : ℕ) (name : OsStr)
  | readdir (ino offset capacity : ℕ)
  | rename (parent : ℕ) (name : OsStr) (newparent : ℕ) (newname : OsStr)
  | readlink (ino : ℕ)
  | symlink (caller : Caller) (parent : ℕ) (linkName target : OsStr)
  | statfs
deriving DecidableEq, Repr

def handler (m : Mount) : Request → Fuse Reply
  | .init => init m
  | .lookup parent name => lookup parent name
  | .getattr ino => getattr ino
  | .setattr ino c => setattr ino c
  | .mkdir caller parent name mode => mkdir caller parent name mode
  | .create caller parent name mode flags => create caller parent name mode flags
  | .openFile ino flags => openFile ino flags
  | .release ino fh => release m ino fh
  | .read ino fh offset size => read m ino fh offset size
  | .write ino fh offset data => write ino fh offset data
  | .unlink parent name => unlink parent name
  | .rmdir parent name => rmdir parent name
  | .readdir ino offset capacity => readdir ino offset capacity
  | .rename parent name newparent newname => rename parent name newparent newname
  | .readlink ino => readlink ino
  | .symlink caller parent linkName target => symlink caller parent linkName target
  | .statfs => statfs

/-- One request served to its reply. -/
def exec (env : Env) (req : Request) (s : System) : Reply × System :=
  (handler s.mount req).run env.serve s

end TgCryptFs
