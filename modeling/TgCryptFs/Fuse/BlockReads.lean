import TgCryptFs.Core.Manifest
import TgCryptFs.Fuse.FileContent

set_option autoImplicit false

/-!
# Reads of several blocks

A read through a handle without a buffer downloads the blocks in its range one by one and
copies of each the part that falls into the range.
-/
namespace TgCryptFs
open Library

/-- These are the bytes of the blocks, laid out from `a` on. -/
inductive Laid : ℕ → List BlockPointer → List Bytes → Prop where
  | nil (a : ℕ) : Laid a [] []
  | cons {a : ℕ} {bp : BlockPointer} {bps : List BlockPointer} {d : Bytes} {ds : List Bytes}
      (hoff : bp.fileOffset = a) (hlen : bp.length = d.length)
      (hrest : Laid (a + d.length) bps ds) : Laid a (bp :: bps) (d :: ds)

theorem laid_of_consecutive {a stop : ℕ} {bps : List BlockPointer} {ds : List Bytes}
    (h : Consecutive BlockPointer.fileOffset BlockPointer.length a bps stop)
    (hds : List.Forall₂ (fun bp d => bp.length = d.length) bps ds) :
    Laid a bps ds ∧ stop = a + ds.flatten.length := by
  induction hds generalizing a with
  | nil =>
    obtain rfl : a = stop := h
    exact ⟨.nil a, rfl⟩
  | @cons bp d bps ds hlen _ ih =>
    obtain ⟨hoff, hrest⟩ := h
    rw [hlen] at hrest
    obtain ⟨hlaid, hstop⟩ := ih hrest
    refine ⟨.cons hoff hlen hlaid, ?_⟩
    rw [hstop, List.flatten_cons, List.length_append, Nat.add_assoc]

def inRange (o n : ℕ) (bp : BlockPointer) : Bool :=
  bp.fileOffset < o + n && bp.fileOffset + bp.length > o

theorem length_copyBlock (o n : ℕ) (bp : BlockPointer) (d buf : Bytes) :
    (copyBlock o n bp d buf).length = buf.length := by
  unfold copyBlock
  dsimp only
  split
  · split
    · rename_i h
      refine length_splice _ _ _ ?_
      rw [length_slice]
      omega
    · rfl
  · rfl

theorem getD_copyBlock {o n : ℕ} {bp : BlockPointer} {d buf : Bytes} (hlen : bp.length = d.length)
    (hbuf : buf.length = n) {p : ℕ} (hp : p < n) :
    (copyBlock o n bp d buf).getD p 0 =
      if bp.fileOffset ≤ o + p ∧ o + p < bp.fileOffset + d.length then
        d.getD (o + p - bp.fileOffset) 0
      else buf.getD p 0 := by
  unfold copyBlock
  simp only [hlen]
  have hfrom := le_max_left o bp.fileOffset
  have hfrom' := le_max_right o bp.fileOffset
  have hstart := max_choice o bp.fileOffset
  have hto := min_le_left (o + n) (bp.fileOffset + d.length)
  have hto' := min_le_right (o + n) (bp.fileOffset + d.length)
  have hend := min_choice (o + n) (bp.fileOffset + d.length)
  generalize max o bp.fileOffset = start at *
  generalize min (o + n) (bp.fileOffset + d.length) = stop at *
  by_cases hr : start < stop
  · obtain ⟨skip, rfl⟩ := Nat.exists_eq_add_of_le hfrom'
    obtain ⟨len, rfl⟩ := Nat.exists_eq_add_of_le hr.le
    rw [Nat.add_sub_cancel_left, Nat.add_sub_cancel_left]
    have hlen' : (slice d skip len).length = len := by
      rw [length_slice]
      omega
    rw [if_pos hr, if_pos (by omega), getD_splice 0 _ _ _ (by omega), getD_slice]
    simp only [Covers, hlen']
    by_cases hc : bp.fileOffset ≤ o + p ∧ o + p < bp.fileOffset + d.length
    · rw [if_pos (by omega), if_pos (by omega), if_pos hc]
      congr 1
      omega
    · rw [if_neg (by omega), if_neg hc]
  · rw [if_neg hr, if_neg (by omega)]

/-- The buffer once the blocks in range are copied, if these are the bytes they are given. -/
def assemble (o n : ℕ) : List BlockPointer → List Bytes → Bytes → Bytes
  | bp :: bps, d :: ds, buf =>
    assemble o n bps ds (if inRange o n bp then copyBlock o n bp d buf else buf)
  | _, _, buf => buf

theorem Laid.assemble_spec {o n a : ℕ} {bps : List BlockPointer} {ds : List Bytes}
    (h : Laid a bps ds) {buf : Bytes} (hbuf : buf.length = n) :
    (assemble o n bps ds buf).length = n ∧
    ∀ p < n, (assemble o n bps ds buf).getD p 0 =
      if a ≤ o + p ∧ o + p < a + ds.flatten.length then ds.flatten.getD (o + p - a) 0
      else buf.getD p 0 := by
  induction h generalizing buf with
  | nil a =>
    refine ⟨hbuf, fun p _ => ?_⟩
    rw [if_neg (by simp only [List.flatten_nil, List.length_nil]; omega)]
    rfl
  | @cons a bp bps d ds hoff hlen _ ih =>
    let buf' := if inRange o n bp then copyBlock o n bp d buf else buf
    have hbuf' : buf'.length = n := by
      simp only [buf']
      split
      · rw [length_copyBlock, hbuf]
      · exact hbuf
    have hget : ∀ p < n, buf'.getD p 0 =
        if a ≤ o + p ∧ o + p < a + d.length then d.getD (o + p - a) 0 else buf.getD p 0 := by
      intro p hp
      simp only [buf']
      split
      · rw [getD_copyBlock hlen hbuf hp, hoff]
      · rename_i hr
        simp only [inRange, Bool.and_eq_true, decide_eq_true_eq, gt_iff_lt, not_and, not_lt] at hr
        rw [if_neg (by omega)]
    obtain ⟨hlen', hspec⟩ := ih hbuf'
    refine ⟨hlen', fun p hp => (hspec p hp).trans ?_⟩
    rw [hget p hp, List.flatten_cons, List.length_append]
    by_cases h₁ : a ≤ o + p ∧ o + p < a + d.length
    · rw [if_neg (by omega), if_pos h₁, if_pos (by omega), List.getD_append _ _ _ _ (by omega)]
    · by_cases h₂ : a + d.length ≤ o + p ∧ o + p < a + d.length + ds.flatten.length
      · rw [if_pos h₂, if_pos (by omega), List.getD_append_right _ _ _ _ (by omega)]
        congr 1
        omega
      · rw [if_neg h₂, if_neg h₁, if_neg (by omega)]

/-- Blocks that tile the content give the range of the content, padded with zeros. -/
theorem Laid.assemble_eq {o n : ℕ} {bps : List BlockPointer} {ds : List Bytes}
    (h : Laid 0 bps ds) :
    assemble o n bps ds (List.replicate n 0) = resize 0 (ds.flatten.drop o) n := by
  obtain ⟨hlen, hspec⟩ := h.assemble_spec (o := o) (n := n) (List.length_replicate ..)
  refine ext_getD 0 (by rw [hlen, length_resize]) fun p hp => ?_
  rw [length_resize] at hp
  have hdrop : (ds.flatten.drop o).getD p 0 = ds.flatten.getD (o + p) 0 := by
    simp [List.getD_eq_getElem?_getD, List.getElem?_drop]
  rw [hspec p hp, getD_resize, if_pos hp, hdrop, Nat.zero_add, Nat.sub_zero]
  split
  · rfl
  · rename_i hout
    have hpast : ds.flatten.getD (o + p) 0 = 0 := List.getD_eq_default _ _ (by omega)
    rw [hpast]
    simp [List.getD_eq_getElem?_getD, hp]

theorem Laid.bounds {a : ℕ} {bps : List BlockPointer} {ds : List Bytes} (h : Laid a bps ds)
    {bp : BlockPointer} (hbp : bp ∈ bps) : bp.fileOffset + bp.length ≤ a + ds.flatten.length := by
  induction h with
  | nil a => cases hbp
  | @cons a bp' bps d ds hoff hlen _ ih =>
    rw [List.flatten_cons, List.length_append]
    rcases List.mem_cons.1 hbp with rfl | hbp
    · omega
    · have := ih hbp
      omega

theorem Laid.outside {o n a : ℕ} {bps : List BlockPointer} {ds : List Bytes} (h : Laid a bps ds)
    (hnil : bps.filter (inRange o n) = []) {p : ℕ} (hp : p < n) :
    o + p < a ∨ a + ds.flatten.length ≤ o + p := by
  induction h with
  | nil a =>
    simp only [List.flatten_nil, List.length_nil]
    omega
  | @cons a bp bps d ds hoff hlen _ ih =>
    rw [List.filter_eq_nil_iff] at hnil ih
    have hbp := hnil bp List.mem_cons_self
    simp only [inRange, Bool.and_eq_true, decide_eq_true_eq, gt_iff_lt, not_and, not_lt] at hbp
    rw [List.flatten_cons, List.length_append]
    rcases ih fun x hx => hnil x (List.mem_cons_of_mem bp hx) with h | h <;> omega

theorem slice_resize_eq_iff {c : Bytes} {o : ℕ} (n size : ℕ) :
    slice (resize 0 c size) o n = slice c o n ↔ min n (size - o) = min n (c.length - o) := by
  constructor
  · intro h
    have := congrArg List.length h
    rwa [length_slice, length_slice, length_resize] at this
  · intro h
    refine ext_getD 0 (by rw [length_slice, length_slice, length_resize, h]) fun p hp => ?_
    rw [length_slice, ← h] at hp
    rw [getD_slice, getD_slice, if_pos (by omega), if_pos (by omega), getD_resize, if_pos (by omega)]

section

variable [Primitives]

/-! ## What the cache and the transport answer -/

/-- The bytes `download_block` comes to: those of the cache if it has any, else those of the
    transport. -/
def Env.answer (env : Env) (m : Mount) (i : ℕ) (bp : BlockPointer) (s : System) : Option Bytes :=
  match (env.serve (.cacheGet i bp.rid) s).1 with
  | .ok data => some data
  | .error _ =>
    if m.transport && m.rt then (env.serve (.download i bp.messageId) s).1 else none

/-- The state after that. -/
def Env.afterAnswer (env : Env) (m : Mount) (i : ℕ) (bp : BlockPointer) (s : System) : System :=
  ((downloadBlock m i bp.messageId bp.rid).run env.serve s).2

theorem fst_run_downloadBlock (env : Env) (m : Mount) (i : ℕ) (bp : BlockPointer) (s : System) :
    ((downloadBlock m i bp.messageId bp.rid).run env.serve s).1 = env.answer m i bp s := by
  rw [downloadBlock, CallTree.run_call, Env.answer]
  have hremote : ∀ j id, (env.serve (.download j id) (env.serve (.cacheGet i bp.rid) s).2).1 =
      (env.serve (.download j id) s).1 := by
    intro j id
    obtain ⟨mount, conn, handles, cache, remote⟩ := s
    cases cache <;> rfl
  cases (env.serve (.cacheGet i bp.rid) s).1 with
  | ok data => rfl
  | error e =>
    cases m.transport with
    | false => rfl
    | true =>
      cases m.rt with
      | false => rfl
      | true =>
        simp only [Bool.not_true, Bool.false_eq_true, if_false, CallTree.run_call, hremote,
          Bool.and_self, if_true]
        cases (env.serve (.download i bp.messageId) s).1 <;> rfl

/-- `download_block` comes to these bytes for the blocks, one after the other. -/
def Env.Delivers (env : Env) (m : Mount) : List (BlockPointer × Bytes) → ℕ → System → Prop
  | [], _, _ => True
  | (bp, d) :: rest, i, s =>
    env.answer m i bp s = some d ∧ env.Delivers m rest (i + 1) (env.afterAnswer m i bp s)

/-- The blocks in range with their bytes. -/
def needed (o n : ℕ) (bps : List BlockPointer) (ds : List Bytes) : List (BlockPointer × Bytes) :=
  (bps.zip ds).filter fun x => inRange o n x.1

theorem Laid.run_readBlocks {env : Env} {m : Mount} {o n a : ℕ} {bps : List BlockPointer}
    {ds : List Bytes} (h : Laid a bps ds) {i : ℕ} {s : System}
    (hd : env.Delivers m (needed o n bps ds) i s) (buf : Bytes) :
    ((readBlocks m o n (bps.filter (inRange o n)) i buf).run env.serve s).1 =
      some (assemble o n bps ds buf) := by
  induction h generalizing i s buf with
  | nil a => rfl
  | @cons a bp bps d ds hoff hlen _ ih =>
    rw [assemble]
    unfold needed at hd
    rw [List.zip_cons_cons] at hd
    cases hr : inRange o n bp with
    | false =>
      rw [List.filter_cons_of_neg (by simp [hr])] at hd ⊢
      exact ih hd buf
    | true =>
      rw [List.filter_cons_of_pos (by simpa using hr)] at hd ⊢
      obtain ⟨hanswer, hrest⟩ := hd
      rw [readBlocks, CallTree.run_bind, fst_run_downloadBlock, hanswer]
      exact ih hrest _

theorem readManifest_delivered {env : Env} {m : Mount} {inode : Inode} {man : FileManifest}
    {ds : List Bytes} (hman : inode.manifest = some man) (h : Laid 0 man.blocks ds) {o n : ℕ}
    {s : System} (hd : env.Delivers m (needed o n man.blocks ds) 0 s) :
    ((readManifest m inode o n).run env.serve s).1 =
      .data (if man.blocksInRange o n = [] then []
        else slice (resize 0 ds.flatten inode.size) o n) := by
  unfold readManifest
  rw [hman]
  dsimp only
  by_cases hb : man.blocks = []
  · have hnil : man.blocksInRange o n = [] := by rw [FileManifest.blocksInRange, hb]; rfl
    simp [hb, hnil]
  · rw [if_neg (by simpa using hb), CallTree.run_bind]
    rw [show (readBlocks m o n (man.blocksInRange o n) 0 (List.replicate n 0)).run env.serve s =
      (some (assemble o n man.blocks ds (List.replicate n 0)), _) from
      Prod.ext (h.run_readBlocks hd _) rfl, h.assemble_eq]
    dsimp only
    by_cases hnil : man.blocksInRange o n = []
    · simp [hnil]
    · rw [if_neg (by simpa using hnil), if_neg hnil, CallTree.run_ret, take_resize_drop]

/-- A block in range is copied by slices that exist, out of sums that fit in a u64. -/
def CopyFits (o n : ℕ) (bp : BlockPointer) (data : Bytes) : Prop :=
  let readStart := max o bp.fileOffset
  let readEnd := min (o + n) (bp.fileOffset + bp.length)
  readStart ≤ readEnd ∧ readStart - bp.fileOffset + (readEnd - readStart) ≤ data.length ∧
    readStart - o + (readEnd - readStart) ≤ n ∧ o + n < 2 ^ 64 ∧ bp.fileOffset + bp.length < 2 ^ 64

omit [Primitives] in
theorem Laid.copyFits {a o n : ℕ} {bps : List BlockPointer} {ds : List Bytes} (h : Laid a bps ds)
    (hsum : o + n < 2 ^ 64) (hsize : a + ds.flatten.length < 2 ^ 64) :
    ∀ x ∈ needed o n bps ds, CopyFits o n x.1 x.2 := by
  induction h with
  | nil a => exact fun x hx => by cases hx
  | @cons a bp bps d ds hoff hlen _ ih =>
    rw [List.flatten_cons, List.length_append] at hsize
    intro x hx
    obtain ⟨hmem, hr⟩ := List.mem_filter.1 hx
    rcases List.mem_cons.1 hmem with rfl | hmem
    · simp only [inRange, Bool.and_eq_true, decide_eq_true_eq] at hr
      dsimp only [CopyFits]
      omega
    · exact ih (by omega) x (List.mem_filter.2 ⟨hmem, hr⟩)

/-- A read through a handle without a buffer puts the file together from the blocks in range. -/
theorem read_reassembles {env : Env} {s : System} {ino fh o n : ℕ} {i : Inode}
    {man : FileManifest} {ds : List Bytes} (hsql : env.sql .find = true)
    (hi : s.inodes.find ino = some i) (hfile : i.isFile = true) (hfh : s.Unbuffered fh)
    (hman : i.manifest = some man) (hcovered : man.Covered) (hsize : i.size = man.totalSize)
    (hu64 : man.totalSize < 2 ^ 64)
    (hds : List.Forall₂ (fun bp d => bp.length = d.length) man.blocks ds) (ho : o < 2 ^ 63)
    (hn : n < 2 ^ 32) (hd : env.Delivers s.mount (needed o n man.blocks ds) 0 s) :
    (exec env (.read ino fh o n) s).1 = .data (slice ds.flatten o (min (o + n) man.totalSize - o)) ∧
    (∀ x ∈ needed o n man.blocks ds, CopyFits o n x.1 x.2) ∧ min n (i.size - o) ≤ n ∧
    (man.blocksInRange o n).Sublist man.blocks ∧
    ∀ bp ∈ man.blocks, ∀ p, o ≤ p ∧ p < o + n → bp.fileOffset ≤ p ∧ p < bp.fileOffset + bp.length →
      (man.blocksInRange o n).count bp = 1 := by
  obtain ⟨hlaid, htotal⟩ := laid_of_consecutive hcovered hds
  rw [Nat.zero_add] at htotal
  refine ⟨?_, hlaid.copyFits (by omega) (by omega), Nat.min_le_left _ _,
    man.blocksInRange_sublist o n,
    fun bp hbp p hp hbyte => hcovered.count_blocksInRange hbp hp hbyte⟩
  have hslice : slice ds.flatten o (min (o + n) man.totalSize - o) = slice ds.flatten o n := by
    unfold slice
    rw [List.take_eq_take_iff, List.length_drop]
    omega
  rw [exec_read_unbuffered hsql hi hfile hfh, readManifest_delivered hman hlaid hd, hslice, hsize,
    htotal]
  split
  · rename_i hnil
    -- No block is in range, so nothing of the file is.
    have hempty : slice ds.flatten o n = [] := by
      refine List.eq_nil_of_length_eq_zero ?_
      rw [length_slice]
      by_cases hzero : n = 0
      · omega
      · have hout := hlaid.outside hnil (Nat.pos_of_ne_zero hzero)
        omega
    rw [hempty]
  · congr 1
    exact (slice_resize_eq_iff n ds.flatten.length).2 rfl

end

section

open scoped Sample

def twoBlockManifest : FileManifest :=
  { inode := 2, version := 1, totalSize := 3, fileHash := List.replicate 32 0,
    blocks := [storedPointer,
      { storedPointer with rid := [2], messageId := 2, fileOffset := 2, length := 1,
                           encryptedSize := 1, contentHash := blake3 [97] }] }

def twoBlockInode : Inode := { storedInode with size := 3, manifest := some twoBlockManifest }

/-- A file of two blocks that the transport keeps. -/
def twoBlocks : System :=
  { stored with
    conn := .autocommit ⟨(Table.empty.insert twoBlockInode).getD .empty, .empty⟩
    remote := ⟨[(1, [97, 98]), (2, [97])], []⟩ }

theorem read_across_blocks :
    (exec (Sample.env none []) (.read 2 1 1 7) twoBlocks).1 = .data [98, 97] := by
  have hfind : twoBlocks.inodes.find 2 = some twoBlockInode := by decide +kernel
  have hfh : twoBlocks.Unbuffered 1 := by
    intro h hh
    have hnone : twoBlocks.handles.get 1 = none := by decide +kernel
    rw [hnone] at hh
    cases hh
  have hcovered : twoBlockManifest.Covered := ⟨rfl, rfl, rfl⟩
  have hds : List.Forall₂ (fun bp (d : Bytes) => bp.length = d.length) twoBlockManifest.blocks
      [[97, 98], [97]] := .cons rfl (.cons rfl .nil)
  have hd : (Sample.env none []).Delivers twoBlocks.mount
      (needed 1 7 twoBlockManifest.blocks [[97, 98], [97]]) 0 twoBlocks :=
    ⟨by decide +kernel, by decide +kernel, trivial⟩
  exact (read_reassembles rfl hfind rfl hfh rfl hcovered rfl (by decide) hds (by decide) (by decide)
    hd).1

end

end TgCryptFs
