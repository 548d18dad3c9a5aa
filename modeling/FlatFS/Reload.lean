import FlatFS.Lookup
import FlatFS.Objects

namespace FlatFS
open Lib

/-- What `iget_locked` returns: an inode that is in memory, or a new one, in whose FlatFS fields
stands what `kmem_cache_alloc` has found there. -/
inductive Iget
  | cached (fi : FfsInodeInfo)
  | fresh (fi : FfsInodeInfo)

def fillInode (rawInode : Option FfsInode) (dirId bucketId slotId : ℤ) (fi : FfsInodeInfo) :
    FfsInodeInfo :=
  match rawInode with
  | none => fi
  | some raw => { fi with
      dirId := dirId
      valid := 1
      iSize := raw.size
      bucketId := bucketId
      slotId := slotId }

/-- `ffs_lookup`: the number and the info of the inode it returns. `bucketId` stands for the local
variable that nothing writes. -/
def ffsLookupInode (dev : Device) (sb : SbInfo) (dirIno : BitVec 64) (dfi : FfsInodeInfo)
    (name : CStr) (igetLocked : BitVec 64 → Iget) (bucketId : ℤ) :
    Option (BitVec 64 × FfsInodeInfo) :=
  (ffsLookup dev sb dirIno dfi name).map fun ino =>
    let dirId := lookupDirId (flatfsDirInodeByName sb dirIno name)
    -- the search functions get the pointer by value and assign to their own copies
    let rawInode : Option FfsInode := none
    match igetLocked ino with
    | .cached fi => (ino, fi)
    | .fresh fi => (ino, fillInode rawInode dirId bucketId 0 fi)

/-- The fields of an inode that block mapping and removal go by, with its size. -/
structure SameIdentity (fi fi' : FfsInodeInfo) : Prop where
  dirId : fi.dirId = fi'.dirId
  bucketId : fi.bucketId = fi'.bucketId
  slotId : fi.slotId = fi'.slotId
  isBigDir : fi.isBigDir = fi'.isBigDir
  bigDirId : fi.bigDirId = fi'.bigDirId
  valid : fi.valid = fi'.valid
  iSize : fi.iSize = fi'.iSize

/-- The inode info of a file or a directory with the name, from its `ffs_mknod` to its eviction:
writes change the size, and the promotion of a directory changes two more fields. -/
inductive LiveInfo (name : CStr) : FfsInodeInfo → Prop
  | file {sb dfi mem r ino fi} (h : ffsMknodFile sb dfi mem name = some r)
      (hc : r.created = some (ino, fi)) : LiveInfo name fi
  | dir (sb dfi mem dle) : LiveInfo name (ffsMknodDir sb dfi mem name dle).2.2
  | written {fi} (h : LiveInfo name fi) (size : ℤ) : LiveInfo name { fi with iSize := size }
  | promoted {fi} (h : LiveInfo name fi) (pos : ℤ) :
      LiveInfo name { fi with isBigDir := 1, bigDirId := pos }

/-- Whatever stood in the memory of the new inode, the lookup gives the evicted identity back. -/
def Reloads (dev : Device) (sb : SbInfo) (dirIno : BitVec 64) (dfi : FfsInodeInfo) (name : CStr)
    (fi : FfsInodeInfo) : Prop :=
  ∀ igetLocked fresh bucketId ino fi',
    ffsLookupInode dev sb dirIno dfi name igetLocked bucketId = some (ino, fi') →
      igetLocked ino = .fresh fresh → SameIdentity fi' fi

/-- Only an unlink makes an inode invalid. -/
theorem LiveInfo.valid_eq {name : CStr} {fi : FfsInodeInfo} (h : LiveInfo name fi) :
    fi.valid = 1 := by
  induction h with
  | file h hc =>
    rcases (mknodFile_result h).2 _ _ hc with he | he
    · rw [he]
      rfl
    · rw [he]
      rfl
  | dir sb dfi mem dle => rfl
  | written h size ih => exact ih
  | promoted h pos ih => exact ih

section

variable {dev : Device} {sb : SbInfo} {dirIno ino : BitVec 64} {dfi : FfsInodeInfo} {name : CStr}

theorem lookupInode_fresh (h : ffsLookup dev sb dirIno dfi name = some ino)
    {igetLocked : BitVec 64 → Iget} {fresh : FfsInodeInfo} (hnew : igetLocked ino = .fresh fresh)
    (bucketId : ℤ) :
    ffsLookupInode dev sb dirIno dfi name igetLocked bucketId = some (ino, fresh) := by
  rw [ffsLookupInode, h, Option.map_some]
  dsimp only
  rw [hnew]
  rfl

/-- After the eviction of a file or directory, a lookup that finds its name gives its identity back
only if the memory of the new inode held it already: for no such lookup is it given back whatever
stood there, and zeroed memory is never enough. The blocks of the device have no part in it. -/
theorem reload_restores_iff {fi : FfsInodeInfo} (hfi : LiveInfo name fi)
    (h : ffsLookup dev sb dirIno dfi name = some ino) :
    (∀ (igetLocked : BitVec 64 → Iget) (fresh : FfsInodeInfo) (bucketId : ℤ),
        igetLocked ino = .fresh fresh → ∃ fi',
          ffsLookupInode dev sb dirIno dfi name igetLocked bucketId = some (ino, fi') ∧
          (SameIdentity fi' fi ↔ SameIdentity fresh fi) ∧
          (fresh.valid = 0 → ¬ SameIdentity fi' fi)) ∧
      ¬ Reloads dev sb dirIno dfi name fi := by
  have hvalid := hfi.valid_eq
  have hzero : ∀ fresh : FfsInodeInfo, fresh.valid = 0 → ¬ SameIdentity fresh fi := by
    intro fresh h0 hsame
    have hv := hsame.valid
    rw [h0, hvalid] at hv
    omega
  constructor
  · intro igetLocked fresh bucketId hnew
    exact ⟨fresh, lookupInode_fresh h hnew bucketId, Iff.rfl, hzero fresh⟩
  · intro hall
    let fresh : FfsInodeInfo := { fi with valid := 0 }
    exact hzero fresh rfl
      (hall (fun _ => .fresh fresh) fresh 0 ino fresh (lookupInode_fresh h rfl 0) rfl)

end

theorem f1_found : ∃ r ino fi ino',
    ffsMknodFile (fillSuper (fun _ _ => 0) fun _ => ⟨0, 0, 0⟩) (rootInfo ⟨0, fun _ => 0⟩)
      ⟨0, fun _ => 0⟩ [102, 49] = some r ∧ r.created = some (ino, fi) ∧ fi.dirId = 2 ∧
    ffsLookup (ffsDirtyInode (fun _ => zeroPage) fi) r.sb (dirIdToInode 2) r.dfi [102, 49] =
      some ino' := by
  obtain ⟨r, hmk, hr⟩ := exists_of_check
    (r := ffsMknodFile (fillSuper (fun _ _ => 0) fun _ => ⟨0, 0, 0⟩) (rootInfo ⟨0, fun _ => 0⟩)
      ⟨0, fun _ => 0⟩ [102, 49])
    (p := fun r => r.created.any (fun x => decide (x.2.dirId = 2 ∧
      (ffsLookup (ffsDirtyInode (fun _ => zeroPage) x.2) r.sb (dirIdToInode 2) r.dfi
        [102, 49]).isSome = true)) = true) (by decide +kernel)
  obtain ⟨⟨ino, fi⟩, hc, hdir, hfound⟩ := exists_of_check hr
  obtain ⟨ino', hino'⟩ := Option.isSome_iff_exists.mp hfound
  exact ⟨r, ino, fi, ino', hmk, hc, hdir, hino'⟩

theorem reload_restores_f1 : ∃ r ino fi ino',
    ffsMknodFile (fillSuper (fun _ _ => 0) fun _ => ⟨0, 0, 0⟩) (rootInfo ⟨0, fun _ => 0⟩)
      ⟨0, fun _ => 0⟩ [102, 49] = some r ∧ r.created = some (ino, fi) ∧
    (∃ fi', ffsLookupInode (ffsDirtyInode (fun _ => zeroPage) fi) r.sb (dirIdToInode 2) r.dfi
      [102, 49] (fun _ => .fresh fi) 0 = some (ino', fi') ∧ SameIdentity fi' fi) ∧
    ¬ Reloads (ffsDirtyInode (fun _ => zeroPage) fi) r.sb (dirIdToInode 2) r.dfi [102, 49] fi := by
  obtain ⟨r, ino, fi, ino', hmk, hc, -, hfound⟩ := f1_found
  obtain ⟨hone, hall⟩ := reload_restores_iff (.file hmk hc) hfound
  obtain ⟨fi', hret, hiff, -⟩ := hone (fun _ => .fresh fi) fi 0 rfl
  exact ⟨r, ino, fi, ino', hmk, hc, ⟨fi', hret, hiff.mpr ⟨rfl, rfl, rfl, rfl, rfl, rfl, rfl⟩⟩, hall⟩

/-- With zeroed memory the lookup of `f1` returns an invalid inode of directory 0. -/
theorem reload_loses_f1 : ∃ r ino fi ino',
    ffsMknodFile (fillSuper (fun _ _ => 0) fun _ => ⟨0, 0, 0⟩) (rootInfo ⟨0, fun _ => 0⟩)
      ⟨0, fun _ => 0⟩ [102, 49] = some r ∧ r.created = some (ino, fi) ∧ fi.dirId = 2 ∧
    ffsLookupInode (ffsDirtyInode (fun _ => zeroPage) fi) r.sb (dirIdToInode 2) r.dfi [102, 49]
      (fun _ => .fresh ⟨0, 0, 0, 0, 0, 0, 0, 0, fun _ => 0⟩) 0 =
        some (ino', ⟨0, 0, 0, 0, 0, 0, 0, 0, fun _ => 0⟩) ∧
    ¬ Reloads (ffsDirtyInode (fun _ => zeroPage) fi) r.sb (dirIdToInode 2) r.dfi [102, 49] fi := by
  obtain ⟨r, ino, fi, ino', hmk, hc, hdir, hfound⟩ := f1_found
  let zeroed : FfsInodeInfo := ⟨0, 0, 0, 0, 0, 0, 0, 0, fun _ => 0⟩
  have hret : ffsLookupInode (ffsDirtyInode (fun _ => zeroPage) fi) r.sb (dirIdToInode 2) r.dfi
      [102, 49] (fun _ => .fresh zeroed) 0 = some (ino', zeroed) := lookupInode_fresh hfound rfl 0
  refine ⟨r, ino, fi, ino', hmk, hc, hdir, hret, fun hall => ?_⟩
  have hsame := (hall _ zeroed _ _ _ hret rfl).dirId
  rw [hdir] at hsame
  cases hsame

end FlatFS
