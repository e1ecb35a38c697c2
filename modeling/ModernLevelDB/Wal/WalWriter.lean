import ModernLevelDB.Format.WalFormat
import ModernLevelDB.Platform.FileSystem

/-! # The WAL writer (`wal/wal_io.h`)

`AddRecord` appends the fragments of one logical record to the file and flushes it; the writer only
remembers where in its block the next fragment goes. -/
namespace ModernLevelDB
set_option autoImplicit false

structure WalWriter where
  file : FileName
  blockOffset : Nat := 0
  reopenPadding : Nat := 0
deriving DecidableEq

namespace WalWriter

/-- A writer at the end of a file of this size: a partial block is padded before the next record. -/
def reopened (file : FileName) (initialFileSize : Nat) : WalWriter :=
  { file, reopenPadding :=
      if initialFileSize % walBlockSize = 0 then 0
      else walBlockSize - initialFileSize % walBlockSize }

def appendPadding (writer : WalWriter) (size : Nat) : FileM Unit :=
  if size = 0 then pure ()
  else perform (.append writer.file (List.replicate size 0))

def appendFragment (writer : WalWriter) (fragment : WalFragment) : FileM Unit := do
  writer.appendPadding fragment.paddingBefore
  perform (.append writer.file fragment.header)
  if fragment.payload = [] then pure ()
  else perform (.append writer.file fragment.payload)

def appendFragments (writer : WalWriter) : List WalFragment → FileM Unit
  | [] => pure ()
  | fragment :: rest => do
      writer.appendFragment fragment
      writer.appendFragments rest

/-- `WalWriter::AddRecord`, with the writer behind the record. -/
def addRecord (extend : CrcExtend) (writer : WalWriter) (record : Bytes) : FileM WalWriter := do
  let (fragments, blockOffset) := fragment extend writer.blockOffset record
  writer.appendPadding writer.reopenPadding
  writer.appendFragments fragments
  perform (.flush writer.file)
  return { writer with blockOffset, reopenPadding := 0 }

def addRecords (extend : CrcExtend) (writer : WalWriter) : List Bytes → FileM WalWriter
  | [] => pure writer
  | record :: records => do
      let writer ← writer.addRecord extend record
      writer.addRecords extend records

def writeLog (extend : CrcExtend) (file : FileName) (records : List Bytes) : FileM WalWriter := do
  perform (.openWritable file)
  addRecords extend { file } records

def sync (writer : WalWriter) : FileM Unit := perform (.sync writer.file)

/-! ## What a successful call writes -/

section Returned

variable {extend : CrcExtend} {writer : WalWriter} {w w' : World} {u : Unit}

theorem appendPadding_returned {size : Nat} (h : writer.appendPadding size w = (.returned u, w')) :
    w'.disk = (FileOp.append writer.file (List.replicate size 0)).effect w.disk := by
  unfold appendPadding at h
  split at h
  · next hzero =>
    obtain ⟨_, rfl⟩ := FileM.pure_returned h
    rw [hzero, List.replicate_zero, effect_append_nil]
  · exact perform_returned h

theorem appendFragment_returned {fragment : WalFragment}
    (h : writer.appendFragment fragment w = (.returned u, w')) :
    w'.disk = (FileOp.append writer.file fragment.encoded).effect w.disk := by
  obtain ⟨_, w₁, hpadding, h⟩ := FileM.bind_returned h
  obtain ⟨_, w₂, hheader, h⟩ := FileM.bind_returned h
  have hpayload : w'.disk = (FileOp.append writer.file fragment.payload).effect w₂.disk := by
    split at h
    · next hnil =>
      obtain ⟨_, rfl⟩ := FileM.pure_returned h
      rw [hnil, effect_append_nil]
    · exact perform_returned h
  rw [hpayload, perform_returned hheader, appendPadding_returned hpadding, effect_append_append,
    effect_append_append, WalFragment.encoded, List.append_assoc]

theorem appendFragments_returned {fragments : List WalFragment} :
    ∀ {w : World}, writer.appendFragments fragments w = (.returned u, w') →
      w'.disk = (FileOp.append writer.file (fragments.flatMap WalFragment.encoded)).effect w.disk := by
  induction fragments with
  | nil =>
    intro w h
    obtain ⟨_, rfl⟩ := FileM.pure_returned h
    rw [List.flatMap_nil, effect_append_nil]
  | cons fragment fragments ih =>
    intro w h
    obtain ⟨_, w₁, hfragment, h⟩ := FileM.bind_returned h
    rw [ih h, appendFragment_returned hfragment, effect_append_append, List.flatMap_cons]

theorem addRecord_returned {record : Bytes} {writer' : WalWriter}
    (h : writer.addRecord extend record w = (.returned writer', w')) :
    w'.disk = (FileOp.append writer.file (List.replicate writer.reopenPadding 0 ++
        (fragment extend writer.blockOffset record).1.flatMap WalFragment.encoded)).effect w.disk ∧
      writer' = { writer with
        blockOffset := (fragment extend writer.blockOffset record).2, reopenPadding := 0 } := by
  unfold addRecord at h
  rcases hfragments : fragment extend writer.blockOffset record with ⟨fragments, blockOffset⟩
  rw [hfragments] at h
  obtain ⟨_, w₁, hpadding, h⟩ := FileM.bind_returned h
  obtain ⟨_, w₂, happend, h⟩ := FileM.bind_returned h
  obtain ⟨_, w₃, hflush, h⟩ := FileM.bind_returned h
  obtain ⟨rfl, rfl⟩ := FileM.pure_returned h
  refine ⟨?_, rfl⟩
  rw [perform_returned hflush]
  show w₂.disk = _
  rw [appendFragments_returned happend, appendPadding_returned hpadding, effect_append_append]

end Returned

/-! ## Calls without a failed operation -/

section Returns

variable (extend : CrcExtend) (writer : WalWriter)

theorem returns_appendPadding (size : Nat) : (writer.appendPadding size).Returns := by
  unfold appendPadding
  split
  · exact FileM.returns_pure ()
  · exact FileM.returns_perform _

theorem returns_appendFragment (fragment : WalFragment) : (writer.appendFragment fragment).Returns := by
  refine (writer.returns_appendPadding _).bind (fun _ => (FileM.returns_perform _).bind (fun _ => ?_))
  split
  · exact FileM.returns_pure ()
  · exact FileM.returns_perform _

theorem returns_appendFragments (fragments : List WalFragment) :
    (writer.appendFragments fragments).Returns := by
  induction fragments with
  | nil => exact FileM.returns_pure ()
  | cons fragment fragments ih => exact (writer.returns_appendFragment fragment).bind (fun _ => ih)

theorem returns_addRecord (record : Bytes) : (writer.addRecord extend record).Returns :=
  (writer.returns_appendPadding _).bind fun _ => (writer.returns_appendFragments _).bind fun _ =>
    (FileM.returns_perform _).bind fun _ => FileM.returns_pure _

end Returns

end WalWriter
end ModernLevelDB
