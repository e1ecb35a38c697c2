import ModernLevelDB.Metadata.Filenames
import ModernLevelDB.Metadata.VersionEditCodec
import ModernLevelDB.Metadata.VersionSet

/-! # `VersionSet::LogAndApply`

An edit is checked and built against the current version, then written to the MANIFEST, and only then
published. The file operations are those of the source in its order; each may fail or throw. -/
namespace ModernLevelDB
set_option autoImplicit false

/-- `Comparator`: its name and the order of user keys. -/
structure Comparator where
  name : Bytes
  compare : Bytes → Bytes → Ordering

def Comparator.internal (comparator : Comparator) : ByteKey → ByteKey → Ordering :=
  InternalKey.internalCompare comparator.compare

namespace VersionSet

variable (extend : CrcExtend) (comparator : Comparator)

/-! ## The file operations -/

def writeCurrentTemporary (file : FileName) (contents : Bytes) : FileM Unit := do
  perform (.append file contents)
  perform (.sync file)
  perform (.close file)

/-- `InstallCurrent`: CURRENT changes by renaming a synced temporary file. -/
def installCurrent (manifestFileNumber : Nat) : FileM Unit := do
  let temporary := FileName.temp manifestFileNumber
  perform (.openWritable temporary)
  writeCurrentTemporary temporary (currentFileContents manifestFileNumber)
  perform (.renameFile temporary .current)
  perform .syncDirectory

def createManifest (manifestFileNumber : Nat) (snapshot : Bytes) : FileM WalWriter := do
  let file := FileName.descriptor manifestFileNumber
  perform (.openWritable file)
  WalWriter.addRecord extend { file } snapshot

/-- `VersionSet::Write`, with the MANIFEST writer behind the edit. -/
def write (manifest : Option WalWriter) (manifestFileNumber : Nat) (snapshot encodedEdit : Bytes) :
    FileM WalWriter :=
  match manifest with
  | some manifest => do
      let manifest ← manifest.addRecord extend encodedEdit
      manifest.sync
      return manifest
  | none => do
      let created ← createManifest extend manifestFileNumber snapshot
      let created ← created.addRecord extend encodedEdit
      created.sync
      perform .syncDirectory
      installCurrent manifestFileNumber
      return created

/-! ## The two overloads -/

/-- The calls that other threads may make while the lock is released. -/
inductive CounterCall where
  | newFileNumber
  | markFileNumberUsed (number : Nat)
  | setLastSequence (sequence : Nat)

def CounterCall.apply (set : VersionSet ByteKey) : CounterCall → VersionSet ByteKey
  | .newFileNumber => set.newFileNumber.2
  | .markFileNumberUsed number =>
      match set.markFileNumberUsed number with
      | .ok set => set
      | .error _ => set
  | .setLastSequence sequence => set.setLastSequence sequence

/-- The overload without a lock checks the edit; the other one trusts it and releases the lock during
the file operations. -/
inductive Overload where
  | checked
  | trusted (during : List CounterCall)

def Overload.during : Overload → List CounterCall
  | .checked => []
  | .trusted during => during

def buildVersion (overload : Overload) (base : Version ByteKey) (edit : VersionEdit ByteKey) :
    Result (Version ByteKey) :=
  match overload with
  | .checked => do
      let builder ← (VersionBuilder.ofVersion base).apply comparator.internal edit
      builder.build comparator.internal
  | .trusted _ => .ok (VersionBuilder.buildTrusted comparator.internal base edit)

/-- Everything before the first file operation: what a rejected call stops at. -/
def accept (overload : Overload) (set : VersionSet ByteKey) (edit : VersionEdit ByteKey) :
    Result (Prepared ByteKey) :=
  set.acceptEdit comparator.name (buildVersion comparator overload) edit

def persistenceException : Error := Error.aborted "metadata persistence stopped with an exception"

/-- `LogAndApply`. The candidate is published only when the write has succeeded; the first failed
write is recorded for ever. -/
def logAndApply (overload : Overload) (set : VersionSet ByteKey) (edit : VersionEdit ByteKey)
    (world : World) : Outcome Unit × VersionSet ByteKey × World :=
  match accept comparator overload set edit with
  | .error error => (.failed error, set, world)
  | .ok prepared =>
      let snapshot := (prepared.snapshot.map VersionEdit.encode).getD []
      let written := write extend set.manifest set.manifestFileNumber snapshot prepared.edit.encode world
      let set := overload.during.foldl CounterCall.apply set
      match written with
      | (.returned manifest, world) =>
          (.returned (), { set.publish prepared with manifest := some manifest }, world)
      | (.failed error, world) => (.failed error, { set with failure := some error }, world)
      | (.threw, world) => (.threw, { set with failure := some persistenceException }, world)

end VersionSet
end ModernLevelDB
