import ModernLevelDB.Base.Bytes
import ModernLevelDB.Base.Result
import Mathlib

/-! # Writing files (`platform/posix_file_system.cc`)

A writable file buffers what is appended and hands it to `write(2)`. What the system calls return is a
list that is given from outside. When the list is used up within a call, the call has not returned yet:
this is a moment between two of its system calls. The `F_FULLFSYNC` of Apple systems is left out. -/
namespace ModernLevelDB
set_option autoImplicit false

/-- The values of `errno` that are told apart. -/
inductive Errno where
  | EINTR
  | ENOENT
  | ENOTDIR
  | ENOSYS
  | ENOTSUP
  | EOPNOTSUPP
  | other (number : Nat)
deriving DecidableEq

/-- What a system call returns: a count, or an error number and its text. -/
inductive Return where
  | value (count : Nat)
  | error (errno : Errno) (text : String)

def Return.interrupted : Return → Bool
  | .error .EINTR _ => true
  | _ => false

/-- The results that are not `EINTR`. -/
def answers (returns : List Return) : Nat := returns.countP (fun result => !result.interrupted)

def fileError (operation path : String) (errno : Errno) (text : String) : Error :=
  let message := operation ++ " '" ++ path ++ "': " ++ text
  match errno with
  | .ENOENT | .ENOTDIR => Error.notFound message
  | .ENOSYS | .ENOTSUP | .EOPNOTSUPP => ⟨.notSupported, message⟩
  | .EINTR | .other _ => Error.io message

def maximumIoSize (requested : Nat) : Nat := min requested (2 ^ 63 - 1)

def writableBufferSize : Nat := 64 * 1024

/-- `delivered` are the bytes that `write(2)` has taken. -/
structure PosixWritableFile where
  path : String
  buffer : Bytes := []
  delivered : Bytes := []
  firstError : Option Error := none
  closeAttempted : Bool := false

/-- How a call ends, with the returns that are left; `none` if it has not returned yet. -/
abbrev CallEnd := Option (Status × List Return)

/-! ## System calls -/

/-- The bytes that were taken, and how the loop ends. -/
def writeAll (path : String) (data : Bytes) : List Return → Bytes × CallEnd
  | [] => ([], if data = [] then some (.ok (), []) else none)
  | result :: rest =>
    if data = [] then ([], some (.ok (), result :: rest))
    else match result with
      | .error errno text =>
          if errno = .EINTR then writeAll path data rest
          else ([], some (.error (fileError "write" path errno text), rest))
      | .value count =>
          let written := min count (maximumIoSize data.length)
          if written = 0 then
            ([], some (.error (Error.io ("write made no progress for '" ++ path ++ "'")), rest))
          else
            let (taken, ends) := writeAll path (data.drop written) rest
            (data.take written ++ taken, ends)

def syncDescriptor (path : String) : List Return → CallEnd
  | [] => none
  | .value _ :: rest => some (.ok (), rest)
  | .error errno text :: rest =>
      if errno = .EINTR then syncDescriptor path rest
      else some (.error (fileError "sync" path errno text), rest)

def closeDescriptor (path : String) : List Return → CallEnd
  | [] => none
  | .value _ :: rest => some (.ok (), rest)
  | .error errno text :: rest => some (.error (fileError "close" path errno text), rest)

abbrev CallResult := PosixWritableFile × CallEnd

namespace PosixWritableFile

/-! ## The calls -/

section
variable (file : PosixWritableFile)

def rememberFirstError : CallEnd → CallResult
  | none => (file, none)
  | some (status, rest) =>
      match file.firstError, status with
      | some error, _ => (file, some (.error error, rest))
      | none, .error error => ({ file with firstError := some error }, some (.error error, rest))
      | none, .ok () => (file, some (.ok (), rest))

def write (data : Bytes) (returns : List Return) : CallResult :=
  let (taken, ends) := writeAll file.path data returns
  { file with delivered := file.delivered ++ taken }.rememberFirstError ends

def flushBuffer (returns : List Return) : CallResult :=
  match file.firstError with
  | some error => (file, some (.error error, returns))
  | none =>
      if file.buffer = [] then (file, some (.ok (), returns))
      else { file with buffer := [] }.write file.buffer returns

/-- A part of a call that does not succeed ends the call. -/
def andThen (first : CallResult) (next : PosixWritableFile → List Return → CallResult) : CallResult :=
  match first with
  | (file, some (.ok (), rest)) => next file rest
  | ended => ended

/-- The calls of `WritableFile`. -/
inductive Call where
  | append (data : Bytes)
  | flush
  | sync
  | close
deriving DecidableEq

def Call.name : Call → String
  | .append _ => "append"
  | .flush => "flush"
  | .sync => "sync"
  | .close => "close"

def usedAfterClose (call : Call) : Error :=
  Error.invalidArgument (call.name ++ " called after file close")

def fillSize (data : Bytes) : Nat :=
  min data.length (writableBufferSize - file.buffer.length)

def fill (data : Bytes) : PosixWritableFile :=
  { file with buffer := file.buffer ++ data.take (file.fillSize data) }

def append (data : Bytes) (returns : List Return) : CallResult :=
  match file.firstError with
  | some error => (file, some (.error error, returns))
  | none =>
      let left := data.drop (file.fillSize data)
      if data = [] then (file, some (.ok (), returns))
      else if left = [] then (file.fill data, some (.ok (), returns))
      else andThen ((file.fill data).flushBuffer returns) fun file rest =>
        if left.length < writableBufferSize then
          ({ file with buffer := left }, some (.ok (), rest))
        else file.write left rest

def sync (returns : List Return) : CallResult :=
  andThen (file.flushBuffer returns) fun file rest =>
    file.rememberFirstError (syncDescriptor file.path rest)

/-- The descriptor is closed also behind a failed flush, whose error is the one that is reported. -/
def close (returns : List Return) : CallResult :=
  match { file with closeAttempted := true }.flushBuffer returns with
  | (file, some (.error error, rest)) =>
      (file, (closeDescriptor file.path rest).map fun (_, rest) => (.error error, rest))
  | (file, some (.ok (), rest)) => file.rememberFirstError (closeDescriptor file.path rest)
  | running => running

def perform (call : Call) (returns : List Return) : CallResult :=
  if file.closeAttempted then
    match call, file.firstError with
    | .close, none => (file, some (.ok (), returns))
    | .close, some error => (file, some (.error error, returns))
    | call, _ => (file, some (.error (usedAfterClose call), returns))
  else match call with
    | .append data => file.append data returns
    | .flush => file.flushBuffer returns
    | .sync => file.sync returns
    | .close => file.close returns

end

/-- Calls one after the other: the file at this moment, and the calls that have returned. -/
def run (file : PosixWritableFile) : List Call → List Return →
    PosixWritableFile × List (Call × Status)
  | [], _ => (file, [])
  | call :: calls, returns =>
      match file.perform call returns with
      | (file, none) => (file, [])
      | (file, some (status, rest)) =>
          ((file.run calls rest).1, (call, status) :: (file.run calls rest).2)

def Call.data : Call → Bytes
  | .append data => data
  | _ => []

/-- The data of the calls that find the file open. -/
def appended : (closed : Bool) → List Call → Bytes
  | _, [] => []
  | closed, call :: calls =>
      (if closed then [] else call.data) ++ appended (closed || call = .close) calls

/-! ## One call -/

@[simp] theorem answers_interrupted (text : String) (rest : List Return) :
    answers (.error .EINTR text :: rest) = answers rest := by
  simp [answers, Return.interrupted]

theorem answers_cons_le (result : Return) (rest : List Return) :
    answers (result :: rest) ≤ answers rest + 1 := by
  unfold answers
  rw [List.countP_cons]
  split <;> omega

/-- The results that a call used pay for the pending bytes that are not buffered any more, and a call
that has not returned was given too few. -/
def Paid (pending : Nat) (returns : List Return) (buffered : Nat) : CallEnd → Prop
  | none => answers returns < pending
  | some (_, rest) => answers returns + buffered ≤ answers rest + pending

theorem Paid.after {pending more buffered : Nat} {returns rest : List Return} {ends : CallEnd}
    (h : Paid pending rest buffered ends) (hle : answers returns + pending ≤ answers rest + more) :
    Paid more returns buffered ends := by
  unfold Paid at h ⊢
  split at h <;> omega

theorem paid_one (result : Return) (status : Status) (rest : List Return) :
    Paid 1 (result :: rest) 0 (some (status, rest)) := answers_cons_le result rest

theorem writeAll_spec (path : String) (returns : List Return) : ∀ data : Bytes,
    (writeAll path data returns).1 <+: data ∧
      (∀ rest, (writeAll path data returns).2 = some (.ok (), rest) →
        (writeAll path data returns).1 = data) ∧
      Paid (data.length + 1) returns 0 (writeAll path data returns).2 := by
  induction returns with
  | nil =>
    intro data
    simp only [writeAll]
    split
    · next he => exact ⟨List.nil_prefix, fun _ _ => he.symm, Nat.zero_le _⟩
    · exact ⟨List.nil_prefix, fun rest h => (by cases h), Nat.succ_pos _⟩
  | cons result returns ih =>
    intro data
    have hone := answers_cons_le result returns
    have hpaid : answers (result :: returns) + 0 ≤ answers returns + (data.length + 1) := by omega
    unfold writeAll
    split
    · next he => exact ⟨List.nil_prefix, fun _ _ => he.symm, Nat.le_add_right _ _⟩
    · cases result with
      | error errno text =>
        simp only
        split
        · next hinterrupted =>
          subst hinterrupted
          exact ⟨(ih data).1, (ih data).2.1, (ih data).2.2.after (by simp)⟩
        · exact ⟨List.nil_prefix, fun rest h => (by cases h), hpaid⟩
      | value count =>
        simp only
        split
        · exact ⟨List.nil_prefix, fun rest h => (by cases h), hpaid⟩
        · obtain ⟨htaken, hall, hrest⟩ := ih (data.drop (min count (maximumIoSize data.length)))
          refine ⟨?_, fun rest h => ?_, hrest.after ?_⟩
          · conv_rhs => rw [← List.take_append_drop (min count (maximumIoSize data.length)) data]
            exact (List.prefix_append_right_inj _).mpr htaken
          · rw [hall rest h, List.take_append_drop]
          · -- The result has taken a byte at least.
            have hdata : 0 < data.length := List.length_pos_iff.mpr ‹_›
            rw [List.length_drop]
            omega

theorem syncDescriptor_paid (path : String) (returns : List Return) :
    Paid 1 returns 0 (syncDescriptor path returns) := by
  induction returns with
  | nil => exact Nat.one_pos
  | cons result rest ih =>
    cases result with
    | value count => exact paid_one _ _ rest
    | error errno text =>
      unfold syncDescriptor
      split
      · next hinterrupted =>
        subst hinterrupted
        exact ih.after (by simp)
      · exact paid_one _ _ rest

theorem closeDescriptor_paid (path : String) (returns : List Return) :
    Paid 1 returns 0 (closeDescriptor path returns) := by
  cases returns with
  | nil => exact Nat.one_pos
  | cons result rest => cases result <;> exact paid_one _ _ rest

/-- What holds at every moment, with this data appended. -/
structure Sound (closed : Bool) (all : Bytes) (file : PosixWritableFile) : Prop where
  room : file.buffer.length ≤ writableBufferSize
  behind : file.delivered <+: all
  same : file.closeAttempted = closed

/-- How a call on a file without an error may end. `Q` holds when it succeeds. -/
inductive Ended (Q : PosixWritableFile → Prop) (closed : Bool) (all : Bytes) (pending : Nat)
    (returns : List Return) : CallResult → Prop where
  | inside {file : PosixWritableFile} : file.Sound closed all → answers returns < pending →
      Ended Q closed all pending returns (file, none)
  | failed {file : PosixWritableFile} {error : Error} {rest : List Return} :
      file.Sound closed all → file.firstError = some error →
        answers returns + file.buffer.length ≤ answers rest + pending →
          Ended Q closed all pending returns (file, some (.error error, rest))
  | ok {file : PosixWritableFile} {rest : List Return} :
      file.Sound closed all → file.firstError = none → file.delivered ++ file.buffer = all →
        answers returns + file.buffer.length ≤ answers rest + pending →
          Q file → Ended Q closed all pending returns (file, some (.ok (), rest))

section
variable {file : PosixWritableFile} {closed : Bool} {data all : Bytes} {returns : List Return}
  {pending more : Nat}

theorem sound_of_whole (same : file.closeAttempted = closed)
    (room : file.buffer.length ≤ writableBufferSize)
    (whole : file.delivered ++ file.buffer = all) : file.Sound closed all :=
  ⟨room, ⟨file.buffer, whole⟩, same⟩

theorem Sound.extend (h : file.Sound closed all) : file.Sound closed (all ++ data) :=
  ⟨h.room, h.behind.trans (List.prefix_append _ _), h.same⟩

variable {Q R : PosixWritableFile → Prop}

theorem Ended.imp {rest : List Return} {result : CallResult}
    (h : Ended Q closed all pending rest result) (hQ : ∀ f, Q f → R f)
    (hle : answers returns + pending ≤ answers rest + more) :
    Ended R closed all more returns result := by
  cases h with
  | inside sound few => exact .inside sound (by omega)
  | failed sound latched paid => exact .failed sound latched (by omega)
  | ok sound fine whole paid holds => exact .ok sound fine whole (by omega) (hQ _ holds)

theorem Ended.andThen {first : CallResult} {next : PosixWritableFile → List Return → CallResult}
    (more : Nat) (h : Ended Q closed all pending returns first)
    (hnext : ∀ f rest, f.Sound closed all → f.firstError = none → f.delivered ++ f.buffer = all →
      Q f → Ended R closed (all ++ data) (f.buffer.length + more) rest (next f rest)) :
    Ended R closed (all ++ data) (pending + more) returns (andThen first next) := by
  cases h with
  | inside sound few => exact .inside sound.extend (by omega)
  | failed sound latched paid => exact .failed sound.extend latched (by omega)
  | ok sound fine whole paid holds =>
    exact (hnext _ _ sound fine whole holds).imp (fun _ h => h) (by omega)

theorem remember_ended (sound : file.Sound closed all) (fine : file.firstError = none)
    {ends : CallEnd} (paid : Paid more returns 0 ends) (hle : file.buffer.length + more ≤ pending)
    (ok : ∀ rest, ends = some (.ok (), rest) → file.delivered ++ file.buffer = all ∧ Q file) :
    Ended Q closed all pending returns (file.rememberFirstError ends) := by
  unfold rememberFirstError
  unfold Paid at paid
  split
  · exact .inside sound (by dsimp only at paid; omega)
  · dsimp only at paid
    split
    · next h => rw [fine] at h; cases h
    · exact .failed ⟨sound.room, sound.behind, sound.same⟩ rfl (by dsimp only; omega)
    · exact .ok sound fine (ok _ rfl).1 (by omega) (ok _ rfl).2

theorem write_ended (same : file.closeAttempted = closed) (fine : file.firstError = none)
    (empty : file.buffer = []) (whole : file.delivered ++ data = all) :
    Ended (fun f => f.buffer = []) closed all (data.length + 1) returns
      (file.write data returns) := by
  subst whole
  obtain ⟨htaken, hall, hpaid⟩ := writeAll_spec file.path returns data
  unfold write
  apply remember_ended
  · exact ⟨by simp [empty], (List.prefix_append_right_inj _).mpr htaken, same⟩
  · exact fine
  · exact hpaid
  · simp [empty]
  · intro rest h
    rw [hall rest h, empty, List.append_nil]
    exact ⟨rfl, rfl⟩

theorem flushBuffer_ended (same : file.closeAttempted = closed) (fine : file.firstError = none)
    (whole : file.delivered ++ file.buffer = all) :
    Ended (fun f => f.buffer = []) closed all (file.buffer.length + 1) returns
      (file.flushBuffer returns) := by
  unfold flushBuffer
  split
  · next h => rw [fine] at h; cases h
  · split
    · next empty =>
      exact .ok (sound_of_whole same (by simp [empty]) whole) fine whole (by omega) empty
    · apply write_ended
      · exact same
      · exact fine
      · rfl
      · exact whole

theorem fill_room (room : file.buffer.length ≤ writableBufferSize) :
    (file.fill data).buffer.length ≤ writableBufferSize := by
  simp only [fill, fillSize, List.length_append, List.length_take]
  omega

theorem append_ended (same : file.closeAttempted = closed) (fine : file.firstError = none)
    (room : file.buffer.length ≤ writableBufferSize)
    (whole : file.delivered ++ file.buffer = all) :
    Ended (fun _ => True) closed (all ++ data) (file.buffer.length + data.length + 2) returns
      (file.append data returns) := by
  have hsplit : all ++ data =
      file.delivered ++ (file.fill data).buffer ++ data.drop (file.fillSize data) := by
    simp [fill, ← whole]
  have hlength : (file.fill data).buffer.length + (data.drop (file.fillSize data)).length =
      file.buffer.length + data.length := by
    simp only [fill, fillSize, List.length_append, List.length_take, List.length_drop]
    omega
  unfold append
  split
  · next h => rw [fine] at h; cases h
  simp only
  split
  · next hdata =>
    rw [hdata, List.append_nil]
    exact .ok (sound_of_whole same room whole) fine whole (by omega) trivial
  rw [hsplit]
  split
  · next hleft =>
    rw [hleft, List.append_nil]
    exact .ok (sound_of_whole same (fill_room room) rfl) fine rfl (by omega) trivial
  · have hflush : Ended _ closed (file.delivered ++ (file.fill data).buffer) _ returns
        ((file.fill data).flushBuffer returns) := flushBuffer_ended same fine rfl
    refine (hflush.andThen ((data.drop (file.fillSize data)).length + 1)
      fun after rest sound fine whole empty => ?_).imp (R := fun _ => True) (fun _ h => h) (by omega)
    rw [empty, List.append_nil] at whole
    rw [← whole]
    split
    · next hsmall =>
      exact .ok (sound_of_whole sound.same (Nat.le_of_lt hsmall) rfl) fine rfl
        (by dsimp only; omega) trivial
    · exact (write_ended sound.same fine empty rfl).imp (fun _ _ => trivial) (by omega)

theorem sync_ended (same : file.closeAttempted = closed) (fine : file.firstError = none)
    (whole : file.delivered ++ file.buffer = all) :
    Ended (fun f => f.buffer = []) closed (all ++ []) (file.buffer.length + 1 + 1) returns
      (file.sync returns) := by
  refine (flushBuffer_ended same fine whole).andThen _ fun after rest sound fine whole empty => ?_
  rw [List.append_nil]
  exact remember_ended sound fine (syncDescriptor_paid _ rest) (Nat.le_refl _) fun _ _ =>
    ⟨whole, empty⟩

theorem close_ended (fine : file.firstError = none) (whole : file.delivered ++ file.buffer = all) :
    Ended (fun f => f.buffer = []) true all (file.buffer.length + 2) returns
      (file.close returns) := by
  have hflush : Ended _ true all _ returns
      ({ file with closeAttempted := true }.flushBuffer returns) := flushBuffer_ended rfl fine whole
  dsimp only at hflush
  unfold close
  revert hflush
  generalize flushBuffer _ returns = first
  intro hflush
  cases hflush with
  | inside sound few => exact .inside sound (by omega)
  | @failed after error rest sound latched paid =>
    simp only
    have hpaid := closeDescriptor_paid after.path rest
    revert hpaid
    cases closeDescriptor after.path rest with
    | none => exact fun (few : _ < _) => .inside sound (by omega)
    | some ended => exact fun (used : _ + 0 ≤ _ + 1) => .failed sound latched (by omega)
  | @ok after rest sound fine whole paid empty =>
    exact (remember_ended sound fine (closeDescriptor_paid _ rest) (Nat.le_refl _) fun _ _ =>
      ⟨whole, empty⟩).imp (fun _ h => h) (by omega)

/-- A file between two calls, with this data appended. -/
structure Holds (all : Bytes) (file : PosixWritableFile) : Prop where
  room : file.buffer.length ≤ writableBufferSize
  behind : file.delivered <+: all
  whole : file.firstError = none → file.delivered ++ file.buffer = all
  closed : file.closeAttempted = true → file.firstError = none → file.buffer = []

/-- What the calls of a latched or closed file report. -/
def Reports (call : Call) (error : Error) (status : Status) : Prop :=
  status = .error error ∨ call ≠ .close ∧ status = .error (usedAfterClose call)

theorem perform_latched {error : Error} (latched : file.firstError = some error) (call : Call)
    (returns : List Return) :
    (file.perform call returns).1 =
        { file with closeAttempted := file.closeAttempted || call = .close } ∧
      (∀ status rest, (file.perform call returns).2 = some (status, rest) →
        Reports call error status) ∧
      ((file.perform call returns).2.map Prod.snd = some returns ∨
        call = .close ∧ file.closeAttempted = false ∧
          (file.perform call returns).2.map Prod.snd = returns.tail?) := by
  obtain ⟨path, buffer, delivered, firstError, closed⟩ := file
  obtain rfl : firstError = some error := latched
  cases closed with
  | true => cases call <;> simp [perform, Reports]
  | false =>
    cases call with
    | append data => simp [perform, append, Reports]
    | flush => simp [perform, flushBuffer, Reports]
    | sync => simp [perform, sync, andThen, flushBuffer, Reports]
    | close =>
      cases returns with
      | nil => simp [perform, close, flushBuffer, closeDescriptor]
      | cons result rest => cases result <;> simp [perform, close, flushBuffer, closeDescriptor, Reports]

theorem paid_of_rest {buffered : Nat} {ends : CallEnd} (h : ends.map Prod.snd = some returns ∨
    ends.map Prod.snd = returns.tail?) (hle : buffered + 1 ≤ pending) :
    Paid pending returns buffered ends := by
  cases ends with
  | none =>
    cases returns with
    | nil => exact Nat.zero_lt_of_lt hle
    | cons result rest => rcases h with h | h <;> cases h
  | some ended =>
    show answers returns + buffered ≤ answers ended.2 + pending
    rcases h with h | h
    · rw [Option.some.inj h]
      omega
    · cases returns with
      | nil => cases h
      | cons result rest =>
        rw [Option.some.inj h]
        have := answers_cons_le result rest
        omega

theorem perform_closed (closed : file.closeAttempted = true) (fine : file.firstError = none)
    (call : Call) : file.perform call returns =
      (file, some (if call = .close then .ok () else .error (usedAfterClose call), returns)) := by
  unfold perform
  rw [if_pos closed, fine]
  cases call <;> rfl

/-- What a call does, with all that is appended then. -/
structure Performed (closed : Bool) (all : Bytes) (pending : Nat) (returns : List Return)
    (call : Call) (result : CallResult) : Prop where
  sound : result.1.Sound closed all
  paid : Paid pending returns result.1.buffer.length result.2
  holds : ∀ status rest, result.2 = some (status, rest) → result.1.Holds all
  done : ∀ rest, result.2 = some (.ok (), rest) → (∀ data, call ≠ .append data) →
    result.1.delivered = all
  error : ∀ error rest, result.2 = some (.error error, rest) →
    result.1.firstError = some error ∨ call ≠ .close ∧ error = usedAfterClose call

theorem Ended.performed {call : Call} {result : CallResult}
    (h : Ended (fun f => (∀ data, call ≠ .append data) → f.buffer = []) closed all pending returns
      result) (hclose : closed = true → ∀ data, call ≠ .append data) :
    Performed closed all pending returns call result := by
  cases h with
  | inside sound few => exact ⟨sound, few, by simp, by simp, by simp⟩
  | failed sound latched paid =>
    refine ⟨sound, paid, fun _ _ _ => ⟨sound.room, sound.behind, ?_, ?_⟩, by simp, ?_⟩
    · simp [latched]
    · simp [latched]
    · rintro error rest h
      cases h
      exact .inl latched
  | ok sound fine whole paid empty =>
    refine ⟨sound, paid, fun _ _ _ => ⟨sound.room, sound.behind, fun _ => whole, ?_⟩, ?_, by simp⟩
    · intro hclosed _
      exact empty (hclose (sound.same ▸ hclosed))
    · intro _ _ hcall
      rw [← whole, empty hcall, List.append_nil]

theorem perform_performed (h : file.Holds all) (call : Call) (returns : List Return) :
    Performed (file.closeAttempted || call = .close)
      (all ++ if file.closeAttempted then [] else call.data)
      (file.buffer.length + call.data.length + 2) returns call (file.perform call returns) := by
  cases herror : file.firstError with
  | some error =>
    obtain ⟨hfile, hreports, hends⟩ := perform_latched herror call returns
    have hbehind := h.behind.trans
      (List.prefix_append all (if file.closeAttempted then [] else call.data))
    refine ⟨?_, ?_, fun _ _ _ => ?_, fun rest hok => ?_, fun error' rest hends => ?_⟩
    · rw [hfile]
      exact ⟨h.room, hbehind, rfl⟩
    · rw [hfile]
      exact paid_of_rest (hends.imp_right fun hclose => hclose.2.2) (by dsimp only; omega)
    · rw [hfile]
      exact ⟨h.room, hbehind, by simp [herror], by simp [herror]⟩
    · rcases hreports _ _ hok with he | ⟨_, he⟩ <;> cases he
    · rw [hfile]
      rcases hreports _ _ hends with he | ⟨hcall, he⟩
      · exact .inl (by cases he; exact herror)
      · exact .inr ⟨hcall, by cases he; rfl⟩
  | none =>
    have hwhole := h.whole herror
    cases hclosed : file.closeAttempted with
    | true =>
      rw [perform_closed hclosed herror, if_pos rfl, List.append_nil, Bool.true_or]
      refine ⟨⟨h.room, h.behind, hclosed⟩, ?_, fun _ _ _ => h, fun _ _ _ => ?_,
        fun error rest he => ?_⟩
      · exact paid_of_rest (.inl rfl) (by dsimp only; omega)
      · rwa [h.closed hclosed herror, List.append_nil] at hwhole
      · split at he
        · cases he
        · next hcall =>
          cases he
          exact .inr ⟨hcall, rfl⟩
    | false =>
      simp only [perform, hclosed, Bool.false_eq_true, if_false, Bool.false_or]
      cases call with
      | append data =>
        exact ((append_ended hclosed herror h.room hwhole).imp (fun _ _ hne =>
          absurd rfl (hne data)) (Nat.le_refl _)).performed (by simp)
      | flush =>
        rw [show Call.flush.data = [] from rfl, List.append_nil]
        exact ((flushBuffer_ended hclosed herror hwhole).imp (fun _ he _ => he)
          (by omega)).performed (by simp)
      | sync =>
        exact ((sync_ended hclosed herror hwhole).imp (fun _ he _ => he) (by omega)).performed (by simp)
      | close =>
        rw [show Call.close.data = [] from rfl, List.append_nil]
        exact ((close_ended herror hwhole).imp (fun _ he _ => he) (by omega)).performed (by simp)

end

/-! ## Many calls -/

section
variable {file : PosixWritableFile} {all : Bytes}

/-- Behind an error a call returns at once, and the one `Close` that closes the descriptor needs one
result. -/
theorem run_latched {error : Error} (latched : file.firstError = some error) (calls : List Call)
    (returns : List Return) :
    (file.run calls returns).1.delivered = file.delivered ∧
      (file.run calls returns).1.firstError = some error ∧
      (∀ call status, (call, status) ∈ (file.run calls returns).2 → Reports call error status) ∧
      ((file.run calls returns).2.map Prod.fst = calls ∨
        returns = [] ∧ .close ∈ calls ∧ file.closeAttempted = false) := by
  induction calls generalizing file returns with
  | nil => exact ⟨rfl, latched, by simp [run], .inl rfl⟩
  | cons call calls ih =>
    obtain ⟨hfile, hreports, hends⟩ := perform_latched latched call returns
    rw [run]
    split
    · next after hperform =>
      rw [hperform] at hfile hends
      obtain rfl := hfile
      refine ⟨rfl, latched, by simp, .inr ?_⟩
      rcases hends with hends | ⟨rfl, hopen, hends⟩
      · cases hends
      · exact ⟨by cases returns <;> [rfl; cases hends], List.mem_cons_self, hopen⟩
    · next after status rest hperform =>
      rw [hperform] at hfile hreports hends
      have hafter : after.firstError = some error := (congrArg firstError hfile).trans latched
      have hsame : after.delivered = file.delivered := by rw [show after = _ from hfile]
      have hclosed := congrArg closeAttempted hfile
      obtain ⟨hdelivered, herror, hlater, hreturned⟩ := ih hafter rest
      refine ⟨hdelivered.trans hsame, herror, fun c s hmem => ?_, ?_⟩
      · rcases List.mem_cons.mp hmem with he | hmem
        · cases he
          exact hreports _ _ rfl
        · exact hlater c s hmem
      · refine hreturned.imp (congrArg (call :: ·)) fun ⟨hnil, hmem, hopen⟩ => ?_
        rw [hopen] at hclosed
        obtain ⟨hfalse, hcall⟩ := Bool.or_eq_false_iff.mp hclosed.symm
        -- A file that is still open has not closed its descriptor in this call.
        rcases hends with hends | ⟨rfl, _, _⟩
        · exact ⟨(Option.some.inj hends).symm.trans hnil, List.mem_cons_of_mem _ hmem, hfalse⟩
        · cases hcall

/-! ## The whole run -/

/-- One answer for each byte and two for each call are enough for all calls to return. -/
theorem run_sound (h : file.Holds all) (calls : List Call) (returns : List Return) :
    (file.buffer.length + (calls.map (·.data.length + 2)).sum ≤ answers returns →
        (file.run calls returns).2.map Prod.fst = calls) ∧
      (file.run calls returns).1.buffer.length ≤ writableBufferSize ∧
      (file.run calls returns).1.delivered <+: all ++ appended file.closeAttempted calls ∧
      ((file.run calls returns).2.length = calls.length → ∀ call,
        (file.run calls returns).2.getLast? = some (call, .ok ()) → (∀ data, call ≠ .append data) →
          (file.run calls returns).1.delivered = all ++ appended file.closeAttempted calls) ∧
      ∀ call error, (call, .error error) ∈ (file.run calls returns).2 →
        error ≠ usedAfterClose call → (file.run calls returns).1.firstError = some error := by
  induction calls generalizing file all returns with
  | nil =>
    rw [run, appended, List.append_nil]
    exact ⟨fun _ => rfl, h.room, h.behind, by simp, by simp⟩
  | cons call calls ih =>
    have hperformed := perform_performed h call returns
    rw [run, appended, ← List.append_assoc, List.map_cons, List.sum_cons]
    split
    · next after hperform =>
      rw [hperform] at hperformed
      obtain ⟨sound, few, -, -, -⟩ := hperformed
      refine ⟨fun henough => ?_, sound.room, sound.behind.trans (List.prefix_append _ _), by simp,
        by simp⟩
      exact absurd few (by simp only [Paid]; omega)
    · next after status rest hperform =>
      rw [hperform] at hperformed
      obtain ⟨hreturned, hroom, hbehind, hdone, herror⟩ := ih (hperformed.holds _ _ rfl) rest
      rw [hperformed.sound.same] at hbehind hdone
      refine ⟨fun henough => ?_, hroom, hbehind, fun hlength c hlast hcall => ?_,
        fun c error hmem hne => ?_⟩
      · have hpaid : answers returns + after.buffer.length ≤ answers rest + _ := hperformed.paid
        exact congrArg (call :: ·) (hreturned (by dsimp only; omega))
      · cases calls with
        | nil =>
          rw [run, List.getLast?_singleton] at hlast
          cases hlast
          rw [appended, List.append_nil]
          exact hperformed.done _ rfl hcall
        | cons next calls =>
          have hreturned := Nat.succ.inj hlength
          refine hdone hreturned c ?_ hcall
          rwa [List.getLast?_cons_of_ne_nil (List.ne_nil_of_length_eq_add_one hreturned)] at hlast
      · rcases List.mem_cons.mp hmem with he | hmem
        · cases he
          have hlatched := (hperformed.error _ _ rfl).resolve_right fun hc => hne hc.2
          exact (run_latched hlatched calls rest).2.1
        · exact herror c error hmem hne

/-- The bytes that a file delivers are a prefix of the appended data, all of it after a successful
flush, sync or close, and no more than it was after an error. One result for each byte and two for each
call are enough for all calls to return, besides the interruptions. Behind an error every later call
returns with it, whatever the system calls return then: at once, or after one result if it is the `Close`
that closes the descriptor. -/
theorem posixWritableFile_delivers (path : String) (calls : List Call) (returns : List Return) :
    let opened : PosixWritableFile := { path }
    let now := opened.run calls returns
    now.1.delivered <+: appended false calls ∧
      now.1.buffer.length ≤ writableBufferSize ∧
      (∀ data, (now.1.fill data).buffer.length ≤ writableBufferSize) ∧
      (now.2.length = calls.length → ∀ call, now.2.getLast? = some (call, .ok ()) →
        (∀ data, call ≠ .append data) → now.1.delivered = appended false calls) ∧
      ((calls.map (·.data.length + 2)).sum ≤ answers returns → now.2.map Prod.fst = calls) ∧
      ∀ call error, (call, .error error) ∈ now.2 → error ≠ usedAfterClose call →
        ∀ (later : List Call) (more : List Return),
          let next := now.1.run later more
          next.1.delivered = now.1.delivered ∧
          (∀ c status, (c, status) ∈ next.2 → Reports c error status) ∧
          (next.2.map Prod.fst = later ∨
            more = [] ∧ .close ∈ later ∧ now.1.closeAttempted = false) := by
  intro opened now
  have hopened : opened.Holds [] := ⟨Nat.zero_le _, List.prefix_rfl, fun _ => rfl, fun _ _ => rfl⟩
  obtain ⟨hreturned, hroom, hbehind, hdone, herror⟩ := run_sound hopened calls returns
  refine ⟨hbehind, hroom, fun data => fill_room hroom, hdone, fun henough => ?_,
    fun call error hmem hne later more => ?_⟩
  · exact hreturned (by simpa [opened] using henough)
  · obtain ⟨hdelivered, _, hreports, hreturned⟩ := run_latched (herror call error hmem hne) later more
    exact ⟨hdelivered, hreports, hreturned⟩

/-- A short write, an interruption and the rest of the first flush; the second one fails. -/
theorem posixWritableFile_delivers_interrupted :
    let opened : PosixWritableFile := { path := "log" }
    let calls : List Call := [.append [1, 2, 3], .flush, .append [4], .flush]
    let returns : List Return :=
      [.value 2, .error .EINTR "interrupted", .value 1, .error (.other 28) "no space"]
    let later : List Call := [.append [5], .sync, .close, .flush]
    let now := opened.run calls returns
    let error := fileError "write" "log" (.other 28) "no space"
    let next := now.1.run later [.error .EINTR "interrupted"]
    now.1.delivered = [1, 2, 3] ∧ (.flush, .error error) ∈ now.2 ∧
      next.1.delivered = now.1.delivered ∧ next.2.map Prod.fst = later ∧
      (∀ c status, (c, status) ∈ next.2 → Reports c error status) ∧
      (opened.run calls (List.replicate 12 (.value 1))).2.map Prod.fst = calls := by
  intro opened calls returns later now error next
  have hmem : (Call.flush, (.error error : Status)) ∈ now.2 := by decide +kernel
  obtain ⟨_, _, _, _, _, hbehind⟩ := posixWritableFile_delivers "log" calls returns
  obtain ⟨hdelivered, hreports, hreturned⟩ := hbehind _ _ hmem (by decide) later
    [.error .EINTR "interrupted"]
  obtain ⟨_, _, _, _, henough, _⟩ := posixWritableFile_delivers "log" calls (List.replicate 12 (.value 1))
  exact ⟨by decide +kernel, hmem, by simpa only [next, now, opened] using hdelivered,
    hreturned.resolve_right (by simp), hreports, henough (by decide)⟩

end

end PosixWritableFile
end ModernLevelDB
