import Std.Time.Zoned
import ScopeScript.CommandLine.Report
import ScopeScript.CommandLine.Timeline

set_option autoImplicit false

namespace ScopeScript.CommandLine

def depth : Nat := Nat.pow 2 62

def reasonOf : IO.Error → String
  | .noFileOrDirectory _ code words
  | .interrupted _ code words
  | .invalidArgument _ code words
  | .permissionDenied _ code words
  | .resourceExhausted _ code words
  | .inappropriateType _ code words
  | .noSuchThing _ code words
  | .alreadyExists _ code words
  | .otherError code words
  | .resourceBusy code words =>
    -- Some calls report the number of a failure with its sign reversed.
    Directory.systemReason (Int32.ofUInt32 code).toInt.natAbs words
  | failure => toString failure

def readFile (path : String) : IO File := do
  match Directory.pathFault? path with
  | some reason => return ⟨path, .error reason⟩
  | none =>
    try return ⟨path, .ok (← IO.FS.readBinFile path).toList⟩
    catch failure => return ⟨path, .error (reasonOf failure)⟩

partial def gather (files : List File) : List String → IO Directory
  | [] => return ⟨files, []⟩
  | path :: rest => do
    if files.any fun f => f.path == path then gather files rest
    else
      let file ← readFile path
      gather (files ++ [file]) (Directory.imports file ++ rest)

def now : IO Moment := do
  let time ← try Std.Time.PlainTime.now catch _ => pure Std.Time.PlainTime.midnight
  return ⟨time.hour.val.toNat, time.minute.val.toNat, Float.ofNat (← IO.monoNanosNow) / 1000000000⟩

partial def readLine (input : IO.FS.Stream) (line : ByteArray) : IO ByteArray := do
  let byte ← input.read 1
  if byte.isEmpty || byte[0]? == some Input.newline then return line ++ byte
  else readLine input (line ++ byte)

partial def readAll (input : IO.FS.Stream) (bytes : ByteArray) : IO ByteArray := do
  let more ← input.read 65536
  if more.isEmpty then return bytes else readAll input (bytes ++ more)

def readMore (input : Input) : IO Input := do
  let stream ← IO.getStdin
  if ← stream.isTty then
    let line ← readLine stream ByteArray.empty
    return ⟨input.bytes ++ line.toList, line.isEmpty⟩
  else return ⟨input.bytes ++ (← readAll stream ByteArray.empty).toList, true⟩

def put (stream : IO.FS.Stream) (bytes : ByteArray) : IO Unit := do
  stream.write bytes
  stream.flush

def putSince (shown : Nat) (written : ByteArray) : IO Unit := do
  put (← IO.getStdout) (written.extract shown written.size)

def putErrors (errors : String) : IO Unit := do
  put (← IO.getStderr) errors.toUTF8

-- What was shown before is the beginning of what is written when the run is made again.
partial def follow (request : Request) (directory : Directory) (input : Input) (line : Timeline)
    (shown : Nat) : IO UInt32 := do
  let report := request.report ⟨directory, input, line.clock, depth⟩
  putSince shown report.written
  match report.status with
  | .awaitingInput =>
    let input ← readMore input
    follow request directory input (line.add report.readings (← now)) report.written.size
  | .exhausted => return 1
  | .exited code =>
    putErrors report.errors
    return code.toUInt32

-- A turn that lacks input is taken again from its start.
partial def converse (s : Session) (line : Timeline) (shown : Nat) : IO UInt32 := do
  let directory ← gather [] (Repl.nextImports s)
  let s := { s with
    library := directory.library
    machine := { s.machine with clock := line.clock } }
  let t := Repl.turn depth s
  let written := t.session.machine.output.written
  putSince shown written
  let next := line.add t.session.machine.readings (← now)
  match t.status with
  | none =>
    putErrors t.errors
    let machine := { t.session.machine with output := .unlimited }
    converse { t.session with machine := machine } next 0
  | some .awaitingInput =>
    converse (Repl.withInput s (← readMore s.machine.input)) next written.size
  | some .exhausted => return 1
  | some (.exited code) =>
    putErrors t.errors
    return code.toUInt32

def createLog : IO (Option String) := do
  try
    IO.FS.writeBinFile logName ByteArray.empty
    return none
  catch failure => return some (reasonOf failure)

def perform (request : Request) : IO UInt32 := do
  let failure ← if request.logs then createLog else pure none
  let line : Timeline := ⟨← now, []⟩
  let input : Input := ⟨[], false⟩
  match failure, request with
  | some reason, _ =>
    putErrors (unmadeLog reason).errors
    return 1
  | none, .execute .repl _ =>
    converse (.start (.initial .unlimited input line.clock) (Directory.library ⟨[], []⟩)) line 0
  | none, request => follow request (← gather [] request.file?.toList) input line 0

end ScopeScript.CommandLine

def main (arguments : List String) : IO UInt32 :=
  ScopeScript.CommandLine.perform (.ofArguments arguments)
