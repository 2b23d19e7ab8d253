import KeyChain.Command.Run
import KeyChain.Crypto.ChaCha20
/-! The command `kcfs` on an operating system. Each request of a program is carried out as it comes;
   all decisions are made by the programs themselves. The vault is a directory of its own with a file
   for every root, and random bytes are the key stream of a key that the system draws. -/
namespace KeyChain

/-- The error that a number of the system stands for; some interfaces give it negated. -/
def SystemError.ofNumber (word : UInt32) (reason : String) : SystemError :=
  match word.toInt32.toInt.natAbs with
  | 2 => .noSuchFile
  | 5 => .inputOutput
  | 11 => .wouldBlock
  | 13 => .permissionDenied
  | 17 => .fileExists
  | 20 => .notADirectory
  | 21 => .isADirectory
  | 30 => .readOnly
  | 36 => .nameTooLong
  | 40 => .tooManyLinks
  | number => .numbered number reason

def SystemError.ofFailure : IO.Error → SystemError
  | .alreadyExists _ n reason | .otherError n reason | .resourceBusy n reason
  | .resourceVanished n reason | .unsupportedOperation n reason | .hardwareFault n reason
  | .unsatisfiedConstraints n reason | .illegalOperation n reason | .protocolError n reason
  | .timeExpired n reason | .interrupted _ n reason | .noFileOrDirectory _ n reason
  | .invalidArgument _ n reason | .permissionDenied _ n reason | .resourceExhausted _ n reason
  | .inappropriateType _ n reason | .noSuchThing _ n reason => .ofNumber n reason
  | .unexpectedEof => .inputOutput
  | .userError reason => .numbered 0 reason

/-- The stream of a key, which no one repeats. -/
def RandomSource.keyed (key : FixedBytes 32) : RandomSource :=
  ⟨fun i => (ChaCha20.block key (i / 64) (FixedBytes.zero 12)).getD (i % 64) 0, 0⟩

/-- The location that a path without dots and links names. -/
def Location.ofPath (p : Path) : Location :=
  ⟨p.parts.filterMap fun
    | .name text => some text
    | _ => none⟩

/-- What the requests of a running program need. -/
structure Session where
  /-- Locks that are held, each as long as its handle is kept. -/
  locks : IO.Ref (List (LockId × IO.FS.Handle))
  nextLock : IO.Ref Nat
  vault : Path

namespace Session

variable {α : Type}

/-- The outcome of an action, its failure as an error of the system. -/
def attempt (action : IO α) : IO (Except SystemError α) :=
  try return .ok (← action) catch e => return .error (.ofFailure e)

/-- The outcome of an action, its failure as a fault of the vault. -/
def attemptVault (action : IO α) : IO (Except VaultFault α) :=
  try return .ok (← action) catch e => return .error (.failed (SystemError.ofFailure e).message)

def succeeds (action : IO α) : IO Bool := return (← attempt action).toBool

/-- The file of a root in the vault, named by the root's bytes. -/
def entryPath (s : Session) (root : String) : Path := s.vault.join (Bytes.utf8 root).toHex

def lockFile (s : Session) (path : Path) (mode : LockMode) : IO LockId := do
  let handle ← IO.FS.Handle.mk path.text .append
  handle.lock (mode == .exclusive)
  let lock : LockId := ⟨← s.nextLock.modifyGet fun n => (n, n + 1)⟩
  s.locks.modify fun held => (lock, handle) :: held
  return lock

def writeBytes (path : Path) (content : Bytes) : IO Unit :=
  IO.FS.writeBinFile path.text (ByteArray.mk content.toArray)

def readEntry (s : Session) (root : String) : IO (Except VaultFault String) := do
  match ← attempt (IO.FS.readBinFile (s.entryPath root).text) with
  | .error .noSuchFile => return .error .noEntry
  | .error e => return .error (.failed e.message)
  | .ok content =>
    match Bytes.text? content.toList with
    | some text => return .ok text
    | none => return .error (.failed SystemError.invalidText.message)

def removeEntry (s : Session) (root : String) : IO (Except VaultFault Unit) := do
  match ← attempt (IO.FS.removeFile (s.entryPath root).text) with
  | .error .noSuchFile => return .error .noEntry
  | .error e => return .error (.failed e.message)
  | .ok _ => return .ok ()

/-- A line that is typed behind a prompt, or none at the end of the input. -/
def readLine (text : String) : IO (Option String) := do
  IO.eprint text
  let line ← (← IO.getStdin).getLine
  return if line = "" then none else some (String.ofList (line.toList.filter (· ≠ '\n')))

/-- Carries out a request. -/
def respond (s : Session) : (r : Request) → IO r.Response
  | .realPath p => attempt do return Location.ofPath ⟨(← IO.FS.realPath p.text).toString⟩
  | .isPresent p => succeeds (IO.FS.realPath p.text)
  | .isDirectory p => succeeds (IO.FS.realPath (p.text ++ "/."))
  | .read p => attempt do return (← IO.FS.readBinFile p.text).toList
  | .lock p mode => attempt (s.lockFile p mode)
  | .unlock lock => s.locks.modify fun held => held.filter fun h => h.1 != lock
  | .create p => attempt (writeBytes p [])
  | .write p content => attempt (writeBytes p content)
  | .rename p q => attempt (IO.FS.rename p.text q.text)
  | .openEntry _ => attemptVault (IO.FS.createDirAll s.vault.text)
  | .getEntry root => s.readEntry root
  | .setEntry root text => attemptVault (writeBytes (s.entryPath root) (Bytes.utf8 text))
  | .deleteEntry root => s.removeEntry root
  | .prompt text => readLine text
  | .print line => IO.println line
  | .complain complaint => IO.eprintln complaint.message

/-- Runs a program, request by request. -/
def perform (s : Session) : Program α → IO α
  | .done a => return a
  | .call r next => do
    let response ← s.respond r
    perform s (next response)

end Session

/-- A random source with a fresh key. -/
def freshSource : IO RandomSource := do
  match FixedBytes.ofBytes? 32 (← IO.getRandomBytes 32).toList with
  | some key => return RandomSource.keyed key
  | none => throw (IO.userError "no random bytes")

/-- Runs the command that the arguments make; the result is the exit status. -/
def runCommandLine (args : List String) : IO UInt32 := do
  let env : Environment :=
    ⟨← IO.getEnv "KCFS_CONFIG", ← IO.getEnv "KCFS_LOG", ← IO.getEnv "KCFS_LOG_FORMAT"⟩
  let home := (← IO.getEnv "HOME").getD "/"
  let session : Session := ⟨← IO.mkRef [], ← IO.mkRef 0, Path.join ⟨home⟩ ".kcfs-vault"⟩
  let status ← session.perform (runArguments env args (← freshSource))
  return status.toUInt32

end KeyChain

def main (args : List String) : IO UInt32 := KeyChain.runCommandLine args
