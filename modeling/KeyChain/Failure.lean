import KeyChain.Error
/-! Failures of commands: a cause, what was being done, and the exit status that scripts expect. -/
namespace KeyChain

/-- What a command was doing when an operation failed. -/
inductive Task where
  | resolving (id : KeyId)
  | adding
  | binding (directory : Path)
  | flushing
  deriving DecidableEq, Repr

def Task.message : Task → String
  | resolving id => s!"resolving key chain for {id}"
  | adding => "cannot add key"
  | binding directory => s!"cannot set key for {directory}"
  | flushing => "cannot flush keys"

/-- Why no passphrase was read. -/
inductive PromptFault where
  | unreadable
  | mismatch
  deriving DecidableEq, Repr

def PromptFault.message : PromptFault → String
  | unreadable => "unable to read passphrase"
  | mismatch => "passphrases didn't match"

/-- Why a command ended early. -/
inductive Failure where
  | keychain (cause : KeychainError)
  /-- An operation of the library failed in the course of a task. -/
  | during (task : Task) (cause : KeychainError)
  | prompt (fault : PromptFault)
  | unreadableConfig (path : Path) (cause : SystemError)
  /-- The configuration is malformed; the complaint is the reader's. -/
  | malformedConfig (path : Path) (complaint : String)
  deriving DecidableEq, Repr

/-- The message of an error with that of its own cause behind it, which only store errors have. -/
def KeychainError.messages : KeychainError → String
  | store path cause => s!"{(store path cause).message}: {cause.message}"
  | e => e.message

/-- The exit status of an error. -/
def KeychainError.status : KeychainError → UInt8
  | usage _ => 2
  | store .. => 4
  | keyring _ | crypto _ => 5
  | _ => 3

namespace Failure

def message : Failure → String
  | keychain cause => cause.messages
  | during task cause => s!"{task.message}: {cause.messages}"
  | prompt fault => fault.message
  | unreadableConfig path cause => s!"reading config: {path}: {cause.message}"
  | malformedConfig path complaint => s!"parsing config: {path}: {complaint}"

/-- Usage faults give 2, invalid input 3, file errors 4, keyring and system errors 5. -/
def status : Failure → UInt8
  | keychain cause | during _ cause => cause.status
  | prompt _ => 3
  | unreadableConfig .. => 4
  | malformedConfig .. => 2

end Failure

/-- What the user is told on the error channel. -/
inductive Complaint where
  | failed (failure : Failure)
  | notDeleted (id : KeyId) (cause : KeychainError)
  /-- The arguments make no command. -/
  | arguments (text : String)
  deriving DecidableEq, Repr

def Complaint.message : Complaint → String
  | failed failure => s!"kcfs: {failure.message}"
  | notDeleted id cause => s!"kcfs: cannot delete key {id}: {cause.message}"
  | arguments text => s!"error: {text}"

end KeyChain
