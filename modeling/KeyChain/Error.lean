import KeyChain.Algorithm
import KeyChain.Base64
import KeyChain.KeyId
import KeyChain.Path
/-! What can go wrong, as causes. The wording of every cause is in one function for its type, and
   `KeychainError.isInvalidInput` tells errors of the input from errors of the surroundings. -/
namespace KeyChain

/-- A refusal of the operating system. -/
inductive SystemError where
  | noSuchFile
  | inputOutput
  | wouldBlock
  | permissionDenied
  | fileExists
  | notADirectory
  | isADirectory
  | readOnly
  | nameTooLong
  | tooManyLinks
  /-- Any other refusal, by its number. -/
  | numbered (number : Nat) (reason : String)
  /-- The file is not text. -/
  | invalidText
  /-- The character that ends names is in the middle of one. -/
  | nulInName
  deriving DecidableEq, Repr

def SystemError.message : SystemError → String
  | noSuchFile => "No such file or directory (os error 2)"
  | inputOutput => "Input/output error (os error 5)"
  | wouldBlock => "Resource temporarily unavailable (os error 11)"
  | permissionDenied => "Permission denied (os error 13)"
  | fileExists => "File exists (os error 17)"
  | notADirectory => "Not a directory (os error 20)"
  | isADirectory => "Is a directory (os error 21)"
  | readOnly => "Read-only file system (os error 30)"
  | nameTooLong => "File name too long (os error 36)"
  | tooManyLinks => "Too many levels of symbolic links (os error 40)"
  | numbered number reason => s!"{reason} (os error {number})"
  | invalidText => "stream did not contain valid UTF-8"
  | nulInName => "file name contained an unexpected NUL byte"

/-- Whether the system refuses because nothing can be written: the permission is missing, for which it has two
    numbers, or the medium can only be read. -/
def SystemError.barsWriting : SystemError → Bool
  | permissionDenied | readOnly => true
  | numbered number _ => number == 1
  | _ => false

/-- Costs at which a passphrase cannot be stretched. -/
inductive CostFault where
  | memoryTooSmall
  | timeTooSmall
  | tooFewLanes
  | tooManyLanes
  deriving DecidableEq, Repr

def CostFault.message : CostFault → String
  | memoryTooSmall => "memory cost is too small"
  | timeTooSmall => "time cost is too small"
  | tooFewLanes => "not enough threads"
  | tooManyLanes => "too many threads"

/-- One end of a range of decoy counts. -/
inductive Bound where
  | lower
  | upper
  deriving DecidableEq, Repr

def Bound.name : Bound → String
  | lower => "lower"
  | upper => "upper"

/-- Malformed parameters, noticed before a store is touched. -/
inductive UsageFault where
  | iterationsNotPositive (count : Int)
  | iterationsOutOfRange (count : Int)
  | keyfileRequired
  | emptyPassphrase
  | unreadableKeyfile (path : Path) (cause : SystemError)
  | cost (fault : CostFault)
  | readOnlyStore (path : Path)
  | noDecoys
  | bound (which : Bound) (value : Int)
  | crossedBounds (min max : Nat)
  | notADirectory (path : Path)
  /-- A fault in the words of whoever noticed it. -/
  | described (text : String)
  deriving DecidableEq, Repr

def UsageFault.message : UsageFault → String
  | iterationsNotPositive count => s!"invalid iterations argument: {count}"
  | iterationsOutOfRange count => s!"iterations out of range: {count}"
  | keyfileRequired => "a keyfile is required when the passphrase is suppressed"
  | emptyPassphrase => "passphrase must not be empty"
  | unreadableKeyfile path cause => s!"cannot read keyfile {path}: {cause.message}"
  | cost fault => s!"invalid Argon2id params: {fault.message}"
  | readOnlyStore path => s!"key chain store {path} is open read-only"
  | noDecoys => "decoy count must be positive"
  | bound which value => s!"invalid {which.name} bound argument: {value}"
  | crossedBounds min max => s!"invalid arguments: lower bound ({min}) >= upper bound ({max})"
  | notADirectory path => s!"not a directory: {path}"
  | described text => text

/-- Why a link does not give a key. -/
inductive LinkFault where
  | wrongSize (count : Nat)
  | undecryptable
  | unknownTag (tag : UInt8)
  | described (text : String)
  deriving DecidableEq, Repr

/-- Bytes of a link record. -/
def recordSize : Nat := 113

def LinkFault.message : LinkFault → String
  | wrongSize count => s!"link record has wrong size: {count} bytes (expected {recordSize})"
  | undecryptable => "link decryption failed: wrong key or corrupted record"
  | unknownTag tag => s!"unknown algorithm tag {tag.toNat}"
  | described text => text

/-- What a sound store never shows. -/
inductive Corruption where
  /-- Two secrets with one identifier. -/
  | collision (id : KeyId)
  | identifierMismatch (parent child : KeyId)
  | loop (tail child : KeyId)
  | recordLength (parent : KeyId) (count : Nat)
  | badIdentifier (name : String)
  | badBase64 (parent : KeyId) (fault : Base64.Fault)
  /-- The file is no store document; the complaint is the reader's. -/
  | malformed (path : Path) (complaint : String)
  | unsupportedVersion (path : Path) (version : Nat)
  | described (text : String)
  deriving DecidableEq, Repr

def Corruption.message : Corruption → String
  | collision id => s!"key identifier collision: {id}"
  | identifierMismatch parent child => s!"identifier mismatch in link {parent} -> {child}"
  | loop tail child => s!"key chain loop: {tail} -> {child}"
  | recordLength parent count =>
    s!"link record for {parent} has {count} bytes (expected {recordSize})"
  | badIdentifier name => s!"invalid key identifier: {name}"
  | badBase64 parent fault => s!"link record for {parent}: {fault.message}"
  | malformed path complaint => s!"parsing {path}: {complaint}"
  | unsupportedVersion path version => s!"{path}: unsupported store version {version}"
  | described text => text

/-- What a keyring, or the vault that keeps its entry, refuses. -/
inductive KeyringFault where
  | alreadyInstalled (id : KeyId)
  | full
  | entryUnavailable (cause : String)
  /-- The entry is no keyring document; the complaint is the reader's. -/
  | malformedEntry (root : String) (complaint : String)
  | unreadableEntry (root cause : String)
  | unknownAlgorithm (name : String)
  | badSecret (fault : Base64.Fault)
  | secretLength
  | badBinding (path : Path)
  | notDeleted (cause : String)
  | notStored (cause : String)
  | described (text : String)
  deriving DecidableEq, Repr

def KeyringFault.message : KeyringFault → String
  | alreadyInstalled id => s!"key {id} is already installed"
  | full => "keyring full"
  | entryUnavailable cause => s!"keychain entry creation: {cause}"
  | malformedEntry root complaint => s!"keychain entry for '{root}': {complaint}"
  | unreadableEntry root cause => s!"keychain get for '{root}': {cause}"
  | unknownAlgorithm name => s!"unknown algorithm '{name}'"
  | badSecret fault => s!"stored key: {fault.message}"
  | secretLength => "stored key has the wrong length"
  | badBinding path => s!"stored binding for {path}"
  | notDeleted cause => s!"keychain delete: {cause}"
  | notStored cause => s!"keychain store: {cause}"
  | described text => text

/-- What the cryptographic operations refuse. -/
inductive CryptoFault where
  /-- No word of the random source is acceptable. -/
  | randomExhausted
  | described (text : String)
  deriving DecidableEq, Repr

def CryptoFault.message : CryptoFault → String
  | randomExhausted => "random source exhausted"
  | described text => text

/-- Any failure of a key chain operation. -/
inductive KeychainError where
  | usage (fault : UsageFault)
  | unsupportedAlgorithm (name : String) (valid : List Algorithm)
  | invalidChain (id : KeyId) (fault : LinkFault)
  | chainExists (parent child : KeyId)
  | notFound (id : KeyId)
  | corrupted (what : Corruption)
  | store (path : Path) (cause : SystemError)
  | keyring (fault : KeyringFault)
  | crypto (fault : CryptoFault)
  deriving DecidableEq, Repr

namespace KeychainError

def message : KeychainError → String
  | usage fault => s!"usage error: {fault.message}"
  | unsupportedAlgorithm name valid =>
    let names := ", ".intercalate (valid.map Algorithm.name)
    s!"unsupported algorithm: {name} (valid: {names})"
  | invalidChain id fault => s!"invalid key chain at {id}: {fault.message}"
  | chainExists parent child => s!"key chain is already set: {parent} -> {child}"
  | notFound id => s!"key chain not found: {id}"
  | corrupted what => s!"key chain store corrupted: {what.message}"
  | store path cause => s!"key chain store {path}: {cause.message}"
  | keyring fault => s!"keyring error: {fault.message}"
  | crypto fault => s!"crypto error: {fault.message}"

/-- Whether bad input is to blame, and not the surroundings or the parameters. -/
def isInvalidInput : KeychainError → Bool
  | unsupportedAlgorithm .. | invalidChain .. | chainExists .. | notFound .. | corrupted .. => true
  | _ => false

end KeychainError

end KeyChain
