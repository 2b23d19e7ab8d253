import KeyChain.Failure
/-! Programs as data: a program is done, or it makes a request of its surroundings and goes on with
   the response. The same program runs against the operating system and against a machine that is
   itself a value (`Machine`), so what is proved of it there is about the one program there is. -/
namespace KeyChain

/-- How a store is locked while it is open: shared for look-ups, exclusive for changes. -/
inductive LockMode where
  | shared
  | exclusive
  deriving DecidableEq, Repr

/-- A lock that was granted. -/
structure LockId where
  number : Nat
  deriving DecidableEq, Repr

/-- Why the vault gives no entry. -/
inductive VaultFault where
  | noEntry
  | failed (cause : String)
  deriving DecidableEq, Repr

def VaultFault.message : VaultFault → String
  | noEntry => "No matching entry found in secure storage"
  | failed cause => cause

/-- What a program can ask of its surroundings. -/
inductive Request where
  /-- The place of a file, all links followed. -/
  | realPath (path : Path)
  | isPresent (path : Path)
  | isDirectory (path : Path)
  | read (path : Path)
  /-- A lock on a file, which is made if there is none. -/
  | lock (path : Path) (mode : LockMode)
  | unlock (lock : LockId)
  /-- An empty file, in place of the content of one that is there. -/
  | create (path : Path)
  | write (path : Path) (content : Bytes)
  | rename (source target : Path)
  /-- The vault's entry for a root is opened before it is used. -/
  | openEntry (root : String)
  | getEntry (root : String)
  | setEntry (root text : String)
  | deleteEntry (root : String)
  /-- A passphrase, typed behind a prompt. -/
  | prompt (text : String)
  | print (line : String)
  | complain (complaint : Complaint)
  deriving DecidableEq

/-- What each request is answered with. -/
def Request.Response : Request → Type
  | realPath _ => Except SystemError Location
  | isPresent _ | isDirectory _ => Bool
  | read _ => Except SystemError Bytes
  | lock .. => Except SystemError LockId
  | unlock _ => Unit
  | create _ | write .. | rename .. => Except SystemError Unit
  | openEntry _ | setEntry .. | deleteEntry _ => Except VaultFault Unit
  | getEntry _ => Except VaultFault String
  | prompt _ => Option String
  | print _ | complain _ => Unit

inductive Program (α : Type) where
  | done (value : α)
  | call (request : Request) (next : request.Response → Program α)

namespace Program

variable {α β : Type}

protected def bind : Program α → (α → Program β) → Program β
  | done a, f => f a
  | call r next, f => call r fun response => (next response).bind f

instance : Monad Program where
  pure := done
  bind := Program.bind

/-- One request. -/
def request (r : Request) : Program r.Response := call r done

/-! The requests as programs. -/

def realPath (path : Path) : Program (Except SystemError Location) := request (.realPath path)
def isPresent (path : Path) : Program Bool := request (.isPresent path)
def isDirectory (path : Path) : Program Bool := request (.isDirectory path)
def read (path : Path) : Program (Except SystemError Bytes) := request (.read path)
def lock (path : Path) (mode : LockMode) : Program (Except SystemError LockId) :=
  request (.lock path mode)
def unlock (lock : LockId) : Program Unit := request (.unlock lock)
def create (path : Path) : Program (Except SystemError Unit) := request (.create path)
def write (path : Path) (content : Bytes) : Program (Except SystemError Unit) :=
  request (.write path content)
def rename (source target : Path) : Program (Except SystemError Unit) :=
  request (.rename source target)
def openEntry (root : String) : Program (Except VaultFault Unit) := request (.openEntry root)
def getEntry (root : String) : Program (Except VaultFault String) := request (.getEntry root)
def setEntry (root text : String) : Program (Except VaultFault Unit) :=
  request (.setEntry root text)
def deleteEntry (root : String) : Program (Except VaultFault Unit) := request (.deleteEntry root)
def prompt (text : String) : Program (Option String) := request (.prompt text)
def print (line : String) : Program Unit := request (.print line)
def complain (complaint : Complaint) : Program Unit := request (.complain complaint)

@[simp] theorem pure_bind (a : α) (f : α → Program β) : (done a >>= f) = f a := rfl

@[simp] theorem call_bind (r : Request) (next : r.Response → Program α) (f : α → Program β) :
    (call r next >>= f) = call r fun response => next response >>= f := rfl

theorem bind_done (p : Program α) : (p >>= done) = p := by
  induction p with
  | done a => rfl
  | call r next ih => exact congrArg (call r) (funext ih)

theorem bind_assoc {γ : Type} (p : Program α) (f : α → Program β) (g : β → Program γ) :
    (p >>= f >>= g) = (p >>= fun a => f a >>= g) := by
  induction p with
  | done a => rfl
  | call r next ih => exact congrArg (call r) (funext ih)

end Program

end KeyChain
