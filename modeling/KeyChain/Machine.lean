import KeyChain.Disk
import KeyChain.Program
/-! A machine that programs run on, as a value: a disk, the locks that are held on its files, a vault
   of entries by root, a terminal with answers to come, and what was shown. Any kind of request can
   be set to fail. Main statement: running two programs one after the other is running the second
   where the first ended (`run_bind`). -/
namespace KeyChain

/-- Requests to the disk that can be set to fail. -/
structure DiskFaults where
  lock : Option SystemError := none
  read : Option SystemError := none
  create : Option SystemError := none
  write : Option SystemError := none
  rename : Option SystemError := none

/-- Requests to the vault that can be set to fail. -/
structure VaultFaults where
  opening : Option String := none
  getting : Option String := none
  setting : Option String := none
  deleting : Option String := none

/-- A lock that is held: on the file of a serial number. -/
structure HeldLock where
  id : LockId
  serial : Nat
  mode : LockMode
  deriving DecidableEq

structure Machine where
  disk : Disk
  locks : List HeldLock
  nextLock : Nat
  diskFaults : DiskFaults
  vault : OrderedMap String String
  vaultFaults : VaultFaults
  /-- What will be typed at the next prompts; `none` stands for a terminal that fails. -/
  answers : List (Option String)
  prompts : List String
  lines : List String
  complaints : List Complaint

namespace Machine

/-- A machine that has just been switched on. -/
def new (disk : Disk) : Machine :=
  ⟨disk, [], 0, {}, OrderedMap.empty, {}, [], [], [], []⟩

/-- Whether a lock on a file would be granted at once: a shared one beside shared ones, an exclusive
    one alone. -/
def grants (m : Machine) (serial : Nat) : LockMode → Bool
  | .shared => m.locks.all fun l => l.serial != serial || l.mode == .shared
  | .exclusive => m.locks.all fun l => l.serial != serial

/-- Whether a lock on a file that is there would be granted at once. -/
def probe (m : Machine) (path : Path) (mode : LockMode) : Except SystemError Bool :=
  match m.disk.locate .target path with
  | .error e => .error e
  | .ok ⟨_, some (.file serial _)⟩ => .ok (m.grants serial mode)
  | .ok ⟨_, some _⟩ => .error .isADirectory
  | .ok ⟨_, none⟩ => .error .noSuchFile

/-- Lets a request fail that is set to fail. -/
def barring {ε α : Type} (fault : Option ε) (outcome : Except ε α) : Except ε α :=
  match fault with
  | some e => .error e
  | none => outcome

/-- The machine with a changed disk, if the change succeeded. -/
def onDisk (m : Machine) : Except SystemError Disk → Except SystemError Unit × Machine
  | .ok disk => (.ok (), { m with disk := disk })
  | .error e => (.error e, m)

/-- A lock on the file at a path. One that would have to be waited for is refused. -/
def lockFile (m : Machine) (path : Path) (mode : LockMode) : Except SystemError LockId × Machine :=
  match barring m.diskFaults.lock (m.disk.openFile path id) with
  | .error e => (.error e, m)
  | .ok (disk, serial) =>
    if m.grants serial mode then
      let lock : LockId := ⟨m.nextLock⟩
      (.ok lock,
        { m with disk := disk, locks := ⟨lock, serial, mode⟩ :: m.locks, nextLock := m.nextLock + 1 })
    else (.error .wouldBlock, { m with disk := disk })

/-- The response to a request, and the machine after it. -/
def answer (m : Machine) : (r : Request) → r.Response × Machine
  | .realPath p => (m.disk.realPath p, m)
  | .isPresent p => (m.disk.isPresent p, m)
  | .isDirectory p => (m.disk.isDirectory p, m)
  | .read p => (barring m.diskFaults.read (m.disk.read p), m)
  | .lock p mode => m.lockFile p mode
  | .unlock lock => ((), { m with locks := m.locks.filter fun l => l.id != lock })
  | .create p => m.onDisk (barring m.diskFaults.create (m.disk.create p))
  | .write p content => m.onDisk (barring m.diskFaults.write (m.disk.write p content))
  | .rename p q => m.onDisk (barring m.diskFaults.rename (m.disk.rename p q))
  | .openEntry _ => (barring (m.vaultFaults.opening.map .failed) (.ok ()), m)
  | .getEntry root =>
    let entry : Except VaultFault String :=
      match m.vault.get? root with
      | some text => .ok text
      | none => .error .noEntry
    (barring (m.vaultFaults.getting.map .failed) entry, m)
  | .setEntry root text =>
    match m.vaultFaults.setting with
    | some cause => (.error (.failed cause), m)
    | none => (.ok (), { m with vault := m.vault.insert root text })
  | .deleteEntry root =>
    match m.vaultFaults.deleting with
    | some cause => (.error (.failed cause), m)
    | none =>
      match m.vault.get? root with
      | none => (.error .noEntry, m)
      | some _ => (.ok (), { m with vault := m.vault.erase root })
  | .prompt text =>
    (m.answers.head?.join, { m with answers := m.answers.tail, prompts := m.prompts ++ [text] })
  | .print line => ((), { m with lines := m.lines ++ [line] })
  | .complain complaint => ((), { m with complaints := m.complaints ++ [complaint] })

end Machine

namespace Program

variable {α β : Type}

/-- Runs a program on a machine. -/
def run : Program α → Machine → α × Machine
  | done a, m => (a, m)
  | call r next, m =>
    let (response, m) := m.answer r
    (next response).run m

@[simp] theorem run_done (a : α) (m : Machine) : (done a).run m = (a, m) := rfl

@[simp] theorem run_pure (a : α) (m : Machine) : (pure a : Program α).run m = (a, m) := rfl

theorem run_request (r : Request) (m : Machine) : (request r).run m = m.answer r := rfl

theorem run_bind (p : Program α) (f : α → Program β) (m : Machine) :
    (p >>= f).run m = (f (p.run m).1).run (p.run m).2 := by
  induction p generalizing m with
  | done a => rfl
  | call r next ih => exact ih (m.answer r).1 (m.answer r).2

end Program

end KeyChain
