import Prgsem.Shared.CMemory
import Prgsem.Shared.Monitor

/-!
# Three threads around one `SharedData`

The terminal program that counts in a changeable period: `computeThread` sleeps and
counts, `outputThread` waits for it on the condition variable and prints,
`inputThread` reads keys, and `main` joins the three. Every access to `*data`, every
operation on `mtx` and `condvar` and every call that prints, sleeps or reads is a
step of its own.
-/

namespace Prgsem.Threads

open CMemory Monitor
set_option autoImplicit false

/-- The threads, in the order of `main`'s `enum`. -/
inductive Thread where
  | compute
  | output
  | input
  deriving DecidableEq, Repr

instance : Fintype Thread where
  elems := {.compute, .output, .input}
  complete := fun t => by cases t <;> simp

structure SharedData where
  period : Int
  counter : Int
  quit : Bool
  is_serial_open : Bool
  deriving DecidableEq, Repr

def MS : Int := 1000

def PERIOD_THREAD : Int := 300

def myDEVICE : String := "/dev/ttyS4"

def initData : SharedData := ⟨PERIOD_THREAD, 0, false, false⟩

/-- What the calls outside the program return. -/
structure Env where
  serialOpen : Int
  getchar : Int
  deriving DecidableEq, Repr

inductive Event where
  | line (text : String)
  /-- `"\rCounter %10i, period: %10i"`. -/
  | counter (tmp per : Int)
  /-- `"\rMain thread finished, counter: - %4i\n"`. -/
  | finished (counter : Int)
  | slept (useconds : Int)
  | opened (fd : Int)
  | closed (fd : Int)
  deriving DecidableEq, Repr

/-- The value of an `int` expression. -/
def intValue (x : Int) : Except CMemory.Fault Int :=
  if -intMax - 1 ≤ x ∧ x ≤ intMax then .ok x else .error .overflow

abbrev Action (Place : Type) := Monitor.Action CMemory.Fault SharedData Event Place

/-! ## `computeThread` -/

inductive ComputePc where
  | loop
  | lockPeriod
  | readPeriod
  | unlockPeriod
  | sleep
  | lockCounter
  | count
  | signal
  | readQuit
  | unlockCounter
  | finished
  deriving DecidableEq, Repr

structure Compute where
  pc : ComputePc
  q : Bool
  per : Int
  deriving DecidableEq, Repr

def computeThread (l : Compute) : Action Compute :=
  match l.pc with
  | .loop =>
    .plain (.ok (if l.q then
      ({ l with pc := .finished }, some (.line "\rCompute thread finished\n"))
    else ({ l with pc := .lockPeriod }, none)))
  | .lockPeriod => .lock { l with pc := .readPeriod }
  | .readPeriod => .access fun data => .ok (data, { l with pc := .unlockPeriod, per := data.period })
  | .unlockPeriod => .unlock { l with pc := .sleep }
  | .sleep => .plain do
    let useconds ← intValue (l.per * MS)
    return ({ l with pc := .lockCounter }, some (.slept useconds))
  | .lockCounter => .lock { l with pc := .count }
  | .count => .access fun data => do
    let counter ← intValue (data.counter + 1)
    return ({ data with counter := counter }, { l with pc := .signal })
  | .signal => .signal { l with pc := .readQuit }
  | .readQuit => .access fun data => .ok (data, { l with pc := .unlockCounter, q := data.quit })
  | .unlockCounter => .unlock { l with pc := .loop }
  | .finished => .stop

/-! ## `outputThread` -/

inductive OutputPc where
  | info
  | open
  | testOpen
  | lockFailed
  | setQuit
  | unlockFailed
  | lockOpen
  | setOpen
  | unlockOpen
  | loop
  | lockWait
  | wait
  | asleep
  | woken
  | readCounter
  | readPeriod
  | readQuit
  | unlockWait
  | print
  | close
  | leave
  | finished
  deriving DecidableEq, Repr

structure Output where
  pc : OutputPc
  fd : Int
  q : Bool
  tmp : Int
  per : Int
  deriving DecidableEq, Repr

def outputThread (env : Env) (l : Output) : Action Output :=
  match l.pc with
  | .info => .plain (.ok ({ l with pc := .open },
      some (.line ("INFO: open serial port at " ++ myDEVICE ++ "\n"))))
  | .open =>
    .plain (.ok ({ l with pc := .testOpen, fd := env.serialOpen }, some (.opened env.serialOpen)))
  | .testOpen =>
    .plain (.ok (if l.fd = -1 then
      ({ l with pc := .lockFailed },
        some (.line ("\rERROR: Cannot open device " ++ myDEVICE ++ "\n")))
    else ({ l with pc := .lockOpen }, none)))
  | .lockFailed => .lock { l with pc := .setQuit }
  | .setQuit => .access fun data => .ok ({ data with quit := true }, { l with pc := .unlockFailed })
  | .unlockFailed => .unlock { l with pc := .lockOpen }
  | .lockOpen => .lock { l with pc := .setOpen }
  | .setOpen =>
    .access fun data => .ok ({ data with is_serial_open := true }, { l with pc := .unlockOpen })
  | .unlockOpen => .unlock { l with pc := .loop }
  | .loop => .plain (.ok ({ l with pc := if l.q then .close else .lockWait }, none))
  | .lockWait => .lock { l with pc := .wait }
  | .wait => .wait { l with pc := .asleep }
  -- in `pthread_cond_wait`
  | .asleep => .stop
  | .woken => .lock { l with pc := .readCounter }
  | .readCounter => .access fun data => .ok (data, { l with pc := .readPeriod, tmp := data.counter })
  | .readPeriod => .access fun data => .ok (data, { l with pc := .readQuit, per := data.period })
  | .readQuit => .access fun data => .ok (data, { l with pc := .unlockWait, q := data.quit })
  | .unlockWait => .unlock { l with pc := .print }
  | .print =>
    .plain (.ok ({ l with pc := .loop }, if l.q then none else some (.counter l.tmp l.per)))
  | .close =>
    .plain (.ok ({ l with pc := .leave }, if l.fd = -1 then none else some (.closed l.fd)))
  | .leave => .plain (.ok ({ l with pc := .finished }, some (.line "\rOutput thread finished\n")))
  | .finished => .stop

/-! ## `inputThread` -/

inductive InputPc where
  | spin
  | lockOpen
  | readOpen
  | readOpenQuit
  | unlockOpen
  | loop
  | getchar
  | testQuit
  | lockQuit
  | setQuit
  | readQuit
  | unlockQuit
  | lockPeriod
  | readPeriod
  | switch
  | limitHigh
  | limitLow
  | compare
  | broadcast
  | unlockPeriod
  | finished
  deriving DecidableEq, Repr

structure Input where
  pc : InputPc
  qq : Bool
  q : Bool
  inC : UInt8
  per : Int
  deriving DecidableEq, Repr

def inputThread (env : Env) (l : Input) : Action Input :=
  match l.pc with
  | .spin => .plain (.ok ({ l with pc := if !l.qq && !l.q then .lockOpen else .loop }, none))
  | .lockOpen => .lock { l with pc := .readOpen }
  | .readOpen =>
    .access fun data => .ok (data, { l with pc := .readOpenQuit, qq := data.is_serial_open })
  | .readOpenQuit => .access fun data => .ok (data, { l with pc := .unlockOpen, q := data.quit })
  | .unlockOpen => .unlock { l with pc := .spin }
  | .loop =>
    .plain (.ok (if l.q then
      ({ l with pc := .finished }, some (.line "\rInput thread finished\n"))
    else ({ l with pc := .getchar }, none)))
  | .getchar => .plain (.ok ({ l with pc := .testQuit, inC := UInt8.ofInt env.getchar }, none))
  | .testQuit =>
    .plain (.ok ({ l with pc := if l.inC = 'q'.toUInt8 then .lockQuit else .lockPeriod }, none))
  | .lockQuit => .lock { l with pc := .setQuit }
  | .setQuit => .access fun data => .ok ({ data with quit := true }, { l with pc := .readQuit })
  | .readQuit => .access fun data => .ok (data, { l with pc := .unlockQuit, q := data.quit })
  | .unlockQuit => .unlock { l with pc := .lockPeriod }
  | .lockPeriod => .lock { l with pc := .readPeriod }
  | .readPeriod => .access fun data => .ok (data, { l with pc := .switch, per := data.period })
  | .switch => .access fun data => do
    if l.inC = 'p'.toUInt8 then
      let period ← intValue (data.period + 5)
      return ({ data with period := period }, { l with pc := .limitHigh })
    else if l.inC = 'm'.toUInt8 then
      let period ← intValue (data.period - 5)
      return ({ data with period := period }, { l with pc := .limitLow })
    else return (data, { l with pc := .compare })
  | .limitHigh => .access fun data =>
    .ok (if data.period > 2000 then { data with period := 2000 } else data,
      { l with pc := .compare })
  | .limitLow => .access fun data =>
    .ok (if data.period < 20 then { data with period := 20 } else data, { l with pc := .compare })
  | .compare => .access fun data =>
    .ok (data, { l with pc := if l.per ≠ data.period then .broadcast else .unlockPeriod })
  | .broadcast => .broadcast { l with pc := .unlockPeriod }
  | .unlockPeriod => .unlock { l with pc := .loop }
  | .finished => .stop

/-! ## The program -/

abbrev Place : Thread → Type
  | .compute => Compute
  | .output => Output
  | .input => Input

def program : Program CMemory.Fault Env SharedData Event Thread Place where
  action
    | _, .compute => computeThread
    | env, .output => outputThread env
    | env, .input => inputThread env
  woken
    | .output, l => if l.pc = .asleep then some { l with pc := .woken } else none
    | .compute, _ | .input, _ => none

/-- Where `main` is: at the `pthread_join` of the first of the threads that are left, or
behind its last `printf`. -/
inductive Main where
  | joining (threads : List Thread)
  | returned
  deriving DecidableEq, Repr

structure State where
  threads : Monitor.State SharedData Thread Place
  main : Main

namespace State
variable (s : State)

abbrev data : SharedData := s.threads.data

abbrev compute : Compute := s.threads.place .compute

abbrev output : Output := s.threads.place .output

abbrev input : Input := s.threads.place .input

/-- The thread has returned. -/
def Stopped : Thread → Prop
  | .compute => s.compute.pc = .finished
  | .output => s.output.pc = .finished
  | .input => s.input.pc = .finished

instance : DecidablePred s.Stopped
  | .compute => inferInstanceAs (Decidable (_ = _))
  | .output => inferInstanceAs (Decidable (_ = _))
  | .input => inferInstanceAs (Decidable (_ = _))

end State

inductive Move where
  | thread (move : Monitor.Move Env Thread)
  | main

/-- `main` reads `data.counter` without the mutex, so that no thread may still run. -/
def mainStep (s : State) : Except (Monitor.Fault CMemory.Fault) (State × Option Event) :=
  match s.main with
  | .joining (t :: left) => .ok (if s.Stopped t then { s with main := .joining left } else s, none)
  | .joining [] =>
    if ∀ t, s.Stopped t then .ok ({ s with main := .returned }, some (.finished s.data.counter))
    else .error .race
  | .returned => .ok (s, none)

def step (s : State) : Move → Except (Monitor.Fault CMemory.Fault) (State × Option Event)
  | .thread move => do
    let (threads, out) ← program.step s.threads move
    return ({ s with threads := threads }, out)
  | .main => mainStep s

/-- After the `pthread_create`s: a thread that is not created yet does not move yet. -/
def start : State where
  threads :=
    { data := initData
      owner := none
      place
        | .compute => ⟨.loop, false, 0⟩
        | .output => ⟨.info, 0, false, 0, 0⟩
        | .input => ⟨.spin, false, false, 0, 0⟩ }
  main := .joining [.compute, .output, .input]

end Prgsem.Threads
