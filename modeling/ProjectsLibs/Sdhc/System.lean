/-
The driver in use: commands are sent, interrupts are handled, and the
callback of a command that has completed sends further commands.

# What a run is

An event is a command that is sent or an interrupt. The callback of a
command may send further commands while the handler runs, and these are
given with the interrupt, as is what the registers read; so a run is any
sequence of events, with any values of the registers. A command is a
record that the caller owns, and sending one again while the driver has
it would link it to itself; `step` asks for each to be sent once.

# What is to be shown of it

`Fifo` is the statement about a state: the commands that have completed,
followed by those that have not, are the commands in the order in which
they were sent, and the list of the driver holds exactly the second part.
It is kept by every step (`queue_fifo` in Proofs/Queue), with re-entrant
sends, as the handler removes a command from the list before it calls
back.
-/
import ProjectsLibs.Lib.Chain
import ProjectsLibs.Lib.Run
import ProjectsLibs.Sdhc.Basic

namespace ProjectsLibs.Sdhc

open Lib

/-- Send commands one after the other, each with its callback. -/
def sendAll (cs : List (CmdId × Option Callback)) (s : Host) :
    Except Fault Host :=
  cs.foldlM (fun s c => sdhcSendCmd s c.1 c.2) s

/-- What happens to the driver. -/
inductive Event
  | send (c : CmdId) (cb : Option Callback)
  /-- an interrupt; `subs` is what the callback sends if one is made -/
  | irq (i : Input) (subs : List (CmdId × Option Callback))

/-- The commands that an event may send. -/
def Event.sends : Event → List CmdId
  | .send c _ => [c]
  | .irq _ subs => subs.map Prod.fst

/-- A step of the driver. Commands are sent once. A step in which an
assertion fails has no outcome, and likewise one in which the handler
follows a NULL: that is a data segment or a buffer that is missing, and
never a link of the list (`step_total`). -/
def step (ndebug : Bool) (s : Host) (e : Event) : Option Host :=
  if (∀ c ∈ e.sends, c ∉ s.submitted) ∧ e.sends.Nodup then
    match e with
    | .send c cb =>
        match sdhcSendCmd s c cb with
        | .ok s' => some s'
        | .error _ => none
    | .irq i subs =>
        match sdhcHandleIrq ndebug (sendAll subs) s i with
        | .ok s' => some s'
        | .error _ => none
  else none

/-- The driver as `sdhc_init` leaves it. -/
structure Init (s : Host) : Prop where
  head : s.cmdListHead = none
  tail : s.cmdListTail = .head
  submitted : s.submitted = []
  started : s.started = []
  called : s.called = []
  reported : s.reported = []

/-- Every command is sent with a callback. -/
def WithCallback (_ : Host) : Event → Prop
  | .send _ cb => cb ≠ none
  | .irq _ subs => ∀ c ∈ subs, c.2 ≠ none

/-- The tail of a list of commands. -/
def tailOf (queue : List CmdId) : Tail :=
  match queue.getLast? with
  | none => .head
  | some c => .next c

/-- The list of commands is a queue: `done` have completed and `queue`
have not, in the order they were sent; the first of `queue` has been
issued. -/
structure Fifo (s : Host) (done queue : List CmdId) : Prop where
  submitted : s.submitted = done ++ queue
  nodup : (done ++ queue).Nodup
  linked : Leads (fun c => (s.cmds c).next) s.cmdListHead queue none
  tail : s.cmdListTail = tailOf queue
  started : s.started = done ++ queue.take 1
  pending : ∀ c ∈ queue, (s.cmds c).complete = 0
  completed : ∀ c ∈ done, (s.cmds c).complete ≠ 0

end ProjectsLibs.Sdhc
