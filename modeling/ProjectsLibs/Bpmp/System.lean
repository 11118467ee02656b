/-
Calls of `bpmp_call` against a BPMP that takes requests and answers each
of them once, in their order, as late as it likes.

The CPU is end `a` of an established IVC session, the BPMP end `b`. The
frames written by `a` are the requests, those written by `b` the
responses; as the BPMP answers in order, response `n` is the one to
request `n`. The session's history (`written` and `read` of both ends)
is the record of the exchange, and `calls` that of the calls.

# Timeouts

A call that gives up leaves its request in the channel, and the BPMP will
answer it. The answer is then in front of that to the next request, and
the next call takes it for its own. `System.backlog` counts the requests
that have been written and whose response no call has read, which is what
decides whether a call gets the response to its own request: at its start
the number has to be zero.

A step takes one action of one party, so the BPMP may answer at any time
between two iterations of the loop. The step of a call that cannot get a
frame to write ends the call as it does in the code.
-/
import ProjectsLibs.Ivc.System
import ProjectsLibs.Bpmp.Basic

namespace ProjectsLibs.Bpmp

open Lib Ivc

/-- A call that has returned. -/
structure Record where
  args : Args
  ret : Ret
  /-- the buffer `rx_msg` points to, after the call -/
  rxMsg : Option Bytes
  /-- the number of the request it wrote -/
  own : Option Nat
  /-- the number of the response it read -/
  used : Option Nat
  /-- requests written and not answered to a call when it started -/
  backlog : Nat

/-- Where the CPU is. -/
inductive Cpu
  | idle
  /-- in the loop, with `timeout` iterations left -/
  | polling (args : Args) (own backlog timeout : Nat)
  /-- behind the loop, with a frame -/
  | answered (args : Args) (own backlog : Nat) (frame : UInt32)

/-- The session, the running call and those that returned. -/
structure System where
  session : Ivc.System Bytes
  cpu : Cpu
  calls : List Record

/-- The requests written whose response no call has read. -/
def System.backlog (s : System) : Nat :=
  (s.session.ep .a).written.length - (s.session.ep .a).read.length

/-- Steps: of the CPU, and the BPMP taking a request or answering one. -/
inductive Act
  | start (args : Args)
  | poll
  | finish
  | take
  | respond (response : Bytes)

/-- A new call, up to its polling loop. -/
def startStep (s : System) (args : Args) : System :=
  match bpmpCallSend (s.session.ep .a).ivc (s.session.chan .a) args with
  | (some ret, ivc, tx) =>
      { s with
        session := (s.session.setTx .a tx).setEp .a
          { s.session.ep .a with ivc := ivc }
        calls := s.calls
          ++ [⟨args, ret, args.rxMsg, none, none, s.backlog⟩] }
  | (none, ivc, tx) =>
      { s with
        session := (s.session.setTx .a tx).setEp .a
          { s.session.ep .a with
            ivc := ivc
            held := none
            written := (s.session.ep .a).written
              ++ [tx.frames (s.session.ep .a).ivc.wPos.toNat] }
        cpu := .polling args (s.session.ep .a).written.length s.backlog
          timeoutThreshold }

/-- One iteration of the loop. -/
def pollStep (s : System) (args : Args) (own backlog timeout : Nat) :
    System :=
  match bpmpCallPoll (s.session.ep .a).ivc (s.session.chan .a)
      (s.session.chan .b) with
  | (res, ivc, tx, rx) =>
      let session := ((s.session.setTx .a tx).setRx .a rx).setEp .a
        { s.session.ep .a with ivc := ivc }
      match res with
      | .error ret =>
          { s with
            session := session
            cpu := .idle
            calls := s.calls
              ++ [⟨args, ret, args.rxMsg, some own, none, backlog⟩] }
      | .ok (some frame) =>
          { s with
            session := session, cpu := .answered args own backlog frame }
      | .ok none =>
          if timeout - 1 = 0 then
            { s with
              session := session
              cpu := .idle
              calls := s.calls
                ++ [⟨args, .etimedout, args.rxMsg, some own, none,
                  backlog⟩] }
          else
            { s with
              session := session
              cpu := .polling args own backlog (timeout - 1) }

/-- The end of a call that got a frame. -/
def finishStep (s : System) (args : Args) (own backlog : Nat)
    (frame : UInt32) : System :=
  match bpmpCallFinish (s.session.ep .a).ivc (s.session.chan .a)
      (s.session.chan .b) frame args with
  | (.ivc e, rxMsg, ivc, rx) =>
      { s with
        session := (s.session.setRx .a rx).setEp .a
          { s.session.ep .a with ivc := ivc }
        cpu := .idle
        calls := s.calls
          ++ [⟨args, .ivc e, rxMsg, some own, none, backlog⟩] }
  | (ret, rxMsg, ivc, rx) =>
      { s with
        session := (s.session.setRx .a rx).setEp .a
          { s.session.ep .a with
            ivc := ivc
            read := (s.session.ep .a).read
              ++ [(s.session.chan .b).frames frame.toNat] }
        cpu := .idle
        calls := s.calls
          ++ [⟨args, ret, rxMsg, some own,
            some (s.session.ep .a).read.length, backlog⟩] }

/-- The BPMP answers the oldest request it has taken and not answered,
when there is one and the channel has room. -/
def respondStep (s : System) (response : Bytes) : Option System :=
  if (s.session.ep .b).written.length < (s.session.ep .b).read.length then
    match tegraIvcWriteGetNextFrame (s.session.ep .b).ivc
        (s.session.chan .b) with
    | .error _ => none
    | .ok frame =>
        some { s with
          session := writeAdvanceStep
            (fillStep (writeGetStep s.session .b) .b frame.toNat response)
            .b }
  else none

/-- One step; `none` when it cannot be made. -/
def step (s : System) : Act → Option System
  | .start args =>
      match s.cpu with
      | .idle => some (startStep s args)
      | _ => none
  | .poll =>
      match s.cpu with
      | .polling args own backlog timeout =>
          some (pollStep s args own backlog timeout)
      | _ => none
  | .finish =>
      match s.cpu with
      | .answered args own backlog frame =>
          some (finishStep s args own backlog frame)
      | _ => none
  | .take => some { s with session := readAdvanceStep s.session .b }
  | .respond response => respondStep s response

end ProjectsLibs.Bpmp
