import CDbK8s.Base.Bytes

/-!
# The start of the containers

The launcher and the containers as processes. Each `move` of a process is its next
system call, with the outcome that the kernel gives it; a schedule is any sequence of
moves, signals and deaths of containers. A pipe is the bytes that were written and not
read, and its ends are counted from the processes that hold them: a container starts with
a copy of every descriptor the launcher has at that moment.

`sync_pipe_read` and `sync_pipe_write` are modelled call by call, because a process can
die between the byte and the `close` that follows it.
-/

namespace CDbK8s.Launch

open Base

/-! ## Synchronisation over a pipe -/

def LAU_ERR : Int := -1

def LAU_EOF : Int := -2

def LAU_INTR : Int := -3

def LAU_PIPE : Int := -4

/-- How a system call ends. -/
inductive Outcome where
  | ok
  | intr
  | fail
deriving DecidableEq

/-- What a function does in one system call: it waits, goes on, or returns. -/
inductive Move (α : Type) where
  | blocked
  | goto (pc : α)
  | returns (rc : Int)

/-- Where `sync_pipe_read` is: before the `read`, or before the `close`, with the number of
bytes read. -/
inductive ReadPc where
  | read
  | close (nr : Nat)
deriving DecidableEq

/-- `sync_pipe_read`. The end of the file is read only when the pipe is empty and has no
writer. -/
def syncPipeRead (pipe : Bytes) (writers run : Bool) : ReadPc → Outcome → Move ReadPc
  | .read, .ok =>
    if pipe ≠ [] then .goto (.close 1) else if writers then .blocked else .goto (.close 0)
  | .read, .intr => if !run then .returns LAU_INTR else .goto .read
  | .read, .fail => .returns LAU_ERR
  | .close nr, .ok => if nr = 0 then .returns LAU_EOF else .returns 0
  | .close _, _ => .returns LAU_ERR

/-- Where `sync_pipe_write` is. -/
inductive WritePc where
  | write
  | close
deriving DecidableEq

/-- `sync_pipe_write`. The error is `LAU_PIPE` whatever `errno` says, because it is
assigned where it should be compared. -/
def syncPipeWrite (readers run : Bool) : WritePc → Outcome → Move WritePc
  | .write, .ok => if readers then .goto .close else .returns LAU_PIPE
  | .write, .intr => if !run then .returns LAU_INTR else .goto .write
  | .write, .fail => .returns LAU_PIPE
  | .close, .ok => .returns 0
  | .close, _ => .returns LAU_ERR

/-! ## The processes -/

/-- The two pipes of a container. -/
inductive Chan where
  | go
  | ready
deriving DecidableEq

/-- The descriptors of `struct lau_child`. -/
inductive End where
  | goRead
  | goWrite
  | readyRead
  | readyWrite
deriving DecidableEq

/-- The processes: the launcher and the containers. -/
inductive Proc where
  | lau
  | child (j : Nat)
deriving DecidableEq

/-- Where `lau_child_start` is. `exited` has the code of `_exit`. -/
inductive ChildPc where
  | unborn
  | identity
  | closeReadyRead
  | closeGoWrite
  | waitGo (pc : ReadPc)
  | rootfs
  | proc
  | network
  | sendReady (pc : WritePc)
  | closeRange
  | priv
  | exec
  | running
  | exited (code : Nat)
  | killed
deriving DecidableEq

/-- Where the launcher is: in `lau_start_all`, in `lau_link_veths`, in `lau_sync_inorder`,
or behind it. -/
inductive LauPc where
  | clone (i : Nat)
  | closeGoRead (i : Nat)
  | closeReadyWrite (i : Nat)
  | link
  | sendGo (i : Nat) (pc : WritePc)
  | waitReady (i : Nat) (pc : ReadPc)
  | sleep (i : Nat)
  | synced
  | failed
deriving DecidableEq

/-- What has happened: a byte was written, `child_wait_go` returned 0, a step of the setup
was completed, the program was executed. -/
inductive Event where
  | wrote (i : Nat) (c : Chan)
  | passedGo (i : Nat)
  | setRootfs (i : Nat)
  | setProc (i : Nat)
  | setNetwork (i : Nat)
  | executed (i : Nat)
deriving DecidableEq

/-- The system. `run` is `sig->run` of each process; `trace` is a history. -/
structure Sys where
  lau : LauPc
  child : Nat → ChildPc
  pipe : Nat → Chan → Bytes
  holds : Proc → Nat → End → Bool
  run : Proc → Bool
  trace : List Event

/-! ## Changes of the system -/

/-- Some process has this end of a pipe open. -/
def Sys.held (n : Nat) (s : Sys) (i : Nat) (e : End) : Bool :=
  s.holds .lau i e || (List.range n).any fun j => s.holds (.child j) i e

/-- `close` of a descriptor. -/
def Sys.release (s : Sys) (p : Proc) (i : Nat) (e : End) : Sys :=
  { s with holds := fun p' i' e' => if p' = p ∧ i' = i ∧ e' = e then false else s.holds p' i' e' }

/-- `close` of all descriptors of a process. -/
def Sys.releaseAll (s : Sys) (p : Proc) : Sys :=
  { s with holds := fun p' i e => if p' = p then false else s.holds p' i e }

def Sys.setPipe (s : Sys) (i : Nat) (c : Chan) (bytes : Bytes) : Sys :=
  { s with pipe := fun i' c' => if i' = i ∧ c' = c then bytes else s.pipe i' c' }

def Sys.gotoChild (s : Sys) (j : Nat) (pc : ChildPc) : Sys :=
  { s with child := Function.update s.child j pc }

def Sys.gotoLau (s : Sys) (pc : LauPc) : Sys := { s with lau := pc }

def Sys.happened (s : Sys) (e : Event) : Sys := { s with trace := s.trace ++ [e] }

/-- `_exit` of a container. -/
def Sys.exit (s : Sys) (j : Nat) (code : Nat) : Sys :=
  (s.releaseAll (.child j)).gotoChild j (.exited code)

/-- A child exits where a call fails. -/
def Sys.orExit (s : Sys) (j : Nat) (code : Nat) (o : Outcome) (done : Sys) : Sys :=
  match o with
  | .ok => done
  | _ => s.exit j code

/-- The launcher fails where a call fails. -/
def Sys.orFail (s : Sys) (o : Outcome) (done : Sys) : Sys :=
  match o with
  | .ok => done
  | _ => s.gotoLau .failed

/-- What a system call of `sync_pipe_read` does to the pipe and the descriptor. -/
def Sys.reading (s : Sys) (p : Proc) (i : Nat) (c : Chan) (e : End) (pc : ReadPc) : Sys :=
  match pc with
  | .read => s.setPipe i c (s.pipe i c).tail
  | .close _ => s.release p i e

/-- What a system call of `sync_pipe_write` does: the byte is written, or the descriptor
closed. -/
def Sys.writing (s : Sys) (p : Proc) (i : Nat) (c : Chan) (e : End) (pc : WritePc) : Sys :=
  match pc with
  | .write => (s.setPipe i c (s.pipe i c ++ [33])).happened (.wrote i c)
  | .close => s.release p i e

/-! ## The programs -/

variable (n : Nat) (needNetwork : Nat → Bool)

/-- The next system call of `lau_child_start`. -/
def childStep (s : Sys) (j : Nat) (o : Outcome) : Sys :=
  match s.child j with
  | .unborn => s
  | .identity => s.orExit j 1 o (s.gotoChild j .closeReadyRead)
  | .closeReadyRead =>
    s.orExit j 2 o ((s.release (.child j) j .readyRead).gotoChild j .closeGoWrite)
  | .closeGoWrite =>
    s.orExit j 2 o ((s.release (.child j) j .goWrite).gotoChild j (.waitGo .read))
  | .waitGo pc =>
    match syncPipeRead (s.pipe j .go) (s.held n j .goWrite) (s.run (.child j)) pc o with
    | .blocked => s
    | .goto .read => s
    | .goto pc' => (s.reading (.child j) j .go .goRead pc).gotoChild j (.waitGo pc')
    | .returns rc =>
      if rc ≠ 0 then s.exit j 2
      else ((s.reading (.child j) j .go .goRead pc).happened (.passedGo j)).gotoChild j .rootfs
  | .rootfs => s.orExit j 3 o ((s.happened (.setRootfs j)).gotoChild j .proc)
  | .proc => s.orExit j 4 o ((s.happened (.setProc j)).gotoChild j .network)
  | .network =>
    if needNetwork j then
      s.orExit j 5 o ((s.happened (.setNetwork j)).gotoChild j (.sendReady .write))
    else (s.happened (.setNetwork j)).gotoChild j (.sendReady .write)
  | .sendReady pc =>
    match syncPipeWrite (s.held n j .readyRead) (s.run (.child j)) pc o with
    | .blocked => s
    | .goto .write => s
    | .goto pc' => (s.writing (.child j) j .ready .readyWrite pc).gotoChild j (.sendReady pc')
    | .returns rc =>
      if rc ≠ 0 then s.exit j 6
      else (s.writing (.child j) j .ready .readyWrite pc).gotoChild j .closeRange
  | .closeRange => s.orExit j 7 o ((s.releaseAll (.child j)).gotoChild j .priv)
  | .priv => s.orExit j 8 o (s.gotoChild j .exec)
  | .exec => s.orExit j 9 o ((s.happened (.executed j)).gotoChild j .running)
  | .running => s
  | .exited _ => s
  | .killed => s

/-- `clone`: the container gets a copy of the descriptors and of `sig->run`. -/
def Sys.clone (s : Sys) (i : Nat) : Sys :=
  { s with
    child := Function.update s.child i .identity
    holds := fun p i' e => if p = .child i then s.holds .lau i' e else s.holds p i' e
    run := fun p => if p = .child i then s.run .lau else s.run p }

/-- The head of the loop in `lau_sync_inorder`. -/
def syncHead (i : Nat) : LauPc := if i < n then .sendGo i .write else .synced

/-- The head of the second loop in `lau_start_all`. -/
def startHead (i : Nat) : LauPc := if i < n then .clone i else .link

/-- The next system call of the launcher. Behind `lau_sync_inorder` it writes no byte; what
it does is to close its descriptors. -/
def lauStep (s : Sys) (o : Outcome) : Sys :=
  match s.lau with
  | .clone i => s.orFail o ((s.clone i).gotoLau (.closeGoRead i))
  | .closeGoRead i => s.orFail o ((s.release .lau i .goRead).gotoLau (.closeReadyWrite i))
  | .closeReadyWrite i =>
    s.orFail o ((s.release .lau i .readyWrite).gotoLau (startHead n (i + 1)))
  | .link => s.orFail o (s.gotoLau (syncHead n 0))
  | .sendGo i pc =>
    match syncPipeWrite (s.held n i .goRead) (s.run .lau) pc o with
    | .blocked => s
    | .goto .write => s
    | .goto pc' => (s.writing .lau i .go .goWrite pc).gotoLau (.sendGo i pc')
    | .returns rc =>
      if rc ≠ 0 then s.gotoLau .failed
      else (s.writing .lau i .go .goWrite pc).gotoLau (.waitReady i .read)
  | .waitReady i pc =>
    match syncPipeRead (s.pipe i .ready) (s.held n i .readyWrite) (s.run .lau) pc o with
    | .blocked => s
    | .goto .read => s
    | .goto pc' => (s.reading .lau i .ready .readyRead pc).gotoLau (.waitReady i pc')
    | .returns rc =>
      if rc ≠ 0 then s.gotoLau .failed
      else (s.reading .lau i .ready .readyRead pc).gotoLau (.sleep i)
  | .sleep i => s.gotoLau (syncHead n (i + 1))
  | .synced => s.releaseAll .lau
  | .failed => s.releaseAll .lau

/-- What can happen next: a system call of a process, a signal that ends `sig->run`, or the
death of a container. -/
inductive Act where
  | move (p : Proc) (o : Outcome)
  | signal (p : Proc)
  | kill (j : Nat)
deriving DecidableEq

/-- A child dies; its descriptors are closed. -/
def Sys.kill (s : Sys) (j : Nat) : Sys :=
  match s.child j with
  | .unborn => s
  | .exited _ => s
  | _ => (s.releaseAll (.child j)).gotoChild j .killed

/-- One step of the system. -/
def step (s : Sys) : Act → Sys
  | .move .lau o => lauStep n s o
  | .move (.child j) o => childStep n needNetwork s j o
  | .signal p => { s with run := fun p' => if p' = p then false else s.run p' }
  | .kill j => s.kill j

/-- The launcher after `lau_child_prep` of all `n` containers: it has both ends of their
pipes. -/
def prepared : Sys :=
  { lau := startHead n 0, child := fun _ => .unborn, pipe := fun _ _ => []
    holds := fun p i _ => match p with | .lau => decide (i < n) | .child _ => false
    run := fun _ => true, trace := [] }

end CDbK8s.Launch
