import PthreadBenchmark.MulthreadServer.Model
import Mathlib.Data.Int.Notation

/-! # The table of clients of `multhread_server.c`

`thread_connect` takes clients in and lets them go. The events that `epoll_wait` reports are given,
each with what the calls return for it. The socket and the `epoll` instance have been made. -/

namespace PthreadBenchmark.MulthreadServer.Clients

open CString

/-- What a successful `read` has put into `str`. -/
structure Data where
  str : List UInt8
  pos : 0 < str.length
  le_size : str.length ≤ strSize

/-- An event of the socket `fd`. `accepted` and `epollCtl` are what `accept` and the `epoll_ctl`
behind it return if it is the listening one; otherwise `read` is what is read, if anything is. -/
structure Event where
  fd : ℤ
  accepted : ℤ
  epollCtl : ℤ
  read : Option Data

/-- `isOpen` and `registered` are what the kernel knows of a descriptor. `given` and `refused` are
history: whether the descriptor has been given a slot since it was accepted, and the tables in which
none was found. -/
structure Connections where
  clients : ℕ → ℤ
  isOpen : ℤ → Bool
  registered : ℤ → Bool
  given : ℤ → Bool
  refused : List (ℕ → ℤ)

namespace Connections

variable (c : Connections)

def accept (fd : ℤ) : Connections := { c with isOpen := Function.update c.isOpen fd true }

def save (n : ℕ) (fd : ℤ) : Connections :=
  { c with
    clients := Function.update c.clients n fd
    given := Function.update c.given fd true }

def refuse : Connections := { c with refused := c.refused ++ [c.clients] }

def add (fd : ℤ) : Connections := { c with registered := Function.update c.registered fd true }

def clear (j : ℕ) : Connections := { c with clients := Function.update c.clients j 0 }

/-- A closed descriptor is no longer registered. -/
def close (fd : ℤ) : Connections :=
  { c with
    isOpen := Function.update c.isOpen fd false
    registered := Function.update c.registered fd false
    given := Function.update c.given fd false }

end Connections

/-- `writes` is history: each descriptor that `thread_proc` has written to, and whether it was
open. -/
structure Shared where
  msg : List UInt8
  connections : Connections
  writes : List (ℤ × Bool)

/-- Where `thread_connect` is. The result of `epoll_ctl` goes along with the descriptor. `exited` is
behind the `exit` of the process. -/
inductive Connect where
  | memset
  | next
  | saveLock (fd epollCtl : ℤ)
  | save (n : ℕ) (fd epollCtl : ℤ)
  | saveUnlock (saved : Bool) (fd epollCtl : ℤ)
  | add (fd epollCtl : ℤ)
  | clearLock (fd : ℤ)
  | clear (j : ℕ) (fd : ℤ)
  | clearUnlock (fd : ℤ)
  | close (fd : ℤ)
  | copyLock (d : Data)
  | copy (d : Data)
  | copyUnlock
  | exited

/-- `thread_connect` has the events to come at hand. -/
inductive Point where
  | connect (place : Connect) (events : List Event)
  | procLock
  | procTest
  | procWrite (i len : ℕ)
  | procUnlock
  | routeLock
  | routePrint
  | routeUnlock

/-- `accept` fails, or returns a positive descriptor that is not open. Other events are of sockets
that have been registered. -/
def Permits (listenfd : ℤ) (c : Connections) (e : Event) : Prop :=
  if e.fd = listenfd then e.accepted = -1 ∨ 0 < e.accepted ∧ c.isOpen e.accepted = false
  else c.registered e.fd = true

instance (listenfd : ℤ) (c : Connections) (e : Event) : Decidable (Permits listenfd c e) :=
  inferInstanceAs (Decidable
    (if e.fd = listenfd then e.accepted = -1 ∨ 0 < e.accepted ∧ c.isOpen e.accepted = false
    else c.registered e.fd = true))

/-- Without an event that may come `thread_connect` stays in `epoll_wait`. -/
def threadConnect (listenfd : ℤ) (s : Shared) (events : List Event) :
    Connect → Op Tid Shared Point Mutex Empty
  | .memset => .run { s with connections := { s.connections with clients := fun _ => 0 } }
      (.connect .next events)
  | .next =>
    match events with
    | [] => .halt
    | e :: events =>
      if Permits listenfd s.connections e then
        if e.fd = listenfd then
          if e.accepted = -1 then .run s (.connect .next events)
          else .run { s with connections := s.connections.accept e.accepted }
            (.connect (.saveLock e.accepted e.epollCtl) events)
        else
          match e.read with
          | none => .run s (.connect (.clearLock e.fd) events)
          | some d => .run s (.connect (.copyLock d) events)
      else .halt
  | .saveLock fd epollCtl => .lock .mut (.connect (.save 0 fd epollCtl) events)
  | .save n fd epollCtl =>
    if n < maxClients then
      if s.connections.clients n = 0 then
        .run { s with connections := s.connections.save n fd }
          (.connect (.saveUnlock true fd epollCtl) events)
      else .run s (.connect (.save (n + 1) fd epollCtl) events)
    else .run { s with connections := s.connections.refuse }
      (.connect (.saveUnlock false fd epollCtl) events)
  | .saveUnlock saved fd epollCtl =>
    .unlock .mut (.connect (if saved then .add fd epollCtl else .close fd) events)
  | .add fd epollCtl =>
    if epollCtl = -1 then .run s (.connect .exited events)
    else .run { s with connections := s.connections.add fd } (.connect .next events)
  | .clearLock fd => .lock .mut (.connect (.clear 0 fd) events)
  | .clear j fd =>
    if j < maxClients then
      if s.connections.clients j = fd then
        .run { s with connections := s.connections.clear j } (.connect (.clearUnlock fd) events)
      else .run s (.connect (.clear (j + 1) fd) events)
    else .run s (.connect (.clearUnlock fd) events)
  | .clearUnlock fd => .unlock .mut (.connect (.close fd) events)
  | .close fd =>
    .run { s with connections := s.connections.close fd } (.connect .next events)
  | .copyLock d => .lock .mut (.connect (.copy d) events)
  | .copy d =>
    .run { s with msg := strncpy s.msg d.str d.str.length } (.connect .copyUnlock events)
  | .copyUnlock => .unlock .mut (.connect .next events)
  | .exited => .halt

/-- `write(clients[i], msg, len)`. -/
def writeClient (s : Shared) (i : ℕ) : Shared :=
  let fd := s.connections.clients i
  { s with writes := s.writes ++ [(fd, s.connections.isOpen fd)] }

def code (listenfd : ℤ) (s : Shared) : Point → Op Tid Shared Point Mutex Empty
  | .connect place events => threadConnect listenfd s events place
  | .procLock => .lock .mut .procTest
  | .procTest => .run s (if 0 < strlen s.msg then .procWrite 0 (strlen s.msg) else .procUnlock)
  | .procWrite i len =>
    if i < maxClients then
      .run (if 0 < s.connections.clients i then writeClient s i else s) (.procWrite (i + 1) len)
    else .run { s with msg := List.replicate msgSize 0 } .procUnlock
  | .procUnlock => .unlock .mut .procLock
  | .routeLock => .lock .mut .routePrint
  | .routePrint => .run s .routeUnlock
  | .routeUnlock => .unlock .mut .routeLock

def start (events : List Event) : Tid → Point
  | .connect => .connect .memset events
  | .proc => .procLock
  | .route => .routeLock

/-- Global arrays start with zeros, and the listening socket is open. -/
def initial (listenfd : ℤ) : Shared where
  msg := List.replicate msgSize 0
  connections :=
    { clients := fun _ => 0
      isOpen := fun fd => fd == listenfd
      registered := fun _ => false
      given := fun _ => false
      refused := [] }
  writes := []

def program (listenfd : ℤ) (events : List Event) :
    System (Config Tid Shared Point Mutex Empty) (Action Tid) :=
  Pthread.program (code listenfd) (initial listenfd) (start events)

end PthreadBenchmark.MulthreadServer.Clients
