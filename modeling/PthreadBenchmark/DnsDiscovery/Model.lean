import PthreadBenchmark.Shared.CString
import PthreadBenchmark.Shared.Pthread

/-! # The threads of `dns-discovery.c`

Each thread copies the word list, whose position in the file all threads share, and looks up each of
its words in the domain. What it finds it prints as a block of lines. -/

namespace PthreadBenchmark.DnsDiscovery

open CString

abbrev Text : Type := List UInt8

/-- `sizeof line` -/
def lineSize : ℕ := 256

/-- `sizeof hostname` -/
def hostnameSize : ℕ := 512

/-- What `fgets` takes from the rest of a file: at most `n` bytes, and no more than a line. -/
def fgets : ℕ → Text → Text
  | 0, _ => []
  | _ + 1, [] => []
  | n + 1, c :: rest => if c = 10 then [c] else c :: fgets n rest

/-- What `chomp` leaves of a string: the bytes before the first `\n` or `\r`. -/
def chomp (str : Text) : Text := (text str).takeWhile fun c => c ≠ 10 && c ≠ 13

/-- `"%s.%s"` -/
def hostname (line domain : Text) : Text := snprintf hostnameSize (chomp line ++ 46 :: text domain)

/-- An address as `inet_ntop` prints it. -/
inductive Address where
  | inet (str : Text)
  | inet6 (str : Text)
  deriving DecidableEq, Repr

/-- The lines `"%s\n"`, `"IPv%d address: %s\n"` and `"\n"`. -/
inductive Line where
  | hostname (str : Text)
  | address (a : Address)
  | blank
  deriving DecidableEq, Repr

/-- `resolve_lookup` prints a line for each address and a blank one. -/
def addressLines (addresses : List Address) : List Line := addresses.map .address ++ [.blank]

/-- Points of a thread. `copy` is `local_wordlist`, `rest` what is still to be read of it and
`calls` the number of its calls of `getaddrinfo`. -/
inductive Point where
  | lock
  | rewind
  | fgets (copy : Text)
  | fputs (copy line : Text)
  | unlock (copy : Text)
  | loop (rest : Text) (calls : ℕ)
  | lockBlock (host : Text) (addresses : List Address) (rest : Text) (calls : ℕ)
  | printHost (host : Text) (addresses : List Address) (rest : Text) (calls : ℕ)
  | report (line : Line) (todo : List Line) (rest : Text) (calls : ℕ)
  | print (todo : List Line) (rest : Text) (calls : ℕ)
  | exited
  deriving DecidableEq, Repr

structure Thread (threads : ℕ) where
  id : Fin threads
  point : Point
  deriving DecidableEq, Repr

/-- The position in `wordlist` and what has been printed. `blocks` are the blocks that have been
begun; it is history. -/
structure Shared (threads : ℕ) where
  position : ℕ
  stdout : List Line
  report : Option (List Line)
  blocks : List (Fin threads × List Line)
  deriving DecidableEq, Repr

inductive Mutex where
  | mutexsum
  deriving DecidableEq, Repr

/-- `getaddrinfo`, which may find something else at each call of each thread. -/
abbrev Resolve (threads : ℕ) : Type := Fin threads → ℕ → Text → Option (List Address)

/-- `dns_discovery_thread`, with `dns_discovery` and `resolve_lookup` in it. -/
def code {ι : Type} {threads : ℕ} (wordlist domain : Text) (resolve : Resolve threads)
    (s : Shared threads) :
    Thread threads → Op ι (Shared threads) (Thread threads) Mutex Empty
  | ⟨i, .lock⟩ => .lock .mutexsum ⟨i, .rewind⟩
  | ⟨i, .rewind⟩ => .run { s with position := 0 } ⟨i, .fgets []⟩
  | ⟨i, .fgets copy⟩ =>
    let line := fgets (lineSize - 1) (wordlist.drop s.position)
    .run { s with position := s.position + line.length }
      ⟨i, if line = [] then .unlock copy else .fputs copy line⟩
  | ⟨i, .fputs copy line⟩ => .run s ⟨i, .fgets (copy ++ text line)⟩
  | ⟨i, .unlock copy⟩ => .unlock .mutexsum ⟨i, .loop copy 0⟩
  | ⟨i, .loop rest calls⟩ =>
    let line := fgets (lineSize - 1) rest
    let host := hostname line domain
    if line = [] then .run s ⟨i, .exited⟩
    else
      match resolve i calls host with
      | none => .run s ⟨i, .loop (rest.drop line.length) (calls + 1)⟩
      | some addresses =>
        .run s ⟨i, .lockBlock host addresses (rest.drop line.length) (calls + 1)⟩
  | ⟨i, .lockBlock host addresses rest calls⟩ =>
    .lock .mutexsum ⟨i, .printHost host addresses rest calls⟩
  | ⟨i, .printHost host addresses rest calls⟩ =>
    let todo := addressLines addresses
    .run { s with
        stdout := s.stdout ++ [.hostname host]
        blocks := s.blocks ++ [(i, .hostname host :: todo)] }
      ⟨i, .report (.hostname host) todo rest calls⟩
  | ⟨i, .report line todo rest calls⟩ =>
    .run { s with report := s.report.map fun lines => lines ++ [line] } ⟨i, .print todo rest calls⟩
  | ⟨i, .print (line :: todo) rest calls⟩ =>
    .run { s with stdout := s.stdout ++ [line] } ⟨i, .report line todo rest calls⟩
  | ⟨i, .print [] rest calls⟩ => .unlock .mutexsum ⟨i, .loop rest calls⟩
  | ⟨_, .exited⟩ => .halt

/-- The threads of `main`. `report` says whether there is a report file. -/
def program {threads : ℕ} (wordlist domain : Text) (resolve : Resolve threads) (report : Bool) :
    System (Config (Fin threads) (Shared threads) (Thread threads) Mutex Empty)
      (Action (Fin threads)) :=
  Pthread.program (code wordlist domain resolve) ⟨0, [], if report then some [] else none, []⟩
    fun i => ⟨i, .lock⟩

/-- All threads have returned. -/
def AllExited {threads : ℕ}
    (c : Config (Fin threads) (Shared threads) (Thread threads) Mutex Empty) : Prop :=
  ∀ i, c.threads i = .running ⟨i, .exited⟩

/-! ## One thread on its own -/

/-- The calls of `fgets` on a file, `n` at most. -/
def readLines : ℕ → Text → List Text
  | 0, _ => []
  | n + 1, rest =>
    let line := fgets (lineSize - 1) rest
    if line = [] then [] else line :: readLines n (rest.drop line.length)

/-- The lines of a file as `fgets` reads them. -/
def fileLines (file : Text) : List Text := readLines file.length file

/-- What a thread copies. -/
def copied (wordlist : Text) : Text := ((fileLines wordlist).map text).flatten

/-- The blocks that a thread prints for the lines, after `calls` calls of `getaddrinfo`. -/
def blocksOf {threads : ℕ} (domain : Text) (resolve : Resolve threads) (i : Fin threads) :
    ℕ → List Text → List (List Line)
  | _, [] => []
  | calls, line :: lines =>
    match resolve i calls (hostname line domain) with
    | none => blocksOf domain resolve i (calls + 1) lines
    | some addresses =>
      (.hostname (hostname line domain) :: addressLines addresses) ::
        blocksOf domain resolve i (calls + 1) lines

end PthreadBenchmark.DnsDiscovery
