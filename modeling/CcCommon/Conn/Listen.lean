import CcCommon.Conn.Server

/-! # conn/conn_epoll.cc: listenport

`errnoChk` takes a flag `halt` before the texts that make up the message. The
calls in `listenport` pass one text, which becomes the flag. The flags of
`fcntl` are those of Linux. -/

namespace CcCommon.Conn

set_option autoImplicit false

def O_NONBLOCK : BitVec 32 := 0x800

/-- What the system answers to the six calls. -/
structure ListenAnswers where
  socket : Ret
  setsockopt : Ret
  bind : Ret
  getfl : Ret
  setfl : Ret
  listen : Ret

def ListenAnswers.rets (a : ListenAnswers) : List Ret :=
  [a.socket, a.setsockopt, a.bind, a.getfl, a.setfl, a.listen]

def ListenAnswers.Succeed (a : ListenAnswers) : Prop := ∀ r ∈ a.rets, 0 ≤ r.val

inductive SysCall where
  | socket
  /-- `SO_REUSEADDR` is switched on. -/
  | setsockopt (fd : Int)
  | bind (fd : Int) (port : BitVec 16)
  | getfl (fd : Int)
  | setfl (fd : Int) (flags : BitVec 32)
  | listen (fd : Int) (backlog : Nat)
  deriving DecidableEq

/-- The calls of a `listenport` that none of them stops. -/
def ListenAnswers.calls (a : ListenAnswers) (port : Int) : List SysCall :=
  [.socket, .setsockopt a.socket.val, .bind a.socket.val (BitVec.ofInt 16 port),
    .getfl a.socket.val, .setfl a.socket.val (BitVec.ofInt 32 a.getfl.val ||| O_NONBLOCK),
    .listen a.socket.val 5]

/-- The sockets that are open, and the calls made so far. -/
structure Kernel where
  sockets : Finset Int
  calls : List SysCall

namespace Kernel

def call (k : Kernel) (c : SysCall) : Kernel := { k with calls := k.calls ++ [c] }

def socket (k : Kernel) (r : Ret) : Kernel :=
  { k with sockets := if 0 ≤ r.val then insert r.val k.sockets else k.sockets }.call .socket

theorem mem_socket {r : Ret} (h : 0 ≤ r.val) (k : Kernel) : r.val ∈ (k.socket r).sockets := by
  rw [socket, if_pos h]
  exact Finset.mem_insert_self r.val k.sockets

end Kernel

/-- What a function returned with `err`, or threw. -/
abbrev Returned := Except String (Int × String) × Kernel

/-- A string literal as a `bool`: its address is not null. -/
def boolOfLiteral (_text : String) : Bool := true

section Code

variable (strerror : Nat → String)

/-- `if(errnoChk(fd, err, text)) return -1;` in front of `rest`. -/
def chkReturn (fd : Ret) (err text : String) (k : Kernel) (rest : String → Returned) : Returned :=
  match errnoChk strerror fd err (boolOfLiteral text) "" "" with
  | .error what => (.error what, k)
  | .ok (true, err) => (.ok (-1, err), k)
  | .ok (false, err) => rest err

def listenport (a : ListenAnswers) (port : Int) (err : String) (k : Kernel) : Returned :=
  let k := k.socket a.socket
  let sockfd := a.socket.val
  chkReturn strerror a.socket err "ERROR: opening socket: " k fun err =>
  let k := k.call (.setsockopt sockfd)
  chkReturn strerror a.setsockopt err "ERROR: setting reuse-addr on socket: " k fun err =>
  let k := k.call (.bind sockfd (BitVec.ofInt 16 port))
  chkReturn strerror a.bind err "ERROR: binding socket: " k fun err =>
  let k := k.call (.getfl sockfd)
  chkReturn strerror a.getfl err "ERROR: Getting fcntl flags: " k fun err =>
  let i := BitVec.ofInt 32 a.getfl.val ||| O_NONBLOCK
  let k := k.call (.setfl sockfd i)
  chkReturn strerror a.setfl err "ERROR: Getting fcntl flags: " k fun err =>
  let k := k.call (.listen sockfd 5)
  chkReturn strerror a.listen err "ERROR: listening on  socket: " k fun err =>
  (.ok (sockfd, err), k)

/-- `Manager::open` leaves `listenfd_` as it is where `listenport` throws. -/
def managerOpen (a : ListenAnswers) (portno_ listenfd_ : Int) (err : String) (k : Kernel) :
    Int × Returned :=
  match listenport strerror a portno_ err k with
  | (.ok (fd, err), k) => (fd, .ok (fd, err), k)
  | (.error what, k) => (listenfd_, .error what, k)

end Code

/-! ## What becomes of a failure -/

section Failure

variable {strerror : Nat → String} {a : ListenAnswers} {err : String} {k : Kernel}

/-- A check passes, or throws what `errno` says and no more. -/
theorem chkReturn_cases {fd : Ret} {rest : String → Returned} (text : String) {P : Returned → Prop}
    (hFail : fd.val < 0 → P (.error (errnoStr strerror fd.errno "" ""), k))
    (hPass : 0 ≤ fd.val → P (rest err)) : P (chkReturn strerror fd err text k rest) := by
  rcases lt_or_ge fd.val 0 with hNeg | hPos
  · have hThrow : errnoChk strerror fd err (boolOfLiteral text) "" "" =
        .error (errnoStr strerror fd.errno "" "") := by
      rw [errnoChk, if_neg (Int.not_le.mpr hNeg), boolOfLiteral, if_pos rfl]
    rw [chkReturn, hThrow]
    exact hFail hNeg
  · rw [chkReturn, errnoChk, if_pos hPos]
    exact hPass hPos

/-- The `n`-th call failed after `n` others. It is the last one, and its text is thrown. -/
structure StoppedAt (strerror : Nat → String) (a : ListenAnswers) (port : Int) (k : Kernel)
    (r : Returned) (n : Nat) (fd : Ret) : Prop where
  at_n : a.rets[n]? = some fd
  fails : fd.val < 0
  before : ∀ ret ∈ a.rets.take n, 0 ≤ ret.val
  throws : r.1 = .error (errnoStr strerror fd.errno "" "")
  calls : r.2.calls = k.calls ++ (a.calls port).take (n + 1)

theorem StoppedAt.not_succeed {port : Int} {r : Returned} {n : Nat} {fd : Ret}
    (h : StoppedAt strerror a port k r n fd) : ¬ a.Succeed :=
  fun hAll => Int.not_le.mpr h.fails (hAll fd (List.mem_of_getElem? h.at_n))

/-- A socket that was created is open at the end, however the calls go on. -/
structure Listened (strerror : Nat → String) (a : ListenAnswers) (port : Int) (err : String)
    (k : Kernel) (r : Returned) : Prop where
  sockets : r.2.sockets = (k.socket a.socket).sockets
  result : (a.Succeed ∧ r.1 = .ok (a.socket.val, err) ∧ r.2.calls = k.calls ++ a.calls port) ∨
    ∃ n fd, StoppedAt strerror a port k r n fd

/-- The calls up to the `n`-th have been made, and those before it checked. -/
structure Made (a : ListenAnswers) (port : Int) (k : Kernel) (n : Nat) (k' : Kernel) : Prop where
  sockets : k'.sockets = (k.socket a.socket).sockets
  calls : k'.calls = k.calls ++ (a.calls port).take (n + 1)
  before : ∀ ret ∈ a.rets.take n, 0 ≤ ret.val

section Checks

variable {port : Int} {n : Nat} {k' : Kernel} {fd : Ret} {rest : String → Returned} {text : String}

theorem Made.check (h : Made a port k n k') (hAt : a.rets[n]? = some fd)
    (hRest : (∀ ret ∈ a.rets.take (n + 1), 0 ≤ ret.val) → Listened strerror a port err k (rest err)) :
    Listened strerror a port err k (chkReturn strerror fd err text k' rest) := by
  refine chkReturn_cases text (fun hNeg => ?_) fun hPos => hRest ?_
  · exact ⟨h.sockets, .inr ⟨n, fd, hAt, hNeg, h.before, rfl, h.calls⟩⟩
  · rw [List.take_add_one, hAt]
    intro ret hMem
    rcases List.mem_append.mp hMem with hBefore | hLast
    · exact h.before ret hBefore
    · rw [List.mem_singleton.mp hLast]
      exact hPos

/-- One check, and the next call. -/
theorem Made.next {c : SysCall} (h : Made a port k n k') (hAt : a.rets[n]? = some fd)
    (hCall : (a.calls port)[n + 1]? = some c)
    (hRest : Made a port k (n + 1) (k'.call c) → Listened strerror a port err k (rest err)) :
    Listened strerror a port err k (chkReturn strerror fd err text k' rest) := by
  refine h.check hAt fun hBefore => hRest ⟨h.sockets, ?_, hBefore⟩
  rw [Kernel.call, h.calls, List.take_add_one (i := n + 1), hCall, List.append_assoc]
  rfl

end Checks

theorem listenport_spec (strerror : Nat → String) (a : ListenAnswers) (port : Int) (err : String)
    (k : Kernel) : Listened strerror a port err k (listenport strerror a port err k) := by
  have hSocket : Made a port k 0 (k.socket a.socket) := ⟨rfl, rfl, by simp⟩
  refine hSocket.next rfl rfl fun hSetsockopt => ?_
  refine hSetsockopt.next rfl rfl fun hBind => ?_
  refine hBind.next rfl rfl fun hGetfl => ?_
  refine hGetfl.next rfl rfl fun hSetfl => ?_
  refine hSetfl.next rfl rfl fun hListen => ?_
  refine hListen.check rfl fun hAll => ?_
  exact ⟨hListen.sockets, .inl ⟨hAll, rfl, hListen.calls⟩⟩

theorem listenport_of_succeed (h : a.Succeed) (port : Int) :
    (listenport strerror a port err k).1 = .ok (a.socket.val, err) := by
  rcases (listenport_spec strerror a port err k).result with ⟨-, hOk, -⟩ | ⟨n, fd, hStop⟩
  · exact hOk
  · exact absurd h hStop.not_succeed

variable (strerror err k) in
/-- A call that fails is thrown, and a socket that was created before it stays open. -/
theorem listenport_of_not_succeed (h : ¬ a.Succeed) (port : Int) :
    (∃ what, (listenport strerror a port err k).1 = .error what) ∧
      (0 ≤ a.socket.val → a.socket.val ∈ (listenport strerror a port err k).2.sockets) := by
  have hSpec := listenport_spec strerror a port err k
  constructor
  · rcases hSpec.result with ⟨hAll, -⟩ | ⟨n, fd, hStop⟩
    · exact absurd hAll h
    · exact ⟨_, hStop.throws⟩
  · intro hPos
    rw [hSpec.sockets]
    exact Kernel.mem_socket hPos k

/-- The exception passes through `open`, so that no `listenfd_` refers to the socket. -/
theorem managerOpen_of_not_succeed (h : ¬ a.Succeed) (portno_ listenfd_ : Int) :
    ∃ what k', managerOpen strerror a portno_ listenfd_ err k = (listenfd_, .error what, k') := by
  obtain ⟨⟨what, hThrown⟩, -⟩ := listenport_of_not_succeed strerror err k h portno_
  obtain ⟨k', hPair⟩ : ∃ k', listenport strerror a portno_ err k = (.error what, k') :=
    ⟨_, Prod.ext hThrown rfl⟩
  exact ⟨what, k', by rw [managerOpen, hPair]⟩

end Failure

/-- Failure is reported through the result and `err`, and nothing leaks. -/
def ListenReports (strerror : Nat → String) (a : ListenAnswers) (port : Int) (err : String)
    (k : Kernel) : Prop :=
  ∃ fd err' k', listenport strerror a port err k = (.ok (fd, err'), k') ∧
    ((0 ≤ fd ∧ err' = err) ↔ a.Succeed) ∧
    (¬ a.Succeed → fd = -1 ∧ err' ≠ "" ∧ (0 ≤ a.socket.val → a.socket.val ∉ k'.sockets))

theorem listenReports_iff (strerror : Nat → String) (a : ListenAnswers) (port : Int) (err : String)
    (k : Kernel) : ListenReports strerror a port err k ↔ a.Succeed := by
  constructor
  · rintro ⟨fd, err', k', hReturns, -⟩
    by_contra hFails
    obtain ⟨⟨what, hThrown⟩, -⟩ := listenport_of_not_succeed strerror err k hFails port
    rw [hReturns] at hThrown
    cases hThrown
  · intro hAll
    have hSocket : 0 ≤ a.socket.val := hAll a.socket List.mem_cons_self
    refine ⟨a.socket.val, err, _, Prod.ext (listenport_of_succeed hAll port) rfl, ?_, ?_⟩
    · exact ⟨fun _ => hAll, fun _ => ⟨hSocket, rfl⟩⟩
    · exact fun hFails => absurd hAll hFails

/-- Socket 3 is created, and its port is in use. -/
theorem not_listenReports_inUse : ¬ ListenReports (fun _ => "Address already in use")
    ⟨⟨3, 0⟩, ⟨0, 0⟩, ⟨-1, 98⟩, ⟨0, 0⟩, ⟨0, 0⟩, ⟨0, 0⟩⟩ 9999 "" ⟨∅, []⟩ := by
  rintro ⟨fd, err', k', hReturns, -⟩
  cases hReturns

end CcCommon.Conn
