import PhilzTouch.Adb.Packet
import PhilzTouch.Lib.Threads

/-!
# Sockets

The sockets of `minadbd/sockets.c`, `handle_packet` of `adb.c`, and the two threads of the daemon
that use sockets: the one that runs the event loop, and the input thread of the transport, which
closes sockets when the transport goes away.  A thread is stuck when it uses a socket that has been
freed, or reads a payload behind its end.
-/

namespace PhilzTouch.Adb

/-! ## The state -/

/-- Where a socket is allocated.  An address is not used twice. -/
abbrev Addr := Nat

/-- Which functions a socket has in `enqueue`, `ready` and `close`. -/
inductive Kind where
  | localSocket
  | remoteSocket
  deriving DecidableEq, Repr

/-- A packet in a queue: `len` bytes from `ptr` on have not been written yet. -/
structure Pending where
  payload : Bytes
  ptr : Nat
  len : Nat
  inside : ptr + len ≤ payload.length

/-- `asocket`; `fd` also stands for the descriptor in `fde`, and `ours` says that `transport` is
the transport of the daemon. -/
structure Sock where
  kind : Kind
  id : UInt32
  closing : Bool
  peer : Option Addr
  fd : Nat
  queue : List Pending
  ours : Bool

structure Message where
  command : UInt32
  arg0 : UInt32
  arg1 : UInt32
  payload : Bytes

/-- A message for the input thread to leave. -/
def Message.offline (message : Message) : Prop := message.command = aSync ∧ message.arg0 = 0

instance (message : Message) : Decidable message.offline := inferInstanceAs (Decidable (_ ∧ _))

/-- The lists that sockets are in. -/
inductive Chain where
  /-- `local_socket_list`. -/
  | locals
  /-- `local_socket_closing_list`. -/
  | closings
  /-- `disconnects` of the transport, whose entries are parts of remote sockets. -/
  | disconnects
  deriving DecidableEq, Repr

/-- What the threads share, but for the lock and what is on its way to the input thread. -/
structure World where
  sockets : Addr → Option Sock
  fresh : Addr
  /-- `local_socket_next_id`. -/
  nextId : UInt32
  chain : Chain → List Addr
  /-- `fd_table`. -/
  fdTable : Nat → Option Addr
  connection : ConnectionState
  product : Option Bytes
  /-- What the output thread has still to pass on. -/
  incoming : List Packet
  /-- The input thread has been told to leave. -/
  told : Bool
  /-- The transport has been freed. -/
  gone : Bool

inductive Thread where
  /-- The one that runs `fdevent_loop`. -/
  | main
  /-- `input_thread`. -/
  | input
  deriving DecidableEq, Repr

structure Shared where
  world : World
  /-- `socket_list_lock`. -/
  lock : Option Thread
  toInput : List Message
  /-- The input thread has left. -/
  left : Bool

/-! ## Operations -/

/-- A change of a field of a socket. -/
inductive Change where
  | peer (peer : Option Addr)
  | id (id : UInt32)
  | closing
  | queue (queue : List Pending)

def Change.apply (sock : Sock) (change : Change) : Sock :=
  match change with
  | .peer other => { sock with peer := other }
  | .id number => { sock with id := number }
  | .closing => { sock with closing := true }
  | .queue packets => { sock with queue := packets }

/-- Operations that only change sockets and lists, and fail if they meet a socket that has been
freed. -/
inductive Touch where
  | store (socket : Addr) (change : Change)
  /-- A function of `fdevent.c` that changes the events of interest. -/
  | events (socket : Addr)
  | insert (chain : Chain) (socket : Addr)
  /-- `remove_socket`. -/
  | removeSocket (socket : Addr)
  /-- `remove_transport_disconnect`. -/
  | removeDisconnect (socket : Addr)
  /-- `fdevent_install`. -/
  | install (socket : Addr)
  /-- `fdevent_remove`. -/
  | uninstall (socket : Addr)
  | free (socket : Addr)

/-- What `fdevent_loop` calls a function for. -/
inductive Event where
  | packet (packet : Packet)
  | ready (socket : Addr) (write read : Bool)
  /-- `transport_registration_func` with an action of 0. -/
  | removal

inductive Wrote where
  | count (count : Nat)
  /-- `EAGAIN`. -/
  | again
  | failed

/-- What a loop over `adb_read` gets: the bytes, and whether the end or an error came after. -/
structure Got where
  count : Nat
  eof : Bool

inductive Op where
  | load (socket : Addr)
  | touch (touch : Touch)
  | calloc (sock : Sock)
  | newId
  | first (chain : Chain)
  | next (chain : Chain) (socket : Addr)
  | length (chain : Chain)
  | lock
  | unlock
  | write (length : Nat)
  | read
  | createServiceThread
  | transport
  | connect (state : ConnectionState) (product : Option Bytes)
  | send (message : Message)
  | receive
  | leave
  | event
  | freeTransport

abbrev Reply : Op → Type
  | .load _ => Option Sock
  | .touch _ => Bool
  | .calloc _ => Addr
  | .newId => UInt32
  | .first _ => Option Addr
  | .next _ _ => Option (Option Addr)
  | .length _ => Nat
  | .lock => Unit
  | .unlock => Unit
  | .write _ => Wrote
  | .read => Got
  | .createServiceThread => Option Nat
  | .transport => ConnectionState × Option Bytes
  | .connect _ _ => Unit
  | .send _ => Unit
  | .receive => Message
  | .leave => Unit
  | .event => Event
  | .freeTransport => Unit

/-- What is not up to the daemon. -/
inductive Choice where
  | ok
  | count (count : Nat)
  | again
  | failed
  | got (count : Nat) (eof : Bool)
  | descriptor (fd : Nat)
  | packet
  | ready (fd : Nat) (write read : Bool)
  | removal
  deriving DecidableEq, Repr

/-- The element behind another one. -/
def successor (list : List Addr) (socket : Addr) : Option Addr :=
  (list.dropWhile (· ≠ socket)).tail.head?

namespace World

def live (world : World) (socket : Addr) : Bool := (world.sockets socket).isSome

@[simps]
def setSock (world : World) (socket : Addr) (sock : Option Sock) : World :=
  { world with sockets := Function.update world.sockets socket sock }

@[simps]
def setChain (world : World) (chain : Chain) (list : List Addr) : World :=
  { world with chain := Function.update world.chain chain list }

/-- Take a socket out of a list; its neighbours are changed, too. -/
def unlink (world : World) (chain : Chain) (socket : Addr) : Option World :=
  let list := world.chain chain
  if (successor list socket).all world.live ∧ (successor list.reverse socket).all world.live then
    some (world.setChain chain (list.erase socket))
  else none

end World

open World Prog

def Touch.apply (world : World) : Touch → Option World
  | .store socket change => do
    let sock ← world.sockets socket
    return world.setSock socket (some (change.apply sock))
  | .events socket => if world.live socket then some world else none
  | .insert chain socket =>
    if world.live socket ∧ (world.chain chain).getLast?.all world.live then
      some (world.setChain chain (world.chain chain ++ [socket]))
    else none
  | .removeSocket socket => do
    let sock ← world.sockets socket
    if socket ∈ world.chain .locals then
      (world.setSock socket (some { sock with id := 0 })).unlink .locals socket
    else if socket ∈ world.chain .closings then
      (world.setSock socket (some { sock with id := 0 })).unlink .closings socket
    else return world
  | .removeDisconnect socket => do
    let _ ← world.sockets socket
    if socket ∈ world.chain .disconnects then world.unlink .disconnects socket else return world
  | .install socket => do
    let sock ← world.sockets socket
    return { world with fdTable := Function.update world.fdTable sock.fd (some socket) }
  | .uninstall socket => do
    let sock ← world.sockets socket
    return { world with fdTable := Function.update world.fdTable sock.fd none }
  | .free socket => if world.live socket then some (world.setSock socket none) else none

/-- `fdevent_unregister` aborts if it does not find the descriptor as it should be. -/
def Touch.aborts (world : World) : Touch → Bool
  | .uninstall socket =>
    (world.sockets socket).any fun sock => world.fdTable sock.fd ≠ some socket
  | _ => false

/-- The operations on what is in the `World`. -/
def act : (op : Op) → Choice → World → Option (World × Reply op)
  | .load socket, _, world => some (world, world.sockets socket)
  | .touch touch, _, world =>
    if touch.aborts world then none
    else
      match touch.apply world with
      | some after => some (after, true)
      | none => some (world, false)
  | .calloc sock, _, world =>
    some ({ world.setSock world.fresh (some sock) with fresh := world.fresh + 1 }, world.fresh)
  | .newId, _, world => some ({ world with nextId := world.nextId + 1 }, world.nextId)
  | .first chain, _, world => some (world, (world.chain chain).head?)
  | .next chain socket, _, world =>
    some (world, if world.live socket ∧ socket ∈ world.chain chain then
      some (successor (world.chain chain) socket) else none)
  | .length chain, _, world => some (world, (world.chain chain).length)
  | .write length, choice, world =>
    match choice with
    | .count count => some (world, .count (min count length))
    | .again => some (world, .again)
    | .failed => some (world, .failed)
    | _ => none
  | .read, choice, world =>
    match choice with
    | .got count eof => some (world, ⟨min count maxPayload, eof⟩)
    | _ => none
  | .createServiceThread, choice, world =>
    match choice with
    | .descriptor fd => if world.fdTable fd = none then some (world, some fd) else none
    | .failed => some (world, none)
    | _ => none
  | .transport, _, world => some (world, (world.connection, world.product))
  | .connect state product, _, world =>
    some ({ world with connection := state, product := product }, ())
  | .send message, _, world =>
    some ({ world with told := world.told || decide message.offline }, ())
  | .event, choice, world =>
    match choice, world.incoming with
    | .packet, packet :: incoming =>
      if world.gone then none else some ({ world with incoming := incoming }, .packet packet)
    | .ready fd write read, _ =>
      (world.fdTable fd).map fun socket => (world, .ready socket write read)
    | .removal, _ => if world.gone then none else some (world, .removal)
    | _, _ => none
  | .freeTransport, _, world => some ({ world with gone := true }, ())
  | .lock, _, world => some (world, ())
  | .unlock, _, world => some (world, ())
  | .receive, _, _ => none
  | .leave, _, world => some (world, ())

/-- A lock that is held has to be waited for, and the transport is removed when its threads have
left. -/
def blocked (shared : Shared) : Op → Choice → Bool
  | .lock, _ => shared.lock.isSome
  | .event, .removal => !shared.left
  | _, _ => false

/-- What an operation changes outside of the `World`. -/
def record (thread : Thread) (shared : Shared) : Op → Shared
  | .lock => { shared with lock := some thread }
  | .unlock => { shared with lock := none }
  | .send message => { shared with toInput := shared.toInput ++ [message] }
  | .leave => { shared with left := true }
  | _ => shared

/-- What an operation of a thread does.  The input thread waits for messages until it leaves. -/
def perform (thread : Thread) : (op : Op) → Choice → Shared → Option (Shared × Reply op)
  | .receive, _, shared =>
    match shared.toInput with
    | message :: rest => if shared.left then none else some ({ shared with toInput := rest }, message)
    | [] => none
  | op, choice, shared =>
    if blocked shared op choice then none
    else
      (act op choice shared.world).map fun result =>
        ({ record thread shared op with world := result.1 }, result.2)

abbrev Action := Prog Op Reply

/-! ## Local and remote sockets -/

/-- Follow a pointer to a socket. -/
def deref (socket : Addr) : Action Sock := do
  match ← call (Op.load socket) with
  | some sock => .ret sock
  | none => .stop

def touch (change : Touch) : Action Unit := do
  if ← call (Op.touch change) then .ret () else .stop

/-- The address in a pointer that must not be `NULL`. -/
def nonNull : Option Addr → Action Addr
  | some socket => .ret socket
  | none => .stop

def send (command arg0 arg1 : UInt32) (payload : Bytes) : Action Unit :=
  call (Op.send ⟨command, arg0, arg1, payload⟩)

/-- Go through a list until something is found.  Nobody adds to the list meanwhile. -/
def walk {α : Type} (chain : Chain) (visit : Addr → Action (Option α)) :
    Nat → Option Addr → Action (Option α)
  | _, none => .ret none
  | 0, some _ => .stop
  | rounds + 1, some socket => do
    match ← visit socket with
    | some found => .ret (some found)
    | none =>
      match ← call (Op.next chain socket) with
      | some next => walk chain visit rounds next
      | none => .stop

def findLocalSocket (id : UInt32) : Action (Option Addr) := do
  call Op.lock
  let rounds ← call (Op.length .locals)
  let first ← call (Op.first .locals)
  let found ← walk .locals (fun socket => do
    let sock ← deref socket
    .ret (if sock.id = id then some socket else none)) rounds first
  call Op.unlock
  .ret found

def localSocketDestroy (socket : Addr) : Action Unit := do
  touch (.uninstall socket)
  let _ ← deref socket
  touch (.removeSocket socket)
  touch (.free socket)

/-- The end of `local_socket_close_locked`, when there is no peer any more. -/
def closeWithoutPeer (socket : Addr) : Action Unit := do
  let sock ← deref socket
  if sock.closing ∨ sock.queue = [] then localSocketDestroy socket
  else do
    touch (.store socket .closing)
    touch (.events socket)
    touch (.removeSocket socket)
    touch (.insert .closings socket)

mutual

/-- `local_socket_close_locked`.  Functions that close sockets call each other for peers. -/
def localSocketCloseLocked : (depth : Nat) → Addr → Action Unit
  | 0, _ => .stop
  | depth + 1, socket => do
    let sock ← deref socket
    match sock.peer with
    | none => closeWithoutPeer socket
    | some peer => do
      touch (.store peer (.peer none))
      let other ← deref peer
      (match other.kind with
        | .localSocket => localSocketCloseLocked depth peer
        | .remoteSocket => remoteSocketClose depth peer)
      touch (.store socket (.peer none))
      closeWithoutPeer socket

def remoteSocketClose : (depth : Nat) → Addr → Action Unit
  | 0, _ => .stop
  | depth + 1, socket => do
    let sock ← deref socket
    let arg0 ← (match sock.peer with
      | none => .ret (0 : UInt32)
      | some peer => do
        let other ← deref peer
        touch (.store peer (.peer none))
        (match other.kind with
          | .localSocket => do
            call Op.lock
            localSocketCloseLocked depth peer
            call Op.unlock
          | .remoteSocket => remoteSocketClose depth peer)
        .ret other.id)
    send aClse arg0 sock.id []
    touch (.removeDisconnect socket)
    touch (.free socket)

end

/-- Deep enough for a socket, its peer and the socket again. -/
def closeDepth : Nat := 3

def localSocketClose (socket : Addr) : Action Unit := do
  call Op.lock
  localSocketCloseLocked closeDepth socket
  call Op.unlock

/-- `socket->close(socket)`. -/
def close (socket : Addr) : Action Unit := do
  let sock ← deref socket
  match sock.kind with
  | .localSocket => localSocketClose socket
  | .remoteSocket => remoteSocketClose closeDepth socket

/-- `remote_socket_ready` and `remote_socket_enqueue`, which send a packet with the ids. -/
def remoteSocketSend (command : UInt32) (payload : Bytes) (socket : Addr) : Action Unit := do
  let sock ← deref socket
  let peer ← nonNull sock.peer
  let other ← deref peer
  send command other.id sock.id payload

/-- `socket->ready(socket)`. -/
def ready (socket : Addr) : Action Unit := do
  let sock ← deref socket
  match sock.kind with
  | .localSocket => touch (.events socket)
  | .remoteSocket => remoteSocketSend aOkay [] socket

/-- What is left of a packet after a loop of `adb_write`, or nothing after an error.  To be
interrupted is an error for `local_socket_enqueue` but not for `local_socket_event_func`. -/
def writeOut : (rounds : Nat) → Pending → Action (Option Pending)
  | 0, pending => .ret (some pending)
  | rounds + 1, pending =>
    if pending.len = 0 then .ret (some pending)
    else do
      match ← call (Op.write pending.len) with
      | .count count =>
        if count = 0 then .ret none
        else if within : count ≤ pending.len then
          writeOut rounds ⟨pending.payload, pending.ptr + count, pending.len - count,
            by have := pending.inside; omega⟩
        else .stop
      | .again => .ret (some pending)
      | .failed => .ret none

/-- `local_socket_enqueue`; whether it returns 0. -/
def localSocketEnqueue (socket : Addr) (packet : Pending) : Action Bool := do
  let sock ← deref socket
  if sock.queue = [] then
    match ← writeOut packet.len packet with
    | none => do
      close socket
      .ret false
    | some rest =>
      if rest.len = 0 then .ret true
      else do
        touch (.store socket (.queue [rest]))
        touch (.events socket)
        .ret false
  else do
    touch (.store socket (.queue (sock.queue ++ [packet])))
    touch (.events socket)
    .ret false

/-- `socket->enqueue(socket, packet)`; whether it returns 0. -/
def enqueue (socket : Addr) (packet : Pending) : Action Bool := do
  let sock ← deref socket
  match sock.kind with
  | .localSocket => localSocketEnqueue socket packet
  | .remoteSocket => do
    remoteSocketSend aWrte packet.payload socket
    .ret false

/-- What the loop for `FDE_WRITE` comes to. -/
inductive Drained where
  | all
  /-- The function returns. -/
  | stopped

/-- The loop over the queue of a socket for `FDE_WRITE`. -/
def drain (socket : Addr) : List Pending → Action Drained
  | [] => .ret .all
  | packet :: queue => do
    match ← writeOut packet.len packet with
    | none => do
      close socket
      .ret .stopped
    | some rest =>
      if rest.len = 0 then do
        touch (.store socket (.queue queue))
        drain socket queue
      else do
        touch (.store socket (.queue (rest :: queue)))
        .ret .stopped

/-- The part of `local_socket_event_func` for `FDE_WRITE`; whether the function goes on. -/
def eventWrite (socket : Addr) : Action Bool := do
  let sock ← deref socket
  match ← drain socket sock.queue with
  | .stopped => .ret false
  | .all => do
    let sock ← deref socket
    if sock.closing then do
      close socket
      .ret false
    else do
      touch (.events socket)
      let peer ← nonNull sock.peer
      ready peer
      .ret true

/-- Send what was read to the peer, and read no more until it is ready again. -/
def passOn (socket : Addr) (count : Nat) : Option Addr → Action Unit
  | none => .ret ()
  | some peer =>
    if count = 0 then .ret ()
    else do
      let taken ← enqueue peer ⟨List.replicate count 0, 0, count, by simp⟩
      if taken then .ret () else touch (.events socket)

/-- The part of `local_socket_event_func` for `FDE_READ`.  The bytes read do not matter. -/
def eventRead (socket : Addr) : Action Unit := do
  let got ← call Op.read
  let sock ← deref socket
  passOn socket got.count sock.peer
  touch (.events socket)
  if got.eof then close socket else .ret ()

def localSocketEventFunc (socket : Addr) (write read : Bool) : Action Unit := do
  let goesOn ← (if write then eventWrite socket else .ret true)
  if goesOn ∧ read then eventRead socket else .ret ()

def createLocalSocket (fd : Nat) : Action Addr := do
  let socket ← call (Op.calloc ⟨.localSocket, 0, false, none, fd, [], false⟩)
  call Op.lock
  let id ← call Op.newId
  touch (.store socket (.id id))
  touch (.insert .locals socket)
  call Op.unlock
  touch (.install socket)
  .ret socket

def createRemoteSocket (id : UInt32) : Action Addr := do
  let socket ← call (Op.calloc ⟨.remoteSocket, id, false, none, 0, [], true⟩)
  touch (.insert .disconnects socket)
  .ret socket

/-- Close a peer that is not to close this socket in turn. -/
def closePeer : Option Addr → Action Unit
  | none => .ret ()
  | some peer => do
    touch (.store peer (.peer none))
    close peer

def remoteSocketDisconnect (socket : Addr) : Action Unit := do
  let sock ← deref socket
  closePeer sock.peer
  touch (.removeDisconnect socket)
  touch (.free socket)

/-- The loop of `run_transport_disconnects`: the next entry is read before the function is
called. -/
def disconnectLoop : (rounds : Nat) → Option Addr → Action Unit
  | _, none => .ret ()
  | 0, some _ => .stop
  | rounds + 1, some socket => do
    match ← call (Op.next .disconnects socket) with
    | some next => do
      remoteSocketDisconnect socket
      disconnectLoop rounds next
    | none => .stop

def runTransportDisconnects : Action Unit := do
  let rounds ← call (Op.length .disconnects)
  let first ← call (Op.first .disconnects)
  disconnectLoop rounds first

/-! ## handle_packet -/

/-- The bytes of a payload, if they are in the packet. -/
def payload (packet : Packet) : Action Bytes :=
  if packet.dataLength.toNat ≤ maxPayload then .ret packet.payload else .stop

/-- A part of `handle_packet` that finds out something about a payload. -/
def reading {α : Type} : Option α → Action α
  | some value => .ret value
  | none => .stop

/-- `t->connection_state = CS_OFFLINE` and `handle_offline`. -/
def handleOffline : Action Unit := do
  let (_, product) ← call Op.transport
  call (Op.connect .offline product)
  runTransportDisconnects

/-- `send_packet` for a packet that came from the host. -/
def sendBack (packet : Packet) : Action Unit := do
  let payload ← payload packet
  send packet.command packet.arg0 packet.arg1 payload

def handleSync (packet : Packet) : Action Unit :=
  if packet.arg0 ≠ 0 then sendBack packet
  else do
    handleOffline
    sendBack packet

/-- `if (t->connection_state != CS_OFFLINE)`. -/
def whenOnline (action : Action Unit) : Action Unit := do
  let (state, _) ← call Op.transport
  if state ≠ .offline then action else .ret ()

def handleCnxn (packet : Packet) : Action Unit := do
  whenOnline handleOffline
  let banner ← payload packet
  let (_, known) ← call Op.transport
  let (state, product) ← reading (parseBanner banner known)
  call (Op.connect state (some product))
  send aCnxn 0x01000000 4096 (ascii "sideload::" ++ [0])

/-- Give a socket a peer. -/
def connectTo (socket : Addr) (id : UInt32) : Action Unit := do
  let peer ← createRemoteSocket id
  touch (.store socket (.peer (some peer)))
  let sock ← deref socket
  let peer ← nonNull sock.peer
  touch (.store peer (.peer (some socket)))

def handleOpen (packet : Packet) : Action Unit := do
  let payload ← payload packet
  match ← reading (serviceToFd (serviceName payload)) with
  | none => send aClse 0 packet.arg0 []
  | some _ =>
    match ← call Op.createServiceThread with
    | none => send aClse 0 packet.arg0 []
    | some fd => do
      let socket ← createLocalSocket fd
      connectTo socket packet.arg0
      let sock ← deref socket
      let peer ← nonNull sock.peer
      let other ← deref peer
      send aOkay sock.id other.id []
      ready socket

def handleOkay (packet : Packet) : Action Unit := do
  match ← findLocalSocket packet.arg1 with
  | none => .ret ()
  | some socket => do
    let sock ← deref socket
    (if sock.peer = none then connectTo socket packet.arg0 else .ret ())
    ready socket

def handleClse (packet : Packet) : Action Unit := do
  match ← findLocalSocket packet.arg1 with
  | none => .ret ()
  | some socket => close socket

def handleWrte (packet : Packet) : Action Unit := do
  match ← findLocalSocket packet.arg1 with
  | none => .ret ()
  | some socket => do
    let payload ← payload packet
    let taken ← enqueue socket ⟨payload, 0, payload.length, by simp⟩
    if taken then do
      let sock ← deref socket
      send aOkay sock.id packet.arg0 []
    else .ret ()

def handlePacket (packet : Packet) : Action Unit :=
  if packet.command = aSync then handleSync packet
  else if packet.command = aCnxn then handleCnxn packet
  else if packet.command = aOpen then whenOnline (handleOpen packet)
  else if packet.command = aOkay then whenOnline (handleOkay packet)
  else if packet.command = aClse then whenOnline (handleClse packet)
  else if packet.command = aWrte then whenOnline (handleWrte packet)
  else .ret ()

/-! ## The threads -/

/-- One round of `fdevent_loop`. -/
def eventLoop : Action Unit := do
  match ← call Op.event with
  | .packet packet => handlePacket packet
  | .ready socket write read => localSocketEventFunc socket write read
  | .removal => do
    runTransportDisconnects
    call Op.freeTransport

/-- The condition in the loop of `close_all_sockets`. -/
def belongs (socket : Addr) : Action (Option Addr) := do
  let sock ← deref socket
  if sock.ours then .ret (some socket)
  else
    match sock.peer with
    | none => .ret none
    | some peer => do
      let other ← deref peer
      .ret (if other.ours then some socket else none)

/-- The loop of `close_all_sockets`, which starts again after every socket that it closes. -/
def closeAllLoop : (rounds : Nat) → Action Unit
  | 0 => .ret ()
  | rounds + 1 => do
    let first ← call (Op.first .locals)
    match ← walk .locals belongs (rounds + 1) first with
    | none => .ret ()
    | some socket => do
      localSocketCloseLocked closeDepth socket
      closeAllLoop rounds

def closeAllSockets : Action Unit := do
  call Op.lock
  let rounds ← call (Op.length .locals)
  closeAllLoop rounds
  call Op.unlock

/-- One round of `input_thread`: what is for the host is written there. -/
def inputLoop : Action Unit := do
  let message ← call Op.receive
  if message.offline then do
    closeAllSockets
    call Op.leave
  else .ret ()

abbrev adb : Threads Thread Op Reply where
  State := Shared
  Choice := Choice
  start
    | .main, _ => eventLoop
    | .input, _ => inputLoop
  perform := perform

/-- A packet that the output thread makes itself. -/
def syncPacket (arg0 arg1 : UInt32) : Packet where
  command := aSync
  arg0 := arg0
  arg1 := arg1
  dataLength := 0
  dataCheck := 0
  magic := aSync ^^^ 0xffffffff
  data := List.replicate maxPayload 0
  room := by rw [List.length_replicate]

/-- What `output_thread` passes on: packets of the host as long as they pass the checks. -/
def outputThread (host : List Packet) : List Packet :=
  syncPacket 1 2 :: host.takeWhile Packet.passes ++ [syncPacket 0 0]

/-- A transport has just been registered. -/
def registered (host : List Packet) : World where
  sockets := fun _ => none
  fresh := 0
  nextId := 1
  chain := fun _ => []
  fdTable := fun _ => none
  connection := .offline
  product := none
  incoming := outputThread host
  told := false
  gone := false

def initial (host : List Packet) : adb.Config where
  state := ⟨registered host, none, [], false⟩
  program := fun _ => .ret ()

end PhilzTouch.Adb
