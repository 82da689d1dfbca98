import PhilzTouch.Adb.Sockets
import Mathlib.Data.List.Nodup

/-!
# Lifetimes of sockets

Why the daemon does not use a socket that it has freed.  Between two events every local socket that
is not closing has a remote one as its peer, and the other way round, and the lists and the table of
descriptors only hold sockets that are there.  The thread of the event loop keeps this up; the input
thread closes sockets itself, but when it comes to that, there should be none left.
-/

namespace PhilzTouch.Adb

open World List Function Touch

variable {α β : Type} {w : World}

/-! ## The contract of the two threads -/

/-- There are no sockets left for the input thread when it is told to leave. -/
def Calm (shared : Shared) : Prop :=
  (∀ message ∈ shared.toInput, message.offline → shared.world.told = true) ∧
    (shared.world.told = true → shared.world.chain .locals = [])

def SameWorld (before after : Shared) : Prop := after.world = before.world

def KeepsCalm (before after : Shared) : Prop :=
  Calm before → (before.world.told = true → after.world.told = true) ∧ Calm after

/-- A step of the event loop that the input thread need not care about. -/
def Steady (w after : World) : Prop :=
  (w.told = true → w.chain .locals = []) →
    (w.told = true → after.told = true) ∧ (after.told = true → after.chain .locals = [])

/-- A part of the event loop does not get stuck, and it ends in a world as `post` says. -/
def Works (post : α → World → Prop) (program : Action α) (w : World) : Prop :=
  ∀ shared : Shared, shared.world = w →
    adb.Secure .main SameWorld KeepsCalm (fun value after => post value after.world) program shared

variable {op : Op}

/-- All operations but `receive` act on the world alone. -/
theorem perform_world {thread : Thread} {choice : Choice} {shared after : Shared} {reply : Reply op}
    (other : op ≠ .receive) (performed : perform thread op choice shared = some (after, reply)) :
    act op choice shared.world = some (after.world, reply) ∧ (after.toInput = shared.toInput ∨
        ∃ message, op = .send message ∧ after.toInput = shared.toInput ++ [message]) := by
  unfold perform at performed
  split at performed
  · exact absurd rfl other
  split at performed
  · cases performed
  obtain ⟨result, acted, same⟩ := Option.map_eq_some_iff.mp performed
  cases same
  refine ⟨acted, ?_⟩
  unfold record
  split
  · exact .inl rfl
  · exact .inl rfl
  · exact .inr ⟨_, rfl, rfl⟩
  · exact .inl rfl
  · exact .inl rfl

variable {after : World}

theorem steady_of_subset (told : after.told = w.told)
    (fewer : ∀ socket ∈ after.chain .locals, socket ∈ w.chain .locals) : Steady w after := by
  intro calm
  rw [told]
  refine ⟨id, fun left => ?_⟩
  rw [eq_nil_iff_forall_not_mem]
  intro socket member
  have := fewer socket member
  rw [calm left] at this
  cases this

theorem steady_of_not_told (before : w.told = false) (told : after.told = false) :
    Steady w after := by
  intro _
  rw [before, told]
  exact ⟨id, nofun⟩

variable {post : α → World → Prop} {rest : Unit → Action α} {socket : Addr} {sock : Sock}

namespace Works

theorem ret {value : α} (holds : post value w) : Works post (.ret value) w := by
  rintro shared rfl
  refine .ret fun now same => ?_
  rwa [show now.world = shared.world from same]

theorem bind {middle : β → World → Prop} {program : Action β} {rest : β → Action α}
    (works : Works middle program w)
    (continues : ∀ value after, middle value after → Works post (rest value) after) :
    Works post (program >>= rest) w := by
  rintro shared rfl
  refine .bind (fun _ => rfl) (works shared rfl) ?_
  exact fun value after holds => continues value after.world holds after rfl

theorem weaken {post' : α → World → Prop} {program : Action α} (works : Works post program w)
    (implies : ∀ value after, post value after → post' value after) : Works post' program w :=
  fun shared same => (works shared same).weaken fun value after => implies value after.world

theorem call {rest : Reply op → Action α} (other : op ≠ .receive)
    (each : ∀ choice after reply, act op choice w = some (after, reply) →
      Steady w after ∧ Works post (rest reply) after) : Works post (Prog.call op >>= rest) w := by
  rintro shared rfl
  refine .call ?_
  intro now same choice after reply performed
  obtain ⟨acted, sent⟩ := perform_world other performed
  rw [show now.world = shared.world from same] at acted
  obtain ⟨steady, works⟩ := each choice after.world reply acted
  refine ⟨?_, works after rfl⟩
  rintro ⟨queued, calm⟩
  rw [show now.world = shared.world from same] at queued calm ⊢
  obtain ⟨keeps, empty⟩ := steady calm
  refine ⟨keeps, ?_, empty⟩
  intro message member offline
  rcases sent with unchanged | ⟨message', rfl, grown⟩
  · rw [unchanged] at member
    exact keeps (queued message member offline)
  rw [grown] at member
  rcases mem_append.mp member with old | new
  · exact keeps (queued message old offline)
  · cases mem_singleton.mp new
    simp only [act, Option.some.injEq, Prod.mk.injEq] at acted
    rw [← acted.1]
    simp [offline]

theorem look {rest : Reply op → Action α} (other : op ≠ .receive)
    (silent : ∀ choice after reply, act op choice w = some (after, reply) → after = w)
    (continues : ∀ choice reply, act op choice w = some (w, reply) → Works post (rest reply) w) :
    Works post (Prog.call op >>= rest) w := by
  refine call other fun choice after reply acted => ?_
  cases silent choice after reply acted
  exact ⟨steady_of_subset rfl fun _ => id, continues choice reply acted⟩

/-- An operation with a known answer that leaves the world as it is. -/
theorem ask {rest : Reply op → Action α} {reply : Reply op} (other : op ≠ .receive)
    (acts : ∀ choice, act op choice w = some (w, reply)) (works : Works post (rest reply) w) :
    Works post (Prog.call op >>= rest) w := by
  refine call other fun choice after reply' acted => ?_
  cases (acts choice).symm.trans acted
  exact ⟨steady_of_subset rfl fun _ => id, works⟩

theorem lock (works : Works post (rest ()) w) : Works post (Prog.call Op.lock >>= rest) w :=
  ask nofun (fun _ => rfl) works

theorem unlock (works : Works post (rest ()) w) : Works post (Prog.call Op.unlock >>= rest) w :=
  ask nofun (fun _ => rfl) works

theorem deref {rest : Sock → Action α} (found : w.sockets socket = some sock)
    (works : Works post (rest sock) w) : Works post (Adb.deref socket >>= rest) w := by
  unfold Adb.deref
  rw [Prog.bind_assoc]
  refine ask nofun (fun _ => rfl) ?_
  rw [found]
  exact works

theorem touch {change : Touch} (applied : change.apply w = some after) (steady : Steady w after)
    (works : Works post (rest ()) after) : Works post (Adb.touch change >>= rest) w := by
  unfold Adb.touch
  rw [Prog.bind_assoc]
  refine call nofun ?_
  intro choice result reply acted
  simp only [act, applied] at acted
  split at acted
  · cases acted
  · cases acted
    exact ⟨steady, works⟩

theorem touch_last {post : Unit → World → Prop} {change : Touch}
    (applied : change.apply w = some after) (steady : Steady w after) (holds : post () after) :
    Works post (Adb.touch change) w := by
  rw [← Prog.bind_ret (Adb.touch change)]
  exact touch applied steady (.ret holds)

theorem nonNull {rest : Addr → Action α} (works : Works post (rest socket) w) :
    Works post (Adb.nonNull (some socket) >>= rest) w :=
  works

/-- A packet other than the one that tells the input thread to leave. -/
theorem send {command arg0 arg1 : UInt32} {payload : Bytes} (other : command ≠ aSync)
    (works : Works post (rest ()) w) :
    Works post (Adb.send command arg0 arg1 payload >>= rest) w := by
  refine look nofun ?_ fun _ _ _ => works
  rintro choice after reply ⟨⟩
  simp [Message.offline, other]

end Works

/-! ## Sockets between two events -/

/-- A local and a remote socket that are peers. -/
def Paired (w : World) (socket peer : Addr) : Prop :=
  ∃ sock other, w.sockets socket = some sock ∧ sock.kind = .localSocket ∧ sock.peer = some peer ∧
    w.sockets peer = some other ∧ other.kind = .remoteSocket ∧ other.peer = some socket

/-- A local socket whose peer has closed. -/
def Closing (w : World) (socket : Addr) : Prop :=
  ∃ sock, w.sockets socket = some sock ∧ sock.kind = .localSocket ∧ sock.closing = true ∧
    sock.peer = none

structure Tidy (w : World) : Prop where
  nodup : ∀ chain, (w.chain chain).Nodup
  fresh : ∀ socket sock, w.sockets socket = some sock → socket < w.fresh
  locals : ∀ socket ∈ w.chain .locals, ∃ peer ∈ w.chain .disconnects, Paired w socket peer
  disconnects : ∀ peer ∈ w.chain .disconnects, ∃ socket ∈ w.chain .locals, Paired w socket peer
  closings : ∀ socket ∈ w.chain .closings, Closing w socket
  table : ∀ fd socket, w.fdTable fd = some socket →
    (socket ∈ w.chain .locals ∨ socket ∈ w.chain .closings) ∧
      ∃ sock, w.sockets socket = some sock ∧ sock.fd = fd

/-- All that is in the lists is there. -/
def Linked (w : World) : Prop := ∀ chain, ∀ socket ∈ w.chain chain, w.live socket = true

/-- What no event changes but the arrival of a packet. -/
def Same (w after : World) : Prop :=
  after.told = w.told ∧ after.incoming = w.incoming ∧ after.gone = w.gone

theorem Same.trans {middle : World} (first : Same w middle) (second : Same middle after) :
    Same w after :=
  ⟨second.1.trans first.1, second.2.1.trans first.2.1, second.2.2.trans first.2.2⟩

theorem Tidy.linked (tidy : Tidy w) : Linked w := by
  intro chain socket member
  unfold live
  cases chain with
  | locals =>
    obtain ⟨_, _, sock, _, found, _⟩ := tidy.locals socket member
    rw [found]
    rfl
  | closings =>
    obtain ⟨sock, found, _⟩ := tidy.closings socket member
    rw [found]
    rfl
  | disconnects =>
    obtain ⟨_, _, _, other, _, _, _, found, _⟩ := tidy.disconnects socket member
    rw [found]
    rfl

/-! ## Operations that meet no freed socket -/

theorem successor_mem {list : List Addr} {next : Addr} (after : successor list socket = some next) :
    next ∈ list := by
  have tail := mem_of_mem_head? after
  exact (dropWhile_sublist _).subset (mem_of_mem_tail tail)

theorem unlink_eq (linked : Linked w) (chain : Chain) (socket : Addr) :
    w.unlink chain socket = some (w.setChain chain ((w.chain chain).erase socket)) := by
  unfold unlink
  rw [if_pos]
  constructor
  · rw [Option.all_eq_true]
    intro next after
    exact linked chain next (successor_mem after)
  · rw [Option.all_eq_true]
    intro next after
    exact linked chain next (mem_reverse.mp (successor_mem after))

theorem Linked.setSock (linked : Linked w) (socket : Addr) (sock : Sock) :
    Linked (w.setSock socket (some sock)) := by
  intro chain other member
  have := linked chain other member
  unfold live World.setSock at *
  by_cases same : other = socket
  · simp [same]
  · simpa [same] using this

theorem Linked.setChain (linked : Linked w) (chain : Chain) {list : List Addr}
    (lives : ∀ socket ∈ list, w.live socket = true) : Linked (w.setChain chain list) := by
  intro chain' other member
  rw [setChain_chain, update_apply] at member
  split at member
  · exact lives other member
  · exact linked chain' other member

section Touching

variable {socket : Addr} {sock : Sock} (linked : Linked w) (found : w.sockets socket = some sock)

include found

theorem store_eq (change : Change) :
    (store socket change).apply w = some (w.setSock socket (some (change.apply sock))) := by
  simp [apply, found]

theorem events_eq : (events socket).apply w = some w := by
  simp [apply, live, found]

theorem free_eq : (free socket).apply w = some (w.setSock socket none) := by
  simp [apply, live, found]

theorem install_eq : (install socket).apply w =
      some { w with fdTable := update w.fdTable sock.fd (some socket) } := by
  simp [apply, found]

theorem Works.store {change : Change}
    (works : Works post (rest ()) (w.setSock socket (some (change.apply sock)))) :
    Works post (Adb.touch (.store socket change) >>= rest) w :=
  .touch (store_eq found change) (steady_of_subset rfl fun _ => id) works

theorem Works.events (works : Works post (rest ()) w) :
    Works post (Adb.touch (.events socket) >>= rest) w :=
  .touch (events_eq found) (steady_of_subset rfl fun _ => id) works

theorem Works.free {post : Unit → World → Prop}
    (holds : post () (w.setSock socket none)) : Works post (Adb.touch (.free socket)) w :=
  .touch_last (free_eq found) (steady_of_subset rfl fun _ => id) holds

theorem Works.install (works : Works post (rest ())
      { w with fdTable := update w.fdTable sock.fd (some socket) }) :
    Works post (Adb.touch (.install socket) >>= rest) w :=
  .touch (install_eq found) (steady_of_subset rfl fun _ => id) works

include linked

theorem insert_eq (chain : Chain) :
    (insert chain socket).apply w = some (w.setChain chain (w.chain chain ++ [socket])) := by
  have last : (w.chain chain).getLast?.all w.live = true := by
    rw [Option.all_eq_true]
    intro other final
    exact linked chain other (mem_of_getLast? final)
  simp [apply, live, found, last]

theorem removeDisconnect_eq : (removeDisconnect socket).apply w =
      some (w.setChain .disconnects ((w.chain .disconnects).erase socket)) := by
  simp only [apply, found, some_bind]
  split
  · exact unlink_eq linked _ _
  · rename_i absent
    rw [erase_of_not_mem absent, setChain, update_eq_self]
    rfl

theorem Works.insert {chain : Chain} (quiet : w.told = false)
    (works : Works post (rest ()) (w.setChain chain (w.chain chain ++ [socket]))) :
    Works post (Adb.touch (.insert chain socket) >>= rest) w :=
  .touch (insert_eq linked found chain) (steady_of_not_told quiet quiet) works

end Touching

section Closing

variable {socket : Addr} {sock : Sock}

/-- A local socket in one of the lists, which does not have a peer any more. -/
structure Alone (w : World) (socket : Addr) (sock : Sock) : Prop where
  found : w.sockets socket = some sock
  kind : sock.kind = .localSocket
  peer : sock.peer = none
  listed : socket ∈ w.chain .locals ∧ socket ∉ w.chain .closings ∨
    socket ∉ w.chain .locals ∧ socket ∈ w.chain .closings ∧ sock.closing = true
  table : ∀ fd, w.fdTable fd = some socket → fd = sock.fd

/-- What closing such a socket comes to: it is freed, or waits in the list of closing sockets. -/
structure Ended (w : World) (socket : Addr) (after : World) : Prop where
  others : ∀ other, other ≠ socket → after.sockets other = w.sockets other
  own : after.sockets socket = none ∧ (∀ fd, after.fdTable fd ≠ some socket) ∧
      after.chain .closings = (w.chain .closings).erase socket ∨
    socket ∉ w.chain .closings ∧ Closing after socket ∧
      (after.sockets socket).map Sock.fd = (w.sockets socket).map Sock.fd ∧
      after.chain .closings = w.chain .closings ++ [socket]
  locals : after.chain .locals = (w.chain .locals).erase socket
  disconnects : after.chain .disconnects = w.chain .disconnects
  table : ∀ fd other, after.fdTable fd = some other → w.fdTable fd = some other
  fresh : after.fresh = w.fresh
  same : Same w after

/-- A socket that is taken out of the list it is in. -/
@[simps]
def unlisted (w : World) (socket : Addr) (sock : Sock) : World :=
  { w.setSock socket (some { sock with id := 0 }) with
    chain := fun chain =>
      if chain = .disconnects then w.chain chain else (w.chain chain).erase socket }

theorem Linked.unlisted (linked : Linked w) (socket : Addr) (sock : Sock) :
    Linked (unlisted w socket sock) := by
  intro chain other member
  refine linked.setSock socket { sock with id := 0 } chain other ?_
  simp only [unlisted_chain] at member
  split at member
  · exact member
  · exact mem_of_mem_erase member

theorem removeSocket_eq (linked : Linked w) (found : w.sockets socket = some sock)
    (once : socket ∈ w.chain .locals ∧ socket ∉ w.chain .closings ∨
      socket ∉ w.chain .locals ∧ socket ∈ w.chain .closings) :
    (removeSocket socket).apply w = some (unlisted w socket sock) := by
  have linked := linked.setSock socket { sock with id := 0 }
  rcases once with ⟨here, absent⟩ | ⟨absent, here⟩
  all_goals
    simp only [apply, found, some_bind, here, absent, if_true, if_false, unlink_eq linked]
    congr 1
    simp only [unlisted, setChain, World.setSock]
    congr 1
    funext chain
    cases chain <;> simp [erase_of_not_mem absent]

theorem Works.closeWithoutPeer (linked : Linked w) (alone : Alone w socket sock) :
    Works (fun _ after => Ended w socket after) (closeWithoutPeer socket) w := by
  obtain ⟨found, kind, peer, listed, table⟩ := alone
  have once : socket ∈ w.chain .locals ∧ socket ∉ w.chain .closings ∨
      socket ∉ w.chain .locals ∧ socket ∈ w.chain .closings :=
    listed.imp id fun closing => ⟨closing.1, closing.2.1⟩
  refine .deref found ?_
  split
  · unfold localSocketDestroy
    have uninstalled : (uninstall socket).apply w =
        some { w with fdTable := update w.fdTable sock.fd none } := by
      simp [apply, found]
    refine .touch uninstalled (steady_of_subset rfl fun _ => id) ?_
    refine .deref found ?_
    refine .touch (removeSocket_eq linked found once)
      (steady_of_subset rfl fun _ => by simpa using mem_of_mem_erase) ?_
    refine .free (update_self _ _ _) ?_
    refine ⟨?_, .inl ⟨?_, ?_, ?_⟩, ?_, ?_, ?_, rfl, rfl, rfl, rfl⟩
    · intro other different
      simp [different]
    · simp
    · intro fd
      simp only [setSock_fdTable, unlisted_fdTable, update_apply]
      split
      · exact nofun
      · rename_i different
        exact fun same => different (table fd same)
    · simp
    · simp
    · simp
    · intro fd other
      simp only [setSock_fdTable, unlisted_fdTable, update_apply]
      split
      · exact nofun
      · exact id
  rename_i busy
  have here := listed.resolve_right fun closing => busy (.inl closing.2.2)
  have linked := linked.setSock socket { sock with closing := true }
  have found' : (w.setSock socket (some { sock with closing := true })).sockets socket =
      some { sock with closing := true } := update_self _ _ _
  refine .store found ?_
  refine .events found' ?_
  refine .touch (removeSocket_eq linked found' once)
    (steady_of_subset rfl fun _ => by simpa using mem_of_mem_erase) ?_
  refine .touch_last (insert_eq (linked.unlisted _ _) (update_self _ _ _) .closings)
    (steady_of_subset rfl fun _ => by simp) ?_
  refine ⟨?_, .inr ⟨here.2, ⟨{ sock with closing := true, id := 0 }, ?_, kind, rfl, peer⟩, ?_, ?_⟩, ?_, ?_, ?_, rfl, rfl, rfl, rfl⟩
  · intro other different
    simp [different]
  · exact update_self _ _ _
  · simp [found]
  · simp [erase_of_not_mem here.2]
  · simp
  · simp
  · exact fun _ _ => id

end Closing

/-! ## Pairs -/

section Pairs

variable {socket peer other : Addr}

theorem Paired.ne {socket' peer' : Addr} (paired : Paired w socket peer')
    (paired' : Paired w socket' peer) : socket ≠ peer := by
  rintro rfl
  obtain ⟨sock, _, found, kind, _⟩ := paired
  obtain ⟨_, other, _, _, _, found', kind', _⟩ := paired'
  cases found.symm.trans found'
  rw [kind] at kind'
  cases kind'

section

variable (paired : Paired w socket peer)

include paired

theorem Paired.peer_eq {peer' : Addr} (paired' : Paired w socket peer') : peer = peer' := by
  obtain ⟨sock, _, found, _, same, _⟩ := paired
  obtain ⟨sock', _, found', _, same', _⟩ := paired'
  cases found.symm.trans found'
  exact Option.some.inj (same.symm.trans same')

theorem Paired.socket_eq {socket' : Addr} (paired' : Paired w socket' peer) : socket = socket' := by
  obtain ⟨_, other, _, _, _, found, _, same⟩ := paired
  obtain ⟨_, other', _, _, _, found', _, same'⟩ := paired'
  cases found.symm.trans found'
  exact Option.some.inj (same.symm.trans same')

theorem Paired.not_closing : ¬ Closing w socket := by
  rintro ⟨sock', found', _, _, none⟩
  obtain ⟨sock, _, found, _, same, _⟩ := paired
  cases found.symm.trans found'
  rw [same] at none
  cases none

theorem Paired.ne_closing (closing : Closing w other) : other ≠ peer := by
  rintro rfl
  obtain ⟨sock', found', kind', _⟩ := closing
  obtain ⟨_, sock, _, _, _, found, kind, _⟩ := paired
  cases found.symm.trans found'
  rw [kind] at kind'
  cases kind'

/-- The sockets themselves say whether they are a pair. -/
theorem Paired.congr
    (first : after.sockets socket = w.sockets socket) (second : after.sockets peer = w.sockets peer) :
    Paired after socket peer := by
  unfold Paired
  rw [first, second]
  exact paired

end

theorem Closing.congr (closing : Closing w socket) (same : after.sockets socket = w.sockets socket) :
    Closing after socket := by
  unfold Closing
  rw [same]
  exact closing

/-- A local socket, closing or not. -/
def Listed (w : World) (socket : Addr) : Prop :=
  socket ∈ w.chain .locals ∨ socket ∈ w.chain .closings

variable (tidy : Tidy w)

include tidy

theorem Tidy.found (listed : Listed w socket) : ∃ sock, w.sockets socket = some sock :=
  Option.isSome_iff_exists.mp
    (listed.elim (tidy.linked .locals socket) (tidy.linked .closings socket))

theorem Tidy.not_closing (paired : Paired w socket peer) : socket ∉ w.chain .closings :=
  fun member => paired.not_closing (tidy.closings socket member)

theorem Tidy.not_local (closing : socket ∈ w.chain .closings) : socket ∉ w.chain .locals := by
  intro member
  obtain ⟨_, _, paired⟩ := tidy.locals socket member
  exact tidy.not_closing paired closing

/-- What closing a pair comes to. -/
structure Gone (w : World) (socket peer : Addr) (after : World) : Prop where
  others : ∀ other, other ≠ socket → other ≠ peer → after.sockets other = w.sockets other
  remote : after.sockets peer = none
  own : after.sockets socket = none ∧ (∀ fd, after.fdTable fd ≠ some socket) ∧
      after.chain .closings = w.chain .closings ∨
    Closing after socket ∧ (after.sockets socket).map Sock.fd = (w.sockets socket).map Sock.fd ∧
      after.chain .closings = w.chain .closings ++ [socket]
  locals : after.chain .locals = (w.chain .locals).erase socket
  disconnects : after.chain .disconnects = (w.chain .disconnects).erase peer
  table : ∀ fd other, after.fdTable fd = some other → w.fdTable fd = some other
  fresh : after.fresh = w.fresh
  same : Same w after

theorem Tidy.gone (paired : Paired w socket peer) (gone : Gone w socket peer after) :
    Tidy after := by
  have unlisted := tidy.not_closing paired
  -- the other pairs are as they were
  have kept : ∀ {socket' peer'}, Paired w socket' peer' → socket' ≠ socket →
      peer' ≠ peer ∧ Paired after socket' peer' := by
    intro socket' peer' paired' different
    have apart : peer' ≠ peer := fun same => different (paired'.socket_eq (same ▸ paired))
    exact ⟨apart, paired'.congr (gone.others _ different (paired'.ne paired))
      (gone.others _ (paired.ne paired').symm apart)⟩
  refine ⟨?_, ?_, ?_, ?_, ?_, ?_⟩
  · intro chain
    cases chain with
    | locals =>
      rw [gone.locals]
      exact (tidy.nodup .locals).erase _
    | disconnects =>
      rw [gone.disconnects]
      exact (tidy.nodup .disconnects).erase _
    | closings =>
      rcases gone.own with ⟨_, _, same⟩ | ⟨_, _, same⟩
      · rw [same]
        exact tidy.nodup .closings
      · rw [same, ← concat_eq_append]
        exact (tidy.nodup .closings).concat unlisted
  · intro other sock found
    rw [gone.fresh]
    by_cases first : other = socket
    · obtain ⟨sock, _, found, _⟩ := paired
      exact first ▸ tidy.fresh socket sock found
    by_cases second : other = peer
    · rw [second, gone.remote] at found
      cases found
    · rw [gone.others other first second] at found
      exact tidy.fresh other sock found
  · intro other member
    rw [gone.locals, (tidy.nodup .locals).mem_erase_iff] at member
    obtain ⟨peer', listed, paired'⟩ := tidy.locals other member.2
    obtain ⟨apart, paired'⟩ := kept paired' member.1
    refine ⟨peer', ?_, paired'⟩
    rw [gone.disconnects]
    exact (mem_erase_of_ne apart).mpr listed
  · intro other member
    rw [gone.disconnects, (tidy.nodup .disconnects).mem_erase_iff] at member
    obtain ⟨socket', listed, paired'⟩ := tidy.disconnects other member.2
    have different : socket' ≠ socket := fun same => member.1 ((same ▸ paired').peer_eq paired)
    refine ⟨socket', ?_, (kept paired' different).2⟩
    rw [gone.locals]
    exact (mem_erase_of_ne different).mpr listed
  · intro other member
    have old : other ∈ w.chain .closings → Closing after other := fun member =>
      (tidy.closings other member).congr (gone.others other
        (fun same => unlisted (same ▸ member)) (paired.ne_closing (tidy.closings other member)))
    rcases gone.own with ⟨_, _, same⟩ | ⟨closing, _, same⟩
    · exact old (same ▸ member)
    · rw [same] at member
      rcases mem_append.mp member with before | new
      · exact old before
      · cases mem_singleton.mp new
        exact closing
  intro fd other entry
  obtain ⟨listed, sock, found, number⟩ := tidy.table fd other (gone.table fd other entry)
  by_cases own : other = socket
  · subst own
    rcases gone.own with ⟨_, unused, _⟩ | ⟨⟨sock', found', _⟩, same, grown⟩
    · exact absurd entry (unused fd)
    · rw [found, found'] at same
      refine ⟨.inr (by rw [grown]; simp), sock', found', ?_⟩
      rw [Option.some.inj same, number]
  · have apart : other ≠ peer := by
      rcases listed with here | closing
      · obtain ⟨_, _, paired'⟩ := tidy.locals other here
        exact paired'.ne paired
      · exact paired.ne_closing (tidy.closings other closing)
    refine ⟨?_, sock, by rw [gone.others other own apart, found], number⟩
    rcases listed with here | closing
    · left
      rw [gone.locals]
      exact (mem_erase_of_ne own).mpr here
    · right
      rcases gone.own with ⟨_, _, same⟩ | ⟨_, _, same⟩
      · rwa [same]
      · rw [same]
        exact mem_append_left _ closing

theorem Tidy.ended (listed : socket ∈ w.chain .closings)
    (ended : Ended w socket after) : Tidy after := by
  have closing := tidy.closings socket listed
  obtain ⟨freed, unused, left⟩ := ended.own.resolve_right fun parked => parked.1 listed
  have absent := tidy.not_local listed
  have locals : after.chain .locals = w.chain .locals := by
    rw [ended.locals, erase_of_not_mem absent]
  have kept : ∀ {socket' peer'}, socket' ∈ w.chain .locals → Paired w socket' peer' →
      Paired after socket' peer' := by
    intro socket' peer' member paired
    refine paired.congr (ended.others _ ?_) (ended.others _ (paired.ne_closing closing).symm)
    exact fun same => absent (same ▸ member)
  refine ⟨?_, ?_, ?_, ?_, ?_, ?_⟩
  · intro chain
    cases chain with
    | locals =>
      rw [locals]
      exact tidy.nodup .locals
    | disconnects =>
      rw [ended.disconnects]
      exact tidy.nodup .disconnects
    | closings =>
      rw [left]
      exact (tidy.nodup .closings).erase _
  · intro other sock found
    rw [ended.fresh]
    by_cases same : other = socket
    · rw [same, freed] at found
      cases found
    · rw [ended.others other same] at found
      exact tidy.fresh other sock found
  · intro other member
    rw [locals] at member
    obtain ⟨peer, listed, paired⟩ := tidy.locals other member
    exact ⟨peer, by rwa [ended.disconnects], kept member paired⟩
  · intro other member
    rw [ended.disconnects] at member
    obtain ⟨socket', listed, paired⟩ := tidy.disconnects other member
    exact ⟨socket', by rwa [locals], kept listed paired⟩
  · intro other member
    rw [left, (tidy.nodup .closings).mem_erase_iff] at member
    exact (tidy.closings other member.2).congr (ended.others other member.1)
  · intro fd other entry
    obtain ⟨listed, sock, found, number⟩ := tidy.table fd other (ended.table fd other entry)
    have different : other ≠ socket := fun same => unused fd (same ▸ entry)
    refine ⟨?_, sock, by rwa [ended.others other different], number⟩
    rw [locals, left]
    exact listed.imp id (mem_erase_of_ne different).mpr

/-! ## Closing -/

theorem Tidy.fd_eq (found : w.sockets socket = some sock) (fd : Nat)
    (entry : w.fdTable fd = some socket) : fd = sock.fd := by
  obtain ⟨_, sock', found', number⟩ := tidy.table fd socket entry
  cases found.symm.trans found'
  exact number.symm

theorem Tidy.alone (listed : socket ∈ w.chain .locals)
    (paired : Paired w socket peer) (found : w.sockets socket = some sock)
    (sockets : after.sockets socket = some { sock with peer := none })
    (locals : after.chain .locals = w.chain .locals)
    (closings : after.chain .closings = w.chain .closings) (table : after.fdTable = w.fdTable) :
    Alone after socket { sock with peer := none } := by
  refine ⟨sockets, ?_, rfl, .inl ⟨by rwa [locals], ?_⟩, ?_⟩
  · obtain ⟨sock', _, found', kind, _⟩ := paired
    cases found.symm.trans found'
    exact kind
  · rw [closings]
    exact tidy.not_closing paired
  · rw [table]
    exact (tidy.fd_eq found :)

/-- The other sockets are still there when a remote one has been freed. -/
theorem Tidy.linked_without (paired : Paired w socket peer) :
    Linked ((w.setChain .disconnects ((w.chain .disconnects).erase peer)).setSock peer none) := by
  intro chain other member
  have different : other ≠ peer := by
    cases chain with
    | locals =>
      obtain ⟨_, _, paired'⟩ := tidy.locals other member
      exact paired'.ne paired
    | closings => exact paired.ne_closing (tidy.closings other member)
    | disconnects => exact ((tidy.nodup .disconnects).mem_erase_iff.mp member).1
  have before := tidy.linked.setChain .disconnects
    (fun other member => tidy.linked _ other (mem_of_mem_erase member)) chain other member
  unfold live at *
  simpa [different] using before

theorem Works.remoteSocketClose {other : Sock} (alone : other.peer = none) (depth : Nat) :
    Works (fun _ after =>
        after = (w.setChain .disconnects ((w.chain .disconnects).erase peer)).setSock peer none)
      (remoteSocketClose (depth + 1) peer) (w.setSock peer (some other)) := by
  have linked := tidy.linked.setSock peer other
  have found : (w.setSock peer (some other)).sockets peer = some other := update_self _ _ _
  refine .deref found ?_
  rw [alone]
  refine .send (by decide) ?_
  refine .touch (removeDisconnect_eq linked found) (steady_of_subset rfl fun _ => by simp) ?_
  refine .free (update_self _ _ _) ?_
  simp [World.setSock, setChain]

theorem Works.localSocketCloseLocked (listed : socket ∈ w.chain .locals)
    (paired : Paired w socket peer) (depth : Nat) :
    Works (fun _ after => Gone w socket peer after) (localSocketCloseLocked (depth + 2) socket) w := by
  have apart : socket ≠ peer := paired.ne paired
  have free := tidy.linked_without paired
  obtain ⟨sock, other, found, kind, same, found', kind', same'⟩ := id paired
  refine .deref found ?_
  simp only [same]
  refine .store found' ?_
  refine .deref (update_self _ _ _) ?_
  simp only [Change.apply, kind']
  refine .bind (.remoteSocketClose tidy rfl depth) ?_
  rintro _ _ rfl
  have still : ((w.setChain .disconnects ((w.chain .disconnects).erase peer)).setSock peer
      none).sockets socket = some sock := by simp [apart, found]
  refine .store still ?_
  refine (Works.closeWithoutPeer (free.setSock socket { sock with peer := none })
    (tidy.alone listed paired found (update_self _ _ _) (by simp) (by simp) rfl)).weaken ?_
  rintro _ after ⟨others, own, locals, disconnects, table, fresh, same⟩
  have unlisted := tidy.not_closing paired
  refine ⟨?_, ?_, ?_, ?_, ?_, table, fresh, same⟩
  · intro other first second
    simp [others other first, first, second]
  · simp [others peer apart.symm, apart.symm]
  · simpa [erase_of_not_mem unlisted, unlisted, found] using own
  · simpa using locals
  · simpa using disconnects

omit tidy

/-- What an event leaves of a tidy world. -/
structure Kept (w after : World) : Prop where
  tidy : Tidy after
  same : Same w after
  fewer : ∀ socket ∈ after.chain .locals, socket ∈ w.chain .locals

theorem Kept.refl (tidy : Tidy w) : Kept w w := ⟨tidy, ⟨rfl, rfl, rfl⟩, fun _ => id⟩

theorem Kept.trans {middle : World} (first : Kept w middle) (second : Kept middle after) :
    Kept w after :=
  ⟨second.tidy, first.same.trans second.same, fun socket member =>
    first.fewer socket (second.fewer socket member)⟩

theorem Kept.gone (tidy : Tidy w) (paired : Paired w socket peer) (gone : Gone w socket peer after) :
    Kept w after :=
  ⟨tidy.gone paired gone, gone.same, fun other member => by
    rw [gone.locals] at member
    exact mem_of_mem_erase member⟩

theorem Kept.ended (tidy : Tidy w) (listed : socket ∈ w.chain .closings)
    (ended : Ended w socket after) : Kept w after :=
  ⟨tidy.ended listed ended, ended.same, fun other member => by
    rw [ended.locals] at member
    exact mem_of_mem_erase member⟩

theorem Works.unlock_last {post : Unit → World → Prop} (holds : post () w) :
    Works post (Prog.call Op.unlock) w := by
  rw [← Prog.bind_ret (Prog.call Op.unlock)]
  exact .unlock (.ret holds)

/-- `socket->close(socket)` for a local socket without a peer. -/
theorem Works.closeAlone (linked : Linked w) (alone : Alone w socket sock) :
    Works (fun _ after => Ended w socket after) (close socket) w := by
  refine .deref alone.found ?_
  rw [alone.kind]
  refine .lock ?_
  have ends : Works (fun _ after => Ended w socket after)
      (Adb.localSocketCloseLocked closeDepth socket) w := by
    refine .deref alone.found ?_
    simp only [alone.peer]
    exact .closeWithoutPeer linked alone
  refine .bind ends ?_
  exact fun _ after ended => .unlock_last ended

theorem Works.close (tidy : Tidy w) (listed : Listed w socket) :
    Works (fun _ after => Kept w after) (close socket) w := by
  rcases listed with here | closing
  · obtain ⟨peer, _, paired⟩ := tidy.locals socket here
    obtain ⟨sock, other, found, kind, _⟩ := id paired
    refine .deref found ?_
    rw [kind]
    refine .lock ?_
    refine .bind (.localSocketCloseLocked tidy here paired 1) ?_
    exact fun _ after gone => .unlock_last (.gone tidy paired gone)
  · obtain ⟨sock, found, kind, marked, alone⟩ := tidy.closings socket closing
    refine (Works.closeAlone tidy.linked ⟨found, kind, alone,
      .inr ⟨tidy.not_local closing, closing, marked⟩, tidy.fd_eq found⟩).weaken ?_
    exact fun _ after ended => Kept.ended tidy closing ended

theorem Ended.linked (ended : Ended w socket after) (linked : Linked w)
    (nodup : ∀ chain, (w.chain chain).Nodup) (absent : socket ∉ w.chain .disconnects) :
    Linked after := by
  have old : ∀ chain other, other ∈ w.chain chain → other ≠ socket → after.live other = true := by
    intro chain other member different
    have := linked chain other member
    unfold live at *
    rwa [ended.others other different]
  intro chain other member
  cases chain with
  | locals =>
    rw [ended.locals, (nodup .locals).mem_erase_iff] at member
    exact old .locals other member.2 member.1
  | disconnects =>
    rw [ended.disconnects] at member
    exact old .disconnects other member fun same => absent (same ▸ member)
  | closings =>
    rcases ended.own with ⟨_, _, left⟩ | ⟨unlisted, ⟨sock, found, _⟩, _, grown⟩
    · rw [left, (nodup .closings).mem_erase_iff] at member
      exact old .closings other member.2 member.1
    rw [grown] at member
    rcases mem_append.mp member with before | new
    · exact old .closings other before fun same => unlisted (same ▸ before)
    · cases mem_singleton.mp new
      rw [live, found]
      rfl

theorem Works.remoteSocketDisconnect (tidy : Tidy w) (listed : peer ∈ w.chain .disconnects) :
    Works (fun _ after => Kept w after ∧
        after.chain .disconnects = (w.chain .disconnects).erase peer)
      (remoteSocketDisconnect peer) w := by
  obtain ⟨socket, here, paired⟩ := tidy.disconnects peer listed
  have apart : socket ≠ peer := paired.ne paired
  have unlisted := tidy.not_closing paired
  have absent : socket ∉ w.chain .disconnects := fun member => by
    obtain ⟨_, _, paired'⟩ := tidy.disconnects socket member
    exact paired.ne paired' rfl
  obtain ⟨sock, other, found, kind, same, found', kind', same'⟩ := id paired
  refine .deref found' ?_
  rw [same']
  have linked := tidy.linked.setSock socket { sock with peer := none }
  have alone := tidy.alone here paired found
    (show (w.setSock socket (some { sock with peer := none })).sockets socket = _ from
      update_self _ _ _) rfl rfl rfl
  have closes : Works (fun _ after => Ended (w.setSock socket (some { sock with peer := none }))
      socket after) (closePeer (some socket)) w := .store found (.closeAlone linked alone)
  refine .bind closes ?_
  intro _ after ended
  have there : after.sockets peer = some other := by
    rw [ended.others peer apart.symm]
    simp [apart.symm, found']
  refine .touch (removeDisconnect_eq (ended.linked linked tidy.nodup absent) there)
    (steady_of_subset rfl fun _ => by simp) ?_
  refine .free (by exact there) ?_
  obtain ⟨others, own, locals, disconnects, table, fresh, same⟩ := ended
  have gone : Gone w socket peer ((after.setChain .disconnects
      ((after.chain .disconnects).erase peer)).setSock peer none) := by
    refine ⟨?_, ?_, ?_, ?_, ?_, table, fresh, same⟩
    · intro other first second
      simp [others other first, first, second]
    · simp
    · rcases own with ⟨freed, unused, left⟩ | ⟨_, closing, number, grown⟩
      · refine .inl ⟨by simp [apart, freed], unused, ?_⟩
        simpa [erase_of_not_mem unlisted] using left
      · refine .inr ⟨closing.congr (by simp [apart]), ?_, by simpa using grown⟩
        simpa [apart, found] using number
    · simpa using locals
    · simp [disconnects]
  exact ⟨.gone tidy paired gone, gone.disconnects⟩

theorem successor_head {first : Addr} {rest : List Addr} :
    successor (first :: rest) first = rest.head? := by
  simp [successor]

/-- The loop of `run_transport_disconnects`: all that is left of the list is still to be done. -/
theorem Works.disconnectLoop (tidy : Tidy w) {rounds : Nat}
    (enough : (w.chain .disconnects).length ≤ rounds) :
    Works (fun _ after => Kept w after ∧ after.chain .disconnects = [])
      (disconnectLoop rounds (w.chain .disconnects).head?) w := by
  induction rounds generalizing w with
  | zero =>
    have empty := eq_nil_of_length_eq_zero (Nat.le_zero.mp enough)
    rw [empty]
    exact .ret ⟨.refl tidy, empty⟩
  | succ rounds ih =>
    rcases list : w.chain .disconnects with _ | ⟨peer, rest⟩
    · exact .ret ⟨.refl tidy, list⟩
    have member : peer ∈ w.chain .disconnects := by
      rw [list]
      exact mem_cons_self
    have live : w.live peer = true := tidy.linked .disconnects peer member
    refine .ask nofun (fun _ => rfl) ?_
    rw [if_pos ⟨live, member⟩]
    simp only [list, successor_head]
    refine .bind (.remoteSocketDisconnect tidy member) ?_
    rintro _ after ⟨kept, left⟩
    rw [list, erase_cons_head] at left
    rw [← left]
    refine (ih kept.tidy ?_).weaken fun _ final done => ⟨kept.trans done.1, done.2⟩
    rw [list, length_cons] at enough
    rw [left]
    omega

theorem Works.runTransportDisconnects (tidy : Tidy w) :
    Works (fun _ after => Kept w after ∧ after.chain .locals = []) runTransportDisconnects w := by
  refine .ask nofun (fun _ => rfl) ?_
  refine .ask nofun (fun _ => rfl) ?_
  refine (Works.disconnectLoop tidy le_rfl).weaken ?_
  rintro _ after ⟨kept, none⟩
  refine ⟨kept, eq_nil_iff_forall_not_mem.mpr fun socket member => ?_⟩
  obtain ⟨peer, listed, _⟩ := kept.tidy.locals socket member
  rw [none] at listed
  cases listed

end Pairs

/-! ## Looking at sockets -/

section Looking

variable {socket peer : Addr} {before rest : List Addr}

theorem successor_append (absent : socket ∉ before) :
    successor (before ++ socket :: rest) socket = rest.head? := by
  unfold successor
  rw [dropWhile_append_of_pos]
  · simp
  · intro other member
    simp only [ne_eq, decide_not, Bool.not_eq_eq_eq_not, Bool.not_true, decide_eq_false_iff_not]
    exact fun same => absent (same ▸ member)

/-- Going through a list with something that changes nothing. -/
theorem Works.walk {chain : Chain} {visit : Addr → Action (Option α)} {holds : α → Prop}
    (nodup : (w.chain chain).Nodup) (linked : Linked w) (visits : ∀ socket ∈ w.chain chain,
      Works (fun found after => after = w ∧ ∀ value, found = some value → holds value)
        (visit socket) w) {rounds : Nat} (split : w.chain chain = before ++ rest)
    (enough : rest.length ≤ rounds) :
    Works (fun found after => after = w ∧ ∀ value, found = some value → holds value)
      (walk chain visit rounds rest.head?) w := by
  induction rounds generalizing before rest with
  | zero =>
    rw [eq_nil_of_length_eq_zero (Nat.le_zero.mp enough)]
    exact .ret ⟨rfl, nofun⟩
  | succ rounds ih =>
    rcases rest with _ | ⟨socket, rest⟩
    · exact .ret ⟨rfl, nofun⟩
    have member : socket ∈ w.chain chain := by
      rw [split]
      simp
    have absent : socket ∉ before := by
      rw [split] at nodup
      exact fun earlier => (disjoint_of_nodup_append nodup) earlier mem_cons_self
    refine .bind (visits socket member) ?_
    rintro found _ ⟨rfl, known⟩
    rcases found with _ | value
    · refine .ask nofun (fun _ => rfl) ?_
      rw [if_pos ⟨linked chain socket member, member⟩]
      simp only [split, successor_append absent]
      refine @ih (before ++ [socket]) rest ?_ (by simpa using enough)
      rw [split, append_assoc, singleton_append]
    · exact .ret ⟨rfl, known⟩

theorem Works.findLocalSocket (tidy : Tidy w) (id : UInt32) :
    Works (fun found after => after = w ∧ ∀ socket, found = some socket → socket ∈ w.chain .locals)
      (findLocalSocket id) w := by
  have visits : ∀ socket ∈ w.chain .locals,
      Works (fun found after => after = w ∧ ∀ value, found = some value → value ∈ w.chain .locals)
        (do
          let sock ← Adb.deref socket
          .ret (if sock.id = id then some socket else none)) w := by
    intro socket member
    obtain ⟨_, _, sock, _, found, _⟩ := tidy.locals socket member
    refine .deref found (.ret ⟨rfl, ?_⟩)
    intro value same
    split at same
    · cases same
      exact member
    · cases same
  refine .lock ?_
  refine .ask nofun (fun _ => rfl) ?_
  refine .ask nofun (fun _ => rfl) ?_
  refine .bind (.walk (tidy.nodup .locals) tidy.linked visits (nil_append _).symm le_rfl) ?_
  rintro found _ ⟨rfl, known⟩
  exact .unlock (.ret ⟨rfl, known⟩)

theorem Works.remoteSocketSend (paired : Paired w socket peer) {command : UInt32}
    (other : command ≠ aSync) (payload : Bytes) :
    Works (fun _ after => after = w) (remoteSocketSend command payload peer) w := by
  obtain ⟨sock, remote, found, _, _, found', _, same⟩ := paired
  refine .deref found' ?_
  rw [same]
  refine .nonNull (.deref found ?_)
  rw [← Prog.bind_ret (Adb.send _ _ _ _)]
  exact .send other (.ret rfl)

theorem Works.ready_local (found : w.sockets socket = some sock) (kind : sock.kind = .localSocket) :
    Works (fun _ after => after = w) (ready socket) w := by
  refine .deref found ?_
  rw [kind]
  exact .touch_last (events_eq found) (steady_of_subset rfl fun _ => id) rfl

theorem Works.ready_remote (paired : Paired w socket peer) :
    Works (fun _ after => after = w) (ready peer) w := by
  obtain ⟨_, remote, _, _, _, found, kind, _⟩ := id paired
  refine .deref found ?_
  rw [kind]
  exact .remoteSocketSend paired (by decide) []

theorem Works.writeOut (rounds : Nat) (pending : Pending) :
    Works (fun _ after => after = w) (writeOut rounds pending) w := by
  induction rounds generalizing pending with
  | zero => exact .ret rfl
  | succ rounds ih =>
    unfold Adb.writeOut
    split
    · exact .ret rfl
    refine .look nofun ?_ ?_
    · intro choice after reply acted
      cases choice <;> cases acted <;> rfl
    intro choice reply acted
    cases choice with
    | count count =>
      cases acted
      dsimp only
      split
      · exact .ret rfl
      rw [dif_pos (min_le_right _ _)]
      exact ih _
    | again =>
      cases acted
      exact .ret rfl
    | failed =>
      cases acted
      exact .ret rfl
    | _ => cases acted

end Looking

/-! ## Events of local sockets -/

section Events

variable {socket peer : Addr} {sock : Sock} (tidy : Tidy w)

include tidy

theorem Tidy.setQueue (found : w.sockets socket = some sock)
    (queue : List Pending) : Tidy (w.setSock socket (some { sock with queue := queue })) := by
  have same : ∀ {other : Addr} {before : Sock}, w.sockets other = some before →
      ∃ now, (w.setSock socket (some { sock with queue := queue })).sockets other = some now ∧
        now.kind = before.kind ∧ now.peer = before.peer ∧ now.closing = before.closing ∧
          now.fd = before.fd := by
    intro other before there
    by_cases own : other = socket
    · subst own
      cases there.symm.trans found
      exact ⟨_, update_self _ _ _, rfl, rfl, rfl, rfl⟩
    · exact ⟨before, by simp [own, there], rfl, rfl, rfl, rfl⟩
  have pairs : ∀ {socket' peer'}, Paired w socket' peer' →
      Paired (w.setSock socket (some { sock with queue := queue })) socket' peer' := by
    rintro socket' peer' ⟨first, second, there, kind, peer, there', kind', peer''⟩
    obtain ⟨now, found, kindNow, peerNow, _⟩ := same there
    obtain ⟨now', found', kindNow', peerNow', _⟩ := same there'
    exact ⟨now, now', found, kindNow.trans kind, peerNow.trans peer, found',
      kindNow'.trans kind', peerNow'.trans peer''⟩
  refine ⟨tidy.nodup, ?_, ?_, ?_, ?_, ?_⟩
  · intro other now there
    by_cases own : other = socket
    · exact own ▸ tidy.fresh socket sock found
    · simp only [setSock_sockets, update_of_ne own] at there
      exact tidy.fresh other now there
  · intro other member
    obtain ⟨peer', listed, paired⟩ := tidy.locals other member
    exact ⟨peer', listed, pairs paired⟩
  · intro other member
    obtain ⟨socket', listed, paired⟩ := tidy.disconnects other member
    exact ⟨socket', listed, pairs paired⟩
  · intro other member
    obtain ⟨before, there, kind, closing, peer⟩ := tidy.closings other member
    obtain ⟨now, found, kindNow, peerNow, closingNow, _⟩ := same there
    exact ⟨now, found, kindNow.trans kind, closingNow.trans closing, peerNow.trans peer⟩
  · intro fd other entry
    obtain ⟨listed, before, there, number⟩ := tidy.table fd other entry
    obtain ⟨now, found, _, _, _, numberNow⟩ := same there
    exact ⟨listed, now, found, numberNow.trans number⟩

theorem Kept.setQueue (found : w.sockets socket = some sock)
    (queue : List Pending) : Kept w (w.setSock socket (some { sock with queue := queue })) :=
  ⟨tidy.setQueue found queue, ⟨rfl, rfl, rfl⟩, fun _ => id⟩

/-- `socket->enqueue(socket, packet)` for a local socket; it is still there if 0 is returned. -/
theorem Works.enqueue_local (listed : socket ∈ w.chain .locals) (packet : Pending) :
    Works (fun taken after => Kept w after ∧ (taken = true → after = w)) (enqueue socket packet) w := by
  obtain ⟨peer, _, paired⟩ := tidy.locals socket listed
  obtain ⟨sock, other, found, kind, _⟩ := id paired
  have queued : ∀ queue, Works (fun taken after => Kept w after ∧ (taken = true → after = w))
      (do
        Adb.touch (.store socket (.queue queue))
        Adb.touch (.events socket)
        .ret false) w := by
    intro queue
    refine .store found ?_
    refine .events (update_self _ _ _) ?_
    exact .ret ⟨.setQueue tidy found queue, nofun⟩
  refine .deref found ?_
  rw [kind]
  refine .deref found ?_
  split
  · refine .bind (.writeOut _ _) ?_
    rintro result _ rfl
    rcases result with _ | rest
    · refine .bind (.close tidy (.inl listed)) ?_
      exact fun _ after kept => .ret ⟨kept, nofun⟩
    · dsimp only
      split
      · exact .ret ⟨.refl tidy, fun _ => rfl⟩
      · exact queued [rest]
  · exact queued _

section

variable (listed : Listed w socket)

include listed

/-- The queue of a socket is written as far as possible.  If that was all of it, the socket is
where it was. -/
theorem Works.drain (queue : List Pending) :
    Works (fun drained after => Kept w after ∧ (drained = .all → after.chain = w.chain))
      (drain socket queue) w := by
  induction queue generalizing w with
  | nil => exact .ret ⟨.refl tidy, fun _ => rfl⟩
  | cons packet queue ih =>
    obtain ⟨sock, found⟩ := tidy.found listed
    refine .bind (.writeOut _ _) ?_
    rintro result _ rfl
    rcases result with _ | rest
    · refine .bind (.close tidy listed) ?_
      exact fun _ after kept => .ret ⟨kept, nofun⟩
    dsimp only
    split
    · refine .store found ?_
      refine (ih (tidy.setQueue found queue) listed).weaken ?_
      rintro drained after ⟨kept, unmoved⟩
      exact ⟨(Kept.setQueue tidy found queue).trans kept, unmoved⟩
    · refine .store found ?_
      exact .ret ⟨.setQueue tidy found _, nofun⟩

theorem Works.eventWrite :
    Works (fun goesOn after => Kept w after ∧ (goesOn = true → Listed after socket))
      (eventWrite socket) w := by
  obtain ⟨sock, found⟩ := tidy.found listed
  refine .deref found ?_
  refine .bind (.drain tidy listed _) ?_
  rintro drained after ⟨kept, unmoved⟩
  cases drained with
  | stopped => exact .ret ⟨kept, nofun⟩
  | all =>
    have listed : Listed after socket := by rwa [Listed, unmoved rfl]
    rcases listed with here | closing
    · obtain ⟨peer, _, paired⟩ := kept.tidy.locals socket here
      obtain ⟨sock, other, found, kind, same, _⟩ := id paired
      refine .deref found ?_
      split
      · refine .bind (.close kept.tidy (.inl here)) ?_
        exact fun _ final closed => .ret ⟨kept.trans closed, nofun⟩
      · refine .events found ?_
        rw [same]
        refine .nonNull (.bind (.ready_remote paired) ?_)
        rintro _ _ rfl
        exact .ret ⟨kept, fun _ => .inl here⟩
    · obtain ⟨sock, found, kind, marked, _⟩ := kept.tidy.closings socket closing
      refine .deref found ?_
      rw [if_pos marked]
      refine .bind (.close kept.tidy (.inr closing)) ?_
      exact fun _ final closed => .ret ⟨kept.trans closed, nofun⟩

theorem Works.eventRead : Works (fun _ after => Kept w after) (eventRead socket) w := by
  obtain ⟨sock, found⟩ := tidy.found listed
  refine .look nofun ?_ ?_
  · intro choice after reply acted
    cases choice <;> cases acted
    rfl
  intro _ got _
  refine .deref found ?_
  have passes : Works (fun _ after => after = w) (passOn socket got.count sock.peer) w := by
    rcases listed with here | closing
    · obtain ⟨peer, _, paired⟩ := tidy.locals socket here
      obtain ⟨sock', other, found', _, same, there, kind, _⟩ := id paired
      cases found.symm.trans found'
      rw [same]
      simp only [passOn, enqueue]
      split
      · exact .ret rfl
      rw [Prog.bind_assoc]
      refine .deref there ?_
      rw [kind]
      rw [Prog.bind_assoc]
      refine .bind (.remoteSocketSend paired (by decide) _) ?_
      rintro _ _ rfl
      exact .touch_last (events_eq found) (steady_of_subset rfl fun _ => id) rfl
    · obtain ⟨sock', found', _, _, alone⟩ := tidy.closings socket closing
      cases found.symm.trans found'
      rw [alone]
      exact .ret rfl
  refine .bind passes ?_
  rintro _ _ rfl
  refine .events found ?_
  split
  · exact .close tidy listed
  · exact .ret (.refl tidy)

theorem Works.localSocketEventFunc (write read : Bool) :
    Works (fun _ after => Kept w after) (localSocketEventFunc socket write read) w := by
  have first : Works (fun goesOn after => Kept w after ∧ (goesOn = true → Listed after socket))
      (if write then Adb.eventWrite socket else .ret true) w := by
    split
    · exact .eventWrite tidy listed
    · exact .ret ⟨.refl tidy, fun _ => listed⟩
  refine .bind first ?_
  rintro goesOn after ⟨kept, there⟩
  split
  · rename_i both
    exact (Works.eventRead kept.tidy (there both.1)).weaken fun _ final done => kept.trans done
  · exact .ret kept

end

end Events

/-! ## New sockets -/

section Opening

/-- The world with a new local socket that has no peer yet. -/
@[simps]
def opened (w : World) (fd : Nat) : World :=
  { w with
    sockets := update w.sockets w.fresh (some ⟨.localSocket, w.nextId, false, none, fd, [], false⟩)
    fresh := w.fresh + 1
    nextId := w.nextId + 1
    chain := update w.chain .locals (w.chain .locals ++ [w.fresh])
    fdTable := update w.fdTable fd (some w.fresh) }

/-- The world with a new pair of sockets. -/
@[simps]
def connected (w : World) (fd : Nat) (id : UInt32) : World :=
  { opened w fd with
    sockets := update (update w.sockets w.fresh
        (some ⟨.localSocket, w.nextId, false, some (w.fresh + 1), fd, [], false⟩))
      (w.fresh + 1) (some ⟨.remoteSocket, id, false, some w.fresh, 0, [], true⟩)
    fresh := w.fresh + 2
    chain := update (opened w fd).chain .disconnects (w.chain .disconnects ++ [w.fresh + 1]) }

theorem Linked.insert {new : Addr} (linked : Linked w) (live : w.live new = true) (chain : Chain) :
    Linked (w.setChain chain (w.chain chain ++ [new])) := by
  refine linked.setChain chain fun other member => ?_
  rcases mem_append.mp member with old | added
  · exact linked chain other old
  · cases mem_singleton.mp added
    exact live

variable (tidy : Tidy w)

include tidy

theorem Tidy.fresh_not_mem (chain : Chain) {new : Addr} (unused : w.fresh ≤ new) :
    new ∉ w.chain chain := by
  intro member
  obtain ⟨sock, found⟩ := Option.isSome_iff_exists.mp (tidy.linked chain new member)
  exact absurd (tidy.fresh new sock found) (not_lt.mpr unused)

theorem Works.createLocalSocket (quiet : w.told = false) (fd : Nat) :
    Works (fun socket after => socket = w.fresh ∧ after = opened w fd) (createLocalSocket fd) w := by
  refine .call nofun ?_
  rintro choice _ _ ⟨⟩
  refine ⟨steady_of_not_told quiet quiet, .lock ?_⟩
  refine .call nofun ?_
  rintro choice _ _ ⟨⟩
  refine ⟨steady_of_not_told quiet quiet, ?_⟩
  refine .store (update_self _ _ _) ?_
  refine .insert ?_ (update_self _ _ _) quiet (.unlock ?_)
  · exact (tidy.linked.setSock w.fresh _).setSock w.fresh _
  refine .install (update_self _ _ _) (.ret ⟨rfl, ?_⟩)
  simp [opened, World.setSock, setChain, Change.apply]

theorem Tidy.linked_opened (fd : Nat) : Linked (opened w fd) := by
  have linked := tidy.linked.setSock w.fresh ⟨.localSocket, w.nextId, false, none, fd, [], false⟩
  exact linked.insert (by simp [live]) .locals

theorem Works.connectTo (quiet : w.told = false) (fd : Nat) (id : UInt32) :
    Works (fun _ after => after = connected w fd id) (connectTo w.fresh id) (opened w fd) := by
  unfold Adb.connectTo createRemoteSocket
  rw [Prog.bind_assoc]
  refine .call nofun ?_
  rintro choice _ _ ⟨⟩
  refine ⟨steady_of_not_told quiet quiet, ?_⟩
  rw [Prog.bind_assoc]
  refine .insert ?_ (update_self _ _ _) quiet ?_
  · exact (tidy.linked_opened fd).setSock (w.fresh + 1) _
  have there : ((opened w fd).setSock (w.fresh + 1)
      (some ⟨.remoteSocket, id, false, none, 0, [], true⟩)).sockets w.fresh =
        some ⟨.localSocket, w.nextId, false, none, fd, [], false⟩ := by simp
  refine .store (by exact there) ?_
  refine .deref (update_self _ _ _) (.nonNull ?_)
  have peer : (((opened w fd).setSock (w.fresh + 1)
      (some ⟨.remoteSocket, id, false, none, 0, [], true⟩)).setSock w.fresh
        (some ⟨.localSocket, w.nextId, false, some (w.fresh + 1), fd, [], false⟩)).sockets
          (w.fresh + 1) = some ⟨.remoteSocket, id, false, none, 0, [], true⟩ := by simp
  rw [← Prog.bind_ret (Adb.touch _)]
  refine .store (by exact peer) (.ret ?_)
  simp only [connected, World.setSock, setChain, Change.apply, opened]
  congr 1
  funext other
  simp only [update_apply]
  split
  · rfl
  · split <;> rfl

theorem Tidy.connected (fd : Nat) (id : UInt32) : Tidy (connected w fd id) := by
  have old : ∀ {other : Addr} {sock : Sock}, w.sockets other = some sock →
      other < w.fresh ∧ (Adb.connected w fd id).sockets other = some sock := by
    intro other sock found
    have below := tidy.fresh other sock found
    have first : other ≠ w.fresh := ne_of_lt below
    have second : other ≠ w.fresh + 1 := ne_of_lt (Nat.lt_succ_of_lt below)
    exact ⟨below, by simp [first, second, found]⟩
  have pairs : ∀ {socket peer}, Paired w socket peer → Paired (Adb.connected w fd id) socket peer := by
    rintro socket peer ⟨sock, other, found, kind, same, found', kind', same'⟩
    exact ⟨sock, other, (old found).2, kind, same, (old found').2, kind', same'⟩
  have new : Paired (Adb.connected w fd id) w.fresh (w.fresh + 1) := by
    refine ⟨⟨.localSocket, w.nextId, false, some (w.fresh + 1), fd, [], false⟩, _, ?_, rfl, rfl,
      update_self _ _ _, rfl, rfl⟩
    simp
  refine ⟨?_, ?_, ?_, ?_, ?_, ?_⟩
  · intro chain
    have grown : ∀ chain new, w.fresh ≤ new → (w.chain chain ++ [new]).Nodup := by
      intro chain new unused
      rw [← concat_eq_append]
      exact (tidy.nodup chain).concat (tidy.fresh_not_mem chain unused)
    cases chain with
    | locals => simpa using grown .locals w.fresh le_rfl
    | closings => simpa using tidy.nodup .closings
    | disconnects => simpa using grown .disconnects (w.fresh + 1) (Nat.le_succ _)
  · intro other sock found
    simp only [connected_sockets, update_apply] at found
    split at found
    · rename_i same
      exact same ▸ Nat.lt_succ_self _
    split at found
    · rename_i same
      exact same ▸ Nat.lt_succ_of_lt (Nat.lt_succ_self _)
    · exact Nat.lt_succ_of_lt (Nat.lt_succ_of_lt (tidy.fresh other sock found))
  · intro other member
    simp only [connected_chain] at member ⊢
    rcases mem_append.mp member with before | added
    · obtain ⟨peer, listed, paired⟩ := tidy.locals other before
      exact ⟨peer, mem_append_left _ listed, pairs paired⟩
    · cases mem_singleton.mp added
      exact ⟨w.fresh + 1, by simp, new⟩
  · intro other member
    simp only [connected_chain] at member ⊢
    rcases mem_append.mp member with before | added
    · obtain ⟨socket, listed, paired⟩ := tidy.disconnects other before
      exact ⟨socket, mem_append_left _ listed, pairs paired⟩
    · cases mem_singleton.mp added
      exact ⟨w.fresh, by simp, new⟩
  · intro other member
    have before : other ∈ w.chain .closings := by simpa using member
    obtain ⟨sock, found, rest⟩ := tidy.closings other before
    exact ⟨sock, (old found).2, rest⟩
  intro fd' other entry
  simp only [connected_fdTable, opened_fdTable, update_apply] at entry
  split at entry
  · rename_i same
    cases entry
    refine ⟨.inl (by simp), ⟨.localSocket, w.nextId, false, some (w.fresh + 1), fd, [], false⟩,
      by simp, same.symm⟩
  obtain ⟨listed, sock, found, number⟩ := tidy.table fd' other entry
  refine ⟨listed.imp ?_ ?_, sock, (old found).2, number⟩
  · intro here
    simp [here]
  · intro closing
    simpa using closing

end Opening

end PhilzTouch.Adb
