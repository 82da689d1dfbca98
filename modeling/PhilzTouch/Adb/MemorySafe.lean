import PhilzTouch.Adb.Lifetimes

/-!
# Memory safety of the daemon

No packet of the host makes the daemon use a freed socket or read behind a payload, provided that
every banner ends inside its payload and that the host leaves it to the daemon to say that the
transport is offline.
-/

namespace PhilzTouch.Adb

open World List Prog

variable {w : World}

/-- A packet of the host that does no harm. -/
structure Harmless (packet : Packet) : Prop where
  inside : packet.dataLength.toNat ≤ maxPayload
  banner : packet.command = aCnxn → BannerEnds packet.payload
  online : ¬ (packet.command = aSync ∧ packet.arg0 = 0)

/-- What handling a packet leaves of a tidy world. -/
def Handled (w after : World) : Prop := Tidy after ∧ Same w after

theorem Handled.of_kept {after : World} (kept : Kept w after) : Handled w after :=
  ⟨kept.tidy, kept.same⟩

/-- What is not about sockets does not matter. -/
theorem Tidy.other (tidy : Tidy w) (told gone : Bool) (incoming : List Packet)
    (state : ConnectionState) (product : Option Bytes) : Tidy { w with
      told := told, gone := gone, incoming := incoming, connection := state, product := product } :=
  ⟨tidy.nodup, tidy.fresh, tidy.locals, tidy.disconnects, tidy.closings, tidy.table⟩

section Handlers

variable {packet : Packet}

theorem Works.whenOnline {post : Unit → World → Prop} {action : Action Unit}
    (online : Works post action w) (offline : post () w) : Works post (whenOnline action) w := by
  refine .ask nofun (fun _ => rfl) ?_
  dsimp only
  split
  · exact online
  · exact .ret offline

theorem payload_eq (inside : packet.dataLength.toNat ≤ maxPayload) :
    payload packet = .ret packet.payload := if_pos inside

variable (tidy : Tidy w)

include tidy

theorem Works.handleOffline :
    Works (fun _ after => Handled w after ∧ after.chain .locals = []) handleOffline w := by
  refine .ask nofun (fun _ => rfl) ?_
  refine .call nofun ?_
  rintro _ _ _ ⟨⟩
  refine ⟨steady_of_subset rfl fun _ => id, ?_⟩
  refine (Works.runTransportDisconnects (tidy.other ..)).weaken ?_
  exact fun _ after done => ⟨⟨done.1.tidy, done.1.same⟩, done.2⟩

theorem Works.handleSync (harmless : Harmless packet) (command : packet.command = aSync) :
    Works (fun _ after => Handled w after) (handleSync packet) w := by
  have online : packet.arg0 ≠ 0 := fun zero => harmless.online ⟨command, zero⟩
  unfold Adb.handleSync
  rw [if_pos online]
  unfold sendBack
  rw [payload_eq harmless.inside, ret_bind, ← bind_ret (Adb.send _ _ _ _)]
  refine .look nofun ?_ fun _ _ _ => .ret ⟨tidy, rfl, rfl, rfl⟩
  rintro _ _ _ ⟨⟩
  simp [Message.offline, online]

theorem Works.handleCnxn (harmless : Harmless packet) (command : packet.command = aCnxn) :
    Works (fun _ after => Handled w after) (handleCnxn packet) w := by
  obtain ⟨inside, banner, _⟩ := harmless
  refine Works.bind (Works.whenOnline ((Works.handleOffline tidy).weaken
    fun _ _ done => done.1) ⟨tidy, rfl, rfl, rfl⟩) ?_
  rintro _ after ⟨tidy, same⟩
  rw [payload_eq inside, ret_bind]
  refine .ask nofun (fun _ => rfl) ?_
  obtain ⟨⟨state, product⟩, parsed⟩ :=
    (parseBanner_isSome_iff packet.payload after.product).mpr (banner command)
  simp only [parsed, reading, ret_bind]
  refine .call nofun ?_
  rintro _ _ _ ⟨⟩
  refine ⟨steady_of_subset rfl fun _ => id, ?_⟩
  rw [← bind_ret (Adb.send _ _ _ _)]
  exact .send (by decide) (.ret ⟨tidy.other .., same⟩)

theorem Works.handleOpen (quiet : w.told = false) (inside : packet.dataLength.toNat ≤ maxPayload) :
    Works (fun _ after => Handled w after) (handleOpen packet) w := by
  have refuses : Works (fun _ after => Handled w after) (Adb.send aClse 0 packet.arg0 []) w := by
    rw [← bind_ret (Adb.send _ _ _ _)]
    exact .send (by decide) (.ret ⟨tidy, rfl, rfl, rfl⟩)
  obtain ⟨service, known⟩ := serviceToFd_isSome packet.payload
  unfold Adb.handleOpen
  simp only [payload_eq inside, known, reading, ret_bind]
  rcases service with _ | count
  · exact refuses
  refine .look nofun ?_ ?_
  · intro choice after reply acted
    cases choice with
    | descriptor fd =>
      simp only [act] at acted
      split at acted
      · cases acted
        rfl
      · cases acted
    | failed =>
      cases acted
      rfl
    | _ => cases acted
  rintro _ fd _
  rcases fd with _ | fd
  · exact refuses
  refine .bind (.createLocalSocket tidy quiet fd) ?_
  rintro _ _ ⟨rfl, rfl⟩
  refine .bind (.connectTo tidy quiet fd packet.arg0) ?_
  rintro _ _ rfl
  have tidy := tidy.connected fd packet.arg0
  have found : (connected w fd packet.arg0).sockets w.fresh =
      some ⟨.localSocket, w.nextId, false, some (w.fresh + 1), fd, [], false⟩ := by simp
  have peer : (connected w fd packet.arg0).sockets (w.fresh + 1) =
      some ⟨.remoteSocket, packet.arg0, false, some w.fresh, 0, [], true⟩ := by simp
  refine .deref found (.nonNull (.deref peer ?_))
  refine Works.send (by decide) ((Works.ready_local found rfl).weaken ?_)
  rintro _ _ rfl
  exact ⟨tidy, rfl, rfl, rfl⟩

theorem Works.handleOkay : Works (fun _ after => Handled w after) (handleOkay packet) w := by
  refine .bind (.findLocalSocket tidy _) ?_
  rintro found _ ⟨rfl, known⟩
  rcases found with _ | socket
  · exact .ret ⟨tidy, rfl, rfl, rfl⟩
  obtain ⟨peer, _, sock, _, found, kind, same, _⟩ := tidy.locals socket (known socket rfl)
  refine .deref found ?_
  rw [same, if_neg nofun, ret_bind]
  refine (Works.ready_local found kind).weaken ?_
  rintro _ _ rfl
  exact ⟨tidy, rfl, rfl, rfl⟩

theorem Works.handleClse : Works (fun _ after => Handled w after) (handleClse packet) w := by
  refine .bind (.findLocalSocket tidy _) ?_
  rintro found _ ⟨rfl, known⟩
  rcases found with _ | socket
  · exact .ret ⟨tidy, rfl, rfl, rfl⟩
  · exact (Works.close tidy (.inl (known socket rfl))).weaken fun _ _ kept => .of_kept kept

theorem Works.handleWrte (inside : packet.dataLength.toNat ≤ maxPayload) :
    Works (fun _ after => Handled w after) (handleWrte packet) w := by
  refine .bind (.findLocalSocket tidy _) ?_
  rintro found _ ⟨rfl, known⟩
  rcases found with _ | socket
  · exact .ret ⟨tidy, rfl, rfl, rfl⟩
  obtain ⟨_, _, sock, _, found, _⟩ := tidy.locals socket (known socket rfl)
  simp only [payload_eq inside, ret_bind]
  refine .bind (.enqueue_local tidy (known socket rfl) _) ?_
  rintro taken after ⟨kept, unchanged⟩
  cases taken with
  | false => exact .ret (.of_kept kept)
  | true =>
    cases unchanged rfl
    refine .deref found ?_
    rw [← bind_ret (Adb.send _ _ _ _)]
    exact .send (by decide) (.ret (.of_kept kept))

theorem Works.handlePacket (quiet : w.told = false) (harmless : Harmless packet) :
    Works (fun _ after => Handled w after) (handlePacket packet) w := by
  have nothing : Handled w w := ⟨tidy, rfl, rfl, rfl⟩
  unfold Adb.handlePacket
  split
  · exact .handleSync tidy harmless ‹_›
  split
  · exact .handleCnxn tidy harmless ‹_›
  split
  · exact .whenOnline (.handleOpen tidy quiet harmless.inside) nothing
  split
  · exact .whenOnline (.handleOkay tidy) nothing
  split
  · exact .whenOnline (.handleClse tidy) nothing
  split
  · exact .whenOnline (.handleWrte tidy harmless.inside) nothing
  · exact .ret nothing

end Handlers

/-! ## The threads -/

/-- The event loop between two events. -/
structure Idle (w : World) : Prop where
  tidy : Tidy w
  calm : w.told = true → w.chain .locals = []
  feed : w.incoming = [] ∨ w.told = false ∧ ∃ packets,
    w.incoming = packets ++ [syncPacket 0 0] ∧ ∀ packet ∈ packets, Harmless packet

theorem Idle.of_kept {after : World} (idle : Idle w) (kept : Kept w after) : Idle after := by
  obtain ⟨told, incoming, _⟩ := kept.same
  refine ⟨kept.tidy, fun left => ?_, ?_⟩
  · rw [eq_nil_iff_forall_not_mem]
    intro socket member
    have := kept.fewer socket member
    rw [idle.calm (told ▸ left)] at this
    cases this
  · rw [told, incoming]
    exact idle.feed

/-- The packet with which the output thread ends: it is only sent on to the input thread when all
sockets are closed. -/
theorem Works.handlePacket_offline (tidy : Tidy w) (last : w.incoming = []) :
    Works (fun _ after => Idle after) (Adb.handlePacket (syncPacket 0 0)) w := by
  unfold Adb.handlePacket
  rw [if_pos (by rfl)]
  unfold Adb.handleSync
  rw [if_neg (by decide)]
  refine .bind (.handleOffline tidy) ?_
  rintro _ after ⟨⟨tidy, same⟩, closed⟩
  unfold sendBack
  rw [payload_eq (by decide), ret_bind, ← bind_ret (Adb.send _ _ _ _)]
  refine .call nofun ?_
  rintro _ _ _ ⟨⟩
  refine ⟨fun _ => ⟨fun told => by simp [told], fun _ => closed⟩, .ret ?_⟩
  refine ⟨tidy.other .., fun _ => closed, .inl ?_⟩
  exact same.2.1.trans last

theorem Works.eventLoop (idle : Idle w) : Works (fun _ after => Idle after) eventLoop w := by
  refine .call (by simp) ?_
  intro choice after event acted
  simp only [act] at acted
  split at acted
  · rename_i packet incoming arrived
    split at acted
    · cases acted
    cases acted
    refine ⟨steady_of_subset rfl fun _ => id, ?_⟩
    obtain ⟨quiet, packets, list, harmless⟩ := idle.feed.resolve_left (by rw [arrived]; simp)
    have tidy : Tidy { w with incoming := incoming } := idle.tidy.other ..
    rw [arrived] at list
    rcases packets with _ | ⟨first, packets⟩
    · cases list
      exact .handlePacket_offline tidy rfl
    cases list
    refine (Works.handlePacket tidy quiet (harmless _ mem_cons_self)).weaken ?_
    rintro _ final ⟨tidy, told, same, _⟩
    refine ⟨tidy, fun left => ?_, .inr ⟨told.trans quiet, packets, same, ?_⟩⟩
    · rw [told.trans quiet] at left
      cases left
    · exact (forall_mem_cons.mp harmless).2
  · obtain ⟨socket, entry, same⟩ := Option.map_eq_some_iff.mp acted
    cases same
    refine ⟨steady_of_subset rfl fun _ => id, ?_⟩
    refine (Works.localSocketEventFunc idle.tidy (idle.tidy.table _ _ entry).1 _ _).weaken ?_
    exact fun _ final kept => idle.of_kept kept
  · split at acted
    · cases acted
    cases acted
    refine ⟨steady_of_subset rfl fun _ => id, ?_⟩
    refine .bind (.runTransportDisconnects idle.tidy) ?_
    rintro _ final ⟨kept, _⟩
    have idle := idle.of_kept kept
    rw [← Prog.bind_ret (Prog.call _)]
    refine .call (by simp) ?_
    rintro _ _ _ ⟨⟩
    exact ⟨steady_of_subset rfl fun _ => id, .ret ⟨idle.tidy.other .., idle.calm, idle.feed⟩⟩
  · cases acted

/-- The input thread has been told to leave. -/
def Dismissed (shared : Shared) : Prop := Calm shared ∧ shared.world.told = true

variable {shared : Shared}

/-- An operation of the input thread after it has been told to leave. -/
theorem Dismissed.call {op : Op} {rest : Reply op → Action Unit} (dismissed : Dismissed shared)
    (received : op ≠ .receive) (sent : ∀ message, op ≠ .send message)
    (silent : ∀ choice w after reply, act op choice w = some (after, reply) → after = w)
    (continues : ∀ choice after reply, Dismissed after →
      act op choice after.world = some (after.world, reply) →
      adb.Secure .input KeepsCalm SameWorld (fun _ => Calm) (rest reply) after) :
    adb.Secure .input KeepsCalm SameWorld (fun _ => Calm) (call op >>= rest) shared := by
  refine .call ?_
  intro now keeps choice after reply performed
  obtain ⟨told, queued, closed⟩ := keeps dismissed.1
  obtain ⟨acted, passed⟩ := perform_world received performed
  have same := silent choice now.world after.world reply acted
  have queue : after.toInput = now.toInput :=
    passed.resolve_right fun ⟨message, send, _⟩ => sent message send
  refine ⟨same, continues choice after reply ⟨⟨?_, ?_⟩, ?_⟩ ?_⟩
  · rw [queue, same]
    exact queued
  · rw [same]
    exact closed
  · rw [same]
    exact told dismissed.2
  · rw [same] at acted ⊢
    exact acted

theorem Dismissed.closeAllSockets {rest : Unit → Action Unit} (dismissed : Dismissed shared)
    (continues : ∀ after, Dismissed after →
      adb.Secure .input KeepsCalm SameWorld (fun _ => Calm) (rest ()) after) :
    adb.Secure .input KeepsCalm SameWorld (fun _ => Calm) (closeAllSockets >>= rest) shared := by
  have unlocks : ∀ after, Dismissed after → adb.Secure .input KeepsCalm SameWorld (fun _ => Calm)
      (.call .unlock >>= rest) after := fun after dismissed =>
    dismissed.call nofun nofun (by rintro _ _ _ _ ⟨⟩; rfl) fun _ after _ dismissed _ =>
      continues after dismissed
  unfold Adb.closeAllSockets
  refine dismissed.call nofun nofun (by rintro _ _ _ _ ⟨⟩; rfl) fun _ _ _ dismissed _ => ?_
  refine dismissed.call nofun nofun (by rintro _ _ _ _ ⟨⟩; rfl) fun _ after rounds dismissed seen => ?_
  have closed := dismissed.1.2 dismissed.2
  simp only [act, closed, Option.some.injEq, Prod.mk.injEq, true_and] at seen
  subst seen
  exact unlocks after dismissed

/-- When the input thread is told to leave, it finds no sockets to close. -/
theorem inputLoop_secure (calm : Calm shared) :
    adb.Secure .input KeepsCalm SameWorld (fun _ => Calm) inputLoop shared := by
  refine .call ?_
  intro now keeps choice after message performed
  obtain ⟨queued, closed⟩ := (keeps calm).2
  simp only [perform] at performed
  split at performed
  · rename_i first rest queue
    split at performed
    · cases performed
    cases performed
    have calm : Calm { now with toInput := rest } :=
      ⟨fun other member => queued other (queue ▸ mem_cons_of_mem _ member), closed⟩
    refine ⟨rfl, ?_⟩
    split
    · have told := queued message (queue ▸ mem_cons_self) ‹_›
      refine Dismissed.closeAllSockets ⟨calm, told⟩ fun after dismissed => ?_
      rw [← bind_ret (call _)]
      refine dismissed.call nofun nofun (by rintro _ _ _ _ ⟨⟩; rfl) fun _ _ _ dismissed _ => ?_
      exact .ret fun now keeps => (keeps dismissed.1).2
    · exact .ret fun now keeps => (keeps calm).2
  · cases performed

/-- What the two threads promise each other. -/
def contract : Threads.Contract adb where
  rely
    | .main => SameWorld
    | .input => KeepsCalm
  guarantee
    | .main => KeepsCalm
    | .input => SameWorld
  idle
    | .main => fun shared => Idle shared.world
    | .input => Calm
  refl
    | .main, _ => rfl
    | .input, _ => fun calm => ⟨id, calm⟩
  trans
    | .main, _, _, _ => fun first second => second.trans first
    | .input, _, _, _ => fun first second calm =>
      ⟨(second (first calm).2).1 ∘ (first calm).1, (second (first calm).2).2⟩
  compatible := by
    rintro (_ | _) (_ | _) different before after guaranteed
    · exact absurd rfl different
    · exact guaranteed
    · exact guaranteed
    · exact absurd rfl different
  starts
    | .main, _, shared, idle => Works.eventLoop idle shared rfl
    | .input, _, _, calm => inputLoop_secure calm

/-- What the host may send: banners that end, and no word that the transport is offline. -/
def Packet.Admissible (packet : Packet) : Prop :=
  (packet.command = aCnxn → BannerEnds packet.payload) ∧
    ¬ (packet.command = aSync ∧ packet.arg0 = 0)

instance (packet : Packet) : Decidable packet.Admissible := inferInstanceAs (Decidable (_ ∧ _))

theorem Packet.Admissible.harmless {packet : Packet} (admissible : packet.Admissible)
    (passes : packet.passes) : Harmless packet := by
  have header : packet.checkHeader := (Bool.and_eq_true_iff.mp passes).1
  exact ⟨(of_decide_eq_true header).2, admissible.1, admissible.2⟩

variable {host : List Packet}

theorem initial_honoured (admissible : ∀ packet ∈ host.takeWhile Packet.passes, packet.Admissible) :
    Threads.Honoured contract (initial host) := by
  have tidy : Tidy (registered host) := ⟨fun _ => nodup_nil, nofun, nofun, nofun, nofun, nofun⟩
  rintro (_ | _)
  · refine .ret fun now same => ?_
    change Idle now.world
    rw [show now.world = registered host from same]
    refine ⟨tidy, nofun, .inr ⟨rfl, syncPacket 1 2 :: host.takeWhile Packet.passes, rfl, ?_⟩⟩
    intro packet member
    rcases mem_cons.mp member with rfl | taken
    · exact ⟨by decide, by decide, by decide⟩
    · exact (admissible packet taken).harmless (mem_takeWhile_imp taken)
  · exact .ret fun now keeps => (keeps ⟨nofun, nofun⟩).2

/-- A packet of the host with a text as its payload. -/
def hostPacket (command arg0 arg1 : UInt32) (text : Bytes) : Packet where
  command := command
  arg0 := arg0
  arg1 := arg1
  dataLength := text.length.toUInt32
  dataCheck := text.foldl (fun sum byte => sum + byte.toUInt32) 0
  magic := command ^^^ 0xffffffff
  data := (text ++ replicate maxPayload 0xff).take maxPayload
  room := by simp

/-- The same thread goes on for some steps. -/
def turns (count : Nat) (thread : Thread) (choice : Choice) : List adb.Move :=
  replicate count ⟨thread, choice⟩

/-- A host that starts a sideload. -/
def sideloads : List Packet :=
  [hostPacket aCnxn 0 0 (ascii "host::" ++ [0]), hostPacket aOpen 7 0 (ascii "sideload:1" ++ [0])]

/-- Whatever the host sends and however the threads interleave, no thread uses a socket that has
been freed or reads behind a payload. -/
theorem daemon_memory_safe (host : List Packet)
    (admissible : ∀ packet ∈ host.takeWhile Packet.passes, packet.Admissible)
    (moves : List adb.Move) (config : adb.Config)
    (ran : adb.run (initial host) moves = some config) : ¬ adb.Stuck config :=
  ((initial_honoured admissible).run ran).not_stuck

theorem daemon_memory_safe_sideloads :
    ∃ moves config, adb.run (initial sideloads) moves = some config ∧
      config.state.world.chain .locals = [0] ∧ ¬ adb.Stuck config := by
  have serves : (adb.run (initial sideloads) (turns 12 .main .packet ++
      turns 1 .main (.descriptor 5) ++ turns 17 .main .ok)).any
        fun config => config.state.world.chain .locals = [0] := by decide +kernel
  obtain ⟨config, ran, opened⟩ := (Option.any_eq_true _ _).mp serves
  exact ⟨_, config, ran, of_decide_eq_true opened,
    daemon_memory_safe sideloads (by decide +kernel) _ config ran⟩

/-! ## What the host must not send -/

/-- The thread of the event loop is stuck. -/
def mainStuck (config : adb.Config) : Bool :=
  match config.program .main with
  | .stop => true
  | _ => false

theorem stuck_of_mainStuck {config : adb.Config} (stuck : mainStuck config) : adb.Stuck config := by
  unfold mainStuck at stuck
  split at stuck
  · exact ⟨.main, ‹_›⟩
  · cases stuck

theorem exists_stuck (moves : List adb.Move) (stuck : (adb.run (initial host) moves).any mainStuck) :
    ∃ moves config, adb.run (initial host) moves = some config ∧ adb.Stuck config := by
  obtain ⟨config, ran, stopped⟩ := (Option.any_eq_true _ _).mp stuck
  exact ⟨moves, config, ran, stuck_of_mainStuck stopped⟩

/-- A host whose banner does not end. -/
def shortBanner : List Packet := [hostPacket aCnxn 0 0 (ascii "host")]

/-- A host that says that the transport is offline, and then goes on. -/
def saysOffline : List Packet :=
  hostPacket aSync 0 0 [] :: sideloads ++ [hostPacket aOkay 7 1 []]

theorem daemon_unsafe : ((∀ packet ∈ shortBanner, packet.passes) ∧
      ∃ moves config, adb.run (initial shortBanner) moves = some config ∧ adb.Stuck config) ∧
    (∀ packet ∈ saysOffline, packet.passes) ∧
      ∃ moves config, adb.run (initial saysOffline) moves = some config ∧ adb.Stuck config := by
  refine ⟨⟨by decide +kernel, ?_⟩, by decide +kernel, ?_⟩
  · exact exists_stuck (turns 7 .main .packet) (by decide +kernel)
  · -- The event loop has found the socket that the host writes about, when the input thread
    -- closes it.
    exact exists_stuck (turns 19 .main .packet ++ turns 1 .main (.descriptor 5) ++
      turns 25 .main .packet ++ turns 24 .input .ok ++ turns 1 .main .ok) (by decide +kernel)

end PhilzTouch.Adb
